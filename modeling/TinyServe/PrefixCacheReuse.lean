import TinyServe.PythonPrefixCacheRefinement
import Mathlib.Order.Bounds.Defs

set_option autoImplicit false

/-! What `match_for_reuse` offers, in terms of the prompts that are published. -/
namespace TinyServe.PrefixCacheTable
open PrefixCacheBase PrefixClaims

/-- The published prompts: of each sequence the last one of at least a block, unless evicted. -/
def publishedBy (blockSize : ℕ) (prompts : Claims SeqId Token) : Op → Claims SeqId Token
  | .insert tokens s =>
    if tokens.length < blockSize then prompts else publish prompts s tokens
  | .evict s => PrefixClaims.evict prompts s
  | _ => prompts

def published (blockSize : ℕ) (ops : List Op) : Claims SeqId Token :=
  ops.foldl (publishedBy blockSize) []

/-- The lengths that could be offered: whole blocks, short of the last token, that some published
prompt begins with. -/
def Reusable (blockSize : ℕ) (prompts : Claims SeqId Token) (tokens : List Token) (n : ℕ) : Prop :=
  blockSize ∣ n ∧ (n : ℤ) ≤ (tokens.length : ℤ) - 1 ∧ ∃ c ∈ prompts, tokens.take n <+: c.2

section Prompts
variable {blockSize : ℕ} {tokens : List Token}

theorem evict_map (f : List Token → List Block) (prompts : Claims SeqId Token) (s : SeqId) :
    PrefixClaims.evict (prompts.map fun c => (c.1, f c.2)) s =
      (PrefixClaims.evict prompts s).map fun c => (c.1, f c.2) := by
  rw [PrefixClaims.evict, PrefixClaims.evict, List.filter_map]
  rfl

/-- The claims are the blocks of the published prompts. -/
theorem after_eq (blockSize : ℕ) (ops : List Op) :
    after blockSize ops = (published blockSize ops).map fun c => (c.1, blocks blockSize c.2) := by
  induction ops using List.reverseRecOn with
  | nil => rfl
  | append_singleton ops op ih =>
    have hpublished : published blockSize (ops ++ [op]) =
        publishedBy blockSize (published blockSize ops) op := by simp [published]
    rw [after_concat, hpublished, ih]
    cases op with
    | insert tokens s =>
      simp only [update, publishedBy]
      by_cases hlen : tokens.length < blockSize
      · rw [if_pos hlen, if_pos hlen]
      · rw [if_neg hlen, if_neg hlen, publish, publish, evict_map, List.map_append]
        rfl
    | evict s => exact evict_map (blocks blockSize) _ s
    | match_ | matchForReuse | nodeCount | seqCount => rfl

theorem mem_after {ops : List Op} {s : SeqId} {path : List Block} :
    (s, path) ∈ after blockSize ops ↔
      ∃ prompt, (s, prompt) ∈ published blockSize ops ∧ blocks blockSize prompt = path := by
  rw [after_eq, List.mem_map]
  constructor
  · rintro ⟨c, hc, he⟩
    obtain ⟨rfl, rfl⟩ := Prod.mk.inj he
    exact ⟨c.2, hc, rfl⟩
  · rintro ⟨prompt, hp, rfl⟩
    exact ⟨(s, prompt), hp, rfl⟩

end Prompts

section Offers
variable {blockSize : ℕ} {tokens : List Token}

theorem matchIn_nTokens (blockSize : ℕ) (t : Table) (tokens : List Token) :
    (matchIn blockSize t tokens).nTokens = blockSize * depth t (blocks blockSize tokens) := by
  rw [matchIn]
  split_ifs with h
  · rw [h, Nat.mul_zero]
    rfl
  · rfl

/-- The depth of the match, cut off before the last token. -/
theorem reuseIn_nTokens (blockSize : ℕ) (t : Table) (tokens : List Token) :
    (reuseIn blockSize t tokens).nTokens =
      min (depth t (blocks blockSize tokens)) ((tokens.length - 1) / blockSize) * blockSize := by
  have hmatch := matchIn_nTokens blockSize t tokens
  rw [Nat.mul_comm] at hmatch
  rw [← Nat.mul_min_mul_right, ← hmatch]
  show _ = min (matchIn blockSize t tokens).nTokens (usable blockSize tokens)
  rw [reuseIn_eq]
  split_ifs with hu hle
  · rw [hu, Nat.min_zero]
    rfl
  · exact (min_eq_left hle).symm
  · exact (min_eq_right (not_le.mp hle).le).symm

theorem le_depth_after (hb : 1 ≤ blockSize) {ops : List Op} {k : ℕ} (hk : 0 < k)
    (hlen : k ≤ tokens.length / blockSize) :
    k ≤ depth (after blockSize ops) (blocks blockSize tokens) ↔
      ∃ c ∈ published blockSize ops, tokens.take (k * blockSize) <+: c.2 := by
  rw [le_depth_iff, blocks_length]
  constructor
  · rintro (h0 | ⟨-, ⟨s, path⟩, hc, hp⟩)
    · omega
    · obtain ⟨prompt, hprompt, rfl⟩ := mem_after.mp hc
      exact ⟨(s, prompt), hprompt, (take_blocks_prefix_iff hb hlen).mp hp⟩
  · rintro ⟨⟨s, prompt⟩, hprompt, hp⟩
    exact .inr ⟨hlen, _, mem_after.mpr ⟨prompt, hprompt, rfl⟩, (take_blocks_prefix_iff hb hlen).mpr hp⟩

end Offers

end TinyServe.PrefixCacheTable

namespace TinyServe.PythonPrefixCache
open PrefixCacheBase PrefixCacheTable

/-- What is offered is the most that could be, and whoever is named has it. -/
theorem reuse_greatest (blockSize : ℕ) (hb : 1 ≤ blockSize) (ops : List Op) (tokens : List Token) :
    let offer := ((init blockSize hb).after ops).matchForReuse tokens
    let prompts := published blockSize ops
    IsGreatest {n | n = 0 ∨ Reusable blockSize prompts tokens n} offer.nTokens ∧
      (0 < offer.nTokens →
        ∃ prompt, (offer.seqId, prompt) ∈ prompts ∧ tokens.take offer.nTokens <+: prompt) := by
  intro offer prompts
  obtain ⟨hbs, addr, h⟩ := after_refines blockSize hb ops
  have hoffer : offer = reuseIn blockSize (PrefixCacheTable.after blockSize ops) tokens := by
    rw [← congrArg (fun b => reuseIn b _ tokens) hbs]
    exact h.matchForReuse_eq tokens
  have hnamed : 0 < offer.nTokens → blockSize ∣ offer.nTokens ∧ offer.nTokens < tokens.length ∧
      ∃ prompt, (offer.seqId, prompt) ∈ prompts ∧ tokens.take offer.nTokens <+: prompt := by
    intro hpos
    rw [hoffer] at hpos ⊢
    obtain ⟨k, path, hn, hlt, hmem, hp⟩ := reuseIn_sound hb hpos
    obtain ⟨prompt, hprompt, rfl⟩ := mem_after.mp hmem
    rw [hn] at hlt ⊢
    have hk : k ≤ tokens.length / blockSize := (Nat.le_div_iff_mul_le hb).mpr hlt.le
    exact ⟨Nat.dvd_mul_left _ _, hlt, prompt, hprompt, (take_blocks_prefix_iff hb hk).mp hp⟩
  refine ⟨⟨?_, ?_⟩, fun hpos => (hnamed hpos).2.2⟩
  · rcases Nat.eq_zero_or_pos offer.nTokens with h0 | hpos
    · exact .inl h0
    · obtain ⟨hdvd, hlt, prompt, hprompt, hp⟩ := hnamed hpos
      exact .inr ⟨hdvd, by omega, (offer.seqId, prompt), hprompt, hp⟩
  · rintro n (rfl | ⟨⟨k, rfl⟩, hlt, hcovered⟩)
    · exact Nat.zero_le _
    · rcases Nat.eq_zero_or_pos k with rfl | hk
      · exact Nat.zero_le _
      · rw [Nat.mul_comm] at hlt hcovered ⊢
        have hshort : k ≤ (tokens.length - 1) / blockSize :=
          (Nat.le_div_iff_mul_le hb).mpr (by omega)
        have hdepth := (le_depth_after hb hk
          (hshort.trans (Nat.div_le_div_right (Nat.sub_le _ _)))).mpr hcovered
        rw [hoffer, reuseIn_nTokens]
        exact Nat.mul_le_mul_right _ (le_min hdepth hshort)

theorem reuse_greatest_shared : 1 ≤ 2 ∧ IsGreatest
    {n | n = 0 ∨ Reusable 2 (published 2 [.insert [1, 2, 3, 4] 0]) [1, 2, 3, 4] n} 2 := by
  have hoffer : (((init 2 (by decide)).after [.insert [1, 2, 3, 4] 0]).matchForReuse
      [1, 2, 3, 4]).nTokens = 2 := by decide +kernel
  have hgreatest := (reuse_greatest 2 (by decide) [.insert [1, 2, 3, 4] 0] [1, 2, 3, 4]).1
  rw [hoffer] at hgreatest
  exact ⟨by decide, hgreatest⟩

end TinyServe.PythonPrefixCache
