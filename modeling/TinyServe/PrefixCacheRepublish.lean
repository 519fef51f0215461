import TinyServe.PrefixCacheBackends
import TinyServe.PrefixCacheReuse

set_option autoImplicit false

/-! Publishing a sequence again, against evicting it first. -/
namespace TinyServe.PrefixCacheTable
open PrefixCacheBase PrefixClaims

/-- The second prompt reaches the tree, or there is no claim for it to replace: the first is short
too and nothing was published before. -/
def Supersedes (blockSize : ℕ) (ops : List Op) (s : SeqId) (first second : List Token) : Prop :=
  blockSize ≤ second.length ∨
    first.length < blockSize ∧ s ∉ (published blockSize ops).map Prod.fst

/-- `path` is what `s` advertises, if it has a block at all. -/
def OnlyAdvertises (claims : Table) (s : SeqId) (path : List Block) : Prop :=
  ∀ p, p ≠ [] → ((s, p) ∈ claims ↔ p = path)

section Republish
variable {blockSize : ℕ} {ops : List Op} {s : SeqId} {first second : List Token}

theorem after_two (blockSize : ℕ) (ops : List Op) (op op' : Op) :
    after blockSize (ops ++ [op, op']) =
      update blockSize (update blockSize (after blockSize ops) op) op' := by
  simp [after]

theorem after_keys (blockSize : ℕ) (ops : List Op) :
    (after blockSize ops).map Prod.fst = (published blockSize ops).map Prod.fst := by
  rw [after_eq, List.map_map]
  rfl

theorem after_nodup (hb : 1 ≤ blockSize) (ops : List Op) :
    ((after blockSize ops).map Prod.fst).Nodup := by
  obtain ⟨-, addr, h⟩ := PythonPrefixCache.after_refines blockSize hb ops
  exact h.nodup

theorem supersedes_eq (h : Supersedes blockSize ops s first second) :
    after blockSize (ops ++ [.insert first s, .insert second s]) =
      after blockSize (ops ++ [.evict s, .insert second s]) := by
  rw [after_two, after_two]
  rcases h with hlong | ⟨hshort, hnone⟩
  · have hreach : ¬ second.length < blockSize := by omega
    simp only [update, if_neg hreach, publish_evict]
    split_ifs
    · rfl
    · exact publish_publish _ _ _ _
  · rw [← after_keys] at hnone
    simp only [update, if_pos hshort, evict_of_not_mem hnone]

/-- A short second prompt stops at the guard and leaves the claim it finds. -/
theorem not_supersedes_length (hb : 1 ≤ blockSize) (h : ¬ Supersedes blockSize ops s first second) :
    (after blockSize (ops ++ [.insert first s, .insert second s])).length =
      (after blockSize (ops ++ [.evict s, .insert second s])).length + 1 := by
  rw [Supersedes, not_or, not_and_or, not_not, ← after_keys] at h
  obtain ⟨hshort, hclaim⟩ := h
  have hstop : second.length < blockSize := by omega
  rw [after_two, after_two]
  by_cases hfirst : first.length < blockSize
  · have hin := hclaim.resolve_left (not_not.mpr hfirst)
    simp only [update, if_pos hstop, if_pos hfirst]
    exact evict_length (after_nodup hb ops) hin
  · simp only [update, if_pos hstop, if_neg hfirst]
    exact publish_length _ _ _

theorem cleared_advertises (hb : 1 ≤ blockSize) (ops : List Op) (s : SeqId) (second : List Token) :
    OnlyAdvertises (after blockSize (ops ++ [.evict s, .insert second s])) s
      (blocks blockSize second) := by
  intro p hne
  rw [after_two]
  by_cases hlen : second.length < blockSize
  · have hnil := (blocks_eq_nil hb second).mpr hlen
    simp only [update, if_pos hlen, hnil, hne, iff_false]
    exact fun hm => (mem_evict.mp hm).2 rfl
  · simp only [update, if_neg hlen]
    exact mem_publish

/-- The number of sequences tells the two histories apart whenever they differ. -/
theorem republish_answers_iff (hb : 1 ≤ blockSize) {allowed : Op → Prop}
    (hallowed : allowed .seqCount) {f : Answer → Answer}
    (hf : ∀ n : ℕ, f (.count ((n + 1 : ℕ) : ℤ)) ≠ f (.count n)) :
    let twice := after blockSize (ops ++ [.insert first s, .insert second s])
    let cleared := after blockSize (ops ++ [.evict s, .insert second s])
    (∀ later, (∀ op ∈ later, allowed op) →
        (answers blockSize twice later).map f = (answers blockSize cleared later).map f) ∧
      OnlyAdvertises twice s (blocks blockSize second) ↔
        Supersedes blockSize ops s first second := by
  intro twice cleared
  constructor
  · rintro ⟨hsame, -⟩
    by_contra hno
    have hlen : twice.length = cleared.length + 1 := not_supersedes_length hb hno
    have hcount := hsame [.seqCount] fun op hop => List.mem_singleton.mp hop ▸ hallowed
    simp only [answers, answer, List.map_cons, List.map_nil, List.cons.injEq, and_true, hlen]
      at hcount
    exact hf _ hcount
  · intro h
    have heq : twice = cleared := supersedes_eq h
    rw [heq]
    exact ⟨fun _ _ => rfl, cleared_advertises hb ops s second⟩

end Republish

end TinyServe.PrefixCacheTable

namespace TinyServe.PythonPrefixCache
open PrefixCacheTable

/-- No further operations tell the caches apart. -/
def Cache.Same (c d : Cache) : Prop := ∀ later, c.answers later = d.answers later

theorem after_answers (blockSize : ℕ) (hb : 1 ≤ blockSize) (ops later : List Op) :
    ((init blockSize hb).after ops).answers later =
      answers blockSize (PrefixCacheTable.after blockSize ops) later := by
  obtain ⟨hbs, addr, h⟩ := after_refines blockSize hb ops
  rw [h.answers, hbs]

theorem after_claims (blockSize : ℕ) (hb : 1 ≤ blockSize) (ops : List Op) :
    ((init blockSize hb).after ops).claims = PrefixCacheTable.after blockSize ops := by
  obtain ⟨-, addr, h⟩ := after_refines blockSize hb ops
  exact h.claims_eq

end TinyServe.PythonPrefixCache

namespace TinyServe.NativePrefixCache
open PrefixCacheTable

/-- No further operations on `int32_t` values tell the caches apart. -/
def Cache.Same (std : StdSort) (c d : Cache) : Prop :=
  ∀ later, (∀ op ∈ later, OpFits op) → c.answers std later = d.answers std later

theorem narrow_count_succ (n : ℕ) : narrow (.count ((n + 1 : ℕ) : ℤ)) ≠ narrow (.count n) := by
  intro h
  have hn := Answer.count.inj h
  rw [int32, int32, Int.bmod_def, Int.bmod_def] at hn
  omega

theorem after_agrees (std : StdSort) {blockSize : ℕ} (hb : 1 ≤ blockSize) {start : Cache}
    (h : init blockSize = some start) {ops : List Op} (hf : ∀ op ∈ ops, OpFits op) :
    ∃ c, start.after std ops = .ok c ∧ c.handle.claims = PrefixCacheTable.after blockSize ops ∧
      ∀ later, (∀ op ∈ later, OpFits op) → c.answers std later =
        .ok ((answers blockSize (PrefixCacheTable.after blockSize ops) later).map narrow) := by
  obtain ⟨h0, rfl⟩ := init_agrees hb h
  obtain ⟨c, hrun, hbs, hc⟩ := h0.after std hf
  obtain ⟨addr, hr⟩ := hc.handle
  refine ⟨c, hrun, hr.claims_eq, fun later hl => ?_⟩
  rw [hc.answers std hl, hbs]
  rfl

end TinyServe.NativePrefixCache

namespace TinyServe.PrefixCacheBackends
open PrefixCacheBase PrefixCacheTable
open NativePrefixCache (StdSort OpFits TokensFit Fits after_agrees narrow_count_succ)

/-- On both backends the last prompt of a sequence wins just if it supersedes. -/
theorem republish_iff (std : StdSort) (blockSize : ℕ) (hb : 1 ≤ blockSize) (ops : List Op)
    (s : SeqId) (first second : List Token) :
    let twice := ops ++ [.insert first s, .insert second s]
    let cleared := ops ++ [.evict s, .insert second s]
    let python := PythonPrefixCache.init blockSize hb
    ((python.after twice).Same (python.after cleared) ∧
        OnlyAdvertises (python.after twice).claims s (blocks blockSize second) ↔
          Supersedes blockSize ops s first second) ∧
      ∀ start, NativePrefixCache.init blockSize = some start → (∀ op ∈ twice, OpFits op) →
        ∃ c d, start.after std twice = .ok c ∧ start.after std cleared = .ok d ∧
          (c.Same std d ∧ OnlyAdvertises c.handle.claims s (blocks blockSize second) ↔
            Supersedes blockSize ops s first second) := by
  intro twice cleared python
  refine ⟨?_, fun start hstart hfits => ?_⟩
  · have hcount : ∀ n : ℕ, id (Answer.count ((n + 1 : ℕ) : ℤ)) ≠ id (Answer.count n) := by
      intro n h
      have hn := Answer.count.inj h
      omega
    have hiff := @republish_answers_iff _ ops s first second hb (fun _ => True) trivial _ hcount
    simpa only [PythonPrefixCache.Cache.Same, PythonPrefixCache.after_answers,
      PythonPrefixCache.after_claims, python, List.map_id, implies_true, forall_const] using hiff
  · have hcleared : ∀ op ∈ cleared, OpFits op := by
      intro op hop
      rcases List.mem_append.mp hop with hin | hin
      · exact hfits op (List.mem_append_left _ hin)
      · have hsecond : OpFits (.insert second s) := hfits _ (by simp [twice])
        rcases List.mem_cons.mp hin with rfl | hin
        · exact hsecond.2
        · exact List.mem_singleton.mp hin ▸ hsecond
    obtain ⟨c, hc, hcclaims, hcanswers⟩ := after_agrees std hb hstart hfits
    obtain ⟨d, hd, -, hdanswers⟩ := after_agrees std hb hstart hcleared
    refine ⟨c, d, hc, hd, ?_⟩
    rw [hcclaims]
    refine Iff.trans (and_congr_left fun _ => ?_)
      (@republish_answers_iff _ ops s first second hb OpFits trivial _ narrow_count_succ)
    refine forall_congr' fun later => imp_congr_right fun hl => ?_
    rw [hcanswers later hl, hdanswers later hl, Except.ok.injEq]

theorem republish_iff_grown :
    1 ≤ 2 ∧ ∃ start c d, NativePrefixCache.init 2 = some start ∧
      start.after stableSort [.insert [1, 2, 3, 4] 7, .insert [1, 2] 0, .insert [1, 2, 5, 6] 0] =
        .ok c ∧
      start.after stableSort [.insert [1, 2, 3, 4] 7, .evict 0, .insert [1, 2, 5, 6] 0] = .ok d ∧
      c.Same stableSort d ∧ OnlyAdvertises c.handle.claims 0 [[1, 2], [5, 6]] := by
  obtain ⟨start, hstart⟩ := Option.isSome_iff_exists.mp
    (init_isSome (by decide : 1 ≤ 2) (by decide : 2 < 2147483648))
  obtain ⟨c, d, hc, hd, hiff⟩ := (republish_iff stableSort 2 (by decide) [.insert [1, 2, 3, 4] 7] 0
    [1, 2] [1, 2, 5, 6]).2 start hstart (by simp [OpFits, TokensFit, Fits])
  exact ⟨by decide, start, c, d, hstart, hc, hd, hiff.mpr (.inl (by decide))⟩

/-- A prompt below a block is turned away before the claim it should replace is dropped. -/
theorem short_prompt_keeps_claim :
    (¬ ((PythonPrefixCache.init 2 (by decide)).after [.insert [1, 2] 0, .insert [3] 0]).Same
        ((PythonPrefixCache.init 2 (by decide)).after [.evict 0, .insert [3] 0])) ∧
      ((PythonPrefixCache.init 2 (by decide)).after [.insert [1, 2] 0, .insert [3] 0]).match_
        [1, 2] = ⟨2, 0⟩ ∧
      (NativePrefixCache.init 2).map (fun c => c.answers stableSort
        [.insert [1, 2] 0, .insert [3] 0, .seqCount, .match_ [1, 2]]) =
          some (.ok [.published 2, .published 0, .count 1, .found ⟨2, 0⟩]) ∧
      (NativePrefixCache.init 2).map (fun c => c.answers stableSort
        [.evict 0, .insert [3] 0, .seqCount, .match_ [1, 2]]) =
          some (.ok [.done, .published 0, .count 0, .found ⟨0, noSeq⟩]) := by
  refine ⟨fun h => ?_, by decide +kernel, by decide +kernel, by decide +kernel⟩
  exact absurd (h [.seqCount]) (by decide +kernel)

end TinyServe.PrefixCacheBackends
