import TinyServe.PrefixCacheBase
import TinyServe.PrefixClaims

set_option autoImplicit false

/-!
What a prefix cache is for: a table of claims on block paths, and the answers to be read off it.
Both backends are measured against these definitions.
-/
namespace TinyServe.PrefixCacheTable
open PrefixCacheBase PrefixClaims

inductive Op where
  | insert (tokens : List Token) (seqId : SeqId)
  | evict (seqId : SeqId)
  | match_ (tokens : List Token)
  | matchForReuse (tokens : List Token)
  | nodeCount
  | seqCount

inductive Answer where
  | done
  | published (nTokens : ℕ)
  | found (m : PrefixMatch)
  | count (n : ℤ)
  deriving DecidableEq

abbrev Table := Claims SeqId Block

def matchIn (blockSize : ℕ) (t : Table) (tokens : List Token) : PrefixMatch :=
  let q := blocks blockSize tokens
  if depth t q = 0 then .none else ⟨blockSize * depth t q, (donor t q).getD noSeq⟩

def reuseIn (blockSize : ℕ) (t : Table) (tokens : List Token) : PrefixMatch :=
  Id.run (matchForReuse blockSize (fun ts => pure (matchIn blockSize t ts)) tokens)

def update (blockSize : ℕ) (t : Table) : Op → Table
  | .insert tokens s =>
    if tokens.length < blockSize then t else publish t s (blocks blockSize tokens)
  | .evict s => PrefixClaims.evict t s
  | _ => t

def answer (blockSize : ℕ) (t : Table) : Op → Answer
  | .insert tokens _ =>
    .published (if tokens.length < blockSize then 0
      else (blocks blockSize tokens).length * blockSize)
  | .evict _ => .done
  | .match_ tokens => .found (matchIn blockSize t tokens)
  | .matchForReuse tokens => .found (reuseIn blockSize t tokens)
  | .nodeCount => .count (prefixes t).card
  | .seqCount => .count t.length

/-- The answers to a sequence of operations, in order. -/
def answers (blockSize : ℕ) : Table → List Op → List Answer
  | _, [] => []
  | t, op :: ops => answer blockSize t op :: answers blockSize (update blockSize t op) ops

/-- The claims after a sequence of operations on an empty table. -/
def after (blockSize : ℕ) (ops : List Op) : Table := ops.foldl (update blockSize) []

theorem after_concat (blockSize : ℕ) (ops : List Op) (op : Op) :
    after blockSize (ops ++ [op]) = update blockSize (after blockSize ops) op := by
  simp [after]

/-- A match names a claim that covers it. -/
theorem matchIn_sound {blockSize : ℕ} {t : Table} {tokens : List Token}
    (h : 0 < (matchIn blockSize t tokens).nTokens) :
    ∃ k path, (matchIn blockSize t tokens).nTokens = blockSize * k ∧
      k ≤ tokens.length / blockSize ∧ ((matchIn blockSize t tokens).seqId, path) ∈ t ∧
      (blocks blockSize tokens).take k <+: path := by
  by_cases h0 : depth t (blocks blockSize tokens) = 0
  · simp [matchIn, h0, PrefixMatch.none] at h
  · obtain ⟨s, path, hdonor, hmem, hpath⟩ := donor_claim (Nat.pos_of_ne_zero h0)
    have hle := depth_le t (blocks blockSize tokens)
    rw [blocks_length] at hle
    refine ⟨_, path, by simp [matchIn, h0], hle, ?_, hpath⟩
    simpa [matchIn, h0, hdonor] using hmem

/-- The whole blocks of a prompt short of its last token, counted in tokens. -/
def usable (blockSize : ℕ) (tokens : List Token) : ℕ :=
  (tokens.length - 1) / blockSize * blockSize

theorem usable_cast (blockSize : ℕ) (tokens : List Token) :
    (((tokens.length : ℤ) - 1).fdiv blockSize * blockSize).toNat = usable blockSize tokens := by
  rw [usable, Int.fdiv_eq_ediv_of_nonneg _ (Int.natCast_nonneg _)]
  cases tokens with
  | nil =>
    have hneg : ((0 : ℤ) - 1) / (blockSize : ℤ) * blockSize ≤ 0 := by
      by_cases hb : (blockSize : ℤ) = 0
      · simp [hb]
      · exact (Int.ediv_mul_le _ hb).trans (by omega)
    simpa using hneg
  | cons t ts =>
    rw [List.length_cons, Nat.add_sub_cancel, Int.natCast_succ, Int.add_sub_cancel,
      ← Int.natCast_ediv, ← Int.natCast_mul, Int.toNat_natCast]

theorem reuseIn_eq (blockSize : ℕ) (t : Table) (tokens : List Token) :
    reuseIn blockSize t tokens =
      if usable blockSize tokens = 0 then .none
      else if (matchIn blockSize t tokens).nTokens ≤ usable blockSize tokens then
        matchIn blockSize t tokens
      else ⟨usable blockSize tokens, (matchIn blockSize t tokens).seqId⟩ := by
  have hcast := usable_cast blockSize tokens
  simp only [reuseIn, matchForReuse, pure_bind]
  by_cases hu : ((tokens.length : ℤ) - 1).fdiv blockSize * blockSize ≤ 0
  · have hzero : usable blockSize tokens = 0 := by omega
    rw [if_pos hu, if_pos hzero]
    rfl
  · have hpos : usable blockSize tokens ≠ 0 := by omega
    rw [if_neg hu, if_neg hpos]
    by_cases hle : (matchIn blockSize t tokens).nTokens ≤ usable blockSize tokens
    · have hle' : ((matchIn blockSize t tokens).nTokens : ℤ) ≤
          ((tokens.length : ℤ) - 1).fdiv blockSize * blockSize := by omega
      rw [if_pos hle', if_pos hle]
      rfl
    · have hle' : ¬ ((matchIn blockSize t tokens).nTokens : ℤ) ≤
          ((tokens.length : ℤ) - 1).fdiv blockSize * blockSize := by omega
      rw [if_neg hle', if_neg hle, hcast]
      rfl

/-- Whoever is named is the donor of the whole match, also where the clamp cuts it short. -/
theorem reuseIn_donor {blockSize : ℕ} {t : Table} {tokens : List Token}
    (h : 0 < (reuseIn blockSize t tokens).nTokens) :
    0 < depth t (blocks blockSize tokens) ∧
      donor t (blocks blockSize tokens) = some (reuseIn blockSize t tokens).seqId := by
  have hmatch : (reuseIn blockSize t tokens).seqId = (matchIn blockSize t tokens).seqId ∧
      0 < (matchIn blockSize t tokens).nTokens := by
    rw [reuseIn_eq] at h ⊢
    split_ifs at h ⊢ with hu hle
    · simp [PrefixMatch.none] at h
    · exact ⟨rfl, h⟩
    · exact ⟨rfl, by omega⟩
  by_cases h0 : depth t (blocks blockSize tokens) = 0
  · simp [matchIn, h0, PrefixMatch.none] at hmatch
  · obtain ⟨s, path, hdonor, -⟩ := donor_claim (Nat.pos_of_ne_zero h0)
    refine ⟨Nat.pos_of_ne_zero h0, ?_⟩
    rw [hmatch.1, matchIn, if_neg h0, hdonor, Option.getD_some]

/-- What is offered for reuse leaves a token over, and a claim covers it. -/
theorem reuseIn_sound {blockSize : ℕ} (hb : 1 ≤ blockSize) {t : Table} {tokens : List Token}
    (h : 0 < (reuseIn blockSize t tokens).nTokens) :
    ∃ k path, (reuseIn blockSize t tokens).nTokens = k * blockSize ∧
      (reuseIn blockSize t tokens).nTokens < tokens.length ∧
      ((reuseIn blockSize t tokens).seqId, path) ∈ t ∧
      (blocks blockSize tokens).take k <+: path := by
  rw [reuseIn_eq] at h ⊢
  have hmul : usable blockSize tokens ≤ tokens.length - 1 :=
    Nat.div_mul_le_self (tokens.length - 1) blockSize
  by_cases hu : usable blockSize tokens = 0
  · rw [if_pos hu] at h
    simp [PrefixMatch.none] at h
  · rw [if_neg hu] at h ⊢
    by_cases hle : (matchIn blockSize t tokens).nTokens ≤ usable blockSize tokens
    · rw [if_pos hle] at h ⊢
      obtain ⟨k, path, hn, -, hmem, hpath⟩ := matchIn_sound h
      exact ⟨k, path, hn.trans (Nat.mul_comm _ _), by omega, hmem, hpath⟩
    · have hpos : 0 < (matchIn blockSize t tokens).nTokens := by omega
      obtain ⟨k, path, hn, -, hmem, hpath⟩ := matchIn_sound hpos
      rw [if_neg hle]
      have hku : (tokens.length - 1) / blockSize ≤ k := by
        refine Nat.le_of_mul_le_mul_right (c := blockSize) ?_ hb
        rw [Nat.mul_comm k, ← hn]
        exact (not_le.mp hle).le
      refine ⟨(tokens.length - 1) / blockSize, path, rfl, ?_, hmem,
        (List.take_prefix_take_left hku).trans hpath⟩
      show usable blockSize tokens < tokens.length
      omega

end TinyServe.PrefixCacheTable
