import TinyServe.Vocabulary
import Mathlib.Algebra.Order.Ring.Int

set_option autoImplicit false

namespace TinyServe.PrefixCacheBase

abbrev Block := List Token

def noSeq : SeqId := -1

structure PrefixMatch where
  nTokens : ℕ
  seqId : SeqId
  deriving DecidableEq, Repr

/-- `__bool__`. -/
def PrefixMatch.hit (m : PrefixMatch) : Bool := 0 < m.nTokens

def PrefixMatch.none : PrefixMatch := ⟨0, noSeq⟩

/-- The whole blocks of a token list; the tail shorter than a block is left out. -/
def blocks (blockSize : ℕ) (tokens : List Token) : List Block :=
  (List.range (tokens.length / blockSize)).map fun i =>
    slice tokens (i * blockSize) ((i + 1) * blockSize)

/-- The clamp both backends share. `match_` is the backend's own lookup. -/
def matchForReuse {m : Type → Type} [Monad m] (blockSize : ℕ)
    (match_ : List Token → m PrefixMatch) (tokens : List Token) : m PrefixMatch := do
  let usable : ℤ := ((tokens.length : ℤ) - 1).fdiv blockSize * blockSize
  if usable ≤ 0 then
    return PrefixMatch.none
  let hit ← match_ tokens
  if (hit.nTokens : ℤ) ≤ usable then
    return hit
  return ⟨usable.toNat, hit.seqId⟩

@[simp] theorem blocks_length (blockSize : ℕ) (tokens : List Token) :
    (blocks blockSize tokens).length = tokens.length / blockSize := by simp [blocks]

theorem blocks_eq_nil {blockSize : ℕ} (h : 1 ≤ blockSize) (tokens : List Token) :
    blocks blockSize tokens = [] ↔ tokens.length < blockSize := by
  rw [← List.length_eq_zero_iff, blocks_length, Nat.div_eq_zero_iff]
  omega

theorem blocks_take_flatten (blockSize : ℕ) (tokens : List Token) {k : ℕ}
    (hk : k ≤ tokens.length / blockSize) :
    ((blocks blockSize tokens).take k).flatten = tokens.take (k * blockSize) := by
  induction k with
  | zero => simp
  | succ k ih =>
    have hlt : k < (blocks blockSize tokens).length := by
      rw [blocks_length]
      omega
    have hblock : (blocks blockSize tokens)[k] =
        (tokens.take ((k + 1) * blockSize)).drop (k * blockSize) := by simp [blocks, slice]
    have hinit : (tokens.take ((k + 1) * blockSize)).take (k * blockSize) =
        tokens.take (k * blockSize) := by
      rw [List.take_take, min_eq_left (Nat.mul_le_mul_right _ (Nat.le_succ k))]
    rw [← List.take_append_getElem hlt, List.flatten_append, ih (by omega),
      List.flatten_singleton, hblock, ← hinit, List.take_append_drop]

/-- Block paths that agree on `k` blocks come from prompts that agree on their tokens. -/
theorem take_eq_of_blocks {blockSize k : ℕ} {tokens other : List Token}
    (hk : k ≤ tokens.length / blockSize)
    (h : (blocks blockSize tokens).take k <+: blocks blockSize other) :
    tokens.take (k * blockSize) = other.take (k * blockSize) := by
  have hlen : ((blocks blockSize tokens).take k).length = k := by
    rw [List.length_take, blocks_length]
    omega
  have hle := h.length_le
  rw [hlen, blocks_length] at hle
  have hsame := List.prefix_iff_eq_take.mp h
  rw [hlen] at hsame
  rw [← blocks_take_flatten blockSize tokens hk, hsame, blocks_take_flatten blockSize other hle]

theorem prefix_blocks (blockSize : ℕ) {tokens other : List Token} (h : tokens <+: other) :
    blocks blockSize tokens <+: blocks blockSize other := by
  obtain ⟨rest, rfl⟩ := h
  have hle : tokens.length / blockSize ≤ (tokens ++ rest).length / blockSize :=
    Nat.div_le_div_right (by rw [List.length_append]; omega)
  have htake : (blocks blockSize (tokens ++ rest)).take (tokens.length / blockSize) =
      blocks blockSize tokens := by
    rw [blocks, blocks, ← List.map_take, List.take_range, min_eq_left hle]
    apply List.map_congr_left
    intro i hi
    have hend : (i + 1) * blockSize ≤ tokens.length :=
      (Nat.mul_le_mul_right _ (List.mem_range.mp hi)).trans (Nat.div_mul_le_self _ _)
    rw [slice, slice, List.take_append_of_le_length hend]
  rw [← htake]
  exact List.take_prefix _ _

/-- A prompt's first blocks are on a path exactly if the path's prompt begins with their tokens. -/
theorem take_blocks_prefix_iff {blockSize k : ℕ} (hb : 1 ≤ blockSize) {tokens other : List Token}
    (hk : k ≤ tokens.length / blockSize) :
    (blocks blockSize tokens).take k <+: blocks blockSize other ↔
      tokens.take (k * blockSize) <+: other := by
  constructor
  · intro h
    rw [take_eq_of_blocks hk h]
    exact List.take_prefix _ _
  · intro h
    have hle : k * blockSize ≤ tokens.length :=
      (Nat.mul_le_mul_right _ hk).trans (Nat.div_mul_le_self _ _)
    have hlen : (blocks blockSize (tokens.take (k * blockSize))).length = k := by
      rw [blocks_length, List.length_take, min_eq_left hle, Nat.mul_div_cancel _ hb]
    have hsame :=
      List.prefix_iff_eq_take.mp (prefix_blocks blockSize (List.take_prefix (k * blockSize) tokens))
    rw [hlen] at hsame
    rw [← hsame]
    exact prefix_blocks blockSize h

end TinyServe.PrefixCacheBase
