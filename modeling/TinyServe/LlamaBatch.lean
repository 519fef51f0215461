import TinyServe.LlamaRuntime

set_option autoImplicit false

/-!
The `llama_batch` that `_decode_sync` fills. It is allocated once and never cleared, so every decode
finds in it what the ones before have left.
-/
namespace TinyServe.LlamaRuntime
open SequenceMemory BatchBuilder

/-- What `llama_batch_init(capacity, 0, n_seq_max)` allocates, whatever it holds. -/
structure LlamaBatch (capacity nSeqMax : ℕ) where
  nTokens : ℕ
  token : Vector Token capacity
  pos : Vector ℕ capacity
  nSeqId : Vector ℕ capacity
  seqId : Vector (Vector SeqId nSeqMax) capacity
  logits : Vector Bool capacity

/-- A row as `llama_decode` reads it. -/
structure LlamaRow where
  token : Token
  pos : ℕ
  seqIds : List SeqId
  logits : Bool
  deriving DecidableEq

def LlamaRow.of (row : BatchRow) : LlamaRow := ⟨row.token, row.pos, [row.seqId], row.needsLogits⟩

namespace LlamaBatch
variable {capacity nSeqMax : ℕ}

/-- The assignments of one turn of the loop; `none` is a write outside what was allocated. -/
def setRow (b : LlamaBatch capacity nSeqMax) (i : ℕ) (row : BatchRow) :
    Option (LlamaBatch capacity nSeqMax) :=
  if hi : i < capacity then
    if hs : 0 < nSeqMax then
      some { b with
        token := b.token.set i row.token
        pos := b.pos.set i row.pos
        nSeqId := b.nSeqId.set i 1
        seqId := b.seqId.set i (b.seqId[i].set 0 row.seqId)
        logits := b.logits.set i row.needsLogits }
    else
      none
  else
    none

def store (b : LlamaBatch capacity nSeqMax) : ℕ → List BatchRow →
    Option (LlamaBatch capacity nSeqMax)
  | _, [] => some b
  | i, row :: rest => (b.setRow i row).bind fun b => b.store (i + 1) rest

/-- `_decode_sync` up to the call of `llama_decode`. -/
def load (b : LlamaBatch capacity nSeqMax) (batch : PreparedBatch) :
    Option (LlamaBatch capacity nSeqMax) :=
  { b with nTokens := batch.rows.length }.store 0 batch.rows

def row (b : LlamaBatch capacity nSeqMax) (i : ℕ) : Option LlamaRow :=
  if h : i < capacity then
    some ⟨b.token[i], b.pos[i], b.seqId[i].toList.take b.nSeqId[i], b.logits[i]⟩
  else
    none

/-- The rows that `llama_decode` reads; `none` is a read outside what was allocated. -/
def read (b : LlamaBatch capacity nSeqMax) : List (Option LlamaRow) :=
  (List.range b.nTokens).map b.row

section Filled
variable {b b' : LlamaBatch capacity nSeqMax} {i j : ℕ} {row : BatchRow} {rows : List BatchRow}

theorem setRow_some (b : LlamaBatch capacity nSeqMax) (hi : i < capacity) (hs : 0 < nSeqMax)
    (row : BatchRow) : ∃ b', b.setRow i row = some b' := by
  rw [setRow, dif_pos hi, dif_pos hs]
  exact ⟨_, rfl⟩

theorem setRow_same (h : b.setRow i row = some b') : b'.row i = some (.of row) := by
  rw [setRow] at h
  split_ifs at h with hi hs
  obtain rfl := Option.some.inj h
  obtain ⟨m, rfl⟩ : ∃ m, nSeqMax = m + 1 := ⟨nSeqMax - 1, by omega⟩
  simp only [LlamaBatch.row, dif_pos hi, LlamaRow.of, Vector.getElem_set_self, Vector.toList_set,
    List.take_one, Option.some.injEq, LlamaRow.mk.injEq, true_and, and_true]
  cases hold : b.seqId[i].toList with
  | nil => simpa using congrArg List.length hold
  | cons s rest => rfl

theorem setRow_other (h : b.setRow i row = some b') (hj : i ≠ j) : b'.row j = b.row j := by
  rw [setRow] at h
  split_ifs at h with hi hs
  obtain rfl := Option.some.inj h
  by_cases hcap : j < capacity
  · simp [LlamaBatch.row, hcap, hj]
  · simp [LlamaBatch.row, hcap]

theorem setRow_nTokens (h : b.setRow i row = some b') : b'.nTokens = b.nTokens := by
  rw [setRow] at h
  split_ifs at h
  obtain rfl := Option.some.inj h
  rfl

theorem store_some (b : LlamaBatch capacity nSeqMax) (hfits : i + rows.length ≤ capacity)
    (hs : 0 < nSeqMax) : ∃ b', b.store i rows = some b' := by
  induction rows generalizing b i with
  | nil => exact ⟨b, rfl⟩
  | cons row rows ih =>
    rw [List.length_cons] at hfits
    obtain ⟨u, hu⟩ := b.setRow_some (by omega : i < capacity) hs row
    rw [store, hu]
    exact ih u (by omega)

/-- The rows below the first one stored are untouched, the others are the ones stored. -/
theorem store_rows (h : b.store i rows = some b') : b'.nTokens = b.nTokens ∧
    (∀ j < i, b'.row j = b.row j) ∧
    ∀ k row, rows[k]? = some row → b'.row (i + k) = some (.of row) := by
  induction rows generalizing b i with
  | nil =>
    obtain rfl := Option.some.inj h
    exact ⟨rfl, fun _ _ => rfl, by simp⟩
  | cons first rows ih =>
    obtain ⟨u, hu, hrest⟩ := Option.bind_eq_some_iff.mp h
    obtain ⟨hn, hbelow, habove⟩ := ih hrest
    refine ⟨hn.trans (setRow_nTokens hu), fun j hj => ?_, fun k row hk => ?_⟩
    · rw [hbelow j (by omega), setRow_other hu (by omega)]
    · cases k with
      | zero =>
        obtain rfl := Option.some.inj hk
        rw [Nat.add_zero, hbelow i (by omega), setRow_same hu]
      | succ k =>
        have hnext := habove k row hk
        rwa [Nat.add_right_comm] at hnext

/-- Whatever the buffer held, `llama_decode` is given the rows of the batch and nothing else. -/
theorem load_read (b : LlamaBatch capacity nSeqMax) {batch : PreparedBatch}
    (hfits : batch.rows.length ≤ capacity) (hs : 0 < nSeqMax) :
    ∃ b', b.load batch = some b' ∧ b'.read = batch.rows.map fun row => some (.of row) := by
  have hroom : 0 + batch.rows.length ≤ capacity := by rwa [Nat.zero_add]
  obtain ⟨b', hb'⟩ := store_some { b with nTokens := batch.rows.length } hroom hs
  obtain ⟨hn, -, hrows⟩ := store_rows hb'
  refine ⟨b', hb', List.ext_getElem? fun k => ?_⟩
  rw [LlamaBatch.read, hn, List.getElem?_map, List.getElem?_map]
  cases hk : batch.rows[k]? with
  | none =>
    rw [List.getElem?_eq_none (by simpa using hk)]
    rfl
  | some row =>
    have hlt := (List.getElem?_eq_some_iff.mp hk).1
    rw [List.getElem?_range hlt, Option.map_some, Option.map_some, ← Nat.zero_add k, hrows k row hk]

end Filled

end LlamaBatch

end TinyServe.LlamaRuntime
