import TinyServe.Vocabulary
import Mathlib.Data.List.Sort
import Mathlib.Algebra.BigOperators.Group.List.Basic
import Mathlib.Algebra.Ring.Nat

set_option autoImplicit false

namespace TinyServe.BatchBuilder

structure ActiveSequence where
  seqId : SeqId
  pendingTokens : List Token
  nPast : ℕ
  deriving DecidableEq

structure BatchRow where
  seqId : SeqId
  token : Token
  pos : ℕ
  needsLogits : Bool
  deriving DecidableEq

structure PreparedBatch where
  rows : List BatchRow
  deriving DecidableEq

def PreparedBatch.rowCount (b : PreparedBatch) (seqId : SeqId) : ℕ :=
  b.rows.countP fun row => row.seqId = seqId

/-- The rows of a sequence that consumes `take` of its pending tokens. -/
def rowsOf (seq : ActiveSequence) (take : ℕ) : List BatchRow :=
  (seq.pendingTokens.take take).mapIdx fun i token =>
    ⟨seq.seqId, token, seq.nPast + i, take = seq.pendingTokens.length ∧ i = take - 1⟩

/-- The loop of `build_batch` over the ordered sequences. -/
def fill (chunkSize : ℕ) : List ActiveSequence → ℕ → List BatchRow
  | [], _ => []
  | seq :: rest, remaining =>
    if seq.pendingTokens = [] ∨ remaining = 0 then
      fill chunkSize rest remaining
    else
      let take := min chunkSize (min seq.pendingTokens.length remaining)
      rowsOf seq take ++ fill chunkSize rest (remaining - take)

def shortestFirst (active : List ActiveSequence) : List ActiveSequence :=
  active.insertionSort fun a b => a.pendingTokens.length ≤ b.pendingTokens.length

def buildBatch (active : List ActiveSequence) (capacity chunkSize : ℕ) : PreparedBatch :=
  ⟨fill chunkSize (shortestFirst active) capacity⟩

section Rows

@[simp] theorem rowsOf_length (seq : ActiveSequence) (take : ℕ) :
    (rowsOf seq take).length = min take seq.pendingTokens.length := by simp [rowsOf]

theorem rowsOf_getElem? (seq : ActiveSequence) (take i : ℕ) :
    (rowsOf seq take)[i]? = ((seq.pendingTokens.take take)[i]?).map fun token =>
      ⟨seq.seqId, token, seq.nPast + i, take = seq.pendingTokens.length ∧ i = take - 1⟩ := by
  simp [rowsOf]

theorem mem_rowsOf_seqId {seq : ActiveSequence} {take : ℕ} {row : BatchRow}
    (h : row ∈ rowsOf seq take) : row.seqId = seq.seqId := by
  obtain ⟨i, hi⟩ := List.mem_iff_getElem?.mp h
  rw [rowsOf_getElem?, Option.map_eq_some_iff] at hi
  obtain ⟨token, -, rfl⟩ := hi
  rfl

theorem rowsOf_filter (seq : ActiveSequence) (take : ℕ) :
    (rowsOf seq take).filter (fun row => row.seqId = seq.seqId) = rowsOf seq take := by
  refine List.filter_eq_self.mpr fun row hrow => ?_
  simpa using mem_rowsOf_seqId hrow

theorem rowsOf_filter_ne {seq : ActiveSequence} {take : ℕ} {s : SeqId} (h : s ≠ seq.seqId) :
    (rowsOf seq take).filter (fun row => row.seqId = s) = [] := by
  refine List.filter_eq_nil_iff.mpr fun row hrow => ?_
  rw [mem_rowsOf_seqId hrow]
  simpa using h.symm

theorem rowsOf_nil {seq : ActiveSequence} (h : seq.pendingTokens = []) (take : ℕ) :
    rowsOf seq take = [] := by simp [rowsOf, h]

theorem rowsOf_zero (seq : ActiveSequence) : rowsOf seq 0 = [] := by simp [rowsOf]

/-- The row that takes the last pending token asks for logits. -/
theorem rowsOf_last {seq : ActiveSequence} (h : seq.pendingTokens ≠ []) :
    ∃ row ∈ rowsOf seq seq.pendingTokens.length, row.seqId = seq.seqId ∧ row.needsLogits = true := by
  have hpos := List.length_pos_iff.mpr h
  have hlast : seq.pendingTokens.length - 1 < seq.pendingTokens.length := by omega
  refine ⟨⟨seq.seqId, seq.pendingTokens[seq.pendingTokens.length - 1],
    seq.nPast + (seq.pendingTokens.length - 1), true⟩, ?_, rfl, rfl⟩
  refine List.mem_iff_getElem?.mpr ⟨seq.pendingTokens.length - 1, ?_⟩
  rw [rowsOf_getElem?, List.take_length, List.getElem?_eq_getElem hlast]
  simp

end Rows

section Fill
variable {chunkSize : ℕ}

theorem fill_cons (seq : ActiveSequence) (rest : List ActiveSequence) (remaining : ℕ) :
    fill chunkSize (seq :: rest) remaining =
      rowsOf seq (min chunkSize (min seq.pendingTokens.length remaining)) ++
        fill chunkSize rest
          (remaining - min chunkSize (min seq.pendingTokens.length remaining)) := by
  rw [fill]
  split_ifs with h
  · rcases h with h | h
    · simp [rowsOf_nil h, h]
    · simp [h, rowsOf_zero]
  · rfl

theorem fill_seqId {seqs : List ActiveSequence} {remaining : ℕ} {row : BatchRow}
    (h : row ∈ fill chunkSize seqs remaining) : ∃ seq ∈ seqs, row.seqId = seq.seqId := by
  induction seqs generalizing remaining with
  | nil => simp [fill] at h
  | cons seq rest ih =>
    rw [fill_cons, List.mem_append] at h
    rcases h with h | h
    · exact ⟨seq, List.mem_cons_self, mem_rowsOf_seqId h⟩
    · obtain ⟨seq', hm, he⟩ := ih h
      exact ⟨seq', List.mem_cons_of_mem _ hm, he⟩

theorem fill_filter_absent {seqs : List ActiveSequence} {remaining : ℕ} {s : SeqId}
    (h : s ∉ seqs.map ActiveSequence.seqId) :
    (fill chunkSize seqs remaining).filter (fun row => row.seqId = s) = [] := by
  refine List.filter_eq_nil_iff.mpr fun row hrow => ?_
  obtain ⟨seq, hm, he⟩ := fill_seqId hrow
  have hne : row.seqId ≠ s := by
    rintro rfl
    exact h (he ▸ List.mem_map_of_mem hm)
  simpa using hne

/-- What a batch holds of one sequence: the rows of a slice no longer than a chunk. -/
theorem fill_filter {seqs : List ActiveSequence} (hn : (seqs.map ActiveSequence.seqId).Nodup)
    {remaining : ℕ} {seq : ActiveSequence} (h : seq ∈ seqs) :
    ∃ take ≤ min chunkSize seq.pendingTokens.length,
      (fill chunkSize seqs remaining).filter (fun row => row.seqId = seq.seqId) =
        rowsOf seq take := by
  induction seqs generalizing remaining with
  | nil => simp at h
  | cons a rest ih =>
    rw [List.map_cons, List.nodup_cons] at hn
    rw [fill_cons, List.filter_append]
    rcases List.mem_cons.mp h with rfl | hm
    · refine ⟨min chunkSize (min seq.pendingTokens.length remaining), by omega, ?_⟩
      rw [rowsOf_filter, fill_filter_absent hn.1, List.append_nil]
    · have hne : seq.seqId ≠ a.seqId := fun he => hn.1 (he ▸ List.mem_map_of_mem hm)
      rw [rowsOf_filter_ne hne, List.nil_append]
      exact ih hn.2 hm

/-- With room for everything pending, every sequence gets a full slice. -/
theorem fill_filter_full {seqs : List ActiveSequence}
    (hn : (seqs.map ActiveSequence.seqId).Nodup) {remaining : ℕ}
    (hroom : (seqs.map fun seq => seq.pendingTokens.length).sum ≤ remaining)
    {seq : ActiveSequence} (h : seq ∈ seqs) :
    (fill chunkSize seqs remaining).filter (fun row => row.seqId = seq.seqId) =
      rowsOf seq (min chunkSize seq.pendingTokens.length) := by
  induction seqs generalizing remaining with
  | nil => simp at h
  | cons a rest ih =>
    rw [List.map_cons, List.nodup_cons] at hn
    rw [List.map_cons, List.sum_cons] at hroom
    have htake : min chunkSize (min a.pendingTokens.length remaining) =
        min chunkSize a.pendingTokens.length := by omega
    rw [fill_cons, List.filter_append, htake]
    rcases List.mem_cons.mp h with rfl | hm
    · rw [rowsOf_filter, fill_filter_absent hn.1, List.append_nil]
    · have hne : seq.seqId ≠ a.seqId := fun he => hn.1 (he ▸ List.mem_map_of_mem hm)
      rw [rowsOf_filter_ne hne, List.nil_append]
      exact ih hn.2 (by omega) hm

end Fill

section Build
variable {active : List ActiveSequence} {capacity chunkSize : ℕ}

theorem shortestFirst_perm (active : List ActiveSequence) : (shortestFirst active).Perm active :=
  List.perm_insertionSort _ active

theorem shortestFirst_nodup (hn : (active.map ActiveSequence.seqId).Nodup) :
    ((shortestFirst active).map ActiveSequence.seqId).Nodup :=
  ((shortestFirst_perm active).map _).nodup_iff.mpr hn

theorem buildBatch_seqId {row : BatchRow} (h : row ∈ (buildBatch active capacity chunkSize).rows) :
    ∃ seq ∈ active, row.seqId = seq.seqId := by
  obtain ⟨seq, hm, he⟩ := fill_seqId h
  exact ⟨seq, (shortestFirst_perm active).mem_iff.mp hm, he⟩

theorem buildBatch_filter (hn : (active.map ActiveSequence.seqId).Nodup) {seq : ActiveSequence}
    (h : seq ∈ active) :
    ∃ take ≤ min chunkSize seq.pendingTokens.length,
      (buildBatch active capacity chunkSize).rows.filter (fun row => row.seqId = seq.seqId) =
        rowsOf seq take :=
  fill_filter (shortestFirst_nodup hn) ((shortestFirst_perm active).mem_iff.mpr h)

theorem buildBatch_filter_full (hn : (active.map ActiveSequence.seqId).Nodup)
    (hroom : (active.map fun seq => seq.pendingTokens.length).sum ≤ capacity)
    {seq : ActiveSequence} (h : seq ∈ active) :
    (buildBatch active capacity chunkSize).rows.filter (fun row => row.seqId = seq.seqId) =
      rowsOf seq (min chunkSize seq.pendingTokens.length) := by
  refine fill_filter_full (shortestFirst_nodup hn) ?_ ((shortestFirst_perm active).mem_iff.mpr h)
  rwa [((shortestFirst_perm active).map fun seq => seq.pendingTokens.length).sum_eq]

theorem rowCount_eq_length (b : PreparedBatch) (s : SeqId) :
    b.rowCount s = (b.rows.filter fun row => row.seqId = s).length :=
  List.countP_eq_length_filter

end Build

end TinyServe.BatchBuilder
