import TinyServe.BatchBuilder

set_option autoImplicit false

/-! Who gets the rows of a batch when there are not enough for everybody. -/
namespace TinyServe.BatchBuilder

section Fill
variable {chunkSize : ℕ}

/-- The rows fill the capacity, or hold a slice of every sequence. -/
theorem fill_length (chunkSize : ℕ) (seqs : List ActiveSequence) (remaining : ℕ) :
    (fill chunkSize seqs remaining).length =
      min remaining (seqs.map fun seq => min chunkSize seq.pendingTokens.length).sum := by
  induction seqs generalizing remaining with
  | nil => simp [fill]
  | cons seq rest ih =>
    rw [fill_cons, List.length_append, rowsOf_length, ih, List.map_cons, List.sum_cons]
    omega

theorem fill_zero (chunkSize : ℕ) (seqs : List ActiveSequence) : fill chunkSize seqs 0 = [] := by
  refine List.eq_nil_of_length_eq_zero ?_
  rw [fill_length, Nat.zero_min]

/-- Somebody gets a row only after everybody ahead got a full slice. -/
theorem fill_filter_ahead {seqs : List ActiveSequence} {remaining : ℕ} {a b : ActiveSequence}
    (hn : (seqs.map ActiveSequence.seqId).Nodup)
    (hsorted : seqs.Pairwise fun a b => a.pendingTokens.length ≤ b.pendingTokens.length)
    (ha : a ∈ seqs) (hb : b ∈ seqs) (hless : a.pendingTokens.length < b.pendingTokens.length)
    (hrow : ∃ row ∈ fill chunkSize seqs remaining, row.seqId = b.seqId) :
    (fill chunkSize seqs remaining).filter (fun row => row.seqId = a.seqId) =
      rowsOf a (min chunkSize a.pendingTokens.length) := by
  induction seqs generalizing remaining with
  | nil => simp at ha
  | cons seq rest ih =>
    rw [List.map_cons, List.nodup_cons] at hn
    obtain ⟨hfirst, hlater⟩ := List.pairwise_cons.mp hsorted
    obtain ⟨row, hin, hrow⟩ := hrow
    have hbrest : b ∈ rest := by
      rcases List.mem_cons.mp hb with rfl | hm
      · -- nobody shorter stands behind the first
        rcases List.mem_cons.mp ha with rfl | hm
        · exact absurd hless (lt_irrefl _)
        · exact absurd hless (not_lt.mpr (hfirst a hm))
      · exact hm
    have hne : b.seqId ≠ seq.seqId := fun he => hn.1 (he ▸ List.mem_map_of_mem hbrest)
    rw [fill_cons, List.mem_append] at hin
    have hinrest := hin.resolve_left fun hm => hne (hrow.symm.trans (mem_rowsOf_seqId hm))
    rw [fill_cons, List.filter_append]
    rcases List.mem_cons.mp ha with rfl | hm
    · -- rows were left, so the slice was not cut short
      have hleft : remaining - min chunkSize (min a.pendingTokens.length remaining) ≠ 0 := by
        intro h0
        rw [h0, fill_zero] at hinrest
        simp at hinrest
      have hfull : min chunkSize (min a.pendingTokens.length remaining) =
          min chunkSize a.pendingTokens.length := by omega
      rw [rowsOf_filter, fill_filter_absent hn.1, List.append_nil, hfull]
    · have hne' : a.seqId ≠ seq.seqId := fun he => hn.1 (he ▸ List.mem_map_of_mem hm)
      rw [rowsOf_filter_ne hne', List.nil_append]
      exact ih hn.2 hlater hm hbrest ⟨row, hinrest, hrow⟩

end Fill

section Shares
variable {active : List ActiveSequence} {capacity chunkSize : ℕ} {a b : ActiveSequence}

theorem buildBatch_length (active : List ActiveSequence) (capacity chunkSize : ℕ) :
    (buildBatch active capacity chunkSize).rows.length =
      min capacity (active.map fun seq => min chunkSize seq.pendingTokens.length).sum := by
  have hperm := (shortestFirst_perm active).map fun seq => min chunkSize seq.pendingTokens.length
  rw [← hperm.sum_eq]
  exact fill_length chunkSize (shortestFirst active) capacity

theorem shortestFirst_sorted (active : List ActiveSequence) : (shortestFirst active).Pairwise
    fun a b => a.pendingTokens.length ≤ b.pendingTokens.length :=
  List.pairwise_insertionSort
    (fun a b : ActiveSequence => a.pendingTokens.length ≤ b.pendingTokens.length) active

theorem rowCount_pos {prepared : PreparedBatch} {seqId : SeqId} :
    0 < prepared.rowCount seqId ↔ ∃ row ∈ prepared.rows, row.seqId = seqId := by
  simp [PreparedBatch.rowCount, List.countP_pos_iff]

/-- If a longer sequence gets a row, a shorter one gets its full slice. -/
theorem rowCount_shorter (hn : (active.map ActiveSequence.seqId).Nodup) (ha : a ∈ active)
    (hb : b ∈ active) (hless : a.pendingTokens.length < b.pendingTokens.length)
    (hrow : 0 < (buildBatch active capacity chunkSize).rowCount b.seqId) :
    (buildBatch active capacity chunkSize).rowCount a.seqId =
      min chunkSize a.pendingTokens.length := by
  have hmem := fun seq => (shortestFirst_perm active).mem_iff (a := seq)
  have hrows := fill_filter_ahead (shortestFirst_nodup hn) (shortestFirst_sorted active)
    ((hmem a).mpr ha) ((hmem b).mpr hb) hless (rowCount_pos.mp hrow)
  rw [rowCount_eq_length]
  show ((fill chunkSize (shortestFirst active) capacity).filter _).length = _
  rw [hrows, rowsOf_length]
  omega

/-- A batch wastes no row, serves the sequences with the least pending first, and never takes a row
from a decode for a prefill. -/
theorem batch_shares (active : List ActiveSequence) (capacity chunkSize : ℕ)
    (hchunk : 1 ≤ chunkSize) (hn : (active.map ActiveSequence.seqId).Nodup) :
    (buildBatch active capacity chunkSize).rows.length =
        min capacity (active.map fun seq => min chunkSize seq.pendingTokens.length).sum ∧
      (∀ b ∈ active, 0 < (buildBatch active capacity chunkSize).rowCount b.seqId →
        ∀ a ∈ active, 1 ≤ a.pendingTokens.length →
          a.pendingTokens.length < b.pendingTokens.length →
          (buildBatch active capacity chunkSize).rowCount a.seqId =
            min chunkSize a.pendingTokens.length) ∧
      ∀ prefill ∈ active, 2 ≤ prefill.pendingTokens.length →
        0 < (buildBatch active capacity chunkSize).rowCount prefill.seqId →
        ∀ decode ∈ active, decode.pendingTokens.length = 1 →
          (buildBatch active capacity chunkSize).rowCount decode.seqId = 1 := by
  refine ⟨buildBatch_length active capacity chunkSize, fun b hb hrow a ha _ hless => ?_,
    fun prefill hp hlong hrow decode hd hone => ?_⟩
  · exact rowCount_shorter hn ha hb hless hrow
  · rw [rowCount_shorter hn hd hp (by omega) hrow, hone]
    omega

/-- A decode and two prefills, with room for five rows. -/
theorem batch_shares_tight : (buildBatch [⟨0, [1, 2, 3, 4], 0⟩, ⟨1, [9], 7⟩, ⟨2, [5, 6, 7], 2⟩]
      5 2).rows.length = 5 ∧
    (buildBatch [⟨0, [1, 2, 3, 4], 0⟩, ⟨1, [9], 7⟩, ⟨2, [5, 6, 7], 2⟩] 5 2).rowCount 1 = 1 := by
  obtain ⟨hlength, -, hdecode⟩ := batch_shares
    [⟨0, [1, 2, 3, 4], 0⟩, ⟨1, [9], 7⟩, ⟨2, [5, 6, 7], 2⟩] 5 2 (by decide) (by decide)
  exact ⟨hlength, hdecode ⟨0, [1, 2, 3, 4], 0⟩ (by decide) (by decide) (by decide) ⟨1, [9], 7⟩
    (by decide) rfl⟩

end Shares

end TinyServe.BatchBuilder
