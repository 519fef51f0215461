import TinyServe.BatchBuilderShares
import TinyServe.BatchLoopBooks
import Mathlib.Algebra.Order.BigOperators.Group.List
import Mathlib.Algebra.Order.Ring.Nat

set_option autoImplicit false

/-! Batches built tick after tick until nothing is pending, under limits that change every tick. -/
namespace TinyServe.BatchBuilder
open BatchLoop (consume)

/-- What one tick lets through. -/
structure Limits where
  capacity : ℕ
  chunkSize : ℕ
  capacity_pos : 1 ≤ capacity
  chunkSize_pos : 1 ≤ chunkSize

def pendingTotal (active : List ActiveSequence) : ℕ :=
  (active.map fun seq => seq.pendingTokens.length).sum

/-- One tick: the batch, and the sequences moved past what it consumed. -/
def tick (limits : Limits) (active : List ActiveSequence) : PreparedBatch × List ActiveSequence :=
  let prepared := buildBatch active limits.capacity limits.chunkSize
  (prepared, active.map (consume prepared))

/-- Ticks until nothing is pending; `none` if that takes more than the given number of them. -/
def drain : ℕ → (ℕ → Limits) → List ActiveSequence → Option (List PreparedBatch)
  | 0, _, active => if pendingTotal active = 0 then some [] else none
  | n + 1, limits, active =>
    if pendingTotal active = 0 then
      some []
    else
      (drain n (fun k => limits (k + 1)) (tick (limits 0) active).2).map
        ((tick (limits 0) active).1 :: ·)

/-- The rows of one sequence in consecutive batches. -/
def rowsFed (seqId : SeqId) (batches : List PreparedBatch) : List BatchRow :=
  (batches.flatMap PreparedBatch.rows).filter fun row => row.seqId = seqId

section Tick
variable {active : List ActiveSequence} {limits : Limits} {seq : ActiveSequence}

theorem pendingTotal_eq_zero : pendingTotal active = 0 ↔ ∀ seq ∈ active, seq.pendingTokens = [] := by
  rw [pendingTotal, List.sum_eq_zero_iff]
  simp

theorem consume_nodup {prepared : PreparedBatch} (hn : (active.map ActiveSequence.seqId).Nodup) :
    ((active.map (consume prepared)).map ActiveSequence.seqId).Nodup := by
  rw [List.map_map]
  exact hn

/-- The rows of one batch are a slice as long as what the sequence is moved by. -/
theorem tick_rows (hn : (active.map ActiveSequence.seqId).Nodup) (hseq : seq ∈ active) :
    (tick limits active).1.rows.filter (fun row => row.seqId = seq.seqId) =
        rowsOf seq ((tick limits active).1.rowCount seq.seqId) ∧
      (tick limits active).1.rowCount seq.seqId ≤ seq.pendingTokens.length := by
  obtain ⟨take, hle, hrows⟩ :=
    @buildBatch_filter active limits.capacity limits.chunkSize hn seq hseq
  have hcount : (tick limits active).1.rowCount seq.seqId = take := by
    rw [rowCount_eq_length]
    show ((buildBatch active limits.capacity limits.chunkSize).rows.filter _).length = take
    rw [hrows, rowsOf_length]
    omega
  rw [hcount]
  exact ⟨hrows, by omega⟩

/-- While something is pending a tick takes some of it. -/
theorem tick_progress (hn : (active.map ActiveSequence.seqId).Nodup)
    (hpending : pendingTotal active ≠ 0) :
    pendingTotal (tick limits active).2 < pendingTotal active := by
  have hchunk := limits.chunkSize_pos
  have hcapacity := limits.capacity_pos
  obtain ⟨seq, hseq, hne⟩ : ∃ seq ∈ active, seq.pendingTokens ≠ [] := by
    by_contra hnone
    push Not at hnone
    exact hpending (pendingTotal_eq_zero.mpr hnone)
  have hslices : min limits.chunkSize seq.pendingTokens.length ≤
      (active.map fun seq => min limits.chunkSize seq.pendingTokens.length).sum :=
    List.single_le_sum (by simp) _ (List.mem_map_of_mem hseq)
  have hlong := List.length_pos_iff.mpr hne
  have hlength := buildBatch_length active limits.capacity limits.chunkSize
  obtain ⟨row, hrow⟩ := List.exists_mem_of_length_pos
    (l := (buildBatch active limits.capacity limits.chunkSize).rows) (by omega)
  obtain ⟨fed, hfed, hid⟩ := buildBatch_seqId hrow
  have hcount : 0 < (tick limits active).1.rowCount fed.seqId := rowCount_pos.mpr ⟨row, hrow, hid⟩
  have hmost := (@tick_rows active limits fed hn hfed).2
  rw [pendingTotal, pendingTotal]
  show ((active.map (consume (tick limits active).1)).map _).sum < _
  rw [List.map_map]
  refine List.sum_lt_sum _ _ (fun seq _ => ?_) ⟨fed, hfed, ?_⟩
  · simp [consume]
  · simp only [Function.comp_apply, consume, List.length_drop]
    omega

/-- The rows of everything that is pending: logits for the last one. -/
theorem rowsOf_all (seq : ActiveSequence) :
    rowsOf seq seq.pendingTokens.length = seq.pendingTokens.mapIdx fun i token =>
      ⟨seq.seqId, token, seq.nPast + i, i + 1 = seq.pendingTokens.length⟩ := by
  rw [rowsOf, List.take_length]
  refine List.mapIdx_eq_mapIdx_iff.mpr fun i hi => ?_
  have hlast : i = seq.pendingTokens.length - 1 ↔ i + 1 = seq.pendingTokens.length := by omega
  simp only [hlast, true_and]

theorem rowsOf_short {take : ℕ} (hlt : take < seq.pendingTokens.length) :
    rowsOf seq take = (seq.pendingTokens.take take).mapIdx fun i token =>
      ⟨seq.seqId, token, seq.nPast + i, false⟩ := by
  simp [rowsOf, hlt.ne]

/-- The rows of a slice and of what is left after it are the rows of everything. -/
theorem rowsOf_append (seq : ActiveSequence) {take : ℕ} (hle : take ≤ seq.pendingTokens.length) :
    rowsOf seq take ++ rowsOf { seq with
        nPast := seq.nPast + take
        pendingTokens := seq.pendingTokens.drop take } (seq.pendingTokens.length - take) =
      rowsOf seq seq.pendingTokens.length := by
  rcases hle.eq_or_lt with heq | hlt
  · rw [heq, Nat.sub_self, rowsOf_zero, List.append_nil]
  · have hrest : seq.pendingTokens.length - take = (seq.pendingTokens.drop take).length :=
      List.length_drop.symm
    have hsplit := List.take_append_drop take seq.pendingTokens
    rw [rowsOf_short hlt, hrest, rowsOf_all, rowsOf_all]
    conv_rhs => rw [← hsplit, List.mapIdx_append, hsplit]
    congr 1
    · refine List.mapIdx_eq_mapIdx_iff.mpr fun i hi => ?_
      rw [List.length_take] at hi
      have hnot : i + 1 ≠ seq.pendingTokens.length := by omega
      simp [hnot]
    · refine List.mapIdx_eq_mapIdx_iff.mpr fun i hi => ?_
      rw [List.length_drop] at hi
      simp only [List.length_take, List.length_drop]
      have hpos : seq.nPast + take + i = seq.nPast + (i + min take seq.pendingTokens.length) := by
        omega
      have hlast : i + 1 = seq.pendingTokens.length - take ↔
          i + min take seq.pendingTokens.length + 1 = seq.pendingTokens.length := by omega
      simp only [hpos, hlast]

end Tick

section Drain
variable {active : List ActiveSequence} {limits : ℕ → Limits} {batches : List PreparedBatch}

/-- As many ticks as there are pending tokens are enough. -/
theorem drain_ends (limits : ℕ → Limits) (hn : (active.map ActiveSequence.seqId).Nodup) {n : ℕ}
    (hle : pendingTotal active ≤ n) : ∃ batches, drain n limits active = some batches := by
  induction n generalizing limits active with
  | zero => exact ⟨[], if_pos (Nat.le_zero.mp hle)⟩
  | succ n ih =>
    rw [drain]
    by_cases hdone : pendingTotal active = 0
    · exact ⟨[], if_pos hdone⟩
    · have hless := @tick_progress active (limits 0) hn hdone
      obtain ⟨batches, hbatches⟩ := @ih (tick (limits 0) active).2 (fun k => limits (k + 1))
        (consume_nodup hn) (by omega)
      refine ⟨(tick (limits 0) active).1 :: batches, ?_⟩
      rw [if_neg hdone]
      exact congrArg (Option.map _) hbatches

theorem drain_length {n : ℕ} (h : drain n limits active = some batches) : batches.length ≤ n := by
  induction n generalizing limits active batches with
  | zero =>
    rw [drain] at h
    split_ifs at h
    obtain rfl := Option.some.inj h
    exact le_rfl
  | succ n ih =>
    rw [drain] at h
    split_ifs at h
    · obtain rfl := Option.some.inj h
      exact Nat.zero_le _
    · obtain ⟨rest, hrest, rfl⟩ := Option.map_eq_some_iff.mp h
      exact Nat.succ_le_succ (ih hrest)

theorem drain_capacity {n k : ℕ} {prepared : PreparedBatch}
    (h : drain n limits active = some batches) (hk : batches[k]? = some prepared) :
    prepared.rows.length ≤ (limits k).capacity := by
  induction n generalizing limits active batches k with
  | zero =>
    rw [drain] at h
    split_ifs at h
    obtain rfl := Option.some.inj h
    simp at hk
  | succ n ih =>
    rw [drain] at h
    split_ifs at h
    · obtain rfl := Option.some.inj h
      simp at hk
    · obtain ⟨rest, hrest, rfl⟩ := Option.map_eq_some_iff.mp h
      cases k with
      | zero =>
        obtain rfl := Option.some.inj hk
        exact (buildBatch_length _ _ _).le.trans (Nat.min_le_left _ _)
      | succ k => exact @ih _ (fun k => limits (k + 1)) _ _ hrest hk

theorem drain_rows (hn : (active.map ActiveSequence.seqId).Nodup) {n : ℕ}
    (h : drain n limits active = some batches) {seq : ActiveSequence} (hseq : seq ∈ active) :
    rowsFed seq.seqId batches = rowsOf seq seq.pendingTokens.length := by
  induction n generalizing limits active batches seq with
  | zero =>
    rw [drain] at h
    split_ifs at h with hdone
    obtain rfl := Option.some.inj h
    rw [rowsOf_nil (pendingTotal_eq_zero.mp hdone seq hseq)]
    rfl
  | succ n ih =>
    rw [drain] at h
    split_ifs at h with hdone
    · obtain rfl := Option.some.inj h
      rw [rowsOf_nil (pendingTotal_eq_zero.mp hdone seq hseq)]
      rfl
    · obtain ⟨rest, hrest, rfl⟩ := Option.map_eq_some_iff.mp h
      obtain ⟨hrows, hle⟩ := @tick_rows active (limits 0) seq hn hseq
      have hlater := ih (consume_nodup hn) hrest (List.mem_map_of_mem hseq)
      rw [← rowsOf_append seq hle, rowsFed, List.flatMap_cons, List.filter_append, hrows]
      refine congrArg _ (Eq.trans hlater ?_)
      rw [consume, List.length_drop]
      rfl

end Drain

/-- Whatever the limits of the ticks, building batches comes to an end within as many ticks as there
are pending tokens, no batch is larger than its tick allows, and of each sequence they hold one row
for each pending token in order, with logits for the last, like a single batch without limits. -/
theorem drain_feeds (limits : ℕ → Limits) (active : List ActiveSequence)
    (hn : (active.map ActiveSequence.seqId).Nodup) :
    ∃ batches, drain (pendingTotal active) limits active = some batches ∧
      batches.length ≤ pendingTotal active ∧
      (∀ k prepared, batches[k]? = some prepared →
        prepared.rows.length ≤ (limits k).capacity) ∧
      ∀ seq ∈ active,
        rowsFed seq.seqId batches = seq.pendingTokens.mapIdx (fun i token =>
          ⟨seq.seqId, token, seq.nPast + i, i + 1 = seq.pendingTokens.length⟩) ∧
        rowsFed seq.seqId batches =
          rowsFed seq.seqId [buildBatch active (pendingTotal active) (pendingTotal active)] := by
  obtain ⟨batches, h⟩ := drain_ends limits hn le_rfl
  refine ⟨batches, h, drain_length h, fun k prepared hk => drain_capacity h hk,
    fun seq hseq => ?_⟩
  have hslice : seq.pendingTokens.length ≤ pendingTotal active :=
    List.single_le_sum (by simp) _ (List.mem_map_of_mem hseq)
  have hsingle : rowsFed seq.seqId [buildBatch active (pendingTotal active) (pendingTotal active)] =
      rowsOf seq seq.pendingTokens.length := by
    have hrows := @buildBatch_filter_full active (pendingTotal active) (pendingTotal active) hn
      le_rfl seq hseq
    rw [rowsFed, List.flatMap_singleton, hrows, Nat.min_eq_right hslice]
  rw [hsingle, drain_rows hn h hseq]
  exact ⟨rowsOf_all seq, rfl⟩

/-- A prompt of three tokens beside a decode, with room for one row and for two in turn. -/
theorem drain_feeds_beside : ∃ batches,
    drain 4 (fun k => ⟨k % 2 + 1, 2, by omega, by decide⟩) [⟨0, [1, 2, 3], 5⟩, ⟨1, [9], 7⟩] =
        some batches ∧
      rowsFed 0 batches = [⟨0, 1, 5, false⟩, ⟨0, 2, 6, false⟩, ⟨0, 3, 7, true⟩] := by
  obtain ⟨batches, hdrain, -, -, hrows⟩ := drain_feeds
    (fun k => ⟨k % 2 + 1, 2, by omega, by decide⟩) [⟨0, [1, 2, 3], 5⟩, ⟨1, [9], 7⟩] (by decide)
  exact ⟨batches, hdrain, (hrows ⟨0, [1, 2, 3], 5⟩ (by decide)).1.trans (by decide)⟩

end TinyServe.BatchBuilder
