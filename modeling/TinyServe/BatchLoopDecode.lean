import TinyServe.BatchLoopDrain
import TinyServe.LlamaBatch

set_option autoImplicit false

/-! What `llama_decode` is handed: whatever the buffer held before, a batch it can decode. -/
namespace TinyServe.BatchLoop
open OrderedDict SequenceMemory BatchBuilder Scheduler LlamaRuntime Runs

/-- What llama.cpp asks of a batch: every row belongs to one slot, the rows of a slot go on where its
cells end, without a gap, and only the last of them asks for logits. -/
structure Decodable (m : KVMemory) (nSeqMax : ℕ) (rows : List LlamaRow) : Prop where
  nonempty : rows ≠ []
  slot : ∀ row ∈ rows, ∃ seqId, row.seqIds = [seqId] ∧ 0 ≤ seqId ∧ seqId < nSeqMax
  continues : ∀ i row, rows[i]? = some row → ∀ seqId ∈ row.seqIds,
    (row.pos : ℤ) = posMax m seqId + 1 + (rows.take i).countP fun r => seqId ∈ r.seqIds
  last : ∀ (i j : ℕ) row later, rows[i]? = some row → rows[j]? = some later → row.logits = true →
    i < j → ∀ seqId ∈ row.seqIds, seqId ∉ later.seqIds

section Positions
variable {α : Type} {p : α → Bool}

/-- An element that passes a filter is found behind those before it that pass. -/
theorem filter_index {xs : List α} {i : ℕ} {x : α} (hx : xs[i]? = some x) (hp : p x = true) :
    (xs.filter p)[(xs.take i).countP p]? = some x := by
  induction xs generalizing i with
  | nil => simp at hx
  | cons y xs ih =>
    cases i with
    | zero =>
      obtain rfl := Option.some.inj hx
      simp [hp]
    | succ i =>
      have hnext := ih hx
      cases hy : p y <;> simpa [List.take_succ_cons, hy] using hnext

theorem countP_take_lt {xs : List α} {i j : ℕ} {x : α} (hx : xs[i]? = some x) (hp : p x = true)
    (hij : i < j) : (xs.take i).countP p < (xs.take j).countP p := by
  have hsucc : (xs.take (i + 1)).countP p = (xs.take i).countP p + 1 := by
    rw [List.take_add_one, hx, List.countP_append]
    simp [hp]
  have hle : (xs.take (i + 1)).countP p ≤ (xs.take j).countP p :=
    (List.take_prefix_take_left (Nat.succ_le_of_lt hij)).sublist.countP_le
  omega

end Positions

section Handed
variable {env : Env} {s : State} {prepared : PreparedBatch}

/-- A row of the batch and its place among those of its sequence. -/
theorem row_placed (hb : Books env s)
    (hp : prepared = buildBatch s.active.values env.batchCapacity env.chunkSize) {i : ℕ}
    {row : BatchRow} (hrow : prepared.rows[i]? = some row) :
    ∃ id seq take, s.active.get? id = some seq ∧ seq.seqId = row.seqId ∧
      prepared.rows.filter (fun r => r.seqId = row.seqId) = rowsOf seq take ∧
      (rowsOf seq take)[(prepared.rows.take i).countP fun r => r.seqId = row.seqId]? = some row := by
  have hmem := List.mem_of_getElem? hrow
  obtain ⟨seq, hvalue, hslot⟩ := buildBatch_seqId (hp ▸ hmem)
  obtain ⟨id, hseq⟩ := Dict.mem_values.mp hvalue
  obtain ⟨take, -, hrows, -⟩ := hb.rows_of_active hseq hp
  rw [← hslot] at hrows
  refine ⟨id, seq, take, hseq, hslot.symm, hrows, ?_⟩
  rw [← hrows]
  exact filter_index hrow (by simp)

theorem row_pos (hb : Books env s) (hc : Contents s) (hs : s.phase.intact = true)
    (hp : prepared = buildBatch s.active.values env.batchCapacity env.chunkSize) {i : ℕ}
    {row : BatchRow} (hrow : prepared.rows[i]? = some row) :
    (row.pos : ℤ) = posMax s.memory row.seqId + 1 +
      (prepared.rows.take i).countP fun r => r.seqId = row.seqId := by
  obtain ⟨id, seq, take, hseq, hslot, -, hplace⟩ := row_placed hb hp hrow
  obtain ⟨request, hreq, rfl⟩ := hb.request_of_active (Dict.mem_keys.mpr ⟨seq, hseq⟩)
  obtain ⟨cells, n, hholds, hpast, -⟩ := hc.spelled hs request seq hseq hreq
  rw [rowsOf_getElem?, Option.map_eq_some_iff] at hplace
  obtain ⟨token, -, hmade⟩ := hplace
  have hpos : seq.nPast + (prepared.rows.take i).countP (fun r => r.seqId = row.seqId) = row.pos :=
    congrArg BatchRow.pos hmade
  rw [← hslot, hholds.posMax_eq, ← hpos, hpast, hslot]
  push_cast
  omega

/-- Only the last row of a sequence asks for logits. -/
theorem row_last (hb : Books env s)
    (hp : prepared = buildBatch s.active.values env.batchCapacity env.chunkSize) {i j : ℕ}
    {row later : BatchRow} (hrow : prepared.rows[i]? = some row)
    (hlater : prepared.rows[j]? = some later) (hl : row.needsLogits = true) (hij : i < j) :
    later.seqId ≠ row.seqId := by
  intro hsame
  obtain ⟨id, seq, take, hseq, hslot, hrows, hplace⟩ := row_placed hb hp hrow
  have hthere := @filter_index _ (fun r : BatchRow => r.seqId = row.seqId) _ _ _ hlater (by simp [hsame])
  have hlt := @countP_take_lt _ (fun r : BatchRow => r.seqId = row.seqId) _ _ _ _ hrow (by simp) hij
  have hshort := (List.getElem?_eq_some_iff.mp hthere).1
  rw [hrows, rowsOf_length] at hshort
  rw [rowsOf_getElem?, Option.map_eq_some_iff] at hplace
  obtain ⟨token, -, hmade⟩ := hplace
  have hflag := congrArg BatchRow.needsLogits hmade
  rw [hl] at hflag
  have hlast := (of_decide_eq_true hflag).2
  omega

theorem decodable (hr : Reachable (step env) anything (start env) s)
    (hp : s.phase = .decoding prepared) :
    Decodable s.memory env.nSeqMax (prepared.rows.map LlamaRow.of) := by
  obtain ⟨hb, hs⟩ := reachable_books hr
  have hprep := hs.decoding hp
  have hbusy := reachable_busy hr
  rw [Busy, hp] at hbusy
  refine ⟨by simpa using hbusy, fun r hr' => ?_, fun i r hi seqId hin => ?_,
    fun i j r later hi hj hl hij seqId hin hin' => ?_⟩
  · obtain ⟨row, hrow, rfl⟩ := List.mem_map.mp hr'
    obtain ⟨seq, hvalue, hslot⟩ := buildBatch_seqId (hprep ▸ hrow)
    have hin : seq.seqId ∈ slots env := hb.slots.subset
      (List.mem_append_right _ (List.mem_map_of_mem hvalue))
    obtain ⟨k, hk, hseqId⟩ := List.mem_map.mp hin
    have hlt := List.mem_range.mp hk
    refine ⟨row.seqId, rfl, ?_, ?_⟩
    · rw [hslot, ← hseqId]
      exact Int.natCast_nonneg k
    · rw [hslot, ← hseqId]
      exact Int.ofNat_lt.mpr hlt
  · rw [List.getElem?_map, Option.map_eq_some_iff] at hi
    obtain ⟨row, hrow, rfl⟩ := hi
    obtain rfl : seqId = row.seqId := List.mem_singleton.mp hin
    have hpos := row_pos hb (reachable_contents hr) (by rw [hp]; rfl) hprep hrow
    rw [← List.map_take, List.countP_map]
    simpa [LlamaRow.of, Function.comp_def, eq_comm] using hpos
  · rw [List.getElem?_map, Option.map_eq_some_iff] at hi hj
    obtain ⟨row, hrow, rfl⟩ := hi
    obtain ⟨next, hnext, rfl⟩ := hj
    have hsame := (List.mem_singleton.mp hin).symm.trans (List.mem_singleton.mp hin')
    exact row_last hb hprep hrow hnext hl hij hsame.symm

end Handed

/-- Every batch that is handed to the runtime fits its buffer, which afterwards reads as the batch
whatever was left in it, and is one llama.cpp can decode over the memory as it stands. -/
theorem batches_decodable (env : Env) (s : State) (h : Reachable (step env) anything (start env) s)
    (prepared : PreparedBatch) (hp : s.phase = .decoding prepared)
    (b : LlamaBatch env.batchCapacity env.nSeqMax) :
    ∃ b' rows, b.load prepared = some b' ∧ b'.read = rows.map some ∧
      rows = prepared.rows.map LlamaRow.of ∧ Decodable s.memory env.nSeqMax rows := by
  have hs := (reachable_books h).2
  have hd := decodable h hp
  have hfits : prepared.rows.length ≤ env.batchCapacity := by
    rw [hs.decoding hp, buildBatch_length]
    exact Nat.min_le_left _ _
  have hslots : 0 < env.nSeqMax := by
    obtain ⟨row, hrow⟩ := List.exists_mem_of_ne_nil _ hd.nonempty
    obtain ⟨seqId, -, hnonneg, hlt⟩ := hd.slot row hrow
    exact Int.natCast_pos.mp (hnonneg.trans_lt hlt)
  obtain ⟨b', hload, hread⟩ := b.load_read hfits hslots
  exact ⟨b', _, hload, by rw [hread, List.map_map]; rfl, rfl, hd⟩

section Orders
variable {env : Env} {s s' : State} {l l' : Label}

/-- The same, but for the order in which the sequences of a batch are moved on. -/
inductive SameWork : Label → Label → Prop where
  | refl (l : Label) : SameWork l l
  | decoded (sample : ℕ → Token) {order order' : List SeqId} (h : order.Perm order') :
      SameWork (.decoded sample order) (.decoded sample order')

theorem decoded_unordered {u : State} {sample : ℕ → Token} {order order' : List SeqId}
    (ht : Transition env s (.decoded sample order) s')
    (ht' : Transition env s (.decoded sample order') u) : s' = u := by
  cases ht with
  | @decoded prepared _ _ active hp hkeys hactive =>
    cases ht' with
    | @decoded prepared' _ _ active' hp' hkeys' hactive' =>
      obtain rfl := Phase.decoding.inj (hp.symm.trans hp')
      obtain rfl : active = active' := Dict.eq_of_get? (hkeys.trans hkeys'.symm) fun id =>
        (hactive id).trans (hactive' id).symm
      rfl

theorem step_unordered (hr : Reachable (step env) anything (start env) s) (h : SameWork l l') :
    step env s l = step env s l' := by
  cases h with
  | refl => rfl
  | @decoded sample order order' hperm =>
    have hsome : ∀ {o o' : List SeqId}, o.Perm o' → ∀ {u}, step env s (.decoded sample o) = some u →
        step env s (.decoded sample o') = some u := by
      intro o o' hperm u hs
      have ht := reachable_transition hr hs
      cases hp : s.phase with
      | decoding prepared =>
        simp only [step, hp] at hs
        split_ifs at hs with hfirst
        have hsecond : o'.isPerm (distinctSeqIds prepared) :=
          List.isPerm_iff.mpr (hperm.symm.trans (List.isPerm_iff.mp hfirst))
        have hs' : step env s (.decoded sample o') = some (decoded env s prepared sample o') := by
          simp only [step, hp, if_pos hsecond]
        rw [hs', decoded_unordered ht (reachable_transition hr hs')]
      | _ => simp [step, hp] at hs
    cases hs : step env s (.decoded sample order) with
    | some u => exact (hsome hperm hs).symm
    | none =>
      cases hs' : step env s (.decoded sample order') with
      | none => rfl
      | some u => exact (hsome hperm.symm hs').symm.trans hs |>.symm

end Orders

/-- In whatever order the set of a batch's sequences is gone through, a run is the same run. -/
theorem set_order_irrelevant (env : Env) (s : State)
    (h : Reachable (step env) anything (start env) s) (ls ls' : List Label)
    (hsame : List.Forall₂ SameWork ls ls') : run (step env) s ls = run (step env) s ls' := by
  induction hsame generalizing s with
  | nil => rfl
  | @cons l l' ls ls' hl hrest ih =>
    rw [run, run, step_unordered h hl]
    cases hs : step env s l' with
    | none => rfl
    | some u => exact ih u (h.next trivial hs)

theorem set_order_irrelevant_demo : demoArrivals ++ [.decoded (fun _ => 1) [0, 1]] ≠
      demoArrivals ++ [.decoded (fun _ => 1) [1, 0]] ∧
    run (step demo) (start demo) (demoArrivals ++ [.decoded (fun _ => 1) [0, 1]]) =
      run (step demo) (start demo) (demoArrivals ++ [.decoded (fun _ => 1) [1, 0]]) := by
  refine ⟨by simp, ?_⟩
  apply set_order_irrelevant demo _ .init
  exact List.rel_append (List.forall₂_same.mpr fun l _ => .refl l)
    (.cons (.decoded _ (List.Perm.swap 1 0 [])) .nil)

section Demo

/-- A buffer in which other rows were left. -/
def demoBuffer : LlamaBatch 64 2 :=
  ⟨7, .replicate 64 9, .replicate 64 9, .replicate 64 2, .replicate 64 (.replicate 2 5),
    .replicate 64 true⟩

theorem batches_decodable_demo : ∃ s prepared, run (step demo) (start demo) demoArrivals = some s ∧
    s.phase = .decoding prepared ∧ ∃ b' rows, demoBuffer.load prepared = some b' ∧
      b'.read = rows.map some ∧ Decodable s.memory 2 rows := by
  have hflight : ((run (step demo) (start demo) demoArrivals).bind fun s => s.phase.inFlight).isSome =
      true := by decide +kernel
  obtain ⟨prepared, hprepared⟩ := Option.isSome_iff_exists.mp hflight
  obtain ⟨s, hs, hphase⟩ := Option.bind_eq_some_iff.mp hprepared
  obtain ⟨b', rows, hload, hread, -, hd⟩ := batches_decodable demo s (Reachable.init.run hs) prepared
    (inFlight_some hphase) demoBuffer
  exact ⟨s, prepared, hs, inFlight_some hphase, b', rows, hload, hread, hd⟩

end Demo

end TinyServe.BatchLoop
