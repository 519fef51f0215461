import TinyServe.BatchLoopHistory
import TinyServe.BatchLoopTree

set_option autoImplicit false

/-! What llama.cpp's memory holds of every active sequence: its text so far, each cell written once. -/
namespace TinyServe.BatchLoop
open OrderedDict PrefixCacheBase PrefixCacheTable PrefixClaims SequenceMemory BatchBuilder
open Scheduler LlamaRuntime Runs

/-- The phases in which no decode has failed under the active sequences. -/
def Phase.intact : Phase → Bool
  | .failing _ => false
  | .dead _ => false
  | _ => true

/-- What was sampled and not distributed yet. -/
def Phase.undelivered : Phase → List (SeqId × Token)
  | .distributing _ _ todo => todo
  | _ => []

theorem awaiting_undelivered {phase : Phase} (h : phase.awaiting = true) :
    phase.undelivered = [] := by
  cases phase <;> simp_all [Phase.awaiting, Phase.undelivered]

/-- The prompt of a request and what was sampled for it and fed back. -/
def text (s : State) (request : PendingRequest) : List Token :=
  request.promptTokens ++ pushed s.log request.id

/-- The cells of a sequence, `n` of them copied at its admission and the rest decoded, spell with
its pending tokens the text of its request. -/
structure Spells (s : State) (request : PendingRequest) (seq : ActiveSequence)
    (cells : List (Cell Token Writer)) (n : ℕ) : Prop where
  holds : Holds s.memory seq.seqId cells
  past : cells.length = seq.nPast
  text : cells.map Cell.value ++ seq.pendingTokens = text s request
  admitted : admissions s.log request.id = [(seq.seqId, n)]
  reused : n ≤ cells.length
  written : ∀ i c, cells[i]? = some c →
    if i < n then ∃ src, c.writes = [.copy src] else c.writes = [.decode]

/-- The memory holds the active sequences and nothing else. -/
structure Contents (s : State) : Prop where
  owned : ∀ t, (∀ id seq, s.active.get? id = some seq → seq.seqId ≠ t) → Holds s.memory t []
  spelled : s.phase.intact = true → ∀ request seq, s.active.get? request.id = some seq →
    s.accepted.get? request.id = some request → ∃ cells n, Spells s request seq cells n
  drained : ∀ e ∈ s.phase.undelivered, ∀ id seq, s.active.get? id = some seq →
    seq.seqId = e.1 → seq.pendingTokens = []

section Kept
variable {env : Env} {s s' : State} {request : PendingRequest} {seq : ActiveSequence}
  {cells : List (Cell Token Writer)} {n : ℕ}

theorem Spells.congr (h : Spells s request seq cells n)
    (hm : ∀ i, s'.memory.get? (seq.seqId, i) = s.memory.get? (seq.seqId, i))
    (hp : pushed s'.log request.id = pushed s.log request.id)
    (ha : admissions s'.log request.id = admissions s.log request.id) :
    Spells s' request seq cells n := by
  obtain ⟨h1, h2, h3, h4, h5, h6⟩ := h
  refine ⟨h1.congr hm, h2, ?_, ha.trans h4, h5, h6⟩
  rw [h3, BatchLoop.text, BatchLoop.text, hp]

theorem contents_start (env : Env) : Contents (start env) where
  owned t _ i := by
    show (Dict.empty : KVMemory).get? (t, i) = none
    simp
  spelled _ _ _ h := by simp [start] at h
  drained _ h := by simp [start, Phase.undelivered] at h

/-- Steps that leave the memory, the sequences and their text alone keep the contents. -/
theorem Contents.frame (h : Contents s) (hm : s'.memory = s.memory)
    (ha : s'.active = s.active)
    (hacc : ∀ id ∈ s.active.keys, s'.accepted.get? id = s.accepted.get? id)
    (hlog : ∀ id, pushed s'.log id = pushed s.log id ∧
      admissions s'.log id = admissions s.log id)
    (hphase : s'.phase.intact = true → s.phase.intact = true ∨ s.active.keys = [])
    (hdue : s'.phase.undelivered = []) : Contents s' := by
  refine ⟨?_, fun hi request seq hseq hreq => ?_, ?_⟩
  · rw [hm, ha]
    exact h.owned
  · rw [ha] at hseq
    have hin := Dict.mem_keys.mpr ⟨seq, hseq⟩
    rcases hphase hi with hs | hnil
    · rw [hacc _ hin] at hreq
      obtain ⟨cells, n, hsp⟩ := h.spelled hs request seq hseq hreq
      exact ⟨cells, n, hsp.congr (fun _ => by rw [hm]) (hlog _).1 (hlog _).2⟩
    · rw [hnil] at hin
      simp at hin
  · rw [hdue]
    simp

/-- What a granted reuse finds in the donor's cells is the front of the claimant's prompt. -/
theorem Contents.donor (h : Contents s) (hb : Books env s) (hs : s.phase.intact = true)
    {c : PythonPrefixCache.Cache} (hc : Mirrors s c) {tokens : List Token}
    (hhit : (c.matchForReuse tokens).hit) :
    (c.matchForReuse tokens).nTokens < tokens.length ∧
      ∃ cells, Holds s.memory (c.matchForReuse tokens).seqId cells ∧
        ((c.matchForReuse tokens).nTokens ≤ cells.length →
          (cells.map Cell.value).take (c.matchForReuse tokens).nTokens =
            tokens.take (c.matchForReuse tokens).nTokens) := by
  obtain ⟨addr, hr⟩ := hc.refines
  rw [PrefixMatch.hit, decide_eq_true_eq, hr.matchForReuse_eq] at hhit
  rw [hr.matchForReuse_eq]
  obtain ⟨k, path, hn, hlt, hclaim, hpath⟩ := reuseIn_sound c.blockSize_pos hhit
  obtain ⟨id, request, hseq, hacc, -, rfl⟩ := (hc.claims _ path).mp hclaim
  obtain ⟨seq, hget, hslot⟩ := Option.map_eq_some_iff.mp hseq
  obtain rfl := hb.named id request hacc
  obtain ⟨cells, n, hsp⟩ := h.spelled hs request seq hget hacc
  refine ⟨hlt, cells, hslot ▸ hsp.holds, fun hlen => ?_⟩
  have hk : k ≤ tokens.length / c.blockSize := by
    rw [Nat.le_div_iff_mul_le c.blockSize_pos]
    omega
  have hsame := take_eq_of_blocks hk hpath
  have hle : k ≤ request.promptTokens.length / c.blockSize := by
    have hp := hpath.length_le
    rw [List.length_take, blocks_length, blocks_length] at hp
    omega
  rw [Nat.le_div_iff_mul_le c.blockSize_pos] at hle
  rw [hn] at hlen ⊢
  have hfront := congrArg (List.take (k * c.blockSize)) hsp.text
  rw [BatchLoop.text, List.take_append_of_le_length (by rw [List.length_map]; exact hlen),
    List.take_append_of_le_length hle] at hfront
  rw [hfront, hsame]

/-- A new sequence starts with the cells it was granted: the front of its prompt, all copied. -/
theorem Contents.claimed (h : Contents s) (hb : Books env s) (hs : s.phase.intact = true)
    (ht : TreeMirrors env s) (request : PendingRequest) {seqId : SeqId}
    (hfree : Holds s.memory seqId []) :
    (∃ cells, Holds (claimPrefix s request seqId).2.memory seqId cells ∧
      cells.length = (claimPrefix s request seqId).1 ∧
      cells.map Cell.value = request.promptTokens.take (claimPrefix s request seqId).1 ∧
      ∀ c ∈ cells, ∃ src, c.writes = [Writer.copy src]) ∧
    ((claimPrefix s request seqId).1 = 0 ∨
      (claimPrefix s request seqId).1 < request.promptTokens.length) ∧
    ∀ t, t ≠ seqId → ∀ i,
      (claimPrefix s request seqId).2.memory.get? (t, i) = s.memory.get? (t, i) := by
  cases hc : s.prefixCache with
  | none =>
    rw [claimPrefix_none hc]
    exact ⟨⟨[], hfree, rfl, rfl, by simp⟩, .inl rfl, fun _ _ _ => rfl⟩
  | some c =>
    cases hhit : (c.matchForReuse request.promptTokens).hit with
    | false =>
      have hmem : (claimPrefix s request seqId).2.memory = s.memory := by
        simp [claimPrefix, hc, hhit, State.emit]
      have hzero : (claimPrefix s request seqId).1 = 0 := by
        simp [claimPrefix, hc, hhit]
      rw [hmem, hzero]
      exact ⟨⟨[], hfree, rfl, rfl, by simp⟩, .inl rfl, fun _ _ _ => rfl⟩
    | true =>
      obtain ⟨hlt, donor, hdonor, hfront⟩ := h.donor hb hs (ht.2 c hc) hhit
      have hmem : (claimPrefix s request seqId).2.memory =
          (reusePrefix s.memory (c.matchForReuse request.promptTokens).seqId seqId
            (c.matchForReuse request.promptTokens).nTokens).2 := by
        simp [claimPrefix, hc, hhit, State.emit]
      have hcount : (claimPrefix s request seqId).1 =
          if (reusePrefix s.memory (c.matchForReuse request.promptTokens).seqId seqId
            (c.matchForReuse request.promptTokens).nTokens).1
          then (c.matchForReuse request.promptTokens).nTokens else 0 := by
        simp [claimPrefix, hc, hhit]
      have hreuse := reusePrefix_holds hdonor hfree
        (c.matchForReuse request.promptTokens).nTokens
      have hother : ∀ t, t ≠ seqId → ∀ i, (reusePrefix s.memory
          (c.matchForReuse request.promptTokens).seqId seqId
          (c.matchForReuse request.promptTokens).nTokens).2.get? (t, i) = s.memory.get? (t, i) :=
        fun t hne i => reusePrefix_other hne _ i
      rw [hmem, hcount]
      split_ifs at hreuse ⊢ with hgrant
      · obtain ⟨hlen, hheld⟩ := hreuse
        refine ⟨⟨_, hheld, ?_, ?_, ?_⟩, .inr hlt, hother⟩
        · rw [List.length_map, List.length_take, min_eq_left hlen]
        · rw [List.map_map, ← hfront hlen, ← List.map_take]
          rfl
        · intro cell hcell
          obtain ⟨d, -, rfl⟩ := List.mem_map.mp hcell
          exact ⟨_, rfl⟩
      · rw [hreuse]
        exact ⟨⟨[], hfree, rfl, rfl, by simp⟩, .inl rfl, fun _ _ _ => rfl⟩

theorem Contents.admitted_step (h : Contents s) (hb : Books env s) (hacc : Accounts env s)
    (ht : TreeMirrors env s) (hs : s.phase.intact = true) {seqId : SeqId}
    (hpool : s.queue.pool.get? request.id = some request)
    (hslot : s.freeSlots.getLast? = some seqId) (todo : List PendingRequest) :
    Contents (admittedState env s request seqId (.admitting todo)) := by
  have hfree : Holds s.memory seqId [] :=
    h.owned seqId fun id seq hseq => hb.free_ne (List.mem_of_getLast? hslot) hseq
  have hin : request.id ∈ s.queue.pool.keys := Dict.mem_keys.mpr ⟨request, hpool⟩
  obtain ⟨-, hp0, -, ha0⟩ := hacc.quiet request.id (hb.apart _ hin) (.inl hin)
  obtain ⟨⟨cells, hheld, hlen, hvals, hcopied⟩, -, hother⟩ := h.claimed hb hs ht request hfree
  have hactive : ∀ j, (admittedState env s request seqId (.admitting todo)).active.get? j =
      if request.id = j then some ⟨seqId,
        request.promptTokens.drop (claimPrefix s request seqId).1,
        (claimPrefix s request seqId).1⟩ else s.active.get? j := fun j => Dict.get?_set ..
  have hlog : ∀ j, pushed (admittedState env s request seqId (.admitting todo)).log j =
        pushed s.log j ∧
      admissions (admittedState env s request seqId (.admitting todo)).log j =
        admissions s.log j ++
          if request.id = j then [(seqId, (claimPrefix s request seqId).1)] else [] := by
    intro j
    by_cases hj : request.id = j <;> simp [admittedState, asPushed, asAdmitted, hj]
  refine ⟨fun t hnone => ?_, fun _ other seq hseq hreq => ?_, by simp [admittedState,
    Phase.undelivered]⟩
  · have hne : t ≠ seqId := fun he =>
      hnone request.id _ (by rw [hactive, if_pos rfl]) he.symm
    refine (h.owned t fun id seq hseq => ?_).congr (hother t hne)
    by_cases hid : request.id = id
    · subst hid
      exact absurd (Dict.mem_keys.mpr ⟨seq, hseq⟩) (hb.apart _ hin)
    · exact hnone id seq (by rw [hactive, if_neg hid, hseq])
  · rw [hactive] at hseq
    have hreq' : s.accepted.get? other.id = some other := hreq
    split_ifs at hseq with hid
    · obtain rfl := Option.some.inj hseq
      have hsame := (hb.queued _ request hpool).2
      rw [hid] at hsame
      obtain rfl := Option.some.inj (hsame.symm.trans hreq')
      refine ⟨cells, (claimPrefix s request seqId).1, hheld, hlen, ?_, ?_, hlen.ge, ?_⟩
      · rw [hvals, List.take_append_drop, text, (hlog _).1, hp0, List.append_nil]
      · rw [(hlog _).2, ha0, if_pos rfl, List.nil_append]
      · intro i c hc
        have hi := (List.getElem?_eq_some_iff.mp hc).1
        rw [if_pos (hlen ▸ hi)]
        exact hcopied c (List.mem_of_getElem? hc)
    · obtain ⟨cells', n, hsp⟩ := h.spelled hs other seq hseq hreq'
      have hne := hb.free_ne (List.mem_of_getLast? hslot) hseq
      refine ⟨cells', n, hsp.congr (hother _ hne) (hlog _).1 ?_⟩
      rw [(hlog _).2, if_neg hid, List.append_nil]

/-- The rows of an active sequence in the batch it is handed to the runtime with. -/
theorem Books.rows_of_active (hb : Books env s) {id : RequestId}
    (hseq : s.active.get? id = some seq) {prepared : PreparedBatch}
    (hp : prepared = buildBatch s.active.values env.batchCapacity env.chunkSize) :
    ∃ take ≤ min env.chunkSize seq.pendingTokens.length,
      prepared.rows.filter (fun row => row.seqId = seq.seqId) = rowsOf seq take ∧
      prepared.rowCount seq.seqId = take := by
  subst hp
  obtain ⟨take, htake, hrows⟩ :=
    buildBatch_filter hb.seqIds_nodup (Dict.mem_values.mpr ⟨id, hseq⟩)
  refine ⟨take, htake, hrows, ?_⟩
  rw [rowCount_eq_length, hrows, rowsOf_length]
  omega

/-- Only the last slice of what is pending asks for logits. -/
theorem Books.sampled_last (hb : Books env s) {id : RequestId}
    (hseq : s.active.get? id = some seq) {prepared : PreparedBatch}
    (hp : prepared = buildBatch s.active.values env.batchCapacity env.chunkSize) {row : BatchRow}
    (hrow : row ∈ prepared.rows) (hslot : row.seqId = seq.seqId) (hl : row.needsLogits) :
    prepared.rowCount seq.seqId = seq.pendingTokens.length := by
  obtain ⟨take, -, hrows, hcount⟩ := hb.rows_of_active hseq hp
  have hm : row ∈ rowsOf seq take := by
    rw [← hrows, List.mem_filter]
    exact ⟨hrow, by simpa using hslot⟩
  obtain ⟨i, hi⟩ := List.mem_iff_getElem?.mp hm
  rw [rowsOf_getElem?, Option.map_eq_some_iff] at hi
  obtain ⟨token, -, rfl⟩ := hi
  have hlast : take = seq.pendingTokens.length ∧ i = take - 1 := by simpa using hl
  rw [hcount, hlast.1]

theorem Contents.decoded_step (h : Contents s) (hb : Books env s) {prepared : PreparedBatch}
    (hprep : prepared = buildBatch s.active.values env.batchCapacity env.chunkSize)
    (hs : s.phase.intact = true) {sample : ℕ → Token}
    {idOf : Dict SeqId RequestId} {now : Time} (hmem : s'.memory = decode s.memory prepared)
    (hactive : ∀ id, s'.active.get? id = (s.active.get? id).map (consume prepared))
    (hacc : s'.accepted = s.accepted)
    (hphase : s'.phase = .distributing idOf now (sampled sample prepared).entries)
    (hlog : ∀ id, pushed s'.log id = pushed s.log id ∧
      admissions s'.log id = admissions s.log id) : Contents s' := by
  have hback : ∀ id seq', s'.active.get? id = some seq' →
      ∃ seq, s.active.get? id = some seq ∧ seq' = consume prepared seq := by
    intro id seq' hseq'
    rw [hactive, Option.map_eq_some_iff] at hseq'
    obtain ⟨seq, hseq, rfl⟩ := hseq'
    exact ⟨seq, hseq, rfl⟩
  refine ⟨fun t hnone => ?_, fun _ request seq' hseq' hreq => ?_, fun e he id seq' hseq' hslot => ?_⟩
  · have hnone' : ∀ id seq, s.active.get? id = some seq → seq.seqId ≠ t := by
      intro id seq hseq
      exact hnone id (consume prepared seq) (by rw [hactive, hseq]; rfl)
    rw [hmem]
    refine (h.owned t hnone').congr (decode_absent fun row hrow => ?_)
    rw [hprep] at hrow
    obtain ⟨seq, hseq, hrs⟩ := buildBatch_seqId hrow
    obtain ⟨id, hid⟩ := Dict.mem_values.mp hseq
    rw [hrs]
    exact hnone' id seq hid
  · obtain ⟨seq, hseq, rfl⟩ := hback _ _ hseq'
    rw [hacc] at hreq
    obtain ⟨cells, n, h1, h2, h3, h4, h5, h6⟩ := h.spelled hs request seq hseq hreq
    obtain ⟨take, htake, hrows, hcount⟩ := hb.rows_of_active hseq hprep
    have hheld := decode_holds hrows h1 h2
    refine ⟨_, n, by rw [hmem]; exact hheld, ?_, ?_, (hlog _).2.trans h4, ?_, ?_⟩
    · show _ = seq.nPast + prepared.rowCount seq.seqId
      rw [List.length_append, List.length_map, List.length_take, h2, hcount]
      omega
    · show _ ++ seq.pendingTokens.drop (prepared.rowCount seq.seqId) = _
      rw [hcount, List.map_append, List.map_map, List.append_assoc]
      have hid : (seq.pendingTokens.take take).map
          (Cell.value ∘ fun token => (⟨token, [.decode]⟩ : Cell Token Writer)) =
          seq.pendingTokens.take take := List.map_id' _
      rw [hid, List.take_append_drop, h3, text, text, (hlog _).1]
    · rw [List.length_append]
      omega
    · intro i c hc
      by_cases hi : i < cells.length
      · rw [List.getElem?_append_left hi] at hc
        exact h6 i c hc
      · have hn : ¬ i < n := by omega
        rw [List.getElem?_append_right (not_lt.mp hi), List.getElem?_map,
          Option.map_eq_some_iff] at hc
        obtain ⟨token, -, rfl⟩ := hc
        rw [if_neg hn]
  · rw [hphase] at he
    obtain ⟨i, row, hrow, hl, hr, -⟩ := sampled_some (Dict.mem_entries.mp he)
    obtain ⟨seq, hseq, rfl⟩ := hback _ _ hseq'
    have hall := hb.sampled_last hseq hprep (List.mem_of_getElem? hrow) (hr.trans hslot.symm) hl
    show seq.pendingTokens.drop (prepared.rowCount seq.seqId) = []
    rw [hall, List.drop_length]

theorem Contents.failed_step (h : Contents s) {prepared : PreparedBatch}
    (hprep : prepared = buildBatch s.active.values env.batchCapacity env.chunkSize)
    {left : List ((SeqId × ℕ) × Token)} {todo : List RequestId}
    (hmem : s'.memory = decodeFailed s.memory prepared left) (hactive : s'.active = s.active)
    (hphase : s'.phase = .failing todo) : Contents s' := by
  refine ⟨fun t hnone => ?_, fun hi => ?_, by simp [hphase, Phase.undelivered]⟩
  · rw [hactive] at hnone
    rw [hmem]
    refine (h.owned t hnone).congr (decodeFailed_absent fun row hrow => ?_)
    rw [hprep] at hrow
    obtain ⟨seq, hseq, hrs⟩ := buildBatch_seqId hrow
    obtain ⟨id, hid⟩ := Dict.mem_values.mp hseq
    rw [hrs]
    exact hnone id seq hid
  · rw [hphase, Phase.intact] at hi
    simp at hi

theorem Contents.retired_step (h : Contents s) (hb : Books env s) {id : RequestId}
    {state : RequestState} (hstate : s.requests.get? id = some state)
    (hmem : s'.memory = freeSequence s.memory state.seqId)
    (hactive : s'.active = s.active.erase id) (hacc : s'.accepted = s.accepted)
    (hlog : ∀ j, j ≠ id → pushed s'.log j = pushed s.log j ∧
      admissions s'.log j = admissions s.log j)
    (hphase : s'.phase.intact = true → s.phase.intact = true)
    (hdue : ∀ e ∈ s'.phase.undelivered, e ∈ s.phase.undelivered) : Contents s' := by
  obtain ⟨seq, hseq, hslot⟩ := hb.seq_of_state hstate
  rw [← hslot] at hmem
  have hget : ∀ j, s'.active.get? j = if id = j then none else s.active.get? j := by
    intro j
    rw [hactive, Dict.get?_erase]
  refine ⟨fun t hnone => ?_, fun hi request other hother hreq => ?_,
    fun e he j other hother hslot => ?_⟩
  · rw [hmem, freeSequence]
    by_cases ht : t = seq.seqId
    · rw [ht]
      exact holds_nil_remove _ _
    · refine (h.owned t fun j other hother he => ?_).congr fun i => by rw [get?_remove, if_neg ht]
      by_cases hj : id = j
      · subst hj
        obtain rfl := Option.some.inj (hseq.symm.trans hother)
        exact ht he.symm
      · exact hnone j other (by rw [hget, if_neg hj, hother]) he
  · rw [hget] at hother
    split_ifs at hother with hj
    rw [hacc] at hreq
    obtain ⟨cells, n, hsp⟩ := h.spelled (hphase hi) request other hother hreq
    have hne : other.seqId ≠ seq.seqId := fun he => hj (hb.slot_unique hseq hother he.symm)
    obtain ⟨l1, l2⟩ := hlog request.id (Ne.symm hj)
    exact ⟨cells, n, hsp.congr (fun i => by rw [hmem, freeSequence, get?_remove, if_neg hne]) l1 l2⟩
  · rw [hget] at hother
    split_ifs at hother with hj
    exact h.drained e (hdue e he) j other hother hslot

theorem Contents.pushed_step (h : Contents s) (hs : Standing env s)
    {idOf : Dict SeqId RequestId} {now : Time} {seqId : SeqId} {token : Token}
    {todo : List (SeqId × Token)} {id : RequestId} {state : RequestState}
    (hp : s.phase = .distributing idOf now ((seqId, token) :: todo))
    (hid : idOf.get? seqId = some id) (hseq : s.active.get? id = some seq) :
    Contents (pushedState env s id seq state now token (.distributing idOf now todo)) := by
  obtain ⟨hslot, hn, hrest⟩ := hs.tail_distributing hp hid hseq
  have hempty : seq.pendingTokens = [] :=
    h.drained (seqId, token) (by simp [hp, Phase.undelivered]) id seq hseq hslot
  have hactive : ∀ j, (pushedState env s id seq state now token
      (.distributing idOf now todo)).active.get? j =
      if id = j then some { seq with pendingTokens := [token] } else s.active.get? j :=
    fun j => Dict.get?_set ..
  have hlog : ∀ j, pushed (pushedState env s id seq state now token
        (.distributing idOf now todo)).log j =
        pushed s.log j ++ (if id = j then [token] else []) ∧
      admissions (pushedState env s id seq state now token
        (.distributing idOf now todo)).log j = admissions s.log j := by
    intro j
    by_cases hj : id = j <;> simp [pushedState, asPushed, asAdmitted, hj]
  refine ⟨fun t hnone => ?_, fun _ request other hother hreq => ?_, fun e he j other hother hes => ?_⟩
  · refine h.owned t fun j other hother => ?_
    by_cases hj : id = j
    · subst hj
      obtain rfl := Option.some.inj (hseq.symm.trans hother)
      exact hnone id { seq with pendingTokens := [token] } (by rw [hactive, if_pos rfl])
    · exact hnone j other (by rw [hactive, if_neg hj, hother])
  · have hreq' : s.accepted.get? request.id = some request := hreq
    obtain ⟨l1, l2⟩ := hlog request.id
    rw [hactive] at hother
    split_ifs at hother with hj
    · obtain rfl := Option.some.inj hother
      subst hj
      obtain ⟨cells, n, h1, h2, h3, h4, h5, h6⟩ :=
        h.spelled (by rw [hp]; rfl) request seq hseq hreq'
      refine ⟨cells, n, h1, h2, ?_, l2.trans h4, h5, h6⟩
      rw [hempty, List.append_nil] at h3
      show cells.map Cell.value ++ [token] = _
      rw [text, l1, if_pos rfl, ← List.append_assoc, h3, text]
    · obtain ⟨cells, n, hsp⟩ := h.spelled (by rw [hp]; rfl) request other hother hreq'
      rw [if_neg hj, List.append_nil] at l1
      exact ⟨cells, n, hsp.congr (fun _ => rfl) l1 l2⟩
  · obtain ⟨k, owner, -, howner, hos, hne⟩ := hrest e he
    have hin : e ∈ s.phase.undelivered := by
      rw [hp]
      exact List.mem_cons_of_mem _ he
    rw [hactive] at hother
    split_ifs at hother with hj
    · obtain rfl := Option.some.inj hother
      refine absurd (List.mem_map.mpr ⟨e, he, ?_⟩) (List.nodup_cons.mp
        ((List.map_cons ..) ▸ (hs.distributing hp).1)).1
      exact hes.symm.trans hslot
    · exact h.drained e hin j other hother hes

theorem Contents.transition (h : Contents s) (hb : Books env s) (hs : Standing env s)
    (hacc : Accounts env s) (htree : TreeMirrors env s) {l : Label} (ht : Transition env s l s') :
    Contents s' := by
  have hlog : ∀ (events : List Event), (∀ id, pushed events id = [] ∧ admissions events id = []) →
      ∀ id, pushed (s.log ++ events) id = pushed s.log id ∧
        admissions (s.log ++ events) id = admissions s.log id := by
    intro events he id
    obtain ⟨e1, e2⟩ := he id
    simp [e1, e2]
  have hdue : s.phase.awaiting = true → s.phase.undelivered = [] := awaiting_undelivered
  cases ht with
  | rejected hw hnew =>
    exact h.frame rfl rfl (fun _ _ => rfl) (hlog _ fun id => by simp [asPushed, asAdmitted]) .inl
      (hdue hw)
  | accepted hw hnew hroom hres =>
    refine h.frame rfl rfl (fun j hj => ?_) (hlog _ fun id => by simp [asPushed, asAdmitted]) .inl
      (hdue hw)
    rw [Dict.get?_set, if_neg]
    rintro rfl
    exact (hb.unissued hnew).2.1 hj
  | setPolicy hw | cancel hw =>
    exact h.frame rfl rfl (fun _ _ => rfl) (fun _ => ⟨rfl, rfl⟩) .inl (hdue hw)
  | receive hw hr =>
    refine h.frame rfl rfl (fun _ _ => rfl) (hlog _ fun id => ?_) .inl (hdue hw)
    split_ifs <;> simp [asPushed, asAdmitted]
  | leave hw hl =>
    exact h.frame rfl rfl (fun _ _ => rfl) (hlog _ fun id => by simp [asPushed, asAdmitted]) .inl
      (hdue hw)
  | beginExpiry hp | wake hp | keep hp | rest hp | full hp | select hp | selectRaised hp =>
    exact h.frame rfl rfl (fun _ _ => rfl) (fun _ => ⟨rfl, rfl⟩)
      (fun _ => .inl (by rw [hp]; rfl)) rfl
  | expire hp hstale hpool =>
    exact h.frame rfl rfl (fun _ _ => rfl) (hlog _ fun id => by simp [asPushed, asAdmitted])
      (fun _ => .inl (by rw [hp]; rfl)) rfl
  | admitted hp hpool hslot => exact h.admitted_step hb hacc htree (by rw [hp]; rfl) hpool hslot _
  | buildNothing hp hnil =>
    exact h.frame rfl rfl (fun _ _ => rfl) (hlog _ fun id => by simp [asPushed, asAdmitted])
      (fun _ => .inl (by rw [hp]; rfl)) rfl
  | build hp hprep hne =>
    exact h.frame rfl rfl (fun _ _ => rfl) (hlog _ fun id => by simp [asPushed, asAdmitted])
      (fun _ => .inl (by rw [hp]; rfl)) rfl
  | decoded hp hkeys hactive =>
    exact h.decoded_step hb (hs.decoding hp) (by rw [hp]; rfl) rfl hactive rfl rfl
      (hlog _ fun id => by simp [asPushed, asAdmitted])
  | decodeFailed hp => exact h.failed_step (hs.decoding hp) rfl rfl rfl
  | @finishSampled idOf now seqId token todo id seq state why hp hid hseq hstate =>
    refine h.retired_step hb hstate rfl rfl rfl (fun j hj => ?_)
      (fun _ => by rw [hp]; rfl) fun e he => ?_
    · simp [finishedState, asPushed, asAdmitted]
    · rw [hp]
      exact List.mem_cons_of_mem _ he
  | @dieSampled idOf now seqId token todo id seq state why hp hid hseq hstate =>
    refine h.retired_step hb hstate rfl rfl rfl (fun j hj => ?_)
      (fun hi => by simp [diedState, Phase.intact] at hi) fun e he => ?_
    · simp [diedState, asPushed, asAdmitted]
    · simp [diedState, Phase.undelivered] at he
  | push hp hid hseq hstate hgo => exact h.pushed_step hs hp hid hseq
  | @finishFailed id todo seq state hp hseq hstate =>
    refine h.retired_step hb hstate rfl rfl rfl (fun j hj => ?_)
      (fun hi => by simp [finishedState, Phase.intact] at hi) fun e he => ?_
    · simp [finishedState, asPushed, asAdmitted]
    · simp [finishedState, Phase.undelivered] at he
  | @dieFailed id todo seq state hp hseq hstate =>
    refine h.retired_step hb hstate rfl rfl rfl (fun j hj => ?_)
      (fun hi => by simp [diedState, Phase.intact] at hi) fun e he => ?_
    · simp [diedState, asPushed, asAdmitted]
    · simp [diedState, Phase.undelivered] at he
  | endTick hp =>
    refine h.frame rfl rfl (fun _ _ => rfl) (fun _ => ⟨rfl, rfl⟩) (fun _ => ?_) rfl
    rcases hp with ⟨idOf, now, hp⟩ | hp
    · exact .inl (by rw [hp]; rfl)
    · exact .inr (hs.failed_all hp)

theorem reachable_contents {allowed : State → Label → Prop}
    (h : Reachable (step env) allowed (start env) s) : Contents s := by
  refine h.invariant (contents_start env) fun s l s' hr hi _ hs => ?_
  exact hi.transition (reachable_books hr).1 (reachable_books hr).2 (reachable_accounts hr)
    (reachable_mirrors hr) (reachable_transition hr hs)

end Kept

/-- Whenever a batch is built, the memory of an active sequence is its text up to `n_past`, the
rest of the text is pending, and each cell was written once: by the copy at admission below the
reused tokens, by one row of a batch above. -/
theorem memory_spells_text (env : Env) (s : State)
    (h : Reachable (step env) anything (start env) s) (hbuild : s.phase = .admitting [])
    (id : RequestId) (seq : ActiveSequence) (hseq : s.active.get? id = some seq) :
    ∃ request, s.accepted.get? id = some request ∧
      (∀ i, (seq.seqId, i) ∈ s.memory.keys ↔ i < seq.nPast) ∧
      (∀ i < seq.nPast, (s.memory.get? (seq.seqId, i)).map Cell.value =
        (request.promptTokens ++ pushed s.log id)[i]?) ∧
      seq.pendingTokens = (request.promptTokens ++ pushed s.log id).drop seq.nPast ∧
      ∃ n, admissions s.log id = [(seq.seqId, n)] ∧ n ≤ seq.nPast ∧
        ∀ i c, s.memory.get? (seq.seqId, i) = some c →
          if i < n then ∃ src, c.writes = [.copy src] else c.writes = [.decode] := by
  have hb := (reachable_books h).1
  obtain ⟨request, hreq, rfl⟩ := hb.request_of_active (Dict.mem_keys.mpr ⟨seq, hseq⟩)
  obtain ⟨cells, n, h1, h2, h3, h4, h5, h6⟩ :=
    (reachable_contents h).spelled (by rw [hbuild]; rfl) request seq hseq hreq
  have hlen : (cells.map Cell.value).length = seq.nPast := by rw [List.length_map, h2]
  rw [text] at h3
  refine ⟨request, hreq, fun i => h2 ▸ h1.keys_iff i, fun i hi => ?_, ?_, n, h4, h2 ▸ h5,
    fun i c hc => h6 i c ((h1 i).symm.trans hc)⟩
  · rw [← h3, h1 i, List.getElem?_append_left (by rwa [hlen]), List.getElem?_map]
  · rw [← h3, ← hlen, List.drop_left]

/-- A second request comes while the first is halfway through the prompt they share. -/
def demoReuse : List Label :=
  [.generate 0 demoBody] ++ List.replicate 5 .loop ++ [.decoded (fun _ => 1) [1], .loop] ++
    [.generate 1 demoBody] ++ List.replicate 4 .loop

theorem demoReuse_builds : ∃ s, run (step demo) (start demo) demoReuse = some s ∧
    s.phase = .admitting [] ∧ s.active.get? 1 = some ⟨0, [1], 2⟩ := by
  obtain ⟨s, hs⟩ := Option.isSome_iff_exists.mp
    (by decide +kernel : (run (step demo) (start demo) demoReuse).isSome)
  have hfinal : (run (step demo) (start demo) demoReuse).map (fun s =>
      (s.active.get? 1, s.phase.toAdmit)) = some (some ⟨0, [1], 2⟩, some []) := by decide +kernel
  rw [hs, Option.map_some, Option.some.injEq, Prod.mk.injEq] at hfinal
  exact ⟨s, hs, toAdmit_some hfinal.2, hfinal.1⟩

theorem memory_spells_text_demo : ∃ s, run (step demo) (start demo) demoReuse = some s ∧
    (∀ i, ((0 : SeqId), i) ∈ s.memory.keys ↔ i < 2) ∧ ∃ n, admissions s.log 1 = [(0, n)] := by
  obtain ⟨s, hs, hbuild, hseq⟩ := demoReuse_builds
  obtain ⟨request, -, hkeys, -, -, n, hn, -⟩ :=
    memory_spells_text demo s (Reachable.init.run hs) hbuild 1 _ hseq
  exact ⟨s, hs, hkeys, n, hn⟩

end TinyServe.BatchLoop
