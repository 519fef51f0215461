import TinyServe.BatchLoop

set_option autoImplicit false

/-!
The books the server keeps about a request: waiting pool, active map, slot stack and block table.
Every step of the loop relies on their agreement, so that no lookup of its own can fail.
-/
namespace TinyServe.BatchLoop
open OrderedDict BatchBuilder Admission Scheduler

/-- The most blocks a request can come to fill. -/
def worstCase (env : Env) (request : PendingRequest) : ℕ :=
  (request.promptTokens.length + request.maxTokens + env.kvBlockSize - 1) / env.kvBlockSize

/-- The requests that hold a reservation. -/
def Holding (s : State) (id : RequestId) : Prop := id ∈ s.queue.pool.keys ∨ id ∈ s.active.keys

structure Books (env : Env) (s : State) : Prop where
  slots : (s.freeSlots ++ s.active.values.map ActiveSequence.seqId).Perm (slots env)
  agree : ∀ id, (s.active.get? id).map ActiveSequence.seqId =
    (s.requests.get? id).map RequestState.seqId
  queued : ∀ id request, s.queue.pool.get? id = some request →
    request.id = id ∧ s.accepted.get? id = some request
  known : ∀ id ∈ s.active.keys, id ∈ s.accepted.keys
  issued : ∀ id ∈ s.accepted.keys, id ∈ s.issued
  named : ∀ id request, s.accepted.get? id = some request → request.id = id
  apart : ∀ id ∈ s.queue.pool.keys, id ∉ s.active.keys
  reserved : ∀ id request, s.accepted.get? id = some request → Holding s id →
    s.kvCache.blockTable.get? id = some (worstCase env request)
  unreserved : ∀ id, ¬ Holding s id → id ∉ s.kvCache.blockTable.keys
  blockSize : s.kvCache.blockSize = env.kvBlockSize
  totalBlocks : s.kvCache.totalBlocks = env.totalTokens / env.kvBlockSize
  depth : s.queue.depth ≤ env.maxQueueDepth

/-- What the locals of the loop refer to is still there. -/
def Standing (env : Env) (s : State) : Prop :=
  match s.phase with
  | .expiring _ todo _ =>
    (todo.map PendingRequest.id).Nodup ∧ ∀ r ∈ todo, s.queue.pool.get? r.id = some r
  | .admitting todo =>
    (todo.map PendingRequest.id).Nodup ∧ (∀ r ∈ todo, s.queue.pool.get? r.id = some r) ∧
      todo.length ≤ s.freeSlots.length
  | .decoding prepared =>
    prepared = buildBatch s.active.values env.batchCapacity env.chunkSize
  | .distributing idOf _ todo =>
    (todo.map Prod.fst).Nodup ∧ ∀ e ∈ todo, ∃ id seq, idOf.get? e.1 = some id ∧
      s.active.get? id = some seq ∧ seq.seqId = e.1
  | .failing todo => todo.Nodup ∧ ∀ id, id ∈ todo ↔ id ∈ s.active.keys
  | _ => True

section Standing
variable {env : Env} {s : State} {now : Time}

theorem Standing.expiring (hs : Standing env s) {todo : List PendingRequest} {woken : Bool}
    (h : s.phase = .expiring now todo woken) :
    (todo.map PendingRequest.id).Nodup ∧ ∀ r ∈ todo, s.queue.pool.get? r.id = some r := by
  rw [Standing, h] at hs
  exact hs

theorem Standing.admitting (hs : Standing env s) {todo : List PendingRequest}
    (h : s.phase = .admitting todo) :
    (todo.map PendingRequest.id).Nodup ∧ (∀ r ∈ todo, s.queue.pool.get? r.id = some r) ∧
      todo.length ≤ s.freeSlots.length := by
  rw [Standing, h] at hs
  exact hs

theorem Standing.decoding (hs : Standing env s) {prepared : PreparedBatch}
    (h : s.phase = .decoding prepared) :
    prepared = buildBatch s.active.values env.batchCapacity env.chunkSize := by
  rw [Standing, h] at hs
  exact hs

theorem Standing.distributing (hs : Standing env s) {idOf : Dict SeqId RequestId}
    {todo : List (SeqId × Token)} (h : s.phase = .distributing idOf now todo) :
    (todo.map Prod.fst).Nodup ∧ ∀ e ∈ todo, ∃ id seq, idOf.get? e.1 = some id ∧
      s.active.get? id = some seq ∧ seq.seqId = e.1 := by
  rw [Standing, h] at hs
  exact hs

theorem Standing.failing (hs : Standing env s) {todo : List RequestId}
    (h : s.phase = .failing todo) : todo.Nodup ∧ ∀ id, id ∈ todo ↔ id ∈ s.active.keys := by
  rw [Standing, h] at hs
  exact hs

theorem Standing.failed_all (hs : Standing env s) (h : s.phase = .failing []) :
    s.active.keys = [] := by
  refine List.eq_nil_iff_forall_not_mem.mpr fun id hid => ?_
  have hgone := ((hs.failing h).2 id).mpr hid
  simp at hgone

end Standing

section Facts
variable {env : Env} {s : State}

theorem holding_congr {s' : State} (hq : s'.queue = s.queue) (ha : s'.active.keys = s.active.keys)
    (id : RequestId) : Holding s' id ↔ Holding s id := by
  rw [Holding, Holding, hq, ha]

theorem slots_nodup (env : Env) : (slots env).Nodup :=
  List.nodup_range.map fun _ _ h => Int.ofNat.inj h

namespace Books

theorem seqIds_nodup (h : Books env s) : (s.active.values.map ActiveSequence.seqId).Nodup :=
  (List.nodup_append.mp (h.slots.nodup_iff.mpr (slots_nodup env))).2.1

/-- A free slot is nobody's. -/
theorem free_ne (h : Books env s) {seqId : SeqId} (hf : seqId ∈ s.freeSlots) {id : RequestId}
    {seq : ActiveSequence} (hs : s.active.get? id = some seq) : seq.seqId ≠ seqId := by
  have hn := List.nodup_append.mp (h.slots.nodup_iff.mpr (slots_nodup env))
  have hm : seq.seqId ∈ s.active.values.map ActiveSequence.seqId :=
    List.mem_map_of_mem (Dict.mem_values.mpr ⟨id, hs⟩)
  exact (hn.2.2 seqId hf seq.seqId hm).symm

theorem slot_unique (h : Books env s) {i j : RequestId} {a b : ActiveSequence}
    (hi : s.active.get? i = some a) (hj : s.active.get? j = some b) (he : a.seqId = b.seqId) :
    i = j := Dict.key_unique h.seqIds_nodup hi hj he

theorem seq_of_state (h : Books env s) {id : RequestId} {state : RequestState}
    (hs : s.requests.get? id = some state) :
    ∃ seq, s.active.get? id = some seq ∧ seq.seqId = state.seqId := by
  have ha := h.agree id
  rw [hs, Option.map_some] at ha
  exact Option.map_eq_some_iff.mp ha

theorem state_of_seq (h : Books env s) {id : RequestId} {seq : ActiveSequence}
    (hs : s.active.get? id = some seq) :
    ∃ state, s.requests.get? id = some state ∧ state.seqId = seq.seqId := by
  have ha := (h.agree id).symm
  rw [hs, Option.map_some] at ha
  exact Option.map_eq_some_iff.mp ha

theorem keys_agree (h : Books env s) (id : RequestId) :
    id ∈ s.requests.keys ↔ id ∈ s.active.keys := by
  constructor
  · intro hm
    obtain ⟨state, hs⟩ := Dict.mem_keys.mp hm
    obtain ⟨seq, hseq, -⟩ := h.seq_of_state hs
    exact Dict.mem_keys.mpr ⟨seq, hseq⟩
  · intro hm
    obtain ⟨seq, hs⟩ := Dict.mem_keys.mp hm
    obtain ⟨state, hstate, -⟩ := h.state_of_seq hs
    exact Dict.mem_keys.mpr ⟨state, hstate⟩

theorem request_of_active (h : Books env s) {id : RequestId} (hm : id ∈ s.active.keys) :
    ∃ request, s.accepted.get? id = some request ∧ request.id = id := by
  obtain ⟨request, hr⟩ := Dict.mem_keys.mp (h.known id hm)
  exact ⟨request, hr, h.named id request hr⟩

theorem holding_known (h : Books env s) {id : RequestId} (hh : Holding s id) :
    id ∈ s.accepted.keys := by
  rcases hh with hm | hm
  · obtain ⟨request, hr⟩ := Dict.mem_keys.mp hm
    exact Dict.mem_keys.mpr ⟨request, (h.queued id request hr).2⟩
  · exact h.known id hm

theorem unissued (h : Books env s) {id : RequestId} (hn : id ∉ s.issued) :
    id ∉ s.queue.pool.keys ∧ id ∉ s.active.keys ∧ id ∉ s.accepted.keys ∧
      id ∉ s.kvCache.blockTable.keys := by
  have hacc : id ∉ s.accepted.keys := fun hm => hn (h.issued id hm)
  have hnot : ¬ Holding s id := fun hh => hacc (h.holding_known hh)
  exact ⟨fun hm => hnot (.inl hm), fun hm => hnot (.inr hm), hacc, h.unreserved id hnot⟩

/-- The books look at these components and no others. -/
theorem frame (h : Books env s) {s' : State} (hq : s'.queue = s.queue)
    (hk : s'.kvCache = s.kvCache) (ha : s'.active = s.active) (hr : s'.requests = s.requests)
    (hf : s'.freeSlots = s.freeSlots) (hacc : s'.accepted = s.accepted)
    (hi : ∀ id ∈ s.issued, id ∈ s'.issued) : Books env s' := by
  obtain ⟨h1, h2, h3, h4, h5, h6, h7, h8, h9, h10, h11, h12⟩ := h
  have hhold := holding_congr hq (congrArg Dict.keys ha)
  refine ⟨?_, ?_, ?_, ?_, ?_, ?_, ?_, ?_, ?_, ?_, ?_, ?_⟩
  · rwa [hf, ha]
  · rwa [ha, hr]
  · rwa [hq, hacc]
  · rwa [ha, hacc]
  · rw [hacc]
    exact fun id hm => hi id (h5 id hm)
  · rwa [hacc]
  · rwa [hq, ha]
  · rw [hacc, hk]
    exact fun id request hreq hh => h8 id request hreq ((hhold id).mp hh)
  · rw [hk]
    exact fun id hh => h9 id fun h => hh ((hhold id).mpr h)
  · rwa [hk]
  · rwa [hk]
  · rwa [hq]

end Books

end Facts

section Lookups
variable {env : Env} {s : State}

theorem foldl_set_get? (es : List (RequestId × RequestState)) (d : Dict SeqId RequestId)
    {seqId : SeqId} {id : RequestId} (hex : ∃ e ∈ es, e.2.seqId = seqId)
    (hall : ∀ e ∈ es, e.2.seqId = seqId → e.1 = id) :
    (es.foldl (fun d e => d.set e.2.seqId e.1) d).get? seqId = some id := by
  induction es using List.reverseRecOn with
  | nil => simp at hex
  | append_singleton es last ih =>
    rw [List.foldl_append, List.foldl_cons, List.foldl_nil, Dict.get?_set]
    by_cases hl : last.2.seqId = seqId
    · rw [if_pos hl, hall last (by simp) hl]
    · rw [if_neg hl]
      refine ih ?_ fun e he => hall e (List.mem_append_left _ he)
      obtain ⟨e, he, hes⟩ := hex
      rcases List.mem_append.mp he with hm | hm
      · exact ⟨e, hm, hes⟩
      · exact absurd (List.mem_singleton.mp hm ▸ hes) hl

/-- The map from slots to requests finds every active sequence. -/
theorem requestIdOf_get? (h : Books env s) {id : RequestId} {seq : ActiveSequence}
    (hs : s.active.get? id = some seq) : (requestIdOf s.requests).get? seq.seqId = some id := by
  obtain ⟨state, hstate, hseq⟩ := h.state_of_seq hs
  refine foldl_set_get? _ _ ⟨(id, state), Dict.mem_entries.mpr hstate, hseq⟩ ?_
  rintro ⟨j, other⟩ hm he
  obtain ⟨seq', hs', hseq'⟩ := h.seq_of_state (Dict.mem_entries.mp hm)
  exact h.slot_unique hs' hs (hseq'.trans he)

/-- What a batch takes off a sequence. -/
def consume (prepared : PreparedBatch) (seq : ActiveSequence) : ActiveSequence :=
  { seq with
    nPast := seq.nPast + prepared.rowCount seq.seqId
    pendingTokens := seq.pendingTokens.drop (prepared.rowCount seq.seqId) }

theorem consume_absent {prepared : PreparedBatch} {seq : ActiveSequence}
    (h : seq.seqId ∉ prepared.rows.map BatchRow.seqId) : consume prepared seq = seq := by
  have h0 : prepared.rowCount seq.seqId = 0 := by
    refine List.countP_eq_zero.mpr fun row hrow hr => h ?_
    have hs : row.seqId = seq.seqId := by simpa using hr
    exact hs ▸ List.mem_map_of_mem hrow
  rw [consume, h0]
  rfl

/-- The loop over the slots of a batch moves each of its sequences once and raises nothing. -/
theorem advance_eq (prepared : PreparedBatch) (idOf : Dict SeqId RequestId) {order : List SeqId}
    (hn : order.Nodup) {active : Dict RequestId ActiveSequence}
    (hinj : ∀ i j a b, active.get? i = some a → active.get? j = some b → a.seqId = b.seqId → i = j)
    (hfound : ∀ t ∈ order, ∃ id seq, idOf.get? t = some id ∧ active.get? id = some seq ∧
      seq.seqId = t) :
    (advance prepared idOf order active).2 = none ∧
      (advance prepared idOf order active).1.keys = active.keys ∧
      ∀ id, (advance prepared idOf order active).1.get? id = (active.get? id).map fun seq =>
        if seq.seqId ∈ order then consume prepared seq else seq := by
  induction order generalizing active with
  | nil => exact ⟨rfl, rfl, fun id => by simp [advance]⟩
  | cons t order ih =>
    rw [List.nodup_cons] at hn
    obtain ⟨id, seq, hid, hseq, hst⟩ := hfound t List.mem_cons_self
    have hstep : advance prepared idOf (t :: order) active =
        advance prepared idOf order (active.set id (consume prepared seq)) := by
      simp only [advance, hid, Option.bind_some, hseq, Option.map_some, consume, hst]
    have hget : ∀ j b, (active.set id (consume prepared seq)).get? j = some b →
        ∃ a, active.get? j = some a ∧ a.seqId = b.seqId := by
      intro j b hb
      rw [Dict.get?_set] at hb
      split_ifs at hb with hj
      · subst hj
        exact ⟨seq, hseq, by rw [← Option.some.inj hb]; rfl⟩
      · exact ⟨b, hb, rfl⟩
    obtain ⟨hnone, hkeys, hmap⟩ := ih hn.2
      (fun i j a b ha hb he => by
        obtain ⟨a', ha', hea⟩ := hget i a ha
        obtain ⟨b', hb', heb⟩ := hget j b hb
        exact hinj i j a' b' ha' hb' (hea.trans (he.trans heb.symm)))
      (fun u hu => by
        obtain ⟨j, other, hj, hother, hou⟩ := hfound u (List.mem_cons_of_mem _ hu)
        have hne : id ≠ j := by
          rintro rfl
          obtain rfl := Option.some.inj (hseq.symm.trans hother)
          exact hn.1 (hst ▸ hou ▸ hu)
        exact ⟨j, other, hj, by rw [Dict.get?_set, if_neg hne, hother], hou⟩)
    rw [hstep]
    refine ⟨hnone, ?_, fun j => ?_⟩
    · rw [hkeys, Dict.keys_set_of_mem (Dict.mem_keys.mpr ⟨seq, hseq⟩)]
    · rw [hmap, Dict.get?_set]
      by_cases hj : id = j
      · subst hj
        have hnot : (consume prepared seq).seqId ∉ order := by
          show seq.seqId ∉ order
          rw [hst]
          exact hn.1
        rw [if_pos rfl, hseq, Option.map_some, Option.map_some, if_neg hnot,
          if_pos (hst ▸ List.mem_cons_self)]
      · rw [if_neg hj]
        cases hother : active.get? j with
        | none => rfl
        | some other =>
          have hne : other.seqId ≠ t := fun he =>
            hj (hinj id j seq other hseq hother (hst.trans he.symm))
          rw [Option.map_some, Option.map_some]
          simp only [List.mem_cons, hne, false_or]

/-- In a state that is about to decode, the loop advances every active sequence. -/
theorem advance_active (h : Books env s) {prepared : PreparedBatch} {order : List SeqId}
    (hp : prepared = buildBatch s.active.values env.batchCapacity env.chunkSize)
    (ho : order.Perm (distinctSeqIds prepared)) :
    ∃ active, advance prepared (requestIdOf s.requests) order s.active = (active, none) ∧
      active.keys = s.active.keys ∧
      ∀ id, active.get? id = (s.active.get? id).map (consume prepared) := by
  have hmem : ∀ t, t ∈ order ↔ t ∈ prepared.rows.map BatchRow.seqId := by
    intro t
    rw [ho.mem_iff, distinctSeqIds, List.mem_dedup]
  have hfound : ∀ t ∈ order, ∃ id seq, (requestIdOf s.requests).get? t = some id ∧
      s.active.get? id = some seq ∧ seq.seqId = t := by
    intro t ht
    obtain ⟨row, hrow, rfl⟩ := List.mem_map.mp ((hmem t).mp ht)
    rw [hp] at hrow
    obtain ⟨seq, hseq, he⟩ := buildBatch_seqId hrow
    obtain ⟨id, hid⟩ := Dict.mem_values.mp hseq
    exact ⟨id, seq, he ▸ requestIdOf_get? h hid, hid, he.symm⟩
  obtain ⟨hnone, hkeys, hmap⟩ := advance_eq prepared (requestIdOf s.requests)
    (ho.nodup_iff.mpr (List.nodup_dedup _)) (fun i j a b ha hb he => h.slot_unique ha hb he) hfound
  refine ⟨_, Prod.ext rfl hnone, hkeys, fun id => ?_⟩
  rw [hmap]
  refine Option.map_congr fun seq _ => ?_
  by_cases ht : seq.seqId ∈ order
  · rw [if_pos ht]
  · rw [if_neg ht, consume_absent fun hm => ht ((hmem _).mpr hm)]

end Lookups

end TinyServe.BatchLoop
