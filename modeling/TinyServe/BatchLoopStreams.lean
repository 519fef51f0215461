import TinyServe.BatchLoopLifecycle

set_option autoImplicit false

/-! What is put on the stream of a request, and how it ends. -/
namespace TinyServe.BatchLoop
open OrderedDict BatchBuilder Scheduler Streaming Tracing Runs

section Items

def asEnqueued (id : RequestId) : Event → Option Item
  | .enqueued j item => if j = id then some item else none
  | _ => none

def asReceived (id : RequestId) : Event → Option Item
  | .received j item => if j = id then some item else none
  | _ => none

def asDetached (id : RequestId) : Event → Option Unit
  | .detached j => if j = id then some () else none
  | _ => none

/-- What was put on the stream of a request, in order. -/
abbrev items (log : List Event) (id : RequestId) : List Item := view (asEnqueued id) log

/-- What the client of a request has taken from its stream, in order. -/
abbrev taken (log : List Event) (id : RequestId) : List Item := view (asReceived id) log

/-- The times the stream entry of a request was taken away. -/
abbrev detaches (log : List Event) (id : RequestId) : List Unit := view (asDetached id) log

@[simp] theorem quiet_asReceived (id : RequestId) : Quiet (asReceived id) := by
  constructor <;> simp [asReceived]

@[simp] theorem quiet_asDetached (id : RequestId) : Quiet (asDetached id) := by
  constructor <;> simp [asDetached]

variable {env : Env} {s : State}

theorem items_enqueued (id j : RequestId) (enqueued : List Item) :
    items (enqueued.map (.enqueued j)) id = if j = id then enqueued else [] := by
  induction enqueued with
  | nil => simp
  | cons item rest ih =>
    rw [List.map_cons, items, view_cons, ← items, ih]
    by_cases hj : j = id <;> simp [asEnqueued, hj]

@[simp] theorem items_spanClosing (t : RequestTracer) (id j : RequestId) (name : SpanName) :
    items (spanClosing t j name) id = [] := by
  rw [spanClosing]
  split_ifs <;> simp [asEnqueued]

@[simp] theorem items_rootClosing (t : RequestTracer) (id j : RequestId) :
    items (rootClosing t j) id = [] := by
  rw [rootClosing]
  split_ifs <;> simp [asEnqueued]

@[simp] theorem items_lookups (id : RequestId) (request : PendingRequest) (seqId : SeqId) :
    items (lookups s request seqId) id = [] := by
  rw [lookups]
  split <;> simp [asEnqueued]

end Items

section Endings
variable {env : Env} {s s' : State} {id : RequestId}

/-- The two ways a request ends. -/
def Terminal (id : RequestId) (e : Event) : Prop := e = .expired id ∨ ∃ why, e = .finished id why

/-- One end marker after the text, if the entry is there to take it. -/
def ClosedBy (there : Prop) (added : List Item) : Prop :=
  (there → ∃ texts, added = texts ++ [.endOfStream] ∧ .endOfStream ∉ texts) ∧
    (¬ there → added = [])

/-- A request has ended with the marker, or without one when its entry was gone by then, and
nothing followed on its stream. -/
def Closed (log : List Event) (id : RequestId) : Prop :=
  ∃ before e after, log = before ++ e :: after ∧ Terminal id e ∧
    .endOfStream ∉ items before id ∧ ClosedBy (detaches before id = []) (items after id)

/-- A step that ends a request and concerns no other. -/
structure Ending (s s' : State) (id : RequestId) : Prop where
  log : ∃ before e after, s'.log = s.log ++ (before ++ e :: after) ∧ Terminal id e ∧
    (∀ j, items (before ++ [e]) j = [] ∧ detaches (before ++ [e]) j = []) ∧
    (∀ j, detaches after j = []) ∧ (∀ j, j ≠ id → items after j = []) ∧
    ClosedBy (s.streams.streams.contains id = true) (items after id)
  queues : ∃ events, s'.log = s.log ++ events ∧ ∀ j, taken events j = [] ∧
    s'.streams.queued j = (s.streams.queued j).map (· ++ items events j)
  entries : ∀ j, s'.streams.streams.contains j = s.streams.streams.contains j
  holding : ∀ j, Holding s' j ↔ j ≠ id ∧ Holding s j
  accepted : s'.accepted = s.accepted

theorem closedBy_close (env : Env) (s : State) (id : RequestId) :
    ClosedBy (s.streams.streams.contains id = true) (items (closing env s id) id) := by
  have h := close_items env.decoder s.streams id
  rw [closing, items_enqueued, if_pos rfl]
  constructor
  · intro hin
    rwa [if_pos hin] at h
  · intro hout
    rwa [if_neg hout] at h

theorem queued_closing (env : Env) (s : State) (id j : RequestId) :
    (s.streams.close env.decoder id).1.queued j =
      (s.streams.queued j).map (· ++ items (closing env s id) j) := by
  rw [closing, items_enqueued, queued_close]

theorem expired_ending (hb : Books env s) {request : PendingRequest}
    (hpool : s.queue.pool.get? request.id = some request) (phase : Phase) :
    Ending s (expiredState env s request.id phase) request.id where
  log := by
    refine ⟨[], .expired request.id, .released request.id :: (closing env s request.id ++
      spanClosing s.tracer request.id .queueWait ++
      rootClosing (s.tracer.endSpan request.id .queueWait).2 request.id), by simp [expiredState],
      .inl rfl, fun j => ⟨rfl, rfl⟩, fun j => by simp [asDetached], fun j hj => ?_, ?_⟩
    · simp [asEnqueued, closing, items_enqueued, Ne.symm hj]
    · have hclose := closedBy_close env s request.id
      simpa [asEnqueued] using hclose
  queues := by
    refine ⟨_, rfl, fun j => ⟨by simp [asReceived], (queued_closing env s request.id j).trans ?_⟩⟩
    simp [asEnqueued]
  entries j := contains_close j
  holding := hb.holding_expired (Dict.mem_keys.mpr ⟨request, hpool⟩) phase
  accepted := rfl

theorem finished_ending (hb : Books env s) {id : RequestId} {seq : ActiveSequence}
    (hseq : s.active.get? id = some seq) (state : RequestState) (why : Option CancelReason)
    {before : List Event}
    (hbefore : ∀ j, items before j = [] ∧ detaches before j = [] ∧ taken before j = [])
    (phase : Phase) : Ending s (finishedState env s id state why before phase) id where
  log := by
    refine ⟨before, .finished id why, .released id :: (closing env s id ++
      spanClosing s.tracer id .generation ++
      rootClosing (s.tracer.endSpan id .generation).2 id), by simp [finishedState],
      .inr ⟨why, rfl⟩, fun j => ?_, fun j => by simp [asDetached], fun j hj => ?_, ?_⟩
    · obtain ⟨hitems, hdetaches, -⟩ := hbefore j
      rw [items, view_append, detaches, view_append, ← items, ← detaches, hitems, hdetaches]
      exact ⟨rfl, rfl⟩
    · simp [asEnqueued, closing, items_enqueued, Ne.symm hj]
    · have hclose := closedBy_close env s id
      simpa [asEnqueued] using hclose
  queues := by
    refine ⟨_, rfl, fun j => ?_⟩
    obtain ⟨hitems, -, htaken⟩ := hbefore j
    refine ⟨by simp [asReceived, htaken], (queued_closing env s id j).trans ?_⟩
    simp [asEnqueued, hitems]
  entries j := contains_close j
  holding := hb.holding_retired (Dict.mem_keys.mpr ⟨seq, hseq⟩) state
  accepted := rfl

theorem Ending.at (h : Ending s s' id) {j : RequestId} (hin : Holding s j)
    (hout : ¬ Holding s' j) : Ending s s' j := by
  obtain rfl : j = id := by
    by_contra hne
    exact hout ((h.holding j).mpr ⟨hne, hin⟩)
  exact h

/-- A step that takes the reservation of a request ends the request. -/
theorem Transition.ending (hclock : TicksApart env) (hb : Books env s) (hs : Standing env s)
    (haged : Aged env s) {l : Label} (ht : Transition env s l s') {j : RequestId}
    (hin : Holding s j) (hout : ¬ Holding s' j) : Ending s s' j := by
  cases ht with
  | accepted hw hnew hroom hres =>
    refine absurd (hin.imp_left fun hm => ?_) hout
    exact Dict.mem_keys_set.mpr (.inr hm)
  | expire hp hstale hpool => exact (expired_ending hb hpool _).at hin hout
  | @admitted request todo seqId hp hpool hslot =>
    have hwaiting := Dict.mem_keys.mpr ⟨request, hpool⟩
    exact absurd ((holding_admitted hwaiting seqId _ j).mpr hin) hout
  | decoded hp hkeys hactive => exact absurd (hin.imp_right fun hm => hkeys ▸ hm) hout
  | finishSampled hp hid hseq =>
    refine (finished_ending hb hseq _ _ (fun j => ?_) _).at hin hout
    simp [asEnqueued, asDetached, asReceived]
  | dieSampled hp hid hseq hstate hwhy hno =>
    exact absurd hno (haged.sampled_in_time hclock hb hs hp hid hseq hstate)
  | push hp hid hseq hstate hgo =>
    refine absurd (hin.imp_right fun hm => ?_) hout
    exact Dict.mem_keys_set.mpr (.inr hm)
  | finishFailed hp hseq =>
    exact (finished_ending hb hseq _ _ (fun _ => ⟨rfl, rfl, rfl⟩) _).at hin hout
  | dieFailed hp hseq hstate hno => exact absurd hno (haged.failed_in_time hclock hp hstate)
  | _ => exact absurd hin hout

end Endings

section Delivered
variable {env : Env} {s s' : State} {events : List Event}

/-- A stream entry is there until a subscriber takes it away, no end marker is put on the stream
of a request that waits or runs, and ended requests are closed. -/
structure Delivery (s : State) : Prop where
  entry : ∀ id, s.streams.streams.contains id = true ↔
    id ∈ s.accepted.keys ∧ detaches s.log id = []
  fresh : ∀ id, id ∉ s.accepted.keys → items s.log id = [] ∧ detaches s.log id = []
  unfinished : ∀ id, Holding s id → .endOfStream ∉ items s.log id
  closed : ∀ id ∈ s.accepted.keys, ¬ Holding s id → Closed s.log id

theorem delivery_start (env : Env) : Delivery (start env) where
  entry id := by simp [start, StreamManager.init, Dict.contains]
  fresh _ _ := ⟨rfl, rfl⟩
  unfinished _ _ h := by simp [start] at h
  closed _ h := by simp [start] at h

theorem Closed.append {log : List Event} {id : RequestId} (h : Closed log id)
    (he : items events id = []) : Closed (log ++ events) id := by
  obtain ⟨before, e, after, rfl, hterm, hnone, hby⟩ := h
  refine ⟨before, e, after ++ events, by simp, hterm, hnone, ?_⟩
  rw [items, view_append, ← items, ← items, he, List.append_nil]
  exact hby

theorem Delivery.frame (h : Delivery s) (hlog : s'.log = s.log ++ events)
    (hentry : ∀ id, s'.streams.streams.contains id = true ↔
      s.streams.streams.contains id = true ∧ detaches events id = [])
    (hdetach : ∀ id, detaches events id ≠ [] → s.streams.streams.contains id = true)
    (hitems : ∀ id, items events id = [] ∨ Holding s id ∧ .endOfStream ∉ items events id)
    (hhold : ∀ id, Holding s' id ↔ Holding s id)
    (hknown : ∀ id, Holding s id → id ∈ s.accepted.keys)
    (hacc : s'.accepted = s.accepted) : Delivery s' := by
  have hd : ∀ id, detaches s'.log id = [] ↔ detaches s.log id = [] ∧ detaches events id = [] := by
    intro id
    rw [hlog, detaches, view_append, List.append_eq_nil_iff]
  have hi : ∀ id, items s'.log id = items s.log id ++ items events id := by
    intro id
    rw [hlog, items, view_append]
  refine ⟨fun id => ?_, fun id hid => ?_, fun id hid => ?_, fun id hid hout => ?_⟩
  · rw [hentry, h.entry, hacc, hd, and_assoc]
  · rw [hacc] at hid
    obtain ⟨hnone, hkept⟩ := h.fresh id hid
    have hquiet := (hitems id).resolve_right fun hh => hid (hknown id hh.1)
    refine ⟨by rw [hi, hnone, hquiet]; rfl, (hd id).mpr ⟨hkept, ?_⟩⟩
    by_contra hne
    exact hid ((h.entry id).mp (hdetach id hne)).1
  · rw [hhold] at hid
    rw [hi, List.mem_append, not_or]
    refine ⟨h.unfinished id hid, ?_⟩
    rcases hitems id with hnone | ⟨-, hnone⟩
    · rw [hnone]
      simp
    · exact hnone
  · rw [hacc] at hid
    rw [hhold] at hout
    rw [hlog]
    exact (h.closed id hid hout).append ((hitems id).resolve_right fun hh => hout hh.1)

/-- A step that puts nothing on a stream and takes no entry away. -/
theorem Delivery.silent (h : Delivery s) (hlog : s'.log = s.log ++ events)
    (hev : ∀ id, items events id = [] ∧ detaches events id = [])
    (hentry : ∀ id, s'.streams.streams.contains id = s.streams.streams.contains id)
    (hhold : ∀ id, Holding s' id ↔ Holding s id)
    (hknown : ∀ id, Holding s id → id ∈ s.accepted.keys)
    (hacc : s'.accepted = s.accepted) : Delivery s' := by
  refine h.frame hlog (fun id => ?_) (fun id hne => absurd (hev id).2 hne)
    (fun id => .inl (hev id).1) hhold hknown hacc
  rw [hentry, and_iff_left (hev id).2]

theorem Delivery.ended (h : Delivery s) {id : RequestId} (hin : Holding s id)
    (hknown : id ∈ s.accepted.keys) (he : Ending s s' id) : Delivery s' := by
  obtain ⟨hended, -, hentries, hhold, hacc⟩ := he
  obtain ⟨before, e, after, hlog, hterm, hbefore, hafter, hother, hby⟩ := hended
  have hsplit : s'.log = s.log ++ (before ++ [e]) ++ after := by rw [hlog]; simp
  have hd : ∀ j, detaches s'.log j = detaches s.log j := by
    intro j
    rw [hsplit, detaches, view_append, view_append, ← detaches, ← detaches, ← detaches,
      (hbefore j).2, hafter j, List.append_nil, List.append_nil]
  have hi : ∀ j, items s'.log j = items s.log j ++ items after j := by
    intro j
    rw [hsplit, items, view_append, view_append, ← items, ← items, ← items, (hbefore j).1,
      List.append_nil]
  have hpart : ∀ j, items before j = [] ∧ detaches before j = [] := by
    intro j
    obtain ⟨h1, h2⟩ := hbefore j
    rw [items, view_append, List.append_eq_nil_iff] at h1
    rw [detaches, view_append, List.append_eq_nil_iff] at h2
    exact ⟨h1.1, h2.1⟩
  refine ⟨fun j => ?_, fun j hj => ?_, fun j hj => ?_, fun j hj hout => ?_⟩
  · rw [hentries, hacc, hd]
    exact h.entry j
  · rw [hacc] at hj
    have hne : j ≠ id := fun hji => hj (hji ▸ hknown)
    rw [hi, hd, hother j hne, List.append_nil]
    exact h.fresh j hj
  · obtain ⟨hne, hold⟩ := (hhold j).mp hj
    rw [hi, hother j hne, List.append_nil]
    exact h.unfinished j hold
  · rw [hacc] at hj
    by_cases hji : j = id
    · subst hji
      refine ⟨s.log ++ before, e, after, by rw [hlog]; simp, hterm, ?_, ?_⟩
      · rw [items, view_append, ← items, ← items, (hpart j).1, List.append_nil]
        exact h.unfinished j hin
      · rw [detaches, view_append, ← detaches, ← detaches, (hpart j).2, List.append_nil]
        have hthere := h.entry j
        rw [hthere, and_iff_right hknown] at hby
        exact hby
    · have hout' : ¬ Holding s j := fun hh => hout ((hhold j).mpr ⟨hji, hh⟩)
      obtain ⟨b, e', a, hlog', hterm', hnone, hclosed⟩ := h.closed j hj hout'
      refine ⟨b, e', a ++ (before ++ [e]) ++ after, by rw [hsplit, hlog']; simp, hterm', hnone, ?_⟩
      rw [items, view_append, view_append, ← items, ← items, ← items, (hbefore j).1,
        hother j hji, List.append_nil, List.append_nil]
      exact hclosed

theorem Delivery.accepted_step (h : Delivery s) (hb : Books env s) {id : RequestId}
    {body : GenerateRequest} (hnew : id ∉ s.issued) (hlog : s'.log = s.log ++ events)
    (hev : ∀ j, items events j = [] ∧ detaches events j = [])
    (hstreams : s'.streams = s.streams.create id) (ha : s'.active = s.active)
    (hq : s'.queue = s.queue.push (newRequest env s id body))
    (hacc : s'.accepted = s.accepted.set id (newRequest env s id body)) : Delivery s' := by
  obtain ⟨-, -, haccepted, -⟩ := hb.unissued hnew
  have hd : ∀ j, detaches s'.log j = detaches s.log j := by
    intro j
    rw [hlog, detaches, view_append]
    exact (congrArg _ (hev j).2).trans (List.append_nil _)
  have hi : ∀ j, items s'.log j = items s.log j := by
    intro j
    rw [hlog, items, view_append]
    exact (congrArg _ (hev j).1).trans (List.append_nil _)
  have hhold : ∀ j, Holding s' j ↔ j = id ∨ Holding s j := holding_enqueued hq ha
  have hkeys : ∀ j, j ∈ s'.accepted.keys ↔ j = id ∨ j ∈ s.accepted.keys := by
    intro j
    rw [hacc, Dict.mem_keys_set]
  refine ⟨fun j => ?_, fun j hj => ?_, fun j hj => ?_, fun j hj hout => ?_⟩
  · rw [hstreams, StreamManager.create, contains_put, Bool.or_eq_true, decide_eq_true_eq, hkeys, hd,
      h.entry]
    have hfresh := (h.fresh id haccepted).2
    grind
  · rw [hkeys, not_or] at hj
    rw [hi, hd]
    exact h.fresh j hj.2
  · rw [hi]
    rcases (hhold j).mp hj with rfl | hold
    · rw [(h.fresh j haccepted).1]
      simp
    · exact h.unfinished j hold
  · rw [hhold, not_or] at hout
    rw [hlog]
    exact (h.closed j (((hkeys j).mp hj).resolve_left hout.1) hout.2).append (hev j).1

theorem Delivery.transition (h : Delivery s) (hclock : TicksApart env) (hb : Books env s)
    (hs : Standing env s) (haged : Aged env s) {l : Label} (ht : Transition env s l s') :
    Delivery s' := by
  have hnil : s.log = s.log ++ [] := (List.append_nil _).symm
  have hknown : ∀ id, Holding s id → id ∈ s.accepted.keys := fun _ => hb.holding_known
  cases ht with
  | rejected hw hnew =>
    exact h.silent rfl (fun id => by simp [asEnqueued, asDetached]) (fun _ => rfl) (fun _ => .rfl)
      hknown rfl
  | accepted hw hnew hroom hres =>
    exact h.accepted_step hb hnew rfl (fun j => by simp [asEnqueued, asDetached]) rfl rfl rfl rfl
  | cancel hw =>
    exact h.silent hnil (fun _ => ⟨rfl, rfl⟩) (fun id => contains_cancel id) (fun _ => .rfl) hknown
      rfl
  | @receive id item streams hw hr =>
    have hev : ∀ j, detaches (if item = .endOfStream then [.received id item, .detached id]
        else [.received id item]) j = [] ↔ ¬ (item = .endOfStream ∧ j = id) := by
      intro j
      rcases eq_or_ne j id with rfl | hj
      · by_cases he : item = .endOfStream <;> simp [asDetached, he]
      · by_cases he : item = .endOfStream <;> simp [asDetached, he, hj, hj.symm]
    refine h.frame rfl (fun j => ?_) (fun j hne => ?_) (fun j => .inl ?_) (fun _ => .rfl) hknown rfl
    · rw [hev]
      exact (contains_receive hr j).2
    · rw [Ne, hev, not_not] at hne
      rw [hne.2]
      exact (contains_receive hr j).1
    · split_ifs <;> simp [asEnqueued]
  | @leave id hw hl =>
    have hev : ∀ j, detaches [.detached id] j = [] ↔ j ≠ id := by
      intro j
      rcases eq_or_ne j id with rfl | hj
      · simp [asDetached]
      · simp [asDetached, hj, hj.symm]
    refine h.frame rfl (fun j => ?_) (fun j hne => ?_) (fun j => .inl rfl) (fun _ => .rfl) hknown rfl
    · rw [hev, and_comm]
      exact contains_leave j
    · rw [Ne, hev, not_not] at hne
      rw [hne]
      exact hl
  | expire hp hstale hpool =>
    have hin := Dict.mem_keys.mpr ⟨_, hpool⟩
    exact h.ended (.inl hin) (hknown _ (.inl hin)) (expired_ending hb hpool _)
  | @admitted request todo seqId hp hpool hslot =>
    exact h.silent rfl (fun id => by simp [asEnqueued, asDetached]) (fun _ => rfl)
      (holding_admitted (Dict.mem_keys.mpr ⟨request, hpool⟩) seqId _) hknown rfl
  | buildNothing | build =>
    exact h.silent rfl (fun id => by simp [asEnqueued, asDetached]) (fun _ => rfl) (fun _ => .rfl)
      hknown rfl
  | decoded hp hkeys hactive =>
    exact h.silent rfl (fun id => by simp [asEnqueued, asDetached]) (fun _ => rfl)
      (holding_congr rfl hkeys) hknown rfl
  | finishSampled hp hid hseq =>
    have hin := Dict.mem_keys.mpr ⟨_, hseq⟩
    refine h.ended (.inr hin) (hknown _ (.inr hin)) (finished_ending hb hseq _ _ (fun j => ?_) _)
    simp [asEnqueued, asDetached, asReceived]
  | dieSampled hp hid hseq hstate hwhy hno =>
    exact absurd hno (haged.sampled_in_time hclock hb hs hp hid hseq hstate)
  | @push idOf now seqId token todo id seq state hp hid hseq hstate hgo =>
    have hin : id ∈ s.active.keys := Dict.mem_keys.mpr ⟨seq, hseq⟩
    have hdet : ∀ j, detaches ([.sampled id token, .pushed id token] ++
        (s.streams.pushToken env.decoder id (env.detokenize [token])).2.map (.enqueued id)) j = [] :=
      fun j => by simp [asDetached]
    refine h.frame rfl (fun j => ?_) (fun j hne => absurd (hdet j) hne) (fun j => ?_) (fun j => ?_)
      hknown rfl
    · rw [and_iff_left (hdet j)]
      exact Bool.eq_iff_iff.mp (contains_pushToken _ j)
    · rw [items, view_append, ← items, ← items, items_enqueued]
      split_ifs with hj
      · refine .inr ⟨.inr (hj ▸ hin), ?_⟩
        simp only [items, view_cons, view_nil, asEnqueued, Option.toList_none, List.nil_append]
        exact fun hm => pushToken_text hm rfl
      · simp [asEnqueued]
    · show j ∈ s.queue.pool.keys ∨ j ∈ (s.active.set id _).keys ↔ _
      rw [Dict.mem_keys_set, Holding]
      grind
  | finishFailed hp hseq =>
    have hin := Dict.mem_keys.mpr ⟨_, hseq⟩
    exact h.ended (.inr hin) (hknown _ (.inr hin))
      (finished_ending hb hseq _ _ (fun _ => ⟨rfl, rfl, rfl⟩) _)
  | dieFailed hp hseq hstate hno => exact absurd hno (haged.failed_in_time hclock hp hstate)
  | _ =>
    exact h.silent hnil (fun _ => ⟨rfl, rfl⟩) (fun _ => rfl) (fun _ => .rfl) hknown rfl

theorem reachable_delivery {allowed : State → Label → Prop} (hclock : TicksApart env)
    (h : Reachable (step env) allowed (start env) s) : Delivery s := by
  refine h.invariant (delivery_start env) fun s l s' hr hi _ hs => ?_
  exact hi.transition hclock (reachable_books hr).1 (reachable_books hr).2
    (reachable_aged hclock hr) (reachable_transition hr hs)

end Delivered

section Conveyed
variable {env : Env} {s s' : State} {events : List Event}

/-- While the entry of a request is there, what was put on its stream is what its client has taken
and then what is on the queue. -/
structure Conveyed (s : State) : Prop where
  queue : ∀ id queue, s.streams.queued id = some queue →
    items s.log id = taken s.log id ++ queue
  fresh : ∀ id, id ∉ s.accepted.keys → taken s.log id = []

theorem conveyed_start (env : Env) : Conveyed (start env) where
  queue id queue h := by simp [start, StreamManager.init, StreamManager.queued] at h
  fresh _ _ := rfl

theorem Conveyed.frame (h : Conveyed s) (hlog : s'.log = s.log ++ events)
    (hqueue : ∀ id queue', s'.streams.queued id = some queue' →
      ∃ queue, s.streams.queued id = some queue ∧
        queue ++ items events id = taken events id ++ queue')
    (htaken : ∀ id, id ∉ s.accepted.keys → taken events id = [])
    (hacc : s'.accepted = s.accepted) : Conveyed s' := by
  refine ⟨fun id queue' hq => ?_, fun id hid => ?_⟩
  · obtain ⟨queue, hold, hmoved⟩ := hqueue id queue' hq
    rw [hlog, items, taken, view_append, view_append, ← items, ← taken, ← items, ← taken,
      h.queue id queue hold, List.append_assoc, hmoved, List.append_assoc]
  · rw [hacc] at hid
    rw [hlog, taken, view_append, ← taken, ← taken, h.fresh id hid, htaken id hid]
    rfl

/-- A step that takes nothing and puts on the queues what it puts on record. -/
theorem Conveyed.extend (h : Conveyed s) (hlog : s'.log = s.log ++ events)
    (hev : ∀ id, taken events id = [] ∧
      s'.streams.queued id = (s.streams.queued id).map (· ++ items events id))
    (hacc : s'.accepted = s.accepted) : Conveyed s' := by
  refine h.frame hlog (fun id queue' hq => ?_) (fun id _ => (hev id).1) hacc
  rw [(hev id).2, Option.map_eq_some_iff] at hq
  obtain ⟨queue, hold, rfl⟩ := hq
  exact ⟨queue, hold, by rw [(hev id).1]; rfl⟩

/-- A step that leaves the streams alone. -/
theorem Conveyed.silent (h : Conveyed s) (hlog : s'.log = s.log ++ events)
    (hev : ∀ id, taken events id = [] ∧ items events id = []) (hs : s'.streams = s.streams)
    (hacc : s'.accepted = s.accepted) : Conveyed s' := by
  refine h.extend hlog (fun id => ⟨(hev id).1, ?_⟩) hacc
  rw [hs, (hev id).2]
  simp

theorem Conveyed.ended (h : Conveyed s) {id : RequestId} (he : Ending s s' id) : Conveyed s' := by
  obtain ⟨events, hlog, hev⟩ := he.queues
  exact h.extend hlog hev he.accepted

theorem Conveyed.accepted_step (h : Conveyed s) (hdel : Delivery s) {id : RequestId}
    {request : PendingRequest} (hnew : id ∉ s.accepted.keys) (hlog : s'.log = s.log ++ events)
    (hev : ∀ j, taken events j = [] ∧ items events j = [])
    (hstreams : s'.streams = s.streams.create id)
    (hacc : s'.accepted = s.accepted.set id request) : Conveyed s' := by
  have hi : ∀ j, items s'.log j = items s.log j := by
    intro j
    rw [hlog, items, view_append]
    exact (congrArg _ (hev j).2).trans (List.append_nil _)
  have ht : ∀ j, taken s'.log j = taken s.log j := by
    intro j
    rw [hlog, taken, view_append]
    exact (congrArg _ (hev j).1).trans (List.append_nil _)
  refine ⟨fun j queue hq => ?_, fun j hj => ?_⟩
  · rw [hstreams, queued_create] at hq
    rw [hi, ht]
    split_ifs at hq with hj
    · obtain rfl := Option.some.inj hq
      subst hj
      rw [(hdel.fresh _ hnew).1, h.fresh _ hnew]
      rfl
    · exact h.queue j queue hq
  · rw [hacc, Dict.mem_keys_set, not_or] at hj
    rw [ht]
    exact h.fresh j hj.2

theorem Conveyed.transition (h : Conveyed s) (hclock : TicksApart env) (hb : Books env s)
    (hs : Standing env s) (haged : Aged env s) (hdel : Delivery s) {l : Label}
    (ht : Transition env s l s') : Conveyed s' := by
  have hnil : s.log = s.log ++ [] := (List.append_nil _).symm
  cases ht with
  | rejected hw hnew =>
    exact h.silent rfl (fun id => by simp [asReceived, asEnqueued]) rfl rfl
  | accepted hw hnew hroom hres =>
    exact h.accepted_step hdel (hb.unissued hnew).2.2.1 rfl
      (fun j => by simp [asReceived, asEnqueued]) rfl rfl
  | cancel hw =>
    refine h.extend hnil (fun id => ⟨rfl, ?_⟩) rfl
    show (s.streams.cancel _).queued id = _
    rw [queued_cancel]
    simp
  | @receive id item streams hw hr =>
    obtain ⟨rest, hfront, hqueues⟩ := queued_receive hr
    have hev : ∀ j, taken (if item = .endOfStream then [.received id item, .detached id]
        else [.received id item]) j = (if id = j then [item] else []) ∧
        items (if item = .endOfStream then [.received id item, .detached id]
          else [.received id item]) j = [] := by
      intro j
      split_ifs with _ hj hj <;> simp [asReceived, asEnqueued, hj]
    refine h.frame rfl (fun j queue' hq => ?_) (fun j hj => ?_) rfl
    · rw [hqueues] at hq
      rw [(hev j).1, (hev j).2]
      split_ifs at hq ⊢ with hj
      · obtain rfl := Option.some.inj hq
        exact ⟨item :: rest, hj ▸ hfront, List.append_nil _⟩
      · exact ⟨queue', hq, List.append_nil _⟩
    · rw [(hev j).1, if_neg]
      rintro rfl
      exact hj ((hdel.entry id).mp (contains_receive hr id).1).1
  | @leave id hw hl =>
    refine h.frame rfl (fun j queue' hq => ?_) (fun j _ => by simp [asReceived]) rfl
    rw [queued_leave] at hq
    split_ifs at hq
    exact ⟨queue', hq, by simp [asReceived, asEnqueued]⟩
  | expire hp hstale hpool =>
    exact h.ended (expired_ending hb hpool _)
  | @admitted request todo seqId hp hpool hslot =>
    exact h.silent rfl (fun id => by simp [asReceived, asEnqueued]) rfl rfl
  | buildNothing | build | decoded =>
    exact h.silent rfl (fun id => by simp [asReceived, asEnqueued]) rfl rfl
  | finishSampled hp hid hseq =>
    refine h.ended (finished_ending hb hseq _ _ (fun j => ?_) _)
    simp [asEnqueued, asDetached, asReceived]
  | dieSampled hp hid hseq hstate hwhy hno =>
    exact absurd hno (haged.sampled_in_time hclock hb hs hp hid hseq hstate)
  | @push idOf now seqId token todo id seq state hp hid hseq hstate hgo =>
    refine h.extend rfl (fun j => ⟨by simp [asReceived], ?_⟩) rfl
    refine (queued_pushToken _ j).trans ?_
    rw [items, view_append, ← items, ← items, items_enqueued]
    simp [asEnqueued]
  | finishFailed hp hseq =>
    exact h.ended (finished_ending hb hseq _ _ (fun _ => ⟨rfl, rfl, rfl⟩) _)
  | dieFailed hp hseq hstate hno => exact absurd hno (haged.failed_in_time hclock hp hstate)
  | _ => exact h.silent hnil (fun _ => ⟨rfl, rfl⟩) rfl rfl

theorem reachable_conveyed {allowed : State → Label → Prop} (hclock : TicksApart env)
    (h : Reachable (step env) allowed (start env) s) : Conveyed s := by
  refine h.invariant (conveyed_start env) fun s l s' hr hi _ hs => ?_
  exact hi.transition hclock (reachable_books hr).1 (reachable_books hr).2
    (reachable_aged hclock hr) (reachable_delivery hclock hr) (reachable_transition hr hs)

end Conveyed

/-- Every accepted request goes through its stages once and in order, with all that is started for
it ended and released once. The step that ends it puts one end marker at the end of its queue if the
entry is still there, nothing follows, and between steps the open roots are the waiting and the
active requests. -/
theorem requests_end_once (env : Env) (hclock : TicksApart env) (s : State)
    (h : Reachable (step env) anything (start env) s) :
    (∀ id ∈ s.accepted.keys,
      (∃ stage : Stage, stage.At s id ∧ stages s.log id = stage.script id) ∧
      (s.streams.streams.contains id = true ↔ detaches s.log id = []) ∧
      (∀ stream, s.streams.streams.get? id = some stream →
        items s.log id = taken s.log id ++ stream.queue) ∧
      (Holding s id → .endOfStream ∉ items s.log id) ∧
      (¬ Holding s id → Closed s.log id)) ∧
    (∀ l s', step env s l = some s' → ∀ id, Holding s id → ¬ Holding s' id →
      ∃ events, s'.log = s.log ++ events ∧
        ClosedBy (s.streams.streams.contains id = true) (items events id) ∧
        s'.streams.queued id = (s.streams.queued id).map (· ++ items events id)) ∧
    s.tracer.roots.keys.Perm (s.queue.pool.keys ++ s.active.keys) := by
  obtain ⟨hb, hs⟩ := reachable_books h
  have hlife := reachable_lifecycle hclock h
  have hdel := reachable_delivery hclock h
  refine ⟨fun id hid => ⟨hlife.stands id hid, ?_, fun stream hstream => ?_, hdel.unfinished id,
    hdel.closed id hid⟩, fun l s' hstep id hin hout => ?_, hlife.roots_perm hb⟩
  · rw [hdel.entry, and_iff_right hid]
  · refine (reachable_conveyed hclock h).queue id _ ?_
    rw [StreamManager.queued, hstream]
    rfl
  · have hending := (reachable_transition h hstep).ending hclock hb hs (reachable_aged hclock h)
      hin hout
    obtain ⟨before, e, after, hlog, -, hbefore, -, -, hby⟩ := hending.log
    obtain ⟨events, hsame, hqueues⟩ := hending.queues
    obtain rfl : events = before ++ e :: after := List.append_cancel_left (hsame.symm.trans hlog)
    have hitems : items (before ++ e :: after) id = items after id := by
      rw [List.append_cons, items, view_append, ← items, ← items, (hbefore id).1, List.nil_append]
    refine ⟨before ++ e :: after, hlog, ?_, (hqueues id).2⟩
    rw [hitems]
    exact hby

/-- The text of the one token, what the decoder still held and the marker are on the queue. -/
theorem requests_end_once_demo : ∃ s stream, run (step demo) (start demo) demoRun = some s ∧
    (∃ stage : Stage, stage.At s 0 ∧ stages s.log 0 = stage.script 0) ∧
    s.streams.streams.get? 0 = some stream ∧
    stream.queue = [.text "x", .text "x", .endOfStream] ∧
    items s.log 0 = taken s.log 0 ++ [.text "x", .text "x", .endOfStream] ∧ Closed s.log 0 := by
  obtain ⟨s, hs, hreq, -⟩ := demoRun_ends
  have hclock : TicksApart demo := fun tick tick' _ _ hlt => Nat.cast_lt.mpr hlt
  obtain ⟨hstage, -, hqueue, -, hclosed⟩ :=
    (requests_end_once demo hclock s (Reachable.init.run hs)).1 0 (Dict.mem_keys.mpr ⟨_, hreq⟩)
  have hfinal : (run (step demo) (start demo) demoRun).map (fun s =>
      (s.streams.queued 0, s.queue.pool.keys, s.active.keys)) =
        some (some [.text "x", .text "x", .endOfStream], [], []) := by decide +kernel
  rw [hs, Option.map_some, Option.some.injEq, Prod.mk.injEq, Prod.mk.injEq] at hfinal
  obtain ⟨hqueued, hwaiting, hactive⟩ := hfinal
  obtain ⟨stream, hstream, hread⟩ := Option.map_eq_some_iff.mp hqueued
  refine ⟨s, stream, hs, hstage, hstream, hread, hread ▸ hqueue stream hstream, hclosed ?_⟩
  rw [Holding, hwaiting, hactive]
  simp

end TinyServe.BatchLoop
