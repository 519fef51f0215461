import TinyServe.BatchLoopHistory

set_option autoImplicit false

/-! The stages an accepted request goes through, and the spans that are open meanwhile. -/
namespace TinyServe.BatchLoop
open OrderedDict BatchBuilder Scheduler Tracing Runs

section Clock
variable {env : Env} {s s' : State}

/-- Readings of the clock in different ticks increase. -/
def TicksApart (env : Env) : Prop :=
  ∀ tick tick' i j, tick < tick' → env.clock tick i < env.clock tick' j

/-- Whoever was served a token was admitted in an earlier tick, once the tick that served it is
through with the batch. -/
def Aged (env : Env) (s : State) : Prop :=
  ∀ id state, s.requests.get? id = some state → ∃ tick i,
    state.admittedTs = env.clock tick i ∧ tick ≤ s.tick ∧
      (0 < state.tokensEmitted → tick < s.tick ∨
        ∃ idOf now todo, s.phase = .distributing idOf now todo ∧
          state.seqId ∉ todo.map Prod.fst)

theorem Aged.frame (h : Aged env s)
    (hr : ∀ id state, s'.requests.get? id = some state → s.requests.get? id = some state)
    (ht : s.tick ≤ s'.tick)
    (hp : (∃ idOf now todo, s.phase = .distributing idOf now todo) →
      s.tick < s'.tick ∨ ∃ idOf now todo todo', s.phase = .distributing idOf now todo ∧
        s'.phase = .distributing idOf now todo' ∧ todo' ⊆ todo) : Aged env s' := by
  intro id state hstate
  obtain ⟨tick, i, hts, hle, hold⟩ := h id state (hr id state hstate)
  refine ⟨tick, i, hts, hle.trans ht, fun hpos => ?_⟩
  rcases hold hpos with hlt | ⟨idOf, now, todo, hphase, hnot⟩
  · exact .inl (hlt.trans_le ht)
  · rcases hp ⟨idOf, now, todo, hphase⟩ with hlt | ⟨idOf', now', todo', rest, hphase', hs', hsub⟩
    · exact .inl (hle.trans_lt hlt)
    · obtain ⟨-, -, rfl⟩ := Phase.distributing.inj (hphase.symm.trans hphase')
      exact .inr ⟨_, _, _, hs', fun hm => hnot (List.map_subset _ hsub hm)⟩

/-- Time has passed when a request that was served ends. -/
theorem Aged.time_passed (h : Aged env s) (hclock : TicksApart env) {id : RequestId}
    {state : RequestState} (hstate : s.requests.get? id = some state)
    (hp : ∀ idOf now todo, s.phase = .distributing idOf now todo →
      state.seqId ∈ todo.map Prod.fst) : ¬ NoTime env s state := by
  rintro ⟨hpos, hzero⟩
  obtain ⟨tick, i, hts, -, hold⟩ := h id state hstate
  rcases hold hpos with hlt | ⟨idOf, now, todo, hphase, hnot⟩
  · have hless := hclock tick s.tick i s.reads hlt
    rw [hts, sub_eq_zero] at hzero
    exact absurd hzero.symm hless.ne
  · exact hnot (hp idOf now todo hphase)

/-- With time passing between ticks the division by elapsed time raises nothing. -/
theorem Aged.sampled_in_time (h : Aged env s) (hclock : TicksApart env) (hb : Books env s)
    (hs : Standing env s) {idOf : Dict SeqId RequestId} {now : Time} {seqId : SeqId}
    {token : Token} {todo : List (SeqId × Token)} {id : RequestId} {seq : ActiveSequence}
    {state : RequestState} (hp : s.phase = .distributing idOf now ((seqId, token) :: todo))
    (hid : idOf.get? seqId = some id) (hseq : s.active.get? id = some seq)
    (hstate : s.requests.get? id = some state) : ¬ NoTime env s state := by
  refine h.time_passed hclock hstate fun idOf' now' todo' hp' => ?_
  obtain ⟨-, -, rfl⟩ := Phase.distributing.inj (hp.symm.trans hp')
  obtain ⟨seq', hseq', hsame⟩ := hb.seq_of_state hstate
  obtain rfl := Option.some.inj (hseq.symm.trans hseq')
  rw [← hsame, (hs.tail_distributing hp hid hseq).1]
  exact List.mem_cons_self

theorem Aged.failed_in_time (h : Aged env s) (hclock : TicksApart env) {id : RequestId}
    {todo : List RequestId} {state : RequestState} (hp : s.phase = .failing (id :: todo))
    (hstate : s.requests.get? id = some state) : ¬ NoTime env s state := by
  refine h.time_passed hclock hstate fun idOf now rest hp' => ?_
  rw [hp] at hp'
  simp at hp'

theorem Aged.transition (h : Aged env s) (hclock : TicksApart env) (hb : Books env s)
    (hs : Standing env s) {l : Label} (ht : Transition env s l s') : Aged env s' := by
  have hstill : ∀ {phase : Phase}, s.phase = phase →
      (∀ idOf now todo, phase ≠ .distributing idOf now todo) →
      ¬ ∃ idOf now todo, s.phase = .distributing idOf now todo := by
    rintro phase hp hne ⟨idOf, now, todo, hd⟩
    exact hne idOf now todo (hp.symm.trans hd)
  have hawait : s.phase.awaiting = true → ¬ ∃ idOf now todo,
      s.phase = .distributing idOf now todo := by
    rintro hw ⟨idOf, now, todo, hp⟩
    simp [hp, Phase.awaiting] at hw
  cases ht with
  | rejected hw | accepted hw | setPolicy hw | cancel hw | receive hw | leave hw =>
    exact h.frame (fun _ _ hj => hj) le_rfl fun hd => absurd hd (hawait hw)
  | beginExpiry hp | wake hp | keep hp | expire hp | rest hp | full hp | select hp
  | selectRaised hp | build hp | decoded hp | decodeFailed hp =>
    exact h.frame (fun _ _ hj => hj) le_rfl fun hd => absurd hd (hstill hp (by simp))
  | buildNothing hp | endTick hp =>
    exact h.frame (fun _ _ hj => hj) (Nat.le_succ _) fun _ => .inl (Nat.lt_succ_self _)
  | @admitted request todo seqId hp hpool hslot =>
    intro id state hstate
    have hstate' : (s.requests.set request.id _).get? id = some state := hstate
    rw [Dict.get?_set] at hstate'
    split_ifs at hstate' with hid
    · obtain rfl := Option.some.inj hstate'
      exact ⟨s.tick, s.reads, rfl, le_rfl, fun hpos => absurd hpos (lt_irrefl 0)⟩
    · obtain ⟨tick, i, hts, hle, hold⟩ := h id state hstate'
      refine ⟨tick, i, hts, hle, fun hpos => (hold hpos).imp_right ?_⟩
      exact fun hd => absurd (hd.imp fun _ => Exists.imp fun _ => Exists.imp fun _ => And.left)
        (hstill hp (by simp))
  | finishFailed hp =>
    exact h.frame (fun _ _ hj => Dict.get?_of_erase hj) le_rfl fun hd => absurd hd (hstill hp (by simp))
  | dieFailed hp hseq hstate hno => exact absurd hno (h.failed_in_time hclock hp hstate)
  | finishSampled hp =>
    exact h.frame (fun _ _ hj => Dict.get?_of_erase hj) le_rfl fun _ =>
      .inr ⟨_, _, _, _, hp, rfl, List.subset_cons_self _ _⟩
  | dieSampled hp hid hseq hstate hwhy hno =>
    exact absurd hno (h.sampled_in_time hclock hb hs hp hid hseq hstate)
  | @push idOf now seqId token todo id seq state hp hid hseq hstate hgo =>
    obtain ⟨hslot, hn, -⟩ := hs.tail_distributing hp hid hseq
    intro j state' hj
    have hj' : (s.requests.set id _).get? j = some state' := hj
    rw [Dict.get?_set] at hj'
    split_ifs at hj' with hij
    · obtain rfl := Option.some.inj hj'
      obtain ⟨tick, i, hts, hle, -⟩ := h id state hstate
      obtain ⟨seq', hseq', hsame⟩ := hb.seq_of_state hstate
      obtain rfl := Option.some.inj (hseq.symm.trans hseq')
      refine ⟨tick, i, hts, hle, fun _ => .inr ⟨_, _, _, rfl, ?_⟩⟩
      have hnd := (hs.distributing hp).1
      rw [List.map_cons, List.nodup_cons] at hnd
      show state.seqId ∉ todo.map Prod.fst
      rw [← hsame, hslot]
      exact hnd.1
    · obtain ⟨tick, i, hts, hle, hold⟩ := h j state' hj'
      refine ⟨tick, i, hts, hle, fun hpos => (hold hpos).imp_right ?_⟩
      rintro ⟨idOf', now', todo', hp', hnot⟩
      obtain ⟨-, -, rfl⟩ := Phase.distributing.inj (hp.symm.trans hp')
      rw [List.map_cons, List.mem_cons, not_or] at hnot
      exact ⟨_, _, _, rfl, hnot.2⟩

theorem aged_start (env : Env) : Aged env (start env) := fun _ _ h => by simp [start] at h

theorem reachable_aged {allowed : State → Label → Prop} (hclock : TicksApart env)
    (h : Reachable (step env) allowed (start env) s) : Aged env s := by
  refine h.invariant (aged_start env) fun s l s' hr hi _ hs => ?_
  exact hi.transition hclock (reachable_books hr).1 (reachable_books hr).2
    (reachable_transition hr hs)

end Clock

section Scripts

/-- The stages of an accepted request. -/
inductive Stage where
  | waiting
  | expired
  | running (seqId : SeqId) (reused : ℕ)
  | finished (seqId : SeqId) (reused : ℕ) (why : Option CancelReason)

def arrival (id : RequestId) : List Event :=
  [.rootStarted id, .spanStarted id .admission, .spanEnded id .admission,
    .spanStarted id .queueWait, .accepted id]

def expiry (id : RequestId) : List Event :=
  [.expired id, .released id, .spanEnded id .queueWait, .rootEnded id]

def promotion (id : RequestId) (seqId : SeqId) (reused : ℕ) : List Event :=
  [.admitted id seqId reused, .spanEnded id .queueWait, .spanStarted id .generation]

def completion (id : RequestId) (why : Option CancelReason) : List Event :=
  [.finished id why, .released id, .spanEnded id .generation, .rootEnded id]

/-- All that happens to a request and its spans up to a stage, in order. -/
def Stage.script (id : RequestId) : Stage → List Event
  | .waiting => arrival id
  | .expired => arrival id ++ expiry id
  | .running seqId reused => arrival id ++ promotion id seqId reused
  | .finished seqId reused why => arrival id ++ promotion id seqId reused ++ completion id why

/-- Where the server keeps a request of a stage. -/
def Stage.At (s : State) (id : RequestId) : Stage → Prop
  | .waiting => id ∈ s.queue.pool.keys
  | .running seqId _ => (s.active.get? id).map ActiveSequence.seqId = some seqId
  | _ => ¬ Holding s id

/-- The events of a request that are not about its tokens, its stream or its prefix. -/
def staged (id : RequestId) : Event → Bool
  | .rejected j _ => j = id
  | .accepted j => j = id
  | .expired j => j = id
  | .admitted j _ _ => j = id
  | .finished j _ => j = id
  | .released j => j = id
  | .rootStarted j => j = id
  | .rootEnded j => j = id
  | .spanStarted j _ => j = id
  | .spanEnded j _ => j = id
  | _ => false

abbrev stages (log : List Event) (id : RequestId) : List Event := log.filter (staged id)

variable {env : Env} {s : State}

theorem stages_enqueued (id j : RequestId) (items : List Streaming.Item) :
    stages (items.map (.enqueued j)) id = [] := by
  refine List.filter_eq_nil_iff.mpr fun e he => ?_
  obtain ⟨item, -, rfl⟩ := List.mem_map.mp he
  simp [staged]

@[simp] theorem stages_closing (id j : RequestId) : stages (closing env s j) id = [] :=
  stages_enqueued id j _

@[simp] theorem stages_lookups (id : RequestId) (request : PendingRequest) (seqId : SeqId) :
    stages (lookups s request seqId) id = [] := by
  rw [lookups]
  split <;> simp [staged]

theorem spanClosing_open {t : RequestTracer} {id : RequestId} {name : SpanName}
    (h : (id, name) ∈ t.openChildren.keys) : spanClosing t id name = [.spanEnded id name] := by
  rw [spanClosing, RequestTracer.endSpan, Dict.contains_iff.mpr h, if_pos rfl]

theorem rootClosing_open {t : RequestTracer} {id : RequestId} (h : id ∈ t.roots.keys) :
    rootClosing t id = [.rootEnded id] := by
  rw [rootClosing, RequestTracer.endRequest, Dict.contains_iff.mpr h, if_pos rfl]

end Scripts

section Kept
variable {env : Env} {s s' : State} {events : List Event}

/-- The spans that are open are those of the waiting and the active requests, and the log of every
accepted request is the script of its stage. -/
structure Lifecycle (s : State) : Prop where
  roots : ∀ id, id ∈ s.tracer.roots.keys ↔ Holding s id
  children : ∀ id name, (id, name) ∈ s.tracer.openChildren.keys ↔
    name = .queueWait ∧ id ∈ s.queue.pool.keys ∨ name = .generation ∧ id ∈ s.active.keys
  fresh : ∀ id, id ∉ s.issued → stages s.log id = []
  stands : ∀ id ∈ s.accepted.keys, ∃ stage : Stage, stage.At s id ∧
    stages s.log id = stage.script id

theorem lifecycle_start (env : Env) : Lifecycle (start env) where
  roots id := by simp [start, RequestTracer.init, Holding, RequestQueue.init]
  children id name := by simp [start, RequestTracer.init, RequestQueue.init]
  fresh _ _ := rfl
  stands _ h := by simp [start] at h

theorem Stage.At.congr {id : RequestId} {stage : Stage} (h : stage.At s id)
    (hpool : id ∈ s'.queue.pool.keys ↔ id ∈ s.queue.pool.keys)
    (ha : (s'.active.get? id).map ActiveSequence.seqId =
      (s.active.get? id).map ActiveSequence.seqId) : stage.At s' id := by
  have hactive := Dict.mem_keys_congr ha
  cases stage with
  | waiting => exact hpool.mpr h
  | running seqId reused => exact ha.trans h
  | expired | finished =>
    show ¬ (id ∈ s'.queue.pool.keys ∨ id ∈ s'.active.keys)
    rw [hpool, hactive]
    exact h

theorem Lifecycle.waiting (h : Lifecycle s) (hb : Books env s) {id : RequestId}
    (hin : id ∈ s.queue.pool.keys) : stages s.log id = arrival id := by
  obtain ⟨request, hpool⟩ := Dict.mem_keys.mp hin
  obtain ⟨stage, hat, hscript⟩ := h.stands id (Dict.mem_keys.mpr ⟨request, (hb.queued _ _ hpool).2⟩)
  cases stage with
  | waiting => exact hscript
  | running seqId reused =>
    obtain ⟨seq, hseq, -⟩ := Option.map_eq_some_iff.mp hat
    exact absurd (Dict.mem_keys.mpr ⟨seq, hseq⟩) (hb.apart id hin)
  | expired => exact absurd (.inl hin) hat
  | finished => exact absurd (.inl hin) hat

theorem Lifecycle.running (h : Lifecycle s) (hb : Books env s) {id : RequestId}
    {seq : ActiveSequence} (hseq : s.active.get? id = some seq) :
    ∃ reused, stages s.log id = arrival id ++ promotion id seq.seqId reused := by
  have hin : id ∈ s.active.keys := Dict.mem_keys.mpr ⟨seq, hseq⟩
  obtain ⟨stage, hat, hscript⟩ := h.stands id (hb.known id hin)
  cases stage with
  | waiting => exact absurd hin (hb.apart id hat)
  | running seqId reused =>
    obtain ⟨seq', hseq', rfl⟩ := Option.map_eq_some_iff.mp hat
    obtain rfl := Option.some.inj (hseq.symm.trans hseq')
    exact ⟨reused, hscript⟩
  | expired => exact absurd (.inr hin) hat
  | finished => exact absurd (.inr hin) hat

/-- Steps that concern no stage and no span. -/
theorem Lifecycle.frame (h : Lifecycle s) (hlog : s'.log = s.log ++ events)
    (hev : ∀ id, stages events id = []) (htracer : s'.tracer = s.tracer)
    (hq : s'.queue = s.queue)
    (ha : ∀ id, (s'.active.get? id).map ActiveSequence.seqId =
      (s.active.get? id).map ActiveSequence.seqId)
    (hacc : s'.accepted = s.accepted) (hi : s'.issued = s.issued) : Lifecycle s' := by
  have hactive := fun id => Dict.mem_keys_congr (ha id)
  have hstages : ∀ id, stages s'.log id = stages s.log id := by
    intro id
    rw [hlog, stages, List.filter_append]
    exact (congrArg _ (hev id)).trans (List.append_nil _)
  refine ⟨fun id => ?_, fun id name => ?_, fun id hid => ?_, fun id hid => ?_⟩
  · rw [htracer, Holding, hq, hactive]
    exact h.roots id
  · rw [htracer, hq, hactive]
    exact h.children id name
  · rw [hstages]
    exact h.fresh id (hi ▸ hid)
  · obtain ⟨stage, hat, hscript⟩ := h.stands id (hacc ▸ hid)
    exact ⟨stage, hat.congr (by rw [hq]) (ha id), (hstages id).trans hscript⟩

/-- One request moves on to its next stage. -/
theorem Lifecycle.moved (h : Lifecycle s) (id : RequestId) (stage : Stage)
    (hlog : s'.log = s.log ++ events) (hscript : stages s.log id ++ stages events id = stage.script id)
    (hat : stage.At s' id)
    (hother : ∀ j, j ≠ id → stages events j = [] ∧
      (j ∈ s'.queue.pool.keys ↔ j ∈ s.queue.pool.keys) ∧
      (s'.active.get? j).map ActiveSequence.seqId = (s.active.get? j).map ActiveSequence.seqId)
    (hroots : ∀ j, j ∈ s'.tracer.roots.keys ↔ Holding s' j)
    (hchildren : ∀ j name, (j, name) ∈ s'.tracer.openChildren.keys ↔
      name = .queueWait ∧ j ∈ s'.queue.pool.keys ∨ name = .generation ∧ j ∈ s'.active.keys)
    (hacc : ∀ j ∈ s'.accepted.keys, j = id ∨ j ∈ s.accepted.keys)
    (hissued : ∀ j, j ∉ s'.issued → j ≠ id ∧ j ∉ s.issued) : Lifecycle s' := by
  have hstages : ∀ j, stages s'.log j = stages s.log j ++ stages events j := by
    intro j
    rw [hlog, stages, List.filter_append]
  refine ⟨hroots, hchildren, fun j hj => ?_, fun j hj => ?_⟩
  · obtain ⟨hne, hnew⟩ := hissued j hj
    rw [hstages, (hother j hne).1, h.fresh j hnew]
    rfl
  · by_cases hji : j = id
    · subst hji
      exact ⟨stage, hat, (hstages j).trans hscript⟩
    · obtain ⟨hnone, hpool, hactive⟩ := hother j hji
      obtain ⟨stage', hat', hscript'⟩ := h.stands j ((hacc j hj).resolve_left hji)
      refine ⟨stage', hat'.congr hpool hactive, ?_⟩
      rw [hstages, hnone, List.append_nil, hscript']

theorem Lifecycle.rejected_step (h : Lifecycle s) (hb : Books env s) {id : RequestId}
    (hnew : id ∉ s.issued) (hissued : s'.issued = id :: s.issued)
    (htracer : s'.tracer = ((judged s.tracer id).endRequest id).2) (hq : s'.queue = s.queue)
    (ha : s'.active = s.active) (hacc : s'.accepted = s.accepted)
    (hlog : s'.log = s.log ++ events) (hev : ∀ j, j ≠ id → stages events j = []) :
    Lifecycle s' := by
  obtain ⟨hpool, hactive, haccepted, -⟩ := hb.unissued hnew
  refine ⟨fun j => ?_, fun j name => ?_, fun j hj => ?_, fun j hj => ?_⟩
  · rw [htracer, Holding, hq, ha]
    have hr := h.roots j
    rw [Holding] at hr
    simp only [judged, RequestTracer.endRequest, RequestTracer.endSpan, RequestTracer.startSpan,
      RequestTracer.startRequest, Dict.mem_keys_erase, Dict.mem_keys_set, hr]
    grind
  · rw [htracer, hq, ha]
    have hc := h.children j name
    simp only [judged, RequestTracer.endRequest, RequestTracer.endSpan, RequestTracer.startSpan,
      RequestTracer.startRequest, Dict.mem_keys_erase, Dict.mem_keys_set, hc]
    grind
  · rw [hissued, List.mem_cons, not_or] at hj
    rw [hlog, stages, List.filter_append]
    exact (congrArg _ (hev j hj.1)).trans ((List.append_nil _).trans (h.fresh j hj.2))
  · rw [hacc] at hj
    have hji : j ≠ id := fun he => haccepted (he ▸ hj)
    obtain ⟨stage, hat, hscript⟩ := h.stands j hj
    refine ⟨stage, hat.congr (by rw [hq]) (by rw [ha]), ?_⟩
    rw [hlog, stages, List.filter_append]
    exact (congrArg _ (hev j hji)).trans ((List.append_nil _).trans hscript)

theorem Lifecycle.accepted_step (h : Lifecycle s) (hb : Books env s) {id : RequestId}
    {body : GenerateRequest} (hnew : id ∉ s.issued) (hissued : s'.issued = id :: s.issued)
    (htracer : s'.tracer = (judged s.tracer id).startSpan id .queueWait)
    (hq : s'.queue = s.queue.push (newRequest env s id body)) (ha : s'.active = s.active)
    (hacc : s'.accepted = s.accepted.set id (newRequest env s id body))
    (hlog : s'.log = s.log ++ arrival id) : Lifecycle s' := by
  have hpool : ∀ j, j ∈ s'.queue.pool.keys ↔ j = id ∨ j ∈ s.queue.pool.keys := by
    intro j
    rw [hq, RequestQueue.push, newRequest, Dict.mem_keys_set]
  obtain ⟨-, hactive, -⟩ := hb.unissued hnew
  refine h.moved id .waiting hlog ?_ ((hpool id).mpr (.inl rfl)) (fun j hj => ⟨?_, ?_, ?_⟩)
    (fun j => ?_) (fun j name => ?_) (fun j hj => ?_) fun j hj => ?_
  · rw [h.fresh id hnew]
    simp [stages, arrival, staged, Stage.script]
  · simp [stages, arrival, staged, Ne.symm hj]
  · rw [hpool]
    exact ⟨fun hm => hm.resolve_left hj, .inr⟩
  · rw [ha]
  · have hr := h.roots j
    rw [Holding] at hr
    rw [htracer, Holding, hpool, ha]
    simp only [judged, RequestTracer.endSpan, RequestTracer.startSpan, RequestTracer.startRequest,
      Dict.mem_keys_set, hr]
    rw [or_assoc]
  · have hc := h.children j name
    rw [htracer, hpool, ha]
    simp only [judged, RequestTracer.endSpan, RequestTracer.startSpan, RequestTracer.startRequest,
      Dict.mem_keys_set, Dict.mem_keys_erase, hc]
    grind
  · rw [hacc, Dict.mem_keys_set] at hj
    exact hj
  · rw [hissued, List.mem_cons, not_or] at hj
    exact hj

theorem Lifecycle.expired_step (h : Lifecycle s) (hb : Books env s) {request : PendingRequest}
    (hpool : s.queue.pool.get? request.id = some request) (phase : Phase) :
    Lifecycle (expiredState env s request.id phase) := by
  have hin : request.id ∈ s.queue.pool.keys := Dict.mem_keys.mpr ⟨request, hpool⟩
  have hhold := hb.holding_expired hin phase
  have hpool' : ∀ j, j ∈ (expiredState env s request.id phase).queue.pool.keys ↔
      j ≠ request.id ∧ j ∈ s.queue.pool.keys := fun j => Dict.mem_keys_erase
  have hwait := (h.children request.id .queueWait).mpr (.inl ⟨rfl, hin⟩)
  have hroot : request.id ∈ (s.tracer.endSpan request.id .queueWait).2.roots.keys :=
    (h.roots request.id).mpr (.inl hin)
  have hacc : request.id ∈ s.accepted.keys := Dict.mem_keys.mpr ⟨request, (hb.queued _ _ hpool).2⟩
  refine h.moved request.id .expired rfl ?_ ?_ (fun j hj => ⟨?_, ?_, rfl⟩) (fun j => ?_)
    (fun j name => ?_) (fun j hj => .inr hj) fun j hj => ⟨fun he => ?_, hj⟩
  · rw [h.waiting hb hin, spanClosing_open hwait, rootClosing_open hroot]
    simp [stages, arrival, expiry, staged, Stage.script]
  · exact fun hh => ((hhold _).mp hh).1 rfl
  · rw [spanClosing_open hwait, rootClosing_open hroot]
    simp [stages, staged, Ne.symm hj]
  · rw [hpool']
    exact and_iff_right hj
  · show j ∈ (s.tracer.roots.erase request.id).keys ↔ _
    rw [hhold, Dict.mem_keys_erase, h.roots]
  · have hc := h.children j name
    rw [hpool']
    show (j, name) ∈ (s.tracer.openChildren.erase (request.id, .queueWait)).keys ↔
      _ ∨ _ ∧ j ∈ s.active.keys
    rw [Dict.mem_keys_erase, hc]
    grind
  · exact hj (he.symm ▸ hb.issued _ hacc)

theorem Lifecycle.admitted_step (h : Lifecycle s) (hb : Books env s) {request : PendingRequest}
    {seqId : SeqId} (hpool : s.queue.pool.get? request.id = some request) (phase : Phase) :
    Lifecycle (admittedState env s request seqId phase) := by
  have hin : request.id ∈ s.queue.pool.keys := Dict.mem_keys.mpr ⟨request, hpool⟩
  have hacc : request.id ∈ s.accepted.keys := Dict.mem_keys.mpr ⟨request, (hb.queued _ _ hpool).2⟩
  have hwait := (h.children request.id .queueWait).mpr (.inl ⟨rfl, hin⟩)
  have hpool' : ∀ j, j ∈ (admittedState env s request seqId phase).queue.pool.keys ↔
      j ≠ request.id ∧ j ∈ s.queue.pool.keys := fun j => Dict.mem_keys_erase
  have hactive : ∀ j, j ∈ (admittedState env s request seqId phase).active.keys ↔
      j = request.id ∨ j ∈ s.active.keys := fun j => Dict.mem_keys_set
  refine h.moved request.id (.running seqId (claimPrefix s request seqId).1) rfl ?_ ?_
    (fun j hj => ⟨?_, ?_, ?_⟩) (fun j => ?_) (fun j name => ?_) (fun j hj => .inr hj)
    fun j hj => ⟨fun he => ?_, hj⟩
  · rw [h.waiting hb hin, spanClosing_open hwait]
    simp [stages, arrival, promotion, staged, Stage.script]
  · show ((s.active.set request.id _).get? request.id).map ActiveSequence.seqId = some seqId
    rw [Dict.get?_set, if_pos rfl]
    rfl
  · rw [spanClosing_open hwait]
    simp [stages, staged, Ne.symm hj]
  · rw [hpool']
    exact and_iff_right hj
  · show ((s.active.set request.id _).get? j).map ActiveSequence.seqId = _
    rw [Dict.get?_set, if_neg (Ne.symm hj)]
  · exact (h.roots j).trans (holding_admitted hin seqId phase j).symm
  · have hc := h.children j name
    have hq := hb.apart j
    rw [hpool', hactive]
    show (j, name) ∈ ((s.tracer.openChildren.erase (request.id, .queueWait)).set
      (request.id, .generation) _).keys ↔ _
    rw [Dict.mem_keys_set, Dict.mem_keys_erase, hc]
    grind
  · exact hj (he.symm ▸ hb.issued _ hacc)

theorem Lifecycle.finished_step (h : Lifecycle s) (hb : Books env s) {id : RequestId}
    {seq : ActiveSequence} (hseq : s.active.get? id = some seq) (state : RequestState)
    (why : Option CancelReason) {before : List Event} (hbefore : ∀ j, stages before j = [])
    (phase : Phase) : Lifecycle (finishedState env s id state why before phase) := by
  have hin : id ∈ s.active.keys := Dict.mem_keys.mpr ⟨seq, hseq⟩
  have hacc := hb.known id hin
  have hgen := (h.children id .generation).mpr (.inr ⟨rfl, hin⟩)
  have hroot : id ∈ (s.tracer.endSpan id .generation).2.roots.keys := (h.roots id).mpr (.inr hin)
  have hactive : ∀ j, j ∈ (finishedState env s id state why before phase).active.keys ↔
      j ≠ id ∧ j ∈ s.active.keys := fun j => Dict.mem_keys_erase
  have hhold : ∀ j, Holding (finishedState env s id state why before phase) j ↔
      j ≠ id ∧ Holding s j := hb.holding_retired hin state
  obtain ⟨reused, hscript⟩ := h.running hb hseq
  have hevents : ∀ j, stages (before ++ ([.finished id why, .released id] ++ closing env s id ++
      spanClosing s.tracer id .generation ++
      rootClosing (s.tracer.endSpan id .generation).2 id)) j =
      if j = id then completion id why else [] := by
    intro j
    rw [spanClosing_open hgen, rootClosing_open hroot, stages, List.filter_append]
    refine (congrArg (· ++ _) (hbefore j)).trans ?_
    by_cases hj : j = id
    · subst hj
      simp [completion, staged]
    · simp [staged, hj, Ne.symm hj]
  refine h.moved id (.finished seq.seqId reused why) rfl ?_ ?_ (fun j hj => ⟨?_, .rfl, ?_⟩)
    (fun j => ?_) (fun j name => ?_) (fun j hj => .inr hj) fun j hj => ⟨fun he => ?_, hj⟩
  · rw [hevents, if_pos rfl, hscript]
    rfl
  · exact fun hh => ((hhold _).mp hh).1 rfl
  · rw [hevents, if_neg hj]
  · show ((s.active.erase id).get? j).map ActiveSequence.seqId = _
    rw [Dict.get?_erase, if_neg (Ne.symm hj)]
  · show j ∈ (s.tracer.roots.erase id).keys ↔ _
    rw [hhold, Dict.mem_keys_erase, h.roots]
  · have hc := h.children j name
    rw [hactive]
    show (j, name) ∈ (s.tracer.openChildren.erase (id, .generation)).keys ↔
      _ ∧ j ∈ s.queue.pool.keys ∨ _
    rw [Dict.mem_keys_erase, hc]
    grind
  · exact hj (he.symm ▸ hb.issued _ hacc)

theorem Lifecycle.transition (h : Lifecycle s) (hclock : TicksApart env) (hb : Books env s)
    (hs : Standing env s) (haged : Aged env s) {l : Label} (ht : Transition env s l s') :
    Lifecycle s' := by
  have hnil : s.log = s.log ++ [] := (List.append_nil _).symm
  cases ht with
  | rejected hw hnew =>
    exact h.rejected_step hb hnew rfl rfl rfl rfl rfl rfl fun j hj => by simp [staged, Ne.symm hj]
  | accepted hw hnew hroom hres => exact h.accepted_step hb hnew rfl rfl rfl rfl rfl rfl
  | receive hw hr =>
    refine h.frame rfl (fun id => ?_) rfl rfl (fun _ => rfl) rfl rfl
    split_ifs <;> rfl
  | leave | buildNothing | build =>
    exact h.frame rfl (fun id => rfl) rfl rfl (fun _ => rfl) rfl rfl
  | expire hp hstale hpool => exact h.expired_step hb hpool _
  | admitted hp hpool hslot => exact h.admitted_step hb hpool _
  | decoded hp hkeys hactive =>
    refine h.frame rfl (fun id => rfl) rfl rfl (fun id => ?_) rfl rfl
    show (_ : Option ActiveSequence).map _ = _
    rw [hactive, Option.map_map]
    rfl
  | finishSampled hp hid hseq => exact h.finished_step hb hseq _ _ (fun _ => rfl) _
  | dieSampled hp hid hseq hstate hwhy hno =>
    exact absurd hno (haged.sampled_in_time hclock hb hs hp hid hseq hstate)
  | @push idOf now seqId token todo id seq state hp hid hseq hstate hgo =>
    refine h.frame rfl (fun j => ?_) rfl rfl (fun j => ?_) rfl rfl
    · rw [stages, List.filter_append]
      exact stages_enqueued j id _
    · show ((s.active.set id _).get? j).map ActiveSequence.seqId = _
      rw [Dict.get?_set]
      split_ifs with hj
      · rw [← hj, hseq]
        rfl
      · rfl
  | finishFailed hp hseq => exact h.finished_step hb hseq _ _ (fun _ => rfl) _
  | dieFailed hp hseq hstate hno => exact absurd hno (haged.failed_in_time hclock hp hstate)
  | _ => exact h.frame hnil (fun _ => rfl) rfl rfl (fun _ => rfl) rfl rfl

theorem reachable_lifecycle {allowed : State → Label → Prop} (hclock : TicksApart env)
    (h : Reachable (step env) allowed (start env) s) : Lifecycle s := by
  refine h.invariant (lifecycle_start env) fun s l s' hr hi _ hs => ?_
  exact hi.transition hclock (reachable_books hr).1 (reachable_books hr).2
    (reachable_aged hclock hr) (reachable_transition hr hs)

/-- Between steps the open roots are the waiting and the active requests. -/
theorem Lifecycle.roots_perm (h : Lifecycle s) (hb : Books env s) :
    s.tracer.roots.keys.Perm (s.queue.pool.keys ++ s.active.keys) := by
  refine (List.perm_ext_iff_of_nodup s.tracer.roots.keys_nodup hb.holders_nodup).mpr fun id => ?_
  rw [List.mem_append]
  exact h.roots id

end Kept

end TinyServe.BatchLoop
