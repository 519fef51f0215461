import TinyServe.BatchLoopBooks

set_option autoImplicit false

/-!
What one step of the server can do, said once. With the books in order no lookup fails, and every
step is one of the transitions below with its exact outcome.
-/
namespace TinyServe.BatchLoop
open OrderedDict PrefixCacheBase BatchBuilder Admission Scheduler Streaming Tracing LlamaRuntime

section Outcomes

def newRequest (env : Env) (s : State) (id : RequestId) (body : GenerateRequest) :
    PendingRequest :=
  ⟨id, env.tokenize body.prompt, body.maxTokens, body.priority, env.clock s.tick s.reads⟩

/-- The tracer once the admission decision is on record. -/
def judged (t : RequestTracer) (id : RequestId) : RequestTracer :=
  (((t.startRequest id).startSpan id .admission).endSpan id .admission).2

def closing (env : Env) (s : State) (id : RequestId) : List Event :=
  (s.streams.close env.decoder id).2.map (.enqueued id)

def spanClosing (t : RequestTracer) (id : RequestId) (name : SpanName) : List Event :=
  if (t.endSpan id name).1 then [.spanEnded id name] else []

def rootClosing (t : RequestTracer) (id : RequestId) : List Event :=
  if (t.endRequest id).1 then [.rootEnded id] else []

/-- The tracer after the last child span of a request and its root ended. -/
def concluded (t : RequestTracer) (id : RequestId) (name : SpanName) : RequestTracer :=
  ((t.endSpan id name).2.endRequest id).2

def expiredState (env : Env) (s : State) (id : RequestId) (phase : Phase) : State :=
  { s with
    queue := ⟨s.queue.pool.erase id⟩
    kvCache := (s.kvCache.release id).2
    streams := (s.streams.close env.decoder id).1
    tracer := concluded s.tracer id .queueWait
    phase
    log := s.log ++ ([.expired id, .released id] ++ closing env s id ++
      spanClosing s.tracer id .queueWait ++
      rootClosing (s.tracer.endSpan id .queueWait).2 id) }

/-- What the lookup at admission leaves on record. -/
def lookups (s : State) (request : PendingRequest) (seqId : SeqId) : List Event :=
  match s.prefixCache with
  | none => []
  | some cache =>
    let hit := cache.matchForReuse request.promptTokens
    [.lookedUp request.id hit
      (hit.hit && (reusePrefix s.memory hit.seqId seqId hit.nTokens).1)]

def admittedState (env : Env) (s : State) (request : PendingRequest) (seqId : SeqId)
    (phase : Phase) : State :=
  { s with
    queue := ⟨s.queue.pool.erase request.id⟩
    reads := s.reads + 1
    freeSlots := s.freeSlots.dropLast
    prefixCache := (claimPrefix s request seqId).2.prefixCache
    memory := (claimPrefix s request seqId).2.memory
    active := s.active.set request.id
      ⟨seqId, request.promptTokens.drop (claimPrefix s request seqId).1,
        (claimPrefix s request seqId).1⟩
    requests := s.requests.set request.id
      ⟨seqId, request.maxTokens, request.arrivalTs, env.clock s.tick s.reads, 0, none⟩
    tracer := (s.tracer.endSpan request.id .queueWait).2.startSpan request.id .generation
    phase
    log := s.log ++ (lookups s request seqId ++
      [.admitted request.id seqId (claimPrefix s request seqId).1] ++
      spanClosing s.tracer request.id .queueWait ++ [.spanStarted request.id .generation]) }

/-- What `finish` has given back by the time the stream is closed. -/
def retired (env : Env) (s : State) (id : RequestId) (state : RequestState) : State :=
  { s with
    requests := s.requests.erase id
    prefixCache := s.prefixCache.map fun cache => cache.evict state.seqId
    memory := freeSequence s.memory state.seqId
    freeSlots := s.freeSlots ++ [state.seqId]
    active := s.active.erase id
    kvCache := (s.kvCache.release id).2
    streams := (s.streams.close env.decoder id).1
    reads := if 0 < state.tokensEmitted then s.reads + 1 else s.reads }

def finishedState (env : Env) (s : State) (id : RequestId) (state : RequestState)
    (why : Option CancelReason) (before : List Event) (phase : Phase) : State :=
  { retired env s id state with
    tracer := concluded s.tracer id .generation
    phase
    log := s.log ++ (before ++ ([.finished id why, .released id] ++ closing env s id ++
      spanClosing s.tracer id .generation ++
      rootClosing (s.tracer.endSpan id .generation).2 id)) }

/-- The division by no time at all ends the task with the spans still open. -/
def diedState (env : Env) (s : State) (id : RequestId) (state : RequestState)
    (why : Option CancelReason) (before : List Event) : State :=
  { retired env s id state with
    phase := .dead .zeroDivisionError
    log := s.log ++ (before ++ ([.finished id why, .released id] ++ closing env s id)) }

def NoTime (env : Env) (s : State) (state : RequestState) : Prop :=
  0 < state.tokensEmitted ∧ env.clock s.tick s.reads - state.admittedTs = 0

def decremented (state : RequestState) : RequestState :=
  { state with remainingTokens := state.remainingTokens - 1 }

theorem decremented_seqId {state : RequestState} : (decremented state).seqId = state.seqId := rfl

/-- Why a sampled token finishes its request. -/
def Ends (env : Env) (s : State) (now : Time) (token : Token) (id : RequestId)
    (state : RequestState) (why : Option CancelReason) : Prop :=
  (token = env.eosToken ∨ state.remainingTokens ≤ 0) ∧ why = none ∨
  ¬ (token = env.eosToken ∨ state.remainingTokens ≤ 0) ∧
    (s.streams.isCancelled id = true ∧ why = some .clientDisconnect ∨
      s.streams.isCancelled id = false ∧
        env.generationTimeoutSeconds < now - state.admittedTs ∧ why = some .generationTimeout)

/-- A sampled token is delivered when none of the tests stops it. -/
def Continues (env : Env) (s : State) (now : Time) (token : Token) (id : RequestId)
    (state : RequestState) : Prop :=
  token ≠ env.eosToken ∧ 0 < state.remainingTokens ∧ s.streams.isCancelled id = false ∧
    ¬ env.generationTimeoutSeconds < now - state.admittedTs

def pushedState (env : Env) (s : State) (id : RequestId) (seq : ActiveSequence)
    (state : RequestState) (now : Time) (token : Token) (phase : Phase) : State :=
  { s with
    requests := s.requests.set id { decremented state with
      tokensEmitted := state.tokensEmitted + 1
      lastTokenTs := some now }
    streams := (s.streams.pushToken env.decoder id (env.detokenize [token])).1
    active := s.active.set id { seq with pendingTokens := [token] }
    phase
    log := s.log ++ ([.sampled id token, .pushed id token] ++
      (s.streams.pushToken env.decoder id (env.detokenize [token])).2.map (.enqueued id)) }

end Outcomes

/-- The transitions of the server. -/
inductive Transition (env : Env) (s : State) : Label → State → Prop where
  | rejected {id : RequestId} {body : GenerateRequest} {reason : Rejection}
      (hw : s.phase.awaiting) (hnew : id ∉ s.issued) :
      Transition env s (.generate id body) { s with
        issued := id :: s.issued
        tracer := ((judged s.tracer id).endRequest id).2
        log := s.log ++ ([.rootStarted id, .spanStarted id .admission, .spanEnded id .admission,
          .rootEnded id, .rejected id reason]) }
  | accepted {id : RequestId} {body : GenerateRequest} {kvCache : KVCacheManager}
      (hw : s.phase.awaiting) (hnew : id ∉ s.issued) (hroom : s.queue.depth < env.maxQueueDepth)
      (hres : s.kvCache.reserve id ((env.tokenize body.prompt).length + body.maxTokens) =
        .ok (true, kvCache)) :
      Transition env s (.generate id body) { s with
        issued := id :: s.issued
        kvCache
        streams := s.streams.create id
        tracer := (judged s.tracer id).startSpan id .queueWait
        reads := s.reads + 1
        queue := s.queue.push (newRequest env s id body)
        accepted := s.accepted.set id (newRequest env s id body)
        log := s.log ++ ([.rootStarted id, .spanStarted id .admission, .spanEnded id .admission,
          .spanStarted id .queueWait, .accepted id]) }
  | setPolicy {name : String} {activePolicy : ActivePolicy} (hw : s.phase.awaiting) :
      Transition env s (.setPolicy name) { s with activePolicy }
  | cancel {id : RequestId} (hw : s.phase.awaiting) :
      Transition env s (.cancel id) { s with streams := s.streams.cancel id }
  | receive {id : RequestId} {item : Item} {streams : StreamManager} (hw : s.phase.awaiting)
      (h : s.streams.receive id = some (item, streams)) :
      Transition env s (.receive id) { s with
        streams
        log := s.log ++ (if item = .endOfStream then [.received id item, .detached id]
          else [.received id item]) }
  | leave {id : RequestId} (hw : s.phase.awaiting) (h : s.streams.streams.contains id) :
      Transition env s (.leave id) { s with
        streams := s.streams.leave id
        log := s.log ++ [.detached id] }
  | beginExpiry (h : s.phase = .top) :
      Transition env s .loop { s with
        reads := s.reads + 1
        phase := .expiring (env.clock s.tick s.reads) s.queue.waiting false }
  | wake (h : s.phase = .idle) (hq : s.queue.depth ≠ 0) :
      Transition env s .loop { s with
        reads := s.reads + 1
        phase := .expiring (env.clock s.tick s.reads) s.queue.waiting true }
  | keep {now : Time} {request : PendingRequest} {todo : List PendingRequest} {woken : Bool}
      (h : s.phase = .expiring now (request :: todo) woken)
      (hfresh : ¬ env.queueTimeoutSeconds < now - request.arrivalTs) :
      Transition env s .loop { s with phase := .expiring now todo woken }
  | expire {now : Time} {request : PendingRequest} {todo : List PendingRequest} {woken : Bool}
      (h : s.phase = .expiring now (request :: todo) woken)
      (hstale : env.queueTimeoutSeconds < now - request.arrivalTs)
      (hpool : s.queue.pool.get? request.id = some request) :
      Transition env s .loop (expiredState env s request.id (.expiring now todo woken))
  | rest {now : Time} (h : s.phase = .expiring now [] false) (ha : s.active.size = 0)
      (hq : s.queue.depth = 0) : Transition env s .loop { s with phase := .idle }
  | full {now : Time} {woken : Bool} (h : s.phase = .expiring now [] woken)
      (hf : s.freeSlots = []) : Transition env s .loop { s with phase := .admitting [] }
  | select {now : Time} {woken : Bool} {policy : SchedulingPolicy} {chosen : List PendingRequest}
      (h : s.phase = .expiring now [] woken) (hf : s.freeSlots ≠ [])
      (hsel : s.activePolicy.policy.select env.oneOver s.queue.waiting s.freeSlots.length =
        (policy, .ok chosen)) :
      Transition env s .loop { s with
        activePolicy := { s.activePolicy with policy }
        phase := .admitting chosen }
  | selectRaised {now : Time} {woken : Bool} {policy : SchedulingPolicy} {e : PyError}
      (h : s.phase = .expiring now [] woken) (hf : s.freeSlots ≠ [])
      (hsel : s.activePolicy.policy.select env.oneOver s.queue.waiting s.freeSlots.length =
        (policy, .error e)) :
      Transition env s .loop { s with
        activePolicy := { s.activePolicy with policy }
        phase := .dead e }
  | admitted {request : PendingRequest} {todo : List PendingRequest} {seqId : SeqId}
      (h : s.phase = .admitting (request :: todo))
      (hpool : s.queue.pool.get? request.id = some request)
      (hslot : s.freeSlots.getLast? = some seqId) :
      Transition env s .loop (admittedState env s request seqId (.admitting todo))
  | buildNothing (h : s.phase = .admitting [])
      (hb : (buildBatch s.active.values env.batchCapacity env.chunkSize).rows = []) :
      Transition env s .loop { s with
        phase := .top
        tick := s.tick + 1
        log := s.log ++ [.built []] }
  | build {prepared : PreparedBatch} (h : s.phase = .admitting [])
      (hp : prepared = buildBatch s.active.values env.batchCapacity env.chunkSize)
      (hb : prepared.rows ≠ []) :
      Transition env s .loop { s with
        reads := s.reads + 1
        decodeStarted := env.clock s.tick s.reads
        phase := .decoding prepared
        log := s.log ++ [.built prepared.rows] }
  | decoded {prepared : PreparedBatch} {sample : ℕ → Token} {order : List SeqId}
      {active : Dict RequestId ActiveSequence} (h : s.phase = .decoding prepared)
      (hkeys : active.keys = s.active.keys)
      (hactive : ∀ id, active.get? id = (s.active.get? id).map (consume prepared)) :
      Transition env s (.decoded sample order) { s with
        memory := decode s.memory prepared
        active
        reads := s.reads + 2
        phase := .distributing (requestIdOf s.requests) (env.clock s.tick (s.reads + 1))
          (sampled sample prepared).entries
        log := s.log ++ [.decoded] }
  | decodeFailed {prepared : PreparedBatch} {left : List ((SeqId × ℕ) × Token)}
      (h : s.phase = .decoding prepared) :
      Transition env s (.decodeFailed left) { s with
        memory := decodeFailed s.memory prepared left
        phase := .failing s.requests.keys }
  | finishSampled {idOf : Dict SeqId RequestId} {now : Time} {seqId : SeqId} {token : Token}
      {todo : List (SeqId × Token)} {id : RequestId} {seq : ActiveSequence} {state : RequestState}
      {why : Option CancelReason} (h : s.phase = .distributing idOf now ((seqId, token) :: todo))
      (hid : idOf.get? seqId = some id) (hseq : s.active.get? id = some seq)
      (hstate : s.requests.get? id = some state)
      (hwhy : Ends env s now token id (decremented state) why) (ht : ¬ NoTime env s state) :
      Transition env s .loop (finishedState env s id (decremented state) why [.sampled id token]
        (.distributing idOf now todo))
  | dieSampled {idOf : Dict SeqId RequestId} {now : Time} {seqId : SeqId} {token : Token}
      {todo : List (SeqId × Token)} {id : RequestId} {seq : ActiveSequence} {state : RequestState}
      {why : Option CancelReason} (h : s.phase = .distributing idOf now ((seqId, token) :: todo))
      (hid : idOf.get? seqId = some id) (hseq : s.active.get? id = some seq)
      (hstate : s.requests.get? id = some state)
      (hwhy : Ends env s now token id (decremented state) why) (ht : NoTime env s state) :
      Transition env s .loop (diedState env s id (decremented state) why [.sampled id token])
  | push {idOf : Dict SeqId RequestId} {now : Time} {seqId : SeqId} {token : Token}
      {todo : List (SeqId × Token)} {id : RequestId} {seq : ActiveSequence} {state : RequestState}
      (h : s.phase = .distributing idOf now ((seqId, token) :: todo))
      (hid : idOf.get? seqId = some id) (hseq : s.active.get? id = some seq)
      (hstate : s.requests.get? id = some state)
      (hgo : Continues env s now token id (decremented state)) :
      Transition env s .loop (pushedState env s id seq state now token (.distributing idOf now todo))
  | finishFailed {id : RequestId} {todo : List RequestId} {seq : ActiveSequence}
      {state : RequestState} (h : s.phase = .failing (id :: todo))
      (hseq : s.active.get? id = some seq) (hstate : s.requests.get? id = some state)
      (ht : ¬ NoTime env s state) :
      Transition env s .loop (finishedState env s id state (some .decodeError) [] (.failing todo))
  | dieFailed {id : RequestId} {todo : List RequestId} {seq : ActiveSequence}
      {state : RequestState} (h : s.phase = .failing (id :: todo))
      (hseq : s.active.get? id = some seq) (hstate : s.requests.get? id = some state)
      (ht : NoTime env s state) :
      Transition env s .loop (diedState env s id state (some .decodeError) [])
  | endTick (h : (∃ idOf now, s.phase = .distributing idOf now []) ∨ s.phase = .failing []) :
      Transition env s .loop { s with phase := .top, tick := s.tick + 1 }

section Inversion
variable {env : Env} {s s' : State}

theorem settle_returns (o : Outcome) : (o.settle .top).phase = .top ↔ o.2 = none := by
  obtain ⟨s, raised⟩ := o
  cases raised <;> simp [Outcome.settle, State.goto]

theorem finish_eq {id : RequestId} {seq : ActiveSequence} {state : RequestState} {blocks : ℕ}
    (hseq : s.active.get? id = some seq) (hstate : s.requests.get? id = some state)
    (hblocks : s.kvCache.blockTable.get? id = some blocks) (why : Option CancelReason)
    (phase : Phase) :
    (NoTime env s state →
      (finish env s id why).settle phase = diedState env s id state why []) ∧
    (¬ NoTime env s state →
      (finish env s id why).settle phase = finishedState env s id state why [] phase) := by
  have hcontains : s.active.contains id = true := by simp [Dict.contains, hseq]
  obtain ⟨hfst, -⟩ := KVCacheManager.release_some hblocks
  constructor
  · intro ht
    obtain ⟨hpos, hzero⟩ := ht
    simp [finish, hstate, hcontains, State.releaseBlocks, State.closeStream, State.readClock,
      State.emit, hfst, hpos, hzero, Outcome.settle, State.goto, diedState, retired, closing]
  · intro ht
    by_cases hpos : 0 < state.tokensEmitted
    · have hne : ¬ env.clock s.tick s.reads - state.admittedTs = 0 := fun h => ht ⟨hpos, h⟩
      simp [finish, hstate, hcontains, State.releaseBlocks, State.closeStream, State.readClock,
        State.emit, hfst, hpos, hne, Outcome.settle, State.goto, State.endSpan, State.endRequest,
        finishedState, retired, closing, spanClosing, rootClosing, concluded]
    · simp [finish, hstate, hcontains, State.releaseBlocks, State.closeStream,
        State.emit, hfst, hpos, Outcome.settle, State.goto, State.endSpan, State.endRequest,
        finishedState, retired, closing, spanClosing, rootClosing, concluded]

theorem claimPrefix_frame (s s₁ : State) (request : PendingRequest) (seqId : SeqId)
    (hc : s₁.prefixCache = s.prefixCache) (hm : s₁.memory = s.memory) :
    (claimPrefix s₁ request seqId).1 = (claimPrefix s request seqId).1 ∧
      (claimPrefix s₁ request seqId).2 = { s₁ with
        prefixCache := (claimPrefix s request seqId).2.prefixCache
        memory := (claimPrefix s request seqId).2.memory
        log := s₁.log ++ lookups s request seqId } := by
  rw [claimPrefix, claimPrefix, lookups, hc]
  cases h : s.prefixCache with
  | none =>
    refine ⟨rfl, ?_⟩
    show s₁ = { s₁ with prefixCache := s.prefixCache, memory := s.memory, log := s₁.log ++ [] }
    rw [← hc, ← hm, List.append_nil]
  | some cache =>
    cases hhit : (cache.matchForReuse request.promptTokens).hit with
    | false =>
      simp only [hm, hhit, State.emit, Bool.false_and]
      exact ⟨trivial, rfl⟩
    | true =>
      simp only [hm, hhit, State.emit, Bool.true_and]
      exact ⟨trivial, rfl⟩

theorem admitNext_eq {request : PendingRequest} {seqId : SeqId}
    (hpool : s.queue.pool.get? request.id = some request)
    (hslot : s.freeSlots.getLast? = some seqId) (phase : Phase) :
    (admitNext env s request).settle phase = admittedState env s request seqId phase := by
  have hremove : s.queue.remove request.id = some ⟨s.queue.pool.erase request.id⟩ := by
    rw [RequestQueue.remove, hpool]
    rfl
  obtain ⟨hn, hstate⟩ := claimPrefix_frame s
    { s with
      queue := ⟨s.queue.pool.erase request.id⟩
      reads := s.reads + 1
      freeSlots := s.freeSlots.dropLast } request seqId rfl rfl
  simp [admitNext, hremove, admit_, State.readClock, hslot, hn, hstate, State.emit, State.endSpan,
    State.startSpan, Outcome.settle, State.goto, admittedState, spanClosing]

theorem expireStaleWaiter_eq {now : Time} {request : PendingRequest} {blocks : ℕ}
    (hstale : env.queueTimeoutSeconds < now - request.arrivalTs)
    (hpool : s.queue.pool.get? request.id = some request)
    (hblocks : s.kvCache.blockTable.get? request.id = some blocks) (phase : Phase) :
    (expireStaleWaiter env now s request).settle phase =
      expiredState env s request.id phase := by
  have hremove : s.queue.remove request.id = some ⟨s.queue.pool.erase request.id⟩ := by
    rw [RequestQueue.remove, hpool]
    rfl
  obtain ⟨hfst, -⟩ := KVCacheManager.release_some hblocks
  simp [expireStaleWaiter, hstale, hremove, State.releaseBlocks, hfst, State.closeStream,
    State.emit, State.endSpan, State.endRequest, Outcome.settle, State.goto, expiredState,
    concluded, closing, spanClosing, rootClosing]

/-- The distribution of one token: its request ends, for a reason, or goes on with the token. -/
theorem distribute_eq {idOf : Dict SeqId RequestId} {now : Time} {seqId : SeqId} {token : Token}
    {id : RequestId} {seq : ActiveSequence} {state : RequestState} {blocks : ℕ}
    (hid : idOf.get? seqId = some id) (hseq : s.active.get? id = some seq)
    (hstate : s.requests.get? id = some state)
    (hblocks : s.kvCache.blockTable.get? id = some blocks) (phase : Phase) :
    (∃ why, Ends env s now token id (decremented state) why ∧
      (NoTime env s state → (distribute env idOf now s seqId token).settle phase =
        diedState env s id (decremented state) why [.sampled id token]) ∧
      (¬ NoTime env s state → (distribute env idOf now s seqId token).settle phase =
        finishedState env s id (decremented state) why [.sampled id token] phase)) ∨
    Continues env s now token id (decremented state) ∧
      (distribute env idOf now s seqId token).settle phase =
        pushedState env s id seq state now token phase := by
  let s₁ : State := { s with
    requests := s.requests.set id (decremented state)
    log := s.log ++ [.sampled id token] }
  have hstate₁ : s₁.requests.get? id = some (decremented state) := by simp [s₁]
  have hseq₁ : s₁.active.get? id = some seq := hseq
  have hfinish := @finish_eq env s₁ id seq (decremented state) blocks hseq₁ hstate₁ hblocks
  have hends : ∀ why, distribute env idOf now s seqId token = finish env s₁ id why →
      (NoTime env s state → (distribute env idOf now s seqId token).settle phase =
        diedState env s id (decremented state) why [.sampled id token]) ∧
      (¬ NoTime env s state → (distribute env idOf now s seqId token).settle phase =
        finishedState env s id (decremented state) why [.sampled id token] phase) := by
    intro why heq
    rw [heq]
    refine ⟨fun ht => ((hfinish why phase).1 ht).trans ?_,
      fun ht => ((hfinish why phase).2 ht).trans ?_⟩
    · simp [diedState, retired, s₁, Dict.erase_set, closing]
    · simp [finishedState, retired, s₁, Dict.erase_set, closing]
  have hunfold : distribute env idOf now s seqId token =
      if token = env.eosToken ∨ (decremented state).remainingTokens ≤ 0 then
        finish env s₁ id none
      else if s.streams.isCancelled id then finish env s₁ id (some .clientDisconnect)
      else if env.generationTimeoutSeconds < now - (decremented state).admittedTs then
        finish env s₁ id (some .generationTimeout)
      else (pushedState env s id seq state now token s.phase, none) := by
    simp only [distribute, hid, hseq, hstate, decremented, State.emit, s₁, Dict.set_set,
      State.pushToken, pushedState, List.append_assoc, List.cons_append, List.nil_append]
    rfl
  by_cases hstop : token = env.eosToken ∨ (decremented state).remainingTokens ≤ 0
  · rw [if_pos hstop] at hunfold
    exact .inl ⟨none, .inl ⟨hstop, rfl⟩, hends _ hunfold⟩
  · rw [if_neg hstop] at hunfold
    cases hcancel : s.streams.isCancelled id with
    | true =>
      rw [hcancel, if_pos rfl] at hunfold
      exact .inl ⟨_, .inr ⟨hstop, .inl ⟨hcancel, rfl⟩⟩, hends _ hunfold⟩
    | false =>
      rw [hcancel, if_neg Bool.false_ne_true] at hunfold
      by_cases htime : env.generationTimeoutSeconds < now - (decremented state).admittedTs
      · rw [if_pos htime] at hunfold
        exact .inl ⟨_, .inr ⟨hstop, .inr ⟨hcancel, htime, rfl⟩⟩, hends _ hunfold⟩
      · rw [if_neg htime] at hunfold
        rw [not_or, not_le] at hstop
        exact .inr ⟨⟨hstop.1, hstop.2, hcancel, htime⟩, by rw [hunfold]; rfl⟩

theorem generate_eq {id : RequestId} {body : GenerateRequest} (hw : s.phase.awaiting)
    (hnew : id ∉ s.issued) (hfree : id ∉ s.kvCache.blockTable.keys) :
    Transition env s (.generate id body)
      (generate env { s with issued := id :: s.issued } id body) := by
  have hopen : (((s.tracer.startRequest id).startSpan id .admission).openChildren).contains
      (id, SpanName.admission) = true := by
    simp [RequestTracer.startSpan, Dict.contains]
  have hroot : (judged s.tracer id).roots.contains id = true := by
    simp [judged, RequestTracer.startSpan, RequestTracer.startRequest, RequestTracer.endSpan,
      Dict.contains]
  obtain ⟨⟨result, kvCache⟩, hr⟩ : ∃ r, Admission.admit_ s.kvCache env.maxQueueDepth id
      (env.tokenize body.prompt).length body.maxTokens s.queue.depth = .ok r :=
    admit_fresh (Dict.get?_eq_none.mpr hfree)
  cases result with
  | accepted =>
    obtain ⟨hroom, hres⟩ := admit_accepted hr
    have heq := Transition.accepted hw hnew hroom hres
    simp only [generate, State.startRequest, State.startSpan, State.endSpan, State.emit,
      RequestTracer.endSpan, hopen, hr, State.readClock, ↓reduceIte, List.append_assoc,
      List.cons_append, List.nil_append]
    exact heq
  | rejected reason =>
    obtain rfl := admit_rejected hr
    have heq := @Transition.rejected env s id body reason hw hnew
    simp only [judged, RequestTracer.endSpan] at hroot
    simp only [generate, State.startRequest, State.startSpan, State.endSpan, State.emit,
      RequestTracer.endSpan, hopen, hr, State.endRequest, RequestTracer.endRequest, hroot,
      ↓reduceIte, List.append_assoc, List.cons_append, List.nil_append]
    exact heq

theorem blocks_of_holding (hb : Books env s) {id : RequestId} (h : Holding s id) :
    ∃ blocks, s.kvCache.blockTable.get? id = some blocks := by
  obtain ⟨request, hr⟩ := Dict.mem_keys.mp (hb.holding_known h)
  exact ⟨_, hb.reserved id request hr h⟩

/-- The token to distribute next belongs to an active request. -/
theorem Standing.distributing_head (hs : Standing env s) (hb : Books env s)
    {idOf : Dict SeqId RequestId} {now : Time} {seqId : SeqId} {token : Token}
    {todo : List (SeqId × Token)} (hp : s.phase = .distributing idOf now ((seqId, token) :: todo)) :
    ∃ id seq state blocks, idOf.get? seqId = some id ∧ seq.seqId = seqId ∧
      s.active.get? id = some seq ∧ s.requests.get? id = some state ∧
      s.kvCache.blockTable.get? id = some blocks := by
  obtain ⟨id, seq, hid, hseq, hslot⟩ := (hs.distributing hp).2 _ List.mem_cons_self
  obtain ⟨state, hstate, -⟩ := hb.state_of_seq hseq
  obtain ⟨blocks, hblocks⟩ := blocks_of_holding hb (.inr (Dict.mem_keys.mpr ⟨seq, hseq⟩))
  exact ⟨id, seq, state, blocks, hid, hslot, hseq, hstate, hblocks⟩

/-- The request to finish next after a failed decode is active. -/
theorem Standing.failing_head (hs : Standing env s) (hb : Books env s) {id : RequestId}
    {todo : List RequestId} (hp : s.phase = .failing (id :: todo)) :
    ∃ seq state blocks, s.active.get? id = some seq ∧ s.requests.get? id = some state ∧
      s.kvCache.blockTable.get? id = some blocks := by
  obtain ⟨seq, hseq⟩ := Dict.mem_keys.mp (((hs.failing hp).2 id).mp List.mem_cons_self)
  obtain ⟨state, hstate, -⟩ := hb.state_of_seq hseq
  obtain ⟨blocks, hblocks⟩ := blocks_of_holding hb (.inr (Dict.mem_keys.mpr ⟨seq, hseq⟩))
  exact ⟨seq, state, blocks, hseq, hstate, hblocks⟩

theorem select_transition {now : Time} {woken : Bool} (h : s.phase = .expiring now [] woken) :
    Transition env s .loop (selectWaiting env s) := by
  by_cases hf : s.freeSlots = []
  · rw [selectWaiting, if_pos hf]
    exact .full h hf
  · rw [selectWaiting, if_neg hf]
    cases hsel : s.activePolicy.policy.select env.oneOver s.queue.waiting s.freeSlots.length with
    | mk policy chosen =>
      cases chosen with
      | error e => exact .selectRaised h hf hsel
      | ok chosen => exact .select h hf hsel

theorem build_transition (h : s.phase = .admitting []) : Transition env s .loop (build env s) := by
  by_cases hb : (buildBatch s.active.values env.batchCapacity env.chunkSize).rows = []
  · have heq := Transition.buildNothing h hb
    simp only [build, hb, State.emit, State.nextTick, ↓reduceIte]
    exact heq
  · have heq := Transition.build h rfl hb
    simp only [build, hb, State.emit, State.readClock, State.goto, ↓reduceIte]
    exact heq

theorem iterate_transition (hb : Books env s) (hs : Standing env s)
    (h : iterate env s = some s') : Transition env s .loop s' := by
  cases hp : s.phase with
  | top =>
    simp only [iterate, hp, State.readClock, State.goto, Option.some.injEq] at h
    exact h ▸ .beginExpiry hp
  | expiring now todo woken =>
    cases todo with
    | nil =>
      simp only [iterate, hp] at h
      split_ifs at h with hrest
      · obtain ⟨hw, ha, hq⟩ := hrest
        subst hw
        exact Option.some.inj h ▸ .rest hp ha hq
      · exact Option.some.inj h ▸ select_transition hp
    | cons request todo =>
      simp only [iterate, hp, Option.some.injEq] at h
      have hpool := (hs.expiring hp).2 request List.mem_cons_self
      by_cases hstale : env.queueTimeoutSeconds < now - request.arrivalTs
      · obtain ⟨blocks, hblocks⟩ := blocks_of_holding hb
          (.inl (Dict.mem_keys.mpr ⟨request, hpool⟩))
        rw [expireStaleWaiter_eq hstale hpool hblocks] at h
        exact h ▸ .expire hp hstale hpool
      · rw [expireStaleWaiter, if_neg hstale] at h
        exact h ▸ .keep hp hstale
  | idle =>
    simp only [iterate, hp] at h
    split_ifs at h with hq
    exact Option.some.inj h ▸ .wake hp hq
  | admitting todo =>
    cases todo with
    | nil =>
      simp only [iterate, hp, Option.some.injEq] at h
      exact h ▸ build_transition hp
    | cons request todo =>
      simp only [iterate, hp, Option.some.injEq] at h
      obtain ⟨-, hpool, hlen⟩ := hs.admitting hp
      have hne : s.freeSlots ≠ [] := by
        rintro he
        rw [he] at hlen
        simp at hlen
      have hslot := List.getLast?_eq_some_getLast hne
      rw [admitNext_eq (hpool request List.mem_cons_self) hslot] at h
      exact h ▸ .admitted hp (hpool request List.mem_cons_self) hslot
  | decoding prepared => simp [iterate, hp] at h
  | distributing idOf now todo =>
    cases todo with
    | nil =>
      simp only [iterate, hp, Option.some.injEq] at h
      exact h ▸ .endTick (.inl ⟨idOf, now, hp⟩)
    | cons e todo =>
      obtain ⟨seqId, token⟩ := e
      simp only [iterate, hp, Option.some.injEq] at h
      obtain ⟨id, seq, state, blocks, hid, -, hseq, hstate, hblocks⟩ := hs.distributing_head hb hp
      rcases @distribute_eq env s idOf now seqId token id seq state blocks hid hseq hstate hblocks
        (.distributing idOf now todo) with ⟨why, hwhy, hdie, hfin⟩ | ⟨hgo, hpush⟩
      · by_cases ht : NoTime env s state
        · rw [hdie ht] at h
          exact h ▸ .dieSampled hp hid hseq hstate hwhy ht
        · rw [hfin ht] at h
          exact h ▸ .finishSampled hp hid hseq hstate hwhy ht
      · rw [hpush] at h
        exact h ▸ .push hp hid hseq hstate hgo
  | failing todo =>
    cases todo with
    | nil =>
      simp only [iterate, hp, Option.some.injEq] at h
      exact h ▸ .endTick (.inr hp)
    | cons id todo =>
      simp only [iterate, hp, Option.some.injEq] at h
      obtain ⟨seq, state, blocks, hseq, hstate, hblocks⟩ := hs.failing_head hb hp
      obtain ⟨hdie, hfin⟩ := finish_eq hseq hstate hblocks (some .decodeError) (.failing todo)
      by_cases ht : NoTime env s state
      · rw [hdie ht] at h
        exact h ▸ .dieFailed hp hseq hstate ht
      · rw [hfin ht] at h
        exact h ▸ .finishFailed hp hseq hstate ht
  | dead raised => simp [iterate, hp] at h

theorem decoded_transition (hb : Books env s) (hs : Standing env s) {prepared : PreparedBatch}
    (hp : s.phase = .decoding prepared) {order : List SeqId}
    (ho : order.Perm (distinctSeqIds prepared)) (sample : ℕ → Token) :
    Transition env s (.decoded sample order) (decoded env s prepared sample order) := by
  obtain ⟨active, hadv, hkeys, hactive⟩ := advance_active hb (hs.decoding hp) ho
  have heq := @Transition.decoded env s prepared sample order active hp hkeys hactive
  simp only [decoded, State.emit, hadv, State.readClock, State.goto]
  exact heq

/-- With the books in order every step is one of the transitions. -/
theorem step_transition (hb : Books env s) (hs : Standing env s) {l : Label}
    (h : step env s l = some s') : Transition env s l s' := by
  cases l with
  | loop => exact iterate_transition hb hs h
  | decoded sample order =>
    cases hp : s.phase with
    | decoding prepared =>
      simp only [step, hp] at h
      split_ifs at h with ho
      exact Option.some.inj h ▸ decoded_transition hb hs hp (List.isPerm_iff.mp ho) sample
    | _ => simp [step, hp] at h
  | decodeFailed left =>
    cases hp : s.phase with
    | decoding prepared =>
      simp only [step, hp, State.goto, Option.some.injEq] at h
      exact h ▸ .decodeFailed hp
    | _ => simp [step, hp] at h
  | generate id body =>
    simp only [step] at h
    split_ifs at h with hg
    exact Option.some.inj h ▸ generate_eq hg.1 hg.2 (hb.unissued hg.2).2.2.2
  | setPolicy name =>
    simp only [step] at h
    split_ifs at h with hw
    rw [setPolicy] at h
    split at h
    · exact Option.some.inj h ▸ @Transition.setPolicy env s name s.activePolicy hw
    · exact Option.some.inj h ▸ .setPolicy hw
  | cancel id =>
    simp only [step] at h
    split_ifs at h with hw
    exact Option.some.inj h ▸ .cancel hw
  | receive id =>
    simp only [step] at h
    split_ifs at h with hw
    obtain ⟨⟨item, streams⟩, hrec, rfl⟩ := Option.map_eq_some_iff.mp h
    exact .receive hw hrec
  | leave id =>
    simp only [step] at h
    split_ifs at h with hw
    exact Option.some.inj h ▸ .leave hw.1 hw.2

/-- The loop only looks for work where there may be some. -/
theorem awake_of_step {now : Time} {woken : Bool} (hp : s.phase = .expiring now [] woken)
    (hs : step env s .loop = some s') (hmoved : s'.phase ≠ .idle) :
    ¬ (woken = false ∧ s.active.size = 0 ∧ s.queue.depth = 0) := by
  intro hnone
  simp only [step, iterate, hp, if_pos hnone, Option.some.injEq] at hs
  exact hmoved (hs ▸ rfl)

end Inversion

end TinyServe.BatchLoop
