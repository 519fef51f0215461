import TinyServe.BatchLoopMemory
import TinyServe.Metrics

set_option autoImplicit false

/-! What `batch_loop` and the handlers record on the metrics, at the points where they do. -/
namespace TinyServe.BatchLoop
open OrderedDict PrefixCacheBase BatchBuilder Admission Scheduler Streaming Tracing LlamaRuntime
open Observability Runs

section Recording

def CancelReason.label : CancelReason → Cancellation
  | .decodeError => .decodeError
  | .clientDisconnect => .clientDisconnect
  | .generationTimeout => .generationTimeout

/-- In `generate`. -/
def recordGenerate (env : Env) (s : State) (id : RequestId) (body : GenerateRequest)
    (m : Metrics) : Metrics :=
  match Admission.admit_ s.kvCache env.maxQueueDepth id (env.tokenize body.prompt).length body.maxTokens
    s.queue.depth with
  | .error _ => m
  | .ok (.rejected reason, _) =>
    { m with admissionRejectedTotal := m.admissionRejectedTotal.inc reason }
  | .ok (.accepted, _) => { m with admissionAcceptedTotal := m.admissionAcceptedTotal + 1 }

/-- In `_claim_prefix`. -/
def recordClaimPrefix (s : State) (request : PendingRequest) (seqId : SeqId) (m : Metrics) :
    Metrics :=
  match s.prefixCache with
  | none => m
  | some cache =>
    let hit := cache.matchForReuse request.promptTokens
    let m : Metrics :=
      if hit.hit then
        if (reusePrefix s.memory hit.seqId seqId hit.nTokens).1 then
          { m with
            prefillTokensReusedTotal := m.prefillTokensReusedTotal + hit.nTokens
            prefixCacheLookupsTotal := m.prefixCacheLookupsTotal.inc .hit }
        else
          { m with prefixCacheLookupsTotal := m.prefixCacheLookupsTotal.inc .staleDonor }
      else
        { m with prefixCacheLookupsTotal := m.prefixCacheLookupsTotal.inc .miss }
    { m with prefixCacheNodes := (cache.insert request.promptTokens seqId).1.nodeCount }

/-- In `admit`; without a free slot it raises before anything is recorded. -/
def recordAdmit (env : Env) (s : State) (request : PendingRequest) (m : Metrics) : Metrics :=
  match s.freeSlots.getLast? with
  | none => m
  | some seqId =>
    let m := recordClaimPrefix s request seqId m
    { m with
      prefillTokensTotal := m.prefillTokensTotal + request.promptTokens.length
      queueWaitSeconds := m.queueWaitSeconds.observe (env.clock s.tick s.reads - request.arrivalTs)
      schedulerPolicyDecisionTotal := m.schedulerPolicyDecisionTotal.inc s.activePolicy.name }

/-- In `finish`; the division that raises is never observed. -/
def recordFinish (env : Env) (s : State) (id : RequestId) (cancelReason : Option CancelReason)
    (m : Metrics) : Metrics :=
  match s.requests.get? id with
  | none => m
  | some state =>
    let m : Metrics :=
      match s.prefixCache with
      | none => m
      | some cache => { m with prefixCacheNodes := (cache.evict state.seqId).nodeCount }
    if s.active.contains id then
      let m : Metrics :=
        match cancelReason with
        | none => m
        | some reason => { m with cancellationsTotal := m.cancellationsTotal.inc reason.label }
      let elapsed := env.clock s.tick s.reads - state.admittedTs
      if 0 < state.tokensEmitted ∧ elapsed ≠ 0 then
        { m with tokensPerSecond := m.tokensPerSecond.observe (state.tokensEmitted / elapsed) }
      else
        m
    else
      m

/-- In one turn of `expire_stale_waiters`. -/
def recordExpiry (env : Env) (now : Time) (s : State) (request : PendingRequest) (m : Metrics) :
    Metrics :=
  if env.queueTimeoutSeconds < now - request.arrivalTs then
    match s.queue.remove request.id with
    | none => m
    | some _ => { m with cancellationsTotal := m.cancellationsTotal.inc .queueTimeout }
  else
    m

/-- The gauges that are set before the selection. -/
def recordTick (s : State) (m : Metrics) : Metrics :=
  { m with
    queueDepth := s.queue.depth
    kvBlocksFree := s.kvCache.freeBlocks
    kvBlocksUsed := (s.kvCache.totalBlocks : ℤ) - s.kvCache.freeBlocks }

/-- Once `runtime.decode` has returned. -/
def recordDecoded (env : Env) (s : State) (prepared : PreparedBatch) (m : Metrics) : Metrics :=
  { m with
    decodeStepDurationSeconds :=
      m.decodeStepDurationSeconds.observe (env.clock s.tick s.reads - s.decodeStarted)
    batchSizeTokens := m.batchSizeTokens.observe prepared.rows.length
    batchSizeRequests := m.batchSizeRequests.observe (distinctSeqIds prepared).length
    batchUtilization := m.batchUtilization.observe (prepared.rows.length / env.batchCapacity) }

/-- In one turn of the distribution loop. -/
def recordDistribute (env : Env) (idOf : Dict SeqId RequestId) (now : Time) (s : State)
    (seqId : SeqId) (token : Token) (m : Metrics) : Metrics :=
  match idOf.get? seqId with
  | none => m
  | some id =>
    match s.active.get? id, s.requests.get? id with
    | some _, some state =>
      let state : RequestState := { state with remainingTokens := state.remainingTokens - 1 }
      let s := { s with requests := s.requests.set id state }
      if token = env.eosToken ∨ state.remainingTokens ≤ 0 then
        recordFinish env s id none m
      else if s.streams.isCancelled id then
        recordFinish env s id (some .clientDisconnect) m
      else if env.generationTimeoutSeconds < now - state.admittedTs then
        recordFinish env s id (some .generationTimeout) m
      else if state.tokensEmitted = 0 then
        { m with ttftSeconds := m.ttftSeconds.observe (now - state.arrivalTs) }
      else
        match state.lastTokenTs with
        | none => m
        | some last =>
          { m with interTokenLatencySeconds := m.interTokenLatencySeconds.observe (now - last) }
    | _, _ => m

/-- What a step records. -/
def record (env : Env) (s : State) (label : Label) (m : Metrics) : Metrics :=
  match label, s.phase with
  | .loop, .expiring now (request :: _) _ => recordExpiry env now s request m
  | .loop, .expiring _ [] woken =>
    if woken = false ∧ s.active.size = 0 ∧ s.queue.depth = 0 then m else recordTick s m
  | .loop, .admitting (request :: _) => recordAdmit env s request m
  | .loop, .distributing idOf now ((seqId, token) :: _) =>
    recordDistribute env idOf now s seqId token m
  | .loop, .failing (id :: _) => recordFinish env s id (some .decodeError) m
  | .decoded _ _, .decoding prepared => recordDecoded env s prepared m
  | .generate id body, _ => recordGenerate env s id body m
  | _, _ => m

/-- The server with its metrics. -/
abbrev metered (env : Env) : State × Metrics → Label → Option (State × Metrics) :=
  noting (step env) (record env)

end Recording

section Views
variable {α : Type} {f : Event → Option α} {env : Env} {s : State}

/-- How a request leaves the server. -/
inductive Fate where
  | rejected (reason : Rejection)
  | cancelled (reason : Cancellation)
  | completed
  deriving DecidableEq

/-- The events that something is recorded for. -/
def Event.recorded : Event → Bool
  | .rejected _ _ => true
  | .expired _ => true
  | .lookedUp _ _ _ => true
  | .admitted _ _ _ => true
  | .pushed _ _ => true
  | .finished _ _ => true
  | _ => false

def asRecorded (e : Event) : Option Event := if e.recorded then some e else none

def asFate : Event → Option (RequestId × Fate)
  | .rejected id reason => some (id, .rejected reason)
  | .expired id => some (id, .cancelled .queueTimeout)
  | .finished id (some .decodeError) => some (id, .cancelled .decodeError)
  | .finished id (some .clientDisconnect) => some (id, .cancelled .clientDisconnect)
  | .finished id (some .generationTimeout) => some (id, .cancelled .generationTimeout)
  | .finished id none => some (id, .completed)
  | _ => none

/-- A token that went to the stream of its request. -/
def asDelivered : Event → Option RequestId
  | .pushed id _ => some id
  | _ => none

/-- What came of the lookup at an admission. -/
def asLookup : Event → Option Lookup
  | .lookedUp _ _ true => some .hit
  | .lookedUp _ hit false => some (if hit.hit then .staleDonor else .miss)
  | _ => none

/-- A request that was admitted, and how many of its tokens were not prefilled. -/
def asSpared : Event → Option (RequestId × ℕ)
  | .admitted id _ reused => some (id, reused)
  | _ => none

abbrev recorded (log : List Event) : List Event := view asRecorded log

/-- Who left the server, in order, and how. -/
abbrev fates (log : List Event) : List (RequestId × Fate) := view asFate log

/-- How many left the server in this way. -/
def tally (log : List Event) (fate : Fate) : ℕ := ((fates log).map Prod.snd).count fate

abbrev deliveries (log : List Event) : List RequestId := view asDelivered log

abbrev lookupsDone (log : List Event) : List Lookup := view asLookup log

abbrev sparings (log : List Event) : List (RequestId × ℕ) := view asSpared log

/-- A view of recorded events does not look at the others. -/
theorem view_recorded (hf : ∀ e, e.recorded = false → f e = none) (log : List Event) :
    view f log = view f (recorded log) := by
  induction log with
  | nil => rfl
  | cons e log ih =>
    rw [view_cons, recorded, view_cons, view_append, ← recorded, ← ih]
    cases he : e.recorded with
    | true => simp [asRecorded, he]
    | false => simp [asRecorded, he, hf e he]

/-- The fate of a request that `finish` is called for. -/
def CancelReason.fate (why : Option CancelReason) : Fate :=
  why.elim .completed fun reason => .cancelled reason.label

theorem asFate_finished (id : RequestId) (why : Option CancelReason) :
    asFate (.finished id why) = some (id, CancelReason.fate why) := by
  rcases why with _ | ⟨_ | _ | _⟩ <;> rfl

/-- What a view of recorded events gains by a step. -/
theorem view_told (hf : ∀ e, e.recorded = false → f e = none) {log log' told : List Event}
    (h : recorded log' = recorded log ++ told) : view f log' = view f log ++ view f told := by
  rw [view_recorded hf log', h, view_append, ← view_recorded hf log]

theorem asFate_recorded (e : Event) (h : e.recorded = false) : asFate e = none := by
  cases e <;> simp_all [Event.recorded, asFate]

theorem asDelivered_recorded (e : Event) (h : e.recorded = false) : asDelivered e = none := by
  cases e <;> simp_all [Event.recorded, asDelivered]

theorem asLookup_recorded (e : Event) (h : e.recorded = false) : asLookup e = none := by
  cases e <;> simp_all [Event.recorded, asLookup]

theorem asSpared_recorded (e : Event) (h : e.recorded = false) : asSpared e = none := by
  cases e <;> simp_all [Event.recorded, asSpared]

theorem tally_told {log log' told : List Event} (h : recorded log' = recorded log ++ told)
    (fate : Fate) : tally log' fate = tally log fate + tally told fate := by
  rw [tally, fates, view_told asFate_recorded h, List.map_append, List.count_append]
  rfl

@[simp] theorem recorded_enqueued (id : RequestId) (items : List Item) :
    recorded (items.map (.enqueued id)) = [] := by
  simp [view, asRecorded, Event.recorded]

@[simp] theorem recorded_closing (id : RequestId) : recorded (closing env s id) = [] :=
  recorded_enqueued id _

@[simp] theorem recorded_spanClosing (t : RequestTracer) (id : RequestId) (name : SpanName) :
    recorded (spanClosing t id name) = [] := by
  rw [spanClosing]
  split_ifs <;> simp [asRecorded, Event.recorded]

@[simp] theorem recorded_rootClosing (t : RequestTracer) (id : RequestId) :
    recorded (rootClosing t id) = [] := by
  rw [rootClosing]
  split_ifs <;> simp [asRecorded, Event.recorded]

@[simp] theorem recorded_lookups (request : PendingRequest) (seqId : SeqId) :
    recorded (lookups s request seqId) = lookups s request seqId := by
  rw [lookups]
  split <;> simp [asRecorded, Event.recorded]

@[simp] theorem quiet_asFate : Quiet asFate := by constructor <;> simp [asFate]

@[simp] theorem quiet_asDelivered : Quiet asDelivered := by constructor <;> simp [asDelivered]

@[simp] theorem quiet_asSpared : Quiet asSpared := by constructor <;> simp [asSpared]

theorem recorded_admitted (request : PendingRequest) (seqId : SeqId) (phase : Phase) :
    recorded (admittedState env s request seqId phase).log = recorded s.log ++
      (lookups s request seqId ++ [.admitted request.id seqId (claimPrefix s request seqId).1]) := by
  simp [admittedState, asRecorded, Event.recorded]

theorem recorded_pushed (id : RequestId) (seq : ActiveSequence) (state : RequestState) (now : Time)
    (token : Token) (phase : Phase) :
    recorded (pushedState env s id seq state now token phase).log =
      recorded s.log ++ [.pushed id token] := by
  simp [pushedState, asRecorded, Event.recorded]

end Views

section Outcomes
variable {env : Env} {s : State}

/-- Under which label the lookup at an admission is counted. -/
def outcome (s : State) (request : PendingRequest) (seqId : SeqId) : Option Lookup :=
  s.prefixCache.map fun cache =>
    let hit := cache.matchForReuse request.promptTokens
    if hit.hit then
      if (reusePrefix s.memory hit.seqId seqId hit.nTokens).1 then .hit else .staleDonor
    else
      .miss

def nodesOf (cache : Option PythonPrefixCache.Cache) : ℤ := cache.elim 0 fun c => c.nodeCount

/-- The metrics after an admission. -/
def admittedMetrics (env : Env) (s : State) (request : PendingRequest) (seqId : SeqId)
    (m : Metrics) : Metrics :=
  { m with
    prefillTokensReusedTotal := m.prefillTokensReusedTotal + (claimPrefix s request seqId).1
    prefixCacheLookupsTotal := (outcome s request seqId).elim m.prefixCacheLookupsTotal
      m.prefixCacheLookupsTotal.inc
    prefixCacheNodes := (s.prefixCache.map fun c => (c.insert request.promptTokens seqId).1).elim
      m.prefixCacheNodes fun c => c.nodeCount
    prefillTokensTotal := m.prefillTokensTotal + request.promptTokens.length
    queueWaitSeconds := m.queueWaitSeconds.observe (env.clock s.tick s.reads - request.arrivalTs)
    schedulerPolicyDecisionTotal := m.schedulerPolicyDecisionTotal.inc s.activePolicy.name }

/-- The metrics after a request has been finished. -/
def endedMetrics (env : Env) (s : State) (state : RequestState) (why : Option CancelReason)
    (m : Metrics) : Metrics :=
  { m with
    prefixCacheNodes := (s.prefixCache.map fun c => c.evict state.seqId).elim
      m.prefixCacheNodes fun c => c.nodeCount
    cancellationsTotal := why.elim m.cancellationsTotal
      fun reason => m.cancellationsTotal.inc reason.label
    tokensPerSecond :=
      if 0 < state.tokensEmitted ∧ env.clock s.tick s.reads - state.admittedTs ≠ 0 then
        m.tokensPerSecond.observe
          (state.tokensEmitted / (env.clock s.tick s.reads - state.admittedTs))
      else m.tokensPerSecond }

/-- The metrics after a token has been pushed. -/
def pushedMetrics (now : Time) (state : RequestState) (m : Metrics) : Metrics :=
  { m with
    ttftSeconds :=
      if state.tokensEmitted = 0 then m.ttftSeconds.observe (now - state.arrivalTs)
      else m.ttftSeconds
    interTokenLatencySeconds :=
      if state.tokensEmitted = 0 then m.interTokenLatencySeconds
      else state.lastTokenTs.elim m.interTokenLatencySeconds
        fun last => m.interTokenLatencySeconds.observe (now - last) }

/-- The lookup is on record with what the counter is told of it. -/
theorem lookupsDone_lookups (request : PendingRequest) (seqId : SeqId) :
    lookupsDone (lookups s request seqId) = (outcome s request seqId).toList := by
  cases hc : s.prefixCache with
  | none => simp [lookups, outcome, hc]
  | some c =>
    cases hhit : (c.matchForReuse request.promptTokens).hit with
    | false => simp [lookups, outcome, hc, hhit, asLookup]
    | true =>
      cases hcopy : (reusePrefix s.memory (c.matchForReuse request.promptTokens).seqId seqId
        (c.matchForReuse request.promptTokens).nTokens).1 with
      | false => simp [lookups, outcome, hc, hhit, hcopy, asLookup]
      | true => simp [lookups, outcome, hc, hhit, hcopy, asLookup]

theorem recordAdmit_eq {request : PendingRequest} {seqId : SeqId}
    (hslot : s.freeSlots.getLast? = some seqId) (m : Metrics) :
    recordAdmit env s request m = admittedMetrics env s request seqId m := by
  cases hc : s.prefixCache with
  | none => simp [recordAdmit, hslot, recordClaimPrefix, admittedMetrics, hc, outcome, claimPrefix]
  | some c =>
    cases hhit : (c.matchForReuse request.promptTokens).hit with
    | false =>
      simp [recordAdmit, hslot, recordClaimPrefix, admittedMetrics, hc, outcome, claimPrefix, hhit]
    | true =>
      cases hcopy : (reusePrefix s.memory (c.matchForReuse request.promptTokens).seqId seqId
        (c.matchForReuse request.promptTokens).nTokens).1 with
      | false =>
        simp [recordAdmit, hslot, recordClaimPrefix, admittedMetrics, hc, outcome, claimPrefix,
          hhit, hcopy]
      | true =>
        simp [recordAdmit, hslot, recordClaimPrefix, admittedMetrics, hc, outcome, claimPrefix,
          hhit, hcopy]

theorem recordFinish_eq {id : RequestId} {seq : ActiveSequence} {state : RequestState}
    (hseq : s.active.get? id = some seq) (hstate : s.requests.get? id = some state)
    (why : Option CancelReason) (m : Metrics) :
    recordFinish env s id why m = endedMetrics env s state why m := by
  have hcontains : s.active.contains id = true := by simp [Dict.contains, hseq]
  rw [recordFinish, hstate, endedMetrics]
  cases s.prefixCache <;> cases why <;> simp only [hcontains] <;> split_ifs <;> simp

theorem recordDistribute_ends {idOf : Dict SeqId RequestId} {now : Time} {seqId : SeqId}
    {token : Token} {id : RequestId} {seq : ActiveSequence} {state : RequestState}
    {why : Option CancelReason} (hid : idOf.get? seqId = some id)
    (hseq : s.active.get? id = some seq) (hstate : s.requests.get? id = some state)
    (hwhy : Ends env s now token id (decremented state) why) (m : Metrics) :
    recordDistribute env idOf now s seqId token m = endedMetrics env s state why m := by
  have hcounted : (s.requests.set id (decremented state)).get? id = some (decremented state) := by
    simp
  have hfinish : ∀ why, recordFinish env
      { s with requests := s.requests.set id (decremented state) } id why m =
        endedMetrics env s state why m := fun why =>
    @recordFinish_eq env { s with requests := s.requests.set id (decremented state) } id seq
      (decremented state) hseq hcounted why m
  rcases hwhy with ⟨hend, rfl⟩ | ⟨hgoes, ⟨hcancel, rfl⟩ | ⟨hcancel, hlate, rfl⟩⟩
  · simp only [decremented] at hend hfinish
    simp only [recordDistribute, hid, hseq, hstate, if_pos hend, hfinish]
  · simp only [decremented] at hgoes hfinish
    simp only [recordDistribute, hid, hseq, hstate, if_neg hgoes, hcancel, if_true, hfinish]
  · simp only [decremented] at hgoes hlate hfinish
    simp only [recordDistribute, hid, hseq, hstate, if_neg hgoes, hcancel, Bool.false_eq_true,
      if_false, if_pos hlate, hfinish]

theorem recordDistribute_pushes {idOf : Dict SeqId RequestId} {now : Time} {seqId : SeqId}
    {token : Token} {id : RequestId} {seq : ActiveSequence} {state : RequestState}
    (hid : idOf.get? seqId = some id) (hseq : s.active.get? id = some seq)
    (hstate : s.requests.get? id = some state)
    (hgo : Continues env s now token id (decremented state)) (m : Metrics) :
    recordDistribute env idOf now s seqId token m = pushedMetrics now state m := by
  obtain ⟨hopen, hpos, hcancel, hlate⟩ := hgo
  have hgoes : ¬ (token = env.eosToken ∨ state.remainingTokens - 1 ≤ 0) :=
    not_or.mpr ⟨hopen, not_le.mpr hpos⟩
  simp only [decremented] at hlate
  simp only [recordDistribute, hid, hseq, hstate, if_neg hgoes, hcancel, Bool.false_eq_true,
    if_false, if_neg hlate, pushedMetrics]
  cases state.lastTokenTs <;> split_ifs <;> rfl

end Outcomes

section Noted
variable {env : Env} {s s' : State} {m : Metrics} {told : List Event}

/-- Neither a request nor a token has moved; `told` is what a record is made of. -/
structure Unmoved (s s' : State) (told : List Event) : Prop where
  queue : s'.queue = s.queue
  active : s'.active = s.active
  requests : s'.requests = s.requests
  prefixCache : s'.prefixCache = s.prefixCache
  heard : recorded s'.log = recorded s.log ++ told
  dead : s.phase = .dead .zeroDivisionError → s'.phase = .dead .zeroDivisionError

/-- What a step can do to the requests and the tokens, with what it records. -/
inductive Noted (env : Env) (s : State) (m : Metrics) :
    State → Metrics → Prop where
  | quiet {s' : State} (h : Unmoved s s' []) (hi : s'.issued = s.issued) :
      Noted env s m s' m
  | tick {s' : State} (h : Unmoved s s' []) (hi : s'.issued = s.issued) :
      Noted env s m s' (recordTick s m)
  | rejected {s' : State} (id : RequestId) (reason : Rejection) (hnew : id ∉ s.issued)
      (h : Unmoved s s' [.rejected id reason]) (hi : s'.issued = id :: s.issued) :
      Noted env s m s' { m with
        admissionRejectedTotal := m.admissionRejectedTotal.inc reason }
  | accepted {s' : State} {request : PendingRequest} (hnew : request.id ∉ s.issued)
      (hfresh : request.id ∉ s.queue.pool.keys)
      (h : Unmoved { s with queue := s.queue.push request } s' [])
      (hi : s'.issued = request.id :: s.issued) :
      Noted env s m s' { m with admissionAcceptedTotal := m.admissionAcceptedTotal + 1 }
  | expired {s' : State} {request : PendingRequest}
      (hpool : s.queue.pool.get? request.id = some request)
      (h : Unmoved { s with queue := ⟨s.queue.pool.erase request.id⟩ } s' [.expired request.id])
      (hi : s'.issued = s.issued) :
      Noted env s m s' { m with
        cancellationsTotal := m.cancellationsTotal.inc .queueTimeout }
  | admitted {request : PendingRequest} {seqId : SeqId} {phase : Phase}
      (hpool : s.queue.pool.get? request.id = some request)
      (hreused : (claimPrefix s request seqId).1 +
        (if outcome s request seqId = some .hit then 1 else 0) ≤ request.promptTokens.length)
      (hlive : s.phase ≠ .dead .zeroDivisionError) :
      Noted env s m (admittedState env s request seqId phase)
        (admittedMetrics env s request seqId m)
  | decoded {s' : State} {prepared : PreparedBatch} (hp : s.phase = .decoding prepared)
      (hprep : prepared = buildBatch s.active.values env.batchCapacity env.chunkSize)
      (hkeys : s'.active.keys = s.active.keys)
      (hactive : ∀ id, s'.active.get? id = (s.active.get? id).map (consume prepared))
      (h : Unmoved { s with active := s'.active } s' []) (hi : s'.issued = s.issued) :
      Noted env s m s' (recordDecoded env s prepared m)
  | ended {s' : State} {id : RequestId} {seq : ActiveSequence} {state : RequestState}
      {why : Option CancelReason} (hseq : s.active.get? id = some seq)
      (hstate : s.requests.get? id = some state)
      (hdrained : why = some .decodeError ∨ seq.pendingTokens = [])
      (hq : s'.queue = s.queue) (ha : s'.active = s.active.erase id)
      (hr : s'.requests = s.requests.erase id)
      (hc : s'.prefixCache = s.prefixCache.map fun c => c.evict state.seqId)
      (hrecorded : recorded s'.log = recorded s.log ++ [.finished id why])
      (hdead : NoTime env s state → s'.phase = .dead .zeroDivisionError)
      (hlive : s.phase ≠ .dead .zeroDivisionError) (hi : s'.issued = s.issued) :
      Noted env s m s' (endedMetrics env s state why m)
  | pushed {id : RequestId} {seq : ActiveSequence} {state : RequestState} {now : Time}
      {token : Token} {phase : Phase} (hseq : s.active.get? id = some seq)
      (hstate : s.requests.get? id = some state) (hnil : seq.pendingTokens = [])
      (hp : ∃ idOf seqId todo, s.phase = .distributing idOf now ((seqId, token) :: todo)) :
      Noted env s m (pushedState env s id seq state now token phase)
        (pushedMetrics now state m)

theorem opens_admission (t : RequestTracer) (id : RequestId) :
    (((t.startRequest id).startSpan id .admission).openChildren).contains
      (id, SpanName.admission) = true := by
  simp [RequestTracer.startSpan, Dict.contains]

/-- What the handler of `POST /generate` does to the requests when it answers 503. -/
theorem rejected_moves {id : RequestId} {body : GenerateRequest} {reason : Rejection}
    {kvCache : KVCacheManager}
    (hr : Admission.admit_ s.kvCache env.maxQueueDepth id (env.tokenize body.prompt).length
      body.maxTokens s.queue.depth = .ok (.rejected reason, kvCache)) :
    (generate env { s with issued := id :: s.issued } id body).issued = id :: s.issued ∧
      Unmoved s (generate env { s with issued := id :: s.issued } id body)
        [.rejected id reason] := by
  have hopen := opens_admission s.tracer id
  have hnone : ∀ ended : Bool, recorded (if ended then [.rootEnded id] else []) = [] := by
    intro ended
    cases ended <;> simp [asRecorded, Event.recorded]
  refine ⟨?_, ?_, ?_, ?_, ?_, ?_, fun h => ?_⟩
  all_goals simp [generate, State.startRequest, State.startSpan, State.endSpan, State.emit,
    State.endRequest, RequestTracer.endSpan, asRecorded, Event.recorded, *]

/-- What it does to them when it takes the request in. -/
theorem accepted_moves {id : RequestId} {body : GenerateRequest} {kvCache : KVCacheManager}
    (hr : Admission.admit_ s.kvCache env.maxQueueDepth id (env.tokenize body.prompt).length
      body.maxTokens s.queue.depth = .ok (.accepted, kvCache)) :
    (generate env { s with issued := id :: s.issued } id body).issued = id :: s.issued ∧
      Unmoved { s with queue := s.queue.push (newRequest env s id body) }
        (generate env { s with issued := id :: s.issued } id body) [] := by
  have hopen := opens_admission s.tracer id
  refine ⟨?_, ?_, ?_, ?_, ?_, ?_, fun h => ?_⟩
  all_goals simp [generate, State.startRequest, State.startSpan, State.endSpan, State.emit,
    State.readClock, RequestTracer.endSpan, newRequest, asRecorded, Event.recorded, *]

theorem generate_noted {id : RequestId} {body : GenerateRequest} (hb : Books env s)
    (hnew : id ∉ s.issued) :
    Noted env s m (generate env { s with issued := id :: s.issued } id body)
      (recordGenerate env s id body m) := by
  obtain ⟨hpool, -, -, hfree⟩ := hb.unissued hnew
  obtain ⟨⟨result, kvCache⟩, hr⟩ : ∃ r, Admission.admit_ s.kvCache env.maxQueueDepth id
      (env.tokenize body.prompt).length body.maxTokens s.queue.depth = .ok r :=
    admit_fresh (Dict.get?_eq_none.mpr hfree)
  rw [recordGenerate, hr]
  cases result with
  | rejected reason =>
    obtain ⟨hi, hmoves⟩ := rejected_moves hr
    exact .rejected id reason hnew hmoves hi
  | accepted =>
    obtain ⟨hi, hmoves⟩ := accepted_moves hr
    exact .accepted hnew hpool hmoves hi

theorem Unmoved.of_log (hq : s'.queue = s.queue) (ha : s'.active = s.active)
    (hr : s'.requests = s.requests) (hc : s'.prefixCache = s.prefixCache)
    (hp : s.phase = .dead .zeroDivisionError → s'.phase = .dead .zeroDivisionError)
    {events : List Event} (hlog : s'.log = s.log ++ events) (htold : recorded events = told) :
    Unmoved s s' told := by
  refine ⟨hq, ha, hr, hc, ?_, hp⟩
  rw [hlog, recorded, view_append]
  exact congrArg _ htold

theorem Unmoved.same (hq : s'.queue = s.queue) (ha : s'.active = s.active)
    (hr : s'.requests = s.requests) (hc : s'.prefixCache = s.prefixCache) (hlog : s'.log = s.log)
    (hp : s.phase = .dead .zeroDivisionError → s'.phase = .dead .zeroDivisionError) :
    Unmoved s s' [] :=
  .of_log hq ha hr hc hp (hlog.trans (List.append_nil _).symm) rfl

/-- A hit is a lookup that spares its request some tokens. -/
theorem outcome_hit {request : PendingRequest} {seqId : SeqId} :
    outcome s request seqId = some .hit ↔ 0 < (claimPrefix s request seqId).1 := by
  cases hc : s.prefixCache with
  | none => simp [outcome, claimPrefix, hc]
  | some c =>
    cases hhit : (c.matchForReuse request.promptTokens).hit with
    | false => simp [outcome, claimPrefix, hc, hhit]
    | true =>
      have hpos : 0 < (c.matchForReuse request.promptTokens).nTokens := of_decide_eq_true hhit
      cases hcopy : (reusePrefix s.memory (c.matchForReuse request.promptTokens).seqId seqId
        (c.matchForReuse request.promptTokens).nTokens).1 with
      | false => simp [outcome, claimPrefix, hc, hhit, hcopy]
      | true => simp [outcome, claimPrefix, hc, hhit, hcopy, hpos]

/-- A hit leaves at least one token of the prompt to prefill. -/
theorem reused_room (hb : Books env s) (hc : Contents s) (ht : TreeMirrors env s)
    (hi : s.phase.intact = true) {request : PendingRequest} {seqId : SeqId}
    (hslot : s.freeSlots.getLast? = some seqId) :
    (claimPrefix s request seqId).1 +
      (if outcome s request seqId = some .hit then 1 else 0) ≤ request.promptTokens.length := by
  have hfree := hc.owned seqId fun id seq hseq => hb.free_ne (List.mem_of_getLast? hslot) hseq
  obtain ⟨-, hzero | hlt, -⟩ := hc.claimed hb hi ht request hfree
  · rw [hzero, if_neg, Nat.zero_add]
    · exact Nat.zero_le _
    · intro hhit
      have hpos := outcome_hit.mp hhit
      omega
  · split_ifs <;> omega

/-- Every step of a server is noted. -/
theorem reachable_noted (h : Reachable (step env) anything (start env) s) {l : Label}
    (hs : step env s l = some s') : Noted env s m s' (record env s l m) := by
  obtain ⟨hb, hst⟩ := reachable_books h
  have hc := reachable_contents h
  have ht := reachable_transition h hs
  have hgen : ∀ id body, l = .generate id body →
      Noted env s m s' (record env s l m) := by
    rintro id body rfl
    simp only [step] at hs
    split_ifs at hs with hg
    obtain rfl := Option.some.inj hs
    exact generate_noted hb hg.2
  cases ht with
  | rejected hw hnew => exact hgen _ _ rfl
  | accepted hw hnew hroom hres => exact hgen _ _ rfl
  | setPolicy hw => exact .quiet (.same rfl rfl rfl rfl rfl id) rfl
  | cancel hw => exact .quiet (.same rfl rfl rfl rfl rfl id) rfl
  | receive hw hr =>
    refine .quiet (.of_log rfl rfl rfl rfl id rfl ?_) rfl
    split_ifs <;> rfl
  | leave hw hl => exact .quiet (.of_log rfl rfl rfl rfl id rfl rfl) rfl
  | beginExpiry hp =>
    simp only [record, hp]
    exact .quiet (.same rfl rfl rfl rfl rfl (by simp [hp])) rfl
  | wake hp hq =>
    simp only [record, hp]
    exact .quiet (.same rfl rfl rfl rfl rfl (by simp [hp])) rfl
  | keep hp hfresh =>
    simp only [record, hp, recordExpiry, if_neg hfresh]
    exact .quiet (.same rfl rfl rfl rfl rfl (by simp [hp])) rfl
  | @expire now request todo woken hp hstale hpool =>
    have hremove : s.queue.remove request.id = some ⟨s.queue.pool.erase request.id⟩ := by
      rw [RequestQueue.remove, hpool]
      rfl
    simp only [record, hp, recordExpiry, if_pos hstale, hremove]
    refine .expired hpool (.of_log rfl rfl rfl rfl (by simp [hp]) rfl ?_) rfl
    simp [asRecorded, Event.recorded]
  | rest hp ha hq =>
    simp only [record, hp, ha, hq, and_self, if_true]
    exact .quiet (.same rfl rfl rfl rfl rfl (by simp [hp])) rfl
  | full hp hf =>
    simp only [record, hp, if_neg (awake_of_step hp hs (by simp))]
    exact .tick (.same rfl rfl rfl rfl rfl (by simp [hp])) rfl
  | select hp hf hsel =>
    simp only [record, hp, if_neg (awake_of_step hp hs (by simp))]
    exact .tick (.same rfl rfl rfl rfl rfl (by simp [hp])) rfl
  | selectRaised hp hf hsel =>
    simp only [record, hp, if_neg (awake_of_step hp hs (by simp))]
    exact .tick (.same rfl rfl rfl rfl rfl (by simp [hp])) rfl
  | @admitted request todo seqId hp hpool hslot =>
    simp only [record, hp, recordAdmit_eq hslot]
    exact .admitted hpool (reused_room hb hc (reachable_mirrors h) (by rw [hp]; rfl) hslot)
      (by simp [hp])
  | buildNothing hp hnil =>
    simp only [record, hp]
    exact .quiet (.of_log rfl rfl rfl rfl (by simp [hp]) rfl rfl) rfl
  | build hp hprep hne =>
    simp only [record, hp]
    exact .quiet (.of_log rfl rfl rfl rfl (by simp [hp]) rfl rfl) rfl
  | decoded hp hkeys hactive =>
    simp only [record, hp]
    exact .decoded hp (hst.decoding hp) hkeys hactive
      (.of_log rfl rfl rfl rfl (by simp [hp]) rfl rfl) rfl
  | decodeFailed hp =>
    simp only [record]
    exact .quiet (.same rfl rfl rfl rfl rfl (by simp [hp])) rfl
  | @finishSampled idOf now seqId token todo id seq state why hp hid hseq hstate hwhy hnt =>
    simp only [record, hp, recordDistribute_ends hid hseq hstate hwhy]
    have hslot := (hst.tail_distributing hp hid hseq).1
    have hnil := hc.drained (seqId, token) (by simp [hp, Phase.undelivered]) id seq hseq hslot
    refine .ended hseq hstate (.inr hnil) rfl rfl rfl rfl ?_ (absurd · hnt) (by simp [hp]) rfl
    simp [finishedState, asRecorded, Event.recorded]
  | @dieSampled idOf now seqId token todo id seq state why hp hid hseq hstate hwhy hnt =>
    simp only [record, hp, recordDistribute_ends hid hseq hstate hwhy]
    have hslot := (hst.tail_distributing hp hid hseq).1
    have hnil := hc.drained (seqId, token) (by simp [hp, Phase.undelivered]) id seq hseq hslot
    refine .ended hseq hstate (.inr hnil) rfl rfl rfl rfl ?_ (fun _ => rfl) (by simp [hp]) rfl
    simp [diedState, asRecorded, Event.recorded]
  | @push idOf now seqId token todo id seq state hp hid hseq hstate hgo =>
    simp only [record, hp, recordDistribute_pushes hid hseq hstate hgo]
    have hslot := (hst.tail_distributing hp hid hseq).1
    have hnil := hc.drained (seqId, token) (by simp [hp, Phase.undelivered]) id seq hseq hslot
    exact .pushed hseq hstate hnil ⟨idOf, seqId, todo, hp⟩
  | finishFailed hp hseq hstate hnt =>
    simp only [record, hp, recordFinish_eq hseq hstate]
    refine .ended hseq hstate (.inl rfl) rfl rfl rfl rfl ?_ (absurd · hnt) (by simp [hp]) rfl
    simp [finishedState, asRecorded, Event.recorded]
  | dieFailed hp hseq hstate hnt =>
    simp only [record, hp, recordFinish_eq hseq hstate]
    refine .ended hseq hstate (.inl rfl) rfl rfl rfl rfl ?_ (fun _ => rfl) (by simp [hp]) rfl
    simp [diedState, asRecorded, Event.recorded]
  | endTick hp =>
    rcases hp with ⟨idOf, now, hp⟩ | hp
    · simp only [record, hp]
      exact .quiet (.same rfl rfl rfl rfl rfl (by simp [hp])) rfl
    · simp only [record, hp]
      exact .quiet (.same rfl rfl rfl rfl rfl (by simp [hp])) rfl

end Noted

end TinyServe.BatchLoop
