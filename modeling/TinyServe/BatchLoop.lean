import TinyServe.Admission
import TinyServe.LlamaRuntime
import TinyServe.PythonPrefixCache
import TinyServe.Runs
import TinyServe.Scheduler
import TinyServe.Streaming
import TinyServe.Tracing

set_option autoImplicit false

/-!
`batch_loop` and the HTTP handlers of `api/app.py` as one machine. The loop stands at a program
point with the locals that are live there and advances one turn of a loop at a time; handlers run
whole, and only where the loop awaits. Metrics are left out, except that observing
`tokens_per_second` can raise and that the clock is read for them.
-/
namespace TinyServe.BatchLoop
open OrderedDict PrefixCacheBase BatchBuilder Admission Scheduler Streaming Tracing LlamaRuntime

/-- What a run is parametric in: settings, tokenizer, UTF-8 decoder, division and clock. -/
structure Env where
  nSeqMax : ℕ
  chunkSize : ℕ
  batchCapacity : ℕ
  maxQueueDepth : ℕ
  totalTokens : ℕ
  kvBlockSize : ℕ
  kvBlockSize_pos : 1 ≤ kvBlockSize
  prefixBlockSize : Option {b : ℕ // 1 ≤ b}
  policy : ActivePolicy
  queueTimeoutSeconds : Time
  generationTimeoutSeconds : Time
  tokenize : String → List Token
  detokenize : List Token → Bytes
  eosToken : Token
  decoder : IncrementalDecoder
  oneOver : ℕ → Except PyError ℚ
  /-- The reading of `time.monotonic()` by tick and number of readings before it. -/
  clock : ℕ → ℕ → Time

/-- `GenerateRequest`, as pydantic lets it through. -/
structure GenerateRequest where
  prompt : String
  maxTokens : ℕ
  priority : ℕ
  prompt_nonempty : 1 ≤ prompt.length
  maxTokens_pos : 0 < maxTokens
  maxTokens_le : maxTokens ≤ 4096
  priority_pos : 1 ≤ priority

/-- `_RequestState`. -/
structure RequestState where
  seqId : SeqId
  remainingTokens : ℤ
  arrivalTs : Time
  admittedTs : Time
  tokensEmitted : ℕ
  lastTokenTs : Option Time

inductive CancelReason where
  | decodeError
  | clientDisconnect
  | generationTimeout
  deriving DecidableEq

/-- What an observer of the run sees happen, in order. -/
inductive Event where
  | rejected (id : RequestId) (reason : Rejection)
  | accepted (id : RequestId)
  | expired (id : RequestId)
  | lookedUp (id : RequestId) (hit : PrefixMatch) (copied : Bool)
  | admitted (id : RequestId) (seqId : SeqId) (reused : ℕ)
  | finished (id : RequestId) (reason : Option CancelReason)
  | built (rows : List BatchRow)
  | decoded
  | sampled (id : RequestId) (token : Token)
  | pushed (id : RequestId) (token : Token)
  | enqueued (id : RequestId) (item : Item)
  | received (id : RequestId) (item : Item)
  | detached (id : RequestId)
  | released (id : RequestId)
  | rootStarted (id : RequestId)
  | rootEnded (id : RequestId)
  | spanStarted (id : RequestId) (name : SpanName)
  | spanEnded (id : RequestId) (name : SpanName)
  deriving DecidableEq

/-- Where `batch_loop` stands. -/
inductive Phase where
  | top
  | expiring (now : Time) (todo : List PendingRequest) (woken : Bool)
  | idle
  | admitting (todo : List PendingRequest)
  | decoding (prepared : PreparedBatch)
  | distributing (requestIdOf : Dict SeqId RequestId) (now : Time) (todo : List (SeqId × Token))
  | failing (todo : List RequestId)
  | dead (raised : PyError)

/-- The shared objects, the locals of `batch_loop`, and what has been seen so far. -/
structure State where
  queue : RequestQueue
  streams : StreamManager
  kvCache : KVCacheManager
  activePolicy : ActivePolicy
  prefixCache : Option PythonPrefixCache.Cache
  tracer : RequestTracer
  memory : KVMemory
  active : Dict RequestId ActiveSequence
  requests : Dict RequestId RequestState
  freeSlots : List SeqId
  phase : Phase
  tick : ℕ
  reads : ℕ
  decodeStarted : Time
  issued : List RequestId
  accepted : Dict RequestId PendingRequest
  log : List Event

/-- `range(n_seq_max)`. -/
def slots (env : Env) : List SeqId := (List.range env.nSeqMax).map Int.ofNat

/-- What `lifespan` sets up before the loop starts. -/
def start (env : Env) : State where
  queue := .init
  streams := .init
  kvCache := .init env.totalTokens env.kvBlockSize env.kvBlockSize_pos
  activePolicy := env.policy
  prefixCache := env.prefixBlockSize.map fun b => PythonPrefixCache.init b.1 b.2
  tracer := .init
  memory := .empty
  active := .empty
  requests := .empty
  freeSlots := slots env
  phase := .top
  tick := 0
  reads := 0
  decodeStarted := 0
  issued := []
  accepted := .empty
  log := []

namespace State

def emit (s : State) (events : List Event) : State := { s with log := s.log ++ events }

def goto (s : State) (phase : Phase) : State := { s with phase }

/-- The end of an iteration of `while True`. -/
def nextTick (s : State) : State := { s with phase := .top, tick := s.tick + 1 }

/-- `time.monotonic()`. -/
def readClock (env : Env) (s : State) : Time × State :=
  (env.clock s.tick s.reads, { s with reads := s.reads + 1 })

/-- `kv_cache.release`. -/
def releaseBlocks (s : State) (id : RequestId) : State :=
  let (blocks, kvCache) := s.kvCache.release id
  { s with kvCache }.emit (if blocks.isSome then [.released id] else [])

/-- `streams.push_token`. -/
def pushToken (env : Env) (s : State) (id : RequestId) (bytes : Bytes) : State :=
  let (streams, items) := s.streams.pushToken env.decoder id bytes
  { s with streams }.emit (items.map (.enqueued id))

/-- `streams.close`. -/
def closeStream (env : Env) (s : State) (id : RequestId) : State :=
  let (streams, items) := s.streams.close env.decoder id
  { s with streams }.emit (items.map (.enqueued id))

def startRequest (s : State) (id : RequestId) : State :=
  { s with tracer := s.tracer.startRequest id }.emit [.rootStarted id]

def startSpan (s : State) (id : RequestId) (name : SpanName) : State :=
  { s with tracer := s.tracer.startSpan id name }.emit [.spanStarted id name]

def endSpan (s : State) (id : RequestId) (name : SpanName) : State :=
  let (ended, tracer) := s.tracer.endSpan id name
  { s with tracer }.emit (if ended then [.spanEnded id name] else [])

def endRequest (s : State) (id : RequestId) : State :=
  let (ended, tracer) := s.tracer.endRequest id
  { s with tracer }.emit (if ended then [.rootEnded id] else [])

end State

/-- A state, and the exception that left the function if one did. -/
abbrev Outcome := State × Option PyError

/-- Continue at `phase`, or let the exception end the task. -/
def Outcome.settle (o : Outcome) (phase : Phase) : State :=
  match o.2 with
  | none => o.1.goto phase
  | some e => o.1.goto (.dead e)

/-- The handler of `POST /generate` up to its first await; `id` is the new uuid. -/
def generate (env : Env) (s : State) (id : RequestId) (body : GenerateRequest) : State :=
  let promptTokens := env.tokenize body.prompt
  let s := s.startRequest id
  let s := s.startSpan id .admission
  let result := admit_ s.kvCache env.maxQueueDepth id promptTokens.length body.maxTokens
    s.queue.depth
  let s := s.endSpan id .admission
  match result with
  | .error _ => s
  | .ok (.rejected reason, kvCache) =>
    let s := { s with kvCache }
    let s := s.endRequest id
    s.emit [.rejected id reason]
  | .ok (.accepted, kvCache) =>
    let s := { s with kvCache }
    let s := { s with streams := s.streams.create id }
    let s := s.startSpan id .queueWait
    let (arrivalTs, s) := s.readClock env
    let request := ⟨id, promptTokens, body.maxTokens, body.priority, arrivalTs⟩
    let s := { s with queue := s.queue.push request }
    { s with accepted := s.accepted.set id request }.emit [.accepted id]

/-- The handler of `POST /config/policy`; an unknown name is answered with 400. -/
def setPolicy (s : State) (name : String) : State :=
  match ActivePolicy.set name with
  | .error _ => s
  | .ok activePolicy => { s with activePolicy }

/-- `_claim_prefix`. -/
def claimPrefix (s : State) (request : PendingRequest) (seqId : SeqId) : ℕ × State :=
  match s.prefixCache with
  | none => (0, s)
  | some cache =>
    let hit := cache.matchForReuse request.promptTokens
    let (copied, memory) :=
      if hit.hit then reusePrefix s.memory hit.seqId seqId hit.nTokens else (false, s.memory)
    let reused := if copied then hit.nTokens else 0
    let s := { s with memory }.emit [.lookedUp request.id hit copied]
    (reused, { s with prefixCache := some (cache.insert request.promptTokens seqId).1 })

/-- `admit`. -/
def admit_ (env : Env) (s : State) (request : PendingRequest) : Outcome :=
  let (now, s) := s.readClock env
  match s.freeSlots.getLast? with
  | none => (s, some .indexError)
  | some seqId =>
    let s := { s with freeSlots := s.freeSlots.dropLast }
    let (nPast, s) := claimPrefix s request seqId
    let s := { s with
      active := s.active.set request.id ⟨seqId, request.promptTokens.drop nPast, nPast⟩ }
    let s := { s with
      requests := s.requests.set request.id
        ⟨seqId, request.maxTokens, request.arrivalTs, now, 0, none⟩ }
    let s := s.emit [.admitted request.id seqId nPast]
    let s := s.endSpan request.id .queueWait
    (s.startSpan request.id .generation, none)

/-- `finish`. -/
def finish (env : Env) (s : State) (id : RequestId) (cancelReason : Option CancelReason) :
    Outcome :=
  match s.requests.get? id with
  | none => (s, some .keyError)
  | some state =>
    let s := { s with requests := s.requests.erase id }
    let prefixCache := s.prefixCache.map fun cache => cache.evict state.seqId
    let s := { s with prefixCache }
    let s := { s with memory := freeSequence s.memory state.seqId }
    let s := { s with freeSlots := s.freeSlots ++ [state.seqId] }
    if s.active.contains id then
      let s := { s with active := s.active.erase id }
      let s := s.emit [.finished id cancelReason]
      let s := s.releaseBlocks id
      let s := s.closeStream env id
      let (now, s) := if 0 < state.tokensEmitted then s.readClock env else (0, s)
      if 0 < state.tokensEmitted ∧ now - state.admittedTs = 0 then
        (s, some .zeroDivisionError)
      else
        let s := s.endSpan id .generation
        (s.endRequest id, none)
    else
      (s, some .keyError)

/-- One turn of the loop of `expire_stale_waiters`. -/
def expireStaleWaiter (env : Env) (now : Time) (s : State) (request : PendingRequest) : Outcome :=
  if env.queueTimeoutSeconds < now - request.arrivalTs then
    match s.queue.remove request.id with
    | none => (s, some .keyError)
    | some queue =>
      let s := { s with queue }
      let s := s.emit [.expired request.id]
      let s := s.releaseBlocks request.id
      let s := s.closeStream env request.id
      let s := s.endSpan request.id .queueWait
      (s.endRequest request.id, none)
  else
    (s, none)

/-- The choice of who is admitted this tick. -/
def selectWaiting (env : Env) (s : State) : State :=
  if s.freeSlots = [] then
    s.goto (.admitting [])
  else
    let (policy, chosen) :=
      s.activePolicy.policy.select env.oneOver s.queue.waiting s.freeSlots.length
    let s := { s with activePolicy := { s.activePolicy with policy } }
    match chosen with
    | .error e => s.goto (.dead e)
    | .ok chosen => s.goto (.admitting chosen)

/-- One turn of the admission loop. -/
def admitNext (env : Env) (s : State) (request : PendingRequest) : Outcome :=
  match s.queue.remove request.id with
  | none => (s, some .keyError)
  | some queue => admit_ env { s with queue } request

def build (env : Env) (s : State) : State :=
  let prepared := buildBatch s.active.values env.batchCapacity env.chunkSize
  let s := s.emit [.built prepared.rows]
  if prepared.rows = [] then
    s.nextTick
  else
    let (decodeStarted, s) := s.readClock env
    { s with decodeStarted }.goto (.decoding prepared)

/-- `{state.seq_id: request_id for request_id, state in requests.items()}`. -/
def requestIdOf (requests : Dict RequestId RequestState) : Dict SeqId RequestId :=
  requests.entries.foldl (fun d e => d.set e.2.seqId e.1) .empty

/-- `distinct_seq_ids`, in some order. -/
def distinctSeqIds (prepared : PreparedBatch) : List SeqId :=
  (prepared.rows.map BatchRow.seqId).dedup

/-- The loop that moves `n_past` and `pending_tokens` past what the batch consumed. -/
def advance (prepared : PreparedBatch) (idOf : Dict SeqId RequestId) :
    List SeqId → Dict RequestId ActiveSequence → Dict RequestId ActiveSequence × Option PyError
  | [], active => (active, none)
  | seqId :: rest, active =>
    match (idOf.get? seqId).bind fun id => (active.get? id).map (id, ·) with
    | none => (active, some .keyError)
    | some (id, seq) =>
      let consumed := prepared.rowCount seqId
      advance prepared idOf rest (active.set id { seq with
        nPast := seq.nPast + consumed
        pendingTokens := seq.pendingTokens.drop consumed })

/-- From the return of `runtime.decode` to the distribution of what it sampled. -/
def decoded (env : Env) (s : State) (prepared : PreparedBatch) (sample : ℕ → Token)
    (order : List SeqId) : State :=
  let s := { s with memory := decode s.memory prepared }.emit [.decoded]
  -- The first of the two readings is for `decode_step_duration_seconds`.
  let (_, s) := s.readClock env
  let idOf := requestIdOf s.requests
  let (active, raised) := advance prepared idOf order s.active
  let s := { s with active }
  match raised with
  | some e => s.goto (.dead e)
  | none =>
    let (now, s) := s.readClock env
    s.goto (.distributing idOf now (sampled sample prepared).entries)

/-- One turn of the distribution loop. -/
def distribute (env : Env) (idOf : Dict SeqId RequestId) (now : Time) (s : State) (seqId : SeqId)
    (token : Token) : Outcome :=
  match idOf.get? seqId with
  | none => (s, some .keyError)
  | some id =>
    match s.active.get? id, s.requests.get? id with
    | some seq, some state =>
      let state : RequestState := { state with remainingTokens := state.remainingTokens - 1 }
      let s := { s with requests := s.requests.set id state }.emit [.sampled id token]
      if token = env.eosToken ∨ state.remainingTokens ≤ 0 then
        finish env s id none
      else if s.streams.isCancelled id then
        finish env s id (some .clientDisconnect)
      else if env.generationTimeoutSeconds < now - state.admittedTs then
        finish env s id (some .generationTimeout)
      else
        let state : RequestState := { state with
          tokensEmitted := state.tokensEmitted + 1
          lastTokenTs := some now }
        let s := { s with requests := s.requests.set id state }.emit [.pushed id token]
        let s := s.pushToken env id (env.detokenize [token])
        ({ s with active := s.active.set id { seq with pendingTokens := [token] } }, none)
    | _, _ => (s, some .keyError)

/-- What the loop does next by itself; `none` where it awaits or is dead. -/
def iterate (env : Env) (s : State) : Option State :=
  match s.phase with
  | .top =>
    let (now, s) := s.readClock env
    some (s.goto (.expiring now s.queue.waiting false))
  | .expiring now (request :: todo) woken =>
    some ((expireStaleWaiter env now s request).settle (.expiring now todo woken))
  | .expiring _ [] woken =>
    if woken = false ∧ s.active.size = 0 ∧ s.queue.depth = 0 then
      some (s.goto .idle)
    else
      some (selectWaiting env s)
  | .idle =>
    if s.queue.depth = 0 then
      none
    else
      let (now, s) := s.readClock env
      some (s.goto (.expiring now s.queue.waiting true))
  | .admitting (request :: todo) => some ((admitNext env s request).settle (.admitting todo))
  | .admitting [] => some (build env s)
  | .decoding _ => none
  | .distributing idOf now ((seqId, token) :: todo) =>
    some ((distribute env idOf now s seqId token).settle (.distributing idOf now todo))
  | .distributing _ _ [] => some s.nextTick
  | .failing (id :: todo) =>
    some ((finish env s id (some .decodeError)).settle (.failing todo))
  | .failing [] => some s.nextTick
  | .dead _ => none

/-- Who moves. -/
inductive Label where
  | loop
  | decoded (sample : ℕ → Token) (order : List SeqId)
  | decodeFailed (left : List ((SeqId × ℕ) × Token))
  | generate (id : RequestId) (body : GenerateRequest)
  | setPolicy (name : String)
  | cancel (id : RequestId)
  | receive (id : RequestId)
  | leave (id : RequestId)

/-- Handlers run where the loop awaits, and after it died; at the top of a tick they are let in even
where the tick before did not await. -/
def Phase.awaiting : Phase → Bool
  | .top => true
  | .idle => true
  | .decoding _ => true
  | .dead _ => true
  | _ => false

/-- One step of the whole server; `none` where the label cannot move. -/
def step (env : Env) (s : State) (label : Label) : Option State :=
  match label with
  | .loop => iterate env s
  | .decoded sample order =>
    match s.phase with
    | .decoding prepared =>
      if order.isPerm (distinctSeqIds prepared) then
        some (decoded env s prepared sample order)
      else
        none
    | _ => none
  | .decodeFailed left =>
    match s.phase with
    | .decoding prepared =>
      some ({ s with memory := decodeFailed s.memory prepared left }.goto
        (.failing s.requests.keys))
    | _ => none
  | .generate id body =>
    if s.phase.awaiting ∧ id ∉ s.issued then
      some (generate env { s with issued := id :: s.issued } id body)
    else
      none
  | .setPolicy name => if s.phase.awaiting then some (setPolicy s name) else none
  | .cancel id =>
    if s.phase.awaiting then some { s with streams := s.streams.cancel id } else none
  | .receive id =>
    if s.phase.awaiting then
      (s.streams.receive id).map fun (item, streams) =>
        { s with streams }.emit
          (if item = Item.endOfStream then [.received id item, .detached id] else [.received id item])
    else
      none
  | .leave id =>
    if s.phase.awaiting ∧ s.streams.streams.contains id then
      some ({ s with streams := s.streams.leave id }.emit [.detached id])
    else
      none

end TinyServe.BatchLoop
