import TinyServe.BatchLoopCancel
import TinyServe.BatchLoopDrain
import TinyServe.BatchLoopText

set_option autoImplicit false

/-!
The handlers of `POST /generate` await by await, beside the loop: the generator of `_sse_events`
with the `subscribe` it iterates, and the comprehension that collects a response. The server of the
loop alone lets anyone take, cancel or leave any stream; here only the handler of a request does.
-/
namespace TinyServe.BatchLoop
open OrderedDict Streaming Scheduler Runs

/-- Where a handler is suspended, or what has become of it. -/
inductive Handler where
  /-- The response has its generator, which nobody iterated yet. -/
  | unstarted
  /-- In `subscribe`, at the `get` of its queue. -/
  | listening
  /-- At `is_disconnected`, with the text in hand. -/
  | checking (text : String)
  /-- At its `yield`, while the event is sent. -/
  | sending
  /-- Dropped with `subscribe` at its `yield`, of which the `finally` is still to run. -/
  | dropped
  /-- Closed by the end marker. -/
  | finished
  /-- Closed before the end marker. -/
  | stopped
  /-- Dropped before it was ever iterated, so that it runs no `finally`. -/
  | abandoned
  | raised (e : PyError)
  deriving DecidableEq

/-- The entry of its stream is still in the table. -/
def Handler.attached : Handler → Bool
  | .unstarted | .listening | .checking _ | .sending | .dropped | .abandoned => true
  | .finished | .stopped | .raised _ => false

/-- The handler of one request: whether it streams, and the texts it has yielded or collected. -/
structure Task where
  stream : Bool
  handler : Handler
  chunks : List String

/-- The loop, the handlers of the accepted requests, and the requests whose clients are gone. -/
structure App where
  server : State
  tasks : Dict RequestId Task
  gone : List RequestId

/-- Who moves: the server by itself, a client that posts a request or hangs up, a handler at its
await, or who cancels the task of a response. -/
inductive Move where
  | server (label : Label)
  | post (id : RequestId) (body : GenerateRequest) (stream : Bool)
  | resume (id : RequestId) (disconnected : Bool)
  | hangUp (id : RequestId)
  | tearDown (id : RequestId)

def Move.resumes : Move → Bool
  | .resume _ _ => true
  | _ => false

/-- Neither a request nor what is done to its stream. -/
def Label.apart : Label → Bool
  | .loop | .decoded _ _ | .decodeFailed _ | .setPolicy _ => true
  | _ => false

section Untouched
variable {env : Env} {s s' : State} {id : RequestId} {label : Label}

/-- What a step that does nothing to the stream of a request keeps of it. A request that such a step
ends for its client was cancelled before. -/
structure Untouched (s s' : State) (id : RequestId) : Prop where
  there : s'.streams.streams.contains id = s.streams.streams.contains id
  flag : s'.streams.isCancelled id = s.streams.isCancelled id
  taken : taken s'.log id = taken s.log id
  closed : ¬ Holding s id → ¬ Holding s' id
  cut : some .clientDisconnect ∈ finishes s'.log id →
    some .clientDisconnect ∈ finishes s.log id ∨ Holding s id ∧ s.streams.isCancelled id = true

/-- The label is of the request or of its stream. -/
def Label.concerns (id : RequestId) : Label → Bool
  | .generate j _ | .cancel j | .receive j | .leave j => j = id
  | _ => false

theorem Untouched.refl (s : State) (id : RequestId) : Untouched s s id :=
  ⟨rfl, rfl, rfl, fun h => h, .inl⟩

theorem Untouched.silent {events : List Event} (hlog : s'.log = s.log ++ events)
    (hev : BatchLoop.taken events id = [] ∧ finishes events id = [])
    (hthere : s'.streams.streams.contains id = s.streams.streams.contains id)
    (hflag : s'.streams.isCancelled id = s.streams.isCancelled id)
    (hover : ¬ Holding s id → ¬ Holding s' id) : Untouched s s' id := by
  refine ⟨hthere, hflag, ?_, hover, fun hcut => .inl ?_⟩
  · rw [hlog, BatchLoop.taken, view_append, ← BatchLoop.taken, ← BatchLoop.taken, hev.1,
      List.append_nil]
  · rw [hlog, finishes, view_append, ← finishes, ← finishes, hev.2, List.append_nil] at hcut
    exact hcut

/-- A call on the stream of another request. -/
theorem Untouched.elsewhere (env : Env) {events : List Event} (call : Streaming.Label)
    (hid : call.id ≠ id) (hcall : Streaming.step env.decoder s.streams call = some s'.streams)
    (hlog : s'.log = s.log ++ events)
    (hev : BatchLoop.taken events id = [] ∧ finishes events id = [])
    (hover : ¬ Holding s id → ¬ Holding s' id) : Untouched s s' id := by
  have hget := step_other hcall hid
  refine .silent hlog hev ?_ ?_ hover
  · rw [Dict.contains, hget]
    rfl
  · rw [StreamManager.isCancelled, hget]
    rfl

/-- A step that closes the stream of a request for a reason. -/
theorem Untouched.closes {events : List Event} {j : RequestId} (why : Option CancelReason)
    (hlog : s'.log = s.log ++ events) (htaken : BatchLoop.taken events id = [])
    (hfin : finishes events id = if j = id then [why] else [])
    (hthere : s'.streams.streams.contains id = s.streams.streams.contains id)
    (hflag : s'.streams.isCancelled id = s.streams.isCancelled id)
    (hover : ¬ Holding s id → ¬ Holding s' id) (hin : Holding s j)
    (hwhy : why = some .clientDisconnect → s.streams.isCancelled j = true) :
    Untouched s s' id := by
  refine ⟨hthere, hflag, ?_, hover, fun hcut => ?_⟩
  · rw [hlog, BatchLoop.taken, view_append, ← BatchLoop.taken, ← BatchLoop.taken, htaken,
      List.append_nil]
  · rw [hlog, finishes, view_append, ← finishes, ← finishes, hfin, List.mem_append] at hcut
    rcases hcut with hold | hnew
    · exact .inl hold
    · split_ifs at hnew with hj
      · exact .inr ⟨hj ▸ hin, hj ▸ hwhy (List.mem_singleton.mp hnew).symm⟩
      · simp at hnew

theorem Ends.cancelled {now : Time} {token : Token} {state : RequestState}
    (h : Ends env s now token id state (some .clientDisconnect)) :
    s.streams.isCancelled id = true := by
  rcases h with ⟨-, hwhy⟩ | ⟨-, ⟨hflag, -⟩ | ⟨-, -, hwhy⟩⟩
  · simp at hwhy
  · exact hflag
  · simp at hwhy

theorem Transition.untouched (hb : Books env s) (ht : Transition env s label s')
    (hl : label.concerns id = false) (hacc : id ∈ s.accepted.keys) : Untouched s s' id := by
  have hnil : s.log = s.log ++ [] := (List.append_nil _).symm
  have hover := gone_transition hb ht hacc
  cases ht with
  | rejected hw hnew =>
    exact .silent rfl ⟨by simp [asReceived], by simp [asFinished]⟩ rfl rfl hover
  | @accepted j body kvCache hw hnew hroom hres =>
    have hj : j ≠ id := by simpa [Label.concerns] using hl
    exact .elsewhere env (.create j) hj rfl rfl
      ⟨by simp [asReceived], by simp [asFinished]⟩ hover
  | @cancel j hw =>
    have hj : j ≠ id := by simpa [Label.concerns] using hl
    exact .elsewhere env (.cancel j) hj rfl hnil ⟨rfl, rfl⟩ hover
  | @receive j item streams hw hr =>
    have hj : j ≠ id := by simpa [Label.concerns] using hl
    refine .elsewhere env (.receive j item) hj (by simp [Streaming.step, hr]) rfl ?_ hover
    constructor
    · split_ifs <;> simp [asReceived, hj]
    · split_ifs <;> simp [asFinished]
  | @leave j hw hthere =>
    have hj : j ≠ id := by simpa [Label.concerns] using hl
    exact .elsewhere env (.leave j) hj rfl rfl
      ⟨by simp [asReceived], by simp [asFinished]⟩ hover
  | expire hp hstale hpool =>
    exact .silent rfl ⟨by simp [asReceived], by simp [asFinished]⟩ (contains_close id)
      (isCancelled_close id) hover
  | admitted hp hpool hslot =>
    exact .silent rfl ⟨by simp [asReceived], by simp [asFinished]⟩ rfl rfl hover
  | buildNothing | build | decoded =>
    exact .silent rfl ⟨by simp [asReceived], by simp [asFinished]⟩ rfl rfl hover
  | @finishSampled idOf now seqId token todo j seq state why hp hid hseq hstate hwhy
  | @dieSampled idOf now seqId token todo j seq state why hp hid hseq hstate hwhy =>
    refine .closes why rfl (by simp [asReceived]) ?_ (contains_close id) (isCancelled_close id)
      hover (.inr (Dict.mem_keys.mpr ⟨seq, hseq⟩)) (by rintro rfl; exact hwhy.cancelled)
    by_cases hj : j = id <;> simp [asFinished, hj]
  | @finishFailed j todo seq state hp hseq | @dieFailed j todo seq state hp hseq =>
    refine .closes (some .decodeError) rfl (by simp [asReceived]) ?_ (contains_close id)
      (isCancelled_close id) hover (.inr (Dict.mem_keys.mpr ⟨seq, hseq⟩)) (by simp)
    by_cases hj : j = id <;> simp [asFinished, hj]
  | push hp hid hseq hstate hgo =>
    exact .silent rfl ⟨by simp [asReceived], by simp [asFinished]⟩ (contains_pushToken _ id)
      (isCancelled_pushToken _ id) hover
  | _ => exact .silent hnil ⟨rfl, rfl⟩ rfl rfl hover

end Untouched

namespace App

def start (env : Env) : App := ⟨BatchLoop.start env, .empty, []⟩

def put (x : App) (id : RequestId) (task : Task) : App := { x with tasks := x.tasks.set id task }

/-- The answer to `generate`, once it knows whether the request is accepted. -/
def answer (x : App) (server : State) (id : RequestId) (stream : Bool) : App :=
  if server.accepted.contains id then
    { x with server }.put id ⟨stream, if stream then .unstarted else .listening, []⟩
  else
    { x with server }

/-- `self._streams.pop(request_id, None)`. -/
def pop (env : Env) (x : App) (id : RequestId) : App :=
  { x with server := (BatchLoop.step env x.server (.leave id)).getD x.server }

/-- The next item of `subscribe`, taken by whoever iterates it. -/
def take (task : Task) : Item → Task
  | .endOfStream => { task with handler := .finished }
  | .text text =>
    if task.stream then { task with handler := .checking text }
    else { task with chunks := task.chunks ++ [text] }

/-- From where a handler awaits to its next await; a disconnect is only seen of a client that is
gone. -/
def resume (env : Env) (x : App) (id : RequestId) (task : Task) (disconnected : Bool) :
    Option App :=
  match task.handler with
  | .unstarted =>
    if x.server.streams.streams.contains id then
      some (x.put id { task with handler := .listening })
    else
      some (x.put id { task with handler := .raised .keyError })
  | .listening =>
    (x.server.streams.receive id).bind fun r =>
      (BatchLoop.step env x.server (.receive id)).map fun server =>
        { x with server }.put id (take task r.1)
  | .checking text =>
    if disconnected = false then
      some (x.put id { task with handler := .sending, chunks := task.chunks ++ [text] })
    else if id ∈ x.gone then
      (BatchLoop.step env x.server (.cancel id)).map fun server =>
        { x with server }.put id { task with handler := .dropped }
    else
      none
  | .sending => some (x.put id { task with handler := .listening })
  | .dropped => some ((x.pop env id).put id { task with handler := .stopped })
  | _ => none

/-- The task of a streaming response is cancelled where it awaits. -/
def tearDown (env : Env) (x : App) (id : RequestId) (task : Task) : Option App :=
  if task.stream then
    match task.handler with
    | .unstarted => some (x.put id { task with handler := .abandoned })
    | .listening => some ((x.pop env id).put id { task with handler := .stopped })
    | .checking _ | .sending => some (x.put id { task with handler := .dropped })
    | _ => none
  else
    none

def step (env : Env) (x : App) : Move → Option App
  | .server label =>
    if label.apart then (BatchLoop.step env x.server label).map fun server => { x with server }
    else none
  | .post id body stream =>
    (BatchLoop.step env x.server (.generate id body)).map fun server => x.answer server id stream
  | .resume id disconnected =>
    if x.server.phase.awaiting then
      (x.tasks.get? id).bind fun task => x.resume env id task disconnected
    else
      none
  | .hangUp id => some { x with gone := id :: x.gone }
  | .tearDown id =>
    if x.server.phase.awaiting ∧ id ∈ x.gone then
      (x.tasks.get? id).bind fun task => x.tearDown env id task
    else
      none

section Refined
variable {env : Env} {x x' : App} {allowed : State → Label → Prop}

theorem pop_server (env : Env) (x : App) (id : RequestId) :
    (x.pop env id).server = x.server ∨
      BatchLoop.step env x.server (.leave id) = some (x.pop env id).server := by
  unfold pop
  cases h : BatchLoop.step env x.server (.leave id) with
  | none => exact .inl rfl
  | some server => exact .inr rfl

theorem resume_server {id : RequestId} {task : Task} {disconnected : Bool}
    (h : x.resume env id task disconnected = some x') :
    x'.server = x.server ∨
      ∃ label, label.own = false ∧ BatchLoop.step env x.server label = some x'.server := by
  unfold resume at h
  split at h
  · split_ifs at h <;> obtain rfl := Option.some.inj h <;> exact .inl rfl
  · obtain ⟨r, -, h⟩ := Option.bind_eq_some_iff.mp h
    obtain ⟨server, hserver, rfl⟩ := Option.map_eq_some_iff.mp h
    exact .inr ⟨_, rfl, hserver⟩
  · split_ifs at h
    · obtain rfl := Option.some.inj h
      exact .inl rfl
    · obtain ⟨server, hserver, rfl⟩ := Option.map_eq_some_iff.mp h
      exact .inr ⟨_, rfl, hserver⟩
  · obtain rfl := Option.some.inj h
    exact .inl rfl
  · obtain rfl := Option.some.inj h
    exact (pop_server env x id).imp_right fun hs => ⟨_, rfl, hs⟩
  · simp at h

theorem tearDown_server {id : RequestId} {task : Task} (h : x.tearDown env id task = some x') :
    x'.server = x.server ∨
      ∃ label, label.own = false ∧ BatchLoop.step env x.server label = some x'.server := by
  unfold tearDown at h
  split at h
  · split at h
    · obtain rfl := Option.some.inj h
      exact .inl rfl
    · obtain rfl := Option.some.inj h
      exact (pop_server env x id).imp_right fun hs => ⟨_, rfl, hs⟩
    · obtain rfl := Option.some.inj h
      exact .inl rfl
    · obtain rfl := Option.some.inj h
      exact .inl rfl
    · simp at h
  · simp at h

/-- Whatever moves, the server makes one of its steps or none. -/
theorem step_server {move : Move} (h : step env x move = some x') :
    x'.server = x.server ∨ ∃ label, (move = .server label ∨ label.own = false) ∧
      BatchLoop.step env x.server label = some x'.server := by
  have hclient : ∀ {y : App}, (y.server = x.server ∨
      ∃ label, label.own = false ∧ BatchLoop.step env x.server label = some y.server) →
      y.server = x.server ∨ ∃ label, (move = .server label ∨ label.own = false) ∧
        BatchLoop.step env x.server label = some y.server := by
    rintro y (hsame | ⟨label, hown, hs⟩)
    · exact .inl hsame
    · exact .inr ⟨label, .inr hown, hs⟩
  cases move with
  | server label =>
    simp only [step] at h
    split_ifs at h
    obtain ⟨server, hserver, rfl⟩ := Option.map_eq_some_iff.mp h
    exact .inr ⟨label, .inl rfl, hserver⟩
  | post id body stream =>
    obtain ⟨server, hserver, rfl⟩ := Option.map_eq_some_iff.mp h
    refine .inr ⟨.generate id body, .inr rfl, ?_⟩
    unfold answer
    split_ifs <;> exact hserver
  | resume id disconnected =>
    simp only [step] at h
    split_ifs at h
    obtain ⟨task, -, hresume⟩ := Option.bind_eq_some_iff.mp h
    exact hclient (resume_server hresume)
  | hangUp id =>
    obtain rfl := Option.some.inj h
    exact .inl rfl
  | tearDown id =>
    simp only [step] at h
    split_ifs at h
    obtain ⟨task, -, htear⟩ := Option.bind_eq_some_iff.mp h
    exact hclient (tearDown_server htear)

/-- The server under its handlers is the server of the loop alone. -/
theorem reachable_server (hfree : ∀ s label, label.own = false → allowed s label)
    (h : Reachable (step env) (fun x move => ∀ label, move = .server label → allowed x.server label)
      (start env) x) :
    Reachable (BatchLoop.step env) allowed (BatchLoop.start env) x.server := by
  refine @Reachable.refines _ _ (BatchLoop.step env) allowed (BatchLoop.start env) _ _ (step env) _
    (start env) App.server rfl (fun x move x' _ hok hs => ?_) x h
  rcases step_server hs with hsame | ⟨label, hwho, hserver⟩
  · exact .inl hsame
  · exact .inr ⟨label, hwho.elim (hok label) (hfree _ _), hserver⟩

end Refined

section Kept
variable {env : Env} {s s' : State} {x x' : App} {gone gone' : List RequestId} {id : RequestId}
  {task : Task}

/-- What has been taken of a stream is what its handler has yielded, and the text that it has in
hand or was dropped with. -/
def Explains (task : Task) (items : List Item) : Prop :=
  match task.handler with
  | .unstarted | .abandoned => task.chunks = [] ∧ items = []
  | .listening | .sending => items = task.chunks.map .text
  | .checking text => items = (task.chunks ++ [text]).map .text
  | .dropped | .stopped => ∃ held, items = (task.chunks ++ held).map .text ∧ held.length ≤ 1
  | .finished => items = task.chunks.map .text ++ [.endOfStream]
  | .raised _ => False

/-- Suspended where only the handler of a response that streams can be. -/
def streaming : Handler → Bool
  | .unstarted | .checking _ | .sending => true
  | _ => false

theorem explains_texts {items : List Item} (h : Explains task items)
    (hf : task.handler ≠ .finished) :
    ∃ held : List String, held.length ≤ 1 ∧ items = (task.chunks ++ held).map .text := by
  unfold Explains at h
  split at h
  · exact ⟨[], Nat.zero_le 1, by simp [h.1, h.2]⟩
  · exact ⟨[], Nat.zero_le 1, by simp [h.1, h.2]⟩
  · exact ⟨[], Nat.zero_le 1, by simp [h]⟩
  · exact ⟨[], Nat.zero_le 1, by simp [h]⟩
  · exact ⟨[_], le_rfl, h⟩
  · obtain ⟨held, hitems, hone⟩ := h
    exact ⟨held, hone, hitems⟩
  · obtain ⟨held, hitems, hone⟩ := h
    exact ⟨held, hone, hitems⟩
  · exact absurd ‹_› hf
  · exact h.elim

/-- Dropped for the sake of its client. -/
def dropped : Handler → Bool
  | .dropped | .stopped | .abandoned => true
  | _ => false

structure Answers (s : State) (gone : List RequestId) (id : RequestId) (task : Task) : Prop where
  items : Explains task (taken s.log id)
  there : s.streams.streams.contains id = task.handler.attached
  flag : s.streams.isCancelled id = true → dropped task.handler = true ∨ task.handler = .finished
  left : dropped task.handler = true → task.stream = true ∧ id ∈ gone
  blocking : task.stream = false → task.handler = .listening ∨ task.handler = .finished
  ended : task.handler = .finished → ¬ Holding s id
  cut : some .clientDisconnect ∈ finishes s.log id → task.stream = true ∧ id ∈ gone

theorem Answers.untouched (h : Answers s gone id task) (hu : Untouched s s' id)
    (hgone : gone ⊆ gone') : Answers s' gone' id task where
  items := hu.taken ▸ h.items
  there := hu.there.trans h.there
  flag hc := h.flag (hu.flag ▸ hc)
  left hd := (h.left hd).imp_right fun hin => hgone hin
  blocking := h.blocking
  ended hf := hu.closed (h.ended hf)
  cut hc := by
    rcases hu.cut hc with hold | ⟨hin, hflag⟩
    · exact (h.cut hold).imp_right fun hin => hgone hin
    · rcases h.flag hflag with hd | hf
      · exact (h.left hd).imp_right fun hin => hgone hin
      · exact absurd hin (h.ended hf)

/-- Every accepted request has its handler. -/
structure Attended (x : App) : Prop where
  known : ∀ id, id ∈ x.tasks.keys ↔ id ∈ x.server.accepted.keys
  answers : ∀ id task, x.tasks.get? id = some task → Answers x.server x.gone id task

theorem attended_start (env : Env) : Attended (start env) where
  known _ := Iff.rfl
  answers _ _ h := by simp [start] at h

theorem Attended.known_of (h : Attended x) (ht : x.tasks.get? id = some task) :
    id ∈ x.server.accepted.keys := (h.known id).mp (Dict.mem_keys.mpr ⟨task, ht⟩)

theorem Attended.put (h : Attended x)
    (hacc : ∀ j, j ∈ s'.accepted.keys ↔ j = id ∨ j ∈ x.server.accepted.keys)
    (hothers : ∀ j ∈ x.server.accepted.keys, j ≠ id → Untouched x.server s' j)
    (hself : Answers s' x.gone id task) : Attended ({ x with server := s' }.put id task) where
  known j := by
    show j ∈ (x.tasks.set id task).keys ↔ j ∈ s'.accepted.keys
    rw [hacc, Dict.mem_keys_set]
    exact or_congr_right (h.known j)
  answers j other hother := by
    have hget : (x.tasks.set id task).get? j = some other := hother
    rw [Dict.get?_set] at hget
    split_ifs at hget with hj
    · obtain rfl := Option.some.inj hget
      exact hj ▸ hself
    · have hold := h.answers j other hget
      exact hold.untouched (hothers j (h.known_of hget) (Ne.symm hj)) (List.Subset.refl _)

/-- A move of one handler at its own stream. -/
theorem Attended.touch (h : Attended x) (hr : Reachable (BatchLoop.step env) anything
    (BatchLoop.start env) x.server) {task' : Task} (ht : x.tasks.get? id = some task)
    {label : Label} (hl : label.arrival = false) (hid : ∀ j, j ≠ id → label.concerns j = false)
    (hs : BatchLoop.step env x.server label = some s') (hself : Answers s' x.gone id task') :
    Attended ({ x with server := s' }.put id task') := by
  have htrans := reachable_transition hr hs
  refine h.put (fun j => ?_) (fun j hj hne => ?_) hself
  · rw [accepted_kept htrans hl]
    exact (or_iff_right_of_imp fun hj => hj ▸ h.known_of ht).symm
  · exact htrans.untouched (reachable_books hr).1 (hid j hne) hj

theorem Answers.streams (h : Answers s gone id task) (hlive : streaming task.handler = true) :
    task.stream = true := by
  by_contra hno
  rcases h.blocking (Bool.eq_false_of_not_eq_true hno) with hh | hh
  · simp [hh, streaming] at hlive
  · simp [hh, streaming] at hlive

/-- The handler of a streaming response goes on without touching its stream. -/
theorem Answers.moved (h : Answers s gone id task) {handler : Handler} {chunks : List String}
    (hlive : streaming task.handler = true) (hthere : handler.attached = true)
    (hitems : Explains ⟨task.stream, handler, chunks⟩ (taken s.log id))
    (hleft : dropped handler = true → id ∈ gone) :
    Answers s gone id ⟨task.stream, handler, chunks⟩ where
  items := hitems
  there := by
    rw [h.there, hthere]
    cases hh : task.handler <;> simp [hh, streaming] at hlive <;> rfl
  flag hc := by
    rcases h.flag hc with hd | hf
    · cases hh : task.handler <;> simp [hh, streaming] at hlive <;> simp [hh, dropped] at hd
    · simp [hf, streaming] at hlive
  left hd := ⟨h.streams hlive, hleft hd⟩
  blocking hb := by
    rw [h.streams hlive] at hb
    simp at hb
  ended hf := by
    have hend : handler = .finished := hf
    simp [hend, Handler.attached] at hthere
  cut := h.cut

theorem Attended.moved (h : Attended x) (ht : x.tasks.get? id = some task) {handler : Handler}
    {chunks : List String} (hlive : streaming task.handler = true)
    (hthere : handler.attached = true)
    (hitems : Explains ⟨task.stream, handler, chunks⟩ (taken x.server.log id))
    (hleft : dropped handler = true → id ∈ x.gone) :
    Attended (x.put id ⟨task.stream, handler, chunks⟩) := by
  have hself := (h.answers id task ht).moved hlive hthere hitems hleft
  refine @Attended.put x.server x id _ h (fun j => ?_) (fun j _ _ => .refl _ j) hself
  exact (or_iff_right_of_imp fun hj => hj ▸ h.known_of ht).symm

/-- The `finally` of a `subscribe` that was left early. -/
theorem Answers.popped {chunks : List String} (hgone : task.stream = true ∧ id ∈ gone)
    (hitems : Explains ⟨task.stream, .stopped, chunks⟩ (taken s.log id)) :
    Answers ({ s with streams := s.streams.leave id }.emit [.detached id]) gone id
      ⟨task.stream, .stopped, chunks⟩ where
  items := by
    show Explains _ (taken (s.log ++ [.detached id]) id)
    rw [taken, view_append, ← taken]
    simpa [asReceived] using hitems
  there := by
    have hgone := (@contains_leave s.streams id id).not.mpr fun hl => hl.1 rfl
    exact Bool.eq_false_of_not_eq_true hgone
  flag _ := .inl rfl
  left _ := hgone
  blocking hb := by
    rw [hgone.1] at hb
    simp at hb
  ended hf := by simp at hf
  cut _ := hgone

/-- The request is cancelled by who sees that its client is gone. -/
theorem Answers.cancelled (h : Answers s gone id task) (hthere : task.handler.attached = true)
    {chunks : List String} (hgone : task.stream = true ∧ id ∈ gone)
    (hitems : Explains ⟨task.stream, .dropped, chunks⟩ (taken s.log id)) :
    Answers { s with streams := s.streams.cancel id } gone id ⟨task.stream, .dropped, chunks⟩ where
  items := hitems
  there := (contains_cancel id).trans (h.there.trans hthere)
  flag _ := .inl rfl
  left _ := hgone
  blocking hb := by
    rw [hgone.1] at hb
    simp at hb
  ended hf := by simp at hf
  cut _ := hgone

theorem isCancelled_text {m m' : StreamManager} {text : String}
    (h : m.receive id = some (.text text, m')) (j : RequestId) :
    m'.isCancelled j = m.isCancelled j := by
  unfold StreamManager.receive at h
  split at h
  · rename_i next rest decoded cancelled hstream
    obtain ⟨rfl, rfl⟩ := Prod.mk.inj (Option.some.inj h)
    exact isCancelled_put_of_some hstream (by rfl) j
  · simp at h

/-- The end marker is only put on the stream of a request that has ended. -/
theorem ended_of_taken (hr : Reachable (BatchLoop.step env) anything (BatchLoop.start env) s)
    (hid : id ∈ s.accepted.keys) (hend : Item.endOfStream ∈ taken s.log id) : ¬ Holding s id := by
  obtain ⟨m, calls, hfollows, hserved⟩ := (reachable_contracted hr).served hid
  rw [← hfollows.items] at hend
  cases hserved with
  | live stream entry decoded queued more stays => exact absurd hend more
  | ended entry closed all => exact hfollows.closed.mp closed
  | left entry leaves more => exact absurd hend more

/-- The next item of its stream. -/
theorem Answers.took (h : Answers s gone id task) (hl : task.handler = .listening) {item : Item}
    {streams : StreamManager} (hrec : s.streams.receive id = some (item, streams))
    (hs : s' = { s with streams }.emit (if item = Item.endOfStream then
      [.received id item, .detached id] else [.received id item]))
    (hended : Item.endOfStream ∈ taken s'.log id → ¬ Holding s' id) :
    Answers s' gone id (take task item) := by
  have hitems : taken s'.log id = task.chunks.map .text ++ [item] := by
    have hold := h.items
    rw [Explains, hl] at hold
    rw [hs, State.emit, taken, view_append, ← taken, hold]
    split_ifs <;> simp [asReceived]
  have hfin : finishes s'.log id = finishes s.log id := by
    rw [hs, State.emit, finishes, view_append]
    split_ifs <;> simp [asFinished]
  have hstreams : s'.streams = streams := by rw [hs]; rfl
  have hthere : s'.streams.streams.contains id = decide (item ≠ .endOfStream) := by
    obtain ⟨hin, hiff⟩ := contains_receive hrec id
    rw [hstreams, Bool.eq_iff_iff, hiff]
    simp [hin]
  have hcut : some .clientDisconnect ∈ finishes s'.log id → task.stream = true ∧ id ∈ gone :=
    fun hc => h.cut (hfin ▸ hc)
  cases item with
  | endOfStream =>
    exact ⟨hitems, hthere, fun _ => .inr rfl, by simp [take, dropped], fun _ => .inr rfl,
      fun _ => hended (by simp [hitems]), hcut⟩
  | text text =>
    have hflag : s'.streams.isCancelled id = false := by
      rw [hstreams, isCancelled_text hrec, ← Bool.not_eq_true]
      intro hc
      simpa [hl, dropped] using h.flag hc
    have hquiet : s'.streams.isCancelled id ≠ true := by simp [hflag]
    unfold take
    split_ifs with hstream
    · refine ⟨?_, hthere, fun hc => absurd hc hquiet, by simp [dropped], ?_, by simp, hcut⟩
      · simpa [Explains] using hitems
      · simp [hstream]
    · refine ⟨?_, ?_, fun hc => absurd hc hquiet, ?_, fun _ => .inl hl, ?_, hcut⟩
      · simpa [Explains, hl] using hitems
      · simpa [hl, Handler.attached] using hthere
      · simp [hl, dropped]
      · simp [hl]

theorem Attended.popped (h : Attended x) (hr : Reachable (BatchLoop.step env) anything
    (BatchLoop.start env) x.server) (hw : x.server.phase.awaiting = true)
    (ht : x.tasks.get? id = some task) (hthere : task.handler.attached = true)
    (hgone : task.stream = true ∧ id ∈ x.gone)
    (hitems : Explains { task with handler := .stopped } (taken x.server.log id)) :
    Attended ((x.pop env id).put id { task with handler := .stopped }) := by
  have hin := (h.answers id task ht).there.trans hthere
  have hstep : BatchLoop.step env x.server (.leave id) =
      some ({ x.server with streams := x.server.streams.leave id }.emit [.detached id]) := by
    simp [BatchLoop.step, hw, hin]
  rw [pop, hstep, Option.getD_some]
  refine h.touch hr ht rfl (fun j hj => ?_) hstep (.popped hgone hitems)
  simpa [Label.concerns] using hj.symm

/-- A handler goes on from its await. -/
theorem Attended.resumed (h : Attended x) (hr : Reachable (BatchLoop.step env) anything
    (BatchLoop.start env) x.server) (hw : x.server.phase.awaiting = true)
    (ht : x.tasks.get? id = some task) {disconnected : Bool}
    (hs : x.resume env id task disconnected = some x') : Attended x' := by
  have ha := h.answers id task ht
  have hitems := ha.items
  cases hh : task.handler with
  | unstarted =>
    simp only [Explains, hh] at hitems
    simp only [resume, hh, ha.there, Handler.attached, ↓reduceIte, Option.some.injEq] at hs
    subst hs
    refine h.moved ht (by simp [hh, streaming]) rfl ?_ (by simp [dropped])
    simp only [Explains, hitems, List.map_nil]
  | listening =>
    simp only [resume, hh] at hs
    obtain ⟨⟨item, streams⟩, hrec, hs⟩ := Option.bind_eq_some_iff.mp hs
    obtain ⟨server, hserver, rfl⟩ := Option.map_eq_some_iff.mp hs
    have hr' := hr.next trivial hserver
    have hacc := accepted_kept (reachable_transition hr hserver) rfl
    refine h.touch hr ht rfl (fun j hj => by simpa [Label.concerns] using hj.symm) hserver
      (ha.took hh hrec ?_ fun hend => ended_of_taken hr' (hacc ▸ h.known_of ht) hend)
    simp only [BatchLoop.step, hw, hrec, ↓reduceIte, Option.map_some, Option.some.injEq] at hserver
    exact hserver.symm
  | checking text =>
    have hlive : streaming task.handler = true := by simp [hh, streaming]
    simp only [Explains, hh] at hitems
    simp only [resume, hh] at hs
    split_ifs at hs with hd hgone
    · obtain rfl := Option.some.inj hs
      exact h.moved ht hlive rfl hitems (by simp [dropped])
    · obtain ⟨server, hserver, rfl⟩ := Option.map_eq_some_iff.mp hs
      refine h.touch hr ht rfl (fun j hj => by simpa [Label.concerns] using hj.symm) hserver ?_
      simp only [BatchLoop.step, hw, ↓reduceIte, Option.some.injEq] at hserver
      rw [← hserver]
      exact ha.cancelled (by simp [hh, Handler.attached]) ⟨ha.streams hlive, hgone⟩
        ⟨[text], hitems, le_rfl⟩
  | sending =>
    simp only [Explains, hh] at hitems
    simp only [resume, hh, Option.some.injEq] at hs
    subst hs
    exact h.moved ht (by simp [hh, streaming]) rfl hitems (by simp [dropped])
  | dropped =>
    simp only [Explains, hh] at hitems
    simp only [resume, hh, Option.some.injEq] at hs
    subst hs
    have hgone := ha.left (by simp [hh, dropped])
    exact h.popped hr hw ht (by simp [hh, Handler.attached]) hgone hitems
  | _ => simp [resume, hh] at hs

/-- The task of a response is cancelled where its handler awaits. -/
theorem Attended.tornDown (h : Attended x) (hr : Reachable (BatchLoop.step env) anything
    (BatchLoop.start env) x.server) (hw : x.server.phase.awaiting = true) (hgone : id ∈ x.gone)
    (ht : x.tasks.get? id = some task) (hs : x.tearDown env id task = some x') : Attended x' := by
  have hitems := (h.answers id task ht).items
  have hnone : task.chunks.map Item.text = (task.chunks ++ []).map Item.text := by
    rw [List.append_nil]
  unfold tearDown at hs
  split_ifs at hs with hstream
  cases hh : task.handler with
  | unstarted =>
    simp only [Explains, hh] at hitems
    simp only [hh, Option.some.injEq] at hs
    subst hs
    exact h.moved ht (by simp [hh, streaming]) rfl hitems fun _ => hgone
  | listening =>
    simp only [Explains, hh] at hitems
    simp only [hh, Option.some.injEq] at hs
    subst hs
    exact h.popped hr hw ht (by simp [hh, Handler.attached]) ⟨hstream, hgone⟩
      ⟨[], hitems.trans hnone, Nat.zero_le 1⟩
  | checking text =>
    simp only [Explains, hh] at hitems
    simp only [hh, Option.some.injEq] at hs
    subst hs
    exact h.moved ht (by simp [hh, streaming]) rfl ⟨[text], hitems, le_rfl⟩ fun _ => hgone
  | sending =>
    simp only [Explains, hh] at hitems
    simp only [hh, Option.some.injEq] at hs
    subst hs
    exact h.moved ht (by simp [hh, streaming]) rfl ⟨[], hitems.trans hnone, Nat.zero_le 1⟩
      fun _ => hgone
  | _ => simp [hh] at hs

/-- A step of the server at no stream that a handler has. -/
theorem Attended.apart (h : Attended x) (hr : Reachable (BatchLoop.step env) anything
    (BatchLoop.start env) x.server) {label : Label}
    (hs : BatchLoop.step env x.server label = some s') (hacc : s'.accepted = x.server.accepted)
    (hl : ∀ j ∈ x.server.accepted.keys, label.concerns j = false) :
    Attended { x with server := s' } := by
  refine ⟨fun j => (h.known j).trans (by rw [hacc]), fun j task ht => ?_⟩
  have hj := h.known_of ht
  have hu := (reachable_transition hr hs).untouched (reachable_books hr).1 (hl j hj) hj
  exact (h.answers j task ht).untouched hu (List.Subset.refl _)

theorem Answers.fresh (stream : Bool) (hthere : s.streams.streams.contains id = true)
    (hflag : s.streams.isCancelled id = false) (htaken : taken s.log id = [])
    (hfin : finishes s.log id = []) :
    Answers s gone id ⟨stream, if stream then .unstarted else .listening, []⟩ := by
  have hquiet : s.streams.isCancelled id ≠ true := by simp [hflag]
  cases stream with
  | false =>
    refine ⟨htaken, hthere, fun hc => absurd hc hquiet, ?_, fun _ => .inl rfl, ?_, ?_⟩
    · simp [dropped]
    · simp
    · simp [hfin]
  | true =>
    refine ⟨⟨rfl, htaken⟩, hthere, fun hc => absurd hc hquiet, by simp [dropped], by simp, ?_, ?_⟩
    · simp
    · simp [hfin]

/-- A client posts a request. -/
theorem Attended.posted (h : Attended x) (hr : Reachable (BatchLoop.step env) anything
    (BatchLoop.start env) x.server) {body : GenerateRequest} (stream : Bool)
    (hs : BatchLoop.step env x.server (.generate id body) = some s') :
    Attended (x.answer s' id stream) := by
  obtain ⟨hb, -⟩ := reachable_books hr
  have htrans := reachable_transition hr hs
  have hfresh : id ∉ x.server.issued → ∀ j ∈ x.server.accepted.keys, j ≠ id := by
    rintro hnew j hj rfl
    exact hnew (hb.issued j hj)
  cases htrans with
  | rejected hw hnew =>
    have hout : id ∉ x.server.accepted.keys := fun hin => hfresh hnew id hin rfl
    have hquiet := h.apart hr hs rfl fun j hj => by
      simpa [Label.concerns] using (hfresh hnew j hj).symm
    have hno : ¬ x.server.accepted.contains id = true := fun hin => hout (Dict.contains_iff.mp hin)
    unfold answer
    rw [if_neg hno]
    exact hquiet
  | accepted hw hnew hroom hres =>
    have hout : id ∉ x.server.accepted.keys := fun hin => hfresh hnew id hin rfl
    obtain ⟨-, hactive, -, -⟩ := hb.unissued hnew
    obtain ⟨-, htaken⟩ := (reachable_contracted hr).absent id hout
    obtain ⟨-, -, hfin, -⟩ := (reachable_accounts hr).quiet id hactive (.inr hout)
    have hin : (x.server.accepted.set id (newRequest env x.server id body)).contains id = true :=
      Dict.contains_iff.mpr (Dict.mem_keys_set.mpr (.inl rfl))
    unfold answer
    rw [if_pos hin]
    refine h.put (fun j => Dict.mem_keys_set) (fun j hj hne => ?_) ?_
    · exact (reachable_transition hr hs).untouched hb (by simpa [Label.concerns] using hne.symm) hj
    · refine .fresh stream ?_ ?_ ?_ ?_
      · exact (contains_put _ id).trans (by simp)
      · exact (isCancelled_put _ id).trans (if_pos rfl)
      · rw [taken, view_append, ← taken, htaken]
        simp [asReceived]
      · rw [finishes, view_append, ← finishes, hfin]
        simp [asFinished]

theorem Attended.step (h : Attended x) (hr : Reachable (BatchLoop.step env) anything
    (BatchLoop.start env) x.server) {move : Move} (hs : step env x move = some x') :
    Attended x' := by
  cases move with
  | server label =>
    simp only [App.step] at hs
    split_ifs at hs with hl
    obtain ⟨server, hserver, rfl⟩ := Option.map_eq_some_iff.mp hs
    refine h.apart hr hserver (accepted_kept (reachable_transition hr hserver) ?_) fun j _ => ?_
    · cases label <;> simp [Label.apart] at hl <;> rfl
    · cases label <;> simp [Label.apart] at hl <;> rfl
  | post id body stream =>
    obtain ⟨server, hserver, rfl⟩ := Option.map_eq_some_iff.mp hs
    exact h.posted hr stream hserver
  | resume id disconnected =>
    simp only [App.step] at hs
    split_ifs at hs with hw
    obtain ⟨task, ht, hresume⟩ := Option.bind_eq_some_iff.mp hs
    exact h.resumed hr hw ht hresume
  | hangUp id =>
    obtain rfl := Option.some.inj hs
    refine ⟨h.known, fun j task ht => ?_⟩
    exact (h.answers j task ht).untouched (.refl _ j) (List.subset_cons_self id x.gone)
  | tearDown id =>
    simp only [App.step] at hs
    split_ifs at hs with hw
    obtain ⟨task, ht, htear⟩ := Option.bind_eq_some_iff.mp hs
    exact h.tornDown hr hw.1 hw.2 ht htear

theorem reachable_attended {allowed : App → Move → Prop}
    (h : Reachable (step env) allowed (start env) x) : Attended x := by
  refine (h.mono fun _ _ _ => trivial).invariant (attended_start env) fun x move x' hr hi _ hs => ?_
  refine hi.step (reachable_server (fun _ _ _ => trivial) (hr.mono ?_)) hs
  exact fun _ _ _ _ _ => trivial

end Kept

section Ends
variable {env : Env} {x x' : App} {id : RequestId} {task : Task}

/-- The items that nobody has taken yet. -/
def queued (m : StreamManager) (id : RequestId) : ℕ :=
  ((m.streams.get? id).map fun stream => stream.queue.length).getD 0

/-- The awaits before the handler takes an item again. -/
def awaits : Handler → ℕ
  | .checking _ => 2
  | .unstarted | .sending | .dropped => 1
  | _ => 0

/-- The awaits that a handler has ahead of it while nothing is put on its stream. -/
def awaitsLeft (x : App) (id : RequestId) : ℕ :=
  ((x.tasks.get? id).map fun task => awaits task.handler).getD 0 +
    3 * queued x.server.streams id

/-- All the awaits that the handlers have ahead of them. -/
def allAwaitsLeft (x : App) : ℕ := (x.tasks.keys.map x.awaitsLeft).sum

theorem queued_receive {m m' : StreamManager} {item : Item}
    (h : m.receive id = some (item, m')) : queued m' id < queued m id := by
  unfold StreamManager.receive at h
  split at h
  · rename_i next rest decoded cancelled hstream
    obtain ⟨rfl, rfl⟩ := Prod.mk.inj (Option.some.inj h)
    split_ifs
    · simp [queued, StreamManager.leave, hstream]
    · simp [queued, StreamManager.put, hstream]
  · simp at h

theorem queued_cancel (m : StreamManager) (id : RequestId) :
    queued (m.cancel id) id = queued m id := by
  unfold StreamManager.cancel
  split
  · rfl
  · rename_i hstream
    simp [queued, StreamManager.put, hstream]

/-- What a resumed handler does to itself and to its stream. -/
theorem resume_spends {disconnected : Bool} (hw : x.server.phase.awaiting = true)
    (h : x.resume env id task disconnected = some x') :
    ∃ task', x'.tasks = x.tasks.set id task' ∧ x'.server.phase = x.server.phase ∧
      (∀ j, j ≠ id → x'.server.streams.streams.get? j = x.server.streams.streams.get? j) ∧
      awaits task'.handler + 3 * queued x'.server.streams id <
        awaits task.handler + 3 * queued x.server.streams id := by
  cases hh : task.handler with
  | unstarted =>
    simp only [resume, hh] at h
    split_ifs at h
    · obtain rfl := Option.some.inj h
      refine ⟨_, rfl, rfl, fun _ _ => rfl, ?_⟩
      simp [awaits, App.put]
    · obtain rfl := Option.some.inj h
      refine ⟨_, rfl, rfl, fun _ _ => rfl, ?_⟩
      simp [awaits, App.put]
  | listening =>
    simp only [resume, hh] at h
    obtain ⟨⟨item, streams⟩, hrec, h⟩ := Option.bind_eq_some_iff.mp h
    obtain ⟨server, hserver, rfl⟩ := Option.map_eq_some_iff.mp h
    simp only [BatchLoop.step, hw, hrec, ↓reduceIte, Option.map_some, Option.some.injEq] at hserver
    subst hserver
    have hless := queued_receive hrec
    refine ⟨take task item, rfl, rfl, fun j hj => ?_, ?_⟩
    · show streams.streams.get? j = x.server.streams.streams.get? j
      have hcall : Streaming.step env.decoder x.server.streams (.receive id item) =
          some streams := by simp [Streaming.step, hrec]
      exact step_other hcall hj.symm
    · have htwo : awaits (take task item).handler ≤ 2 := by
        unfold take
        split
        · exact Nat.zero_le 2
        · split_ifs
          · exact le_rfl
          · simp [awaits, hh]
      show awaits (take task item).handler + 3 * queued streams id < _
      omega
  | checking text =>
    simp only [resume, hh] at h
    split_ifs at h
    · obtain rfl := Option.some.inj h
      refine ⟨_, rfl, rfl, fun _ _ => rfl, ?_⟩
      simp [awaits, App.put]
    · obtain ⟨server, hserver, rfl⟩ := Option.map_eq_some_iff.mp h
      simp only [BatchLoop.step, hw, ↓reduceIte, Option.some.injEq] at hserver
      subst hserver
      refine ⟨_, rfl, rfl, fun j hj => ?_, ?_⟩
      · exact @step_other env.decoder j (.cancel id) _ _ rfl hj.symm
      · simp [awaits, App.put, queued_cancel]
  | sending =>
    simp only [resume, hh, Option.some.injEq] at h
    subst h
    refine ⟨_, rfl, rfl, fun _ _ => rfl, ?_⟩
    simp [awaits, App.put]
  | dropped =>
    simp only [resume, hh, Option.some.injEq] at h
    subst h
    refine ⟨_, rfl, ?_⟩
    show (x.pop env id).server.phase = x.server.phase ∧ _
    unfold pop
    cases hstep : BatchLoop.step env x.server (.leave id) with
    | none => exact ⟨rfl, fun _ _ => rfl, by simp [awaits, App.put]⟩
    | some server =>
      simp only [BatchLoop.step] at hstep
      split_ifs at hstep
      obtain rfl := Option.some.inj hstep
      refine ⟨rfl, fun j hj => ?_, ?_⟩
      · exact @step_other env.decoder j (.leave id) _ _ rfl hj.symm
      · simp [awaits, queued, App.put, StreamManager.leave, State.emit]
  | _ => simp [resume, hh] at h

theorem step_resume {disconnected : Bool} (h : step env x (.resume id disconnected) = some x') :
    x.server.phase.awaiting = true ∧ ∃ task, x.tasks.get? id = some task ∧
      x.resume env id task disconnected = some x' := by
  simp only [step] at h
  split_ifs at h with hw
  exact ⟨hw, Option.bind_eq_some_iff.mp h⟩

/-- A resumed handler has one await less ahead of it, and the others as many as before. -/
theorem resume_lt {move : Move} (hm : move.resumes = true) (h : step env x move = some x') :
    x'.server.phase = x.server.phase ∧ x'.allAwaitsLeft < x.allAwaitsLeft := by
  cases move with
  | resume id disconnected =>
    obtain ⟨hw, task, ht, hresume⟩ := step_resume h
    obtain ⟨task', htasks, hphase, hstreams, hless⟩ := resume_spends hw hresume
    have hin := Dict.mem_keys.mpr ⟨task, ht⟩
    have hself : x'.awaitsLeft id < x.awaitsLeft id := by
      rw [awaitsLeft, awaitsLeft, htasks, Dict.get?_set, if_pos rfl, ht]
      exact hless
    have hother : ∀ j, j ≠ id → x'.awaitsLeft j = x.awaitsLeft j := by
      intro j hj
      rw [awaitsLeft, awaitsLeft, htasks, Dict.get?_set, if_neg hj.symm, queued, queued,
        hstreams j hj]
    refine ⟨hphase, ?_⟩
    rw [allAwaitsLeft, allAwaitsLeft, htasks, Dict.keys_set_of_mem hin]
    refine List.sum_lt_sum _ _ (fun j _ => ?_) ⟨id, hin, hself⟩
    by_cases hj : j = id
    · exact hj ▸ hself.le
    · exact (hother j hj).le
  | _ => simp [Move.resumes] at hm

/-- Where no handler can go on it is closed, or waits for a request that has not ended. -/
theorem resumed_out (h : Reachable (step env) anything (start env) x)
    (hw : x.server.phase.awaiting = true)
    (hstuck : ∀ move : Move, move.resumes = true → step env x move = none)
    (ht : x.tasks.get? id = some task) :
    task.handler = .finished ∨ task.handler = .stopped ∨ task.handler = .abandoned ∨
      task.handler = .listening ∧ Holding x.server id := by
  have hr : Reachable (BatchLoop.step env) anything (BatchLoop.start env) x.server :=
    reachable_server (fun _ _ _ => trivial) (h.mono fun _ _ _ _ _ => trivial)
  have hatt := reachable_attended h
  have ha := hatt.answers id task ht
  have hnone : x.resume env id task false = none := by
    simpa [step, hw, ht] using hstuck (.resume id false) rfl
  cases hh : task.handler with
  | finished => exact .inl rfl
  | stopped => exact .inr (.inl rfl)
  | abandoned => exact .inr (.inr (.inl rfl))
  | listening =>
    refine .inr (.inr (.inr ⟨rfl, ?_⟩))
    by_contra hout
    have hin : x.server.streams.streams.contains id = true :=
      ha.there.trans (by simp [hh, Handler.attached])
    obtain ⟨⟨item, streams⟩, hrec⟩ := Option.isSome_iff_exists.mp
      ((reachable_contracted hr).ready (hatt.known_of ht) hout hin)
    simp [resume, hh, hrec, BatchLoop.step, hw] at hnone
  | raised e =>
    have hitems := ha.items
    simp [Explains, hh] at hitems
  | unstarted =>
    simp only [resume, hh] at hnone
    split_ifs at hnone
  | checking | sending | dropped => simp [resume, hh] at hnone

theorem not_holding {s : State} (h : held s = 0) (id : RequestId) : ¬ Holding s id := by
  obtain ⟨hq, ha⟩ := Nat.add_eq_zero_iff.mp h
  have hempty : s.queue.pool.keys = [] ∧ s.active.keys = [] := by
    rw [← List.length_eq_zero_iff, ← List.length_eq_zero_iff, ← Dict.size_eq_keys,
      ← Dict.size_eq_keys]
    exact ⟨hq, ha⟩
  rw [Holding, hempty.1, hempty.2]
  simp

/-- What is left in the table once everything has ended. -/
theorem left_iff (h : Reachable (step env) anything (start env) x)
    (hw : x.server.phase.awaiting = true)
    (hstuck : ∀ move : Move, move.resumes = true → step env x move = none)
    (hnobody : held x.server = 0) (id : RequestId) :
    x.server.streams.streams.contains id = true ↔
      ∃ task, x.tasks.get? id = some task ∧ task.handler = .abandoned := by
  have hr : Reachable (BatchLoop.step env) anything (BatchLoop.start env) x.server :=
    reachable_server (fun _ _ _ => trivial) (h.mono fun _ _ _ _ _ => trivial)
  have hatt := reachable_attended h
  constructor
  · intro hin
    have hid : id ∈ x.tasks.keys := by
      rw [hatt.known]
      by_contra hout
      simp [Dict.contains, ((reachable_contracted hr).absent id hout).1] at hin
    obtain ⟨task, ht⟩ := Dict.mem_keys.mp hid
    have hthere := (hatt.answers id task ht).there.symm.trans hin
    rcases resumed_out h hw hstuck ht with hh | hh | hh | ⟨-, hin⟩
    · simp [hh, Handler.attached] at hthere
    · simp [hh, Handler.attached] at hthere
    · exact ⟨task, ht, hh⟩
    · exact absurd hin (not_holding hnobody id)
  · rintro ⟨task, ht, hh⟩
    exact (hatt.answers id task ht).there.trans (by simp [hh, Handler.attached])

end Ends

/-- What a client is answered, whatever else goes on: the server under its handlers does nothing
that the loop alone would not, and no handler raises. A request is only cut off for a client that
streams and is gone, only there a handler is closed early, and a text taken off a stream reaches its
client but for one that is in hand. A handler that ends has answered a beginning of what the
isolated decoder generates, up to the token that ends it or the last one of the budget if the
request ended by itself. -/
theorem requests_answered (f : List Token → Token) (env : Env) {oneShot : Bytes → String}
    (hd : DecodesWhole env.decoder oneShot) (x : App)
    (h : Reachable (step env)
      (fun x move => ∀ label, move = .server label → SamplesBy f x.server label) (start env) x) :
    Reachable (BatchLoop.step env) (SamplesBy f) (BatchLoop.start env) x.server ∧
    (∀ id, id ∈ x.tasks.keys ↔ id ∈ x.server.accepted.keys) ∧
    ∀ id task, x.tasks.get? id = some task →
      (∀ e, task.handler ≠ .raised e) ∧
      x.server.streams.streams.contains id = task.handler.attached ∧
      (.finished id (some .clientDisconnect) ∈ x.server.log ∨ dropped task.handler = true →
        task.stream = true ∧ id ∈ x.gone) ∧
      (task.handler ≠ .finished → ∃ held : List String, held.length ≤ 1 ∧
        taken x.server.log id = (task.chunks ++ held).map .text) ∧
      (task.handler = .finished → ¬ Holding x.server id ∧
        taken x.server.log id = task.chunks.map .text ++ [.endOfStream] ∧
        ∃ request tokens, x.server.accepted.get? id = some request ∧
          tokens <+: (fullCompletion f env.eosToken request.promptTokens request.maxTokens).take
            (request.maxTokens - 1) ∧
          String.join task.chunks = oneShot (tokens.flatMap fun token => env.detokenize [token]) ∧
          (.finished id none ∈ x.server.log →
            tokens = (fullCompletion f env.eosToken request.promptTokens request.maxTokens).take
              (request.maxTokens - 1))) := by
  have hr := reachable_server (fun s label hown sample order prepared he => by
    rw [he] at hown
    simp [Label.own] at hown) h
  have hatt := reachable_attended h
  refine ⟨hr, hatt.known, fun id task ht => ?_⟩
  have ha := hatt.answers id task ht
  refine ⟨fun e he => ?_, ha.there, ?_, fun hf => explains_texts ha.items hf, fun hf => ?_⟩
  · have hitems := ha.items
    simp [Explains, he] at hitems
  · rintro (hcut | hleft)
    · exact ha.cut (mem_finishes.mpr hcut)
    · exact ha.left hleft
  · have htaken := ha.items
    simp only [Explains, hf] at htaken
    obtain ⟨request, hreq⟩ := Dict.mem_keys.mp (hatt.known_of ht)
    have hend : .endOfStream ∈ taken x.server.log id := by simp [htaken]
    obtain ⟨texts, tokens, hitems, -, hjoin, hpart, hall⟩ := read_texts hd hr hreq hend
    obtain rfl : task.chunks = texts := by
      rw [htaken, List.append_cancel_right_eq] at hitems
      exact List.map_injective_iff.mpr (fun _ _ he => Item.text.inj he) hitems
    exact ⟨ha.ended hf, htaken, request, tokens, hreq, hpart, hjoin, hall⟩

section Demo

/-- The one request streams, runs to its end, and its client stays. -/
def demoMoves : List Move :=
  [.post 0 demoBody true] ++ (demoRun.drop 1 ++ [Label.loop]).map .server ++
    List.replicate 5 (.resume 0 false)

theorem demoMoves_sampled : ∀ move ∈ demoMoves, ∀ x : App, ∀ label, move = .server label →
    SamplesBy (fun _ => 1) x.server label := by
  intro move hmove x label hm sample order prepared he _ i row _ _
  subst hm he
  simp [demoMoves, demoRun] at hmove
  rw [hmove.1]

theorem requests_answered_demo : ∃ x task, run (step demoSpelling) (start demoSpelling) demoMoves =
    some x ∧ x.tasks.get? 0 = some task ∧ ¬ Holding x.server 0 ∧
      some .clientDisconnect ∉ finishes x.server.log 0 ∧
      String.join task.chunks = utf8Text
        (((fullCompletion (fun _ => 1) 0 [1, 1, 1] 2).take 1).flatMap fun token =>
          demoSpelling.detokenize [token]) := by
  have hfinal : (run (step demoSpelling) (start demoSpelling) demoMoves).map (fun x =>
      (x.tasks.keys, ((x.tasks.get? 0).map Task.handler), x.gone,
        decide (.finished 0 none ∈ x.server.log), x.server.accepted.get? 0)) =
      some ([0], some .finished, [], true,
        some (newRequest demoSpelling (BatchLoop.start demoSpelling) 0 demoBody)) := by
    decide +kernel
  obtain ⟨x, hx, hparts⟩ := Option.map_eq_some_iff.mp hfinal
  simp only [Prod.mk.injEq, Option.map_eq_some_iff, decide_eq_true_eq] at hparts
  obtain ⟨-, ⟨task, ht, hhandler⟩, hgone, hfin, hreq⟩ := hparts
  obtain ⟨-, -, hall⟩ := requests_answered (fun _ => 1) demoSpelling utf8Decoder_whole x
    (Reachable.init.run_allowed demoMoves_sampled hx)
  obtain ⟨-, -, hcut, -, hend⟩ := hall 0 task ht
  obtain ⟨hover, -, request, tokens, hrequest, -, htext, hwhole⟩ := hend hhandler
  obtain rfl := Option.some.inj (hreq.symm.trans hrequest)
  refine ⟨x, task, hx, ht, hover, fun hc => ?_, ?_⟩
  · have hleft := (hcut (.inl (mem_finishes.mp hc))).2
    rw [hgone] at hleft
    simp at hleft
  · rw [hwhole hfin] at htext
    exact htext

end Demo

/-- While nothing else moves the handlers come to an end of what they can do, in whatever order they
go on; each is closed then, or waits for a request that has not ended. So where the server has come
to rest too, unless the loop died, the streams in the table are those whose responses were dropped
before they were ever iterated: nothing takes these away. -/
theorem answers_end (env : Env) (x : App) (h : Reachable (step env) anything (start env) x) :
    (∀ ls x', (∀ move ∈ ls, move.resumes = true) → run (step env) x ls = some x' →
      ls.length ≤ x.allAwaitsLeft) ∧
    (∃ ls x', (∀ move ∈ ls, move.resumes = true) ∧ run (step env) x ls = some x' ∧
      ∀ move : Move, move.resumes = true → step env x' move = none) ∧
    ((∀ move : Move, move.resumes = true → step env x move = none) →
      (x.server.phase.awaiting = true → ∀ id task, x.tasks.get? id = some task →
        task.handler = .finished ∨ task.handler = .stopped ∨ task.handler = .abandoned ∨
          task.handler = .listening ∧ Holding x.server id) ∧
      ((∀ label : Label, label.own = true → step env x (.server label) = none) →
        (∃ e, x.server.phase = .dead e) ∨ AtRest env x.server ∧ ∀ id,
          x.server.streams.streams.contains id = true ↔
            ∃ task, x.tasks.get? id = some task ∧ task.handler = .abandoned)) := by
  have hr : Reachable (BatchLoop.step env) anything (BatchLoop.start env) x.server :=
    reachable_server (fun _ _ _ => trivial) (h.mono fun _ _ _ _ _ => trivial)
  refine ⟨fun ls x' hall hrun => ?_, ?_, fun hstuck => ⟨fun hw id task ht => ?_, fun hown => ?_⟩⟩
  · have hspent : ∀ u (move : Move) u', True → move.resumes = true → step env u move = some u' →
        True ∧ u'.allAwaitsLeft + true.toNat ≤ u.allAwaitsLeft :=
      fun u move u' _ hm hs => ⟨trivial, (resume_lt hm hs).2⟩
    have hcount := (@counted_le_rank _ _ (step env) (fun _ move => move.resumes = true)
      (fun _ => True) (fun _ => true) allAwaitsLeft hspent _ _ _ trivial
      (fun move hm _ => hall move hm) hrun).2
    rw [List.countP_true] at hcount
    exact (Nat.le_add_right _ _).trans hcount
  · obtain ⟨ls, x', hall, hrun, -, hend⟩ := @runs_out _ _ (step env) (fun _ => True) Move.resumes
      allAwaitsLeft (fun u move u' _ hm hs => ⟨trivial, (resume_lt hm hs).2⟩) x trivial
    exact ⟨ls, x', hall, hrun, hend⟩
  · exact resumed_out h hw hstuck ht
  · have hserver : ∀ label : Label, label.own = true →
        BatchLoop.step env x.server label = none := by
      intro label hl
      have happ : label.apart = true := by cases label <;> simp [Label.own] at hl <;> rfl
      simpa [step, happ] using hown label hl
    rcases atRest_of_stuck hr hserver with hdead | ⟨hidle, hrest⟩
    · exact .inl hdead
    · have hw : x.server.phase.awaiting = true := by rw [hidle]; rfl
      exact .inr ⟨hrest, fun id => left_iff h hw hstuck hrest.nobody id⟩

section Demo

/-- The client of the one request hangs up before its response is iterated. -/
def demoDropped : List Move := [.post 0 demoBody true, .hangUp 0, .tearDown 0] ++
  (demoRun.drop 1 ++ List.replicate 3 Label.loop).map .server

/-- The request runs to its end all the same, and its stream is left behind. -/
theorem answers_end_demo : ∃ x, run (step demo) (start demo) demoDropped = some x ∧
    AtRest demo x.server ∧ x.server.streams.streams.contains 0 = true := by
  have hfinal : (run (step demo) (start demo) demoDropped).map (fun x =>
      (x.tasks.keys, (x.tasks.get? 0).map Task.handler, x.server.queue.depth)) =
      some ([0], some .abandoned, 0) := by decide +kernel
  have hphase : (run (step demo) (start demo) demoDropped).map (fun x => x.server.phase) =
      some .idle := by with_unfolding_all rfl
  obtain ⟨x, hx, hparts⟩ := Option.map_eq_some_iff.mp hfinal
  simp only [Prod.mk.injEq, Option.map_eq_some_iff] at hparts
  obtain ⟨hkeys, ⟨task, ht, hhandler⟩, hdepth⟩ := hparts
  rw [hx, Option.map_some, Option.some.injEq] at hphase
  have hresumed : ∀ move : Move, move.resumes = true → step demo x move = none := by
    intro move hm
    cases move with
    | resume id disconnected =>
      by_cases hid : id = 0
      · subst hid
        simp [step, ht, resume, hhandler]
      · have hnone : x.tasks.get? id = none := by
          rw [Dict.get?_eq_none, hkeys]
          simpa using hid
        simp [step, hnone]
    | _ => simp [Move.resumes] at hm
  have hown : ∀ label : Label, label.own = true → step demo x (.server label) = none := by
    intro label hl
    cases label <;> simp [Label.own] at hl <;>
      simp [step, Label.apart, BatchLoop.step, iterate, hphase, hdepth]
  obtain ⟨-, -, hends⟩ := answers_end demo x (Reachable.init.run hx)
  rcases (hends hresumed).2 hown with ⟨e, hdead⟩ | ⟨hrest, hleft⟩
  · simp [hphase] at hdead
  · exact ⟨x, hx, hrest, (hleft 0).mpr ⟨task, ht, hhandler⟩⟩

end Demo

end App
end TinyServe.BatchLoop
