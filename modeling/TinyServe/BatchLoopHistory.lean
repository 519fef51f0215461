import TinyServe.BatchLoopResources

set_option autoImplicit false

/-! What was sampled for a request and what was pushed to its stream, against its token budget. -/
namespace TinyServe.BatchLoop
open OrderedDict BatchBuilder Admission Scheduler Streaming Tracing Runs

section Views
variable {α : Type} {f : Event → Option α} {env : Env} {s : State}

/-- What `f` makes of the events of a log, in order. -/
def view (f : Event → Option α) (log : List Event) : List α := log.filterMap f

/-- `f` passes over streams, spans and lookups. -/
structure Quiet (f : Event → Option α) : Prop where
  enqueued : ∀ id item, f (.enqueued id item) = none
  spanEnded : ∀ id name, f (.spanEnded id name) = none
  rootEnded : ∀ id, f (.rootEnded id) = none
  lookedUp : ∀ id hit copied, f (.lookedUp id hit copied) = none

@[simp] theorem view_nil : view f [] = [] := rfl

@[simp] theorem view_cons (e : Event) (log : List Event) :
    view f (e :: log) = (f e).toList ++ view f log := by
  cases h : f e <;> simp [view, h]

@[simp] theorem view_append (log log' : List Event) :
    view f (log ++ log') = view f log ++ view f log' := List.filterMap_append

theorem mem_view {log : List Event} {a : α} : a ∈ view f log ↔ ∃ e ∈ log, f e = some a :=
  List.mem_filterMap

@[simp] theorem view_enqueued (hf : Quiet f) (id : RequestId) (items : List Item) :
    view f (items.map (.enqueued id)) = [] := by
  simp [view, hf.enqueued]

@[simp] theorem view_closing (hf : Quiet f) (id : RequestId) : view f (closing env s id) = [] :=
  view_enqueued hf id _

@[simp] theorem view_spanClosing (hf : Quiet f) (t : RequestTracer) (id : RequestId)
    (name : SpanName) : view f (spanClosing t id name) = [] := by
  rw [spanClosing]
  split_ifs <;> simp [hf.spanEnded]

@[simp] theorem view_rootClosing (hf : Quiet f) (t : RequestTracer) (id : RequestId) :
    view f (rootClosing t id) = [] := by
  rw [rootClosing]
  split_ifs <;> simp [hf.rootEnded]

@[simp] theorem view_lookups (hf : Quiet f) (request : PendingRequest) (seqId : SeqId) :
    view f (lookups s request seqId) = [] := by
  rw [lookups]
  split <;> simp [hf.lookedUp]

end Views

section Tokens

def asPushed (id : RequestId) : Event → Option Token
  | .pushed j token => if j = id then some token else none
  | _ => none

def asSampled (id : RequestId) : Event → Option Token
  | .sampled j token => if j = id then some token else none
  | _ => none

def asFinished (id : RequestId) : Event → Option (Option CancelReason)
  | .finished j why => if j = id then some why else none
  | _ => none

def asAdmitted (id : RequestId) : Event → Option (SeqId × ℕ)
  | .admitted j seqId reused => if j = id then some (seqId, reused) else none
  | _ => none

/-- The tokens pushed to the stream of a request, in order. -/
abbrev pushed (log : List Event) (id : RequestId) : List Token := view (asPushed id) log

/-- The tokens sampled for a request, in order. -/
abbrev sampledFor (log : List Event) (id : RequestId) : List Token := view (asSampled id) log

abbrev finishes (log : List Event) (id : RequestId) : List (Option CancelReason) :=
  view (asFinished id) log

/-- The slot and the reused tokens of each admission of a request. -/
abbrev admissions (log : List Event) (id : RequestId) : List (SeqId × ℕ) := view (asAdmitted id) log

@[simp] theorem quiet_asPushed (id : RequestId) : Quiet (asPushed id) := by constructor <;> simp [asPushed]

@[simp] theorem quiet_asSampled (id : RequestId) : Quiet (asSampled id) := by constructor <;> simp [asSampled]

@[simp] theorem quiet_asFinished (id : RequestId) : Quiet (asFinished id) := by
  constructor <;> simp [asFinished]

@[simp] theorem quiet_asAdmitted (id : RequestId) : Quiet (asAdmitted id) := by
  constructor <;> simp [asAdmitted]

theorem pushed_quiet {events : List Event} (h : ∀ id, pushed events id = []) (log : List Event)
    (id : RequestId) : pushed (log ++ events) id = pushed log id := by
  rw [pushed, view_append]
  exact (congrArg _ (h id)).trans (List.append_nil _)

theorem mem_finishes {log : List Event} {id : RequestId} {why : Option CancelReason} :
    why ∈ finishes log id ↔ .finished id why ∈ log := by
  rw [finishes, mem_view]
  constructor
  · rintro ⟨e, he, hf⟩
    cases e <;> simp [asFinished] at hf
    obtain ⟨rfl, rfl⟩ := hf
    exact he
  · exact fun h => ⟨_, h, by simp [asFinished]⟩

theorem mem_admissions {log : List Event} {id : RequestId} {slot : SeqId} {n : ℕ} :
    (slot, n) ∈ admissions log id ↔ .admitted id slot n ∈ log := by
  rw [admissions, mem_view]
  constructor
  · rintro ⟨e, he, hf⟩
    cases e <;> simp [asAdmitted] at hf
    obtain ⟨rfl, rfl, rfl⟩ := hf
    exact he
  · exact fun h => ⟨_, h, by simp [asAdmitted]⟩

end Tokens

section Accounts
variable {env : Env} {s s' : State}

/-- Where a running generation stands: everything sampled so far was pushed, nothing of it ends
the text, and the budget lacks exactly what was pushed. -/
structure Account (env : Env) (log : List Event) (id : RequestId) (state : RequestState)
    (request : PendingRequest) : Prop where
  same : sampledFor log id = pushed log id
  emitted : (pushed log id).length = state.tokensEmitted
  remaining : state.remainingTokens = (request.maxTokens : ℤ) - state.tokensEmitted
  positive : 0 < state.remainingTokens
  open_ : env.eosToken ∉ pushed log id

/-- Where a generation stands that ended by itself: its last token was sampled and not pushed. -/
def Settled (env : Env) (log : List Event) (id : RequestId) (request : PendingRequest) : Prop :=
  ∃ last, sampledFor log id = pushed log id ++ [last] ∧ env.eosToken ∉ pushed log id ∧
    (pushed log id).length < request.maxTokens ∧
    (last = env.eosToken ∨ (pushed log id).length + 1 = request.maxTokens)

structure Accounts (env : Env) (s : State) : Prop where
  bodies : ∀ id request, s.accepted.get? id = some request → ∃ body : GenerateRequest,
    request.promptTokens = env.tokenize body.prompt ∧ request.maxTokens = body.maxTokens
  quiet : ∀ id, id ∉ s.active.keys → id ∈ s.queue.pool.keys ∨ id ∉ s.accepted.keys →
    sampledFor s.log id = [] ∧ pushed s.log id = [] ∧ finishes s.log id = [] ∧
      admissions s.log id = []
  running : ∀ id state request, s.requests.get? id = some state →
    s.accepted.get? id = some request →
    Account env s.log id state request ∧ finishes s.log id = []
  settled : ∀ id request, s.accepted.get? id = some request → none ∈ finishes s.log id →
    Settled env s.log id request

theorem accounts_start (env : Env) : Accounts env (start env) where
  bodies _ _ h := by simp [start] at h
  quiet _ _ _ := ⟨rfl, rfl, rfl, rfl⟩
  running _ _ _ h := by simp [start] at h
  settled _ _ h := by simp [start] at h

/-- Steps that touch no token and no stage of a request leave the accounts alone. -/
theorem Accounts.frame (h : Accounts env s) (hacc : s'.accepted = s.accepted)
    (ha : ∀ id, id ∈ s'.active.keys ↔ id ∈ s.active.keys)
    (hq : ∀ id ∈ s'.queue.pool.keys, id ∈ s.queue.pool.keys)
    (hr : s'.requests = s.requests)
    (hlog : ∀ id, sampledFor s'.log id = sampledFor s.log id ∧
      pushed s'.log id = pushed s.log id ∧ finishes s'.log id = finishes s.log id ∧
      admissions s'.log id = admissions s.log id) : Accounts env s' := by
  obtain ⟨h1, h2, h3, h4⟩ := h
  refine ⟨by rwa [hacc], fun id hna hor => ?_, fun id state request hst hreq => ?_,
    fun id request hreq hfin => ?_⟩
  · obtain ⟨l1, l2, l3, l4⟩ := hlog id
    rw [l1, l2, l3, l4]
    rw [hacc] at hor
    exact h2 id (fun hm => hna ((ha id).mpr hm)) (hor.imp_left (hq id))
  · obtain ⟨l1, l2, l3, -⟩ := hlog id
    rw [hr] at hst
    rw [hacc] at hreq
    obtain ⟨⟨a1, a2, a3, a4, a5⟩, a6⟩ := h3 id state request hst hreq
    exact ⟨⟨by rwa [l1, l2], by rwa [l2], a3, a4, by rwa [l2]⟩, by rwa [l3]⟩
  · obtain ⟨l1, l2, l3, -⟩ := hlog id
    rw [hacc] at hreq
    rw [l3] at hfin
    rw [Settled, l1, l2]
    exact h4 id request hreq hfin

theorem Accounts.accepted_step (h : Accounts env s) (hb : Books env s) {id : RequestId}
    {body : GenerateRequest} (hnew : id ∉ s.issued)
    (hacc : s'.accepted = s.accepted.set id (newRequest env s id body))
    (ha : s'.active = s.active) (hq : s'.queue = s.queue.push (newRequest env s id body))
    (hr : s'.requests = s.requests)
    (hlog : ∀ id, sampledFor s'.log id = sampledFor s.log id ∧
      pushed s'.log id = pushed s.log id ∧ finishes s'.log id = finishes s.log id ∧
      admissions s'.log id = admissions s.log id) : Accounts env s' := by
  obtain ⟨hpool, hactive, haccepted, -⟩ := hb.unissued hnew
  have hquiet := h.quiet id hactive (.inr haccepted)
  refine ⟨fun j request hj => ?_, fun j hna hor => ?_, fun j state request hst hreq => ?_,
    fun j request hreq hfin => ?_⟩
  · rw [hacc, Dict.get?_set] at hj
    split_ifs at hj with hji
    · obtain rfl := Option.some.inj hj
      exact ⟨body, rfl, rfl⟩
    · exact h.bodies j request hj
  · obtain ⟨l1, l2, l3, l4⟩ := hlog j
    rw [l1, l2, l3, l4]
    rw [ha] at hna
    rw [hq, hacc, RequestQueue.push, newRequest, Dict.mem_keys_set, Dict.mem_keys_set, not_or]
      at hor
    by_cases hji : j = id
    · exact hji ▸ hquiet
    · exact h.quiet j hna (hor.imp (fun hm => hm.resolve_left hji) And.right)
  · obtain ⟨l1, l2, l3, -⟩ := hlog j
    rw [hr] at hst
    obtain ⟨seq, hseq, -⟩ := hb.seq_of_state hst
    have hji : id ≠ j := by
      rintro rfl
      exact hactive (Dict.mem_keys.mpr ⟨seq, hseq⟩)
    rw [hacc, Dict.get?_set, if_neg hji] at hreq
    obtain ⟨⟨a1, a2, a3, a4, a5⟩, a6⟩ := h.running j state request hst hreq
    exact ⟨⟨by rwa [l1, l2], by rwa [l2], a3, a4, by rwa [l2]⟩, by rwa [l3]⟩
  · obtain ⟨l1, l2, l3, -⟩ := hlog j
    rw [l3] at hfin
    have hji : id ≠ j := by
      rintro rfl
      rw [hquiet.2.2.1] at hfin
      simp at hfin
    rw [hacc, Dict.get?_set, if_neg hji] at hreq
    rw [Settled, l1, l2]
    exact h.settled j request hreq hfin

theorem Accounts.admitted_step (h : Accounts env s) (hb : Books env s)
    {request : PendingRequest} {seqId : SeqId}
    (hpool : s.queue.pool.get? request.id = some request) (phase : Phase) :
    Accounts env (admittedState env s request seqId phase) := by
  have hin : request.id ∈ s.queue.pool.keys := Dict.mem_keys.mpr ⟨request, hpool⟩
  have hacc := (hb.queued _ request hpool).2
  obtain ⟨hs0, hp0, hf0, -⟩ := h.quiet request.id (hb.apart _ hin) (.inl hin)
  obtain ⟨body, -, hmax⟩ := h.bodies _ _ hacc
  have hlog : ∀ j, sampledFor (admittedState env s request seqId phase).log j =
        sampledFor s.log j ∧
      pushed (admittedState env s request seqId phase).log j = pushed s.log j ∧
      finishes (admittedState env s request seqId phase).log j = finishes s.log j := by
    intro j
    simp [admittedState, asSampled, asPushed, asFinished]
  refine ⟨h.bodies, fun j hna hor => ?_, fun j state other hst hreq => ?_,
    fun j other hreq hfin => ?_⟩
  · obtain ⟨l1, l2, l3⟩ := hlog j
    have hna' : j ∉ (s.active.set request.id _).keys := hna
    rw [Dict.mem_keys_set, not_or] at hna'
    have hor' : j ∈ (s.queue.pool.erase request.id).keys ∨ j ∉ s.accepted.keys := hor
    rw [Dict.mem_keys_erase] at hor'
    obtain ⟨q1, q2, q3, q4⟩ := h.quiet j hna'.2 (hor'.imp_left And.right)
    refine ⟨l1.trans q1, l2.trans q2, l3.trans q3, ?_⟩
    simp [admittedState, asAdmitted, Ne.symm hna'.1]
    exact q4
  · obtain ⟨l1, l2, l3⟩ := hlog j
    have hst' : (s.requests.set request.id _).get? j = some state := hst
    rw [Dict.get?_set] at hst'
    split_ifs at hst' with hji
    · subst hji
      obtain rfl := Option.some.inj hst'
      obtain rfl := Option.some.inj (hacc.symm.trans hreq)
      refine ⟨⟨?_, ?_, ?_, ?_, ?_⟩, l3.trans hf0⟩
      · rw [l1, l2, hs0, hp0]
      · rw [l2, hp0]
        rfl
      · simp
      · show (0 : ℤ) < (request.maxTokens : ℤ)
        have := body.maxTokens_pos
        omega
      · rw [l2, hp0]
        simp
    · obtain ⟨⟨a1, a2, a3, a4, a5⟩, a6⟩ := h.running j state other hst' hreq
      exact ⟨⟨by rwa [l1, l2], by rwa [l2], a3, a4, by rwa [l2]⟩, by rwa [l3]⟩
  · obtain ⟨l1, l2, l3⟩ := hlog j
    rw [l3] at hfin
    rw [Settled, l1, l2]
    exact h.settled j other hreq hfin

/-- A request that leaves the active set closes its account. -/
theorem Accounts.retired_step (h : Accounts env s) (hb : Books env s) {id : RequestId}
    {seq : ActiveSequence} (hseq : s.active.get? id = some seq) (why : Option CancelReason)
    (hacc : s'.accepted = s.accepted) (ha : s'.active = s.active.erase id)
    (hq : s'.queue = s.queue) (hr : s'.requests = s.requests.erase id)
    (hlog : ∀ j, j ≠ id → sampledFor s'.log j = sampledFor s.log j ∧
      pushed s'.log j = pushed s.log j ∧ finishes s'.log j = finishes s.log j ∧
      admissions s'.log j = admissions s.log j)
    (hfin : finishes s'.log id = finishes s.log id ++ [why])
    (hset : why = none → ∀ request, s.accepted.get? id = some request →
      Settled env s'.log id request) : Accounts env s' := by
  have hin : id ∈ s.active.keys := Dict.mem_keys.mpr ⟨seq, hseq⟩
  refine ⟨by rw [hacc]; exact h.bodies, fun j hna hor => ?_, fun j state request hst hreq => ?_,
    fun j request hreq hmem => ?_⟩
  · rw [ha, Dict.mem_keys_erase, not_and] at hna
    rw [hq, hacc] at hor
    have hji : j ≠ id := by
      rintro rfl
      exact hor.elim (fun hm => hb.apart _ hm hin) fun hm => hm (hb.known _ hin)
    obtain ⟨l1, l2, l3, l4⟩ := hlog j hji
    rw [l1, l2, l3, l4]
    exact h.quiet j (hna hji) hor
  · rw [hr, Dict.get?_erase] at hst
    split_ifs at hst with hji
    rw [hacc] at hreq
    obtain ⟨l1, l2, l3, -⟩ := hlog j (Ne.symm hji)
    obtain ⟨⟨a1, a2, a3, a4, a5⟩, a6⟩ := h.running j state request hst hreq
    exact ⟨⟨by rwa [l1, l2], by rwa [l2], a3, a4, by rwa [l2]⟩, by rwa [l3]⟩
  · rw [hacc] at hreq
    by_cases hji : j = id
    · subst hji
      obtain ⟨state, hstate, -⟩ := hb.state_of_seq hseq
      rw [hfin, (h.running _ state request hstate hreq).2, List.nil_append,
        List.mem_singleton] at hmem
      exact hset hmem.symm request hreq
    · obtain ⟨l1, l2, l3, -⟩ := hlog j hji
      rw [l3] at hmem
      rw [Settled, l1, l2]
      exact h.settled j request hreq hmem

theorem Ends.of_none {now : Time} {token : Token} {id : RequestId} {state : RequestState}
    (h : Ends env s now token id state none) :
    token = env.eosToken ∨ state.remainingTokens ≤ 0 := by
  rcases h with ⟨hend, -⟩ | ⟨-, ⟨-, hno⟩ | ⟨-, -, hno⟩⟩
  · exact hend
  · simp at hno
  · simp at hno

/-- The token that ends a generation by itself settles the account. -/
theorem Account.settle {log : List Event} {id : RequestId} {state : RequestState}
    {request : PendingRequest} (h : Account env log id state request) {token : Token}
    (hend : token = env.eosToken ∨ (decremented state).remainingTokens ≤ 0) {log' : List Event}
    (hs : sampledFor log' id = sampledFor log id ++ [token])
    (hp : pushed log' id = pushed log id) : Settled env log' id request := by
  obtain ⟨h1, h2, h3, h4, h5⟩ := h
  refine ⟨token, by rw [hs, hp, h1], by rwa [hp], ?_, ?_⟩
  · rw [hp]
    omega
  · rw [hp]
    refine hend.imp_right fun hle => ?_
    have hle' : state.remainingTokens - 1 ≤ 0 := hle
    omega

theorem Accounts.pushed_step (h : Accounts env s) {id : RequestId}
    {seq : ActiveSequence} {state : RequestState} (hseq : s.active.get? id = some seq)
    (hstate : s.requests.get? id = some state) {now : Time} {token : Token}
    (hgo : Continues env s now token id (decremented state)) (phase : Phase) :
    Accounts env (pushedState env s id seq state now token phase) := by
  have hin : id ∈ s.active.keys := Dict.mem_keys.mpr ⟨seq, hseq⟩
  have hlog : ∀ j, sampledFor (pushedState env s id seq state now token phase).log j =
        sampledFor s.log j ++ (if id = j then [token] else []) ∧
      pushed (pushedState env s id seq state now token phase).log j =
        pushed s.log j ++ (if id = j then [token] else []) ∧
      finishes (pushedState env s id seq state now token phase).log j = finishes s.log j ∧
      admissions (pushedState env s id seq state now token phase).log j =
        admissions s.log j := by
    intro j
    by_cases hj : id = j <;> simp [pushedState, asSampled, asPushed, asFinished, asAdmitted, hj]
  have hactive : ∀ j, j ∈ (pushedState env s id seq state now token phase).active.keys ↔
      j ∈ s.active.keys := by
    intro j
    show j ∈ (s.active.set id _).keys ↔ _
    rw [Dict.mem_keys_set]
    exact ⟨fun hm => hm.elim (fun he => he ▸ hin) fun hm => hm, .inr⟩
  refine ⟨h.bodies, fun j hna hor => ?_, fun j st request hst hreq => ?_,
    fun j request hreq hfin => ?_⟩
  · obtain ⟨l1, l2, l3, l4⟩ := hlog j
    have hji : id ≠ j := by
      rintro rfl
      exact hna ((hactive _).mpr hin)
    rw [l1, l2, l3, l4, if_neg hji, List.append_nil, List.append_nil]
    exact h.quiet j (fun hm => hna ((hactive j).mpr hm)) hor
  · obtain ⟨l1, l2, l3, -⟩ := hlog j
    have hst' : (s.requests.set id _).get? j = some st := hst
    rw [Dict.get?_set] at hst'
    split_ifs at hst' with hji
    · subst hji
      obtain rfl := Option.some.inj hst'
      obtain ⟨⟨a1, a2, a3, a4, a5⟩, a6⟩ := h.running _ state request hstate hreq
      rw [if_pos rfl] at l1 l2
      refine ⟨⟨?_, ?_, ?_, hgo.2.1, ?_⟩, l3.trans a6⟩
      · rw [l1, l2, a1]
      · rw [l2, List.length_append, a2]
        rfl
      · show state.remainingTokens - 1 = (request.maxTokens : ℤ) - (state.tokensEmitted + 1 : ℕ)
        omega
      · rw [l2, List.mem_append, not_or, List.mem_singleton]
        exact ⟨a5, fun he => hgo.1 he.symm⟩
    · rw [if_neg hji, List.append_nil] at l1 l2
      obtain ⟨⟨a1, a2, a3, a4, a5⟩, a6⟩ := h.running j st request hst' hreq
      exact ⟨⟨by rwa [l1, l2], by rwa [l2], a3, a4, by rwa [l2]⟩, by rwa [l3]⟩
  · obtain ⟨l1, l2, l3, -⟩ := hlog j
    rw [l3] at hfin
    have hji : id ≠ j := by
      rintro rfl
      rw [(h.running _ state request hstate hreq).2] at hfin
      simp at hfin
    rw [if_neg hji, List.append_nil] at l1 l2
    rw [Settled, l1, l2]
    exact h.settled j request hreq hfin

theorem Accounts.transition (h : Accounts env s) (hb : Books env s) {l : Label}
    (ht : Transition env s l s') : Accounts env s' := by
  have hsame : ∀ (events : List Event), (∀ id, sampledFor events id = [] ∧ pushed events id = [] ∧
      finishes events id = [] ∧ admissions events id = []) → ∀ id,
      sampledFor (s.log ++ events) id = sampledFor s.log id ∧
        pushed (s.log ++ events) id = pushed s.log id ∧
        finishes (s.log ++ events) id = finishes s.log id ∧
        admissions (s.log ++ events) id = admissions s.log id := by
    intro events he id
    obtain ⟨e1, e2, e3, e4⟩ := he id
    simp [e1, e2, e3, e4]
  cases ht with
  | rejected hw hnew =>
    exact h.frame rfl (fun _ => .rfl) (fun _ hm => hm) rfl
      (hsame _ fun id => by simp [asSampled, asPushed, asFinished, asAdmitted])
  | accepted hw hnew hroom hres =>
    exact h.accepted_step hb hnew rfl rfl rfl rfl
      (hsame _ fun id => by simp [asSampled, asPushed, asFinished, asAdmitted])
  | receive hw hr =>
    refine h.frame rfl (fun _ => .rfl) (fun _ hm => hm) rfl (hsame _ fun id => ?_)
    split_ifs <;> simp [asSampled, asPushed, asFinished, asAdmitted]
  | leave hw hl =>
    exact h.frame rfl (fun _ => .rfl) (fun _ hm => hm) rfl
      (hsame _ fun id => by simp [asSampled, asPushed, asFinished, asAdmitted])
  | expire hp hstale hpool =>
    exact h.frame rfl (fun _ => .rfl) (fun _ hm => (Dict.mem_keys_erase.mp hm).2) rfl
      (hsame _ fun id => by simp [asSampled, asPushed, asFinished, asAdmitted])
  | admitted hp hpool hslot => exact h.admitted_step hb hpool _
  | buildNothing hp hnil =>
    exact h.frame rfl (fun _ => .rfl) (fun _ hm => hm) rfl
      (hsame _ fun id => by simp [asSampled, asPushed, asFinished, asAdmitted])
  | build hp hprep hne =>
    exact h.frame rfl (fun _ => .rfl) (fun _ hm => hm) rfl
      (hsame _ fun id => by simp [asSampled, asPushed, asFinished, asAdmitted])
  | decoded hp hkeys hactive =>
    exact h.frame rfl (fun j => by rw [hkeys]) (fun _ hm => hm) rfl
      (hsame _ fun id => by simp [asSampled, asPushed, asFinished, asAdmitted])
  | @finishSampled idOf now seqId token todo id seq state why hp hid hseq hstate hwhy htime =>
    refine h.retired_step hb hseq why rfl rfl rfl rfl (fun j hj => ?_) ?_ ?_
    · simp [finishedState, asSampled, asPushed, asFinished, asAdmitted, Ne.symm hj]
    · simp [finishedState, asFinished]
    · rintro rfl request hreq
      refine (h.running id state request hstate hreq).1.settle hwhy.of_none ?_ ?_
      · simp [finishedState, asSampled]
      · simp [finishedState, asPushed]
  | @dieSampled idOf now seqId token todo id seq state why hp hid hseq hstate hwhy htime =>
    refine h.retired_step hb hseq why rfl rfl rfl rfl (fun j hj => ?_) ?_ ?_
    · simp [diedState, asSampled, asPushed, asFinished, asAdmitted, Ne.symm hj]
    · simp [diedState, asFinished]
    · rintro rfl request hreq
      refine (h.running id state request hstate hreq).1.settle hwhy.of_none ?_ ?_
      · simp [diedState, asSampled]
      · simp [diedState, asPushed]
  | push hp hid hseq hstate hgo => exact h.pushed_step hseq hstate hgo _
  | @finishFailed id todo seq state hp hseq hstate htime =>
    refine h.retired_step hb hseq (some .decodeError) rfl rfl rfl rfl (fun j hj => ?_) ?_ ?_
    · simp [finishedState, asSampled, asPushed, asFinished, asAdmitted, Ne.symm hj]
    · simp [finishedState, asFinished]
    · simp
  | @dieFailed id todo seq state hp hseq hstate htime =>
    refine h.retired_step hb hseq (some .decodeError) rfl rfl rfl rfl (fun j hj => ?_) ?_ ?_
    · simp [diedState, asSampled, asPushed, asFinished, asAdmitted, Ne.symm hj]
    · simp [diedState, asFinished]
    · simp
  | _ =>
    exact h.frame rfl (fun _ => .rfl) (fun _ hm => hm) rfl fun _ => ⟨rfl, rfl, rfl, rfl⟩

theorem reachable_accounts {allowed : State → Label → Prop}
    (h : Reachable (step env) allowed (start env) s) : Accounts env s := by
  refine h.invariant (accounts_start env) fun s l s' hr hi _ hs => ?_
  exact hi.transition (reachable_books hr).1 (reachable_transition hr hs)

end Accounts

section Budget

/-- `min(M, k)`, where `k` counts the tokens before the first one that ends the text. -/
def budget (eos : Token) (maxTokens : ℕ) (tokens : List Token) : ℕ :=
  if eos ∈ tokens then min maxTokens (tokens.takeWhile fun t => t ≠ eos).length else maxTokens

/-- A request that completes by itself delivers its full budget exactly when the text ended
within it: the token that uses the budget up is sampled and never pushed. -/
theorem budget_met_iff (env : Env) (s : State) (h : Reachable (step env) anything (start env) s)
    (id : RequestId) (request : PendingRequest) (hr : s.accepted.get? id = some request)
    (hf : .finished id none ∈ s.log) :
    (pushed s.log id).length =
        budget env.eosToken request.maxTokens (sampledFor s.log id) ↔
      env.eosToken ∈ (sampledFor s.log id).take request.maxTokens := by
  obtain ⟨last, hs, hopen, hlen, hlast⟩ :=
    (reachable_accounts h).settled id request hr (mem_finishes.mpr hf)
  have hkeep : ∀ t ∈ pushed s.log id, decide (t ≠ env.eosToken) = true := by
    intro t ht
    have hne : t ≠ env.eosToken := fun he => hopen (he ▸ ht)
    simpa using hne
  have hall : (pushed s.log id ++ [last]).take request.maxTokens = pushed s.log id ++ [last] := by
    refine List.take_of_length_le ?_
    rw [List.length_append, List.length_singleton]
    omega
  rw [hs, hall, budget]
  by_cases he : last = env.eosToken
  · subst he
    have hmem : env.eosToken ∈ pushed s.log id ++ [env.eosToken] := by simp
    have hk : ((pushed s.log id ++ [env.eosToken]).takeWhile fun t => t ≠ env.eosToken).length =
        (pushed s.log id).length := by
      rw [List.takeWhile_append_of_pos hkeep]
      simp
    rw [if_pos hmem, hk]
    exact ⟨fun _ => hmem, fun _ => (min_eq_right hlen.le).symm⟩
  · have hmem : env.eosToken ∉ pushed s.log id ++ [last] := by
      rw [List.mem_append, not_or, List.mem_singleton]
      exact ⟨hopen, fun h => he h.symm⟩
    rw [if_neg hmem]
    exact ⟨fun h => by omega, fun h => absurd h hmem⟩

/-- One request runs to the end of its budget while the model never ends the text. -/
def demoRun : List Label :=
  let tick : List Label := List.replicate 3 .loop ++ [.decoded (fun _ => 1) [1]]
  [.generate 0 demoBody] ++ List.replicate 2 .loop ++ tick ++ [.loop] ++ tick ++
    List.replicate 2 .loop ++ tick ++ [.loop]

theorem demoRun_ends : ∃ s, run (step demo) (start demo) demoRun = some s ∧
    s.accepted.get? 0 = some (newRequest demo (start demo) 0 demoBody) ∧
    .finished 0 none ∈ s.log ∧ pushed s.log 0 = [1] ∧ sampledFor s.log 0 = [1, 1] := by
  obtain ⟨s, hs⟩ := Option.isSome_iff_exists.mp
    (by decide +kernel : (run (step demo) (start demo) demoRun).isSome)
  have hfinal : (run (step demo) (start demo) demoRun).map (fun s => (s.accepted.get? 0,
      decide (.finished 0 none ∈ s.log), pushed s.log 0, sampledFor s.log 0)) =
      some (some (newRequest demo (start demo) 0 demoBody), true, [1], [1, 1]) := by
    decide +kernel
  rw [hs, Option.map_some, Option.some.injEq, Prod.mk.injEq, Prod.mk.injEq, Prod.mk.injEq]
    at hfinal
  obtain ⟨hreq, hfin, hp, ht⟩ := hfinal
  exact ⟨s, hs, hreq, of_decide_eq_true hfin, hp, ht⟩

theorem budget_met_iff_demo : ∃ s, run (step demo) (start demo) demoRun = some s ∧
    ((pushed s.log 0).length = budget demo.eosToken 2 (sampledFor s.log 0) ↔
      demo.eosToken ∈ (sampledFor s.log 0).take 2) := by
  obtain ⟨s, hs, hreq, hfin, -⟩ := demoRun_ends
  exact ⟨s, hs, budget_met_iff demo s (Reachable.init.run hs) 0 _ hreq hfin⟩

/-- A budget of two delivers one token when the model goes on. -/
theorem budget_missed : ¬ ∀ (env : Env) (s : State), Reachable (step env) anything (start env) s →
    ∀ id request, s.accepted.get? id = some request → .finished id none ∈ s.log →
      (pushed s.log id).length =
        budget env.eosToken request.maxTokens (sampledFor s.log id) := by
  intro h
  obtain ⟨s, hs, hreq, hfin, hp, ht⟩ := demoRun_ends
  have hbudget := h demo s (Reachable.init.run hs) 0 _ hreq hfin
  rw [hp, ht] at hbudget
  exact absurd hbudget (by decide)

end Budget

end TinyServe.BatchLoop
