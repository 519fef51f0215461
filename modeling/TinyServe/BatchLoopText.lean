import TinyServe.BatchLoopOutput
import TinyServe.BatchLoopStreams
import TinyServe.StreamingDelivery

set_option autoImplicit false

/-!
The text a client reads. The loop and the handlers drive every stream as its contract asks, so what
comes out of a stream is the text of what was sampled for its request.
-/
namespace TinyServe.BatchLoop
open OrderedDict BatchBuilder Scheduler Streaming Runs

section Contract
variable {env : Env} {s s' : State} {id : RequestId} {l : Label}

/-- The call on the stream manager that a step makes, if it makes one. -/
structure Calls (env : Env) (s s' : State) (calls : List Streaming.Label) : Prop where
  made : run (Streaming.step env.decoder) s.streams calls = some s'.streams
  single : calls.length ≤ 1
  log : ∃ events, s'.log = s.log ++ events ∧ ∀ id,
    Streaming.pushed id calls = (pushed events id).map (fun token => env.detokenize [token]) ∧
      received id calls = taken events id
  created : ∀ id, .create id ∈ calls → id ∉ s.accepted.keys ∧ Holding s' id
  accepted : ∀ id, id ∈ s'.accepted.keys ↔ id ∈ s.accepted.keys ∨ .create id ∈ calls
  closed : ∀ id ∈ s.accepted.keys, .close id ∈ calls ↔ Holding s id ∧ ¬ Holding s' id
  fed : ∀ id bytes, .push id bytes ∈ calls → Holding s id
  kept : ∀ id ∈ s.accepted.keys, Holding s' id → Holding s id

theorem Calls.silent {events : List Event} (hs : s'.streams = s.streams)
    (hlog : s'.log = s.log ++ events) (hev : ∀ id, pushed events id = [] ∧ taken events id = [])
    (hacc : s'.accepted = s.accepted) (hhold : ∀ id, Holding s' id ↔ Holding s id) :
    Calls env s s' [] where
  made := by rw [hs]; rfl
  single := Nat.zero_le 1
  log := ⟨events, hlog, fun id => ⟨by rw [(hev id).1]; rfl, by rw [(hev id).2]; rfl⟩⟩
  created := by simp
  accepted j := by simp [hacc]
  closed id _ := by simp [hhold]
  fed := by simp
  kept id _ := (hhold id).mp

theorem Calls.close {events : List Event} (hs : s'.streams = (s.streams.close env.decoder id).1)
    (hlog : s'.log = s.log ++ events) (hev : ∀ id, pushed events id = [] ∧ taken events id = [])
    (hin : Holding s id) (hacc : s'.accepted = s.accepted)
    (hhold : ∀ j, Holding s' j ↔ j ≠ id ∧ Holding s j) : Calls env s s' [.close id] where
  made := by rw [hs]; rfl
  single := le_rfl
  log := ⟨events, hlog, fun j => ⟨by rw [(hev j).1]; rfl, by rw [(hev j).2]; rfl⟩⟩
  created := by simp
  accepted j := by simp [hacc]
  closed j _ := by
    simp only [List.mem_singleton, Streaming.Label.close.injEq, hhold]
    constructor
    · rintro rfl
      exact ⟨hin, by simp⟩
    · rintro ⟨hj, hno⟩
      by_contra hne
      exact hno ⟨hne, hj⟩
  fed := by simp
  kept j _ hj := ((hhold j).mp hj).2

theorem Calls.create {events : List Event} (hs : s'.streams = s.streams.create id)
    (hlog : s'.log = s.log ++ events) (hev : ∀ id, pushed events id = [] ∧ taken events id = [])
    (hnew : id ∉ s.accepted.keys) {body : GenerateRequest}
    (hacc : s'.accepted = s.accepted.set id (newRequest env s id body))
    (hq : s'.queue = s.queue.push (newRequest env s id body)) (ha : s'.active = s.active) :
    Calls env s s' [.create id] where
  made := by rw [hs]; rfl
  single := le_rfl
  log := ⟨events, hlog, fun j => ⟨by rw [(hev j).1]; rfl, by rw [(hev j).2]; rfl⟩⟩
  created j hj := by
    obtain rfl : j = id := by simpa using hj
    exact ⟨hnew, (holding_enqueued hq ha j).mpr (.inl rfl)⟩
  accepted j := by
    rw [hacc, Dict.mem_keys_set]
    simp [or_comm]
  closed j _ := by
    rw [holding_enqueued hq ha]
    simp only [List.mem_singleton, reduceCtorEq, false_iff]
    exact fun ⟨hin, hout⟩ => hout (.inr hin)
  fed := by simp
  kept j hj h := by
    refine ((holding_enqueued hq ha j).mp h).resolve_left ?_
    rintro (rfl : j = id)
    exact hnew hj

theorem Calls.client (call : Streaming.Label) {events : List Event}
    (hmade : Streaming.step env.decoder s.streams call = some s'.streams)
    (hlog : s'.log = s.log ++ events)
    (hev : ∀ j, pushed events j = [] ∧ received j [call] = taken events j)
    (hcall : ∀ j, call ≠ .create j ∧ call ≠ .close j ∧ ∀ bytes, call ≠ .push j bytes)
    (hacc : s'.accepted = s.accepted) (hhold : ∀ id, Holding s' id ↔ Holding s id) :
    Calls env s s' [call] where
  made := by rw [run, hmade]; rfl
  single := le_rfl
  log := by
    refine ⟨events, hlog, fun j => ⟨?_, (hev j).2⟩⟩
    rw [(hev j).1]
    obtain ⟨-, -, hpush⟩ := hcall j
    cases call with
    | push id bytes =>
      by_cases hid : id = j
      · exact absurd rfl (hid ▸ hpush bytes)
      · simp [Streaming.pushed, hid]
    | _ => rfl
  created j hj := absurd (List.mem_singleton.mp hj).symm (hcall j).1
  accepted j := by
    rw [hacc, List.mem_singleton, or_iff_left fun he => (hcall j).1 he.symm]
  closed j _ := by
    rw [hhold]
    simp only [List.mem_singleton, and_not_self, iff_false]
    exact fun he => (hcall j).2.1 he.symm
  fed j bytes hj := absurd (List.mem_singleton.mp hj).symm ((hcall j).2.2 bytes)
  kept j _ := (hhold j).mp

theorem Transition.calls (hb : Books env s) (ht : Transition env s l s') :
    ∃ calls, Calls env s s' calls := by
  have hnil : s.log = s.log ++ [] := (List.append_nil _).symm
  cases ht with
  | rejected hw hnew =>
    exact ⟨_, .silent rfl rfl (fun j => by simp [asPushed, asReceived]) rfl fun _ => .rfl⟩
  | accepted hw hnew hroom hres =>
    exact ⟨_, .create rfl rfl (fun j => by simp [asPushed, asReceived]) (hb.unissued hnew).2.2.1
      rfl rfl rfl⟩
  | setPolicy hw => exact ⟨_, .silent rfl hnil (fun _ => ⟨rfl, rfl⟩) rfl fun _ => .rfl⟩
  | cancel hw =>
    exact ⟨_, .client (.cancel _) rfl hnil (fun _ => ⟨rfl, rfl⟩) (fun _ => by simp)
      rfl fun _ => .rfl⟩
  | @receive id item streams hw hr =>
    refine ⟨_, .client (.receive id item) (by simp [Streaming.step, hr]) rfl (fun j => ?_)
      (fun _ => by simp) rfl fun _ => .rfl⟩
    by_cases hj : id = j <;> split_ifs <;> simp [asPushed, asReceived, received, hj]
  | leave hw hl =>
    exact ⟨_, .client (.leave _) rfl rfl
      (fun j => ⟨by simp [asPushed], by simp [asReceived, received]⟩) (fun _ => by simp)
      rfl fun _ => .rfl⟩
  | expire hp hstale hpool =>
    have hin := Dict.mem_keys.mpr ⟨_, hpool⟩
    exact ⟨_, .close rfl rfl (fun j => by simp [asPushed, asReceived]) (.inl hin)
      rfl (hb.holding_expired hin _)⟩
  | admitted hp hpool hslot =>
    exact ⟨_, .silent rfl rfl (fun j => by simp [asPushed, asReceived]) rfl
      (holding_admitted (Dict.mem_keys.mpr ⟨_, hpool⟩) _ _)⟩
  | buildNothing | build =>
    exact ⟨_, .silent rfl rfl (fun j => by simp [asPushed, asReceived]) rfl fun _ => .rfl⟩
  | decoded hp hkeys hactive =>
    exact ⟨_, .silent rfl rfl (fun j => by simp [asPushed, asReceived]) rfl
      (holding_congr rfl hkeys)⟩
  | finishSampled hp hid hseq | dieSampled hp hid hseq | finishFailed hp hseq | dieFailed hp hseq =>
    have hin := Dict.mem_keys.mpr ⟨_, hseq⟩
    obtain ⟨state, -⟩ := hb.state_of_seq hseq
    exact ⟨_, .close rfl rfl (fun j => by simp [asPushed, asReceived]) (.inr hin)
      rfl (hb.holding_retired hin state)⟩
  | @push idOf now seqId token todo id seq state hp hid hseq hstate hgo =>
    have hin : id ∈ s.active.keys := Dict.mem_keys.mpr ⟨seq, hseq⟩
    have hhold : ∀ j, Holding (pushedState env s id seq state now token
        (.distributing idOf now todo)) j ↔ Holding s j := by
      intro j
      show j ∈ s.queue.pool.keys ∨ j ∈ (s.active.set id _).keys ↔ _
      rw [Dict.keys_set_of_mem hin, Holding]
    refine ⟨[.push id (env.detokenize [token])], rfl, le_rfl, ⟨_, rfl, fun j => ⟨?_, ?_⟩⟩, by simp,
      fun j => by simp [pushedState], fun j _ => by simp [hhold], fun j bytes hj => ?_,
      fun j _ => (hhold j).mp⟩
    · by_cases hj : id = j <;> simp [asPushed, Streaming.pushed, hj]
    · simp [asReceived, received]
    · obtain ⟨rfl, -⟩ : j = id ∧ _ := by simpa using hj
      exact .inr hin
  | _ => exact ⟨_, .silent rfl hnil (fun _ => ⟨rfl, rfl⟩) rfl fun _ => .rfl⟩

/-- A run of the stream manager since the request was accepted, as its contract asks for it. -/
structure Follows (env : Env) (s : State) (id : RequestId) (m : StreamManager)
    (calls : List Streaming.Label) : Prop where
  served : run (Streaming.step env.decoder) (m.create id) calls = some s.streams
  once : UsedOnce id calls
  tokens : Streaming.pushed id calls =
    (pushed s.log id).map fun token => env.detokenize [token]
  items : received id calls = taken s.log id
  closed : .close id ∈ calls ↔ ¬ Holding s id

theorem Follows.step {m : StreamManager} {calls more : List Streaming.Label}
    (h : Follows env s id m calls) (hid : id ∈ s.accepted.keys) (hm : Calls env s s' more) :
    Follows env s' id m (calls ++ more) := by
  obtain ⟨events, hlog, hev⟩ := hm.log
  obtain ⟨htokens, hitems⟩ := hev id
  have hcreate : .create id ∉ more := fun hc => (hm.created id hc).1 hid
  refine ⟨?_, h.once.append hm.single hcreate fun hc => ?_, ?_, ?_, ?_⟩
  · rw [run_append, h.served]
    exact hm.made
  · have hout := h.closed.mp hc
    exact ⟨fun hc' => hout ((hm.closed id hid).mp hc').1, fun bytes hp => hout (hm.fed id bytes hp)⟩
  · rw [Streaming.pushed_append, h.tokens, htokens, ← List.map_append, ← view_append, ← hlog]
  · rw [received_append, h.items, hitems, ← view_append, ← hlog]
  · rw [List.mem_append, h.closed, hm.closed id hid]
    constructor
    · rintro (hout | ⟨-, hout⟩)
      · exact fun hh => hout (hm.kept id hid hh)
      · exact hout
    · intro hout
      by_cases hin : Holding s id
      · exact .inr ⟨hin, hout⟩
      · exact .inl hin

/-- Every accepted request has its stream served by the contract, and the others have none. -/
structure Contracted (env : Env) (s : State) : Prop where
  follows : ∀ id ∈ s.accepted.keys, ∃ m calls, Follows env s id m calls
  absent : ∀ id, id ∉ s.accepted.keys → s.streams.streams.get? id = none ∧ taken s.log id = []

theorem contracted_start (env : Env) : Contracted env (start env) where
  follows _ h := by simp [start] at h
  absent _ _ := ⟨rfl, rfl⟩

/-- Calls of which none creates its stream leave a request without one. -/
theorem Calls.absent {calls : List Streaming.Label} (hm : Calls env s s' calls)
    (hcreate : .create id ∉ calls)
    (h : s.streams.streams.get? id = none ∧ taken s.log id = []) :
    s'.streams.streams.get? id = none ∧ taken s'.log id = [] := by
  obtain ⟨events, hlog, hev⟩ := hm.log
  obtain ⟨-, hitems⟩ := hev id
  rw [hlog, taken, view_append, ← taken, ← taken, h.2, List.nil_append, ← hitems]
  have hmade := hm.made
  rcases calls with _ | ⟨call, more⟩
  · obtain hsame := Option.some.inj hmade
    rw [← hsame]
    exact ⟨h.1, rfl⟩
  · obtain rfl := @single_split Streaming.Label _ [] more call hm.single rfl
    obtain ⟨m, hstep, hdone⟩ := Option.bind_eq_some_iff.mp hmade
    obtain rfl := Option.some.inj hdone
    exact step_absent hstep h.1 fun he => hcreate (by simp [he])

theorem Contracted.step (h : Contracted env s) (hb : Books env s) (hacc : Accounts env s)
    {calls : List Streaming.Label} (hm : Calls env s s' calls) : Contracted env s' := by
  refine ⟨fun id hid => ?_, fun id hid => ?_⟩
  · rcases (hm.accepted id).mp hid with hold | hnew
    · obtain ⟨m, before, hfollows⟩ := h.follows id hold
      exact ⟨m, before ++ calls, hfollows.step hold hm⟩
    · obtain ⟨hfresh, hholds⟩ := hm.created id hnew
      obtain ⟨part, rest, hsplit⟩ := List.append_of_mem hnew
      obtain rfl := single_split hm.single hsplit
      obtain rfl : part = [] := by
        have hone := hm.single
        rw [hsplit, List.length_append] at hone
        exact List.eq_nil_of_length_eq_zero (by simpa using hone)
      rw [List.nil_append] at hsplit
      subst hsplit
      obtain ⟨events, hlog, hev⟩ := hm.log
      obtain ⟨htokens, hitems⟩ := hev id
      obtain ⟨-, hquiet, -⟩ := hacc.quiet id (fun hin => hfresh (hb.known id hin)) (.inr hfresh)
      have hpushed : pushed events id = [] := List.map_eq_nil_iff.mp htokens.symm
      refine ⟨s.streams, [], ?_, ⟨by simp, by simp⟩, ?_, ?_, by simpa using hholds⟩
      · exact hm.made
      · rw [hlog, pushed, view_append, ← pushed, ← pushed, hquiet, hpushed]
        rfl
      · rw [hlog, taken, view_append, ← taken, ← taken, (h.absent id hfresh).2, ← hitems]
        rfl
  · rw [hm.accepted, not_or] at hid
    exact hm.absent hid.2 (h.absent id hid.1)

theorem reachable_contracted {allowed : State → Label → Prop}
    (h : Reachable (BatchLoop.step env) allowed (BatchLoop.start env) s) : Contracted env s := by
  refine h.invariant (contracted_start env) fun s l s' hr hi _ hs => ?_
  obtain ⟨calls, hm⟩ := (reachable_transition hr hs).calls (reachable_books hr).1
  exact hi.step (reachable_books hr).1 (reachable_accounts hr) hm

end Contract

section Completion
variable {τ : Type} [DecidableEq τ]

/-- What the isolated decoder generates within a budget, up to the token that ends the text. -/
def fullCompletion (f : List τ → τ) (eos : τ) (prompt : List τ) (maxTokens : ℕ) : List τ :=
  (reference f prompt maxTokens).takeWhile fun t => t ≠ eos

variable {f : List τ → τ} {eos : τ} {prompt tokens : List τ} {maxTokens : ℕ}

theorem prefix_fullCompletion (hr : tokens = reference f prompt tokens.length) (he : eos ∉ tokens)
    (hlt : tokens.length < maxTokens) :
    tokens <+: (fullCompletion f eos prompt maxTokens).take (maxTokens - 1) := by
  have hkeep : ∀ t ∈ tokens, decide (t ≠ eos) = true := by
    intro t ht
    have hne : t ≠ eos := fun h => he (h ▸ ht)
    simpa using hne
  obtain ⟨rest, hrest⟩ := reference_le f prompt hlt.le
  rw [← hr] at hrest
  rw [fullCompletion, ← hrest, List.takeWhile_append_of_pos hkeep, List.prefix_take_iff]
  exact ⟨List.prefix_append _ _, by omega⟩

/-- With the token that ends the text, or the last one of the budget, which is not pushed either,
nothing else is missing. -/
theorem fullCompletion_settled {last : τ} (he : eos ∉ tokens) (hlt : tokens.length < maxTokens)
    (hr : tokens ++ [last] = reference f prompt (tokens.length + 1))
    (hend : last = eos ∨ tokens.length + 1 = maxTokens) :
    tokens = (fullCompletion f eos prompt maxTokens).take (maxTokens - 1) := by
  have hinit := (List.append_inj' hr rfl).1
  refine (prefix_fullCompletion hinit he hlt).eq_of_length_le ?_
  rcases hend with rfl | hfull
  · obtain ⟨rest, hrest⟩ := reference_le f prompt (Nat.succ_le_of_lt hlt)
    rw [Nat.succ_eq_add_one, ← hr, List.append_assoc] at hrest
    have hkeep : ∀ t ∈ tokens, decide (t ≠ last) = true := by
      intro t ht
      have hne : t ≠ last := fun h => he (h ▸ ht)
      simpa using hne
    rw [fullCompletion, ← hrest, List.takeWhile_append_of_pos hkeep]
    simp
  · rw [fullCompletion, List.length_take]
    omega

end Completion

section Drawn
variable {env : Env} {f : List Token → Token} {s s' : State} {l : Label}

/-- What was sampled for a request is what the isolated decoder samples, and what was pushed of it
is within the text and the budget. -/
def Drawn (env : Env) (f : List Token → Token) (s : State) : Prop :=
  ∀ request, s.accepted.get? request.id = some request →
    sampledFor s.log request.id =
        reference f request.promptTokens (sampledFor s.log request.id).length ∧
      env.eosToken ∉ pushed s.log request.id ∧
      (pushed s.log request.id).length < request.maxTokens

theorem Drawn.frame (h : Drawn env f s) {events : List Event} (hacc : s'.accepted = s.accepted)
    (hlog : s'.log = s.log ++ events)
    (hev : ∀ id, sampledFor events id = [] ∧ pushed events id = []) : Drawn env f s' := by
  intro request hreq
  obtain ⟨hs, hp⟩ := hev request.id
  rw [hacc] at hreq
  rw [hlog, sampledFor, pushed, view_append, view_append, ← sampledFor, ← sampledFor, ← pushed,
    ← pushed, hs, hp, List.append_nil, List.append_nil]
  exact h request hreq

theorem Drawn.accepted_step (h : Drawn env f s) (hb : Books env s) (hacc : Accounts env s)
    {id : RequestId} {body : GenerateRequest} {events : List Event} (hnew : id ∉ s.issued)
    (haccept : s'.accepted = s.accepted.set id (newRequest env s id body))
    (hlog : s'.log = s.log ++ events)
    (hev : ∀ id, sampledFor events id = [] ∧ pushed events id = []) : Drawn env f s' := by
  intro request hreq
  obtain ⟨hs, hp⟩ := hev request.id
  rw [haccept, Dict.get?_set] at hreq
  rw [hlog, sampledFor, pushed, view_append, view_append, ← sampledFor, ← sampledFor, ← pushed,
    ← pushed, hs, hp, List.append_nil, List.append_nil]
  split_ifs at hreq with hid
  · obtain ⟨-, hactive, haccepted, -⟩ := hb.unissued hnew
    obtain ⟨hs0, hp0, -⟩ := hacc.quiet id hactive (.inr haccepted)
    obtain rfl := Option.some.inj hreq
    rw [← hid, hs0, hp0]
    exact ⟨rfl, List.not_mem_nil, body.maxTokens_pos⟩
  · exact h request hreq

/-- A token that is sampled for a request follows what was sampled for it before; it is pushed if
it neither ends the text nor uses the budget up. -/
theorem Drawn.distributed_step (h : Drawn env f s) (ho : Outputs f s)
    (hs : Standing env s) (hacc : Accounts env s) {idOf : Dict SeqId RequestId} {now : Time}
    {seqId : SeqId} {token : Token} {todo : List (SeqId × Token)} {id : RequestId}
    {seq : ActiveSequence} {state : RequestState}
    (hp : s.phase = .distributing idOf now ((seqId, token) :: todo))
    (hid : idOf.get? seqId = some id) (hseq : s.active.get? id = some seq)
    (hstate : s.requests.get? id = some state) (haccept : s'.accepted = s.accepted)
    {events : List Event} (hlog : s'.log = s.log ++ events)
    (hsampled : ∀ j, sampledFor events j = if id = j then [token] else [])
    (hpushed : ∀ j, pushed events j = [] ∨ id = j ∧ pushed events j = [token] ∧
      token ≠ env.eosToken ∧ 0 < state.remainingTokens - 1) : Drawn env f s' := by
  intro request hreq
  rw [haccept] at hreq
  obtain ⟨hsame, hopen, hlen⟩ := h request hreq
  have haccount : id = request.id → Account env s.log id state request := by
    rintro rfl
    exact (hacc.running _ state request hstate hreq).1
  rw [hlog, sampledFor, pushed, view_append, view_append, ← sampledFor, ← sampledFor, ← pushed,
    ← pushed]
  refine ⟨?_, ?_⟩
  · rw [hsampled]
    split_ifs with hj
    · subst hj
      obtain ⟨hslot, -⟩ := hs.tail_distributing hp hid hseq
      have htoken : token = f (text s request) := ho.due (seqId, token)
        (by rw [hp]; exact List.mem_cons_self) request seq hseq hreq hslot
      rw [List.length_append, List.length_singleton, reference, ← hsame, htoken, text,
        (haccount rfl).same]
    · rw [List.append_nil]
      exact hsame
  · rcases hpushed request.id with hkept | ⟨hj, hmore, hne, hleft⟩
    · rw [hkept, List.append_nil]
      exact ⟨hopen, hlen⟩
    · have ha := haccount hj
      rw [hmore, List.mem_append, not_or, List.mem_singleton, List.length_append,
        List.length_singleton, ← hj, ha.emitted]
      have hremaining := ha.remaining
      exact ⟨⟨hj ▸ hopen, fun he => hne he.symm⟩, by omega⟩

theorem Drawn.transition (h : Drawn env f s) (ho : Outputs f s) (hb : Books env s)
    (hs : Standing env s) (hacc : Accounts env s) (ht : Transition env s l s') :
    Drawn env f s' := by
  cases ht with
  | accepted hw hnew hroom hres =>
    exact h.accepted_step hb hacc hnew rfl rfl fun j => by simp [asSampled, asPushed]
  | finishSampled hp hid hseq hstate | dieSampled hp hid hseq hstate =>
    refine h.distributed_step ho hs hacc hp hid hseq hstate rfl rfl (fun j => ?_) fun j => .inl ?_
    · split_ifs with hj <;> simp [asSampled, hj]
    · simp [asPushed]
  | @push idOf now seqId token todo id seq state hp hid hseq hstate hgo =>
    refine h.distributed_step ho hs hacc hp hid hseq hstate rfl rfl (fun j => ?_) fun j => ?_
    · split_ifs with hj <;> simp [asSampled, hj]
    · by_cases hj : id = j
      · exact .inr ⟨hj, by simp [asPushed, hj], hgo.1, hgo.2.1⟩
      · exact .inl (by simp [asPushed, hj])
  | receive hw hr =>
    refine h.frame rfl rfl fun j => ?_
    split_ifs <;> simp [asSampled, asPushed]
  | setPolicy | cancel | beginExpiry | wake | keep | rest | full | select | selectRaised
  | decodeFailed | endTick =>
    exact h.frame rfl (List.append_nil _).symm fun _ => ⟨rfl, rfl⟩
  | _ => exact h.frame rfl rfl fun j => by simp [asSampled, asPushed]

theorem reachable_drawn (h : Reachable (step env) (SamplesBy f) (start env) s) :
    Drawn env f s := by
  refine h.invariant (fun _ hreq => by simp [start] at hreq) fun s l s' hr hi _ hs => ?_
  exact hi.transition (reachable_outputs hr) (reachable_books hr).1 (reachable_books hr).2
    (reachable_accounts hr) (reachable_transition hr hs)

end Drawn

section Response
variable {env : Env} {s : State} {id : RequestId}

/-- The `text` of `GenerateResponse`, from the items that `subscribe` was handed. -/
def responseText (items : List Item) : String :=
  String.join (items.filterMap fun
    | .text chunk => some chunk
    | .endOfStream => none)

theorem responseText_texts (texts : List String) :
    responseText (texts.map .text ++ [.endOfStream]) = String.join texts := by
  simp [responseText, List.filterMap_append, List.filterMap_map]

theorem Contracted.served (h : Contracted env s) (hid : id ∈ s.accepted.keys) :
    ∃ m calls, Follows env s id m calls ∧ Served env.decoder id calls s.streams := by
  obtain ⟨m, calls, hfollows⟩ := h.follows id hid
  exact ⟨m, calls, hfollows, run_served m hfollows.once hfollows.served⟩

/-- A stream of which the request has ended keeps something to take until the end marker is taken. -/
theorem Contracted.ready (h : Contracted env s) (hid : id ∈ s.accepted.keys)
    (hout : ¬ Holding s id) (hthere : s.streams.streams.contains id = true) :
    (s.streams.receive id).isSome := by
  obtain ⟨m, calls, hfollows, hserved⟩ := h.served hid
  have hclosed := hfollows.closed.mpr hout
  cases hserved with
  | live stream entry decoded queued more stays =>
    exact Served.ready (.live stream entry decoded queued more stays) hclosed stays more
  | ended entry => simp [Dict.contains, entry] at hthere
  | left entry => simp [Dict.contains, entry] at hthere

/-- What a stream has handed out once its end marker is taken. -/
theorem read_texts {f : List Token → Token} {oneShot : Bytes → String}
    (hd : DecodesWhole env.decoder oneShot)
    (h : Reachable (step env) (SamplesBy f) (start env) s) {request : PendingRequest}
    (hr : s.accepted.get? id = some request) (hend : .endOfStream ∈ taken s.log id) :
    ∃ (texts : List String) (tokens : List Token),
      taken s.log id = texts.map .text ++ [.endOfStream] ∧ (∀ t ∈ texts, t ≠ "") ∧
      String.join texts = oneShot (tokens.flatMap fun token => env.detokenize [token]) ∧
      tokens <+: (fullCompletion f env.eosToken request.promptTokens request.maxTokens).take
        (request.maxTokens - 1) ∧
      (.finished id none ∈ s.log →
        tokens = (fullCompletion f env.eosToken request.promptTokens request.maxTokens).take
          (request.maxTokens - 1)) := by
  obtain rfl := (reachable_books h).1.named id request hr
  have hin : request.id ∈ s.accepted.keys := Dict.mem_keys.mpr ⟨request, hr⟩
  obtain ⟨m, calls, hfollows, hserved⟩ := (reachable_contracted h).served hin
  rw [← hfollows.items] at hend
  obtain ⟨-, texts, hitems, hne, hjoin⟩ := hserved.text hd hend
  rw [hfollows.items] at hitems
  obtain ⟨hsampled, hopen, hlen⟩ := reachable_drawn h request hr
  have hpushed := (reachable_outputs h).follows request hr
  refine ⟨texts, pushed s.log request.id, hitems, hne, ?_,
    prefix_fullCompletion hpushed hopen hlen, fun hfin => ?_⟩
  · rw [hjoin, hfollows.tokens, List.flatMap_def]
  · obtain ⟨last, hs, -, -, hlast⟩ :=
      (reachable_accounts h).settled _ request hr (mem_finishes.mpr hfin)
    refine fullCompletion_settled hopen hlen ?_ hlast
    rw [hs, List.length_append, List.length_singleton] at hsampled
    exact hsampled

end Response

/-- Whatever else the server serves, a client that reads its stream to the end is answered the text
of a beginning of what the isolated decoder generates for its prompt and budget, short of the token
that ends it and of the last one of the budget, and if the request ended by itself of all that is
short of those; and once the request has ended nothing keeps it from reading on. -/
theorem client_reads_completion (f : List Token → Token) (env : Env) {oneShot : Bytes → String}
    (hd : DecodesWhole env.decoder oneShot) (s : State)
    (h : Reachable (step env) (SamplesBy f) (start env) s) (id : RequestId)
    (request : PendingRequest) (hr : s.accepted.get? id = some request) :
    (.endOfStream ∈ taken s.log id →
      (∃ texts : List String, taken s.log id = texts.map .text ++ [.endOfStream] ∧
        ∀ t ∈ texts, t ≠ "") ∧
      ∃ tokens,
        tokens <+: (fullCompletion f env.eosToken request.promptTokens request.maxTokens).take
          (request.maxTokens - 1) ∧
        responseText (taken s.log id) =
          oneShot (tokens.flatMap fun token => env.detokenize [token]) ∧
        (.finished id none ∈ s.log →
          tokens = (fullCompletion f env.eosToken request.promptTokens request.maxTokens).take
            (request.maxTokens - 1))) ∧
    (¬ Holding s id → s.streams.streams.contains id = true → (s.streams.receive id).isSome) := by
  refine ⟨fun hend => ?_, (reachable_contracted h).ready (Dict.mem_keys.mpr ⟨request, hr⟩)⟩
  obtain ⟨texts, tokens, hitems, hne, hjoin, hpart, hall⟩ := read_texts hd h hr hend
  refine ⟨⟨texts, hitems, hne⟩, tokens, hpart, ?_, hall⟩
  rw [hitems, responseText_texts, hjoin]

section Demo

/-- The small server with a vocabulary that spells. -/
def demoSpelling : Env := { demo with
  detokenize := fun tokens => tokens.map fun _ => 0x61
  decoder := utf8Decoder }

/-- The one request runs to its end, and its client reads what there is. -/
def demoReads : List Label := demoRun ++ [.loop, .receive 0, .receive 0]

theorem demoReads_sampled : ∀ l ∈ demoReads, ∀ s, SamplesBy (fun _ => 1) s l := by
  intro l hl s sample order prepared he _ i row _ _
  subst he
  simp [demoReads, demoRun] at hl
  rw [hl.1]

theorem client_reads_completion_demo : ∃ s, run (step demoSpelling) (start demoSpelling) demoReads =
      some s ∧ .finished 0 none ∈ s.log ∧
    responseText (taken s.log 0) = utf8Text
      (((fullCompletion (fun _ => 1) 0 [1, 1, 1] 2).take 1).flatMap fun token =>
        demoSpelling.detokenize [token]) := by
  have hfinal : (run (step demoSpelling) (start demoSpelling) demoReads).map (fun s =>
      (s.accepted.get? 0, decide (.finished 0 none ∈ s.log), taken s.log 0)) =
      some (some (newRequest demoSpelling (start demoSpelling) 0 demoBody), true,
        [.text "a", .endOfStream]) := by decide +kernel
  obtain ⟨s, hs, hparts⟩ := Option.map_eq_some_iff.mp hfinal
  obtain ⟨hreq, hparts⟩ := Prod.mk.inj hparts
  obtain ⟨hfin, htaken⟩ := Prod.mk.inj hparts
  obtain ⟨-, tokens, -, htext, hall⟩ := (client_reads_completion (fun _ => 1) demoSpelling
    utf8Decoder_whole s (Reachable.init.run_allowed demoReads_sampled hs) 0 _ hreq).1 (by simp [htaken])
  rw [hall (of_decide_eq_true hfin)] at htext
  exact ⟨s, hs, of_decide_eq_true hfin, htext⟩

end Demo

end TinyServe.BatchLoop
