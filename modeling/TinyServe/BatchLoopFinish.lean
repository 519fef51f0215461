import TinyServe.BatchLoopLifecycle

set_option autoImplicit false

/-! The calls of `finish`: when they return, and what the loop after a failed decode gives back. -/
namespace TinyServe.BatchLoop
open OrderedDict BatchBuilder Scheduler Streaming Runs

section Calls

/-- The state a call of `finish` finds, and its arguments. -/
structure FinishCall where
  found : State
  id : RequestId
  reason : Option CancelReason

def FinishCall.outcome (env : Env) (call : FinishCall) : Outcome :=
  finish env call.found call.id call.reason

/-- The state once a sampled token is counted against the budget of its request. -/
def counted (s : State) (id : RequestId) (state : RequestState) (token : Token) : State :=
  { s with
    requests := s.requests.set id (decremented state)
    log := s.log ++ [.sampled id token] }

/-- The call of `finish` in the loop's next turn, if it makes one. -/
def finishCall (env : Env) (s : State) : Option FinishCall :=
  match s.phase with
  | .distributing idOf now ((seqId, token) :: _) =>
    match idOf.get? seqId with
    | none => none
    | some id =>
      match s.active.get? id, s.requests.get? id with
      | some _, some state =>
        let found := counted s id state token
        if token = env.eosToken ∨ (decremented state).remainingTokens ≤ 0 then
          some ⟨found, id, none⟩
        else if s.streams.isCancelled id then
          some ⟨found, id, some .clientDisconnect⟩
        else if env.generationTimeoutSeconds < now - state.admittedTs then
          some ⟨found, id, some .generationTimeout⟩
        else
          none
      | _, _ => none
  | .failing (id :: _) => some ⟨s, id, some .decodeError⟩
  | _ => none

/-- If the next turn finishes a request that was pushed a token, the clock is about to show another
time than at its admission. -/
def ClockMoved (env : Env) (s : State) : Prop :=
  ∀ call state, finishCall env s = some call → s.requests.get? call.id = some state →
    0 < state.tokensEmitted → env.clock s.tick s.reads ≠ state.admittedTs

/-- The loop moves on only where the clock has. -/
def Moving (env : Env) (s : State) (l : Label) : Prop := l = .loop → ClockMoved env s

/-- `time.monotonic()` never goes back. -/
def Nondecreasing (env : Env) : Prop :=
  ∀ tick tick' i j, tick ≤ tick' → i ≤ j → env.clock tick i ≤ env.clock tick' j

variable {env : Env} {s s' : State} {call : FinishCall} {id : RequestId} {seq : ActiveSequence}
  {state : RequestState}

theorem finishCall_failing {todo : List RequestId} (hp : s.phase = .failing (id :: todo)) :
    finishCall env s = some ⟨s, id, some .decodeError⟩ := by
  simp only [finishCall, hp]

theorem finishCall_sampled {idOf : Dict SeqId RequestId} {now : Time} {seqId : SeqId}
    {token : Token} {todo : List (SeqId × Token)} {why : Option CancelReason}
    (hp : s.phase = .distributing idOf now ((seqId, token) :: todo))
    (hid : idOf.get? seqId = some id) (hseq : s.active.get? id = some seq)
    (hstate : s.requests.get? id = some state)
    (hwhy : Ends env s now token id (decremented state) why) :
    finishCall env s = some ⟨counted s id state token, id, why⟩ := by
  simp only [finishCall, hp, hid, hseq, hstate]
  rcases hwhy with ⟨hend, rfl⟩ | ⟨hgo, ⟨hcancel, rfl⟩ | ⟨hcancel, htime, rfl⟩⟩
  · rw [if_pos hend]
  · rw [if_neg hgo, if_pos hcancel]
  · rw [if_neg hgo, hcancel, if_neg Bool.false_ne_true]
    exact if_pos htime

/-- A call finds an active request, and counted its token if it is about one. -/
theorem finishCall_some (hb : Books env s) (hs : Standing env s)
    (h : finishCall env s = some call) : ∃ seq state now,
      s.active.get? call.id = some seq ∧ s.requests.get? call.id = some state ∧
      ((∃ todo, s.phase = .failing (call.id :: todo) ∧ call = ⟨s, call.id, some .decodeError⟩) ∨
        ∃ idOf token todo, s.phase = .distributing idOf now ((seq.seqId, token) :: todo) ∧
          idOf.get? seq.seqId = some call.id ∧ call.found = counted s call.id state token ∧
          Ends env s now token call.id (decremented state) call.reason) := by
  unfold finishCall at h
  split at h
  · rename_i idOf now seqId token todo hp
    obtain ⟨id, seq, state, -, hid, rfl, hseq, hstate, -⟩ := hs.distributing_head hb hp
    simp only [hid, hseq, hstate] at h
    split_ifs at h with hend hcancel htime
    · obtain rfl := Option.some.inj h
      exact ⟨seq, state, now, hseq, hstate, .inr ⟨idOf, token, todo, hp, hid, rfl, .inl ⟨hend, rfl⟩⟩⟩
    · obtain rfl := Option.some.inj h
      exact ⟨seq, state, now, hseq, hstate,
        .inr ⟨idOf, token, todo, hp, hid, rfl, .inr ⟨hend, .inl ⟨hcancel, rfl⟩⟩⟩⟩
    · obtain rfl := Option.some.inj h
      exact ⟨seq, state, now, hseq, hstate, .inr ⟨idOf, token, todo, hp, hid, rfl,
        .inr ⟨hend, .inr ⟨Bool.eq_false_iff.mpr hcancel, htime, rfl⟩⟩⟩⟩
  · rename_i id todo hp
    obtain rfl := Option.some.inj h
    obtain ⟨seq, state, -, hseq, hstate, -⟩ := hs.failing_head hb hp
    exact ⟨seq, state, 0, hseq, hstate, .inl ⟨todo, hp, rfl⟩⟩
  · simp at h

/-- `finish` raises exactly when it divides by no time at all. -/
theorem finish_returns_iff {blocks : ℕ} (hseq : s.active.get? id = some seq)
    (hstate : s.requests.get? id = some state)
    (hblocks : s.kvCache.blockTable.get? id = some blocks) (why : Option CancelReason) :
    (finish env s id why).2 = none ↔ ¬ NoTime env s state := by
  obtain ⟨hdie, hfin⟩ := @finish_eq env s id seq state blocks hseq hstate hblocks why .top
  rw [← settle_returns]
  by_cases ht : NoTime env s state
  · rw [hdie ht]
    simp [diedState, ht]
  · rw [hfin ht]
    simp [finishedState, ht]

theorem outcome_returns_iff (hb : Books env s) (hs : Standing env s)
    (h : finishCall env s = some call) : (call.outcome env).2 = none ↔ ClockMoved env s := by
  obtain ⟨seq, state, now, hseq, hstate, hcall⟩ := finishCall_some hb hs h
  obtain ⟨blocks, hblocks⟩ := blocks_of_holding hb (.inr (Dict.mem_keys.mpr ⟨seq, hseq⟩))
  have hmoved : ClockMoved env s ↔ ¬ NoTime env s state := by
    rw [ClockMoved, NoTime, not_and]
    constructor
    · exact fun hm hpos hzero => hm call state h hstate hpos (sub_eq_zero.mp hzero)
    · intro hm call' state' h' hstate' hpos heq
      obtain rfl := Option.some.inj (h.symm.trans h')
      obtain rfl := Option.some.inj (hstate.symm.trans hstate')
      exact hm hpos (sub_eq_zero.mpr heq)
  rw [hmoved, FinishCall.outcome]
  rcases hcall with ⟨todo, -, hcall⟩ | ⟨idOf, token, todo, -, -, hfound, -⟩
  · rw [hcall]
    exact finish_returns_iff hseq hstate hblocks _
  · rw [hfound]
    have hcounted : (counted s call.id state token).requests.get? call.id =
        some (decremented state) := by simp [counted]
    exact @finish_returns_iff env (counted s call.id state token) _ _ _ blocks hseq hcounted hblocks _

/-- The call is the one the loop makes. -/
theorem step_finish (h : finishCall env s = some call) :
    ∃ phase, step env s .loop = some ((call.outcome env).settle phase) := by
  unfold finishCall at h
  split at h
  · rename_i idOf now seqId token todo hp
    refine ⟨.distributing idOf now todo, ?_⟩
    simp only [step, iterate, hp]
    split at h
    · simp at h
    · rename_i id hid
      split at h
      · rename_i seq state hseq hstate
        simp only [distribute, hid, hseq, hstate]
        split_ifs at h with hend hcancel htime
        · obtain rfl := Option.some.inj h
          exact congrArg (fun o => some (Outcome.settle o _)) (if_pos hend)
        · obtain rfl := Option.some.inj h
          exact congrArg (fun o => some (Outcome.settle o _)) ((if_neg hend).trans (if_pos hcancel))
        · obtain rfl := Option.some.inj h
          exact congrArg (fun o => some (Outcome.settle o _))
            ((if_neg hend).trans ((if_neg hcancel).trans (if_pos htime)))
      · simp at h
  · rename_i id todo hp
    obtain rfl := Option.some.inj h
    exact ⟨.failing todo, by simp only [step, iterate, hp, FinishCall.outcome]⟩
  · simp at h

/-- Nothing else calls `finish`. -/
theorem finished_by_call {l : Label} {why : Option CancelReason} (ht : Transition env s l s')
    (hnew : .finished id why ∉ s.log) (h : .finished id why ∈ s'.log) :
    l = .loop ∧ ∃ found, finishCall env s = some ⟨found, id, why⟩ := by
  cases ht with
  | finishSampled hp hid hseq hstate hwhy =>
    obtain ⟨rfl, rfl⟩ : id = _ ∧ why = _ := by
      simpa [finishedState, closing, spanClosing, rootClosing, hnew] using h
    exact ⟨rfl, _, finishCall_sampled hp hid hseq hstate hwhy⟩
  | dieSampled hp hid hseq hstate hwhy =>
    obtain ⟨rfl, rfl⟩ : id = _ ∧ why = _ := by simpa [diedState, closing, hnew] using h
    exact ⟨rfl, _, finishCall_sampled hp hid hseq hstate hwhy⟩
  | finishFailed hp =>
    obtain ⟨rfl, rfl⟩ : id = _ ∧ why = _ := by
      simpa [finishedState, closing, spanClosing, rootClosing, hnew] using h
    exact ⟨rfl, _, finishCall_failing hp⟩
  | dieFailed hp =>
    obtain ⟨rfl, rfl⟩ : id = _ ∧ why = _ := by simpa [diedState, closing, hnew] using h
    exact ⟨rfl, _, finishCall_failing hp⟩
  | admitted =>
    have hlook : ∀ request seqId, .finished id why ∉ lookups s request seqId := by
      intro request seqId
      unfold lookups
      split <;> simp
    exact absurd h (by simp [admittedState, spanClosing, hlook, hnew])
  | receive =>
    refine absurd h ?_
    split_ifs <;> simp [hnew]
  | _ =>
    exact absurd h (by simp [expiredState, pushedState, closing, spanClosing, rootClosing, hnew])

end Calls

section Cleanup
variable {env : Env} {s s' : State}

/-- What the loop after a failed decode has given back at its end in `s'`, if it stood at `s`. -/
structure AllReleased (env : Env) (s s' : State) : Prop where
  active : s'.active.keys = []
  requests : s'.requests.keys = []
  slots : s'.freeSlots.Perm (slots env)
  blocks : s'.kvCache.blockTable.keys.Perm s.queue.pool.keys
  ended : ∃ events, s'.log = s.log ++ events ∧ ∀ id ∈ s.active.keys, .released id ∈ events ∧
    (s.streams.streams.contains id = true → .enqueued id .endOfStream ∈ events)

theorem step_failing {allowed : State → Label → Prop}
    (hr : Reachable (step env) allowed (start env) s) {id : RequestId} {todo : List RequestId}
    (hp : s.phase = .failing (id :: todo)) : ∃ state,
    (ClockMoved env s → step env s .loop =
      some (finishedState env s id state (some .decodeError) [] (.failing todo))) ∧
    (¬ ClockMoved env s → step env s .loop =
      some (diedState env s id state (some .decodeError) [])) := by
  obtain ⟨hb, hs⟩ := reachable_books hr
  obtain ⟨seq, state, blocks, hseq, hstate, hblocks⟩ := hs.failing_head hb hp
  have hmoved : ClockMoved env s ↔ ¬ NoTime env s state := by
    rw [← outcome_returns_iff hb hs (finishCall_failing hp)]
    exact finish_returns_iff hseq hstate hblocks _
  have hstep : step env s .loop =
      some ((finish env s id (some .decodeError)).settle (.failing todo)) := by
    simp only [step, iterate, hp]
  obtain ⟨hdie, hfin⟩ := @finish_eq env s id seq state blocks hseq hstate hblocks
    (some .decodeError) (.failing todo)
  refine ⟨state, fun hm => ?_, fun hm => ?_⟩
  · rw [hstep, hfin (hmoved.mp hm)]
  · rw [hstep, hdie (not_not.mp fun ht => hm (hmoved.mpr ht))]

/-- Nothing moves once the task is dead. -/
theorem run_dead {e : PyError} (hp : s.phase = .dead e) {n : ℕ}
    (hrun : run (step env) s (List.replicate n .loop) = some s') : s' = s := by
  cases n with
  | zero => exact (Option.some.inj hrun).symm
  | succ n => simp [List.replicate_succ, run, step, iterate, hp] at hrun

/-- The loop after a failed decode comes to its end exactly if the clock has moved at every turn. -/
theorem failing_run_iff {todo : List RequestId}
    (hr : Reachable (step env) anything (start env) s) (hp : s.phase = .failing todo) :
    (∃ s', run (step env) s (List.replicate todo.length .loop) = some s' ∧
      s'.phase = .failing []) ↔
    ∀ n < todo.length, ∀ u, run (step env) s (List.replicate n .loop) = some u →
      ClockMoved env u := by
  induction todo generalizing s with
  | nil => exact iff_of_true ⟨s, rfl, hp⟩ fun n hn => absurd hn (Nat.not_lt_zero n)
  | cons id todo ih =>
    obtain ⟨state, hreturn, hraise⟩ := step_failing hr hp
    by_cases hm : ClockMoved env s
    · have hnext : ∀ n, run (step env) s (List.replicate (n + 1) .loop) =
          run (step env) (finishedState env s id state (some .decodeError) [] (.failing todo))
            (List.replicate n .loop) := by
        intro n
        rw [List.replicate_succ, run, hreturn hm, Option.bind_some]
      rw [List.length_cons, hnext, ih (.next hr trivial (hreturn hm)) rfl]
      constructor
      · rintro hall (_ | n) hn u hu
        · exact Option.some.inj hu ▸ hm
        · rw [hnext] at hu
          exact hall n (Nat.succ_lt_succ_iff.mp hn) u hu
      · intro hall n hn u hu
        exact hall (n + 1) (Nat.succ_lt_succ hn) u ((hnext n).trans hu)
    · refine iff_of_false ?_ fun hall => hm (hall 0 (Nat.succ_pos _) s rfl)
      rintro ⟨s', hrun, hend⟩
      rw [List.length_cons, List.replicate_succ, run, hraise hm, Option.bind_some] at hrun
      rw [run_dead rfl hrun] at hend
      simp [diedState] at hend

theorem closing_ends {id : RequestId} (h : s.streams.streams.contains id = true) :
    .enqueued id .endOfStream ∈ closing env s id := by
  have hitems := close_items env.decoder s.streams id
  rw [if_pos h] at hitems
  obtain ⟨texts, hclose, -⟩ := hitems
  rw [closing, hclose]
  simp

theorem failing_run_frame {todo : List RequestId}
    (hr : Reachable (step env) anything (start env) s) (hp : s.phase = .failing todo)
    (hrun : run (step env) s (List.replicate todo.length .loop) = some s')
    (hend : s'.phase = .failing []) : s'.queue = s.queue ∧ ∃ events, s'.log = s.log ++ events ∧
      ∀ id ∈ todo, .released id ∈ events ∧
        (s.streams.streams.contains id = true → .enqueued id .endOfStream ∈ events) := by
  induction todo generalizing s with
  | nil =>
    obtain rfl := Option.some.inj hrun
    exact ⟨rfl, [], (List.append_nil _).symm, by simp⟩
  | cons id todo ih =>
    obtain ⟨state, hreturn, -⟩ := step_failing hr hp
    have hm : ClockMoved env s :=
      (failing_run_iff hr hp).mp ⟨s', hrun, hend⟩ 0 (Nat.succ_pos _) s rfl
    rw [List.length_cons, List.replicate_succ, run, hreturn hm, Option.bind_some] at hrun
    obtain ⟨hqueue, events, hlog, hevents⟩ := ih (.next hr trivial (hreturn hm)) rfl hrun
    refine ⟨hqueue, [.finished id (some .decodeError), .released id] ++ closing env s id ++
      spanClosing s.tracer id .generation ++
      rootClosing (s.tracer.endSpan id .generation).2 id ++ events, ?_, fun j hj => ?_⟩
    · rw [hlog]
      simp [finishedState]
    · rcases List.mem_cons.mp hj with rfl | hj
      · exact ⟨by simp, fun hc => by simp [closing_ends hc]⟩
      · obtain ⟨hreleased, hended⟩ := hevents j hj
        refine ⟨List.mem_append_right _ hreleased, fun hc => List.mem_append_right _ (hended ?_)⟩
        exact (contains_close j).trans hc

/-- At its end the loop after a failed decode has released everything. -/
theorem failing_run_released {todo : List RequestId}
    (hr : Reachable (step env) anything (start env) s) (hp : s.phase = .failing todo)
    (hrun : run (step env) s (List.replicate todo.length .loop) = some s')
    (hend : s'.phase = .failing []) : AllReleased env s s' := by
  obtain ⟨hqueue, events, hlog, hended⟩ := failing_run_frame hr hp hrun hend
  have htodo := ((reachable_books hr).2.failing hp).2
  obtain ⟨hb, hs⟩ := reachable_books (hr.run hrun)
  have hactive := hs.failed_all hend
  have hempty : ∀ id, id ∉ s'.active.keys := by simp [hactive]
  have hvalues : s'.active.values = [] := by
    refine List.eq_nil_iff_forall_not_mem.mpr fun seq hseq => ?_
    obtain ⟨id, hid⟩ := Dict.mem_values.mp hseq
    exact hempty id (Dict.mem_keys.mpr ⟨seq, hid⟩)
  refine ⟨hactive, ?_, ?_, ?_, events, hlog, fun id hid => hended id ((htodo id).mpr hid)⟩
  · exact List.eq_nil_iff_forall_not_mem.mpr fun id hid => hempty id ((hb.keys_agree id).mp hid)
  · have hslots := hb.slots
    rw [hvalues, List.map_nil, List.append_nil] at hslots
    exact hslots
  · have htable := hb.table_keys
    rw [hactive, List.append_nil, hqueue] at htable
    exact htable

end Cleanup

section Deaths
variable {env : Env} {s s' : State}

/-- The choice of who is admitted has raised on the way to a state, and that ended the loop. -/
def SelectionRaised (env : Env) (e : PyError) (s : State) : Prop :=
  ∃ u v now woken policy, Reachable (step env) (Moving env) (start env) u ∧
    u.phase = .expiring now [] woken ∧
    u.activePolicy.policy.select env.oneOver u.queue.waiting u.freeSlots.length =
      (policy, .error e) ∧
    step env u .loop = some v ∧ v.phase = .dead e ∧ Reachable (step env) (Moving env) v s

theorem SelectionRaised.later {e : PyError} {l : Label} (h : SelectionRaised env e s)
    (hok : Moving env s l) (hs : step env s l = some s') : SelectionRaised env e s' := by
  obtain ⟨u, v, now, woken, policy, hu, hp, hsel, hv, hdead, hr⟩ := h
  exact ⟨u, v, now, woken, policy, hu, hp, hsel, hv, hdead, .next hr hok hs⟩

theorem no_time_moved {call : FinishCall} {state : RequestState}
    (hcall : finishCall env s = some call) (hstate : s.requests.get? call.id = some state)
    (ht : NoTime env s state) : ¬ ClockMoved env s :=
  fun hm => hm call state hcall hstate ht.1 (sub_eq_zero.mp ht.2)

theorem dead_transition {l : Label} (hr : Reachable (step env) (Moving env) (start env) s)
    (hs : step env s l = some s') (ht : Transition env s l s') (hok : Moving env s l)
    (hi : ∀ e, s.phase = .dead e → SelectionRaised env e s) :
    ∀ e, s'.phase = .dead e → SelectionRaised env e s' := by
  cases ht with
  | rejected | accepted | setPolicy | cancel | receive | leave =>
    exact fun e he => (hi e he).later hok hs
  | @selectRaised now woken policy raised hp hf hsel =>
    intro e he
    obtain rfl := Phase.dead.inj he
    exact ⟨s, _, now, woken, policy, hr, hp, hsel, hs, rfl, .init⟩
  | dieSampled hp hid hseq hstate hwhy hno =>
    exact absurd (hok rfl) (no_time_moved (finishCall_sampled hp hid hseq hstate hwhy) hstate hno)
  | dieFailed hp hseq hstate hno =>
    exact absurd (hok rfl) (no_time_moved (finishCall_failing hp) hstate hno)
  | _ => simp [expiredState, admittedState, finishedState, pushedState]

theorem reachable_dead (hr : Reachable (step env) (Moving env) (start env) s) :
    ∀ e, s.phase = .dead e → SelectionRaised env e s := by
  refine hr.invariant (I := fun s => ∀ e, s.phase = .dead e → SelectionRaised env e s)
    (by simp [start]) fun s l s' hr hi hok hstep => ?_
  exact dead_transition hr hstep (reachable_transition hr hstep) hok hi

/-- Where ticks are apart the clock has moved whenever it must. -/
theorem reachable_moving (hclock : TicksApart env)
    (hr : Reachable (step env) anything (start env) s) :
    Reachable (step env) (Moving env) (start env) s := by
  induction hr with
  | init => exact .init
  | @next s s' l hr _ hstep ih =>
    refine .next ih (fun _ => ?_) hstep
    intro call state hcall hstate hpos heq
    obtain ⟨hb, hs⟩ := reachable_books hr
    have haged := reachable_aged hclock hr
    have hno : NoTime env s state := ⟨hpos, sub_eq_zero.mpr heq⟩
    obtain ⟨seq, state', now, hseq, hstate', hkind⟩ := finishCall_some hb hs hcall
    rcases hkind with ⟨todo, hp, -⟩ | ⟨idOf, token, todo, hp, hid, -⟩
    · exact haged.failed_in_time hclock hp hstate hno
    · exact haged.sampled_in_time hclock hb hs hp hid hseq hstate hno

end Deaths

/-- In a run where the clock moves between a request's admission and its end, `finish` returns at
every call, exactly if the clock has moved once more; nothing but the choice of who is admitted
kills the task, and the loop after a failed decode releases everything, exactly if the clock moves
at each of its turns. -/
theorem finish_returns (env : Env) (s : State)
    (h : Reachable (step env) (Moving env) (start env) s) :
    (∀ call, finishCall env s = some call →
      (∃ phase, step env s .loop = some ((call.outcome env).settle phase)) ∧
      ((call.outcome env).2 = none ↔ ClockMoved env s)) ∧
    (∀ e, s.phase = .dead e → SelectionRaised env e s) ∧
    ∀ todo, s.phase = .failing todo →
      ((∃ s', run (step env) s (List.replicate todo.length .loop) = some s' ∧
        s'.phase = .failing [] ∧ AllReleased env s s') ↔
      ∀ n < todo.length, ∀ u, run (step env) s (List.replicate n .loop) = some u →
        ClockMoved env u) := by
  obtain ⟨hb, hs⟩ := reachable_books h
  have hr : Reachable (step env) anything (start env) s := h.mono fun _ _ _ => trivial
  refine ⟨fun call hcall => ⟨step_finish hcall, outcome_returns_iff hb hs hcall⟩,
    reachable_dead h, fun todo hp => ?_⟩
  rw [← failing_run_iff hr hp]
  constructor
  · exact fun ⟨s', hrun, hend, _⟩ => ⟨s', hrun, hend⟩
  · exact fun ⟨s', hrun, hend⟩ => ⟨s', hrun, hend, failing_run_released hr hp hrun hend⟩

section Demo

/-- How the call of `finish` at the end of the demo run comes out. -/
def ending (env : Env) : Option (RequestId × Option PyError) :=
  (run (step env) (start env) demoRun.dropLast).bind fun s =>
    (finishCall env s).map fun call => (call.id, (call.outcome env).2)

theorem ending_some {env : Env} {id : RequestId} {raised : Option PyError}
    (h : ending env = some (id, raised)) : ∃ s,
      run (step env) (start env) demoRun.dropLast = some s ∧ ∃ call,
        finishCall env s = some call ∧ (call.outcome env).2 = raised := by
  obtain ⟨s, hs, hcall⟩ := Option.bind_eq_some_iff.mp h
  obtain ⟨call, hcall, hout⟩ := Option.map_eq_some_iff.mp hcall
  exact ⟨s, hs, call, hcall, (Prod.mk.inj hout).2⟩

theorem finish_returns_demo : ∃ s, run (step demo) (start demo) demoRun.dropLast = some s ∧
    ∃ call, finishCall demo s = some call ∧ ClockMoved demo s := by
  obtain ⟨s, hs, call, hcall, hout⟩ := ending_some (by decide +kernel : ending demo = some (0, none))
  have hclock : TicksApart demo := fun tick tick' _ _ hlt => Nat.cast_lt.mpr hlt
  have hr := reachable_moving hclock (Reachable.init.run hs)
  exact ⟨s, hs, call, hcall, ((finish_returns demo s hr).1 call hcall).2.mp hout⟩

/-- The demo server on a clock that stands still. -/
def demoCoarse : Env := { demo with clock := fun _ _ => 0 }

/-- On a clock that only never goes back a request that got a token can end with an exception. -/
theorem coarse_clock_kills : ¬ ∀ env, Nondecreasing env → ∀ s,
    Reachable (step env) anything (start env) s → ∀ call, finishCall env s = some call →
      (call.outcome env).2 = none := by
  intro h
  obtain ⟨s, hs, call, hcall, hout⟩ := ending_some
    (by decide +kernel : ending demoCoarse = some (0, some .zeroDivisionError))
  have hreturned := h demoCoarse (fun _ _ _ _ _ _ => le_rfl) s (Reachable.init.run hs) call hcall
  rw [hout] at hreturned
  simp at hreturned

end Demo

end TinyServe.BatchLoop
