import TinyServe.BatchLoopMetrics

set_option autoImplicit false

/-!
`wait_until_nonempty` turn by turn: the test of its loop, the `_arrived` event it clears and sleeps
on, and `push` setting it. The loop of `app.py` seen from outside is the one that just stands idle
until something is queued.
-/
namespace TinyServe.BatchLoop
open OrderedDict Admission Scheduler Runs

/-- The `asyncio.Event` of a queue, and while the one task that waits for it is suspended, whether
its future is done. -/
structure Arrived where
  value : Bool
  waiter : Option Bool

namespace Arrived

def init : Arrived := ⟨false, none⟩

def set (a : Arrived) : Arrived := if a.value then a else ⟨true, a.waiter.map fun _ => true⟩

def clear (a : Arrived) : Arrived := { a with value := false }

/-- `wait` up to where it suspends; `none` where it returns at once. -/
def wait (a : Arrived) : Option Arrived :=
  if a.value then none else some { a with waiter := some false }

/-- The return of `wait` once its future is done. -/
def woken (a : Arrived) : Option Arrived :=
  if a.waiter = some true then some { a with waiter := none } else none

end Arrived

/-- The server with the event of its queue. Where the loop stands idle, `testing` says that it is
at the test of `while not self._waiting` and not suspended in the body. -/
structure Evented where
  server : State
  arrived : Arrived
  testing : Bool

namespace Evented

def start (env : Env) : Evented := ⟨BatchLoop.start env, .init, true⟩

/-- One turn of the loop, inside `wait_until_nonempty` or outside it. -/
def turn (env : Env) (x : Evented) : Option Evented :=
  match x.server.phase with
  | .idle =>
    if x.testing then
      if x.server.queue.depth = 0 then
        match x.arrived.clear.wait with
        | none => some { x with arrived := x.arrived.clear }
        | some arrived => some { x with arrived, testing := false }
      else
        (iterate env x.server).map fun server => { x with server }
    else
      x.arrived.woken.map fun arrived => { x with arrived, testing := true }
  | _ => (iterate env x.server).map fun server => { x with server }

/-- Whether the handler gets as far as `queue.push`. -/
def pushes (env : Env) (s : State) (id : RequestId) (body : GenerateRequest) : Bool :=
  match Admission.admit_ s.kvCache env.maxQueueDepth id (env.tokenize body.prompt).length
      body.maxTokens s.queue.depth with
  | .ok (.accepted, _) => true
  | _ => false

/-- Between the test and the suspension of `wait_until_nonempty` no handler gets in. -/
def suspended (x : Evented) : Bool :=
  match x.server.phase with
  | .idle => !x.testing
  | _ => true

def step (env : Env) (x : Evented) (label : Label) : Option Evented :=
  match label with
  | .loop => x.turn env
  | .generate id body =>
    if x.suspended then
      (BatchLoop.step env x.server (.generate id body)).map fun server => { x with
        server
        arrived := if pushes env x.server id body then x.arrived.set else x.arrived }
    else
      none
  | label =>
    if x.suspended then
      (BatchLoop.step env x.server label).map fun server => { x with server }
    else
      none

section Sound
variable {env : Env} {s s' : State} {x x' : Evented}

theorem depth_generate {id : RequestId} {body : GenerateRequest} (hb : Books env s)
    (hs : BatchLoop.step env s (.generate id body) = some s') :
    s'.queue.depth = s.queue.depth + (pushes env s id body).toNat := by
  simp only [BatchLoop.step] at hs
  split_ifs at hs with hg
  obtain ⟨hpool, -, -, hfree⟩ := hb.unissued hg.2
  obtain ⟨⟨result, kvCache⟩, hr⟩ : ∃ r, Admission.admit_ s.kvCache env.maxQueueDepth id
      (env.tokenize body.prompt).length body.maxTokens s.queue.depth = .ok r :=
    admit_fresh (Dict.get?_eq_none.mpr hfree)
  rw [← Option.some.inj hs, pushes, hr]
  cases result with
  | rejected reason =>
    rw [(rejected_moves hr).2.queue]
    rfl
  | accepted =>
    rw [(accepted_moves hr).2.queue]
    exact Dict.size_set_of_fresh hpool

/-- Only the loop comes to stand idle or ceases to. -/
theorem idle_iff {label : Label} (ht : Transition env s label s') (hl : label ≠ .loop) :
    s'.phase = .idle ↔ s.phase = .idle := by
  cases ht with
  | rejected | accepted | setPolicy | cancel | receive | leave => exact Iff.rfl
  | decoded hp | decodeFailed hp => simp [hp]
  | _ => exact absurd rfl hl

/-- Of the handlers only `generate` queues anything. -/
theorem queue_kept {label : Label} (ht : Transition env s label s') (hl : label ≠ .loop)
    (hnot : ∀ id body, label ≠ .generate id body) : s'.queue = s.queue := by
  cases ht with
  | rejected | accepted => exact absurd rfl (hnot _ _)
  | setPolicy | cancel | receive | leave | decoded | decodeFailed => rfl
  | _ => exact absurd rfl hl

theorem turn_outside (h : x.server.phase ≠ .idle) :
    x.turn env = (iterate env x.server).map fun server => { x with server } := by
  rw [turn]
  split
  · contradiction
  · rfl

/-- What a turn can do: fall asleep over an empty queue, wake, or what the loop does anyway. -/
theorem turn_cases (h : x.turn env = some x') :
    (x.server.phase = .idle ∧ x.testing = true ∧ x.server.queue.depth = 0 ∧
      x' = ⟨x.server, ⟨false, some false⟩, false⟩) ∨
    (x.server.phase = .idle ∧ x.testing = false ∧ x.arrived.waiter = some true ∧
      x' = ⟨x.server, ⟨x.arrived.value, none⟩, true⟩) ∨
    ((x.server.phase = .idle → x.testing = true ∧ x.server.queue.depth ≠ 0) ∧
      ∃ server, iterate env x.server = some server ∧ x' = { x with server }) := by
  by_cases hidle : x.server.phase = .idle
  · simp only [turn, hidle] at h
    split_ifs at h with htest hempty
    · exact .inl ⟨hidle, htest, hempty, by simpa [Arrived.wait, Arrived.clear, eq_comm] using h⟩
    · obtain ⟨server, hserver, rfl⟩ := Option.map_eq_some_iff.mp h
      exact .inr (.inr ⟨fun _ => ⟨htest, hempty⟩, server, hserver, rfl⟩)
    · obtain ⟨arrived, hwoken, rfl⟩ := Option.map_eq_some_iff.mp h
      rw [Arrived.woken] at hwoken
      split_ifs at hwoken with hdone
      obtain rfl := Option.some.inj hwoken
      exact .inr (.inl ⟨hidle, Bool.eq_false_of_not_eq_true htest, hdone, rfl⟩)
  · rw [turn_outside hidle] at h
    obtain ⟨server, hserver, rfl⟩ := Option.map_eq_some_iff.mp h
    exact .inr (.inr ⟨fun hi => absurd hi hidle, server, hserver, rfl⟩)

/-- What a handler can do, and what it does to the event. -/
theorem step_handler {label : Label} (hl : label ≠ .loop) (h : x.step env label = some x') :
    x.suspended = true ∧ ∃ server, BatchLoop.step env x.server label = some server ∧
      ((∀ id body, label ≠ .generate id body) ∧ x' = { x with server } ∨
        ∃ id body, label = .generate id body ∧ x' = { x with
          server
          arrived := if pushes env x.server id body then x.arrived.set else x.arrived }) := by
  cases label with
  | loop => exact absurd rfl hl
  | generate id body =>
    rw [step] at h
    split at h
    · rename_i hs
      obtain ⟨server, hserver, rfl⟩ := Option.map_eq_some_iff.mp h
      exact ⟨hs, server, hserver, .inr ⟨id, body, rfl, rfl⟩⟩
    · simp at h
  | _ =>
    simp only [step] at h
    split_ifs at h with hs
    obtain ⟨server, hserver, rfl⟩ := Option.map_eq_some_iff.mp h
    exact ⟨hs, server, hserver, .inl ⟨by simp, rfl⟩⟩

/-- Suspended the loop stands idle, and its future is done exactly if something is queued. -/
structure Sound (x : Evented) : Prop where
  awake : x.testing = true → x.arrived.waiter = none
  idle : x.testing = false → x.server.phase = .idle
  asleep : x.testing = false → x.server.queue.depth = 0 → x.arrived = ⟨false, some false⟩
  woken : x.testing = false → x.server.queue.depth ≠ 0 → x.arrived.waiter = some true

theorem Sound.turned (h : Sound x) (hs : x.turn env = some x') : Sound x' := by
  rcases turn_cases hs with ⟨hidle, -, hempty, rfl⟩ | ⟨-, -, -, rfl⟩ | ⟨hgo, server, -, rfl⟩
  · exact ⟨by simp, fun _ => hidle, fun _ _ => rfl, fun _ hne => absurd hempty hne⟩
  · exact ⟨fun _ => rfl, by simp, by simp, by simp⟩
  · have htest : x.testing = true := by
      by_contra hnot
      have hfalse := Bool.eq_false_of_not_eq_true hnot
      exact hnot (hgo (h.idle hfalse)).1
    exact ⟨h.awake, by simp [htest], by simp [htest], by simp [htest]⟩

theorem Sound.handled (h : Sound x) (hr : Reachable (BatchLoop.step env) anything
    (BatchLoop.start env) x.server) {label : Label} (hl : label ≠ .loop)
    (hs : x.step env label = some x') : Sound x' := by
  obtain ⟨-, server, hserver, hx⟩ := step_handler hl hs
  have ht := reachable_transition hr hserver
  have hidle := fun hfalse => (idle_iff ht hl).mpr (h.idle hfalse)
  rcases hx with ⟨hnot, rfl⟩ | ⟨id, body, rfl, rfl⟩
  · have hqueue := queue_kept ht hl hnot
    refine ⟨h.awake, hidle, fun hfalse hempty => ?_, fun hfalse hne => ?_⟩
    · exact h.asleep hfalse (by rw [← hqueue]; exact hempty)
    · exact h.woken hfalse (by rw [← hqueue]; exact hne)
  · have hdepth := depth_generate (reachable_books hr).1 hserver
    cases hpush : pushes env x.server id body with
    | false =>
      rw [hpush, Bool.toNat_false, Nat.add_zero] at hdepth
      refine ⟨h.awake, hidle, fun hfalse hempty => ?_, fun hfalse hne => ?_⟩
      · exact h.asleep hfalse (by rw [← hdepth]; exact hempty)
      · exact h.woken hfalse (by rw [← hdepth]; exact hne)
    | true =>
      rw [hpush, Bool.toNat_true] at hdepth
      refine ⟨fun htrue => ?_, hidle, fun hfalse hempty => ?_, fun hfalse hne => ?_⟩
      · simp only [↓reduceIte, Arrived.set]
        split_ifs
        · exact h.awake htrue
        · rw [h.awake htrue]
          rfl
      · simp only at hempty
        omega
      · -- who slept over an empty queue slept with the flag down, so that setting it wakes
        simp only [↓reduceIte, Arrived.set]
        by_cases hempty : x.server.queue.depth = 0
        · rw [h.asleep hfalse hempty]
          rfl
        · have hdone := h.woken hfalse hempty
          split_ifs
          · exact hdone
          · rw [hdone]
            rfl

/-- The loop comes to stand idle over an empty queue only. -/
theorem empty_of_rest (ht : Transition env s .loop s') (hidle : s'.phase = .idle) :
    s'.queue.depth = 0 := by
  cases ht with
  | rest hp ha hq => exact hq
  | _ => simp [expiredState, admittedState, finishedState, diedState, pushedState] at hidle

end Sound

section Runs
variable {env : Env} {s s' : State} {x : Evented}

theorem sound_start (env : Env) : Sound (start env) :=
  ⟨fun _ => rfl, by simp [Evented.start], by simp [Evented.start], by simp [Evented.start]⟩

theorem reachable_server (h : Reachable (step env) anything (start env) x) :
    Reachable (BatchLoop.step env) anything (BatchLoop.start env) x.server := by
  refine @Reachable.refines _ _ (BatchLoop.step env) anything (BatchLoop.start env) _ _ (step env)
    anything (start env) Evented.server rfl (fun x l x' _ _ hs => ?_) x h
  by_cases hl : l = .loop
  · subst hl
    rcases turn_cases hs with ⟨-, -, -, rfl⟩ | ⟨-, -, -, rfl⟩ | ⟨-, server, hserver, rfl⟩
    · exact .inl rfl
    · exact .inl rfl
    · exact .inr ⟨.loop, trivial, hserver⟩
  · obtain ⟨-, server, hserver, hx⟩ := step_handler hl hs
    rcases hx with ⟨-, rfl⟩ | ⟨id, body, -, rfl⟩
    · exact .inr ⟨l, trivial, hserver⟩
    · exact .inr ⟨l, trivial, hserver⟩

theorem reachable_sound (h : Reachable (step env) anything (start env) x) : Sound x := by
  refine h.invariant (sound_start env) fun x l x' hr hi _ hs => ?_
  by_cases hl : l = .loop
  · exact hi.turned (hl ▸ hs)
  · exact hi.handled (reachable_server hr) hl hs

/-- Whatever the loop could do next it does within two turns, whether it has to wake first or not. -/
theorem Sound.keeps_up (h : Sound x) (hs : iterate env x.server = some s') :
    ∃ n x', n ≤ 2 ∧ run (step env) x (List.replicate n .loop) = some x' ∧ x'.server = s' := by
  by_cases hidle : x.server.phase = .idle
  · have hne : x.server.queue.depth ≠ 0 := by
      intro hempty
      simp [iterate, hidle, hempty] at hs
    have hgo : ∀ y : Evented, y.server = x.server → y.testing = true →
        step env y .loop = some { y with server := s' } := by
      intro y hy htest
      simp only [step, turn, hy, hidle, htest, if_neg hne, hs, ↓reduceIte, Option.map_some]
    cases htest : x.testing with
    | true => exact ⟨1, _, by omega, by rw [List.replicate_one, run, hgo x rfl htest]; rfl, rfl⟩
    | false =>
      have hwake : step env x .loop = some ⟨x.server, ⟨x.arrived.value, none⟩, true⟩ := by
        simp [step, turn, hidle, htest, Arrived.woken, h.woken htest hne]
      refine ⟨2, ⟨s', ⟨x.arrived.value, none⟩, true⟩, le_rfl, ?_, rfl⟩
      rw [List.replicate_succ, List.replicate_one, run, hwake, Option.bind_some, run,
        hgo ⟨x.server, ⟨x.arrived.value, none⟩, true⟩ rfl rfl]
      rfl
  · refine ⟨1, { x with server := s' }, by omega, ?_, rfl⟩
    rw [List.replicate_one, run, step, turn_outside hidle, hs]
    rfl

/-- A handler that gets in does to the server what it does anyway. -/
theorem step_of_server {label : Label} (hl : label ≠ .loop) (hx : x.suspended = true)
    (hs : BatchLoop.step env x.server label = some s') :
    ∃ x', step env x label = some x' ∧ x'.server = s' ∧ x'.testing = x.testing := by
  cases label with
  | loop => exact absurd rfl hl
  | _ => simp [step, hx, hs]

/-- What is reached without looking at the event is reached with it, and there the loop is asleep
wherever it stands idle. -/
theorem server_reachable (h : Reachable (BatchLoop.step env) anything (BatchLoop.start env) s) :
    ∃ x, Reachable (step env) anything (start env) x ∧ x.server = s ∧
      (s.phase = .idle → x.testing = false) := by
  refine h.invariant (I := fun s => ∃ x, Reachable (step env) anything (start env) x ∧
    x.server = s ∧ (s.phase = .idle → x.testing = false)) ⟨start env, .init, rfl, ?_⟩ ?_
  · exact nofun
  · rintro s l s' hr ⟨x, hx, rfl, htest⟩ - hs
    have ht := reachable_transition hr hs
    by_cases hl : l = .loop
    · subst hl
      obtain ⟨n, x', -, hrun, rfl⟩ := (reachable_sound hx).keeps_up hs
      have hx' := hx.run hrun
      by_cases hidle : x'.server.phase = .idle
      · have hempty := empty_of_rest ht hidle
        cases htest' : x'.testing with
        | false => exact ⟨x', hx', rfl, fun _ => htest'⟩
        | true =>
          have hsleep : step env x' .loop = some ⟨x'.server, ⟨false, some false⟩, false⟩ := by
            simp [step, turn, hidle, htest', hempty, Arrived.clear, Arrived.wait]
          exact ⟨_, hx'.next trivial hsleep, rfl, fun _ => rfl⟩
      · exact ⟨x', hx', rfl, fun hi => absurd hi hidle⟩
    · have hsusp : x.suspended = true := by
        rw [suspended]
        split
        · rename_i hidle
          rw [htest hidle, Bool.not_false]
        · rfl
      obtain ⟨x', hx', hserver, htest'⟩ := step_of_server hl hsusp hs
      refine ⟨x', hx.next trivial hx', hserver, fun hidle => ?_⟩
      rw [htest']
      exact htest ((idle_iff ht hl).mp hidle)

end Runs

/-- No wake-up is lost and none comes for nothing: in `wait_until_nonempty` the task sleeps only
while nothing is queued and is woken only once something is, what the loop could do next it does
within two turns, and a server that just stands idle until something is queued reaches the same
states. -/
theorem arrivals_wake (env : Env) :
    (∀ x, Reachable (step env) anything (start env) x →
      Reachable (BatchLoop.step env) anything (BatchLoop.start env) x.server ∧
      (x.arrived.waiter = some false → x.server.phase = .idle ∧ x.server.queue.depth = 0) ∧
      (x.arrived.waiter = some true → x.server.phase = .idle ∧ x.server.queue.depth ≠ 0) ∧
      ∀ s', iterate env x.server = some s' → ∃ n x', n ≤ 2 ∧
        run (step env) x (List.replicate n .loop) = some x' ∧ x'.server = s') ∧
    ∀ s, Reachable (BatchLoop.step env) anything (BatchLoop.start env) s →
      ∃ x, Reachable (step env) anything (start env) x ∧ x.server = s := by
  refine ⟨fun x hx => ?_, fun s hs => ?_⟩
  · have hsound := reachable_sound hx
    have hsuspended : ∀ done, x.arrived.waiter = some done → x.testing = false := by
      intro done hdone
      by_contra htest
      rw [hsound.awake (Bool.eq_true_of_not_eq_false htest)] at hdone
      cases hdone
    refine ⟨reachable_server hx, fun hdone => ?_, fun hdone => ?_, fun s' => hsound.keeps_up⟩
    · have htest := hsuspended false hdone
      refine ⟨hsound.idle htest, by_contra fun hne => ?_⟩
      rw [hsound.woken htest hne] at hdone
      cases hdone
    · have htest := hsuspended true hdone
      refine ⟨hsound.idle htest, fun hempty => ?_⟩
      rw [hsound.asleep htest hempty] at hdone
      cases hdone
  · obtain ⟨x, hx, hserver, -⟩ := server_reachable hs
    exact ⟨x, hx, hserver⟩

end Evented
end TinyServe.BatchLoop
