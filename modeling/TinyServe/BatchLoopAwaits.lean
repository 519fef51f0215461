import TinyServe.BatchLoopDrain

set_option autoImplicit false

/-! The loop hands control back to the event loop after a bounded number of turns. -/
namespace TinyServe.BatchLoop
open OrderedDict BatchBuilder Scheduler Runs

section Turns
variable {env : Env} {s s' : State}

/-- The turns left until the loop awaits. -/
def Phase.untilAwait (held depth : ℕ) : Phase → ℕ
  | .decoding _ => 0
  | .failing todo => todo.length + 3 * held + 7
  | phase => phase.turns held depth

def untilAwait (s : State) : ℕ := s.phase.untilAwait (held s) s.queue.depth

theorem untilAwait_le (hs : Standing env s) : untilAwait s ≤ 4 * held s + 7 := by
  have hturns := turnsLeft_le hs
  rw [turnsLeft] at hturns
  rw [untilAwait]
  cases hp : s.phase with
  | decoding prepared => exact Nat.zero_le _
  | failing todo =>
    have hle := failing_le_held hs hp
    simp only [Phase.untilAwait]
    omega
  | _ => simpa [Phase.untilAwait, hp] using hturns

/-- A request that ends takes at least its own turns with it. -/
theorem held_retired {id : RequestId} {seq : ActiveSequence} (hseq : s.active.get? id = some seq)
    (hq : s'.queue = s.queue) (ha : s'.active = s.active.erase id) : held s' + 1 = held s := by
  rw [held, held, hq, ha, Dict.size_erase hseq]
  omega

theorem untilAwait_moved (hq : s'.queue = s.queue) (ha : s'.active.size = s.active.size)
    (ht : s'.phase.untilAwait (held s) s.queue.depth < s.phase.untilAwait (held s) s.queue.depth) :
    untilAwait s' < untilAwait s := by
  have hh : held s' = held s := by rw [held, held, hq, ha]
  rw [untilAwait, untilAwait, hh, hq]
  exact ht

theorem untilAwait_expired {now : Time} {request : PendingRequest} {todo : List PendingRequest}
    {woken : Bool} (hh : held s' + 1 = held s)
    (hp : s.phase = .expiring now (request :: todo) woken)
    (hp' : s'.phase = .expiring now todo woken) : untilAwait s' < untilAwait s := by
  have hsome : ¬ (woken = false ∧ held s = 0) := by omega
  rw [untilAwait, untilAwait, hp, hp']
  simp only [Phase.untilAwait, Phase.turns, List.length_cons, if_neg hsome]
  split_ifs <;> omega

theorem untilAwait_lt (hr : Reachable (step env) anything (start env) s)
    (hcap : env.totalTokens ≤ env.batchCapacity) (hchunk : 1 ≤ env.chunkSize)
    (hslots : 1 ≤ env.nSeqMax)
    (hprompts : ∀ id request, s.accepted.get? id = some request → request.promptTokens ≠ [])
    (hstep : step env s .loop = some s') : untilAwait s' < untilAwait s := by
  obtain ⟨hb, hs⟩ := reachable_books hr
  have hs' := (reachable_books (hr.next trivial hstep)).2
  have ht := reachable_transition hr hstep
  have hwaiting : s.queue.waiting.length = s.queue.depth := List.length_map _
  cases ht with
  | beginExpiry hp =>
    refine untilAwait_moved rfl rfl ?_
    simp only [hp, Phase.untilAwait, Phase.turns, held, hwaiting]
    grind
  | wake hp hq =>
    refine untilAwait_moved rfl rfl ?_
    simp only [hp, Phase.untilAwait, Phase.turns, hwaiting, if_neg hq, held]
    grind
  | keep hp hfresh =>
    refine untilAwait_moved rfl rfl ?_
    simp only [hp, Phase.untilAwait, Phase.turns, List.length_cons]
    omega
  | @expire now request todo woken hp hstale hpool =>
    have hh := (@held_expired s (expiredState env s request.id (.expiring now todo woken)) request
      hpool rfl rfl rfl).1
    exact untilAwait_expired hh hp rfl
  | rest hp ha hq =>
    refine untilAwait_moved rfl rfl ?_
    simp only [hp, Phase.untilAwait, Phase.turns, hq, List.length_nil, if_true]
    split_ifs <;> omega
  | full hp hf =>
    refine untilAwait_moved rfl rfl ?_
    simp only [hp, Phase.untilAwait, Phase.turns, if_neg (held_awake hp hstep (by simp)),
      List.length_nil]
    omega
  | select hp hf hsel =>
    obtain ⟨hn, hin, -⟩ := hs'.admitting rfl
    have hle : _ ≤ held s := todo_le_held hn hin
    refine untilAwait_moved rfl rfl ?_
    simp only [hp, Phase.untilAwait, Phase.turns, if_neg (held_awake hp hstep (by simp)),
      List.length_nil]
    omega
  | selectRaised hp hf hsel =>
    refine untilAwait_moved rfl rfl ?_
    simp only [hp, Phase.untilAwait, Phase.turns]
    split_ifs <;> omega
  | @admitted request todo seqId hp hpool hslot =>
    have hh := (@held_admitted env s hb request seqId (.admitting todo) hpool).1
    rw [untilAwait, untilAwait, hh, hp]
    simp only [admittedState, Phase.untilAwait, Phase.turns, List.length_cons]
    omega
  | buildNothing hp hnil =>
    have hnone := built_nothing hr hcap hchunk hslots hprompts hp hnil
    refine untilAwait_moved rfl rfl ?_
    simp [hp, Phase.untilAwait, Phase.turns, hnone]
  | build hp hprep hne =>
    refine untilAwait_moved rfl rfl ?_
    simp only [hp, Phase.untilAwait, Phase.turns]
    omega
  | @finishSampled idOf now seqId token todo id seq state why hp hid hseq hstate hwhy hnt =>
    have hh := @held_retired s (finishedState env s id (decremented state) why [.sampled id token]
      (.distributing idOf now todo)) id seq hseq rfl rfl
    rw [untilAwait, untilAwait, hp]
    simp only [Phase.untilAwait, Phase.turns, List.length_cons]
    simp only [finishedState] at hh ⊢
    omega
  | dieSampled hp hid hseq hstate hwhy hnt =>
    simp only [untilAwait, hp, diedState, Phase.untilAwait, Phase.turns]
    omega
  | @push idOf now seqId token todo id seq state hp hid hseq hstate hgo =>
    have hsize : (pushedState env s id seq state now token
        (.distributing idOf now todo)).active.size = s.active.size :=
      Dict.size_set_of_mem (Dict.mem_keys.mpr ⟨seq, hseq⟩)
    refine untilAwait_moved rfl hsize ?_
    simp only [hp, pushedState, Phase.untilAwait, Phase.turns, List.length_cons]
    omega
  | @finishFailed id todo seq state hp hseq hstate hnt =>
    have hh := @held_retired s (finishedState env s id state (some .decodeError) []
      (.failing todo)) id seq hseq rfl rfl
    rw [untilAwait, untilAwait, hp]
    simp only [Phase.untilAwait, List.length_cons]
    simp only [finishedState] at hh ⊢
    omega
  | dieFailed hp hseq hstate hnt =>
    simp only [untilAwait, hp, diedState, Phase.untilAwait, Phase.turns]
    omega
  | endTick hp =>
    refine untilAwait_moved rfl rfl ?_
    rcases hp with ⟨idOf, now, hp⟩ | hp
    · simp only [hp, Phase.untilAwait, Phase.turns, List.length_nil]
      split_ifs <;> omega
    · simp only [hp, Phase.untilAwait, Phase.turns, List.length_nil]
      split_ifs <;> omega

/-- No more can wait or run than the queue and the slots hold. -/
theorem held_le (hb : Books env s) : held s ≤ env.maxQueueDepth + env.nSeqMax := by
  have hslots := hb.slots.length_eq
  rw [List.length_append, List.length_map, slots, List.length_map, List.length_range] at hslots
  have hsize : s.active.size = s.active.values.length := (List.length_map _).symm
  have hdepth := hb.depth
  rw [held]
  omega

/-- Where the loop cannot go on by itself it awaits something, or it is dead. -/
theorem awaits_of_stuck (hstuck : step env s .loop = none) :
    (∃ prepared, s.phase = .decoding prepared) ∨ s.phase = .idle ∧ s.queue.depth = 0 ∨
      ∃ e, s.phase = .dead e := by
  cases hp : s.phase with
  | dead e => exact .inr (.inr ⟨e, rfl⟩)
  | decoding prepared => exact .inl ⟨prepared, rfl⟩
  | idle =>
    simp only [step, iterate, hp] at hstuck
    split_ifs at hstuck with hq
    exact .inr (.inl ⟨rfl, hq⟩)
  | expiring now todo woken =>
    cases todo with
    | nil =>
      simp only [step, iterate, hp] at hstuck
      split_ifs at hstuck
    | cons request todo => simp [step, iterate, hp] at hstuck
  | admitting todo => cases todo <;> simp [step, iterate, hp] at hstuck
  | distributing idOf now todo => cases todo <;> simp [step, iterate, hp] at hstuck
  | failing todo => cases todo <;> simp [step, iterate, hp] at hstuck
  | top => simp [step, iterate, hp] at hstuck

end Turns

/-- A turn of the loop, between two awaits. -/
def Label.turn : Label → Bool
  | .loop => true
  | _ => false

/-- The event loop is never kept waiting: from any state the batch loop takes at most a number of
turns that the settings bound, and then awaits the decode of a batch or a new request, unless it
died. -/
theorem event_loop_served (env : Env) (hcap : env.totalTokens ≤ env.batchCapacity)
    (hchunk : 1 ≤ env.chunkSize) (hslots : 1 ≤ env.nSeqMax) (s : State)
    (h : Reachable (step env) anything (start env) s)
    (hprompts : ∀ id request, s.accepted.get? id = some request → request.promptTokens ≠ []) :
    (∀ ls s', (∀ l ∈ ls, l.turn = true) → run (step env) s ls = some s' →
      ls.length ≤ 4 * (env.maxQueueDepth + env.nSeqMax) + 7) ∧
    ∃ ls s', (∀ l ∈ ls, l.turn = true) ∧ run (step env) s ls = some s' ∧
      ((∃ prepared, s'.phase = .decoding prepared) ∨ s'.phase = .idle ∧ s'.queue.depth = 0 ∨
        ∃ e, s'.phase = .dead e) := by
  have hkept : ∀ u l u', Bounded env (held s) u → l.turn = true → step env u l = some u' →
      Bounded env (held s) u' ∧ untilAwait u' < untilAwait u := by
    intro u l u' hI hl hs
    obtain rfl : l = .loop := by
      cases l <;> simp [Label.turn] at hl ⊢
    exact ⟨(hI.step hcap hchunk hslots rfl hs).1,
      untilAwait_lt hI.1 hcap hchunk hslots hI.2.2 hs⟩
  have hstart : Bounded env (held s) s := ⟨h, le_rfl, hprompts⟩
  have hcounted : ∀ u l u', Bounded env (held s) u → l.turn = true → step env u l = some u' →
      Bounded env (held s) u' ∧ untilAwait u' + l.turn.toNat ≤ untilAwait u := by
    intro u l u' hI hl hs
    obtain ⟨hI', hlt⟩ := hkept u l u' hI hl hs
    rw [hl]
    exact ⟨hI', hlt⟩
  constructor
  · intro ls s' hall hrun
    have hcount : ls.countP Label.turn = ls.length := List.countP_eq_length.mpr hall
    have hspent := (counted_le_rank hcounted hstart (fun l hl _ => hall l hl) hrun).2
    have hle := untilAwait_le (reachable_books h).2
    have hheld := held_le (reachable_books h).1
    omega
  · obtain ⟨ls, s', hall, hrun, -, hstuck⟩ := runs_out hkept hstart
    exact ⟨ls, s', hall, hrun, awaits_of_stuck (hstuck .loop rfl)⟩

theorem event_loop_served_demo : ∃ s, run (step demo) (start demo) demoArrivals = some s ∧
    ∀ ls s', (∀ l ∈ ls, l.turn = true) → run (step demo) s ls = some s' → ls.length ≤ 31 := by
  obtain ⟨s, hs⟩ := Option.isSome_iff_exists.mp
    (by decide +kernel : (run (step demo) (start demo) demoArrivals).isSome)
  have hr := Reachable.init.run hs
  obtain ⟨hbound, -⟩ :=
    event_loop_served demo (by decide) (by decide) (by decide) s hr (demo_prompts hr)
  exact ⟨s, hs, hbound⟩

end TinyServe.BatchLoop
