import TinyServe.BatchLoopResources
import TinyServe.FairQueuePriorities

set_option autoImplicit false

/-! The selection step of the loop under priorities that weighted fair queueing can divide by. -/
namespace TinyServe.BatchLoop
open OrderedDict Scheduler Runs

/-- The requests that clients send have priorities that a float can divide by. -/
def Modest (_ : State) (l : Label) : Prop :=
  ∀ id body, l = .generate id body → body.priority < floatLimit

section Modesty
variable {env : Env} {s s' : State}

theorem accepted_modest {l : Label} (h : Transition env s l s') (hl : Modest s l)
    (hs : ∀ r ∈ s.accepted.values, r.priority < floatLimit) :
    ∀ r ∈ s'.accepted.values, r.priority < floatLimit := by
  cases h with
  | @accepted id body kvCache hw hnew hroom hres =>
    intro r hr
    obtain ⟨j, hj⟩ := Dict.mem_values.mp hr
    rw [Dict.get?_set] at hj
    split_ifs at hj with he
    · obtain rfl := Option.some.inj hj
      exact hl id body rfl
    · exact hs r (Dict.mem_values.mpr ⟨j, hj⟩)
  | _ => exact hs

theorem reachable_modest (h : Reachable (step env) Modest (start env) s) :
    ∀ r ∈ s.queue.waiting, r.priority < floatLimit := by
  have hacc : ∀ r ∈ s.accepted.values, r.priority < floatLimit := by
    refine h.invariant (I := fun s => ∀ r ∈ s.accepted.values, r.priority < floatLimit)
      (by simp [start]) ?_
    intro s l s' hr hi hl hstep
    exact accepted_modest (reachable_transition hr hstep) hl hi
  intro r hr
  have hb := (reachable_books h).1
  exact hacc r (Dict.mem_values.mpr ⟨_, (hb.queued _ _ (hb.waiting_pool hr)).2⟩)

/-- Weighted fair queueing chooses from a waiting list at every capacity if and only if a float can
divide by all of its priorities, and so does every policy at every state of a loop that is sent no
other ones. -/
theorem selection_returns (share : ℕ → ℚ) :
    (∀ (f : WeightedFairQueue) (waiting : List PendingRequest),
      (∀ capacity, ∃ f' chosen,
        f.select (floatOneOver share) waiting capacity = (f', .ok chosen)) ↔
          ∀ r ∈ waiting, r.priority < floatLimit) ∧
    ∀ (env : Env) (s : State), env.oneOver = floatOneOver share →
      Reachable (step env) Modest (start env) s → ∃ policy chosen,
        s.activePolicy.policy.select env.oneOver s.queue.waiting s.freeSlots.length =
          (policy, .ok chosen) := by
  refine ⟨select_returns share, fun env s hdiv hr => ?_⟩
  cases hpolicy : s.activePolicy.policy with
  | fifo => exact ⟨_, _, rfl⟩
  | priority => exact ⟨_, _, rfl⟩
  | wfq fairness =>
    obtain ⟨f', chosen, hchosen⟩ :=
      (select_returns share fairness s.queue.waiting).mpr (reachable_modest hr) s.freeSlots.length
    rw [hdiv]
    refine ⟨.wfq f', chosen, ?_⟩
    simp only [SchedulingPolicy.select, hchosen]

/-- `10 ** 400` is an integer that the schema accepts. -/
theorem huge_priority_raises : ¬ ∀ (share : ℕ → ℚ) (calls : List (List PendingRequest × ℕ))
    (waiting : List PendingRequest) (capacity : ℕ), (∀ r ∈ waiting, 1 ≤ r.priority) →
      ∃ f' chosen, (after (floatOneOver share) .init calls).select (floatOneOver share) waiting
        capacity = (f', .ok chosen) := by
  intro h
  obtain ⟨f', chosen, hchosen⟩ :=
    h (fun w => 1 / w) [] [⟨0, [1], 1, 10 ^ 400, 0⟩] 1 (by decide +kernel)
  have hraised : ((after (floatOneOver fun w => 1 / w) .init []).select
      (floatOneOver fun w => 1 / w) [⟨0, [1], 1, 10 ^ 400, 0⟩] 1).2 =
        .error .overflowError := by decide +kernel
  rw [hchosen] at hraised
  simp at hraised

/-- The demo server under weighted fair queueing. -/
def demoFair : Env := { demo with
  policy := ⟨.wfq .init, "wfq"⟩
  oneOver := floatOneOver fun w => 1 / w }

theorem demoArrivals_modest : ∀ l ∈ demoArrivals.take 5, ∀ s, Modest s l := by
  rintro l hl s id body rfl
  have hbody : body = demoBody := by
    simp only [demoArrivals, List.replicate, List.cons_append, List.nil_append, List.take,
      List.mem_cons, Label.generate.injEq, reduceCtorEq, List.not_mem_nil, or_false] at hl
    rcases hl with ⟨-, hb⟩ | ⟨-, hb⟩ <;> exact hb
  rw [hbody]
  exact one_lt_floatLimit

theorem selection_returns_demo : ∃ s,
    run (step demoFair) (start demoFair) (demoArrivals.take 5) = some s ∧ ∃ policy chosen,
      s.activePolicy.policy.select demoFair.oneOver s.queue.waiting s.freeSlots.length =
        (policy, .ok chosen) := by
  have hdiv : demoFair.oneOver = floatOneOver fun w => 1 / w := by
    unfold demoFair
    with_reducible rfl
  obtain ⟨s, hs⟩ := Option.isSome_iff_exists.mp
    (by decide +kernel : (run (step demoFair) (start demoFair) (demoArrivals.take 5)).isSome)
  exact ⟨s, hs, (selection_returns _).2 demoFair s hdiv
    (Reachable.init.run_allowed demoArrivals_modest hs)⟩

end Modesty

end TinyServe.BatchLoop
