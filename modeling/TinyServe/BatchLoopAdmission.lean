import TinyServe.BatchLoopResources
import TinyServe.FairQueueTurns

set_option autoImplicit false

/-! The admission loop against what the policies choose for it. -/
namespace TinyServe.BatchLoop
open OrderedDict Scheduler WeightedFairQueue Runs

section Choice

/-- With exact division every policy chooses. -/
theorem select_exactly (policy : SchedulingPolicy) (waiting : List PendingRequest) (capacity : ℕ) :
    ∃ policy' chosen, policy.select exactly waiting capacity = (policy', .ok chosen) := by
  cases policy with
  | fifo => exact ⟨_, _, rfl⟩
  | priority => exact ⟨_, _, rfl⟩
  | wfq fairness =>
    obtain ⟨f', chosen, hgrant⟩ :=
      @grant_exactly fairness _ waiting (Nat.min_le_right capacity waiting.length) []
    refine ⟨.wfq f', chosen, ?_⟩
    simp only [SchedulingPolicy.select, select, hgrant]

end Choice

section Admission
variable {env : Env} {s s' : State}

/-- While there are requests to admit they are as many as slots or waiting requests there are. -/
def Sized (s : State) : Prop :=
  ∀ todo, s.phase = .admitting todo → todo.length = min s.freeSlots.length s.queue.waiting.length

theorem waiting_erase {request : PendingRequest}
    (h : s.queue.pool.get? request.id = some request) :
    s.queue.waiting.length = (s.queue.pool.erase request.id).values.length + 1 :=
  (Dict.values_perm_erase h).length_eq

theorem Sized.transition (h : Sized s) {l : Label} (ht : Transition env s l s') :
    Sized s' := by
  cases ht with
  | rejected hw | accepted hw | setPolicy hw | cancel hw | receive hw | leave hw =>
    intro todo hp
    have hp' : s.phase = .admitting todo := hp
    simp [hp', Phase.awaiting] at hw
  | full hp hf =>
    intro todo hp'
    obtain rfl := Phase.admitting.inj hp'
    simp [hf]
  | select hp hf hsel =>
    intro todo hp'
    obtain rfl := Phase.admitting.inj hp'
    exact (select_perm hsel).1
  | @admitted request rest seqId hp hpool hslot =>
    intro todo hp'
    obtain rfl := Phase.admitting.inj hp'
    have hlen := h _ hp
    rw [waiting_erase hpool, List.length_cons] at hlen
    show rest.length =
      min s.freeSlots.dropLast.length (s.queue.pool.erase request.id).values.length
    rw [List.length_dropLast]
    omega
  | _ => simp [Sized, expiredState, finishedState, diedState, pushedState]

theorem reachable_sized (h : Reachable (step env) anything (start env) s) : Sized s :=
  h.invariant (I := Sized) (by simp [Sized, start]) fun _ _ _ hr hi _ hstep =>
    hi.transition (reachable_transition hr hstep)

/-- Admitting the next of the chosen requests finds it waiting and a slot for it. -/
theorem admitNext_returns {request : PendingRequest} {todo : List PendingRequest}
    (hs : Standing env s) (hp : s.phase = .admitting (request :: todo)) :
    (s.queue.remove request.id).isSome ∧ s.freeSlots ≠ [] ∧ (admitNext env s request).2 = none := by
  obtain ⟨-, hpool, hlen⟩ := hs.admitting hp
  have hin := hpool request List.mem_cons_self
  have hne : s.freeSlots ≠ [] := by
    rintro he
    rw [he] at hlen
    simp at hlen
  refine ⟨by simp [RequestQueue.remove, hin], hne, ?_⟩
  rw [← settle_returns, admitNext_eq hin (List.getLast?_eq_some_getLast hne)]
  rfl

end Admission

/-- Every policy chooses as many waiting requests as there is capacity for, none of them twice, so
that the admission loop never removes a request that does not wait and never runs out of slots, and
leaves a slot free only if nobody waits. -/
theorem selection_safe :
    (∀ (policy : SchedulingPolicy) (waiting : List PendingRequest) (capacity : ℕ),
      (waiting.map PendingRequest.id).Nodup →
      ∃ policy' chosen, policy.select exactly waiting capacity = (policy', .ok chosen) ∧
        chosen.length = min capacity waiting.length ∧ (∀ r ∈ chosen, r ∈ waiting) ∧
        (chosen.map PendingRequest.id).Nodup) ∧
    ∀ (env : Env) (s : State), Reachable (step env) anything (start env) s →
      (selectWaiting env s).queue = s.queue ∧
      (∀ request todo, s.phase = .admitting (request :: todo) →
        (s.queue.remove request.id).isSome ∧ s.freeSlots ≠ [] ∧
          (admitNext env s request).2 = none) ∧
      (s.phase = .admitting [] → s.freeSlots = [] ∨ s.queue.waiting = []) := by
  refine ⟨fun policy waiting capacity hids => ?_,
    fun env s hr => ⟨?_, fun request todo hp => ?_, fun hp => ?_⟩⟩
  · obtain ⟨policy', chosen, hsel⟩ := select_exactly policy waiting capacity
    obtain ⟨hlen, rest, hperm⟩ := select_perm hsel
    exact ⟨policy', chosen, hsel, hlen, fun r hr => hperm.mem_iff.mp (List.mem_append_left _ hr),
      chosen_nodup hids hperm⟩
  · unfold selectWaiting
    split_ifs
    · rfl
    · dsimp only
      split <;> rfl
  · exact admitNext_returns (reachable_books hr).2 hp
  · have hlen := reachable_sized hr [] hp
    rw [List.length_nil] at hlen
    by_cases hslots : s.freeSlots = []
    · exact .inl hslots
    · have hpos := List.length_pos_iff.mpr hslots
      exact .inr (List.eq_nil_of_length_eq_zero (by omega))

section Demo

/-- Two requests from which one is chosen, and the last of two for which there are slots. -/
theorem selection_safe_demo :
    (∃ policy' chosen, SchedulingPolicy.priority.select exactly
        [⟨0, [1], 1, 1, 0⟩, ⟨1, [1], 1, 2, 0⟩] 1 = (policy', .ok chosen) ∧ chosen.length = 1) ∧
      ∃ s request, run (step demo) (start demo) (demoArrivals.take 7) = some s ∧
        s.phase.toAdmit = some [request] ∧ (admitNext demo s request).2 = none := by
  obtain ⟨hchoice, hloop⟩ := selection_safe
  obtain ⟨policy', chosen, hsel, hlen, -⟩ :=
    hchoice .priority [⟨0, [1], 1, 1, 0⟩, ⟨1, [1], 1, 2, 0⟩] 1 (by decide)
  obtain ⟨s, hs⟩ := Option.isSome_iff_exists.mp
    (by decide +kernel : (run (step demo) (start demo) (demoArrivals.take 7)).isSome)
  have hids : (run (step demo) (start demo) (demoArrivals.take 7)).map (fun s =>
      s.phase.toAdmit.map (List.map PendingRequest.id)) = some (some [1]) := by decide +kernel
  rw [hs, Option.map_some, Option.some.injEq] at hids
  obtain ⟨todo, htodo, hone⟩ := Option.map_eq_some_iff.mp hids
  obtain ⟨request, rfl, -⟩ := List.map_eq_singleton_iff.mp hone
  exact ⟨⟨policy', chosen, hsel, hlen⟩, s, request, hs, htodo,
    ((hloop demo s (Reachable.init.run hs)).2.1 request [] (toAdmit_some htodo)).2.2⟩

end Demo

end TinyServe.BatchLoop
