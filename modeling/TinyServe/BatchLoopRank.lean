import TinyServe.BatchLoopOrder
import TinyServe.BatchLoopReadings

set_option autoImplicit false

/-! Whom FIFO and strict priority let go first, over whole runs and across hot swaps. -/
namespace TinyServe.BatchLoop
open OrderedDict Scheduler Runs

section Arrivals
variable {env : Env} {s s' : State} {l : Label}

/-- Under a clock that does not go back requests are accepted in the order of their arrival. -/
theorem reachable_arrivals (hclock : Nondecreasing env)
    (h : Reachable (step env) anything (start env) s) :
    ByArrival s.accepted.values ∧ ∀ r ∈ s.accepted.values, r.arrivalTs ≤ present env s := by
  refine h.invariant (I := fun s => ByArrival s.accepted.values ∧
    ∀ r ∈ s.accepted.values, r.arrivalTs ≤ present env s)
    ⟨by simp [start, ByArrival], by simp [start]⟩ ?_
  rintro s l s' hr ⟨hsorted, hpast⟩ - hs
  have ht := reachable_transition hr hs
  have hlater := present_le hclock ht
  cases ht with
  | @accepted id body kvCache hw hnew hroom hres =>
    have hvalues : (s.accepted.set id (newRequest env s id body)).values =
        s.accepted.values ++ [newRequest env s id body] :=
      Dict.values_set_of_fresh (Dict.get?_eq_none.mpr ((reachable_books hr).1.unissued hnew).2.2.1)
    refine ⟨?_, fun r hmem => ?_⟩
    · show ByArrival (s.accepted.set id (newRequest env s id body)).values
      rw [hvalues]
      refine List.pairwise_append.mpr ⟨hsorted, List.pairwise_singleton _ _, fun r hold r' hnew => ?_⟩
      rw [List.mem_singleton.mp hnew]
      exact hpast r hold
    · have hmem' : r ∈ (s.accepted.set id (newRequest env s id body)).values := hmem
      rw [hvalues] at hmem'
      rcases List.mem_append.mp hmem' with hold | hone
      · exact (hpast r hold).trans hlater
      · rw [List.mem_singleton.mp hone]
        exact hlater
  | _ => exact ⟨hsorted, fun r hmem => (hpast r hmem).trans hlater⟩

end Arrivals

section Ranks
variable {env : Env} {s s' : State} {l : Label}

/-- The chosen go first: under FIFO they are the head of the pool, under strict priority the head
of the pool sorted. -/
structure Ranked (s : State) : Prop where
  fifo : ∀ todo, s.phase = .admitting todo → s.activePolicy.policy = .fifo →
    todo <+: s.queue.waiting
  priority : ∀ todo, s.phase = .admitting todo → s.activePolicy.policy = .priority →
    ∃ rest, (todo ++ rest).Perm s.queue.waiting ∧ (todo ++ rest).Pairwise priorityBefore

theorem Ranked.of_phase (h : ∀ todo, s.phase ≠ .admitting todo) : Ranked s :=
  ⟨fun todo hp => absurd hp (h todo), fun todo hp => absurd hp (h todo)⟩

theorem select_fifo {policy policy' : SchedulingPolicy} {oneOver : ℕ → Except PyError ℚ}
    {waiting chosen : List PendingRequest} {capacity : ℕ} (hw : ByArrival waiting)
    (h : policy.select oneOver waiting capacity = (policy', .ok chosen)) (hp : policy' = .fifo) :
    chosen <+: waiting := by
  subst hp
  cases policy with
  | fifo =>
    obtain rfl : (waiting.insertionSort fifoBefore).take capacity = chosen :=
      Except.ok.inj (Prod.mk.inj h).2
    have hsame : waiting.insertionSort fifoBefore = waiting := List.Pairwise.insertionSort_eq hw
    rw [hsame]
    exact List.take_prefix capacity waiting
  | priority => simp [SchedulingPolicy.select] at h
  | wfq fairness => simp [SchedulingPolicy.select] at h

theorem pairwise_priority (waiting : List PendingRequest) :
    (waiting.insertionSort priorityBefore).Pairwise priorityBefore := by
  have htotal : Std.Total priorityBefore := by
    refine ⟨fun a b => ?_⟩
    simp only [priorityBefore]
    rcases lt_trichotomy a.priority b.priority with hlt | heq | hgt
    · exact .inr (.inl hlt)
    · exact (le_total a.arrivalTs b.arrivalTs).imp (fun hle => .inr ⟨heq, hle⟩)
        fun hle => .inr ⟨heq.symm, hle⟩
    · exact .inl (.inl hgt)
  have htrans : IsTrans PendingRequest priorityBefore := by
    refine ⟨fun a b c hab hbc => ?_⟩
    rcases hab with hab | ⟨hab, hle⟩
    · rcases hbc with hbc | ⟨hbc, -⟩
      · exact .inl (hbc.trans hab)
      · exact .inl (hbc ▸ hab)
    · rcases hbc with hbc | ⟨hbc, hle'⟩
      · exact .inl (hab ▸ hbc)
      · exact .inr ⟨hab.trans hbc, hle.trans hle'⟩
  exact List.pairwise_insertionSort priorityBefore waiting

theorem select_priority {policy policy' : SchedulingPolicy} {oneOver : ℕ → Except PyError ℚ}
    {waiting chosen : List PendingRequest} {capacity : ℕ}
    (h : policy.select oneOver waiting capacity = (policy', .ok chosen)) (hp : policy' = .priority) :
    ∃ rest, (chosen ++ rest).Perm waiting ∧ (chosen ++ rest).Pairwise priorityBefore := by
  subst hp
  cases policy with
  | priority =>
    obtain rfl : (waiting.insertionSort priorityBefore).take capacity = chosen :=
      Except.ok.inj (Prod.mk.inj h).2
    refine ⟨(waiting.insertionSort priorityBefore).drop capacity, ?_, ?_⟩
    · rw [List.take_append_drop]
      exact List.perm_insertionSort priorityBefore waiting
    · rw [List.take_append_drop]
      exact pairwise_priority waiting
  | fifo => simp [SchedulingPolicy.select] at h
  | wfq fairness => simp [SchedulingPolicy.select] at h

theorem Ranked.admitted (h : Ranked s) (hb : Books env s) (hs : Standing env s)
    {request : PendingRequest} {todo : List PendingRequest} {seqId : SeqId}
    (hp : s.phase = .admitting (request :: todo)) :
    Ranked (admittedState env s request seqId (.admitting todo)) := by
  have hwaiting : (admittedState env s request seqId (.admitting todo)).queue.waiting =
      s.queue.waiting.filter fun r => r.id ≠ request.id := hb.waiting_erase request.id
  have hothers : ∀ rest : List PendingRequest, ((request :: rest).map PendingRequest.id).Nodup →
      (request :: rest).filter (fun r => r.id ≠ request.id) = rest := by
    intro rest hids
    rw [List.map_cons, List.nodup_cons] at hids
    rw [List.filter_cons_of_neg (by simp), List.filter_eq_self]
    intro r hr
    have hne : r.id ≠ request.id := fun he => hids.1 (he ▸ List.mem_map_of_mem hr)
    simpa using hne
  refine ⟨fun todo' hphase hpolicy => ?_, fun todo' hphase hpolicy => ?_⟩
  · obtain rfl := Phase.admitting.inj hphase
    have hprefix := (h.fifo _ hp hpolicy).filter fun r => r.id ≠ request.id
    rwa [hothers todo (hs.admitting hp).1, ← hwaiting] at hprefix
  · obtain rfl := Phase.admitting.inj hphase
    obtain ⟨rest, hperm, hsorted⟩ := h.priority _ hp hpolicy
    have hids : ((request :: (todo ++ rest)).map PendingRequest.id).Nodup :=
      (hperm.map PendingRequest.id).nodup_iff.mpr hb.waiting_nodup
    refine ⟨rest, ?_, hsorted.of_cons⟩
    have hperm' := hperm.filter fun r => r.id ≠ request.id
    rwa [List.cons_append, hothers _ hids, ← hwaiting] at hperm'

theorem reachable_ranked (hclock : Nondecreasing env)
    (h : Reachable (step env) anything (start env) s) : Ranked s := by
  refine h.invariant (I := Ranked) (.of_phase (by simp [start])) fun s l s' hr hi _ hstep => ?_
  have ht := reachable_transition hr hstep
  obtain ⟨hb, hs⟩ := reachable_books hr
  have hawait : ∀ todo, s.phase.awaiting = true → s.phase ≠ .admitting todo := by
    intro todo hw hp
    simp [hp, Phase.awaiting] at hw
  cases ht with
  | rejected hw | accepted hw | setPolicy hw | cancel hw | receive hw | leave hw =>
    exact .of_phase fun todo => hawait todo hw
  | full hp hf =>
    refine ⟨fun todo hphase _ => ?_, fun todo hphase _ => ?_⟩
    · obtain rfl := Phase.admitting.inj hphase
      exact List.nil_prefix
    · obtain rfl := Phase.admitting.inj hphase
      exact ⟨s.queue.waiting.insertionSort priorityBefore, List.perm_insertionSort _ _,
        pairwise_priority _⟩
  | select hp hf hsel =>
    have harrivals : ByArrival s.queue.waiting :=
      (reachable_arrivals hclock hr).1.sublist
        ((reachable_orderly hr (reachable_arrivals hclock hr).1).waiting)
    refine ⟨fun todo hphase hpolicy => ?_, fun todo hphase hpolicy => ?_⟩
    · obtain rfl := Phase.admitting.inj hphase
      exact select_fifo harrivals hsel hpolicy
    · obtain rfl := Phase.admitting.inj hphase
      exact select_priority hsel hpolicy
  | admitted hp hpool hslot => exact hi.admitted hb hs hp
  | _ => exact .of_phase (by simp [expiredState, finishedState, diedState, pushedState])

/-- Nobody of its class stands before a request that is the first of its class. -/
theorem first_of_class {request : PendingRequest} {todo before after : List PendingRequest}
    (h : ofClass request.priority (request :: todo) <+:
      ofClass request.priority (before ++ request :: after)) (hnot : request ∉ before) :
    ofClass request.priority before = [] := by
  rw [ofClass_cons, if_pos rfl, ofClass_append] at h
  cases hclass : ofClass request.priority before with
  | nil => rfl
  | cons r rest =>
    rw [hclass, List.cons_append, List.cons_prefix_cons] at h
    have hin : r ∈ ofClass request.priority before := hclass ▸ List.mem_cons_self
    exact absurd (h.1 ▸ (mem_ofClass.mp hin).1) hnot

end Ranks

/-- Whoever is admitted goes first, whatever policies were in force before: under FIFO the request
that waits longest, under strict priority the longest waiting one of the highest priority. -/
theorem admitted_by_rank (env : Env) (hclock : Nondecreasing env) (s : State)
    (h : Reachable (step env) anything (start env) s) (request : PendingRequest)
    (todo : List PendingRequest) (hp : s.phase = .admitting (request :: todo)) :
    (s.activePolicy.policy = .fifo → s.queue.waiting.head? = some request) ∧
    (s.activePolicy.policy = .priority → ∃ before after,
      s.queue.waiting = before ++ request :: after ∧
        (∀ r ∈ before, r.priority < request.priority) ∧
        ∀ r ∈ after, r.priority ≤ request.priority) := by
  have hranked := reachable_ranked hclock h
  refine ⟨fun hfifo => ?_, fun hpriority => ?_⟩
  · obtain ⟨rest, hrest⟩ := hranked.fifo _ hp hfifo
    rw [← hrest, List.cons_append, List.head?_cons]
  · obtain ⟨rest, hperm, hsorted⟩ := hranked.priority _ hp hpriority
    have hle : ∀ r ∈ s.queue.waiting, r ≠ request → r.priority ≤ request.priority := by
      intro r hr hne
      have hr' := hperm.mem_iff.mpr hr
      rw [List.cons_append, List.mem_cons] at hr'
      rcases List.rel_of_pairwise_cons hsorted (hr'.resolve_left hne) with hlt | ⟨heq, -⟩
      · exact hlt.le
      · exact heq.ge
    obtain ⟨before, after, hsplit⟩ := List.append_of_mem (hperm.mem_iff.mp List.mem_cons_self)
    have hn := (reachable_books h).1.waiting_nodup.of_map
    rw [hsplit, List.nodup_middle, List.nodup_cons, List.mem_append, not_or] at hn
    have hbefore : ofClass request.priority before = [] :=
      first_of_class (hsplit ▸ (reachable_orderly h (reachable_arrivals hclock h).1).chosen _ hp
        request.priority) hn.1.1
    refine ⟨before, after, hsplit, fun r hr => ?_, fun r hr => ?_⟩
    · refine lt_of_le_of_ne (hle r (by simp [hsplit, hr]) fun heq => hn.1.1 (heq ▸ hr)) fun heq => ?_
      have hin := mem_ofClass.mpr ⟨hr, heq⟩
      rw [hbefore] at hin
      exact List.not_mem_nil hin
    · exact hle r (by simp [hsplit, hr]) fun heq => hn.1.2 (heq ▸ hr)

section Demo

/-- Whom strict priority is about to let go, and the rest of its choice. -/
def preferred (s : State) : Option (PendingRequest × List PendingRequest) :=
  match s.activePolicy.policy, s.phase with
  | .priority, .admitting (request :: todo) => some (request, todo)
  | _, _ => none

theorem preferred_some {s : State} {request : PendingRequest} {todo : List PendingRequest}
    (h : preferred s = some (request, todo)) : s.activePolicy.policy = .priority ∧
      s.phase = .admitting (request :: todo) := by
  rw [preferred] at h
  split at h
  · rename_i hpolicy hphase
    obtain ⟨rfl, rfl⟩ := Prod.mk.inj (Option.some.inj h)
    exact ⟨hpolicy, hphase⟩
  · simp at h

/-- The policy is swapped while a request waits, and a more urgent one comes later. -/
def demoUrgent : List Label :=
  [.generate 0 demoBody, .setPolicy "priority",
    .generate 1 { demoBody with priority := 2, priority_pos := Nat.le_succ 1 }] ++ List.replicate 4 .loop

theorem admitted_by_rank_demo : ∃ s request todo before after,
    run (step demo) (start demo) demoUrgent = some s ∧ s.phase = .admitting (request :: todo) ∧
      s.queue.waiting = before ++ request :: after ∧ before.length = 1 ∧
        ∀ r ∈ before, r.priority < request.priority := by
  have hrun : ((run (step demo) (start demo) demoUrgent).bind preferred).map (fun x => x.1.id) =
      some 1 := by decide +kernel
  obtain ⟨⟨request, todo⟩, hpreferred, hid⟩ := Option.map_eq_some_iff.mp hrun
  obtain ⟨s, hs, hp⟩ := Option.bind_eq_some_iff.mp hpreferred
  obtain ⟨hpolicy, hphase⟩ := preferred_some hp
  have hclock : Nondecreasing demo := fun tick tick' _ _ hle _ => Nat.cast_le.mpr hle
  obtain ⟨-, hstrict⟩ :=
    admitted_by_rank demo hclock s (Reachable.init.run hs) request todo hphase
  obtain ⟨before, after, hsplit, hbefore, -⟩ := hstrict hpolicy
  have hids : (run (step demo) (start demo) demoUrgent).map (fun s =>
      s.queue.waiting.map PendingRequest.id) = some [0, 1] := by decide +kernel
  rw [hs, Option.map_some, Option.some.injEq, hsplit, List.map_append, List.map_cons, hid] at hids
  refine ⟨s, request, todo, before, after, hs, hphase, hsplit, ?_, hbefore⟩
  cases before with
  | nil => simp at hids
  | cons r before =>
    cases before with
    | nil => rfl
    | cons r' before => simp at hids

end Demo

end TinyServe.BatchLoop
