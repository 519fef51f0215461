import TinyServe.BatchLoopRank
import TinyServe.BatchLoopService
import TinyServe.FairQueueWaits

set_option autoImplicit false

/-!
Weighted fair queueing in the running server: how many others are admitted while a request waits.
The turns of `select` are laid beside the admissions they lead to, and the classes share those turns
by their weights.
-/
namespace TinyServe.BatchLoop
open OrderedDict Scheduler WeightedFairQueue Runs

/-- The requests of its own class that stand before a request. -/
def ahead (request : PendingRequest) (waiting : List PendingRequest) : List PendingRequest :=
  ofClass request.priority (waiting.takeWhile fun r => r ≠ request)

/-- While a request goes on waiting from `s` to `u`: the turns of `select` that are already turned
into admissions, and those whose requests are still to be admitted. -/
structure Passing (s : State) (f : WeightedFairQueue) (request : PendingRequest) (u : State)
    (past coming : List Turn) (f' : WeightedFairQueue) : Prop where
  policy : u.activePolicy.policy = .wfq f'
  trail : Trail exactly f (past ++ coming) f'
  log : ∃ new, u.log = s.log ++ new ∧ entered new = past.map fun t => t.chosen.id
  chosen : coming.map Turn.chosen = u.phase.toAdmit.getD []
  waits : ∀ t ∈ past, request ∈ t.pool ∧ t.chosen ∈ u.accepted.values
  willWait : ∀ before t after, coming = before ++ t :: after →
    request ∉ before.map Turn.chosen → request ∈ t.pool
  passed : grantsOf request.priority past + (ahead request u.queue.waiting).length ≤
    (ahead request s.queue.waiting).length

section Ahead
variable {request r : PendingRequest} {waiting : List PendingRequest}

theorem takeWhile_ne_filter (p : PendingRequest → Bool) (hp : p request = true) :
    (waiting.filter p).takeWhile (fun r => r ≠ request) =
      (waiting.takeWhile fun r => r ≠ request).filter p := by
  induction waiting with
  | nil => rfl
  | cons x xs ih =>
    by_cases hx : x = request
    · subst hx
      simp [hp]
    · by_cases hpx : p x = true
      · simpa [hpx, hx] using ih
      · simpa [hpx, hx] using ih

theorem takeWhile_ne_append (hin : request ∈ waiting) (later : List PendingRequest) :
    (waiting ++ later).takeWhile (fun r => r ≠ request) =
      waiting.takeWhile fun r => r ≠ request := by
  induction waiting with
  | nil => simp at hin
  | cons x xs ih =>
    by_cases hx : x = request
    · simp [hx]
    · rcases List.mem_cons.mp hin with he | hin
      · exact absurd he.symm hx
      · simpa [hx] using ih hin

theorem mem_takeWhile_ne (hr : r ∈ waiting) (hne : r ≠ request)
    (hbehind : ¬ [request, r].Sublist waiting) : r ∈ waiting.takeWhile fun r => r ≠ request := by
  induction waiting with
  | nil => simp at hr
  | cons x xs ih =>
    by_cases hx : x = request
    · subst hx
      have hlater := (List.mem_cons.mp hr).resolve_left hne
      exact absurd ((List.singleton_sublist.mpr hlater).cons_cons x) hbehind
    · rw [List.takeWhile_cons_of_pos (by simpa using hx)]
      rcases List.mem_cons.mp hr with rfl | hr
      · exact List.mem_cons_self
      · exact List.mem_cons_of_mem _ (ih hr fun hsub => hbehind (hsub.cons x))

theorem ahead_filter (p : PendingRequest → Bool) (hp : p request = true) :
    ahead request (waiting.filter p) = (ahead request waiting).filter p := by
  rw [ahead, ahead, takeWhile_ne_filter p hp, ofClass_filter]

theorem ahead_append (hin : request ∈ waiting) (later : List PendingRequest) :
    ahead request (waiting ++ later) = ahead request waiting := by
  rw [ahead, ahead, takeWhile_ne_append hin]

end Ahead

section Passed
variable {env : Env} {s u u' : State} {f f' : WeightedFairQueue} {request : PendingRequest}
  {past coming : List Turn}

theorem passing_start (hf : s.activePolicy.policy = .wfq f) (hw : s.phase.awaiting = true) :
    Passing s f request s [] [] f := by
  refine ⟨hf, .nil f, ⟨[], (List.append_nil _).symm, rfl⟩, ?_, by simp, ?_, ?_⟩
  · cases hp : s.phase with
    | admitting todo => simp [hp, Phase.awaiting] at hw
    | _ => rfl
  · intro before t after he
    simp at he
  · simp [grantsOf]

/-- Steps outside of the admission loop. -/
theorem Passing.frame (h : Passing s f request u past coming f') {events : List Event}
    (hlog : u'.log = u.log ++ events) (hquiet : entered events = [])
    (hphase : u.phase.toAdmit.getD [] = []) (hphase' : u'.phase.toAdmit.getD [] = [])
    (hpolicy : u'.activePolicy = u.activePolicy) (hacc : u.accepted.values ⊆ u'.accepted.values)
    (hahead : (ahead request u'.queue.waiting).length ≤ (ahead request u.queue.waiting).length) :
    Passing s f request u' past coming f' := by
  obtain ⟨new, hnew, hentered⟩ := h.log
  refine ⟨hpolicy ▸ h.policy, h.trail, ⟨new ++ events, ?_, ?_⟩, ?_, fun t ht => ?_, h.willWait, ?_⟩
  · rw [hlog, hnew, List.append_assoc]
  · rw [entered_append, hquiet, List.append_nil, hentered]
  · rw [h.chosen, hphase, hphase']
  · exact ⟨(h.waits t ht).1, hacc (h.waits t ht).2⟩
  · exact (Nat.add_le_add_left hahead _).trans h.passed

/-- A call of `select` takes its turns, and the request is in the pool until its own. -/
theorem Passing.selected (h : Passing s f request u past coming f') (hdiv : env.oneOver = exactly)
    {now : Time} {woken : Bool} {policy : SchedulingPolicy} {chosen : List PendingRequest}
    (hp : u.phase = .expiring now [] woken)
    (hsel : u.activePolicy.policy.select env.oneOver u.queue.waiting u.freeSlots.length =
      (policy, .ok chosen)) (hin : request ∈ u.queue.waiting) :
    ∃ coming' f'', Passing s f request { u with
      activePolicy := { u.activePolicy with policy }
      phase := .admitting chosen } past coming' f'' := by
  rw [h.policy, hdiv] at hsel
  have hcoming : coming = [] := by
    have hnone := h.chosen
    rw [hp] at hnone
    exact List.map_eq_nil_iff.mp hnone
  subst hcoming
  let n := min u.freeSlots.length u.queue.waiting.length
  have hgrant : grant exactly n f' u.queue.waiting [] =
      ((f'.select exactly u.queue.waiting u.freeSlots.length).1, .ok chosen) :=
    Prod.ext rfl (Prod.mk.inj hsel).2
  obtain ⟨hchosen, htrail⟩ := grant_eq_turns hgrant
  refine ⟨turns exactly n f' u.queue.waiting, _, (Prod.mk.inj hsel).1.symm, ?_, h.log,
    hchosen.symm, h.waits, fun before t after he hlater => ?_, h.passed⟩
  · have hbefore := h.trail
    rw [List.append_nil] at hbefore
    exact hbefore.append htrail
  · exact mem_pool_turns he hin hlater

/-- Whoever is admitted had the next turn, and stood before the request if of its class. -/
theorem Passing.admitted (h : Passing s f request u past coming f') (hb : Books env u)
    (ho : Orderly u) (hs : Standing env u) {r : PendingRequest} {todo : List PendingRequest}
    {seqId : SeqId} (hp : u.phase = .admitting (r :: todo))
    (hin : request ∈ (admittedState env u r seqId (.admitting todo)).queue.waiting) :
    ∃ t coming', coming = t :: coming' ∧ Passing s f request
      (admittedState env u r seqId (.admitting todo)) (past ++ [t]) coming' f' := by
  have hwaiting : (admittedState env u r seqId (.admitting todo)).queue.waiting =
      u.queue.waiting.filter fun x => x.id ≠ r.id := hb.waiting_erase r.id
  rw [hwaiting, List.mem_filter] at hin
  obtain ⟨hin, hid⟩ := hin
  have hne : r ≠ request := by
    rintro rfl
    simp at hid
  have hr : r ∈ u.queue.waiting :=
    Dict.mem_values.mpr ⟨_, (hs.admitting hp).2.1 r List.mem_cons_self⟩
  have hchosen := h.chosen
  rw [hp] at hchosen
  obtain ⟨t, coming', rfl, ht, htodo⟩ := List.map_eq_cons_iff.mp hchosen
  obtain ⟨new, hnew, hentered⟩ := h.log
  have hlater : ahead request (admittedState env u r seqId (.admitting todo)).queue.waiting =
      (ahead request u.queue.waiting).filter fun x => x.id ≠ r.id := by
    rw [hwaiting, ahead_filter _ hid]
  let events := lookups u r seqId ++ [.admitted r.id seqId (claimPrefix u r seqId).1] ++
    spanClosing u.tracer r.id .queueWait ++ [.spanStarted r.id .generation]
  have hlog : (admittedState env u r seqId (.admitting todo)).log = s.log ++ (new ++ events) := by
    rw [← List.append_assoc, ← hnew]
    rfl
  have hevents : entered events = [t.chosen.id] := by
    rw [ht]
    simp [events, asEntered]
  refine ⟨t, coming', rfl, h.policy, ?_, ⟨new ++ events, hlog, ?_⟩, htodo, fun t' ht' => ?_,
    fun before t' after he hother => ?_, ?_⟩
  · rw [List.append_assoc, List.singleton_append]
    exact h.trail
  · rw [entered_append, hevents, List.map_append, List.map_singleton, hentered]
  · rcases List.mem_append.mp ht' with hold | hone
    · exact h.waits t' hold
    · rw [List.mem_singleton.mp hone, ht]
      exact ⟨h.willWait [] t coming' rfl (by simp), ho.waiting.subset hr⟩
  · refine h.willWait (t :: before) t' after (by rw [he]; rfl) ?_
    rw [List.map_cons, ht, List.mem_cons, not_or]
    exact ⟨hne.symm, hother⟩
  · rw [hlater, grantsOf, List.countP_append, ← grantsOf, List.countP_singleton, ht]
    have hpassed := h.passed
    by_cases hclass : r.priority = request.priority
    · have hbefore : r ∈ ahead request u.queue.waiting := by
        refine mem_ofClass.mpr ⟨mem_takeWhile_ne hr hne fun hbehind => ?_, hclass⟩
        exact ho.head_first hb hp (hbehind.trans ho.waiting) hclass.symm hr hin
      have hless : ((ahead request u.queue.waiting).filter fun x => x.id ≠ r.id).length <
          (ahead request u.queue.waiting).length :=
        List.length_filter_lt_length_iff_exists.mpr ⟨r, hbefore, by simp⟩
      rw [if_pos (by simpa using hclass)]
      omega
    · have hle := List.length_filter_le (fun x => decide (x.id ≠ r.id)) (ahead request u.queue.waiting)
      rw [if_neg (by simpa using hclass)]
      omega

theorem Passing.step (h : Passing s f request u past coming f') (hdiv : env.oneOver = exactly)
    (hclock : Nondecreasing env) (hr : Reachable (step env) anything (start env) u) {l : Label}
    (hl : ∀ name, l ≠ .setPolicy name) (hs : step env u l = some u')
    (hacc : request ∈ u.accepted.values) (hin : request ∈ u'.queue.waiting) :
    ∃ past' coming' f'', Passing s f request u' past' coming' f'' := by
  obtain ⟨hb, hst⟩ := reachable_books hr
  have ht := reachable_transition hr hs
  have hbefore := (waiting_before hb ht hacc).2 hin
  have hawait : u.phase.awaiting = true → u.phase.toAdmit.getD [] = [] := by
    intro hw
    cases hp : u.phase with
    | admitting todo => simp [hp, Phase.awaiting] at hw
    | _ => rfl
  cases ht with
  | setPolicy hw => exact absurd rfl (hl _)
  | rejected hw hnew =>
    exact ⟨past, coming, f', h.frame rfl (by simp [asEntered]) (hawait hw) (hawait hw) rfl
      (List.Subset.refl _) le_rfl⟩
  | @accepted id body kvCache hw hnew hroom hres =>
    obtain ⟨hpool, -, haccepted, -⟩ := hb.unissued hnew
    have hwaiting : (u.queue.pool.set id (newRequest env u id body)).values =
        u.queue.waiting ++ [newRequest env u id body] :=
      Dict.values_set_of_fresh (Dict.get?_eq_none.mpr hpool)
    refine ⟨past, coming, f', h.frame rfl (by simp [asEntered]) (hawait hw) (hawait hw) rfl ?_ ?_⟩
    · show u.accepted.values ⊆ (u.accepted.set id (newRequest env u id body)).values
      rw [Dict.values_set_of_fresh (Dict.get?_eq_none.mpr haccepted)]
      exact List.subset_append_left _ _
    · show (ahead request (u.queue.pool.set id (newRequest env u id body)).values).length ≤ _
      rw [hwaiting, ahead_append hbefore]
  | cancel hw =>
    exact ⟨past, coming, f', h.frame (List.append_nil _).symm rfl (hawait hw) (hawait hw) rfl
      (List.Subset.refl _) le_rfl⟩
  | receive hw hrec =>
    refine ⟨past, coming, f', h.frame rfl ?_ (hawait hw) (hawait hw) rfl (List.Subset.refl _) le_rfl⟩
    split_ifs <;> simp [asEntered]
  | leave hw hc =>
    exact ⟨past, coming, f', h.frame rfl (by simp [asEntered]) (hawait hw) (hawait hw) rfl
      (List.Subset.refl _) le_rfl⟩
  | @expire now r todo woken hp hstale hpool =>
    have hwaiting : (expiredState env u r.id (.expiring now todo woken)).queue.waiting =
        u.queue.waiting.filter fun x => x.id ≠ r.id := hb.waiting_erase r.id
    rw [hwaiting, List.mem_filter] at hin
    refine ⟨past, coming, f', h.frame rfl (by simp [asEntered]) (by rw [hp]; rfl) rfl rfl
      (List.Subset.refl _) ?_⟩
    rw [hwaiting, ahead_filter _ hin.2]
    exact List.length_filter_le _ _
  | select hp hf hsel =>
    obtain ⟨coming', f'', hpass⟩ := h.selected hdiv hp hsel hbefore
    exact ⟨past, coming', f'', hpass⟩
  | selectRaised hp hf hsel =>
    obtain ⟨policy', chosen, hok⟩ :=
      select_exactly u.activePolicy.policy u.queue.waiting u.freeSlots.length
    rw [hdiv, hok] at hsel
    simp at hsel
  | admitted hp hpool hslot =>
    obtain ⟨t, coming', -, hpass⟩ := h.admitted hb
      (reachable_orderly hr (reachable_arrivals hclock hr).1) hst hp hin
    exact ⟨past ++ [t], coming', f', hpass⟩
  | build hp | buildNothing hp | decoded hp | finishSampled hp | dieSampled hp | push hp
  | finishFailed hp | dieFailed hp =>
    exact ⟨past, coming, f', h.frame rfl (by simp [asEntered]) (by rw [hp]; rfl) rfl rfl
      (List.Subset.refl _) le_rfl⟩
  | endTick hp =>
    refine ⟨past, coming, f', h.frame (List.append_nil _).symm rfl ?_ rfl rfl
      (List.Subset.refl _) le_rfl⟩
    rcases hp with ⟨idOf, now, hp⟩ | hp <;> rw [hp] <;> rfl
  | beginExpiry hp | wake hp | keep hp | rest hp | full hp | decodeFailed hp =>
    exact ⟨past, coming, f', h.frame (List.append_nil _).symm rfl (by rw [hp]; rfl) rfl rfl
      (List.Subset.refl _) le_rfl⟩

/-- From where a request waits to where it still does. -/
theorem reachable_passing (hdiv : env.oneOver = exactly) (hclock : Nondecreasing env)
    (hs : Reachable (step env) anything (start env) s) (hf : s.activePolicy.policy = .wfq f)
    (hw : s.phase.awaiting = true) (hin : request ∈ s.accepted.values)
    (hu : Reachable (step env) (fun _ l => ∀ name, l ≠ .setPolicy name) s u) :
    request ∈ u.accepted.values ∧ (request ∈ u.queue.waiting →
      ∃ past coming f', Passing s f request u past coming f') := by
  refine hu.invariant (I := fun u => request ∈ u.accepted.values ∧ (request ∈ u.queue.waiting →
    ∃ past coming f', Passing s f request u past coming f'))
    ⟨hin, fun _ => ⟨[], [], f, passing_start hf hw⟩⟩ ?_
  rintro u l u' hr ⟨hacc, hi⟩ hl hstep
  have hfrom := hs.trans (hr.mono fun _ _ _ => trivial)
  obtain ⟨hacc', hbefore⟩ :=
    waiting_before (reachable_books hfrom).1 (reachable_transition hfrom hstep) hacc
  refine ⟨hacc', fun hwaits => ?_⟩
  obtain ⟨past, coming, f', hpass⟩ := hi (hbefore hwaits)
  exact hpass.step hdiv hclock hfrom hl hstep hacc hwaits

end Passed

/-- While a request waits under weighted fair queueing and what arrives is of finitely many classes,
only so many others are admitted: as many as their weights allow until the requests of its class
before it and the start of its class are made up for. So it waits for no more batches than these and
whoever ran before take. -/
theorem fair_wait (env : Env) (hdiv : env.oneOver = exactly) (hclock : Nondecreasing env)
    (hcap : env.totalTokens ≤ env.batchCapacity) (hchunk : 1 ≤ env.chunkSize) (s : State)
    (h : Reachable (step env) anything (start env) s) (f : WeightedFairQueue)
    (hf : s.activePolicy.policy = .wfq f) (hw : s.phase.awaiting = true) (request : PendingRequest)
    (hin : request ∈ s.queue.waiting) (ls : List Label) (hls : ∀ name, .setPolicy name ∉ ls)
    (s' : State) (hrun : run (step env) s ls = some s') (hwaits : request ∈ s'.queue.waiting)
    (D : Finset ℕ) (hD : ∀ r ∈ s'.accepted.values, r.priority ∈ D) (most : ℕ)
    (hbrief : ∀ r ∈ s'.accepted.values, Brief env most r) :
    ∃ new, s'.log = s.log ++ new ∧
      ((entered new).length : ℤ) ≤
        f.mostBefore request.priority (ahead request s.queue.waiting).length D ∧
      (env.nSeqMax * (batches new).length : ℤ) ≤ most * (env.nSeqMax +
        f.mostBefore request.priority (ahead request s.queue.waiting).length D) := by
  obtain ⟨hb, -⟩ := reachable_books h
  obtain ⟨id, hpool⟩ := Dict.mem_values.mp hin
  have hacc : request ∈ s.accepted.values :=
    Dict.mem_values.mpr ⟨id, (hb.queued id request hpool).2⟩
  have hreach : Reachable (step env) (fun _ l => ∀ name, l ≠ .setPolicy name) s s' :=
    Reachable.init.run_allowed (fun l hl _ name he => hls name (he ▸ hl)) hrun
  obtain ⟨past, coming, f', hpass⟩ := (reachable_passing hdiv hclock h hf hw hacc hreach).2 hwaits
  obtain ⟨new, hnew, hentered⟩ := hpass.log
  obtain ⟨f₁, htrail⟩ := hpass.trail.take
  have hturns := htrail.length_le
    (fun t ht => mem_classes.mpr ⟨request, (hpass.waits t ht).1, rfl⟩) D
    fun t ht => hD _ (hpass.waits t ht).2
  have hgrants : grantsOf request.priority past ≤ (ahead request s.queue.waiting).length :=
    (Nat.le_add_right _ _).trans hpass.passed
  have hadmitted : ((entered new).length : ℤ) ≤
      f.mostBefore request.priority (ahead request s.queue.waiting).length D := by
    rw [hentered, List.length_map]
    exact hturns.trans (mostBefore_mono f request.priority hgrants D)
  refine ⟨new, hnew, hadmitted, ?_⟩
  have hpaid := paid_new h hcap hchunk hacc hrun hwaits hbrief hnew
  have hpaid' : (env.nSeqMax * (batches new).length : ℤ) ≤
      most * (env.nSeqMax + (entered new).length) := by exact_mod_cast hpaid
  exact hpaid'.trans (mul_le_mul_of_nonneg_left (by omega) (Nat.cast_nonneg _))

/-- Three requests come, the last of them with twice the weight. -/
def demoClasses : List Label :=
  [.generate 0 demoBody, .generate 1 demoBody,
    .generate 2 { demoBody with priority := 2, priority_pos := one_le_two }]

/-- The first runs to its end, and the next batch is another's. -/
def demoPassed : List Label :=
  List.replicate 7 .loop ++ [.decoded (fun _ => 1) [0]] ++
    List.replicate 6 .loop ++ [.decoded (fun _ => 1) [0]] ++
    List.replicate 7 .loop ++ [.decoded (fun _ => 1) [0]] ++ List.replicate 8 .loop

/-- The second request sees the first admitted, which is of its class, and then the third. -/
theorem fair_wait_demo : ∃ s s' new, run (step demoSingle) (start demoSingle) demoClasses = some s ∧
    run (step demoSingle) s demoPassed = some s' ∧ s'.log = s.log ++ new ∧
      s'.queue.waiting.map PendingRequest.id = [1] ∧ entered new = [0, 2] ∧
        ((entered new).length : ℤ) ≤ 5 ∧ ((batches new).length : ℤ) ≤ 18 := by
  let first := newRequest demoSingle (start demoSingle) 0 demoBody
  let second := newRequest demoSingle (start demoSingle) 1 demoBody
  let third := { newRequest demoSingle (start demoSingle) 2 demoBody with priority := 2 }
  have hqueue : (run (step demoSingle) (start demoSingle) demoClasses).map (fun s =>
      (s.queue.waiting, s.phase.awaiting, entered s.log)) =
        some ([first, second, third], true, []) := by decide +kernel
  have hpolicy : (run (step demoSingle) (start demoSingle) demoClasses).map (fun s =>
      s.activePolicy.policy) = some (.wfq .init) := rfl
  have hturns : (run (step demoSingle) (start demoSingle) (demoClasses ++ demoPassed)).map
      (fun s => (s.queue.waiting, s.accepted.values, entered s.log)) =
        some ([second], [first, second, third], [0, 2]) := by decide +kernel
  obtain ⟨s, hs, hparts⟩ := Option.map_eq_some_iff.mp hqueue
  obtain ⟨hwaiting, hparts⟩ := Prod.mk.inj hparts
  obtain ⟨hawait, hnone⟩ := Prod.mk.inj hparts
  rw [hs, Option.map_some, Option.some.injEq] at hpolicy
  rw [run_append, hs, Option.bind_some] at hturns
  obtain ⟨s', hs', hparts'⟩ := Option.map_eq_some_iff.mp hturns
  obtain ⟨hwaits, hparts'⟩ := Prod.mk.inj hparts'
  obtain ⟨haccepted, hentered⟩ := Prod.mk.inj hparts'
  have hclock : Nondecreasing demoSingle := fun tick tick' _ _ hle _ => Nat.cast_le.mpr hle
  have hbrief : ∀ r ∈ s'.accepted.values, Brief demoSingle 3 r := by
    rw [haccepted]
    unfold Brief
    decide +kernel
  have hD : ∀ r ∈ s'.accepted.values, r.priority ∈ ({1, 2} : Finset ℕ) := by
    rw [haccepted]
    decide +kernel
  obtain ⟨new, hnew, hadmitted, hbuilt⟩ := fair_wait demoSingle rfl hclock (by decide) (by decide) s
    (Reachable.init.run hs) .init hpolicy hawait second (by simp [hwaiting]) demoPassed
    (by simp [demoPassed]) s' hs' (by simp [hwaits]) {1, 2} hD 3 hbrief
  have hmost : WeightedFairQueue.init.mostBefore second.priority
      (ahead second s.queue.waiting).length {1, 2} = 5 := by
    rw [hwaiting]
    decide +kernel
  rw [hmost] at hadmitted hbuilt
  have hone : (demoSingle.nSeqMax : ℤ) = 1 := rfl
  rw [hone] at hbuilt
  rw [hnew, entered_append, hnone, List.nil_append] at hentered
  exact ⟨s, s', new, hs, hs', hnew, by rw [hwaits]; rfl, hentered, hadmitted, by omega⟩

end TinyServe.BatchLoop
