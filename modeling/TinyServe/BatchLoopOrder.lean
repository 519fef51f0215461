import TinyServe.BatchLoopHistory
import TinyServe.SchedulerOrder

set_option autoImplicit false

/-! Requests of one priority leave the waiting pool in the order they were pushed. -/
namespace TinyServe.BatchLoop
open OrderedDict Scheduler Runs

/-- A request was admitted or expired. -/
def Left (log : List Event) (id : RequestId) : Prop :=
  (∃ slot n, .admitted id slot n ∈ log) ∨ .expired id ∈ log

/-- Where the second is admitted, the first had left before. -/
def InTurn (log : List Event) (first second : PendingRequest) : Prop :=
  ∀ before slot n after, log = before ++ .admitted second.id slot n :: after → Left before first.id

/-- The pool is what is left of the accepted requests, and the chosen ones are the first of their
classes in it. -/
structure Orderly (s : State) : Prop where
  waiting : s.queue.waiting.Sublist s.accepted.values
  left : ∀ id ∈ s.accepted.keys, id ∈ s.queue.pool.keys ∨ Left s.log id
  chosen : ∀ todo, s.phase = .admitting todo → ∀ c, ofClass c todo <+: ofClass c s.queue.waiting
  inTurn : ∀ first second, [first, second].Sublist s.accepted.values →
    first.priority = second.priority → InTurn s.log first second

section Turns
variable {env : Env} {s s' : State} {events : List Event} {first second : PendingRequest}

theorem Left.append {log : List Event} {id : RequestId} (h : Left log id) (later : List Event) :
    Left (log ++ later) id := by
  rcases h with ⟨slot, n, h⟩ | h
  · exact .inl ⟨slot, n, List.mem_append_left _ h⟩
  · exact .inr (List.mem_append_left _ h)

theorem inTurn_of_none {log : List Event} (h : admissions log second.id = []) :
    InTurn log first second := by
  rintro before slot n after rfl
  have hin : (slot, n) ∈ admissions (before ++ .admitted second.id slot n :: after) second.id :=
    mem_admissions.mpr (by simp)
  rw [h] at hin
  simp at hin

theorem InTurn.append {log : List Event} (h : InTurn log first second)
    (hnew : admissions events second.id = [] ∨ Left log first.id) :
    InTurn (log ++ events) first second := by
  intro before slot n after hsplit
  have hinside : ∀ between, before = log ++ between →
      events = between ++ .admitted second.id slot n :: after → Left before first.id := by
    rintro between rfl rfl
    rcases hnew with hnone | hleft
    · have hin : (slot, n) ∈
          admissions (between ++ .admitted second.id slot n :: after) second.id :=
        mem_admissions.mpr (by simp)
      rw [hnone] at hin
      simp at hin
    · exact hleft.append between
  rcases List.append_eq_append_iff.mp hsplit with ⟨between, hb, he⟩ | ⟨between, hb, he⟩
  · exact hinside between hb he
  · cases between with
    | nil => exact hinside [] (by simpa using hb.symm) (by simpa using he.symm)
    | cons e between =>
      obtain ⟨rfl, -⟩ := List.cons.inj he
      exact h before slot n between hb

/-- Two of a list that stand in it in this order stand so in any part that has them. -/
theorem pair_sublist {α : Type} {a b : α} {part all : List α} (hn : all.Nodup)
    (hsub : part.Sublist all) (h : [a, b].Sublist all) (ha : a ∈ part) (hb : b ∈ part) :
    [a, b].Sublist part := by
  induction hsub with
  | slnil => simp at ha
  | @cons part all x hsub ih =>
    rw [List.nodup_cons] at hn
    refine ih hn.2 ?_ ha hb
    rcases List.cons_sublist_cons'.mp h with hrest | ⟨rfl, -⟩
    · exact hrest
    · exact absurd (hsub.subset ha) hn.1
  | @cons_cons part all x hsub ih =>
    rw [List.nodup_cons] at hn
    rcases List.cons_sublist_cons'.mp h with hrest | ⟨rfl, hrest⟩
    · have ha' : a ∈ part := by
        rcases List.mem_cons.mp ha with rfl | ha
        · exact absurd (hrest.subset List.mem_cons_self) hn.1
        · exact ha
      have hb' : b ∈ part := by
        rcases List.mem_cons.mp hb with rfl | hb
        · exact absurd (hrest.subset (by simp)) hn.1
        · exact hb
      exact (ih hn.2 hrest ha' hb').cons x
    · have hin := List.singleton_sublist.mp hrest
      rcases List.mem_cons.mp hb with rfl | hb
      · exact absurd hin hn.1
      · exact (List.singleton_sublist.mpr hb).cons_cons a

theorem Books.accepted_ids (hb : Books env s) :
    s.accepted.values.map PendingRequest.id = s.accepted.keys := by
  rw [Dict.values, Dict.keys, List.map_map]
  refine List.map_congr_left fun e he => ?_
  exact hb.named e.1 e.2 (Dict.mem_entries.mp he)

theorem Books.accepted_get (hb : Books env s) {request : PendingRequest}
    (h : request ∈ s.accepted.values) : s.accepted.get? request.id = some request := by
  obtain ⟨id, hid⟩ := Dict.mem_values.mp h
  rwa [hb.named id request hid]

theorem Books.accepted_nodup (hb : Books env s) : s.accepted.values.Nodup := by
  have hids := s.accepted.keys_nodup
  rw [← hb.accepted_ids] at hids
  exact hids.of_map

theorem Books.waiting_erase (hb : Books env s) (id : RequestId) :
    (s.queue.pool.erase id).values = s.queue.waiting.filter fun r => r.id ≠ id := by
  rw [RequestQueue.waiting, Dict.values, Dict.values, List.filter_map]
  refine congrArg _ (List.filter_congr fun e he => ?_)
  have hname := (hb.queued e.1 e.2 (Dict.mem_entries.mp he)).1
  rw [Function.comp_apply, hname]

theorem orderly_start (env : Env) : Orderly (start env) where
  waiting := List.nil_sublist _
  left _ h := by simp [start] at h
  chosen _ h := by simp [start] at h
  inTurn _ _ h := by simp [start] at h

/-- Steps that leave the pool and the accepted requests alone. -/
theorem Orderly.frame (h : Orderly s) (hlog : s'.log = s.log ++ events)
    (hacc : s'.accepted = s.accepted) (hq : s'.queue = s.queue)
    (hadm : ∀ id, admissions events id = [])
    (hchosen : ∀ todo, s'.phase = .admitting todo → ∀ c,
      ofClass c todo <+: ofClass c s.queue.waiting) : Orderly s' := by
  refine ⟨?_, fun id hid => ?_, ?_, fun a b hab hp => ?_⟩
  · rw [hq, hacc]
    exact h.waiting
  · rw [hacc] at hid
    rw [hq, hlog]
    exact (h.left id hid).imp_right fun hl => hl.append events
  · rw [hq]
    exact hchosen
  · rw [hacc] at hab
    rw [hlog]
    exact (h.inTurn a b hab hp).append (.inl (hadm b.id))

theorem Orderly.accepted_step (h : Orderly s) (hb : Books env s) (hacc' : Accounts env s)
    {id : RequestId} {request : PendingRequest} (hname : request.id = id) (hnew : id ∉ s.issued)
    (hlog : s'.log = s.log ++ events) (hacc : s'.accepted = s.accepted.set id request)
    (hq : s'.queue.pool = s.queue.pool.set id request) (hadm : ∀ id, admissions events id = [])
    (hphase : ∀ todo, s'.phase ≠ .admitting todo) : Orderly s' := by
  obtain ⟨hpool, hactive, haccepted, -⟩ := hb.unissued hnew
  obtain ⟨-, -, -, hnone⟩ := hacc'.quiet id hactive (.inr haccepted)
  have hvalues : s'.accepted.values = s.accepted.values ++ [request] := by
    rw [hacc]
    exact Dict.values_set_of_fresh (Dict.get?_eq_none.mpr haccepted)
  refine ⟨?_, fun j hj => ?_, fun todo ht => absurd ht (hphase todo), fun a b hab hp => ?_⟩
  · rw [hvalues, RequestQueue.waiting, hq, Dict.values_set_of_fresh (Dict.get?_eq_none.mpr hpool)]
    exact h.waiting.append_right _
  · rw [hacc, Dict.mem_keys_set] at hj
    rw [hq, hlog, Dict.mem_keys_set]
    rcases hj with rfl | hj
    · exact .inl (.inl rfl)
    · exact (h.left j hj).imp .inr fun hl => hl.append events
  · rw [hvalues] at hab
    rw [hlog]
    obtain ⟨old, new, hsplit, hold, hlast⟩ := List.sublist_append_iff.mp hab
    rcases List.sublist_singleton.mp hlast with rfl | rfl
    · rw [List.append_nil] at hsplit
      exact (h.inTurn a b (hsplit ▸ hold) hp).append (.inl (hadm b.id))
    · have hb' : b = request := by
        have hlast' := congrArg List.getLast? hsplit
        simpa using hlast'
      apply inTurn_of_none
      rw [admissions, view_append, hb', hname]
      exact (congrArg₂ (· ++ ·) hnone (hadm id)).trans (List.append_nil _)

theorem Orderly.expired_step (h : Orderly s) (hb : Books env s) {request : PendingRequest}
    (hlog : s'.log = s.log ++ events) (hacc : s'.accepted = s.accepted)
    (hq : s'.queue.pool = s.queue.pool.erase request.id)
    (hexp : .expired request.id ∈ events) (hadm : ∀ id, admissions events id = [])
    (hphase : ∀ todo, s'.phase ≠ .admitting todo) : Orderly s' := by
  refine ⟨?_, fun j hj => ?_, fun todo ht => absurd ht (hphase todo), fun a b hab hp => ?_⟩
  · rw [hacc, RequestQueue.waiting, hq, hb.waiting_erase]
    exact List.filter_sublist.trans h.waiting
  · rw [hacc] at hj
    rw [hq, hlog, Dict.mem_keys_erase]
    by_cases hji : j = request.id
    · exact .inr (.inr (List.mem_append_right _ (hji ▸ hexp)))
    · exact (h.left j hj).imp (fun hin => ⟨hji, hin⟩) fun hl => hl.append events
  · rw [hacc] at hab
    rw [hlog]
    exact (h.inTurn a b hab hp).append (.inl (hadm b.id))

/-- Nobody of the same class stands before the head of the chosen. -/
theorem Orderly.head_first (h : Orderly s) (hb : Books env s) {request : PendingRequest}
    {todo : List PendingRequest} (hp : s.phase = .admitting (request :: todo))
    (hpair : [first, request].Sublist s.accepted.values)
    (hprio : first.priority = request.priority) (hin : request ∈ s.queue.waiting) :
    first ∉ s.queue.waiting := by
  intro hfirst
  have hpool := pair_sublist hb.accepted_nodup h.waiting hpair hfirst hin
  have hclass := hpool.filter fun r => r.priority = request.priority
  obtain ⟨rest, hrest⟩ := h.chosen _ hp request.priority
  rw [ofClass_cons, if_pos rfl, List.cons_append] at hrest
  have hn : (ofClass request.priority s.queue.waiting).Nodup :=
    (hb.accepted_nodup.sublist h.waiting).filter _
  rw [← hrest, List.nodup_cons] at hn
  have hpair' : [first, request].Sublist (ofClass request.priority s.queue.waiting) := by
    simpa [ofClass, hprio] using hclass
  rw [← hrest] at hpair'
  rcases List.cons_sublist_cons'.mp hpair' with hlater | ⟨-, hlater⟩
  · exact hn.1 (hlater.subset (by simp))
  · exact hn.1 (List.singleton_sublist.mp hlater)

theorem Orderly.admitted_step (h : Orderly s) (hb : Books env s) (hs : Standing env s)
    {request : PendingRequest}
    {todo : List PendingRequest} {seqId : SeqId} (hp : s.phase = .admitting (request :: todo))
    (hpool : s.queue.pool.get? request.id = some request) :
    Orderly (admittedState env s request seqId (.admitting todo)) := by
  have hin : request ∈ s.queue.waiting := Dict.mem_values.mpr ⟨_, hpool⟩
  let events := lookups s request seqId ++
    [.admitted request.id seqId (claimPrefix s request seqId).1] ++
    spanClosing s.tracer request.id .queueWait ++ [.spanStarted request.id .generation]
  have hlog : (admittedState env s request seqId (.admitting todo)).log = s.log ++ events := rfl
  have hadm : ∀ j, j ≠ request.id → admissions events j = [] := by
    intro j hj
    simp [events, asAdmitted, Ne.symm hj]
  refine ⟨?_, fun j hj => ?_, fun todo' ht c => ?_, fun a b hab hprio => ?_⟩
  · show (s.queue.pool.erase request.id).values.Sublist s.accepted.values
    rw [hb.waiting_erase]
    exact List.filter_sublist.trans h.waiting
  · rw [hlog]
    show j ∈ (s.queue.pool.erase request.id).keys ∨ _
    rw [Dict.mem_keys_erase]
    by_cases hji : j = request.id
    · exact .inr (.inl ⟨seqId, (claimPrefix s request seqId).1, by simp [events, hji]⟩)
    · exact (h.left j hj).imp (fun hm => ⟨hji, hm⟩) fun hl => hl.append events
  · obtain rfl := Phase.admitting.inj ht
    show ofClass c todo <+: ofClass c (s.queue.pool.erase request.id).values
    have hrest : (request :: todo).filter (fun r => r.id ≠ request.id) = todo := by
      have hids := (hs.admitting hp).1
      rw [List.map_cons, List.nodup_cons] at hids
      rw [List.filter_cons_of_neg (by simp), List.filter_eq_self]
      intro r hr
      have hne : r.id ≠ request.id := fun he => hids.1 (he ▸ List.mem_map_of_mem hr)
      simpa using hne
    have hprefix := (h.chosen _ hp c).filter fun r => r.id ≠ request.id
    rw [← ofClass_filter, ← ofClass_filter, hrest] at hprefix
    rwa [hb.waiting_erase]
  · rw [hlog]
    refine (h.inTurn a b hab hprio).append ?_
    by_cases hbi : b.id = request.id
    · right
      obtain ⟨ha, hb'⟩ : a ∈ s.accepted.values ∧ b ∈ s.accepted.values :=
        ⟨hab.subset (by simp), hab.subset (by simp)⟩
      have hbr : b = request := by
        have hget := hb.accepted_get hb'
        rw [hbi, (hb.queued _ request hpool).2] at hget
        exact (Option.some.inj hget).symm
      have hget := hb.accepted_get ha
      rcases h.left a.id (Dict.mem_keys.mpr ⟨a, hget⟩) with hwaits | hleft
      · obtain ⟨a', ha'⟩ := Dict.mem_keys.mp hwaits
        obtain rfl := Option.some.inj (hget.symm.trans (hb.queued _ a' ha').2)
        subst hbr
        exact absurd (Dict.mem_values.mpr ⟨_, ha'⟩) (h.head_first hb hp hab hprio hin)
      · exact hleft
    · exact .inl (hadm b.id hbi)

theorem ByArrival.before (hb : Books env s) {l : Label} (ht : Transition env s l s')
    (h : ByArrival s'.accepted.values) : ByArrival s.accepted.values := by
  cases ht with
  | @accepted id body kvCache hw hnew hroom hres =>
    have hvalues : (s.accepted.set id (newRequest env s id body)).values =
        s.accepted.values ++ [newRequest env s id body] :=
      Dict.values_set_of_fresh (Dict.get?_eq_none.mpr (hb.unissued hnew).2.2.1)
    have h' : ByArrival (s.accepted.set id (newRequest env s id body)).values := h
    rw [hvalues] at h'
    exact h'.sublist (List.sublist_append_left _ _)
  | _ => exact h

theorem Orderly.transition (h : Orderly s) (hb : Books env s) (hs : Standing env s)
    (hacc : Accounts env s) (harrival : ByArrival s.accepted.values) {l : Label}
    (ht : Transition env s l s') : Orderly s' := by
  have hawait : ∀ todo, s.phase.awaiting = true → s.phase ≠ .admitting todo := by
    intro todo hw hp
    simp [hp, Phase.awaiting] at hw
  have hidle : ∀ todo, s.phase = .admitting todo → ∀ c, ofClass c todo <+: ofClass c s.queue.waiting :=
    h.chosen
  cases ht with
  | rejected hw hnew =>
    exact h.frame rfl rfl rfl (fun id => by simp [asAdmitted]) hidle
  | accepted hw hnew hroom hres =>
    exact h.accepted_step hb hacc rfl hnew rfl rfl rfl (fun id => by simp [asAdmitted])
      fun todo => hawait todo hw
  | setPolicy hw | cancel hw =>
    exact h.frame (List.append_nil _).symm rfl rfl (fun _ => rfl) hidle
  | receive hw hr =>
    refine h.frame rfl rfl rfl (fun id => ?_) hidle
    split_ifs <;> simp [asAdmitted]
  | leave hw hl => exact h.frame rfl rfl rfl (fun id => by simp [asAdmitted]) hidle
  | expire hp hstale hpool =>
    exact h.expired_step hb rfl rfl rfl (by simp) (fun id => by simp [asAdmitted])
      fun todo ht => by simp [expiredState] at ht
  | full hp hf =>
    refine h.frame (List.append_nil _).symm rfl rfl (fun _ => rfl) fun todo ht c => ?_
    obtain rfl := Phase.admitting.inj ht
    exact List.nil_prefix
  | select hp hf hsel =>
    refine h.frame (List.append_nil _).symm rfl rfl (fun _ => rfl) fun todo ht c => ?_
    obtain rfl := Phase.admitting.inj ht
    exact select_ofClass hsel (harrival.sublist h.waiting) c
  | admitted hp hpool hslot => exact h.admitted_step hb hs hp hpool
  | buildNothing hp hnil =>
    exact h.frame rfl rfl rfl (fun id => by simp [asAdmitted]) fun todo ht => by simp at ht
  | build hp hprep hne =>
    exact h.frame rfl rfl rfl (fun id => by simp [asAdmitted]) fun todo ht => by simp at ht
  | decoded hp hkeys hactive =>
    exact h.frame rfl rfl rfl (fun id => by simp [asAdmitted]) fun todo ht => by simp at ht
  | finishSampled hp hid hseq hstate hwhy htime =>
    exact h.frame rfl rfl rfl (fun id => by simp [asAdmitted]) fun todo ht => by
      simp [finishedState] at ht
  | dieSampled hp hid hseq hstate hwhy htime =>
    exact h.frame rfl rfl rfl (fun id => by simp [asAdmitted]) fun todo ht => by
      simp [diedState] at ht
  | push hp hid hseq hstate hgo =>
    exact h.frame rfl rfl rfl (fun id => by simp [asAdmitted]) fun todo ht => by
      simp [pushedState] at ht
  | finishFailed hp hseq hstate htime =>
    exact h.frame rfl rfl rfl (fun id => by simp [asAdmitted]) fun todo ht => by
      simp [finishedState] at ht
  | dieFailed hp hseq hstate htime =>
    exact h.frame rfl rfl rfl (fun id => by simp [asAdmitted]) fun todo ht => by
      simp [diedState] at ht
  | _ =>
    exact h.frame (List.append_nil _).symm rfl rfl (fun _ => rfl) fun todo ht => by simp at ht

/-- While nobody arrives before somebody accepted earlier, the pool is orderly. -/
theorem reachable_orderly {allowed : State → Label → Prop}
    (h : Reachable (step env) allowed (start env) s) :
    ByArrival s.accepted.values → Orderly s := by
  refine h.invariant (I := fun s => ByArrival s.accepted.values → Orderly s)
    (fun _ => orderly_start env) fun s l s' hr hi _ hstep harrival => ?_
  have ht := reachable_transition hr hstep
  have hb := (reachable_books hr).1
  have hbefore := ByArrival.before hb ht harrival
  exact (hi hbefore).transition hb (reachable_books hr).2 (reachable_accounts hr) hbefore ht

end Turns

/-- Of two requests of one priority the one accepted later is admitted only after the other was
admitted or expired, whatever policies were in force. -/
theorem same_priority_in_order (env : Env) (s : State)
    (h : Reachable (step env) anything (start env) s) (harrival : ByArrival s.accepted.values)
    (first second : PendingRequest) (hpush : [first, second].Sublist s.accepted.values)
    (hprio : first.priority = second.priority) (before after : List Event) (slot : SeqId) (n : ℕ)
    (hlog : s.log = before ++ .admitted second.id slot n :: after) :
    (∃ slot n, .admitted first.id slot n ∈ before) ∨ .expired first.id ∈ before :=
  (reachable_orderly h harrival).inTurn first second hpush hprio before slot n after hlog

theorem same_priority_in_order_demo : ∃ s, run (step demo) (start demo) demoArrivals = some s ∧
    ∃ before slot n after, s.log = before ++ .admitted 1 slot n :: after ∧
      ((∃ slot n, .admitted 0 slot n ∈ before) ∨ .expired 0 ∈ before) := by
  obtain ⟨s, hs⟩ := Option.isSome_iff_exists.mp
    (by decide +kernel : (run (step demo) (start demo) demoArrivals).isSome)
  have hfinal : (run (step demo) (start demo) demoArrivals).map
      (fun s => (s.accepted.values, decide (.admitted 1 0 0 ∈ s.log))) =
      some ([⟨0, [1, 1, 1], 2, 1, 0⟩, ⟨1, [1, 1, 1], 2, 1, 0⟩], true) := by decide +kernel
  rw [hs, Option.map_some, Option.some.injEq, Prod.mk.injEq] at hfinal
  obtain ⟨haccepted, hin⟩ := hfinal
  obtain ⟨before, after, hlog⟩ := List.append_of_mem (of_decide_eq_true hin)
  refine ⟨s, hs, before, 0, 0, after, hlog, ?_⟩
  exact same_priority_in_order demo s (Reachable.init.run hs) (by rw [haccepted]; simp [ByArrival])
    ⟨0, [1, 1, 1], 2, 1, 0⟩ ⟨1, [1, 1, 1], 2, 1, 0⟩ (by rw [haccepted]) rfl before after 0 0 hlog

end TinyServe.BatchLoop
