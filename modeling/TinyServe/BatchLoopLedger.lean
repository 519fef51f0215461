import TinyServe.BatchLoopMetrics
import TinyServe.BatchSchedules

set_option autoImplicit false

/-! The counters and histograms balance: every request and every token is on record once. -/
namespace TinyServe.BatchLoop
open OrderedDict BatchBuilder LlamaRuntime Observability Instruments Runs

section Rows

theorem sum_indicator {α : Type} (p : α → Prop) [DecidablePred p] (xs : List α) :
    (xs.map fun x => if p x then 1 else 0).sum = xs.countP p := by
  induction xs with
  | nil => rfl
  | cons x xs ih => simp [List.countP_cons, ih, Nat.add_comm]

/-- Rows that all belong to distinct sequences are recorded sequence by sequence. -/
theorem rowCount_sum {prepared : PreparedBatch} {active : List ActiveSequence}
    (hn : (active.map ActiveSequence.seqId).Nodup)
    (hin : ∀ row ∈ prepared.rows, ∃ seq ∈ active, row.seqId = seq.seqId) :
    (active.map fun seq => prepared.rowCount seq.seqId).sum = prepared.rows.length := by
  obtain ⟨rows⟩ := prepared
  induction rows with
  | nil => simp [PreparedBatch.rowCount]
  | cons row rows ih =>
    have hrest := ih fun r hr => hin r (List.mem_cons_of_mem _ hr)
    have hone : (active.map fun seq => if row.seqId = seq.seqId then 1 else 0).sum = 1 := by
      obtain ⟨seq, hseq, hid⟩ := hin row List.mem_cons_self
      have hcount := List.count_eq_one_of_mem hn (List.mem_map_of_mem hseq)
      rw [← hid, List.count, List.countP_map] at hcount
      rw [sum_indicator, ← hcount]
      refine List.countP_congr fun seq _ => ?_
      rw [decide_eq_true_eq, Function.comp_apply, beq_iff_eq]
      exact eq_comm
    have hsplit : ∀ seq : ActiveSequence, (⟨row :: rows⟩ : PreparedBatch).rowCount seq.seqId =
        (⟨rows⟩ : PreparedBatch).rowCount seq.seqId + if row.seqId = seq.seqId then 1 else 0 := by
      intro seq
      simp [PreparedBatch.rowCount, List.countP_cons]
    rw [List.map_congr_left fun seq _ => hsplit seq, List.sum_map_add, hrest, hone]
    rfl

end Rows

section Requests
variable {env : Env} {s s' : State} {m m' : Metrics}

/-- Every request that ever came waits, runs, or has left in one way. -/
structure Placed (s : State) : Prop where
  nodup : s.issued.Nodup
  perm : s.issued.Perm (s.queue.pool.keys ++ s.active.keys ++ (fates s.log).map Prod.fst)

theorem placed_start (env : Env) : Placed (start env) := ⟨List.nodup_nil, .nil⟩

theorem fates_told {told : List Event} (h : recorded s'.log = recorded s.log ++ told) :
    (fates s'.log).map Prod.fst = (fates s.log).map Prod.fst ++ (fates told).map Prod.fst := by
  rw [fates, view_told asFate_recorded h, List.map_append]

theorem Placed.frame (h : Placed s) {told : List Event} (arrived : List RequestId)
    (hi : s'.issued = arrived ++ s.issued) (hnodup : s'.issued.Nodup)
    (hheard : recorded s'.log = recorded s.log ++ told)
    (hkeys : (arrived ++ s.queue.pool.keys ++ s.active.keys).Perm
      (s'.queue.pool.keys ++ s'.active.keys ++ (fates told).map Prod.fst)) : Placed s' := by
  refine ⟨hnodup, List.perm_iff_count.mpr fun id => ?_⟩
  have hold := List.perm_iff_count.mp h.perm id
  have hmoved := List.perm_iff_count.mp hkeys id
  rw [hi, fates_told hheard]
  simp only [List.count_append] at hold hmoved ⊢
  omega

theorem Placed.noted (h : Placed s) (hb : Books env s) (hn : Noted env s m s' m') : Placed s' := by
  cases hn with
  | quiet hu hi | tick hu hi =>
    refine h.frame [] hi (hi ▸ h.nodup) hu.heard ?_
    rw [hu.queue, hu.active]
    simp
  | rejected id reason hnew hu hi =>
    refine h.frame [id] hi (hi ▸ List.nodup_cons.mpr ⟨hnew, h.nodup⟩) hu.heard ?_
    rw [hu.queue, hu.active]
    refine List.perm_iff_count.mpr fun j => ?_
    simp [asFate, List.count_cons]
    omega
  | @accepted s' request hnew hfresh hu hi =>
    refine h.frame [request.id] hi (hi ▸ List.nodup_cons.mpr ⟨hnew, h.nodup⟩) hu.heard ?_
    have hkeys : s'.queue.pool.keys = s.queue.pool.keys ++ [request.id] := by
      rw [hu.queue]
      exact Dict.keys_set_of_fresh hfresh
    rw [hkeys, hu.active, List.append_assoc, List.append_assoc]
    simpa using List.perm_middle.symm
  | @expired s' request hpool hu hi =>
    refine h.frame [] hi (hi ▸ h.nodup) hu.heard ?_
    have hkeys := Dict.keys_perm_erase (Dict.mem_keys.mpr ⟨request, hpool⟩)
    rw [hu.queue, hu.active]
    refine List.perm_iff_count.mpr fun id => ?_
    have hcount := List.perm_iff_count.mp hkeys id
    simp [asFate, List.count_cons] at hcount ⊢
    omega
  | @admitted request seqId phase hpool hreused hlive =>
    have hin := Dict.mem_keys.mpr ⟨request, hpool⟩
    refine h.frame [] rfl h.nodup (recorded_admitted request seqId phase) ?_
    have hkeys := Dict.keys_perm_erase hin
    have hactive : (admittedState env s request seqId phase).active.keys =
        s.active.keys ++ [request.id] := Dict.keys_set_of_fresh (hb.apart _ hin)
    have hqueue : (admittedState env s request seqId phase).queue.pool.keys =
        (s.queue.pool.erase request.id).keys := rfl
    rw [hactive, hqueue]
    refine List.perm_iff_count.mpr fun id => ?_
    have hcount := List.perm_iff_count.mp hkeys id
    simp [asFate, List.count_cons] at hcount ⊢
    omega
  | @decoded s' prepared hp hprep hkeys hactive hu hi =>
    refine h.frame [] hi (hi ▸ h.nodup) hu.heard ?_
    rw [hu.queue, hkeys]
    simp
  | @ended s' id seq state why hseq hstate hdrained hq ha hr hc hrecorded hdead hlive hi =>
    refine h.frame [] hi (hi ▸ h.nodup) hrecorded ?_
    have hkeys := Dict.keys_perm_erase (Dict.mem_keys.mpr ⟨seq, hseq⟩)
    rw [hq, ha]
    refine List.perm_iff_count.mpr fun j => ?_
    have hcount := List.perm_iff_count.mp hkeys j
    simp [asFate_finished, List.count_cons] at hcount ⊢
    omega
  | @pushed id seq state now token phase hseq hstate hnil hp =>
    refine h.frame [] rfl h.nodup (recorded_pushed id seq state now token phase) ?_
    have hkeys : (pushedState env s id seq state now token phase).active.keys = s.active.keys :=
      Dict.keys_set_of_mem (Dict.mem_keys.mpr ⟨seq, hseq⟩)
    rw [hkeys]
    simp [asFate, pushedState]

/-- Each label of a counter stands at the number of events that it is for. -/
structure Labelled (s : State) (m : Metrics) : Prop where
  rejected : ∀ reason, m.admissionRejectedTotal.value reason = tally s.log (.rejected reason)
  cancelled : ∀ reason, m.cancellationsTotal.value reason = tally s.log (.cancelled reason)
  looked : ∀ outcome, m.prefixCacheLookupsTotal.value outcome =
    (lookupsDone s.log).count outcome
  decisions : m.schedulerPolicyDecisionTotal.total = (sparings s.log).length

theorem labelled_start (env : Env) : Labelled (start env) .init :=
  ⟨fun _ => rfl, fun _ => rfl, fun _ => rfl, rfl⟩

theorem Labelled.told (h : Labelled s m) {told : List Event}
    (hheard : recorded s'.log = recorded s.log ++ told)
    (hrejected : ∀ reason, m'.admissionRejectedTotal.value reason =
      m.admissionRejectedTotal.value reason + tally told (.rejected reason))
    (hcancelled : ∀ reason, m'.cancellationsTotal.value reason =
      m.cancellationsTotal.value reason + tally told (.cancelled reason))
    (hlookups : ∀ outcome, m'.prefixCacheLookupsTotal.value outcome =
      m.prefixCacheLookupsTotal.value outcome + (lookupsDone told).count outcome)
    (hdecisions : m'.schedulerPolicyDecisionTotal.total =
      m.schedulerPolicyDecisionTotal.total + (sparings told).length) : Labelled s' m' := by
  refine ⟨fun reason => ?_, fun reason => ?_, fun outcome => ?_, ?_⟩
  · rw [hrejected, h.rejected, tally_told hheard]
  · rw [hcancelled, h.cancelled, tally_told hheard]
  · rw [hlookups, h.looked, ← List.count_append]
    exact congrArg _ (view_told asLookup_recorded hheard).symm
  · rw [hdecisions, h.decisions, ← List.length_append]
    exact congrArg _ (view_told asSpared_recorded hheard).symm

/-- A step that no label of a counter moves for. -/
theorem Labelled.untold (h : Labelled s m) {told : List Event}
    (hheard : recorded s'.log = recorded s.log ++ told)
    (hnone : fates told = [] ∧ lookupsDone told = [] ∧ sparings told = [])
    (hr : m'.admissionRejectedTotal = m.admissionRejectedTotal)
    (hc : m'.cancellationsTotal = m.cancellationsTotal)
    (hl : m'.prefixCacheLookupsTotal = m.prefixCacheLookupsTotal)
    (hd : m'.schedulerPolicyDecisionTotal = m.schedulerPolicyDecisionTotal) : Labelled s' m' := by
  obtain ⟨hfates, hlookups, hsparings⟩ := hnone
  refine h.told hheard (fun reason => ?_) (fun reason => ?_) (fun outcome => ?_) ?_
  · rw [hr, tally, hfates]
    rfl
  · rw [hc, tally, hfates]
    rfl
  · rw [hl, hlookups]
    rfl
  · rw [hd, hsparings]
    rfl

theorem Labelled.noted (h : Labelled s m) (hn : Noted env s m s' m') : Labelled s' m' := by
  cases hn with
  | quiet hu hi | tick hu hi | accepted hnew hfresh hu hi | decoded hp hprep hkeys hactive hu hi =>
    exact h.untold hu.heard ⟨rfl, rfl, rfl⟩ rfl rfl rfl rfl
  | rejected id reason hnew hu hi =>
    refine h.told hu.heard (fun other => ?_) (fun _ => by simp [tally, asFate]) (fun _ => rfl) rfl
    simp [tally, asFate, List.count_singleton]
  | expired hpool hu hi =>
    refine h.told hu.heard (fun _ => by simp [tally, asFate]) (fun other => ?_) (fun _ => rfl) rfl
    simp [tally, asFate, List.count_singleton]
  | @admitted request seqId phase hpool hreused hlive =>
    have hnone : ∀ fate, tally (lookups s request seqId ++
        [.admitted request.id seqId (claimPrefix s request seqId).1]) fate = 0 := by
      intro fate
      simp [tally, asFate]
    refine h.told (recorded_admitted request seqId phase) (fun _ => by rw [hnone]; rfl)
      (fun _ => by rw [hnone]; rfl) (fun other => ?_) ?_
    · cases hout : outcome s request seqId with
      | none => simp [admittedMetrics, hout, lookupsDone_lookups, asLookup]
      | some label =>
        simp [admittedMetrics, hout, lookupsDone_lookups, asLookup, List.count_singleton]
    · simp [admittedMetrics, asSpared]
  | @ended s' id seq state why hseq hstate hdrained hq ha hr hc hrecorded hdead hlive hi =>
    refine h.told hrecorded (fun _ => ?_) (fun other => ?_) (fun _ => rfl) rfl
    · cases why <;> simp [endedMetrics, tally, asFate_finished, CancelReason.fate]
    · cases why with
      | none => simp [endedMetrics, tally, asFate_finished, CancelReason.fate]
      | some reason =>
        simp [endedMetrics, tally, asFate_finished, CancelReason.fate, List.count_singleton]
  | @pushed id seq state now token phase hseq hstate hnil hp =>
    exact h.untold (recorded_pushed id seq state now token phase) ⟨rfl, rfl, rfl⟩ rfl rfl rfl rfl

/-- How many active requests have been pushed a token. -/
def speaking (s : State) : ℕ := s.requests.values.countP fun state => 0 < state.tokensEmitted

/-- The counters add up to the requests that came and went, and the histograms have one observation
for each that there was something to observe of. -/
structure Balanced (s : State) (m : Metrics) : Prop where
  received : m.admissionAcceptedTotal + m.admissionRejectedTotal.total = s.issued.length
  ended : m.admissionAcceptedTotal = s.queue.depth + s.active.size + m.cancellationsTotal.total +
    tally s.log .completed
  admitted : m.admissionAcceptedTotal = s.queue.depth +
    m.cancellationsTotal.value .queueTimeout + m.schedulerPolicyDecisionTotal.total
  waited : m.queueWaitSeconds.count = m.schedulerPolicyDecisionTotal.total
  lookedUp : m.prefixCacheLookupsTotal.total =
    if s.prefixCache = none then 0 else m.schedulerPolicyDecisionTotal.total
  throughput : s.phase = .dead .zeroDivisionError ∨
    m.ttftSeconds.count = m.tokensPerSecond.count + speaking s

theorem balanced_start (env : Env) : Balanced (start env) .init := by
  refine ⟨rfl, rfl, rfl, rfl, ?_, .inr rfl⟩
  split_ifs <;> rfl

theorem speaking_erase {id : RequestId} {state : RequestState}
    (hstate : s.requests.get? id = some state) (hr : s'.requests = s.requests.erase id) :
    speaking s = speaking s' + if 0 < state.tokensEmitted then 1 else 0 := by
  rw [speaking, speaking, hr, (Dict.values_perm_erase hstate).countP_eq, List.countP_cons]
  simp

theorem speaking_set {id : RequestId} {state state' : RequestState}
    (hstate : s.requests.get? id = some state) (hr : s'.requests = s.requests.set id state') :
    speaking s' + (if 0 < state.tokensEmitted then 1 else 0) =
      speaking s + if 0 < state'.tokensEmitted then 1 else 0 := by
  rw [speaking, speaking, hr, Dict.values_perm_set.countP_eq,
    (Dict.values_perm_erase hstate).countP_eq, List.countP_cons, List.countP_cons]
  simp only [decide_eq_true_eq]
  omega

theorem Balanced.unmoved (h : Balanced s m) (hu : Unmoved s s' [])
    (hi : s'.issued = s.issued) : Balanced s' m := by
  obtain ⟨h1, h2, h3, h4, h5, h6⟩ := h
  refine ⟨by rw [hi, h1], ?_, by rw [hu.queue, h3], h4, by rw [hu.prefixCache, h5], ?_⟩
  · rw [hu.queue, hu.active, tally_told hu.heard, h2]
    rfl
  · rw [speaking, hu.requests]
    exact h6.imp_left hu.dead

theorem Balanced.noted (h : Balanced s m) (hb : Books env s)
    (hn : Noted env s m s' m') : Balanced s' m' := by
  cases hn with
  | quiet hu hi => exact h.unmoved hu hi
  | tick hu hi =>
    obtain ⟨h1, h2, h3, h4, h5, h6⟩ := h.unmoved hu hi
    exact ⟨h1, h2, h3, h4, h5, h6⟩
  | rejected id reason hnew hu hi =>
    obtain ⟨h1, h2, h3, h4, h5, h6⟩ := h
    refine ⟨?_, ?_, ?_, h4, by rw [hu.prefixCache, ← h5], ?_⟩
    · rw [hi, List.length_cons, ← h1, Counter.total_inc, Nat.add_assoc]
    · rw [hu.queue, hu.active, tally_told hu.heard, h2]
      rfl
    · rw [hu.queue, ← h3]
    · rw [speaking, hu.requests]
      exact h6.imp_left hu.dead
  | @accepted s' request hnew hfresh hu hi =>
    obtain ⟨h1, h2, h3, h4, h5, h6⟩ := h
    have hdepth : s'.queue.depth = s.queue.depth + 1 := by
      rw [hu.queue]
      exact Dict.size_set_of_fresh hfresh
    have hcompleted := tally_told hu.heard .completed
    refine ⟨?_, ?_, ?_, h4, by rw [hu.prefixCache, ← h5], ?_⟩
    · rw [hi, List.length_cons, ← h1]
      simp only
      omega
    · rw [hu.active, hcompleted, hdepth]
      simp only [tally, view_nil, List.map_nil, List.count_nil] at h2 ⊢
      omega
    · rw [hdepth]
      simp only
      omega
    · rw [speaking, hu.requests]
      exact h6.imp_left hu.dead
  | @expired s' request hpool hu hi =>
    obtain ⟨h1, h2, h3, h4, h5, h6⟩ := h
    have hdepth : s'.queue.depth + 1 = s.queue.depth := by
      rw [hu.queue]
      exact (Dict.size_erase hpool).symm
    have hcompleted : tally s'.log .completed = tally s.log .completed := tally_told hu.heard _
    refine ⟨by rw [hi, ← h1], ?_, ?_, h4, by rw [hu.prefixCache, ← h5], ?_⟩
    · rw [hu.active, hcompleted]
      simp only [Counter.total_inc]
      omega
    · simp only [Counter.value_inc, if_true]
      omega
    · rw [speaking, hu.requests]
      exact h6.imp_left hu.dead
  | @admitted request seqId phase hpool hreused hlive =>
    obtain ⟨h1, h2, h3, h4, h5, h6⟩ := h
    have hfresh := hb.apart _ (Dict.mem_keys.mpr ⟨request, hpool⟩)
    have hstate : request.id ∉ s.requests.keys := fun hm => hfresh ((hb.keys_agree _).mp hm)
    have hdepth : (admittedState env s request seqId phase).queue.depth + 1 = s.queue.depth :=
      (Dict.size_erase hpool).symm
    have hsize : (admittedState env s request seqId phase).active.size = s.active.size + 1 :=
      Dict.size_set_of_fresh hfresh
    have hcompleted : tally (admittedState env s request seqId phase).log .completed =
        tally s.log .completed := by
      rw [tally_told (recorded_admitted request seqId phase)]
      simp [tally, asFate]
    refine ⟨h1, ?_, ?_, ?_, ?_, ?_⟩
    · rw [hsize, hcompleted]
      simp only [admittedMetrics]
      omega
    · simp only [admittedMetrics, Counter.total_inc]
      omega
    · simp only [admittedMetrics, Counter.total_inc, Histogram.count_observe, h4]
    · cases hc : s.prefixCache with
      | none =>
        have hcache : (admittedState env s request seqId phase).prefixCache = none := by
          simp only [admittedState, claimPrefix_none hc, hc]
        rw [hc, if_pos rfl] at h5
        rw [hcache, if_pos rfl, ← h5]
        simp [admittedMetrics, outcome, hc]
      | some c =>
        have hcache : (admittedState env s request seqId phase).prefixCache ≠ none := by
          simp [admittedState, claimPrefix_cache hc]
        rw [hc, if_neg (by simp)] at h5
        rw [if_neg hcache]
        simp [admittedMetrics, outcome, hc, h5]
    · refine .inr ((h6.resolve_left hlive).trans ?_)
      have hvalues : (admittedState env s request seqId phase).requests.values =
          s.requests.values ++ [_] := Dict.values_set_of_fresh (Dict.get?_eq_none.mpr hstate)
      rw [speaking, speaking, hvalues, List.countP_append]
      simp [admittedMetrics]
  | @decoded s' prepared hp hprep hkeys hactive hu hi =>
    obtain ⟨h1, h2, h3, h4, h5, h6⟩ := h
    have hsize : s'.active.size = s.active.size := by
      rw [Dict.size_eq_keys, Dict.size_eq_keys, hkeys]
    refine ⟨by rw [hi, ← h1]; rfl, ?_, ?_, h4, by rw [hu.prefixCache]; exact h5, ?_⟩
    · rw [hu.queue, hsize, tally_told hu.heard]
      exact h2
    · rw [hu.queue]
      exact h3
    · rw [speaking, hu.requests]
      exact h6.imp_left hu.dead
  | @ended s' id seq state why hseq hstate hdrained hq ha hr hc hrecorded hdead hlive hi =>
    obtain ⟨h1, h2, h3, h4, h5, h6⟩ := h
    have hsize : s'.active.size + 1 = s.active.size := by
      rw [ha]
      exact (Dict.size_erase hseq).symm
    have hspeaking := speaking_erase hstate hr
    have hcache : s'.prefixCache = none ↔ s.prefixCache = none := by rw [hc, Option.map_eq_none_iff]
    refine ⟨by rw [hi, ← h1]; rfl, ?_, ?_, h4, by simp only [hcache]; exact h5, ?_⟩
    · rw [hq, tally_told hrecorded]
      cases why with
      | none =>
        have hone : tally [.finished id none] .completed = 1 := rfl
        simp only [endedMetrics, Option.elim_none, hone]
        omega
      | some reason =>
        have hnone : tally [.finished id (some reason)] .completed = 0 := by
          simp [tally, asFate_finished, CancelReason.fate]
        simp only [endedMetrics, Option.elim_some, Counter.total_inc, hnone]
        omega
    · rw [hq]
      cases why with
      | none => exact h3
      | some reason =>
        have hother : reason.label ≠ .queueTimeout := by cases reason <;> simp [CancelReason.label]
        simp only [endedMetrics, Option.elim_some, Counter.value_inc, if_neg hother]
        exact h3
    · by_cases ht : NoTime env s state
      · exact .inl (hdead ht)
      · refine .inr ((h6.resolve_left hlive).trans ?_)
        rw [NoTime, not_and] at ht
        rw [hspeaking]
        by_cases hpos : 0 < state.tokensEmitted
        · simp only [endedMetrics, hpos, ht hpos, ne_eq, not_false_eq_true, and_self, if_true,
            Histogram.count_observe]
          omega
        · simp only [endedMetrics, hpos, false_and, if_false]
          omega
  | @pushed id seq state now token phase hseq hstate hnil hp =>
    obtain ⟨h1, h2, h3, h4, h5, h6⟩ := h
    obtain ⟨idOf, seqId, todo, hp⟩ := hp
    have hsize : (pushedState env s id seq state now token phase).active.size = s.active.size :=
      Dict.size_set_of_mem (Dict.mem_keys.mpr ⟨seq, hseq⟩)
    have hcompleted : tally (pushedState env s id seq state now token phase).log .completed =
        tally s.log .completed := tally_told (recorded_pushed id seq state now token phase) _
    have hspeaking := @speaking_set s (pushedState env s id seq state now token phase) id state
      _ hstate rfl
    refine ⟨h1, ?_, h3, h4, h5, .inr ?_⟩
    · rw [hsize, hcompleted]
      exact h2
    · rw [if_pos (Nat.succ_pos _)] at hspeaking
      have hcount := h6.resolve_left (by simp [hp])
      by_cases hzero : state.tokensEmitted = 0
      · rw [hzero, if_neg (lt_irrefl 0)] at hspeaking
        simp only [pushedMetrics, if_pos hzero, Histogram.count_observe]
        omega
      · rw [if_pos (Nat.pos_of_ne_zero hzero)] at hspeaking
        simp only [pushedMetrics, if_neg hzero]
        omega

theorem mem_deliveries {log : List Event} {id : RequestId} :
    id ∈ deliveries log ↔ pushed log id ≠ [] := by
  rw [deliveries, mem_view]
  constructor
  · rintro ⟨e, he, hid⟩
    cases e <;> simp [asDelivered] at hid
    subst hid
    exact List.ne_nil_of_mem (mem_view.mpr ⟨_, he, if_pos rfl⟩)
  · intro hne
    obtain ⟨token, htoken⟩ := List.exists_mem_of_ne_nil _ hne
    obtain ⟨e, he, hid⟩ := mem_view.mp htoken
    cases e <;> simp [asPushed] at hid
    exact ⟨_, he, congrArg some hid.1⟩

/-- There is one time to first token for every request that was pushed a token. -/
def FirstTokens (s : State) (m : Metrics) : Prop :=
  m.ttftSeconds.count = (deliveries s.log).toFinset.card

theorem FirstTokens.untold (h : FirstTokens s m) {told : List Event}
    (hheard : recorded s'.log = recorded s.log ++ told) (hnone : deliveries told = [])
    (ht : m'.ttftSeconds = m.ttftSeconds) : FirstTokens s' m' := by
  rw [FirstTokens, ht, deliveries, view_told asDelivered_recorded hheard, ← deliveries,
    ← deliveries, hnone, List.append_nil]
  exact h

theorem FirstTokens.noted (h : FirstTokens s m) (hb : Books env s) (hacc : Accounts env s)
    (hn : Noted env s m s' m') : FirstTokens s' m' := by
  cases hn with
  | quiet hu | tick hu | rejected _ _ _ hu | accepted _ _ hu | expired _ hu
  | decoded _ _ _ _ hu => exact h.untold hu.heard rfl rfl
  | admitted =>
    exact h.untold (recorded_admitted _ _ _) (by simp [asDelivered]) rfl
  | ended _ _ _ _ _ _ _ hrecorded => exact h.untold hrecorded rfl rfl
  | @pushed id seq state now token phase hseq hstate hnil hp =>
    obtain ⟨request, hreq, rfl⟩ := hb.request_of_active (Dict.mem_keys.mpr ⟨seq, hseq⟩)
    have hemitted := (hacc.running _ state request hstate hreq).1.emitted
    have hfirst : request.id ∈ deliveries s.log ↔ state.tokensEmitted ≠ 0 := by
      rw [mem_deliveries, ← hemitted, ne_eq, ne_eq, List.length_eq_zero_iff]
    have hlog : (deliveries (pushedState env s request.id seq state now token phase).log).toFinset =
        insert request.id (deliveries s.log).toFinset := by
      rw [deliveries, view_told asDelivered_recorded (recorded_pushed _ _ _ _ _ _),
        List.toFinset_append, Finset.union_comm]
      rfl
    rw [FirstTokens, hlog]
    by_cases hzero : state.tokensEmitted = 0
    · rw [Finset.card_insert_of_notMem fun hin =>
        hfirst.mp (List.mem_toFinset.mp hin) hzero, ← h]
      simp only [pushedMetrics, if_pos hzero, Histogram.count_observe]
    · rw [Finset.insert_eq_of_mem (List.mem_toFinset.mpr (hfirst.mpr hzero)), ← h]
      simp only [pushedMetrics, if_neg hzero]

/-- The requests that came, each in its place, and the counters that say so. -/
structure RequestsRecorded (s : State) (m : Metrics) : Prop where
  placed : Placed s
  labelled : Labelled s m
  balanced : Balanced s m
  first : FirstTokens s m

/-- Whatever happens, the metrics of the server account for every request it received: it was
rejected for a reason, waits, runs, was cancelled for a reason or ended by itself, once, and each
label stands at the number of those. Each admission has its queue wait and, with the prefix cache,
its lookup on record, and each request that was pushed a token its time to the first one and, once
it has left, its throughput, unless computing that killed the loop. -/
theorem requests_recorded (env : Env) (s : State) (m : Metrics)
    (h : Reachable (metered env) anything (start env, .init) (s, m)) :
    RequestsRecorded s m := by
  refine h.noted (I := RequestsRecorded)
    ⟨placed_start env, labelled_start env, balanced_start env, rfl⟩ fun s m l s' hr hi hs => ?_
  have hb := (reachable_books hr).1
  have hn := reachable_noted (m := m) hr hs
  exact ⟨hi.placed.noted hb hn, hi.labelled.noted hn, hi.balanced.noted hb hn,
    hi.first.noted hb (reachable_accounts hr) hn⟩

/-- A request whose worst case no cache of the small server holds. -/
def demoHuge : GenerateRequest :=
  { demoBody with maxTokens := 4096, maxTokens_pos := by decide, maxTokens_le := by decide }

/-- The first of three requests is cancelled, the second turned away, the third runs to its end. -/
def demoFates : List Label :=
  [.generate 0 demoBody, .generate 1 demoHuge, .generate 2 demoBody, .cancel 0] ++
    List.replicate 7 .loop ++ [.decoded (fun _ => 1) [1, 0]] ++
    List.replicate 4 .loop ++ [.decoded (fun _ => 1) [1, 0]] ++
    List.replicate 6 .loop ++ [.decoded (fun _ => 1) [0], .loop]

theorem requests_recorded_demo : ∃ s m,
    run (metered demo) (start demo, .init) demoFates = some (s, m) ∧ RequestsRecorded s m ∧
    fates s.log =
      [(1, .rejected .kvCacheFull), (0, .cancelled .clientDisconnect), (2, .completed)] ∧
    m.admissionRejectedTotal.value .kvCacheFull = 1 ∧
    m.cancellationsTotal.value .clientDisconnect = 1 ∧
    m.prefixCacheLookupsTotal.value .staleDonor = 1 ∧ m.tokensPerSecond.observed = [1 / 2] := by
  have hrun : (run (metered demo) (start demo, .init) demoFates).map (fun x =>
      (fates x.1.log, x.2.admissionRejectedTotal.value .kvCacheFull,
        x.2.cancellationsTotal.value .clientDisconnect,
        x.2.prefixCacheLookupsTotal.value .staleDonor, x.2.tokensPerSecond.observed)) =
      some ([(1, .rejected .kvCacheFull), (0, .cancelled .clientDisconnect), (2, .completed)],
        1, 1, 1, [1 / 2]) := by
    decide +kernel
  obtain ⟨⟨s, m⟩, hs, hfinal⟩ := Option.map_eq_some_iff.mp hrun
  simp only [Prod.mk.injEq] at hfinal
  exact ⟨s, m, hs, requests_recorded demo s m (Reachable.init.run hs), hfinal⟩

end Requests

section Tokens
variable {env : Env} {s s' : State} {m m' : Metrics}

/-- Every token is on record where it came from and where it went; `lost` are the pending tokens of
requests that a failed decode took away. -/
structure TokensRecorded (s : State) (m : Metrics) (fed lost : ℕ) : Prop where
  delivered : m.ttftSeconds.count + m.interTokenLatencySeconds.count = (deliveries s.log).length
  dated : ∀ id state, s.requests.get? id = some state → 0 < state.tokensEmitted →
    state.lastTokenTs ≠ none
  decoded : m.batchSizeTokens.sum = fed
  spent : m.prefillTokensTotal + (deliveries s.log).length =
    m.prefillTokensReusedTotal + fed + pendingTotal s.active.values + lost
  unlost : m.cancellationsTotal.value .decodeError = 0 → lost = 0
  spared : m.prefillTokensReusedTotal + m.prefixCacheLookupsTotal.value .hit ≤ m.prefillTokensTotal
  reused : m.prefillTokensReusedTotal = ((sparings s.log).map Prod.snd).sum
  hits : m.prefixCacheLookupsTotal.value .hit = (sparings s.log).countP fun x => 0 < x.2

theorem tokensRecorded_start (env : Env) : TokensRecorded (start env) .init 0 0 :=
  ⟨rfl, fun _ _ h => by simp [start] at h, rfl, rfl, fun _ => rfl, le_rfl, rfl, rfl⟩

theorem TokensRecorded.unmoved {fed lost : ℕ} (h : TokensRecorded s m fed lost) {told : List Event}
    (hu : Unmoved s s' told) (hdelivered : deliveries told = []) (hspared : sparings told = []) :
    TokensRecorded s' m fed lost := by
  obtain ⟨h1, h2, h3, h4, h5, h6, h7, h8⟩ := h
  have hd : deliveries s'.log = deliveries s.log := by
    rw [deliveries, view_told asDelivered_recorded hu.heard, ← deliveries, ← deliveries, hdelivered,
      List.append_nil]
  have hs : sparings s'.log = sparings s.log := by
    rw [sparings, view_told asSpared_recorded hu.heard, ← sparings, ← sparings, hspared,
      List.append_nil]
  refine ⟨by rw [hd, h1], ?_, h3, by rw [hd, hu.active, h4], h5, h6, by rw [hs, h7], by rw [hs, h8]⟩
  rw [hu.requests]
  exact h2

theorem pendingTotal_append (active active' : List ActiveSequence) :
    pendingTotal (active ++ active') = pendingTotal active + pendingTotal active' := by
  simp [pendingTotal]

theorem pendingTotal_perm {active active' : List ActiveSequence} (h : active.Perm active') :
    pendingTotal active = pendingTotal active' := (h.map _).sum_eq

/-- What a decode takes from what is pending is what its batch held. -/
theorem pendingTotal_decoded (hb : Books env s) {prepared : PreparedBatch}
    (hprep : prepared = buildBatch s.active.values env.batchCapacity env.chunkSize)
    (hkeys : s'.active.keys = s.active.keys)
    (hactive : ∀ id, s'.active.get? id = (s.active.get? id).map (consume prepared)) :
    pendingTotal s.active.values =
      prepared.rows.length + pendingTotal s'.active.values := by
  have hrows := @rowCount_sum prepared s.active.values hb.seqIds_nodup fun row hrow =>
    buildBatch_seqId (hprep ▸ hrow)
  have hafter : s'.active.values.map (fun seq => seq.pendingTokens.length) =
      s.active.values.map fun seq => (consume prepared seq).pendingTokens.length :=
    Dict.map_values_congr hkeys fun id => by rw [hactive, Option.map_map]; rfl
  have hsplit : ∀ seq ∈ s.active.values, seq.pendingTokens.length =
      prepared.rowCount seq.seqId + (consume prepared seq).pendingTokens.length := by
    intro seq hmem
    obtain ⟨id, hseq⟩ := Dict.mem_values.mp hmem
    obtain ⟨take, htake, -, hcount⟩ := hb.rows_of_active hseq hprep
    simp only [consume, List.length_drop]
    omega
  rw [pendingTotal, pendingTotal, hafter, ← hrows, ← List.sum_map_add]
  exact congrArg List.sum (List.map_congr_left hsplit)

theorem TokensRecorded.noted {fed lost : ℕ} (h : TokensRecorded s m fed lost) (hb : Books env s)
    (hn : Noted env s m s' m') : ∃ fed' lost', TokensRecorded s' m' fed' lost' := by
  cases hn with
  | quiet hu hi => exact ⟨fed, lost, h.unmoved hu rfl rfl⟩
  | tick hu hi =>
    obtain ⟨h1, h2, h3, h4, h5, h6, h7, h8⟩ := h.unmoved hu rfl rfl
    exact ⟨fed, lost, h1, h2, h3, h4, h5, h6, h7, h8⟩
  | rejected id reason hnew hu hi =>
    obtain ⟨h1, h2, h3, h4, h5, h6, h7, h8⟩ := h.unmoved hu rfl rfl
    exact ⟨fed, lost, h1, h2, h3, h4, h5, h6, h7, h8⟩
  | @accepted s' request hnew hfresh hu hi =>
    obtain ⟨h1, h2, h3, h4, h5, h6, h7, h8⟩ := h
    have hqueued : TokensRecorded { s with queue := s.queue.push request } m fed lost :=
      ⟨h1, h2, h3, h4, h5, h6, h7, h8⟩
    obtain ⟨h1, h2, h3, h4, h5, h6, h7, h8⟩ := hqueued.unmoved hu rfl rfl
    exact ⟨fed, lost, h1, h2, h3, h4, h5, h6, h7, h8⟩
  | @expired s' request hpool hu hi =>
    obtain ⟨h1, h2, h3, h4, h5, h6, h7, h8⟩ := h
    have hdropped : TokensRecorded { s with queue := ⟨s.queue.pool.erase request.id⟩ } m fed lost :=
      ⟨h1, h2, h3, h4, h5, h6, h7, h8⟩
    obtain ⟨h1, h2, h3, h4, h5, h6, h7, h8⟩ := hdropped.unmoved hu rfl rfl
    exact ⟨fed, lost, h1, h2, h3, h4, by simpa using h5, h6, h7, h8⟩
  | @admitted request seqId phase hpool hreused hlive =>
    obtain ⟨h1, h2, h3, h4, h5, h6, h7, h8⟩ := h
    have hfresh := hb.apart _ (Dict.mem_keys.mpr ⟨request, hpool⟩)
    have hdelivered : deliveries (admittedState env s request seqId phase).log =
        deliveries s.log := by
      rw [deliveries, view_told asDelivered_recorded (recorded_admitted request seqId phase)]
      simp [asDelivered]
    have hsparings : sparings (admittedState env s request seqId phase).log =
        sparings s.log ++ [(request.id, (claimPrefix s request seqId).1)] := by
      rw [sparings, view_told asSpared_recorded (recorded_admitted request seqId phase)]
      simp [asSpared]
    have hhits : (admittedMetrics env s request seqId m).prefixCacheLookupsTotal.value .hit =
        m.prefixCacheLookupsTotal.value .hit +
          if outcome s request seqId = some .hit then 1 else 0 := by
      cases hout : outcome s request seqId <;> simp [admittedMetrics, hout]
    have hvalues : (admittedState env s request seqId phase).active.values =
        s.active.values ++ [_] := Dict.values_set_of_fresh (Dict.get?_eq_none.mpr hfresh)
    refine ⟨fed, lost, by rw [hdelivered, ← h1]; rfl, fun j state hstate hpos => ?_, h3, ?_, h5, ?_,
      ?_, ?_⟩
    · have hget : (s.requests.set request.id _).get? j = some state := hstate
      rw [Dict.get?_set] at hget
      split_ifs at hget with hj
      · obtain rfl := Option.some.inj hget
        exact absurd hpos (lt_irrefl 0)
      · exact h2 j state hget hpos
    · rw [hdelivered, hvalues, pendingTotal_append]
      simp only [admittedMetrics, pendingTotal, List.map_cons, List.map_nil, List.sum_singleton,
        List.length_drop] at h4 ⊢
      omega
    · rw [hhits]
      simp only [admittedMetrics]
      omega
    · rw [hsparings, List.map_append, List.sum_append, ← h7]
      simp [admittedMetrics]
    · rw [hhits, h8, hsparings, List.countP_append]
      simp [outcome_hit, List.countP_cons]
  | @decoded s' prepared hp hprep hkeys hactive hu hi =>
    have hpending := @pendingTotal_decoded env s s' hb prepared hprep hkeys hactive
    have hd : deliveries s'.log = deliveries s.log := by
      rw [deliveries, view_told asDelivered_recorded hu.heard]
      simp
    have hspared : sparings s'.log = sparings s.log := by
      rw [sparings, view_told asSpared_recorded hu.heard]
      simp
    obtain ⟨h1, h2, h3, h4, h5, h6, h7, h8⟩ := h
    refine ⟨fed + prepared.rows.length, lost, by rw [hd]; exact h1, ?_, ?_, ?_, h5, h6,
      by rw [hspared]; exact h7, by rw [hspared]; exact h8⟩
    · rw [hu.requests]
      exact h2
    · simp only [recordDecoded, Histogram.sum_observe, h3, Nat.cast_add]
    · rw [hd]
      simp only [recordDecoded]
      omega
  | @ended s' id seq state why hseq hstate hdrained hq ha hr hc hrecorded hdead hlive hi =>
    have hd : deliveries s'.log = deliveries s.log := by
      rw [deliveries, view_told asDelivered_recorded hrecorded]
      simp [asDelivered]
    have hspared : sparings s'.log = sparings s.log := by
      rw [sparings, view_told asSpared_recorded hrecorded]
      simp [asSpared]
    obtain ⟨h1, h2, h3, h4, h5, h6, h7, h8⟩ := h
    have hpending : pendingTotal s.active.values =
        seq.pendingTokens.length + pendingTotal s'.active.values := by
      rw [pendingTotal_perm (Dict.values_perm_erase hseq), ha]
      simp [pendingTotal]
    refine ⟨fed, lost + seq.pendingTokens.length, by rw [hd]; exact h1, ?_, h3, ?_, ?_, h6,
      by rw [hspared]; exact h7, by rw [hspared]; exact h8⟩
    · rw [hr]
      exact fun j other hother => h2 j other (Dict.get?_of_erase hother)
    · rw [hd]
      simp only [endedMetrics]
      omega
    · intro hnone
      rcases hdrained with rfl | hnil
      · simp [endedMetrics, CancelReason.label] at hnone
      · have hold : m.cancellationsTotal.value .decodeError = 0 := by
          cases why with
          | none => exact hnone
          | some reason =>
            simp only [endedMetrics, Option.elim_some, Counter.value_inc] at hnone
            omega
        rw [h5 hold, hnil]
        rfl
  | @pushed id seq state now token phase hseq hstate hnil hp =>
    obtain ⟨h1, h2, h3, h4, h5, h6, h7, h8⟩ := h
    have hheard := @recorded_pushed env s id seq state now token phase
    have hdelivered : (deliveries (pushedState env s id seq state now token phase).log).length =
        (deliveries s.log).length + 1 := by
      rw [deliveries, view_told asDelivered_recorded hheard]
      simp [asDelivered]
    have hspared : sparings (pushedState env s id seq state now token phase).log =
        sparings s.log := by
      rw [sparings, view_told asSpared_recorded hheard]
      simp [asSpared]
    have hcounts : (pushedMetrics now state m).ttftSeconds.count +
        (pushedMetrics now state m).interTokenLatencySeconds.count =
          m.ttftSeconds.count + m.interTokenLatencySeconds.count + 1 := by
      by_cases hzero : state.tokensEmitted = 0
      · simp only [pushedMetrics, if_pos hzero, Histogram.count_observe]
        omega
      · obtain ⟨last, hlast⟩ :=
          Option.ne_none_iff_exists'.mp (h2 id state hstate (Nat.pos_of_ne_zero hzero))
        simp only [pushedMetrics, if_neg hzero, hlast, Option.elim_some, Histogram.count_observe]
        omega
    have hpending : pendingTotal (pushedState env s id seq state now token phase).active.values =
        pendingTotal s.active.values + 1 := by
      have hvalues : (pushedState env s id seq state now token phase).active.values.Perm
          (_ :: (s.active.erase id).values) := Dict.values_perm_set
      rw [pendingTotal_perm hvalues, pendingTotal_perm (Dict.values_perm_erase hseq)]
      simp only [pendingTotal, List.map_cons, List.sum_cons, hnil, List.length_nil,
        List.length_singleton]
      omega
    refine ⟨fed, lost, by rw [hcounts, hdelivered, h1], fun j other hother hpos => ?_, h3, ?_, h5,
      h6, by rw [hspared]; exact h7, by rw [hspared]; exact h8⟩
    · have hget : (s.requests.set id _).get? j = some other := hother
      rw [Dict.get?_set] at hget
      split_ifs at hget with hj
      · obtain rfl := Option.some.inj hget
        simp
      · exact h2 j other hget hpos
    · rw [hdelivered, hpending]
      simp only [pushedMetrics]
      omega

/-- Every admission that was spared some tokens has more to its prompt. -/
def Roomy (s : State) : Prop :=
  ∀ id reused, (id, reused) ∈ sparings s.log → 0 < reused →
    ∃ request, s.accepted.get? id = some request ∧ reused < request.promptTokens.length

theorem Roomy.frame (h : Roomy s) (hlog : sparings s'.log = sparings s.log)
    (hacc : ∀ id request, s.accepted.get? id = some request → s'.accepted.get? id = some request) :
    Roomy s' := by
  intro id reused hin hpos
  obtain ⟨request, hreq, hlt⟩ := h id reused (hlog ▸ hin) hpos
  exact ⟨request, hacc id request hreq, hlt⟩

theorem Roomy.transition (h : Roomy s) (hr : Reachable (step env) anything (start env) s)
    {l : Label} (ht : Transition env s l s') : Roomy s' := by
  have hb := (reachable_books hr).1
  cases ht with
  | rejected | buildNothing | build | decoded =>
    exact h.frame (by simp [asSpared]) fun _ _ hreq => hreq
  | @accepted id body kvCache hw hnew hroom hres =>
    refine h.frame (by simp [asSpared]) fun j request hreq => ?_
    show (s.accepted.set id _).get? j = some request
    rw [Dict.get?_set, if_neg]
    · exact hreq
    · rintro rfl
      exact (hb.unissued hnew).2.2.1 (Dict.mem_keys.mpr ⟨request, hreq⟩)
  | receive hw hrec =>
    refine h.frame ?_ fun _ _ hreq => hreq
    split_ifs <;> simp [asSpared]
  | leave => exact h.frame (by simp [asSpared]) fun _ _ hreq => hreq
  | expire => exact h.frame (by simp [expiredState, asSpared]) fun _ _ hreq => hreq
  | @admitted request todo seqId hp hpool hslot =>
    have hsparings : sparings (admittedState env s request seqId (.admitting todo)).log =
        sparings s.log ++ [(request.id, (claimPrefix s request seqId).1)] := by
      simp [admittedState, asSpared]
    have hfits := @reused_room env s hb (reachable_contents hr) (reachable_mirrors hr)
      (by rw [hp]; rfl) request seqId hslot
    intro id reused hin hpos
    rw [hsparings, List.mem_append, List.mem_singleton] at hin
    rcases hin with hold | hnew
    · exact h id reused hold hpos
    · obtain ⟨rfl, rfl⟩ := Prod.mk.inj hnew
      rw [if_pos (outcome_hit.mpr hpos)] at hfits
      exact ⟨request, (hb.queued _ _ hpool).2, hfits⟩
  | finishSampled | finishFailed =>
    exact h.frame (by simp [finishedState, asSpared]) fun _ _ hreq => hreq
  | dieSampled | dieFailed => exact h.frame (by simp [diedState, asSpared]) fun _ _ hreq => hreq
  | push => exact h.frame (by simp [pushedState, asSpared]) fun _ _ hreq => hreq
  | _ => exact h.frame rfl fun _ _ hreq => hreq

/-- The token counters balance in every state: what was admitted to be prefilled and what was pushed
is what was copied instead of prefilled, what went through a batch, what is still pending and
nothing else as long as no request was cancelled for a failed decode; then only more came in than
went through. What was copied is what the admissions were spared, the hits are those that were
spared some, and each of them less than its prompt has. -/
theorem tokens_recorded (env : Env) (s : State) (m : Metrics)
    (h : Reachable (metered env) anything (start env, .init) (s, m)) :
    m.ttftSeconds.count + m.interTokenLatencySeconds.count = (deliveries s.log).length ∧
    (m.prefillTokensReusedTotal + m.batchSizeTokens.sum + pendingTotal s.active.values ≤
      m.prefillTokensTotal + (deliveries s.log).length) ∧
    (m.cancellationsTotal.value .decodeError = 0 →
      m.prefillTokensReusedTotal + m.batchSizeTokens.sum + pendingTotal s.active.values =
        m.prefillTokensTotal + (deliveries s.log).length) ∧
    m.prefillTokensReusedTotal + m.prefixCacheLookupsTotal.value .hit ≤ m.prefillTokensTotal ∧
    m.prefillTokensReusedTotal = ((sparings s.log).map Prod.snd).sum ∧
    m.prefixCacheLookupsTotal.value .hit = ((sparings s.log).countP fun x => 0 < x.2) ∧
    ∀ id reused, (id, reused) ∈ sparings s.log → 0 < reused →
      ∃ request, s.accepted.get? id = some request ∧ reused < request.promptTokens.length := by
  have hall : ∃ fed lost, TokensRecorded s m fed lost := by
    refine h.noted (I := fun s m => ∃ fed lost, TokensRecorded s m fed lost)
      ⟨0, 0, tokensRecorded_start env⟩ fun s m l s' hr hi hs => ?_
    obtain ⟨fed, lost, hi⟩ := hi
    exact hi.noted (reachable_books hr).1 (reachable_noted hr hs)
  obtain ⟨fed, lost, h1, -, h3, h4, h5, h6, h7, h8⟩ := hall
  have hroomy : Roomy s := by
    refine h.forget.invariant (I := Roomy) (fun _ _ hin => ?_) fun s l s' hr hi _ hs => ?_
    · simp [start] at hin
    · exact hi.transition hr (reachable_transition hr hs)
  refine ⟨h1, ?_, fun hnone => ?_, h6, h7, h8, hroomy⟩
  · rw [h3]
    exact_mod_cast (by omega : m.prefillTokensReusedTotal + fed + pendingTotal s.active.values ≤
      m.prefillTokensTotal + (deliveries s.log).length)
  · have hlost := h5 hnone
    rw [h3]
    exact_mod_cast (by omega : m.prefillTokensReusedTotal + fed + pendingTotal s.active.values =
      m.prefillTokensTotal + (deliveries s.log).length)

/-- Two requests with one prompt: the second spares the first block, which is copied. -/
theorem tokens_recorded_demo : ∃ s m,
    run (metered demo) (start demo, .init) demoReuse = some (s, m) ∧
    m.prefillTokensReusedTotal + m.batchSizeTokens.sum + pendingTotal s.active.values =
      m.prefillTokensTotal + (deliveries s.log).length ∧
    0 < m.prefillTokensReusedTotal := by
  have hrun : (run (metered demo) (start demo, .init) demoReuse).map (fun x =>
      (x.2.cancellationsTotal.value .decodeError, decide (0 < x.2.prefillTokensReusedTotal))) =
      some (0, true) := by
    decide +kernel
  obtain ⟨⟨s, m⟩, hs, hfinal⟩ := Option.map_eq_some_iff.mp hrun
  obtain ⟨hnone, hpos⟩ := Prod.mk.inj hfinal
  exact ⟨s, m, hs, (tokens_recorded demo s m (Reachable.init.run hs)).2.2.1 hnone,
    of_decide_eq_true hpos⟩

end Tokens

end TinyServe.BatchLoop
