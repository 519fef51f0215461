import TinyServe.BatchLoopDrain

set_option autoImplicit false

/-! Who is turned away, and whether it is worth coming back. -/
namespace TinyServe.BatchLoop
open OrderedDict Admission Scheduler Runs

/-- The most blocks that a body can come to fill. -/
def wanted (env : Env) (body : GenerateRequest) : ℕ :=
  ((env.tokenize body.prompt).length + body.maxTokens + env.kvBlockSize - 1) / env.kvBlockSize

/-- What a request deserves: a full queue turns it away, and so do too many blocks in all for the
worst case of everybody who waits or runs. -/
def verdict (env : Env) (s : State) (body : GenerateRequest) : AdmissionResult :=
  if env.maxQueueDepth ≤ s.queue.depth then
    .rejected .queueFull
  else if env.totalTokens / env.kvBlockSize <
      wanted env body + ((reservations s).map (worstCase env)).sum then
    .rejected .kvCacheFull
  else
    .accepted

section Verdicts
variable {env : Env} {s s' : State} {id : RequestId} {body : GenerateRequest}

/-- The controller counts free blocks, and comes to the verdict. -/
theorem Books.admit_verdict (hb : Books env s) (hnew : id ∉ s.issued) :
    ∃ kvCache, Admission.admit_ s.kvCache env.maxQueueDepth id (env.tokenize body.prompt).length
      body.maxTokens s.queue.depth = .ok (verdict env s body, kvCache) := by
  obtain ⟨-, -, -, hfree⟩ := hb.unissued hnew
  have hfresh := Dict.get?_eq_none.mpr hfree
  have hbalance := hb.blocks_balance
  rw [hb.totalBlocks] at hbalance
  have hneeded : s.kvCache.blocksNeeded ((env.tokenize body.prompt).length + body.maxTokens) =
      wanted env body := by
    rw [KVCacheManager.blocksNeeded, hb.blockSize, wanted]
  rw [Admission.admit_, verdict]
  split_ifs with hdepth hroom
  · exact ⟨_, rfl⟩
  · have hfew : s.kvCache.freeBlocks <
        s.kvCache.blocksNeeded ((env.tokenize body.prompt).length + body.maxTokens) := by
      omega
    simp only [KVCacheManager.reserve, dif_pos hfresh, dif_pos hfew]
    exact ⟨_, rfl⟩
  · have hmany : ¬ s.kvCache.freeBlocks <
        s.kvCache.blocksNeeded ((env.tokenize body.prompt).length + body.maxTokens) := by
      omega
    simp only [KVCacheManager.reserve, dif_pos hfresh, dif_neg hmany]
    exact ⟨_, rfl⟩

/-- The answer that the handler puts on record. -/
def answered (id : RequestId) : AdmissionResult → Event
  | .accepted => .accepted id
  | .rejected reason => .rejected id reason

theorem generate_answered {result : AdmissionResult} {kvCache : KVCacheManager}
    (hr : Admission.admit_ s.kvCache env.maxQueueDepth id (env.tokenize body.prompt).length
      body.maxTokens s.queue.depth = .ok (result, kvCache)) :
    ∃ before, (generate env { s with issued := id :: s.issued } id body).log =
      s.log ++ (before ++ [answered id result]) ∧ ∀ r, answered id r ∉ before := by
  have hopen : (((s.tracer.startRequest id).startSpan id .admission).openChildren).contains
      (id, Tracing.SpanName.admission) = true := by
    simp [Tracing.RequestTracer.startSpan, Dict.contains]
  have hroot : (judged s.tracer id).roots.contains id = true := by
    simp [judged, Tracing.RequestTracer.startSpan, Tracing.RequestTracer.startRequest,
      Tracing.RequestTracer.endSpan, Dict.contains]
  cases result with
  | accepted =>
    refine ⟨[.rootStarted id, .spanStarted id .admission, .spanEnded id .admission,
      .spanStarted id .queueWait], ?_, fun r => ?_⟩
    · simp [generate, State.startRequest, State.startSpan, State.endSpan, State.emit,
        State.readClock, Tracing.RequestTracer.endSpan, hopen, hr, answered]
    · cases r <;> simp [answered]
  | rejected reason =>
    refine ⟨[.rootStarted id, .spanStarted id .admission, .spanEnded id .admission,
      .rootEnded id], ?_, fun r => ?_⟩
    · simp only [judged, Tracing.RequestTracer.endSpan] at hroot
      simp [generate, State.startRequest, State.startSpan, State.endSpan, State.emit,
        State.endRequest, Tracing.RequestTracer.endSpan, Tracing.RequestTracer.endRequest, hopen,
        hroot, hr, answered]
    · cases r <;> simp [answered]

theorem issued_kept {l : Label} (ht : Transition env s l s') (ha : l.arrival = false) :
    s'.issued = s.issued := by
  cases ht with
  | rejected | accepted => simp [Label.arrival] at ha
  | _ => rfl

/-- At rest nobody stands in the way. -/
theorem AtRest.verdict (hrest : AtRest env s) (hdepth : 1 ≤ env.maxQueueDepth)
    (hfits : wanted env body ≤ env.totalTokens / env.kvBlockSize) :
    verdict env s body = .accepted := by
  obtain ⟨hq, ha⟩ := Nat.add_eq_zero_iff.mp hrest.nobody
  have hwaiting : s.queue.waiting = [] := by
    rw [← List.length_eq_zero_iff]
    exact (List.length_map _).trans hq
  have hactive : s.active.keys = [] := by
    rw [← List.length_eq_zero_iff, ← Dict.size_eq_keys, ha]
  have hnone : reservations s = [] := by
    rw [reservations, hwaiting, hactive, List.filterMap_nil, List.append_nil]
  rw [BatchLoop.verdict, hnone, if_neg (by omega), List.map_nil, List.sum_nil, Nat.add_zero,
    if_neg (by omega)]

end Verdicts

/-- A request is turned away for the reason there is, and it is worth coming back exactly where the
configuration leaves room for it: there, wherever the server runs out of work with no one else
coming, it is let in, and a server that can decode does run out of work. -/
theorem retry_accepted (env : Env) (s : State) (h : Reachable (step env) anything (start env) s)
    (id : RequestId) (hnew : id ∉ s.issued) (body : GenerateRequest) :
    (∀ s', step env s (.generate id body) = some s' → ∃ before,
      s'.log = s.log ++ (before ++ [answered id (verdict env s body)]) ∧
        ∀ r, answered id r ∉ before) ∧
    (1 ≤ env.maxQueueDepth ∧ wanted env body ≤ env.totalTokens / env.kvBlockSize →
      (env.totalTokens ≤ env.batchCapacity → 1 ≤ env.chunkSize → 1 ≤ env.nSeqMax →
        (∀ id request, s.accepted.get? id = some request → request.promptTokens ≠ []) →
        ∃ ls s', (∀ l ∈ ls, l.own = true) ∧ run (step env) s ls = some s' ∧
          ∀ l, l.own = true → step env s' l = none) ∧
      ∀ ls s', (∀ l ∈ ls, l.arrival = false) → run (step env) s ls = some s' →
        (∀ l, l.own = true → step env s' l = none) → (∃ e, s'.phase = .dead e) ∨
          verdict env s' body = .accepted ∧ ∃ s'', step env s' (.generate id body) = some s'') ∧
    (¬ (1 ≤ env.maxQueueDepth ∧ wanted env body ≤ env.totalTokens / env.kvBlockSize) →
      ∀ s', Reachable (step env) anything (start env) s' → ∃ reason,
        verdict env s' body = .rejected reason) := by
  refine ⟨fun s' hstep => ?_, fun hfits => ⟨fun hcap hchunk hslots hprompts => ?_,
    fun ls s' hall hrun hstuck => ?_⟩, fun hnever s' _ => ?_⟩
  · simp only [step] at hstep
    split_ifs at hstep with hg
    obtain rfl := Option.some.inj hstep
    obtain ⟨kvCache, hr⟩ := (reachable_books h).1.admit_verdict hnew
    exact generate_answered hr
  · have hstart : Bounded env (held s) s := ⟨h, le_rfl, hprompts⟩
    obtain ⟨ls, s', hown, hrun, -, hstuck⟩ := runs_down hstart hcap hchunk hslots
    exact ⟨ls, s', hown, hrun, hstuck⟩
  · have hfrom : Reachable (step env) (fun _ l => l.arrival = false) s s' :=
      Reachable.init.run_allowed (fun l hl _ => hall l hl) hrun
    have hissued : s'.issued = s.issued :=
      hfrom.invariant (I := fun u => u.issued = s.issued) rfl fun u l u' hu hi ha hs =>
        (issued_kept (reachable_transition (h.trans (hu.mono fun _ _ _ => trivial)) hs) ha).trans hi
    refine (atRest_of_stuck (h.run hrun) hstuck).imp_right fun hrest => ?_
    obtain ⟨hidle, hrest⟩ := hrest
    refine ⟨hrest.verdict hfits.1 hfits.2, _, if_pos ⟨?_, hissued ▸ hnew⟩⟩
    rw [hidle, Phase.awaiting]
  · rw [not_and_or] at hnever
    rw [verdict]
    rcases hnever with hdepth | hfits
    · exact ⟨.queueFull, if_pos (by omega)⟩
    · split_ifs
      · exact ⟨_, rfl⟩
      · exact ⟨_, rfl⟩
      · omega

/-- A body that needs the whole cache is turned away while two others run, and let in later. -/
theorem retry_accepted_demo : ∃ s, run (step demo) (start demo) demoArrivals = some s ∧
    ∃ body, verdict demo s body = .rejected .kvCacheFull ∧ ∃ ls s', run (step demo) s ls = some s' ∧
      ((∃ e, s'.phase = .dead e) ∨
        verdict demo s' body = .accepted ∧ ∃ s'', step demo s' (.generate 2 body) = some s'') := by
  let body : GenerateRequest := ⟨"abc", 61, 1, by decide, by decide, by decide, by decide⟩
  have hfinal : (run (step demo) (start demo) demoArrivals).map (fun s =>
      (decide (2 ∉ s.issued), verdict demo s body)) = some (true, .rejected .kvCacheFull) := by
    decide +kernel
  obtain ⟨s, hs, hparts⟩ := Option.map_eq_some_iff.mp hfinal
  obtain ⟨hnew, hverdict⟩ := Prod.mk.inj hparts
  have hr := Reachable.init.run hs
  obtain ⟨-, hback, -⟩ := retry_accepted demo s hr 2 (of_decide_eq_true hnew) body
  obtain ⟨hdrains, hall⟩ := hback (by decide)
  obtain ⟨ls, s', hown, hrun, hstuck⟩ :=
    hdrains (by decide) (by decide) (by decide) (demo_prompts hr)
  refine ⟨s, hs, body, hverdict, ls, s', hrun, hall ls s' (fun l hl => ?_) hrun hstuck⟩
  have howns := hown l hl
  cases l <;> simp [Label.own, Label.arrival] at howns ⊢

end TinyServe.BatchLoop
