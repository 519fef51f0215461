import TinyServe.BatchLoopProgress

set_option autoImplicit false

/-!
Once its prefill is over a request is sampled a token by every decode, so the decodes since its
admission tell how far it is and how long it keeps its slot.
-/
namespace TinyServe.BatchLoop
open OrderedDict SequenceMemory BatchBuilder Scheduler LlamaRuntime Runs

section Paced
variable {env : Env} {s s' : State} {events : List Event} {request : PendingRequest}
  {seq : ActiveSequence}

/-- How many decodes it takes to come to what was sampled so far. -/
def owed (env : Env) (s : State) (request : PendingRequest) (reused : ℕ) : ℕ :=
  prefillDecodes env request reused + (sampledFor s.log request.id).length

/-- A sequence with nothing pending is on schedule, and one that generates is one decode ahead. -/
structure Paced (env : Env) (s : State) (request : PendingRequest) (seq : ActiveSequence) :
    Prop where
  due : seq.pendingTokens = [] → ∀ reused since, Since s.log request.id reused since →
    decodes since = owed env s request reused
  fed : seq.pendingTokens ≠ [] → sampledFor s.log request.id ≠ [] →
    seq.pendingTokens.length = 1 ∧ ∀ reused since, Since s.log request.id reused since →
      decodes since + 1 = owed env s request reused

structure Pace (env : Env) (s : State) : Prop where
  active : s.phase.intact = true → ∀ request seq, s.active.get? request.id = some seq →
    s.accepted.get? request.id = some request → request.promptTokens ≠ [] → Paced env s request seq
  spent : ∀ request, request.id ∈ s.active.keys → s.accepted.get? request.id = some request →
    request.promptTokens ≠ [] → ∀ reused since, Since s.log request.id reused since →
      decodes since ≤ owed env s request reused
  sampled : ∀ request, s.accepted.get? request.id = some request → request.promptTokens ≠ [] →
    ∀ reused prior token after,
      Since s.log request.id reused (prior ++ .sampled request.id token :: after) →
      decodes prior = prefillDecodes env request reused + (sampledFor prior request.id).length

theorem pace_start (env : Env) : Pace env (start env) where
  active _ _ _ h := by simp [start] at h
  spent _ h := by simp [start] at h
  sampled _ h := by simp [start] at h

theorem owed_append (hlog : s'.log = s.log ++ events) (reused : ℕ) : owed env s' request reused =
    owed env s request reused + (sampledFor events request.id).length := by
  rw [owed, owed, hlog, sampledFor, view_append, List.length_append, Nat.add_assoc]

theorem Paced.append (h : Paced env s request seq) (hlog : s'.log = s.log ++ events)
    (ha : admissions events request.id = []) (hd : decodes events = 0)
    (hs : sampledFor events request.id = []) : Paced env s' request seq := by
  have howed : ∀ reused, owed env s' request reused = owed env s request reused := by
    intro reused
    rw [owed_append hlog, hs, List.length_nil, Nat.add_zero]
  have hback : ∀ reused since, Since s'.log request.id reused since →
      ∃ old, Since s.log request.id reused old ∧ decodes since = decodes old := by
    intro reused since hsince
    rw [hlog, since_append ha] at hsince
    obtain ⟨old, hold, rfl⟩ := hsince
    exact ⟨old, hold, by rw [decodes_append, hd, Nat.add_zero]⟩
  refine ⟨fun hnil reused since hsince => ?_, fun hne hsome => ?_⟩
  · obtain ⟨old, hold, hsame⟩ := hback reused since hsince
    rw [hsame, howed]
    exact h.due hnil reused old hold
  · rw [hlog, sampledFor, view_append, ← sampledFor, ← sampledFor, hs, List.append_nil] at hsome
    obtain ⟨hone, hfed⟩ := h.fed hne hsome
    refine ⟨hone, fun reused since hsince => ?_⟩
    obtain ⟨old, hold, hsame⟩ := hback reused since hsince
    rw [hsame, howed]
    exact hfed reused old hold

/-- An event of a log that grew stands where it stood, or is one of the new ones. -/
theorem split_at {since first after : List Event} {e : Event}
    (h : since ++ events = first ++ e :: after) : (∃ rest, since = first ++ e :: rest) ∨
      ∃ later, first = since ++ later ∧ events = later ++ e :: after := by
  rcases List.append_eq_append_iff.mp h with ⟨later, hfirst, hev⟩ | ⟨later, hsince, hev⟩
  · exact .inr ⟨later, hfirst, hev⟩
  · cases later with
    | nil =>
      rw [List.append_nil] at hsince
      exact .inr ⟨[], by rw [hsince, List.append_nil], hev.symm⟩
    | cons e' later =>
      obtain ⟨rfl, -⟩ := List.cons.inj hev
      exact .inl ⟨later, hsince⟩

/-- Nothing was sampled before the only token that events sample. -/
theorem sampled_single {later after : List Event} {id : RequestId} {token : Token}
    (hev : events = later ++ .sampled id token :: after) (hone : (sampledFor events id).length ≤ 1) :
    sampledFor later id = [] ∧ (sampledFor events id).length = 1 := by
  have hcount : (sampledFor events id).length =
      (sampledFor later id).length + ((sampledFor after id).length + 1) := by
    rw [hev, sampledFor, view_append, view_cons, ← sampledFor, ← sampledFor, List.length_append]
    simp [asSampled]
  exact ⟨List.length_eq_zero_iff.mp (by omega), by omega⟩

/-- What a step that neither admits nor decodes has to leave in order: it samples for a request at
most once, and for one that is due. -/
theorem Pace.moved (h : Pace env s) (hp : Progress env s) (hlog : s'.log = s.log ++ events)
    (hd : decodes events = 0) (ha : ∀ id, admissions events id = [])
    (hacc : ∀ id, s'.accepted.get? id = s.accepted.get? id ∨
      id ∉ s.active.keys ∧ admissions s.log id = [])
    (hkeys : ∀ id ∈ s'.active.keys, id ∈ s.active.keys)
    (hsampled : ∀ request, sampledFor events request.id = [] ∨
      (sampledFor events request.id).length = 1 ∧
        (s.accepted.get? request.id = some request → request.promptTokens ≠ [] →
          ∀ reused since, Since s.log request.id reused since →
            decodes since = owed env s request reused))
    (hactive : s'.phase.intact = true → ∀ request seq, s'.active.get? request.id = some seq →
      s.accepted.get? request.id = some request → request.promptTokens ≠ [] →
      Paced env s' request seq) : Pace env s' := by
  refine ⟨fun hi request seq hseq hreq hprompt => ?_,
    fun request hin hreq hprompt reused since hsince => ?_,
    fun request hreq hprompt reused prior token after hsince => ?_⟩
  · have hin := hkeys _ (Dict.mem_keys.mpr ⟨seq, hseq⟩)
    rw [(hacc request.id).resolve_right fun hno => hno.1 hin] at hreq
    exact hactive hi request seq hseq hreq hprompt
  · have hin' := hkeys _ hin
    rw [(hacc request.id).resolve_right fun hno => hno.1 hin'] at hreq
    rw [hlog, since_append (ha _)] at hsince
    obtain ⟨old, hold, rfl⟩ := hsince
    rw [decodes_append, hd, Nat.add_zero, owed_append hlog]
    exact (h.spent request hin' hreq hprompt reused old hold).trans (Nat.le_add_right _ _)
  · rw [hlog, since_append (ha _)] at hsince
    obtain ⟨old, hold, hsplit⟩ := hsince
    have hreq' : s.accepted.get? request.id = some request := by
      rw [← hreq]
      refine ((hacc request.id).resolve_right fun hno => ?_).symm
      obtain ⟨seqId, hmem⟩ := hold.admissions
      rw [hno.2] at hmem
      simp at hmem
    rcases split_at hsplit.symm with ⟨rest, rfl⟩ | ⟨later, rfl, hev⟩
    · exact h.sampled request hreq' hprompt reused prior token rest hold
    · have hle : (sampledFor events request.id).length ≤ 1 := by
        rcases hsampled request with hnone | ⟨hone, -⟩
        · simp [hnone]
        · exact hone.le
      obtain ⟨hnone, hone⟩ := sampled_single hev hle
      have hdue := ((hsampled request).resolve_left fun hnil => by simp [hnil] at hone).2
      rw [hev, decodes_append] at hd
      rw [decodes_append, (Nat.add_eq_zero_iff.mp hd).1, Nat.add_zero, sampledFor, view_append,
        ← sampledFor, ← sampledFor, hnone, List.append_nil, ← hp.whole _ _ _ hold]
      exact hdue hreq' hprompt reused old hold

/-- What an admission adds to the log, and what the log holds since. -/
theorem admitted_log {seqId : SeqId} {phase : Phase} (hnone : admissions s.log request.id = []) :
    ∃ events, (admittedState env s request seqId phase).log = s.log ++ events ∧
      decodes events = 0 ∧ (∀ j, sampledFor events j = []) ∧
      (∀ j, request.id ≠ j → admissions events j = []) ∧
      ∀ reused since, Since (admittedState env s request seqId phase).log request.id reused since →
        decodes since = 0 ∧ ∀ j, sampledFor since j = [] := by
  refine ⟨_, rfl, by simp [asDecoded], fun j => by simp [asSampled], fun j hj => ?_,
    fun reused since hsince => ?_⟩
  · simp [asAdmitted, hj]
  · let after : List Event := spanClosing s.tracer request.id .queueWait ++
      [.spanStarted request.id .generation]
    have hlog : (admittedState env s request seqId phase).log =
        (s.log ++ lookups s request seqId) ++
          .admitted request.id seqId (claimPrefix s request seqId).1 :: after := by
      simp [admittedState, after]
    rw [hlog] at hsince
    obtain ⟨-, rfl⟩ := since_admitted (by simp [hnone]) (by simp [after, asAdmitted]) hsince
    exact ⟨by simp [after, asDecoded], fun j => by simp [after, asSampled]⟩

theorem Pace.admitted_step (h : Pace env s) (hb : Books env s)
    (hacc : Accounts env s) {seqId : SeqId} {todo : List PendingRequest}
    (hp : s.phase = .admitting (request :: todo))
    (hpool : s.queue.pool.get? request.id = some request)
    (hprogress : Progress env (admittedState env s request seqId (.admitting todo))) :
    Pace env (admittedState env s request seqId (.admitting todo)) := by
  have hin : request.id ∈ s.queue.pool.keys := Dict.mem_keys.mpr ⟨request, hpool⟩
  obtain ⟨hs0, -, -, ha0⟩ := hacc.quiet request.id (hb.apart _ hin) (.inl hin)
  obtain ⟨events, hlog, hd, hsampled, hother, hown⟩ :=
    @admitted_log env s request seqId (.admitting todo) ha0
  have hactive : ∀ j, (admittedState env s request seqId (.admitting todo)).active.get? j =
      if request.id = j then some ⟨seqId,
        request.promptTokens.drop (claimPrefix s request seqId).1,
        (claimPrefix s request seqId).1⟩ else s.active.get? j := fun j => Dict.get?_set ..
  have hnone : sampledFor (admittedState env s request seqId (.admitting todo)).log request.id =
      [] := by
    rw [hlog, sampledFor, view_append, ← sampledFor, ← sampledFor, hs0, hsampled, List.append_nil]
  refine ⟨fun hi other seq hseq hreq hprompt => ?_,
    fun other hkeys hreq hprompt reused since hsince => ?_,
    fun other hreq hprompt reused prior token after hsince => ?_⟩
  · have hreq' : s.accepted.get? other.id = some other := hreq
    by_cases hid : request.id = other.id
    · rw [hid] at hnone
      refine ⟨fun hnil reused since hsince => ?_, fun _ hsome => absurd hnone hsome⟩
      rw [owed, hnone]
      exact (hprogress.prefill hi other seq hseq hreq hprompt).through reused since hsince hnone hnil
    · rw [hactive, if_neg hid] at hseq
      exact (h.active (by rw [hp]; rfl) other seq hseq hreq' hprompt).append hlog (hother _ hid) hd
        (hsampled _)
  · by_cases hid : request.id = other.id
    · rw [← hid] at hsince
      rw [(hown _ _ hsince).1]
      exact Nat.zero_le _
    · have hold : other.id ∈ s.active.keys := by
        have hset : other.id ∈ (s.active.set request.id _).keys := hkeys
        exact (Dict.mem_keys_set.mp hset).resolve_left fun he => hid he.symm
      rw [hlog, since_append (hother _ hid)] at hsince
      obtain ⟨old, hold', rfl⟩ := hsince
      rw [decodes_append, hd, owed_append hlog, hsampled]
      exact h.spent other hold hreq hprompt reused old hold'
  · by_cases hid : request.id = other.id
    · rw [← hid] at hsince
      have hno := (hown _ _ hsince).2 request.id
      simp [asSampled] at hno
    · rw [hlog, since_append (hother _ hid)] at hsince
      obtain ⟨old, hold, hsplit⟩ := hsince
      rcases split_at hsplit.symm with ⟨rest, rfl⟩ | ⟨later, -, hev⟩
      · exact h.sampled other hreq hprompt reused prior token rest hold
      · have hno := hsampled other.id
        rw [hev] at hno
        simp [asSampled] at hno

/-- A decode takes all that a generating sequence has pending. -/
theorem Pace.decoded_step (h : Pace env s) (hr : Reachable (step env) anything (start env) s)
    (hr' : Reachable (step env) anything (start env) s')
    (hcap : env.totalTokens ≤ env.batchCapacity) (hchunk : 1 ≤ env.chunkSize)
    {prepared : PreparedBatch} (hp : s.phase = .decoding prepared)
    (hactive : ∀ id, s'.active.get? id = (s.active.get? id).map (consume prepared))
    (hacc' : s'.accepted = s.accepted) (hi' : s'.phase.intact = true)
    (hlog : s'.log = s.log ++ [.decoded]) : Pace env s' := by
  obtain ⟨hb, hs⟩ := reachable_books hr
  have hprep := hs.decoding hp
  have hprogress := reachable_progress hr hcap hchunk
  have howed : ∀ request reused, owed env s' request reused = owed env s request reused :=
    fun _ _ => owed_append hlog _
  have hsame : ∀ id, sampledFor s'.log id = sampledFor s.log id := by
    intro id
    rw [hlog, sampledFor, view_append]
    exact List.append_nil _
  have hback : ∀ id reused since, Since s'.log id reused since →
      ∃ old, Since s.log id reused old ∧ since = old ++ [.decoded] := by
    intro id reused since hsince
    rwa [hlog, since_append rfl] at hsince
  have hne : ∀ request seq, s.active.get? request.id = some seq →
      s.accepted.get? request.id = some request → request.promptTokens ≠ [] →
      seq.pendingTokens ≠ [] := by
    intro request seq hseq hreq hprompt
    refine (hprogress.prefill (by rw [hp]; rfl) request seq hseq hreq hprompt).fed.resolve_right ?_
    simp [hp, Phase.undelivered]
  -- one decode more than before, and one decode fewer to go
  have hleft : ∀ request seq, s.active.get? request.id = some seq →
      s.accepted.get? request.id = some request → request.promptTokens ≠ [] →
      ∀ reused old, Since s.log request.id reused old →
        decodes old + 1 ≤ owed env s request reused := by
    intro request seq hseq hreq hprompt reused old hold
    have hfed := hne request seq hseq hreq hprompt
    by_cases hsome : sampledFor s.log request.id = []
    · have hpart := (hprogress.prefill (by rw [hp]; rfl) request seq hseq hreq hprompt).partway
        reused old hold hsome hfed
      have hprefix := prompt_left (reachable_accounts hr) hb (reachable_measured hr) hseq hreq hsome
      rw [owed, hsome]
      exact (prefillDecodes_eq hchunk hfed hprefix hpart).1
    · exact (((h.active (by rw [hp]; rfl) request seq hseq hreq hprompt).fed hfed hsome).2
        reused old hold).le
  refine ⟨fun _ request seq' hseq' hreq hprompt => ?_,
    fun request hin hreq hprompt reused since hsince => ?_,
    fun request hreq hprompt reused prior token after hsince => ?_⟩
  · rw [hactive, Option.map_eq_some_iff] at hseq'
    obtain ⟨seq, hseq, rfl⟩ := hseq'
    have hseq' : s'.active.get? request.id = some (consume prepared seq) := by rw [hactive, hseq]; rfl
    have hreq' := hreq
    rw [hacc'] at hreq
    have hfed := hne request seq hseq hreq hprompt
    have hpaced := h.active (by rw [hp]; rfl) request seq hseq hreq hprompt
    refine ⟨fun hnil reused since hsince => ?_, fun hne' hsome => ?_⟩
    · by_cases hsome : sampledFor s.log request.id = []
      · rw [owed, hsame, hsome]
        exact ((reachable_progress hr' hcap hchunk).prefill hi' request _ hseq' hreq' hprompt).through
          reused since hsince ((hsame _).trans hsome) hnil
      · obtain ⟨old, hold, rfl⟩ := hback _ _ _ hsince
        rw [decodes_append, howed]
        exact (hpaced.fed hfed hsome).2 reused old hold
    · rw [hsame] at hsome
      have hone := (hpaced.fed hfed hsome).1
      refine absurd ?_ hne'
      rw [consume, List.drop_eq_nil_iff, rowCount_full hr hcap hseq hprep, hone]
      omega
  · obtain ⟨seq', hseq'⟩ := Dict.mem_keys.mp hin
    rw [hactive, Option.map_eq_some_iff] at hseq'
    obtain ⟨seq, hseq, -⟩ := hseq'
    rw [hacc'] at hreq
    obtain ⟨old, hold, rfl⟩ := hback _ _ _ hsince
    rw [decodes_append, howed]
    exact hleft request seq hseq hreq hprompt reused old hold
  · rw [hacc'] at hreq
    obtain ⟨old, hold, hsplit⟩ := hback _ _ _ hsince
    rcases split_at hsplit.symm with ⟨rest, rfl⟩ | ⟨later, -, hev⟩
    · exact h.sampled request hreq hprompt reused prior token rest hold
    · cases later <;> simp at hev

theorem Pace.retired_step (h : Pace env s) (hp : Progress env s) {id : RequestId}
    (hactive : s'.active = s.active.erase id) (hacc : s'.accepted = s.accepted)
    (hlog : s'.log = s.log ++ events) (hd : decodes events = 0)
    (hadm : ∀ j, admissions events j = []) (hother : ∀ j, j ≠ id → sampledFor events j = [])
    (hown : ∀ request, request.id = id → sampledFor events id = [] ∨
      (sampledFor events id).length = 1 ∧
        (s.accepted.get? request.id = some request → request.promptTokens ≠ [] →
          ∀ reused since, Since s.log request.id reused since →
            decodes since = owed env s request reused))
    (hphase : s'.phase.intact = true → s.phase.intact = true) : Pace env s' := by
  refine h.moved hp hlog hd hadm (fun _ => .inl (by rw [hacc])) (fun j hj => ?_) (fun request => ?_)
    fun hi request seq hseq hreq hprompt => ?_
  · rw [hactive, Dict.mem_keys_erase] at hj
    exact hj.2
  · by_cases hid : request.id = id
    · have howned := hown request hid
      rwa [← hid] at howned
    · exact .inl (hother _ hid)
  · rw [hactive, Dict.get?_erase] at hseq
    split_ifs at hseq with hid
    exact (h.active (hphase hi) request seq hseq hreq hprompt).append hlog (hadm _) hd
      (hother _ (Ne.symm hid))

/-- A token whose turn it is to be distributed is on schedule. -/
theorem Pace.due (h : Pace env s) (hc : Contents s) (hs : Standing env s)
    {idOf : Dict SeqId RequestId} {now : Time} {seqId : SeqId} {token : Token}
    {todo : List (SeqId × Token)}
    (hp : s.phase = .distributing idOf now ((seqId, token) :: todo))
    (hid : idOf.get? seqId = some request.id) (hseq : s.active.get? request.id = some seq)
    (hreq : s.accepted.get? request.id = some request) (hprompt : request.promptTokens ≠ []) :
    ∀ reused since, Since s.log request.id reused since →
      decodes since = owed env s request reused := by
  have hslot := (hs.tail_distributing hp hid hseq).1
  have hempty := hc.drained (seqId, token) (by simp [hp, Phase.undelivered]) _ seq hseq hslot
  exact (h.active (by rw [hp]; rfl) request seq hseq hreq hprompt).due hempty

theorem Pace.pushed_step (h : Pace env s) (hp' : Progress env s) (hs : Standing env s)
    (hc : Contents s) {idOf : Dict SeqId RequestId} {now : Time} {seqId : SeqId} {token : Token}
    {todo : List (SeqId × Token)} {id : RequestId} {state : RequestState}
    (hp : s.phase = .distributing idOf now ((seqId, token) :: todo))
    (hid : idOf.get? seqId = some id) (hseq : s.active.get? id = some seq) :
    Pace env (pushedState env s id seq state now token (.distributing idOf now todo)) := by
  obtain ⟨events, hlog, hd, hadm, hsampled⟩ : ∃ events,
      (pushedState env s id seq state now token (.distributing idOf now todo)).log =
        s.log ++ events ∧ decodes events = 0 ∧ (∀ j, admissions events j = []) ∧
      ∀ j, sampledFor events j = if id = j then [token] else [] := by
    refine ⟨_, rfl, by simp [asDecoded], fun j => by simp [asAdmitted], fun j => ?_⟩
    by_cases hj : id = j <;> simp [asSampled, hj]
  have hactive : ∀ j, (pushedState env s id seq state now token
      (.distributing idOf now todo)).active.get? j =
      if id = j then some { seq with pendingTokens := [token] } else s.active.get? j :=
    fun j => Dict.get?_set ..
  have hin : id ∈ s.active.keys := Dict.mem_keys.mpr ⟨seq, hseq⟩
  refine h.moved hp' hlog hd hadm (fun _ => .inl rfl) (fun j hj => ?_) (fun request => ?_)
    fun _ request other hother hreq hprompt => ?_
  · have hkeys : j ∈ (s.active.set id _).keys := hj
    rwa [Dict.keys_set_of_mem hin] at hkeys
  · by_cases hj : id = request.id
    · subst hj
      exact .inr ⟨by rw [hsampled, if_pos rfl]; rfl, h.due hc hs hp hid hseq⟩
    · exact .inl (by rw [hsampled, if_neg hj])
  · rw [hactive] at hother
    split_ifs at hother with hj
    · obtain rfl := Option.some.inj hother
      subst hj
      refine ⟨fun hnil => by simp at hnil, fun _ _ => ⟨rfl, fun reused since hsince => ?_⟩⟩
      rw [hlog, since_append (hadm _)] at hsince
      obtain ⟨old, hold, rfl⟩ := hsince
      rw [decodes_append, hd, owed_append hlog, hsampled, if_pos rfl,
        h.due hc hs hp hid hseq hreq hprompt reused old hold]
      rfl
    · exact (h.active (by rw [hp]; rfl) request other hother hreq hprompt).append hlog (hadm _) hd
        (by rw [hsampled, if_neg hj])

theorem Pace.frame (h : Pace env s) (hp : Progress env s) (hlog : s'.log = s.log ++ events)
    (hd : decodes events = 0)
    (hev : ∀ id, admissions events id = [] ∧ sampledFor events id = []) (ha : s'.active = s.active)
    (hacc : ∀ id, s'.accepted.get? id = s.accepted.get? id ∨
      id ∉ s.active.keys ∧ admissions s.log id = [])
    (hphase : s'.phase.intact = true → s.phase.intact = true ∨ s.active.keys = []) :
    Pace env s' := by
  refine h.moved hp hlog hd (fun id => (hev id).1) hacc (fun id hid => ha ▸ hid)
    (fun request => .inl (hev _).2) fun hi request seq hseq hreq hprompt => ?_
  rw [ha] at hseq
  rcases hphase hi with hi' | hnil
  · exact (h.active hi' request seq hseq hreq hprompt).append hlog (hev _).1 hd (hev _).2
  · have hin := Dict.mem_keys.mpr ⟨seq, hseq⟩
    rw [hnil] at hin
    simp at hin

theorem Pace.transition (h : Pace env s) (hr : Reachable (step env) anything (start env) s)
    (hr' : Reachable (step env) anything (start env) s')
    (hcap : env.totalTokens ≤ env.batchCapacity) (hchunk : 1 ≤ env.chunkSize) {l : Label}
    (ht : Transition env s l s') : Pace env s' := by
  obtain ⟨hb, hs⟩ := reachable_books hr
  have hacc := reachable_accounts hr
  have hc := reachable_contents hr
  have hp := reachable_progress hr hcap hchunk
  have hnil : s.log = s.log ++ [] := (List.append_nil _).symm
  cases ht with
  | @accepted id body kvCache hw hnew hroom hres =>
    obtain ⟨-, hactive, haccepted, -⟩ := hb.unissued hnew
    refine h.frame hp rfl (by simp [asDecoded]) (fun id => by simp [asAdmitted, asSampled]) rfl
      (fun j => ?_) .inl
    rw [Dict.get?_set]
    split_ifs with hj
    · subst hj
      exact .inr ⟨hactive, (hacc.quiet id hactive (.inr haccepted)).2.2.2⟩
    · exact .inl rfl
  | setPolicy | cancel =>
    exact h.frame hp hnil rfl (fun _ => ⟨rfl, rfl⟩) rfl (fun _ => .inl rfl) .inl
  | rejected | leave =>
    exact h.frame hp rfl (by simp [asDecoded]) (fun id => by simp [asAdmitted, asSampled]) rfl
      (fun _ => .inl rfl) .inl
  | receive hw hr =>
    refine h.frame hp rfl ?_ (fun id => ?_) rfl (fun _ => .inl rfl) .inl
    · split_ifs <;> simp [asDecoded]
    · split_ifs <;> simp [asAdmitted, asSampled]
  | beginExpiry hph | wake hph | keep hph | rest hph | full hph | select hph | selectRaised hph
  | decodeFailed hph =>
    exact h.frame hp hnil rfl (fun _ => ⟨rfl, rfl⟩) rfl (fun _ => .inl rfl)
      fun _ => .inl (by rw [hph]; rfl)
  | expire hph | buildNothing hph | build hph =>
    exact h.frame hp rfl (by simp [asDecoded]) (fun id => by simp [asAdmitted, asSampled]) rfl
      (fun _ => .inl rfl) fun _ => .inl (by rw [hph]; rfl)
  | admitted hph hpool hslot =>
    exact h.admitted_step hb hacc hph hpool (reachable_progress hr' hcap hchunk)
  | decoded hph hkeys hactive => exact h.decoded_step hr hr' hcap hchunk hph hactive rfl rfl rfl
  | finishSampled hph hid hseq =>
    refine h.retired_step hp rfl rfl rfl (by simp [asDecoded]) (fun j => by simp [asAdmitted])
      (fun j hj => by simp [asSampled, Ne.symm hj]) ?_ fun _ => by rw [hph]; rfl
    rintro request rfl
    exact .inr ⟨by simp [asSampled], h.due hc hs hph hid hseq⟩
  | dieSampled hph hid hseq =>
    refine h.retired_step hp rfl rfl rfl (by simp [asDecoded]) (fun j => by simp [asAdmitted])
      (fun j hj => by simp [asSampled, Ne.symm hj]) ?_
      fun hi => by simp [diedState, Phase.intact] at hi
    rintro request rfl
    exact .inr ⟨by simp [asSampled], h.due hc hs hph hid hseq⟩
  | push hph hid hseq => exact h.pushed_step hp hs hc hph hid hseq
  | finishFailed hph =>
    exact h.retired_step hp rfl rfl rfl (by simp [asDecoded]) (fun j => by simp [asAdmitted])
      (fun j hj => by simp [asSampled]) (fun _ _ => .inl (by simp [asSampled]))
      fun hi => by simp [finishedState, Phase.intact] at hi
  | dieFailed hph =>
    exact h.retired_step hp rfl rfl rfl (by simp [asDecoded]) (fun j => by simp [asAdmitted])
      (fun j hj => by simp [asSampled]) (fun _ _ => .inl (by simp [asSampled]))
      fun hi => by simp [diedState, Phase.intact] at hi
  | endTick hph =>
    refine h.frame hp hnil rfl (fun _ => ⟨rfl, rfl⟩) rfl (fun _ => .inl rfl) fun _ => ?_
    rcases hph with ⟨idOf, now, hph⟩ | hph
    · exact .inl (by rw [hph]; rfl)
    · exact .inr (hs.failed_all hph)

theorem reachable_pace (hr : Reachable (step env) anything (start env) s)
    (hcap : env.totalTokens ≤ env.batchCapacity) (hchunk : 1 ≤ env.chunkSize) : Pace env s := by
  refine hr.invariant (pace_start env) fun s l s' hr hi _ hs => ?_
  exact hi.transition hr (hr.next trivial hs) hcap hchunk (reachable_transition hr hs)

end Paced

/-- A request is sampled its k-th token by the k-th decode from the end of its prefill on, whoever
shares the batches with it, and so holds its slot for no more decodes than its prefill and its
budget come to. -/
theorem tokens_paced (env : Env) (hchunk : 1 ≤ env.chunkSize)
    (hcap : env.totalTokens ≤ env.batchCapacity) (s : State)
    (h : Reachable (step env) anything (start env) s) (id : RequestId) (request : PendingRequest)
    (hr : s.accepted.get? id = some request) (hprompt : request.promptTokens ≠ []) :
    (∀ reused prior token after, Since s.log id reused (prior ++ .sampled id token :: after) →
      decodes prior = prefillDecodes env request reused + (sampledFor prior id).length) ∧
    (id ∈ s.active.keys → ∀ reused since, Since s.log id reused since →
      decodes since < prefillDecodes env request reused + request.maxTokens) := by
  obtain ⟨hb, -⟩ := reachable_books h
  obtain rfl := hb.named id request hr
  have hpace := reachable_pace h hcap hchunk
  refine ⟨hpace.sampled request hr hprompt, fun hin reused since hsince => ?_⟩
  obtain ⟨state, hstate⟩ := Dict.mem_keys.mp ((hb.keys_agree _).mpr hin)
  have hacc := ((reachable_accounts h).running _ state request hstate hr).1
  have hspent := hpace.spent request hin hr hprompt reused since hsince
  rw [owed, hacc.same, hacc.emitted] at hspent
  have hleft := hacc.positive
  have hremaining := hacc.remaining
  omega

/-- The second of the two tokens comes with the third decode: the prompt takes two. -/
theorem tokens_paced_demo : ∃ s, run (step demo) (start demo) demoRun = some s ∧
    ∀ reused prior token after, Since s.log 0 reused (prior ++ .sampled 0 token :: after) →
      decodes prior = prefillDecodes demo (newRequest demo (start demo) 0 demoBody) reused +
        (sampledFor prior 0).length := by
  obtain ⟨s, hs, hreq, -⟩ := demoRun_ends
  exact ⟨s, hs, (tokens_paced demo (by decide) (by decide) s (Reachable.init.run hs) 0 _ hreq
    (by decide)).1⟩

end TinyServe.BatchLoop
