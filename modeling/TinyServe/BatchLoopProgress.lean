import TinyServe.BatchLoopBudget
import Mathlib.Algebra.Order.BigOperators.Group.List
import Mathlib.Algebra.Order.Ring.Nat

set_option autoImplicit false

/-! Every active sequence advances on every tick, and its prefill takes the ticks its chunks need. -/
namespace TinyServe.BatchLoop
open OrderedDict SequenceMemory BatchBuilder Scheduler LlamaRuntime Runs

section Splits

def asDecoded : Event → Option Unit
  | .decoded => some ()
  | _ => none

/-- The decodes that succeeded, in a part of the log. -/
abbrev decodes (log : List Event) : ℕ := (view asDecoded log).length

@[simp] theorem quiet_asDecoded : Quiet asDecoded := by constructor <;> simp [asDecoded]

theorem decodes_append (log log' : List Event) :
    decodes (log ++ log') = decodes log + decodes log' := by
  rw [decodes, view_append, List.length_append]

/-- `since` is the log after an admission of the request that granted it `reused` tokens. -/
def Since (log : List Event) (id : RequestId) (reused : ℕ) (since : List Event) : Prop :=
  ∃ before seqId, log = before ++ .admitted id seqId reused :: since

variable {log events since : List Event} {id : RequestId} {reused : ℕ}

theorem Since.admissions (h : Since log id reused since) :
    ∃ seqId, (seqId, reused) ∈ admissions log id := by
  obtain ⟨before, seqId, rfl⟩ := h
  exact ⟨seqId, mem_view.mpr ⟨.admitted id seqId reused, by simp, by simp [asAdmitted]⟩⟩

/-- Later events that admit no such request lengthen the log since its admission. -/
theorem since_append (he : admissions events id = []) :
    Since (log ++ events) id reused since ↔
      ∃ old, Since log id reused old ∧ since = old ++ events := by
  constructor
  · rintro ⟨before, seqId, h⟩
    rcases List.append_eq_append_iff.mp h with ⟨later, -, hev⟩ | ⟨later, hlog, hev⟩
    · rw [hev] at he
      simp [asAdmitted] at he
    · cases later with
      | nil =>
        rw [List.nil_append] at hev
        rw [← hev] at he
        simp [asAdmitted] at he
      | cons e later =>
        obtain ⟨rfl, rfl⟩ := List.cons.inj hev
        exact ⟨later, ⟨before, seqId, hlog⟩, rfl⟩
  · rintro ⟨old, ⟨before, seqId, rfl⟩, rfl⟩
    exact ⟨before, seqId, by simp⟩

/-- The log since an admission that is the only one. -/
theorem since_admitted {seqId : SeqId} {n : ℕ} (hl : admissions log id = [])
    (he : admissions events id = [])
    (h : Since (log ++ .admitted id seqId n :: events) id reused since) :
    reused = n ∧ since = events := by
  have happ : log ++ .admitted id seqId n :: events =
      (log ++ [.admitted id seqId n]) ++ events := by simp
  rw [happ, since_append he] at h
  obtain ⟨old, ⟨before, seqId', hold⟩, rfl⟩ := h
  rcases List.eq_nil_or_concat' old with rfl | ⟨init, last, rfl⟩
  · obtain ⟨-, hlast⟩ := List.append_inj' hold rfl
    simp only [List.cons.injEq, Event.admitted.injEq, and_true, true_and] at hlast
    exact ⟨hlast.2.symm, List.nil_append _⟩
  · have hsame : log ++ [.admitted id seqId n] =
        (before ++ .admitted id seqId' reused :: init) ++ [last] := hold.trans (by simp)
    rw [(List.append_inj' hsame rfl).1] at hl
    simp [asAdmitted] at hl

/-- The first token sampled since an admission is either already on record or among the later
events. -/
theorem split_sampled {first after : List Event} {token : Token}
    (h : since ++ events = first ++ .sampled id token :: after)
    (hf : sampledFor first id = []) :
    (∃ rest, since = first ++ .sampled id token :: rest) ∨
      sampledFor since id = [] ∧ ∃ later, first = since ++ later ∧
        events = later ++ .sampled id token :: after := by
  rcases List.append_eq_append_iff.mp h with ⟨later, hfirst, hev⟩ | ⟨later, hsince, hev⟩
  · refine .inr ⟨?_, later, hfirst, hev⟩
    rw [hfirst, sampledFor, view_append, List.append_eq_nil_iff] at hf
    exact hf.1
  · cases later with
    | nil =>
      rw [List.append_nil] at hsince
      rw [List.nil_append] at hev
      exact .inr ⟨hsince ▸ hf, [], by rw [hsince, List.append_nil], hev.symm⟩
    | cons e later =>
      obtain ⟨rfl, -⟩ := List.cons.inj hev
      exact .inl ⟨later, hsince⟩

end Splits

section Rows
variable {env : Env} {s : State} {id : RequestId} {seq : ActiveSequence} {prepared : PreparedBatch}

/-- A sequence is sampled in a batch that takes all of what it has pending. -/
theorem Books.sampled_iff (hb : Books env s) (hseq : s.active.get? id = some seq)
    (hp : prepared = buildBatch s.active.values env.batchCapacity env.chunkSize)
    (hne : seq.pendingTokens ≠ []) (sample : ℕ → Token) :
    seq.seqId ∈ (sampled sample prepared).keys ↔
      prepared.rowCount seq.seqId = seq.pendingTokens.length := by
  constructor
  · intro hm
    obtain ⟨token, htoken⟩ := Dict.mem_keys.mp hm
    obtain ⟨i, row, hrow, hl, hslot, -⟩ := sampled_some htoken
    exact hb.sampled_last hseq hp (List.mem_of_getElem? hrow) hslot hl
  · intro hall
    obtain ⟨take, -, hrows, hcount⟩ := hb.rows_of_active hseq hp
    obtain ⟨row, hrow, hslot, hl⟩ := rowsOf_last hne
    rw [← hall, hcount, ← hrows] at hrow
    exact hslot ▸ sampled_mem (List.mem_filter.mp hrow).1 hl

/-- The capacity never binds. -/
theorem rowCount_full {allowed : State → Label → Prop}
    (h : Reachable (step env) allowed (start env) s) (hcap : env.totalTokens ≤ env.batchCapacity)
    (hseq : s.active.get? id = some seq)
    (hp : prepared = buildBatch s.active.values env.batchCapacity env.chunkSize) :
    prepared.rowCount seq.seqId = min env.chunkSize seq.pendingTokens.length := by
  have hroom : (s.active.values.map fun seq => seq.pendingTokens.length).sum ≤
      env.batchCapacity := by
    refine le_trans ?_ ((demand_fits h).trans hcap)
    exact List.sum_le_sum fun seq _ => Nat.le_add_left _ _
  rw [rowCount_eq_length, hp, buildBatch_filter_full (reachable_books h).1.seqIds_nodup hroom
    (Dict.mem_values.mpr ⟨id, hseq⟩), rowsOf_length]
  omega

end Rows

section Prefills
variable {env : Env} {s s' : State}

/-- The decodes it takes to prefill what was not reused of a prompt. -/
def prefillDecodes (env : Env) (request : PendingRequest) (reused : ℕ) : ℕ :=
  (request.promptTokens.length - reused + env.chunkSize - 1) / env.chunkSize

theorem ceil_add (k c l : ℕ) (hk : 1 ≤ k) : (c * k + l + k - 1) / k = c + (l + k - 1) / k := by
  have hsplit : c * k + l + k - 1 = l + k - 1 + c * k := by omega
  rw [hsplit, Nat.add_mul_div_right _ _ hk, Nat.add_comm]

theorem ceil_eq_one_iff {k l : ℕ} (hl : 1 ≤ l) (hk : 1 ≤ k) : (l + k - 1) / k = 1 ↔ l ≤ k := by
  rw [Nat.div_eq_iff hk]
  omega

theorem one_le_ceil {k l : ℕ} (hl : 1 ≤ l) (hk : 1 ≤ k) : 1 ≤ (l + k - 1) / k := by
  rw [Nat.le_div_iff_mul_le hk]
  omega

/-- How far a running request is that nothing was sampled for yet. -/
structure Prefill (env : Env) (s : State) (request : PendingRequest) (seq : ActiveSequence) :
    Prop where
  fed : seq.pendingTokens ≠ [] ∨ seq.seqId ∈ s.phase.undelivered.map Prod.fst
  partway : ∀ reused since, Since s.log request.id reused since →
    sampledFor s.log request.id = [] → seq.pendingTokens ≠ [] →
    seq.nPast = reused + decodes since * env.chunkSize
  through : ∀ reused since, Since s.log request.id reused since →
    sampledFor s.log request.id = [] → seq.pendingTokens = [] →
    decodes since = prefillDecodes env request reused

structure Progress (env : Env) (s : State) : Prop where
  prefill : s.phase.intact = true → ∀ request seq, s.active.get? request.id = some seq →
    s.accepted.get? request.id = some request → request.promptTokens ≠ [] →
    Prefill env s request seq
  whole : ∀ id reused since, Since s.log id reused since →
    sampledFor s.log id = sampledFor since id
  first : ∀ request, s.accepted.get? request.id = some request → request.promptTokens ≠ [] →
    ∀ reused prior token after,
      Since s.log request.id reused (prior ++ .sampled request.id token :: after) →
      sampledFor prior request.id = [] → decodes prior = prefillDecodes env request reused
  kept : ∀ id, admissions s.log id ≠ [] → sampledFor s.log id = [] →
    id ∈ s.active.keys ∨ some .decodeError ∈ finishes s.log id

theorem progress_start (env : Env) : Progress env (start env) where
  prefill _ _ _ h := by simp [start] at h
  whole _ _ _ h := by
    obtain ⟨before, seqId, h⟩ := h
    simp [start] at h
  first _ h := by simp [start] at h
  kept _ h := absurd rfl h

variable {events : List Event} {request : PendingRequest} {seq : ActiveSequence}

theorem Prefill.append (h : Prefill env s request seq) (hlog : s'.log = s.log ++ events)
    (ha : admissions events request.id = []) (hd : decodes events = 0)
    (hdue : seq.seqId ∈ s.phase.undelivered.map Prod.fst →
      seq.seqId ∈ s'.phase.undelivered.map Prod.fst) : Prefill env s' request seq := by
  have hback : ∀ reused since, Since s'.log request.id reused since →
      sampledFor s'.log request.id = [] → ∃ old, Since s.log request.id reused old ∧
        sampledFor s.log request.id = [] ∧ decodes since = decodes old := by
    intro reused since hsince hnone
    rw [hlog, since_append ha] at hsince
    obtain ⟨old, hold, rfl⟩ := hsince
    rw [hlog, sampledFor, view_append, List.append_eq_nil_iff] at hnone
    exact ⟨old, hold, hnone.1, by rw [decodes_append, hd, Nat.add_zero]⟩
  refine ⟨h.fed.imp_right hdue, fun reused since hsince hnone hne => ?_,
    fun reused since hsince hnone hnil => ?_⟩
  · obtain ⟨old, hold, hnone', hsame⟩ := hback reused since hsince hnone
    rw [hsame]
    exact h.partway reused old hold hnone' hne
  · obtain ⟨old, hold, hnone', hsame⟩ := hback reused since hsince hnone
    rw [hsame]
    exact h.through reused old hold hnone' hnil

theorem Progress.whole_append (h : Progress env s) {id : RequestId}
    (ha : admissions events id = []) {reused : ℕ} {since : List Event}
    (hsince : Since (s.log ++ events) id reused since) :
    sampledFor (s.log ++ events) id = sampledFor since id := by
  obtain ⟨old, hold, rfl⟩ := (since_append ha).mp hsince
  rw [sampledFor, sampledFor, view_append, view_append, ← sampledFor, h.whole id reused old hold]

/-- The first sample of a request stands where it stood, or is new and the prefill just ended. -/
theorem Progress.first_append (h : Progress env s) (hd : decodes events = 0)
    (hreq : s.accepted.get? request.id = some request) (hprompt : request.promptTokens ≠ [])
    (ha : admissions events request.id = [])
    (hnew : sampledFor events request.id = [] ∨
      ∀ reused since, Since s.log request.id reused since → sampledFor s.log request.id = [] →
        decodes since = prefillDecodes env request reused)
    {reused : ℕ} {prior after : List Event} {token : Token}
    (hsince : Since (s.log ++ events) request.id reused
      (prior ++ .sampled request.id token :: after))
    (hprior : sampledFor prior request.id = []) :
    decodes prior = prefillDecodes env request reused := by
  obtain ⟨old, hold, hsplit⟩ := (since_append ha).mp hsince
  rcases split_sampled hsplit.symm hprior with ⟨rest, rfl⟩ | ⟨hnone, later, rfl, hev⟩
  · exact h.first request hreq hprompt reused prior token rest hold hprior
  · have hlater : decodes later = 0 := by
      rw [hev, decodes_append] at hd
      exact (Nat.add_eq_zero_iff.mp hd).1
    rw [decodes_append, hlater, Nat.add_zero]
    rcases hnew with hnil | hnew
    · rw [hev] at hnil
      simp [asSampled] at hnil
    · exact hnew reused old hold ((h.whole _ _ _ hold).trans hnone)

theorem Progress.kept_append (h : Progress env s) {id : RequestId}
    (ha : admissions events id = []) (hs : s'.log = s.log ++ events)
    (hactive : sampledFor events id = [] → id ∈ s.active.keys →
      id ∈ s'.active.keys ∨ some .decodeError ∈ finishes events id)
    (hadm : admissions s'.log id ≠ []) (hnone : sampledFor s'.log id = []) :
    id ∈ s'.active.keys ∨ some .decodeError ∈ finishes s'.log id := by
  rw [hs, admissions, view_append] at hadm
  rw [hs, sampledFor, view_append, List.append_eq_nil_iff] at hnone
  have hadm' : admissions s.log id ≠ [] := fun he => hadm (by
    rw [List.append_eq_nil_iff]
    exact ⟨he, ha⟩)
  rw [hs, finishes, view_append, List.mem_append]
  rcases h.kept id hadm' hnone.1 with hin | hlost
  · exact (hactive hnone.2 hin).imp_right .inr
  · exact .inr (.inl hlost)

/-- Steps that admit, decode and sample nothing leave the progress alone. -/
theorem Progress.frame (h : Progress env s) (hlog : s'.log = s.log ++ events)
    (hev : ∀ id, admissions events id = [] ∧ sampledFor events id = [])
    (hd : decodes events = 0) (ha : s'.active = s.active)
    (hacc : ∀ id, s'.accepted.get? id = s.accepted.get? id ∨
      id ∉ s.active.keys ∧ admissions s.log id = [])
    (hphase : s'.phase.intact = true →
      s.phase.intact = true ∧ s.phase.undelivered = [] ∨ s.active.keys = []) :
    Progress env s' := by
  refine ⟨fun hi request seq hseq hreq hprompt => ?_, fun id reused since hsince => ?_,
    fun request hreq hprompt reused prior token after hsince hprior => ?_,
    fun id hadm hnone => ?_⟩
  · rw [ha] at hseq
    have hin := Dict.mem_keys.mpr ⟨seq, hseq⟩
    have hreq' : s.accepted.get? request.id = some request := by
      rw [← hreq]
      exact ((hacc request.id).resolve_right fun hno => hno.1 hin).symm
    rcases hphase hi with ⟨hs, hdue⟩ | hnil
    · refine (h.prefill hs request seq hseq hreq' hprompt).append hlog (hev _).1 hd ?_
      simp [hdue]
    · rw [hnil] at hin
      simp at hin
  · rw [hlog] at hsince ⊢
    exact h.whole_append (hev id).1 hsince
  · rw [hlog] at hsince
    rcases hacc request.id with hsame | ⟨-, hno⟩
    · exact h.first_append hd (hsame ▸ hreq) hprompt (hev _).1 (.inl (hev _).2) hsince hprior
    · obtain ⟨old, hold, -⟩ := (since_append (hev _).1).mp hsince
      obtain ⟨seqId, hmem⟩ := hold.admissions
      rw [hno] at hmem
      simp at hmem
  · exact h.kept_append (hev id).1 hlog (fun _ hin => .inl (ha ▸ hin)) hadm hnone

theorem Progress.admitted_step (h : Progress env s) (hb : Books env s) (hacc : Accounts env s)
    (hc : Contents s) (ht : TreeMirrors env s) {seqId : SeqId} {todo : List PendingRequest}
    (hp : s.phase = .admitting (request :: todo))
    (hpool : s.queue.pool.get? request.id = some request)
    (hslot : s.freeSlots.getLast? = some seqId) :
    Progress env (admittedState env s request seqId (.admitting todo)) := by
  have hin : request.id ∈ s.queue.pool.keys := Dict.mem_keys.mpr ⟨request, hpool⟩
  obtain ⟨hs0, -, -, ha0⟩ := hacc.quiet request.id (hb.apart _ hin) (.inl hin)
  have hfree : Holds s.memory seqId [] :=
    hc.owned seqId fun id seq hseq => hb.free_ne (List.mem_of_getLast? hslot) hseq
  obtain ⟨-, hreused, -⟩ := hc.claimed hb (by rw [hp]; rfl) ht request hfree
  obtain ⟨before, after, hlog, hbefore, hafter⟩ : ∃ before after,
      (admittedState env s request seqId (.admitting todo)).log = s.log ++ before ++
        .admitted request.id seqId (claimPrefix s request seqId).1 :: after ∧
      (∀ j, admissions before j = [] ∧ sampledFor before j = []) ∧
      (∀ j, admissions after j = [] ∧ sampledFor after j = [] ∧ decodes after = 0) := by
    refine ⟨lookups s request seqId, spanClosing s.tracer request.id .queueWait ++
      [.spanStarted request.id .generation], by simp [admittedState], fun j => ?_, fun j => ?_⟩
    · simp
    · simp [asAdmitted, asSampled, asDecoded]
  obtain ⟨events, hevents, hdec, hother, hsampled⟩ : ∃ events,
      (admittedState env s request seqId (.admitting todo)).log = s.log ++ events ∧
      decodes events = 0 ∧ (∀ j, request.id ≠ j → admissions events j = []) ∧
      ∀ j, sampledFor events j = [] := by
    refine ⟨_, rfl, by simp [asDecoded], fun j hj => ?_, fun j => ?_⟩
    · simp [asAdmitted, hj]
    · simp [asSampled]
  have hown : ∀ {reused since}, Since (admittedState env s request seqId (.admitting todo)).log
      request.id reused since → reused = (claimPrefix s request seqId).1 ∧ since = after := by
    intro reused since hsince
    rw [hlog] at hsince
    refine since_admitted ?_ (hafter _).1 hsince
    rw [admissions, view_append]
    exact List.append_eq_nil_iff.mpr ⟨ha0, (hbefore _).1⟩
  have hactive : ∀ j, (admittedState env s request seqId (.admitting todo)).active.get? j =
      if request.id = j then some ⟨seqId,
        request.promptTokens.drop (claimPrefix s request seqId).1,
        (claimPrefix s request seqId).1⟩ else s.active.get? j := fun j => Dict.get?_set ..
  refine ⟨fun _ other seq hseq hreq hprompt => ?_, fun id reused since hsince => ?_,
    fun other hreq hprompt reused prior token last hsince hprior => ?_, fun id hadm hnone => ?_⟩
  · have hreq' : s.accepted.get? other.id = some other := hreq
    rw [hactive] at hseq
    split_ifs at hseq with hid
    · obtain rfl := Option.some.inj hseq
      have hsame := (hb.queued _ request hpool).2
      rw [hid] at hsame
      obtain rfl := Option.some.inj (hsame.symm.trans hreq')
      have hne : request.promptTokens.drop (claimPrefix s request seqId).1 ≠ [] := by
        intro hnil
        have hpos := List.length_pos_iff.mpr hprompt
        have hle := List.drop_eq_nil_iff.mp hnil
        omega
      refine ⟨.inl hne, fun reused since hsince _ _ => ?_, fun _ _ _ _ hnil => absurd hnil hne⟩
      obtain ⟨rfl, rfl⟩ := hown hsince
      rw [(hafter 0).2.2, Nat.zero_mul, Nat.add_zero]
    · refine (h.prefill (by rw [hp]; rfl) other seq hseq hreq' hprompt).append hevents
        (hother _ hid) hdec ?_
      simp [hp, Phase.undelivered]
  · by_cases hid : request.id = id
    · subst hid
      obtain ⟨rfl, rfl⟩ := hown hsince
      rw [hevents, sampledFor, view_append, ← sampledFor, ← sampledFor, hs0, hsampled,
        (hafter _).2.1, List.append_nil]
    · rw [hevents] at hsince ⊢
      exact h.whole_append (hother id hid) hsince
  · by_cases hid : request.id = other.id
    · rw [← hid] at hsince
      obtain ⟨-, hlast⟩ := hown hsince
      have hnone := (hafter other.id).2.1
      rw [← hlast] at hnone
      simp [asSampled, hid] at hnone
    · rw [hevents] at hsince
      exact h.first_append hdec hreq hprompt (hother _ hid) (.inl (hsampled _)) hsince hprior
  · by_cases hid : request.id = id
    · exact .inl (Dict.mem_keys.mpr ⟨_, by rw [hactive, if_pos hid]⟩)
    · refine h.kept_append (hother id hid) hevents (fun _ hin => .inl ?_) hadm hnone
      obtain ⟨seq, hseq⟩ := Dict.mem_keys.mp hin
      exact Dict.mem_keys.mpr ⟨seq, by rw [hactive, if_neg hid, hseq]⟩

/-- What a sequence that nothing was sampled for has left of its prompt. -/
theorem prompt_left (hacc : Accounts env s) (hb : Books env s) (hm : Measured s)
    (hseq : s.active.get? request.id = some seq)
    (hreq : s.accepted.get? request.id = some request)
    (hnone : sampledFor s.log request.id = []) :
    seq.nPast + seq.pendingTokens.length = request.promptTokens.length := by
  obtain ⟨state, hstate, -⟩ := hb.state_of_seq hseq
  have hsame := (hacc.running _ state request hstate hreq).1.same
  have hlen := hm request seq hseq hreq
  rw [demand, text, ← hsame, hnone, List.append_nil] at hlen
  exact hlen

/-- The chunk that is decoded next is the last of the prefill if it takes all that is pending. -/
theorem prefillDecodes_eq (hchunk : 1 ≤ env.chunkSize) {reused c : ℕ}
    (hne : seq.pendingTokens ≠ [])
    (hleft : seq.nPast + seq.pendingTokens.length = request.promptTokens.length)
    (hpart : seq.nPast = reused + c * env.chunkSize) :
    c + 1 ≤ prefillDecodes env request reused ∧
      (seq.pendingTokens.length ≤ env.chunkSize ↔ c + 1 = prefillDecodes env request reused) := by
  have hpos := List.length_pos_iff.mpr hne
  have hsplit : request.promptTokens.length - reused =
      c * env.chunkSize + seq.pendingTokens.length := by omega
  rw [prefillDecodes, hsplit, ceil_add _ _ _ hchunk, ← ceil_eq_one_iff hpos hchunk]
  have hone := one_le_ceil hpos hchunk
  omega

theorem Progress.decoded_step (h : Progress env s) (hr : Reachable (step env) anything (start env) s)
    (hcap : env.totalTokens ≤ env.batchCapacity) (hchunk : 1 ≤ env.chunkSize)
    {prepared : PreparedBatch} {sample : ℕ → Token} {idOf : Dict SeqId RequestId} {now : Time}
    (hp : s.phase = .decoding prepared)
    (hactive : ∀ id, s'.active.get? id = (s.active.get? id).map (consume prepared))
    (hkeys : s'.active.keys = s.active.keys) (hacc' : s'.accepted = s.accepted)
    (hphase : s'.phase = .distributing idOf now (sampled sample prepared).entries)
    (hlog : s'.log = s.log ++ [.decoded]) : Progress env s' := by
  have hb := (reachable_books hr).1
  have hprep := (reachable_books hr).2.decoding hp
  have hev : ∀ j, admissions [.decoded] j = [] ∧ sampledFor [.decoded] j = [] :=
    fun j => ⟨rfl, rfl⟩
  refine ⟨fun _ request seq' hseq' hreq hprompt => ?_, fun id reused since hsince => ?_,
    fun request hreq hprompt reused prior token after hsince hprior => ?_,
    fun id hadm hnone => ?_⟩
  · rw [hactive, Option.map_eq_some_iff] at hseq'
    obtain ⟨seq, hseq, rfl⟩ := hseq'
    rw [hacc'] at hreq
    have hpre := h.prefill (by rw [hp]; rfl) request seq hseq hreq hprompt
    have hne : seq.pendingTokens ≠ [] := by
      refine hpre.fed.resolve_right ?_
      simp [hp, Phase.undelivered]
    have hcount := rowCount_full hr hcap hseq hprep
    have hnil : (consume prepared seq).pendingTokens = [] ↔
        seq.pendingTokens.length ≤ env.chunkSize := by
      rw [consume, List.drop_eq_nil_iff, hcount]
      omega
    have hback : ∀ reused since, Since s'.log request.id reused since →
        sampledFor s'.log request.id = [] → ∃ old, Since s.log request.id reused old ∧
          sampledFor s.log request.id = [] ∧ decodes since = decodes old + 1 := by
      intro reused since hsince hnone
      rw [hlog, since_append (hev _).1] at hsince
      obtain ⟨old, hold, rfl⟩ := hsince
      rw [hlog, sampledFor, view_append, List.append_eq_nil_iff] at hnone
      exact ⟨old, hold, hnone.1, decodes_append old _⟩
    refine ⟨?_, fun reused since hsince hnone hne' => ?_, fun reused since hsince hnone hnil' => ?_⟩
    · by_cases hall : seq.pendingTokens.length ≤ env.chunkSize
      · refine .inr ?_
        rw [hphase]
        refine (hb.sampled_iff hseq hprep hne sample).mpr ?_
        rw [hcount]
        omega
      · exact .inl fun he => hall (hnil.mp he)
    · obtain ⟨old, hold, hnone', hsame⟩ := hback reused since hsince hnone
      have hpart := hpre.partway reused old hold hnone' hne
      have hlong : ¬ seq.pendingTokens.length ≤ env.chunkSize := fun hle => hne' (hnil.mpr hle)
      show seq.nPast + prepared.rowCount seq.seqId = _
      rw [hsame, Nat.succ_mul, hcount]
      omega
    · obtain ⟨old, hold, hnone', hsame⟩ := hback reused since hsince hnone
      have hpart := hpre.partway reused old hold hnone' hne
      have hleft := prompt_left (reachable_accounts hr) hb (reachable_measured hr) hseq hreq hnone'
      rw [hsame]
      exact (prefillDecodes_eq hchunk hne hleft hpart).2.mp (hnil.mp hnil')
  · rw [hlog] at hsince ⊢
    exact h.whole_append (hev id).1 hsince
  · rw [hlog] at hsince
    rw [hacc'] at hreq
    obtain ⟨old, hold, hsplit⟩ := (since_append (hev _).1).mp hsince
    rcases split_sampled hsplit.symm hprior with ⟨rest, rfl⟩ | ⟨-, later, -, hlater⟩
    · exact h.first request hreq hprompt reused prior token rest hold hprior
    · cases later <;> simp at hlater
  · exact h.kept_append (hev id).1 hlog (fun _ hin => .inl (hkeys ▸ hin)) hadm hnone

/-- A sequence whose sampled token is about to be distributed has just ended its prefill, if that
token is its first. -/
theorem Progress.due (h : Progress env s) (hc : Contents s) (hs : Standing env s)
    {idOf : Dict SeqId RequestId} {now : Time} {seqId : SeqId} {token : Token}
    {todo : List (SeqId × Token)}
    (hp : s.phase = .distributing idOf now ((seqId, token) :: todo))
    (hid : idOf.get? seqId = some request.id) (hseq : s.active.get? request.id = some seq)
    (hreq : s.accepted.get? request.id = some request) (hprompt : request.promptTokens ≠ []) :
    ∀ reused since, Since s.log request.id reused since → sampledFor s.log request.id = [] →
      decodes since = prefillDecodes env request reused := by
  intro reused since hsince hnone
  have hslot := (hs.tail_distributing hp hid hseq).1
  have hempty := hc.drained (seqId, token) (by simp [hp, Phase.undelivered]) _ seq hseq hslot
  exact (h.prefill (by rw [hp]; rfl) request seq hseq hreq hprompt).through reused since hsince
    hnone hempty

theorem Progress.retired_step (h : Progress env s) {id : RequestId}
    (hactive : s'.active = s.active.erase id) (hacc : s'.accepted = s.accepted)
    (hlog : s'.log = s.log ++ events) (hd : decodes events = 0)
    (hadm : ∀ j, admissions events j = []) (hother : ∀ j, j ≠ id → sampledFor events j = [])
    (hown : sampledFor events id = [] ∧ some .decodeError ∈ finishes events id ∨
      sampledFor events id ≠ [] ∧ ∀ request, request.id = id →
        s.accepted.get? request.id = some request → request.promptTokens ≠ [] →
        ∀ reused since, Since s.log request.id reused since → sampledFor s.log request.id = [] →
          decodes since = prefillDecodes env request reused)
    (hphase : s'.phase.intact = true → s.phase.intact = true)
    (hdue : ∀ j seq, j ≠ id → s.active.get? j = some seq → s'.phase.intact = true →
      seq.seqId ∈ s.phase.undelivered.map Prod.fst →
      seq.seqId ∈ s'.phase.undelivered.map Prod.fst) : Progress env s' := by
  refine ⟨fun hi request seq hseq hreq hprompt => ?_, fun j reused since hsince => ?_,
    fun request hreq hprompt reused prior token after hsince hprior => ?_,
    fun j hadm' hnone => ?_⟩
  · rw [hactive, Dict.get?_erase] at hseq
    split_ifs at hseq with hid
    rw [hacc] at hreq
    exact (h.prefill (hphase hi) request seq hseq hreq hprompt).append hlog (hadm _) hd
      (hdue _ seq (Ne.symm hid) hseq hi)
  · rw [hlog] at hsince ⊢
    exact h.whole_append (hadm j) hsince
  · rw [hlog] at hsince
    rw [hacc] at hreq
    refine h.first_append hd hreq hprompt (hadm _) ?_ hsince hprior
    by_cases hid : request.id = id
    · rcases hown with ⟨hnone, -⟩ | ⟨-, hnew⟩
      · exact .inl (hid ▸ hnone)
      · exact .inr (hnew request hid hreq hprompt)
    · exact .inl (hother _ hid)
  · refine h.kept_append (hadm j) hlog (fun hnone' hin => ?_) hadm' hnone
    by_cases hid : j = id
    · subst hid
      exact hown.elim (fun hlost => .inr hlost.2) fun hs => absurd hnone' hs.1
    · refine .inl ?_
      rw [hactive, Dict.mem_keys_erase]
      exact ⟨hid, hin⟩

/-- The other sequences whose tokens are still to be distributed keep waiting for them. -/
theorem Books.due_tail (hb : Books env s) (hs : Standing env s)
    {idOf : Dict SeqId RequestId} {now : Time} {seqId : SeqId} {token : Token}
    {todo : List (SeqId × Token)} {id : RequestId}
    (hp : s.phase = .distributing idOf now ((seqId, token) :: todo))
    (hid : idOf.get? seqId = some id) (hseq : s.active.get? id = some seq) {j : RequestId}
    {other : ActiveSequence} (hj : j ≠ id) (hother : s.active.get? j = some other)
    (hdue : other.seqId ∈ s.phase.undelivered.map Prod.fst) :
    other.seqId ∈ todo.map Prod.fst := by
  have hslot := (hs.tail_distributing hp hid hseq).1
  rw [hp, Phase.undelivered, List.map_cons, List.mem_cons] at hdue
  exact hdue.resolve_left fun he => hj (hb.slot_unique hother hseq (he.trans hslot.symm))

theorem Progress.pushed_step (h : Progress env s) (hb : Books env s) (hs : Standing env s)
    (hc : Contents s) {idOf : Dict SeqId RequestId} {now : Time} {seqId : SeqId} {token : Token}
    {todo : List (SeqId × Token)} {id : RequestId} {state : RequestState}
    (hp : s.phase = .distributing idOf now ((seqId, token) :: todo))
    (hid : idOf.get? seqId = some id) (hseq : s.active.get? id = some seq) :
    Progress env (pushedState env s id seq state now token (.distributing idOf now todo)) := by
  obtain ⟨events, hlog, hd, hadm, hsampled⟩ : ∃ events,
      (pushedState env s id seq state now token (.distributing idOf now todo)).log =
        s.log ++ events ∧ decodes events = 0 ∧ (∀ j, admissions events j = []) ∧
      ∀ j, sampledFor events j = if id = j then [token] else [] := by
    refine ⟨_, rfl, by simp [asDecoded], fun j => by simp [asAdmitted], fun j => ?_⟩
    by_cases hj : id = j <;> simp [asSampled, hj]
  have hactive : ∀ j, (pushedState env s id seq state now token
      (.distributing idOf now todo)).active.get? j =
      if id = j then some { seq with pendingTokens := [token] } else s.active.get? j :=
    fun j => Dict.get?_set ..
  have hown : sampledFor (pushedState env s id seq state now token
      (.distributing idOf now todo)).log id ≠ [] := by
    rw [hlog, sampledFor, view_append, ← sampledFor, ← sampledFor, hsampled, if_pos rfl]
    simp
  refine ⟨fun _ request other hother hreq hprompt => ?_, fun j reused since hsince => ?_,
    fun request hreq hprompt reused prior t after hsince hprior => ?_, fun j hadm' hnone => ?_⟩
  · rw [hactive] at hother
    split_ifs at hother with hj
    · obtain rfl := Option.some.inj hother
      subst hj
      exact ⟨.inl (by simp), fun _ _ _ hnone => absurd hnone hown,
        fun _ _ _ hnone => absurd hnone hown⟩
    · exact (h.prefill (by rw [hp]; rfl) request other hother hreq hprompt).append hlog (hadm _) hd
        (hb.due_tail hs hp hid hseq (Ne.symm hj) hother)
  · rw [hlog] at hsince ⊢
    exact h.whole_append (hadm j) hsince
  · rw [hlog] at hsince
    refine h.first_append hd hreq hprompt (hadm _) ?_ hsince hprior
    by_cases hj : id = request.id
    · subst hj
      exact .inr (h.due hc hs hp hid hseq hreq hprompt)
    · exact .inl (by rw [hsampled, if_neg hj])
  · refine h.kept_append (hadm j) hlog (fun _ hin => .inl ?_) hadm' hnone
    show j ∈ (s.active.set id _).keys
    rw [Dict.mem_keys_set]
    exact .inr hin

theorem Progress.transition (h : Progress env s) (hr : Reachable (step env) anything (start env) s)
    (hcap : env.totalTokens ≤ env.batchCapacity) (hchunk : 1 ≤ env.chunkSize) {l : Label}
    (ht : Transition env s l s') : Progress env s' := by
  obtain ⟨hb, hs⟩ := reachable_books hr
  have hacc := reachable_accounts hr
  have hc := reachable_contents hr
  have hnil : s.log = s.log ++ [] := (List.append_nil _).symm
  have hdue : s.phase.awaiting = true → s.phase.undelivered = [] := awaiting_undelivered
  cases ht with
  | rejected hw hnew =>
    exact h.frame rfl (fun id => by simp [asAdmitted, asSampled]) (by simp [asDecoded]) rfl
      (fun _ => .inl rfl) fun hi => .inl ⟨hi, hdue hw⟩
  | @accepted id body kvCache hw hnew hroom hres =>
    obtain ⟨-, hactive, haccepted, -⟩ := hb.unissued hnew
    refine h.frame rfl (fun id => by simp [asAdmitted, asSampled]) (by simp [asDecoded]) rfl
      (fun j => ?_) fun hi => .inl ⟨hi, hdue hw⟩
    rw [Dict.get?_set]
    split_ifs with hj
    · subst hj
      exact .inr ⟨hactive, (hacc.quiet id hactive (.inr haccepted)).2.2.2⟩
    · exact .inl rfl
  | setPolicy hw | cancel hw =>
    exact h.frame hnil (fun _ => ⟨rfl, rfl⟩) rfl rfl (fun _ => .inl rfl)
      fun hi => .inl ⟨hi, hdue hw⟩
  | receive hw hr =>
    refine h.frame rfl (fun id => ?_) ?_ rfl (fun _ => .inl rfl) fun hi => .inl ⟨hi, hdue hw⟩
    · split_ifs <;> simp [asAdmitted, asSampled]
    · split_ifs <;> simp [asDecoded]
  | leave hw hl =>
    exact h.frame rfl (fun id => by simp [asAdmitted, asSampled]) (by simp [asDecoded]) rfl
      (fun _ => .inl rfl) fun hi => .inl ⟨hi, hdue hw⟩
  | beginExpiry hp | wake hp | keep hp | rest hp | full hp | select hp | selectRaised hp
  | decodeFailed hp =>
    exact h.frame hnil (fun _ => ⟨rfl, rfl⟩) rfl rfl (fun _ => .inl rfl)
      fun _ => .inl (by rw [hp]; exact ⟨rfl, rfl⟩)
  | expire hp | buildNothing hp | build hp =>
    exact h.frame rfl (fun id => by simp [asAdmitted, asSampled]) (by simp [asDecoded]) rfl
      (fun _ => .inl rfl) fun _ => .inl (by rw [hp]; exact ⟨rfl, rfl⟩)
  | admitted hp hpool hslot =>
    exact h.admitted_step hb hacc hc (reachable_mirrors hr) hp hpool hslot
  | decoded hp hkeys hactive =>
    exact h.decoded_step hr hcap hchunk hp hactive hkeys rfl rfl rfl
  | @finishSampled idOf now seqId token todo id seq state why hp hid hseq hstate =>
    refine h.retired_step rfl rfl rfl (by simp [asDecoded]) (fun j => by simp [asAdmitted])
      (fun j hj => by simp [asSampled, Ne.symm hj]) (.inr ⟨by simp [asSampled], ?_⟩)
      (fun _ => by rw [hp]; rfl) fun j other hj hother _ => hb.due_tail hs hp hid hseq hj hother
    rintro request rfl hreq hprompt
    exact h.due hc hs hp hid hseq hreq hprompt
  | @dieSampled idOf now seqId token todo id seq state why hp hid hseq hstate =>
    refine h.retired_step rfl rfl rfl (by simp [asDecoded]) (fun j => by simp [asAdmitted])
      (fun j hj => by simp [asSampled, Ne.symm hj]) (.inr ⟨by simp [asSampled], ?_⟩)
      (fun _ => by rw [hp]; rfl) fun _ _ _ _ hi => by simp [diedState, Phase.intact] at hi
    rintro request rfl hreq hprompt
    exact h.due hc hs hp hid hseq hreq hprompt
  | push hp hid hseq hstate hgo => exact h.pushed_step hb hs hc hp hid hseq
  | @finishFailed id todo seq state hp hseq hstate =>
    exact h.retired_step rfl rfl rfl (by simp [asDecoded]) (fun j => by simp [asAdmitted])
      (fun j hj => by simp [asSampled]) (.inl ⟨by simp [asSampled], by simp [asFinished]⟩)
      (fun hi => by simp [finishedState, Phase.intact] at hi)
      fun _ _ _ _ hi => by simp [finishedState, Phase.intact] at hi
  | @dieFailed id todo seq state hp hseq hstate =>
    exact h.retired_step rfl rfl rfl (by simp [asDecoded]) (fun j => by simp [asAdmitted])
      (fun j hj => by simp [asSampled]) (.inl ⟨by simp [asSampled], by simp [asFinished]⟩)
      (fun hi => by simp [diedState, Phase.intact] at hi)
      fun _ _ _ _ hi => by simp [diedState, Phase.intact] at hi
  | endTick hp =>
    refine h.frame hnil (fun _ => ⟨rfl, rfl⟩) rfl rfl (fun _ => .inl rfl) fun _ => ?_
    rcases hp with ⟨idOf, now, hp⟩ | hp
    · exact .inl (by rw [hp]; exact ⟨rfl, rfl⟩)
    · exact .inr (hs.failed_all hp)

theorem reachable_progress (hr : Reachable (step env) anything (start env) s)
    (hcap : env.totalTokens ≤ env.batchCapacity) (hchunk : 1 ≤ env.chunkSize) : Progress env s := by
  refine hr.invariant (progress_start env) fun s l s' hr hi _ hs => ?_
  exact hi.transition hr hcap hchunk (reachable_transition hr hs)

/-- A batch without rows means that nobody is active. -/
theorem rows_nil_iff {active : Dict RequestId ActiveSequence} {capacity chunkSize : ℕ}
    (h : ∀ id seq, active.get? id = some seq →
      0 < (buildBatch active.values capacity chunkSize).rowCount seq.seqId) :
    (buildBatch active.values capacity chunkSize).rows = [] ↔ active.size = 0 := by
  constructor
  · intro hnil
    refine List.length_eq_zero_iff.mpr (List.eq_nil_iff_forall_not_mem.mpr fun e he => ?_)
    have hpos := h e.1 e.2 (Dict.mem_entries.mp he)
    rw [rowCount_eq_length, hnil] at hpos
    simp at hpos
  · intro hsize
    refine List.eq_nil_iff_forall_not_mem.mpr fun row hrow => ?_
    obtain ⟨seq, hseq, -⟩ := buildBatch_seqId hrow
    rw [Dict.values, List.length_eq_zero_iff.mp hsize] at hseq
    simp at hseq

end Prefills

end TinyServe.BatchLoop
