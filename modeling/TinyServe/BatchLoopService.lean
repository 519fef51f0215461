import TinyServe.BatchLoopAdmission
import TinyServe.BatchLoopOrder
import TinyServe.BatchLoopPace
import Mathlib.Algebra.Order.BigOperators.Group.List

set_option autoImplicit false

/-!
While somebody waits every batch serves a full house, so the batches that pass are paid for by the
requests that are admitted, each by the decodes it takes at the most.
-/
namespace TinyServe.BatchLoop
open OrderedDict SequenceMemory BatchBuilder Scheduler LlamaRuntime Runs

def asEntered : Event → Option RequestId
  | .admitted id _ _ => some id
  | _ => none

/-- Who was admitted, one after the other. -/
abbrev entered (log : List Event) : List RequestId := view asEntered log

def asBatch : Event → Option (List BatchRow)
  | .built (row :: rows) => some (row :: rows)
  | _ => none

/-- The batches that were handed to the runtime. -/
abbrev batches (log : List Event) : List (List BatchRow) := view asBatch log

@[simp] theorem quiet_asEntered : Quiet asEntered := by constructor <;> simp [asEntered]

@[simp] theorem quiet_asBatch : Quiet asBatch := by constructor <;> simp [asBatch]

theorem batches_append (log events : List Event) :
    batches (log ++ events) = batches log ++ batches events := view_append log events

theorem entered_append (log events : List Event) :
    entered (log ++ events) = entered log ++ entered events := view_append log events

/-- A request that takes at most so many decodes. -/
def Brief (env : Env) (most : ℕ) (request : PendingRequest) : Prop :=
  request.promptTokens ≠ [] ∧ prefillDecodes env request 0 + request.maxTokens ≤ most + 1

/-- The decodes that an active request takes from here at the most. -/
def decodesLeft (env : Env) (s : State) (id : RequestId) : ℕ :=
  ((s.active.get? id).map fun seq =>
      (seq.pendingTokens.length + env.chunkSize - 1) / env.chunkSize).getD 0 +
    ((s.requests.get? id).map fun state => state.remainingTokens.toNat).getD 0 - 1

/-- The decodes that the slots are taken for; the one in flight is over for everybody in it, and
after a failed one nobody keeps his slot. -/
def workLeft (env : Env) (s : State) : ℕ :=
  match s.phase with
  | .decoding _ => (s.active.keys.map fun id => decodesLeft env s id - 1).sum
  | .failing _ | .dead _ => 0
  | _ => (s.active.keys.map (decodesLeft env s)).sum

section Left
variable {env : Env} {s s' : State} {most : ℕ}

theorem decodesLeft_congr {j : RequestId} (ha : s'.active.get? j = s.active.get? j)
    (hr : s'.requests.get? j = s.requests.get? j) : decodesLeft env s' j = decodesLeft env s j := by
  rw [decodesLeft, decodesLeft, ha, hr]

theorem workLeft_frame (hp : s'.phase = s.phase) (ha : s'.active = s.active)
    (hr : s'.requests = s.requests) : workLeft env s' = workLeft env s := by
  have hleft : decodesLeft env s' = decodesLeft env s := by
    funext j
    exact decodesLeft_congr (by rw [ha]) (by rw [hr])
  unfold workLeft
  rw [hp, ha, hleft]

/-- Outside of a decode the work left is that of the active requests. -/
theorem workLeft_eq (hi : s.phase.intact = true) (hd : ∀ prepared, s.phase ≠ .decoding prepared) :
    workLeft env s = (s.active.keys.map (decodesLeft env s)).sum := by
  unfold workLeft
  split
  · exact absurd ‹_› (hd _)
  · simp [*, Phase.intact] at hi
  · simp [*, Phase.intact] at hi
  · rfl

/-- Who is active after a step that changes none of them has what he had. -/
theorem workLeft_same (hi : s.phase.intact = true) (hd : ∀ prepared, s.phase ≠ .decoding prepared)
    (hi' : s'.phase.intact = true) (hd' : ∀ prepared, s'.phase ≠ .decoding prepared)
    (ha : s'.active = s.active) (hr : s'.requests = s.requests) :
    workLeft env s' = workLeft env s := by
  have hleft : decodesLeft env s' = decodesLeft env s := by
    funext j
    exact decodesLeft_congr (by rw [ha]) (by rw [hr])
  rw [workLeft_eq hi hd, workLeft_eq hi' hd', ha, hleft]

theorem pending_of_intact (hr : Reachable (step env) anything (start env) s)
    (hcap : env.totalTokens ≤ env.batchCapacity) (hchunk : 1 ≤ env.chunkSize)
    (hbrief : ∀ r ∈ s.accepted.values, Brief env most r) (hi : s.phase.intact = true)
    (hdue : s.phase.undelivered = []) {id : RequestId} {seq : ActiveSequence}
    (hseq : s.active.get? id = some seq) : seq.pendingTokens ≠ [] := by
  obtain ⟨request, hreq, rfl⟩ :=
    (reachable_books hr).1.request_of_active (Dict.mem_keys.mpr ⟨seq, hseq⟩)
  have hprompt := (hbrief request (Dict.mem_values.mpr ⟨_, hreq⟩)).1
  refine ((reachable_progress hr hcap hchunk).prefill hi request seq hseq hreq hprompt).fed.resolve_right
    ?_
  simp [hdue]

/-- An active request has at least the token to sample that it is active for. -/
theorem remaining_pos (hr : Reachable (step env) anything (start env) s) {id : RequestId}
    {seq : ActiveSequence} (hseq : s.active.get? id = some seq) :
    ∃ state, s.requests.get? id = some state ∧ 0 < state.remainingTokens := by
  obtain ⟨hb, -⟩ := reachable_books hr
  obtain ⟨request, hreq, -⟩ := hb.request_of_active (Dict.mem_keys.mpr ⟨seq, hseq⟩)
  obtain ⟨state, hstate, -⟩ := hb.state_of_seq hseq
  exact ⟨state, hstate, ((reachable_accounts hr).running id state request hstate hreq).1.positive⟩

theorem ceil_mono {k l l' : ℕ} (h : l ≤ l') : (l + k - 1) / k ≤ (l' + k - 1) / k :=
  Nat.div_le_div_right (by omega)

/-- No active request takes more decodes from here than it took to begin with. -/
theorem decodesLeft_le (hr : Reachable (step env) anything (start env) s)
    (hcap : env.totalTokens ≤ env.batchCapacity) (hchunk : 1 ≤ env.chunkSize)
    (hbrief : ∀ r ∈ s.accepted.values, Brief env most r) (hi : s.phase.intact = true)
    {id : RequestId} (hin : id ∈ s.active.keys) : decodesLeft env s id ≤ most := by
  obtain ⟨hb, -⟩ := reachable_books hr
  obtain ⟨seq, hseq⟩ := Dict.mem_keys.mp hin
  obtain ⟨request, hreq, rfl⟩ := hb.request_of_active hin
  obtain ⟨state, hstate, -⟩ := hb.state_of_seq hseq
  obtain ⟨hprompt, hmost⟩ := hbrief request (Dict.mem_values.mpr ⟨_, hreq⟩)
  have hacc := ((reachable_accounts hr).running _ state request hstate hreq).1
  have hremaining := hacc.remaining
  have hemitted := hacc.emitted
  have hwhole : 1 ≤ prefillDecodes env request 0 :=
    one_le_ceil (by have := List.length_pos_iff.mpr hprompt; omega) hchunk
  rw [decodesLeft, hseq, hstate]
  simp only [Option.map_some, Option.getD_some]
  by_cases hnone : sampledFor s.log request.id = []
  · have hleft := prompt_left (reachable_accounts hr) hb (reachable_measured hr) hseq hreq hnone
    have hceil : (seq.pendingTokens.length + env.chunkSize - 1) / env.chunkSize ≤
        prefillDecodes env request 0 := ceil_mono (by omega)
    omega
  · have hsome := List.length_pos_iff.mpr hnone
    rw [hacc.same, hemitted] at hsome
    have hceil : (seq.pendingTokens.length + env.chunkSize - 1) / env.chunkSize ≤ 1 := by
      by_cases hnil : seq.pendingTokens = []
      · rw [hnil, List.length_nil, Nat.zero_add]
        exact Nat.div_le_of_le_mul (by omega)
      · have hone := (((reachable_pace hr hcap hchunk).active hi request seq hseq hreq hprompt).fed
          hnil hnone).1
        exact ((ceil_eq_one_iff (by omega) hchunk).mpr (by omega)).le
    omega

theorem workLeft_le (hr : Reachable (step env) anything (start env) s)
    (hcap : env.totalTokens ≤ env.batchCapacity) (hchunk : 1 ≤ env.chunkSize)
    (hbrief : ∀ r ∈ s.accepted.values, Brief env most r) : workLeft env s ≤ env.nSeqMax * most := by
  have hsize : s.active.keys.length ≤ env.nSeqMax := by
    have hlen := (reachable_books hr).1.slots.length_eq
    rw [List.length_append, List.length_map, slots, List.length_map, List.length_range] at hlen
    rw [Dict.values, List.length_map] at hlen
    rw [Dict.keys, List.length_map]
    omega
  have hsum : ∀ g : RequestId → ℕ, (∀ id ∈ s.active.keys, g id ≤ most) →
      (s.active.keys.map g).sum ≤ env.nSeqMax * most := by
    intro g hg
    refine (List.sum_le_card_nsmul _ most fun x hx => ?_).trans ?_
    · obtain ⟨id, hid, rfl⟩ := List.mem_map.mp hx
      exact hg id hid
    · rw [List.length_map, Nat.nsmul_eq_mul]
      exact Nat.mul_le_mul_right most hsize
  unfold workLeft
  split
  · refine hsum _ fun id hid => (Nat.sub_le _ _).trans ?_
    exact decodesLeft_le hr hcap hchunk hbrief (by simp [*, Phase.intact]) hid
  · exact Nat.zero_le _
  · exact Nat.zero_le _
  · refine hsum _ fun id hid => decodesLeft_le hr hcap hchunk hbrief ?_ hid
    cases hp : s.phase <;> simp_all [Phase.intact]

end Left

/-- From `s` to `s'` each batch is paid for by a decode of every slot, and each admission brings in
the decodes it takes at the most. -/
def Paid (env : Env) (most : ℕ) (s s' : State) : Prop :=
  env.nSeqMax * (batches s'.log).length + workLeft env s' + most * (entered s.log).length ≤
    env.nSeqMax * (batches s.log).length + workLeft env s + most * (entered s'.log).length

section Steps
variable {env : Env} {s s' : State} {most : ℕ} {events : List Event}

theorem Paid.trans {s'' : State} (h : Paid env most s s') (h' : Paid env most s' s'') :
    Paid env most s s'' := by
  unfold Paid at *
  omega

theorem Paid.quiet (hlog : s'.log = s.log ++ events) (hb : batches events = [])
    (he : entered events = []) (hw : workLeft env s' ≤ workLeft env s) :
    Paid env most s s' := by
  unfold Paid
  rw [hlog, batches_append, hb, entered_append, he, List.append_nil, List.append_nil]
  omega

theorem Paid.admitted (hb : Books env s) (hbrief : ∀ r ∈ s.accepted.values, Brief env most r)
    {request : PendingRequest} {todo : List PendingRequest} {seqId : SeqId}
    (hp : s.phase = .admitting (request :: todo))
    (hpool : s.queue.pool.get? request.id = some request) :
    Paid env most s (admittedState env s request seqId (.admitting todo)) := by
  have hfresh := hb.apart _ (Dict.mem_keys.mpr ⟨request, hpool⟩)
  have hmost := (hbrief request (Dict.mem_values.mpr ⟨_, (hb.queued _ _ hpool).2⟩)).2
  have hold : ∀ j ∈ s.active.keys,
      decodesLeft env (admittedState env s request seqId (.admitting todo)) j =
        decodesLeft env s j := by
    intro j hj
    have hne : request.id ≠ j := fun he => hfresh (he ▸ hj)
    refine decodesLeft_congr ?_ ?_
    · exact (Dict.get?_set ..).trans (if_neg hne)
    · exact (Dict.get?_set ..).trans (if_neg hne)
  have hnew : decodesLeft env (admittedState env s request seqId (.admitting todo)) request.id ≤
      most := by
    have hceil : ((request.promptTokens.drop (claimPrefix s request seqId).1).length +
        env.chunkSize - 1) / env.chunkSize ≤ prefillDecodes env request 0 :=
      ceil_mono (by rw [List.length_drop]; omega)
    simp only [decodesLeft, admittedState, Dict.get?_set, ↓reduceIte, Option.map_some,
      Option.getD_some]
    omega
  have hkeys : (admittedState env s request seqId (.admitting todo)).active.keys =
      s.active.keys ++ [request.id] := Dict.keys_set_of_fresh hfresh
  have hwork : workLeft env (admittedState env s request seqId (.admitting todo)) ≤
      workLeft env s + most := by
    rw [workLeft_eq rfl (by simp [admittedState]), workLeft_eq (by rw [hp]; rfl) (by simp [hp]),
      hkeys, List.map_append, List.sum_append, List.map_congr_left hold, List.map_singleton,
      List.sum_singleton]
    exact Nat.add_le_add_left hnew _
  let events := lookups s request seqId ++
    [.admitted request.id seqId (claimPrefix s request seqId).1] ++
    spanClosing s.tracer request.id .queueWait ++ [.spanStarted request.id .generation]
  have hlog : (admittedState env s request seqId (.admitting todo)).log = s.log ++ events := rfl
  have hb : batches events = [] := by simp [events, asBatch]
  have he : entered events = [request.id] := by simp [events, asEntered]
  unfold Paid
  rw [hlog, batches_append, hb, entered_append, he, List.append_nil, List.length_append,
    List.length_singleton, Nat.mul_add]
  omega

/-- With somebody waiting the batch that is built has every slot in it. -/
theorem Paid.built (hr : Reachable (step env) anything (start env) s)
    (hcap : env.totalTokens ≤ env.batchCapacity) (hchunk : 1 ≤ env.chunkSize)
    (hbrief : ∀ r ∈ s.accepted.values, Brief env most r) (hwaits : s.queue.waiting ≠ [])
    {prepared : PreparedBatch} (hp : s.phase = .admitting [])
    (hphase : s'.phase = .decoding prepared) (ha : s'.active = s.active)
    (hreq : s'.requests = s.requests) (hlog : s'.log = s.log ++ [.built prepared.rows]) :
    Paid env most s s' := by
  obtain ⟨hb, -⟩ := reachable_books hr
  have hfree : s.freeSlots = [] := by
    have hlen := reachable_sized hr [] hp
    have hpos := List.length_pos_iff.mpr hwaits
    rw [List.length_nil] at hlen
    exact List.length_eq_zero_iff.mp (by omega)
  have hsize : s.active.keys.length = env.nSeqMax := by
    have hlen := hb.slots.length_eq
    rw [hfree, List.nil_append, List.length_map, slots, List.length_map, List.length_range,
      Dict.values, List.length_map] at hlen
    rw [Dict.keys, List.length_map, hlen]
  have hleft : ∀ id ∈ s.active.keys, decodesLeft env s id - 1 + 1 = decodesLeft env s id := by
    intro id hin
    obtain ⟨seq, hseq⟩ := Dict.mem_keys.mp hin
    have hne := pending_of_intact hr hcap hchunk hbrief (by rw [hp]; rfl) (by rw [hp]; rfl) hseq
    obtain ⟨state, hstate, hpos⟩ := remaining_pos hr hseq
    have hceil := one_le_ceil (List.length_pos_iff.mpr hne) hchunk
    rw [decodesLeft, hseq, hstate]
    simp only [Option.map_some, Option.getD_some]
    omega
  have hwork : workLeft env s = workLeft env s' + env.nSeqMax := by
    have hcount : (s.active.keys.map fun id => decodesLeft env s id - 1 + 1).sum =
        (s.active.keys.map fun id => decodesLeft env s id - 1).sum + s.active.keys.length := by
      rw [List.sum_map_add, List.map_const', List.sum_replicate, Nat.nsmul_eq_mul, Nat.mul_one]
    have hsame : workLeft env s' = (s.active.keys.map fun id => decodesLeft env s id - 1).sum := by
      unfold workLeft
      rw [hphase, ha]
      refine congrArg List.sum (List.map_congr_left fun id _ => ?_)
      have hid : decodesLeft env s' id = decodesLeft env s id :=
        decodesLeft_congr (by rw [ha]) (by rw [hreq])
      rw [hid]
    rw [workLeft_eq (by rw [hp]; rfl) (by simp [hp]), ← List.map_congr_left hleft, hcount, hsame,
      hsize]
  have hone : (batches [.built prepared.rows]).length ≤ 1 := by
    cases prepared.rows <;> simp [asBatch]
  have hmul := Nat.mul_le_mul_left env.nSeqMax hone
  have he : entered [.built prepared.rows] = [] := rfl
  unfold Paid
  rw [hlog, batches_append, List.length_append, entered_append, he, List.append_nil, Nat.mul_add]
  omega

/-- A decode takes everybody in it one further. -/
theorem workLeft_decoded (hr : Reachable (step env) anything (start env) s)
    (hcap : env.totalTokens ≤ env.batchCapacity) (hchunk : 1 ≤ env.chunkSize)
    (hbrief : ∀ r ∈ s.accepted.values, Brief env most r) {prepared : PreparedBatch}
    {idOf : Dict SeqId RequestId} {now : Time} {todo : List (SeqId × Token)}
    (hp : s.phase = .decoding prepared) (hphase : s'.phase = .distributing idOf now todo)
    (hkeys : s'.active.keys = s.active.keys)
    (hactive : ∀ id, s'.active.get? id = (s.active.get? id).map (consume prepared))
    (hreq : s'.requests = s.requests) : workLeft env s' = workLeft env s := by
  have hprep := (reachable_books hr).2.decoding hp
  rw [workLeft_eq (by rw [hphase]; rfl) (by simp [hphase]), hkeys]
  unfold workLeft
  rw [hp]
  refine congrArg List.sum (List.map_congr_left fun id hin => ?_)
  obtain ⟨seq, hseq⟩ := Dict.mem_keys.mp hin
  have hne := pending_of_intact hr hcap hchunk hbrief (by rw [hp]; rfl) (by rw [hp]; rfl) hseq
  have hpos := List.length_pos_iff.mpr hne
  have hcount := rowCount_full hr hcap hseq hprep
  obtain ⟨state, hstate, hremaining⟩ := remaining_pos hr hseq
  have hceil : ((consume prepared seq).pendingTokens.length + env.chunkSize - 1) / env.chunkSize + 1 =
      (seq.pendingTokens.length + env.chunkSize - 1) / env.chunkSize := by
    rw [consume, List.length_drop, hcount]
    by_cases hshort : seq.pendingTokens.length ≤ env.chunkSize
    · rw [Nat.min_eq_right hshort, Nat.sub_self, Nat.zero_add, (ceil_eq_one_iff hpos hchunk).mpr hshort,
        Nat.div_eq_of_lt (by omega)]
    · have hsplit : seq.pendingTokens.length =
          1 * env.chunkSize + (seq.pendingTokens.length - env.chunkSize) := by omega
      rw [Nat.min_eq_left (by omega)]
      conv_rhs => rw [hsplit, ceil_add _ _ _ hchunk]
      omega
  rw [decodesLeft, decodesLeft, hactive, hseq, hreq, hstate]
  simp only [Option.map_some, Option.getD_some]
  omega

theorem workLeft_finished {id : RequestId} {seq : ActiveSequence} {state : RequestState}
    {why : Option CancelReason} {before : List Event} {idOf : Dict SeqId RequestId} {now now' : Time}
    {e : SeqId × Token} {todo : List (SeqId × Token)} (hp : s.phase = .distributing idOf now (e :: todo))
    (hseq : s.active.get? id = some seq) :
    workLeft env (finishedState env s id state why before (.distributing idOf now' todo)) ≤
      workLeft env s := by
  have hin : id ∈ s.active.keys := Dict.mem_keys.mpr ⟨seq, hseq⟩
  have hsplit := ((Dict.keys_perm_erase hin).map (decodesLeft env s)).sum_eq
  rw [List.map_cons, List.sum_cons] at hsplit
  have hsame : ∀ j ∈ (s.active.erase id).keys,
      decodesLeft env (finishedState env s id state why before (.distributing idOf now' todo)) j =
        decodesLeft env s j := by
    intro j hj
    obtain ⟨hne, -⟩ := Dict.mem_keys_erase.mp hj
    refine decodesLeft_congr ?_ ?_
    · exact (Dict.get?_erase ..).trans (if_neg (Ne.symm hne))
    · exact (Dict.get?_erase ..).trans (if_neg (Ne.symm hne))
  rw [workLeft_eq rfl (by simp [finishedState]), workLeft_eq (by rw [hp]; rfl) (by simp [hp])]
  show ((s.active.erase id).keys.map _).sum ≤ _
  rw [List.map_congr_left hsame]
  omega

/-- A pushed token is one to feed in place of one to sample. -/
theorem workLeft_pushed {id : RequestId} {seq : ActiveSequence} {state : RequestState}
    {idOf : Dict SeqId RequestId} {now : Time} {e : SeqId × Token} {token : Token}
    {todo : List (SeqId × Token)} (hp : s.phase = .distributing idOf now (e :: todo))
    (hseq : s.active.get? id = some seq) (hstate : s.requests.get? id = some state)
    (hnil : seq.pendingTokens = []) (hpos : 0 < state.remainingTokens) (hchunk : 1 ≤ env.chunkSize) :
    workLeft env (pushedState env s id seq state now token (.distributing idOf now todo)) =
      workLeft env s := by
  have hin : id ∈ s.active.keys := Dict.mem_keys.mpr ⟨seq, hseq⟩
  have hkeys : (pushedState env s id seq state now token (.distributing idOf now todo)).active.keys =
      s.active.keys := Dict.keys_set_of_mem hin
  rw [workLeft_eq rfl (by simp [pushedState]), workLeft_eq (by rw [hp]; rfl) (by simp [hp]), hkeys]
  refine congrArg List.sum (List.map_congr_left fun j _ => ?_)
  by_cases hid : id = j
  · subst hid
    have hleft : (state.remainingTokens - 1).toNat + 1 = state.remainingTokens.toNat := by omega
    have hone : (1 + env.chunkSize - 1) / env.chunkSize = 1 :=
      (ceil_eq_one_iff le_rfl hchunk).mpr hchunk
    have hnone : (0 + env.chunkSize - 1) / env.chunkSize = 0 := Nat.div_eq_of_lt (by omega)
    rw [decodesLeft, decodesLeft, hseq, hstate]
    simp only [pushedState, Dict.get?_set, ↓reduceIte, Option.map_some, Option.getD_some, hnil,
      List.length_nil, List.length_singleton, decremented, hone, hnone]
    omega
  · refine decodesLeft_congr ?_ ?_
    · exact (Dict.get?_set ..).trans (if_neg hid)
    · exact (Dict.get?_set ..).trans (if_neg hid)

theorem Paid.step (hr : Reachable (step env) anything (start env) s)
    (hcap : env.totalTokens ≤ env.batchCapacity) (hchunk : 1 ≤ env.chunkSize)
    (hbrief : ∀ r ∈ s.accepted.values, Brief env most r) (hwaits : s.queue.waiting ≠ []) {l : Label}
    (hstep : step env s l = some s') : Paid env most s s' := by
  obtain ⟨hb, hs⟩ := reachable_books hr
  have ht := reachable_transition hr hstep
  cases ht with
  | rejected | accepted | leave =>
    exact .quiet rfl (by simp [asBatch]) (by simp [asEntered]) (workLeft_frame rfl rfl rfl).le
  | setPolicy | cancel =>
    exact .quiet (List.append_nil _).symm rfl rfl (workLeft_frame rfl rfl rfl).le
  | receive =>
    refine .quiet rfl ?_ ?_ (workLeft_frame rfl rfl rfl).le
    · split_ifs <;> simp [asBatch]
    · split_ifs <;> simp [asEntered]
  | beginExpiry hp | wake hp | keep hp | rest hp | full hp | select hp =>
    refine .quiet (List.append_nil _).symm rfl rfl (le_of_eq ?_)
    exact workLeft_same (by rw [hp]; rfl) (by simp [hp]) rfl (by simp) rfl rfl
  | expire hp =>
    refine .quiet rfl (by simp [asBatch]) (by simp [asEntered]) (le_of_eq ?_)
    exact workLeft_same (by rw [hp]; rfl) (by simp [hp]) rfl (by simp [expiredState]) rfl rfl
  | selectRaised hp | decodeFailed hp =>
    exact .quiet (List.append_nil _).symm rfl rfl (Nat.zero_le _)
  | admitted hp hpool hslot => exact .admitted hb hbrief hp hpool
  | buildNothing hp =>
    refine .quiet rfl (by simp [asBatch]) (by simp [asEntered]) (le_of_eq ?_)
    exact workLeft_same (by rw [hp]; rfl) (by simp [hp]) rfl (by simp) rfl rfl
  | build hp hprep hne => exact .built hr hcap hchunk hbrief hwaits hp rfl rfl rfl rfl
  | decoded hp hkeys hactive =>
    refine .quiet rfl (by simp [asBatch]) (by simp [asEntered]) (le_of_eq ?_)
    exact workLeft_decoded hr hcap hchunk hbrief hp rfl hkeys hactive rfl
  | finishSampled hp hid hseq hstate hwhy hnt =>
    exact .quiet rfl (by simp [asBatch]) (by simp [asEntered]) (workLeft_finished hp hseq)
  | dieSampled | finishFailed | dieFailed =>
    exact .quiet rfl (by simp [asBatch]) (by simp [asEntered]) (Nat.zero_le _)
  | @push idOf now seqId token todo id seq state hp hid hseq hstate hgo =>
    have hslot := (hs.tail_distributing hp hid hseq).1
    have hnil := (reachable_contents hr).drained (seqId, token) (by simp [hp, Phase.undelivered])
      id seq hseq hslot
    have hpos : 0 < state.remainingTokens - 1 := hgo.2.1
    exact .quiet rfl (by simp [asBatch]) (by simp [asEntered])
      (workLeft_pushed hp hseq hstate hnil (by omega) hchunk).le
  | endTick hp =>
    refine .quiet (List.append_nil _).symm rfl rfl ?_
    rcases hp with ⟨idOf, now, hp⟩ | hp
    · refine le_of_eq ?_
      exact workLeft_same (by rw [hp]; rfl) (by simp [hp]) rfl (by simp) rfl rfl
    · have hgone : s.active.keys = [] := by
        refine List.eq_nil_iff_forall_not_mem.mpr fun id hin => ?_
        have hnone := (hs.failing hp).2 id
        simp [hin] at hnone
      rw [workLeft_eq rfl (by simp)]
      show (s.active.keys.map _).sum ≤ _
      rw [hgone]
      exact Nat.zero_le _

/-- Nobody comes back to the waiting list, and whoever was accepted stays so. -/
theorem waiting_before {request : PendingRequest} (hb : Books env s) {l : Label}
    (ht : Transition env s l s') (hacc : request ∈ s.accepted.values) :
    request ∈ s'.accepted.values ∧ (request ∈ s'.queue.waiting → request ∈ s.queue.waiting) := by
  have herase : ∀ id, request ∈ (s.queue.pool.erase id).values → request ∈ s.queue.waiting := by
    intro id hin
    rw [hb.waiting_erase] at hin
    exact (List.mem_filter.mp hin).1
  cases ht with
  | @accepted id body kvCache hw hnew hroom hres =>
    obtain ⟨hpool, -, haccepted, -⟩ := hb.unissued hnew
    refine ⟨?_, fun hin => ?_⟩
    · show request ∈ (s.accepted.set id (newRequest env s id body)).values
      rw [Dict.values_set_of_fresh (Dict.get?_eq_none.mpr haccepted)]
      exact List.mem_append_left _ hacc
    · have hin' : request ∈ (s.queue.pool.set id (newRequest env s id body)).values := hin
      rw [Dict.values_set_of_fresh (Dict.get?_eq_none.mpr hpool)] at hin'
      rcases List.mem_append.mp hin' with hin' | hone
      · exact hin'
      · rw [List.mem_singleton.mp hone] at hacc
        exact absurd (Dict.mem_keys.mpr ⟨_, hb.accepted_get hacc⟩) haccepted
  | expire | admitted => exact ⟨hacc, herase _⟩
  | _ => exact ⟨hacc, id⟩

theorem log_grows {l : Label} (ht : Transition env s l s') : s.log <+: s'.log := by
  cases ht with
  | setPolicy | cancel | beginExpiry | wake | keep | rest | full | select | selectRaised
  | decodeFailed | endTick => exact List.prefix_rfl
  | _ => exact List.prefix_append _ _

/-- While a request goes on waiting, batches are paid for by admissions. -/
theorem paid_while_waiting (hs : Reachable (step env) anything (start env) s)
    (hcap : env.totalTokens ≤ env.batchCapacity) (hchunk : 1 ≤ env.chunkSize)
    {request : PendingRequest} (hin : request ∈ s.accepted.values) {u : State}
    (hu : Reachable (step env) anything s u) : s.log <+: u.log ∧
      s.accepted.values ⊆ u.accepted.values ∧ (request ∈ u.queue.waiting →
        (∀ r ∈ u.accepted.values, Brief env most r) → Paid env most s u) := by
  refine hu.invariant (I := fun u => s.log <+: u.log ∧ s.accepted.values ⊆ u.accepted.values ∧
    (request ∈ u.queue.waiting → (∀ r ∈ u.accepted.values, Brief env most r) → Paid env most s u))
    ⟨List.prefix_rfl, List.Subset.refl _, fun _ _ => le_rfl⟩ ?_
  rintro u l u' hr ⟨hlog, hacc, hi⟩ - hstep
  have hfrom := hs.trans hr
  have hb := (reachable_books hfrom).1
  have ht := reachable_transition hfrom hstep
  refine ⟨hlog.trans (log_grows ht), fun r hr => (waiting_before hb ht (hacc hr)).1,
    fun hwaits hbrief => ?_⟩
  have hbrief' : ∀ r ∈ u.accepted.values, Brief env most r :=
    fun r hr => hbrief r (waiting_before hb ht hr).1
  have hwaits' := (waiting_before hb ht (hacc hin)).2 hwaits
  exact (hi hwaits' hbrief').trans
    (.step hfrom hcap hchunk hbrief' (List.ne_nil_of_mem hwaits') hstep)

theorem paid_new (h : Reachable (step env) anything (start env) s)
    (hcap : env.totalTokens ≤ env.batchCapacity) (hchunk : 1 ≤ env.chunkSize)
    {request : PendingRequest} (hacc : request ∈ s.accepted.values) {ls : List Label}
    (hrun : run (step env) s ls = some s') (hwaits : request ∈ s'.queue.waiting)
    (hbrief : ∀ r ∈ s'.accepted.values, Brief env most r) {new : List Event}
    (hnew : s'.log = s.log ++ new) :
    env.nSeqMax * (batches new).length ≤ most * (env.nSeqMax + (entered new).length) := by
  obtain ⟨-, hold, hpaid⟩ := paid_while_waiting h hcap hchunk hacc (Reachable.init.run hrun)
  have hpaid := hpaid hwaits hbrief
  have hwork := workLeft_le h hcap hchunk fun r hr => hbrief r (hold hr)
  unfold Paid at hpaid
  rw [hnew, batches_append, List.length_append, entered_append, List.length_append, Nat.mul_add,
    Nat.mul_add] at hpaid
  rw [Nat.mul_add, Nat.mul_comm most env.nSeqMax]
  omega

end Steps

/-- While a request waits, whatever policies are in force and whatever clients do, every slot takes
part in every batch; so with requests of at most `most` decodes each, the batches that pass times
the slots are no more than `most` for each slot and each request admitted meanwhile. -/
theorem batches_while_waiting (env : Env) (hcap : env.totalTokens ≤ env.batchCapacity)
    (hchunk : 1 ≤ env.chunkSize) (s : State) (h : Reachable (step env) anything (start env) s)
    (request : PendingRequest) (hin : request ∈ s.queue.waiting) (ls : List Label) (s' : State)
    (hrun : run (step env) s ls = some s') (hwaits : request ∈ s'.queue.waiting) (most : ℕ)
    (hbrief : ∀ r ∈ s'.accepted.values, Brief env most r) :
    ∃ new, s'.log = s.log ++ new ∧
      env.nSeqMax * (batches new).length ≤ most * (env.nSeqMax + (entered new).length) := by
  obtain ⟨id, hpool⟩ := Dict.mem_values.mp hin
  have hacc : request ∈ s.accepted.values :=
    Dict.mem_values.mpr ⟨id, ((reachable_books h).1.queued id request hpool).2⟩
  obtain ⟨⟨new, hnew⟩, -⟩ :=
    @paid_while_waiting env s most h hcap hchunk request hacc s' (Reachable.init.run hrun)
  exact ⟨new, hnew.symm, paid_new h hcap hchunk hacc hrun hwaits hbrief hnew.symm⟩

section Demo

/-- The demo server with one slot under weighted fair queueing. -/
def demoSingle : Env := { demo with
  nSeqMax := 1
  policy := ⟨.wfq .init, "wfq"⟩ }

/-- Two requests come, and the first is admitted and its first batch built. -/
def demoQueue : List Label := [.generate 0 demoBody, .generate 1 demoBody]
def demoTurns : List Label := List.replicate 6 .loop

theorem batches_while_waiting_demo : ∃ s s' new,
    run (step demoSingle) (start demoSingle) demoQueue = some s ∧
      run (step demoSingle) s demoTurns = some s' ∧ s'.log = s.log ++ new ∧
        (batches new).length ≤ 3 * (1 + (entered new).length) := by
  let first := newRequest demoSingle (start demoSingle) 0 demoBody
  let second := newRequest demoSingle (start demoSingle) 1 demoBody
  have hqueue : (run (step demoSingle) (start demoSingle) demoQueue).map (fun s =>
      s.queue.waiting) = some [first, second] := by decide +kernel
  have hturns : (run (step demoSingle) (start demoSingle) (demoQueue ++ demoTurns)).map (fun s =>
      (s.queue.waiting, s.accepted.values)) = some ([second], [first, second]) := by decide +kernel
  obtain ⟨s, hs, hwaiting⟩ := Option.map_eq_some_iff.mp hqueue
  rw [run_append, hs, Option.bind_some] at hturns
  obtain ⟨s', hs', hparts⟩ := Option.map_eq_some_iff.mp hturns
  obtain ⟨hwaits, haccepted⟩ := Prod.mk.inj hparts
  have hbrief : ∀ r ∈ s'.accepted.values, Brief demoSingle 3 r := by
    rw [haccepted]
    unfold Brief
    decide +kernel
  obtain ⟨new, hnew, hbuilt⟩ := batches_while_waiting demoSingle (by decide) (by decide) s
    (Reachable.init.run hs) second (by simp [hwaiting]) demoTurns s' hs' (by simp [hwaits]) 3 hbrief
  have hone : demoSingle.nSeqMax = 1 := rfl
  rw [hone, Nat.one_mul] at hbuilt
  exact ⟨s, s', new, hs, hs', hnew, hbuilt⟩

end Demo

end TinyServe.BatchLoop
