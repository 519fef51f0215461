import TinyServe.BatchLoopMemory

set_option autoImplicit false

/-! Who the donors of the prefix cache are, and when a copy from one is refused. -/
namespace TinyServe.BatchLoop
open OrderedDict PrefixCacheBase PrefixCacheTable PrefixClaims SequenceMemory BatchBuilder
open Scheduler Streaming LlamaRuntime Runs

def asAdmission : Event → Option RequestId
  | .admitted id _ _ => some id
  | _ => none

/-- Who was admitted, in order. -/
abbrev admissionOrder (log : List Event) : List RequestId := view asAdmission log

@[simp] theorem quiet_asAdmission : Quiet asAdmission := by constructor <;> simp [asAdmission]

/-- A request was admitted to a slot once, and nobody who ever had the slot finished since. -/
def Held (log : List Event) (id : RequestId) (slot : SeqId) : Prop :=
  ∃ before n later, log = before ++ .admitted id slot n :: later ∧
    admissions log id = [(slot, n)] ∧
    ∀ j, finishes later j ≠ [] → ∀ m, (slot, m) ∉ admissions log j

/-- The active requests hold their slots, in the order of their admission. -/
structure Tenure (s : State) : Prop where
  held : ∀ id seq, s.active.get? id = some seq → Held s.log id seq.seqId
  order : s.active.keys.Sublist (admissionOrder s.log)

section Slots
variable {env : Env} {s s' : State} {id : RequestId} {events : List Event}

theorem Held.append {log : List Event} {slot : SeqId} (h : Held log id slot)
    (hid : admissions events id = []) (hadm : ∀ j m, (slot, m) ∉ admissions events j)
    (hfin : ∀ j, finishes events j ≠ [] → ∀ m, (slot, m) ∉ admissions log j) :
    Held (log ++ events) id slot := by
  obtain ⟨before, n, later, rfl, honce, hnone⟩ := h
  refine ⟨before, n, later ++ events, by simp, ?_, fun j hj m hm => ?_⟩
  · rw [admissions, view_append]
    exact (congrArg₂ (· ++ ·) honce hid).trans (List.append_nil _)
  · have hin : (slot, m) ∈ admissions (before ++ .admitted id slot n :: later) j := by
      rw [admissions, view_append] at hm
      exact (List.mem_append.mp hm).resolve_right (hadm j m)
    by_cases hlater : finishes later j = []
    · refine hfin j (fun hnil => hj ?_) m hin
      rw [finishes, view_append]
      exact (congrArg₂ (· ++ ·) hlater hnil).trans (List.append_nil _)
    · exact hnone j hlater m hin

theorem tenure_start (env : Env) : Tenure (start env) where
  held _ _ h := by simp [start] at h
  order := by simp [start]

/-- Steps that admit nobody and finish nobody. -/
theorem Tenure.frame (h : Tenure s) (hlog : s'.log = s.log ++ events)
    (hseq : ∀ id, (s'.active.get? id).map ActiveSequence.seqId =
      (s.active.get? id).map ActiveSequence.seqId)
    (hkeys : s'.active.keys = s.active.keys)
    (hquiet : ∀ id, admissions events id = [] ∧ finishes events id = []) : Tenure s' := by
  refine ⟨fun id seq hid => ?_, ?_⟩
  · have hmap := hseq id
    rw [hid, Option.map_some] at hmap
    obtain ⟨old, hold, hslot⟩ := Option.map_eq_some_iff.mp hmap.symm
    rw [hlog, ← hslot]
    refine (h.held id old hold).append (hquiet id).1 (fun j m hm => ?_) fun j hj => ?_
    · rw [(hquiet j).1] at hm
      simp at hm
    · exact absurd (hquiet j).2 hj
  · rw [hlog, hkeys, admissionOrder, view_append]
    exact h.order.trans (List.sublist_append_left _ _)

theorem Tenure.admitted_step (h : Tenure s) (hb : Books env s) (hacc : Accounts env s)
    {request : PendingRequest} {seqId : SeqId}
    (hpool : s.queue.pool.get? request.id = some request)
    (hslot : s.freeSlots.getLast? = some seqId) (phase : Phase) :
    Tenure (admittedState env s request seqId phase) := by
  have hin : request.id ∈ s.queue.pool.keys := Dict.mem_keys.mpr ⟨request, hpool⟩
  have hnew : request.id ∉ s.active.keys := hb.apart _ hin
  obtain ⟨-, -, -, ha0⟩ := hacc.quiet request.id hnew (.inl hin)
  let events := lookups s request seqId ++
    [.admitted request.id seqId (claimPrefix s request seqId).1] ++
    spanClosing s.tracer request.id .queueWait ++ [.spanStarted request.id .generation]
  have hlog : (admittedState env s request seqId phase).log = s.log ++ events := rfl
  let later := spanClosing s.tracer request.id .queueWait ++ [.spanStarted request.id .generation]
  have hsplit : (admittedState env s request seqId phase).log = (s.log ++ lookups s request seqId) ++
      .admitted request.id seqId (claimPrefix s request seqId).1 :: later := by
    simp [hlog, events, later]
  have hadm : ∀ j, admissions events j =
      if request.id = j then [(seqId, (claimPrefix s request seqId).1)] else [] := by
    intro j
    by_cases hj : request.id = j <;> simp [events, asAdmitted, hj]
  have hfin : ∀ j, finishes events j = [] := fun j => by simp [events, asFinished]
  have horder : view asAdmission events = [request.id] := by simp [events, asAdmission]
  refine ⟨fun id seq hid => ?_, ?_⟩
  · have hget : (s.active.set request.id _).get? id = some seq := hid
    rw [Dict.get?_set] at hget
    split_ifs at hget with he
    · obtain rfl := Option.some.inj hget
      subst he
      refine ⟨s.log ++ lookups s request seqId, _, later, hsplit, ?_, fun j hj => ?_⟩
      · rw [hlog, admissions, view_append]
        exact (congrArg₂ (· ++ ·) ha0 ((hadm _).trans (if_pos rfl))).trans (List.nil_append _)
      · simp [later, asFinished] at hj
    · rw [hlog]
      refine (h.held id seq hget).append ((hadm id).trans (if_neg he)) (fun j m hm => ?_)
        fun j hj => absurd (hfin j) hj
      rw [hadm j] at hm
      split_ifs at hm with hj
      · have hsame := (Prod.mk.inj (List.mem_singleton.mp hm)).1
        exact hb.free_ne (List.mem_of_getLast? hslot) hget hsame
      · simp at hm
  · have hkeys : (admittedState env s request seqId phase).active.keys =
        s.active.keys ++ [request.id] := Dict.keys_set_of_fresh hnew
    rw [hlog, hkeys, admissionOrder, view_append, horder]
    exact h.order.append_right _

theorem Tenure.retired_step (h : Tenure s) (hb : Books env s) {seq : ActiveSequence}
    (hseq : s.active.get? id = some seq) (hlog : s'.log = s.log ++ events)
    (hactive : s'.active = s.active.erase id) (hadm : ∀ j, admissions events j = [])
    (hfin : ∀ j, j ≠ id → finishes events j = []) : Tenure s' := by
  refine ⟨fun j other hj => ?_, ?_⟩
  · rw [hactive, Dict.get?_erase] at hj
    split_ifs at hj with hne
    rw [hlog]
    refine (h.held j other hj).append (hadm j) (fun k m hm => ?_) fun k hk m hm => ?_
    · rw [hadm k] at hm
      simp at hm
    · obtain rfl : k = id := by
        by_contra hki
        exact hk (hfin k hki)
      obtain ⟨-, n, -, -, honce, -⟩ := h.held k seq hseq
      rw [honce, List.mem_singleton, Prod.mk.injEq] at hm
      exact hne (hb.slot_unique hseq hj hm.1.symm)
  · have hsub : (s.active.erase id).keys.Sublist s.active.keys :=
      List.filter_sublist.map Prod.fst
    rw [hlog, hactive, admissionOrder, view_append]
    exact (hsub.trans h.order).trans (List.sublist_append_left _ _)

theorem Tenure.transition (h : Tenure s) (hb : Books env s) (hacc : Accounts env s) {l : Label}
    (ht : Transition env s l s') : Tenure s' := by
  cases ht with
  | rejected hw hnew =>
    exact h.frame rfl (fun _ => rfl) rfl fun id => by simp [asAdmitted, asFinished]
  | accepted hw hnew hroom hres =>
    exact h.frame rfl (fun _ => rfl) rfl fun id => by simp [asAdmitted, asFinished]
  | receive hw hr =>
    refine h.frame rfl (fun _ => rfl) rfl fun id => ?_
    split_ifs <;> simp [asAdmitted, asFinished]
  | leave hw hl => exact h.frame rfl (fun _ => rfl) rfl fun id => by simp [asAdmitted, asFinished]
  | expire hp hstale hpool =>
    exact h.frame rfl (fun _ => rfl) rfl fun id => by simp [asAdmitted, asFinished]
  | admitted hp hpool hslot => exact h.admitted_step hb hacc hpool hslot _
  | buildNothing hp hnil =>
    exact h.frame rfl (fun _ => rfl) rfl fun id => by simp [asAdmitted, asFinished]
  | build hp hprep hne =>
    exact h.frame rfl (fun _ => rfl) rfl fun id => by simp [asAdmitted, asFinished]
  | decoded hp hkeys hactive =>
    refine h.frame rfl (fun id => ?_) hkeys fun id => by simp [asAdmitted, asFinished]
    rw [hactive, Option.map_map]
    rfl
  | @finishSampled idOf now seqId token todo id seq state why hp hid hseq hstate =>
    refine h.retired_step hb hseq rfl rfl (fun j => by simp [asAdmitted]) fun j hj => ?_
    simp [asFinished, Ne.symm hj]
  | @dieSampled idOf now seqId token todo id seq state why hp hid hseq hstate =>
    refine h.retired_step hb hseq rfl rfl (fun j => by simp [asAdmitted]) fun j hj => ?_
    simp [asFinished, Ne.symm hj]
  | @push idOf now seqId token todo id seq state hp hid hseq hstate hgo =>
    refine h.frame rfl (fun j => ?_) (Dict.keys_set_of_mem (Dict.mem_keys.mpr ⟨seq, hseq⟩))
      fun j => by simp [asAdmitted, asFinished]
    simp only [pushedState, Dict.get?_set]
    split_ifs with hj
    · rw [← hj, hseq]
      rfl
    · rfl
  | @finishFailed id todo seq state hp hseq hstate =>
    refine h.retired_step hb hseq rfl rfl (fun j => by simp [asAdmitted]) fun j hj => ?_
    simp [asFinished, Ne.symm hj]
  | @dieFailed id todo seq state hp hseq hstate =>
    refine h.retired_step hb hseq rfl rfl (fun j => by simp [asAdmitted]) fun j hj => ?_
    simp [asFinished, Ne.symm hj]
  | _ => exact h.frame (List.append_nil _).symm (fun _ => rfl) rfl fun _ => ⟨rfl, rfl⟩

theorem reachable_tenure {allowed : State → Label → Prop}
    (h : Reachable (step env) allowed (start env) s) : Tenure s := by
  refine h.invariant (tenure_start env) fun s l s' hr hi _ hs => ?_
  exact hi.transition (reachable_books hr).1 (reachable_accounts hr) (reachable_transition hr hs)

end Slots

/-- The claim of an active request, if its prompt has a whole block. -/
def claimOf (s : State) (blockSize : ℕ) (id : RequestId) : Option (SeqId × List Block) :=
  (s.active.get? id).bind fun seq => (s.accepted.get? id).bind fun request =>
    if blockSize ≤ request.promptTokens.length then
      some (seq.seqId, blocks blockSize request.promptTokens)
    else
      none

/-- The claims in the tree are in the order of the active requests. -/
def InOrder (s : State) : Prop :=
  ∀ c, s.prefixCache = some c → c.claims = s.active.keys.filterMap (claimOf s c.blockSize)

section Order
variable {env : Env} {s s' : State} {id : RequestId}

theorem claimOf_eq {blockSize : ℕ} {seq : ActiveSequence} {request : PendingRequest}
    (hseq : s.active.get? id = some seq) (hreq : s.accepted.get? id = some request) :
    claimOf s blockSize id = if blockSize ≤ request.promptTokens.length then
      some (seq.seqId, blocks blockSize request.promptTokens) else none := by
  rw [claimOf, hseq, Option.bind_some, hreq, Option.bind_some]

theorem claimOf_slot {blockSize : ℕ} {claim : SeqId × List Block}
    (h : claimOf s blockSize id = some claim) :
    ∃ seq, s.active.get? id = some seq ∧ seq.seqId = claim.1 := by
  obtain ⟨seq, hseq, h⟩ := Option.bind_eq_some_iff.mp h
  obtain ⟨request, -, h⟩ := Option.bind_eq_some_iff.mp h
  split_ifs at h
  exact ⟨seq, hseq, congrArg Prod.fst (Option.some.inj h)⟩

theorem claimOf_congr {blockSize : ℕ}
    (hseq : (s'.active.get? id).map ActiveSequence.seqId =
      (s.active.get? id).map ActiveSequence.seqId)
    (hreq : s'.accepted.get? id = s.accepted.get? id) :
    claimOf s' blockSize id = claimOf s blockSize id := by
  unfold claimOf
  rw [hreq]
  cases hs : s.active.get? id with
  | none =>
    rw [hs, Option.map_none, Option.map_eq_none_iff] at hseq
    rw [hseq]
  | some seq =>
    rw [hs, Option.map_some, Option.map_eq_some_iff] at hseq
    obtain ⟨seq', hs', hslot⟩ := hseq
    rw [hs', Option.bind_some, Option.bind_some, hslot]

theorem InOrder.frame (h : InOrder s) (hc : s'.prefixCache = s.prefixCache)
    (hkeys : s'.active.keys = s.active.keys)
    (hseq : ∀ id, (s'.active.get? id).map ActiveSequence.seqId =
      (s.active.get? id).map ActiveSequence.seqId)
    (hacc : ∀ id ∈ s.active.keys, s'.accepted.get? id = s.accepted.get? id) : InOrder s' := by
  intro c hs
  rw [h c (hc ▸ hs), hkeys]
  exact List.filterMap_congr fun id hid => (claimOf_congr (hseq id) (hacc id hid)).symm

theorem InOrder.admitted_step (h : InOrder s) (hb : Books env s) (ht : TreeMirrors env s)
    {request : PendingRequest} {seqId : SeqId}
    (hpool : s.queue.pool.get? request.id = some request)
    (hslot : s.freeSlots.getLast? = some seqId) (phase : Phase) :
    InOrder (admittedState env s request seqId phase) := by
  have hin : request.id ∈ s.queue.pool.keys := Dict.mem_keys.mpr ⟨request, hpool⟩
  have hnew : request.id ∉ s.active.keys := hb.apart _ hin
  have hacc := (hb.queued _ request hpool).2
  intro c' hc'
  have hc'' : (claimPrefix s request seqId).2.prefixCache = some c' := hc'
  cases hc : s.prefixCache with
  | none =>
    rw [claimPrefix_none hc, hc] at hc''
    simp at hc''
  | some c =>
    rw [claimPrefix_cache hc, Option.some.injEq] at hc''
    subst hc''
    have hm := ht.2 c hc
    obtain ⟨-, hsize, hclaims⟩ :=
      insert_claims hm.refines (hm.free_unclaimed hb (List.mem_of_getLast? hslot))
        request.promptTokens
    have hkeys : (admittedState env s request seqId phase).active.keys =
        s.active.keys ++ [request.id] := Dict.keys_set_of_fresh hnew
    have hold : s.active.keys.filterMap
        (claimOf (admittedState env s request seqId phase) c.blockSize) = c.claims := by
      rw [h c hc]
      refine List.filterMap_congr fun id hid => claimOf_congr ?_ rfl
      show ((s.active.set request.id _).get? id).map ActiveSequence.seqId = _
      rw [Dict.get?_set, if_neg]
      rintro rfl
      exact hnew hid
    have hget : (admittedState env s request seqId phase).active.get? request.id = some ⟨seqId,
        request.promptTokens.drop (claimPrefix s request seqId).1,
        (claimPrefix s request seqId).1⟩ := (Dict.get?_set ..).trans (if_pos rfl)
    have hclaim := @claimOf_eq _ _ c.blockSize _ _ hget hacc
    rw [hsize, hclaims, hkeys, List.filterMap_append, hold]
    by_cases hlen : request.promptTokens.length < c.blockSize
    · rw [if_pos hlen, List.filterMap_cons, hclaim, if_neg (not_le.mpr hlen)]
      simp
    · rw [if_neg hlen, List.filterMap_cons, hclaim, if_pos (not_lt.mp hlen)]
      rfl

theorem InOrder.retired_step (h : InOrder s) (hb : Books env s) (ht : TreeMirrors env s)
    {state : RequestState} (hstate : s.requests.get? id = some state)
    (hcache : s'.prefixCache = s.prefixCache.map fun c => c.evict state.seqId)
    (hactive : s'.active = s.active.erase id) (hacc : s'.accepted = s.accepted) : InOrder s' := by
  obtain ⟨seq, hseq, hslot⟩ := hb.seq_of_state hstate
  rw [← hslot] at hcache
  intro c' hc'
  rw [hcache, Option.map_eq_some_iff] at hc'
  obtain ⟨c, hc, rfl⟩ := hc'
  obtain ⟨addr, hr⟩ := (ht.2 c hc).refines
  obtain ⟨addr', hr', -, hsize⟩ := hr.evict seq.seqId
  have hkeys : (s.active.erase id).keys = s.active.keys.filter fun j => j ≠ id := Dict.keys_erase ..
  rw [hr'.claims_eq, h c hc, hsize, hactive, hkeys, PrefixClaims.evict, List.filter_filterMap,
    List.filterMap_filter]
  refine List.filterMap_congr fun j _ => ?_
  by_cases hj : j = id
  · subst hj
    rw [if_neg (by simp)]
    cases hclaim : claimOf s c.blockSize j with
    | none => rfl
    | some claim =>
      obtain ⟨other, hother, hslot⟩ := claimOf_slot hclaim
      obtain rfl := Option.some.inj (hseq.symm.trans hother)
      simp [hslot]
  · have hsame : claimOf s' c.blockSize j = claimOf s c.blockSize j := by
      refine claimOf_congr ?_ (by rw [hacc])
      rw [hactive, Dict.get?_erase, if_neg (Ne.symm hj)]
    rw [if_pos (by simpa using hj), hsame]
    cases hclaim : claimOf s c.blockSize j with
    | none => rfl
    | some claim =>
      obtain ⟨other, hother, hslot⟩ := claimOf_slot hclaim
      have hne : claim.1 ≠ seq.seqId := by
        intro he
        exact hj (hb.slot_unique hother hseq (hslot.trans he))
      simp [hne]

theorem InOrder.transition (h : InOrder s) (hb : Books env s) (htree : TreeMirrors env s)
    {l : Label} (ht : Transition env s l s') : InOrder s' := by
  cases ht with
  | accepted hw hnew hroom hres =>
    refine h.frame rfl rfl (fun _ => rfl) fun j hj => ?_
    rw [Dict.get?_set, if_neg]
    rintro rfl
    exact (hb.unissued hnew).2.1 hj
  | admitted hp hpool hslot => exact h.admitted_step hb htree hpool hslot _
  | decoded hp hkeys hactive =>
    refine h.frame rfl hkeys (fun j => ?_) fun _ _ => rfl
    rw [hactive, Option.map_map]
    rfl
  | @push idOf now seqId token todo id seq state hp hid hseq hstate hgo =>
    refine h.frame rfl (Dict.keys_set_of_mem (Dict.mem_keys.mpr ⟨seq, hseq⟩)) (fun j => ?_)
      fun _ _ => rfl
    simp only [pushedState, Dict.get?_set]
    split_ifs with hj
    · rw [← hj, hseq]
      rfl
    · rfl
  | finishSampled hp hid hseq hstate =>
    exact h.retired_step hb htree hstate rfl rfl rfl
  | dieSampled hp hid hseq hstate =>
    exact h.retired_step hb htree hstate rfl rfl rfl
  | finishFailed hp hseq hstate =>
    exact h.retired_step hb htree hstate rfl rfl rfl
  | dieFailed hp hseq hstate =>
    exact h.retired_step hb htree hstate rfl rfl rfl
  | _ => exact h.frame rfl rfl (fun _ => rfl) fun _ _ => rfl

theorem reachable_inOrder {allowed : State → Label → Prop}
    (h : Reachable (step env) allowed (start env) s) : InOrder s := by
  refine h.invariant (I := InOrder) (fun c hc => ?_) fun s l s' hr hi _ hs => ?_
  · obtain ⟨b, -, rfl⟩ := Option.map_eq_some_iff.mp hc
    rfl
  · exact hi.transition (reachable_books hr).1 (reachable_mirrors hr) (reachable_transition hr hs)

end Order

/-- How many whole blocks the prompt of a request shares with these tokens. -/
def shared (blockSize : ℕ) (tokens : List Token) (request : PendingRequest) : ℕ :=
  commonPrefix (blocks blockSize request.promptTokens) (blocks blockSize tokens)

section Refusals
variable {env : Env} {s : State}

theorem shared_short {blockSize : ℕ} (hb : 1 ≤ blockSize) {request : PendingRequest}
    (h : request.promptTokens.length < blockSize) (tokens : List Token) :
    shared blockSize tokens request = 0 := by
  rw [shared, (blocks_eq_nil hb _).mpr h]
  cases blocks blockSize tokens <;> rfl

/-- The donor is the newest of the active requests that share the most blocks. -/
theorem donor_of_hit {allowed : State → Label → Prop}
    (hr : Reachable (step env) allowed (start env) s) {c : PythonPrefixCache.Cache}
    (hc : s.prefixCache = some c) {tokens : List Token} (hhit : (c.matchForReuse tokens).hit) :
    ∃ older donor newer seq prompt, s.active.keys = older ++ donor :: newer ∧
      s.active.get? donor = some seq ∧ s.accepted.get? donor = some prompt ∧
      seq.seqId = (c.matchForReuse tokens).seqId ∧
      (∀ id ∈ older, ∀ request, s.accepted.get? id = some request →
        shared c.blockSize tokens request ≤ shared c.blockSize tokens prompt) ∧
      ∀ id ∈ newer, ∀ request, s.accepted.get? id = some request →
        shared c.blockSize tokens request < shared c.blockSize tokens prompt := by
  obtain ⟨addr, href⟩ := ((reachable_mirrors hr).2 c hc).refines
  have horder := reachable_inOrder hr c hc
  rw [PrefixMatch.hit, decide_eq_true_eq, href.matchForReuse_eq] at hhit
  obtain ⟨hpos, hdonor⟩ := reuseIn_donor hhit
  rw [← href.matchForReuse_eq] at hdonor
  obtain ⟨older, path, newer, hsplit, hpath, hnewer⟩ := donor_newest hdonor
  have hkeys := horder.symm.trans hsplit
  obtain ⟨before, rest, hall, hbefore, hrest⟩ := List.filterMap_eq_append_iff.mp hkeys
  obtain ⟨skipped, donor, after, hafter, -, hclaim, hnew⟩ := List.filterMap_eq_cons_iff.mp hrest
  obtain ⟨seq, hseq, hslot⟩ := claimOf_slot hclaim
  obtain ⟨prompt, hprompt, -⟩ := (reachable_books hr).1.request_of_active
    (Dict.mem_keys.mpr ⟨seq, hseq⟩)
  have hwhole : shared c.blockSize tokens prompt = depth c.claims (blocks c.blockSize tokens) := by
    rw [claimOf_eq hseq hprompt] at hclaim
    split_ifs at hclaim
    obtain ⟨-, rfl⟩ := Prod.mk.inj (Option.some.inj hclaim)
    exact hpath
  have hactive : ∀ id ∈ s.active.keys, ∀ request, s.accepted.get? id = some request →
      shared c.blockSize tokens request = 0 ∨ ∃ other, claimOf s c.blockSize id =
        some (other, blocks c.blockSize request.promptTokens) := by
    intro id hid request hreq
    obtain ⟨seq', hseq'⟩ := Dict.mem_keys.mp hid
    by_cases hlen : request.promptTokens.length < c.blockSize
    · exact .inl (shared_short c.blockSize_pos hlen tokens)
    · rw [claimOf_eq hseq' hreq, if_pos (not_lt.mp hlen)]
      exact .inr ⟨seq'.seqId, rfl⟩
  rw [hafter, ← List.append_assoc] at hall
  refine ⟨before ++ skipped, donor, after, seq, prompt, hall, hseq, hprompt, hslot,
    fun id hid request hreq => ?_, fun id hid request hreq => ?_⟩
  · have hin : id ∈ s.active.keys := hall ▸ List.mem_append_left _ hid
    rw [hwhole]
    rcases hactive id hin request hreq with hzero | ⟨other, hother⟩
    · omega
    · have hmem : (other, blocks c.blockSize request.promptTokens) ∈ c.claims := by
        rw [horder]
        exact List.mem_filterMap.mpr ⟨id, hin, hother⟩
      exact commonPrefix_le_depth hmem _
  · have hin : id ∈ s.active.keys :=
      hall ▸ List.mem_append_right _ (List.mem_cons_of_mem _ hid)
    rw [hwhole]
    rcases hactive id hin request hreq with hzero | ⟨other, hother⟩
    · omega
    · have hmem : (other, blocks c.blockSize request.promptTokens) ∈ newer := by
        rw [← hnew]
        exact List.mem_filterMap.mpr ⟨id, hid, hother⟩
      exact hnewer _ hmem

/-- The copy is refused exactly while the donor has not got there. -/
theorem reusePrefix_iff {allowed : State → Label → Prop}
    (hr : Reachable (step env) allowed (start env) s) (hs : s.phase.intact = true)
    {id : RequestId} {seq : ActiveSequence} (hseq : s.active.get? id = some seq) {slot : SeqId}
    (hslot : slot ∈ s.freeSlots) {n : ℕ} (hn : 0 < n) :
    (reusePrefix s.memory seq.seqId slot n).1 = true ↔ n ≤ seq.nPast := by
  have hb := (reachable_books hr).1
  obtain ⟨request, hreq, rfl⟩ := hb.request_of_active (Dict.mem_keys.mpr ⟨seq, hseq⟩)
  obtain ⟨cells, k, hsp⟩ := (reachable_contents hr).spelled hs request seq hseq hreq
  have hnot : ¬ (n = 0 ∨ seq.seqId = slot) := by
    rintro (h0 | he)
    · omega
    · exact hb.free_ne hslot hseq he
  have hpast := hsp.past
  rw [reusePrefix, if_neg hnot, hsp.holds.posMax_eq]
  split_ifs with hlt
  · simp only [false_iff]
    omega
  · simp only [true_iff]
    omega

/-- What the admission loop does with the request at its head. -/
theorem admitting_step {allowed : State → Label → Prop}
    (hr : Reachable (step env) allowed (start env) s) {request : PendingRequest}
    {todo : List PendingRequest} (hhead : s.phase = .admitting (request :: todo)) :
    ∃ slot, s.freeSlots.getLast? = some slot ∧ s.queue.pool.get? request.id = some request ∧
      step env s .loop = some (admittedState env s request slot (.admitting todo)) := by
  obtain ⟨-, hpool, hlen⟩ := (reachable_books hr).2.admitting hhead
  have hin := hpool request List.mem_cons_self
  have hne : s.freeSlots ≠ [] := by
    rintro he
    rw [he] at hlen
    simp at hlen
  have hslot := List.getLast?_eq_some_getLast hne
  refine ⟨_, hslot, hin, ?_⟩
  rw [← admitNext_eq hin hslot]
  simp only [step, iterate, hhead]

end Refusals

/-- A hit names the slot of another active request, which nobody has given back since that request
was admitted to it; the copy is refused if and only if the request has not got that far. -/
theorem refused_copy_iff (env : Env) (s : State) (h : Reachable (step env) anything (start env) s)
    (request : PendingRequest) (todo : List PendingRequest)
    (hhead : s.phase = .admitting (request :: todo)) (slot : SeqId)
    (hslot : s.freeSlots.getLast? = some slot) (c : PythonPrefixCache.Cache)
    (hc : s.prefixCache = some c) (hhit : (c.matchForReuse request.promptTokens).hit = true) :
    let hit := c.matchForReuse request.promptTokens
    ∃ donor seq, donor ≠ request.id ∧ s.active.get? donor = some seq ∧ seq.seqId = hit.seqId ∧
      hit.seqId ≠ slot ∧
      (∃ before n later, s.log = before ++ .admitted donor hit.seqId n :: later ∧
        ∀ j why m, .finished j why ∈ later → .admitted j hit.seqId m ∉ s.log) ∧
      ((reusePrefix s.memory hit.seqId slot hit.nTokens).1 = false ↔ seq.nPast < hit.nTokens) := by
  intro hit
  obtain ⟨hb, hstand⟩ := reachable_books h
  have hpool := (hstand.admitting hhead).2.1 request List.mem_cons_self
  have hfree := List.mem_of_getLast? hslot
  obtain ⟨older, donor, newer, seq, prompt, -, hseq, -, hdonor, -⟩ := donor_of_hit h hc hhit
  have hother : donor ≠ request.id := by
    rintro rfl
    exact hb.apart _ (Dict.mem_keys.mpr ⟨request, hpool⟩) (Dict.mem_keys.mpr ⟨seq, hseq⟩)
  have hpos : 0 < hit.nTokens := of_decide_eq_true hhit
  have hgrant := reusePrefix_iff h (by rw [hhead]; rfl) hseq hfree hpos
  obtain ⟨before, n, later, hlog, -, hnone⟩ := (reachable_tenure h).held donor seq hseq
  rw [hdonor] at hlog hnone hgrant
  refine ⟨donor, seq, hother, hseq, hdonor, fun he => hb.free_ne hfree hseq (hdonor.trans he),
    ⟨before, n, later, hlog, fun j why m hfin hadm => ?_⟩, ?_⟩
  · exact hnone j (List.ne_nil_of_mem (mem_finishes.mpr hfin)) m (mem_admissions.mpr hadm)
  · rw [← Bool.not_eq_true, hgrant, not_le]

/-- An active request whose prompt starts with the first `n` tokens has them in its cells. -/
def Resident (s : State) (tokens : List Token) (n : ℕ) : Prop :=
  ∃ id seq prompt, s.active.get? id = some seq ∧ s.accepted.get? id = some prompt ∧
    tokens.take n <+: prompt.promptTokens ∧ n ≤ seq.nPast

/-- The request at the head of the admission loop starts with `n` tokens in its cells. -/
def StartsAt (env : Env) (s : State) (id : RequestId) (n : ℕ) : Prop :=
  ∀ s', step env s .loop = some s' → (s'.active.get? id).map ActiveSequence.nPast = some n

/-- An admission with a hit starts at the offered length if the newest of the active requests that
share the most blocks has got there, and at zero otherwise. So what is resident is reused if and
only if it is not resident anywhere or that donor has got there. -/
theorem reuse_iff_donor_ready (env : Env) (s : State)
    (h : Reachable (step env) anything (start env) s) (request : PendingRequest)
    (todo : List PendingRequest) (hhead : s.phase = .admitting (request :: todo))
    (c : PythonPrefixCache.Cache) (hc : s.prefixCache = some c)
    (hhit : (c.matchForReuse request.promptTokens).hit = true) :
    let hit := c.matchForReuse request.promptTokens
    let common := shared c.blockSize request.promptTokens
    ∃ older donor newer seq prompt, s.active.keys = older ++ donor :: newer ∧
      s.active.keys.Sublist (admissionOrder s.log) ∧
      s.active.get? donor = some seq ∧ s.accepted.get? donor = some prompt ∧
      seq.seqId = hit.seqId ∧
      (∀ id ∈ older, ∀ p, s.accepted.get? id = some p → common p ≤ common prompt) ∧
      (∀ id ∈ newer, ∀ p, s.accepted.get? id = some p → common p < common prompt) ∧
      StartsAt env s request.id (if hit.nTokens ≤ seq.nPast then hit.nTokens else 0) ∧
      ((Resident s request.promptTokens hit.nTokens →
          StartsAt env s request.id hit.nTokens) ↔
        ¬ Resident s request.promptTokens hit.nTokens ∨ hit.nTokens ≤ seq.nPast) := by
  intro hit common
  obtain ⟨older, donor, newer, seq, prompt, hkeys, hseq, hprompt, hdonor, holder, hnewer⟩ :=
    donor_of_hit h hc hhit
  have hpos : 0 < hit.nTokens := of_decide_eq_true hhit
  obtain ⟨slot, hslot, -, hadmitted⟩ := admitting_step h hhead
  have hstarts : StartsAt env s request.id
      (if hit.nTokens ≤ seq.nPast then hit.nTokens else 0) := by
    intro s' hstep
    obtain rfl := Option.some.inj (hadmitted.symm.trans hstep)
    have hgrant := reusePrefix_iff h (by rw [hhead]; rfl) hseq (List.mem_of_getLast? hslot) hpos
    rw [hdonor] at hgrant
    have hclaim : (claimPrefix s request slot).1 =
        if (reusePrefix s.memory hit.seqId slot hit.nTokens).1 then hit.nTokens else 0 := by
      simp [claimPrefix, hc, hhit, hit]
    show ((s.active.set request.id _).get? request.id).map ActiveSequence.nPast = _
    rw [Dict.get?_set, if_pos rfl, Option.map_some, hclaim]
    exact congrArg some (if_congr hgrant rfl rfl)
  refine ⟨older, donor, newer, seq, prompt, hkeys, (reachable_tenure h).order, hseq, hprompt,
    hdonor, holder, hnewer, hstarts, fun hclaim => or_iff_not_imp_left.mpr fun hres => ?_,
    fun hcond hres => ?_⟩
  · -- The donor that is behind would have left the admission at zero.
    by_contra hbehind
    have hzero := hstarts _ hadmitted
    rw [if_neg hbehind, hclaim (not_not.mp hres) _ hadmitted, Option.some.injEq] at hzero
    omega
  · rw [if_pos (hcond.resolve_left fun hno => hno hres)] at hstarts
    exact hstarts

section Demo

def demoBurst : Env := { demo with nSeqMax := 3 }

def demoLong : GenerateRequest := { demoBody with prompt := "abcde", prompt_nonempty := by decide }

/-- The second of three equal prompts is refused a copy from the first, and halfway through its own
prefill becomes the donor of the third, while the first has all of it. -/
def demoRefusal : List Label :=
  [.generate 0 demoLong] ++ List.replicate 5 .loop ++ [.decoded (fun _ => 1) [2], .loop] ++
    [.generate 1 demoLong] ++ List.replicate 5 .loop ++ [.decoded (fun _ => 1) [2, 1], .loop] ++
    [.generate 2 demoLong] ++ List.replicate 3 .loop

/-- Who is about to be admitted, and what the cache offers. -/
def offering (s : State) : Option (PendingRequest × PrefixMatch) :=
  match s.phase, s.prefixCache with
  | .admitting (request :: _), some c => some (request, c.matchForReuse request.promptTokens)
  | _, _ => none

theorem offering_some {s : State} {request : PendingRequest} {hit : PrefixMatch}
    (h : offering s = some (request, hit)) : ∃ todo c, s.phase = .admitting (request :: todo) ∧
      s.prefixCache = some c ∧ c.matchForReuse request.promptTokens = hit := by
  unfold offering at h
  split at h
  · rename_i r todo c hphase hcache
    obtain ⟨rfl, rfl⟩ := Prod.mk.inj (Option.some.inj h)
    exact ⟨todo, c, hphase, hcache, rfl⟩
  · simp at h

theorem demoRefusal_offers : ∃ s, run (step demoBurst) (start demoBurst) demoRefusal = some s ∧
    offering s = some (⟨2, [1, 1, 1, 1, 1], 2, 1, 2⟩, ⟨4, 1⟩) ∧ s.freeSlots.getLast? = some 0 ∧
    s.active.get? 0 = some ⟨2, [1], 4⟩ ∧
    s.accepted.get? 0 = some ⟨0, [1, 1, 1, 1, 1], 2, 1, 0⟩ ∧
    ((step demoBurst s .loop).bind fun s' => s'.active.get? 2).map ActiveSequence.nPast =
      some 0 := by
  obtain ⟨s, hs⟩ := Option.isSome_iff_exists.mp
    (by decide +kernel : (run (step demoBurst) (start demoBurst) demoRefusal).isSome)
  have hoffer : (run (step demoBurst) (start demoBurst) demoRefusal).map (fun s =>
      (offering s, s.freeSlots.getLast?)) =
      some (some (⟨2, [1, 1, 1, 1, 1], 2, 1, 2⟩, ⟨4, 1⟩), some 0) := by decide +kernel
  have hfirst : (run (step demoBurst) (start demoBurst) demoRefusal).map (fun s =>
      (s.active.get? 0, s.accepted.get? 0,
        ((step demoBurst s .loop).bind fun s' => s'.active.get? 2).map ActiveSequence.nPast)) =
      some (some ⟨2, [1], 4⟩, some ⟨0, [1, 1, 1, 1, 1], 2, 1, 0⟩, some 0) := by decide +kernel
  rw [hs, Option.map_some, Option.some.injEq] at hoffer hfirst
  simp only [Prod.mk.injEq] at hoffer hfirst
  exact ⟨s, hs, hoffer.1, hoffer.2, hfirst⟩

theorem refused_copy_iff_demo : ∃ s, run (step demoBurst) (start demoBurst) demoRefusal = some s ∧
    ∃ donor seq, s.active.get? donor = some seq ∧ seq.seqId = 1 ∧
      ((reusePrefix s.memory 1 0 4).1 = false ↔ seq.nPast < 4) := by
  obtain ⟨s, hs, hoffer, hslot, -⟩ := demoRefusal_offers
  obtain ⟨todo, c, hhead, hc, hhit⟩ := offering_some hoffer
  obtain ⟨donor, seq, -, hseq, hdonor, -, -, hiff⟩ := refused_copy_iff demoBurst s
    (Reachable.init.run hs) _ todo hhead 0 hslot c hc (by rw [hhit]; rfl)
  rw [hhit] at hdonor hiff
  exact ⟨s, hs, donor, seq, hseq, hdonor, hiff⟩

/-- The donor is behind while the first request has all that is offered. -/
theorem reuse_iff_donor_ready_demo :
    ∃ s, run (step demoBurst) (start demoBurst) demoRefusal = some s ∧
      ∃ donor seq, s.active.get? donor = some seq ∧ seq.seqId = 1 ∧
        StartsAt demoBurst s 2 (if 4 ≤ seq.nPast then 4 else 0) ∧
        ((Resident s [1, 1, 1, 1, 1] 4 → StartsAt demoBurst s 2 4) ↔ 4 ≤ seq.nPast) := by
  obtain ⟨s, hs, hoffer, -, hfirst, haccepted, -⟩ := demoRefusal_offers
  obtain ⟨todo, c, hhead, hc, hhit⟩ := offering_some hoffer
  obtain ⟨-, donor, -, seq, -, -, -, hseq, -, hdonor, -, -, hnext, hiff⟩ :=
    reuse_iff_donor_ready demoBurst s (Reachable.init.run hs) _ todo hhead c hc (by rw [hhit]; rfl)
  rw [hhit] at hdonor hnext hiff
  have hres : Resident s [1, 1, 1, 1, 1] 4 :=
    ⟨0, _, _, hfirst, haccepted, by decide, by decide⟩
  exact ⟨s, hs, donor, seq, hseq, hdonor, hnext, hiff.trans (or_iff_right (not_not.mpr hres))⟩

/-- The third request starts from nothing although the first has all that was offered. -/
theorem resident_prefix_refused : ¬ ∀ (env : Env) (s : State),
    Reachable (step env) anything (start env) s → ∀ (request : PendingRequest)
      (todo : List PendingRequest) (c : PythonPrefixCache.Cache),
      s.phase = .admitting (request :: todo) → s.prefixCache = some c →
      0 < (c.matchForReuse request.promptTokens).nTokens →
      Resident s request.promptTokens (c.matchForReuse request.promptTokens).nTokens →
      StartsAt env s request.id (c.matchForReuse request.promptTokens).nTokens := by
  intro hall
  obtain ⟨s, hs, hoffer, -, hseq, hacc, hnext⟩ := demoRefusal_offers
  obtain ⟨todo, c, hhead, hc, hhit⟩ := offering_some hoffer
  have hreach : Reachable (step demoBurst) anything (start demoBurst) s := Reachable.init.run hs
  obtain ⟨slot, -, -, hstep⟩ := admitting_step hreach hhead
  have hreused := hall demoBurst s hreach _ todo c hhead hc (by rw [hhit]; decide)
    ⟨0, _, _, hseq, hacc, by rw [hhit]; decide, by rw [hhit]⟩ _ hstep
  rw [hstep, Option.bind_some, hreused, hhit] at hnext
  simp at hnext

end Demo

end TinyServe.BatchLoop
