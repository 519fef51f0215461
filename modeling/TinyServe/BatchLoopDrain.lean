import TinyServe.BatchBuilderShares
import TinyServe.BatchLoopAdmission
import TinyServe.BatchLoopProgress
import Mathlib.Algebra.Order.BigOperators.Group.List

set_option autoImplicit false

/-! Without new requests the server does a bounded amount of work and comes to rest. -/
namespace TinyServe.BatchLoop
open OrderedDict SequenceMemory BatchBuilder Scheduler LlamaRuntime Runs

section Measures

/-- How many requests wait or run. -/
def held (s : State) : ℕ := s.queue.depth + s.active.size

/-- What an active request has left: tokens to feed and tokens to sample. -/
def load (s : State) (id : RequestId) : ℕ :=
  ((s.active.get? id).map fun seq => seq.pendingTokens.length).getD 0 +
    ((s.requests.get? id).map fun state => state.remainingTokens.toNat).getD 0

/-- The work that has been accepted and not done. -/
def backlog (s : State) : ℕ :=
  (s.queue.waiting.map fun request => request.promptTokens.length + request.maxTokens).sum +
    (s.active.keys.map (load s)).sum

/-- The turns left from a phase before the next decode, the next request that ends, or rest. -/
def Phase.turns (held depth : ℕ) : Phase → ℕ
  | .top => 3 * held + if held = 0 then 2 else 6
  | .expiring _ todo woken => todo.length + 2 * held + if woken = false ∧ held = 0 then 1 else 5
  | .idle => if depth = 0 then 0 else 3 * held + 6
  | .admitting todo => todo.length + held + 4
  | .decoding _ => held + 1
  | .distributing _ _ todo => todo.length + 3 * held + 7
  | .failing [] => 3 * held + 7
  | .failing todo => todo.length
  | .dead _ => 0

def turnsLeft (s : State) : ℕ := s.phase.turns (held s) s.queue.depth

/-- The labels that are the server's own. -/
def Label.own : Label → Bool
  | .loop | .decoded _ _ | .decodeFailed _ => true
  | _ => false

def Label.arrival : Label → Bool
  | .generate _ _ => true
  | _ => false

end Measures

section Kept
variable {env : Env} {s s' : State} {l : Label}

/-- A batch in flight has rows, and the server only rests when nothing is active. -/
def Busy (s : State) : Prop :=
  match s.phase with
  | .decoding prepared => prepared.rows ≠ []
  | .idle => s.active.size = 0
  | _ => True

theorem Busy.awaiting (h : Busy s) (hp : s'.phase = s.phase) (ha : s'.active = s.active) :
    Busy s' := by
  rw [Busy, hp, ha]
  exact h

theorem Busy.transition (h : Busy s) (ht : Transition env s l s') : Busy s' := by
  cases ht with
  | rejected | accepted | setPolicy | cancel | receive | leave => exact h.awaiting rfl rfl
  | rest hp ha hq => exact ha
  | build hp hprep hne => exact hne
  | _ => trivial

theorem reachable_busy {allowed : State → Label → Prop}
    (h : Reachable (step env) allowed (start env) s) : Busy s :=
  h.invariant (I := Busy) (by simp [Busy, start]) fun _ _ _ hr hi _ hs =>
    hi.transition (reachable_transition hr hs)

theorem load_congr {j : RequestId} (ha : s'.active.get? j = s.active.get? j)
    (hr : s'.requests.get? j = s.requests.get? j) : load s' j = load s j := by
  rw [load, load, ha, hr]

theorem backlog_congr (hq : s'.queue = s.queue) (hk : s'.active.keys = s.active.keys)
    (hl : ∀ j ∈ s.active.keys, load s' j ≤ load s j) : backlog s' ≤ backlog s := by
  rw [backlog, backlog, hq, hk]
  exact Nat.add_le_add_left (List.sum_le_sum hl) _

/-- The work and the turns that are left, in the order in which they are spent. -/
def Spends (s s' : State) : Prop :=
  held s' ≤ held s ∧
    (backlog s' < backlog s ∨ backlog s' ≤ backlog s ∧ turnsLeft s' < turnsLeft s)

theorem Spends.moved (hq : s'.queue = s.queue) (ha : s'.active = s.active)
    (hr : s'.requests = s.requests)
    (ht : s'.phase.turns (held s) s.queue.depth < s.phase.turns (held s) s.queue.depth) :
    Spends s s' := by
  have hh : held s' = held s := by rw [held, held, hq, ha]
  refine ⟨hh.le, .inr ⟨backlog_congr hq (by rw [ha]) fun j _ => ?_, ?_⟩⟩
  · exact (load_congr (by rw [ha]) (by rw [hr])).le
  · rw [turnsLeft, turnsLeft, hh, hq]
    exact ht

theorem Spends.expired {now : Time} {request : PendingRequest} {todo : List PendingRequest}
    {woken : Bool} (hh : held s' + 1 = held s) (hw : backlog s' ≤ backlog s)
    (hp : s.phase = .expiring now (request :: todo) woken)
    (hp' : s'.phase = .expiring now todo woken) : Spends s s' := by
  have hsome : ¬ (woken = false ∧ held s = 0) := by omega
  refine ⟨by omega, .inr ⟨hw, ?_⟩⟩
  rw [turnsLeft, turnsLeft, hp, hp']
  simp only [Phase.turns, List.length_cons, if_neg hsome]
  split_ifs <;> omega

/-- A request that ends takes its load with it, at least the token it was to sample next. -/
theorem Spends.retired (hb : Books env s) (hacc : Accounts env s) {id : RequestId}
    {state : RequestState} (hstate : s.requests.get? id = some state) (hq : s'.queue = s.queue)
    (ha : s'.active = s.active.erase id) (hr : s'.requests = s.requests.erase id) :
    Spends s s' := by
  obtain ⟨seq, hseq, -⟩ := hb.seq_of_state hstate
  have hin : id ∈ s.active.keys := Dict.mem_keys.mpr ⟨seq, hseq⟩
  obtain ⟨request, hreq, -⟩ := hb.request_of_active hin
  have hpos := (hacc.running id state request hstate hreq).1.positive
  have hload : 0 < load s id := by
    rw [load, hstate]
    simp only [Option.map_some, Option.getD_some]
    omega
  refine ⟨?_, .inl ?_⟩
  · rw [held, held, hq, ha, Dict.size_erase hseq]
    omega
  · have hsplit := ((Dict.keys_perm_erase hin).map (load s)).sum_eq
    rw [List.map_cons, List.sum_cons] at hsplit
    have hsame : (s.active.erase id).keys.map (load s') = (s.active.erase id).keys.map (load s) := by
      refine List.map_congr_left fun j hj => ?_
      obtain ⟨hne, -⟩ := Dict.mem_keys_erase.mp hj
      refine load_congr ?_ ?_
      · rw [ha, Dict.get?_erase, if_neg (Ne.symm hne)]
      · rw [hr, Dict.get?_erase, if_neg (Ne.symm hne)]
    rw [backlog, backlog, hq, ha, hsame]
    omega

theorem held_expired {request : PendingRequest}
    (hpool : s.queue.pool.get? request.id = some request)
    (hq : s'.queue = ⟨s.queue.pool.erase request.id⟩) (ha : s'.active = s.active)
    (hr : s'.requests = s.requests) : held s' + 1 = held s ∧ backlog s' ≤ backlog s := by
  have hload : ∀ j, load s' j = load s j := fun j => load_congr (by rw [ha]) (by rw [hr])
  constructor
  · rw [held, held, hq, ha]
    show (s.queue.pool.erase request.id).size + _ + 1 = s.queue.pool.size + _
    rw [Dict.size_erase hpool]
    omega
  · have hsum := ((Dict.values_perm_erase hpool).map fun request : PendingRequest =>
      request.promptTokens.length + request.maxTokens).sum_eq
    rw [List.map_cons, List.sum_cons] at hsum
    rw [backlog, backlog, hq, ha, List.map_congr_left fun j _ => hload j]
    show ((s.queue.pool.erase request.id).values.map _).sum + _ ≤ (s.queue.pool.values.map _).sum + _
    omega

/-- Admission moves the work of a request from the queue to the active ones. -/
theorem held_admitted (hb : Books env s) {request : PendingRequest} {seqId : SeqId} {phase : Phase}
    (hpool : s.queue.pool.get? request.id = some request) :
    held (admittedState env s request seqId phase) = held s ∧
      backlog (admittedState env s request seqId phase) ≤ backlog s := by
  have hfresh := hb.apart _ (Dict.mem_keys.mpr ⟨request, hpool⟩)
  constructor
  · show (s.queue.pool.erase request.id).size + (s.active.set request.id _).size =
      s.queue.pool.size + s.active.size
    rw [Dict.size_set_of_fresh hfresh, Dict.size_erase hpool]
    omega
  · have hsum := ((Dict.values_perm_erase hpool).map fun request : PendingRequest =>
      request.promptTokens.length + request.maxTokens).sum_eq
    rw [List.map_cons, List.sum_cons] at hsum
    have hold : ∀ j ∈ s.active.keys,
        load (admittedState env s request seqId phase) j = load s j := by
      intro j hj
      have hne : request.id ≠ j := fun he => hfresh (he ▸ hj)
      refine load_congr ?_ ?_
      · exact (Dict.get?_set ..).trans (if_neg hne)
      · exact (Dict.get?_set ..).trans (if_neg hne)
    have hnew : load (admittedState env s request seqId phase) request.id ≤
        request.promptTokens.length + request.maxTokens := by
      simp [load, admittedState]
    have hkeys : (admittedState env s request seqId phase).active.keys =
        s.active.keys ++ [request.id] := Dict.keys_set_of_fresh hfresh
    rw [backlog, backlog, hkeys, List.map_append, List.sum_append, List.map_congr_left hold,
      List.map_singleton, List.sum_singleton]
    show ((s.queue.pool.erase request.id).values.map _).sum + _ ≤ (s.queue.pool.values.map _).sum + _
    omega

/-- A decode feeds at least one pending token and leaves the rest to feed. -/
theorem Spends.decoded (hb : Books env s) (hne : Busy s) {prepared : PreparedBatch}
    (hp : s.phase = .decoding prepared)
    (hprep : prepared = buildBatch s.active.values env.batchCapacity env.chunkSize)
    (hkeys : s'.active.keys = s.active.keys)
    (hactive : ∀ id, s'.active.get? id = (s.active.get? id).map (consume prepared))
    (hq : s'.queue = s.queue) (hr : s'.requests = s.requests) : Spends s s' := by
  rw [Busy, hp] at hne
  have hle : ∀ j ∈ s.active.keys, load s' j ≤ load s j := by
    intro j hj
    obtain ⟨seq, hseq⟩ := Dict.mem_keys.mp hj
    rw [load, load, hactive, hseq, hr]
    simp [consume]
  have hlt : ∃ j ∈ s.active.keys, load s' j < load s j := by
    obtain ⟨row, hrow⟩ := List.exists_mem_of_ne_nil _ hne
    obtain ⟨seq, hmem, hslot⟩ := buildBatch_seqId (hprep ▸ hrow)
    obtain ⟨j, hseq⟩ := Dict.mem_values.mp hmem
    obtain ⟨take, htake, -, hcount⟩ := hb.rows_of_active hseq hprep
    have hpos : 0 < prepared.rowCount seq.seqId := rowCount_pos.mpr ⟨row, hrow, hslot⟩
    refine ⟨j, Dict.mem_keys.mpr ⟨seq, hseq⟩, ?_⟩
    rw [load, load, hactive, hseq, hr]
    simp only [Option.map_some, Option.getD_some, consume, List.length_drop]
    omega
  refine ⟨?_, .inl ?_⟩
  · rw [held, held, hq, Dict.size_eq_keys, Dict.size_eq_keys, hkeys]
  · rw [backlog, backlog, hq, hkeys]
    exact Nat.add_lt_add_left (List.sum_lt_sum _ _ hle hlt) _

/-- A pushed token is one to feed in place of one to sample. -/
theorem held_pushed {id : RequestId} {seq : ActiveSequence} {state : RequestState} {now : Time}
    {token : Token} {phase : Phase} (hseq : s.active.get? id = some seq)
    (hstate : s.requests.get? id = some state) (hnil : seq.pendingTokens = [])
    (hpos : 0 < state.remainingTokens) :
    held (pushedState env s id seq state now token phase) = held s ∧
      backlog (pushedState env s id seq state now token phase) ≤ backlog s := by
  have hin : id ∈ s.active.keys := Dict.mem_keys.mpr ⟨seq, hseq⟩
  refine ⟨?_, backlog_congr rfl (Dict.keys_set_of_mem hin) fun j hj => ?_⟩
  · show s.queue.depth + (s.active.set id _).size = s.queue.depth + s.active.size
    rw [Dict.size_set_of_mem hin]
  · by_cases hid : id = j
    · subst hid
      have hleft : (state.remainingTokens - 1).toNat + 1 = state.remainingTokens.toNat := by omega
      rw [load, load, hseq, hstate]
      simp only [pushedState, Dict.get?_set, ↓reduceIte, Option.map_some, Option.getD_some, hnil,
        List.length_nil, List.length_singleton, decremented]
      omega
    · refine (load_congr ?_ ?_).le
      · exact (Dict.get?_set ..).trans (if_neg hid)
      · exact (Dict.get?_set ..).trans (if_neg hid)

end Kept

section Turns
variable {env : Env} {s s' : State}

theorem todo_le_held {todo : List PendingRequest} (hn : (todo.map PendingRequest.id).Nodup)
    (hin : ∀ r ∈ todo, s.queue.pool.get? r.id = some r) : todo.length ≤ held s := by
  have hsub : todo.map PendingRequest.id ⊆ s.queue.pool.keys := by
    intro id hid
    obtain ⟨r, hr, rfl⟩ := List.mem_map.mp hid
    exact Dict.mem_keys.mpr ⟨r, hin r hr⟩
  have hle := (List.subperm_of_subset hn hsub).length_le
  rw [List.length_map, ← Dict.size_eq_keys] at hle
  exact hle.trans (Nat.le_add_right _ _)

theorem failing_le_held (hs : Standing env s) {todo : List RequestId}
    (hp : s.phase = .failing todo) : todo.length ≤ held s := by
  obtain ⟨hn, hin⟩ := hs.failing hp
  have hle := (List.subperm_of_subset hn fun id hid => (hin id).mp hid).length_le
  rw [← Dict.size_eq_keys] at hle
  exact hle.trans (Nat.le_add_left _ _)

/-- Two tokens on their way belong to two active sequences. -/
theorem distributing_le_held (hs : Standing env s) {idOf : Dict SeqId RequestId} {now : Time}
    {todo : List (SeqId × Token)} (hp : s.phase = .distributing idOf now todo) :
    todo.length ≤ held s := by
  obtain ⟨hn, hin⟩ := hs.distributing hp
  have hsub : todo.map Prod.fst ⊆ s.active.values.map ActiveSequence.seqId := by
    intro seqId hm
    obtain ⟨e, he, rfl⟩ := List.mem_map.mp hm
    obtain ⟨id, seq, -, hseq, hslot⟩ := hin e he
    exact List.mem_map.mpr ⟨seq, Dict.mem_values.mpr ⟨id, hseq⟩, hslot⟩
  have hle := (List.subperm_of_subset hn hsub).length_le
  rw [List.length_map, List.length_map, Dict.values, List.length_map] at hle
  exact hle.trans (Nat.le_add_left _ _)

theorem turnsLeft_le (hs : Standing env s) : turnsLeft s ≤ 4 * held s + 7 := by
  rw [turnsLeft]
  cases hp : s.phase with
  | top =>
    simp only [Phase.turns]
    split_ifs <;> omega
  | expiring now todo woken =>
    obtain ⟨hn, hin⟩ := hs.expiring hp
    have hle := todo_le_held hn hin
    simp only [Phase.turns]
    split_ifs <;> omega
  | idle =>
    simp only [Phase.turns]
    split_ifs <;> omega
  | admitting todo =>
    obtain ⟨hn, hin, -⟩ := hs.admitting hp
    have hle := todo_le_held hn hin
    simp only [Phase.turns]
    omega
  | decoding prepared =>
    simp only [Phase.turns]
    omega
  | distributing idOf now todo =>
    have hle := distributing_le_held hs hp
    simp only [Phase.turns]
    omega
  | failing todo =>
    have hle := failing_le_held hs hp
    cases todo with
    | nil =>
      simp only [Phase.turns]
      omega
    | cons id todo =>
      simp only [Phase.turns]
      omega
  | dead e => exact Nat.zero_le _

/-- With room for a batch and prompts that are not empty a tick builds nothing only if there is
nothing to do. -/
theorem built_nothing (hr : Reachable (step env) anything (start env) s)
    (hcap : env.totalTokens ≤ env.batchCapacity) (hchunk : 1 ≤ env.chunkSize)
    (hslots : 1 ≤ env.nSeqMax)
    (hprompts : ∀ id request, s.accepted.get? id = some request → request.promptTokens ≠ [])
    (hp : s.phase = .admitting [])
    (hnil : (buildBatch s.active.values env.batchCapacity env.chunkSize).rows = []) :
    held s = 0 := by
  obtain ⟨hb, -⟩ := reachable_books hr
  have hempty : s.active.size = 0 := by
    refine (rows_nil_iff fun id seq hseq => ?_).mp hnil
    obtain ⟨request, hreq, rfl⟩ := hb.request_of_active (Dict.mem_keys.mpr ⟨seq, hseq⟩)
    have hfed := ((reachable_progress hr hcap hchunk).prefill (by rw [hp]; rfl) request seq hseq
      hreq (hprompts _ _ hreq)).fed.resolve_right (by simp [hp, Phase.undelivered])
    have hpos := List.length_pos_iff.mpr hfed
    rw [rowCount_full hr hcap hseq rfl]
    omega
  have hfree : s.freeSlots.length = env.nSeqMax := by
    have hlen := hb.slots.length_eq
    have hvals : s.active.values = [] := by
      rw [Dict.values, List.length_eq_zero_iff.mp hempty, List.map_nil]
    rw [hvals, List.map_nil, List.append_nil] at hlen
    rw [hlen, slots, List.length_map, List.length_range]
  have hlen := reachable_sized hr [] hp
  have hdepth : s.queue.waiting.length = s.queue.depth := List.length_map _
  rw [List.length_nil, hdepth, hfree] at hlen
  rw [held, hempty]
  omega

theorem held_awake {now : Time} {woken : Bool} (hp : s.phase = .expiring now [] woken)
    (hs : step env s .loop = some s') (hmoved : s'.phase ≠ .idle) :
    ¬ (woken = false ∧ held s = 0) := by
  rintro ⟨hw, hnone⟩
  obtain ⟨hq, ha⟩ := Nat.add_eq_zero_iff.mp hnone
  exact awake_of_step hp hs hmoved ⟨hw, ha, hq⟩

theorem requests_busy (hb : Books env s) (hs : Standing env s) (hne : Busy s)
    {prepared : PreparedBatch} (hp : s.phase = .decoding prepared) : s.requests.keys ≠ [] := by
  rw [Busy, hp] at hne
  obtain ⟨row, hrow⟩ := List.exists_mem_of_ne_nil _ hne
  obtain ⟨seq, hmem, -⟩ := buildBatch_seqId (hs.decoding hp ▸ hrow)
  obtain ⟨id, hseq⟩ := Dict.mem_values.mp hmem
  exact List.ne_nil_of_mem ((hb.keys_agree id).mpr (Dict.mem_keys.mpr ⟨seq, hseq⟩))

theorem spends_own (hr : Reachable (step env) anything (start env) s)
    (hcap : env.totalTokens ≤ env.batchCapacity) (hchunk : 1 ≤ env.chunkSize)
    (hslots : 1 ≤ env.nSeqMax)
    (hprompts : ∀ id request, s.accepted.get? id = some request → request.promptTokens ≠ [])
    {l : Label} (hl : l.own = true) (hstep : step env s l = some s') : Spends s s' := by
  obtain ⟨hb, hs⟩ := reachable_books hr
  have hacc := reachable_accounts hr
  have hc := reachable_contents hr
  have hwaiting : s.queue.waiting.length = s.queue.depth := List.length_map _
  have ht := reachable_transition hr hstep
  have hs' := (reachable_books (hr.next trivial hstep)).2
  cases ht with
  | rejected | accepted | setPolicy | cancel | receive | leave => simp [Label.own] at hl
  | beginExpiry hp =>
    refine .moved rfl rfl rfl ?_
    simp only [hp, Phase.turns, held, hwaiting]
    grind
  | wake hp hq =>
    refine .moved rfl rfl rfl ?_
    simp only [hp, Phase.turns, hwaiting, if_neg hq, held]
    grind
  | keep hp hfresh =>
    refine .moved rfl rfl rfl ?_
    simp only [hp, Phase.turns, List.length_cons]
    omega
  | @expire now request todo woken hp hstale hpool =>
    obtain ⟨hh, hw⟩ := @held_expired s (expiredState env s request.id (.expiring now todo woken))
      request hpool rfl rfl rfl
    exact .expired hh hw hp rfl
  | rest hp ha hq =>
    refine .moved rfl rfl rfl ?_
    simp only [hp, Phase.turns, hq, List.length_nil]
    split_ifs <;> omega
  | full hp hf =>
    refine .moved rfl rfl rfl ?_
    simp only [hp, Phase.turns, if_neg (held_awake hp hstep (by simp)), List.length_nil]
    omega
  | select hp hf hsel =>
    obtain ⟨hn, hin, -⟩ := hs'.admitting rfl
    have hle : _ ≤ held s := todo_le_held hn hin
    refine .moved rfl rfl rfl ?_
    simp only [hp, Phase.turns, if_neg (held_awake hp hstep (by simp)), List.length_nil]
    omega
  | selectRaised hp hf hsel =>
    refine .moved rfl rfl rfl ?_
    simp only [hp, Phase.turns]
    split_ifs <;> omega
  | @admitted request todo seqId hp hpool hslot =>
    obtain ⟨hh, hw⟩ := @held_admitted env s hb request seqId (.admitting todo) hpool
    refine ⟨hh.le, .inr ⟨hw, ?_⟩⟩
    rw [turnsLeft, turnsLeft, hh, hp]
    simp only [admittedState, Phase.turns, List.length_cons]
    omega
  | buildNothing hp hnil =>
    have hnone := built_nothing hr hcap hchunk hslots hprompts hp hnil
    refine .moved rfl rfl rfl ?_
    simp [hp, Phase.turns, hnone]
  | build hp hprep hne =>
    refine .moved rfl rfl rfl ?_
    simp only [hp, Phase.turns, List.length_nil]
    omega
  | decoded hp hkeys hactive =>
    exact .decoded hb (reachable_busy hr) hp (hs.decoding hp) hkeys hactive rfl rfl
  | decodeFailed hp =>
    have hle : s.requests.keys.length ≤ held s := failing_le_held hs' rfl
    have hsome : s.requests.keys ≠ [] := requests_busy hb hs (reachable_busy hr) hp
    refine .moved rfl rfl rfl ?_
    simp only [hp]
    cases hkeys : s.requests.keys with
    | nil => exact absurd hkeys hsome
    | cons id rest =>
      rw [hkeys] at hle
      simp only [Phase.turns]
      omega
  | finishSampled hp hid hseq hstate hwhy hnt => exact .retired hb hacc hstate rfl rfl rfl
  | dieSampled hp hid hseq hstate hwhy hnt => exact .retired hb hacc hstate rfl rfl rfl
  | @push idOf now seqId token todo id seq state hp hid hseq hstate hgo =>
    have hslot := (hs.tail_distributing hp hid hseq).1
    have hnil := hc.drained (seqId, token) (by simp [hp, Phase.undelivered]) id seq hseq hslot
    have hpos : 0 < state.remainingTokens - 1 := hgo.2.1
    obtain ⟨hh, hw⟩ := @held_pushed env s id seq state now token (.distributing idOf now todo)
      hseq hstate hnil (by omega)
    refine ⟨hh.le, .inr ⟨hw, ?_⟩⟩
    rw [turnsLeft, turnsLeft, hh, hp]
    simp only [pushedState, Phase.turns, List.length_cons]
    omega
  | finishFailed hp hseq hstate hnt => exact .retired hb hacc hstate rfl rfl rfl
  | dieFailed hp hseq hstate hnt => exact .retired hb hacc hstate rfl rfl rfl
  | endTick hp =>
    refine .moved rfl rfl rfl ?_
    rcases hp with ⟨idOf, now, hp⟩ | hp
    · simp only [hp, Phase.turns, List.length_nil]
      split_ifs <;> omega
    · simp only [hp, Phase.turns]
      split_ifs <;> omega

/-- Clients that read, cancel or leave and a change of policy leave the work as it is. -/
theorem kept_away {l : Label} (ht : Transition env s l s') (hl : l.own = false)
    (ha : l.arrival = false) : held s' = held s ∧ backlog s' = backlog s ∧
      turnsLeft s' = turnsLeft s := by
  cases ht with
  | setPolicy | cancel | receive | leave => exact ⟨rfl, rfl, rfl⟩
  | rejected | accepted => simp [Label.arrival] at ha
  | _ => simp [Label.own] at hl

theorem accepted_kept {l : Label} (ht : Transition env s l s') (ha : l.arrival = false) :
    s'.accepted = s.accepted := by
  cases ht with
  | rejected | accepted => simp [Label.arrival] at ha
  | _ => rfl

end Turns

section Rest
variable {env : Env} {s s' : State}

/-- The server as it started: nobody waits or runs, and nothing is in use. -/
structure AtRest (env : Env) (s : State) : Prop where
  nobody : held s = 0
  slots : s.freeSlots.Perm (slots env)
  blocks : s.kvCache.freeBlocks = env.totalTokens / env.kvBlockSize
  tree : ∀ c, s.prefixCache = some c → c.nodeCount = 0
  cells : ∀ t, Holds s.memory t []

theorem atRest_of_held (hr : Reachable (step env) anything (start env) s) (hh : held s = 0) :
    AtRest env s := by
  obtain ⟨hb, -⟩ := reachable_books hr
  obtain ⟨hq, ha⟩ := Nat.add_eq_zero_iff.mp hh
  have hactive : s.active.keys = [] := by
    rw [← List.length_eq_zero_iff, ← Dict.size_eq_keys, ha]
  have hgone : ∀ id seq, s.active.get? id ≠ some seq := by
    intro id seq hseq
    have hin := Dict.mem_keys.mpr ⟨seq, hseq⟩
    rw [hactive] at hin
    simp at hin
  refine ⟨hh, ?_, ?_, fun c hc => ?_, fun t => ?_⟩
  · have hslots := hb.slots
    rw [Dict.values, List.length_eq_zero_iff.mp ha, List.map_nil, List.map_nil,
      List.append_nil] at hslots
    exact hslots
  · have hsum := hb.blocks_balance
    have hnone : reservations s = [] := by
      rw [reservations, hactive, List.filterMap_nil, List.append_nil, ← List.length_eq_zero_iff]
      exact (List.length_map _).trans hq
    rw [hnone, List.map_nil, List.sum_nil, Nat.add_zero, hb.totalBlocks] at hsum
    exact hsum
  · have hm := (reachable_mirrors hr).2 c hc
    obtain ⟨addr, href⟩ := hm.refines
    have hnil : c.claims = [] := by
      refine List.eq_nil_iff_forall_not_mem.mpr fun cl hcl => ?_
      obtain ⟨id, request, hseq, -⟩ := (hm.claims cl.1 cl.2).mp hcl
      obtain ⟨seq, hs, -⟩ := Option.map_eq_some_iff.mp hseq
      exact hgone id seq hs
    rw [href.count, hnil, PrefixClaims.prefixes_nil]
    rfl
  · exact (reachable_contents hr).owned t fun id seq hseq => absurd hseq (hgone id seq)

/-- Nothing of the server's own moves only where it is dead or rests. -/
theorem atRest_of_stuck (hr : Reachable (step env) anything (start env) s)
    (hstuck : ∀ l, l.own = true → step env s l = none) :
    (∃ e, s.phase = .dead e) ∨ s.phase = .idle ∧ AtRest env s := by
  have hloop := hstuck .loop rfl
  cases hp : s.phase with
  | dead e => exact .inl ⟨e, rfl⟩
  | decoding prepared =>
    have hfails := hstuck (.decodeFailed []) rfl
    simp [step, hp] at hfails
  | idle =>
    simp only [step, iterate, hp] at hloop
    split_ifs at hloop with hq
    have ha := reachable_busy hr
    rw [Busy, hp] at ha
    exact .inr ⟨rfl, atRest_of_held hr (Nat.add_eq_zero_iff.mpr ⟨hq, ha⟩)⟩
  | expiring now todo woken =>
    cases todo with
    | nil =>
      simp only [step, iterate, hp] at hloop
      split_ifs at hloop
    | cons request todo => simp [step, iterate, hp] at hloop
  | admitting todo => cases todo <;> simp [step, iterate, hp] at hloop
  | distributing idOf now todo => cases todo <;> simp [step, iterate, hp] at hloop
  | failing todo => cases todo <;> simp [step, iterate, hp] at hloop
  | top => simp [step, iterate, hp] at hloop

/-- No prompt is empty where every character is a token. -/
theorem demo_prompts (hr : Reachable (step demo) anything (start demo) s) (id : RequestId)
    (request : PendingRequest) (hreq : s.accepted.get? id = some request) :
    request.promptTokens ≠ [] := by
  obtain ⟨body, htokens, -⟩ := (reachable_accounts hr).bodies id request hreq
  have hlen := body.prompt_nonempty
  rw [htokens]
  exact List.ne_nil_of_length_pos (by rw [demo, List.length_replicate]; exact hlen)

end Rest

section Drain
variable {env : Env} {s s' : State}

/-- What bounds the turns that are left altogether, where at most `most` requests are held. -/
def effort (most : ℕ) (s : State) : ℕ := (4 * most + 8) * backlog s + turnsLeft s

theorem Spends.effort_lt {most : ℕ} (h : Spends s s') (hs : Standing env s')
    (hmost : held s ≤ most) : effort most s' < effort most s := by
  obtain ⟨hh, hlt | ⟨hle, ht⟩⟩ := h
  · have hturns := turnsLeft_le hs
    have hmul : (4 * most + 8) * (backlog s' + 1) ≤ (4 * most + 8) * backlog s :=
      Nat.mul_le_mul_left _ hlt
    rw [Nat.mul_add, Nat.mul_one] at hmul
    rw [effort, effort]
    omega
  · have hmul := Nat.mul_le_mul_left (4 * most + 8) hle
    rw [effort, effort]
    omega

/-- A reachable state that holds few enough requests, none of them with an empty prompt. -/
def Bounded (env : Env) (most : ℕ) (s : State) : Prop :=
  Reachable (step env) anything (start env) s ∧ held s ≤ most ∧
    ∀ id request, s.accepted.get? id = some request → request.promptTokens ≠ []

theorem Bounded.step (hcap : env.totalTokens ≤ env.batchCapacity) (hchunk : 1 ≤ env.chunkSize)
    (hslots : 1 ≤ env.nSeqMax) {most : ℕ} (h : Bounded env most s) {l : Label}
    (ha : l.arrival = false) (hstep : step env s l = some s') :
    Bounded env most s' ∧ effort most s' + l.own.toNat ≤ effort most s := by
  obtain ⟨hr, hmost, hprompts⟩ := h
  have hr' := hr.next trivial hstep
  have ht := reachable_transition hr hstep
  have hprompts' : ∀ id request, s'.accepted.get? id = some request →
      request.promptTokens ≠ [] := by
    rw [accepted_kept ht ha]
    exact hprompts
  cases hl : l.own with
  | false =>
    obtain ⟨hh, hw, hturns⟩ := kept_away ht hl ha
    refine ⟨⟨hr', hh ▸ hmost, hprompts'⟩, ?_⟩
    rw [effort, effort, hw, hturns]
    exact le_rfl
  | true =>
    have hspends := spends_own hr hcap hchunk hslots hprompts hl hstep
    exact ⟨⟨hr', hspends.1.trans hmost, hprompts'⟩,
      hspends.effort_lt (reachable_books hr').2 hmost⟩

/-- The server can always take its own turns until there are none. -/
theorem runs_down {most : ℕ} (h : Bounded env most s)
    (hcap : env.totalTokens ≤ env.batchCapacity) (hchunk : 1 ≤ env.chunkSize)
    (hslots : 1 ≤ env.nSeqMax) : ∃ ls s', (∀ l ∈ ls, l.own = true) ∧ run (step env) s ls = some s' ∧
      Bounded env most s' ∧ ∀ l, l.own = true → step env s' l = none := by
  have hkept : ∀ u l u', Bounded env most u → l.own = true → step env u l = some u' →
      Bounded env most u' ∧ effort most u' < effort most u := by
    intro u l u' hI hl hs
    have ha : l.arrival = false := by
      cases l <;> simp [Label.own, Label.arrival] at hl ⊢
    obtain ⟨hI', hlt⟩ := hI.step hcap hchunk hslots ha hs
    rw [hl] at hlt
    exact ⟨hI', hlt⟩
  exact runs_out hkept h

end Drain

/-- Once no request arrives any more the server takes a bounded number of turns, whatever its
clients do meanwhile, can always take them all, and then, unless the loop died, nobody waits or runs
and every slot, block, cell and node of the tree is free again. -/
theorem server_drains (env : Env) (hcap : env.totalTokens ≤ env.batchCapacity)
    (hchunk : 1 ≤ env.chunkSize) (hslots : 1 ≤ env.nSeqMax) (s : State)
    (h : Reachable (step env) anything (start env) s)
    (hprompts : ∀ id request, s.accepted.get? id = some request → request.promptTokens ≠ []) :
    (∀ ls s', (∀ l ∈ ls, l.arrival = false) → run (step env) s ls = some s' →
      ls.countP Label.own ≤ (4 * held s + 8) * (backlog s + 1)) ∧
    (∃ ls s', (∀ l ∈ ls, l.own = true) ∧ run (step env) s ls = some s' ∧
      ∀ l, l.own = true → step env s' l = none) ∧
    ∀ ls s', run (step env) s ls = some s' → (∀ l, l.own = true → step env s' l = none) →
      (∃ e, s'.phase = .dead e) ∨ s'.phase = .idle ∧ AtRest env s' := by
  have hstart : Bounded env (held s) s := ⟨h, le_rfl, hprompts⟩
  refine ⟨fun ls s' hall hrun => ?_, ?_, fun ls s' hrun hstuck => atRest_of_stuck (h.run hrun) hstuck⟩
  · have hkept : ∀ u l u', Bounded env (held s) u → l.arrival = false → step env u l = some u' →
        Bounded env (held s) u' ∧ effort (held s) u' + l.own.toNat ≤ effort (held s) u :=
      fun u l u' hI ha hs => hI.step hcap hchunk hslots ha hs
    have hspent := (counted_le_rank hkept hstart (fun l hl _ => hall l hl) hrun).2
    have hturns := turnsLeft_le (reachable_books h).2
    have hsum : effort (held s) s < (4 * held s + 8) * (backlog s + 1) := by
      rw [effort, Nat.mul_add, Nat.mul_one]
      omega
    exact (Nat.le_add_right _ _).trans (hspent.trans hsum.le)
  · obtain ⟨ls, s', hall, hrun, -, hstuck⟩ := runs_down hstart hcap hchunk hslots
    exact ⟨ls, s', hall, hrun, hstuck⟩

/-- Two requests of three tokens each have just been handed to the runtime. -/
theorem server_drains_demo : ∃ s, run (step demo) (start demo) demoArrivals = some s ∧
    ∃ ls s', run (step demo) s ls = some s' ∧
      ((∃ e, s'.phase = .dead e) ∨ s'.phase = .idle ∧ AtRest demo s') := by
  obtain ⟨s, hs⟩ := Option.isSome_iff_exists.mp
    (by decide +kernel : (run (step demo) (start demo) demoArrivals).isSome)
  have hr := Reachable.init.run hs
  obtain ⟨-, ⟨ls, s', -, hrun, hstuck⟩, hrest⟩ :=
    server_drains demo (by decide) (by decide) (by decide) s hr (demo_prompts hr)
  exact ⟨s, hs, ls, s', hrun, hrest ls s' hrun hstuck⟩

end TinyServe.BatchLoop
