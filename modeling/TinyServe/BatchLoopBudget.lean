import TinyServe.BatchLoopMemory
import Mathlib.Algebra.BigOperators.Ring.List

set_option autoImplicit false

/-! An admitted sequence has the room to run to completion: the reservations cover its growth. -/
namespace TinyServe.BatchLoop
open OrderedDict SequenceMemory BatchBuilder Scheduler LlamaRuntime Runs

/-- The cells a sequence fills once its pending tokens are decoded. -/
def demand (seq : ActiveSequence) : ℕ := seq.nPast + seq.pendingTokens.length

/-- What a sequence demands is the length of its text. -/
def Measured (s : State) : Prop :=
  ∀ request seq, s.active.get? request.id = some seq →
    s.accepted.get? request.id = some request → demand seq = (text s request).length

section Kept
variable {env : Env} {s s' : State}

theorem Contents.measured (h : Contents s) (hs : s.phase.intact = true) : Measured s := by
  intro request seq hseq hreq
  obtain ⟨cells, n, -, hpast, htext, -⟩ := h.spelled hs request seq hseq hreq
  rw [demand, ← htext, List.length_append, List.length_map, hpast]

theorem Measured.kept (h : Measured s)
    (ha : ∀ id seq, s'.active.get? id = some seq → s.active.get? id = some seq)
    (hacc : ∀ id ∈ s.active.keys, s'.accepted.get? id = s.accepted.get? id)
    (hlog : ∀ id, pushed s'.log id = pushed s.log id) : Measured s' := by
  intro request seq hseq hreq
  have hold := ha _ seq hseq
  rw [hacc _ (Dict.mem_keys.mpr ⟨seq, hold⟩)] at hreq
  rw [text, hlog]
  exact h request seq hold hreq

/-- While the memory of the sequences is not to be trusted, no sequence moves. -/
theorem Measured.transition (h : Measured s) (hb : Books env s) (hs' : s'.phase.intact = false)
    {l : Label} (ht : Transition env s l s') : Measured s' := by
  cases ht with
  | rejected hw hnew =>
    exact h.kept (fun _ _ hj => hj) (fun _ _ => rfl) (pushed_quiet (fun id => by simp [asPushed]) _)
  | accepted hw hnew hroom hres =>
    refine h.kept (fun _ _ hj => hj) (fun j hj => ?_) (pushed_quiet (fun id => by simp [asPushed]) _)
    rw [Dict.get?_set, if_neg]
    rintro rfl
    exact (hb.unissued hnew).2.1 hj
  | setPolicy | cancel | selectRaised | decodeFailed =>
    exact h.kept (fun _ _ hj => hj) (fun _ _ => rfl) (fun _ => rfl)
  | receive hw hr =>
    refine h.kept (fun _ _ hj => hj) (fun _ _ => rfl) (pushed_quiet (fun id => ?_) _)
    split_ifs <;> simp [asPushed]
  | leave hw hl =>
    exact h.kept (fun _ _ hj => hj) (fun _ _ => rfl) (pushed_quiet (fun id => by simp [asPushed]) _)
  | dieSampled | finishFailed | dieFailed =>
    exact h.kept (fun _ _ hj => Dict.get?_of_erase hj) (fun _ _ => rfl) (pushed_quiet (fun id => by simp [asPushed]) _)
  | _ => simp [Phase.intact, expiredState, admittedState, finishedState, pushedState] at hs'

theorem reachable_measured {allowed : State → Label → Prop}
    (h : Reachable (step env) allowed (start env) s) : Measured s := by
  refine h.invariant ((contents_start env).measured rfl) fun s l s' hr hi hok hs => ?_
  cases hp : s'.phase.intact with
  | true => exact (reachable_contents (.next hr hok hs)).measured hp
  | false => exact hi.transition (reachable_books hr).1 hp (reachable_transition hr hs)

/-- A running request has at least one token of its budget left that it will not feed back. -/
theorem Accounts.text_lt (h : Accounts env s) (hb : Books env s) {request : PendingRequest}
    {seq : ActiveSequence} (hseq : s.active.get? request.id = some seq)
    (hreq : s.accepted.get? request.id = some request) :
    (text s request).length < request.promptTokens.length + request.maxTokens := by
  obtain ⟨state, hstate, -⟩ := hb.state_of_seq hseq
  obtain ⟨⟨-, hemitted, hrest, hpos, -⟩, -⟩ := h.running _ state request hstate hreq
  rw [text, List.length_append]
  omega

end Kept

section Room
variable {env : Env} {s : State}

theorem sum_le_filterMap {α β : Type} {xs : List α} {f : α → ℕ} {g : α → Option β} {w : β → ℕ}
    (h : ∀ x ∈ xs, ∃ b, g x = some b ∧ f x ≤ w b) :
    (xs.map f).sum ≤ ((xs.filterMap g).map w).sum := by
  induction xs with
  | nil => exact le_rfl
  | cons x xs ih =>
    obtain ⟨b, hb, hle⟩ := h x List.mem_cons_self
    have hrest := ih fun y hy => h y (List.mem_cons_of_mem _ hy)
    rw [List.map_cons, List.sum_cons, List.filterMap_cons_some hb, List.map_cons, List.sum_cons]
    omega

/-- The blocks set aside for a request hold its prompt and its whole budget. -/
theorem worstCase_covers (env : Env) (request : PendingRequest) :
    request.promptTokens.length + request.maxTokens ≤ worstCase env request * env.kvBlockSize := by
  have hpos := env.kvBlockSize_pos
  have hlt := Nat.lt_mul_div_succ
    (request.promptTokens.length + request.maxTokens + env.kvBlockSize - 1) hpos
  rw [Nat.mul_add, Nat.mul_one, Nat.mul_comm] at hlt
  rw [worstCase]
  omega

theorem Books.reserved_tokens (hb : Books env s) :
    ((reservations s).map fun request => worstCase env request * env.kvBlockSize).sum ≤
      env.totalTokens := by
  have hsum := hb.blocks_balance
  have hmul : ((reservations s).map fun request => worstCase env request * env.kvBlockSize).sum =
      ((reservations s).map (worstCase env)).sum * env.kvBlockSize := by
    rw [← List.sum_map_mul_right]
  rw [hmul]
  refine le_trans (Nat.mul_le_mul_right _ ?_) (Nat.div_mul_le_self env.totalTokens env.kvBlockSize)
  rw [← hb.totalBlocks]
  omega

/-- What the active sequences demand together fits the tokens the manager was given. -/
theorem demand_fits {allowed : State → Label → Prop}
    (h : Reachable (step env) allowed (start env) s) :
    (s.active.values.map demand).sum ≤ env.totalTokens := by
  have hb := (reachable_books h).1
  have hactive : (s.active.values.map demand).sum ≤
      ((s.active.keys.filterMap s.accepted.get?).map
        fun request => worstCase env request * env.kvBlockSize).sum := by
    rw [Dict.values, Dict.keys, List.map_map, List.filterMap_map]
    refine sum_le_filterMap fun e he => ?_
    have hseq := Dict.mem_entries.mp he
    obtain ⟨request, hreq, hid⟩ := hb.request_of_active (Dict.mem_keys.mpr ⟨e.2, hseq⟩)
    refine ⟨request, hreq, ?_⟩
    rw [← hid] at hseq hreq
    have htext := (reachable_accounts h).text_lt hb hseq hreq
    have hcover := worstCase_covers env request
    rw [Function.comp_apply, reachable_measured h request e.2 hseq hreq]
    omega
  have hall := hb.reserved_tokens
  rw [reservations, List.map_append, List.sum_append] at hall
  omega

theorem memory_fits {allowed : State → Label → Prop}
    (h : Reachable (step env) allowed (start env) s) (hs : s.phase.intact = true) :
    s.memory.size ≤ env.totalTokens := by
  have hb := (reachable_books h).1
  have hc := reachable_contents h
  have hbound := size_le (m := s.memory)
    (s.active.values.map fun seq => (seq.seqId, demand seq)) fun t i hi => ?_
  · rw [List.map_map] at hbound
    exact hbound.trans (demand_fits h)
  · by_contra hno
    refine hi (hc.owned t (fun id seq hseq ht => hno ?_) i)
    obtain ⟨request, hreq, rfl⟩ := hb.request_of_active (Dict.mem_keys.mpr ⟨seq, hseq⟩)
    obtain ⟨cells, n, hheld, hpast, -⟩ := hc.spelled hs request seq hseq hreq
    have hlt : i < cells.length := (hheld.keys_iff i).mp <| by
      rw [ht, Dict.mem_keys]
      exact Option.ne_none_iff_exists'.mp hi
    refine ⟨_, List.mem_map.mpr ⟨seq, Dict.mem_values.mpr ⟨_, hseq⟩, rfl⟩, ht, ?_⟩
    show i < seq.nPast + seq.pendingTokens.length
    omega

end Room

/-- An active request stays below its prompt and budget, all of them together stay within the
tokens the manager was given, and so does the memory after any batch handed to the runtime. -/
theorem sequences_have_room (env : Env) (s : State)
    (h : Reachable (step env) anything (start env) s) :
    (∀ id seq, s.active.get? id = some seq → ∃ request, s.accepted.get? id = some request ∧
      seq.nPast + seq.pendingTokens.length ≤
        request.promptTokens.length + request.maxTokens - 1) ∧
    (s.active.values.map fun seq => seq.nPast + seq.pendingTokens.length).sum ≤ env.totalTokens ∧
    ∀ prepared, s.phase = .decoding prepared →
      (decode s.memory prepared).size ≤ env.totalTokens := by
  have hb := (reachable_books h).1
  refine ⟨fun id seq hseq => ?_, demand_fits h, fun prepared hphase => ?_⟩
  · obtain ⟨request, hreq, rfl⟩ := hb.request_of_active (Dict.mem_keys.mpr ⟨seq, hseq⟩)
    have hlen := reachable_measured h request seq hseq hreq
    have htext := (reachable_accounts h).text_lt hb hseq hreq
    rw [demand] at hlen
    exact ⟨request, hreq, by omega⟩
  · have hstep : ∃ s', step env s (.decoded (fun _ => 0) (distinctSeqIds prepared)) = some s' := by
      simp [step, hphase, List.isPerm_iff]
    obtain ⟨s', hs'⟩ := hstep
    have hnext := Reachable.next h (l := .decoded (fun _ => 0) (distinctSeqIds prepared)) trivial hs'
    cases reachable_transition h hs' with
    | decoded hp hkeys hactive =>
      obtain rfl := Phase.decoding.inj (hphase.symm.trans hp)
      exact memory_fits hnext rfl

theorem sequences_have_room_demo : ∃ s prepared,
    run (step demo) (start demo) demoArrivals = some s ∧ s.phase = .decoding prepared ∧
      (s.active.values.map fun seq => seq.nPast + seq.pendingTokens.length) = [3, 3] ∧
      (∀ id seq, s.active.get? id = some seq → ∃ request, s.accepted.get? id = some request ∧
        seq.nPast + seq.pendingTokens.length ≤
          request.promptTokens.length + request.maxTokens - 1) ∧
      (s.active.values.map fun seq => seq.nPast + seq.pendingTokens.length).sum ≤ 64 ∧
      (decode s.memory prepared).size = 4 ∧ (decode s.memory prepared).size ≤ 64 := by
  have hbuilt : (run (step demo) (start demo) demoArrivals).bind (fun s =>
      s.phase.inFlight.map fun prepared =>
        (s.active.values.map fun seq => seq.nPast + seq.pendingTokens.length,
          (decode s.memory prepared).size)) = some ([3, 3], 4) := by decide +kernel
  obtain ⟨s, hs, hparts⟩ := Option.bind_eq_some_iff.mp hbuilt
  obtain ⟨prepared, hphase, hparts⟩ := Option.map_eq_some_iff.mp hparts
  obtain ⟨hlens, hsize⟩ := Prod.mk.inj hparts
  obtain ⟨heach, hsum, hfits⟩ := sequences_have_room demo s (Reachable.init.run hs)
  have hdecoding := inFlight_some hphase
  exact ⟨s, prepared, hs, hdecoding, hlens, heach, hsum, hsize, hfits prepared hdecoding⟩

end TinyServe.BatchLoop
