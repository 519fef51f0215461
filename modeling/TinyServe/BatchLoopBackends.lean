import TinyServe.BatchLoopBudget
import TinyServe.BatchLoopFinish
import TinyServe.BatchLoopTree
import TinyServe.PrefixCacheBackends
import Mathlib.Algebra.Order.BigOperators.Group.List
import Mathlib.Algebra.Order.Ring.Nat

set_option autoImplicit false

/-! Which of the two prefix caches is loaded makes no difference to any run of the server. -/
namespace TinyServe.BatchLoop
open OrderedDict PrefixCacheBase PrefixCacheTable PrefixClaims BatchBuilder Scheduler
open Streaming Tracing Runs
open NativePrefixCache (StdSort OpFits TokensFit Fits narrow init_agrees)
open PrefixCacheBackends (narrow_answers init_isSome)

section Calls
variable {env : Env} {s s' : State} {l : Label}

/-- In `_claim_prefix`. -/
def claimCalls (s : State) : List Op :=
  match s.phase with
  | .admitting (request :: _) =>
    match s.freeSlots.getLast? with
    | none => []
    | some seqId =>
      [.matchForReuse request.promptTokens, .insert request.promptTokens seqId, .nodeCount]
  | _ => []

/-- In `finish`. -/
def evictCalls (env : Env) (s : State) : List Op :=
  match (finishCall env s).bind fun call => s.requests.get? call.id with
  | none => []
  | some state => [.evict state.seqId, .nodeCount]

/-- The calls on the prefix cache that a step makes. -/
def cacheCalls (env : Env) (s : State) : Label → List Op
  | .loop => if s.prefixCache.isNone then [] else claimCalls s ++ evictCalls env s
  | _ => []

/-- The server with the calls it has made on its prefix cache. -/
abbrev calling (env : Env) : State × List Op → Label → Option (State × List Op) :=
  noting (step env) fun s l calls => calls ++ cacheCalls env s l

def asLookedUp : Event → Option PrefixMatch
  | .lookedUp _ hit _ => some hit
  | _ => none

def asFound : Answer → Option PrefixMatch
  | .found m => some m
  | _ => none

/-- What a step asks of the prefix cache, and what becomes of it. -/
inductive Asks (s s' : State) : List Op → Prop where
  | nothing (hc : s'.prefixCache = s.prefixCache)
      (hlog : view asLookedUp s'.log = view asLookedUp s.log) : Asks s s' []
  | admission {c : PythonPrefixCache.Cache} {request : PendingRequest} {seqId : SeqId}
      (hc : s.prefixCache = some c) (hpool : s.queue.pool.get? request.id = some request)
      (hslot : seqId ∈ s.freeSlots)
      (hc' : s'.prefixCache = some (c.insert request.promptTokens seqId).1)
      (hlog : view asLookedUp s'.log =
        view asLookedUp s.log ++ [c.matchForReuse request.promptTokens]) :
      Asks s s'
        [.matchForReuse request.promptTokens, .insert request.promptTokens seqId, .nodeCount]
  | ending {c : PythonPrefixCache.Cache} {id : RequestId} {seq : ActiveSequence}
      (hc : s.prefixCache = some c) (hseq : s.active.get? id = some seq)
      (hc' : s'.prefixCache = some (c.evict seq.seqId))
      (hlog : view asLookedUp s'.log = view asLookedUp s.log) :
      Asks s s' [.evict seq.seqId, .nodeCount]

@[simp] theorem lookups_enqueued (id : RequestId) (items : List Item) :
    view asLookedUp (items.map (.enqueued id)) = [] := by
  simp [view, asLookedUp]

@[simp] theorem lookups_spanClosing (t : RequestTracer) (id : RequestId) (name : SpanName) :
    view asLookedUp (spanClosing t id name) = [] := by
  rw [spanClosing]
  split_ifs <;> rfl

@[simp] theorem lookups_rootClosing (t : RequestTracer) (id : RequestId) :
    view asLookedUp (rootClosing t id) = [] := by
  rw [rootClosing]
  split_ifs <;> rfl

theorem cacheCalls_nothing (hp : ∀ request todo, s.phase ≠ .admitting (request :: todo))
    (hf : finishCall env s = none) : cacheCalls env s .loop = [] := by
  have hclaim : claimCalls s = [] := by
    rw [claimCalls]
    split
    · rename_i request todo hphase
      exact absurd hphase (hp request todo)
    · rfl
  have hevict : evictCalls env s = [] := by rw [evictCalls, hf]; rfl
  rw [cacheCalls, hclaim, hevict]
  split_ifs <;> rfl

/-- A call of `finish` evicts the slot of its request. -/
theorem asks_ending (hb : Books env s) {call : FinishCall}
    {seq : ActiveSequence} {state : RequestState} (hcall : finishCall env s = some call)
    (hseq : s.active.get? call.id = some seq) (hstate : s.requests.get? call.id = some state)
    (hc' : s'.prefixCache = s.prefixCache.map fun c => c.evict state.seqId)
    (hlog : view asLookedUp s'.log = view asLookedUp s.log) :
    Asks s s' (cacheCalls env s .loop) := by
  have hslot : state.seqId = seq.seqId := by
    have hagree := hb.agree call.id
    rw [hseq, hstate] at hagree
    exact (Option.some.inj hagree).symm
  have hphase : ∀ request todo, s.phase ≠ .admitting (request :: todo) := by
    intro request todo hp
    simp [finishCall, hp] at hcall
  have hclaim : claimCalls s = [] := by
    rw [claimCalls]
    split
    · rename_i request todo hp
      exact absurd hp (hphase request todo)
    · rfl
  cases hc : s.prefixCache with
  | none =>
    rw [cacheCalls, hc, if_pos Option.isNone_none]
    exact .nothing (by rw [hc', hc]; rfl) hlog
  | some c =>
    have hcalls : cacheCalls env s .loop = [.evict seq.seqId, .nodeCount] := by
      rw [← hslot]
      simp [cacheCalls, hc, hclaim, evictCalls, hcall, hstate]
    rw [hcalls]
    exact .ending hc hseq (by rw [hc', hc, hslot]; rfl) hlog

theorem reachable_asks (h : Reachable (step env) anything (start env) s)
    (hs : step env s l = some s') : Asks s s' (cacheCalls env s l) := by
  obtain ⟨hb, hst⟩ := reachable_books h
  have ht := reachable_transition h hs
  cases ht with
  | rejected hw hnew => exact .nothing rfl (by simp [asLookedUp])
  | accepted hw hnew hroom hres => exact .nothing rfl (by simp [asLookedUp])
  | setPolicy hw => exact .nothing rfl rfl
  | cancel hw => exact .nothing rfl rfl
  | receive hw hr =>
    refine .nothing rfl ?_
    split_ifs <;> simp [asLookedUp]
  | leave hw hl => exact .nothing rfl (by simp [asLookedUp])
  | beginExpiry hp | wake hp | keep hp | rest hp | full hp | select hp | selectRaised hp =>
    rw [cacheCalls_nothing (by simp [hp]) (by simp [finishCall, hp])]
    exact .nothing rfl rfl
  | expire hp hstale hpool =>
    rw [cacheCalls_nothing (by simp [hp]) (by simp [finishCall, hp])]
    exact .nothing rfl (by simp [expiredState, closing, asLookedUp])
  | @admitted request todo seqId hp hpool hslot =>
    have hevict : evictCalls env s = [] := by simp [evictCalls, finishCall, hp]
    cases hc : s.prefixCache with
    | none =>
      rw [cacheCalls, hc, if_pos Option.isNone_none]
      refine .nothing ?_ ?_
      · simp only [admittedState, claimPrefix_none hc]
      · simp [admittedState, lookups, hc, asLookedUp]
    | some c =>
      have hcalls : cacheCalls env s .loop = [.matchForReuse request.promptTokens,
          .insert request.promptTokens seqId, .nodeCount] := by
        rw [cacheCalls, hc, hevict]
        simp [claimCalls, hp, hslot]
      rw [hcalls]
      refine .admission hc hpool (List.mem_of_getLast? hslot) (claimPrefix_cache hc) ?_
      simp [admittedState, lookups, hc, asLookedUp]
  | buildNothing hp | build hp =>
    rw [cacheCalls_nothing (by simp [hp]) (by simp [finishCall, hp])]
    exact .nothing rfl (by simp [asLookedUp])
  | decoded hp hkeys hactive => exact .nothing rfl (by simp [asLookedUp])
  | decodeFailed hp => exact .nothing rfl rfl
  | finishSampled hp hid hseq hstate hwhy hnt =>
    refine asks_ending hb (finishCall_sampled hp hid hseq hstate hwhy) hseq hstate rfl ?_
    simp [finishedState, closing, asLookedUp]
  | dieSampled hp hid hseq hstate hwhy hnt =>
    refine asks_ending hb (finishCall_sampled hp hid hseq hstate hwhy) hseq hstate rfl ?_
    simp [diedState, closing, asLookedUp]
  | push hp hid hseq hstate hgo =>
    obtain ⟨hopen, hpos, hcancel, hlate⟩ := hgo
    have hnone : finishCall env s = none := by
      have hgoes := not_or.mpr ⟨hopen, not_le.mpr hpos⟩
      simp only [decremented] at hgoes hlate
      simp only [finishCall, hp, hid, hseq, hstate, decremented, if_neg hgoes, hcancel,
        Bool.false_eq_true, if_false, if_neg hlate]
    rw [cacheCalls_nothing (by simp [hp]) hnone]
    exact .nothing rfl (by simp [pushedState, asLookedUp])
  | finishFailed hp hseq hstate hnt =>
    refine asks_ending hb (finishCall_failing hp) hseq hstate rfl ?_
    simp [finishedState, closing, asLookedUp]
  | dieFailed hp hseq hstate hnt =>
    refine asks_ending hb (finishCall_failing hp) hseq hstate rfl ?_
    simp [diedState, closing, asLookedUp]
  | endTick hp =>
    rw [cacheCalls_nothing ?_ ?_]
    · exact .nothing rfl rfl
    · rcases hp with ⟨idOf, now, hp⟩ | hp <;> simp [hp]
    · rcases hp with ⟨idOf, now, hp⟩ | hp <;> simp [finishCall, hp]

end Calls

section Fitting
variable {env : Env} {s s' : State} {b : {b : ℕ // 1 ≤ b}} {calls : List Op}

theorem filterMap_sum_le {α β γ : Type} {xs : List α} {g : α → Option β} {h : α → Option γ}
    {f : β → ℕ} {w : γ → ℕ}
    (hle : ∀ x ∈ xs, ∀ b, g x = some b → ∃ c, h x = some c ∧ f b ≤ w c) :
    ((xs.filterMap g).map f).sum ≤ ((xs.filterMap h).map w).sum := by
  induction xs with
  | nil => exact le_rfl
  | cons x xs ih =>
    have hrest := ih fun y hy => hle y (List.mem_cons_of_mem _ hy)
    cases hg : g x with
    | none =>
      rw [List.filterMap_cons_none hg]
      cases hh : h x with
      | none => rwa [List.filterMap_cons_none hh]
      | some c =>
        rw [List.filterMap_cons_some hh, List.map_cons, List.sum_cons]
        omega
    | some b =>
      obtain ⟨c, hh, hb⟩ := hle x List.mem_cons_self b hg
      rw [List.filterMap_cons_some hg, List.filterMap_cons_some hh, List.map_cons, List.map_cons,
        List.sum_cons, List.sum_cons]
      omega

/-- The tree has no more nodes than the KV cache has tokens. -/
theorem nodes_fit (hr : Reachable (step env) anything (start env) s)
    {c : PythonPrefixCache.Cache} (hc : s.prefixCache = some c) :
    c.nodeCount ≤ env.totalTokens := by
  have hb := (reachable_books hr).1
  have hblocks : ((activeClaims s c.blockSize).map fun cl => cl.2.length).sum ≤
      ((s.active.keys.filterMap s.accepted.get?).map
        fun request => worstCase env request * env.kvBlockSize).sum := by
    refine filterMap_sum_le fun id _ cl hcl => ?_
    obtain ⟨seq, -, hmap⟩ := Option.bind_eq_some_iff.mp hcl
    obtain ⟨request, hreq, rfl⟩ := Option.map_eq_some_iff.mp hmap
    have hcover := worstCase_covers env request
    have hdiv := Nat.div_le_self request.promptTokens.length c.blockSize
    refine ⟨request, hreq, ?_⟩
    rw [blocks_length]
    omega
  have hall := hb.reserved_tokens
  rw [reservations, List.map_append, List.sum_append] at hall
  have hcard := prefixes_card_le (activeClaims s c.blockSize)
  rw [nodes_of_prompts hr hc]
  omega

/-- An accepted prompt is one the binding takes as it is. -/
theorem prompt_fits (hr : Reachable (step env) anything (start env) s)
    (htotal : env.totalTokens < 2147483648)
    (htokens : ∀ prompt, ∀ t ∈ env.tokenize prompt, Fits t) {id : RequestId}
    {request : PendingRequest} (hpool : s.queue.pool.get? id = some request) :
    TokensFit request.promptTokens := by
  have hb := (reachable_books hr).1
  obtain ⟨body, hprompt, -⟩ := (reachable_accounts hr).bodies _ _ (hb.queued id request hpool).2
  have hin : request ∈ reservations s :=
    List.mem_append_left _ (Dict.mem_values.mpr ⟨id, hpool⟩)
  have hone := List.single_le_sum (by simp) _
    (List.mem_map_of_mem (f := fun request => worstCase env request * env.kvBlockSize) hin)
  have hcover := worstCase_covers env request
  have hall := hb.reserved_tokens
  refine ⟨by omega, fun t ht => ?_⟩
  rw [hprompt] at ht
  exact htokens body.prompt t ht

theorem slot_fits (hslots : env.nSeqMax ≤ 2147483648) {seqId : SeqId} (h : seqId ∈ slots env) :
    Fits seqId := by
  obtain ⟨i, hi, rfl⟩ := List.mem_map.mp h
  have hlt := List.mem_range.mp hi
  simp only [Fits, Int.ofNat_eq_natCast]
  omega

/-- The calls made so far: the cache of the loop is what they make of a fresh one, each of them fits
the binding, and what was looked up is what they found. -/
structure Asked (env : Env) (b : {b : ℕ // 1 ≤ b}) (s : State) (calls : List Op) : Prop where
  cache : s.prefixCache = some ((PythonPrefixCache.init b.1 b.2).after calls)
  fits : ∀ op ∈ calls, OpFits op
  counts : ∀ n : ℤ, .count n ∈ (PythonPrefixCache.init b.1 b.2).answers calls → n ≤ env.totalTokens
  found : ((PythonPrefixCache.init b.1 b.2).answers calls).filterMap asFound =
    view asLookedUp s.log

theorem Asked.step (h : Asked env b s calls) (hr : Reachable (step env) anything (start env) s)
    (hr' : Reachable (BatchLoop.step env) anything (start env) s')
    (htotal : env.totalTokens < 2147483648) (hslots : env.nSeqMax ≤ 2147483648)
    (htokens : ∀ prompt, ∀ t ∈ env.tokenize prompt, Fits t) {more : List Op}
    (ha : Asks s s' more) : Asked env b s' (calls ++ more) := by
  obtain ⟨hb, -⟩ := reachable_books hr
  obtain ⟨h1, h2, h3, h4⟩ := h
  cases ha with
  | nothing hc hlog =>
    rw [List.append_nil]
    exact ⟨hc.trans h1, h2, h3, h4.trans hlog.symm⟩
  | @admission c request seqId hc hpool hslot hc' hlog =>
    have hprompt := prompt_fits hr htotal htokens hpool
    have hseq := slot_fits hslots (hb.slots.subset (List.mem_append_left _ hslot))
    have hnow : (PythonPrefixCache.init b.1 b.2).after calls = c := Option.some.inj (h1.symm.trans hc)
    have hmore : c.answers [.matchForReuse request.promptTokens,
        .insert request.promptTokens seqId, .nodeCount] =
        [.found (c.matchForReuse request.promptTokens),
          .published (c.insert request.promptTokens seqId).2,
          .count (c.insert request.promptTokens seqId).1.nodeCount] := rfl
    refine ⟨?_, fun op hop => ?_, fun n hn => ?_, ?_⟩
    · rw [PythonPrefixCache.Cache.after_append, hnow, hc']
      rfl
    · rcases List.mem_append.mp hop with hold | hnew
      · exact h2 op hold
      · simp only [List.mem_cons, List.not_mem_nil, or_false] at hnew
        rcases hnew with rfl | rfl | rfl
        · exact hprompt
        · exact ⟨hprompt, hseq⟩
        · trivial
    · rw [PythonPrefixCache.Cache.answers_append, hnow, hmore, List.mem_append] at hn
      rcases hn with hold | hnew
      · exact h3 n hold
      · simp only [List.mem_cons, List.not_mem_nil, or_false, reduceCtorEq, false_or,
          Answer.count.injEq] at hnew
        rw [hnew]
        exact nodes_fit hr' hc'
    · rw [PythonPrefixCache.Cache.answers_append, List.filterMap_append, h4, hnow, hmore, hlog]
      rfl
  | @ending c id seq hc hseq hc' hlog =>
    have hslot := slot_fits hslots (hb.slots.subset (List.mem_append_right _
      (List.mem_map_of_mem (Dict.mem_values.mpr ⟨id, hseq⟩))))
    have hnow : (PythonPrefixCache.init b.1 b.2).after calls = c := Option.some.inj (h1.symm.trans hc)
    have hmore : c.answers [.evict seq.seqId, .nodeCount] =
        [.done, .count (c.evict seq.seqId).nodeCount] := rfl
    refine ⟨?_, fun op hop => ?_, fun n hn => ?_, ?_⟩
    · rw [PythonPrefixCache.Cache.after_append, hnow, hc']
      rfl
    · rcases List.mem_append.mp hop with hold | hnew
      · exact h2 op hold
      · simp only [List.mem_cons, List.not_mem_nil, or_false] at hnew
        rcases hnew with rfl | rfl
        · exact hslot
        · trivial
    · rw [PythonPrefixCache.Cache.answers_append, hnow, hmore, List.mem_append] at hn
      rcases hn with hold | hnew
      · exact h3 n hold
      · simp only [List.mem_cons, List.not_mem_nil, or_false, reduceCtorEq, false_or,
          Answer.count.injEq] at hnew
        rw [hnew]
        exact nodes_fit hr' hc'
    · rw [PythonPrefixCache.Cache.answers_append, List.filterMap_append, h4, hnow, hmore, hlog]
      exact List.append_nil _

end Fitting

/-- In any run of the server the native cache answers the calls of the loop as the Python one does:
whatever was looked up, and every node count. So which of them is loaded is not to be seen, neither
in the requests nor on the metrics; no count comes near the end of `int32_t`. -/
theorem backends_interchangeable (std : StdSort) (env : Env) (b : {b : ℕ // 1 ≤ b})
    (hb : env.prefixBlockSize = some b) (htotal : env.totalTokens < 2147483648)
    (hslots : env.nSeqMax ≤ 2147483648)
    (htokens : ∀ prompt, ∀ t ∈ env.tokenize prompt, Fits t) (s : State) (calls : List Op)
    (h : Reachable (calling env) anything (start env, []) (s, calls)) :
    s.prefixCache = some ((PythonPrefixCache.init b.1 b.2).after calls) ∧
    ((PythonPrefixCache.init b.1 b.2).answers calls).filterMap asFound = view asLookedUp s.log ∧
    (b.1 < 2147483648 → (NativePrefixCache.init b).isSome) ∧
    ∀ c, NativePrefixCache.init b = some c →
      c.answers std calls = .ok ((PythonPrefixCache.init b.1 b.2).answers calls) := by
  obtain ⟨h1, h2, h3, h4⟩ : Asked env b s calls := by
    refine h.noted (I := Asked env b) ⟨?_, ?_, ?_, ?_⟩ fun s calls l s' hr hi hs => ?_
    · simp [start, hb, PythonPrefixCache.Cache.after]
    · simp
    · simp [PythonPrefixCache.Cache.answers]
    · rfl
    · exact hi.step hr (hr.next trivial hs) htotal hslots htokens (reachable_asks hr hs)
  refine ⟨h1, h4, init_isSome b.2, fun c hc => ?_⟩
  obtain ⟨hagree, hsize⟩ := init_agrees b.2 hc
  have hpy := (PythonPrefixCache.init_refines b.1 b.2).answers calls
  have hbs : (PythonPrefixCache.init b.1 b.2).blockSize = b.1 := rfl
  rw [hbs] at hpy
  rw [hpy] at h3 ⊢
  rw [hagree.answers std h2, hsize, narrow_answers fun n hn => (h3 n hn).trans_lt (by omega)]

theorem backends_interchangeable_demo : ∃ s calls c,
    run (calling demo) (start demo, []) demoReuse = some (s, calls) ∧
    NativePrefixCache.init 2 = some c ∧
    c.answers PrefixCacheBackends.stableSort calls =
      .ok [.found .none, .published 2, .count 1, .found ⟨2, 1⟩, .published 2, .count 1] := by
  have hrun : (run (calling demo) (start demo, []) demoReuse).map (fun x =>
      (PythonPrefixCache.init 2 (by decide)).answers x.2) =
      some [.found .none, .published 2, .count 1, .found ⟨2, 1⟩, .published 2, .count 1] := by
    decide +kernel
  obtain ⟨⟨s, calls⟩, hs, hanswers⟩ := Option.map_eq_some_iff.mp hrun
  have htokens : ∀ prompt, ∀ t ∈ demo.tokenize prompt, Fits t := by
    intro prompt t ht
    rw [List.eq_of_mem_replicate ht]
    simp [Fits]
  obtain ⟨-, -, hsome, hsame⟩ := backends_interchangeable PrefixCacheBackends.stableSort demo
    ⟨2, by decide⟩ rfl (by decide) (by decide) htokens s calls (Reachable.init.run hs)
  obtain ⟨c, hc⟩ := Option.isSome_iff_exists.mp (hsome (by decide))
  exact ⟨s, calls, c, hs, hc, (hsame c hc).trans (congrArg Except.ok hanswers)⟩

end TinyServe.BatchLoop
