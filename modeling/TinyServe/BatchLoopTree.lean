import TinyServe.BatchLoopResources
import TinyServe.PythonPrefixCacheRefinement

set_option autoImplicit false

/-! The prefix tree advertises the prompts of the active requests, under their slots. -/
namespace TinyServe.BatchLoop
open OrderedDict PrefixCacheBase PrefixClaims BatchBuilder Scheduler LlamaRuntime Runs

/-- The claim an active request of a whole block or more makes. -/
def Claimed (s : State) (blockSize : ℕ) (seqId : SeqId) (path : List Block) : Prop :=
  ∃ id request, (s.active.get? id).map ActiveSequence.seqId = some seqId ∧
    s.accepted.get? id = some request ∧ blockSize ≤ request.promptTokens.length ∧
    path = blocks blockSize request.promptTokens

/-- The cache is sound, and what it holds is what the active requests claim. -/
structure Mirrors (s : State) (c : PythonPrefixCache.Cache) : Prop where
  refines : ∃ addr, PythonPrefixCache.Refines c c.claims addr
  claims : ∀ seqId path, (seqId, path) ∈ c.claims ↔ Claimed s c.blockSize seqId path

def TreeMirrors (env : Env) (s : State) : Prop :=
  (s.prefixCache.map fun c => c.blockSize) = env.prefixBlockSize.map Subtype.val ∧
    ∀ c, s.prefixCache = some c → Mirrors s c

section Kept
variable {env : Env} {s : State}

theorem treeMirrors_start (env : Env) : TreeMirrors env (start env) := by
  refine ⟨?_, fun c hc => ?_⟩
  · rw [start, Option.map_map]
    rfl
  · obtain ⟨b, -, rfl⟩ := Option.map_eq_some_iff.mp hc
    have hr := PythonPrefixCache.init_refines b.1 b.2
    have hclaims : (PythonPrefixCache.init b.1 b.2).claims = [] := hr.claims_eq
    refine ⟨⟨_, hclaims ▸ hr⟩, fun seqId path => ?_⟩
    rw [hclaims]
    constructor
    · intro h
      simp at h
    · rintro ⟨id, request, hseq, -⟩
      simp [start] at hseq

theorem TreeMirrors.frame (h : TreeMirrors env s) {s' : State}
    (hc : s'.prefixCache = s.prefixCache)
    (ha : ∀ id, (s'.active.get? id).map ActiveSequence.seqId =
      (s.active.get? id).map ActiveSequence.seqId)
    (hacc : ∀ id ∈ s.active.keys, s'.accepted.get? id = s.accepted.get? id) :
    TreeMirrors env s' := by
  refine ⟨hc ▸ h.1, fun c hs => ?_⟩
  obtain ⟨hr, hclaims⟩ := h.2 c (hc ▸ hs)
  refine ⟨hr, fun seqId path => (hclaims seqId path).trans ?_⟩
  refine exists_congr fun id => exists_congr fun request => ?_
  rw [ha]
  refine and_congr_right fun hseq => ?_
  obtain ⟨seq, hs, -⟩ := Option.map_eq_some_iff.mp hseq
  rw [hacc id (Dict.mem_keys.mpr ⟨seq, hs⟩)]

/-- A slot that nobody holds has no claim. -/
theorem Mirrors.free_unclaimed {c : PythonPrefixCache.Cache} (h : Mirrors s c) (hb : Books env s)
    {seqId : SeqId} (hf : seqId ∈ s.freeSlots) : seqId ∉ c.claims.map Prod.fst := by
  intro hm
  obtain ⟨⟨t, path⟩, hc, rfl⟩ := List.mem_map.mp hm
  obtain ⟨id, request, hseq, -⟩ := (h.claims t path).mp hc
  obtain ⟨seq, hs, ht⟩ := Option.map_eq_some_iff.mp hseq
  exact hb.free_ne hf hs ht

theorem Mirrors.retired {c : PythonPrefixCache.Cache} (h : Mirrors s c) (hb : Books env s)
    {id : RequestId} {seq : ActiveSequence} {state : RequestState}
    (hseq : s.active.get? id = some seq) (hslot : state.seqId = seq.seqId) :
    Mirrors (retired env s id state) (c.evict state.seqId) ∧
      (c.evict state.seqId).blockSize = c.blockSize := by
  obtain ⟨addr, hr⟩ := h.refines
  obtain ⟨addr', hr', -, hsize⟩ := hr.evict state.seqId
  have hclaims := hr'.claims_eq
  refine ⟨⟨⟨addr', hclaims.symm ▸ hr'⟩, fun t path => ?_⟩, hsize⟩
  rw [hclaims, mem_evict, h.claims, hsize]
  constructor
  · rintro ⟨⟨j, request, hj, hacc, hlen, hpath⟩, hne⟩
    have hji : id ≠ j := by
      rintro rfl
      rw [hseq] at hj
      exact hne (Option.some.inj hj ▸ hslot.symm)
    refine ⟨j, request, ?_, hacc, hlen, hpath⟩
    show ((s.active.erase id).get? j).map ActiveSequence.seqId = some t
    rw [Dict.get?_erase, if_neg hji]
    exact hj
  · rintro ⟨j, request, hj, hacc, hlen, hpath⟩
    have hj' : ((s.active.erase id).get? j).map ActiveSequence.seqId = some t := hj
    rw [Dict.get?_erase] at hj'
    split_ifs at hj' with hji
    · simp at hj'
    · refine ⟨⟨j, request, hj', hacc, hlen, hpath⟩, ?_⟩
      obtain ⟨other, ho, rfl⟩ := Option.map_eq_some_iff.mp hj'
      exact fun he => hji (hb.slot_unique hseq ho (hslot.symm.trans he.symm))

theorem claimPrefix_cache {request : PendingRequest} {seqId : SeqId}
    {c : PythonPrefixCache.Cache} (hc : s.prefixCache = some c) :
    (claimPrefix s request seqId).2.prefixCache =
      some (c.insert request.promptTokens seqId).1 := by
  simp only [claimPrefix, hc]

theorem claimPrefix_none {request : PendingRequest} {seqId : SeqId} (hc : s.prefixCache = none) :
    claimPrefix s request seqId = (0, s) := by
  rw [claimPrefix, hc]

/-- The claims after a publication on a slot without one. -/
theorem insert_claims {c : PythonPrefixCache.Cache}
    (hr : ∃ addr, PythonPrefixCache.Refines c c.claims addr) {seqId : SeqId} (hfree : seqId ∉ c.claims.map Prod.fst) (tokens : List Token) :
    (∃ addr, PythonPrefixCache.Refines (c.insert tokens seqId).1
      (c.insert tokens seqId).1.claims addr) ∧
    (c.insert tokens seqId).1.blockSize = c.blockSize ∧
    (c.insert tokens seqId).1.claims = if tokens.length < c.blockSize then c.claims
      else c.claims ++ [(seqId, blocks c.blockSize tokens)] := by
  obtain ⟨addr, hr⟩ := hr
  by_cases hlen : tokens.length < c.blockSize
  · have hsame : (c.insert tokens seqId).1 = c := by
      rw [PythonPrefixCache.Cache.insert, if_pos hlen]
    rw [hsame, if_pos hlen]
    exact ⟨⟨addr, hr⟩, rfl, rfl⟩
  · obtain ⟨addr', hr', hsize, -⟩ := hr.insert tokens seqId hlen
    have hclaims := hr'.claims_eq
    rw [if_neg hlen, hclaims]
    refine ⟨⟨addr', hr'⟩, hsize, ?_⟩
    rw [publish, evict_of_not_mem hfree]

theorem Mirrors.admitted {c : PythonPrefixCache.Cache} (h : Mirrors s c) (hb : Books env s)
    {request : PendingRequest} {seqId : SeqId}
    (hpool : s.queue.pool.get? request.id = some request)
    (hslot : s.freeSlots.getLast? = some seqId) (phase : Phase) :
    Mirrors (admittedState env s request seqId phase) (c.insert request.promptTokens seqId).1 ∧
      (c.insert request.promptTokens seqId).1.blockSize = c.blockSize := by
  have hfree := h.free_unclaimed hb (List.mem_of_getLast? hslot)
  obtain ⟨hr, hsize, hclaims⟩ := insert_claims h.refines hfree request.promptTokens
  have hin : request.id ∈ s.queue.pool.keys := Dict.mem_keys.mpr ⟨request, hpool⟩
  have hacc := (hb.queued _ request hpool).2
  have hget : ∀ j, ((admittedState env s request seqId phase).active.get? j).map
      ActiveSequence.seqId = if request.id = j then some seqId
        else (s.active.get? j).map ActiveSequence.seqId := by
    intro j
    show ((s.active.set request.id _).get? j).map ActiveSequence.seqId = _
    rw [Dict.get?_set]
    split_ifs <;> rfl
  refine ⟨⟨hr, fun t path => ?_⟩, hsize⟩
  have hmem : (t, path) ∈ (c.insert request.promptTokens seqId).1.claims ↔
      (t, path) ∈ c.claims ∨ ¬ request.promptTokens.length < c.blockSize ∧ t = seqId ∧
        path = blocks c.blockSize request.promptTokens := by
    rw [hclaims]
    split_ifs with hlen <;> simp [hlen]
  rw [hmem, h.claims, hsize]
  constructor
  · rintro (⟨j, other, hj, hother, hlen, hpath⟩ | ⟨hlen, rfl, rfl⟩)
    · refine ⟨j, other, ?_, hother, hlen, hpath⟩
      rw [hget, if_neg, hj]
      rintro rfl
      obtain ⟨seq, hs, -⟩ := Option.map_eq_some_iff.mp hj
      exact hb.apart _ hin (Dict.mem_keys.mpr ⟨seq, hs⟩)
    · exact ⟨request.id, request, by rw [hget, if_pos rfl], hacc, not_lt.mp hlen, rfl⟩
  · rintro ⟨j, other, hj, hother, hlen, hpath⟩
    rw [hget] at hj
    split_ifs at hj with hji
    · subst hji
      obtain rfl := Option.some.inj (hacc.symm.trans hother)
      exact .inr ⟨not_lt.mpr hlen, (Option.some.inj hj).symm, hpath⟩
    · exact .inl ⟨j, other, hj, hother, hlen, hpath⟩

theorem TreeMirrors.retired_step (h : TreeMirrors env s) (hb : Books env s) {id : RequestId}
    {old state : RequestState} (hstate : s.requests.get? id = some old)
    (hkept : state.seqId = old.seqId) : TreeMirrors env (retired env s id state) := by
  obtain ⟨seq, hseq, hold⟩ := hb.seq_of_state hstate
  have hslot : state.seqId = seq.seqId := hkept.trans hold.symm
  cases hc : s.prefixCache with
  | none =>
    have hnone : (retired env s id state).prefixCache = none := by
      show s.prefixCache.map _ = none
      rw [hc]
      rfl
    refine ⟨?_, fun c hs => ?_⟩
    · rw [hnone, ← h.1, hc]
    · rw [hnone] at hs
      simp at hs
  | some c =>
    obtain ⟨hm, hsize⟩ := (h.2 c hc).retired hb hseq hslot
    have hsome : (retired env s id state).prefixCache = some (c.evict state.seqId) := by
      show s.prefixCache.map _ = _
      rw [hc]
      rfl
    refine ⟨?_, fun c' hs => ?_⟩
    · rw [hsome, ← h.1, hc, Option.map_some, Option.map_some, hsize]
    · rw [hsome] at hs
      exact Option.some.inj hs ▸ hm

theorem TreeMirrors.admitted_step (h : TreeMirrors env s) (hb : Books env s)
    {request : PendingRequest} {seqId : SeqId}
    (hpool : s.queue.pool.get? request.id = some request)
    (hslot : s.freeSlots.getLast? = some seqId) (phase : Phase) :
    TreeMirrors env (admittedState env s request seqId phase) := by
  cases hc : s.prefixCache with
  | none =>
    have hnone : (admittedState env s request seqId phase).prefixCache = none := by
      show (claimPrefix s request seqId).2.prefixCache = none
      rw [claimPrefix_none hc]
      exact hc
    refine ⟨?_, fun c hs => ?_⟩
    · rw [hnone, ← h.1, hc]
    · rw [hnone] at hs
      simp at hs
  | some c =>
    obtain ⟨hm, hsize⟩ := (h.2 c hc).admitted hb hpool hslot phase
    have hsome : (admittedState env s request seqId phase).prefixCache =
        some (c.insert request.promptTokens seqId).1 := claimPrefix_cache hc
    refine ⟨?_, fun c' hs => ?_⟩
    · rw [hsome, ← h.1, hc, Option.map_some, Option.map_some, hsize]
    · rw [hsome] at hs
      exact Option.some.inj hs ▸ hm

theorem TreeMirrors.transition (h : TreeMirrors env s) (hb : Books env s) {l : Label} {s' : State}
    (ht : Transition env s l s') : TreeMirrors env s' := by
  cases ht with
  | accepted hw hnew hroom hres =>
    refine h.frame rfl (fun _ => rfl) fun j hj => ?_
    rw [Dict.get?_set, if_neg]
    rintro rfl
    exact (hb.unissued hnew).2.1 hj
  | admitted hp hpool hslot => exact h.admitted_step hb hpool hslot _
  | decoded hp hkeys hactive =>
    refine h.frame rfl (fun j => ?_) fun _ _ => rfl
    rw [hactive, Option.map_map]
    rfl
  | push hp hid hseq hstate hgo =>
    refine h.frame rfl (fun j => ?_) fun _ _ => rfl
    simp only [pushedState, Dict.get?_set]
    split_ifs with hj
    · rw [← hj, hseq]
      rfl
    · rfl
  | finishSampled hp hid hseq hstate hwhy ht =>
    exact (h.retired_step hb hstate decremented_seqId).frame rfl (fun _ => rfl) fun _ _ => rfl
  | dieSampled hp hid hseq hstate hwhy ht =>
    exact (h.retired_step hb hstate decremented_seqId).frame rfl (fun _ => rfl) fun _ _ => rfl
  | finishFailed hp hseq hstate ht =>
    exact (h.retired_step hb hstate rfl).frame rfl (fun _ => rfl) fun _ _ => rfl
  | dieFailed hp hseq hstate ht =>
    exact (h.retired_step hb hstate rfl).frame rfl (fun _ => rfl) fun _ _ => rfl
  | _ => exact h.frame rfl (fun _ => rfl) fun _ _ => rfl

theorem reachable_mirrors {allowed : State → Label → Prop}
    (h : Reachable (step env) allowed (start env) s) : TreeMirrors env s := by
  refine h.invariant (treeMirrors_start env) fun s l s' hr hi _ hs => ?_
  exact hi.transition (reachable_books hr).1 (reachable_transition hr hs)

end Kept

section Nodes
variable {env : Env} {s : State}

/-- The blocks of the prompts that are active, under their slots. -/
def activeClaims (s : State) (blockSize : ℕ) : Claims SeqId Block :=
  s.active.keys.filterMap fun id => (s.active.get? id).bind fun seq =>
    (s.accepted.get? id).map fun request => (seq.seqId, blocks blockSize request.promptTokens)

/-- The nodes of the tree are the distinct runs of leading blocks of the active prompts. -/
theorem nodes_of_prompts (hr : Reachable (step env) anything (start env) s)
    {c : PythonPrefixCache.Cache} (hc : s.prefixCache = some c) :
    c.nodeCount = (prefixes (activeClaims s c.blockSize)).card := by
  have hm := (reachable_mirrors hr).2 c hc
  obtain ⟨addr, href⟩ := hm.refines
  rw [href.count]
  refine congrArg (fun paths : Finset (List Block) => (paths.card : ℤ))
    (prefixes_congr fun path hne => ?_)
  constructor
  · rintro ⟨cl, hcl, hpath⟩
    obtain ⟨id, request, hseq, hacc, -, hblocks⟩ := (hm.claims cl.1 cl.2).mp hcl
    obtain ⟨seq, hget, -⟩ := Option.map_eq_some_iff.mp hseq
    refine ⟨(seq.seqId, blocks c.blockSize request.promptTokens), ?_, hblocks ▸ hpath⟩
    refine List.mem_filterMap.mpr ⟨id, Dict.mem_keys.mpr ⟨seq, hget⟩, ?_⟩
    simp [hget, hacc]
  · rintro ⟨cl, hcl, hpath⟩
    obtain ⟨id, -, hcl⟩ := List.mem_filterMap.mp hcl
    obtain ⟨seq, hget, hmap⟩ := Option.bind_eq_some_iff.mp hcl
    obtain ⟨request, hacc, rfl⟩ := Option.map_eq_some_iff.mp hmap
    have hlong : c.blockSize ≤ request.promptTokens.length := by
      by_contra hshort
      rw [(blocks_eq_nil c.blockSize_pos _).mpr (not_le.mp hshort), List.prefix_nil] at hpath
      exact hne hpath
    refine ⟨_, (hm.claims seq.seqId _).mpr ⟨id, request, ?_, hacc, hlong, rfl⟩, hpath⟩
    rw [hget]
    rfl

end Nodes

/-- In every state the claims in the tree are the whole blocks of the active prompts, each under
the slot of its request; no free slot has one, and without whole blocks the tree is empty. -/
theorem tree_mirrors_active (env : Env) (s : State)
    (h : Reachable (step env) anything (start env) s) (b : {b : ℕ // 1 ≤ b})
    (hb : env.prefixBlockSize = some b) :
    ∃ c, s.prefixCache = some c ∧ c.blockSize = b ∧
      (∀ seqId path, (seqId, path) ∈ c.claims ↔ Claimed s b seqId path) ∧
      (c.claims.map Prod.fst).Nodup ∧
      (∀ seqId ∈ s.freeSlots, seqId ∉ c.claims.map Prod.fst) ∧
      ((∀ id ∈ s.active.keys, ∀ request, s.accepted.get? id = some request →
        request.promptTokens.length < b) → c.nodeCount = 0) := by
  obtain ⟨hsize, hall⟩ := reachable_mirrors h
  rw [hb, Option.map_some] at hsize
  obtain ⟨c, hc, hcb⟩ := Option.map_eq_some_iff.mp hsize
  have hm := hall c hc
  obtain ⟨addr, hr⟩ := hm.refines
  refine ⟨c, hc, hcb, ?_, hr.nodup, fun seqId hf => hm.free_unclaimed (reachable_books h).1 hf, ?_⟩
  · rw [← hcb]
    exact hm.claims
  · intro hshort
    have hnil : c.claims = [] := by
      refine List.eq_nil_iff_forall_not_mem.mpr fun cl hcl => ?_
      obtain ⟨id, request, hseq, hacc, hlen, -⟩ := (hm.claims cl.1 cl.2).mp hcl
      obtain ⟨seq, hs, -⟩ := Option.map_eq_some_iff.mp hseq
      rw [hcb] at hlen
      exact absurd (hshort id (Dict.mem_keys.mpr ⟨seq, hs⟩) request hacc) (not_lt.mpr hlen)
    rw [hr.count, hnil, prefixes_nil]
    rfl

theorem tree_mirrors_active_demo :
    ∃ s, run (step demo) (start demo) demoArrivals = some s ∧ ∃ c, s.prefixCache = some c ∧
      ∀ seqId path, (seqId, path) ∈ c.claims ↔ Claimed s 2 seqId path := by
  obtain ⟨s, hs⟩ := Option.isSome_iff_exists.mp
    (by decide +kernel : (run (step demo) (start demo) demoArrivals).isSome)
  obtain ⟨c, hc, -, hclaims, -⟩ :=
    tree_mirrors_active demo s (Reachable.init.run hs) ⟨2, by decide⟩ rfl
  exact ⟨s, hs, c, hc, hclaims⟩

end TinyServe.BatchLoop
