import TinyServe.PythonPrefixCache

set_option autoImplicit false

namespace TinyServe.PythonPrefixCache
open OrderedDict ClaimTree PrefixCacheBase PrefixClaims

/-- The heap under the root is the tree of `claims`, with `addr` naming its nodes. -/
structure Tree (c : Cache) (claims : Claims SeqId Block) (addr : List Block → Option Address) :
    Prop where
  rep : Represents (fun i => some (c.heap i)) c.root claims addr
  below : ∀ path i, addr path = some i → i < c.fresh
  count : c.nodeCount = (prefixes claims).card

/-- The fields no walk over the tree touches. -/
def SameShell (c c' : Cache) : Prop :=
  c'.blockSize = c.blockSize ∧ c'.root = c.root ∧ c'.seqNodes = c.seqNodes

theorem SameShell.refl (c : Cache) : SameShell c c := ⟨rfl, rfl, rfl⟩

theorem SameShell.trans {a b c : Cache} (h : SameShell a b) (h' : SameShell b c) :
    SameShell a c :=
  ⟨h'.1.trans h.1, h'.2.1.trans h.2.1, h'.2.2.trans h.2.2⟩

section Match
variable {c : Cache} {claims : Claims SeqId Block} {addr : List Block → Option Address}

theorem Tree.node (h : Tree c claims addr) {path : List Block} {i : Address}
    (hi : addr path = some i) : NodeFor claims addr path (c.heap i) := by
  obtain ⟨n, hn, hf⟩ := h.rep.node path i hi
  rwa [Option.some.inj hn]

theorem Tree.child (h : Tree c claims addr) {path : List Block} {i : Address}
    (hi : addr path = some i) (k : Block) : (c.heap i).children.get? k = addr (path ++ [k]) :=
  (h.node hi).children k

/-- The walk stops exactly where the claims end. -/
theorem Tree.descend (h : Tree c claims addr) (q path : List Block) (i : Address)
    (hi : addr path = some i) :
    addr (path ++ q.take (descend c.heap i q).2) = some (descend c.heap i q).1 ∧
      (descend c.heap i q).2 ≤ q.length ∧
      ∀ n, n ≤ q.length → (addr (path ++ q.take n)).isSome → n ≤ (descend c.heap i q).2 := by
  induction q generalizing path i with
  | nil => simp [PythonPrefixCache.descend, hi]
  | cons key keys ih =>
    have hc := h.child hi key
    cases hk : addr (path ++ [key]) with
    | none =>
      rw [hk] at hc
      refine ⟨by simp [PythonPrefixCache.descend, hc, hi], by simp [PythonPrefixCache.descend, hc],
        fun n hn hs => ?_⟩
      cases n with
      | zero => exact Nat.zero_le _
      | succ n =>
        -- a longer live path would make this child live
        have hbelow : (addr (path ++ [key] ++ keys.take n)).isSome := by simpa using hs
        have hlive := h.rep.isSome_of_append hbelow
        simp [hk] at hlive
    | some j =>
      rw [hk] at hc
      obtain ⟨ha, hl, hmax⟩ := ih (path ++ [key]) j hk
      have hd : PythonPrefixCache.descend c.heap i (key :: keys) =
          ((PythonPrefixCache.descend c.heap j keys).1,
            (PythonPrefixCache.descend c.heap j keys).2 + 1) := by
        simp [PythonPrefixCache.descend, hc]
      rw [hd]
      refine ⟨by simpa using ha, by simpa using hl, fun n hn hs => ?_⟩
      cases n with
      | zero => exact Nat.zero_le _
      | succ n => exact Nat.succ_le_succ (hmax n (by simpa using hn) (by simpa using hs))

theorem Tree.descend_depth (h : Tree c claims addr) (q : List Block) :
    (PythonPrefixCache.descend c.heap c.root q).2 = depth claims q := by
  obtain ⟨ha, hl, hmax⟩ := h.descend q [] c.root h.rep.root
  exact h.rep.depth_eq hl (by rw [← List.nil_append (q.take _), ha]; rfl) hmax

theorem Tree.descend_owners (h : Tree c claims addr) (q : List Block) (hd : depth claims q ≠ 0) :
    (c.heap (PythonPrefixCache.descend c.heap c.root q).1).owners =
      PrefixClaims.owners claims (q.take (depth claims q)) := by
  obtain ⟨ha, hl, -⟩ := h.descend q [] c.root h.rep.root
  rw [h.descend_depth, List.nil_append] at ha
  refine (h.node ha).owners fun hnil => ?_
  have hlen := congrArg List.length hnil
  have := depth_le claims q
  simp only [List.length_take, List.length_nil] at hlen
  omega

end Match

section Insert
variable {c : Cache} {l : Claims SeqId Block} {addr : List Block → Option Address} {s : SeqId}
  {b : List Block} {k : Block} {node : Address}

/-- One turn of the loop of `insert`: the newest claim grows by one block. -/
theorem Tree.claimStep (h : Tree c (l ++ [(s, b)]) addr) (hnode : addr b = some node) :
    let c₁ := (c.childAt node k).1
    let child := (c.childAt node k).2
    let c₂ := c₁.write child { c₁.heap child with owners := (c₁.heap child).owners ++ [s] }
    ∃ addr', Tree c₂ (l ++ [(s, b ++ [k])]) addr' ∧ addr' (b ++ [k]) = some child ∧
      (∀ p i, addr p = some i → addr' p = some i) ∧ SameShell c c₂ := by
  have hlt := h.below b node hnode
  have hchild := h.child hnode k
  cases hk : addr (b ++ [k]) with
  | some j =>
    rw [hk] at hchild
    have hat : c.childAt node k = (c, j) := by simp [Cache.childAt, hchild]
    simp only [hat]
    refine ⟨addr, ⟨?_, h.below, ?_⟩, hk, fun _ _ hp => hp, SameShell.refl c⟩
    · refine h.rep.grow_shared (n := c.heap j) hk rfl ?_ fun i hi => ?_
      · simp [Cache.write]
      · simp [Cache.write, Function.update_of_ne hi]
    · rw [h.rep.prefixes_shared (by simp [hk])]
      exact h.count
  | none =>
    rw [hk] at hchild
    have hne : node ≠ c.fresh := Nat.ne_of_lt hlt
    have hfresh : ∀ path, addr path ≠ some c.fresh := fun path hp =>
      absurd (h.below path c.fresh hp) (lt_irrefl _)
    have hat : (c.childAt node k).2 = c.fresh := by simp [Cache.childAt, hchild]
    simp only [hat]
    refine ⟨Function.update addr (b ++ [k]) (some c.fresh), ⟨?_, fun path i hp => ?_, ?_⟩,
      by simp, fun p i hp => ?_, ?_⟩
    · have hroot : (c.childAt node k).1.root = c.root := by simp [Cache.childAt, hchild, Cache.write]
      simp only [Cache.write, hroot]
      refine h.rep.grow_fresh (n := c.heap node) hnode rfl hk hfresh ?_ ?_ fun j hj hjn => ?_
      · simp [Cache.childAt, hchild, Cache.write, Function.update_of_ne hne.symm]
      · simp [Cache.childAt, hchild, Cache.write, Function.update_of_ne hne]
      · simp [Cache.childAt, hchild, Cache.write, Function.update_of_ne hj,
          Function.update_of_ne hjn]
    · have hfr : (c.childAt node k).1.fresh = c.fresh + 1 := by simp [Cache.childAt, hchild]
      show i < (c.childAt node k).1.fresh
      rw [hfr]
      by_cases hpk : path = b ++ [k]
      · have hfi : c.fresh = i := by simpa [hpk] using hp
        exact hfi ▸ Nat.lt_succ_self _
      · rw [Function.update_of_ne hpk] at hp
        exact Nat.lt_succ_of_lt (h.below path i hp)
    · have hnc : (c.childAt node k).1.nodeCount = c.nodeCount + 1 := by simp [Cache.childAt, hchild]
      show (c.childAt node k).1.nodeCount = _
      rw [hnc, h.count, h.rep.card_fresh hk]
      push_cast
      rfl
    · exact update_extends hk hp
    · simp [SameShell, Cache.childAt, hchild, Cache.write]

theorem Tree.claimPath (h : Tree c (l ++ [(s, b)]) addr) (hnode : addr b = some node)
    (keys : List Block) :
    ∃ addr', Tree (c.claimPath s node (cells addr b) keys).1 (l ++ [(s, b ++ keys)]) addr' ∧
      (c.claimPath s node (cells addr b) keys).2 = cells addr' (b ++ keys) ∧
      (∀ p i, addr p = some i → addr' p = some i) ∧
      SameShell c (c.claimPath s node (cells addr b) keys).1 := by
  induction keys generalizing c b node addr with
  | nil => exact ⟨addr, by simpa [Cache.claimPath] using h, by simp [Cache.claimPath],
      fun _ _ hp => hp, SameShell.refl c⟩
  | cons key keys ih =>
    obtain ⟨addr₁, h₁, hchild, hmono, hshell⟩ := h.claimStep (k := key) hnode
    have howned : cells addr b ++ [(c.childAt node key).2] = cells addr₁ (b ++ [key]) := by
      have hb := h.rep.cells_mono (c := (s, b)) (by simp) hmono
      rw [cells_concat, hb, hchild]
      rfl
    obtain ⟨addr₂, h₂, ho, hm, hs⟩ := ih h₁ hchild
    have hstep : c.claimPath s node (cells addr b) (key :: keys) =
        ((c.childAt node key).1.write (c.childAt node key).2
          { (c.childAt node key).1.heap (c.childAt node key).2 with
            owners := ((c.childAt node key).1.heap (c.childAt node key).2).owners ++ [s] }).claimPath
          s (c.childAt node key).2 (cells addr₁ (b ++ [key])) keys := by
      rw [← howned]
      rfl
    rw [hstep]
    refine ⟨addr₂, by simpa using h₂, by simpa using ho, fun p i hp => hm p i (hmono p i hp),
      hshell.trans hs⟩

end Insert

section Evict
variable {c : Cache} {l r : Claims SeqId Block} {addr : List Block → Option Address} {s : SeqId}
  {b : List Block} {k : Block} {i : Address}

/-- One turn of the loop of `evict`: the claim of `s` shrinks by its last block. -/
theorem Tree.dropOwner (h : Tree c (l ++ (s, b ++ [k]) :: r) addr) (hs : s ∉ l.map Prod.fst)
    (hi : addr (b ++ [k]) = some i) :
    ∃ addr', Tree (c.dropOwner s i) (l ++ (s, b) :: r) addr' ∧
      (∀ p, p ≠ b ++ [k] → addr' p = addr p) ∧
      (∀ p a, addr' p = some a → addr p = some a) ∧ SameShell c (c.dropOwner s i) := by
  by_cases hkeep : (c.heap i).owners.erase s ≠ [] ∨ (c.heap i).children.isEmpty = false
  · have hd : c.dropOwner s i =
        c.write i { c.heap i with owners := (c.heap i).owners.erase s } := by
      simp only [Cache.dropOwner, if_pos hkeep]
    rw [hd]
    refine ⟨addr, ⟨?_, h.below, ?_⟩, fun _ _ => rfl, fun _ _ hp => hp, SameShell.refl c⟩
    · refine h.rep.shrink_shared hs hi rfl hkeep ?_ fun a ha => ?_
      · simp [Cache.write]
      · simp [Cache.write, Function.update_of_ne ha]
    · rw [← h.rep.prefixes_kept hs hi rfl hkeep]
      exact h.count
  · push Not at hkeep
    have hleaf : (c.heap i).children.isEmpty = true := by simpa using hkeep.2
    obtain ⟨p, hp, hpi, hparent, hkey⟩ := h.rep.parent hi rfl
    have hd : c.dropOwner s i =
        { (c.write i { c.heap i with owners := (c.heap i).owners.erase s }).write p
            { c.heap p with children := (c.heap p).children.erase k } with
          nodeCount := c.nodeCount - 1 } := by
      have hno : ¬ ((c.heap i).owners.erase s ≠ [] ∨ (c.heap i).children.isEmpty = false) := by
        simp [hkeep.1, hleaf]
      simp only [Cache.dropOwner, if_neg hno, Cache.unlink, hparent, hkey]
      simp [Cache.write, Function.update_of_ne hpi]
    rw [hd]
    have hsub : ∀ q a, Function.update addr (b ++ [k]) none q = some a → addr q = some a :=
      fun _ _ ha => (of_update_none ha).2
    refine ⟨Function.update addr (b ++ [k]) none,
      ⟨?_, fun path a ha => h.below path a (hsub path a ha), ?_⟩,
      fun q hq => Function.update_of_ne hq _ _, hsub, ⟨rfl, rfl, rfl⟩⟩
    · refine h.rep.shrink_dead hs hi rfl hkeep.1 hleaf hp rfl ?_ fun a ha hap => ?_
      · simp [Cache.write]
      · simp [Cache.write, Function.update_of_ne ha, Function.update_of_ne hap]
    · have hcount := h.count
      rw [h.rep.card_dead hs hi rfl hkeep.1] at hcount
      show c.nodeCount - 1 = _
      rw [hcount, Nat.cast_succ, Int.add_sub_cancel]

end Evict

end TinyServe.PythonPrefixCache
