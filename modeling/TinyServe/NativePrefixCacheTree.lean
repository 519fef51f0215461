import TinyServe.NativePrefixCache

set_option autoImplicit false

namespace TinyServe.NativePrefixCache
open OrderedDict ClaimTree PrefixCacheBase PrefixClaims

theorem int32_of_fits {x : ℤ} (h : -2147483648 ≤ x) (h' : x < 2147483648) : int32 x = x := by
  unfold int32
  rw [Int.bmod_def]
  omega

theorem int32_succ (x : ℤ) : int32 (int32 x + 1) = int32 (x + 1) := by
  unfold int32
  exact Int.bmod_add_bmod

theorem int32_pred (x : ℤ) : int32 (int32 x - 1) = int32 (x - 1) := by
  unfold int32
  exact Int.bmod_sub_bmod

/-- The allocated cells are exactly the root and the nodes of the tree of `claims`. -/
structure Stands (c : Tree) (claims : Claims SeqId Block) (addr : List Block → Option Address) :
    Prop where
  rep : Represents c.heap.get? c.root claims addr
  below : ∀ i n, c.heap.get? i = some n → i < c.fresh
  exact : ∀ i n, c.heap.get? i = some n → ∃ path, addr path = some i
  count : c.nodeCount = int32 (prefixes claims).card

def SameShell (c c' : Tree) : Prop :=
  c'.blockSize = c.blockSize ∧ c'.root = c.root ∧ c'.seqNodes = c.seqNodes

theorem SameShell.refl (c : Tree) : SameShell c c := ⟨rfl, rfl, rfl⟩

theorem SameShell.trans {a b c : Tree} (h : SameShell a b) (h' : SameShell b c) :
    SameShell a c :=
  ⟨h'.1.trans h.1, h'.2.1.trans h.2.1, h'.2.2.trans h.2.2⟩

@[simp] theorem store_get? (c : Tree) (i j : Address) (n : CacheNode) :
    (c.store i n).heap.get? j = if i = j then some n else c.heap.get? j := Dict.get?_set _ _ _ _

theorem deref_ok {c : Tree} {i : Address} {n : CacheNode} (h : c.heap.get? i = some n) :
    c.deref i = .ok n := by rw [Tree.deref, h]

theorem unlink_ok {c : Tree} {n m : CacheNode} {p : Address} {k : Block}
    (hp : n.parent = some p) (hk : n.key = some k) (hm : c.heap.get? p = some m) :
    c.unlink n = .ok (c.store p { m with children := m.children.erase k }) := by
  simp only [Tree.unlink, hp, hk, deref_ok hm]
  rfl

theorem free_ok {c : Tree} {i : Address} {n : CacheNode} (h : c.heap.get? i = some n) :
    c.free i = .ok { c with heap := c.heap.erase i } := by
  simp only [Tree.free, deref_ok h]
  rfl

section Walk
variable {c : Tree} {claims : Claims SeqId Block} {addr : List Block → Option Address}

/-- Every address the tree names can be read. -/
theorem Stands.read (h : Stands c claims addr) {path : List Block} {i : Address}
    (hi : addr path = some i) :
    ∃ n, c.heap.get? i = some n ∧ c.deref i = .ok n ∧ NodeFor claims addr path n := by
  obtain ⟨n, hn, hf⟩ := h.rep.node path i hi
  exact ⟨n, hn, deref_ok hn, hf⟩

/-- Writing to a node of the tree allocates nothing. -/
theorem Stands.store_allocated (h : Stands c claims addr) {path : List Block} {i : Address}
    (hi : addr path = some i) (written : CacheNode) {j : Address} {n : CacheNode}
    (hj : (c.store i written).heap.get? j = some n) : j < c.fresh ∧ ∃ path, addr path = some j := by
  obtain ⟨old, hold, -⟩ := h.read hi
  rw [store_get?] at hj
  split_ifs at hj with hij
  · exact ⟨hij ▸ h.below i old hold, path, hij ▸ hi⟩
  · exact ⟨h.below j n hj, h.exact j n hj⟩

theorem Stands.fresh_unnamed (h : Stands c claims addr) (path : List Block) :
    addr path ≠ some c.fresh := by
  intro hp
  obtain ⟨n, hn, -⟩ := h.read hp
  exact lt_irrefl _ (h.below _ n hn)

theorem Stands.descend (h : Stands c claims addr) (q path : List Block) (i : Address)
    (hi : addr path = some i) :
    ∃ last matched, c.descend i q = .ok (last, matched) ∧
      addr (path ++ q.take matched) = some last ∧ matched ≤ q.length ∧
      ∀ n, n ≤ q.length → (addr (path ++ q.take n)).isSome → n ≤ matched := by
  induction q generalizing path i with
  | nil => exact ⟨i, 0, rfl, by simpa using hi, le_rfl, fun n hn _ => hn⟩
  | cons key keys ih =>
    obtain ⟨n, hn, hr, hf⟩ := h.read hi
    have hc := hf.children key
    cases hk : addr (path ++ [key]) with
    | none =>
      rw [hk] at hc
      refine ⟨i, 0, by simp [Tree.descend, hr, hc, bind, Except.bind], by simpa using hi,
        Nat.zero_le _, fun m hm hs => ?_⟩
      cases m with
      | zero => exact le_rfl
      | succ m =>
        have hbelow : (addr (path ++ [key] ++ keys.take m)).isSome := by simpa using hs
        have hlive := h.rep.isSome_of_append hbelow
        simp [hk] at hlive
    | some j =>
      rw [hk] at hc
      obtain ⟨last, matched, hd, ha, hl, hmax⟩ := ih (path ++ [key]) j hk
      refine ⟨last, matched + 1, ?_, by simpa using ha, by simpa using hl, fun m hm hs => ?_⟩
      · simp [Tree.descend, hr, hc, hd, bind, Except.bind, pure, Except.pure]
      · cases m with
        | zero => exact Nat.zero_le _
        | succ m => exact Nat.succ_le_succ (hmax m (by simpa using hm) (by simpa using hs))

theorem Stands.descend_root (h : Stands c claims addr) (q : List Block) :
    ∃ last, c.descend c.root q = .ok (last, depth claims q) ∧
      addr (q.take (depth claims q)) = some last := by
  obtain ⟨last, matched, hd, ha, hl, hmax⟩ := h.descend q [] c.root h.rep.root
  rw [List.nil_append] at ha
  have hm : matched = depth claims q := h.rep.depth_eq hl (by rw [ha]; rfl) hmax
  subst hm
  exact ⟨last, hd, ha⟩

/-- The comparator reads only allocated nodes. -/
theorem Stands.depths (h : Stands c claims addr) {is : List Address}
    (his : ∀ i ∈ is, ∃ path, addr path = some i) :
    ∃ ds, c.depths is = .ok ds ∧ ds.map Prod.fst = is ∧
      ∀ d ∈ ds, ∀ n, c.heap.get? d.1 = some n → d.2 = n.depth := by
  induction is with
  | nil => exact ⟨[], rfl, rfl, by simp⟩
  | cons i is ih =>
    obtain ⟨path, hp⟩ := his i List.mem_cons_self
    obtain ⟨n, hn, hr, -⟩ := h.read hp
    obtain ⟨ds, hds, hmap, hdep⟩ := ih fun j hj => his j (List.mem_cons_of_mem _ hj)
    refine ⟨(i, n.depth) :: ds, by simp [Tree.depths, hr, hds, bind, Except.bind, pure, Except.pure],
      by simp [hmap], fun d hd m hm => ?_⟩
    rcases List.mem_cons.mp hd with rfl | hd
    · rw [Option.some.inj (hn.symm.trans hm)]
    · exact hdep d hd m hm

end Walk

section Insert
variable {c : Tree} {l : Claims SeqId Block} {addr : List Block → Option Address} {s : SeqId}
  {b : List Block} {k : Block} {node : Address}

theorem Stands.claim_shared (h : Stands c (l ++ [(s, b)]) addr) {child : Address} {n : CacheNode}
    (hk : addr (b ++ [k]) = some child) (hn : c.heap.get? child = some n) :
    Stands (c.store child { n with owners := n.owners ++ [s] }) (l ++ [(s, b ++ [k])]) addr := by
  refine ⟨?_, fun i x hx => (h.store_allocated hk _ hx).1,
    fun i x hx => (h.store_allocated hk _ hx).2, ?_⟩
  · refine h.rep.grow_shared hk hn (by simp) fun i hi => ?_
    simp [Ne.symm hi]
  · rw [h.rep.prefixes_shared (by simp [hk])]
    exact h.count

/-- A node made at the next address hangs under the last one of the claim. -/
theorem Stands.claim_fresh (h : Stands c (l ++ [(s, b)]) addr) (hnode : addr b = some node)
    {m : CacheNode} (hm : c.heap.get? node = some m) (hk : addr (b ++ [k]) = none) {made : Tree}
    (hlook : ∀ j, made.heap.get? j =
      if c.fresh = j then some ⟨some node, some k, .empty, [s], m.depth + 1⟩ else
      if node = j then some { m with children := m.children.set k c.fresh } else c.heap.get? j)
    (hroot : made.root = c.root) (hfresh : made.fresh = c.fresh + 1)
    (hcount : made.nodeCount = int32 (c.nodeCount + 1)) :
    Stands made (l ++ [(s, b ++ [k])]) (Function.update addr (b ++ [k]) (some c.fresh)) := by
  have hlt := h.below node m hm
  have hne : c.fresh ≠ node := Nat.ne_of_gt hlt
  refine ⟨?_, fun i x hx => ?_, fun i x hx => ?_, ?_⟩
  · rw [hroot]
    refine h.rep.grow_fresh hnode hm hk h.fresh_unnamed ?_ ?_ fun j hj hjn => ?_
    · rw [hlook, if_pos rfl]
    · rw [hlook, if_neg hne, if_pos rfl]
    · rw [hlook, if_neg (Ne.symm hj), if_neg (Ne.symm hjn)]
  · rw [hfresh]
    rw [hlook] at hx
    split_ifs at hx with hi hni
    · exact hi ▸ Nat.lt_succ_self _
    · exact Nat.lt_succ_of_lt (hni ▸ hlt)
    · exact Nat.lt_succ_of_lt (h.below i x hx)
  · rw [hlook] at hx
    split_ifs at hx with hi hni
    · exact ⟨b ++ [k], by rw [Function.update_self, hi]⟩
    · exact ⟨b, update_extends hk (hni ▸ hnode)⟩
    · obtain ⟨path, hp⟩ := h.exact i x hx
      exact ⟨path, update_extends hk hp⟩
  · rw [hcount, h.count, int32_succ, h.rep.card_fresh hk]
    rfl

theorem Stands.claimStep (h : Stands c (l ++ [(s, b)]) addr) (hnode : addr b = some node) :
    ∃ c₁ child n, c.childAt node k = .ok (c₁, child) ∧ c₁.deref child = .ok n ∧
      ∃ addr', Stands (c₁.store child { n with owners := n.owners ++ [s] }) (l ++ [(s, b ++ [k])])
          addr' ∧ addr' (b ++ [k]) = some child ∧ (∀ p i, addr p = some i → addr' p = some i) ∧
        SameShell c (c₁.store child { n with owners := n.owners ++ [s] }) := by
  obtain ⟨m, hm, hr, hf⟩ := h.read hnode
  have hchild := hf.children k
  cases hk : addr (b ++ [k]) with
  | some child =>
    rw [hk] at hchild
    obtain ⟨n, hn, hrn, -⟩ := h.read hk
    have hat : c.childAt node k = .ok (c, child) := by
      simp [Tree.childAt, hr, hchild, bind, Except.bind, pure, Except.pure]
    exact ⟨c, child, n, hat, hrn, addr, h.claim_shared hk hn, hk, fun _ _ hp => hp,
      SameShell.refl c⟩
  | none =>
    rw [hk] at hchild
    have hne : node ≠ c.fresh := Nat.ne_of_lt (h.below node m hm)
    let n : CacheNode := ⟨some node, some k, .empty, [], m.depth + 1⟩
    let linked := (c.store c.fresh n).store node { m with children := m.children.set k c.fresh }
    let made : Tree :=
      { linked with fresh := c.fresh + 1, nodeCount := int32 (c.nodeCount + 1) }
    have hat : c.childAt node k = .ok (made, c.fresh) := by
      simp [Tree.childAt, hr, hchild, made, linked, n, bind, Except.bind, pure, Except.pure]
    have hnew : made.heap.get? c.fresh = some n := by
      show linked.heap.get? c.fresh = some n
      rw [store_get?, store_get?, if_neg hne, if_pos rfl]
    refine ⟨made, c.fresh, n, hat, deref_ok hnew, _,
      h.claim_fresh hnode hm hk (fun j => ?_) rfl rfl rfl, by simp,
      fun p i hp => update_extends hk hp, ⟨rfl, rfl, rfl⟩⟩
    show ((made.store c.fresh { n with owners := n.owners ++ [s] }).heap.get? j) = _
    rw [store_get?]
    split_ifs with hj hnj
    · rfl
    · show linked.heap.get? j = _
      rw [store_get?, if_pos hnj]
    · show linked.heap.get? j = _
      rw [store_get?, store_get?, if_neg hnj, if_neg hj]

theorem Stands.claimPath (h : Stands c (l ++ [(s, b)]) addr) (hnode : addr b = some node)
    (keys : List Block) :
    ∃ c' addr', c.claimPath s node (cells addr b) keys = .ok (c', cells addr' (b ++ keys)) ∧
      Stands c' (l ++ [(s, b ++ keys)]) addr' ∧ (∀ p i, addr p = some i → addr' p = some i) ∧
      SameShell c c' := by
  induction keys generalizing c b node addr with
  | nil => exact ⟨c, addr, by simp [Tree.claimPath], by simpa using h, fun _ _ hp => hp,
      SameShell.refl c⟩
  | cons key keys ih =>
    obtain ⟨c₁, child, n, hat, hr, addr₁, h₁, hchild, hmono, hshell⟩ := h.claimStep (k := key) hnode
    have howned : cells addr b ++ [child] = cells addr₁ (b ++ [key]) := by
      have hb := h.rep.cells_mono (c := (s, b)) (by simp) hmono
      rw [cells_concat, hb, hchild]
      rfl
    obtain ⟨c₂, addr₂, ho, h₂, hm, hs⟩ := ih h₁ hchild
    refine ⟨c₂, addr₂, ?_, by simpa using h₂, fun p i hp => hm p i (hmono p i hp),
      hshell.trans hs⟩
    rw [← howned] at ho
    simp [Tree.claimPath, hat, hr, ho, bind, Except.bind]

end Insert

section Evict
variable {c : Tree} {l r : Claims SeqId Block} {addr : List Block → Option Address} {s : SeqId}
  {b : List Block} {k : Block} {i : Address} {n : CacheNode}

theorem Stands.drop_shared (h : Stands c (l ++ (s, b ++ [k]) :: r) addr) (hs : s ∉ l.map Prod.fst)
    (hi : addr (b ++ [k]) = some i) (hn : c.heap.get? i = some n)
    (hkeep : n.owners.erase s ≠ [] ∨ n.children.isEmpty = false) :
    Stands (c.store i { n with owners := n.owners.erase s }) (l ++ (s, b) :: r) addr := by
  refine ⟨?_, fun a x hx => (h.store_allocated hi _ hx).1,
    fun a x hx => (h.store_allocated hi _ hx).2, ?_⟩
  · refine h.rep.shrink_shared hs hi hn hkeep (by simp) fun a ha => ?_
    simp [Ne.symm ha]
  · rw [← h.rep.prefixes_kept hs hi hn hkeep]
    exact h.count

/-- A node that nobody owns and nothing hangs under is unlinked and deleted. -/
theorem Stands.drop_dead (h : Stands c (l ++ (s, b ++ [k]) :: r) addr) (hs : s ∉ l.map Prod.fst)
    (hi : addr (b ++ [k]) = some i) (hn : c.heap.get? i = some n) (hown : n.owners.erase s = [])
    (hleaf : n.children.isEmpty = true) {p : Address} {m : CacheNode} (hp : addr b = some p)
    (hm : c.heap.get? p = some m) {rest : Tree}
    (hlook : ∀ a, rest.heap.get? a = if i = a then none else
      if p = a then some { m with children := m.children.erase k } else c.heap.get? a)
    (hroot : rest.root = c.root) (hfresh : rest.fresh = c.fresh)
    (hcount : rest.nodeCount = int32 (c.nodeCount - 1)) :
    Stands rest (l ++ (s, b) :: r) (Function.update addr (b ++ [k]) none) := by
  obtain ⟨p', hp', hpi, -⟩ := h.rep.parent hi hn
  obtain rfl : p = p' := Option.some.inj (hp.symm.trans hp')
  have hkept : ∀ {path a}, i ≠ a → addr path = some a →
      Function.update addr (b ++ [k]) none path = some a := by
    intro path a hia hpath
    have hpk : path ≠ b ++ [k] := fun he => hia (Option.some.inj (hi.symm.trans (he ▸ hpath)))
    rwa [Function.update_of_ne hpk]
  refine ⟨?_, fun a x hx => ?_, fun a x hx => ?_, ?_⟩
  · rw [hroot]
    refine h.rep.shrink_dead hs hi hn hown hleaf hp hm ?_ fun a ha hap => ?_
    · rw [hlook, if_neg (Ne.symm hpi), if_pos rfl]
    · rw [hlook, if_neg (Ne.symm ha), if_neg (Ne.symm hap)]
  · rw [hfresh]
    rw [hlook] at hx
    split_ifs at hx with hia hpa
    · exact hpa ▸ h.below p m hm
    · exact h.below a x hx
  · rw [hlook] at hx
    split_ifs at hx with hia hpa
    · exact ⟨b, hkept hia (hpa ▸ hp)⟩
    · obtain ⟨path, hpath⟩ := h.exact a x hx
      exact ⟨path, hkept hia hpath⟩
  · rw [hcount, h.count, int32_pred, h.rep.card_dead hs hi hn hown, Nat.cast_succ,
      Int.add_sub_cancel]

theorem Stands.dropOwner (h : Stands c (l ++ (s, b ++ [k]) :: r) addr) (hs : s ∉ l.map Prod.fst)
    (hi : addr (b ++ [k]) = some i) :
    ∃ c' addr', c.dropOwner s i = .ok c' ∧ Stands c' (l ++ (s, b) :: r) addr' ∧
      (∀ p, p ≠ b ++ [k] → addr' p = addr p) ∧ (∀ p a, addr' p = some a → addr p = some a) ∧
      SameShell c c' := by
  obtain ⟨n, hn, hr, -⟩ := h.read hi
  by_cases hkeep : n.owners.erase s ≠ [] ∨ n.children.isEmpty = false
  · refine ⟨c.store i { n with owners := n.owners.erase s }, addr, ?_,
      h.drop_shared hs hi hn hkeep, fun _ _ => rfl, fun _ _ hp => hp, SameShell.refl c⟩
    simp only [Tree.dropOwner, hr, bind, Except.bind]
    rw [if_pos hkeep]
    rfl
  · have hdead := hkeep
    push Not at hdead
    have hleaf : n.children.isEmpty = true := by simpa using hdead.2
    obtain ⟨p, hp, hpi, hparent, hkey⟩ := h.rep.parent hi hn
    obtain ⟨m, hm, -⟩ := h.read hp
    let c₁ := (c.store i { n with owners := n.owners.erase s }).store p
      { m with children := m.children.erase k }
    let rest : Tree := { c₁ with heap := c₁.heap.erase i, nodeCount := int32 (c.nodeCount - 1) }
    have hrun : c.dropOwner s i = .ok rest := by
      have hul : (c.store i { n with owners := n.owners.erase s }).unlink
          { n with owners := n.owners.erase s } = .ok c₁ :=
        unlink_ok hparent hkey (by rw [store_get?, if_neg (Ne.symm hpi), hm])
      have hfree : c₁.free i = .ok { c₁ with heap := c₁.heap.erase i } :=
        free_ok (by rw [store_get?, if_neg hpi, store_get?, if_pos rfl])
      simp only [Tree.dropOwner, hr, bind, Except.bind]
      rw [if_neg hkeep]
      simp only [hul, hfree]
      rfl
    refine ⟨rest, _, hrun, h.drop_dead hs hi hn hdead.1 hleaf hp hm (fun a => ?_) rfl rfl rfl,
      fun q hq => Function.update_of_ne hq _ _, fun _ _ ha => (of_update_none ha).2, ⟨rfl, rfl, rfl⟩⟩
    show (c₁.heap.erase i).get? a = _
    rw [Dict.get?_erase, store_get?, store_get?]
    split_ifs <;> rfl

theorem Stands.dropOwners (b : List Block) (h : Stands c (l ++ (s, b) :: r) addr)
    (hs : s ∉ l.map Prod.fst) :
    ∃ c' addr', c.dropOwners s (cells addr b).reverse = .ok c' ∧ Stands c' (l ++ r) addr' ∧
      (∀ p i, addr' p = some i → addr p = some i) ∧ SameShell c c' := by
  induction b using List.reverseRecOn generalizing c addr with
  | nil =>
    refine ⟨c, addr, rfl, ⟨represents_empty_claim.mp h.rep, h.below, h.exact, ?_⟩,
      fun _ _ hp => hp, SameShell.refl c⟩
    rw [← prefixes_congr fun path hne => claim_iff_of_empty (s := s) hne]
    exact h.count
  | append_singleton b k ih =>
    obtain ⟨i, hi⟩ := Option.isSome_iff_exists.mp
      (h.rep.isSome_of_claim (c := (s, b ++ [k])) (by simp) List.prefix_rfl)
    obtain ⟨c₁, addr₁, hrun, h₁, hsame, hsub₁, hshell⟩ := h.dropOwner hs hi
    have hcells : cells addr b = cells addr₁ b := by
      refine cells_congr fun p _ hp => (hsame p fun he => ?_).symm
      exact concat_not_prefix (he ▸ hp)
    obtain ⟨c₂, addr₂, hloop, h₂, hsub₂, hsh⟩ := ih h₁
    have hrev : (cells addr (b ++ [k])).reverse = i :: (cells addr₁ b).reverse := by
      rw [cells_concat, hi, hcells]
      simp
    refine ⟨c₂, addr₂, ?_, h₂, fun p j hp => hsub₁ p j (hsub₂ p j hp), hshell.trans hsh⟩
    rw [hrev]
    simp [Tree.dropOwners, hrun, hloop, bind, Except.bind]

end Evict

end TinyServe.NativePrefixCache
