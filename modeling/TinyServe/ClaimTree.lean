import TinyServe.OrderedDict
import TinyServe.PrefixClaims
import Mathlib.Logic.Function.Basic

set_option autoImplicit false

/-!
A tree of linked cells that represents a claim table. Cells live at numeric addresses, carry
their children by key, the owners of the path they stand for, and a link to their parent. The
heap is any partial map, so the rules below serve heaps with and without deallocation.
-/
namespace ClaimTree
open OrderedDict PrefixClaims

abbrev Address := ℕ

structure Node (σ κ : Type) where
  parent : Option Address
  key : Option κ
  children : Dict κ Address
  owners : List σ
  depth : ℕ

variable {σ κ : Type} [DecidableEq κ]

/-- What the cell for `path` holds when the tree stands for `claims`. -/
structure NodeFor (claims : Claims σ κ) (addr : List κ → Option Address) (path : List κ)
    (node : Node σ κ) : Prop where
  depth : node.depth = path.length
  key : node.key = path.getLast?
  parent : node.parent = if path = [] then none else addr path.dropLast
  children : ∀ k, node.children.get? k = addr (path ++ [k])
  owners : path ≠ [] → node.owners = PrefixClaims.owners claims path

/-- A cell that is neither renamed nor below the renamed one keeps all but its children. -/
theorem NodeFor.update {claims claims' : Claims σ κ} {addr : List κ → Option Address}
    {path q : List κ} {node : Node σ κ} (hf : NodeFor claims addr path node) (a : Option Address)
    {children : Dict κ Address} (hd : path ≠ [] → path.dropLast ≠ q)
    (ho : PrefixClaims.owners claims' path = PrefixClaims.owners claims path)
    (hc : ∀ k, children.get? k = Function.update addr q a (path ++ [k])) :
    NodeFor claims' (Function.update addr q a) path { node with children := children } := by
  refine ⟨hf.depth, hf.key, hf.parent.trans ?_, hc, fun hne => (hf.owners hne).trans ho.symm⟩
  by_cases hne : path = []
  · simp [hne]
  · rw [if_neg hne, if_neg hne, Function.update_of_ne (hd hne)]

/-- `addr` names the cell of every claimed prefix, and of nothing else. -/
structure Represents (look : Address → Option (Node σ κ)) (root : Address) (claims : Claims σ κ)
    (addr : List κ → Option Address) : Prop where
  root : addr [] = some root
  live : ∀ path, path ≠ [] → ((addr path).isSome ↔ ∃ c ∈ claims, path <+: c.2)
  node : ∀ path i, addr path = some i → ∃ n, look i = some n ∧ NodeFor claims addr path n
  inj : ∀ p q i, addr p = some i → addr q = some i → p = q

section Shape
variable {look : Address → Option (Node σ κ)} {root : Address} {claims : Claims σ κ}
  {addr : List κ → Option Address}

theorem Represents.isSome_of_claim (h : Represents look root claims addr) {c : σ × List κ}
    (hc : c ∈ claims) {path : List κ} (hp : path <+: c.2) : (addr path).isSome := by
  by_cases hne : path = []
  · subst hne
    rw [h.root]
    rfl
  · exact (h.live path hne).mpr ⟨c, hc, hp⟩

theorem Represents.nodeFor (h : Represents look root claims addr) {path : List κ} {j : Address}
    {n : Node σ κ} (hj : addr path = some j) (hn : look j = some n) :
    NodeFor claims addr path n := by
  obtain ⟨m, hm, hf⟩ := h.node path j hj
  obtain rfl : m = n := Option.some.inj (hm.symm.trans hn)
  exact hf

theorem Represents.mem_prefixes (h : Represents look root claims addr) {path : List κ} :
    path ∈ prefixes claims ↔ path ≠ [] ∧ (addr path).isSome := by
  rw [PrefixClaims.mem_prefixes]
  exact and_congr_right fun hne => (h.live path hne).symm

/-- Above a cell there are cells. -/
theorem Represents.isSome_of_append (h : Represents look root claims addr) {path rest : List κ}
    (hs : (addr (path ++ rest)).isSome) : (addr path).isSome := by
  by_cases hne : path ++ rest = []
  · obtain ⟨rfl, -⟩ := List.append_eq_nil_iff.mp hne
    rw [h.root]
    rfl
  · obtain ⟨c, hc, hp⟩ := (h.live _ hne).mp hs
    exact h.isSome_of_claim hc ((List.prefix_append path rest).trans hp)

/-- A walk from the root that stops where the cells end has gone as deep as the claims. -/
theorem Represents.depth_eq (h : Represents look root claims addr) {q : List κ} {matched : ℕ}
    (hl : matched ≤ q.length) (hs : (addr (q.take matched)).isSome)
    (hmax : ∀ n, n ≤ q.length → (addr (q.take n)).isSome → n ≤ matched) :
    matched = depth claims q := by
  apply le_antisymm
  · refine (le_depth_iff claims q _).mpr ?_
    rcases Nat.eq_zero_or_pos matched with h0 | hpos
    · exact .inl h0
    · have hne : q.take matched ≠ [] := by
        intro hnil
        have hlen := congrArg List.length hnil
        simp only [List.length_take, List.length_nil] at hlen
        omega
      exact .inr ⟨hl, (h.live _ hne).mp hs⟩
  · rcases (le_depth_iff claims q _).mp (le_refl (depth claims q)) with h0 | ⟨hd, c, hc, hp⟩
    · omega
    · exact hmax _ hd (h.isSome_of_claim hc hp)

theorem Represents.congr_claims {ds : Claims σ κ} (h : Represents look root claims addr)
    (hc : ∀ path, path ≠ [] → ((∃ c ∈ claims, path <+: c.2) ↔ ∃ c ∈ ds, path <+: c.2))
    (ho : ∀ path, path ≠ [] → PrefixClaims.owners claims path = PrefixClaims.owners ds path) :
    Represents look root ds addr := by
  refine ⟨h.root, fun path hne => (h.live path hne).trans (hc path hne), fun path i hi => ?_, h.inj⟩
  obtain ⟨n, hn, hf⟩ := h.node path i hi
  exact ⟨n, hn, ⟨hf.depth, hf.key, hf.parent, hf.children,
    fun hne => (hf.owners hne).trans (ho path hne)⟩⟩

/-- A claim on the empty path owns no cell. -/
theorem represents_empty_claim {l r : Claims σ κ} {s : σ} :
    Represents look root (l ++ (s, []) :: r) addr ↔ Represents look root (l ++ r) addr :=
  ⟨fun h => h.congr_claims (fun _ => claim_iff_of_empty) fun _ => owners_of_empty,
    fun h => h.congr_claims (fun _ hne => (claim_iff_of_empty hne).symm)
      fun _ hne => (owners_of_empty hne).symm⟩

/-- The parent of a cell is the cell of the path without its last step. -/
theorem Represents.parent (h : Represents look root claims addr) {b : List κ} {k : κ}
    {j : Address} {n : Node σ κ} (hj : addr (b ++ [k]) = some j) (hn : look j = some n) :
    ∃ p, addr b = some p ∧ p ≠ j ∧ n.parent = some p ∧ n.key = some k := by
  have hf := h.nodeFor hj hn
  have hlong : (addr (b ++ [k])).isSome := by simp [hj]
  obtain ⟨p, hp⟩ := Option.isSome_iff_exists.mp (h.isSome_of_append hlong)
  refine ⟨p, hp, ?_, ?_, by rw [hf.key, List.getLast?_concat]⟩
  · rintro rfl
    simpa using congrArg List.length (h.inj _ _ _ hp hj)
  · rw [hf.parent, if_neg (by simp), List.dropLast_concat, hp]

end Shape

/-- The address map of a tree that is only a root. -/
def rootOnly (root : Address) (path : List κ) : Option Address :=
  if path = [] then some root else none

theorem represents_nil {look : Address → Option (Node σ κ)} {root : Address}
    (h : look root = some ⟨none, none, .empty, [], 0⟩) :
    Represents look root [] (rootOnly root) where
  root := rfl
  live := fun path hne => by simp [rootOnly, hne]
  node := fun path i hi => by
    by_cases hp : path = []
    · subst hp
      have hr : root = i := by simpa [rootOnly] using hi
      subst hr
      exact ⟨_, h, ⟨rfl, rfl, rfl, fun k => by simp [rootOnly], fun hne => absurd rfl hne⟩⟩
    · simp [rootOnly, hp] at hi
  inj := fun p q i hp hq => by
    by_cases hpn : p = []
    · by_cases hqn : q = []
      · rw [hpn, hqn]
      · simp [rootOnly, hqn] at hq
    · simp [rootOnly, hpn] at hp

section Cells
variable {look : Address → Option (Node σ κ)} {root : Address} {claims : Claims σ κ}
  {addr addr' : List κ → Option Address}

/-- The cells along `path`, from the root's child down. -/
def cells (addr : List κ → Option Address) (path : List κ) : List Address :=
  (List.range path.length).filterMap fun i => addr (path.take (i + 1))

omit [DecidableEq κ] in
theorem cells_concat (addr : List κ → Option Address) (b : List κ) (k : κ) :
    cells addr (b ++ [k]) = cells addr b ++ (addr (b ++ [k])).toList := by
  have hlast : (b ++ [k]).take (b.length + 1) = b ++ [k] := List.take_of_length_le (by simp)
  have hinit : ∀ i ∈ List.range b.length,
      addr ((b ++ [k]).take (i + 1)) = addr (b.take (i + 1)) := by
    intro i hi
    rw [List.take_append_of_le_length (Nat.succ_le_of_lt (List.mem_range.mp hi))]
  unfold cells
  rw [List.length_append, List.length_singleton, List.range_succ, List.filterMap_append,
    List.filterMap_congr hinit]
  simp only [List.filterMap_cons, List.filterMap_nil, hlast]
  cases addr (b ++ [k]) <;> rfl

omit [DecidableEq κ] in
theorem cells_congr {path : List κ} (h : ∀ p, p ≠ [] → p <+: path → addr p = addr' p) :
    cells addr path = cells addr' path := by
  refine List.filterMap_congr fun i hi => h _ ?_ (List.take_prefix _ _)
  have hlt : i < path.length := by simpa using hi
  intro hnil
  have hlen := congrArg List.length hnil
  simp only [List.length_take, List.length_nil] at hlen
  omega

omit [DecidableEq κ] in
theorem mem_cells {path : List κ} {i : Address} :
    i ∈ cells addr path ↔ ∃ p, p ≠ [] ∧ p <+: path ∧ addr p = some i := by
  constructor
  · intro h
    obtain ⟨j, hj, hi⟩ := List.mem_filterMap.mp h
    have hlt := List.mem_range.mp hj
    refine ⟨_, fun hnil => ?_, List.take_prefix _ _, hi⟩
    have hlen := congrArg List.length hnil
    simp only [List.length_take, List.length_nil] at hlen
    omega
  · rintro ⟨p, hne, hp, hi⟩
    have hpos := List.length_pos_iff.mpr hne
    have hle := hp.length_le
    refine List.mem_filterMap.mpr ⟨p.length - 1, List.mem_range.mpr (by omega), ?_⟩
    rwa [Nat.sub_add_cancel hpos, ← List.prefix_iff_eq_take.mp hp]

theorem Represents.cells_increasing (h : Represents look root claims addr) {d : Address → ℕ}
    (hd : ∀ i n, look i = some n → d i = n.depth) (path : List κ) :
    (cells addr path).Pairwise fun i j => d i < d j := by
  induction path using List.reverseRecOn with
  | nil => exact List.Pairwise.nil
  | append_singleton b k ih =>
    rw [cells_concat, List.pairwise_append]
    refine ⟨ih, by cases addr (b ++ [k]) <;> simp, fun i hi j hj => ?_⟩
    obtain ⟨p, -, hp, hpi⟩ := mem_cells.mp hi
    obtain ⟨n, hn, hf⟩ := h.node p i hpi
    obtain ⟨m, hm, hg⟩ := h.node (b ++ [k]) j (by simpa using hj)
    have hle := hp.length_le
    rw [hd i n hn, hd j m hm, hf.depth, hg.depth, List.length_append, List.length_singleton]
    omega

/-- Depths along a path are distinct, so sorting its cells deepest first leaves no choice. -/
theorem Represents.sorted_cells (h : Represents look root claims addr) {d : Address → ℕ}
    (hd : ∀ i n, look i = some n → d i = n.depth) {path : List κ} {is : List Address}
    (hp : is.Perm (cells addr path)) (hs : is.Pairwise fun i j => d j ≤ d i) :
    is = (cells addr path).reverse := by
  have hinc := h.cells_increasing hd path
  have hrev : (cells addr path).reverse.Pairwise fun i j => d j ≤ d i :=
    List.pairwise_reverse.mpr (hinc.imp Nat.le_of_lt)
  refine List.Perm.eq_of_pairwise (fun i j hi hj hij hji => ?_) hs hrev
    (hp.trans (List.reverse_perm _).symm)
  obtain ⟨a, ha, rfl⟩ := List.getElem_of_mem (hp.mem_iff.mp hi)
  obtain ⟨b, hb, rfl⟩ := List.getElem_of_mem (List.mem_reverse.mp hj)
  have hlt := List.pairwise_iff_getElem.mp hinc
  rcases lt_trichotomy a b with hab | hab | hab
  · have := hlt a b ha hb hab
    omega
  · simp only [hab]
  · have := hlt b a hb ha hab
    omega

/-- The keys read back along the cells of a claimed path are the path. -/
theorem Represents.keys_cells (h : Represents look root claims addr) {key : Address → Option κ}
    (hkey : ∀ i n, look i = some n → key i = n.key) {path : List κ}
    (hlive : ∀ p, p <+: path → (addr p).isSome) : (cells addr path).filterMap key = path := by
  induction path using List.reverseRecOn with
  | nil => rfl
  | append_singleton b k ih =>
    obtain ⟨i, hi⟩ := Option.isSome_iff_exists.mp (hlive (b ++ [k]) List.prefix_rfl)
    obtain ⟨n, hn, hf⟩ := h.node _ i hi
    have hb := ih fun p hp => hlive p (hp.trans (List.prefix_append _ _))
    rw [cells_concat, hi, List.filterMap_append, hb]
    simp [hkey i n hn, hf.key]

/-- Cells that stay where they were keep the paths they are on. -/
theorem Represents.cells_mono (h : Represents look root claims addr) {c : σ × List κ}
    (hc : c ∈ claims) (hmono : ∀ p i, addr p = some i → addr' p = some i) :
    cells addr c.2 = cells addr' c.2 := by
  refine cells_congr fun p _ hp => ?_
  obtain ⟨i, hi⟩ := Option.isSome_iff_exists.mp (h.isSome_of_claim hc hp)
  rw [hi, hmono p i hi]

end Cells

/-! ## The cells each owner is registered with -/

section Register
variable {look : Address → Option (Node σ κ)} {root : Address} {claims : Claims σ κ}
  {addr addr' : List κ → Option Address} {register : Dict σ (List Address)} {s : σ}

omit [DecidableEq κ] in
theorem register_keys (h : register.entries = claims.map fun c => (c.1, cells addr c.2)) :
    register.keys = claims.map Prod.fst := by
  rw [Dict.keys, h, List.map_map]
  rfl

theorem Represents.map_cells (h : Represents look root claims addr)
    (hmono : ∀ p i, addr p = some i → addr' p = some i) :
    (claims.map fun c => (c.1, cells addr c.2)) = claims.map fun c => (c.1, cells addr' c.2) :=
  List.map_congr_left fun _ hc => Prod.ext rfl (h.cells_mono hc hmono)

/-- Reading the keys of the registered cells gives the claims back. -/
theorem Represents.register_read (h : Represents look root claims addr)
    {key : Address → Option κ} (hkey : ∀ i n, look i = some n → key i = n.key) :
    ((claims.map fun c => (c.1, cells addr c.2)).map fun e => (e.1, e.2.filterMap key)) =
      claims := by
  rw [List.map_map]
  refine (List.map_congr_left fun c hc => ?_).trans (List.map_id _)
  exact Prod.ext rfl (h.keys_cells hkey fun p hp => h.isSome_of_claim hc hp)

variable [DecidableEq σ]

omit [DecidableEq κ] in
theorem register_absent (h : register.entries = claims.map fun c => (c.1, cells addr c.2)) :
    register.get? s = none ↔ s ∉ claims.map Prod.fst := by
  rw [Dict.get?_eq_none, register_keys h]

omit [DecidableEq κ] in
/-- Whoever is registered has one claim, and is registered with its cells. -/
theorem register_claim (h : register.entries = claims.map fun c => (c.1, cells addr c.2))
    {owned : List Address} (hs : register.get? s = some owned) :
    ∃ l path r, claims = l ++ (s, path) :: r ∧ owned = cells addr path ∧ s ∉ l.map Prod.fst ∧
      evict claims s = l ++ r := by
  have hmem := Dict.mem_entries.mpr hs
  rw [h] at hmem
  obtain ⟨⟨s', path⟩, hc, he⟩ := List.mem_map.mp hmem
  obtain ⟨rfl, rfl⟩ := Prod.mk.inj he
  obtain ⟨l, r, rfl⟩ := List.append_of_mem hc
  have hn := register.keys_nodup
  rw [register_keys h] at hn
  refine ⟨l, path, r, rfl, rfl, fun hl => ?_, evict_middle hn⟩
  rw [List.map_append, List.map_cons, List.nodup_middle, List.nodup_cons] at hn
  exact hn.1 (List.mem_append_left _ hl)

/-- Dropping an owner leaves the others registered, if no cell that stays has moved. -/
theorem register_erase (h : register.entries = claims.map fun c => (c.1, cells addr c.2))
    (hr : Represents look root (evict claims s) addr')
    (hsub : ∀ p i, addr' p = some i → addr p = some i) :
    (register.erase s).entries = (evict claims s).map fun c => (c.1, cells addr' c.2) := by
  show remove s register.entries = _
  rw [h, remove, List.filter_map, hr.map_cells hsub]
  rfl

/-- A newcomer leaves the others registered, if no cell has moved. -/
theorem register_set (h : register.entries = claims.map fun c => (c.1, cells addr c.2))
    (hs : s ∉ claims.map Prod.fst) (hr : Represents look root claims addr)
    (hmono : ∀ p i, addr p = some i → addr' p = some i) (path : List κ) :
    (register.set s (cells addr' path)).entries =
      (claims ++ [(s, path)]).map fun c => (c.1, cells addr' c.2) := by
  rw [Dict.set_entries_of_fresh ((register_absent h).mpr hs), h, hr.map_cells hmono,
    List.map_append, List.map_singleton]

end Register

section Grow
variable {look look' : Address → Option (Node σ κ)} {root : Address} {l r : Claims σ κ}
  {addr : List κ → Option Address} {s : σ} {b : List κ} {k : κ}

/-- Stepping onto an existing cell adds the newest owner to it. -/
theorem Represents.grow_shared {j : Address} {n : Node σ κ}
    (h : Represents look root (l ++ [(s, b)]) addr) (hj : addr (b ++ [k]) = some j)
    (hn : look j = some n) (hself : look' j = some { n with owners := n.owners ++ [s] })
    (hrest : ∀ i, i ≠ j → look' i = look i) :
    Represents look' root (l ++ [(s, b ++ [k])]) addr := by
  refine ⟨h.root, fun path hne => ?_, fun path i hi => ?_, h.inj⟩
  · by_cases hp : path = b ++ [k]
    · subst hp
      simp [hj]
    · rw [h.live path hne, claim_iff_of_ne hp]
  · by_cases hij : i = j
    · subst hij
      have hp : path = b ++ [k] := h.inj _ _ _ hi hj
      subst hp
      have hf := h.nodeFor hj hn
      refine ⟨_, hself, ⟨hf.depth, hf.key, hf.parent, hf.children, fun hne => ?_⟩⟩
      have hnil : PrefixClaims.owners ([] : Claims σ κ) (b ++ [k]) = [] := rfl
      rw [owners_long, hf.owners hne, owners_short, hnil, List.append_nil]
    · obtain ⟨m, hm, hf⟩ := h.node path i hi
      have hp : path ≠ b ++ [k] := fun hp => hij (by simpa [hp, hj] using hi.symm)
      refine ⟨m, by rw [hrest i hij, hm], ⟨hf.depth, hf.key, hf.parent, hf.children, fun hne => ?_⟩⟩
      rw [hf.owners hne, owners_of_ne hp]

theorem Represents.prefixes_shared (h : Represents look root (l ++ [(s, b)]) addr)
    (hk : (addr (b ++ [k])).isSome) :
    prefixes (l ++ [(s, b ++ [k])]) = prefixes (l ++ [(s, b)]) := by
  have hmem : b ++ [k] ∈ prefixes (l ++ [(s, b)]) := h.mem_prefixes.mpr ⟨by simp, hk⟩
  rw [prefixes_long, Finset.insert_eq_self.mpr hmem]

theorem Represents.card_fresh (h : Represents look root (l ++ [(s, b)]) addr)
    (hk : addr (b ++ [k]) = none) :
    (prefixes (l ++ [(s, b ++ [k])])).card = (prefixes (l ++ [(s, b)])).card + 1 := by
  have hnot : b ++ [k] ∉ prefixes (l ++ [(s, b)]) := by
    rw [h.mem_prefixes, hk]
    simp
  rw [prefixes_long, Finset.card_insert_of_notMem hnot]

/-- The cells that were there stay where they were. -/
theorem update_extends {p q : List κ} {a : Option Address} {i : Address} (hq : addr q = none)
    (hp : addr p = some i) : Function.update addr q a p = some i := by
  have hpq : p ≠ q := fun he => by simp [he, hq] at hp
  rwa [Function.update_of_ne hpq]

/-- A missing cell is linked in at an unused address, owned by the newcomer alone. -/
theorem Represents.grow_fresh {i f : Address} {n : Node σ κ}
    (h : Represents look root (l ++ [(s, b)]) addr) (hi : addr b = some i)
    (hn : look i = some n) (hk : addr (b ++ [k]) = none) (hf : ∀ path, addr path ≠ some f)
    (hnew : look' f = some ⟨some i, some k, .empty, [s], n.depth + 1⟩)
    (hpar : look' i = some { n with children := n.children.set k f })
    (hrest : ∀ j, j ≠ f → j ≠ i → look' j = look j) :
    Represents look' root (l ++ [(s, b ++ [k])]) (Function.update addr (b ++ [k]) (some f)) := by
  have hbk : ([] : List κ) ≠ b ++ [k] := by simp
  have hold : ∀ path j, path ≠ b ++ [k] →
      Function.update addr (b ++ [k]) (some f) path = some j → addr path = some j := by
    intro path j hp hj
    rwa [Function.update_of_ne hp] at hj
  have hnone : ∀ c ∈ l ++ [(s, b)], ¬ b ++ [k] <+: c.2 := by
    intro c hc hp
    have := (h.live (b ++ [k]) hbk.symm).mpr ⟨c, hc, hp⟩
    simp [hk] at this
  refine ⟨?_, fun path hne => ?_, fun path j hj => ?_, fun p q j hp hq => ?_⟩
  · rw [Function.update_of_ne hbk, h.root]
  · by_cases hp : path = b ++ [k]
    · subst hp
      simp
    · rw [Function.update_of_ne hp, h.live path hne, claim_iff_of_ne hp]
  · by_cases hp : path = b ++ [k]
    · subst hp
      have hfj : f = j := by simpa using hj
      subst hfj
      have hfor := h.nodeFor hi hn
      refine ⟨_, hnew, ⟨by simp [hfor.depth], by simp, ?_, fun k' => ?_, fun _ => ?_⟩⟩
      · simp [hi]
      · -- nothing below an absent cell is claimed
        have hlong : b ++ [k] ++ [k'] ≠ b ++ [k] := fun he => by
          simpa using congrArg List.length he
        rw [Function.update_of_ne hlong, Dict.get?_empty]
        by_contra hsome
        have hs := Option.isSome_iff_ne_none.mpr (Ne.symm hsome)
        obtain ⟨c, hc, hpre⟩ := (h.live _ (by simp)).mp hs
        exact hnone c hc ((List.prefix_append _ _).trans hpre)
      · have hl : PrefixClaims.owners l (b ++ [k]) = [] :=
          owners_eq_nil.mpr fun c hc => hnone c (List.mem_append_left _ hc)
        rw [owners_long, hl]
        rfl
    · have ha := hold path j hp hj
      have hjf : j ≠ f := fun he => hf path (he ▸ ha)
      have hd : path ≠ [] → path.dropLast ≠ b ++ [k] := by
        intro hne hd
        have hs : (addr path).isSome := by simp [ha]
        obtain ⟨c, hc, hpre⟩ := (h.live path hne).mp hs
        exact hnone c hc (hd ▸ (List.dropLast_prefix path).trans hpre)
      by_cases hpb : path = b
      · subst hpb
        obtain rfl : i = j := Option.some.inj (hi.symm.trans ha)
        refine ⟨_, hpar, (h.nodeFor hi hn).update (some f) hd (owners_of_ne hp) fun k' => ?_⟩
        rw [Dict.get?_set]
        by_cases hkk : k = k'
        · subst hkk
          simp
        · have hne : path ++ [k'] ≠ path ++ [k] := by simpa using Ne.symm hkk
          rw [if_neg hkk, Function.update_of_ne hne, (h.nodeFor hi hn).children]
      · obtain ⟨m, hm, hfor⟩ := h.node path j ha
        have hji : j ≠ i := fun he => hpb (h.inj _ _ _ (he ▸ ha) hi)
        refine ⟨m, by rw [hrest j hjf hji, hm],
          hfor.update (some f) hd (owners_of_ne hp) fun k' => ?_⟩
        have hne : path ++ [k'] ≠ b ++ [k] := fun he => hpb (List.append_inj' he rfl).1
        rw [Function.update_of_ne hne, hfor.children]
  · by_cases hpk : p = b ++ [k] <;> by_cases hqk : q = b ++ [k]
    · rw [hpk, hqk]
    · have hfj : f = j := by simpa [hpk] using hp
      exact absurd (hold q j hqk hq) (hfj ▸ hf q)
    · have hfj : f = j := by simpa [hqk] using hq
      exact absurd (hold p j hpk hp) (hfj ▸ hf p)
    · exact h.inj p q j (hold p j hpk hp) (hold q j hqk hq)

end Grow

section Shrink
variable {look look' : Address → Option (Node σ κ)} {root : Address} {l r : Claims σ κ}
  {addr : List κ → Option Address} {s : σ} {b : List κ} {k : κ} {j : Address} {n : Node σ κ}
  [DecidableEq σ]

/-- A child outlives its parent's owner only through another claim, which also owns the parent. -/
theorem Represents.other_claim (h : Represents look root (l ++ (s, b ++ [k]) :: r) addr)
    (hs : s ∉ l.map Prod.fst) (hj : addr (b ++ [k]) = some j) (hn : look j = some n)
    (hkeep : n.owners.erase s ≠ [] ∨ n.children.isEmpty = false) :
    ∃ c ∈ l ++ (s, b) :: r, b ++ [k] <+: c.2 := by
  have hf := h.nodeFor hj hn
  rcases hkeep with hown | hchild
  · rw [hf.owners (by simp), owners_erase hs, ne_eq, owners_eq_nil] at hown
    push Not at hown
    exact hown
  · obtain ⟨e, he⟩ : ∃ e, e ∈ n.children.entries :=
      List.exists_mem_of_ne_nil _ fun hnil => by simp [Dict.isEmpty, hnil] at hchild
    have hc := (hf.children e.1).symm.trans (Dict.mem_entries.mp he)
    have hlong : b ++ [k] ++ [e.1] ≠ b ++ [k] := fun he' => by
      simpa using congrArg List.length he'
    obtain ⟨c, hcl, hp⟩ := (h.live _ (by simp)).mp (Option.isSome_iff_exists.mpr ⟨_, hc⟩)
    rw [List.mem_append, List.mem_cons] at hcl
    have hpk : b ++ [k] <+: c.2 := (List.prefix_append _ _).trans hp
    rcases hcl with hcl | rfl | hcl
    · exact ⟨c, List.mem_append_left _ hcl, hpk⟩
    · exact absurd hp.length_le (by simp)
    · exact ⟨c, List.mem_append_right _ (List.mem_cons_of_mem _ hcl), hpk⟩

omit [DecidableEq σ] in
theorem of_update_none {p q : List κ} {a : Address}
    (h : Function.update addr q none p = some a) : p ≠ q ∧ addr p = some a := by
  by_cases hp : p = q
  · simp [hp] at h
  · exact ⟨hp, by rwa [Function.update_of_ne hp] at h⟩

/-- Without its owner a cell without others is on no claimed path. -/
theorem Represents.unclaimed (h : Represents look root (l ++ (s, b ++ [k]) :: r) addr)
    (hs : s ∉ l.map Prod.fst) (hj : addr (b ++ [k]) = some j) (hn : look j = some n)
    (hown : n.owners.erase s = []) : ¬ ∃ c ∈ l ++ (s, b) :: r, b ++ [k] <+: c.2 := by
  rw [(h.nodeFor hj hn).owners (by simp), owners_erase hs, owners_eq_nil] at hown
  rintro ⟨c, hc, hp⟩
  exact hown c hc hp

theorem Represents.prefixes_kept (h : Represents look root (l ++ (s, b ++ [k]) :: r) addr)
    (hs : s ∉ l.map Prod.fst) (hj : addr (b ++ [k]) = some j) (hn : look j = some n)
    (hkeep : n.owners.erase s ≠ [] ∨ n.children.isEmpty = false) :
    prefixes (l ++ (s, b ++ [k]) :: r) = prefixes (l ++ (s, b) :: r) := by
  have hmem : b ++ [k] ∈ prefixes (l ++ (s, b) :: r) :=
    PrefixClaims.mem_prefixes.mpr ⟨by simp, h.other_claim hs hj hn hkeep⟩
  rw [prefixes_long, Finset.insert_eq_self.mpr hmem]

theorem Represents.card_dead (h : Represents look root (l ++ (s, b ++ [k]) :: r) addr)
    (hs : s ∉ l.map Prod.fst) (hj : addr (b ++ [k]) = some j) (hn : look j = some n)
    (hown : n.owners.erase s = []) :
    (prefixes (l ++ (s, b ++ [k]) :: r)).card = (prefixes (l ++ (s, b) :: r)).card + 1 := by
  have hnot : b ++ [k] ∉ prefixes (l ++ (s, b) :: r) :=
    fun hmem => h.unclaimed hs hj hn hown (PrefixClaims.mem_prefixes.mp hmem).2
  rw [prefixes_long, Finset.card_insert_of_notMem hnot]

theorem Represents.shrink_shared (h : Represents look root (l ++ (s, b ++ [k]) :: r) addr)
    (hs : s ∉ l.map Prod.fst) (hj : addr (b ++ [k]) = some j) (hn : look j = some n)
    (hkeep : n.owners.erase s ≠ [] ∨ n.children.isEmpty = false)
    (hself : look' j = some { n with owners := n.owners.erase s })
    (hrest : ∀ i, i ≠ j → look' i = look i) :
    Represents look' root (l ++ (s, b) :: r) addr := by
  have hother := h.other_claim hs hj hn hkeep
  refine ⟨h.root, fun path hne => ?_, fun path i hi => ?_, h.inj⟩
  · by_cases hp : path = b ++ [k]
    · subst hp
      simpa [hj] using hother
    · rw [h.live path hne, claim_iff_of_ne hp]
  · by_cases hij : i = j
    · subst hij
      have hp : path = b ++ [k] := h.inj _ _ _ hi hj
      subst hp
      have hf := h.nodeFor hj hn
      refine ⟨_, hself, ⟨hf.depth, hf.key, hf.parent, hf.children, fun hne => ?_⟩⟩
      rw [← owners_erase hs, hf.owners hne]
    · obtain ⟨m, hm, hf⟩ := h.node path i hi
      have hp : path ≠ b ++ [k] := fun hp => hij (by simpa [hp, hj] using hi.symm)
      refine ⟨m, by rw [hrest i hij, hm], ⟨hf.depth, hf.key, hf.parent, hf.children, fun hne => ?_⟩⟩
      rw [hf.owners hne, owners_of_ne hp]

/-- An ownerless leaf is unlinked from its parent. Its own cell may stay or go. -/
theorem Represents.shrink_dead {i : Address} {m : Node σ κ}
    (h : Represents look root (l ++ (s, b ++ [k]) :: r) addr) (hs : s ∉ l.map Prod.fst)
    (hj : addr (b ++ [k]) = some j) (hn : look j = some n) (hown : n.owners.erase s = [])
    (hleaf : n.children.isEmpty = true) (hi : addr b = some i) (hm : look i = some m)
    (hpar : look' i = some { m with children := m.children.erase k })
    (hrest : ∀ a, a ≠ j → a ≠ i → look' a = look a) :
    Represents look' root (l ++ (s, b) :: r) (Function.update addr (b ++ [k]) none) := by
  have hbk : ([] : List κ) ≠ b ++ [k] := by simp
  have hnone := h.unclaimed hs hj hn hown
  refine ⟨?_, fun path hne => ?_, fun path a hpa => ?_, fun p q a hp hq => ?_⟩
  · rw [Function.update_of_ne hbk, h.root]
  · by_cases hp : path = b ++ [k]
    · subst hp
      simpa using hnone
    · rw [Function.update_of_ne hp, h.live path hne, claim_iff_of_ne hp]
  · obtain ⟨hp, ha⟩ := of_update_none hpa
    have haj : a ≠ j := fun he => hp (h.inj _ _ _ ha (he ▸ hj))
    have hd : path ≠ [] → path.dropLast ≠ b ++ [k] := by
      -- the unlinked cell was a leaf, so it is nobody's parent
      intro hne hd
      have hsplit : b ++ [k] ++ [path.getLast hne] = path := by
        rw [← hd, List.dropLast_concat_getLast]
      have hchild := (h.nodeFor hj hn).children (path.getLast hne)
      rw [hsplit, ha] at hchild
      have hmem := Dict.mem_entries.mpr hchild
      simp [Dict.isEmpty, List.isEmpty_iff] at hleaf
      simp [hleaf] at hmem
    have howners := (owners_of_ne (l := l) (s := s) (r := r) hp).symm
    by_cases hpb : path = b
    · subst hpb
      obtain rfl : i = a := Option.some.inj (hi.symm.trans ha)
      refine ⟨_, hpar, (h.nodeFor hi hm).update none hd howners fun k' => ?_⟩
      rw [Dict.get?_erase]
      by_cases hkk : k = k'
      · subst hkk
        simp
      · have hne : path ++ [k'] ≠ path ++ [k] := by simpa using Ne.symm hkk
        rw [if_neg hkk, Function.update_of_ne hne, (h.nodeFor hi hm).children]
    · obtain ⟨x, hx, hf⟩ := h.node path a ha
      have hai : a ≠ i := fun he => hpb (h.inj _ _ _ (he ▸ ha) hi)
      refine ⟨x, by rw [hrest a haj hai, hx], hf.update none hd howners fun k' => ?_⟩
      have hne : path ++ [k'] ≠ b ++ [k] := fun he => hpb (List.append_inj' he rfl).1
      rw [Function.update_of_ne hne, hf.children]
  · exact h.inj p q a (of_update_none hp).2 (of_update_none hq).2

end Shrink

end ClaimTree
