import TinyServe.ClaimTree
import Mathlib.Data.Finset.Card
import Mathlib.Data.List.Nodup
import Mathlib.Logic.Relation

set_option autoImplicit false

/-!
A finite heap that holds a claim tree and nothing else: where its links lead, how many cells it
has, and that it can be taken apart from the root down, one cell at a time.
-/
namespace ClaimTree
open OrderedDict PrefixClaims

variable {σ κ : Type} [DecidableEq κ]

def Child (heap : Dict Address (Node σ κ)) (i j : Address) : Prop :=
  ∃ n k, heap.get? i = some n ∧ n.children.get? k = some j

/-- No link leaves the heap, and no cell is lost in it. -/
structure Linked (heap : Dict Address (Node σ κ)) (root : Address) : Prop where
  base : root ∈ heap.keys
  child : ∀ i j, Child heap i j → j ≠ root ∧ j ∈ heap.keys
  parent : ∀ i n p, heap.get? i = some n → n.parent = some p → p ∈ heap.keys
  owned : ∀ i n, heap.get? i = some n → i ≠ root → n.owners ≠ []
  reachable : ∀ i ∈ heap.keys, Relation.ReflTransGen (Child heap) root i

structure Holds (heap : Dict Address (Node σ κ)) (root : Address) (claims : Claims σ κ)
    (addr : List κ → Option Address) : Prop extends Represents heap.get? root claims addr where
  exact : ∀ i n, heap.get? i = some n → ∃ path, addr path = some i

section Links
variable {heap : Dict Address (Node σ κ)} {root : Address} {claims : Claims σ κ}
  {addr : List κ → Option Address}

theorem Holds.allocated (h : Holds heap root claims addr) {path : List κ} {i : Address}
    (hi : addr path = some i) : i ∈ heap.keys := by
  obtain ⟨n, hn, -⟩ := h.node path i hi
  exact Dict.mem_keys.mpr ⟨n, hn⟩

theorem Holds.ne_root (h : Holds heap root claims addr) {path : List κ} {i : Address}
    (hi : addr path = some i) : i ≠ root ↔ path ≠ [] := by
  refine not_congr ⟨?_, ?_⟩
  · rintro rfl
    exact h.inj _ _ _ hi h.root
  · rintro rfl
    exact Option.some.inj (hi.symm.trans h.root)

theorem Holds.path (h : Holds heap root claims addr) {i : Address} {n : Node σ κ}
    (hn : heap.get? i = some n) : ∃ path, addr path = some i ∧ NodeFor claims addr path n := by
  obtain ⟨path, hi⟩ := h.exact i n hn
  obtain ⟨m, hm, hf⟩ := h.node path i hi
  obtain rfl : m = n := Option.some.inj (hm.symm.trans hn)
  exact ⟨path, hi, hf⟩

theorem Holds.child_path (h : Holds heap root claims addr) {i j : Address}
    (hc : Child heap i j) : ∃ path k, addr path = some i ∧ addr (path ++ [k]) = some j := by
  obtain ⟨n, k, hn, hk⟩ := hc
  obtain ⟨path, hi, hf⟩ := h.path hn
  exact ⟨path, k, hi, (hf.children k).symm.trans hk⟩

theorem Holds.child_of_path (h : Holds heap root claims addr) {path : List κ} {k : κ}
    {i j : Address} (hi : addr path = some i) (hj : addr (path ++ [k]) = some j) :
    Child heap i j := by
  obtain ⟨n, hn, hf⟩ := h.node path i hi
  exact ⟨n, k, hn, (hf.children k).trans hj⟩

/-- A cell that is not the root hangs below the cell for its path without the last key. -/
theorem Holds.above (h : Holds heap root claims addr) {path : List κ} {k : κ} {j : Address}
    (hj : addr (path ++ [k]) = some j) : ∃ i, addr path = some i :=
  Option.isSome_iff_exists.mp (h.isSome_of_append (by rw [hj]; rfl))

theorem Holds.reachable (h : Holds heap root claims addr) (path : List κ) {i : Address}
    (hi : addr path = some i) : Relation.ReflTransGen (Child heap) root i := by
  induction path using List.reverseRecOn generalizing i with
  | nil =>
    obtain rfl : root = i := Option.some.inj (h.root.symm.trans hi)
    exact .refl
  | append_singleton path k ih =>
    obtain ⟨j, hj⟩ := h.above hi
    exact (ih hj).tail (h.child_of_path hj hi)

theorem Holds.linked (h : Holds heap root claims addr) : Linked heap root where
  base := h.allocated h.toRepresents.root
  child := fun i j hc => by
    obtain ⟨path, k, -, hj⟩ := h.child_path hc
    exact ⟨(h.ne_root hj).mpr (by simp), h.allocated hj⟩
  parent := fun i n p hn hp => by
    obtain ⟨path, -, hf⟩ := h.path hn
    rw [hf.parent] at hp
    split_ifs at hp
    exact h.allocated hp
  owned := fun i n hn hne => by
    obtain ⟨path, hi, hf⟩ := h.path hn
    have hpath := (h.ne_root hi).mp hne
    obtain ⟨c, hc, hp⟩ := (h.live path hpath).mp (Option.isSome_iff_exists.mpr ⟨i, hi⟩)
    rw [hf.owners hpath]
    exact List.ne_nil_of_mem (mem_owners.mpr ⟨c.2, hc, hp⟩)
  reachable := fun i hi => by
    obtain ⟨n, hn⟩ := Dict.mem_keys.mp hi
    obtain ⟨path, hpath⟩ := h.exact i n hn
    exact h.reachable path hpath

/-- There is a cell besides the root for every claimed prefix. -/
theorem Holds.size (h : Holds heap root claims addr) :
    (heap.erase root).size = (prefixes claims).card := by
  have hmem : ∀ {i}, i ∈ (heap.erase root).keys ↔ ∃ path ∈ prefixes claims, addr path = some i := by
    intro i
    rw [Dict.mem_keys_erase]
    constructor
    · rintro ⟨hne, hi⟩
      obtain ⟨n, hn⟩ := Dict.mem_keys.mp hi
      obtain ⟨path, hpath⟩ := h.exact i n hn
      exact ⟨path, h.mem_prefixes.mpr ⟨(h.ne_root hpath).mp hne, by simp [hpath]⟩, hpath⟩
    · rintro ⟨path, hp, hpath⟩
      exact ⟨(h.ne_root hpath).mpr (h.mem_prefixes.mp hp).1, h.allocated hpath⟩
  have haddr : ∀ path ∈ prefixes claims, ∃ i, addr path = some i :=
    fun path hp => Option.isSome_iff_exists.mp (h.mem_prefixes.mp hp).2
  have hcard : (prefixes claims).card = (heap.erase root).keys.toFinset.card := by
    refine Finset.card_nbij (fun path => (addr path).getD root) ?_ ?_ ?_
    · intro path hp
      obtain ⟨i, hi⟩ := haddr path hp
      simp only [hi, Option.getD_some]
      exact Finset.mem_coe.mpr (List.mem_toFinset.mpr (hmem.mpr ⟨path, hp, hi⟩))
    · intro p hp q hq heq
      obtain ⟨i, hi⟩ := haddr p hp
      obtain ⟨j, hj⟩ := haddr q hq
      simp only [hi, hj, Option.getD_some] at heq
      exact h.inj p q i hi (heq ▸ hj)
    · intro i hi
      obtain ⟨path, hp, hpath⟩ := hmem.mp (List.mem_toFinset.mp hi)
      exact ⟨path, hp, by simp [hpath]⟩
  rw [hcard, List.toFinset_card_of_nodup (heap.erase root).keys_nodup, Dict.keys, List.length_map,
    Dict.size]

end Links

/-! ## Taking the tree apart -/

/-- Every cell but the root hangs from one place, the worklist or a cell above it. -/
structure Hangs (heap : Dict Address (Node σ κ)) (root : Address) (work : List Address) :
    Prop where
  once : (work ++ (heap.erase root).values.flatMap fun n => n.children.values).Perm
    (heap.erase root).keys
  deeper : ∀ i j n m, heap.get? i = some n → j ∈ n.children.values → heap.get? j = some m →
    n.depth < m.depth

section Teardown
variable {heap : Dict Address (Node σ κ)} {root : Address} {claims : Claims σ κ}
  {addr : List κ → Option Address}

theorem mem_children {i j : Address} :
    Child heap i j ↔ ∃ n, heap.get? i = some n ∧ j ∈ n.children.values := by
  constructor
  · rintro ⟨n, k, hn, hk⟩
    exact ⟨n, hn, Dict.mem_values.mpr ⟨k, hk⟩⟩
  · rintro ⟨n, hn, hj⟩
    obtain ⟨k, hk⟩ := Dict.mem_values.mp hj
    exact ⟨n, k, hn, hk⟩

theorem Holds.children_nodup (h : Holds heap root claims addr) :
    (heap.values.flatMap fun n => n.children.values).Nodup := by
  refine List.nodup_flatMap.mpr ⟨fun n hn => ?_, List.pairwise_map.mpr ?_⟩
  · obtain ⟨i, hi⟩ := Dict.mem_values.mp hn
    obtain ⟨path, -, hf⟩ := h.path hi
    refine List.Nodup.map_on (fun e he e' he' heq => ?_) (List.Nodup.of_map _ n.children.nodup)
    have hk := (hf.children e.1).symm.trans (Dict.mem_entries.mp he)
    have hk' := (hf.children e'.1).symm.trans (Dict.mem_entries.mp he')
    have hsame := h.inj _ _ _ hk (heq ▸ hk')
    exact Prod.ext (List.append_singleton_inj.mp hsame).2 heq
  · have hkeys : heap.entries.Pairwise fun e e' => e.1 ≠ e'.1 := List.pairwise_map.mp heap.nodup
    refine hkeys.imp_of_mem fun {e e'} he he' hne j hj hj' => hne ?_
    obtain ⟨p, k, hp, hpk⟩ := h.child_path (mem_children.mpr ⟨e.2, Dict.mem_entries.mp he, hj⟩)
    obtain ⟨q, l, hq, hql⟩ := h.child_path (mem_children.mpr ⟨e'.2, Dict.mem_entries.mp he', hj'⟩)
    obtain ⟨rfl, -⟩ := List.append_singleton_inj.mp (h.inj _ _ _ hpk hql)
    exact Option.some.inj (hp.symm.trans hq)

/-- Of a whole tree only the root's children are left to put on the worklist. -/
theorem Holds.hangs (h : Holds heap root claims addr) {top : Node σ κ}
    (htop : heap.get? root = some top) {work : List Address}
    (hw : work.Perm top.children.values) : Hangs heap root work where
  once := by
    have hsplit := (Dict.values_perm_erase htop).flatMap_right fun n => n.children.values
    have hall := List.perm_ext_iff_of_nodup h.children_nodup (heap.erase root).keys_nodup
    refine ((hw.append_right _).trans hsplit.symm).trans (hall.mpr fun j => ?_)
    have hchild : (j ∈ heap.values.flatMap fun n => n.children.values) ↔
        ∃ i, Child heap i j := by
      simp only [List.mem_flatMap, Dict.mem_values, mem_children]
      constructor
      · rintro ⟨n, ⟨i, hi⟩, hj⟩
        exact ⟨i, n, hi, hj⟩
      · rintro ⟨i, n, hi, hj⟩
        exact ⟨n, ⟨i, hi⟩, hj⟩
    rw [hchild, Dict.mem_keys_erase]
    constructor
    · rintro ⟨i, hc⟩
      exact h.linked.child i j hc
    · rintro ⟨hne, hj⟩
      obtain ⟨n, hn⟩ := Dict.mem_keys.mp hj
      obtain ⟨path, hpath⟩ := h.exact j n hn
      obtain ⟨p, k, rfl⟩ :=
        (List.eq_nil_or_concat' path).resolve_left ((h.ne_root hpath).mp hne)
      obtain ⟨i, hi⟩ := h.above hpath
      exact ⟨i, h.child_of_path hi hpath⟩
  deeper := fun i j n m hn hj hm => by
    obtain ⟨k, hk⟩ := Dict.mem_values.mp hj
    obtain ⟨path, -, hf⟩ := h.path hn
    obtain ⟨m', hm', hg⟩ := h.node _ j ((hf.children k).symm.trans hk)
    obtain rfl : m' = m := Option.some.inj (hm'.symm.trans hm)
    rw [hf.depth, hg.depth, List.length_append, List.length_singleton]
    exact Nat.lt_succ_self _

omit [DecidableEq κ] in
/-- The next cell of the worklist is there to be freed, and its children take its place. -/
theorem Hangs.pop {i : Address} {work : List Address} (h : Hangs heap root (i :: work)) :
    ∃ n, heap.get? i = some n ∧ i ≠ root ∧ ∀ kids, kids.Perm n.children.values →
      Hangs (heap.erase i) root (kids ++ work) := by
  have hin := h.once.subset List.mem_cons_self
  obtain ⟨n, hn⟩ := Dict.mem_keys.mp hin
  have hne := (Dict.mem_keys_erase.mp hin).1
  refine ⟨n, Dict.get?_of_erase hn, hne, fun kids hk => ⟨?_, fun a b x y hx hb hy => ?_⟩⟩
  · have hkeys : (heap.erase root).keys.Perm (i :: ((heap.erase root).erase i).keys) :=
      (Dict.entries_perm_erase hn).map Prod.fst
    have hsplit := (Dict.values_perm_erase hn).flatMap_right fun n => n.children.values
    have hrest : (work ++ (n.children.values ++
        ((heap.erase root).erase i).values.flatMap fun n => n.children.values)).Perm
          ((heap.erase root).erase i).keys :=
      List.Perm.cons_inv (((hsplit.append_left (i :: work)).symm.trans h.once).trans hkeys)
    rw [Dict.erase_comm, List.append_assoc]
    refine List.Perm.trans ?_ hrest
    rw [← List.append_assoc, ← List.append_assoc]
    exact ((hk.append_right work).trans List.perm_append_comm).append_right _
  · exact h.deeper a b x y (Dict.get?_of_erase hx) hb (Dict.get?_of_erase hy)

omit [DecidableEq κ] in
/-- With nothing on the worklist nothing is left: a cell of least depth would hang from nowhere. -/
theorem Hangs.done (h : Hangs heap root []) : (heap.erase root).entries = [] := by
  have hnone : ∀ d i n, (heap.erase root).get? i = some n → n.depth ≠ d := by
    intro d
    induction d using Nat.strong_induction_on with
    | _ d ih =>
      intro i n hn hd
      have hi := h.once.symm.subset (Dict.mem_keys.mpr ⟨n, hn⟩)
      obtain ⟨m, hm, hchild⟩ := List.mem_flatMap.mp hi
      obtain ⟨a, ha⟩ := Dict.mem_values.mp hm
      have hlt := h.deeper a i m n (Dict.get?_of_erase ha) hchild (Dict.get?_of_erase hn)
      exact ih m.depth (hd ▸ hlt) a m ha rfl
  refine List.eq_nil_iff_forall_not_mem.mpr fun e he => ?_
  exact hnone e.2.depth e.1 e.2 (Dict.mem_entries.mp he) rfl

end Teardown

end ClaimTree
