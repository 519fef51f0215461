import TinyServe.OrderedDict
import Mathlib.Algebra.BigOperators.Group.List.Basic
import Mathlib.Algebra.Order.Ring.Int
import Mathlib.Data.List.Induction
import Mathlib.Data.List.Perm.Subperm

set_option autoImplicit false

/-!
A memory of cells addressed by a sequence and a position. Every cell remembers who wrote it,
so that a cell that was overwritten can be told from one written once.
-/
namespace SequenceMemory
open OrderedDict

/-- A stored value and the writes that reached its cell since it was last erased. -/
structure Cell (τ ω : Type) where
  value : τ
  writes : List ω
  deriving DecidableEq

abbrev Memory (σ τ ω : Type) := Dict (σ × ℕ) (Cell τ ω)

section Operations
variable {σ τ ω : Type} [DecidableEq σ]

def writesTo (m : Memory σ τ ω) (s : σ) (i : ℕ) : List ω := ((m.get? (s, i)).map Cell.writes).getD []

def write (m : Memory σ τ ω) (s : σ) (i : ℕ) (v : τ) (w : ω) : Memory σ τ ω :=
  m.set (s, i) ⟨v, writesTo m s i ++ [w]⟩

/-- Values written one after another on behalf of `w`. -/
def writeAll (w : ω) (m : Memory σ τ ω) (rows : List ((σ × ℕ) × τ)) : Memory σ τ ω :=
  rows.foldl (fun m row => write m row.1.1 row.1.2 row.2 w) m

/-- What `src` holds below `n`, written to `dst` as well. -/
def copyBelow (w : ω) (m : Memory σ τ ω) (src dst : σ) (n : ℕ) : Memory σ τ ω :=
  (List.range n).foldl (fun m' i =>
    match m.get? (src, i) with
    | some c => write m' dst i c.value w
    | none => m') m

def remove (m : Memory σ τ ω) (s : σ) : Memory σ τ ω := m.filterKeys fun k => k.1 ≠ s

/-- The largest position of `s`, or `-1`. -/
def posMax (m : Memory σ τ ω) (s : σ) : ℤ :=
  ((m.keys.filter fun k => k.1 = s).map fun k => (k.2 : ℤ)).foldr max (-1)

/-- The values of `s` in the order of their positions. -/
def contents (m : Memory σ τ ω) (s : σ) : List τ :=
  (List.range (posMax m s + 1).toNat).filterMap fun i => (m.get? (s, i)).map Cell.value

/-- `s` holds these cells at the positions from zero on, and no others. -/
def Holds (m : Memory σ τ ω) (s : σ) (cells : List (Cell τ ω)) : Prop :=
  ∀ i, m.get? (s, i) = cells[i]?

end Operations

section Lookup
variable {σ τ ω : Type} [DecidableEq σ] {m : Memory σ τ ω} {s : σ}

theorem get?_write (m : Memory σ τ ω) (s s' : σ) (i j : ℕ) (v : τ) (w : ω) :
    (write m s i v w).get? (s', j) =
      if s = s' ∧ i = j then some ⟨v, writesTo m s i ++ [w]⟩ else m.get? (s', j) := by
  simp only [write, Dict.get?_set, Prod.mk.injEq]

theorem write_of_ne {s' : σ} (h : s' ≠ s) (i j : ℕ) (v : τ) (w : ω) :
    (write m s i v w).get? (s', j) = m.get? (s', j) := by
  rw [get?_write, if_neg fun he => h he.1.symm]

@[simp] theorem get?_remove (m : Memory σ τ ω) (s s' : σ) (i : ℕ) :
    (remove m s).get? (s', i) = if s' = s then none else m.get? (s', i) := by
  by_cases h : s' = s <;> simp [remove, h]

/-- A sequence sees only the rows of its own. -/
theorem writeAll_filter (w : ω) (m m' : Memory σ τ ω) (s : σ)
    (h : ∀ i, m.get? (s, i) = m'.get? (s, i)) (rows : List ((σ × ℕ) × τ)) (i : ℕ) :
    (writeAll w m rows).get? (s, i) =
      (writeAll w m' (rows.filter fun row => row.1.1 = s)).get? (s, i) := by
  induction rows generalizing m m' with
  | nil => exact h i
  | cons row rows ih =>
    by_cases hs : row.1.1 = s
    · rw [List.filter_cons_of_pos (by simpa using hs)]
      refine ih _ _ fun j => ?_
      rw [get?_write, get?_write, h j, writesTo, writesTo, hs, h]
    · rw [List.filter_cons_of_neg (by simpa using hs)]
      refine ih _ _ fun j => ?_
      rw [write_of_ne (fun he => hs he.symm), h j]

theorem writeAll_absent {w : ω} {rows : List ((σ × ℕ) × τ)} (h : ∀ row ∈ rows, row.1.1 ≠ s)
    (i : ℕ) : (writeAll w m rows).get? (s, i) = m.get? (s, i) := by
  rw [writeAll_filter w m m s (fun _ => rfl)]
  have hnil : (rows.filter fun row => row.1.1 = s) = [] :=
    List.filter_eq_nil_iff.mpr fun row hrow => by simpa using h row hrow
  rw [hnil]
  rfl

theorem copyBelow_of_ne {w : ω} {src dst s' : σ} (h : s' ≠ dst) (n j : ℕ) :
    (copyBelow w m src dst n).get? (s', j) = m.get? (s', j) := by
  induction n with
  | zero => rfl
  | succ n ih =>
    rw [copyBelow, List.range_succ, List.foldl_append, List.foldl_cons, List.foldl_nil]
    split
    · rw [write_of_ne h]
      exact ih
    · exact ih

end Lookup

section Held
variable {σ τ ω : Type} [DecidableEq σ] {m : Memory σ τ ω} {s : σ} {cells : List (Cell τ ω)}

theorem Holds.none_of_le (h : Holds m s cells) {i : ℕ} (hi : cells.length ≤ i) :
    m.get? (s, i) = none := by
  rw [h i]
  exact List.getElem?_eq_none hi

theorem Holds.congr {m' : Memory σ τ ω} (h : Holds m s cells)
    (hm : ∀ i, m'.get? (s, i) = m.get? (s, i)) : Holds m' s cells := fun i => (hm i).trans (h i)

theorem holds_nil_remove (m : Memory σ τ ω) (s : σ) : Holds (remove m s) s [] := by
  intro i
  simp

theorem Holds.write_end (h : Holds m s cells) (v : τ) (w : ω) :
    Holds (write m s cells.length v w) s (cells ++ [⟨v, [w]⟩]) := by
  intro i
  have hfresh : writesTo m s cells.length = [] := by
    rw [writesTo, h.none_of_le le_rfl]
    rfl
  rw [get?_write, hfresh, List.nil_append]
  by_cases hi : cells.length = i
  · subst hi
    simp
  · rw [if_neg fun he => hi he.2, h i]
    rcases Nat.lt_or_gt_of_ne hi with hlt | hlt
    · rw [List.getElem?_eq_none hlt.le, List.getElem?_eq_none]
      rw [List.length_append, List.length_singleton]
      omega
    · rw [List.getElem?_append_left hlt]

/-- Rows that continue a sequence at its end leave it one cell longer each. -/
theorem Holds.writeAll (h : Holds m s cells) (w : ω) (vs : List τ) :
    Holds (writeAll w m (vs.mapIdx fun i v => ((s, cells.length + i), v))) s
      (cells ++ vs.map fun v => ⟨v, [w]⟩) := by
  induction vs generalizing m cells with
  | nil =>
    rw [List.mapIdx_nil, List.map_nil, List.append_nil]
    exact h
  | cons v vs ih =>
    have hstep := ih (h.write_end v w)
    rw [List.length_append, List.length_singleton, List.append_assoc] at hstep
    have hrest : (vs.mapIdx fun i v => ((s, cells.length + 1 + i), v)) =
        vs.mapIdx fun i v => ((s, cells.length + (i + 1)), v) :=
      congrArg (List.mapIdx · vs) (funext fun i => by rw [Nat.add_assoc, Nat.add_comm 1 i])
    rw [hrest] at hstep
    rw [List.mapIdx_cons, List.map_cons]
    exact hstep

/-- A copy of the first `n` cells onto an empty sequence. -/
theorem Holds.copyBelow (h : Holds m s cells) {dst : σ} (hd : Holds m dst []) (w : ω) {n : ℕ}
    (hn : n ≤ cells.length) :
    Holds (copyBelow w m s dst n) dst ((cells.take n).map fun c => ⟨c.value, [w]⟩) := by
  induction n with
  | zero =>
    rw [List.take_zero, List.map_nil]
    exact hd
  | succ n ih =>
    have hlt : n < cells.length := by omega
    have hlen : ((cells.take n).map fun c => (⟨c.value, [w]⟩ : Cell τ ω)).length = n := by
      simp only [List.length_map, List.length_take]
      omega
    have hend := (ih (by omega)).write_end cells[n].value w
    rw [hlen] at hend
    rw [SequenceMemory.copyBelow, List.range_succ, List.foldl_append, List.foldl_cons,
      List.foldl_nil, h n, List.getElem?_eq_getElem hlt]
    rw [List.take_add_one, List.getElem?_eq_getElem hlt, Option.toList_some, List.map_append]
    exact hend

theorem Holds.keys_iff (h : Holds m s cells) (i : ℕ) : (s, i) ∈ m.keys ↔ i < cells.length := by
  rw [Dict.mem_keys, h i]
  constructor
  · rintro ⟨v, hv⟩
    exact (List.getElem?_eq_some_iff.mp hv).1
  · exact fun hi => ⟨cells[i], List.getElem?_eq_getElem hi⟩

theorem le_posMax_iff (m : Memory σ τ ω) (s : σ) {i : ℕ} :
    (i : ℤ) ≤ posMax m s ↔ ∃ j, (s, j) ∈ m.keys ∧ i ≤ j := by
  have hfold : ∀ xs : List ℤ, (i : ℤ) ≤ xs.foldr max (-1) ↔ ∃ x ∈ xs, (i : ℤ) ≤ x := by
    intro xs
    induction xs with
    | nil => simp only [List.foldr_nil, List.not_mem_nil, false_and, exists_false, iff_false]; omega
    | cons x xs ih => simp [ih]
  rw [posMax, hfold]
  constructor
  · rintro ⟨x, hx, hi⟩
    obtain ⟨k, hk, rfl⟩ := List.mem_map.mp hx
    obtain ⟨hmem, hs⟩ := List.mem_filter.mp hk
    have hks : k.1 = s := by simpa using hs
    exact ⟨k.2, hks ▸ hmem, by omega⟩
  · rintro ⟨j, hj, hi⟩
    exact ⟨j, List.mem_map.mpr ⟨(s, j), List.mem_filter.mpr ⟨hj, by simp⟩, rfl⟩, by omega⟩

theorem neg_one_le_posMax (m : Memory σ τ ω) (s : σ) : -1 ≤ posMax m s := by
  rw [posMax]
  induction ((m.keys.filter fun k => k.1 = s).map fun k => (k.2 : ℤ)) with
  | nil => exact le_rfl
  | cons x xs ih => exact ih.trans (le_max_right _ _)

theorem Holds.posMax_eq (h : Holds m s cells) : posMax m s = (cells.length : ℤ) - 1 := by
  have hle : ∀ i : ℕ, (i : ℤ) ≤ posMax m s ↔ i < cells.length := by
    intro i
    rw [le_posMax_iff]
    constructor
    · rintro ⟨j, hj, hij⟩
      exact hij.trans_lt ((h.keys_iff j).mp hj)
    · exact fun hi => ⟨i, (h.keys_iff i).mpr hi, le_rfl⟩
  have hlow := neg_one_le_posMax m s
  obtain ⟨n, hn⟩ : ∃ n : ℕ, posMax m s + 1 = n := ⟨_, (Int.toNat_of_nonneg (by omega)).symm⟩
  have hn' : ∀ i : ℕ, i < n ↔ i < cells.length := by
    intro i
    rw [← hle i]
    omega
  have := hn' n
  have := hn' cells.length
  omega

theorem range_filterMap (xs : List τ) :
    ((List.range xs.length).filterMap fun i => xs[i]?) = xs := by
  induction xs using List.reverseRecOn with
  | nil => rfl
  | append_singleton xs x ih =>
    have hinit : ∀ i ∈ List.range xs.length, (xs ++ [x])[i]? = xs[i]? := fun i hi =>
      List.getElem?_append_left (List.mem_range.mp hi)
    rw [List.length_append, List.length_singleton, List.range_succ, List.filterMap_append,
      List.filterMap_congr hinit, ih]
    simp

theorem Holds.contents_eq (h : Holds m s cells) : contents m s = cells.map Cell.value := by
  have hlen : (posMax m s + 1).toNat = cells.length := by
    have := h.posMax_eq
    omega
  rw [contents, hlen]
  have hsome : ∀ i ∈ List.range cells.length, (m.get? (s, i)).map Cell.value =
      ((cells.map Cell.value)[i]?) := by
    intro i _
    rw [h i, List.getElem?_map]
  have hall := range_filterMap (cells.map Cell.value)
  rw [List.length_map] at hall
  rw [List.filterMap_congr hsome, hall]

/-- A memory whose cells are accounted for by bounds on its sequences is no larger than their sum. -/
theorem size_le (bounds : List (σ × ℕ))
    (h : ∀ t i, m.get? (t, i) ≠ none → ∃ b ∈ bounds, b.1 = t ∧ i < b.2) :
    m.size ≤ (bounds.map Prod.snd).sum := by
  have hsub : m.keys ⊆ bounds.flatMap fun b => (List.range b.2).map fun i => (b.1, i) := by
    intro k hk
    obtain ⟨c, hc⟩ := Dict.mem_keys.mp hk
    obtain ⟨b, hb, hs, hi⟩ := h k.1 k.2 (by rw [hc]; simp)
    exact List.mem_flatMap.mpr
      ⟨b, hb, List.mem_map.mpr ⟨k.2, List.mem_range.mpr hi, by rw [hs]⟩⟩
  have hlen := (m.keys_nodup.subperm hsub).length_le
  have hsize : m.keys.length = m.size := List.length_map _
  rw [hsize, List.length_flatMap] at hlen
  simpa using hlen

end Held

end SequenceMemory
