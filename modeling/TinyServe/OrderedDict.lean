import Mathlib.Data.List.Nodup
import Mathlib.Data.List.Perm.Basic

set_option autoImplicit false

/-!
Insertion-ordered dictionaries with unique keys. Assigning an existing key keeps its place,
a new key goes last, and iteration follows insertion order.
-/
namespace OrderedDict

structure Dict (κ α : Type) where
  entries : List (κ × α)
  nodup : (entries.map Prod.fst).Nodup

section Entries
variable {κ α : Type} [DecidableEq κ]

def lookup (k : κ) : List (κ × α) → Option α
  | [] => none
  | e :: es => if e.1 = k then some e.2 else lookup k es

def assign (k : κ) (v : α) : List (κ × α) → List (κ × α)
  | [] => [(k, v)]
  | e :: es => if e.1 = k then (k, v) :: es else e :: assign k v es

def remove (k : κ) (es : List (κ × α)) : List (κ × α) := es.filter (fun e => e.1 ≠ k)

theorem lookup_eq_none {k : κ} {es : List (κ × α)} :
    lookup k es = none ↔ k ∉ es.map Prod.fst := by
  induction es with
  | nil => simp [lookup]
  | cons e es ih =>
    by_cases h : e.1 = k
    · simp [lookup, h]
    · simp only [lookup, h, ↓reduceIte, ih, List.map_cons, List.mem_cons, not_or]
      exact ⟨fun hm => ⟨fun hk => h hk.symm, hm⟩, fun hm => hm.2⟩

theorem lookup_mem {k : κ} {v : α} {es : List (κ × α)} (h : lookup k es = some v) :
    (k, v) ∈ es := by
  induction es with
  | nil => simp [lookup] at h
  | cons e es ih =>
    by_cases he : e.1 = k
    · have hv : e.2 = v := by simpa [lookup, he] using h
      subst he hv
      exact List.mem_cons_self
    · exact List.mem_cons_of_mem _ (ih (by simpa [lookup, he] using h))

theorem lookup_of_mem {k : κ} {v : α} {es : List (κ × α)} (hn : (es.map Prod.fst).Nodup)
    (h : (k, v) ∈ es) : lookup k es = some v := by
  induction es with
  | nil => simp at h
  | cons e es ih =>
    rw [List.map_cons, List.nodup_cons] at hn
    rcases List.mem_cons.mp h with rfl | hm
    · simp [lookup]
    · have hk : e.1 ≠ k := fun he => hn.1 (he ▸ List.mem_map_of_mem (f := Prod.fst) hm)
      simpa [lookup, hk] using ih hn.2 hm

theorem assign_keys_of_mem {k : κ} {v : α} {es : List (κ × α)} (h : k ∈ es.map Prod.fst) :
    (assign k v es).map Prod.fst = es.map Prod.fst := by
  induction es with
  | nil => simp at h
  | cons e es ih =>
    by_cases he : e.1 = k
    · simp [assign, he]
    · have hm : k ∈ es.map Prod.fst := by
        rcases List.mem_cons.mp h with hk | hk
        · exact absurd hk.symm he
        · exact hk
      simp [assign, he, ih hm]

theorem assign_of_not_mem {k : κ} {v : α} {es : List (κ × α)} (h : k ∉ es.map Prod.fst) :
    assign k v es = es ++ [(k, v)] := by
  induction es with
  | nil => rfl
  | cons e es ih =>
    rw [List.map_cons, List.mem_cons, not_or] at h
    simp [assign, Ne.symm h.1, ih h.2]

theorem assign_nodup {k : κ} {v : α} {es : List (κ × α)} (hn : (es.map Prod.fst).Nodup) :
    ((assign k v es).map Prod.fst).Nodup := by
  by_cases h : k ∈ es.map Prod.fst
  · rwa [assign_keys_of_mem h]
  · rw [assign_of_not_mem h, List.map_append]
    exact List.nodup_append.mpr ⟨hn, by simp, fun a ha b hb => by
      rintro rfl
      exact h (by simpa [List.mem_singleton.mp hb] using ha)⟩

theorem lookup_assign (k j : κ) (v : α) (es : List (κ × α)) :
    lookup j (assign k v es) = if k = j then some v else lookup j es := by
  induction es with
  | nil => simp [assign, lookup]
  | cons e es ih =>
    by_cases he : e.1 = k
    · by_cases hk : k = j <;> simp [assign, lookup, he, hk]
    · rw [assign, if_neg he]
      by_cases hj : e.1 = j
      · have hk : k ≠ j := fun hk => he (hj.trans hk.symm)
        simp [lookup, hj, hk]
      · simp [lookup, hj, ih]

theorem lookup_filter (p : κ → Bool) (j : κ) (es : List (κ × α)) :
    lookup j (es.filter fun e => p e.1) = if p j then lookup j es else none := by
  induction es with
  | nil => simp [lookup]
  | cons e es ih =>
    by_cases he : e.1 = j
    · subst he
      by_cases hp : p e.1
      · simp [hp, lookup]
      · simpa [hp] using ih
    · by_cases hp : p e.1
      · simp [hp, lookup, he, ih]
      · simp [hp, lookup, he, ih]

theorem lookup_remove (k j : κ) (es : List (κ × α)) :
    lookup j (remove k es) = if k = j then none else lookup j es := by
  induction es with
  | nil => simp [remove, lookup]
  | cons e es ih =>
    have hr : remove k (e :: es) = if e.1 = k then remove k es else e :: remove k es := by
      by_cases he : e.1 = k <;> simp [remove, he]
    rw [hr]
    by_cases he : e.1 = k
    · by_cases hk : k = j
      · simpa [he, hk] using ih
      · simpa [he, hk, lookup] using ih
    · rw [if_neg he]
      by_cases hj : e.1 = j
      · have hk : k ≠ j := fun hk => he (hj.trans hk.symm)
        simp [lookup, hj, hk]
      · simpa [lookup, hj] using ih

theorem remove_of_not_mem {k : κ} {es : List (κ × α)} (h : k ∉ es.map Prod.fst) :
    remove k es = es := by
  refine List.filter_eq_self.mpr fun e he => ?_
  have hk : e.1 ≠ k := fun hek => h (hek ▸ List.mem_map_of_mem he)
  simpa using hk

theorem perm_cons_remove {k : κ} {v : α} {es : List (κ × α)} (hn : (es.map Prod.fst).Nodup)
    (h : lookup k es = some v) : es.Perm ((k, v) :: remove k es) := by
  induction es with
  | nil => simp [lookup] at h
  | cons e es ih =>
    rw [List.map_cons, List.nodup_cons] at hn
    by_cases he : e.1 = k
    · have hv : e.2 = v := by simpa [lookup, he] using h
      have hk : k ∉ es.map Prod.fst := by simpa [he] using hn.1
      have hr : remove k (e :: es) = es := by
        rw [← remove_of_not_mem hk]
        simp [remove, he]
      rw [hr, ← he, ← hv]
    · have hr : remove k (e :: es) = e :: remove k es := by simp [remove, he]
      rw [hr]
      exact ((ih hn.2 (by simpa [lookup, he] using h)).cons e).trans (List.Perm.swap _ _ _)

end Entries

namespace Dict
variable {κ α : Type}

def empty : Dict κ α := ⟨[], List.nodup_nil⟩
def keys (d : Dict κ α) : List κ := d.entries.map Prod.fst
def values (d : Dict κ α) : List α := d.entries.map Prod.snd
def size (d : Dict κ α) : ℕ := d.entries.length
def isEmpty (d : Dict κ α) : Bool := d.entries.isEmpty

@[simp] theorem keys_empty : (empty : Dict κ α).keys = [] := rfl
@[simp] theorem values_empty : (empty : Dict κ α).values = [] := rfl
@[simp] theorem entries_empty : (empty : Dict κ α).entries = [] := rfl
theorem keys_nodup (d : Dict κ α) : d.keys.Nodup := d.nodup
theorem size_eq_keys (d : Dict κ α) : d.size = d.keys.length := (List.length_map _).symm

theorem eq_empty {d : Dict κ α} (h : d.entries = []) : d = empty := by
  obtain ⟨entries, hn⟩ := d
  subst h
  rfl

variable [DecidableEq κ]

def get? (d : Dict κ α) (k : κ) : Option α := lookup k d.entries
def contains (d : Dict κ α) (k : κ) : Bool := (d.get? k).isSome

/-- `d[k] = v`. -/
def set (d : Dict κ α) (k : κ) (v : α) : Dict κ α := ⟨assign k v d.entries, assign_nodup d.nodup⟩

/-- `d.pop(k, None)`, without the value. -/
def erase (d : Dict κ α) (k : κ) : Dict κ α :=
  ⟨remove k d.entries, d.nodup.sublist (List.filter_sublist.map Prod.fst)⟩

def filterKeys (d : Dict κ α) (p : κ → Bool) : Dict κ α :=
  ⟨d.entries.filter fun e => p e.1, d.nodup.sublist (List.filter_sublist.map Prod.fst)⟩

@[simp] theorem get?_empty (k : κ) : (empty : Dict κ α).get? k = none := rfl

@[simp] theorem get?_set (d : Dict κ α) (k j : κ) (v : α) :
    (d.set k v).get? j = if k = j then some v else d.get? j := lookup_assign k j v d.entries

@[simp] theorem get?_erase (d : Dict κ α) (k j : κ) :
    (d.erase k).get? j = if k = j then none else d.get? j := lookup_remove k j d.entries

theorem get?_of_erase {d : Dict κ α} {k j : κ} {v : α} (h : (d.erase k).get? j = some v) :
    d.get? j = some v := by
  rw [get?_erase] at h
  split_ifs at h
  exact h

@[simp] theorem get?_filterKeys (d : Dict κ α) (p : κ → Bool) (j : κ) :
    (d.filterKeys p).get? j = if p j then d.get? j else none := lookup_filter p j d.entries

theorem mem_entries {d : Dict κ α} {k : κ} {v : α} : (k, v) ∈ d.entries ↔ d.get? k = some v :=
  ⟨lookup_of_mem d.nodup, lookup_mem⟩

theorem get?_eq_none {d : Dict κ α} {k : κ} : d.get? k = none ↔ k ∉ d.keys := lookup_eq_none

theorem mem_keys {d : Dict κ α} {k : κ} : k ∈ d.keys ↔ ∃ v, d.get? k = some v := by
  rw [← Option.ne_none_iff_exists', ne_eq, get?_eq_none, not_not]

theorem mem_values {d : Dict κ α} {v : α} : v ∈ d.values ↔ ∃ k, d.get? k = some v := by
  constructor
  · intro h
    obtain ⟨e, he, rfl⟩ := List.mem_map.mp h
    exact ⟨e.1, mem_entries.mp he⟩
  · rintro ⟨k, hk⟩
    exact List.mem_map.mpr ⟨(k, v), mem_entries.mpr hk, rfl⟩

theorem contains_iff {d : Dict κ α} {k : κ} : d.contains k = true ↔ k ∈ d.keys := by
  rw [mem_keys, contains, Option.isSome_iff_exists]

theorem mem_keys_congr {β γ : Type} {d : Dict κ α} {d' : Dict κ β} {f : α → γ} {g : β → γ} {k : κ}
    (h : (d.get? k).map f = (d'.get? k).map g) : k ∈ d.keys ↔ k ∈ d'.keys := by
  have hsome := congrArg Option.isSome h
  rw [Option.isSome_map, Option.isSome_map] at hsome
  rw [← contains_iff, ← contains_iff, contains, contains, hsome]

theorem set_entries_of_fresh {d : Dict κ α} {k : κ} {v : α} (h : d.get? k = none) :
    (d.set k v).entries = d.entries ++ [(k, v)] := assign_of_not_mem (lookup_eq_none.mp h)

theorem values_set_of_fresh {d : Dict κ α} {k : κ} {v : α} (h : d.get? k = none) :
    (d.set k v).values = d.values ++ [v] := by simp [values, set_entries_of_fresh h]

theorem keys_set_of_fresh {d : Dict κ α} {k : κ} {v : α} (h : k ∉ d.keys) :
    (d.set k v).keys = d.keys ++ [k] := by
  rw [keys, set_entries_of_fresh (get?_eq_none.mpr h), List.map_append]
  rfl

theorem keys_erase (d : Dict κ α) (k : κ) : (d.erase k).keys = d.keys.filter fun j => j ≠ k := by
  rw [keys, keys, List.filter_map]
  rfl

theorem keys_set_of_mem {d : Dict κ α} {k : κ} {v : α} (h : k ∈ d.keys) :
    (d.set k v).keys = d.keys := assign_keys_of_mem h

theorem entries_perm_erase {d : Dict κ α} {k : κ} {v : α} (h : d.get? k = some v) :
    d.entries.Perm ((k, v) :: (d.erase k).entries) := perm_cons_remove d.nodup h

theorem keys_perm_erase {d : Dict κ α} {k : κ} (h : k ∈ d.keys) :
    d.keys.Perm (k :: (d.erase k).keys) := by
  obtain ⟨v, hv⟩ := mem_keys.mp h
  exact (entries_perm_erase hv).map Prod.fst

theorem size_erase {d : Dict κ α} {k : κ} {v : α} (h : d.get? k = some v) :
    d.size = (d.erase k).size + 1 := (entries_perm_erase h).length_eq

theorem values_perm_erase {d : Dict κ α} {k : κ} {v : α} (h : d.get? k = some v) :
    d.values.Perm (v :: (d.erase k).values) := (entries_perm_erase h).map Prod.snd

theorem erase_set (d : Dict κ α) (k : κ) (v : α) : (d.set k v).erase k = d.erase k := by
  have h : remove k (assign k v d.entries) = remove k d.entries := by
    induction d.entries with
    | nil => simp [assign, remove]
    | cons e es ih => by_cases he : e.1 = k <;> simp_all [assign, remove]
  simp only [erase, set, h]

theorem erase_comm (d : Dict κ α) (k j : κ) : (d.erase k).erase j = (d.erase j).erase k := by
  simp only [erase, remove, List.filter_filter, Bool.and_comm]

theorem set_set (d : Dict κ α) (k : κ) (v w : α) : (d.set k v).set k w = d.set k w := by
  have h : assign k w (assign k v d.entries) = assign k w d.entries := by
    induction d.entries with
    | nil => simp [assign]
    | cons e es ih => by_cases he : e.1 = k <;> simp_all [assign]
  simp only [set, h]

theorem set_perm_erase {d : Dict κ α} {k : κ} {v : α} :
    (d.set k v).entries.Perm ((k, v) :: (d.erase k).entries) := by
  have h := entries_perm_erase (d := d.set k v) (k := k) (v := v) (by simp)
  rwa [erase_set] at h

theorem values_perm_set {d : Dict κ α} {k : κ} {v : α} :
    (d.set k v).values.Perm (v :: (d.erase k).values) := set_perm_erase.map Prod.snd

/-- Dictionaries with the same keys whose values look alike key by key look alike in order. -/
theorem map_values_congr {β γ : Type} {d : Dict κ α} {d' : Dict κ β} {f : α → γ} {g : β → γ}
    (hk : d'.keys = d.keys) (hg : ∀ k, (d'.get? k).map g = (d.get? k).map f) :
    d'.values.map g = d.values.map f := by
  rw [values, values, List.map_map, List.map_map]
  refine List.ext_getElem? fun i => ?_
  have hki : (d'.entries[i]?).map Prod.fst = (d.entries[i]?).map Prod.fst := by
    rw [← List.getElem?_map, ← List.getElem?_map]
    exact congrArg (·[i]?) hk
  rw [List.getElem?_map, List.getElem?_map]
  cases hd : d.entries[i]? with
  | none => simpa [hd] using hki
  | some e =>
    rw [hd, Option.map_some] at hki
    obtain ⟨e', he', hfst⟩ := Option.map_eq_some_iff.mp hki
    have hv := mem_entries.mp (List.mem_of_getElem? hd)
    have hv' := mem_entries.mp (List.mem_of_getElem? he')
    have hval := hg e.1
    rw [hv, ← hfst, hv'] at hval
    rw [he']
    exact hval

/-- Values told apart by `f` sit under different keys. -/
theorem key_unique {β : Type} {d : Dict κ α} {f : α → β} (hn : (d.values.map f).Nodup) {i j : κ}
    {a b : α} (hi : d.get? i = some a) (hj : d.get? j = some b) (h : f a = f b) : i = j := by
  have hinj : ∀ x ∈ d.entries, ∀ y ∈ d.entries, f x.2 = f y.2 → x = y := by
    rw [values, List.map_map] at hn
    exact fun x hx y hy he => List.inj_on_of_nodup_map hn hx hy he
  exact congrArg Prod.fst (hinj _ (mem_entries.mpr hi) _ (mem_entries.mpr hj) h)

theorem size_erase_le (d : Dict κ α) (k : κ) : (d.erase k).size ≤ d.size :=
  List.length_filter_le _ _

theorem size_set_of_fresh {d : Dict κ α} {k : κ} {v : α} (h : k ∉ d.keys) :
    (d.set k v).size = d.size + 1 := by
  rw [size_eq_keys, size_eq_keys, keys_set_of_fresh h, List.length_append, List.length_singleton]

theorem size_set_of_mem {d : Dict κ α} {k : κ} {v : α} (h : k ∈ d.keys) :
    (d.set k v).size = d.size := by
  rw [size_eq_keys, size_eq_keys, keys_set_of_mem h]

theorem size_set_le (d : Dict κ α) (k : κ) (v : α) : (d.set k v).size ≤ d.size + 1 := by
  have h := (set_perm_erase (d := d) (k := k) (v := v)).length_eq
  rw [List.length_cons] at h
  have := size_erase_le d k
  simp only [size] at this ⊢
  omega

/-- A dictionary is its keys in their order and what is under each. -/
theorem eq_of_get? {d d' : Dict κ α} (hkeys : d.keys = d'.keys)
    (hget : ∀ k, d.get? k = d'.get? k) : d = d' := by
  have hentries : ∀ d : Dict κ α, d.entries.map (Prod.map id some) =
      d.keys.map fun k => (k, d.get? k) := by
    intro d
    rw [keys, List.map_map]
    refine List.map_congr_left fun e he => ?_
    exact congrArg (Prod.mk e.1) (mem_entries.mp he).symm
  have hsame : d.entries.map (Prod.map id some) = d'.entries.map (Prod.map id some) := by
    rw [hentries, hentries, hkeys]
    simp only [hget]
  have hinj : Function.Injective (Prod.map id some : κ × α → κ × Option α) := by
    rintro ⟨k, v⟩ ⟨j, w⟩ he
    obtain ⟨hk, hv⟩ := Prod.mk.inj he
    exact Prod.ext hk (Option.some.inj hv)
  obtain ⟨entries, hn⟩ := d
  obtain ⟨entries', hn'⟩ := d'
  obtain rfl : entries = entries' := List.map_injective_iff.mpr hinj hsame
  rfl

theorem mem_keys_set {d : Dict κ α} {k j : κ} {v : α} :
    j ∈ (d.set k v).keys ↔ j = k ∨ j ∈ d.keys := by
  rw [mem_keys, mem_keys, get?_set]
  by_cases h : k = j <;> simp [h, eq_comm]

theorem mem_keys_erase {d : Dict κ α} {k j : κ} :
    j ∈ (d.erase k).keys ↔ j ≠ k ∧ j ∈ d.keys := by
  rw [mem_keys, mem_keys, get?_erase]
  by_cases h : k = j <;> simp [h, eq_comm]

end Dict
end OrderedDict
