import TinyServe.OrderedDict
import Mathlib.Algebra.Order.BigOperators.Group.List
import Mathlib.Algebra.Order.Ring.Nat
import Mathlib.Algebra.Order.Ring.Rat

set_option autoImplicit false

/-! The instruments of a metrics registry: labelled counters and histograms. -/
namespace Instruments
open OrderedDict

/-- A counter with one child for every label it was asked for. -/
structure Counter (κ : Type) where
  children : Dict κ ℕ

/-- A histogram by what it observed, of which a scrape shows the count and the sum. -/
structure Histogram where
  observed : List ℚ

namespace Counter
variable {κ : Type}

def zero : Counter κ := ⟨.empty⟩

/-- The sum over the labels. -/
def total (c : Counter κ) : ℕ := c.children.values.sum

@[simp] theorem total_zero : (zero : Counter κ).total = 0 := rfl

variable [DecidableEq κ]

def value (c : Counter κ) (label : κ) : ℕ := (c.children.get? label).getD 0

def inc (c : Counter κ) (label : κ) : Counter κ := ⟨c.children.set label (c.value label + 1)⟩

@[simp] theorem value_zero (label : κ) : (zero : Counter κ).value label = 0 := rfl

@[simp] theorem value_inc (c : Counter κ) (label other : κ) :
    (c.inc label).value other = c.value other + if label = other then 1 else 0 := by
  rw [value, inc, Dict.get?_set]
  split_ifs with h
  · rw [h]
    rfl
  · rfl

@[simp] theorem total_inc (c : Counter κ) (label : κ) : (c.inc label).total = c.total + 1 := by
  cases h : c.children.get? label with
  | none =>
    rw [total, inc, Dict.values_set_of_fresh h, List.sum_append, List.sum_singleton, value, h]
    rfl
  | some n =>
    have hold := (Dict.values_perm_erase h).sum_eq
    have hnew := (Dict.values_perm_erase
      (d := c.children.set label (n + 1)) (by rw [Dict.get?_set, if_pos rfl])).sum_eq
    rw [Dict.erase_set, List.sum_cons] at hnew
    rw [List.sum_cons] at hold
    rw [total, total, inc, value, h, Option.getD_some, hnew, hold]
    omega

end Counter

namespace Histogram

def zero : Histogram := ⟨[]⟩

def observe (h : Histogram) (x : ℚ) : Histogram := ⟨h.observed ++ [x]⟩

def count (h : Histogram) : ℕ := h.observed.length

def sum (h : Histogram) : ℚ := h.observed.sum

@[simp] theorem count_zero : zero.count = 0 := rfl

@[simp] theorem sum_zero : zero.sum = 0 := rfl

@[simp] theorem count_observe (h : Histogram) (x : ℚ) : (h.observe x).count = h.count + 1 := by
  simp [count, observe]

@[simp] theorem sum_observe (h : Histogram) (x : ℚ) : (h.observe x).sum = h.sum + x := by
  simp [sum, observe]

theorem mem_observe {h : Histogram} {x y : ℚ} :
    y ∈ (h.observe x).observed ↔ y ∈ h.observed ∨ y = x := by
  simp [observe]

end Histogram

end Instruments
