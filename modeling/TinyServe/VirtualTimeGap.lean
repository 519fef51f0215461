import TinyServe.VirtualTime
import Mathlib.Data.Int.ModEq
import Mathlib.Data.Nat.ModEq
import Mathlib.Data.Nat.GCD.Basic
import Mathlib.Logic.Function.Iterate

set_option autoImplicit false

/-!
How far two classes that are served alone can drift apart: in steps of the common fraction of their
weights the gap of their finish times goes round a cycle, so it comes as low as it can.
-/
namespace VirtualTime

/-- The gap between two classes after a grant, ties going to the second. -/
def alternate (p q : ℕ) (gap : ℚ) : ℚ := if gap < 0 then gap + 1 / p else gap - 1 / q

/-- The same in whole steps: `p` up from below zero, `q` down otherwise. -/
def rotate (p q : ℕ) (d : ℤ) : ℤ := if d < 0 then d + p else d - q

section Rotation
variable {p q : ℕ} {d : ℤ}

theorem rotate_modEq (p q : ℕ) (d : ℤ) : rotate p q d ≡ d + p [ZMOD (p + q : ℕ)] := by
  unfold rotate
  split_ifs
  · exact Int.ModEq.refl _
  · apply Int.modEq_iff_dvd.mpr
    refine ⟨1, ?_⟩
    push_cast
    ring

theorem rotate_range (h : -(q : ℤ) ≤ d ∧ d < p) : -(q : ℤ) ≤ rotate p q d ∧ rotate p q d < p := by
  unfold rotate
  split_ifs <;> omega

theorem iterate_rotate (h : -(q : ℤ) ≤ d ∧ d < p) (n : ℕ) :
    (-(q : ℤ) ≤ (rotate p q)^[n] d ∧ (rotate p q)^[n] d < p) ∧
      (rotate p q)^[n] d ≡ d + n * p [ZMOD (p + q : ℕ)] := by
  induction n with
  | zero =>
    refine ⟨h, ?_⟩
    rw [Nat.cast_zero, zero_mul, add_zero]
    exact Int.ModEq.refl d
  | succ n ih =>
    obtain ⟨hrange, hmod⟩ := ih
    rw [Function.iterate_succ_apply']
    refine ⟨rotate_range hrange, (rotate_modEq p q _).trans ?_⟩
    refine (hmod.add_right (p : ℤ)).trans ?_
    push_cast
    ring_nf
    exact Int.ModEq.refl _

/-- The rotation visits its whole range, the lowest place included. -/
theorem exists_iterate_lowest (hp : 0 < p) (hq : 0 < q) (hpq : Nat.Coprime p q)
    (h : -(q : ℤ) ≤ d ∧ d < p) : ∃ n, (rotate p q)^[n] d = -q := by
  have hcop : Nat.Coprime p (p + q) := Nat.coprime_self_add_right.mpr hpq
  obtain ⟨m, -, hm⟩ := Nat.exists_mul_mod_eq_one_of_coprime hcop (by omega)
  let n : ℕ := m * ((-q - d) % ((p + q : ℕ) : ℤ)).toNat
  refine ⟨n, ?_⟩
  obtain ⟨hrange, hmod⟩ := iterate_rotate h n
  have hinv : (p : ℤ) * m ≡ 1 [ZMOD (p + q : ℕ)] := by
    have hnat : p * m ≡ 1 [MOD p + q] := by
      rw [Nat.ModEq, hm, Nat.mod_eq_of_lt (by omega)]
    exact_mod_cast (Int.natCast_modEq_iff.mpr hnat)
  have hpos : (0 : ℤ) ≤ (-q - d) % ((p + q : ℕ) : ℤ) := Int.emod_nonneg _ (by omega)
  have hsteps : (n : ℤ) * p ≡ -q - d [ZMOD (p + q : ℕ)] := by
    have hn : (n : ℤ) * p = (p * m) * ((-q - d) % ((p + q : ℕ) : ℤ)) := by
      simp only [n]
      rw [Nat.cast_mul, Int.toNat_of_nonneg hpos]
      ring
    rw [hn]
    refine (hinv.mul_right _).trans ?_
    rw [one_mul]
    exact Int.mod_modEq _ _
  have hlow : (rotate p q)^[n] d ≡ -q [ZMOD (p + q : ℕ)] := by
    refine hmod.trans ((hsteps.add_left d).trans ?_)
    rw [add_sub_cancel]
  obtain ⟨k, hk⟩ := Int.modEq_iff_dvd.mp hlow
  have hcast : ((p + q : ℕ) : ℤ) = p + q := by push_cast; rfl
  rw [hcast] at hk
  have hk0 : k = 0 := by
    rcases lt_trichotomy k 0 with hneg | hz | hposk
    · nlinarith
    · exact hz
    · nlinarith
  rw [hk0, mul_zero] at hk
  omega

/-- From above it comes down into its range first. -/
theorem exists_rotate_lowest (hp : 0 < p) (hq : 0 < q) (hpq : Nat.Coprime p q)
    (h : -(q : ℤ) ≤ d) : ∃ n, (rotate p q)^[n] d = -q := by
  obtain ⟨k, hk⟩ := Int.eq_ofNat_of_zero_le (by omega : (0 : ℤ) ≤ d + q)
  induction k using Nat.strongRecOn generalizing d with
  | ind k ih =>
    by_cases hd : d < p
    · exact exists_iterate_lowest hp hq hpq ⟨h, hd⟩
    · have hstep : rotate p q d = d - q := by
        rw [rotate, if_neg (by omega)]
      obtain ⟨n, hn⟩ := ih (k - q) (by omega) (d := d - q) (by omega) (by omega)
      refine ⟨n + 1, ?_⟩
      rw [Function.iterate_succ_apply, hstep, hn]

end Rotation

section Gaps
variable {p q : ℕ}

/-- In units of the common fraction the gap moves by whole steps. -/
theorem alternate_units {L r t : ℕ} (hL : 0 < L) (hr : L = p * r) (ht : L = q * t) (gap : ℚ) :
    ⌊alternate p q gap * L⌋ = rotate r t ⌊gap * L⌋ ∧
      alternate p q gap * L - ⌊alternate p q gap * L⌋ = gap * L - ⌊gap * L⌋ := by
  have hLq : (0 : ℚ) < L := by exact_mod_cast hL
  have hp : (p : ℚ) ≠ 0 := by
    rintro hz
    rw [Nat.cast_eq_zero.mp hz, zero_mul] at hr
    omega
  have hq : (q : ℚ) ≠ 0 := by
    rintro hz
    rw [Nat.cast_eq_zero.mp hz, zero_mul] at ht
    omega
  have hover : 1 / (p : ℚ) * L = r := by
    rw [hr]
    push_cast
    field_simp
  have hunder : 1 / (q : ℚ) * L = t := by
    rw [ht]
    push_cast
    field_simp
  have hsign : gap < 0 ↔ ⌊gap * L⌋ < 0 := by
    rw [Int.floor_lt, Int.cast_zero, mul_neg_iff]
    constructor
    · exact fun hneg => .inr ⟨hneg, hLq⟩
    · rintro (⟨-, hneg⟩ | ⟨hneg, -⟩)
      · exact absurd hneg (not_lt.mpr hLq.le)
      · exact hneg
  unfold alternate rotate
  by_cases hneg : gap < 0
  · rw [if_pos hneg, if_pos (hsign.mp hneg), add_mul, hover, Int.floor_add_natCast]
    refine ⟨rfl, ?_⟩
    push_cast
    ring
  · rw [if_neg hneg, if_neg (fun h => hneg (hsign.mpr h)), sub_mul, hunder, Int.floor_sub_natCast]
    refine ⟨rfl, ?_⟩
    push_cast
    ring

theorem iterate_alternate_units {L r t : ℕ} (hL : 0 < L) (hr : L = p * r) (ht : L = q * t)
    (gap : ℚ) (n : ℕ) :
    ⌊(alternate p q)^[n] gap * L⌋ = (rotate r t)^[n] ⌊gap * L⌋ ∧
      (alternate p q)^[n] gap * L - ⌊(alternate p q)^[n] gap * L⌋ = gap * L - ⌊gap * L⌋ := by
  induction n with
  | zero => exact ⟨rfl, rfl⟩
  | succ n ih =>
    obtain ⟨hfloor, hrest⟩ := ih
    obtain ⟨hstep, hsame⟩ := alternate_units hL hr ht ((alternate p q)^[n] gap)
    rw [Function.iterate_succ_apply', Function.iterate_succ_apply', ← hfloor]
    exact ⟨hstep, hsame.trans hrest⟩

/-- A class that starts a charge and a common fraction ahead is overtaken by more than a charge of
each. -/
theorem exists_overtaken (hp : 0 < p) (hq : 0 < q) {gap : ℚ}
    (h : 1 / (p : ℚ) + 1 / (p.lcm q : ℕ) ≤ gap) :
    ∃ n, 1 / (p : ℚ) + 1 / q < gap - (alternate p q)^[n] gap := by
  obtain ⟨r, hr⟩ := Nat.dvd_lcm_left p q
  obtain ⟨t, ht⟩ := Nat.dvd_lcm_right p q
  have hL : 0 < p.lcm q := Nat.lcm_pos hp hq
  have hLq : (0 : ℚ) < (p.lcm q : ℕ) := by exact_mod_cast hL
  have hrpos : 0 < r := Nat.pos_of_ne_zero (by rintro rfl; omega)
  have htpos : 0 < t := Nat.pos_of_ne_zero (by rintro rfl; omega)
  have hg : 0 < p.gcd q := Nat.gcd_pos_of_pos_left q hp
  have hgcd : p.gcd q * r = q ∧ p.gcd q * t = p := by
    have hprod := Nat.gcd_mul_lcm p q
    constructor
    · apply Nat.eq_of_mul_eq_mul_left hp
      rw [← hprod, hr]
      ring
    · apply Nat.eq_of_mul_eq_mul_left hq
      rw [Nat.mul_comm q p, ← hprod, ht]
      ring
  have hcop : Nat.Coprime r t := by
    have hdiv := Nat.coprime_div_gcd_div_gcd hg
    rw [Nat.div_eq_of_eq_mul_right hg hgcd.1.symm, Nat.div_eq_of_eq_mul_right hg hgcd.2.symm]
      at hdiv
    exact hdiv.symm
  have hp' : (p : ℚ) ≠ 0 := by exact_mod_cast hp.ne'
  have hq' : (q : ℚ) ≠ 0 := by exact_mod_cast hq.ne'
  have hover : 1 / (p : ℚ) * (p.lcm q : ℕ) = r := by
    rw [hr]
    push_cast
    field_simp
  have hunder : 1 / (q : ℚ) * (p.lcm q : ℕ) = t := by
    rw [ht]
    push_cast
    field_simp
  have hstart : (r : ℤ) + 1 ≤ ⌊gap * (p.lcm q : ℕ)⌋ := by
    apply Int.le_floor.mpr
    have hmul := mul_le_mul_of_nonneg_right h hLq.le
    rw [add_mul, one_div_mul_cancel hLq.ne'] at hmul
    rw [hover] at hmul
    push_cast
    exact hmul
  obtain ⟨n, hn⟩ := exists_rotate_lowest hrpos htpos hcop
    (by omega : -(t : ℤ) ≤ ⌊gap * (p.lcm q : ℕ)⌋)
  obtain ⟨hfloor, hrest⟩ := iterate_alternate_units hL hr ht gap n
  refine ⟨n, lt_of_mul_lt_mul_right ?_ hLq.le⟩
  rw [hfloor, hn] at hrest
  have hstart' : (r : ℚ) + 1 ≤ (⌊gap * (p.lcm q : ℕ)⌋ : ℚ) := by exact_mod_cast hstart
  push_cast at hrest
  rw [add_mul, sub_mul, hover, hunder]
  linarith

end Gaps

end VirtualTime
