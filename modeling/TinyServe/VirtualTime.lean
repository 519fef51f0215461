import Mathlib.Algebra.Order.Field.Rat
import Mathlib.Algebra.BigOperators.Ring.Finset
import Mathlib.Algebra.Order.BigOperators.Group.Finset
import Mathlib.Data.Rat.Floor
import Mathlib.Tactic.FieldSimp
import Mathlib.Tactic.Linarith
import Mathlib.Tactic.Ring

set_option autoImplicit false

/-!
Sharing in proportion to weights by virtual finish times: each grant goes to a backlogged class with
the least time and charges it the inverse of its weight. A class without a time adopts the least one
of the backlogged.
-/
namespace VirtualTime
variable {κ : Type}

/-- The finish times on record. -/
abbrev Times (κ : Type) := κ → Option ℚ

/-- What a class without a record adopts when these are backlogged. -/
def baseline (V : Times κ) (B : List κ) : ℚ := ((B.filterMap V).min?).getD 0

/-- The finish time a class competes with. -/
def level (V : Times κ) (B : List κ) (c : κ) : ℚ := (V c).getD (baseline V B)

/-- One grant. The levels of all backlogged classes go on record. -/
structure Grant (w : κ → ℕ) (V : Times κ) (B : List κ) (d : κ) (V' : Times κ) : Prop where
  backlogged : d ∈ B
  least : ∀ c ∈ B, level V B d ≤ level V B c
  charged : V' d = some (level V B d + 1 / w d)
  kept : ∀ c ∈ B, c ≠ d → V' c = some (level V B c)
  idle : ∀ c, c ∉ B → V' c = V c

/-- Consecutive grants, each with who was backlogged and who was served. -/
inductive Run (w : κ → ℕ) : Times κ → List (List κ × κ) → Times κ → Prop where
  | nil (V : Times κ) : Run w V [] V
  | cons {V V' V'' : Times κ} {B : List κ} {d : κ} {gs : List (List κ × κ)}
      (h : Grant w V B d V') (rest : Run w V' gs V'') : Run w V ((B, d) :: gs) V''

/-- How many of the grants a class gets. -/
def share [DecidableEq κ] (c : κ) (gs : List (List κ × κ)) : ℕ := (gs.map Prod.snd).count c

section Levels
variable {V : Times κ} {B : List κ} {c d : κ}

theorem level_of_some {x : ℚ} (h : V c = some x) : level V B c = x := by
  rw [level, h, Option.getD_some]

/-- Nothing is below what everything on record is above. -/
theorem le_baseline {m : ℚ} (hm : ∀ k u, V k = some u → m ≤ u) (hc : c ∈ B)
    (h : (V c).isSome) : m ≤ baseline V B := by
  obtain ⟨x, hx⟩ := Option.isSome_iff_exists.mp h
  have hmem : x ∈ B.filterMap V := List.mem_filterMap.mpr ⟨c, hc, hx⟩
  unfold baseline
  cases hmin : (B.filterMap V).min? with
  | none =>
    rw [List.min?_eq_none_iff.mp hmin] at hmem
    simp at hmem
  | some u =>
    obtain ⟨k, -, hk⟩ := List.mem_filterMap.mp (List.min?_mem hmin)
    exact hm k u hk

theorem baseline_le {x : ℚ} (hc : c ∈ B) (h : V c = some x) : baseline V B ≤ x := by
  have hmem : x ∈ B.filterMap V := List.mem_filterMap.mpr ⟨c, hc, h⟩
  unfold baseline
  cases hmin : (B.filterMap V).min? with
  | none =>
    rw [List.min?_eq_none_iff.mp hmin] at hmem
    simp at hmem
  | some u => exact (List.min?_eq_some_iff.mp hmin).2 x hmem

theorem le_level {m : ℚ} (hm : ∀ k u, V k = some u → m ≤ u) (hc : c ∈ B) (h : (V c).isSome) :
    m ≤ level V B d := by
  cases hd : V d with
  | none =>
    rw [level, hd, Option.getD_none]
    exact le_baseline hm hc h
  | some u =>
    rw [level_of_some hd]
    exact hm d u hd

/-- A baseline is the set of the backlogged classes' business, whatever their order. -/
theorem baseline_congr {B' : List κ} (h : ∀ c, c ∈ B ↔ c ∈ B') : baseline V B = baseline V B' := by
  have hmem : ∀ x, x ∈ B.filterMap V ↔ x ∈ B'.filterMap V := by
    intro x
    simp only [List.mem_filterMap, h]
  unfold baseline
  cases hmin : (B.filterMap V).min? with
  | none =>
    have hnil : B'.filterMap V = [] := by
      refine List.eq_nil_iff_forall_not_mem.mpr fun x hx => ?_
      have hx' := (hmem x).mpr hx
      rw [List.min?_eq_none_iff.mp hmin] at hx'
      simp at hx'
    rw [hnil, List.min?_nil]
  | some u =>
    obtain ⟨hu, hleast⟩ := List.min?_eq_some_iff.mp hmin
    have hmin' : (B'.filterMap V).min? = some u :=
      List.min?_eq_some_iff.mpr ⟨(hmem u).mp hu, fun x hx => hleast x ((hmem x).mpr hx)⟩
    rw [hmin']

theorem level_congr {B' : List κ} (h : ∀ c, c ∈ B ↔ c ∈ B') : level V B = level V B' := by
  funext c
  rw [level, level, baseline_congr h]

end Levels

section Adoption
variable [DecidableEq κ] {w : κ → ℕ} {V V' : Times κ} {B : List κ} {c d : κ}

/-- Everybody backlogged put on record at its level. -/
def adopt (V : Times κ) (B : List κ) : Times κ :=
  fun c => if c ∈ B then some (level V B c) else V c

theorem adopt_congr {B' : List κ} (h : ∀ c, c ∈ B ↔ c ∈ B') : adopt V B = adopt V B' := by
  funext c
  rw [adopt, adopt, level_congr h]
  simp only [h]

theorem level_adopt (hc : c ∈ B) : level (adopt V B) B c = level V B c := by
  apply level_of_some
  rw [adopt, if_pos hc]

/-- A class that is read goes on record at its level. -/
def recorded (V : Times κ) (B : List κ) (c : κ) : Times κ := Function.update V c (some (level V B c))

/-- Reading a backlogged class lowers nobody's baseline. -/
theorem baseline_recorded (hc : c ∈ B) : baseline (recorded V B c) B = baseline V B := by
  cases hV : V c with
  | some x =>
    have hsame : recorded V B c = V := by
      rw [recorded, level_of_some hV, ← hV]
      exact Function.update_eq_self c V
    rw [hsame]
  | none =>
    have hlevel : level V B c = baseline V B := by rw [level, hV, Option.getD_none]
    have hread : recorded V B c c = some (baseline V B) := by
      rw [recorded, Function.update_self, hlevel]
    have hbelow : ∀ u ∈ B.filterMap (recorded V B c), baseline V B ≤ u := by
      intro u hu
      obtain ⟨k, hk, hku⟩ := List.mem_filterMap.mp hu
      by_cases hkc : k = c
      · subst hkc
        exact (Option.some.inj (hread.symm.trans hku)).le
      · rw [recorded, Function.update_of_ne hkc] at hku
        exact baseline_le hk hku
    have hmem : baseline V B ∈ B.filterMap (recorded V B c) := List.mem_filterMap.mpr ⟨c, hc, hread⟩
    have hmin : (B.filterMap (recorded V B c)).min? = some (baseline V B) :=
      List.min?_eq_some_iff.mpr ⟨hmem, hbelow⟩
    rw [baseline, hmin, Option.getD_some]

theorem level_recorded (hc : c ∈ B) : level (recorded V B c) B d = level V B d := by
  rw [level, baseline_recorded hc]
  by_cases hd : d = c
  · subst hd
    rw [recorded, Function.update_self, Option.getD_some]
  · rw [recorded, Function.update_of_ne hd, level]

/-- Reading everybody who is backlogged, in any order and any number of times, adopts for all. -/
theorem foldl_recorded {cs : List κ} (hcs : cs ⊆ B) :
    cs.foldl (fun V c => recorded V B c) V = fun c => if c ∈ cs then some (level V B c) else V c := by
  induction cs generalizing V with
  | nil =>
    funext c
    simp
  | cons a cs ih =>
    have ha : a ∈ B := hcs List.mem_cons_self
    rw [List.foldl_cons, ih fun c hc => hcs (List.mem_cons_of_mem _ hc)]
    funext c
    rw [level_recorded ha]
    by_cases hc : c ∈ cs
    · rw [if_pos hc, if_pos (List.mem_cons_of_mem _ hc)]
    · by_cases hca : c = a
      · subst hca
        rw [if_neg hc, if_pos List.mem_cons_self, recorded, Function.update_self]
      · rw [if_neg hc, if_neg (by simp [hca, hc]), recorded, Function.update_of_ne hca]

/-- A grant may as well start with the adoptions already on record. -/
theorem Grant.adopted (h : Grant w V B d V') : Grant w (adopt V B) B d V' := by
  refine ⟨h.backlogged, fun c hc => ?_, ?_, fun c hc hne => ?_, fun c hc => ?_⟩
  · rw [level_adopt hc, level_adopt h.backlogged]
    exact h.least c hc
  · rw [level_adopt h.backlogged]
    exact h.charged
  · rw [level_adopt hc]
    exact h.kept c hc hne
  · rw [adopt, if_neg hc]
    exact h.idle c hc

theorem Run.adopted {V'' : Times κ} {gs : List (List κ × κ)} (h : Run w V ((B, d) :: gs) V'') :
    Run w (adopt V B) ((B, d) :: gs) V'' := by
  cases h with
  | cons hg rest => exact .cons hg.adopted rest

end Adoption

section Shares
variable [DecidableEq κ] {w : κ → ℕ} {V V' : Times κ} {gs : List (List κ × κ)} {a b c : κ}

@[simp] theorem share_nil (c : κ) : share c ([] : List (List κ × κ)) = 0 := rfl

theorem share_cons (c : κ) (B : List κ) (d : κ) (gs : List (List κ × κ)) :
    share c ((B, d) :: gs) = share c gs + if d = c then 1 else 0 := by
  rw [share, List.map_cons, List.count_cons, share]
  simp

/-- A class that stays backlogged is charged for its share and nothing else. -/
theorem Run.level_end (h : Run w V gs V') {x : ℚ} (hx : V c = some x) (hB : ∀ g ∈ gs, c ∈ g.1) :
    V' c = some (x + share c gs / w c) := by
  induction h generalizing x with
  | nil V => simp [hx]
  | @cons V V' V'' B d gs hg rest ih =>
    have hc : c ∈ B := hB _ List.mem_cons_self
    have hrest : ∀ g ∈ gs, c ∈ g.1 := fun g hm => hB g (List.mem_cons_of_mem _ hm)
    rw [share_cons]
    by_cases hd : d = c
    · subst hd
      have hnext := hg.charged
      rw [level_of_some hx] at hnext
      rw [ih hnext hrest, if_pos rfl]
      push_cast
      congr 1
      ring
    · have hnext := hg.kept c hc (Ne.symm hd)
      rw [level_of_some hx] at hnext
      rw [ih hnext hrest, if_neg hd, Nat.add_zero]

/-- While two classes stay backlogged, the first gets no further ahead than it was, or than one
charge. -/
theorem Run.gap_le (h : Run w V gs V') (hab : a ≠ b) {x y x' y' : ℚ} (hx : V a = some x)
    (hy : V b = some y) (hB : ∀ g ∈ gs, a ∈ g.1 ∧ b ∈ g.1) (hx' : V' a = some x')
    (hy' : V' b = some y') : x' - y' ≤ max (x - y) (1 / w a) := by
  induction h generalizing x y with
  | nil V =>
    obtain rfl := Option.some.inj (hx.symm.trans hx')
    obtain rfl := Option.some.inj (hy.symm.trans hy')
    exact le_max_left _ _
  | @cons V V' V'' B d gs hg rest ih =>
    obtain ⟨ha, hb⟩ := hB _ List.mem_cons_self
    have hrest : ∀ g ∈ gs, a ∈ g.1 ∧ b ∈ g.1 := fun g hm => hB g (List.mem_cons_of_mem _ hm)
    by_cases hda : d = a
    · subst hda
      have hnexta := hg.charged
      have hnextb := hg.kept b hb (Ne.symm hab)
      have hle := hg.least b hb
      rw [level_of_some hx] at hnexta
      rw [level_of_some hy] at hnextb
      rw [level_of_some hx, level_of_some hy] at hle
      refine (ih hnexta hnextb hrest hx' hy').trans (max_le ?_ (le_max_right _ _))
      refine le_trans ?_ (le_max_right _ _)
      linarith
    · have hnexta := hg.kept a ha (Ne.symm hda)
      rw [level_of_some hx] at hnexta
      by_cases hdb : d = b
      · subst hdb
        have hnextb := hg.charged
        rw [level_of_some hy] at hnextb
        refine (ih hnexta hnextb hrest hx' hy').trans (max_le_max_right _ ?_)
        have hpos : (0 : ℚ) ≤ 1 / w d := by positivity
        linarith
      · have hnextb := hg.kept b hb (Ne.symm hdb)
        rw [level_of_some hy] at hnextb
        exact ih hnexta hnextb hrest hx' hy'

/-- Shares differ by fractions over the common multiple of the weights. -/
theorem sub_le_of_lt_add {p q i j : ℕ} (hp : 0 < p) (hq : 0 < q)
    (h : (j : ℚ) / q - i / p < 1 / p + 1 / q + 1 / (p.lcm q : ℕ)) :
    (j : ℚ) / q - i / p ≤ 1 / p + 1 / q := by
  obtain ⟨r, hr⟩ := Nat.dvd_lcm_left p q
  obtain ⟨t, ht⟩ := Nat.dvd_lcm_right p q
  have hL : 0 < p.lcm q := Nat.lcm_pos hp hq
  have hLq : (0 : ℚ) < (p.lcm q : ℕ) := by exact_mod_cast hL
  have hpq : (p : ℚ) ≠ 0 := by exact_mod_cast hp.ne'
  have hqq : (q : ℚ) ≠ 0 := by exact_mod_cast hq.ne'
  have hrL : ((p.lcm q : ℕ) : ℚ) = p * r := by exact_mod_cast hr
  have htL : ((p.lcm q : ℕ) : ℚ) = q * t := by exact_mod_cast ht
  have hover : ∀ n : ℕ, (n : ℚ) / p = n * r / (p.lcm q : ℕ) := by
    intro n
    rw [div_eq_div_iff hpq hLq.ne', hrL]
    ring
  have hunder : ∀ n : ℕ, (n : ℚ) / q = n * t / (p.lcm q : ℕ) := by
    intro n
    rw [div_eq_div_iff hqq hLq.ne', htL]
    ring
  have hone := hover 1
  have hone' := hunder 1
  rw [Nat.cast_one] at hone hone'
  rw [hover, hunder, hone, hone', ← sub_div, ← add_div, ← add_div, div_lt_div_iff_of_pos_right hLq]
    at h
  rw [hover, hunder, hone, hone', ← sub_div, ← add_div, div_le_div_iff_of_pos_right hLq]
  have hz : (j * t : ℤ) - i * r < 1 * r + 1 * t + 1 := by exact_mod_cast h
  have hle : (j * t : ℤ) - i * r ≤ 1 * r + 1 * t := by omega
  exact_mod_cast hle

/-- One class is not served too much before the other if the other does not start too far ahead. -/
theorem Run.share_sub_le (h : Run w V gs V') (hab : a ≠ b) {x y : ℚ} (hx : V a = some x)
    (hy : V b = some y) (hB : ∀ g ∈ gs, a ∈ g.1 ∧ b ∈ g.1) (ha : 0 < w a) (hb : 0 < w b)
    (hgap : x - y < 1 / w a + 1 / ((w a).lcm (w b) : ℕ)) :
    (share b gs : ℚ) / w b - share a gs / w a ≤ 1 / w a + 1 / w b := by
  have hx' := h.level_end hx fun g hg => (hB g hg).1
  have hy' := h.level_end hy fun g hg => (hB g hg).2
  have hle := h.gap_le hab.symm hy hx (fun g hg => (hB g hg).symm) hy' hx'
  rcases le_max_iff.mp hle with hle | hle
  · have hpos : (0 : ℚ) ≤ 1 / w a + 1 / w b := by positivity
    linarith
  · apply sub_le_of_lt_add ha hb
    linarith

theorem Run.balanced (h : Run w V gs V') (hab : a ≠ b) {x y : ℚ} (hx : V a = some x)
    (hy : V b = some y) (hB : ∀ g ∈ gs, a ∈ g.1 ∧ b ∈ g.1) (ha : 0 < w a) (hb : 0 < w b)
    (hgap : x - y < 1 / w a + 1 / ((w a).lcm (w b) : ℕ))
    (hgap' : y - x < 1 / w b + 1 / ((w a).lcm (w b) : ℕ)) :
    |(share a gs : ℚ) / w a - share b gs / w b| ≤ 1 / w a + 1 / w b := by
  rw [Nat.lcm_comm] at hgap'
  have h1 := h.share_sub_le hab hx hy hB ha hb hgap
  have h2 := h.share_sub_le hab.symm hy hx (fun g hg => (hB g hg).symm) hb ha hgap'
  rw [abs_le]
  constructor <;> linarith

end Shares

section Starved
variable [DecidableEq κ] {w : κ → ℕ} {V V' : Times κ} {gs : List (List κ × κ)} {c d : κ}

/-- While a class waits, another is served no more often than its charges fit between the least time
on record and the level that the first one comes to. -/
theorem Run.share_le_waiting (h : Run w V gs V') (hw : 0 < w d) {m lo v : ℚ}
    (hm : ∀ k u, V k = some u → m ≤ u) (hlo : ∀ u, V d = some u → lo ≤ u)
    (hnew : V d = none → lo ≤ m) (hv : V c = some v) (hB : ∀ g ∈ gs, c ∈ g.1) :
    share d gs = 0 ∨ (share d gs : ℚ) ≤ (v + share c gs / w c - lo) * w d + 1 := by
  induction h generalizing lo v with
  | nil V => exact .inl rfl
  | @cons V V' V'' B e gs hg rest ih =>
    have hc : c ∈ B := hB _ List.mem_cons_self
    have hrest : ∀ g ∈ gs, c ∈ g.1 := fun g hm => hB g (List.mem_cons_of_mem _ hm)
    have hlevel : ∀ k, m ≤ level V B k := fun k => le_level hm hc (by rw [hv]; rfl)
    have hm' : ∀ k u, V' k = some u → m ≤ u := by
      intro k u hu
      by_cases hk : k = e
      · subst hk
        obtain rfl := Option.some.inj (hg.charged.symm.trans hu)
        have hpos : (0 : ℚ) ≤ 1 / w k := by positivity
        have hk := hlevel k
        linarith
      · by_cases hkB : k ∈ B
        · obtain rfl := Option.some.inj ((hg.kept k hkB hk).symm.trans hu)
          exact hlevel k
        · exact hm k u ((hg.idle k hkB).symm.trans hu)
    -- the class that waits goes up by its own grants, so where it comes to stays the same
    obtain ⟨v', hv', hend⟩ : ∃ v', V' c = some v' ∧
        v' + share c gs / w c = v + share c ((B, e) :: gs) / w c := by
      rw [share_cons]
      by_cases hec : e = c
      · subst hec
        refine ⟨v + 1 / w e, ?_, ?_⟩
        · rw [hg.charged, level_of_some hv]
        · rw [if_pos rfl]
          push_cast
          ring
      · refine ⟨v, ?_, by rw [if_neg hec, Nat.add_zero]⟩
        rw [hg.kept c hc (Ne.symm hec), level_of_some hv]
    have hlod : lo ≤ level V B d := by
      cases hd : V d with
      | none => exact (hnew hd).trans (hlevel d)
      | some u => exact (hlo u hd).trans_eq (level_of_some hd).symm
    rw [← hend, share_cons]
    by_cases hed : e = d
    · subst hed
      have hle := hg.least c hc
      rw [level_of_some hv] at hle
      have hwq : (0 : ℚ) < w e := by exact_mod_cast hw
      have hnext : ∀ u, V' e = some u → lo + 1 / w e ≤ u := by
        intro u hu
        obtain rfl := Option.some.inj (hg.charged.symm.trans hu)
        linarith
      have hnone : V' e = none → lo + 1 / w e ≤ m := fun hn => by simp [hg.charged] at hn
      have hpos : (0 : ℚ) ≤ share c ((B, e) :: gs) / w c := by positivity
      have hroom : 0 ≤ (v' + share c gs / w c - lo) * w e := mul_nonneg (by linarith) hwq.le
      rw [if_pos rfl]
      push_cast
      rcases ih hm' hnext hnone hv' hrest with hz | hs
      · rw [hz]
        right
        push_cast
        linarith
      · right
        have hmul : (v' + share c gs / w c - (lo + 1 / w e)) * w e =
            (v' + share c gs / w c - lo) * w e - 1 := by
          field_simp
          ring
        rw [hmul] at hs
        linarith
    · rw [if_neg hed, Nat.add_zero]
      refine ih hm' (fun u hu => ?_) (fun hn => ?_) hv' hrest
      · by_cases hdB : d ∈ B
        · obtain rfl := Option.some.inj ((hg.kept d hdB (Ne.symm hed)).symm.trans hu)
          exact hlod
        · exact hlo u ((hg.idle d hdB).symm.trans hu)
      · by_cases hdB : d ∈ B
        · simp [hg.kept d hdB (Ne.symm hed)] at hn
        · exact hnew ((hg.idle d hdB).symm.trans hn)

/-- A class that waits is passed over only so often by finitely many others, the more often the more
of its own requests go before. -/
theorem Run.length_le_waiting (h : Run w V gs V') (hw : ∀ k, 0 < w k) {m v : ℚ}
    (hm : ∀ k u, V k = some u → m ≤ u) (hv : V c = some v) (hB : ∀ g ∈ gs, c ∈ g.1) (D : Finset κ)
    (hD : ∀ g ∈ gs, g.2 ∈ D) :
    (gs.length : ℤ) ≤ ∑ k ∈ D, (⌊(v + share c gs / w c - m) * w k⌋ + 1) := by
  have hcount : gs.length = ∑ k ∈ (gs.map Prod.snd).toFinset, share k gs := by
    rw [← List.length_map (f := Prod.snd)]
    exact (List.sum_toFinset_count_eq_length _).symm
  have hsub : (gs.map Prod.snd).toFinset ⊆ D := by
    intro k hk
    obtain ⟨g, hg, rfl⟩ := List.mem_map.mp (List.mem_toFinset.mp hk)
    exact hD g hg
  have hle : gs.length ≤ ∑ k ∈ D, share k gs := by
    rw [hcount]
    exact Finset.sum_le_sum_of_subset hsub
  have hcast : (gs.length : ℤ) ≤ ∑ k ∈ D, (share k gs : ℤ) := by exact_mod_cast hle
  apply hcast.trans
  apply Finset.sum_le_sum
  intro k _
  have hpos : (0 : ℚ) ≤ share c gs / w c := by positivity
  have hroom : 0 ≤ (v + share c gs / w c - m) * w k := by
    have hmv := hm c v hv
    exact mul_nonneg (by linarith) (Nat.cast_nonneg _)
  rcases h.share_le_waiting (hw k) hm (fun u hu => hm k u hu) (fun _ => le_rfl) hv hB with hz | hs
  · rw [hz]
    have := Int.floor_nonneg.mpr hroom
    push_cast
    omega
  · have hfloor : ((share k gs : ℤ) - 1) ≤ ⌊(v + share c gs / w c - m) * w k⌋ := by
      apply Int.le_floor.mpr
      push_cast
      linarith
    omega

theorem share_eq_zero (h : ∀ g ∈ gs, g.2 ≠ c) : share c gs = 0 := by
  refine List.count_eq_zero_of_not_mem fun hmem => ?_
  obtain ⟨g, hg, hgc⟩ := List.mem_map.mp hmem
  exact h g hg hgc

/-- A class that stays backlogged is passed over only so often by finitely many others. -/
theorem Run.length_le (h : Run w V gs V') (hw : ∀ k, 0 < w k) {m v : ℚ}
    (hm : ∀ k u, V k = some u → m ≤ u) (hv : V c = some v)
    (hB : ∀ g ∈ gs, c ∈ g.1 ∧ g.2 ≠ c) (D : Finset κ) (hD : ∀ g ∈ gs, g.2 ∈ D) :
    (gs.length : ℤ) ≤ ∑ k ∈ D, (⌊(v - m) * w k⌋ + 1) := by
  have hle := h.length_le_waiting hw hm hv (fun g hg => (hB g hg).1) D hD
  rwa [share_eq_zero fun g hg => (hB g hg).2, Nat.cast_zero, zero_div, add_zero] at hle

end Starved

end VirtualTime
