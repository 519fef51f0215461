import Mathlib.Data.Nat.Notation
import Mathlib.Data.Option.Basic

set_option autoImplicit false

/-! Labelled transition systems given by a partial step function, and what holds along their runs. -/
namespace Runs
variable {σ ℓ : Type}

/-- The states that steps with allowed labels lead to. -/
inductive Reachable (step : σ → ℓ → Option σ) (allowed : σ → ℓ → Prop) (init : σ) : σ → Prop where
  | init : Reachable step allowed init init
  | next {s s' : σ} {l : ℓ} (h : Reachable step allowed init s) (ok : allowed s l)
      (hs : step s l = some s') : Reachable step allowed init s'

/-- Every label is allowed in every state. -/
def anything (_ : σ) (_ : ℓ) : Prop := True

def run (step : σ → ℓ → Option σ) : σ → List ℓ → Option σ
  | s, [] => some s
  | s, l :: ls => (step s l).bind fun s' => run step s' ls

variable {step : σ → ℓ → Option σ} {allowed : σ → ℓ → Prop} {init : σ}

theorem run_append (step : σ → ℓ → Option σ) (s : σ) (ls ls' : List ℓ) :
    run step s (ls ++ ls') = (run step s ls).bind fun u => run step u ls' := by
  induction ls generalizing s with
  | nil => rfl
  | cons l ls ih =>
    rw [List.cons_append, run, run, Option.bind_assoc]
    simp only [ih]

/-- What holds at the start and survives every allowed step holds in every reachable state. -/
theorem Reachable.invariant {I : σ → Prop} (h0 : I init)
    (hstep : ∀ s l s', Reachable step allowed init s → I s → allowed s l → step s l = some s' → I s')
    {s : σ} (h : Reachable step allowed init s) : I s := by
  induction h with
  | init => exact h0
  | next hr ok hs ih => exact hstep _ _ _ hr ih ok hs

theorem Reachable.mono {allowed' : σ → ℓ → Prop} (hle : ∀ s l, allowed s l → allowed' s l) {s : σ}
    (h : Reachable step allowed init s) : Reachable step allowed' init s := by
  induction h with
  | init => exact .init
  | next hr ok hs ih => exact .next ih (hle _ _ ok) hs

theorem Reachable.trans {s u : σ} (h : Reachable step allowed init s)
    (hu : Reachable step allowed s u) : Reachable step allowed init u := by
  induction hu with
  | init => exact h
  | next hr ok hs ih => exact .next ih ok hs

theorem Reachable.run_allowed {s s' : σ} {ls : List ℓ} (h : Reachable step allowed init s)
    (hok : ∀ l ∈ ls, ∀ s, allowed s l) (hrun : run step s ls = some s') :
    Reachable step allowed init s' := by
  induction ls generalizing s with
  | nil =>
    obtain rfl := Option.some.inj hrun
    exact h
  | cons l ls ih =>
    obtain ⟨u, hu, hrest⟩ := Option.bind_eq_some_iff.mp hrun
    refine ih (.next h (hok l List.mem_cons_self s) hu) (fun l' hl' => ?_) hrest
    exact hok l' (List.mem_cons_of_mem _ hl')

theorem Reachable.run {s s' : σ} {ls : List ℓ} (h : Reachable step anything init s)
    (hrun : run step s ls = some s') : Reachable step anything init s' :=
  h.run_allowed (fun _ _ _ => trivial) hrun

section Occurrences

/-- Every step of the run is allowed where it is taken. -/
def Along (step : σ → ℓ → Option σ) (allowed : σ → ℓ → Prop) : σ → List ℓ → Prop
  | _, [] => True
  | s, l :: ls => allowed s l ∧ ∀ s', step s l = some s' → Along step allowed s' ls

/-- Whether a run is allowed can be seen by running it. -/
instance Along.decidable (step : σ → ℓ → Option σ) (allowed : σ → ℓ → Prop)
    [∀ s l, Decidable (allowed s l)] (s : σ) : ∀ ls, Decidable (Along step allowed s ls)
  | [] => .isTrue trivial
  | l :: ls =>
    have (s' : σ) : Decidable (Along step allowed s' ls) := Along.decidable step allowed s' ls
    inferInstanceAs (Decidable (allowed s l ∧ ∀ s' ∈ step s l, Along step allowed s' ls))

/-- How many steps of the run `p` tells of. -/
def occurrences (step : σ → ℓ → Option σ) (p : σ → ℓ → Bool) : σ → List ℓ → ℕ
  | _, [] => 0
  | s, l :: ls =>
    match step s l with
    | none => 0
    | some s' => (p s l).toNat + occurrences step p s' ls

variable {p : σ → ℓ → Bool} {I J : σ → Prop}

/-- What survives every allowed step holds at the end of a run of them. -/
theorem Along.invariant (hstep : ∀ s l s', I s → allowed s l → step s l = some s' → I s')
    {s s' : σ} {ls : List ℓ} (hI : I s) (hall : Along step allowed s ls)
    (hrun : run step s ls = some s') : I s' := by
  induction ls generalizing s with
  | nil => exact Option.some.inj hrun ▸ hI
  | cons l ls ih =>
    obtain ⟨u, hu, hrest⟩ := Option.bind_eq_some_iff.mp hrun
    exact ih (hstep s l u hI hall.1 hu) (hall.2 u hu) hrest

theorem occurrences_spent (hkeep : ∀ s l s', I s → step s l = some s' → I s')
    (hspent : ∀ s l s', I s → J s → step s l = some s' → p s l = false ∧ J s')
    {s : σ} (hI : I s) (hs : J s) (ls : List ℓ) : occurrences step p s ls = 0 := by
  induction ls generalizing s with
  | nil => rfl
  | cons l ls ih =>
    rw [occurrences]
    cases h : step s l with
    | none => rfl
    | some s' =>
      obtain ⟨hnot, hs'⟩ := hspent s l s' hI hs h
      simp only [hnot, Bool.toNat_false, ih (hkeep s l s' hI h) hs']

/-- What leads to states that it does not happen in again happens at most once. -/
theorem occurrences_le_one (hkeep : ∀ s l s', I s → step s l = some s' → I s')
    (hspend : ∀ s l s', I s → allowed s l → step s l = some s' → p s l = true → J s')
    (hspent : ∀ s l s', I s → J s → step s l = some s' → p s l = false ∧ J s')
    {s : σ} (hI : I s) {ls : List ℓ} (hall : Along step allowed s ls) :
    occurrences step p s ls ≤ 1 := by
  induction ls generalizing s with
  | nil => exact Nat.zero_le 1
  | cons l ls ih =>
    rw [occurrences]
    cases h : step s l with
    | none => exact Nat.zero_le 1
    | some s' =>
      have hI' := hkeep s l s' hI h
      cases hp : p s l with
      | false =>
        simp only [Bool.toNat_false, Nat.zero_add]
        exact ih hI' (hall.2 s' h)
      | true =>
        have hnone := occurrences_spent hkeep hspent hI' (hspend s l s' hI hall.1 h hp) ls
        simp only [hnone, Bool.toNat_true, Nat.add_zero, Nat.le_refl]

end Occurrences

section Ranked
variable {I : σ → Prop} {counted : ℓ → Bool} {rank : σ → ℕ}

/-- Where the steps that count lower a rank and the others do not raise it, the rank at the start
bounds how many of them a run can have. -/
theorem counted_le_rank
    (hstep : ∀ s l s', I s → allowed s l → step s l = some s' →
      I s' ∧ rank s' + (counted l).toNat ≤ rank s)
    {s s' : σ} {ls : List ℓ} (hI : I s) (hall : ∀ l ∈ ls, ∀ s, allowed s l)
    (hrun : run step s ls = some s') : I s' ∧ ls.countP counted + rank s' ≤ rank s := by
  induction ls generalizing s with
  | nil =>
    obtain rfl := Option.some.inj hrun
    exact ⟨hI, by simp⟩
  | cons l ls ih =>
    obtain ⟨u, hu, hrest⟩ := Option.bind_eq_some_iff.mp hrun
    obtain ⟨hI', hle⟩ := hstep s l u hI (hall l List.mem_cons_self s) hu
    obtain ⟨hend, hlater⟩ := ih hI' (fun l' hl' => hall l' (List.mem_cons_of_mem _ hl')) hrest
    refine ⟨hend, ?_⟩
    rw [List.countP_cons]
    cases hc : counted l <;> simp [hc] at hle ⊢ <;> omega

/-- Taking steps that count for as long as there are any comes to an end. -/
theorem runs_out
    (hstep : ∀ s l s', I s → counted l = true → step s l = some s' → I s' ∧ rank s' < rank s)
    {s : σ} (hI : I s) : ∃ ls s', (∀ l ∈ ls, counted l = true) ∧ run step s ls = some s' ∧ I s' ∧
      ∀ l, counted l = true → step s' l = none := by
  induction hn : rank s using Nat.strongRecOn generalizing s with
  | ind n ih =>
    by_cases hstuck : ∀ l, counted l = true → step s l = none
    · exact ⟨[], s, by simp, rfl, hI, hstuck⟩
    · obtain ⟨l, hmoves⟩ := Classical.not_forall.mp hstuck
      obtain ⟨hl, hsome⟩ := Classical.not_imp.mp hmoves
      obtain ⟨u, hu⟩ := Option.ne_none_iff_exists'.mp hsome
      obtain ⟨hI', hlt⟩ := hstep s l u hI hl hu
      obtain ⟨ls, s', hall, hrun, hend⟩ := ih _ (hn ▸ hlt) hI' rfl
      refine ⟨l :: ls, s', fun l' hl' => ?_, by rw [run, hu]; exact hrun, hend⟩
      rcases List.mem_cons.mp hl' with rfl | hl'
      · exact hl
      · exact hall l' hl'

end Ranked

section Noted
variable {μ : Type} {note : σ → ℓ → μ → μ} {m₀ : μ}

/-- The machine with notes that are taken of every step and never looked at. -/
def noting (step : σ → ℓ → Option σ) (note : σ → ℓ → μ → μ) (x : σ × μ) (l : ℓ) : Option (σ × μ) :=
  (step x.1 l).map fun s' => (s', note x.1 l x.2)

theorem Reachable.forget {x : σ × μ}
    (h : Reachable (noting step note) anything (init, m₀) x) : Reachable step anything init x.1 := by
  induction h with
  | init => exact .init
  | next hr ok hs ih =>
    obtain ⟨s', hstep, rfl⟩ := Option.map_eq_some_iff.mp hs
    exact .next ih trivial hstep

/-- What the first notes say of the start and each step's notes of where it leads is always so. -/
theorem Reachable.noted {I : σ → μ → Prop} (h0 : I init m₀)
    (hstep : ∀ s m l s', Reachable step anything init s → I s m → step s l = some s' →
      I s' (note s l m))
    {x : σ × μ} (h : Reachable (noting step note) anything (init, m₀) x) : I x.1 x.2 := by
  refine h.invariant (I := fun x => I x.1 x.2) h0 fun x l x' hr hi _ hs => ?_
  obtain ⟨s', hs', rfl⟩ := Option.map_eq_some_iff.mp hs
  exact hstep x.1 x.2 l s' hr.forget hi hs'

end Noted

section Refined
variable {σ' ℓ' : Type} {step' : σ' → ℓ' → Option σ'} {allowed' : σ' → ℓ' → Prop} {init' : σ'}

/-- Where every step of a finer machine is a step of the coarser one or none at all, it reaches
nothing that the coarser one does not. -/
theorem Reachable.refines {f : σ' → σ} (h0 : f init' = init)
    (hstep : ∀ x l x', Reachable step' allowed' init' x → allowed' x l → step' x l = some x' →
      f x' = f x ∨ ∃ l', allowed (f x) l' ∧ step (f x) l' = some (f x'))
    {x : σ'} (h : Reachable step' allowed' init' x) : Reachable step allowed init (f x) := by
  induction h with
  | init => exact h0 ▸ .init
  | next hr ok hs ih =>
    rcases hstep _ _ _ hr ok hs with heq | ⟨l', hok, hl'⟩
    · exact heq ▸ ih
    · exact .next ih hok hl'

end Refined

end Runs
