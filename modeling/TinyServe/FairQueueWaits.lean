import TinyServe.FairQueueShares

set_option autoImplicit false

/-! How often weighted fair queueing passes over a request that goes on waiting. -/
namespace TinyServe.Scheduler
open OrderedDict VirtualTime WeightedFairQueue

/-- The least virtual finish time on record. -/
def WeightedFairQueue.least (f : WeightedFairQueue) : ℚ := f.virtualFinish.values.min?.getD 0

/-- The greatest virtual finish time on record, if it is not negative. -/
def WeightedFairQueue.greatest (f : WeightedFairQueue) : ℚ := f.virtualFinish.values.foldr max 0

/-- How far a class can start ahead of whom the record has last; one without a record adopts no more
than the greatest time. -/
def WeightedFairQueue.lead (f : WeightedFairQueue) (c : ℕ) : ℚ :=
  (f.virtualFinish.get? c).getD f.greatest - f.least

/-- The most grants that pass over a request of class `c` with `k` of its class before it, where the
others are of the classes `D`. -/
def WeightedFairQueue.mostBefore (f : WeightedFairQueue) (c k : ℕ) (D : Finset ℕ) : ℤ :=
  ∑ d ∈ D, (⌊(f.lead c + k / weight c) * weight d⌋ + 1)

section Records
variable {f : WeightedFairQueue} {c : ℕ} {u : ℚ}

theorem least_le (h : f.times c = some u) : f.least ≤ u := by
  have hmem := Dict.mem_values.mpr ⟨c, h⟩
  unfold WeightedFairQueue.least
  cases hmin : f.virtualFinish.values.min? with
  | none =>
    rw [List.min?_eq_none_iff.mp hmin] at hmem
    simp at hmem
  | some m => exact (List.min?_eq_some_iff.mp hmin).2 u hmem

theorem le_foldr_max {xs : List ℚ} : 0 ≤ xs.foldr max 0 ∧ ∀ x ∈ xs, x ≤ xs.foldr max 0 := by
  induction xs with
  | nil => exact ⟨le_rfl, by simp⟩
  | cons y ys ih =>
    obtain ⟨hzero, hall⟩ := ih
    rw [List.foldr_cons]
    refine ⟨hzero.trans (le_max_right _ _), fun x hx => ?_⟩
    rcases List.mem_cons.mp hx with rfl | hx
    · exact le_max_left _ _
    · exact (hall x hx).trans (le_max_right _ _)

theorem le_greatest (h : f.times c = some u) : u ≤ f.greatest :=
  le_foldr_max.2 u (Dict.mem_values.mpr ⟨c, h⟩)

theorem least_le_greatest (f : WeightedFairQueue) : f.least ≤ f.greatest := by
  unfold WeightedFairQueue.least
  cases hmin : f.virtualFinish.values.min? with
  | none => exact le_foldr_max.1
  | some m => exact le_foldr_max.2 m (List.min?_mem hmin)

theorem lead_nonneg (f : WeightedFairQueue) (c : ℕ) : 0 ≤ f.lead c := by
  unfold WeightedFairQueue.lead
  cases h : f.virtualFinish.get? c with
  | none => exact sub_nonneg.mpr (least_le_greatest f)
  | some u => exact sub_nonneg.mpr (least_le h)

theorem baseline_le_greatest {B : List ℕ} : baseline f.times B ≤ f.greatest := by
  unfold baseline
  cases hmin : (B.filterMap f.times).min? with
  | none => exact le_foldr_max.1
  | some u =>
    obtain ⟨k, -, hk⟩ := List.mem_filterMap.mp (List.min?_mem hmin)
    exact le_greatest hk

/-- Once the waiting classes have adopted, none is further behind one of them than its lead. -/
theorem level_sub_lead_le {B : List ℕ} (hc : c ∈ B) {k : ℕ} (hu : adopt f.times B k = some u) :
    level f.times B c - f.lead c ≤ u := by
  have hleast : ∀ k u, f.times k = some u → f.least ≤ u := fun _ _ h => least_le h
  have hspread := least_le_greatest f
  cases hrec : f.virtualFinish.get? c with
  | some v =>
    have hv : f.times c = some v := hrec
    rw [level_of_some hv, WeightedFairQueue.lead, hrec, Option.getD_some, sub_sub_cancel]
    by_cases hk : k ∈ B
    · rw [adopt, if_pos hk] at hu
      obtain rfl := Option.some.inj hu
      exact le_level hleast hc (by rw [hv]; rfl)
    · rw [adopt, if_neg hk] at hu
      exact least_le hu
  | none =>
    have hv : f.times c = none := hrec
    rw [level, hv, Option.getD_none, WeightedFairQueue.lead, hrec, Option.getD_none]
    have hbase : baseline f.times B ≤ f.greatest := baseline_le_greatest
    by_cases hk : k ∈ B
    · rw [adopt, if_pos hk] at hu
      obtain rfl := Option.some.inj hu
      cases hkrec : f.times k with
      | none =>
        rw [level, hkrec, Option.getD_none]
        linarith
      | some y =>
        rw [level_of_some hkrec]
        have hy := baseline_le hk hkrec
        linarith
    · rw [adopt, if_neg hk] at hu
      have hy := least_le hu
      linarith

end Records

section Waits
variable {f f' : WeightedFairQueue} {c : ℕ}

theorem mostBefore_mono (f : WeightedFairQueue) (c : ℕ) {k k' : ℕ} (h : k ≤ k') (D : Finset ℕ) :
    f.mostBefore c k D ≤ f.mostBefore c k' D := by
  refine Finset.sum_le_sum fun d _ => ?_
  have hcast : (k : ℚ) ≤ k' := by exact_mod_cast h
  gcongr

/-- While a class waits there are only so many turns, the more the more of them serve itself. -/
theorem Trail.length_le {ts : List Turn} (h : Trail exactly f ts f')
    (hwait : ∀ t ∈ ts, c ∈ classes t.pool) (D : Finset ℕ) (hD : ∀ t ∈ ts, t.chosen.priority ∈ D) :
    (ts.length : ℤ) ≤ f.mostBefore c (grantsOf c ts) D := by
  unfold WeightedFairQueue.mostBefore
  cases ts with
  | nil =>
    refine Finset.sum_nonneg fun d _ => ?_
    have hlead := lead_nonneg f c
    have hroom : 0 ≤ (f.lead c + grantsOf c [] / weight c) * weight d := by positivity
    have := Int.floor_nonneg.mpr hroom
    omega
  | cons t ts =>
    have hfirst : t.fairness = f := by
      cases h
      rfl
    subst hfirst
    have hc := hwait t List.mem_cons_self
    have hgrants : ∀ g ∈ (t :: ts).map Turn.grant, c ∈ g.1 := by
      intro g hg
      obtain ⟨u, hu, rfl⟩ := List.mem_map.mp hg
      exact hwait u hu
    have hclasses : ∀ g ∈ (t :: ts).map Turn.grant, g.2 ∈ D := by
      intro g hg
      obtain ⟨u, hu, rfl⟩ := List.mem_map.mp hg
      exact hD u hu
    have hlow : ∀ k u, adopt t.fairness.times (classes t.pool) k = some u →
        t.finishTime c - t.fairness.lead c ≤ u := by
      intro k u hu
      rw [finishTime_eq]
      exact level_sub_lead_le hc hu
    have hrun : Run weight (adopt t.fairness.times (classes t.pool)) ((t :: ts).map Turn.grant)
        f'.times := h.run.adopted
    have hle := hrun.length_le_waiting weight_pos hlow (adopt_eq hc) hgrants D hclasses
    rw [List.length_map, share_eq] at hle
    refine hle.trans_eq (Finset.sum_congr rfl fun d _ => ?_)
    have hstart : t.finishTime c + grantsOf c (t :: ts) / weight c -
        (t.finishTime c - t.fairness.lead c) =
          t.fairness.lead c + grantsOf c (t :: ts) / weight c := by ring
    rw [hstart]

/-- Who waits at a call of `select` is in the pool of every turn until its own. -/
theorem mem_pool_turns {oneOver : ℕ → Except PyError ℚ} {request : PendingRequest} {n : ℕ}
    {pool : List PendingRequest} {before after : List Turn} {t : Turn}
    (h : turns oneOver n f pool = before ++ t :: after) (hin : request ∈ pool)
    (hlater : request ∉ before.map Turn.chosen) : request ∈ t.pool := by
  induction n generalizing f pool before with
  | zero => simp [turns] at h
  | succ n ih =>
    unfold turns at h
    split at h
    · simp at h
    · cases before with
      | nil =>
        obtain ⟨rfl, -⟩ := List.cons.inj h
        exact hin
      | cons u before =>
        obtain ⟨rfl, hrest⟩ := List.cons.inj h
        rw [List.map_cons, List.mem_cons, not_or] at hlater
        exact ih hrest ((List.mem_erase_of_ne hlater.1).mpr hin) hlater.2

end Waits

end TinyServe.Scheduler
