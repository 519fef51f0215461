import TinyServe.FairQueueTurns

set_option autoImplicit false

/-! A choice by weighted fair queueing is the waiting set's business, whatever its order. -/
namespace TinyServe.Scheduler
open OrderedDict VirtualTime WeightedFairQueue

/-- No two requests arrived at the same time. -/
def ApartInTime (requests : List PendingRequest) : Prop :=
  (requests.map PendingRequest.arrivalTs).Nodup

section Turn
variable {oneOver : ℕ → Except PyError ℚ} {f g : WeightedFairQueue}
  {pool pool' : List PendingRequest} {B B' : List ℕ}

theorem mem_classes_congr (h : pool.Perm pool') (c : ℕ) : c ∈ classes pool ↔ c ∈ classes pool' := by
  simp only [mem_classes, h.mem_iff]

theorem charge_congr (hf : f.times = g.times) (hB : ∀ c, c ∈ B ↔ c ∈ B') (c : ℕ) :
    (f.charge oneOver c B).2 = (g.charge oneOver c B').2 ∧
      (f.charge oneOver c B).1.times = (g.charge oneOver c B').1.times := by
  rw [charge_snd, charge_snd, charge_times, charge_times, hf, recorded, recorded, level_congr hB]
  exact ⟨rfl, rfl⟩

/-- Two requests that no other beats are one. -/
theorem least_unique (hpool : ApartInTime pool) {a b : PendingRequest} (ha : a ∈ pool)
    (hb : b ∈ pool) {V : Times ℕ} (hab : key V B a ≤ key V B b) (hba : key V B b ≤ key V B a) :
    a = b := by
  have hkey : key V B a = key V B b := le_antisymm hab hba
  have hts : a.arrivalTs = b.arrivalTs := congrArg (fun k => (ofLex k).2) hkey
  exact List.inj_on_of_nodup_map hpool ha hb hts

/-- A turn serves the same request whatever order the pool is in. -/
theorem turn_perm (h : pool.Perm pool') (hpool : ApartInTime pool) (hf : f.times = g.times) :
    (turn oneOver f pool).2 = (turn oneOver g pool').2 ∧
      (turn oneOver f pool).1.times = (turn oneOver g pool').1.times := by
  by_cases hne : pool = []
  · subst hne
    obtain rfl := h.nil_eq
    exact ⟨rfl, hf⟩
  · have hne' : pool' ≠ [] := fun hnil => hne (List.perm_nil.mp (hnil ▸ h))
    have hclasses := mem_classes_congr h
    obtain ⟨pre, best, post, f₁, hsplit, hpre, hpost, hf₁, hturn⟩ := turn_eq oneOver f hne
    obtain ⟨pre', best', post', g₁, hsplit', hpre', hpost', hg₁, hturn'⟩ := turn_eq oneOver g hne'
    have hkey : key g.times (classes pool') = key f.times (classes pool) := by
      funext r
      rw [key, key, hf, level_congr hclasses]
    rw [hkey] at hpre' hpost'
    have hin : best ∈ pool := by simp [hsplit]
    have hin' : best' ∈ pool := h.mem_iff.mpr (by simp [hsplit'])
    obtain rfl : best = best' := least_unique hpool hin hin'
      (least_of_split hsplit hpre hpost best' hin')
      (least_of_split hsplit' hpre' hpost' best (h.mem_iff.mp hin))
    have hsame : f₁.times = g₁.times := by rw [hf₁, hg₁, hf, adopt_congr hclasses]
    obtain ⟨hout, htimes⟩ := @charge_congr oneOver f₁ g₁ _ _ hsame hclasses best.priority
    rw [hturn, hturn', hout]
    exact ⟨rfl, htimes⟩

/-- The turns go through the same requests, and raise at the same one if they do. -/
theorem grant_perm_pool {n : ℕ} (h : pool.Perm pool') (hpool : ApartInTime pool)
    (hf : f.times = g.times) (chosen : List PendingRequest) :
    (grant oneOver n f pool chosen).2 = (grant oneOver n g pool' chosen).2 ∧
      (grant oneOver n f pool chosen).1.times = (grant oneOver n g pool' chosen).1.times := by
  induction n generalizing f g pool pool' chosen with
  | zero => exact ⟨rfl, hf⟩
  | succ n ih =>
    obtain ⟨hout, htimes⟩ := @turn_perm oneOver f g pool pool' h hpool hf
    rw [grant_succ, grant_succ, ← Prod.eta (turn oneOver f pool), ← Prod.eta (turn oneOver g pool'),
      ← hout]
    cases hserved : (turn oneOver f pool).2 with
    | error e => exact ⟨rfl, htimes⟩
    | ok best =>
      have hleft : ApartInTime (pool.erase best) := hpool.sublist (List.erase_sublist.map _)
      exact ih (h.erase best) hleft htimes (chosen ++ [best])

end Turn

/-- From waiting requests that arrived apart, weighted fair queueing chooses the same ones in the same
order and leaves the same virtual finish times, in whatever order they are listed. -/
theorem select_perm_waiting (oneOver : ℕ → Except PyError ℚ) (f : WeightedFairQueue) (capacity : ℕ)
    (waiting waiting' : List PendingRequest) (h : waiting.Perm waiting')
    (hwaiting : ApartInTime waiting) :
    (f.select oneOver waiting capacity).2 = (f.select oneOver waiting' capacity).2 ∧
      ∀ c, (f.select oneOver waiting capacity).1.virtualFinish.get? c =
        (f.select oneOver waiting' capacity).1.virtualFinish.get? c := by
  obtain ⟨hout, htimes⟩ := @grant_perm_pool oneOver f f waiting waiting'
    (min capacity waiting.length) h hwaiting rfl []
  rw [select, select, ← h.length_eq]
  exact ⟨hout, congrFun htimes⟩

/-- Two classes nobody has read yet, listed either way. -/
theorem select_perm_waiting_newcomers :
    (WeightedFairQueue.init.select exactly [⟨0, [1], 1, 2, 5⟩, ⟨1, [1], 1, 3, 4⟩] 2).2 =
      (WeightedFairQueue.init.select exactly [⟨1, [1], 1, 3, 4⟩, ⟨0, [1], 1, 2, 5⟩] 2).2 :=
  (select_perm_waiting exactly .init 2 [⟨0, [1], 1, 2, 5⟩, ⟨1, [1], 1, 3, 4⟩]
    [⟨1, [1], 1, 3, 4⟩, ⟨0, [1], 1, 2, 5⟩] (.swap _ _ _) (by unfold ApartInTime; decide)).1

end TinyServe.Scheduler
