import TinyServe.FairQueueTurns

set_option autoImplicit false

/-! Which priorities weighted fair queueing can divide by. -/
namespace TinyServe.Scheduler
open OrderedDict VirtualTime WeightedFairQueue

/-- The least integer that no double is near enough to: halfway from the largest to `2 ^ 1024`. -/
def floatLimit : ℕ := 2 ^ 1024 - 2 ^ 970

/-- `1.0 / w` for an integer `w`, where `share` is what the division rounds to. -/
def floatOneOver (share : ℕ → ℚ) (w : ℕ) : Except PyError ℚ :=
  if w < floatLimit then .ok (share w) else .error .overflowError

section Limits
variable {share : ℕ → ℚ} {f f' : WeightedFairQueue} {pool : List PendingRequest}

theorem one_lt_floatLimit : 1 < floatLimit := by decide +kernel

theorem weight_lt_floatLimit {c : ℕ} : weight c < floatLimit ↔ c < floatLimit := by
  have hone := one_lt_floatLimit
  unfold weight
  omega

/-- A turn serves somebody or raises, by the class it would charge. -/
theorem turn_snd (share : ℕ → ℚ) (f : WeightedFairQueue) (hpool : pool ≠ []) :
    ∃ best ∈ pool, (turn (floatOneOver share) f pool).2 =
      if best.priority < floatLimit then .ok best else .error .overflowError := by
  obtain ⟨pre, best, post, f₁, hsplit, -, -, -, hturn⟩ := turn_eq (floatOneOver share) f hpool
  refine ⟨best, by simp [hsplit], ?_⟩
  rw [hturn, charge_snd, floatOneOver]
  by_cases hlt : best.priority < floatLimit
  · rw [if_pos (weight_lt_floatLimit.mpr hlt), if_pos hlt]
    rfl
  · rw [if_neg (weight_lt_floatLimit.not.mpr hlt), if_neg hlt]
    rfl

theorem grant_returns {n : ℕ} {chosen : List PendingRequest} (hn : n ≤ pool.length)
    (hpool : ∀ r ∈ pool, r.priority < floatLimit) :
    ∃ f' picked, grant (floatOneOver share) n f pool chosen = (f', .ok picked) := by
  induction n generalizing f pool chosen with
  | zero => exact ⟨f, chosen, rfl⟩
  | succ n ih =>
    have hne : pool ≠ [] := List.ne_nil_of_length_pos (by omega)
    obtain ⟨best, hin, hout⟩ := turn_snd share f hne
    rw [if_pos (hpool best hin)] at hout
    have hlen : n ≤ (pool.erase best).length := by
      rw [List.length_erase_of_mem hin]
      omega
    rw [grant_succ, ← Prod.eta (turn (floatOneOver share) f pool), hout]
    exact ih hlen fun r hr => hpool r (List.mem_of_mem_erase hr)

/-- Whoever is granted a slot has a priority that can be divided by. -/
theorem grant_bounded {n : ℕ} {chosen picked : List PendingRequest}
    (h : grant (floatOneOver share) n f pool chosen = (f', .ok picked))
    (hchosen : ∀ r ∈ chosen, r.priority < floatLimit) : ∀ r ∈ picked, r.priority < floatLimit := by
  induction n generalizing f pool chosen with
  | zero =>
    obtain ⟨-, rfl⟩ : f = f' ∧ chosen = picked := by simpa [grant] using h
    exact hchosen
  | succ n ih =>
    cases pool with
    | nil => simp [grant] at h
    | cons first rest =>
      obtain ⟨best, hin, hout⟩ := turn_snd share f (List.cons_ne_nil first rest)
      rw [grant_succ, ← Prod.eta (turn (floatOneOver share) f (first :: rest)), hout] at h
      by_cases hlt : best.priority < floatLimit
      · rw [if_pos hlt] at h
        refine ih h fun r hr => ?_
        rcases List.mem_append.mp hr with hr | hr
        · exact hchosen r hr
        · obtain rfl := List.mem_singleton.mp hr
          exact hlt
      · rw [if_neg hlt] at h
        simp at h

/-- A waiting list can be chosen from at every capacity if and only if all of its priorities can be
divided by. -/
theorem select_returns (share : ℕ → ℚ) (f : WeightedFairQueue) (waiting : List PendingRequest) :
    (∀ capacity, ∃ f' chosen, f.select (floatOneOver share) waiting capacity = (f', .ok chosen)) ↔
      ∀ r ∈ waiting, r.priority < floatLimit := by
  constructor
  · intro hall r hr
    obtain ⟨f', chosen, hchosen⟩ := hall waiting.length
    rw [select, Nat.min_self] at hchosen
    obtain ⟨rest, hperm, hlen⟩ := grant_perm hchosen
    rw [List.nil_append] at hperm
    rw [List.length_nil, Nat.zero_add] at hlen
    have hrest : rest = [] := by
      have htotal := hperm.length_eq
      rw [List.length_append] at htotal
      exact List.eq_nil_of_length_eq_zero (by omega)
    rw [hrest, List.append_nil] at hperm
    exact grant_bounded hchosen (by simp) r (hperm.mem_iff.mpr hr)
  · intro hpool capacity
    exact grant_returns (Nat.min_le_right capacity waiting.length) hpool

end Limits

end TinyServe.Scheduler
