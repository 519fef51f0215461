import TinyServe.OrderedDict
import TinyServe.Vocabulary
import Mathlib.Data.List.Dedup
import Mathlib.Data.List.MinMax
import Mathlib.Data.List.Sort
import Mathlib.Algebra.Order.Ring.Rat

set_option autoImplicit false

/-! The waiting pool and the policies that choose from it. -/
namespace TinyServe.Scheduler
open OrderedDict

structure PendingRequest where
  id : RequestId
  promptTokens : List Token
  maxTokens : ℕ
  priority : ℕ
  arrivalTs : Time
  deriving DecidableEq

structure RequestQueue where
  pool : Dict RequestId PendingRequest

namespace RequestQueue

def init : RequestQueue := ⟨.empty⟩

def push (q : RequestQueue) (request : PendingRequest) : RequestQueue :=
  ⟨q.pool.set request.id request⟩

def waiting (q : RequestQueue) : List PendingRequest := q.pool.values

/-- `remove`; an id that is not there raises `KeyError`, here `none`. -/
def remove (q : RequestQueue) (id : RequestId) : Option RequestQueue :=
  (q.pool.get? id).map fun _ => ⟨q.pool.erase id⟩

def depth (q : RequestQueue) : ℕ := q.pool.size

end RequestQueue

/-- The keys of `sorted` compare as tuples, `a` no later than `b`. -/
def fifoBefore (a b : PendingRequest) : Prop := a.arrivalTs ≤ b.arrivalTs
def priorityBefore (a b : PendingRequest) : Prop :=
  b.priority < a.priority ∨ a.priority = b.priority ∧ a.arrivalTs ≤ b.arrivalTs

instance : DecidableRel fifoBefore := fun _ _ => inferInstanceAs (Decidable (_ ≤ _))
instance : DecidableRel priorityBefore := fun _ _ => inferInstanceAs (Decidable (_ ∨ _ ∧ _))

/-- Virtual finish times are exact. -/
structure WeightedFairQueue where
  virtualFinish : Dict ℕ ℚ

namespace WeightedFairQueue

def init : WeightedFairQueue := ⟨.empty⟩

def weight (priority : ℕ) : ℕ := max priority 1

def virtualFinishTime (f : WeightedFairQueue) (priorityClass : ℕ) (backlogged : List ℕ) :
    WeightedFairQueue × ℚ :=
  match f.virtualFinish.get? priorityClass with
  | some v => (f, v)
  | none =>
    let known := backlogged.filterMap f.virtualFinish.get?
    let v := known.min?.getD 0
    (⟨f.virtualFinish.set priorityClass v⟩, v)

/-- `charge`, where `oneOver` is how `1.0 / w` comes out. -/
def charge (oneOver : ℕ → Except PyError ℚ) (f : WeightedFairQueue) (priorityClass : ℕ)
    (backlogged : List ℕ) : WeightedFairQueue × Except PyError Unit :=
  let (f, current) := f.virtualFinishTime priorityClass backlogged
  match oneOver (weight priorityClass) with
  | .error e => (f, .error e)
  | .ok share => (⟨f.virtualFinish.set priorityClass (current + share)⟩, .ok ())

/-- `min` over the rest of the pool, from the best request so far and the finish time in its key. -/
def scan (backlogged : List ℕ) :
    WeightedFairQueue → PendingRequest × ℚ → List PendingRequest →
      WeightedFairQueue × PendingRequest
  | f, best, [] => (f, best.1)
  | f, best, request :: rest =>
    let (f, v) := f.virtualFinishTime request.priority backlogged
    if v < best.2 ∨ v = best.2 ∧ request.arrivalTs < best.1.arrivalTs then
      scan backlogged f (request, v) rest
    else
      scan backlogged f best rest

/-- The loop of `WFQPolicy.select` with the turns left; `min` of an empty pool would raise. -/
def grant (oneOver : ℕ → Except PyError ℚ) : ℕ → WeightedFairQueue → List PendingRequest →
    List PendingRequest → WeightedFairQueue × Except PyError (List PendingRequest)
  | 0, f, _, chosen => (f, .ok chosen)
  | _ + 1, f, [], _ => (f, .error .valueError)
  | n + 1, f, first :: rest, chosen =>
    let pool := first :: rest
    let backlogged := (pool.map PendingRequest.priority).dedup
    let (f, v) := f.virtualFinishTime first.priority backlogged
    let (f, best) := scan backlogged f (first, v) rest
    let (f, charged) := f.charge oneOver best.priority backlogged
    match charged with
    | .error e => (f, .error e)
    | .ok () => grant oneOver n f (pool.erase best) (chosen ++ [best])

def select (oneOver : ℕ → Except PyError ℚ) (f : WeightedFairQueue)
    (waiting : List PendingRequest) (capacity : ℕ) :
    WeightedFairQueue × Except PyError (List PendingRequest) :=
  grant oneOver (min capacity waiting.length) f waiting []

end WeightedFairQueue

inductive SchedulingPolicy where
  | fifo
  | priority
  | wfq (fairness : WeightedFairQueue)

namespace SchedulingPolicy

/-- `create_policy`; an unknown name raises `ValueError`. -/
def create (name : String) : Except PyError SchedulingPolicy :=
  if name = "fifo" then
    .ok .fifo
  else if name = "priority" then
    .ok .priority
  else if name = "wfq" then
    .ok (.wfq .init)
  else
    .error .valueError

def select (oneOver : ℕ → Except PyError ℚ) (policy : SchedulingPolicy)
    (waiting : List PendingRequest) (capacity : ℕ) :
    SchedulingPolicy × Except PyError (List PendingRequest) :=
  match policy with
  | .fifo => (.fifo, .ok ((waiting.insertionSort fifoBefore).take capacity))
  | .priority => (.priority, .ok ((waiting.insertionSort priorityBefore).take capacity))
  | .wfq fairness =>
    let (fairness, chosen) := fairness.select oneOver waiting capacity
    (.wfq fairness, chosen)

end SchedulingPolicy

structure ActivePolicy where
  policy : SchedulingPolicy
  name : String

/-- `ActivePolicy.set`: on an unknown name the policy in force stays. -/
def ActivePolicy.set (name : String) : Except PyError ActivePolicy := do
  let policy ← SchedulingPolicy.create name
  return ⟨policy, name⟩

section Chosen
variable {oneOver : ℕ → Except PyError ℚ}

theorem scan_mem (backlogged : List ℕ) (f : WeightedFairQueue) (best : PendingRequest × ℚ)
    (rest : List PendingRequest) :
    (WeightedFairQueue.scan backlogged f best rest).2 ∈ best.1 :: rest := by
  induction rest generalizing f best with
  | nil => simp [WeightedFairQueue.scan]
  | cons request rest ih =>
    simp only [WeightedFairQueue.scan]
    split_ifs with h
    · exact List.mem_cons_of_mem _ (ih _ _)
    · rcases List.mem_cons.mp (ih _ best) with he | hm
      · rw [he]
        exact List.mem_cons_self
      · exact List.mem_cons_of_mem _ (List.mem_cons_of_mem _ hm)

theorem grant_perm {n : ℕ} {f f' : WeightedFairQueue} {pool chosen picked : List PendingRequest}
    (h : WeightedFairQueue.grant oneOver n f pool chosen = (f', .ok picked)) :
    ∃ rest, (picked ++ rest).Perm (chosen ++ pool) ∧ picked.length = chosen.length + n := by
  induction n generalizing f pool chosen with
  | zero =>
    obtain ⟨-, rfl⟩ : f = f' ∧ chosen = picked := by simpa [WeightedFairQueue.grant] using h
    exact ⟨pool, .rfl, rfl⟩
  | succ n ih =>
    cases pool with
    | nil => simp [WeightedFairQueue.grant] at h
    | cons first rest =>
      simp only [WeightedFairQueue.grant] at h
      split at h
      · simp at h
      · obtain ⟨left, hperm, hlen⟩ := ih h
        refine ⟨left, hperm.trans ?_, ?_⟩
        · rw [List.append_assoc, List.singleton_append]
          exact (List.perm_cons_erase (scan_mem _ _ _ _)).symm.append_left chosen
        · rw [hlen, List.length_append, List.length_singleton]
          omega

/-- Whatever the policy, the choice is a part of the waiting list, as large as the capacity allows. -/
theorem select_perm {policy policy' : SchedulingPolicy} {waiting chosen : List PendingRequest}
    {capacity : ℕ} (h : policy.select oneOver waiting capacity = (policy', .ok chosen)) :
    chosen.length = min capacity waiting.length ∧ ∃ rest, (chosen ++ rest).Perm waiting := by
  have hsorted : ∀ (r : PendingRequest → PendingRequest → Prop) [DecidableRel r],
      ((waiting.insertionSort r).take capacity).length = min capacity waiting.length ∧
        ∃ rest, ((waiting.insertionSort r).take capacity ++ rest).Perm waiting := by
    intro r _
    refine ⟨?_, (waiting.insertionSort r).drop capacity, ?_⟩
    · rw [List.length_take, List.length_insertionSort]
    · rw [List.take_append_drop]
      exact List.perm_insertionSort r waiting
  cases policy with
  | fifo =>
    obtain rfl : (waiting.insertionSort fifoBefore).take capacity = chosen :=
      Except.ok.inj (Prod.mk.inj h).2
    exact hsorted fifoBefore
  | priority =>
    obtain rfl : (waiting.insertionSort priorityBefore).take capacity = chosen :=
      Except.ok.inj (Prod.mk.inj h).2
    exact hsorted priorityBefore
  | wfq fairness =>
    have hg : WeightedFairQueue.grant oneOver (min capacity waiting.length) fairness waiting [] =
        ((fairness.select oneOver waiting capacity).1, .ok chosen) :=
      Prod.ext rfl (Prod.mk.inj h).2
    obtain ⟨rest, hperm, hlen⟩ := grant_perm hg
    rw [List.length_nil, Nat.zero_add] at hlen
    exact ⟨hlen, rest, hperm⟩

theorem chosen_nodup {waiting chosen rest : List PendingRequest}
    (hids : (waiting.map PendingRequest.id).Nodup) (h : (chosen ++ rest).Perm waiting) :
    (chosen.map PendingRequest.id).Nodup := by
  have hall := (h.map PendingRequest.id).nodup_iff.mpr hids
  rw [List.map_append] at hall
  exact (List.nodup_append.mp hall).1

end Chosen

end TinyServe.Scheduler
