import TinyServe.FairQueueTurns

set_option autoImplicit false

/-! No policy reorders the requests of one priority that wait in the order of their arrival. -/
namespace TinyServe.Scheduler
open OrderedDict VirtualTime WeightedFairQueue

/-- The requests of one priority, in the order they stand. -/
def ofClass (c : ℕ) (requests : List PendingRequest) : List PendingRequest :=
  requests.filter fun r => r.priority = c

/-- Nobody arrived before somebody who stands further ahead. -/
def ByArrival (requests : List PendingRequest) : Prop :=
  requests.Pairwise fun a b => a.arrivalTs ≤ b.arrivalTs

section Classes
variable {c : ℕ} {waiting : List PendingRequest}

theorem mem_ofClass {r : PendingRequest} : r ∈ ofClass c waiting ↔ r ∈ waiting ∧ r.priority = c := by
  rw [ofClass, List.mem_filter, decide_eq_true_eq]

theorem ofClass_append (before after : List PendingRequest) :
    ofClass c (before ++ after) = ofClass c before ++ ofClass c after := List.filter_append ..

theorem ofClass_cons (r : PendingRequest) :
    ofClass c (r :: waiting) = if r.priority = c then r :: ofClass c waiting
      else ofClass c waiting := by
  unfold ofClass
  split_ifs with h
  · exact List.filter_cons_of_pos (by simpa using h)
  · exact List.filter_cons_of_neg (by simpa using h)

theorem ofClass_filter (p : PendingRequest → Bool) :
    ofClass c (waiting.filter p) = (ofClass c waiting).filter p := List.filter_comm ..

/-- Sorting by a key that does not separate the arrivals of a class leaves the class as it was. -/
theorem ofClass_insertionSort (r : PendingRequest → PendingRequest → Prop) [DecidableRel r]
    (h : (ofClass c waiting).Pairwise r) :
    ofClass c (waiting.insertionSort r) = ofClass c waiting := by
  have hsub : (ofClass c waiting).Sublist (ofClass c (waiting.insertionSort r)) := by
    have hfull := (List.sublist_insertionSort h List.filter_sublist).filter fun r => r.priority = c
    simp only [ofClass, List.filter_filter, Bool.and_self] at hfull
    exact hfull
  have hlen : (ofClass c (waiting.insertionSort r)).length = (ofClass c waiting).length :=
    ((List.perm_insertionSort r waiting).filter _).length_eq
  exact (hsub.eq_of_length hlen.symm).symm

theorem ofClass_take (n : ℕ) : ofClass c (waiting.take n) <+: ofClass c waiting :=
  (List.take_prefix n waiting).filter _

end Classes

section Policies
variable {oneOver : ℕ → Except PyError ℚ} {f f' : WeightedFairQueue} {c : ℕ}
  {pool waiting : List PendingRequest}

/-- A turn serves the first of its class. -/
theorem turn_ofClass {best : PendingRequest} (h : turn oneOver f pool = (f', .ok best))
    (hpool : ByArrival pool) :
    ofClass c pool = if best.priority = c then best :: ofClass c (pool.erase best)
      else ofClass c (pool.erase best) := by
  obtain ⟨pre, post, rfl, hpre, -⟩ := turn_first h
  have hother : ∀ r ∈ pre, r.priority ≠ best.priority := by
    intro r hr he
    have hless := hpre r hr
    have hearlier := (List.pairwise_append.mp hpool).2.2 r hr best List.mem_cons_self
    rw [key, key, he, Prod.Lex.toLex_lt_toLex] at hless
    rcases hless with hless | ⟨-, hless⟩
    · exact lt_irrefl _ hless
    · exact absurd hless (not_lt.mpr hearlier)
  have hnot : best ∉ pre := fun hin => hother best hin rfl
  rw [List.erase_append_right _ hnot, List.erase_cons_head, ofClass_append, ofClass_append,
    ofClass_cons]
  split_ifs with hc
  · have hnil : ofClass c pre = [] := by
      refine List.eq_nil_iff_forall_not_mem.mpr fun r hr => ?_
      obtain ⟨hin, hrc⟩ := mem_ofClass.mp hr
      exact hother r hin (hrc.trans hc.symm)
    rw [hnil, List.nil_append, List.nil_append]
  · rfl

theorem grant_ofClass {n : ℕ} {chosen picked : List PendingRequest}
    (h : grant oneOver n f pool chosen = (f', .ok picked)) (hpool : ByArrival pool) :
    ∃ granted, picked = chosen ++ granted ∧ ∀ c, ofClass c granted <+: ofClass c pool := by
  induction n generalizing f pool chosen with
  | zero =>
    obtain ⟨-, rfl⟩ : f = f' ∧ chosen = picked := by simpa [grant] using h
    exact ⟨[], (List.append_nil _).symm, fun c => List.nil_prefix⟩
  | succ n ih =>
    rw [grant_succ] at h
    cases hturn : turn oneOver f pool with
    | mk f₁ out =>
      rw [hturn] at h
      cases out with
      | error e => simp at h
      | ok best =>
        obtain ⟨granted, rfl, hgranted⟩ := ih h (hpool.sublist List.erase_sublist)
        refine ⟨best :: granted, by rw [List.append_assoc, List.singleton_append], fun c => ?_⟩
        rw [turn_ofClass hturn hpool, ofClass_cons]
        split_ifs with hc
        · exact List.cons_prefix_cons.mpr ⟨rfl, hgranted c⟩
        · exact hgranted c

/-- Of every class a policy chooses the first ones. -/
theorem select_ofClass {policy policy' : SchedulingPolicy} {chosen : List PendingRequest}
    {capacity : ℕ} (h : policy.select oneOver waiting capacity = (policy', .ok chosen))
    (hwaiting : ByArrival waiting) (c : ℕ) : ofClass c chosen <+: ofClass c waiting := by
  have hsorted : ∀ (r : PendingRequest → PendingRequest → Prop) [DecidableRel r],
      (ofClass c waiting).Pairwise r →
        ofClass c ((waiting.insertionSort r).take capacity) <+: ofClass c waiting := by
    intro r _ hr
    rw [← ofClass_insertionSort r hr]
    exact ofClass_take capacity
  have hclass : (ofClass c waiting).Pairwise fun a b => a.arrivalTs ≤ b.arrivalTs :=
    hwaiting.sublist List.filter_sublist
  cases policy with
  | fifo =>
    obtain rfl : (waiting.insertionSort fifoBefore).take capacity = chosen :=
      Except.ok.inj (Prod.mk.inj h).2
    exact hsorted fifoBefore hclass
  | priority =>
    obtain rfl : (waiting.insertionSort priorityBefore).take capacity = chosen :=
      Except.ok.inj (Prod.mk.inj h).2
    refine hsorted priorityBefore (hclass.imp_of_mem fun ha hb hle => ?_)
    exact .inr ⟨(mem_ofClass.mp ha).2.trans (mem_ofClass.mp hb).2.symm, hle⟩
  | wfq fairness =>
    have hgrant : grant oneOver (min capacity waiting.length) fairness waiting [] =
        ((fairness.select oneOver waiting capacity).1, .ok chosen) :=
      Prod.ext rfl (Prod.mk.inj h).2
    obtain ⟨granted, rfl, hgranted⟩ := grant_ofClass hgrant hwaiting
    exact hgranted c

end Policies

end TinyServe.Scheduler
