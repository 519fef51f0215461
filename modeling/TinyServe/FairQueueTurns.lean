import TinyServe.Scheduler
import TinyServe.VirtualTime
import Mathlib.Data.Prod.Lex

set_option autoImplicit false

/-! `WFQPolicy.select` turn by turn: whom each turn of its loop reads, serves and charges. -/
namespace TinyServe.Scheduler
open OrderedDict VirtualTime

namespace WeightedFairQueue

/-- The finish times on record, as a function of the class. -/
def times (f : WeightedFairQueue) : Times ℕ := f.virtualFinish.get?

/-- One turn of the loop of `WFQPolicy.select`. -/
def turn (oneOver : ℕ → Except PyError ℚ) (f : WeightedFairQueue) :
    List PendingRequest → WeightedFairQueue × Except PyError PendingRequest
  | [] => (f, .error .valueError)
  | first :: rest =>
    let backlogged := ((first :: rest).map PendingRequest.priority).dedup
    let (f, v) := f.virtualFinishTime first.priority backlogged
    let (f, best) := scan backlogged f (first, v) rest
    let (f, charged) := f.charge oneOver best.priority backlogged
    (f, charged.map fun _ => best)

/-- `1.0 / w` without rounding. -/
def exactly (w : ℕ) : Except PyError ℚ := .ok (1 / w)

end WeightedFairQueue

open WeightedFairQueue

/-- The classes that have a request in the pool. -/
def classes (pool : List PendingRequest) : List ℕ := (pool.map PendingRequest.priority).dedup

/-- The key of `min`, compared as a tuple. -/
def key (V : Times ℕ) (B : List ℕ) (r : PendingRequest) : ℚ ×ₗ Time :=
  toLex (level V B r.priority, r.arrivalTs)

section Scan
variable {f : WeightedFairQueue} {B : List ℕ}

theorem mem_classes {pool : List PendingRequest} {c : ℕ} :
    c ∈ classes pool ↔ ∃ r ∈ pool, r.priority = c := by
  rw [classes, List.mem_dedup, List.mem_map]

theorem virtualFinishTime_eq (c : ℕ) :
    (f.virtualFinishTime c B).2 = level f.times B c ∧
      (f.virtualFinishTime c B).1.times = recorded f.times B c := by
  unfold virtualFinishTime
  cases h : f.virtualFinish.get? c with
  | some v =>
    have hv : f.times c = some v := h
    have hsame : recorded f.times B c = f.times := by
      rw [recorded, level_of_some hv, ← hv]
      exact Function.update_eq_self c f.times
    rw [hsame, level_of_some hv]
    exact ⟨rfl, rfl⟩
  | none =>
    have hv : f.times c = none := h
    have hlevel : level f.times B c = baseline f.times B := by rw [level, hv, Option.getD_none]
    rw [recorded, hlevel]
    refine ⟨rfl, funext fun j => ?_⟩
    show (f.virtualFinish.set c _).get? j = _
    rw [Dict.get?_set]
    by_cases hj : c = j
    · subst hj
      rw [if_pos rfl, Function.update_self]
      rfl
    · rw [if_neg hj, Function.update_of_ne (Ne.symm hj)]
      rfl

/-- `min` takes the first of the pool that no other beats, and reads every class on the way. -/
theorem scan_eq {best : PendingRequest × ℚ} {rest : List PendingRequest}
    (hbest : best.2 = level f.times B best.1.priority) (hrest : ∀ r ∈ rest, r.priority ∈ B) :
    (scan B f best rest).1.times =
        (rest.map PendingRequest.priority).foldl (fun V c => recorded V B c) f.times ∧
      ∃ pre post, best.1 :: rest = pre ++ (scan B f best rest).2 :: post ∧
        (∀ r ∈ pre, key f.times B (scan B f best rest).2 < key f.times B r) ∧
        ∀ r ∈ post, key f.times B (scan B f best rest).2 ≤ key f.times B r := by
  induction rest generalizing f best with
  | nil => exact ⟨rfl, [], [], rfl, by simp, by simp⟩
  | cons request rest ih =>
    obtain ⟨hv, htimes⟩ := virtualFinishTime_eq (f := f) (B := B) request.priority
    have hin : request.priority ∈ B := hrest request List.mem_cons_self
    have hlater : ∀ r ∈ rest, r.priority ∈ B := fun r hr => hrest r (List.mem_cons_of_mem _ hr)
    have hkey : key (f.virtualFinishTime request.priority B).1.times B = key f.times B := by
      funext r
      rw [htimes, key, key, level_recorded hin]
    have hbeats : (level f.times B request.priority < best.2 ∨
        level f.times B request.priority = best.2 ∧ request.arrivalTs < best.1.arrivalTs) ↔
          key f.times B request < key f.times B best.1 := by
      rw [key, key, Prod.Lex.toLex_lt_toLex, hbest]
    rw [List.map_cons, List.foldl_cons, ← htimes]
    simp only [scan, hv, hbeats]
    by_cases hless : key f.times B request < key f.times B best.1
    · rw [if_pos hless]
      have hnext : level f.times B request.priority =
          level (f.virtualFinishTime request.priority B).1.times B request.priority := by
        rw [htimes, level_recorded hin]
      obtain ⟨h1, pre, post, hsplit, hpre, hpost⟩ :=
        @ih (f.virtualFinishTime request.priority B).1 (request, level f.times B request.priority)
          hnext hlater
      rw [hkey] at hpre hpost
      refine ⟨h1, best.1 :: pre, post, congrArg (best.1 :: ·) hsplit, fun r hr => ?_, hpost⟩
      rcases List.mem_cons.mp hr with rfl | hr
      · refine lt_of_le_of_lt ?_ hless
        cases pre with
        | nil => exact (congrArg (key f.times B) (List.cons.inj hsplit).1).ge
        | cons a pre =>
          obtain ⟨rfl, -⟩ := List.cons.inj hsplit
          exact (hpre _ List.mem_cons_self).le
      · exact hpre r hr
    · rw [if_neg hless]
      have hnext : best.2 = level (f.virtualFinishTime request.priority B).1.times B
          best.1.priority := by
        rw [htimes, level_recorded hin, hbest]
      obtain ⟨h1, pre, post, hsplit, hpre, hpost⟩ := ih hnext hlater
      rw [hkey] at hpre hpost
      refine ⟨h1, ?_⟩
      cases pre with
      | nil =>
        obtain ⟨hout, rfl⟩ := List.cons.inj hsplit
        refine ⟨[], request :: rest, by rw [← hout, List.nil_append], by simp, fun r hr => ?_⟩
        rcases List.mem_cons.mp hr with rfl | hr
        · rw [← hout]
          exact not_lt.mp hless
        · exact hpost r hr
      | cons a pre =>
        obtain ⟨rfl, htail⟩ := List.cons.inj hsplit
        refine ⟨best.1 :: request :: pre, post,
          congrArg (fun l => best.1 :: request :: l) htail, fun r hr => ?_, hpost⟩
        rcases List.mem_cons.mp hr with rfl | hr
        · exact hpre _ List.mem_cons_self
        · rcases List.mem_cons.mp hr with rfl | hr
          · exact (hpre _ List.mem_cons_self).trans_le (not_lt.mp hless)
          · exact hpre r (List.mem_cons_of_mem _ hr)

end Scan

section Turn
variable {oneOver : ℕ → Except PyError ℚ} {f : WeightedFairQueue} {pool : List PendingRequest}

theorem charge_snd (oneOver : ℕ → Except PyError ℚ) (f : WeightedFairQueue) (c : ℕ) (B : List ℕ) :
    (f.charge oneOver c B).2 = (oneOver (weight c)).map fun _ => () := by
  unfold charge
  cases oneOver (weight c) <;> rfl

/-- What a charge leaves on record: also a class that cannot be charged has been read. -/
theorem charge_times (oneOver : ℕ → Except PyError ℚ) (f : WeightedFairQueue) (c : ℕ) (B : List ℕ) :
    (f.charge oneOver c B).1.times = match oneOver (weight c) with
      | .error _ => recorded f.times B c
      | .ok share => Function.update f.times c (some (level f.times B c + share)) := by
  obtain ⟨hv, htimes⟩ := @virtualFinishTime_eq f B c
  rw [charge, ← Prod.eta (f.virtualFinishTime c B), hv]
  cases oneOver (weight c) with
  | error e => exact htimes
  | ok share =>
    refine funext fun j => ?_
    show ((f.virtualFinishTime c B).1.virtualFinish.set c _).get? j =
      Function.update f.times c (some (level f.times B c + share)) j
    rw [Dict.get?_set]
    by_cases hj : c = j
    · subst hj
      rw [if_pos rfl, Function.update_self]
    · rw [if_neg hj, Function.update_of_ne (Ne.symm hj)]
      have hread := congrFun htimes j
      rwa [recorded, Function.update_of_ne (Ne.symm hj)] at hread

theorem charge_eq {B : List ℕ} {c : ℕ} {x share : ℚ} (hx : f.times c = some x)
    (hshare : oneOver (weight c) = .ok share) :
    (f.charge oneOver c B).1.times = Function.update f.times c (some (x + share)) ∧
      (f.charge oneOver c B).2 = .ok () := by
  rw [charge_times, charge_snd, hshare, level_of_some hx]
  exact ⟨rfl, rfl⟩

/-- What a turn finds: the first of the pool that no other beats, with everybody's class read. -/
theorem turn_eq (oneOver : ℕ → Except PyError ℚ) (f : WeightedFairQueue) (hpool : pool ≠ []) :
    ∃ pre best post, ∃ f₁ : WeightedFairQueue, pool = pre ++ best :: post ∧
      (∀ r ∈ pre, key f.times (classes pool) best < key f.times (classes pool) r) ∧
      (∀ r ∈ post, key f.times (classes pool) best ≤ key f.times (classes pool) r) ∧
      f₁.times = adopt f.times (classes pool) ∧
      turn oneOver f pool = ((f₁.charge oneOver best.priority (classes pool)).1,
        (f₁.charge oneOver best.priority (classes pool)).2.map fun _ => best) := by
  cases pool with
  | nil => exact absurd rfl hpool
  | cons first rest =>
    let B := classes (first :: rest)
    have hB : ∀ r ∈ first :: rest, r.priority ∈ B := fun r hr => mem_classes.mpr ⟨r, hr, rfl⟩
    have hfirst : first.priority ∈ B := hB first List.mem_cons_self
    obtain ⟨hv, htimes⟩ := virtualFinishTime_eq (f := f) (B := B) first.priority
    have hkey : key (f.virtualFinishTime first.priority B).1.times B = key f.times B := by
      funext r
      rw [htimes, key, key, level_recorded hfirst]
    have hbest : (f.virtualFinishTime first.priority B).2 =
        level (f.virtualFinishTime first.priority B).1.times B first.priority := by
      rw [hv, htimes, level_recorded hfirst]
    obtain ⟨hscan, pre, post, hsplit, hpre, hpost⟩ :=
      @scan_eq (f.virtualFinishTime first.priority B).1 B
        (first, (f.virtualFinishTime first.priority B).2) rest hbest
        fun r hr => hB r (List.mem_cons_of_mem _ hr)
    rw [hkey] at hpre hpost
    refine ⟨pre, _, post, (scan B (f.virtualFinishTime first.priority B).1
      (first, (f.virtualFinishTime first.priority B).2) rest).1, hsplit, hpre, hpost, ?_, rfl⟩
    rw [hscan, htimes]
    have hall := foldl_recorded (V := f.times) (B := B)
      fun c (hc : c ∈ (first :: rest).map PendingRequest.priority) => List.mem_dedup.mpr hc
    rw [List.map_cons, List.foldl_cons] at hall
    rw [hall, ← List.map_cons]
    funext c
    rw [adopt]
    simp only [B, classes, List.mem_dedup]

theorem least_of_split {pre post : List PendingRequest} {best : PendingRequest}
    {k : PendingRequest → ℚ ×ₗ Time}
    (hsplit : pool = pre ++ best :: post) (hpre : ∀ r ∈ pre, k best < k r)
    (hpost : ∀ r ∈ post, k best ≤ k r) : ∀ r ∈ pool, k best ≤ k r := by
  intro r hr
  rw [hsplit] at hr
  rcases List.mem_append.mp hr with hm | hm
  · exact (hpre r hm).le
  · rcases List.mem_cons.mp hm with rfl | hm
    · exact le_rfl
    · exact hpost r hm

/-- A turn serves the first of the pool that no other beats. -/
theorem turn_first {f' : WeightedFairQueue} {best : PendingRequest}
    (h : turn oneOver f pool = (f', .ok best)) : ∃ pre post, pool = pre ++ best :: post ∧
      (∀ r ∈ pre, key f.times (classes pool) best < key f.times (classes pool) r) ∧
      ∀ r ∈ post, key f.times (classes pool) best ≤ key f.times (classes pool) r := by
  have hpool : pool ≠ [] := by
    rintro rfl
    simp [turn] at h
  obtain ⟨pre, best', post, f₁, hsplit, hpre, hpost, -, hturn⟩ := turn_eq oneOver f hpool
  rw [hturn] at h
  cases hcharge : (f₁.charge oneOver best'.priority (classes pool)).2 with
  | error e => simp [hcharge, Except.map] at h
  | ok u =>
    rw [hcharge] at h
    obtain rfl := Except.ok.inj (Prod.mk.inj h).2
    exact ⟨pre, post, hsplit, hpre, hpost⟩

theorem turn_least {f' : WeightedFairQueue} {best r : PendingRequest}
    (h : turn oneOver f pool = (f', .ok best)) (hr : r ∈ pool) :
    key f.times (classes pool) best ≤ key f.times (classes pool) r := by
  obtain ⟨pre, post, hsplit, hpre, hpost⟩ := turn_first h
  exact least_of_split hsplit hpre hpost r hr

/-- With exact division a turn is a grant of virtual time. -/
theorem turn_grant {f' : WeightedFairQueue} {best : PendingRequest}
    (h : turn exactly f pool = (f', .ok best)) :
    best ∈ pool ∧ Grant weight f.times (classes pool) best.priority f'.times := by
  have hpool : pool ≠ [] := by
    rintro rfl
    simp [turn] at h
  have hleast := fun r (hr : r ∈ pool) => turn_least h hr
  obtain ⟨pre, best', post, f₁, hsplit, -, -, htimes, hturn⟩ := turn_eq exactly f hpool
  have hin : best' ∈ pool := by simp [hsplit]
  have hclass : best'.priority ∈ classes pool := mem_classes.mpr ⟨best', hin, rfl⟩
  have hlevel : f₁.times best'.priority = some (level f.times (classes pool) best'.priority) := by
    rw [htimes, adopt, if_pos hclass]
  have hshare : exactly (weight best'.priority) = .ok (1 / (weight best'.priority : ℚ)) := rfl
  obtain ⟨hcharged, hok⟩ := charge_eq (B := classes pool) hlevel hshare
  rw [hturn, hok] at h
  obtain ⟨rfl, hbest⟩ := Prod.mk.inj h
  obtain rfl := Except.ok.inj hbest
  refine ⟨hin, hclass, fun c hc => ?_, ?_, fun c hc hne => ?_, fun c hc => ?_⟩
  · obtain ⟨r, hr, rfl⟩ := mem_classes.mp hc
    exact Prod.Lex.monotone_fst _ _ (hleast r hr)
  · rw [hcharged, Function.update_self]
  · rw [hcharged, Function.update_of_ne hne, htimes, adopt, if_pos hc]
  · rw [hcharged, Function.update_of_ne (fun he : c = best'.priority => hc (he ▸ hclass)), htimes, adopt, if_neg hc]

end Turn

/-- What one turn saw and whom it served. -/
structure Turn where
  fairness : WeightedFairQueue
  pool : List PendingRequest
  chosen : PendingRequest

/-- The turns that a call of `select` takes. -/
def turns (oneOver : ℕ → Except PyError ℚ) :
    ℕ → WeightedFairQueue → List PendingRequest → List Turn
  | 0, _, _ => []
  | n + 1, f, pool =>
    match turn oneOver f pool with
    | (_, .error _) => []
    | (f', .ok best) => ⟨f, pool, best⟩ :: turns oneOver n f' (pool.erase best)

/-- The turns of consecutive calls of `select`, each with its waiting list and its capacity. -/
def served (oneOver : ℕ → Except PyError ℚ) :
    WeightedFairQueue → List (List PendingRequest × ℕ) → List Turn
  | _, [] => []
  | f, (waiting, capacity) :: calls =>
    turns oneOver (min capacity waiting.length) f waiting ++
      served oneOver (f.select oneOver waiting capacity).1 calls

/-- What consecutive calls of `select` return. -/
def selections (oneOver : ℕ → Except PyError ℚ) :
    WeightedFairQueue → List (List PendingRequest × ℕ) → List (Except PyError (List PendingRequest))
  | _, [] => []
  | f, (waiting, capacity) :: calls =>
    (f.select oneOver waiting capacity).2 ::
      selections oneOver (f.select oneOver waiting capacity).1 calls

/-- No call raises, and what the calls return, one after the other, is whom the turns serve. -/
def Returned (calls : List (List PendingRequest × ℕ)) (ts : List Turn) : Prop :=
  ∃ picks : List (List PendingRequest), selections exactly .init calls = picks.map Except.ok ∧
    picks.flatten = ts.map Turn.chosen

/-- The queue after consecutive calls of `select`. -/
def after (oneOver : ℕ → Except PyError ℚ) (f : WeightedFairQueue)
    (calls : List (List PendingRequest × ℕ)) : WeightedFairQueue :=
  calls.foldl (fun f call => (f.select oneOver call.1 call.2).1) f

/-- A turn, as a grant of virtual time. -/
def Turn.grant (t : Turn) : List ℕ × ℕ := (classes t.pool, t.chosen.priority)

/-- Turns that follow each other, from one state of the queue to another. -/
inductive Trail (oneOver : ℕ → Except PyError ℚ) :
    WeightedFairQueue → List Turn → WeightedFairQueue → Prop where
  | nil (f : WeightedFairQueue) : Trail oneOver f [] f
  | cons {f f' f'' : WeightedFairQueue} {pool : List PendingRequest} {best : PendingRequest}
      {ts : List Turn} (h : turn oneOver f pool = (f', .ok best)) (rest : Trail oneOver f' ts f'') :
      Trail oneOver f (⟨f, pool, best⟩ :: ts) f''

section Trails
variable {oneOver : ℕ → Except PyError ℚ} {f f' f'' : WeightedFairQueue}

theorem Trail.append {ts us : List Turn} (h : Trail oneOver f ts f') (h' : Trail oneOver f' us f'') :
    Trail oneOver f (ts ++ us) f'' := by
  induction h with
  | nil f => exact h'
  | cons ht _ ih => exact .cons ht (ih h')

/-- The part of a trail that starts at one of its turns. -/
theorem Trail.drop {before rest : List Turn} {t : Turn}
    (h : Trail oneOver f (before ++ t :: rest) f') : Trail oneOver t.fairness (t :: rest) f' := by
  induction before generalizing f with
  | nil =>
    cases h with
    | cons ht hrest => exact .cons ht hrest
  | cons u before ih =>
    cases h with
    | cons _ hrest => exact ih hrest

theorem Trail.take {ts us : List Turn} (h : Trail oneOver f (ts ++ us) f'') :
    ∃ f', Trail oneOver f ts f' := by
  induction ts generalizing f with
  | nil => exact ⟨f, .nil f⟩
  | cons t ts ih =>
    cases h with
    | cons ht hrest =>
      obtain ⟨f', hts⟩ := ih hrest
      exact ⟨f', .cons ht hts⟩

theorem Trail.last {t : Turn} (h : Trail oneOver f [t] f') :
    turn oneOver t.fairness t.pool = (f', .ok t.chosen) := by
  cases h with
  | cons ht hnil =>
    cases hnil
    exact ht

theorem Trail.run {ts : List Turn} (h : Trail exactly f ts f') :
    Run weight f.times (ts.map Turn.grant) f'.times := by
  induction h with
  | nil f => exact .nil f.times
  | cons ht _ ih => exact .cons (turn_grant ht).2 ih

/-- The loop of `select` is its turns one after the other. -/
theorem grant_succ (n : ℕ) (f : WeightedFairQueue) (pool chosen : List PendingRequest) :
    grant oneOver (n + 1) f pool chosen =
      match turn oneOver f pool with
      | (f', .error e) => (f', .error e)
      | (f', .ok best) => grant oneOver n f' (pool.erase best) (chosen ++ [best]) := by
  cases pool with
  | nil => rfl
  | cons first rest =>
    simp only [grant, turn]
    split <;> simp_all [Except.map]

/-- What `grant` returns is whom its turns served, up to the turn that raised. -/
theorem grant_eq_turns {n : ℕ} {pool chosen picked : List PendingRequest}
    (h : grant oneOver n f pool chosen = (f', .ok picked)) :
    picked = chosen ++ (turns oneOver n f pool).map Turn.chosen ∧
      Trail oneOver f (turns oneOver n f pool) f' := by
  induction n generalizing f pool chosen with
  | zero =>
    obtain ⟨rfl, rfl⟩ : f = f' ∧ chosen = picked := by simpa [grant] using h
    exact ⟨(List.append_nil _).symm, .nil f⟩
  | succ n ih =>
    rw [grant_succ] at h
    unfold turns
    cases ht : turn oneOver f pool with
    | mk f₁ out =>
      rw [ht] at h
      cases out with
      | error e => simp at h
      | ok best =>
        obtain ⟨hpicked, htrail⟩ := ih h
        refine ⟨?_, .cons ht htrail⟩
        rw [hpicked, List.map_cons, List.append_assoc, List.singleton_append]

/-- Exact division never raises, so a turn fails only for want of a request. -/
theorem turn_exactly {pool : List PendingRequest} (hpool : pool ≠ []) :
    ∃ f' best, best ∈ pool ∧ turn exactly f pool = (f', .ok best) := by
  obtain ⟨pre, best, post, f₁, hsplit, -, -, -, hturn⟩ := turn_eq exactly f hpool
  refine ⟨(f₁.charge exactly best.priority (classes pool)).1, best, by simp [hsplit], ?_⟩
  rw [hturn]
  rfl

theorem grant_exactly {n : ℕ} {pool : List PendingRequest} (hn : n ≤ pool.length)
    (chosen : List PendingRequest) : ∃ f' picked, grant exactly n f pool chosen = (f', .ok picked) := by
  induction n generalizing f pool chosen with
  | zero => exact ⟨f, chosen, rfl⟩
  | succ n ih =>
    have hpool : pool ≠ [] := List.ne_nil_of_length_pos (by omega)
    obtain ⟨f', best, hin, hturn⟩ := turn_exactly (f := f) hpool
    have hlen : n ≤ (pool.erase best).length := by
      rw [List.length_erase_of_mem hin]
      omega
    rw [grant_succ, hturn]
    exact ih hlen (chosen ++ [best])

/-- A call returns whom its turns serve. -/
theorem select_turns (f : WeightedFairQueue) (waiting : List PendingRequest) (capacity : ℕ) :
    (f.select exactly waiting capacity).2 =
        .ok ((turns exactly (min capacity waiting.length) f waiting).map Turn.chosen) ∧
      Trail exactly f (turns exactly (min capacity waiting.length) f waiting)
        (f.select exactly waiting capacity).1 := by
  obtain ⟨f', picked, hgrant⟩ :=
    grant_exactly (f := f) (Nat.min_le_right capacity waiting.length) []
  obtain ⟨hpicked, htrail⟩ := grant_eq_turns hgrant
  rw [List.nil_append] at hpicked
  rw [select, hgrant]
  exact ⟨congrArg Except.ok hpicked, htrail⟩

theorem served_trail (f : WeightedFairQueue) (calls : List (List PendingRequest × ℕ)) :
    Trail exactly f (served exactly f calls) (after exactly f calls) := by
  induction calls generalizing f with
  | nil => exact .nil f
  | cons call calls ih =>
    obtain ⟨waiting, capacity⟩ := call
    unfold served after
    rw [List.foldl_cons]
    exact (select_turns f waiting capacity).2.append (ih _)

/-- What consecutive calls return are the requests that have been served. -/
theorem selections_served (f : WeightedFairQueue) (calls : List (List PendingRequest × ℕ)) :
    ∃ picks : List (List PendingRequest), selections exactly f calls = picks.map Except.ok ∧
      picks.flatten = (served exactly f calls).map Turn.chosen := by
  induction calls generalizing f with
  | nil => exact ⟨[], rfl, rfl⟩
  | cons call calls ih =>
    obtain ⟨waiting, capacity⟩ := call
    obtain ⟨picks, hpicks, hflat⟩ := ih (f.select exactly waiting capacity).1
    refine ⟨(turns exactly (min capacity waiting.length) f waiting).map Turn.chosen :: picks,
      ?_, ?_⟩
    · rw [selections, (select_turns f waiting capacity).1, hpicks, List.map_cons]
    · rw [List.flatten_cons, hflat, served, List.map_append]

theorem served_append (f : WeightedFairQueue) (calls calls' : List (List PendingRequest × ℕ)) :
    served oneOver f (calls ++ calls') =
      served oneOver f calls ++ served oneOver (after oneOver f calls) calls' := by
  induction calls generalizing f with
  | nil => rfl
  | cons call calls ih =>
    obtain ⟨waiting, capacity⟩ := call
    rw [List.cons_append, served, served, ih, List.append_assoc]
    rfl

theorem turns_take (n k : ℕ) (f : WeightedFairQueue) (pool : List PendingRequest) :
    turns oneOver (min k n) f pool = (turns oneOver n f pool).take k := by
  induction n generalizing k f pool with
  | zero =>
    rw [Nat.min_zero]
    simp [turns]
  | succ n ih =>
    cases k with
    | zero => simp [turns]
    | succ k =>
      rw [Nat.succ_min_succ]
      unfold turns
      cases turn oneOver f pool with
      | mk f' out =>
        cases out with
        | error e => rfl
        | ok best => exact congrArg (Turn.mk f pool best :: ·) (ih k f' (pool.erase best))

/-- Any turn is the last one of some calls that otherwise served the same. -/
theorem served_cut {calls : List (List PendingRequest × ℕ)} {before rest : List Turn} {t : Turn}
    (h : served oneOver f calls = before ++ t :: rest) :
    ∃ calls', served oneOver f calls' = before ++ [t] := by
  induction calls generalizing f before with
  | nil => simp [served] at h
  | cons call calls ih =>
    obtain ⟨waiting, capacity⟩ := call
    rw [served] at h
    rcases List.append_eq_append_iff.mp h with ⟨later, hbefore, hserved⟩ | ⟨later, hturns, hrest⟩
    · obtain ⟨calls', hcalls⟩ := ih hserved
      refine ⟨(waiting, capacity) :: calls', ?_⟩
      rw [served, hcalls, hbefore, List.append_assoc]
    · cases later with
      | nil =>
        rw [List.append_nil] at hturns
        rw [List.nil_append] at hrest
        obtain ⟨calls', hcalls⟩ := @ih _ [] hrest.symm
        refine ⟨(waiting, capacity) :: calls', ?_⟩
        rw [served, hcalls, hturns, List.nil_append]
      | cons u later =>
        obtain ⟨rfl, -⟩ := List.cons.inj hrest
        refine ⟨[(waiting, min (before.length + 1) capacity)], ?_⟩
        have hcut : (before ++ t :: later).take (before.length + 1) = before ++ [t] := by
          simp [List.take_append]
        simp only [served, List.append_nil]
        rw [Nat.min_assoc, turns_take, hturns, hcut]

end Trails

end TinyServe.Scheduler
