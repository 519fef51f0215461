import TinyServe.FairQueueTurns
import TinyServe.VirtualTimeGap

set_option autoImplicit false

/-! How weighted fair queueing divides the grants between classes that compete. -/
namespace TinyServe.Scheduler
open OrderedDict VirtualTime WeightedFairQueue

/-- The virtual finish time a class competes with in a turn, adopted if it has none yet. -/
def Turn.finishTime (t : Turn) (c : ℕ) : ℚ :=
  (t.fairness.virtualFinishTime c (classes t.pool)).2

/-- The least virtual finish time on record once a class of a turn has its own; whoever else adopts
in that turn adopts no less. -/
def Turn.leastTime (t : Turn) (c : ℕ) : ℚ :=
  ((t.fairness.virtualFinishTime c (classes t.pool)).1.virtualFinish.values.min?).getD 0

/-- How many of the turns serve a class. -/
def grantsOf (c : ℕ) (ts : List Turn) : ℕ := ts.countP fun t => t.chosen.priority = c

/-- Two classes start a run of turns with finish times less than a charge and a common fraction of
the weights apart. -/
def Level (a b : ℕ) (t : Turn) : Prop :=
  t.finishTime a - t.finishTime b < 1 / weight a + 1 / ((weight a).lcm (weight b) : ℕ) ∧
    t.finishTime b - t.finishTime a < 1 / weight b + 1 / ((weight a).lcm (weight b) : ℕ)

section Shares

theorem weight_pos (c : ℕ) : 0 < weight c := by
  unfold weight
  omega

theorem share_eq (c : ℕ) (ts : List Turn) : share c (ts.map Turn.grant) = grantsOf c ts := by
  rw [share, List.map_map, List.count_eq_countP, List.countP_map, grantsOf]
  apply List.countP_congr
  intro t _
  simp [Turn.grant]

/-- A contiguous part of what was served is a run of grants, from the state of its first turn. -/
theorem served_run {calls : List (List PendingRequest × ℕ)} {before rest after : List Turn}
    {t : Turn} (h : served exactly .init calls = before ++ t :: rest ++ after) :
    ∃ V, Run weight t.fairness.times ((t :: rest).map Turn.grant) V := by
  have htrail := served_trail .init calls
  rw [h] at htrail
  obtain ⟨f', hto⟩ := Trail.take htrail
  exact ⟨f'.times, hto.drop.run⟩

theorem finishTime_eq (t : Turn) (c : ℕ) :
    t.finishTime c = level t.fairness.times (classes t.pool) c := (virtualFinishTime_eq c).1

theorem adopt_eq {t : Turn} {c : ℕ} (hc : c ∈ classes t.pool) :
    adopt t.fairness.times (classes t.pool) c = some (t.finishTime c) := by
  rw [adopt, if_pos hc, finishTime_eq]

/-- A class that waits all through is charged for its grants and nothing else. -/
theorem Trail.finish_end {t : Turn} {run : List Turn} {f : WeightedFairQueue} {c : ℕ}
    (h : Trail exactly t.fairness (t :: run) f) (hc : ∀ u ∈ t :: run, c ∈ classes u.pool) :
    f.times c = some (t.finishTime c + grantsOf c (t :: run) / weight c) := by
  have hgrants : ∀ g ∈ (t :: run).map Turn.grant, c ∈ g.1 := by
    intro g hg
    obtain ⟨u, hu, rfl⟩ := List.mem_map.mp hg
    exact hc u hu
  rw [← share_eq]
  exact h.run.adopted.level_end (adopt_eq (hc t List.mem_cons_self)) hgrants

theorem leastTime_le {t : Turn} {c : ℕ} (hc : c ∈ classes t.pool) :
    ∀ k u, adopt t.fairness.times (classes t.pool) k = some u → t.leastTime c ≤ u := by
  obtain ⟨-, htimes⟩ :=
    virtualFinishTime_eq (f := t.fairness) (B := classes t.pool) c
  have hread : (recorded t.fairness.times (classes t.pool) c c).isSome := by
    rw [recorded, Function.update_self]
    rfl
  have hleast : ∀ k u, recorded t.fairness.times (classes t.pool) c k = some u →
      t.leastTime c ≤ u := by
    intro k u hu
    rw [← htimes] at hu
    have hmem := Dict.mem_values.mpr ⟨k, hu⟩
    unfold Turn.leastTime
    cases hmin : (t.fairness.virtualFinishTime c (classes t.pool)).1.virtualFinish.values.min? with
    | none =>
      rw [List.min?_eq_none_iff.mp hmin] at hmem
      simp at hmem
    | some m => exact (List.min?_eq_some_iff.mp hmin).2 u hmem
  intro k u hu
  by_cases hk : k ∈ classes t.pool
  · rw [adopt, if_pos hk, ← level_recorded hc] at hu
    obtain rfl := Option.some.inj hu
    exact le_level hleast hc hread
  · rw [adopt, if_neg hk] at hu
    have hne : k ≠ c := fun he => hk (he ▸ hc)
    refine hleast k u ?_
    rw [recorded, Function.update_of_ne hne, hu]

/-- Two classes that both wait all through a run of turns that finds them level share it by their
weights, up to one grant each. -/
theorem Level.balanced {a b : ℕ} {t : Turn} (hlevel : Level a b t) {rest : List Turn} {V : Times ℕ}
    (hrun : Run weight t.fairness.times ((t :: rest).map Turn.grant) V)
    (hboth : ∀ u ∈ t :: rest, a ∈ classes u.pool ∧ b ∈ classes u.pool) :
    |(grantsOf a (t :: rest) : ℚ) / weight a - grantsOf b (t :: rest) / weight b| ≤
      1 / weight a + 1 / weight b := by
  by_cases hab : a = b
  · subst hab
    rw [sub_self, abs_zero]
    positivity
  obtain ⟨ha, hb⟩ := hboth t List.mem_cons_self
  have hgrants : ∀ g ∈ (t :: rest).map Turn.grant, a ∈ g.1 ∧ b ∈ g.1 := by
    intro g hg
    obtain ⟨u, hu, rfl⟩ := List.mem_map.mp hg
    exact hboth u hu
  rw [← share_eq, ← share_eq]
  exact hrun.adopted.balanced hab (adopt_eq ha) (adopt_eq hb) hgrants (weight_pos a) (weight_pos b)
    hlevel.1 hlevel.2

end Shares

/-- Two waiting requests, the second of which came first. -/
def duel (a b : ℕ) : List PendingRequest := [⟨0, [], 1, a, 1⟩, ⟨1, [], 1, b, 0⟩]

section Duels
variable {a b : ℕ} {f : WeightedFairQueue} {x y : ℚ}

theorem mem_classes_duel (a b : ℕ) : a ∈ classes (duel a b) ∧ b ∈ classes (duel a b) := by
  simp [duel, classes]

/-- The later of the two is served only from strictly below. -/
theorem duel_turn (hab : a ≠ b) (hx : f.times a = some x) (hy : f.times b = some y) :
    ∃ f' best x' y', turn exactly f (duel a b) = (f', .ok best) ∧ f'.times a = some x' ∧
      f'.times b = some y' ∧ x' - y' = alternate (weight a) (weight b) (x - y) := by
  obtain ⟨f', best, hin, hturn⟩ := turn_exactly (f := f) (List.cons_ne_nil _ _ : duel a b ≠ [])
  obtain ⟨-, hgrant⟩ := turn_grant hturn
  obtain ⟨ha, hb⟩ := mem_classes_duel a b
  refine ⟨f', best, ?_⟩
  unfold alternate
  rcases List.mem_cons.mp hin with rfl | hin
  · have hkey := turn_least hturn (List.mem_cons_of_mem _ List.mem_cons_self)
    have hless : x < y := by
      rw [key, key, Prod.Lex.toLex_le_toLex, level_of_some hx, level_of_some hy] at hkey
      rcases hkey with hlt | ⟨-, hle⟩
      · exact hlt
      · exact absurd hle (by norm_num)
    have hnexta := hgrant.charged
    have hnextb := hgrant.kept b hb hab.symm
    rw [level_of_some hx] at hnexta
    rw [level_of_some hy] at hnextb
    refine ⟨_, _, hturn, hnexta, hnextb, ?_⟩
    rw [if_pos (sub_neg.mpr hless)]
    ring
  · obtain rfl := List.mem_singleton.mp hin
    have hleast := hgrant.least a ha
    have hnexta := hgrant.kept a ha hab
    have hnextb := hgrant.charged
    rw [level_of_some hx, level_of_some hy] at hleast
    rw [level_of_some hx] at hnexta
    rw [level_of_some hy] at hnextb
    refine ⟨_, _, hturn, hnexta, hnextb, ?_⟩
    rw [if_neg (not_lt.mpr (sub_nonneg.mpr hleast))]
    ring

/-- Single grants to two that wait alone take turns by their weights. -/
theorem duels (hab : a ≠ b) (hx : f.times a = some x) (hy : f.times b = some y) (n : ℕ) :
    (∀ u ∈ served exactly f (List.replicate n (duel a b, 1)), u.pool = duel a b) ∧
      ∃ x' y', (after exactly f (List.replicate n (duel a b, 1))).times a = some x' ∧
        (after exactly f (List.replicate n (duel a b, 1))).times b = some y' ∧
        x' - y' = (alternate (weight a) (weight b))^[n] (x - y) := by
  induction n generalizing f x y with
  | zero => exact ⟨by simp [served], x, y, hx, hy, rfl⟩
  | succ n ih =>
    obtain ⟨f', best, x', y', hturn, hx', hy', hgap⟩ := duel_turn hab hx hy
    obtain ⟨hpools, x'', y'', hx'', hy'', hgap'⟩ := ih hx' hy'
    have hselect : (f.select exactly (duel a b) 1).1 = f' := by
      rw [select, show min 1 (duel a b).length = 1 from rfl, grant_succ, hturn]
      rfl
    have hturns : turns exactly (min 1 (duel a b).length) f (duel a b) = [⟨f, duel a b, best⟩] := by
      rw [show min 1 (duel a b).length = 1 from rfl]
      simp [turns, hturn]
    rw [List.replicate_succ, served, after, List.foldl_cons, hselect, hturns]
    refine ⟨fun u hu => ?_, x'', y'', hx'', hy'', ?_⟩
    · rcases List.mem_cons.mp hu with rfl | hu
      · rfl
      · exact hpools u hu
    · rw [hgap', hgap, Function.iterate_succ_apply]

/-- A class that starts too far ahead is overtaken by more than a grant of each. -/
theorem overtaken {calls : List (List PendingRequest × ℕ)} {before : List Turn} {t : Turn}
    (h : served exactly .init calls = before ++ [t])
    (hboth : a ∈ classes t.pool ∧ b ∈ classes t.pool) (hab : a ≠ b)
    (hahead : 1 / (weight a : ℚ) + 1 / ((weight a).lcm (weight b) : ℕ) ≤
      t.finishTime a - t.finishTime b) :
    ∃ calls' run, served exactly .init calls' = before ++ t :: run ∧
      (∀ u ∈ t :: run, a ∈ classes u.pool ∧ b ∈ classes u.pool) ∧
      1 / (weight a : ℚ) + 1 / weight b <
        grantsOf b (t :: run) / weight b - grantsOf a (t :: run) / weight a := by
  have hlast := served_trail .init calls
  rw [h] at hlast
  obtain ⟨-, hgrant⟩ := turn_grant hlast.drop.last
  have hpos : (0 : ℚ) < 1 / (weight a : ℚ) + 1 / ((weight a).lcm (weight b) : ℕ) := by
    have ha : (0 : ℚ) < weight a := by exact_mod_cast weight_pos a
    positivity
  have hnota : a ≠ t.chosen.priority := by
    intro he
    have hle := hgrant.least b hboth.2
    rw [← he, ← finishTime_eq, ← finishTime_eq] at hle
    linarith
  have hx := hgrant.kept a hboth.1 hnota
  rw [← finishTime_eq] at hx
  obtain ⟨n, hn⟩ := exists_overtaken (weight_pos a) (weight_pos b) hahead
  obtain ⟨k, y, hy, hk⟩ : ∃ k y, (after exactly .init calls).times b = some y ∧
      1 / (weight a : ℚ) + 1 / weight b < t.finishTime a - t.finishTime b -
        (alternate (weight a) (weight b))^[k] (t.finishTime a - y) := by
    by_cases hb : b = t.chosen.priority
    · have hy := hgrant.charged
      rw [← hb, ← finishTime_eq] at hy
      have hfirst : alternate (weight a) (weight b) (t.finishTime a - t.finishTime b) =
          t.finishTime a - (t.finishTime b + 1 / weight b) := by
        rw [alternate, if_neg (by linarith)]
        ring
      cases n with
      | zero =>
        rw [Function.iterate_zero_apply, sub_self] at hn
        exact absurd hn (not_lt.mpr (by positivity))
      | succ n =>
        rw [Function.iterate_succ_apply, hfirst] at hn
        exact ⟨n, _, hy, hn⟩
    · have hy := hgrant.kept b hboth.2 hb
      rw [← finishTime_eq] at hy
      exact ⟨n, _, hy, hn⟩
  obtain ⟨hpools, x', y', hx', hy', hgap⟩ := duels hab hx hy k
  let run := served exactly (after exactly .init calls) (List.replicate k (duel a b, 1))
  have hserved : served exactly .init (calls ++ List.replicate k (duel a b, 1)) =
      before ++ t :: run := by
    rw [served_append, h, List.append_assoc]
    rfl
  have hall : ∀ u ∈ t :: run, a ∈ classes u.pool ∧ b ∈ classes u.pool := by
    intro u hu
    rcases List.mem_cons.mp hu with rfl | hu
    · exact hboth
    · rw [hpools u hu]
      exact mem_classes_duel a b
  have htrail : Trail exactly t.fairness (t :: run)
      (after exactly (after exactly .init calls) (List.replicate k (duel a b, 1))) :=
    hlast.drop.append (served_trail _ _)
  have hxe := Option.some.inj (hx'.symm.trans (htrail.finish_end fun u hu => (hall u hu).1))
  have hye := Option.some.inj (hy'.symm.trans (htrail.finish_end fun u hu => (hall u hu).2))
  refine ⟨_, run, hserved, hall, ?_⟩
  rw [← hgap, hxe, hye] at hk
  linarith

/-- Whatever follows a turn at which two classes compete, they share it by their weights up to one
grant each, if and only if the turn finds them level. The grants are what `select` returns. -/
theorem grants_balanced_iff {calls : List (List PendingRequest × ℕ)} {before rest : List Turn}
    {t : Turn} (h : served exactly .init calls = before ++ t :: rest)
    (hboth : a ∈ classes t.pool ∧ b ∈ classes t.pool) :
    (∀ calls', Returned calls' (served exactly .init calls')) ∧
      ((∀ calls' run later, served exactly .init calls' = before ++ t :: run ++ later →
        (∀ u ∈ t :: run, a ∈ classes u.pool ∧ b ∈ classes u.pool) →
        |(grantsOf a (t :: run) : ℚ) / weight a - grantsOf b (t :: run) / weight b| ≤
          1 / weight a + 1 / weight b) ↔ Level a b t) := by
  refine ⟨selections_served .init, ?_⟩
  constructor
  · intro hall
    by_cases hab : a = b
    · subst hab
      have hpos : (0 : ℚ) < weight a := by exact_mod_cast weight_pos a
      constructor <;> rw [sub_self] <;> positivity
    obtain ⟨cut, hcut⟩ := served_cut h
    by_contra hnot
    rcases not_and_or.mp hnot with hahead | hahead
    · obtain ⟨calls', run, hserved, hpools, hmore⟩ := overtaken hcut hboth hab (not_lt.mp hahead)
      have hle := hall calls' run [] (by rw [hserved, List.append_nil]) hpools
      rw [abs_le] at hle
      linarith [hle.1]
    · rw [not_lt, Nat.lcm_comm] at hahead
      obtain ⟨calls', run, hserved, hpools, hmore⟩ :=
        overtaken hcut hboth.symm (Ne.symm hab) hahead
      have hle := hall calls' run [] (by rw [hserved, List.append_nil]) fun u hu => (hpools u hu).symm
      rw [abs_le] at hle
      linarith [hle.2]
  · intro hlevel calls' run later hserved hpools
    obtain ⟨V, hrun⟩ := served_run hserved
    exact hlevel.balanced hrun hpools

end Duels

/-- Class 2 alone until its finish time is 3, then class 1 alone, then both. -/
def newcomer : List (List PendingRequest × ℕ) :=
  List.replicate 6 ([⟨0, [], 1, 2, 0⟩], 1) ++
    [([⟨1, [], 1, 1, 1⟩], 1), ([⟨2, [], 1, 1, 2⟩, ⟨3, [], 1, 1, 3⟩, ⟨4, [], 1, 2, 4⟩], 2)]

/-- The newcomer gets the first two grants that both wait for. -/
theorem newcomer_ahead : ¬ ∀ (calls : List (List PendingRequest × ℕ)) (before run later : List Turn)
    (a b : ℕ), served exactly .init calls = before ++ run ++ later →
      (∀ u ∈ run, a ∈ classes u.pool ∧ b ∈ classes u.pool) →
      |(grantsOf a run : ℚ) / weight a - grantsOf b run / weight b| ≤
        1 / weight a + 1 / weight b := by
  intro h
  let all := served exactly .init newcomer
  have hle := h newcomer (all.take 7) (all.drop 7) [] 1 2 (by simp [all]) (by decide +kernel)
  have hone : grantsOf 1 (all.drop 7) = 2 := by decide +kernel
  have htwo : grantsOf 2 (all.drop 7) = 0 := by decide +kernel
  rw [hone, htwo] at hle
  norm_num [weight] at hle

/-- Two classes that nobody has served yet are level, so they share from then on. -/
theorem duel_balanced : Level 1 2 ⟨.init, duel 1 2, ⟨1, [], 1, 2, 0⟩⟩ ∧
    Returned [(duel 1 2, 1)] [⟨.init, duel 1 2, ⟨1, [], 1, 2, 0⟩⟩] ∧
    ∀ (calls : List (List PendingRequest × ℕ)) (run later : List Turn),
      served exactly .init calls = [] ++ ⟨.init, duel 1 2, ⟨1, [], 1, 2, 0⟩⟩ :: run ++ later →
      (∀ u ∈ ⟨.init, duel 1 2, ⟨1, [], 1, 2, 0⟩⟩ :: run, 1 ∈ classes u.pool ∧ 2 ∈ classes u.pool) →
      |(grantsOf 1 (⟨.init, duel 1 2, ⟨1, [], 1, 2, 0⟩⟩ :: run) : ℚ) / weight 1 -
          grantsOf 2 (⟨.init, duel 1 2, ⟨1, [], 1, 2, 0⟩⟩ :: run) / weight 2| ≤
        1 / weight 1 + 1 / weight 2 := by
  have hlevel : Level 1 2 ⟨.init, duel 1 2, ⟨1, [], 1, 2, 0⟩⟩ := by
    unfold Level
    decide +kernel
  obtain ⟨hreturned, hiff⟩ :=
    @grants_balanced_iff 1 2 [(duel 1 2, 1)] [] [] _ rfl (mem_classes_duel 1 2)
  exact ⟨hlevel, hreturned [(duel 1 2, 1)], hiff.mpr hlevel⟩

section Starvation

/-- A class that waits at every one of a run of turns and is never served is passed over only so
often by finitely many classes. The grants are what `select` returns. -/
theorem passed_over_le {calls : List (List PendingRequest × ℕ)} {before rest later : List Turn}
    {t : Turn} (h : served exactly .init calls = before ++ t :: rest ++ later) (c : ℕ)
    (hwait : ∀ u ∈ t :: rest, c ∈ classes u.pool)
    (hnever : ∀ u ∈ t :: rest, u.chosen.priority ≠ c) (D : Finset ℕ)
    (hD : ∀ u ∈ t :: rest, u.chosen.priority ∈ D) :
    Returned calls (before ++ t :: rest ++ later) ∧
      ((t :: rest).length : ℤ) ≤
        ∑ d ∈ D, (⌊(t.finishTime c - t.leastTime c) * weight d⌋ + 1) := by
  refine ⟨h ▸ selections_served .init calls, ?_⟩
  obtain ⟨V, hrun⟩ := served_run h
  have hc := hwait t List.mem_cons_self
  have hgrants : ∀ g ∈ (t :: rest).map Turn.grant, c ∈ g.1 ∧ g.2 ≠ c := by
    intro g hg
    obtain ⟨u, hu, rfl⟩ := List.mem_map.mp hg
    exact ⟨hwait u hu, hnever u hu⟩
  have hclasses : ∀ g ∈ (t :: rest).map Turn.grant, g.2 ∈ D := by
    intro g hg
    obtain ⟨u, hu, rfl⟩ := List.mem_map.mp hg
    exact hD u hu
  have hle := hrun.adopted.length_le weight_pos (leastTime_le hc) (adopt_eq hc) hgrants D hclasses
  rwa [← List.length_map Turn.grant]

/-- Class 2 while the newcomer catches up. -/
theorem newcomer_passed_over : ∃ t rest, (served exactly .init newcomer).drop 7 = t :: rest ∧
    Returned newcomer ((served exactly .init newcomer).take 7 ++ t :: rest ++ []) ∧
      ((t :: rest).length : ℤ) ≤
        ∑ d ∈ {1}, (⌊(t.finishTime 2 - t.leastTime 2) * weight d⌋ + 1) := by
  have hsome : (served exactly .init newcomer).drop 7 ≠ [] := by decide +kernel
  obtain ⟨t, rest, hrun⟩ := List.exists_cons_of_ne_nil hsome
  have hserved : served exactly .init newcomer =
      (served exactly .init newcomer).take 7 ++ t :: rest ++ [] := by
    rw [← hrun, List.append_nil, List.take_append_drop]
  refine ⟨t, rest, hrun, passed_over_le hserved 2 ?_ ?_ {1} ?_⟩ <;> rw [← hrun] <;> decide +kernel

end Starvation

end TinyServe.Scheduler
