import Mathlib.Algebra.GroupWithZero.Nat
import Mathlib.Data.Finset.Basic
import Mathlib.Data.Finset.Card
import Mathlib.Data.List.Infix
import Mathlib.Order.Lattice

set_option autoImplicit false

/-!
Claims of owners on paths, oldest first. A claim covers every prefix of its path, and a query
is answered by the newest claim among those that share the longest prefix with it.
-/
namespace PrefixClaims

abbrev Claims (σ κ : Type) := List (σ × List κ)

section CommonPrefix
variable {κ : Type} [DecidableEq κ]

def commonPrefix : List κ → List κ → ℕ
  | a :: as, b :: bs => if a = b then commonPrefix as bs + 1 else 0
  | _, _ => 0

theorem le_commonPrefix_iff (p q : List κ) (n : ℕ) :
    n ≤ commonPrefix p q ↔ n ≤ q.length ∧ q.take n <+: p := by
  induction p generalizing q n with
  | nil =>
    cases n with
    | zero => simp
    | succ n => cases q <;> simp [commonPrefix]
  | cons a p ih =>
    cases q with
    | nil => cases n <;> simp [commonPrefix]
    | cons b q =>
      cases n with
      | zero => simp
      | succ n =>
        by_cases h : a = b
        · subst h
          simp [commonPrefix, ih q n]
        · simp [commonPrefix, h, Ne.symm h]

end CommonPrefix

section Table
variable {σ κ : Type} [DecidableEq κ]

/-- The longest prefix of `q` that any claim covers. -/
def depth (cs : Claims σ κ) (q : List κ) : ℕ :=
  (cs.map fun c => commonPrefix c.2 q).foldr max 0

/-- The owners of `path`, oldest claim first. -/
def owners (cs : Claims σ κ) (path : List κ) : List σ :=
  (cs.filter fun c => path <+: c.2).map Prod.fst

/-- The newest claim that attains the depth of `q`. -/
def donor (cs : Claims σ κ) (q : List κ) : Option σ :=
  ((cs.filter fun c => commonPrefix c.2 q = depth cs q).map Prod.fst).getLast?

/-- The distinct non-empty prefixes of the claimed paths. -/
def prefixes (cs : Claims σ κ) : Finset (List κ) :=
  (cs.flatMap fun c => c.2.inits).toFinset.erase []

theorem le_depth_iff (cs : Claims σ κ) (q : List κ) (n : ℕ) :
    n ≤ depth cs q ↔ n = 0 ∨ n ≤ q.length ∧ ∃ c ∈ cs, q.take n <+: c.2 := by
  induction cs with
  | nil => simp [depth]
  | cons c cs ih =>
    have hd : depth (c :: cs) q = max (commonPrefix c.2 q) (depth cs q) := rfl
    rw [hd, le_max_iff, ih, le_commonPrefix_iff]
    constructor
    · rintro (⟨hl, hp⟩ | h0 | ⟨hl, d, hd, hp⟩)
      · exact .inr ⟨hl, c, List.mem_cons_self, hp⟩
      · exact .inl h0
      · exact .inr ⟨hl, d, List.mem_cons_of_mem _ hd, hp⟩
    · rintro (h0 | ⟨hl, d, hd, hp⟩)
      · exact .inr (.inl h0)
      · rcases List.mem_cons.mp hd with rfl | hd
        · exact .inl ⟨hl, hp⟩
        · exact .inr (.inr ⟨hl, d, hd, hp⟩)

theorem depth_le (cs : Claims σ κ) (q : List κ) : depth cs q ≤ q.length := by
  rcases (le_depth_iff cs q (depth cs q)).mp le_rfl with h | h
  · omega
  · exact h.1

theorem commonPrefix_le_depth {cs : Claims σ κ} {c : σ × List κ} (hc : c ∈ cs) (q : List κ) :
    commonPrefix c.2 q ≤ depth cs q := by
  obtain ⟨hl, hp⟩ := (le_commonPrefix_iff c.2 q _).mp le_rfl
  exact (le_depth_iff cs q _).mpr (.inr ⟨hl, c, hc, hp⟩)

/-- Attaining the depth and covering the deepest matched prefix are the same thing. -/
theorem donor_eq_owners_getLast? (cs : Claims σ κ) (q : List κ) :
    donor cs q = (owners cs (q.take (depth cs q))).getLast? := by
  have h : (cs.filter fun c => commonPrefix c.2 q = depth cs q) =
      cs.filter fun c => q.take (depth cs q) <+: c.2 := by
    refine List.filter_congr fun c hc => decide_eq_decide.mpr ?_
    have hle := commonPrefix_le_depth hc q
    have hiff := le_commonPrefix_iff c.2 q (depth cs q)
    constructor
    · intro he
      exact (hiff.mp he.ge).2
    · intro hp
      exact le_antisymm hle (hiff.mpr ⟨depth_le cs q, hp⟩)
  rw [donor, owners, h]

theorem mem_owners {cs : Claims σ κ} {path : List κ} {s : σ} :
    s ∈ owners cs path ↔ ∃ p, (s, p) ∈ cs ∧ path <+: p := by
  simp [owners]

theorem owners_eq_nil {cs : Claims σ κ} {path : List κ} :
    owners cs path = [] ↔ ∀ c ∈ cs, ¬ path <+: c.2 := by
  simp [owners]

theorem owners_append (cs ds : Claims σ κ) (path : List κ) :
    owners (cs ++ ds) path = owners cs path ++ owners ds path := by
  simp [owners]

theorem owners_cons (c : σ × List κ) (cs : Claims σ κ) (path : List κ) :
    owners (c :: cs) path = if path <+: c.2 then c.1 :: owners cs path else owners cs path := by
  by_cases h : path <+: c.2 <;> simp [owners, h]

/-- A match has a donor, and the donor's claim covers it. -/
theorem donor_claim {cs : Claims σ κ} {q : List κ} (h : 0 < depth cs q) :
    ∃ s path, donor cs q = some s ∧ (s, path) ∈ cs ∧ q.take (depth cs q) <+: path := by
  obtain ⟨-, c, hc, hp⟩ := ((le_depth_iff cs q (depth cs q)).mp le_rfl).resolve_left h.ne'
  have hne : owners cs (q.take (depth cs q)) ≠ [] :=
    List.ne_nil_of_mem (mem_owners.mpr ⟨c.2, hc, hp⟩)
  have hlast := List.getLast_mem hne
  obtain ⟨path, hmem, hpath⟩ := mem_owners.mp hlast
  exact ⟨_, path, (donor_eq_owners_getLast? cs q).trans (List.getLast?_eq_some_getLast hne),
    hmem, hpath⟩

/-- The donor's claim attains the depth, and no newer claim does. -/
theorem donor_newest {cs : Claims σ κ} {q : List κ} {s : σ} (h : donor cs q = some s) :
    ∃ older path newer, cs = older ++ (s, path) :: newer ∧ commonPrefix path q = depth cs q ∧
      ∀ c ∈ newer, commonPrefix c.2 q < depth cs q := by
  have hlast : ∀ ds : Claims σ κ,
      ((ds.filter fun c => commonPrefix c.2 q = depth cs q).map Prod.fst).getLast? = some s →
      ∃ older path newer, ds = older ++ (s, path) :: newer ∧ commonPrefix path q = depth cs q ∧
        ∀ c ∈ newer, commonPrefix c.2 q ≠ depth cs q := by
    intro ds
    induction ds using List.reverseRecOn with
    | nil => simp
    | append_singleton ds c ih =>
      intro hs
      by_cases hc : commonPrefix c.2 q = depth cs q
      · rw [List.filter_append, List.filter_cons_of_pos (by simpa using hc), List.map_append,
          List.filter_nil, List.map_singleton, List.getLast?_append_of_ne_nil _ (by simp)] at hs
        obtain rfl : c.1 = s := by simpa using hs
        exact ⟨ds, c.2, [], rfl, hc, by simp⟩
      · rw [List.filter_append, List.filter_cons_of_neg (by simpa using hc), List.filter_nil,
          List.append_nil] at hs
        obtain ⟨older, path, newer, rfl, hpath, hnewer⟩ := ih hs
        refine ⟨older, path, newer ++ [c], by simp, hpath, fun d hd => ?_⟩
        rcases List.mem_append.mp hd with hd | hd
        · exact hnewer d hd
        · exact List.mem_singleton.mp hd ▸ hc
  obtain ⟨older, path, newer, hsplit, hpath, hnewer⟩ := hlast cs h
  refine ⟨older, path, newer, hsplit, hpath, fun c hc => ?_⟩
  have hin : c ∈ cs := hsplit ▸ List.mem_append_right _ (List.mem_cons_of_mem _ hc)
  exact lt_of_le_of_ne (commonPrefix_le_depth hin q) (hnewer c hc)

theorem mem_prefixes {cs : Claims σ κ} {path : List κ} :
    path ∈ prefixes cs ↔ path ≠ [] ∧ ∃ c ∈ cs, path <+: c.2 := by
  simp [prefixes]

theorem prefixes_nil : prefixes ([] : Claims σ κ) = ∅ := rfl

theorem prefixes_append (cs ds : Claims σ κ) :
    prefixes (cs ++ ds) = prefixes cs ∪ prefixes ds := by
  ext path
  simp only [Finset.mem_union, mem_prefixes, List.mem_append, or_and_right, exists_or, and_or_left]

theorem prefixes_congr {cs ds : Claims σ κ}
    (h : ∀ path, path ≠ [] → ((∃ c ∈ cs, path <+: c.2) ↔ ∃ c ∈ ds, path <+: c.2)) :
    prefixes cs = prefixes ds := by
  ext path
  rw [mem_prefixes, mem_prefixes]
  exact and_congr_right fun hne => h path hne

end Table

section Update
variable {σ κ : Type} [DecidableEq σ]

/-- `s` gives up its claim. -/
def evict (cs : Claims σ κ) (s : σ) : Claims σ κ := cs.filter fun c => c.1 ≠ s

/-- `s` claims `path`, as the newest claim and in place of any it had. -/
def publish (cs : Claims σ κ) (s : σ) (path : List κ) : Claims σ κ := evict cs s ++ [(s, path)]

theorem mem_evict {cs : Claims σ κ} {s : σ} {c : σ × List κ} :
    c ∈ evict cs s ↔ c ∈ cs ∧ c.1 ≠ s := by
  simp [evict]

theorem evict_of_not_mem {cs : Claims σ κ} {s : σ} (h : s ∉ cs.map Prod.fst) :
    evict cs s = cs := by
  refine List.filter_eq_self.mpr fun c hc => ?_
  have hne : c.1 ≠ s := fun he => h (he ▸ List.mem_map_of_mem hc)
  simpa using hne

theorem not_mem_evict (cs : Claims σ κ) (s : σ) : s ∉ (evict cs s).map Prod.fst := by
  intro h
  obtain ⟨c, hc, hs⟩ := List.mem_map.mp h
  exact (mem_evict.mp hc).2 hs

theorem evict_publish (cs : Claims σ κ) (s : σ) (path : List κ) :
    evict (publish cs s path) s = evict cs s := by
  have hlast : evict [(s, path)] s = [] := by simp [evict]
  have hfirst : evict (evict cs s) s = evict cs s := evict_of_not_mem (not_mem_evict cs s)
  calc evict (publish cs s path) s
    _ = evict (evict cs s) s ++ evict [(s, path)] s := List.filter_append ..
    _ = evict cs s := by rw [hlast, hfirst, List.append_nil]

/-- Of two claims of one owner the newer counts. -/
theorem publish_publish (cs : Claims σ κ) (s : σ) (path path' : List κ) :
    publish (publish cs s path) s path' = publish cs s path' := by
  rw [publish, evict_publish, publish]

theorem publish_evict (cs : Claims σ κ) (s : σ) (path : List κ) :
    publish (evict cs s) s path = publish cs s path := by
  rw [publish, evict_of_not_mem (not_mem_evict cs s), publish]

theorem publish_length (cs : Claims σ κ) (s : σ) (path : List κ) :
    (publish cs s path).length = (evict cs s).length + 1 := by
  rw [publish, List.length_append, List.length_singleton]

theorem mem_publish {cs : Claims σ κ} {s : σ} {path p : List κ} :
    (s, p) ∈ publish cs s path ↔ p = path := by
  rw [publish, List.mem_append, mem_evict, List.mem_singleton]
  simp

theorem evict_middle {l r : Claims σ κ} {s : σ} {path : List κ}
    (h : ((l ++ (s, path) :: r).map Prod.fst).Nodup) : evict (l ++ (s, path) :: r) s = l ++ r := by
  rw [List.map_append, List.map_cons, List.nodup_middle, List.nodup_cons, List.mem_append,
    not_or] at h
  have hs : evict (l ++ (s, path) :: r) s = evict l s ++ evict r s := by simp [evict]
  rw [hs, evict_of_not_mem h.1.1, evict_of_not_mem h.1.2]

theorem evict_length {cs : Claims σ κ} {s : σ} (hn : (cs.map Prod.fst).Nodup)
    (h : s ∈ cs.map Prod.fst) : cs.length = (evict cs s).length + 1 := by
  obtain ⟨c, hc, rfl⟩ := List.mem_map.mp h
  obtain ⟨l, r, rfl⟩ := List.append_of_mem hc
  have hrest : evict (l ++ c :: r) c.1 = l ++ r := evict_middle hn
  rw [hrest, List.length_append, List.length_append, List.length_cons, Nat.add_assoc]

end Update

section Extension
variable {κ : Type} {path p b : List κ} {k : κ}

theorem concat_prefix_concat (h : p ≠ b ++ [k]) : p <+: b ++ [k] ↔ p <+: b := by
  rw [List.prefix_concat_iff]
  exact ⟨fun hp => hp.resolve_left h, .inr⟩

theorem not_prefix_nil (h : path ≠ []) : ¬ path <+: [] := fun hp => h (List.prefix_nil.mp hp)

theorem concat_not_prefix : ¬ b ++ [k] <+: b := by
  intro h
  have hl := h.length_le
  simp only [List.length_append, List.length_singleton] at hl
  omega

variable {σ : Type} {l r : Claims σ κ} {s : σ}

theorem claim_iff_of_ne (h : path ≠ b ++ [k]) :
    (∃ c ∈ l ++ (s, b ++ [k]) :: r, path <+: c.2) ↔ ∃ c ∈ l ++ (s, b) :: r, path <+: c.2 := by
  simp only [List.mem_append, List.mem_cons, or_and_right, exists_or, exists_eq_left,
    concat_prefix_concat h]

theorem claim_iff_of_empty (h : path ≠ []) :
    (∃ c ∈ l ++ (s, []) :: r, path <+: c.2) ↔ ∃ c ∈ l ++ r, path <+: c.2 := by
  simp only [List.mem_append, List.mem_cons, or_and_right, exists_or, exists_eq_left,
    not_prefix_nil h, false_or]

variable [DecidableEq κ]

theorem owners_of_empty (h : path ≠ []) :
    owners (l ++ (s, []) :: r) path = owners (l ++ r) path := by
  simp only [owners_append, owners_cons, not_prefix_nil h, ↓reduceIte]

theorem owners_of_ne (h : path ≠ b ++ [k]) :
    owners (l ++ (s, b ++ [k]) :: r) path = owners (l ++ (s, b) :: r) path := by
  simp only [owners_append, owners_cons, concat_prefix_concat h]

theorem owners_long : owners (l ++ (s, b ++ [k]) :: r) (b ++ [k]) =
    owners l (b ++ [k]) ++ s :: owners r (b ++ [k]) := by
  simp [owners_append, owners_cons]

theorem owners_short : owners (l ++ (s, b) :: r) (b ++ [k]) =
    owners l (b ++ [k]) ++ owners r (b ++ [k]) := by
  simp [owners_append, owners_cons, concat_not_prefix]

theorem prefixes_long :
    prefixes (l ++ (s, b ++ [k]) :: r) = insert (b ++ [k]) (prefixes (l ++ (s, b) :: r)) := by
  ext path
  rw [Finset.mem_insert, mem_prefixes, mem_prefixes]
  by_cases hp : path = b ++ [k]
  · subst hp
    have hc : ∃ c ∈ l ++ (s, b ++ [k]) :: r, b ++ [k] <+: c.2 :=
      ⟨(s, b ++ [k]), by simp, List.prefix_rfl⟩
    simp only [hc, true_or, and_true, ne_eq, List.append_eq_nil_iff, reduceCtorEq, and_false,
      not_false_eq_true]
  · rw [claim_iff_of_ne hp]
    simp [hp]

theorem prefixes_single_card (s : σ) (path : List κ) :
    (prefixes [(s, path)]).card = path.length := by
  induction path using List.reverseRecOn with
  | nil =>
    have hnil : prefixes [(s, ([] : List κ))] = ∅ := by
      ext path
      simp [mem_prefixes]
    rw [hnil, Finset.card_empty, List.length_nil]
  | append_singleton b k ih =>
    have hlong := prefixes_long (l := []) (r := []) (s := s) (b := b) (k := k)
    have hfresh : b ++ [k] ∉ prefixes [(s, b)] := by
      intro h
      obtain ⟨-, c, hc, hp⟩ := mem_prefixes.mp h
      rw [List.mem_singleton.mp hc] at hp
      exact concat_not_prefix hp
    rw [List.nil_append, List.nil_append] at hlong
    rw [hlong, Finset.card_insert_of_notMem hfresh, ih, List.length_append, List.length_singleton]

theorem prefixes_card_le (cs : Claims σ κ) :
    (prefixes cs).card ≤ (cs.map fun c => c.2.length).sum := by
  induction cs with
  | nil => simp [prefixes_nil]
  | cons c cs ih =>
    have hsplit : prefixes (c :: cs) = prefixes [c] ∪ prefixes cs := prefixes_append [c] cs
    have hunion := Finset.card_union_le (prefixes [c]) (prefixes cs)
    rw [hsplit, List.map_cons, List.sum_cons, ← prefixes_single_card c.1 c.2]
    exact hunion.trans (Nat.add_le_add_left ih _)

theorem prefixes_disjoint {a b : κ} (h : a ≠ b) (s s' : σ) (p q : List κ) :
    Disjoint (prefixes [(s, a :: p)]) (prefixes [(s', b :: q)]) := by
  refine Finset.disjoint_left.mpr fun path hp hq => ?_
  obtain ⟨hne, c, hc, hpc⟩ := mem_prefixes.mp hp
  obtain ⟨-, d, hd, hqd⟩ := mem_prefixes.mp hq
  rw [List.mem_singleton.mp hc] at hpc
  rw [List.mem_singleton.mp hd] at hqd
  cases path with
  | nil => exact hne rfl
  | cons k path =>
    have hka := (List.cons_prefix_cons.mp hpc).1
    have hkb := (List.cons_prefix_cons.mp hqd).1
    exact h (hka.symm.trans hkb)

theorem owners_erase [DecidableEq σ] (hs : s ∉ l.map Prod.fst) :
    (owners (l ++ (s, b ++ [k]) :: r) (b ++ [k])).erase s =
      owners (l ++ (s, b) :: r) (b ++ [k]) := by
  have hl : s ∉ owners l (b ++ [k]) := by
    intro h
    obtain ⟨q, hq, -⟩ := mem_owners.mp h
    exact hs (List.mem_map_of_mem hq)
  rw [owners_long, owners_short, List.erase_append_right _ hl, List.erase_cons_head]

end Extension

end PrefixClaims
