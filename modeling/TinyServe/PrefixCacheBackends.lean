import TinyServe.NativePrefixCacheRefinement
import TinyServe.PythonPrefixCacheRefinement

set_option autoImplicit false

/-! The two backends side by side. -/
namespace TinyServe.PrefixCacheBackends
open PrefixClaims PrefixCacheBase PrefixCacheTable
open NativePrefixCache (StdSort OpFits TokensFit Fits narrow int32 init_agrees int32_of_fits)

section Narrowing

theorem narrow_of_small {a : Answer} (h : ∀ n, a = .count n → -2147483648 ≤ n ∧ n < 2147483648) :
    narrow a = a := by
  cases a with
  | count n => exact congrArg Answer.count (int32_of_fits (h n rfl).1 (h n rfl).2)
  | done => rfl
  | published n => rfl
  | found m => rfl

theorem count_nonneg {blockSize : ℕ} {t : Table} {op : Op} {n : ℤ}
    (h : answer blockSize t op = .count n) : 0 ≤ n := by
  cases op with
  | nodeCount =>
    rw [answer, Answer.count.injEq] at h
    omega
  | seqCount =>
    rw [answer, Answer.count.injEq] at h
    omega
  | insert tokens s => simp [answer] at h
  | evict s => simp [answer] at h
  | match_ tokens => simp [answer] at h
  | matchForReuse tokens => simp [answer] at h

theorem counts_nonneg {blockSize : ℕ} {t : Table} {ops : List Op} {n : ℤ}
    (h : .count n ∈ answers blockSize t ops) : 0 ≤ n := by
  induction ops generalizing t with
  | nil => simp [answers] at h
  | cons op ops ih =>
    rcases List.mem_cons.mp h with hop | hops
    · exact count_nonneg hop.symm
    · exact ih hops

theorem narrow_answers {blockSize : ℕ} {t : Table} {ops : List Op}
    (h : ∀ n, .count n ∈ answers blockSize t ops → n < 2147483648) :
    (answers blockSize t ops).map narrow = answers blockSize t ops := by
  refine (List.map_congr_left fun a ha => narrow_of_small fun n hn => ?_).trans (List.map_id' _)
  subst hn
  have h0 := counts_nonneg ha
  exact ⟨by omega, h n ha⟩

end Narrowing

theorem init_isSome {blockSize : ℕ} (hb : 1 ≤ blockSize) (hlt : blockSize < 2147483648) :
    (NativePrefixCache.init blockSize).isSome := by
  have hfit : int32 blockSize = blockSize := int32_of_fits (by omega) (by omega)
  have hpos : ¬ int32 blockSize < 1 := by omega
  rw [NativePrefixCache.init, Option.isSome_map, NativePrefixCache.create, if_neg hpos,
    Option.isSome_some]

/-- Both backends give the same answers as long as no count outgrows the ABI. -/
theorem native_matches_python (std : StdSort) (blockSize : ℕ) (hb : 1 ≤ blockSize) :
    (blockSize < 2147483648 → (NativePrefixCache.init blockSize).isSome) ∧
      ∀ c, NativePrefixCache.init blockSize = some c → ∀ ops, (∀ op ∈ ops, OpFits op) →
        (∀ n, .count n ∈ (PythonPrefixCache.init blockSize hb).answers ops → n < 2147483648) →
        c.answers std ops = .ok ((PythonPrefixCache.init blockSize hb).answers ops) := by
  refine ⟨init_isSome hb, fun c hc ops hf hcount => ?_⟩
  have hpy := (PythonPrefixCache.init_refines blockSize hb).answers ops
  obtain ⟨hagree, hsize⟩ := init_agrees hb hc
  have hbs : (PythonPrefixCache.init blockSize hb).blockSize = blockSize := rfl
  rw [hbs] at hpy
  rw [hpy] at hcount ⊢
  rw [hagree.answers std hf, hsize, narrow_answers hcount]

/-- A stable sort, as one thing `std::sort` may be. -/
def stableSort : StdSort where
  sort xs := xs.insertionSort fun a b => b.2 ≤ a.2
  perm := List.perm_insertionSort _
  sorted xs := by
    have := List.pairwise_insertionSort (fun a b : ClaimTree.Address × ℕ => b.2 ≤ a.2) xs
    exact this

theorem native_matches_python_shared :
    1 ≤ 2 ∧ (∃ c, NativePrefixCache.init 2 = some c ∧ c.answers stableSort
        [.insert [1, 2, 3, 4] 0, .insert [1, 2, 5] 1, .match_ [1, 2, 7], .evict 9, .nodeCount] =
      .ok [.published 4, .published 2, .found ⟨2, 1⟩, .done, .count 2]) := by
  have hrun : (PythonPrefixCache.init 2 (by decide)).answers
      [.insert [1, 2, 3, 4] 0, .insert [1, 2, 5] 1, .match_ [1, 2, 7], .evict 9, .nodeCount] =
        [.published 4, .published 2, .found ⟨2, 1⟩, .done, .count 2] := by decide +kernel
  obtain ⟨hsome, hrest⟩ := native_matches_python stableSort 2 (by decide)
  obtain ⟨c, hc⟩ := Option.isSome_iff_exists.mp (hsome (by decide))
  refine ⟨by decide, c, hc, (hrest c hc _ ?_ ?_).trans (congrArg Except.ok hrun)⟩
  · simp [OpFits, TokensFit, Fits]
  · rw [hrun]
    simp

section Overflow

theorem blocks_one (tokens : List Token) : blocks 1 tokens = tokens.map fun t => [t] := by
  refine List.ext_getElem (by simp) fun i h _ => ?_
  have hi : i < tokens.length := by simpa using h
  simp [blocks, slice, List.take_add_one, List.drop_append, hi, Nat.min_eq_left hi.le]

theorem blocks_one_replicate (n : ℕ) (t : Token) :
    blocks 1 (List.replicate n t) = List.replicate n [t] := by
  rw [blocks_one, List.map_replicate]

/-- Two prompts of `n` tokens with no token in common, then the node count. -/
def disjointPrompts (n : ℕ) : List Op :=
  [.insert (List.replicate n 0) 0, .insert (List.replicate n 1) 1, .nodeCount]

theorem disjointPrompts_fit {n : ℕ} (h : n < 2147483648) : ∀ op ∈ disjointPrompts n, OpFits op := by
  have htokens : ∀ t : Token, Fits t → TokensFit (List.replicate n t) := by
    intro t ht
    refine ⟨by rw [List.length_replicate]; omega, fun u hu => ?_⟩
    rw [List.eq_of_mem_replicate hu]
    exact ht
  intro op hop
  simp only [disjointPrompts, List.mem_cons, List.not_mem_nil, or_false] at hop
  rcases hop with rfl | rfl | rfl
  · exact ⟨htokens 0 (by simp [Fits]), by simp [Fits]⟩
  · exact ⟨htokens 1 (by simp [Fits]), by simp [Fits]⟩
  · trivial

theorem disjointPrompts_card (n : ℕ) :
    (prefixes [((0 : SeqId), List.replicate n [(0 : Token)]), (1, List.replicate n [1])]).card =
      2 * n := by
  cases n with
  | zero => decide
  | succ n =>
    have hsplit : [((0 : SeqId), List.replicate (n + 1) [(0 : Token)]),
        (1, List.replicate (n + 1) [1])] =
          [(0, List.replicate (n + 1) [0])] ++ [(1, List.replicate (n + 1) [1])] := rfl
    have hdis := prefixes_disjoint (show [(0 : Token)] ≠ [1] by decide) (0 : SeqId) 1
      (List.replicate n [0]) (List.replicate n [1])
    rw [← List.replicate_succ, ← List.replicate_succ] at hdis
    rw [hsplit, prefixes_append, Finset.card_union_of_disjoint hdis, prefixes_single_card,
      prefixes_single_card, List.length_replicate, List.length_replicate]
    omega

theorem disjointPrompts_table (n : ℕ) :
    publish (publish [] (0 : SeqId) (List.replicate n [(0 : Token)])) 1 (List.replicate n [1]) =
      [(0, List.replicate n [0]), (1, List.replicate n [1])] := by
  simp [publish, PrefixClaims.evict]

theorem disjointPrompts_answers {n : ℕ} (h : 1 ≤ n) :
    (PythonPrefixCache.init 1 le_rfl).answers (disjointPrompts n) =
      [.published n, .published n, .count (2 * n : ℕ)] := by
  have hlen : ¬ n < 1 := by omega
  have hpy := (PythonPrefixCache.init_refines 1 le_rfl).answers (disjointPrompts n)
  have hbs : (PythonPrefixCache.init 1 le_rfl).blockSize = 1 := rfl
  rw [hbs] at hpy
  rw [hpy, disjointPrompts]
  simp only [answers, answer, update, List.length_replicate, if_neg hlen, blocks_one_replicate,
    Nat.mul_one]
  rw [disjointPrompts_table, disjointPrompts_card]

/-- Past `int32_t` the counts differ: a four-billion-node tree counts as `-2` natively. -/
theorem node_count_overflows :
    ¬ ∀ (std : StdSort) (blockSize : ℕ) (hb : 1 ≤ blockSize) (c : NativePrefixCache.Cache),
      NativePrefixCache.init blockSize = some c → ∀ ops, (∀ op ∈ ops, OpFits op) →
        c.answers std ops = .ok ((PythonPrefixCache.init blockSize hb).answers ops) := by
  intro h
  obtain ⟨c, hc⟩ := Option.isSome_iff_exists.mp (init_isSome le_rfl (by decide : 1 < 2147483648))
  have hf := disjointPrompts_fit (by decide : 2147483647 < 2147483648)
  have hsame := h stableSort 1 le_rfl c hc (disjointPrompts 2147483647) hf
  obtain ⟨hagree, hsize⟩ := init_agrees le_rfl hc
  have hpy := (PythonPrefixCache.init_refines 1 le_rfl).answers (disjointPrompts 2147483647)
  have hbs : (PythonPrefixCache.init 1 le_rfl).blockSize = 1 := rfl
  rw [hbs] at hpy
  rw [hagree.answers stableSort hf, hsize, ← hpy, disjointPrompts_answers (by decide)] at hsame
  exact absurd (Except.ok.inj hsame) (by decide +kernel)

end Overflow

end TinyServe.PrefixCacheBackends
