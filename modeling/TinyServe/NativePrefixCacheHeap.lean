import TinyServe.ClaimHeap
import TinyServe.PrefixCacheBackends

set_option autoImplicit false

/-! The C++ tree from `ts_prefix_cache_create` to `ts_prefix_cache_destroy`. -/
namespace TinyServe.NativePrefixCache
open OrderedDict ClaimTree PrefixCacheBase PrefixClaims PrefixCacheTable

/-- A call that changes the tree. An insert passes at least the tokens it announces. -/
inductive Call where
  | insert (tokens : List Token) (nTokens : ℤ) (seqId : SeqId) (held : nTokens ≤ tokens.length)
  | evict (seqId : SeqId)

def Tree.call (std : StdSort) (c : Tree) : Call → Except Fault Tree
  | .insert tokens nTokens seqId _ => do
    let (c, _) ← c.insert std tokens nTokens seqId
    return c
  | .evict seqId => c.evict std seqId

def Tree.run (std : StdSort) : Tree → List Call → Except Fault Tree
  | c, [] => .ok c
  | c, call :: calls => do
    let c ← c.call std call
    c.run std calls

/-- What was made with `new` and not deleted. -/
def Tree.nodes (c : Tree) : Dict Address CacheNode := c.heap.erase c.root

/-- Every link stays inside the heap. The count is right up to `INT32_MAX`, and past it what a
wrapping `+= 1` leaves. -/
structure Tree.Sound (c : Tree) : Prop extends Linked c.heap c.root where
  seqNodes : ∀ s is, c.seqNodes.get? s = some is → ∀ i ∈ is, i ∈ c.nodes.keys
  count : c.nodes.size < 2147483648 → c.nodeCount = c.nodes.size
  wrapped : 2147483648 ≤ c.nodes.size → c.nodeCount = int32 c.nodes.size

section Calls
variable {c : Tree} {claims : Claims SeqId Block} {addr : List Block → Option Address}

theorem keysOf_take (c : Tree) (tokens : List Token) (nTokens : ℤ) :
    c.keysOf tokens nTokens = c.keysOf (tokens.take nTokens.toNat) nTokens := by
  refine List.map_congr_left fun b hb => ?_
  have hend : (b + 1) * c.blockSize ≤ nTokens.toNat := by
    rcases Nat.eq_zero_or_pos c.blockSize with h0 | hpos
    · simp [h0]
    · have hlt := List.mem_range.mp hb
      have hle : ((b : ℤ) + 1) ≤ nTokens / c.blockSize := by omega
      have hmul := Int.mul_le_of_le_ediv (by exact_mod_cast hpos) hle
      have hcast : (((b + 1) * c.blockSize : ℕ) : ℤ) ≤ nTokens := by exact_mod_cast hmul
      omega
  rw [slice, slice, List.take_take, min_eq_left hend]

/-- The tokens past the announced ones are not looked at. -/
theorem insert_take (std : StdSort) (c : Tree) (tokens : List Token) (nTokens : ℤ) (s : SeqId) :
    c.insert std tokens nTokens s = c.insert std (tokens.take nTokens.toNat) nTokens s := by
  rw [Tree.insert, Tree.insert]
  simp only [← keysOf_take]

theorem Refines.call (std : StdSort) (h : Refines c claims addr) (call : Call) :
    ∃ c' claims' addr', c.call std call = .ok c' ∧ Refines c' claims' addr' := by
  cases call with
  | insert tokens nTokens s held =>
    by_cases hshort : nTokens < c.blockSize
    · refine ⟨c, claims, addr, ?_, h⟩
      simp only [Tree.call, Tree.insert, if_pos hshort]
      rfl
    · have hlen : ((tokens.take nTokens.toNat).length : ℤ) = nTokens := by
        rw [List.length_take]
        omega
      have hreach : ¬ (tokens.take nTokens.toNat).length < c.blockSize := by omega
      obtain ⟨c', addr', hrun, h', -⟩ := h.insert std _ s hreach
      rw [hlen, ← insert_take] at hrun
      refine ⟨c', _, addr', ?_, h'⟩
      simp only [Tree.call, hrun]
      rfl
  | evict s =>
    obtain ⟨c', addr', hrun, h', -⟩ := h.evict std s
    exact ⟨c', _, addr', hrun, h'⟩

theorem Refines.run (std : StdSort) (h : Refines c claims addr) (calls : List Call) :
    ∃ c' claims' addr', c.run std calls = .ok c' ∧ Refines c' claims' addr' := by
  induction calls generalizing c claims addr with
  | nil => exact ⟨c, claims, addr, rfl, h⟩
  | cons call calls ih =>
    obtain ⟨c₁, claims₁, addr₁, hcall, h₁⟩ := h.call std call
    obtain ⟨c₂, claims₂, addr₂, hrun, h₂⟩ := ih h₁
    refine ⟨c₂, claims₂, addr₂, ?_, h₂⟩
    simp only [Tree.run, hcall]
    exact hrun

theorem Stands.holds (h : Stands c claims addr) : Holds c.heap c.root claims addr :=
  ⟨h.rep, h.exact⟩

theorem Refines.sound (h : Refines c claims addr) : c.Sound := by
  have hh := h.holds
  have hcount : c.nodeCount = int32 c.nodes.size := by rw [h.count, Tree.nodes, hh.size]
  refine ⟨hh.linked, fun s is hs i hi => ?_, fun hsmall => ?_, fun _ => hcount⟩
  · have hmem := Dict.mem_entries.mpr hs
    rw [h.seqNodes] at hmem
    obtain ⟨cl, -, hcl⟩ := List.mem_map.mp hmem
    obtain ⟨-, rfl⟩ := Prod.mk.inj hcl
    obtain ⟨p, hne, -, hp⟩ := mem_cells.mp hi
    exact Dict.mem_keys_erase.mpr ⟨(hh.ne_root hp).mpr hne, hh.allocated hp⟩
  · rw [hcount, int32_of_fits (by omega) (by exact_mod_cast hsmall)]

end Calls

section Destroy
variable {c : Tree}

theorem byKey_perm (children : Dict Block Address) : (byKey children).Perm children.values :=
  (List.perm_insertionSort _ _).map Prod.snd

theorem get?_nodes {i : Address} {n : CacheNode} (hn : c.heap.get? i = some n) (hne : i ≠ c.root) :
    c.nodes.get? i = some n := by
  rw [Tree.nodes, Dict.get?_erase, if_neg hne.symm, hn]

/-- A turn for every node is enough, and the stack is empty when all are freed. -/
theorem teardown_ok (turns : ℕ) {stack : List Address} (h : Hangs c.heap c.root stack)
    (ht : c.nodes.size ≤ turns) :
    ∃ c', c.teardown turns stack = .ok (some c') ∧ c'.root = c.root ∧
      c'.heap.get? c.root = c.heap.get? c.root ∧ c'.nodes.entries = [] := by
  induction turns generalizing c stack with
  | zero =>
    cases stack with
    | nil => exact ⟨c, rfl, rfl, rfl, h.done⟩
    | cons i stack =>
      obtain ⟨n, hn, hne, -⟩ := h.pop
      have hsize := Dict.size_erase (get?_nodes hn hne)
      omega
  | succ turns ih =>
    cases stack with
    | nil => exact ⟨c, rfl, rfl, rfl, h.done⟩
    | cons i stack =>
      obtain ⟨n, hn, hne, hkids⟩ := h.pop
      have hrest := hkids (byKey n.children).reverse
        ((List.reverse_perm _).trans (byKey_perm n.children))
      have hless : ((c.heap.erase i).erase c.root).size ≤ turns := by
        have hsize := Dict.size_erase (get?_nodes hn hne)
        rw [Dict.erase_comm]
        exact Nat.le_of_succ_le_succ (hsize.symm.trans_le ht)
      obtain ⟨c', hrun, hroot, hkept, hnone⟩ := @ih { c with heap := c.heap.erase i } _ hrest hless
      refine ⟨c', ?_, hroot, hkept.trans ?_, hnone⟩
      · simp only [Tree.teardown, deref_ok hn, free_ok hn]
        exact hrun
      · rw [Dict.get?_erase, if_neg hne]

theorem Refines.destroy {claims : Claims SeqId Block} {addr : List Block → Option Address}
    (h : Refines c claims addr) {turns : ℕ} (ht : c.nodes.size ≤ turns) :
    c.destroy turns = .ok (some .empty) := by
  have hh := h.holds
  obtain ⟨top, htop⟩ := Dict.mem_keys.mp hh.linked.base
  obtain ⟨c', hrun, hroot, hkept, hnone⟩ := teardown_ok turns (hh.hangs htop
    ((List.reverse_perm _).trans (byKey_perm top.children))) ht
  have htop' : c'.heap.get? c'.root = some top := by rw [hroot, hkept, htop]
  simp only [Tree.destroy, deref_ok htop, hrun, bind, Except.bind, free_ok htop']
  exact congrArg (fun d => Except.ok (some d)) (Dict.eq_empty hnone)

end Destroy

/-- Whatever is called, the links stay inside the heap, and `ts_prefix_cache_destroy` frees all. -/
theorem tree_memory_safe (std : StdSort) {blockSize : ℤ} {t : Tree}
    (h : create blockSize = some t) (calls : List Call) :
    ∃ c, t.run std calls = .ok c ∧ c.Sound ∧
      ∀ turns, c.nodes.size ≤ turns → c.destroy turns = .ok (some .empty) := by
  obtain ⟨-, -, hr⟩ := create_refines h
  obtain ⟨c, claims, addr, hrun, hc⟩ := hr.run std calls
  exact ⟨c, hrun, hc.sound, fun turns ht => hc.destroy ht⟩

theorem tree_memory_safe_shared : ∃ t, create 2 = some t ∧ ∃ c,
    t.run PrefixCacheBackends.stableSort [.insert [1, 2, 3, 4] 4 0 (by decide),
      .insert [1, 2, 5, 6] 4 1 (by decide), .evict 0, .insert [7] (-1) 1 (by decide)] = .ok c ∧
    c.Sound ∧ ∀ turns, c.nodes.size ≤ turns → c.destroy turns = .ok (some .empty) :=
  ⟨_, rfl, @tree_memory_safe PrefixCacheBackends.stableSort 2 _ rfl _⟩

section Overflow
open PrefixCacheBackends

/-- Two prompts of `n` tokens with no token in common. -/
def disjointInserts (n : ℕ) : List Call :=
  [.insert (List.replicate n 0) n 0 (by simp), .insert (List.replicate n 1) n 1 (by simp)]

theorem disjointInserts_nodes (n : ℕ) (hn : 1 ≤ n) :
    ∃ t c, create 1 = some t ∧ t.run stableSort (disjointInserts n) = .ok c ∧
      c.nodes.size = 2 * n ∧ c.nodeCount = int32 (2 * n : ℕ) := by
  obtain ⟨t, ht⟩ : ∃ t, create 1 = some t := ⟨_, rfl⟩
  obtain ⟨-, hbs, h₀⟩ := create_refines ht
  have hlong : ∀ (u : Token) (c : Tree), c.blockSize = 1 →
      ¬ (List.replicate n u).length < c.blockSize := by
    intro u c hc
    rw [List.length_replicate]
    omega
  obtain ⟨c₁, addr₁, hrun₁, h₁, hbs₁⟩ :=
    h₀.insert stableSort (List.replicate n 0) 0 (hlong 0 t hbs)
  obtain ⟨c₂, addr₂, hrun₂, h₂, -⟩ :=
    h₁.insert stableSort (List.replicate n 1) 1 (hlong 1 c₁ (hbs₁.trans hbs))
  have hb : t.blockSize = 1 := hbs
  rw [hbs₁, hb, blocks_one_replicate, blocks_one_replicate, disjointPrompts_table] at h₂
  have hsize := h₂.holds.size
  have hcount := h₂.count
  rw [disjointPrompts_card] at hsize hcount
  rw [List.length_replicate] at hrun₁ hrun₂
  refine ⟨t, c₂, ht, ?_, hsize, hcount⟩
  simp only [disjointInserts, Tree.run, Tree.call, hrun₁, hrun₂, bind, Except.bind, pure,
    Except.pure]

/-- With two prompts of `INT32_MAX` tokens, one to a block, four billion nodes count as `-2`. -/
theorem tree_count_wraps :
    ∃ t c, create 1 = some t ∧ t.run stableSort (disjointInserts 2147483647) = .ok c ∧
      c.nodes.size = 4294967294 ∧ c.nodeCount = -2 := by
  obtain ⟨t, c, ht, hrun, hsize, hcount⟩ := disjointInserts_nodes 2147483647 (by omega)
  exact ⟨t, c, ht, hrun, hsize, hcount.trans (by decide +kernel)⟩

end Overflow

end TinyServe.NativePrefixCache
