import TinyServe.PrefixCacheTable
import TinyServe.PythonPrefixCacheTree

set_option autoImplicit false

namespace TinyServe.PythonPrefixCache
open OrderedDict ClaimTree PrefixCacheBase PrefixClaims PrefixCacheTable

/-- The cache stands for `claims`, in their order of insertion. -/
structure Refines (c : Cache) (claims : Claims SeqId Block) (addr : List Block → Option Address) :
    Prop extends Tree c claims addr where
  seqNodes : c.seqNodes.entries = claims.map fun cl => (cl.1, cells addr cl.2)

section Facts
variable {c : Cache} {claims : Claims SeqId Block} {addr : List Block → Option Address}

theorem Refines.nodup (h : Refines c claims addr) : (claims.map Prod.fst).Nodup := by
  rw [← register_keys h.seqNodes]
  exact c.seqNodes.keys_nodup

/-- The abstraction function reads the claims back off the heap. -/
theorem Refines.claims_eq (h : Refines c claims addr) : c.claims = claims := by
  rw [Cache.claims, h.seqNodes]
  exact h.rep.register_read fun i n hn => by rw [Option.some.inj hn]

end Facts

theorem init_refines (blockSize : ℕ) (h : 1 ≤ blockSize) :
    Refines (init blockSize h) [] (rootOnly 0) where
  rep := represents_nil rfl
  below := fun path i hi => by
    by_cases hp : path = []
    · have hi0 : 0 = i := by simpa [rootOnly, hp] using hi
      exact hi0 ▸ Nat.one_pos
    · simp [rootOnly, hp] at hi
  count := by rw [prefixes_nil]; rfl
  seqNodes := rfl

section Evict
variable {c : Cache} {l r claims : Claims SeqId Block} {addr : List Block → Option Address}
  {s : SeqId}

theorem Tree.evictLoop (b : List Block) (h : Tree c (l ++ (s, b) :: r) addr)
    (hs : s ∉ l.map Prod.fst) :
    ∃ addr', Tree ((cells addr b).reverse.foldl (Cache.dropOwner s) c) (l ++ r) addr' ∧
      (∀ p i, addr' p = some i → addr p = some i) ∧
      SameShell c ((cells addr b).reverse.foldl (Cache.dropOwner s) c) := by
  induction b using List.reverseRecOn generalizing c addr with
  | nil =>
    refine ⟨addr, ⟨represents_empty_claim.mp h.rep, h.below, ?_⟩, fun _ _ hp => hp, SameShell.refl c⟩
    rw [← prefixes_congr fun path hne => claim_iff_of_empty (s := s) hne]
    exact h.count
  | append_singleton b k ih =>
    obtain ⟨i, hi⟩ := Option.isSome_iff_exists.mp
      (h.rep.isSome_of_claim (c := (s, b ++ [k])) (by simp) List.prefix_rfl)
    obtain ⟨addr₁, h₁, hsame, hsub₁, hshell⟩ := h.dropOwner hs hi
    have hcells : cells addr b = cells addr₁ b := by
      refine cells_congr fun p _ hp => (hsame p fun he => ?_).symm
      exact concat_not_prefix (he ▸ hp)
    obtain ⟨addr₂, h₂, hsub₂, hsh⟩ := ih h₁
    have hrev : (cells addr (b ++ [k])).reverse = i :: (cells addr₁ b).reverse := by
      rw [cells_concat, hi, hcells]
      simp
    rw [hrev, List.foldl_cons]
    exact ⟨addr₂, h₂, fun p j hp => hsub₁ p j (hsub₂ p j hp), hshell.trans hsh⟩

theorem Refines.deepestFirst (h : Refines c claims addr) (b : List Block) :
    deepestFirst c.heap (cells addr b) = (cells addr b).reverse := by
  let deeper : Address → Address → Prop := fun i j => (c.heap j).depth ≤ (c.heap i).depth
  have : Std.Total deeper := ⟨fun i j => le_total _ _⟩
  have : IsTrans Address deeper := ⟨fun _ _ _ hij hjk => le_trans hjk hij⟩
  exact h.rep.sorted_cells (d := fun i => (c.heap i).depth)
    (fun i n hn => by rw [Option.some.inj hn]) (List.perm_insertionSort deeper _)
    (List.pairwise_insertionSort deeper _)

theorem Refines.evict (h : Refines c claims addr) (s : SeqId) :
    ∃ addr', Refines (c.evict s) (PrefixClaims.evict claims s) addr' ∧
      (c.evict s).root = c.root ∧ (c.evict s).blockSize = c.blockSize := by
  cases hg : c.seqNodes.get? s with
  | none =>
    have he : c.evict s = c := by simp [Cache.evict, hg]
    rw [he, evict_of_not_mem ((register_absent h.seqNodes).mp hg)]
    exact ⟨addr, h, rfl, rfl⟩
  | some owned =>
    obtain ⟨l, path, r, hlr, howned, hsl, hevict⟩ := register_claim h.seqNodes hg
    have htree : Tree { c with seqNodes := c.seqNodes.erase s } (l ++ (s, path) :: r) addr := by
      rw [← hlr]
      exact ⟨h.rep, h.below, h.count⟩
    obtain ⟨addr', ht, hsub, hsh⟩ := htree.evictLoop path hsl
    have hev : c.evict s = (cells addr path).reverse.foldl (Cache.dropOwner s)
        { c with seqNodes := c.seqNodes.erase s } := by
      simp only [Cache.evict, hg]
      rw [howned, h.deepestFirst path]
    rw [hev]
    rw [← hevict] at ht
    refine ⟨addr', ⟨ht, ?_⟩, hsh.2.1, hsh.1⟩
    rw [hsh.2.2]
    exact register_erase h.seqNodes ht.rep hsub

theorem Refines.insert (h : Refines c claims addr) (tokens : List Token) (s : SeqId)
    (hlen : ¬ tokens.length < c.blockSize) :
    ∃ addr', Refines (c.insert tokens s).1 (publish claims s (blocks c.blockSize tokens)) addr' ∧
      (c.insert tokens s).1.blockSize = c.blockSize ∧
      (c.insert tokens s).2 = (blocks c.blockSize tokens).length * c.blockSize := by
  obtain ⟨addr₁, h₁, hroot, hbs⟩ := h.evict s
  have hempty : Tree (c.evict s) (PrefixClaims.evict claims s ++ [(s, [])]) addr₁ := by
    refine ⟨represents_empty_claim.mpr (by simpa using h₁.rep), h₁.below, ?_⟩
    rw [prefixes_congr fun path hne => claim_iff_of_empty hne, List.append_nil]
    exact h₁.count
  obtain ⟨addr₂, h₂, ho, hmono, hsh⟩ :=
    hempty.claimPath h₁.rep.root (blocks c.blockSize tokens)
  have hcells : cells addr₁ [] = [] := rfl
  rw [hcells, List.nil_append] at h₂ ho
  rw [hcells] at hsh
  have hins : (c.insert tokens s).1 =
      { ((c.evict s).claimPath s (c.evict s).root [] (blocks c.blockSize tokens)).1 with
        seqNodes := ((c.evict s).claimPath s (c.evict s).root []
          (blocks c.blockSize tokens)).1.seqNodes.set s
          ((c.evict s).claimPath s (c.evict s).root [] (blocks c.blockSize tokens)).2 } := by
    simp only [Cache.insert, if_neg hlen, hbs]
  have hnum : (c.insert tokens s).2 = (blocks c.blockSize tokens).length *
      ((c.evict s).claimPath s (c.evict s).root [] (blocks c.blockSize tokens)).1.blockSize := by
    simp only [Cache.insert, if_neg hlen, hbs]
  rw [hnum, hsh.1, hbs, hins]
  refine ⟨addr₂, ⟨⟨h₂.rep, h₂.below, h₂.count⟩, ?_⟩, hsh.1.trans hbs, rfl⟩
  show (((c.evict s).claimPath s (c.evict s).root []
    (blocks c.blockSize tokens)).1.seqNodes.set s _).entries = _
  rw [hsh.2.2, ho]
  exact register_set h₁.seqNodes (not_mem_evict claims s) h₁.rep hmono _

end Evict

section Answers
variable {c : Cache} {claims : Claims SeqId Block} {addr : List Block → Option Address}

theorem Refines.match_eq (h : Refines c claims addr) (tokens : List Token) :
    c.match_ tokens = matchIn c.blockSize claims tokens := by
  have hd := h.descend_depth (blocks c.blockSize tokens)
  by_cases hlen : tokens.length < c.blockSize
  · have hnil := (blocks_eq_nil c.blockSize_pos tokens).mpr hlen
    have h0 : depth claims (blocks c.blockSize tokens) = 0 := by
      have := depth_le claims (blocks c.blockSize tokens)
      simpa [hnil] using this
    simp [Cache.match_, hlen, matchIn, h0]
  · by_cases h0 : depth claims (blocks c.blockSize tokens) = 0
    · simp [Cache.match_, hlen, matchIn, hd, h0]
    · have ho := h.descend_owners (blocks c.blockSize tokens) h0
      simp [Cache.match_, hlen, matchIn, hd, h0, ho, donor_eq_owners_getLast?, Nat.mul_comm]

theorem Refines.matchForReuse_eq (h : Refines c claims addr) (tokens : List Token) :
    c.matchForReuse tokens = reuseIn c.blockSize claims tokens := by
  have hm : c.match_ = matchIn c.blockSize claims := funext h.match_eq
  rw [Cache.matchForReuse, reuseIn, hm]

theorem Refines.seqCount_eq (h : Refines c claims addr) : c.seqCount = claims.length := by
  rw [Cache.seqCount, Dict.size, h.seqNodes, List.length_map]

end Answers

def Cache.perform (c : Cache) : Op → Cache × Answer
  | .insert tokens s => ((c.insert tokens s).1, .published (c.insert tokens s).2)
  | .evict s => (c.evict s, .done)
  | .match_ tokens => (c, .found (c.match_ tokens))
  | .matchForReuse tokens => (c, .found (c.matchForReuse tokens))
  | .nodeCount => (c, .count c.nodeCount)
  | .seqCount => (c, .count c.seqCount)

def Cache.after (c : Cache) (ops : List Op) : Cache := ops.foldl (fun c op => (c.perform op).1) c

/-- The answers to a sequence of operations, in order. -/
def Cache.answers : Cache → List Op → List Answer
  | _, [] => []
  | c, op :: ops => (c.perform op).2 :: (c.perform op).1.answers ops

theorem Cache.after_append (c : Cache) (ops ops' : List Op) :
    c.after (ops ++ ops') = (c.after ops).after ops' := List.foldl_append

theorem Cache.answers_append (c : Cache) (ops ops' : List Op) :
    c.answers (ops ++ ops') = c.answers ops ++ (c.after ops).answers ops' := by
  induction ops generalizing c with
  | nil => rfl
  | cons op ops ih =>
    rw [List.cons_append, Cache.answers, Cache.answers, ih, List.cons_append]
    rfl

/-- One operation moves the cache and the table together and returns the table's answer. -/
theorem Refines.perform {c : Cache} {claims : Claims SeqId Block}
    {addr : List Block → Option Address} (h : Refines c claims addr) (op : Op) :
    (c.perform op).2 = answer c.blockSize claims op ∧
      (c.perform op).1.blockSize = c.blockSize ∧
      ∃ addr', Refines (c.perform op).1 (update c.blockSize claims op) addr' := by
  cases op with
  | insert tokens s =>
    by_cases hlen : tokens.length < c.blockSize
    · have hi : c.insert tokens s = (c, 0) := by simp [Cache.insert, hlen]
      simp only [Cache.perform, hi, answer, update, if_pos hlen]
      exact ⟨trivial, trivial, addr, h⟩
    · obtain ⟨addr', hr, hbs, hn⟩ := h.insert tokens s hlen
      simp only [Cache.perform, answer, update, if_neg hlen, hn]
      exact ⟨trivial, hbs, addr', hr⟩
  | evict s =>
    obtain ⟨addr', hr, -, hbs⟩ := h.evict s
    exact ⟨rfl, hbs, addr', hr⟩
  | match_ tokens => exact ⟨congrArg Answer.found (h.match_eq tokens), rfl, addr, h⟩
  | matchForReuse tokens => exact ⟨congrArg Answer.found (h.matchForReuse_eq tokens), rfl, addr, h⟩
  | nodeCount => exact ⟨congrArg Answer.count h.count, rfl, addr, h⟩
  | seqCount =>
    refine ⟨?_, rfl, addr, h⟩
    simp only [Cache.perform, answer, h.seqCount_eq]

theorem Refines.answers {c : Cache} {claims : Claims SeqId Block}
    {addr : List Block → Option Address} (h : Refines c claims addr) (ops : List Op) :
    c.answers ops = PrefixCacheTable.answers c.blockSize claims ops := by
  induction ops generalizing c claims addr with
  | nil => rfl
  | cons op ops ih =>
    obtain ⟨ha, hb, addr', h'⟩ := h.perform op
    rw [Cache.answers, PrefixCacheTable.answers, ha, ih h', hb]

theorem after_refines (blockSize : ℕ) (hb : 1 ≤ blockSize) (ops : List Op) :
    ((init blockSize hb).after ops).blockSize = blockSize ∧
      ∃ addr, Refines ((init blockSize hb).after ops) (PrefixCacheTable.after blockSize ops) addr := by
  induction ops using List.reverseRecOn with
  | nil => exact ⟨rfl, _, init_refines blockSize hb⟩
  | append_singleton ops op ih =>
    obtain ⟨hbs, addr, h⟩ := ih
    obtain ⟨-, hbs', hr⟩ := h.perform op
    have hafter : (init blockSize hb).after (ops ++ [op]) =
        (((init blockSize hb).after ops).perform op).1 := by simp [Cache.after]
    rw [hafter, after_concat]
    rw [hbs] at hbs' hr
    exact ⟨hbs', hr⟩

/-- The tree answers as the claim table does after any operations on a fresh cache. -/
theorem cache_refines_claim_table (blockSize : ℕ) (hb : 1 ≤ blockSize) (ops : List Op) :
    (∀ tokens, ((init blockSize hb).after ops).match_ tokens =
        matchIn blockSize (PrefixCacheTable.after blockSize ops) tokens) ∧
      ((init blockSize hb).after ops).nodeCount =
        (prefixes (PrefixCacheTable.after blockSize ops)).card ∧
      ((init blockSize hb).after ops).seqCount = (PrefixCacheTable.after blockSize ops).length := by
  obtain ⟨hbs, addr, h⟩ := after_refines blockSize hb ops
  refine ⟨fun tokens => ?_, h.count, h.seqCount_eq⟩
  rw [h.match_eq tokens, hbs]

theorem cache_refines_claim_table_shared :
    1 ≤ 2 ∧ ((init 2 (by decide)).after
      [.insert [1, 2, 3, 4] 0, .insert [1, 2, 5, 6] 1, .evict 1]).nodeCount = 2 :=
  ⟨by decide, (cache_refines_claim_table 2 (by decide)
    [.insert [1, 2, 3, 4] 0, .insert [1, 2, 5, 6] 1, .evict 1]).2.1.trans (by decide)⟩

end TinyServe.PythonPrefixCache
