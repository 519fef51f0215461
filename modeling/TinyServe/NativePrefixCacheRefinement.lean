import TinyServe.NativePrefixCacheTree
import TinyServe.PythonPrefixCacheRefinement

set_option autoImplicit false

namespace TinyServe.NativePrefixCache
open OrderedDict ClaimTree PrefixCacheBase PrefixClaims PrefixCacheTable

structure Refines (c : Tree) (claims : Claims SeqId Block) (addr : List Block → Option Address) :
    Prop extends Stands c claims addr where
  seqNodes : c.seqNodes.entries = claims.map fun cl => (cl.1, cells addr cl.2)

section Facts
variable {c : Tree} {claims : Claims SeqId Block} {addr : List Block → Option Address}

/-- The abstraction function reads the claims back off the heap. -/
theorem Refines.claims_eq (h : Refines c claims addr) : c.claims = claims := by
  rw [Tree.claims, h.seqNodes]
  exact h.rep.register_read fun i n hn => by rw [hn, Option.bind_some]

/-- Whatever order the comparator leaves open, a path has no equal depths to exploit. -/
theorem Stands.sorted (std : StdSort) (h : Stands c claims addr) (b : List Block) :
    ∃ ds, c.depths (cells addr b) = .ok ds ∧
      (std.sort ds).map Prod.fst = (cells addr b).reverse := by
  have hb : ∀ i ∈ cells addr b, ∃ path, addr path = some i := fun i hi => by
    obtain ⟨p, -, -, hp⟩ := mem_cells.mp hi
    exact ⟨p, hp⟩
  obtain ⟨ds, hds, hmap, hdep⟩ := h.depths hb
  refine ⟨ds, hds, ?_⟩
  let d : Address → ℕ := fun i => ((c.heap.get? i).map Node.depth).getD 0
  have hd : ∀ p ∈ ds, p.2 = d p.1 := by
    intro p hp
    obtain ⟨path, hpath⟩ := hb p.1 (hmap ▸ List.mem_map_of_mem hp)
    obtain ⟨n, hn, -⟩ := h.read hpath
    simp [d, hn, hdep p hp n hn]
  have hperm := std.perm ds
  refine h.rep.sorted_cells (d := d) (fun i n hn => by simp [d, hn])
    ((hperm.map Prod.fst).trans (List.Perm.of_eq hmap)) ?_
  refine List.pairwise_map.mpr ((std.sorted ds).imp_of_mem fun ha hb' hab => ?_)
  rwa [hd _ (hperm.mem_iff.mp ha), hd _ (hperm.mem_iff.mp hb')] at hab

end Facts

theorem create_refines {blockSize : ℤ} {t : Tree} (h : create blockSize = some t) :
    1 ≤ blockSize ∧ t.blockSize = blockSize.toNat ∧
      Refines t [] (rootOnly 0) := by
  by_cases hlt : blockSize < 1
  · simp [create, hlt] at h
  · have ht : t = ⟨blockSize.toNat, Dict.empty.set 0 ⟨none, none, .empty, [], 0⟩, 1, 0, .empty, 0⟩ := by
      simpa [create, hlt, eq_comm] using h
    have hroot : ∀ i n, t.heap.get? i = some n → i = 0 := by
      intro i n hn
      rw [ht, Dict.get?_set] at hn
      by_contra hi
      simp [Ne.symm hi] at hn
    subst ht
    refine ⟨not_lt.mp hlt, rfl, ⟨⟨represents_nil (by rw [Dict.get?_set, if_pos rfl]),
      fun i n hn => ?_, fun i n hn => ⟨[], ?_⟩, ?_⟩, rfl⟩⟩
    · rw [hroot i n hn]
      exact Nat.one_pos
    · rw [hroot i n hn]
      rfl
    · rw [prefixes_nil, Finset.card_empty, int32_of_fits (by simp) (by simp)]
      rfl

section Evict
variable {c : Tree} {claims : Claims SeqId Block} {addr : List Block → Option Address}

theorem Refines.evict (std : StdSort) (h : Refines c claims addr) (s : SeqId) :
    ∃ c' addr', c.evict std s = .ok c' ∧ Refines c' (PrefixClaims.evict claims s) addr' ∧
      c'.root = c.root ∧ c'.blockSize = c.blockSize := by
  cases hg : c.seqNodes.get? s with
  | none =>
    refine ⟨c, addr, by simp [Tree.evict, hg, pure, Except.pure], ?_, rfl, rfl⟩
    rwa [evict_of_not_mem ((register_absent h.seqNodes).mp hg)]
  | some owned =>
    obtain ⟨l, path, r, hlr, howned, hsl, hevict⟩ := register_claim h.seqNodes hg
    have hst : Stands { c with seqNodes := c.seqNodes.erase s } (l ++ (s, path) :: r) addr := by
      rw [← hlr]
      exact ⟨h.rep, h.below, h.exact, h.count⟩
    obtain ⟨ds, hds, hsort⟩ := hst.sorted std path
    obtain ⟨c', addr', hrun, ht, hsub, hsh⟩ := hst.dropOwners path hsl
    rw [← hevict] at ht
    refine ⟨c', addr', ?_, ⟨ht, ?_⟩, hsh.2.1, hsh.1⟩
    · simp only [Tree.evict, hg, howned, hds, bind, Except.bind, hsort]
      exact hrun
    · rw [hsh.2.2]
      exact register_erase h.seqNodes ht.rep hsub

end Evict

section Insert
variable {c : Tree} {claims : Claims SeqId Block} {addr : List Block → Option Address}

theorem keysOf_eq (c : Tree) (tokens : List Token) :
    c.keysOf tokens tokens.length = blocks c.blockSize tokens := by
  have hdiv : ((tokens.length : ℤ) / (c.blockSize : ℤ)).toNat = tokens.length / c.blockSize := by
    rw [← Int.natCast_div, Int.toNat_natCast]
  rw [Tree.keysOf, hdiv, blocks]

theorem Refines.insert (std : StdSort) (h : Refines c claims addr) (tokens : List Token)
    (s : SeqId) (hlen : ¬ tokens.length < c.blockSize) :
    ∃ c' addr', c.insert std tokens tokens.length s =
        .ok (c', (blocks c.blockSize tokens).length * c.blockSize) ∧
      Refines c' (publish claims s (blocks c.blockSize tokens)) addr' ∧
      c'.blockSize = c.blockSize := by
  obtain ⟨c₁, addr₁, hev, h₁, hroot, hbs⟩ := h.evict std s
  have hempty : Stands c₁ (PrefixClaims.evict claims s ++ [(s, [])]) addr₁ := by
    refine ⟨represents_empty_claim.mpr (by simpa using h₁.rep), h₁.below, h₁.exact, ?_⟩
    rw [prefixes_congr fun path hne => claim_iff_of_empty hne, List.append_nil]
    exact h₁.count
  obtain ⟨c₂, addr₂, hrun, h₂, hmono, hsh⟩ :=
    hempty.claimPath h₁.rep.root (blocks c.blockSize tokens)
  have hcells : cells addr₁ [] = [] := rfl
  rw [hcells, List.nil_append] at hrun
  rw [List.nil_append] at h₂
  refine ⟨{ c₂ with seqNodes := c₂.seqNodes.set s (cells addr₂ (blocks c.blockSize tokens)) },
    addr₂, ?_, ⟨⟨h₂.rep, h₂.below, h₂.exact, h₂.count⟩, ?_⟩, hsh.1.trans hbs⟩
  · have hge : ¬ (tokens.length : ℤ) < (c.blockSize : ℤ) := by exact_mod_cast hlen
    have hkeys : c₁.keysOf tokens tokens.length = blocks c.blockSize tokens := by
      rw [keysOf_eq, hbs]
    have hb₂ : c₂.blockSize = c.blockSize := hsh.1.trans hbs
    simp only [Tree.insert, if_neg hge, hev, hkeys, hrun, hb₂, bind, Except.bind, pure, Except.pure]
  · show (c₂.seqNodes.set s _).entries = _
    rw [hsh.2.2]
    exact register_set h₁.seqNodes (not_mem_evict claims s) h₁.rep hmono _

theorem Refines.match_eq (h : Refines c claims addr) (hpos : 1 ≤ c.blockSize)
    (tokens : List Token) :
    c.match_ tokens tokens.length =
      .ok ((matchIn c.blockSize claims tokens).nTokens, (matchIn c.blockSize claims tokens).seqId) := by
  obtain ⟨last, hd, ha⟩ := h.descend_root (blocks c.blockSize tokens)
  by_cases hlen : tokens.length < c.blockSize
  · have hnil := (blocks_eq_nil hpos tokens).mpr hlen
    have h0 : depth claims (blocks c.blockSize tokens) = 0 := by
      have := depth_le claims (blocks c.blockSize tokens)
      simpa [hnil] using this
    have hlt : (tokens.length : ℤ) < (c.blockSize : ℤ) := by exact_mod_cast hlen
    simp [Tree.match_, hlt, matchIn, h0, PrefixMatch.none, pure, Except.pure]
  · have hge : ¬ (tokens.length : ℤ) < (c.blockSize : ℤ) := by exact_mod_cast hlen
    by_cases h0 : depth claims (blocks c.blockSize tokens) = 0
    · rw [h0] at hd
      simp [Tree.match_, hge, keysOf_eq, hd, matchIn, h0, PrefixMatch.none, bind, Except.bind, pure,
        Except.pure]
    · obtain ⟨n, -, hr, hf⟩ := h.read ha
      have hne : (blocks c.blockSize tokens).take (depth claims (blocks c.blockSize tokens)) ≠ [] := by
        intro hnil
        have hl := congrArg List.length hnil
        have := depth_le claims (blocks c.blockSize tokens)
        simp only [List.length_take, List.length_nil] at hl
        omega
      simp [Tree.match_, hge, keysOf_eq, hd, matchIn, h0, hr, hf.owners hne,
        donor_eq_owners_getLast?, Nat.mul_comm, bind, Except.bind, pure, Except.pure]

end Insert

/-! ## The binding -/

def Fits (x : ℤ) : Prop := -2147483648 ≤ x ∧ x < 2147483648

def TokensFit (tokens : List Token) : Prop :=
  (tokens.length : ℤ) < 2147483648 ∧ ∀ t ∈ tokens, Fits t

/-- The tokens, lengths and sequence ids of an operation are `int32_t` values. -/
def OpFits : Op → Prop
  | .insert tokens s => TokensFit tokens ∧ Fits s
  | .evict s => Fits s
  | .match_ tokens => TokensFit tokens
  | .matchForReuse tokens => TokensFit tokens
  | .nodeCount => True
  | .seqCount => True

/-- Counts come back as `int32_t`. -/
def narrow : Answer → Answer
  | .count n => .count (int32 n)
  | a => a

theorem Fits.int32_eq {x : ℤ} (h : Fits x) : int32 x = x := int32_of_fits h.1 h.2

theorem TokensFit.buffer_eq {tokens : List Token} (h : TokensFit tokens) :
    buffer tokens = tokens :=
  (List.map_congr_left fun t ht => (h.2 t ht).int32_eq).trans (List.map_id' tokens)

theorem TokensFit.length_eq {tokens : List Token} (h : TokensFit tokens) :
    int32 tokens.length = tokens.length := int32_of_fits (by omega) h.1

/-- The handle holds the table, unless the block size is past `int32_t` and nothing ever enters. -/
structure Agrees (c : Cache) (t : Table) : Prop where
  handle : ∃ addr, Refines c.handle t addr
  pos : 1 ≤ c.blockSize
  size : c.handle.blockSize = c.blockSize ∨ t = [] ∧ 2147483648 ≤ c.blockSize

theorem init_agrees {blockSize : ℕ} (hb : 1 ≤ blockSize) {c : Cache} (h : init blockSize = some c) :
    Agrees c [] ∧ c.blockSize = blockSize := by
  obtain ⟨t, ht, rfl⟩ := Option.map_eq_some_iff.mp h
  obtain ⟨-, hsize, hr⟩ := create_refines ht
  refine ⟨⟨⟨_, hr⟩, hb, ?_⟩, rfl⟩
  by_cases hbig : 2147483648 ≤ blockSize
  · exact .inr ⟨rfl, hbig⟩
  · refine .inl ?_
    show t.blockSize = blockSize
    rw [hsize, int32_of_fits (by omega) (by omega), Int.toNat_natCast]

section Agree
variable {c : Cache} {t : Table}

theorem Agrees.size_of_long (h : Agrees c t) {tokens : List Token} (hf : TokensFit tokens)
    (hlen : ¬ tokens.length < c.blockSize) : c.handle.blockSize = c.blockSize := by
  rcases h.size with hs | ⟨-, hbig⟩
  · exact hs
  · have := hf.1
    omega

theorem Agrees.match_eq (h : Agrees c t) {tokens : List Token} (hf : TokensFit tokens) :
    c.match_ tokens = .ok (matchIn c.blockSize t tokens) := by
  by_cases hlen : tokens.length < c.blockSize
  · have hnil := (blocks_eq_nil h.pos tokens).mpr hlen
    have h0 : depth t (blocks c.blockSize tokens) = 0 := by
      have := depth_le t (blocks c.blockSize tokens)
      simpa [hnil] using this
    simp [Cache.match_, hlen, matchIn, h0, pure, Except.pure]
  · obtain ⟨addr, hr⟩ := h.handle
    have hs := h.size_of_long hf hlen
    have hm := hr.match_eq (hs ▸ h.pos) tokens
    rw [hs] at hm
    rw [Cache.match_, if_neg hlen, hf.buffer_eq, hf.length_eq, hm]
    show Except.ok _ = Except.ok _
    by_cases h0 : depth t (blocks c.blockSize tokens) = 0
    · simp [matchIn, h0, PrefixMatch.none]
    · have hpos : 0 < c.blockSize * depth t (blocks c.blockSize tokens) :=
        Nat.mul_pos h.pos (Nat.pos_of_ne_zero h0)
      simp [matchIn, h0, hpos]

theorem matchForReuse_ok {ε : Type} {blockSize : ℕ} {f : List Token → Except ε PrefixMatch}
    {g : List Token → PrefixMatch} {tokens : List Token} (h : f tokens = .ok (g tokens)) :
    matchForReuse blockSize f tokens =
      .ok (Id.run (matchForReuse blockSize (fun ts => pure (g ts)) tokens)) := by
  simp only [matchForReuse, h, bind, Except.bind, pure, Except.pure, Id.run]
  split_ifs <;> rfl

theorem Agrees.insert (std : StdSort) (h : Agrees c t) {tokens : List Token} {s : SeqId}
    (hf : TokensFit tokens) (hs : Fits s) :
    ∃ c', c.insert std tokens s = .ok (c', if tokens.length < c.blockSize then 0
        else (blocks c.blockSize tokens).length * c.blockSize) ∧
      c'.blockSize = c.blockSize ∧
      Agrees c' (if tokens.length < c.blockSize then t
        else publish t s (blocks c.blockSize tokens)) := by
  by_cases hlen : tokens.length < c.blockSize
  · simp only [if_pos hlen]
    exact ⟨c, by simp [Cache.insert, hlen, pure, Except.pure], rfl, h⟩
  · simp only [if_neg hlen]
    obtain ⟨addr, hr⟩ := h.handle
    have hsz := h.size_of_long hf hlen
    obtain ⟨t', addr', hrun, hr', hbs⟩ := hr.insert std tokens s (hsz ▸ hlen)
    rw [hsz] at hrun hr'
    refine ⟨{ c with handle := t' }, ?_, rfl, ⟨⟨addr', hr'⟩, h.pos, .inl (hbs.trans hsz)⟩⟩
    rw [Cache.insert, if_neg hlen, hf.buffer_eq, hf.length_eq, hs.int32_eq, hrun]
    rfl

theorem Agrees.evict (std : StdSort) (h : Agrees c t) {s : SeqId} (hs : Fits s) :
    ∃ c', c.evict std s = .ok c' ∧ c'.blockSize = c.blockSize ∧
      Agrees c' (PrefixClaims.evict t s) := by
  obtain ⟨addr, hr⟩ := h.handle
  obtain ⟨t', addr', hrun, hr', -, hbs⟩ := hr.evict std s
  refine ⟨{ c with handle := t' }, by simp [Cache.evict, hs.int32_eq, hrun, bind, Except.bind, pure,
    Except.pure], rfl, ⟨⟨addr', hr'⟩, h.pos, ?_⟩⟩
  rcases h.size with hsz | ⟨rfl, hbig⟩
  · exact .inl (hbs.trans hsz)
  · exact .inr ⟨rfl, hbig⟩

/-- One operation through the binding returns what the table answers, counts narrowed. -/
theorem Agrees.perform (std : StdSort) (h : Agrees c t) {op : Op} (hf : OpFits op) :
    ∃ c', c.perform std op = .ok (c', narrow (answer c.blockSize t op)) ∧
      c'.blockSize = c.blockSize ∧ Agrees c' (update c.blockSize t op) := by
  cases op with
  | insert tokens s =>
    obtain ⟨c', hrun, hb, h'⟩ := h.insert std hf.1 hf.2
    exact ⟨c', by simp only [Cache.perform, hrun, bind, Except.bind]; rfl, hb, h'⟩
  | evict s =>
    obtain ⟨c', hrun, hb, h'⟩ := h.evict std hf
    exact ⟨c', by simp only [Cache.perform, hrun, bind, Except.bind]; rfl, hb, h'⟩
  | match_ tokens =>
    exact ⟨c, by simp only [Cache.perform, h.match_eq hf, bind, Except.bind]; rfl, rfl, h⟩
  | matchForReuse tokens =>
    have hm := @matchForReuse_ok _ c.blockSize _ _ _ (h.match_eq hf)
    exact ⟨c, by simp only [Cache.perform, hm, bind, Except.bind]; rfl, rfl, h⟩
  | nodeCount =>
    obtain ⟨addr, hr⟩ := h.handle
    exact ⟨c, by simp only [Cache.perform, hr.count]; rfl, rfl, h⟩
  | seqCount =>
    obtain ⟨addr, hr⟩ := h.handle
    have hn : c.handle.seqNodes.size = t.length := by
      rw [Dict.size, hr.seqNodes, List.length_map]
    exact ⟨c, by simp only [Cache.perform, Tree.seqCount, hn]; rfl, rfl, h⟩

theorem Agrees.after (std : StdSort) (h : Agrees c t) {ops : List Op}
    (hf : ∀ op ∈ ops, OpFits op) :
    ∃ c', c.after std ops = .ok c' ∧ c'.blockSize = c.blockSize ∧
      Agrees c' (ops.foldl (update c.blockSize) t) := by
  induction ops generalizing c t with
  | nil => exact ⟨c, rfl, rfl, h⟩
  | cons op ops ih =>
    obtain ⟨c₁, hrun, hb, h₁⟩ := h.perform std (hf op List.mem_cons_self)
    obtain ⟨c₂, hrest, hb₂, h₂⟩ := ih h₁ fun o ho => hf o (List.mem_cons_of_mem _ ho)
    refine ⟨c₂, ?_, hb₂.trans hb, ?_⟩
    · simp only [Cache.after, hrun, bind, Except.bind]
      exact hrest
    · rw [List.foldl_cons, ← hb]
      exact hb ▸ h₂

theorem Agrees.answers (std : StdSort) (h : Agrees c t) {ops : List Op}
    (hf : ∀ op ∈ ops, OpFits op) :
    c.answers std ops = .ok ((PrefixCacheTable.answers c.blockSize t ops).map narrow) := by
  induction ops generalizing c t with
  | nil => rfl
  | cons op ops ih =>
    obtain ⟨c', hrun, hb, h'⟩ := h.perform std (hf op List.mem_cons_self)
    have hrest := ih h' fun o ho => hf o (List.mem_cons_of_mem _ ho)
    rw [hb] at hrest
    simp only [Cache.answers, hrun, hrest, bind, Except.bind]
    rfl

end Agree

end TinyServe.NativePrefixCache
