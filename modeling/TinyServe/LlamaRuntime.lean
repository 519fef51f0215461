import TinyServe.BatchBuilder
import TinyServe.SequenceMemory

set_option autoImplicit false

/-!
`LlamaRuntime` over llama.cpp's memory as a map from sequence and position to token. Logits are
not modelled: which token each row samples is an input of the decode.
-/
namespace TinyServe.LlamaRuntime
open OrderedDict SequenceMemory BatchBuilder

inductive Writer where
  | decode
  | copy (src : SeqId)
  deriving DecidableEq

abbrev KVMemory := Memory SeqId Token Writer

/-- `kv_cache_seq_rm(seq_id, -1, -1)`. -/
def freeSequence (m : KVMemory) (seqId : SeqId) : KVMemory := remove m seqId

/-- `reuse_prefix`; `llama_memory_seq_cp` is the copy. -/
def reusePrefix (m : KVMemory) (srcSeqId dstSeqId : SeqId) (nTokens : ℕ) : Bool × KVMemory :=
  if nTokens = 0 ∨ srcSeqId = dstSeqId then
    (false, m)
  else if posMax m srcSeqId < (nTokens : ℤ) - 1 then
    (false, m)
  else
    (true, copyBelow (.copy srcSeqId) m srcSeqId dstSeqId nTokens)

def cellsOf (rows : List BatchRow) : List ((SeqId × ℕ) × Token) :=
  rows.map fun row => ((row.seqId, row.pos), row.token)

/-- The memory after `llama_decode` returned zero. -/
def decode (m : KVMemory) (batch : PreparedBatch) : KVMemory :=
  writeAll .decode m (cellsOf batch.rows)

/-- The memory after a decode that failed: anything may be left for the sequences of its batch. -/
def decodeFailed (m : KVMemory) (batch : PreparedBatch) (left : List ((SeqId × ℕ) × Token)) :
    KVMemory :=
  writeAll .decode (batch.rows.foldl (fun m row => remove m row.seqId) m)
    (left.filter fun c => batch.rows.any fun row => row.seqId = c.1.1)

/-- The loop over the rows that need logits; `sample i` is `_sample_greedy(i)`. -/
def collect (sample : ℕ → Token) (rows : List (BatchRow × ℕ)) : Dict SeqId Token :=
  rows.foldl (fun d row =>
    if row.1.needsLogits then d.set row.1.seqId (sample row.2) else d) .empty

def sampled (sample : ℕ → Token) (batch : PreparedBatch) : Dict SeqId Token :=
  collect sample batch.rows.zipIdx

section Memory
variable {m : KVMemory} {s : SeqId}

theorem cellsOf_filter (rows : List BatchRow) (s : SeqId) :
    (cellsOf rows).filter (fun c => c.1.1 = s) =
      cellsOf (rows.filter fun row => row.seqId = s) := by
  rw [cellsOf, cellsOf, List.filter_map]
  rfl

theorem cellsOf_rowsOf (seq : ActiveSequence) (take : ℕ) :
    cellsOf (rowsOf seq take) =
      (seq.pendingTokens.take take).mapIdx fun i token => ((seq.seqId, seq.nPast + i), token) := by
  refine List.ext_getElem? fun i => ?_
  simp [cellsOf, rowsOf, Function.comp_def]

/-- A decode leaves a sequence longer by the tokens of its rows. -/
theorem decode_holds {batch : PreparedBatch} {seq : ActiveSequence} {take : ℕ}
    (hrows : batch.rows.filter (fun row => row.seqId = seq.seqId) = rowsOf seq take)
    {cells : List (Cell Token Writer)} (h : Holds m seq.seqId cells)
    (hlen : cells.length = seq.nPast) :
    Holds (decode m batch) seq.seqId
      (cells ++ (seq.pendingTokens.take take).map fun token => ⟨token, [.decode]⟩) := by
  have hfull := h.writeAll .decode (seq.pendingTokens.take take)
  rw [hlen, ← cellsOf_rowsOf] at hfull
  refine hfull.congr fun i => ?_
  rw [decode, writeAll_filter .decode m m seq.seqId (fun _ => rfl), cellsOf_filter, hrows]

theorem decode_absent {batch : PreparedBatch} (h : ∀ row ∈ batch.rows, row.seqId ≠ s) (i : ℕ) :
    (decode m batch).get? (s, i) = m.get? (s, i) := by
  refine writeAll_absent (fun c hc => ?_) i
  obtain ⟨row, hrow, rfl⟩ := List.mem_map.mp hc
  exact h row hrow

theorem removeRows_absent {rows : List BatchRow} (h : ∀ row ∈ rows, row.seqId ≠ s) (i : ℕ) :
    (rows.foldl (fun m row => remove m row.seqId) m).get? (s, i) = m.get? (s, i) := by
  induction rows generalizing m with
  | nil => rfl
  | cons row rows ih =>
    rw [List.foldl_cons, ih fun r hr => h r (List.mem_cons_of_mem _ hr), get?_remove,
      if_neg (h row List.mem_cons_self).symm]

theorem decodeFailed_absent {batch : PreparedBatch} {left : List ((SeqId × ℕ) × Token)}
    (h : ∀ row ∈ batch.rows, row.seqId ≠ s) (i : ℕ) :
    (decodeFailed m batch left).get? (s, i) = m.get? (s, i) := by
  rw [decodeFailed, writeAll_absent, removeRows_absent h]
  intro c hc he
  obtain ⟨row, hrow, hs⟩ := List.any_eq_true.mp (List.mem_filter.mp hc).2
  exact h row hrow (by simpa [he] using hs)

theorem reusePrefix_other {src dst : SeqId} (h : s ≠ dst) (n i : ℕ) :
    (reusePrefix m src dst n).2.get? (s, i) = m.get? (s, i) := by
  rw [reusePrefix]
  split_ifs
  · rfl
  · rfl
  · exact copyBelow_of_ne h n i

/-- A granted reuse copies the donor's first cells onto an empty sequence; a refused one copies
nothing. -/
theorem reusePrefix_holds {src dst : SeqId} {cells : List (Cell Token Writer)}
    (hsrc : Holds m src cells) (hdst : Holds m dst []) (n : ℕ) :
    if (reusePrefix m src dst n).1 then
      n ≤ cells.length ∧
        Holds (reusePrefix m src dst n).2 dst
          ((cells.take n).map fun c => ⟨c.value, [.copy src]⟩)
    else
      (reusePrefix m src dst n).2 = m := by
  by_cases h : n = 0 ∨ src = dst
  · simp [reusePrefix, h]
  · by_cases hpos : posMax m src < (n : ℤ) - 1
    · simp [reusePrefix, h, hpos]
    · have hn : n ≤ cells.length := by
        rw [hsrc.posMax_eq] at hpos
        omega
      rw [reusePrefix, if_neg h, if_neg hpos]
      exact ⟨hn, hsrc.copyBelow hdst _ hn⟩

end Memory

section Sampled
variable {sample : ℕ → Token} {s : SeqId}

theorem collect_concat (rows : List (BatchRow × ℕ)) (row : BatchRow × ℕ) :
    collect sample (rows ++ [row]) =
      if row.1.needsLogits then (collect sample rows).set row.1.seqId (sample row.2)
      else collect sample rows := by
  rw [collect, List.foldl_append]
  rfl

theorem collect_some {rows : List (BatchRow × ℕ)} {token : Token}
    (h : (collect sample rows).get? s = some token) :
    ∃ row ∈ rows, row.1.needsLogits ∧ row.1.seqId = s ∧ token = sample row.2 := by
  induction rows using List.reverseRecOn with
  | nil => simp [collect] at h
  | append_singleton rows row ih =>
    rw [collect_concat] at h
    split_ifs at h with hl
    · rw [Dict.get?_set] at h
      split_ifs at h with hs
      · exact ⟨row, by simp, hl, hs, (Option.some.inj h).symm⟩
      · obtain ⟨r, hr, hrest⟩ := ih h
        exact ⟨r, List.mem_append_left _ hr, hrest⟩
    · obtain ⟨r, hr, hrest⟩ := ih h
      exact ⟨r, List.mem_append_left _ hr, hrest⟩

theorem collect_mem {rows : List (BatchRow × ℕ)} {row : BatchRow × ℕ} (h : row ∈ rows)
    (hl : row.1.needsLogits) : row.1.seqId ∈ (collect sample rows).keys := by
  induction rows using List.reverseRecOn with
  | nil => simp at h
  | append_singleton rows last ih =>
    rw [collect_concat]
    rcases List.mem_append.mp h with hm | hm
    · split_ifs with hlast
      · exact Dict.mem_keys_set.mpr (.inr (ih hm))
      · exact ih hm
    · obtain rfl := List.mem_singleton.mp hm
      rw [if_pos hl]
      exact Dict.mem_keys_set.mpr (.inl rfl)

/-- A sampled token comes from a row of its sequence that needed logits. -/
theorem sampled_some {batch : PreparedBatch} {token : Token}
    (h : (sampled sample batch).get? s = some token) :
    ∃ i row, batch.rows[i]? = some row ∧ row.needsLogits ∧ row.seqId = s ∧ token = sample i := by
  obtain ⟨⟨row, i⟩, hr, hl, hs, ht⟩ := collect_some h
  exact ⟨i, row, List.mem_zipIdx_iff_getElem?.mp hr, hl, hs, ht⟩

theorem sampled_mem {batch : PreparedBatch} {row : BatchRow} (h : row ∈ batch.rows)
    (hl : row.needsLogits) : row.seqId ∈ (sampled sample batch).keys := by
  obtain ⟨i, hi⟩ := List.mem_iff_getElem?.mp h
  have hm : (row, i) ∈ batch.rows.zipIdx := List.mem_zipIdx_iff_getElem?.mpr hi
  exact collect_mem hm hl

end Sampled

end TinyServe.LlamaRuntime
