import TinyServe.OrderedDict
import TinyServe.Vocabulary
import Mathlib.Algebra.BigOperators.Group.List.Basic
import Mathlib.Algebra.Ring.Nat

set_option autoImplicit false

/-! The block accounting of `kv_cache/manager.py` and the admission controller in front of it. -/
namespace TinyServe.Admission
open OrderedDict

/-- Blocks change hands between the pool and the table, and their number never changes. -/
structure KVCacheManager where
  blockSize : ℕ
  blockSize_pos : 1 ≤ blockSize
  totalBlocks : ℕ
  freeBlocks : ℕ
  blockTable : Dict RequestId ℕ
  conserved : freeBlocks + blockTable.values.sum = totalBlocks

namespace KVCacheManager

def init (totalTokens blockSize : ℕ) (h : 1 ≤ blockSize) : KVCacheManager :=
  ⟨blockSize, h, totalTokens / blockSize, totalTokens / blockSize, .empty, by simp⟩

/-- `math.ceil(n_tokens / self._block_size)`, as if the quotient were exact. -/
def blocksNeeded (m : KVCacheManager) (nTokens : ℕ) : ℕ :=
  (nTokens + m.blockSize - 1) / m.blockSize

/-- `reserve`: an id that already holds a reservation raises. -/
def reserve (m : KVCacheManager) (id : RequestId) (nTokens : ℕ) :
    Except PyError (Bool × KVCacheManager) :=
  if h : m.blockTable.get? id = none then
    if hroom : m.freeBlocks < m.blocksNeeded nTokens then
      .ok (false, m)
    else
      .ok (true, { m with
        freeBlocks := m.freeBlocks - m.blocksNeeded nTokens
        blockTable := m.blockTable.set id (m.blocksNeeded nTokens)
        conserved := by
          rw [Dict.values_set_of_fresh h, List.sum_append, List.sum_singleton]
          have := m.conserved
          omega })
  else
    .error .valueError

/-- The entry popped, if there was one, and the manager without it. -/
def release (m : KVCacheManager) (id : RequestId) : Option ℕ × KVCacheManager :=
  match h : m.blockTable.get? id with
  | none => (none, m)
  | some blocks => (some blocks, { m with
      freeBlocks := m.freeBlocks + blocks
      blockTable := m.blockTable.erase id
      conserved := by
        have hsum := (Dict.values_perm_erase h).sum_eq
        rw [List.sum_cons] at hsum
        have := m.conserved
        omega })

theorem reserve_true {m m' : KVCacheManager} {id : RequestId} {nTokens : ℕ}
    (h : m.reserve id nTokens = .ok (true, m')) :
    m.blockTable.get? id = none ∧ m'.blockTable = m.blockTable.set id (m.blocksNeeded nTokens) ∧
      m'.blockSize = m.blockSize ∧ m'.totalBlocks = m.totalBlocks := by
  rw [reserve] at h
  split_ifs at h with hfresh hroom
  · simp at h
  · obtain rfl := (Prod.mk.inj (Except.ok.inj h)).2
    exact ⟨hfresh, rfl, rfl, rfl⟩

theorem reserve_false {m m' : KVCacheManager} {id : RequestId} {nTokens : ℕ}
    (h : m.reserve id nTokens = .ok (false, m')) : m' = m := by
  rw [reserve] at h
  split_ifs at h with hfresh hroom
  · exact (Prod.mk.inj (Except.ok.inj h)).2.symm
  · simp at h

theorem reserve_fresh {m : KVCacheManager} {id : RequestId} {nTokens : ℕ}
    (h : m.blockTable.get? id = none) : ∃ r, m.reserve id nTokens = .ok r := by
  rw [reserve, dif_pos h]
  split_ifs
  · exact ⟨_, rfl⟩
  · exact ⟨_, rfl⟩

theorem release_some {m : KVCacheManager} {id : RequestId} {blocks : ℕ}
    (h : m.blockTable.get? id = some blocks) :
    (m.release id).1 = some blocks ∧ (m.release id).2.blockTable = m.blockTable.erase id ∧
      (m.release id).2.blockSize = m.blockSize ∧
      (m.release id).2.totalBlocks = m.totalBlocks := by
  unfold release
  split
  · simp_all
  · rename_i b hb
    rw [hb] at h
    exact ⟨h, rfl, rfl, rfl⟩

end KVCacheManager

inductive Rejection where
  | queueFull
  | kvCacheFull
  deriving DecidableEq

inductive AdmissionResult where
  | accepted
  | rejected (reason : Rejection)
  deriving DecidableEq

/-- `AdmissionController.admit`, over the manager it shares with the batch loop. -/
def admit_ (kvCache : KVCacheManager) (maxQueueDepth : ℕ) (id : RequestId)
    (promptTokens maxTokens queueDepth : ℕ) : Except PyError (AdmissionResult × KVCacheManager) :=
  if maxQueueDepth ≤ queueDepth then
    .ok (.rejected .queueFull, kvCache)
  else
    match kvCache.reserve id (promptTokens + maxTokens) with
    | .error e => .error e
    | .ok (true, kvCache) => .ok (.accepted, kvCache)
    | .ok (false, kvCache) => .ok (.rejected .kvCacheFull, kvCache)

theorem admit_accepted {kv kv' : KVCacheManager} {depth id p m q : ℕ}
    (h : admit_ kv depth id p m q = .ok (.accepted, kv')) :
    q < depth ∧ kv.reserve id (p + m) = .ok (true, kv') := by
  rw [admit_] at h
  split_ifs at h with hq
  · simp at h
  · refine ⟨Nat.lt_of_not_le hq, ?_⟩
    split at h
    · simp at h
    · rename_i heq
      rw [heq, (Prod.mk.inj (Except.ok.inj h)).2]
    · simp at h

theorem admit_rejected {kv kv' : KVCacheManager} {depth id p m q : ℕ} {reason : Rejection}
    (h : admit_ kv depth id p m q = .ok (.rejected reason, kv')) : kv' = kv := by
  rw [admit_] at h
  split_ifs at h with hq
  · exact (Prod.mk.inj (Except.ok.inj h)).2.symm
  · split at h
    · simp at h
    · simp at h
    · rename_i heq
      rw [← (Prod.mk.inj (Except.ok.inj h)).2, KVCacheManager.reserve_false heq]

theorem admit_fresh {kv : KVCacheManager} {depth id p m q : ℕ} (h : kv.blockTable.get? id = none) :
    ∃ r, admit_ kv depth id p m q = .ok r := by
  obtain ⟨⟨b, kv'⟩, hr⟩ :
      ∃ r, kv.reserve id (p + m) = .ok r := KVCacheManager.reserve_fresh h
  rw [admit_]
  split_ifs with hq
  · exact ⟨_, rfl⟩
  · cases b with
    | true => exact ⟨_, by rw [hr]⟩
    | false => exact ⟨_, by rw [hr]⟩

end TinyServe.Admission
