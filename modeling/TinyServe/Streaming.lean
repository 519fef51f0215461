import TinyServe.OrderedDict
import TinyServe.Vocabulary

set_option autoImplicit false

/-! `StreamManager`: one output queue and one incremental decoder for each request. -/
namespace TinyServe.Streaming
open OrderedDict

abbrev Bytes := List UInt8

/-- The text an incremental decoder returns for the last of the `decode` calls made on it. -/
abbrev IncrementalDecoder := List (Bytes × Bool) → String

inductive Item where
  | text (s : String)
  | endOfStream
  deriving DecidableEq

/-- `_Stream`, with the calls its decoder has seen. -/
structure Stream where
  queue : List Item
  decoded : List (Bytes × Bool)
  cancelled : Bool

structure StreamManager where
  streams : Dict RequestId Stream

namespace StreamManager

def init : StreamManager := ⟨.empty⟩

def put (m : StreamManager) (id : RequestId) (stream : Stream) : StreamManager :=
  ⟨m.streams.set id stream⟩

def create (m : StreamManager) (id : RequestId) : StreamManager := m.put id ⟨[], [], false⟩

/-- What a piece of decoded text adds to the queue. -/
def pieces (text : String) : List Item := if text = "" then [] else [.text text]

/-- `push_token`, and the items it enqueues. -/
def pushToken (decoder : IncrementalDecoder) (m : StreamManager) (id : RequestId)
    (tokenBytes : Bytes) : StreamManager × List Item :=
  match m.streams.get? id with
  | none => (m, [])
  | some stream =>
    let decoded := stream.decoded ++ [(tokenBytes, false)]
    let items := pieces (decoder decoded)
    (m.put id { stream with queue := stream.queue ++ items, decoded }, items)

/-- `close`, and the items it enqueues. -/
def close (decoder : IncrementalDecoder) (m : StreamManager) (id : RequestId) :
    StreamManager × List Item :=
  match m.streams.get? id with
  | none => (m, [])
  | some stream =>
    let decoded := stream.decoded ++ [([], true)]
    let items := pieces (decoder decoded) ++ [.endOfStream]
    (m.put id { stream with queue := stream.queue ++ items, decoded }, items)

def cancel (m : StreamManager) (id : RequestId) : StreamManager :=
  match m.streams.get? id with
  | none => m
  | some stream => m.put id { stream with cancelled := true }

def isCancelled (m : StreamManager) (id : RequestId) : Bool :=
  ((m.streams.get? id).map Stream.cancelled).getD true

/-- The `finally` of `subscribe`. -/
def leave (m : StreamManager) (id : RequestId) : StreamManager := ⟨m.streams.erase id⟩

/-- What is on the queue of a request, if its entry is there. -/
def queued (m : StreamManager) (id : RequestId) : Option (List Item) :=
  (m.streams.get? id).map Stream.queue

/-- One turn of `subscribe`: the item taken, if one is there; the end marker makes it leave. -/
def receive (m : StreamManager) (id : RequestId) : Option (Item × StreamManager) :=
  match m.streams.get? id with
  | some ⟨item :: queue, decoded, cancelled⟩ =>
    some (item, if item = .endOfStream then m.leave id else m.put id ⟨queue, decoded, cancelled⟩)
  | _ => none

end StreamManager

open StreamManager

theorem pieces_text {text : String} {item : Item} (h : item ∈ pieces text) :
    item ≠ .endOfStream := by
  rw [pieces] at h
  split_ifs at h with ht
  · simp at h
  · rw [List.mem_singleton.mp h]
    simp

section Entries
variable {decoder : IncrementalDecoder} {m : StreamManager} {id : RequestId}

theorem pushToken_text {bytes : Bytes} {item : Item}
    (h : item ∈ (m.pushToken decoder id bytes).2) : item ≠ .endOfStream := by
  unfold pushToken at h
  split at h
  · simp at h
  · exact pieces_text h

theorem close_items (decoder : IncrementalDecoder) (m : StreamManager) (id : RequestId) :
    if m.streams.contains id then
      ∃ texts, (m.close decoder id).2 = texts ++ [.endOfStream] ∧ .endOfStream ∉ texts
    else (m.close decoder id).2 = [] := by
  unfold close
  cases h : m.streams.get? id with
  | none => simp [Dict.contains, h]
  | some stream =>
    simp only [Dict.contains, h, Option.isSome_some, ↓reduceIte]
    exact ⟨_, rfl, fun hm => pieces_text hm rfl⟩

theorem contains_put (stream : Stream) (j : RequestId) :
    (m.put id stream).streams.contains j = (id = j || m.streams.contains j) := by
  by_cases h : id = j
  · simp [StreamManager.put, Dict.contains, h]
  · simp [StreamManager.put, Dict.contains, h]

theorem contains_put_of_some {stream stream' : Stream} (h : m.streams.get? id = some stream)
    (j : RequestId) : (m.put id stream').streams.contains j = m.streams.contains j := by
  rw [contains_put]
  by_cases hj : id = j
  · subst hj
    simp [Dict.contains, h]
  · simp [hj]

theorem contains_pushToken (bytes : Bytes) (j : RequestId) :
    (m.pushToken decoder id bytes).1.streams.contains j = m.streams.contains j := by
  unfold pushToken
  split
  · rfl
  · rename_i h
    exact contains_put_of_some h j

theorem contains_close (j : RequestId) :
    (m.close decoder id).1.streams.contains j = m.streams.contains j := by
  unfold close
  split
  · rfl
  · rename_i h
    exact contains_put_of_some h j

theorem contains_cancel (j : RequestId) :
    (m.cancel id).streams.contains j = m.streams.contains j := by
  unfold cancel
  split
  · rfl
  · rename_i h
    exact contains_put_of_some h j

theorem contains_leave (j : RequestId) :
    (m.leave id).streams.contains j = true ↔ j ≠ id ∧ m.streams.contains j = true := by
  rw [Dict.contains_iff, Dict.contains_iff]
  exact Dict.mem_keys_erase

/-- Only the end marker takes the entry away. -/
theorem contains_receive {item : Item} {m' : StreamManager}
    (h : m.receive id = some (item, m')) (j : RequestId) :
    m.streams.contains id = true ∧ (m'.streams.contains j = true ↔
      m.streams.contains j = true ∧ ¬ (item = .endOfStream ∧ j = id)) := by
  unfold receive at h
  split at h
  · rename_i next rest decoded cancelled hstream
    obtain ⟨rfl, rfl⟩ := Prod.mk.inj (Option.some.inj h)
    refine ⟨by simp [Dict.contains, hstream], ?_⟩
    split_ifs with hend
    · rw [contains_leave]
      simp [hend, and_comm]
    · rw [contains_put_of_some hstream]
      simp [hend]
  · simp at h

end Entries

section Queues
variable {decoder : IncrementalDecoder} {m : StreamManager} {id : RequestId}

theorem queued_put (stream : Stream) (j : RequestId) :
    (m.put id stream).queued j = if id = j then some stream.queue else m.queued j := by
  rw [queued, StreamManager.put, Dict.get?_set]
  split_ifs <;> rfl

theorem queued_extended {stream stream' : Stream} {items : List Item}
    (h : m.streams.get? id = some stream) (hq : stream'.queue = stream.queue ++ items)
    (j : RequestId) : (m.put id stream').queued j =
      (m.queued j).map (· ++ if id = j then items else []) := by
  rw [queued_put]
  split_ifs with hj
  · rw [← hj, queued, h, hq]
    rfl
  · simp

theorem queued_create (j : RequestId) :
    (m.create id).queued j = if id = j then some [] else m.queued j := queued_put _ j

/-- What `push_token` enqueues ends up on the queue of its request. -/
theorem queued_pushToken (bytes : Bytes) (j : RequestId) :
    (m.pushToken decoder id bytes).1.queued j =
      (m.queued j).map (· ++ if id = j then (m.pushToken decoder id bytes).2 else []) := by
  unfold pushToken
  split
  · simp
  · rename_i h
    exact queued_extended h (by rfl) j

/-- What `close` enqueues ends up on the queue of its request. -/
theorem queued_close (j : RequestId) : (m.close decoder id).1.queued j =
    (m.queued j).map (· ++ if id = j then (m.close decoder id).2 else []) := by
  unfold close
  split
  · simp
  · rename_i h
    exact queued_extended h (by rfl) j

theorem queued_cancel (j : RequestId) : (m.cancel id).queued j = m.queued j := by
  unfold cancel
  split
  · rfl
  · rename_i stream h
    rw [queued_put]
    split_ifs with hj
    · rw [← hj, queued, h]
      rfl
    · rfl

theorem queued_leave (j : RequestId) :
    (m.leave id).queued j = if id = j then none else m.queued j := by
  rw [queued, leave, Dict.get?_erase]
  split_ifs <;> rfl

/-- An item is taken from the front of the queue, and with the end marker the queue is gone. -/
theorem queued_receive {item : Item} {m' : StreamManager} (h : m.receive id = some (item, m')) :
    ∃ rest, m.queued id = some (item :: rest) ∧ ∀ j, m'.queued j =
      if id = j then (if item = .endOfStream then none else some rest) else m.queued j := by
  unfold receive at h
  split at h
  · rename_i next rest decoded cancelled hstream
    obtain ⟨rfl, rfl⟩ := Prod.mk.inj (Option.some.inj h)
    refine ⟨rest, by rw [queued, hstream]; rfl, fun j => ?_⟩
    by_cases hend : next = .endOfStream
    · rw [if_pos hend, if_pos hend, queued_leave]
    · rw [if_neg hend, if_neg hend, queued_put]
  · simp at h

end Queues

section Cancelled
variable {decoder : IncrementalDecoder} {m : StreamManager} {id : RequestId}

theorem isCancelled_put (stream : Stream) (j : RequestId) :
    (m.put id stream).isCancelled j = if id = j then stream.cancelled else m.isCancelled j := by
  simp only [isCancelled, StreamManager.put, Dict.get?_set]
  split_ifs <;> rfl

theorem isCancelled_put_of_some {stream stream' : Stream} (h : m.streams.get? id = some stream)
    (hc : stream'.cancelled = stream.cancelled) (j : RequestId) :
    (m.put id stream').isCancelled j = m.isCancelled j := by
  rw [isCancelled_put]
  split_ifs with hj
  · rw [← hj, isCancelled, h, hc]
    rfl
  · rfl

theorem isCancelled_pushToken (bytes : Bytes) (j : RequestId) :
    (m.pushToken decoder id bytes).1.isCancelled j = m.isCancelled j := by
  unfold pushToken
  split
  · rfl
  · rename_i h
    exact isCancelled_put_of_some h (by rfl) j

theorem isCancelled_close (j : RequestId) :
    (m.close decoder id).1.isCancelled j = m.isCancelled j := by
  unfold close
  split
  · rfl
  · rename_i h
    exact isCancelled_put_of_some h (by rfl) j

theorem isCancelled_create {j : RequestId} (hj : id ≠ j) :
    (m.create id).isCancelled j = m.isCancelled j := by
  rw [StreamManager.create, isCancelled_put, if_neg hj]

theorem isCancelled_cancel {j : RequestId} (h : m.isCancelled j = true) :
    (m.cancel id).isCancelled j = true := by
  unfold cancel
  split
  · exact h
  · rw [isCancelled_put, h, ite_self]

theorem isCancelled_leave {j : RequestId} (h : m.isCancelled j = true) :
    (m.leave id).isCancelled j = true := by
  rw [isCancelled, leave, Dict.get?_erase]
  split_ifs
  · rfl
  · exact h

theorem isCancelled_receive {item : Item} {m' : StreamManager}
    (hr : m.receive id = some (item, m')) {j : RequestId} (h : m.isCancelled j = true) :
    m'.isCancelled j = true := by
  unfold receive at hr
  split at hr
  · rename_i next rest decoded cancelled hstream
    obtain ⟨-, rfl⟩ := Prod.mk.inj (Option.some.inj hr)
    split_ifs
    · exact isCancelled_leave h
    · exact (isCancelled_put_of_some hstream (by rfl) j).trans h
  · simp at hr

end Cancelled

end TinyServe.Streaming
