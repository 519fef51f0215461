import TinyServe.Runs
import TinyServe.Streaming
import TinyServe.Utf8Stream
import Mathlib.Data.List.Induction

set_option autoImplicit false

/-!
What the subscriber of a stream is given, whatever else goes on at the manager. The subscriber
holds the queue it was given at first, which is that of the entry while an id is created once.
-/
namespace TinyServe.Streaming
open OrderedDict Runs StreamManager

/-- A call on the manager, or a turn of a subscriber: it takes an item, or it is closed early. -/
inductive Label where
  | create (id : RequestId)
  | push (id : RequestId) (bytes : Bytes)
  | close (id : RequestId)
  | cancel (id : RequestId)
  | receive (id : RequestId) (item : Item)
  | leave (id : RequestId)
  deriving DecidableEq

def Label.id : Label → RequestId
  | create id | push id _ | close id | cancel id | receive id _ | leave id => id

def step (decoder : IncrementalDecoder) (m : StreamManager) : Label → Option StreamManager
  | .create id => some (m.create id)
  | .push id bytes => some (m.pushToken decoder id bytes).1
  | .close id => some (m.close decoder id).1
  | .cancel id => some (m.cancel id)
  | .receive id item => (m.receive id).bind fun r => if r.1 = item then some r.2 else none
  | .leave id => some (m.leave id)

/-- The tokens pushed to `r`, in order. -/
def pushed (r : RequestId) (ls : List Label) : List Bytes :=
  ls.filterMap fun
    | .push id bytes => if id = r then some bytes else none
    | _ => none

/-- The items the subscriber of `r` has taken, in order. -/
def received (r : RequestId) (ls : List Label) : List Item :=
  ls.filterMap fun
    | .receive id item => if id = r then some item else none
    | _ => none

/-- After its creation `r` is not created again, closed once at most, and not pushed to after. -/
structure UsedOnce (r : RequestId) (ls : List Label) : Prop where
  created : .create r ∉ ls
  closed : ∀ before after, ls = before ++ .close r :: after →
    .close r ∉ after ∧ ∀ bytes, .push r bytes ∉ after

/-- What the decoder returns call by call. -/
def outputs (decoder : IncrementalDecoder) (calls : List (Bytes × Bool)) : List String :=
  (List.range calls.length).map fun k => decoder (calls.take (k + 1))

/-- However the bytes are cut, the pieces up to a final empty call are the text of the whole. -/
def DecodesWhole (decoder : IncrementalDecoder) (oneShot : Bytes → String) : Prop :=
  ∀ tokens : List Bytes,
    String.join (outputs decoder (tokens.map (·, false) ++ [([], true)])) = oneShot tokens.flatten

section Items
variable {decoder : IncrementalDecoder} {r : RequestId}

theorem outputs_concat (decoder : IncrementalDecoder) (calls : List (Bytes × Bool))
    (call : Bytes × Bool) :
    outputs decoder (calls ++ [call]) = outputs decoder calls ++ [decoder (calls ++ [call])] := by
  have hlast : (calls ++ [call]).take (calls.length + 1) = calls ++ [call] :=
    List.take_of_length_le (by simp)
  have hinit : (List.range calls.length).map (fun k => decoder ((calls ++ [call]).take (k + 1))) =
      outputs decoder calls := by
    refine List.map_congr_left fun k hk => ?_
    rw [List.take_append_of_le_length (Nat.succ_le_of_lt (List.mem_range.mp hk))]
  rw [outputs, List.length_append, List.length_singleton, List.range_succ, List.map_append, hinit,
    List.map_singleton, hlast]

/-- The items of a list of texts: one for each that is not empty. -/
def itemsOf (texts : List String) : List Item := texts.flatMap pieces

theorem itemsOf_outputs (decoder : IncrementalDecoder) (calls : List (Bytes × Bool))
    (call : Bytes × Bool) : itemsOf (outputs decoder (calls ++ [call])) =
      itemsOf (outputs decoder calls) ++ pieces (decoder (calls ++ [call])) := by
  rw [itemsOf, outputs_concat, List.flatMap_append, List.flatMap_singleton]
  rfl

/-- Leaving the empty texts out does not change what the others spell. -/
theorem itemsOf_eq (texts : List String) : ∃ kept : List String,
    itemsOf texts = kept.map .text ∧ (∀ t ∈ kept, t ≠ "") ∧
      String.join kept = String.join texts := by
  refine ⟨texts.filter (· ≠ ""), ?_, fun t ht => by simpa using (List.mem_filter.mp ht).2, ?_⟩
  · induction texts with
    | nil => rfl
    | cons t texts ih =>
      rw [itemsOf, List.flatMap_cons, ← itemsOf, ih, pieces]
      by_cases h : t = "" <;> simp [h]
  · induction texts with
    | nil => rfl
    | cons t texts ih =>
      by_cases h : t = ""
      · subst h
        simpa using ih
      · rw [List.filter_cons_of_pos (by simpa using h), String.join_cons, String.join_cons, ih]

theorem end_not_mem_itemsOf (texts : List String) : Item.endOfStream ∉ itemsOf texts := by
  intro h
  obtain ⟨text, -, hitem⟩ := List.mem_flatMap.mp h
  exact pieces_text hitem rfl

end Items

section Serving
variable {decoder : IncrementalDecoder} {r : RequestId} {ls : List Label} {l : Label}
  {m m' : StreamManager}

/-- The calls that the decoder of `r` has seen. -/
def callsOf (r : RequestId) (ls : List Label) : List (Bytes × Bool) :=
  (pushed r ls).map (·, false) ++ if .close r ∈ ls then [([], true)] else []

/-- The items that have been put into the queue of `r`. -/
def sent (decoder : IncrementalDecoder) (r : RequestId) (ls : List Label) : List Item :=
  itemsOf (outputs decoder (callsOf r ls)) ++ if .close r ∈ ls then [.endOfStream] else []

/-- The three things that can have become of `r` since its creation. -/
inductive Served (decoder : IncrementalDecoder) (r : RequestId) (ls : List Label)
    (m : StreamManager) : Prop where
  /-- What has been sent is either taken or queued. -/
  | live (stream : Stream) (entry : m.streams.get? r = some stream)
      (decoded : stream.decoded = callsOf r ls)
      (queued : received r ls ++ stream.queue = sent decoder r ls)
      (more : .endOfStream ∉ received r ls) (stays : .leave r ∉ ls)
  /-- The subscriber has taken everything, the end marker included. -/
  | ended (entry : m.streams.get? r = none) (closed : .close r ∈ ls)
      (all : received r ls = sent decoder r ls)
  | left (entry : m.streams.get? r = none) (leaves : .leave r ∈ ls)
      (more : .endOfStream ∉ received r ls)

theorem pushed_append (r : RequestId) (ls more : List Label) :
    pushed r (ls ++ more) = pushed r ls ++ pushed r more := List.filterMap_append

theorem received_append (r : RequestId) (ls more : List Label) :
    received r (ls ++ more) = received r ls ++ received r more := List.filterMap_append

theorem step_other (h : step decoder m l = some m') (hl : l.id ≠ r) :
    m'.streams.get? r = m.streams.get? r := by
  have hput : ∀ stream, (m.put l.id stream).streams.get? r = m.streams.get? r := fun stream => by
    rw [StreamManager.put, Dict.get?_set, if_neg hl]
  have hleave : (m.leave l.id).streams.get? r = m.streams.get? r := by
    rw [StreamManager.leave, Dict.get?_erase, if_neg hl]
  cases l with
  | create id =>
    obtain rfl := Option.some.inj h
    exact hput _
  | push id bytes =>
    obtain rfl := Option.some.inj h
    unfold pushToken
    split
    · rfl
    · exact hput _
  | close id =>
    obtain rfl := Option.some.inj h
    unfold StreamManager.close
    split
    · rfl
    · exact hput _
  | cancel id =>
    obtain rfl := Option.some.inj h
    unfold StreamManager.cancel
    split
    · rfl
    · exact hput _
  | receive id item =>
    obtain ⟨⟨next, m₁⟩, hr, hnext⟩ := Option.bind_eq_some_iff.mp h
    split_ifs at hnext
    obtain rfl := Option.some.inj hnext
    unfold StreamManager.receive at hr
    split at hr
    · obtain ⟨-, rfl⟩ := Prod.mk.inj (Option.some.inj hr)
      split_ifs
      · exact hleave
      · exact hput _
    · simp at hr
  | leave id =>
    obtain rfl := Option.some.inj h
    exact hleave

theorem received_same (h : received r [l] = []) : received r (ls ++ [l]) = received r ls := by
  rw [received_append, h, List.append_nil]

/-- Nothing is sent but by a push or a close of `r`. -/
theorem sent_same (hp : pushed r [l] = []) (hc : l ≠ .close r) :
    callsOf r (ls ++ [l]) = callsOf r ls ∧ sent decoder r (ls ++ [l]) = sent decoder r ls := by
  have hclose : .close r ∈ ls ++ [l] ↔ .close r ∈ ls := by simp [hc.symm]
  have hcalls : callsOf r (ls ++ [l]) = callsOf r ls := by
    simp only [callsOf, pushed_append, hp, List.append_nil, hclose]
  exact ⟨hcalls, by simp only [sent, hcalls, hclose]⟩

theorem Served.other (h : Served decoder r ls m) (hl : l.id ≠ r)
    (hm : m'.streams.get? r = m.streams.get? r) : Served decoder r (ls ++ [l]) m' := by
  have hreceived : received r (ls ++ [l]) = received r ls :=
    received_same (by cases l <;> simp_all [Label.id, received])
  obtain ⟨hcalls, hsent⟩ := @sent_same decoder r ls l (by cases l <;> simp_all [Label.id, pushed])
    (by rintro rfl; exact hl rfl)
  cases h with
  | live stream entry decoded queued more stays =>
    refine .live stream (hm.trans entry) (by rw [hcalls, decoded])
      (by rw [hreceived, hsent, queued]) (by rwa [hreceived]) ?_
    rw [List.mem_append, List.mem_singleton, not_or]
    exact ⟨stays, by rintro rfl; exact hl rfl⟩
  | ended entry closed all =>
    exact .ended (hm.trans entry) (List.mem_append_left _ closed) (by rw [hreceived, hsent, all])
  | left entry leaves more =>
    exact .left (hm.trans entry) (List.mem_append_left _ leaves) (by rwa [hreceived])

theorem callsOf_push (hc : .close r ∉ ls) (bytes : Bytes) :
    callsOf r (ls ++ [.push r bytes]) = callsOf r ls ++ [(bytes, false)] := by
  have hone : pushed r [.push r bytes] = [bytes] := by simp [pushed]
  rw [callsOf, callsOf, pushed_append, hone, if_neg hc, if_neg (by simpa using hc),
    List.map_append, List.append_nil, List.append_nil, List.map_singleton]

theorem callsOf_close (hc : .close r ∉ ls) :
    callsOf r (ls ++ [.close r]) = callsOf r ls ++ [([], true)] := by
  have hnone : pushed r [.close r] = [] := rfl
  rw [callsOf, callsOf, pushed_append, hnone, if_neg hc, if_pos (by simp), List.append_nil,
    List.append_nil]

theorem sent_push (hc : .close r ∉ ls) (bytes : Bytes) :
    sent decoder r (ls ++ [.push r bytes]) =
      sent decoder r ls ++ pieces (decoder (callsOf r ls ++ [(bytes, false)])) := by
  rw [sent, sent, callsOf_push hc, itemsOf_outputs, if_neg hc, if_neg (by simpa using hc),
    List.append_nil, List.append_nil]

theorem sent_close (hc : .close r ∉ ls) :
    sent decoder r (ls ++ [.close r]) =
      sent decoder r ls ++ (pieces (decoder (callsOf r ls ++ [([], true)])) ++ [.endOfStream]) := by
  rw [sent, sent, callsOf_close hc, itemsOf_outputs, if_neg hc, if_pos (by simp), List.append_nil,
    List.append_assoc]

theorem Served.push (h : Served decoder r ls m) (hc : .close r ∉ ls) (bytes : Bytes) :
    Served decoder r (ls ++ [.push r bytes]) (m.pushToken decoder r bytes).1 := by
  have hreceived : received r (ls ++ [.push r bytes]) = received r ls := received_same rfl
  cases h with
  | live stream entry decoded queued more stays =>
    simp only [pushToken, entry]
    refine .live _ (by rw [StreamManager.put, Dict.get?_set, if_pos rfl]) ?_ ?_
      (by rwa [hreceived]) (by simpa using stays)
    · rw [decoded, callsOf_push hc]
    · rw [hreceived, sent_push hc, ← queued, decoded, List.append_assoc]
  | ended entry closed all => exact absurd closed hc
  | left entry leaves more =>
    simp only [pushToken, entry]
    exact .left entry (List.mem_append_left _ leaves) (by rwa [hreceived])

theorem Served.close (h : Served decoder r ls m) (hc : .close r ∉ ls) :
    Served decoder r (ls ++ [.close r]) (m.close decoder r).1 := by
  have hreceived : received r (ls ++ [.close r]) = received r ls := received_same rfl
  cases h with
  | live stream entry decoded queued more stays =>
    simp only [StreamManager.close, entry]
    refine .live _ (by rw [StreamManager.put, Dict.get?_set, if_pos rfl]) ?_ ?_
      (by rwa [hreceived]) (by simpa using stays)
    · rw [decoded, callsOf_close hc]
    · rw [hreceived, sent_close hc, ← queued, decoded, List.append_assoc]
  | ended entry closed all => exact absurd closed hc
  | left entry leaves more =>
    simp only [StreamManager.close, entry]
    exact .left entry (List.mem_append_left _ leaves) (by rwa [hreceived])

theorem Served.cancel (h : Served decoder r ls m) :
    Served decoder r (ls ++ [.cancel r]) (m.cancel r) := by
  have hreceived : received r (ls ++ [.cancel r]) = received r ls := received_same rfl
  obtain ⟨hcalls, hsent⟩ := @sent_same decoder r ls (.cancel r) rfl (by simp)
  cases h with
  | live stream entry decoded queued more stays =>
    simp only [StreamManager.cancel, entry]
    refine .live _ (by rw [StreamManager.put, Dict.get?_set, if_pos rfl]) (by rw [hcalls, decoded])
      (by rw [hreceived, hsent, queued]) (by rwa [hreceived]) (by simpa using stays)
  | ended entry closed all =>
    simp only [StreamManager.cancel, entry]
    exact .ended entry (List.mem_append_left _ closed) (by rw [hreceived, hsent, all])
  | left entry leaves more =>
    simp only [StreamManager.cancel, entry]
    exact .left entry (List.mem_append_left _ leaves) (by rwa [hreceived])

theorem Served.leave (h : Served decoder r ls m) :
    Served decoder r (ls ++ [.leave r]) (m.leave r) := by
  have hreceived : received r (ls ++ [.leave r]) = received r ls := received_same rfl
  obtain ⟨-, hsent⟩ := @sent_same decoder r ls (.leave r) rfl (by simp)
  have hgone : (m.leave r).streams.get? r = none := by
    rw [StreamManager.leave, Dict.get?_erase, if_pos rfl]
  cases h with
  | live stream entry decoded queued more stays =>
    exact .left hgone (by simp) (by rwa [hreceived])
  | ended entry closed all =>
    exact .ended hgone (List.mem_append_left _ closed) (by rw [hreceived, hsent, all])
  | left entry leaves more => exact .left hgone (by simp) (by rwa [hreceived])

/-- The end marker is sent last, so whoever takes it has taken everything. -/
theorem sent_end {taken rest : List Item} (h : taken ++ .endOfStream :: rest = sent decoder r ls) :
    rest = [] ∧ .close r ∈ ls := by
  have hc : .close r ∈ ls := by
    by_contra hc
    have hin : .endOfStream ∈ taken ++ .endOfStream :: rest := by simp
    rw [h, sent, if_neg hc, List.append_nil] at hin
    exact end_not_mem_itemsOf _ hin
  rw [sent, if_pos hc] at h
  rcases List.eq_nil_or_concat' rest with rfl | ⟨rest, item, rfl⟩
  · exact ⟨rfl, hc⟩
  · rw [← List.cons_append, ← List.append_assoc] at h
    obtain ⟨hitems, -⟩ := List.append_inj' h rfl
    have hin : .endOfStream ∈ taken ++ .endOfStream :: rest := by simp
    rw [hitems] at hin
    exact absurd hin (end_not_mem_itemsOf _)

theorem Served.receive (h : Served decoder r ls m) {item : Item}
    (hr : m.receive r = some (item, m')) : Served decoder r (ls ++ [.receive r item]) m' := by
  have hreceived : received r (ls ++ [.receive r item]) = received r ls ++ [item] := by
    rw [received_append]
    simp [received]
  obtain ⟨hcalls, hsent⟩ := @sent_same decoder r ls (.receive r item) rfl (by simp)
  cases h with
  | live stream entry decoded queued more stays =>
    obtain ⟨queue, seen, cancelled⟩ := stream
    cases queue with
    | nil => simp [StreamManager.receive, entry] at hr
    | cons next rest =>
      simp only [StreamManager.receive, entry] at hr
      obtain ⟨rfl, rfl⟩ := Prod.mk.inj (Option.some.inj hr)
      by_cases hend : next = .endOfStream
      · subst hend
        obtain ⟨rfl, hc⟩ := sent_end queued
        rw [if_pos rfl]
        refine .ended (by rw [StreamManager.leave, Dict.get?_erase, if_pos rfl])
          (List.mem_append_left _ hc) (by rw [hreceived, hsent, queued])
      · rw [if_neg hend]
        refine .live ⟨rest, seen, cancelled⟩ (by rw [StreamManager.put, Dict.get?_set, if_pos rfl])
          (by rw [hcalls]; exact decoded) ?_ ?_ (by simpa using stays)
        · rw [hreceived, hsent, ← queued, List.append_assoc]
          rfl
        · rw [hreceived, List.mem_append, List.mem_singleton, not_or]
          exact ⟨more, Ne.symm hend⟩
  | ended entry closed all => simp [StreamManager.receive, entry] at hr
  | left entry leaves more => simp [StreamManager.receive, entry] at hr

theorem Served.step (h : Served decoder r ls m) (hu : UsedOnce r (ls ++ [l]))
    (hstep : step decoder m l = some m') : Served decoder r (ls ++ [l]) m' := by
  have hopen : (l = .close r ∨ ∃ bytes, l = .push r bytes) → .close r ∉ ls := by
    intro hl hc
    obtain ⟨before, after, rfl⟩ := List.append_of_mem hc
    obtain ⟨hclose, hpush⟩ := hu.closed before (after ++ [l]) (by simp)
    rcases hl with rfl | ⟨bytes, rfl⟩
    · exact hclose (by simp)
    · exact hpush bytes (by simp)
  by_cases hl : l.id = r
  · cases l with
    | create id =>
      obtain rfl : id = r := hl
      exact absurd (by simp) hu.created
    | push id bytes =>
      obtain rfl : id = r := hl
      obtain rfl := Option.some.inj hstep
      exact h.push (hopen (.inr ⟨bytes, rfl⟩)) bytes
    | close id =>
      obtain rfl : id = r := hl
      obtain rfl := Option.some.inj hstep
      exact h.close (hopen (.inl rfl))
    | cancel id =>
      obtain rfl : id = r := hl
      obtain rfl := Option.some.inj hstep
      exact h.cancel
    | receive id item =>
      obtain rfl : id = r := hl
      obtain ⟨⟨next, m₁⟩, hr, hnext⟩ := Option.bind_eq_some_iff.mp hstep
      split_ifs at hnext with hitem
      obtain rfl := Option.some.inj hnext
      exact h.receive (hitem ▸ hr)
    | leave id =>
      obtain rfl : id = r := hl
      obtain rfl := Option.some.inj hstep
      exact h.leave
  · exact h.other hl (step_other hstep hl)

theorem UsedOnce.init (hu : UsedOnce r (ls ++ [l])) : UsedOnce r ls where
  created := fun h => hu.created (List.mem_append_left _ h)
  closed := fun before after he => by
    obtain ⟨hclose, hpush⟩ := hu.closed before (after ++ [l]) (by rw [he]; simp)
    exact ⟨fun h => hclose (List.mem_append_left _ h),
      fun bytes h => hpush bytes (List.mem_append_left _ h)⟩

theorem single_split {α : Type} {xs before after : List α} {x : α} (h : xs.length ≤ 1)
    (he : xs = before ++ x :: after) : after = [] := by
  rw [he, List.length_append, List.length_cons] at h
  exact List.eq_nil_of_length_eq_zero (by omega)

/-- One call more, of which a stream that is closed sees no token and no other end. -/
theorem UsedOnce.append {more : List Label} (hu : UsedOnce r ls) (hone : more.length ≤ 1)
    (hcreate : .create r ∉ more)
    (hclosed : .close r ∈ ls → .close r ∉ more ∧ ∀ bytes, .push r bytes ∉ more) :
    UsedOnce r (ls ++ more) where
  created := by
    rw [List.mem_append, not_or]
    exact ⟨hu.created, hcreate⟩
  closed := by
    intro before after he
    rcases List.append_eq_append_iff.mp he with ⟨part, rfl, hmore⟩ | ⟨part, hls, hrest⟩
    · rw [single_split hone hmore]
      simp
    · cases part with
      | nil =>
        rw [@single_split Label more [] after (.close r) hone hrest.symm]
        simp
      | cons call part =>
        obtain ⟨rfl, hafter⟩ := List.cons.inj hrest
        obtain ⟨hclose, hpush⟩ := hu.closed before part hls
        obtain ⟨hclose', hpush'⟩ := hclosed (by rw [hls]; simp)
        have hsplit : after = part ++ more := hafter
        simp only [hsplit, List.mem_append, not_or]
        exact ⟨⟨hclose, hclose'⟩, fun bytes => ⟨hpush bytes, hpush' bytes⟩⟩

/-- Only a creation makes an entry. -/
theorem step_absent (hstep : step decoder m l = some m') (hnone : m.streams.get? r = none)
    (hl : l ≠ .create r) : m'.streams.get? r = none ∧ received r [l] = [] := by
  by_cases hid : l.id = r
  · cases l with
    | create id =>
      obtain rfl : id = r := hid
      exact absurd rfl hl
    | push id bytes =>
      obtain rfl : id = r := hid
      obtain rfl := Option.some.inj hstep
      exact ⟨by rw [pushToken, hnone]; exact hnone, rfl⟩
    | close id =>
      obtain rfl : id = r := hid
      obtain rfl := Option.some.inj hstep
      exact ⟨by rw [StreamManager.close, hnone]; exact hnone, rfl⟩
    | cancel id =>
      obtain rfl : id = r := hid
      obtain rfl := Option.some.inj hstep
      exact ⟨by rw [StreamManager.cancel, hnone]; exact hnone, rfl⟩
    | receive id item =>
      obtain rfl : id = r := hid
      simp [step, StreamManager.receive, hnone] at hstep
    | leave id =>
      obtain rfl : id = r := hid
      obtain rfl := Option.some.inj hstep
      exact ⟨by rw [StreamManager.leave, Dict.get?_erase, if_pos rfl], rfl⟩
  · refine ⟨(step_other hstep hid).trans hnone, ?_⟩
    cases l with
    | receive id item =>
      have hne : id ≠ r := hid
      simp [received, hne]
    | _ => rfl

theorem run_served (m : StreamManager) (hu : UsedOnce r ls)
    (hrun : run (step decoder) (m.create r) ls = some m') : Served decoder r ls m' := by
  induction ls using List.reverseRecOn generalizing m' with
  | nil =>
    obtain rfl := Option.some.inj hrun
    refine .live ⟨[], [], false⟩ ?_ rfl rfl (by simp [received]) (by simp)
    rw [StreamManager.create, StreamManager.put, Dict.get?_set, if_pos rfl]
  | append_singleton ls l ih =>
    rw [run_append] at hrun
    obtain ⟨u, hinit, hlast⟩ := Option.bind_eq_some_iff.mp hrun
    obtain ⟨u', hstep, hdone⟩ := Option.bind_eq_some_iff.mp hlast
    obtain rfl := Option.some.inj hdone
    exact (ih hu.init hinit).step hu hstep

theorem absent_unchanged (h : m.streams.get? r = none) : m.isCancelled r = true ∧
    (∀ bytes, m.pushToken decoder r bytes = (m, [])) ∧ m.close decoder r = (m, []) :=
  ⟨by rw [isCancelled, h]; rfl, fun bytes => by rw [pushToken, h],
    by rw [StreamManager.close, h]⟩

theorem Served.text (h : Served decoder r ls m) {oneShot : Bytes → String}
    (hd : DecodesWhole decoder oneShot) (hend : .endOfStream ∈ received r ls) :
    m.streams.get? r = none ∧ ∃ texts : List String,
      received r ls = texts.map .text ++ [.endOfStream] ∧ (∀ t ∈ texts, t ≠ "") ∧
        String.join texts = oneShot (pushed r ls).flatten := by
  cases h with
  | live stream entry decoded queued more stays => exact absurd hend more
  | ended entry closed all =>
    obtain ⟨texts, hitems, hne, hjoin⟩ := itemsOf_eq (outputs decoder (callsOf r ls))
    refine ⟨entry, texts, ?_, hne, hjoin.trans ?_⟩
    · rw [all, sent, if_pos closed, hitems]
    · rw [callsOf, if_pos closed]
      exact hd (pushed r ls)
  | left entry leaves more => exact absurd hend more

/-- Once `r` is closed there is something to take until the end marker is taken. -/
theorem Served.ready (h : Served decoder r ls m) (hc : .close r ∈ ls) (hstay : .leave r ∉ ls)
    (hmore : .endOfStream ∉ received r ls) : (m.receive r).isSome := by
  cases h with
  | live stream entry decoded queued more stays =>
    obtain ⟨queue, seen, cancelled⟩ := stream
    cases queue with
    | nil =>
      have hin : .endOfStream ∈ sent decoder r ls := by
        rw [sent, if_pos hc]
        simp
      rw [← queued, List.append_nil] at hin
      exact absurd hin more
    | cons item rest => simp [StreamManager.receive, entry]
  | ended entry closed all =>
    rw [all, sent, if_pos closed] at hmore
    simp at hmore
  | left entry leaves more => exact absurd leaves hstay

theorem Served.gone_of_leave (h : Served decoder r ls m) (hl : .leave r ∈ ls) :
    m.streams.get? r = none := by
  cases h with
  | live stream entry decoded queued more stays => exact absurd hl stays
  | ended entry closed all => exact entry
  | left entry leaves more => exact entry

end Serving

/-- A stream hands over exactly the text of its own bytes, and nothing after the end marker. -/
theorem stream_delivery {decoder : IncrementalDecoder} {oneShot : Bytes → String}
    (hd : DecodesWhole decoder oneShot) {before after : List Label} {r : RequestId}
    {m : StreamManager} (hu : UsedOnce r after)
    (hrun : run (step decoder) .init (before ++ .create r :: after) = some m) :
    (.endOfStream ∈ received r after → ∃ texts : List String,
      received r after = texts.map .text ++ [.endOfStream] ∧ (∀ t ∈ texts, t ≠ "") ∧
        String.join texts = oneShot (pushed r after).flatten) ∧
      (.close r ∈ after → .leave r ∉ after → .endOfStream ∉ received r after →
        (m.receive r).isSome) ∧
      (.leave r ∈ after ∨ .endOfStream ∈ received r after → m.isCancelled r = true ∧
        (∀ bytes, m.pushToken decoder r bytes = (m, [])) ∧ m.close decoder r = (m, [])) := by
  rw [run_append] at hrun
  obtain ⟨u, -, hrest⟩ := Option.bind_eq_some_iff.mp hrun
  have hserved : Served decoder r after m := run_served u hu hrest
  refine ⟨fun hend => (hserved.text hd hend).2, hserved.ready, ?_⟩
  rintro (hl | hend)
  · exact absent_unchanged (hserved.gone_of_leave hl)
  · exact absent_unchanged (hserved.text hd hend).1

section Utf8
open Utf8Stream

/-- `codecs.getincrementaldecoder("utf-8")("replace")`: at the final call one U+FFFD stands for
what has begun and not ended. -/
def utf8Decoder : IncrementalDecoder := fun calls =>
  let seen := (feed next none (calls.dropLast.flatMap Prod.fst)).1
  match calls.getLast? with
  | none => ""
  | some (bytes, final) =>
    let (pending, chars) := feed next seen bytes
    String.ofList (chars ++ if final ∧ pending.isSome then [replacement] else [])

/-- `bytes.decode("utf-8", "replace")`. -/
def utf8Text (bytes : Bytes) : String :=
  let (pending, chars) := feed next none bytes
  String.ofList (chars ++ if pending.isSome then [replacement] else [])

theorem utf8Decoder_concat (calls : List (Bytes × Bool)) (bytes : Bytes) (final : Bool) :
    utf8Decoder (calls ++ [(bytes, final)]) =
      let (pending, chars) := feed next (feed next none (calls.flatMap Prod.fst)).1 bytes
      String.ofList (chars ++ if final ∧ pending.isSome then [replacement] else []) := by
  simp only [utf8Decoder, List.dropLast_concat, List.getLast?_concat]

theorem utf8Decoder_whole : DecodesWhole utf8Decoder utf8Text := by
  have hopen : ∀ tokens : List Bytes,
      String.join (outputs utf8Decoder (tokens.map (·, false))) =
        String.ofList (feed next none tokens.flatten).2 := by
    intro tokens
    induction tokens using List.reverseRecOn with
    | nil => rfl
    | append_singleton tokens bytes ih =>
      have hbytes : (tokens.map fun b => (b, false)).flatMap Prod.fst = tokens.flatten := by
        simp [List.flatMap_map, List.flatMap_id']
      rw [List.map_append, List.map_singleton, outputs_concat, String.join_append, ih,
        utf8Decoder_concat, hbytes, List.flatten_append, feed_append]
      simp [String.join_cons, String.ofList_append]
  intro tokens
  have hbytes : (tokens.map fun b => (b, false)).flatMap Prod.fst = tokens.flatten := by
    simp [List.flatMap_map, List.flatMap_id']
  rw [outputs_concat, String.join_append, hopen, utf8Decoder_concat, hbytes, utf8Text]
  simp [String.join_cons, String.ofList_append]

/-- An `é` cut in two while another stream is served, taken in part before the rest is pushed. -/
def interleaved : List Label :=
  [.push 1 [0x63], .create 2, .push 1 [0xC3], .push 2 [0xFF], .receive 1 (.text "c"),
    .receive 2 (.text "\uFFFD"), .leave 2, .push 1 [0xA9, 0xE2], .push 2 [0x64], .close 1,
    .receive 1 (.text "é"), .receive 1 (.text "\uFFFD"), .receive 1 .endOfStream]

theorem stream_delivery_interleaved :
    DecodesWhole utf8Decoder utf8Text ∧ UsedOnce 1 interleaved ∧
      ∃ m, run (step utf8Decoder) .init ([.create 3] ++ .create 1 :: interleaved) = some m ∧
        ∃ texts : List String, received 1 interleaved = texts.map .text ++ [.endOfStream] ∧
          (∀ t ∈ texts, t ≠ "") ∧ String.join texts = utf8Text [0x63, 0xC3, 0xA9, 0xE2] := by
  have hu : UsedOnce 1 interleaved := by
    refine ⟨by decide +kernel, fun before after he => ?_⟩
    have hsplit : interleaved = interleaved.take 9 ++ .close 1 :: interleaved.drop 10 := rfl
    rw [hsplit] at he
    obtain ⟨-, -, rfl⟩ := (List.append_cons_inj_of_notMem (by decide +kernel)
      (by decide +kernel)).mp he
    exact ⟨by decide +kernel, fun bytes => by simp [interleaved]⟩
  obtain ⟨m, hm⟩ := Option.isSome_iff_exists.mp (show (run (step utf8Decoder) .init
    ([.create 3] ++ .create 1 :: interleaved)).isSome = true by decide +kernel)
  exact ⟨utf8Decoder_whole, hu, m, hm,
    (stream_delivery utf8Decoder_whole hu hm).1 (by decide +kernel)⟩

end Utf8

end TinyServe.Streaming
