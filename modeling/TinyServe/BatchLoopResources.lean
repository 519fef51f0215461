import TinyServe.BatchLoopTransitions

set_option autoImplicit false

/-! Slots, queue, active map and block table balance in every reachable state. -/
namespace TinyServe.BatchLoop
open OrderedDict BatchBuilder Admission Scheduler Runs

section Holders
variable {env : Env} {s : State} {id : RequestId}

theorem holding_enqueued {s' : State} {request : PendingRequest}
    (hq : s'.queue = s.queue.push request) (ha : s'.active = s.active) (j : RequestId) :
    Holding s' j ↔ j = request.id ∨ Holding s j := by
  rw [Holding, Holding, hq, ha, RequestQueue.push, Dict.mem_keys_set, or_assoc]

theorem Books.holding_expired (hb : Books env s) (hin : id ∈ s.queue.pool.keys) (phase : Phase)
    (j : RequestId) : Holding (expiredState env s id phase) j ↔ j ≠ id ∧ Holding s j := by
  show j ∈ (s.queue.pool.erase id).keys ∨ j ∈ s.active.keys ↔ _
  rw [Dict.mem_keys_erase, Holding]
  constructor
  · rintro (⟨hne, h⟩ | h)
    · exact ⟨hne, .inl h⟩
    · exact ⟨fun he => hb.apart id hin (he ▸ h), .inr h⟩
  · rintro ⟨hne, h | h⟩
    · exact .inl ⟨hne, h⟩
    · exact .inr h

theorem Books.holding_retired (hb : Books env s) (hin : id ∈ s.active.keys) (state : RequestState)
    (j : RequestId) : Holding (retired env s id state) j ↔ j ≠ id ∧ Holding s j := by
  show j ∈ s.queue.pool.keys ∨ j ∈ (s.active.erase id).keys ↔ _
  rw [Dict.mem_keys_erase, Holding]
  constructor
  · rintro (h | ⟨hne, h⟩)
    · exact ⟨fun he => hb.apart j h (he ▸ hin), .inl h⟩
    · exact ⟨hne, .inr h⟩
  · rintro ⟨hne, h | h⟩
    · exact .inl h
    · exact .inr ⟨hne, h⟩

theorem holding_admitted {request : PendingRequest} (hin : request.id ∈ s.queue.pool.keys)
    (seqId : SeqId) (phase : Phase) (j : RequestId) :
    Holding (admittedState env s request seqId phase) j ↔ Holding s j := by
  show j ∈ (s.queue.pool.erase request.id).keys ∨ j ∈ (s.active.set request.id _).keys ↔ _
  rw [Dict.mem_keys_erase, Dict.mem_keys_set, Holding]
  constructor
  · rintro (⟨-, h⟩ | rfl | h)
    · exact .inl h
    · exact .inl hin
    · exact .inr h
  · rintro (h | h)
    · by_cases he : j = request.id
      · exact .inr (.inl he)
      · exact .inl ⟨he, h⟩
    · exact .inr (.inr h)

end Holders

section BooksKept
variable {env : Env} {s : State}

theorem books_start (env : Env) : Books env (start env) where
  slots := by simp [start]
  agree _ := rfl
  queued _ _ h := by simp [start, RequestQueue.init] at h
  known _ h := by simp [start] at h
  issued _ h := by simp [start] at h
  named _ _ h := by simp [start] at h
  apart _ _ h := by simp [start] at h
  reserved _ _ h := by simp [start] at h
  unreserved _ _ h := by simp [start, KVCacheManager.init] at h
  blockSize := rfl
  totalBlocks := rfl
  depth := Nat.zero_le _

theorem worstCase_eq (hb : Books env s) (request : PendingRequest) :
    s.kvCache.blocksNeeded (request.promptTokens.length + request.maxTokens) =
      worstCase env request := by
  rw [KVCacheManager.blocksNeeded, worstCase, hb.blockSize]

theorem Books.accepted_step (hb : Books env s) {id : RequestId} {body : GenerateRequest}
    {kvCache : KVCacheManager} (hnew : id ∉ s.issued) (hroom : s.queue.depth < env.maxQueueDepth)
    (hres : s.kvCache.reserve id ((env.tokenize body.prompt).length + body.maxTokens) =
      .ok (true, kvCache)) {s' : State} (hq : s'.queue = s.queue.push (newRequest env s id body))
    (hk : s'.kvCache = kvCache) (ha : s'.active = s.active) (hr : s'.requests = s.requests)
    (hf : s'.freeSlots = s.freeSlots)
    (hacc : s'.accepted = s.accepted.set id (newRequest env s id body))
    (hi : s'.issued = id :: s.issued) : Books env s' := by
  obtain ⟨hpool, hactive, haccepted, -⟩ := hb.unissued hnew
  obtain ⟨hfree, htable, hsize, htotal⟩ := KVCacheManager.reserve_true hres
  have hneed : s.kvCache.blocksNeeded ((env.tokenize body.prompt).length + body.maxTokens) =
      worstCase env (newRequest env s id body) := worstCase_eq hb (newRequest env s id body)
  have hne : ∀ j ∈ s.active.keys, id ≠ j := by
    rintro j hj rfl
    exact hactive hj
  have hhold := holding_enqueued hq ha
  refine ⟨?_, ?_, ?_, ?_, ?_, ?_, ?_, ?_, ?_, ?_, ?_, ?_⟩
  · rw [hf, ha]
    exact hb.slots
  · rw [ha, hr]
    exact hb.agree
  · intro j request hj
    rw [hq, RequestQueue.push, Dict.get?_set] at hj
    rw [hacc, Dict.get?_set]
    by_cases h : id = j
    · rw [if_pos h]
      obtain rfl := Option.some.inj ((if_pos h).symm.trans hj)
      exact ⟨h, rfl⟩
    · rw [if_neg h]
      exact hb.queued j request ((if_neg h).symm.trans hj)
  · rw [ha, hacc]
    exact fun j hj => Dict.mem_keys_set.mpr (.inr (hb.known j hj))
  · rw [hacc, hi]
    intro j hj
    rcases Dict.mem_keys_set.mp hj with rfl | h
    · exact List.mem_cons_self
    · exact List.mem_cons_of_mem _ (hb.issued j h)
  · rw [hacc]
    intro j request hj
    rw [Dict.get?_set] at hj
    split_ifs at hj with h
    · obtain rfl := Option.some.inj hj
      exact h
    · exact hb.named j request hj
  · rw [hq, ha, RequestQueue.push]
    intro j hj
    rcases Dict.mem_keys_set.mp hj with rfl | h
    · exact hactive
    · exact hb.apart j h
  · rw [hacc, hk, htable]
    intro j request hj hh
    rw [Dict.get?_set] at hj ⊢
    split_ifs at hj ⊢ with h
    · obtain rfl := Option.some.inj hj
      rw [hneed]
    · exact hb.reserved j request hj (((hhold j).mp hh).resolve_left fun he => h he.symm)
  · rw [hk, htable]
    intro j hh hj
    rw [hhold, not_or] at hh
    rcases Dict.mem_keys_set.mp hj with he | h
    · exact hh.1 he
    · exact hb.unreserved j hh.2 h
  · rw [hk, hsize, hb.blockSize]
  · rw [hk, htotal, hb.totalBlocks]
  · rw [hq, RequestQueue.depth, RequestQueue.push]
    exact (Dict.size_set_le _ _ _).trans hroom

theorem Books.expired_step (hb : Books env s) {id : RequestId} {request : PendingRequest}
    (hpool : s.queue.pool.get? id = some request) (phase : Phase) :
    Books env (expiredState env s id phase) := by
  have hin : id ∈ s.queue.pool.keys := Dict.mem_keys.mpr ⟨request, hpool⟩
  obtain ⟨blocks, hblocks⟩ := blocks_of_holding hb (.inl hin)
  obtain ⟨-, htable, hsize, htotal⟩ := KVCacheManager.release_some hblocks
  have hhold := hb.holding_expired hin phase
  refine ⟨hb.slots, hb.agree, ?_, hb.known, hb.issued, hb.named, ?_, ?_, ?_, ?_, ?_, ?_⟩
  · intro j r hj
    have hj' := (Dict.get?_erase s.queue.pool id j).symm.trans hj
    split_ifs at hj'
    exact hb.queued j r hj'
  · exact fun j hj => hb.apart j (Dict.mem_keys_erase.mp hj).2
  · intro j r hj hh
    obtain ⟨hne, hh⟩ := (hhold j).mp hh
    show (s.kvCache.release id).2.blockTable.get? j = _
    rw [htable, Dict.get?_erase, if_neg hne.symm]
    exact hb.reserved j r hj hh
  · intro j hh hj
    have hj' : j ∈ (s.kvCache.release id).2.blockTable.keys := hj
    rw [htable, Dict.mem_keys_erase] at hj'
    exact hb.unreserved j (fun h => hh ((hhold j).mpr ⟨hj'.1, h⟩)) hj'.2
  · exact hsize.trans hb.blockSize
  · exact htotal.trans hb.totalBlocks
  · exact (Dict.size_erase_le s.queue.pool id).trans hb.depth

theorem Books.retired_step (hb : Books env s) {id : RequestId} {old state : RequestState}
    (hstate : s.requests.get? id = some old) (hkept : state.seqId = old.seqId) :
    Books env (retired env s id state) := by
  obtain ⟨seq, hseq, hold⟩ := hb.seq_of_state hstate
  have hslot : state.seqId = seq.seqId := hkept.trans hold.symm
  have hin : id ∈ s.active.keys := Dict.mem_keys.mpr ⟨seq, hseq⟩
  obtain ⟨blocks, hblocks⟩ := blocks_of_holding hb (.inr hin)
  obtain ⟨-, htable, hsize, htotal⟩ := KVCacheManager.release_some hblocks
  have hhold := hb.holding_retired hin state
  refine ⟨?_, ?_, hb.queued, ?_, hb.issued, hb.named, ?_, ?_, ?_, ?_, ?_, hb.depth⟩
  · show ((s.freeSlots ++ [state.seqId]) ++
      (s.active.erase id).values.map ActiveSequence.seqId).Perm (BatchLoop.slots env)
    have hperm := ((Dict.values_perm_erase hseq).map ActiveSequence.seqId).symm
    rw [List.map_cons] at hperm
    rw [List.append_assoc, List.singleton_append, hslot]
    exact (hperm.append_left s.freeSlots).trans hb.slots
  · intro j
    show ((s.active.erase id).get? j).map ActiveSequence.seqId =
      ((s.requests.erase id).get? j).map RequestState.seqId
    rw [Dict.get?_erase, Dict.get?_erase]
    split_ifs
    · rfl
    · exact hb.agree j
  · exact fun j hj => hb.known j (Dict.mem_keys_erase.mp hj).2
  · exact fun j hj hj' => hb.apart j hj (Dict.mem_keys_erase.mp hj').2
  · intro j r hj hh
    obtain ⟨hne, hh⟩ := (hhold j).mp hh
    show (s.kvCache.release id).2.blockTable.get? j = _
    rw [htable, Dict.get?_erase, if_neg hne.symm]
    exact hb.reserved j r hj hh
  · intro j hh hj
    have hj' : j ∈ (s.kvCache.release id).2.blockTable.keys := hj
    rw [htable, Dict.mem_keys_erase] at hj'
    exact hb.unreserved j (fun h => hh ((hhold j).mpr ⟨hj'.1, h⟩)) hj'.2
  · exact hsize.trans hb.blockSize
  · exact htotal.trans hb.totalBlocks

theorem Books.admitted_step (hb : Books env s) {request : PendingRequest} {seqId : SeqId}
    (hpool : s.queue.pool.get? request.id = some request)
    (hslot : s.freeSlots.getLast? = some seqId) (phase : Phase) :
    Books env (admittedState env s request seqId phase) := by
  have hin : request.id ∈ s.queue.pool.keys := Dict.mem_keys.mpr ⟨request, hpool⟩
  have hfresh := hb.apart request.id hin
  have hhold : ∀ j, Holding (admittedState env s request seqId phase) j ↔ Holding s j :=
    holding_admitted hin seqId phase
  refine ⟨?_, ?_, ?_, ?_, hb.issued, hb.named, ?_, ?_, ?_, hb.blockSize, hb.totalBlocks, ?_⟩
  · show (s.freeSlots.dropLast ++
      (s.active.set request.id _).values.map ActiveSequence.seqId).Perm (BatchLoop.slots env)
    rw [Dict.values_set_of_fresh (Dict.get?_eq_none.mpr hfresh), List.map_append]
    have hlast : s.freeSlots.dropLast ++ [seqId] = s.freeSlots :=
      List.dropLast_append_getLast? seqId hslot
    refine (List.perm_append_comm.append_left s.freeSlots.dropLast).trans ?_
    rw [← List.append_assoc]
    show ((s.freeSlots.dropLast ++ [seqId]) ++ _).Perm (BatchLoop.slots env)
    rw [hlast]
    exact hb.slots
  · intro j
    show ((s.active.set request.id _).get? j).map ActiveSequence.seqId =
      ((s.requests.set request.id _).get? j).map RequestState.seqId
    rw [Dict.get?_set, Dict.get?_set]
    split_ifs
    · rfl
    · exact hb.agree j
  · intro j r hj
    have hj' := (Dict.get?_erase s.queue.pool request.id j).symm.trans hj
    split_ifs at hj'
    exact hb.queued j r hj'
  · intro j hj
    rcases Dict.mem_keys_set.mp hj with rfl | h
    · exact Dict.mem_keys.mpr ⟨request, (hb.queued _ request hpool).2⟩
    · exact hb.known j h
  · intro j hj hj'
    obtain ⟨hne, hj⟩ := Dict.mem_keys_erase.mp hj
    exact hb.apart j hj ((Dict.mem_keys_set.mp hj').resolve_left hne)
  · exact fun j r hj hh => hb.reserved j r hj ((hhold j).mp hh)
  · exact fun j hh => hb.unreserved j fun h => hh ((hhold j).mpr h)
  · exact (Dict.size_erase_le s.queue.pool request.id).trans hb.depth

/-- Sequences that move on keep the books as they are. -/
theorem Books.moved_step (hb : Books env s) {s' : State}
    (hseqs : ∀ id, (s'.active.get? id).map ActiveSequence.seqId =
      (s.active.get? id).map ActiveSequence.seqId)
    (hstates : ∀ id, (s'.requests.get? id).map RequestState.seqId =
      (s.requests.get? id).map RequestState.seqId)
    (hkeys : s'.active.keys = s.active.keys) (hq : s'.queue = s.queue)
    (hk : s'.kvCache = s.kvCache) (hf : s'.freeSlots = s.freeSlots)
    (hacc : s'.accepted = s.accepted) (hi : s'.issued = s.issued) : Books env s' := by
  obtain ⟨h1, h2, h3, h4, h5, h6, h7, h8, h9, h10, h11, h12⟩ := hb
  have hhold := holding_congr hq hkeys
  have hvalues : s'.active.values.map ActiveSequence.seqId =
      s.active.values.map ActiveSequence.seqId := Dict.map_values_congr hkeys hseqs
  refine ⟨?_, ?_, ?_, ?_, ?_, ?_, ?_, ?_, ?_, ?_, ?_, ?_⟩
  · rwa [hf, hvalues]
  · exact fun id => (hseqs id).trans ((h2 id).trans (hstates id).symm)
  · rwa [hq, hacc]
  · rwa [hkeys, hacc]
  · rwa [hacc, hi]
  · rwa [hacc]
  · rwa [hq, hkeys]
  · rw [hacc, hk]
    exact fun id request hreq hh => h8 id request hreq ((hhold id).mp hh)
  · rw [hk]
    exact fun id hh => h9 id fun h => hh ((hhold id).mpr h)
  · rwa [hk]
  · rwa [hk]
  · rwa [hq]

theorem Books.transition (hb : Books env s) {l : Label} {s' : State}
    (ht : Transition env s l s') : Books env s' := by
  cases ht with
  | rejected hw hnew => exact hb.frame rfl rfl rfl rfl rfl rfl fun _ h => List.mem_cons_of_mem _ h
  | accepted hw hnew hroom hres => exact hb.accepted_step hnew hroom hres rfl rfl rfl rfl rfl rfl rfl
  | expire h hstale hpool => exact hb.expired_step hpool _
  | admitted h hpool hslot => exact hb.admitted_step hpool hslot _
  | decoded h hkeys hactive =>
    refine hb.moved_step (fun id => ?_) (fun _ => rfl) hkeys rfl rfl rfl rfl rfl
    rw [hactive, Option.map_map]
    rfl
  | push h hid hseq hstate hgo =>
    refine hb.moved_step (fun j => ?_) (fun j => ?_) ?_ rfl rfl rfl rfl rfl
    · simp only [pushedState, Dict.get?_set]
      split_ifs with hj
      · rw [← hj, hseq]
        rfl
      · rfl
    · simp only [pushedState, Dict.get?_set]
      split_ifs with hj
      · rw [← hj, hstate]
        rfl
      · rfl
    · exact Dict.keys_set_of_mem (Dict.mem_keys.mpr ⟨_, hseq⟩)
  | finishSampled h hid hseq hstate hwhy ht =>
    exact (hb.retired_step hstate decremented_seqId).frame rfl rfl rfl rfl rfl rfl fun _ hm => hm
  | dieSampled h hid hseq hstate hwhy ht =>
    exact (hb.retired_step hstate decremented_seqId).frame rfl rfl rfl rfl rfl rfl fun _ hm => hm
  | finishFailed h hseq hstate ht =>
    exact (hb.retired_step hstate rfl).frame rfl rfl rfl rfl rfl rfl fun _ hm => hm
  | dieFailed h hseq hstate ht =>
    exact (hb.retired_step hstate rfl).frame rfl rfl rfl rfl rfl rfl fun _ hm => hm
  | _ => exact hb.frame rfl rfl rfl rfl rfl rfl fun _ hm => hm

end BooksKept

section StandingKept
variable {env : Env} {s s' : State}

theorem standing_awaiting (hs : Standing env s) (hw : s.phase.awaiting) (hp : s'.phase = s.phase)
    (ha : s'.active = s.active) : Standing env s' := by
  rw [Standing, hp]
  cases h : s.phase with
  | decoding prepared =>
    show prepared = buildBatch s'.active.values env.batchCapacity env.chunkSize
    rw [ha]
    exact hs.decoding h
  | expiring => simp [h, Phase.awaiting] at hw
  | admitting => simp [h, Phase.awaiting] at hw
  | distributing => simp [h, Phase.awaiting] at hw
  | failing => simp [h, Phase.awaiting] at hw
  | _ => trivial

theorem Books.waiting_ids (hb : Books env s) :
    s.queue.waiting.map PendingRequest.id = s.queue.pool.keys := by
  rw [RequestQueue.waiting, Dict.values, Dict.keys, List.map_map]
  refine List.map_congr_left fun e he => ?_
  exact (hb.queued e.1 e.2 (Dict.mem_entries.mp he)).1

theorem Books.waiting_pool (hb : Books env s) {request : PendingRequest}
    (h : request ∈ s.queue.waiting) : s.queue.pool.get? request.id = some request := by
  obtain ⟨id, hid⟩ := Dict.mem_values.mp h
  rw [(hb.queued id request hid).1]
  exact hid

theorem Books.waiting_nodup (hb : Books env s) :
    (s.queue.waiting.map PendingRequest.id).Nodup := by
  rw [hb.waiting_ids]
  exact s.queue.pool.keys_nodup

/-- A token sampled from a batch belongs to an active sequence. -/
theorem Books.sampled_active (hb : Books env s) {prepared : PreparedBatch}
    (hp : prepared = buildBatch s.active.values env.batchCapacity env.chunkSize)
    {sample : ℕ → Token} {e : SeqId × Token} (he : e ∈ (LlamaRuntime.sampled sample prepared).entries) :
    ∃ id seq, (requestIdOf s.requests).get? e.1 = some id ∧ s.active.get? id = some seq ∧
      seq.seqId = e.1 := by
  obtain ⟨i, row, hrow, -, hr, -⟩ := LlamaRuntime.sampled_some (Dict.mem_entries.mp he)
  have hm := List.mem_of_getElem? hrow
  rw [hp] at hm
  obtain ⟨seq, hseq, hsr⟩ := buildBatch_seqId hm
  obtain ⟨id, hid⟩ := Dict.mem_values.mp hseq
  have ht : seq.seqId = e.1 := hsr.symm.trans hr
  exact ⟨id, seq, ht ▸ requestIdOf_get? hb hid, hid, ht⟩

theorem Standing.tail_distributing {idOf : Dict SeqId RequestId} {now : Time} {seqId : SeqId}
    {token : Token} {todo : List (SeqId × Token)} {id : RequestId} {seq : ActiveSequence}
    (hs : Standing env s) (h : s.phase = .distributing idOf now ((seqId, token) :: todo))
    (hid : idOf.get? seqId = some id) (hseq : s.active.get? id = some seq) :
    seq.seqId = seqId ∧ (todo.map Prod.fst).Nodup ∧ ∀ e ∈ todo, ∃ j other,
      idOf.get? e.1 = some j ∧ s.active.get? j = some other ∧ other.seqId = e.1 ∧ id ≠ j := by
  obtain ⟨hn, hall⟩ := hs.distributing h
  rw [List.map_cons, List.nodup_cons] at hn
  have hslot : seq.seqId = seqId := by
    obtain ⟨j, other, hj, hother, hjs⟩ := hall _ List.mem_cons_self
    obtain rfl := Option.some.inj (hid.symm.trans hj)
    obtain rfl := Option.some.inj (hseq.symm.trans hother)
    exact hjs
  refine ⟨hslot, hn.2, fun e he => ?_⟩
  obtain ⟨j, other, hj, hother, hjs⟩ := hall e (List.mem_cons_of_mem _ he)
  refine ⟨j, other, hj, hother, hjs, ?_⟩
  rintro rfl
  obtain rfl := Option.some.inj (hseq.symm.trans hother)
  exact hn.1 (List.mem_map.mpr ⟨e, he, hjs.symm.trans hslot⟩)

theorem Standing.transition (hs : Standing env s) (hb : Books env s) {l : Label}
    (ht : Transition env s l s') : Standing env s' := by
  cases ht with
  | rejected hw | accepted hw | setPolicy hw | cancel hw | receive hw | leave hw =>
    exact standing_awaiting hs hw rfl rfl
  | beginExpiry h | wake h =>
    exact ⟨hb.waiting_nodup, fun r hr => hb.waiting_pool hr⟩
  | keep h hfresh =>
    obtain ⟨hn, hall⟩ := hs.expiring h
    exact ⟨(List.nodup_cons.mp hn).2, fun r hr => hall r (List.mem_cons_of_mem _ hr)⟩
  | expire h hstale hpool =>
    obtain ⟨hn, hall⟩ := hs.expiring h
    rw [List.map_cons, List.nodup_cons] at hn
    refine ⟨hn.2, fun r hr => ?_⟩
    have hne : _ ≠ r.id := fun he => hn.1 (List.mem_map.mpr ⟨r, hr, he.symm⟩)
    simp only [expiredState, Dict.get?_erase, if_neg hne]
    exact hall r (List.mem_cons_of_mem _ hr)
  | full h hf => exact ⟨List.nodup_nil, by simp, Nat.zero_le _⟩
  | select h hf hsel =>
    obtain ⟨hlen, rest, hperm⟩ := select_perm hsel
    refine ⟨chosen_nodup hb.waiting_nodup hperm, fun r hr => ?_, hlen.le.trans (Nat.min_le_left _ _)⟩
    exact hb.waiting_pool (hperm.mem_iff.mp (List.mem_append_left _ hr))
  | admitted h hpool hslot =>
    obtain ⟨hn, hall, hlen⟩ := hs.admitting h
    rw [List.map_cons, List.nodup_cons] at hn
    refine ⟨hn.2, fun r hr => ?_, ?_⟩
    · have hne : _ ≠ r.id := fun he => hn.1 (List.mem_map.mpr ⟨r, hr, he.symm⟩)
      simp only [admittedState, Dict.get?_erase, if_neg hne]
      exact hall r (List.mem_cons_of_mem _ hr)
    · simp only [List.length_cons] at hlen
      simp only [admittedState, List.length_dropLast]
      omega
  | build h hp hne => exact hp
  | @decoded prepared sample order active h hkeys hactive =>
    refine ⟨(LlamaRuntime.sampled sample prepared).nodup, fun e he => ?_⟩
    obtain ⟨id, seq, hid, hseq, hslot⟩ := hb.sampled_active (hs.decoding h) he
    exact ⟨id, consume prepared seq, hid, by rw [hactive, hseq]; rfl, hslot⟩
  | decodeFailed h => exact ⟨s.requests.keys_nodup, hb.keys_agree⟩
  | finishSampled h hid hseq hstate hwhy ht =>
    obtain ⟨-, hn, hall⟩ := hs.tail_distributing h hid hseq
    refine ⟨hn, fun e he => ?_⟩
    obtain ⟨j, other, hj, hother, hslot, hne⟩ := hall e he
    refine ⟨j, other, hj, ?_, hslot⟩
    simp only [finishedState, retired, Dict.get?_erase]
    rw [if_neg hne, hother]
  | push h hid hseq hstate hgo =>
    obtain ⟨-, hn, hall⟩ := hs.tail_distributing h hid hseq
    refine ⟨hn, fun e he => ?_⟩
    obtain ⟨j, other, hj, hother, hslot, hne⟩ := hall e he
    refine ⟨j, other, hj, ?_, hslot⟩
    simp only [pushedState, Dict.get?_set]
    rw [if_neg hne, hother]
  | @finishFailed id todo seq state h hseq hstate ht =>
    obtain ⟨hn, hall⟩ := hs.failing h
    rw [List.nodup_cons] at hn
    refine ⟨hn.2, fun j => ?_⟩
    show j ∈ todo ↔ j ∈ (s.active.erase id).keys
    rw [Dict.mem_keys_erase, ← hall j, List.mem_cons]
    constructor
    · exact fun hj => ⟨fun he => hn.1 (he ▸ hj), .inr hj⟩
    · exact fun hj => hj.2.resolve_left hj.1
  | rest | selectRaised | buildNothing | dieSampled | dieFailed | endTick => trivial

/-- The books are in order in every reachable state, and the loop refers to nothing that is gone. -/
theorem reachable_books {allowed : State → Label → Prop}
    (h : Reachable (step env) allowed (start env) s) : Books env s ∧ Standing env s := by
  refine h.invariant (I := fun s => Books env s ∧ Standing env s) ⟨books_start env, trivial⟩ ?_
  intro s l s' _ hi _ hstep
  have ht := step_transition hi.1 hi.2 hstep
  exact ⟨hi.1.transition ht, hi.2.transition hi.1 ht⟩

/-- Every step between reachable states is a transition. -/
theorem reachable_transition {allowed : State → Label → Prop}
    (h : Reachable (step env) allowed (start env) s) {l : Label} (hs : step env s l = some s') :
    Transition env s l s' := step_transition (reachable_books h).1 (reachable_books h).2 hs

end StandingKept

section Conservation
variable {env : Env} {s : State}

/-- The requests that blocks are set aside for. -/
def reservations (s : State) : List PendingRequest :=
  s.queue.waiting ++ s.active.keys.filterMap s.accepted.get?

theorem Books.active_ids (hb : Books env s) :
    (s.active.keys.filterMap s.accepted.get?).map PendingRequest.id = s.active.keys := by
  have hall : ∀ id ∈ s.active.keys, (s.accepted.get? id).map PendingRequest.id = some id := by
    intro id hm
    obtain ⟨request, hr, hid⟩ := hb.request_of_active hm
    rw [hr, Option.map_some, hid]
  rw [List.map_filterMap, List.filterMap_congr hall, List.filterMap_some]

theorem Books.reservation_ids (hb : Books env s) :
    (reservations s).map PendingRequest.id = s.queue.pool.keys ++ s.active.keys := by
  rw [reservations, List.map_append, hb.waiting_ids, hb.active_ids]

theorem Books.holders_nodup (hb : Books env s) : (s.queue.pool.keys ++ s.active.keys).Nodup :=
  List.nodup_append.mpr ⟨s.queue.pool.keys_nodup, s.active.keys_nodup,
    fun id hq _ ha he => hb.apart id hq (he ▸ ha)⟩

theorem Books.mem_reservations (hb : Books env s) {request : PendingRequest} :
    request ∈ reservations s ↔
      s.accepted.get? request.id = some request ∧ Holding s request.id := by
  rw [reservations, List.mem_append]
  constructor
  · rintro (h | h)
    · have hpool := hb.waiting_pool h
      exact ⟨(hb.queued _ _ hpool).2, .inl (Dict.mem_keys.mpr ⟨_, hpool⟩)⟩
    · obtain ⟨id, hid, hr⟩ := List.mem_filterMap.mp h
      obtain rfl := hb.named id request hr
      exact ⟨hr, .inr hid⟩
  · rintro ⟨hr, h | h⟩
    · obtain ⟨other, ho⟩ := Dict.mem_keys.mp h
      obtain rfl := Option.some.inj (hr.symm.trans (hb.queued _ other ho).2)
      exact .inl (Dict.mem_values.mpr ⟨_, ho⟩)
    · exact .inr (List.mem_filterMap.mpr ⟨_, h, hr⟩)

theorem Books.table_keys (hb : Books env s) :
    s.kvCache.blockTable.keys.Perm (s.queue.pool.keys ++ s.active.keys) := by
  refine (List.perm_ext_iff_of_nodup s.kvCache.blockTable.keys_nodup hb.holders_nodup).mpr
    fun id => ?_
  rw [List.mem_append]
  constructor
  · intro hm
    by_contra hno
    exact hb.unreserved id hno hm
  · intro hh
    obtain ⟨blocks, hblocks⟩ := blocks_of_holding hb hh
    exact Dict.mem_keys.mpr ⟨blocks, hblocks⟩

/-- The block table is the worst case of every reservation. -/
theorem Books.table_entries (hb : Books env s) :
    s.kvCache.blockTable.entries.Perm
      ((reservations s).map fun request => (request.id, worstCase env request)) := by
  have hids : ((reservations s).map fun request => (request.id, worstCase env request)).map
      Prod.fst = s.queue.pool.keys ++ s.active.keys := by
    rw [List.map_map, ← hb.reservation_ids]
    rfl
  refine (List.perm_ext_iff_of_nodup s.kvCache.blockTable.nodup.of_map
    (List.Nodup.of_map Prod.fst (hids ▸ hb.holders_nodup))).mpr ?_
  rintro ⟨id, blocks⟩
  rw [Dict.mem_entries, List.mem_map]
  constructor
  · intro hget
    have hh : Holding s id := by
      have hm := hb.table_keys.mem_iff.mp (Dict.mem_keys.mpr ⟨blocks, hget⟩)
      exact List.mem_append.mp hm
    have hin : id ∈ (reservations s).map PendingRequest.id := by
      rw [hb.reservation_ids]
      exact List.mem_append.mpr hh
    obtain ⟨request, hr, rfl⟩ := List.mem_map.mp hin
    obtain ⟨hacc, -⟩ := hb.mem_reservations.mp hr
    rw [hb.reserved _ request hacc hh] at hget
    exact ⟨request, hr, by rw [Option.some.inj hget]⟩
  · rintro ⟨request, hr, he⟩
    obtain ⟨rfl, rfl⟩ := Prod.mk.inj he
    obtain ⟨hacc, hh⟩ := hb.mem_reservations.mp hr
    exact hb.reserved _ request hacc hh

theorem Books.blocks_balance (hb : Books env s) :
    s.kvCache.freeBlocks + ((reservations s).map (worstCase env)).sum = s.kvCache.totalBlocks := by
  have hperm := hb.table_entries.map Prod.snd
  rw [List.map_map] at hperm
  rw [← s.kvCache.conserved]
  exact congrArg (s.kvCache.freeBlocks + ·) hperm.sum_eq.symm

/-- Whatever the interleaving: slots, keys, reservations, blocks and queue depth balance. -/
theorem resources_conserved (env : Env) (s : State)
    (h : Reachable (step env) anything (start env) s) :
    ((s.freeSlots ++ s.active.values.map ActiveSequence.seqId).Perm (slots env) ∧
      (s.freeSlots ++ s.active.values.map ActiveSequence.seqId).Nodup) ∧
    (∀ id, (s.active.get? id).map ActiveSequence.seqId =
      (s.requests.get? id).map RequestState.seqId) ∧
    ((∀ id ∈ s.queue.pool.keys, id ∉ s.active.keys) ∧
      s.kvCache.blockTable.keys.Perm (s.queue.pool.keys ++ s.active.keys)) ∧
    (s.kvCache.freeBlocks : ℤ) =
      s.kvCache.totalBlocks - ((reservations s).map (worstCase env)).sum ∧
    s.queue.depth ≤ env.maxQueueDepth := by
  have hb := (reachable_books h).1
  have hsum := hb.blocks_balance
  exact ⟨⟨hb.slots, hb.slots.nodup_iff.mpr (slots_nodup env)⟩, hb.agree,
    ⟨hb.apart, hb.table_keys⟩, by omega, hb.depth⟩

/-- A small server whose vocabulary has one token and whose clock is the number of ticks. -/
def demo : Env where
  nSeqMax := 2
  chunkSize := 2
  batchCapacity := 64
  maxQueueDepth := 4
  totalTokens := 64
  kvBlockSize := 4
  kvBlockSize_pos := by decide
  prefixBlockSize := some ⟨2, by decide⟩
  policy := ⟨.fifo, "fifo"⟩
  queueTimeoutSeconds := 30
  generationTimeoutSeconds := 120
  tokenize := fun prompt => List.replicate prompt.length 1
  detokenize := fun _ => []
  eosToken := 0
  decoder := fun _ => "x"
  oneOver := fun w => .ok (1 / w)
  clock := fun tick _ => tick

def demoBody : GenerateRequest := ⟨"abc", 2, 1, by decide, by decide, by decide, by decide⟩

/-- Two requests arrive and the loop runs until their first batch is handed to the runtime. -/
def demoArrivals : List Label :=
  [.generate 0 demoBody, .generate 1 demoBody] ++ List.replicate 7 .loop

/-- The chosen requests that are not admitted yet, while there is an admission loop. -/
def Phase.toAdmit : Phase → Option (List PendingRequest)
  | .admitting todo => some todo
  | _ => none

theorem toAdmit_some {phase : Phase} {todo : List PendingRequest}
    (h : phase.toAdmit = some todo) : phase = .admitting todo := by
  cases phase with
  | admitting todo' => rw [Option.some.inj h]
  | _ => simp [Phase.toAdmit] at h

/-- The batch in flight. -/
def Phase.inFlight : Phase → Option PreparedBatch
  | .decoding prepared => some prepared
  | _ => none

theorem inFlight_some {phase : Phase} {prepared : PreparedBatch}
    (h : phase.inFlight = some prepared) : phase = .decoding prepared := by
  cases phase with
  | decoding prepared' => rw [Option.some.inj h]
  | _ => simp [Phase.inFlight] at h

theorem resources_conserved_demo : ∃ s, run (step demo) (start demo) demoArrivals = some s ∧
    (s.freeSlots ++ s.active.values.map ActiveSequence.seqId).Perm (slots demo) := by
  obtain ⟨s, hs⟩ := Option.isSome_iff_exists.mp
    (by decide +kernel : (run (step demo) (start demo) demoArrivals).isSome)
  exact ⟨s, hs, (resources_conserved demo s (Reachable.init.run hs)).1.1⟩

end Conservation

end TinyServe.BatchLoop
