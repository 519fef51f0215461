import TinyServe.BatchLoopProgress

set_option autoImplicit false

/-! The batches a request is still part of once it is cancelled. -/
namespace TinyServe.BatchLoop
open OrderedDict BatchBuilder Scheduler Streaming StreamManager LlamaRuntime Runs

/-- The next step builds a batch that holds rows of the request. -/
def buildsRows (env : Env) (id : RequestId) (s : State) (l : Label) : Bool :=
  match l, s.phase, s.active.get? id with
  | .loop, .admitting [], some seq =>
    0 < (buildBatch s.active.values env.batchCapacity env.chunkSize).rowCount seq.seqId
  | _, _, _ => false

/-- If the next step builds a batch, the request has no more than a chunk left to feed. -/
def LastChunk (env : Env) (id : RequestId) (s : State) (l : Label) : Prop :=
  l = .loop → s.phase = .admitting [] → ∀ seq, s.active.get? id = some seq →
    seq.pendingTokens.length ≤ env.chunkSize

/-- No batch is built and no decode fails. -/
def Between (s : State) (l : Label) : Prop :=
  (l = .loop → s.phase ≠ .admitting []) ∧ ∀ left, l ≠ .decodeFailed left

section Flags
variable {env : Env} {s s' : State} {id : RequestId} {l : Label}

structure Cancelled (s : State) (id : RequestId) : Prop where
  accepted : id ∈ s.accepted.keys
  flag : s.streams.isCancelled id = true

theorem Cancelled.frame (h : Cancelled s id) (hacc : s'.accepted = s.accepted)
    (hflag : s'.streams.isCancelled id = s.streams.isCancelled id) : Cancelled s' id :=
  ⟨hacc ▸ h.accepted, hflag.trans h.flag⟩

/-- A cancelled request stays cancelled. -/
theorem Cancelled.transition (h : Cancelled s id) (hb : Books env s)
    (ht : Transition env s l s') : Cancelled s' id := by
  cases ht with
  | @accepted j body kvCache hw hnew hroom hres =>
    have hne : j ≠ id := by
      rintro rfl
      exact hnew (hb.issued j h.accepted)
    exact ⟨Dict.mem_keys_set.mpr (.inr h.accepted), (isCancelled_create hne).trans h.flag⟩
  | cancel hw => exact ⟨h.accepted, isCancelled_cancel h.flag⟩
  | receive hw hr => exact ⟨h.accepted, isCancelled_receive hr h.flag⟩
  | leave hw hl => exact ⟨h.accepted, isCancelled_leave h.flag⟩
  | expire hp hstale hpool => exact h.frame rfl (isCancelled_close id)
  | finishSampled | finishFailed => exact h.frame rfl (isCancelled_close id)
  | dieSampled | dieFailed => exact h.frame rfl (isCancelled_close id)
  | push => exact h.frame rfl (isCancelled_pushToken _ id)
  | _ => exact h.frame rfl rfl

/-- A request that has ended does not come back. -/
theorem gone_transition (hb : Books env s) (ht : Transition env s l s')
    (hacc : id ∈ s.accepted.keys) (h : ¬ Holding s id) : ¬ Holding s' id := by
  intro h'
  apply h
  cases ht with
  | accepted hw hnew hroom hres =>
    refine h'.imp_left fun hm => (Dict.mem_keys_set.mp hm).resolve_left ?_
    rintro rfl
    exact hnew (hb.issued _ hacc)
  | expire => exact h'.imp_left fun hm => (Dict.mem_keys_erase.mp hm).2
  | admitted hp hpool hslot =>
    exact (holding_admitted (Dict.mem_keys.mpr ⟨_, hpool⟩) _ _ id).mp h'
  | decoded hp hkeys hactive => exact h'.imp_right fun hm => (congrArg (id ∈ ·) hkeys).mp hm
  | push hp hid hseq hstate hgo =>
    refine h'.imp_right fun hm => ?_
    rcases Dict.mem_keys_set.mp hm with rfl | hin
    · exact Dict.mem_keys.mpr ⟨_, hseq⟩
    · exact hin
  | finishSampled | dieSampled | finishFailed | dieFailed =>
    exact h'.imp_right fun hm => (Dict.mem_keys_erase.mp hm).2
  | _ => exact h'

/-- The last batch with rows of the request is on its way or over. -/
inductive Spent (s : State) (id : RequestId) : Prop where
  | gone (h : ¬ Holding s id)
  | fed {prepared : PreparedBatch} {seq : ActiveSequence} (hp : s.phase = .decoding prepared)
      (hseq : s.active.get? id = some seq) (hne : seq.pendingTokens ≠ [])
      (hall : prepared.rowCount seq.seqId = seq.pendingTokens.length)
  | due {idOf : Dict SeqId RequestId} {now : Time} {todo : List (SeqId × Token)}
      {seq : ActiveSequence} (hp : s.phase = .distributing idOf now todo)
      (hseq : s.active.get? id = some seq) (hdue : seq.seqId ∈ todo.map Prod.fst)
  | failing {todo : List RequestId} (hp : s.phase = .failing todo) (hin : id ∈ s.active.keys)
  | dead {e : PyError} (hp : s.phase = .dead e)

theorem Transition.stays_dead (ht : Transition env s l s') {e : PyError}
    (hp : s.phase = .dead e) : s'.phase = .dead e := by
  cases ht with
  | rejected | accepted | setPolicy | cancel | receive | leave => exact hp
  | beginExpiry hp' | wake hp' | keep hp' | expire hp' | rest hp' | full hp' | select hp'
  | selectRaised hp' | admitted hp' | buildNothing hp' | build hp' | decoded hp'
  | decodeFailed hp' | finishSampled hp' | dieSampled hp' | push hp' | finishFailed hp'
  | dieFailed hp' | endTick hp' => simp [hp] at hp'

theorem Spent.builds_nothing (h : Spent s id) : buildsRows env id s l = false := by
  unfold buildsRows
  split
  · rename_i seq hp hseq
    cases h with
    | gone hno => exact absurd (.inr (Dict.mem_keys.mpr ⟨seq, hseq⟩)) hno
    | fed hp' => simp [hp] at hp'
    | due hp' => simp [hp] at hp'
    | failing hp' => simp [hp] at hp'
    | dead hp' => simp [hp] at hp'
  · rfl

theorem gone_retired (hb : Books env s) {seq : ActiveSequence} (hseq : s.active.get? id = some seq)
    (state : RequestState) : ¬ Holding (retired env s id state) id :=
  fun h => ((hb.holding_retired (Dict.mem_keys.mpr ⟨seq, hseq⟩) state id).mp h).1 rfl

theorem Spent.transition (h : Spent s id) (hb : Books env s) (hs : Standing env s)
    (hc : Cancelled s id) (ht : Transition env s l s') : Spent s' id := by
  cases h with
  | gone hno => exact .gone (gone_transition hb ht hc.accepted hno)
  | @fed prepared seq hp hseq hne hall =>
    cases ht with
    | rejected | accepted | setPolicy | cancel | receive | leave => exact .fed hp hseq hne hall
    | @decoded prepared' sample order active hp' hkeys hactive =>
      obtain rfl := Phase.decoding.inj (hp.symm.trans hp')
      have hget := (hactive id).trans (congrArg (Option.map (consume prepared)) hseq)
      exact .due rfl hget ((hb.sampled_iff hseq (hs.decoding hp) hne sample).mpr hall)
    | decodeFailed hp' => exact .failing rfl (Dict.mem_keys.mpr ⟨seq, hseq⟩)
    | beginExpiry hp' | wake hp' | keep hp' | expire hp' | rest hp' | full hp' | select hp'
    | selectRaised hp' | admitted hp' | buildNothing hp' | build hp' | finishSampled hp'
    | dieSampled hp' | push hp' | finishFailed hp' | dieFailed hp' | endTick hp' =>
      simp [hp] at hp'
  | @due idOf now todo seq hp hseq hdue =>
    cases ht with
    | @finishSampled idOf' now' seqId token rest j other state why hp' hid hother hstate =>
      by_cases hj : id = j
      · subst hj
        exact .gone (gone_retired hb hother (decremented state))
      · refine .due rfl ((Dict.get?_erase ..).trans ((if_neg (Ne.symm hj)).trans hseq)) ?_
        exact hb.due_tail hs hp' hid hother hj hseq (by rw [hp]; exact hdue)
    | dieSampled => exact .dead rfl
    | @push idOf' now' seqId token rest j other state hp' hid hother hstate hgo =>
      by_cases hj : id = j
      · subst hj
        have hflag := hgo.2.2.1
        rw [hc.flag] at hflag
        simp at hflag
      · refine .due rfl ((Dict.get?_set ..).trans ((if_neg (Ne.symm hj)).trans hseq)) ?_
        exact hb.due_tail hs hp' hid hother hj hseq (by rw [hp]; exact hdue)
    | endTick hp' =>
      simp only [hp, Phase.distributing.injEq, reduceCtorEq, or_false] at hp'
      obtain ⟨_, _, -, -, rfl⟩ := hp'
      simp at hdue
    | rejected hw | accepted hw | setPolicy hw | cancel hw | receive hw | leave hw =>
      simp [hp, Phase.awaiting] at hw
    | beginExpiry hp' | wake hp' | keep hp' | expire hp' | rest hp' | full hp' | select hp'
    | selectRaised hp' | admitted hp' | buildNothing hp' | build hp' | decoded hp'
    | decodeFailed hp' | finishFailed hp' | dieFailed hp' => simp [hp] at hp'
  | @failing todo hp hin =>
    cases ht with
    | @finishFailed j rest seq state hp' hseq =>
      by_cases hj : id = j
      · subst hj
        exact .gone (gone_retired hb hseq state)
      · exact .failing rfl (Dict.mem_keys_erase.mpr ⟨hj, hin⟩)
    | dieFailed => exact .dead rfl
    | endTick hp' =>
      simp only [hp, reduceCtorEq, exists_false, false_or, Phase.failing.injEq] at hp'
      subst hp'
      rw [hs.failed_all hp] at hin
      simp at hin
    | rejected hw | accepted hw | setPolicy hw | cancel hw | receive hw | leave hw =>
      simp [hp, Phase.awaiting] at hw
    | beginExpiry hp' | wake hp' | keep hp' | expire hp' | rest hp' | full hp' | select hp'
    | selectRaised hp' | admitted hp' | buildNothing hp' | build hp' | decoded hp'
    | decodeFailed hp' | finishSampled hp' | dieSampled hp' | push hp' => simp [hp] at hp'
  | dead hp => exact .dead (ht.stays_dead hp)

end Flags

section Builds
variable {env : Env} {s s' u u' v : State} {id : RequestId} {l : Label} {ls : List Label}

theorem buildsRows_iff : buildsRows env id s l = true ↔ l = .loop ∧ s.phase = .admitting [] ∧
    ∃ seq, s.active.get? id = some seq ∧
      0 < (buildBatch s.active.values env.batchCapacity env.chunkSize).rowCount seq.seqId := by
  unfold buildsRows
  split
  · rename_i seq hp hseq
    simp [hp, hseq]
  · rename_i hno
    simp only [Bool.false_eq_true, false_iff]
    rintro ⟨rfl, hp, seq, hseq, -⟩
    exact hno seq rfl hp hseq

theorem step_build (hp : s.phase = .admitting [])
    (hrows : (buildBatch s.active.values env.batchCapacity env.chunkSize).rows ≠ []) :
    step env s .loop = some { s with
      reads := s.reads + 1
      decodeStarted := env.clock s.tick s.reads
      phase := .decoding (buildBatch s.active.values env.batchCapacity env.chunkSize)
      log := s.log ++ [.built (buildBatch s.active.values env.batchCapacity env.chunkSize).rows] } := by
  simp only [step, iterate, hp, build, hrows, State.emit, State.readClock, State.goto, ↓reduceIte]

theorem rows_of_rowCount {prepared : PreparedBatch} {seqId : SeqId}
    (h : 0 < prepared.rowCount seqId) : prepared.rows ≠ [] := by
  intro hnil
  rw [rowCount_eq_length, hnil] at h
  simp at h

/-- A batch that takes the rest of a prompt is the last one. -/
theorem spent_of_rows (hr : Reachable (step env) anything (start env) s)
    (hcap : env.totalTokens ≤ env.batchCapacity) (hlast : LastChunk env id s l)
    (hstep : step env s l = some s') (hbuilds : buildsRows env id s l = true) : Spent s' id := by
  obtain ⟨rfl, hp, seq, hseq, hpos⟩ := buildsRows_iff.mp hbuilds
  have hcount := rowCount_full hr hcap hseq rfl
  rw [min_eq_right (hlast rfl hp seq hseq)] at hcount
  obtain rfl := Option.some.inj ((step_build hp (rows_of_rowCount hpos)).symm.trans hstep)
  refine .fed rfl hseq (fun hnil => ?_) hcount
  rw [hcount, hnil] at hpos
  simp at hpos

/-- The token at the head is not for a sequence that waits for none. -/
theorem Standing.head_ne (hs : Standing env s) {idOf : Dict SeqId RequestId} {now : Time}
    {seqId : SeqId} {token : Token} {todo : List (SeqId × Token)} {j : RequestId}
    {other seq : ActiveSequence} (hp : s.phase = .distributing idOf now ((seqId, token) :: todo))
    (hid : idOf.get? seqId = some j) (hother : s.active.get? j = some other)
    (hseq : s.active.get? id = some seq)
    (hnot : seq.seqId ∉ ((seqId, token) :: todo).map Prod.fst) : j ≠ id := by
  rintro rfl
  obtain rfl := Option.some.inj (hseq.symm.trans hother)
  exact hnot (List.mem_cons.mpr (.inl (hs.tail_distributing hp hid hseq).1))

/-- Part of what the request has pending is in no batch yet. -/
def Unfed (s : State) (id : RequestId) : Prop :=
  ∃ seq, s.active.get? id = some seq ∧ seq.pendingTokens ≠ [] ∧
    match s.phase with
    | .decoding prepared => prepared.rowCount seq.seqId < seq.pendingTokens.length
    | .distributing _ _ todo => seq.seqId ∉ todo.map Prod.fst
    | .failing _ => False
    | .dead _ => False
    | _ => True

theorem Unfed.transition (h : Unfed s id) (hb : Books env s) (hs : Standing env s)
    (hok : Between s l) (ht : Transition env s l s') : Unfed s' id ∨ ∃ e, s'.phase = .dead e := by
  obtain ⟨seq, hseq, hne, hphase⟩ := h
  cases ht with
  | rejected | accepted | setPolicy | cancel | receive | leave =>
    exact .inl ⟨seq, hseq, hne, hphase⟩
  | beginExpiry | wake | keep | expire | rest | full | select =>
    exact .inl ⟨seq, hseq, hne, trivial⟩
  | selectRaised | dieSampled | dieFailed => exact .inr ⟨_, rfl⟩
  | @admitted request todo seqId hp hpool hslot =>
    have hother : request.id ≠ id := by
      rintro rfl
      exact hb.apart _ (Dict.mem_keys.mpr ⟨request, hpool⟩) (Dict.mem_keys.mpr ⟨seq, hseq⟩)
    exact .inl ⟨seq, (Dict.get?_set ..).trans ((if_neg hother).trans hseq), hne, trivial⟩
  | buildNothing hp | build hp => exact absurd hp (hok.1 rfl)
  | decodeFailed => exact absurd rfl (hok.2 _)
  | @decoded prepared sample order active hp hkeys hactive =>
    rw [hp] at hphase
    have hget := (hactive id).trans (congrArg (Option.map (consume prepared)) hseq)
    refine .inl ⟨_, hget, List.ne_nil_of_length_pos ?_, fun hdue => ?_⟩
    · rw [consume, List.length_drop]
      exact Nat.sub_pos_of_lt hphase
    · exact hphase.ne ((hb.sampled_iff hseq (hs.decoding hp) hne sample).mp hdue)
  | @finishSampled idOf now seqId token todo j other state why hp hid hother =>
    rw [hp] at hphase
    have hj := hs.head_ne hp hid hother hseq hphase
    refine .inl ⟨seq, (Dict.get?_erase ..).trans ((if_neg hj).trans hseq), hne, fun hm => ?_⟩
    exact hphase (List.mem_cons_of_mem _ hm)
  | @push idOf now seqId token todo j other state hp hid hother =>
    rw [hp] at hphase
    have hj := hs.head_ne hp hid hother hseq hphase
    refine .inl ⟨seq, (Dict.get?_set ..).trans ((if_neg hj).trans hseq), hne, fun hm => ?_⟩
    exact hphase (List.mem_cons_of_mem _ hm)
  | finishFailed hp =>
    rw [hp] at hphase
    exact hphase.elim
  | endTick => exact .inl ⟨seq, hseq, hne, trivial⟩

/-- A batch that leaves some of a prompt is followed by another one with rows of it. -/
theorem rows_again (hr : Reachable (step env) anything (start env) u)
    (hcap : env.totalTokens ≤ env.batchCapacity) (hbuilds : buildsRows env id u .loop = true)
    (hmore : ¬ LastChunk env id u .loop) (hstep : step env u .loop = some u')
    (hall : Along (step env) Between u' ls) (hrun : run (step env) u' ls = some v)
    (hv : v.phase = .admitting []) : buildsRows env id v .loop = true := by
  obtain ⟨-, hp, seq, hseq, hpos⟩ := buildsRows_iff.mp hbuilds
  have hcount := rowCount_full hr hcap hseq rfl
  have hlong : env.chunkSize < seq.pendingTokens.length := by
    by_contra hle
    refine hmore fun _ _ seq' hseq' => ?_
    obtain rfl := Option.some.inj (hseq.symm.trans hseq')
    exact not_lt.mp hle
  rw [min_eq_left hlong.le] at hcount
  obtain rfl := Option.some.inj ((step_build hp (rows_of_rowCount hpos)).symm.trans hstep)
  have hopen := hall.invariant (I := fun s => Reachable (step env) anything (start env) s ∧
      (Unfed s id ∨ ∃ e, s.phase = .dead e)) (fun s l s' hi hok hstep => ?_)
    ⟨.next hr trivial hstep, .inl ⟨seq, hseq, List.ne_nil_of_length_pos (by omega),
      hcount.trans_lt hlong⟩⟩ hrun
  · obtain ⟨hrv, ⟨seq', hseq', hne, -⟩ | ⟨e, hdead⟩⟩ := hopen
    · refine buildsRows_iff.mpr ⟨rfl, hv, seq', hseq', ?_⟩
      rw [rowCount_full hrv hcap hseq' rfl]
      have hpending := List.length_pos_iff.mpr hne
      omega
    · simp [hv] at hdead
  · obtain ⟨hrs, hi⟩ := hi
    refine ⟨.next hrs trivial hstep, ?_⟩
    have ht := reachable_transition hrs hstep
    rcases hi with hi | ⟨e, he⟩
    · exact hi.transition (reachable_books hrs).1 (reachable_books hrs).2 hok ht
    · exact .inr ⟨e, ht.stays_dead he⟩

end Builds

/-- At most one batch built after a request is cancelled holds rows of it, in every run in which it
has no more than a chunk left whenever one is built; where it has more, the next batch holds rows of
it too, unless a decode fails. -/
theorem cancelled_batches (env : Env) (hcap : env.totalTokens ≤ env.batchCapacity) (s : State)
    (h : Reachable (step env) anything (start env) s) (id : RequestId)
    (hacc : id ∈ s.accepted.keys) (hcancel : s.streams.isCancelled id = true) :
    (∀ ls, Along (step env) (LastChunk env id) s ls →
      occurrences (step env) (buildsRows env id) s ls ≤ 1) ∧
    ∀ u u' ls v, Reachable (step env) anything s u → buildsRows env id u .loop = true →
      ¬ LastChunk env id u .loop → step env u .loop = some u' → Along (step env) Between u' ls →
      run (step env) u' ls = some v → v.phase = .admitting [] →
        buildsRows env id v .loop = true := by
  constructor
  · intro ls hall
    refine occurrences_le_one (I := fun s => Reachable (step env) anything (start env) s ∧
      Cancelled s id) (J := fun s => Spent s id) (fun s l s' hi hstep => ?_)
      (fun s l s' hi hlast hstep hb => spent_of_rows hi.1 hcap hlast hstep hb)
      (fun s l s' hi hspent hstep => ⟨hspent.builds_nothing, ?_⟩) ⟨h, hacc, hcancel⟩ hall
    · obtain ⟨hr, hc⟩ := hi
      exact ⟨.next hr trivial hstep,
        hc.transition (reachable_books hr).1 (reachable_transition hr hstep)⟩
    · obtain ⟨hr, hc⟩ := hi
      obtain ⟨hb, hs⟩ := reachable_books hr
      exact hspent.transition hb hs hc (reachable_transition hr hstep)
  · intro u u' ls v hu hbuilds hmore hstep hall hrun hv
    exact rows_again (h.trans hu) hcap hbuilds hmore hstep hall hrun hv

section Demo

/-- A prompt of three tokens goes through its prefill of two chunks. -/
def demoTicks : List Label :=
  List.replicate 5 .loop ++ [.decoded (fun _ => 1) [1]] ++ List.replicate 4 .loop

/-- A request cancelled while it waits, and the batches it is in afterwards. -/
theorem demo_cancelled : ∃ s,
    run (step demo) (start demo) [.generate 0 demoBody, .cancel 0] = some s ∧
      0 ∈ s.accepted.keys ∧ s.streams.isCancelled 0 = true ∧
      occurrences (step demo) (buildsRows demo 0) s demoTicks = 2 := by
  obtain ⟨s, hs⟩ := Option.isSome_iff_exists.mp (by decide +kernel :
    (run (step demo) (start demo) [.generate 0 demoBody, .cancel 0]).isSome)
  have hflags : (run (step demo) (start demo) [.generate 0 demoBody, .cancel 0]).map (fun s =>
      (s.accepted.keys, s.streams.isCancelled 0,
        occurrences (step demo) (buildsRows demo 0) s demoTicks)) = some ([0], true, 2) := by
    decide +kernel
  rw [hs, Option.map_some, Option.some.injEq, Prod.mk.injEq, Prod.mk.injEq] at hflags
  obtain ⟨hkeys, hcancel, hbatches⟩ := hflags
  exact ⟨s, hs, hkeys ▸ List.mem_singleton.mpr rfl, hcancel, hbatches⟩

/-- Whether the next batch takes all that a request has left. -/
def lastChunk (env : Env) (id : RequestId) (s : State) (l : Label) : Bool :=
  match l, s.phase, s.active.get? id with
  | .loop, .admitting [], some seq => decide (seq.pendingTokens.length ≤ env.chunkSize)
  | _, _, _ => true

theorem lastChunk_iff {env : Env} {id : RequestId} {s : State} {l : Label} :
    lastChunk env id s l = true ↔ LastChunk env id s l := by
  unfold lastChunk
  split
  · rename_i seq hp hseq
    rw [decide_eq_true_eq, LastChunk]
    constructor
    · rintro hle - - seq' hseq'
      obtain rfl := Option.some.inj (hseq.symm.trans hseq')
      exact hle
    · exact fun hall => hall rfl hp seq hseq
  · rename_i hno
    simp only [true_iff]
    exact fun hl hp seq hseq => (hno seq hl hp hseq).elim

instance (env : Env) (id : RequestId) (s : State) (l : Label) : Decidable (LastChunk env id s l) :=
  decidable_of_iff _ lastChunk_iff

def demoLater : GenerateRequest :=
  { demoBody with maxTokens := 3, maxTokens_pos := by decide, maxTokens_le := by decide }

/-- A request that is cancelled between two tokens. -/
def demoCut : List Label := [.generate 0 demoLater] ++ (demoRun.drop 1).take 13 ++ [.cancel 0]

/-- The tick that notices. -/
def demoNotice : List Label :=
  List.replicate 3 .loop ++ [.decoded (fun _ => 1) [1]] ++ List.replicate 4 .loop

theorem cancelled_batches_demo : ∃ s, run (step demo) (start demo) demoCut = some s ∧
    Along (step demo) (LastChunk demo 0) s demoNotice ∧
    occurrences (step demo) (buildsRows demo 0) s demoNotice = 1 ∧
    ∀ ls, Along (step demo) (LastChunk demo 0) s ls →
      occurrences (step demo) (buildsRows demo 0) s ls ≤ 1 := by
  have hflags : (run (step demo) (start demo) demoCut).map (fun s =>
      (s.accepted.keys, s.streams.isCancelled 0,
        decide (Along (step demo) (LastChunk demo 0) s demoNotice),
        occurrences (step demo) (buildsRows demo 0) s demoNotice)) = some ([0], true, true, 1) := by
    decide +kernel
  obtain ⟨s, hs, hparts⟩ := Option.map_eq_some_iff.mp hflags
  simp only [Prod.mk.injEq, decide_eq_true_eq] at hparts
  obtain ⟨hkeys, hcancel, hlast, hone⟩ := hparts
  exact ⟨s, hs, hlast, hone, (cancelled_batches demo le_rfl s (Reachable.init.run hs) 0
    (hkeys ▸ List.mem_singleton.mpr rfl) hcancel).1⟩

/-- A request that is cancelled while it waits is in two batches. -/
theorem cancelled_waiting_prefills : ¬ ∀ env s, Reachable (step env) anything (start env) s →
    ∀ id ∈ s.accepted.keys, s.streams.isCancelled id = true → ∀ ls,
      occurrences (step env) (buildsRows env id) s ls ≤ 1 := by
  intro hall
  obtain ⟨s, hs, hacc, hcancel, hbatches⟩ := demo_cancelled
  have hle := hall demo s (Reachable.init.run hs) 0 hacc hcancel demoTicks
  omega

end Demo

end TinyServe.BatchLoop
