import TinyServe.BatchLoopDrain
import TinyServe.BatchLoopFinish
import TinyServe.BatchLoopLedger

set_option autoImplicit false

/-! What a scrape of the metrics shows: gauges that are true and observations that make sense. -/
namespace TinyServe.BatchLoop
open OrderedDict PrefixCacheBase PrefixClaims BatchBuilder LlamaRuntime
open Observability Instruments Runs

section Gauges
variable {env : Env} {s s' : State} {m m' : Metrics} {l : Label}

/-- The turn of the loop that sets the gauges of a tick. -/
def Gauging (s : State) (l : Label) : Prop :=
  l = .loop ∧ ∃ now woken, s.phase = .expiring now [] woken ∧
    ¬ (woken = false ∧ s.active.size = 0 ∧ s.queue.depth = 0)

/-- The gauges are those of the queue and the blocks of a state. -/
structure Shows (m : Metrics) (s : State) : Prop where
  queueDepth : m.queueDepth = s.queue.depth
  kvBlocksFree : m.kvBlocksFree = s.kvCache.freeBlocks
  kvBlocksUsed : m.kvBlocksUsed = (s.kvCache.totalBlocks : ℤ) - s.kvCache.freeBlocks

/-- No tick has come to set its gauges yet. -/
def Ungauged (env : Env) : State → Prop :=
  Reachable (step env) (fun s l => ¬ Gauging s l) (start env)

/-- The last tick of a run that set its gauges did so in the state `at_`. -/
def GaugedAt (env : Env) (at_ s : State) : Prop :=
  Reachable (step env) anything (start env) at_ ∧ Gauging at_ .loop ∧
    ∃ after, step env at_ .loop = some after ∧
      Reachable (step env) (fun s l => ¬ Gauging s l) after s

/-- The gauges that a tick sets. -/
def gauges (m : Metrics) : ℕ × ℕ × ℤ := (m.queueDepth, m.kvBlocksFree, m.kvBlocksUsed)

theorem Shows.of_gauges (h : Shows m s) (hg : gauges m' = gauges m) : Shows m' s := by
  obtain ⟨h1, h2, h3⟩ := h
  simp only [gauges, Prod.mk.injEq] at hg
  exact ⟨hg.1.trans h1, hg.2.1.trans h2, hg.2.2.trans h3⟩

theorem shows_recordTick (s : State) (m : Metrics) : Shows (recordTick s m) s := ⟨rfl, rfl, rfl⟩

theorem gauges_recordGenerate (id : RequestId) (body : GenerateRequest) :
    gauges (recordGenerate env s id body m) = gauges m := by
  unfold recordGenerate
  split <;> rfl

theorem gauges_recordAdmit (request : Scheduler.PendingRequest) :
    gauges (recordAdmit env s request m) = gauges m := by
  cases hslot : s.freeSlots.getLast? with
  | none => simp only [recordAdmit, hslot]
  | some seqId =>
    rw [recordAdmit_eq hslot]
    rfl

theorem gauges_recordFinish (id : RequestId) (why : Option CancelReason) :
    gauges (recordFinish env s id why m) = gauges m := by
  unfold recordFinish
  split
  · rfl
  · cases s.prefixCache <;> cases why <;> simp only <;> split_ifs <;> rfl

theorem gauges_recordExpiry (now : Time) (request : Scheduler.PendingRequest) :
    gauges (recordExpiry env now s request m) = gauges m := by
  unfold recordExpiry
  split_ifs
  · split <;> rfl
  · rfl

theorem gauges_recordDistribute (idOf : Dict SeqId RequestId) (now : Time) (seqId : SeqId)
    (token : Token) : gauges (recordDistribute env idOf now s seqId token m) = gauges m := by
  unfold recordDistribute
  split
  · rfl
  · split
    · simp only
      split_ifs
      · exact gauges_recordFinish _ _
      · exact gauges_recordFinish _ _
      · exact gauges_recordFinish _ _
      · rfl
      · split <;> rfl
    · rfl

/-- A tick sets its gauges once, and nothing else sets them. -/
theorem record_gauges (s : State) (l : Label) (m : Metrics) :
    (Gauging s l → record env s l m = recordTick s m) ∧
      (¬ Gauging s l → gauges (record env s l m) = gauges m) := by
  constructor
  · rintro ⟨rfl, now, woken, hp, hawake⟩
    simp only [record, hp, if_neg hawake]
  · intro hnot
    unfold record
    split
    · exact gauges_recordExpiry _ _
    · rename_i now woken hp
      split_ifs with hrest
      · rfl
      · exact absurd ⟨rfl, now, woken, hp, hrest⟩ hnot
    · exact gauges_recordAdmit _
    · exact gauges_recordDistribute _ _ _ _
    · exact gauges_recordFinish _ _
    · rfl
    · exact gauges_recordGenerate _ _
    · rfl

/-- Before the loop selects for the first time. -/
def Phase.early : Phase → Bool
  | .top => true
  | .expiring _ _ _ => true
  | .idle => true
  | _ => false

/-- Until then the loop is in its first tick. -/
theorem Ungauged.early (h : Ungauged env s) : s.tick = 0 ∧ s.phase.early = true := by
  refine Reachable.invariant (I := fun s => s.tick = 0 ∧ s.phase.early = true) ⟨rfl, rfl⟩
    (fun s l s' hr hi hno hs => ?_) h
  obtain ⟨htick, hearly⟩ := hi
  have hpast : ∀ (now : Time) (woken : Bool), s.phase = .expiring now [] woken → l = .loop →
      s'.phase ≠ .idle → False := by
    rintro now woken hp rfl hne
    exact hno ⟨rfl, now, woken, hp, awake_of_step hp hs hne⟩
  cases reachable_transition (hr.mono fun _ _ _ => trivial) hs with
  | rejected | accepted | setPolicy | cancel | receive | leave => exact ⟨htick, hearly⟩
  | beginExpiry | wake | keep | expire | rest => exact ⟨htick, rfl⟩
  | full hp | select hp | selectRaised hp => exact (hpast _ _ hp rfl (by simp)).elim
  | admitted hp | buildNothing hp | build hp | decoded hp | decodeFailed hp | finishSampled hp
  | dieSampled hp | push hp | finishFailed hp | dieFailed hp => simp [hp, Phase.early] at hearly
  | endTick hp => rcases hp with ⟨idOf, now, hp⟩ | hp <;> simp [hp, Phase.early] at hearly

/-- What the gauges say, and of when. -/
def Gauged (env : Env) (s : State) (m : Metrics) : Prop :=
  Ungauged env s ∧ gauges m = (0, 0, 0) ∨ ∃ before, GaugedAt env before s ∧ Shows m before

theorem Gauged.step (h : Gauged env s m) (hr : Reachable (step env) anything (start env) s)
    (hs : step env s l = some s') : Gauged env s' (record env s l m) := by
  obtain ⟨hsets, hkeeps⟩ := @record_gauges env s l m
  by_cases hg : Gauging s l
  · rw [hsets hg]
    obtain rfl := hg.1
    exact .inr ⟨s, ⟨hr, hg, s', hs, .init⟩, shows_recordTick s m⟩
  · rcases h with ⟨hno, hzero⟩ | ⟨before, ⟨hreach, hgauging, after, hafter, hsince⟩, hshows⟩
    · exact .inl ⟨.next hno hg hs, (hkeeps hg).trans hzero⟩
    · exact .inr ⟨before, ⟨hreach, hgauging, after, hafter, .next hsince hg hs⟩,
        hshows.of_gauges (hkeeps hg)⟩

/-- What a batch of `tokens` rows may hold `requests` sequences of. -/
def BatchSize (env : Env) (requests tokens : ℚ) : Prop :=
  1 ≤ requests ∧ requests ≤ tokens ∧ requests ≤ env.nSeqMax ∧ tokens ≤ env.batchCapacity

structure Readings (env : Env) (s : State) (m : Metrics) : Prop where
  nodes : m.prefixCacheNodes = nodesOf s.prefixCache
  batches : List.Forall₂ (BatchSize env) m.batchSizeRequests.observed m.batchSizeTokens.observed
  utilization : m.batchUtilization.observed =
    m.batchSizeTokens.observed.map fun tokens : ℚ => tokens / env.batchCapacity
  decodes : m.decodeStepDurationSeconds.count = m.batchSizeTokens.count

theorem readings_start (env : Env) : Readings env (start env) .init := by
  refine ⟨?_, .nil, rfl, rfl⟩
  cases h : env.prefixBlockSize <;> simp [start, nodesOf, h, Metrics.init, PythonPrefixCache.init]

/-- A batch has rows of at most as many sequences as there are slots. -/
theorem batchSize_built (hb : Books env s) {prepared : PreparedBatch}
    (hprep : prepared = buildBatch s.active.values env.batchCapacity env.chunkSize)
    (hne : prepared.rows ≠ []) :
    BatchSize env (distinctSeqIds prepared).length prepared.rows.length := by
  have hpos : 1 ≤ (distinctSeqIds prepared).length := by
    obtain ⟨row, hrow⟩ := List.exists_mem_of_ne_nil _ hne
    exact List.length_pos_of_mem (List.mem_dedup.mpr (List.mem_map_of_mem hrow))
  have hle : (distinctSeqIds prepared).length ≤ prepared.rows.length :=
    (List.dedup_sublist _).length_le.trans (List.length_map _).le
  have hslots : (distinctSeqIds prepared).length ≤ env.nSeqMax := by
    have hsub : distinctSeqIds prepared ⊆ slots env := by
      intro seqId hm
      obtain ⟨row, hrow, rfl⟩ := List.mem_map.mp (List.mem_dedup.mp hm)
      obtain ⟨seq, hmem, hslot⟩ := buildBatch_seqId (hprep ▸ hrow)
      rw [hslot]
      exact hb.slots.subset (List.mem_append_right _ (List.mem_map_of_mem hmem))
    have hlen := (List.subperm_of_subset (List.nodup_dedup _) hsub).length_le
    rwa [slots, List.length_map, List.length_range] at hlen
  have hcap : prepared.rows.length ≤ env.batchCapacity := by
    rw [hprep, buildBatch_length]
    exact min_le_left _ _
  exact ⟨by exact_mod_cast hpos, by exact_mod_cast hle, by exact_mod_cast hslots,
    by exact_mod_cast hcap⟩

theorem Readings.noted (h : Readings env s m) (hb : Books env s) (hbusy : Busy s)
    (hn : Noted env s m s' m') : Readings env s' m' := by
  obtain ⟨h1, h2, h3, h4⟩ := h
  cases hn with
  | quiet hu hi => exact ⟨by rw [hu.prefixCache, h1], h2, h3, h4⟩
  | tick hu hi => exact ⟨by rw [hu.prefixCache, ← h1]; rfl, h2, h3, h4⟩
  | rejected id reason hnew hu hi => exact ⟨by rw [hu.prefixCache, ← h1], h2, h3, h4⟩
  | accepted hnew hfresh hu hi => exact ⟨by rw [hu.prefixCache, ← h1], h2, h3, h4⟩
  | expired hpool hu hi => exact ⟨by rw [hu.prefixCache, ← h1], h2, h3, h4⟩
  | @admitted request seqId phase hpool hreused hlive =>
    refine ⟨?_, h2, h3, h4⟩
    cases hc : s.prefixCache with
    | none => simp [admittedMetrics, admittedState, claimPrefix_none hc, hc, h1]
    | some c => simp [admittedMetrics, admittedState, claimPrefix_cache hc, hc, nodesOf]
  | @decoded s' prepared hp hprep hkeys hactive hu hi =>
    rw [Busy, hp] at hbusy
    refine ⟨by rw [hu.prefixCache]; exact h1, ?_, ?_, ?_⟩
    · exact List.rel_append h2 (.cons (batchSize_built hb hprep hbusy) .nil)
    · simp [recordDecoded, Histogram.observe, h3]
    · simp [recordDecoded, h4]
  | @ended s' id seq state why hseq hstate hdrained hq ha hr hc hrecorded hdead hlive hi =>
    refine ⟨?_, h2, h3, h4⟩
    rw [hc]
    cases hcache : s.prefixCache <;> simp [endedMetrics, hcache, nodesOf, h1]
  | pushed hseq hstate hnil hp => exact ⟨h1, h2, h3, h4⟩

/-- What the gauges of a tick say is within its bounds. -/
theorem GaugedAt.bounds {before : State} (h : GaugedAt env before s) (hshows : Shows m before) :
    m.queueDepth ≤ env.maxQueueDepth ∧ 0 ≤ m.kvBlocksUsed ∧
      m.kvBlocksFree + m.kvBlocksUsed = (env.totalTokens / env.kvBlockSize : ℕ) := by
  obtain ⟨h1, h2, h3⟩ := hshows
  have hb := (reachable_books h.1).1
  have hconserved := before.kvCache.conserved
  have htotal := hb.totalBlocks
  refine ⟨h1 ▸ hb.depth, ?_, ?_⟩ <;> omega

/-- In every state the gauges tell the truth: as many nodes as the active prompts have distinct runs
of leading blocks, and the queue and the blocks as they were when the last tick set the gauges,
nothing before the first. Every batch on record had a row for each of its sequences, no more
sequences than slots and no more rows than its capacity, and its utilization is on record with
it. -/
theorem gauges_true (env : Env) (s : State) (m : Metrics)
    (h : Reachable (metered env) anything (start env, .init) (s, m)) :
    m.prefixCacheNodes = (env.prefixBlockSize.elim 0 fun b => (prefixes (activeClaims s b)).card) ∧
    (s.tick = 0 ∧ Ungauged env s ∧ m.queueDepth = 0 ∧ m.kvBlocksFree = 0 ∧ m.kvBlocksUsed = 0 ∨
      (∃ before, GaugedAt env before s ∧ Shows m before) ∧ m.queueDepth ≤ env.maxQueueDepth ∧
        0 ≤ m.kvBlocksUsed ∧
        m.kvBlocksFree + m.kvBlocksUsed = (env.totalTokens / env.kvBlockSize : ℕ)) ∧
    List.Forall₂ (BatchSize env) m.batchSizeRequests.observed m.batchSizeTokens.observed ∧
    m.batchUtilization.observed =
      m.batchSizeTokens.observed.map (fun tokens : ℚ => tokens / env.batchCapacity) ∧
    m.decodeStepDurationSeconds.count = m.batchSizeTokens.count := by
  obtain ⟨h1, h2, h3, h4⟩ : Readings env s m := by
    refine h.noted (I := Readings env) (readings_start env) fun s m l s' hr hi hs => ?_
    exact hi.noted (reachable_books hr).1 (reachable_busy hr) (reachable_noted hr hs)
  have hgauged : Gauged env s m :=
    h.noted (I := Gauged env) (.inl ⟨.init, rfl⟩) fun s m l s' hr hi hs => hi.step hr hs
  have hr : Reachable (step env) anything (start env) s := h.forget
  refine ⟨?_, ?_, h2, h3, h4⟩
  · have hsize := (reachable_mirrors hr).1
    rw [h1]
    cases hc : s.prefixCache with
    | none =>
      rw [hc] at hsize
      rw [Option.map_eq_none_iff.mp hsize.symm]
      rfl
    | some c =>
      rw [hc] at hsize
      obtain ⟨b, hb, hcb⟩ := Option.map_eq_some_iff.mp hsize.symm
      simp only at hcb
      rw [hb, nodesOf, Option.elim_some, Option.elim_some, nodes_of_prompts hr hc, hcb]
  · rcases hgauged with ⟨hno, hzero⟩ | ⟨before, hat, hshows⟩
    · simp only [gauges, Prod.mk.injEq] at hzero
      exact .inl ⟨hno.early.1, hno, hzero⟩
    · exact .inr ⟨⟨before, hat, hshows⟩, hat.bounds hshows⟩

/-- One of two requests that share a prompt has gone since the last tick set the gauges. -/
theorem gauges_true_demo : ∃ s m,
    run (metered demo) (start demo, .init) demoFates = some (s, m) ∧
    m.prefixCacheNodes = (prefixes (activeClaims s 2)).card ∧
    (∃ before, GaugedAt demo before s ∧ Shows m before) ∧
    List.Forall₂ (BatchSize demo) m.batchSizeRequests.observed m.batchSizeTokens.observed ∧
    m.kvBlocksFree = 14 ∧ s.kvCache.freeBlocks = 16 := by
  have hrun : (run (metered demo) (start demo, .init) demoFates).map (fun x =>
      (x.2.kvBlocksFree, x.1.kvCache.freeBlocks)) = some (14, 16) := by
    decide +kernel
  obtain ⟨⟨s, m⟩, hs, hfinal⟩ := Option.map_eq_some_iff.mp hrun
  obtain ⟨hfree, hnow⟩ := Prod.mk.inj hfinal
  obtain ⟨htrue, hgauged, hbatches, -⟩ := gauges_true demo s m (Reachable.init.run hs)
  refine ⟨s, m, hs, htrue, ?_, hbatches, hfree, hnow⟩
  rcases hgauged with ⟨-, -, -, hzero, -⟩ | ⟨hat, -⟩
  · exact absurd (hfree.symm.trans hzero) (by decide)
  · exact hat

end Gauges

section Latencies
variable {env : Env} {s s' : State} {m m' : Metrics} {l : Label}

/-- What the clock is about to show. -/
def present (env : Env) (s : State) : Time := env.clock s.tick s.reads

/-- A time that the clock has shown by `now`. -/
def Shown (env : Env) (now time : Time) : Prop := env.clock 0 0 ≤ time ∧ time ≤ now

/-- What is noted of a running request was read off the clock by `now`. -/
def Stamped (env : Env) (now : Time) (state : RequestState) : Prop :=
  Shown env now state.arrivalTs ∧ Shown env now state.admittedTs ∧
    ∀ last, state.lastTokenTs = some last → Shown env now last

/-- No timestamp lies in the future, nor after the reading that a batch is distributed at. -/
structure Timely (env : Env) (s : State) : Prop where
  queued : ∀ id request, s.queue.pool.get? id = some request →
    Shown env (present env s) request.arrivalTs
  running : ∀ id state, s.requests.get? id = some state → Stamped env (present env s) state
  decoding : ∀ prepared, s.phase = .decoding prepared → Shown env (present env s) s.decodeStarted
  distributing : ∀ idOf now todo, s.phase = .distributing idOf now todo →
    Shown env (present env s) now ∧
      ∀ id state, s.requests.get? id = some state → Stamped env now state

theorem Shown.later {now now' time : Time} (h : Shown env now time) (hle : now ≤ now') :
    Shown env now' time :=
  ⟨h.1, h.2.trans hle⟩

theorem Stamped.later {now now' : Time} {state : RequestState} (h : Stamped env now state)
    (hle : now ≤ now') : Stamped env now' state :=
  ⟨h.1.later hle, h.2.1.later hle, fun last hlast => (h.2.2 last hlast).later hle⟩

theorem shown_reading (hclock : Nondecreasing env) {tick reads : ℕ} {now : Time}
    (hle : env.clock tick reads ≤ now) : Shown env now (env.clock tick reads) :=
  ⟨hclock _ _ _ _ (Nat.zero_le _) (Nat.zero_le _), hle⟩

/-- `finish` reads the clock where it has a throughput to compute. -/
theorem reads_le (state : RequestState) :
    s.reads ≤ if 0 < state.tokensEmitted then s.reads + 1 else s.reads := by
  split_ifs <;> omega

theorem Timely.frame (h : Timely env s) (hclock : Nondecreasing env) (htick : s.tick ≤ s'.tick)
    (hreads : s.reads ≤ s'.reads)
    (hq : ∀ id request, s'.queue.pool.get? id = some request → s.queue.pool.get? id = some request)
    (hr : ∀ id state, s'.requests.get? id = some state → s.requests.get? id = some state)
    (hd : ∀ prepared, s'.phase = .decoding prepared →
      s.phase = .decoding prepared ∧ s'.decodeStarted = s.decodeStarted)
    (hp : ∀ idOf now todo, s'.phase = .distributing idOf now todo →
      ∃ todo', s.phase = .distributing idOf now todo') : Timely env s' := by
  have hlater : present env s ≤ present env s' := hclock _ _ _ _ htick hreads
  refine ⟨fun id request hg => (h.queued id request (hq id request hg)).later hlater,
    fun id state hg => (h.running id state (hr id state hg)).later hlater,
    fun prepared hphase => ?_, fun idOf now todo hphase => ?_⟩
  · obtain ⟨hold, hsame⟩ := hd prepared hphase
    rw [hsame]
    exact (h.decoding prepared hold).later hlater
  · obtain ⟨todo', hold⟩ := hp idOf now todo hphase
    obtain ⟨hnow, hstamped⟩ := h.distributing idOf now todo' hold
    exact ⟨hnow.later hlater, fun id state hg => hstamped id state (hr id state hg)⟩

theorem Timely.transition (h : Timely env s) (hclock : Nondecreasing env)
    (ht : Transition env s l s') : Timely env s' := by
  have hnext : env.clock s.tick s.reads ≤ env.clock s.tick (s.reads + 1) :=
    hclock _ _ _ _ le_rfl (Nat.le_succ _)
  have hread := @shown_reading env hclock s.tick s.reads _ hnext
  cases ht with
  | rejected | setPolicy | cancel | receive | leave =>
    exact h.frame hclock le_rfl le_rfl (fun _ _ hg => hg) (fun _ _ hg => hg)
      (fun prepared hp => ⟨hp, rfl⟩) fun idOf now todo hp => ⟨todo, hp⟩
  | @accepted id body kvCache hw hnew hroom hres =>
    obtain ⟨h1, h2, h3, h4⟩ := h
    refine ⟨fun j request hg => ?_, fun j state hg => (h2 j state hg).later hnext,
      fun prepared hp => (h3 prepared hp).later hnext,
      fun idOf now todo hp => ⟨(h4 idOf now todo hp).1.later hnext, (h4 idOf now todo hp).2⟩⟩
    have hget : (s.queue.pool.set id _).get? j = some request := hg
    rw [Dict.get?_set] at hget
    split_ifs at hget
    · obtain rfl := Option.some.inj hget
      exact hread
    · exact (h1 j request hget).later hnext
  | beginExpiry | wake =>
    exact h.frame hclock le_rfl (Nat.le_succ _) (fun _ _ hg => hg) (fun _ _ hg => hg)
      (fun prepared hp => by simp at hp) fun idOf now todo hp => by simp at hp
  | keep | rest | full | select | selectRaised | decodeFailed =>
    exact h.frame hclock le_rfl le_rfl (fun _ _ hg => hg) (fun _ _ hg => hg)
      (fun prepared hp => by simp at hp) fun idOf now todo hp => by simp at hp
  | build =>
    obtain ⟨h1, h2, -, -⟩ := h
    exact ⟨fun j other hg => (h1 j other hg).later hnext,
      fun j state hg => (h2 j state hg).later hnext, fun prepared hp => hread,
      fun idOf now todo hp => by simp at hp⟩
  | expire =>
    exact h.frame hclock le_rfl le_rfl (fun _ _ hg => Dict.get?_of_erase hg) (fun _ _ hg => hg)
      (fun prepared hp => by simp [expiredState] at hp)
      fun idOf now todo hp => by simp [expiredState] at hp
  | buildNothing | endTick =>
    exact h.frame hclock (Nat.le_succ _) le_rfl (fun _ _ hg => hg) (fun _ _ hg => hg)
      (fun prepared hp => by simp at hp) fun idOf now todo hp => by simp at hp
  | @admitted request todo seqId hp hpool hslot =>
    obtain ⟨h1, h2, -, -⟩ := h
    refine ⟨fun j other hg => (h1 j other (Dict.get?_of_erase hg)).later hnext,
      fun j state hg => ?_, fun prepared hp => by simp [admittedState] at hp,
      fun idOf now todo hp => by simp [admittedState] at hp⟩
    have hget : (s.requests.set request.id _).get? j = some state := hg
    rw [Dict.get?_set] at hget
    split_ifs at hget
    · obtain rfl := Option.some.inj hget
      exact ⟨(h1 _ _ hpool).later hnext, hread, fun last hlast => by simp at hlast⟩
    · exact (h2 j state hget).later hnext
  | decoded hp hkeys hactive =>
    obtain ⟨h1, h2, -, -⟩ := h
    have hlast : env.clock s.tick (s.reads + 1) ≤ env.clock s.tick (s.reads + 2) :=
      hclock _ _ _ _ le_rfl (Nat.le_succ _)
    refine ⟨fun j other hg => (h1 j other hg).later (hnext.trans hlast),
      fun j state hg => (h2 j state hg).later (hnext.trans hlast),
      fun prepared hphase => by simp at hphase, fun idOf now todo hphase => ?_⟩
    simp only [Phase.distributing.injEq] at hphase
    obtain ⟨-, rfl, -⟩ := hphase
    exact ⟨shown_reading hclock hlast, fun j state hg => (h2 j state hg).later hnext⟩
  | @finishSampled idOf now seqId token todo id seq state why hp hid hseq hstate hwhy hnt =>
    refine h.frame hclock le_rfl (reads_le (decremented state)) (fun _ _ hg => hg)
      (fun _ _ hg => Dict.get?_of_erase hg)
      (fun prepared hphase => by simp [finishedState] at hphase)
      fun idOf' now' todo' hphase => ?_
    simp only [finishedState, Phase.distributing.injEq] at hphase
    obtain ⟨rfl, rfl, -⟩ := hphase
    exact ⟨_, hp⟩
  | @dieSampled idOf now seqId token todo id seq state why hp hid hseq hstate hwhy hnt =>
    exact h.frame hclock le_rfl (reads_le (decremented state)) (fun _ _ hg => hg)
      (fun _ _ hg => Dict.get?_of_erase hg)
      (fun prepared hphase => by simp [diedState] at hphase)
      fun _ _ _ hphase => by simp [diedState] at hphase
  | @finishFailed id todo seq state hp hseq hstate hnt =>
    exact h.frame hclock le_rfl (reads_le state) (fun _ _ hg => hg)
      (fun _ _ hg => Dict.get?_of_erase hg)
      (fun prepared hphase => by simp [finishedState] at hphase)
      fun _ _ _ hphase => by simp [finishedState] at hphase
  | @dieFailed id todo seq state hp hseq hstate hnt =>
    exact h.frame hclock le_rfl (reads_le state) (fun _ _ hg => hg)
      (fun _ _ hg => Dict.get?_of_erase hg)
      (fun prepared hphase => by simp [diedState] at hphase)
      fun _ _ _ hphase => by simp [diedState] at hphase
  | @push idOf now seqId token todo id seq state hp hid hseq hstate hgo =>
    obtain ⟨h1, h2, -, h4⟩ := h
    obtain ⟨hnow, hstamped⟩ := h4 idOf now _ hp
    have hpushed : ∀ limit, now ≤ limit → Stamped env limit state →
        Stamped env limit { decremented state with
          tokensEmitted := state.tokensEmitted + 1
          lastTokenTs := some now } := by
      rintro limit hle ⟨ha, hd, -⟩
      exact ⟨ha, hd, fun last hlast => Option.some.inj hlast ▸ ⟨hnow.1, hle⟩⟩
    have hall : ∀ limit, now ≤ limit →
        (∀ j other, s.requests.get? j = some other → Stamped env limit other) → ∀ j other,
        (pushedState env s id seq state now token (.distributing idOf now todo)).requests.get? j =
          some other → Stamped env limit other := by
      intro limit hle hold j other hg
      have hget : (s.requests.set id _).get? j = some other := hg
      rw [Dict.get?_set] at hget
      split_ifs at hget
      · obtain rfl := Option.some.inj hget
        exact hpushed limit hle (hold id state hstate)
      · exact hold j other hget
    refine ⟨h1, hall _ hnow.2 h2, fun prepared hphase => by simp [pushedState] at hphase,
      fun idOf' now' todo' hphase => ?_⟩
    simp only [pushedState, Phase.distributing.injEq] at hphase
    obtain ⟨-, rfl, -⟩ := hphase
    exact ⟨hnow, hall _ le_rfl hstamped⟩

theorem reachable_timely (hclock : Nondecreasing env)
    (h : Reachable (step env) anything (start env) s) : Timely env s := by
  refine h.invariant (I := Timely env) ⟨?_, ?_, ?_, ?_⟩ fun s l s' hr hi _ hs => ?_
  · intro id request hg
    simp [start, Scheduler.RequestQueue.init] at hg
  · intro id state hg
    simp [start] at hg
  · intro prepared hp
    simp [start] at hp
  · intro idOf now todo hp
    simp [start] at hp
  · exact hi.transition hclock (reachable_transition hr hs)

/-- How long something can have taken: not less than nothing, not longer than the clock has run. -/
def Lasted (env : Env) (s : State) (x : ℚ) : Prop := 0 ≤ x ∧ x ≤ present env s - env.clock 0 0

structure Latencies (env : Env) (s : State) (m : Metrics) : Prop where
  waits : ∀ x ∈ m.queueWaitSeconds.observed, Lasted env s x
  decodes : ∀ x ∈ m.decodeStepDurationSeconds.observed, Lasted env s x
  first : ∀ x ∈ m.ttftSeconds.observed, Lasted env s x
  gaps : ∀ x ∈ m.interTokenLatencySeconds.observed, Lasted env s x
  throughput : ∀ x ∈ m.tokensPerSecond.observed, 0 < x

theorem Lasted.later {x : ℚ} (h : Lasted env s x) (hle : present env s ≤ present env s') :
    Lasted env s' x :=
  ⟨h.1, h.2.trans (sub_le_sub_right hle _)⟩

theorem Latencies.later (h : Latencies env s m) (hle : present env s ≤ present env s') :
    Latencies env s' m :=
  ⟨fun x hx => (h.waits x hx).later hle, fun x hx => (h.decodes x hx).later hle,
    fun x hx => (h.first x hx).later hle, fun x hx => (h.gaps x hx).later hle, h.throughput⟩

/-- From a time that the clock has shown by `now` to then. -/
theorem Shown.lasted {now time : Time} (h : Shown env now time) (hnow : now ≤ present env s) :
    Lasted env s (now - time) :=
  ⟨sub_nonneg.mpr h.2, sub_le_sub hnow h.1⟩

theorem lasted_observe {h : Histogram} (hall : ∀ x ∈ h.observed, Lasted env s x) {y : ℚ}
    (hy : Lasted env s y) : ∀ x ∈ (h.observe y).observed, Lasted env s x := by
  intro x hx
  rcases Histogram.mem_observe.mp hx with hold | rfl
  · exact hall x hold
  · exact hy

/-- What a step records has lasted by the time it is recorded. -/
theorem Latencies.noted (h : Latencies env s m) (ht : Timely env s)
    (hn : Noted env s m s' m') : Latencies env s m' := by
  obtain ⟨h1, h2, h3, h4, h5⟩ := h
  cases hn with
  | @admitted request seqId phase hpool hreused hlive =>
    exact ⟨lasted_observe h1 ((ht.queued _ _ hpool).lasted le_rfl), h2, h3, h4, h5⟩
  | decoded hp =>
    exact ⟨h1, lasted_observe h2 ((ht.decoding _ hp).lasted le_rfl), h3, h4, h5⟩
  | @ended s' id seq state why hseq hstate hdrained hq ha hr hc hrecorded hdead hlive hi =>
    refine ⟨h1, h2, h3, h4, fun x hx => ?_⟩
    simp only [endedMetrics] at hx
    split_ifs at hx with hpos
    · rcases Histogram.mem_observe.mp hx with hold | rfl
      · exact h5 x hold
      · have hle : state.admittedTs ≤ present env s := (ht.running id state hstate).2.1.2
        have hgone : 0 < env.clock s.tick s.reads - state.admittedTs :=
          lt_of_le_of_ne (sub_nonneg.mpr hle) (Ne.symm hpos.2)
        exact div_pos (by exact_mod_cast hpos.1) hgone
    · exact h5 x hx
  | @pushed id seq state now token phase hseq hstate hnil hp =>
    obtain ⟨idOf, seqId, todo, hp⟩ := hp
    obtain ⟨hnow, hstamped⟩ := ht.distributing idOf now _ hp
    obtain ⟨harrival, -, hlast⟩ := hstamped id state hstate
    by_cases hzero : state.tokensEmitted = 0
    · refine ⟨h1, h2, ?_, ?_, h5⟩
      · simpa only [pushedMetrics, if_pos hzero] using lasted_observe h3 (harrival.lasted hnow.2)
      · simpa only [pushedMetrics, if_pos hzero] using h4
    · refine ⟨h1, h2, ?_, ?_, h5⟩
      · simpa only [pushedMetrics, if_neg hzero] using h3
      · cases hts : state.lastTokenTs with
        | none => simpa only [pushedMetrics, if_neg hzero, hts, Option.elim_none] using h4
        | some last =>
          simpa only [pushedMetrics, if_neg hzero, hts, Option.elim_some] using
            lasted_observe h4 ((hlast last hts).lasted hnow.2)
  | _ => exact ⟨h1, h2, h3, h4, h5⟩

/-- The clock runs on with every step. -/
theorem present_le (hclock : Nondecreasing env) (ht : Transition env s l s') :
    present env s ≤ present env s' := by
  cases ht with
  | accepted | beginExpiry | wake | build | admitted => exact hclock _ _ _ _ le_rfl (Nat.le_succ _)
  | decoded => exact hclock _ _ _ _ le_rfl (Nat.le_add_right _ 2)
  | buildNothing | endTick => exact hclock _ _ _ _ (Nat.le_succ _) le_rfl
  | finishSampled | dieSampled | finishFailed | dieFailed =>
    exact hclock _ _ _ _ le_rfl (reads_le _)
  | _ => exact le_rfl

theorem latencies_init : Latencies env (start env) .init := by
  constructor <;> simp [Metrics.init, Histogram.zero]

/-- On a clock that never goes back every wait, decode, time to a first token and gap on record has
taken no less than nothing and no more than the clock has run, and every throughput is positive. -/
theorem latencies_sound (env : Env) (hclock : Nondecreasing env) (s : State) (m : Metrics)
    (h : Reachable (metered env) anything (start env, .init) (s, m)) : Latencies env s m := by
  refine h.noted (I := Latencies env) latencies_init fun s m l s' hr hi hs => ?_
  have hsound := hi.noted (reachable_timely hclock hr) (reachable_noted hr hs)
  exact hsound.later (present_le hclock (reachable_transition hr hs))

/-- A clock that every reading moves on. -/
def demoTicking : Env := { demo with clock := fun tick reads => tick + reads }

theorem latencies_sound_demo : ∃ s m,
    run (metered demoTicking) (start demoTicking, .init) demoRun = some (s, m) ∧
    Latencies demoTicking s m ∧ m.queueWaitSeconds.observed = [2] ∧
    m.decodeStepDurationSeconds.observed = [1, 1, 1] := by
  have hrun : (run (metered demoTicking) (start demoTicking, .init) demoRun).map (fun x =>
      (x.2.queueWaitSeconds.observed, x.2.decodeStepDurationSeconds.observed)) =
      some ([2], [1, 1, 1]) := by
    decide +kernel
  obtain ⟨⟨s, m⟩, hs, hfinal⟩ := Option.map_eq_some_iff.mp hrun
  obtain ⟨hwaits, hdecodes⟩ := Prod.mk.inj hfinal
  have hclock : Nondecreasing demoTicking := fun tick tick' reads reads' htick hreads =>
    add_le_add (Nat.cast_le.mpr htick) (Nat.cast_le.mpr hreads)
  exact ⟨s, m, hs, latencies_sound demoTicking hclock s m (Reachable.init.run hs), hwaits, hdecodes⟩

end Latencies

end TinyServe.BatchLoop
