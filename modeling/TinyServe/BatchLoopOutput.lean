import TinyServe.BatchLoopMemory

set_option autoImplicit false

/-! What a request is served is what a decoder of that request alone would produce. -/
namespace TinyServe.BatchLoop
open OrderedDict SequenceMemory BatchBuilder Scheduler LlamaRuntime Runs

section Reference
variable {τ : Type}

/-- The first tokens of the isolated decoder: each is sampled from all that precedes it. -/
def reference (f : List τ → τ) (prompt : List τ) : ℕ → List τ
  | 0 => []
  | n + 1 => reference f prompt n ++ [f (prompt ++ reference f prompt n)]

@[simp] theorem reference_length (f : List τ → τ) (prompt : List τ) (n : ℕ) :
    (reference f prompt n).length = n := by
  induction n with
  | zero => rfl
  | succ n ih => rw [reference, List.length_append, ih, List.length_singleton]

theorem reference_le (f : List τ → τ) (prompt : List τ) {m n : ℕ} (h : m ≤ n) :
    reference f prompt m <+: reference f prompt n := by
  induction n with
  | zero => rw [Nat.le_zero.mp h]
  | succ n ih =>
    rcases Nat.lt_or_ge m (n + 1) with hlt | hge
    · exact (ih (Nat.lt_succ_iff.mp hlt)).trans (List.prefix_append _ _)
    · rw [Nat.le_antisymm h hge]

theorem reference_comparable (f : List τ → τ) (prompt : List τ) (m n : ℕ) :
    reference f prompt m <+: reference f prompt n ∨
      reference f prompt n <+: reference f prompt m :=
  (Nat.le_total m n).imp (reference_le f prompt) (reference_le f prompt)

end Reference

/-- The runtime samples, for each row that needs logits, `f` of what its sequence then holds. -/
def SamplesBy (f : List Token → Token) (s : State) (l : Label) : Prop :=
  ∀ sample order prepared, l = .decoded sample order → s.phase = .decoding prepared →
    ∀ i row, prepared.rows[i]? = some row → row.needsLogits = true →
      sample i = f (contents (decode s.memory prepared) row.seqId)

/-- A token to be distributed was sampled from the text of its request, and what was pushed so
far is what the isolated decoder gives. -/
structure Outputs (f : List Token → Token) (s : State) : Prop where
  due : ∀ e ∈ s.phase.undelivered, ∀ request seq, s.active.get? request.id = some seq →
    s.accepted.get? request.id = some request → seq.seqId = e.1 → e.2 = f (text s request)
  follows : ∀ request, s.accepted.get? request.id = some request →
    pushed s.log request.id =
      reference f request.promptTokens (pushed s.log request.id).length

section Kept
variable {env : Env} {f : List Token → Token} {s s' : State}

theorem outputs_start (env : Env) (f : List Token → Token) : Outputs f (start env) where
  due _ h := by simp [start, Phase.undelivered] at h
  follows _ h := by simp [start] at h

theorem Outputs.frame (h : Outputs f s) (hacc : s'.accepted = s.accepted)
    (hlog : ∀ id, pushed s'.log id = pushed s.log id)
    (hactive : ∀ e ∈ s'.phase.undelivered, e ∈ s.phase.undelivered ∧
      ∀ id seq, s'.active.get? id = some seq → s.active.get? id = some seq) :
    Outputs f s' := by
  refine ⟨fun e he request seq hseq hreq hslot => ?_, fun request hreq => ?_⟩
  · obtain ⟨hin, hsame⟩ := hactive e he
    rw [hacc] at hreq
    rw [text, hlog]
    exact h.due e hin request seq (hsame _ seq hseq) hreq hslot
  · rw [hacc] at hreq
    rw [hlog]
    exact h.follows request hreq

theorem Outputs.accepted_step (h : Outputs f s) (hb : Books env s) (hacc : Accounts env s)
    {id : RequestId} {request : PendingRequest} (hnew : id ∉ s.issued)
    (haccept : s'.accepted = s.accepted.set id request)
    (hlog : ∀ id, pushed s'.log id = pushed s.log id) (hdue : s'.phase.undelivered = []) :
    Outputs f s' := by
  refine ⟨by simp [hdue], fun other hreq => ?_⟩
  rw [hlog]
  rw [haccept, Dict.get?_set] at hreq
  split_ifs at hreq with hid
  · obtain ⟨-, hactive, haccepted, -⟩ := hb.unissued hnew
    obtain ⟨-, hp, -⟩ := hacc.quiet id hactive (.inr haccepted)
    rw [← hid, hp]
    rfl
  · exact h.follows other hreq

/-- A row that needs logits is the last of its sequence, so it sees the whole text. -/
theorem Outputs.decoded_step (h : Outputs f s) (hc' : Contents s')
    {prepared : PreparedBatch} {sample : ℕ → Token} {order : List SeqId}
    (hphase : s.phase = .decoding prepared)
    (hok : SamplesBy f s (.decoded sample order)) {idOf : Dict SeqId RequestId} {now : Time}
    (hmem : s'.memory = decode s.memory prepared) (hacc : s'.accepted = s.accepted)
    (hphase' : s'.phase = .distributing idOf now (sampled sample prepared).entries)
    (hlog : ∀ id, pushed s'.log id = pushed s.log id) : Outputs f s' := by
  refine ⟨fun e he request seq hseq hreq hslot => ?_, fun request hreq => ?_⟩
  · have hempty := hc'.drained e he request.id seq hseq hslot
    obtain ⟨cells, n, hsp⟩ := hc'.spelled (by rw [hphase']; rfl) request seq hseq hreq
    have htext := hsp.text
    rw [hempty, List.append_nil] at htext
    rw [hphase'] at he
    obtain ⟨i, row, hrow, hl, hr, htoken⟩ := sampled_some (Dict.mem_entries.mp he)
    rw [htoken, hok sample order prepared rfl hphase i row hrow hl, hr, ← hslot, ← hmem,
      hsp.holds.contents_eq, htext]
  · rw [hacc] at hreq
    rw [hlog]
    exact h.follows request hreq

theorem Outputs.pushed_step (h : Outputs f s) (hb : Books env s) (hs : Standing env s)
    {idOf : Dict SeqId RequestId} {now : Time} {seqId : SeqId} {token : Token}
    {todo : List (SeqId × Token)} {id : RequestId} {seq : ActiveSequence} {state : RequestState}
    (hp : s.phase = .distributing idOf now ((seqId, token) :: todo))
    (hid : idOf.get? seqId = some id) (hseq : s.active.get? id = some seq) :
    Outputs f (pushedState env s id seq state now token (.distributing idOf now todo)) := by
  obtain ⟨hslot, hn, hrest⟩ := hs.tail_distributing hp hid hseq
  have hlog : ∀ j, pushed (pushedState env s id seq state now token
      (.distributing idOf now todo)).log j =
      pushed s.log j ++ (if id = j then [token] else []) := by
    intro j
    by_cases hj : id = j <;> simp [pushedState, asPushed, hj]
  refine ⟨fun e he request other hother hreq hes => ?_, fun request hreq => ?_⟩
  · obtain ⟨j, owner, -, howner, hos, hne⟩ := hrest e he
    have hother' : (s.active.set id _).get? request.id = some other := hother
    rw [Dict.get?_set] at hother'
    split_ifs at hother' with hj
    · obtain rfl := Option.some.inj hother'
      exact absurd (hb.slot_unique hseq howner (hes.trans hos.symm)) hne
    · have hin : e ∈ s.phase.undelivered := by
        rw [hp]
        exact List.mem_cons_of_mem _ he
      rw [text, hlog, if_neg hj, List.append_nil]
      exact h.due e hin request other hother' hreq hes
  · have hreq' : s.accepted.get? request.id = some request := hreq
    have hf := h.follows request hreq'
    rw [hlog]
    split_ifs with hj
    · subst hj
      have htoken : token = f (text s request) := h.due (seqId, token)
        (by rw [hp]; exact List.mem_cons_self) request seq hseq hreq' hslot
      rw [List.length_append, List.length_singleton, reference, ← hf, htoken, text]
    · rw [List.append_nil]
      exact hf

theorem Outputs.transition (h : Outputs f s) (hb : Books env s) (hs : Standing env s)
    (hacc : Accounts env s) (hc' : Contents s') {l : Label} (hok : SamplesBy f s l)
    (ht : Transition env s l s') : Outputs f s' := by
  have hdue : s.phase.awaiting = true → s.phase.undelivered = [] := awaiting_undelivered
  have hnone : ∀ {u : State}, u.phase.undelivered = [] → ∀ e ∈ u.phase.undelivered,
      e ∈ s.phase.undelivered ∧
        ∀ id seq, u.active.get? id = some seq → s.active.get? id = some seq := by
    intro u hu e he
    rw [hu] at he
    simp at he
  cases ht with
  | rejected hw hnew =>
    exact h.frame rfl (pushed_quiet (fun id => by simp [asPushed]) _) (hnone (hdue hw))
  | accepted hw hnew hroom hres =>
    exact h.accepted_step hb hacc hnew rfl (pushed_quiet (fun id => by simp [asPushed]) _) (hdue hw)
  | setPolicy hw | cancel hw => exact h.frame rfl (fun _ => rfl) (hnone (hdue hw))
  | receive hw hr =>
    refine h.frame rfl (pushed_quiet (fun id => ?_) _) (hnone (hdue hw))
    split_ifs <;> simp [asPushed]
  | leave hw hl => exact h.frame rfl (pushed_quiet (fun id => by simp [asPushed]) _) (hnone (hdue hw))
  | beginExpiry hp | wake hp | keep hp | rest hp | full hp | select hp | selectRaised hp
  | decodeFailed hp | endTick hp => exact h.frame rfl (fun _ => rfl) (hnone rfl)
  | expire hp | admitted hp | buildNothing hp | build hp | dieSampled hp | finishFailed hp
  | dieFailed hp =>
    refine h.frame rfl (pushed_quiet (fun id => ?_) _) (hnone rfl)
    simp [asPushed]
  | decoded hp hkeys hactive =>
    exact h.decoded_step hc' hp hok rfl rfl rfl (pushed_quiet (fun id => by simp [asPushed]) _)
  | @finishSampled idOf now seqId token todo id seq state why hp hid hseq hstate =>
    refine h.frame rfl (pushed_quiet (fun id => by simp [asPushed]) _) fun e he => ⟨?_, fun j other ho => ?_⟩
    · rw [hp]
      exact List.mem_cons_of_mem _ he
    · exact Dict.get?_of_erase ho
  | push hp hid hseq hstate hgo => exact h.pushed_step hb hs hp hid hseq

theorem reachable_outputs (h : Reachable (step env) (SamplesBy f) (start env) s) :
    Outputs f s := by
  refine h.invariant (outputs_start env f) fun s l s' hr hi hok hs => ?_
  exact hi.transition (reachable_books hr).1 (reachable_books hr).2 (reachable_accounts hr)
    (reachable_contents (.next hr hok hs)) hok (reachable_transition hr hs)

end Kept

/-- What was pushed for a request is what a decoder of its prompt alone gives, under any traffic
and configuration; so two servings of one prompt never disagree. -/
theorem output_is_reference (f : List Token → Token) (env : Env) (s : State)
    (h : Reachable (step env) (SamplesBy f) (start env) s) (id : RequestId)
    (request : PendingRequest) (hr : s.accepted.get? id = some request) :
    pushed s.log id = reference f request.promptTokens (pushed s.log id).length ∧
    ∀ (env' : Env) (s' : State), Reachable (step env') (SamplesBy f) (start env') s' →
      ∀ id' request', s'.accepted.get? id' = some request' →
        request'.promptTokens = request.promptTokens →
        pushed s.log id <+: pushed s'.log id' ∨ pushed s'.log id' <+: pushed s.log id := by
  obtain rfl := (reachable_books h).1.named id request hr
  have hf := (reachable_outputs h).follows request hr
  refine ⟨hf, fun env' s' h' id' request' hr' hsame => ?_⟩
  obtain rfl := (reachable_books h').1.named id' request' hr'
  have hf' := (reachable_outputs h').follows request' hr'
  rw [hsame] at hf'
  rw [hf, hf']
  exact reference_comparable f request.promptTokens _ _

theorem output_is_reference_demo : ∃ s, run (step demo) (start demo) demoRun = some s ∧
    pushed s.log 0 = reference (fun _ => 1) [1, 1, 1] (pushed s.log 0).length := by
  obtain ⟨s, hs, hreq, -⟩ := demoRun_ends
  have hok : ∀ l ∈ demoRun, ∀ s, SamplesBy (fun _ => 1) s l := by
    intro l hl s sample order prepared he _ i row _ _
    subst he
    simp [demoRun] at hl
    rw [hl.1]
  exact ⟨s, hs, (output_is_reference (fun _ => 1) demo s (Reachable.init.run_allowed hok hs) 0 _
    hreq).1⟩

end TinyServe.BatchLoop
