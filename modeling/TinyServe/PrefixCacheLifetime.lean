import TinyServe.NativePrefixCacheHeap

set_option autoImplicit false

/-! `close`, of either backend, at any time and any number of times. -/
namespace TinyServe
open OrderedDict PrefixClaims PrefixCacheBase PrefixCacheTable

namespace PrefixCacheTable

inductive Use where
  | op (op : Op)
  | close

/-- The answers of a table that is emptied by every `close`. -/
def replies (blockSize : ℕ) : Table → List Use → List Answer
  | _, [] => []
  | t, .op op :: us => answer blockSize t op :: replies blockSize (update blockSize t op) us
  | _, .close :: us => .done :: replies blockSize [] us

end PrefixCacheTable

namespace PythonPrefixCache

/-- `close`: a fresh root, and nothing registered. -/
def Cache.close (c : Cache) : Cache := init c.blockSize c.blockSize_pos

def Cache.use (c : Cache) : Use → Cache × Answer
  | .op op => c.perform op
  | .close => (c.close, .done)

/-- The answers to a sequence of uses, in order. -/
def Cache.replies : Cache → List Use → List Answer
  | _, [] => []
  | c, u :: us => (c.use u).2 :: (c.use u).1.replies us

theorem Refines.replies {c : Cache} {claims : Claims SeqId Block}
    {addr : List Block → Option ClaimTree.Address} (h : Refines c claims addr) (us : List Use) :
    c.replies us = PrefixCacheTable.replies c.blockSize claims us := by
  induction us generalizing c claims addr with
  | nil => rfl
  | cons u us ih =>
    cases u with
    | op op =>
      obtain ⟨ha, hb, addr', h'⟩ := h.perform op
      exact congrArg₂ List.cons ha ((ih h').trans (by rw [hb]))
    | close => exact congrArg (.done :: ·) (ih (init_refines c.blockSize c.blockSize_pos))

end PythonPrefixCache

namespace NativePrefixCache

/-- `NativePrefixCache` over its lifetime: `_handle` is `None` once it is closed. `left` is what
every call of `ts_prefix_cache_destroy` left allocated. -/
structure Binding where
  blockSize : ℕ
  handle : Option Tree
  left : List (Dict ClaimTree.Address CacheNode)

def openBinding (blockSize : ℕ) : Option Binding :=
  (init blockSize).map fun c => ⟨c.blockSize, some c.handle, []⟩

/-- What the binding makes of the answers of the library to a NULL handle. -/
def onNull (blockSize : ℕ) : Op → Answer
  | .insert _ _ => .published 0
  | .evict _ => .done
  | .match_ _ => .found .none
  | .matchForReuse tokens =>
    .found (Id.run (matchForReuse blockSize (fun _ => pure .none) tokens))
  | .nodeCount => .count 0
  | .seqCount => .count 0

/-- A method of the binding. The teardown is given a turn for every node. -/
def Binding.use (std : StdSort) (b : Binding) : Use → Except Fault (Binding × Answer)
  | .op op =>
    match b.handle with
    | none => .ok (b, onNull b.blockSize op)
    | some t => do
      let (c, a) ← Cache.perform std ⟨b.blockSize, t⟩ op
      return ({ b with handle := some c.handle }, a)
  | .close =>
    match b.handle with
    | none => .ok (b, .done)
    | some t => do
      let left ← t.destroy t.heap.size
      return ({ b with handle := none, left := b.left ++ [left.getD t.heap] }, .done)

/-- A sequence of uses: what has become of the binding, and the answers in order. -/
def Binding.run (std : StdSort) : Binding → List Use → Except Fault (Binding × List Answer)
  | b, [] => .ok (b, [])
  | b, u :: us => do
    let (b, a) ← b.use std u
    let (b, rest) ← b.run std us
    return (b, a :: rest)

def nullReply (blockSize : ℕ) : Use → Answer
  | .op op => onNull blockSize op
  | .close => .done

/-- The answers of a table that is gone after the first `close`. -/
def replies (blockSize : ℕ) : Table → List Use → List Answer
  | _, [] => []
  | t, .op op :: us => narrow (answer blockSize t op) :: replies blockSize (update blockSize t op) us
  | _, .close :: us => .done :: us.map (nullReply blockSize)

section Runs
variable {b : Binding} {t : Tree} {claims : Table}

theorem Binding.run_closed (std : StdSort) (h : b.handle = none) (us : List Use) :
    b.run std us = .ok (b, us.map (nullReply b.blockSize)) := by
  induction us with
  | nil => rfl
  | cons u us ih =>
    have huse : b.use std u = .ok (b, nullReply b.blockSize u) := by
      cases u <;> simp only [Binding.use, h] <;> rfl
    simp only [Binding.run, huse, ih, bind, Except.bind, pure, Except.pure, List.map_cons]

/-- However the binding is used, nothing that was freed is touched, and `close` frees all. -/
theorem Binding.run_open (std : StdSort) (h : b.handle = some t)
    (hagree : Agrees ⟨b.blockSize, t⟩ claims) {us : List Use}
    (hf : ∀ op, .op op ∈ us → OpFits op) :
    ∃ b', b.run std us = .ok (b', replies b.blockSize claims us) ∧
      (.close ∈ us → b'.handle = none ∧ b'.left = b.left ++ [.empty]) ∧
      (.close ∉ us → b'.handle.isSome ∧ b'.left = b.left) := by
  induction us generalizing b t claims with
  | nil => exact ⟨b, rfl, by simp, fun _ => ⟨by simp [h], rfl⟩⟩
  | cons u us ih =>
    cases u with
    | op op =>
      obtain ⟨c, hrun, hsize, hagree'⟩ := hagree.perform std (hf op List.mem_cons_self)
      have huse : b.use std (.op op) =
          .ok ({ b with handle := some c.handle }, narrow (answer b.blockSize claims op)) := by
        simp only [Binding.use, h, hrun, bind, Except.bind, pure, Except.pure]
      have hagree'' : Agrees ⟨b.blockSize, c.handle⟩ (update b.blockSize claims op) := by
        obtain ⟨size, handle⟩ := c
        obtain rfl : size = b.blockSize := hsize
        exact hagree'
      obtain ⟨b', hrest, hclosed, hopen⟩ := @ih { b with handle := some c.handle } c.handle _ rfl
        hagree'' fun o ho => hf o (List.mem_cons_of_mem _ ho)
      refine ⟨b', ?_, ?_, ?_⟩
      · simp only [Binding.run, huse, hrest, bind, Except.bind, pure, Except.pure]
        rfl
      · intro hin
        exact hclosed (by simpa using hin)
      · intro hin
        exact hopen fun hin' => hin (List.mem_cons_of_mem _ hin')
    | close =>
      obtain ⟨addr, hrefines⟩ := hagree.handle
      have hdestroy : t.destroy t.heap.size = .ok (some .empty) :=
        hrefines.destroy (Dict.size_erase_le _ _)
      have huse : b.use std .close =
          .ok ({ b with handle := none, left := b.left ++ [.empty] }, .done) := by
        simp only [Binding.use, h, hdestroy, bind, Except.bind, pure, Except.pure]
        rfl
      have hrest := @Binding.run_closed { b with handle := none, left := b.left ++ [.empty] } std
        rfl us
      refine ⟨{ b with handle := none, left := b.left ++ [.empty] }, ?_, fun _ => ⟨rfl, rfl⟩,
        fun hnot => absurd List.mem_cons_self hnot⟩
      simp only [Binding.run, huse, hrest, bind, Except.bind, pure, Except.pure]
      rfl

end Runs

end NativePrefixCache

namespace PrefixCacheBackends
open NativePrefixCache (StdSort OpFits narrow onNull nullReply Binding openBinding init_agrees)

section Replies
variable {blockSize : ℕ} {t : Table} {us : List Use}

theorem onNull_of_short {op : Op}
    (h : ∀ tokens s, op = .insert tokens s → tokens.length < blockSize) :
    onNull blockSize op = answer blockSize [] op ∧ update blockSize [] op = [] := by
  cases op with
  | insert tokens s => simp [onNull, answer, update, h tokens s rfl]
  | evict s => exact ⟨rfl, rfl⟩
  | match_ tokens => exact ⟨rfl, rfl⟩
  | matchForReuse tokens => exact ⟨rfl, rfl⟩
  | nodeCount => exact ⟨rfl, rfl⟩
  | seqCount => exact ⟨rfl, rfl⟩

/-- Prompts that are published are at least a block long. -/
def Publishes (blockSize : ℕ) (us : List Use) : Prop :=
  ∃ tokens s, .op (.insert tokens s) ∈ us ∧ blockSize ≤ tokens.length

/-- A closed binding answers like an empty table until something would be published. -/
theorem closed_replies_iff (hb : 1 ≤ blockSize) :
    us.map (nullReply blockSize) = replies blockSize [] us ↔ ¬ Publishes blockSize us := by
  induction us with
  | nil => simp [Publishes, replies]
  | cons u us ih =>
    cases u with
    | close =>
      have hrest : Publishes blockSize (.close :: us) ↔ Publishes blockSize us := by
        simp [Publishes]
      rw [hrest, ← ih, List.map_cons, replies, nullReply, List.cons_inj_right]
    | op op =>
      rw [List.map_cons, replies, nullReply]
      by_cases hshort : ∀ tokens s, op = .insert tokens s → tokens.length < blockSize
      · obtain ⟨ha, hu⟩ := onNull_of_short hshort
        have hrest : Publishes blockSize (.op op :: us) ↔ Publishes blockSize us := by
          refine exists₂_congr fun tokens s => ?_
          rw [List.mem_cons, Use.op.injEq]
          refine ⟨fun ⟨hin, hlen⟩ => ⟨hin.resolve_left fun he => ?_, hlen⟩,
            fun ⟨hin, hlen⟩ => ⟨.inr hin, hlen⟩⟩
          exact absurd hlen (not_le.mpr (hshort tokens s he.symm))
        rw [hrest, ← ih, ha, hu, List.cons_inj_right]
      · obtain ⟨tokens, hs⟩ := not_forall.mp hshort
        obtain ⟨s, hlong⟩ := not_forall.mp hs
        obtain ⟨rfl, hlen⟩ := Classical.not_imp.mp hlong
        rw [not_lt] at hlen
        have hpublishes : Publishes blockSize (.op (.insert tokens s) :: us) :=
          ⟨tokens, s, List.mem_cons_self, hlen⟩
        refine ⟨fun hsame => ?_, fun hnot => absurd hpublishes hnot⟩
        have hhead := (List.cons.inj hsame).1
        rw [onNull, answer, if_neg (not_lt.mpr hlen), Answer.published.injEq, blocks_length] at hhead
        have hpos : 0 < tokens.length / blockSize := Nat.div_pos hlen hb
        exact absurd hhead.symm (Nat.mul_pos hpos hb).ne'

theorem replies_iff (hb : 1 ≤ blockSize)
    (hcount : ∀ n, .count n ∈ replies blockSize t us → n < 2147483648) :
    NativePrefixCache.replies blockSize t us = replies blockSize t us ↔
      ∀ before after, us = before ++ .close :: after → ¬ Publishes blockSize after := by
  induction us generalizing t with
  | nil => simp [NativePrefixCache.replies, replies]
  | cons u us ih =>
    cases u with
    | op op =>
      have hrest := @ih (update blockSize t op) fun n hn => hcount n (List.mem_cons_of_mem _ hn)
      have hhead : narrow (answer blockSize t op) = answer blockSize t op :=
        narrow_of_small fun n hn => by
          have hlt := hcount n (hn ▸ List.mem_cons_self)
          have hnonneg := count_nonneg hn
          omega
      rw [NativePrefixCache.replies, replies, hhead, List.cons_inj_right, hrest]
      constructor
      · intro hnone before after hsplit
        cases before with
        | nil => simp at hsplit
        | cons v before => exact hnone before after (List.cons.inj hsplit).2
      · intro hnone before after hsplit
        exact hnone (.op op :: before) after (congrArg (.op op :: ·) hsplit)
    | close =>
      rw [NativePrefixCache.replies, replies, List.cons_inj_right, closed_replies_iff hb]
      constructor
      · rintro hnone before after hsplit ⟨tokens, s, hin, hlen⟩
        refine hnone ⟨tokens, s, ?_, hlen⟩
        cases before with
        | nil => exact (List.cons.inj hsplit).2 ▸ hin
        | cons v before =>
          rw [(List.cons.inj hsplit).2]
          exact List.mem_append_right _ (List.mem_cons_of_mem _ hin)
      · exact fun hnone => hnone [] us rfl

end Replies

/-- A binding may be closed at any time and any number of times, `__del__` included: what was freed
is never touched, everything is freed, once, and it answers like the Python cache if and only if
nothing is published after it was first closed. -/
theorem lifetimes_agree_iff (std : StdSort) (blockSize : ℕ) (hb : 1 ≤ blockSize) {b : Binding}
    (h : openBinding blockSize = some b) (us : List Use) (hf : ∀ op, .op op ∈ us → OpFits op)
    (hcount : ∀ n, .count n ∈ (PythonPrefixCache.init blockSize hb).replies us → n < 2147483648) :
    ∃ b' answers, b.run std us = .ok (b', answers) ∧
      (.close ∈ us → b'.handle = none ∧ b'.left = [.empty]) ∧
      (.close ∉ us → b'.handle.isSome ∧ b'.left = []) ∧
      (answers = (PythonPrefixCache.init blockSize hb).replies us ↔
        ∀ before after, us = before ++ .close :: after → ¬ Publishes blockSize after) := by
  obtain ⟨c, hc, rfl⟩ := Option.map_eq_some_iff.mp h
  obtain ⟨hagree, rfl⟩ := init_agrees hb hc
  have hpython := (PythonPrefixCache.init_refines c.blockSize hb).replies us
  have hsize : (PythonPrefixCache.init c.blockSize hb).blockSize = c.blockSize := rfl
  rw [hsize] at hpython
  rw [hpython] at hcount ⊢
  obtain ⟨b', hrun, hclosed, hopen⟩ :=
    @Binding.run_open ⟨c.blockSize, some c.handle, []⟩ c.handle [] std rfl hagree us hf
  exact ⟨b', _, hrun, hclosed, hopen, replies_iff hb hcount⟩

/-- After a `close` the Python cache goes on, and the binding does not. -/
theorem lifetimes_agree_iff_reopened : ∃ b, openBinding 2 = some b ∧ ∃ b' answers,
    b.run stableSort [.op (.insert [1, 2] 0), .close, .close, .op (.insert [1, 2] 0),
      .op .nodeCount] = .ok (b', answers) ∧ b'.left = [.empty] ∧
    answers ≠ (PythonPrefixCache.init 2 (by decide)).replies
      [.op (.insert [1, 2] 0), .close, .close, .op (.insert [1, 2] 0), .op .nodeCount] := by
  obtain ⟨b, hb⟩ : ∃ b, openBinding 2 = some b := ⟨_, rfl⟩
  have hreplies : (PythonPrefixCache.init 2 (by decide)).replies
      [.op (.insert [1, 2] 0), .close, .close, .op (.insert [1, 2] 0), .op .nodeCount] =
        [.published 2, .done, .done, .published 2, .count 1] := by decide +kernel
  obtain ⟨b', answers, hrun, hclosed, -, hiff⟩ := lifetimes_agree_iff stableSort 2 (by decide) hb
    [.op (.insert [1, 2] 0), .close, .close, .op (.insert [1, 2] 0), .op .nodeCount]
    (by simp [OpFits, NativePrefixCache.TokensFit, NativePrefixCache.Fits])
    (by rw [hreplies]; simp)
  refine ⟨b, hb, b', answers, hrun, (hclosed (by simp)).2, fun hsame => ?_⟩
  exact hiff.mp hsame [.op (.insert [1, 2] 0)] _ rfl ⟨[1, 2], 0, by simp, le_rfl⟩

end PrefixCacheBackends
end TinyServe
