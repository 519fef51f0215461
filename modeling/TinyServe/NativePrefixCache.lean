import TinyServe.ClaimTree
import TinyServe.PrefixCacheTable
import Mathlib.Data.List.Sort
import Mathlib.Data.List.Lex

set_option autoImplicit false

/-!
The C++ tree of `native/src/prefix_cache.cpp` on an explicit heap, and the ctypes binding over it.
Reading an address that is not allocated is a fault, and so is deleting one.
-/
namespace TinyServe.NativePrefixCache
open OrderedDict ClaimTree PrefixCacheBase PrefixCacheTable

abbrev CacheNode := Node SeqId Block

inductive Fault where
  | unallocated (i : Address)
  deriving DecidableEq

/-- Conversion to `int32_t`: two's complement, as ctypes and the usual targets do it. It also stands
for the `+= 1` and `-= 1` of the signed `node_count`. Past `INT32_MAX` these are undefined in C++,
and here they wrap, as compiled code does. -/
def int32 (x : ℤ) : ℤ := x.bmod 4294967296

/-- `std::sort` under `DeeperFirst`; how it places equal depths is its own business. -/
structure StdSort where
  sort : List (Address × ℕ) → List (Address × ℕ)
  perm : ∀ xs, (sort xs).Perm xs
  sorted : ∀ xs, (sort xs).Pairwise fun a b => b.2 ≤ a.2

/-- `ts_prefix_cache`. The root is a member of the struct and lives as long as it does. -/
structure Tree where
  blockSize : ℕ
  heap : Dict Address CacheNode
  fresh : Address
  root : Address
  seqNodes : Dict SeqId (List Address)
  nodeCount : ℤ

/-- `ts_prefix_cache_create`; `none` is the NULL it returns below one. -/
def create (blockSize : ℤ) : Option Tree :=
  if blockSize < 1 then
    none
  else
    some ⟨blockSize.toNat, Dict.empty.set 0 ⟨none, none, .empty, [], 0⟩, 1, 0, .empty, 0⟩

def Tree.deref (c : Tree) (i : Address) : Except Fault CacheNode :=
  match c.heap.get? i with
  | some n => .ok n
  | none => .error (.unallocated i)

def Tree.store (c : Tree) (i : Address) (n : CacheNode) : Tree :=
  { c with heap := c.heap.set i n }

/-- `delete`. -/
def Tree.free (c : Tree) (i : Address) : Except Fault Tree := do
  let _ ← c.deref i
  return { c with heap := c.heap.erase i }

/-- The block keys `ts_prefix_cache_match` and `ts_prefix_cache_insert` cut from the buffer. -/
def Tree.keysOf (c : Tree) (tokens : List Token) (nTokens : ℤ) : List Block :=
  (List.range (nTokens / c.blockSize).toNat).map fun b =>
    slice tokens (b * c.blockSize) ((b + 1) * c.blockSize)

def Tree.descend (c : Tree) : Address → List Block → Except Fault (Address × ℕ)
  | node, [] => .ok (node, 0)
  | node, key :: keys => do
    let n ← c.deref node
    match n.children.get? key with
    | none => .ok (node, 0)
    | some child =>
      let (last, matched) ← c.descend child keys
      return (last, matched + 1)

/-- `ts_prefix_cache_match`: the matched tokens and what it writes to `*out_seq_id`. -/
def Tree.match_ (c : Tree) (tokens : List Token) (nTokens : ℤ) : Except Fault (ℕ × SeqId) := do
  if nTokens < c.blockSize then
    return (0, noSeq)
  let (node, matched) ← c.descend c.root (c.keysOf tokens nTokens)
  if matched = 0 then
    return (0, noSeq)
  let n ← c.deref node
  return (matched * c.blockSize, n.owners.getLast?.getD noSeq)

/-- The depths the comparator reads through the pointers it sorts. -/
def Tree.depths (c : Tree) : List Address → Except Fault (List (Address × ℕ))
  | [] => .ok []
  | i :: is => do
    let n ← c.deref i
    let rest ← c.depths is
    return (i, n.depth) :: rest

/-- `node->parent->children.erase(node->key)`, when there is a parent. -/
def Tree.unlink (c : Tree) (n : CacheNode) : Except Fault Tree :=
  match n.parent, n.key with
  | some p, some k => do
    let parent ← c.deref p
    return c.store p { parent with children := parent.children.erase k }
  | _, _ => .ok c

/-- One turn of the loop of `ts_prefix_cache_evict`. -/
def Tree.dropOwner (seqId : SeqId) (c : Tree) (i : Address) : Except Fault Tree := do
  let old ← c.deref i
  let n := { old with owners := old.owners.erase seqId }
  let c := c.store i n
  if n.owners ≠ [] ∨ n.children.isEmpty = false then
    return c
  let c ← c.unlink n
  let c ← c.free i
  return { c with nodeCount := int32 (c.nodeCount - 1) }

def Tree.dropOwners (seqId : SeqId) : Tree → List Address → Except Fault Tree
  | c, [] => .ok c
  | c, i :: is => do
    let c ← c.dropOwner seqId i
    c.dropOwners seqId is

/-- `ts_prefix_cache_evict`. -/
def Tree.evict (std : StdSort) (c : Tree) (seqId : SeqId) : Except Fault Tree := do
  match c.seqNodes.get? seqId with
  | none => return c
  | some owned =>
    let c := { c with seqNodes := c.seqNodes.erase seqId }
    let depths ← c.depths owned
    c.dropOwners seqId ((std.sort depths).map Prod.fst)

def Tree.childAt (c : Tree) (node : Address) (key : Block) : Except Fault (Tree × Address) := do
  let n ← c.deref node
  match n.children.get? key with
  | some child => return (c, child)
  | none =>
    let made := (c.store c.fresh ⟨some node, some key, .empty, [], n.depth + 1⟩).store node
      { n with children := n.children.set key c.fresh }
    return ({ made with fresh := c.fresh + 1, nodeCount := int32 (c.nodeCount + 1) }, c.fresh)

def Tree.claimPath (seqId : SeqId) :
    Tree → Address → List Address → List Block → Except Fault (Tree × List Address)
  | c, _, owned, [] => .ok (c, owned)
  | c, node, owned, key :: keys => do
    let (c, child) ← c.childAt node key
    let n ← c.deref child
    (c.store child { n with owners := n.owners ++ [seqId] }).claimPath seqId child
      (owned ++ [child]) keys

/-- `ts_prefix_cache_insert`. The map entry is filled through a reference while the loop runs. -/
def Tree.insert (std : StdSort) (c : Tree) (tokens : List Token) (nTokens : ℤ) (seqId : SeqId) :
    Except Fault (Tree × ℕ) := do
  if nTokens < c.blockSize then
    return (c, 0)
  let c ← c.evict std seqId
  let path := c.keysOf tokens nTokens
  let (c, owned) ← c.claimPath seqId c.root [] path
  return ({ c with seqNodes := c.seqNodes.set seqId owned }, path.length * c.blockSize)

/-- The children in the order `std::map` iterates them. -/
def byKey (children : Dict Block Address) : List Address :=
  (children.entries.insertionSort fun a b => a.1 ≤ b.1).map Prod.snd

/-- The loop of `ts_prefix_cache_destroy` over its stack, the top first; `none` if it takes more
than the given number of turns. -/
def Tree.teardown : ℕ → Tree → List Address → Except Fault (Option Tree)
  | _, c, [] => .ok (some c)
  | 0, _, _ :: _ => .ok none
  | turns + 1, c, node :: stack => do
    let n ← c.deref node
    let c ← c.free node
    c.teardown turns ((byKey n.children).reverse ++ stack)

/-- `ts_prefix_cache_destroy`: what is still allocated after it. The root goes with the struct. -/
def Tree.destroy (turns : ℕ) (c : Tree) : Except Fault (Option (Dict Address CacheNode)) := do
  let root ← c.deref c.root
  match ← c.teardown turns (byKey root.children).reverse with
  | none => return none
  | some c =>
    let c ← c.free c.root
    return some c.heap

/-- `ts_prefix_cache_seq_count`. -/
def Tree.seqCount (c : Tree) : ℤ := int32 c.seqNodes.size

/-- Whose prompts the tree advertises: every registered sequence with the keys along its path. -/
def Tree.claims (c : Tree) : PrefixClaims.Claims SeqId Block :=
  c.seqNodes.entries.map fun e => (e.1, e.2.filterMap fun i => (c.heap.get? i).bind Node.key)

/-- `NativePrefixCache`: the Python object with the handle it owns. -/
structure Cache where
  blockSize : ℕ
  handle : Tree

/-- `__init__`; `none` covers the `OSError` for a NULL handle. -/
def init (blockSize : ℕ) : Option Cache := (create (int32 blockSize)).map fun t => ⟨blockSize, t⟩

/-- `_buffer`. -/
def buffer (tokens : List Token) : List Token := tokens.map int32

def Cache.match_ (c : Cache) (tokens : List Token) : Except Fault PrefixMatch := do
  if tokens.length < c.blockSize then
    return PrefixMatch.none
  let (n, donor) ← c.handle.match_ (buffer tokens) (int32 tokens.length)
  return ⟨n, if 0 < n then donor else noSeq⟩

def Cache.insert (std : StdSort) (c : Cache) (tokens : List Token) (seqId : SeqId) :
    Except Fault (Cache × ℕ) := do
  if tokens.length < c.blockSize then
    return (c, 0)
  let (t, n) ← c.handle.insert std (buffer tokens) (int32 tokens.length) (int32 seqId)
  return ({ c with handle := t }, n)

def Cache.evict (std : StdSort) (c : Cache) (seqId : SeqId) : Except Fault Cache := do
  let t ← c.handle.evict std (int32 seqId)
  return { c with handle := t }

def Cache.perform (std : StdSort) (c : Cache) : Op → Except Fault (Cache × Answer)
  | .insert tokens s => do
    let (c, n) ← c.insert std tokens s
    return (c, .published n)
  | .evict s => do
    let c ← c.evict std s
    return (c, .done)
  | .match_ tokens => do
    let m ← c.match_ tokens
    return (c, .found m)
  | .matchForReuse tokens => do
    let m ← PrefixCacheBase.matchForReuse c.blockSize c.match_ tokens
    return (c, .found m)
  | .nodeCount => return (c, .count c.handle.nodeCount)
  | .seqCount => return (c, .count c.handle.seqCount)

def Cache.after (std : StdSort) : Cache → List Op → Except Fault Cache
  | c, [] => .ok c
  | c, op :: ops => do
    let (c, _) ← c.perform std op
    c.after std ops

/-- The answers to a sequence of operations, in order. -/
def Cache.answers (std : StdSort) : Cache → List Op → Except Fault (List Answer)
  | _, [] => .ok []
  | c, op :: ops => do
    let (c, a) ← c.perform std op
    let rest ← c.answers std ops
    return a :: rest

end TinyServe.NativePrefixCache
