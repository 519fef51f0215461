import TinyServe.ClaimTree
import TinyServe.PrefixCacheBase
import Mathlib.Data.List.Sort

set_option autoImplicit false

/-!
`PythonPrefixCache`. The node dicts live in a heap that only grows: Python never hands out a
dangling reference, so every address reads, and an unlinked node is merely unreachable.
-/
namespace TinyServe.PythonPrefixCache
open OrderedDict ClaimTree PrefixCacheBase

abbrev CacheNode := Node SeqId Block

structure Cache where
  blockSize : ℕ
  blockSize_pos : 1 ≤ blockSize
  heap : Address → CacheNode
  fresh : Address
  root : Address
  seqNodes : Dict SeqId (List Address)
  nodeCount : ℤ

/-- `__init__`; a block size below one raises instead. -/
def init (blockSize : ℕ) (h : 1 ≤ blockSize) : Cache where
  blockSize := blockSize
  blockSize_pos := h
  heap := fun _ => ⟨none, none, .empty, [], 0⟩
  fresh := 1
  root := 0
  seqNodes := .empty
  nodeCount := 0

def Cache.write (c : Cache) (i : Address) (n : CacheNode) : Cache :=
  { c with heap := Function.update c.heap i n }

/-- The loop of `match`: follow the blocks while there is a child, and count them. -/
def descend (heap : Address → CacheNode) : Address → List Block → Address × ℕ
  | node, [] => (node, 0)
  | node, key :: keys =>
    match (heap node).children.get? key with
    | none => (node, 0)
    | some child => ((descend heap child keys).1, (descend heap child keys).2 + 1)

def Cache.match_ (c : Cache) (tokens : List Token) : PrefixMatch :=
  if tokens.length < c.blockSize then
    .none
  else
    let (node, matched) := descend c.heap c.root (blocks c.blockSize tokens)
    if matched = 0 then
      .none
    else
      ⟨matched * c.blockSize, (c.heap node).owners.getLast?.getD noSeq⟩

def Cache.matchForReuse (c : Cache) (tokens : List Token) : PrefixMatch :=
  Id.run (PrefixCacheBase.matchForReuse c.blockSize (fun ts => pure (c.match_ ts)) tokens)

/-- `parent["children"].pop(node["key"], None)`. -/
def Cache.unlink (c : Cache) (n : CacheNode) : Cache :=
  match n.parent, n.key with
  | some p, some k => c.write p { c.heap p with children := (c.heap p).children.erase k }
  | _, _ => c

/-- One turn of the loop of `evict`. -/
def Cache.dropOwner (seqId : SeqId) (c : Cache) (i : Address) : Cache :=
  let n := { c.heap i with owners := (c.heap i).owners.erase seqId }
  let c := c.write i n
  if n.owners ≠ [] ∨ n.children.isEmpty = false then
    c
  else
    { c.unlink n with nodeCount := c.nodeCount - 1 }

/-- `sorted(owned, key=lambda n: -n["depth"])`. -/
def deepestFirst (heap : Address → CacheNode) (owned : List Address) : List Address :=
  owned.insertionSort fun a b => (heap b).depth ≤ (heap a).depth

def Cache.evict (c : Cache) (seqId : SeqId) : Cache :=
  match c.seqNodes.get? seqId with
  | none => c
  | some owned =>
    (deepestFirst c.heap owned).foldl (Cache.dropOwner seqId)
      { c with seqNodes := c.seqNodes.erase seqId }

/-- The child of `node` under `key`, made and linked if there is none. -/
def Cache.childAt (c : Cache) (node : Address) (key : Block) : Cache × Address :=
  match (c.heap node).children.get? key with
  | some child => (c, child)
  | none =>
    let linked := { c.heap node with children := (c.heap node).children.set key c.fresh }
    let made := (c.write c.fresh ⟨some node, some key, .empty, [], (c.heap node).depth + 1⟩).write
      node linked
    ({ made with fresh := c.fresh + 1, nodeCount := c.nodeCount + 1 }, c.fresh)

/-- The loop of `insert`, from the node reached and the nodes owned so far. -/
def Cache.claimPath (seqId : SeqId) : Cache → Address → List Address → List Block →
    Cache × List Address
  | c, _, owned, [] => (c, owned)
  | c, node, owned, key :: keys =>
    let (c, child) := c.childAt node key
    let c := c.write child { c.heap child with owners := (c.heap child).owners ++ [seqId] }
    c.claimPath seqId child (owned ++ [child]) keys

def Cache.insert (c : Cache) (tokens : List Token) (seqId : SeqId) : Cache × ℕ :=
  if tokens.length < c.blockSize then
    (c, 0)
  else
    let c := c.evict seqId
    let path := blocks c.blockSize tokens
    let (c, owned) := c.claimPath seqId c.root [] path
    ({ c with seqNodes := c.seqNodes.set seqId owned }, path.length * c.blockSize)

def Cache.seqCount (c : Cache) : ℕ := c.seqNodes.size

/-- Whose prompts the tree advertises: every registered sequence with the keys along its path. -/
def Cache.claims (c : Cache) : PrefixClaims.Claims SeqId Block :=
  c.seqNodes.entries.map fun e => (e.1, e.2.filterMap fun i => (c.heap i).key)

end TinyServe.PythonPrefixCache
