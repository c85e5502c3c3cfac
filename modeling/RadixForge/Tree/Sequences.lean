import RadixForge.Library.Traversal
import RadixForge.Tree.Prefix

/-!
# Physical sequences registered in the tree

The half of `radix_tree.cpp` that moves sequence ids between nodes: registration, readiness,
release with retention, extension to a longer path, the search for a copy source, eviction
and the counters. Traversals with an explicit stack return the nodes in the order they are
popped; the individual counters and the candidate list are read off that order.
-/

namespace RadixForge

open Library

namespace RadixTree

/-- What popping a node pushes: its children, the last one on top. -/
def pushedChildren (t : RadixTree) (n : NodeId) : List NodeId :=
  match t.nodes n with
  | none => []
  | some x => (t.childList x).reverse

/-- Every node of the tree, each popped once. -/
def allNodes (t : RadixTree) : List NodeId := stackWalk t.pushedChildren t.nextId [rootId]

/-- A field of a node, with a default for unallocated identities. -/
def field {β : Type*} (t : RadixTree) (n : NodeId) (f : RadixNode → β) (fallback : β) : β :=
  ((t.nodes n).map f).getD fallback

/-- A node whose sequences may be evicted: unreferenced, not the root, and owning some. -/
def isEvictable (t : RadixTree) (n : NodeId) : Bool :=
  t.field n (fun x => decide (n ≠ rootId ∧ x.refCount = 0 ∧ x.seqIds ≠ ∅)) false

/-- The least recently used evictable nodes, at most `count` of them. -/
def findEvictionCandidates (t : RadixTree) (count : ℕ) : List NodeId :=
  ((t.allNodes.filter t.isEvictable).insertionSort
    fun a b => t.field a RadixNode.lastAccessTick 0 ≤
      t.field b RadixNode.lastAccessTick 0).take count

/-- Take every sequence of an idle node away and prune; a referenced node yields nothing. -/
def evict (t : RadixTree) (node : NodeId) : RadixTree × List SeqId :=
  match t.nodes node with
  | none => (t, [])
  | some x =>
    if x.parent = none ∨ x.refCount ≠ 0 ∨ x.seqIds = ∅ then (t, [])
    else
      let t := t.modify node fun x => { x with seqIds := ∅, readySeqIds := ∅, canonicalLen := 0 }
      (t.pruneEmptyLeaves node, x.seqIds.toList)

/-- Register a pending sequence; the first one at a node fixes its canonical length. -/
def registerSeqId (t : RadixTree) (node : NodeId) (seqId : SeqId) (canonicalLen : ℕ) : RadixTree :=
  t.modify node fun x =>
    { x with seqIds := x.seqIds.insert seqId
             canonicalLen := if x.canonicalLen = 0 then canonicalLen else x.canonicalLen }

/-- Mark a registered sequence as a possible copy source. -/
def markSeqIdReady (t : RadixTree) (node : NodeId) (seqId : SeqId) : RadixTree :=
  t.modify node fun x =>
    if seqId ∈ x.seqIds then { x with readySeqIds := x.readySeqIds.insert seqId } else x

/-- Take a sequence id off a node and forget the canonical length of a node left empty. -/
def dropSeqId (seqId : SeqId) (x : RadixNode) : RadixNode :=
  let x := { x with seqIds := x.seqIds.erase seqId, readySeqIds := x.readySeqIds.erase seqId }
  if x.seqIds = ∅ then { x with canonicalLen := 0 } else x

/-- Unregister a sequence unless it is the sole ready one and is to be retained. The flag tells the
caller to free the physical sequence. -/
def releaseSeqId (t : RadixTree) (node : NodeId) (seqId : SeqId) (retain : Bool) :
    RadixTree × Bool :=
  match t.nodes node with
  | none => (t, false)
  | some x =>
    if seqId ∉ x.seqIds then (t, false)
    else if retain ∧ seqId ∈ x.readySeqIds ∧ x.seqIds.size ≤ 1 then (t, false)
    else (t.modify node (dropSeqId seqId), true)

/-- Move a ready sequence to the node that ends the given tokens, creating it if needed. -/
def extendSeqId (t : RadixTree) (node : NodeId) (seqId : SeqId) (tokens : List Token)
    (canonicalLen : ℕ) :
    RadixTree × NodeId :=
  match t.nodes node with
  | none => (t, node)
  | some x =>
    if tokens = [] ∨ canonicalLen = 0 ∨ tokens.length < canonicalLen ∨ seqId ∉ x.seqIds ∨
        seqId ∉ x.readySeqIds then
      (t, node)
    else
      let (t, found) := t.findPrefix tokens
      let t := if found.remaining = [] then t else t.advance
      let (t, found) := t.addLeaf found t.tick
      let target := found.node
      if target = node then (t.modify node fun x => { x with canonicalLen := canonicalLen }, node)
      else
        let t := t.modify node (dropSeqId seqId)
        let t := t.advance
        (t.modify target fun x => { x with seqIds := x.seqIds.insert seqId
                                           readySeqIds := x.readySeqIds.insert seqId
                                           canonicalLen := canonicalLen
                                           lastAccessTick := t.tick }, target)

/-- The nearest node on the way to the root with a ready sequence, and what that sequence covers. -/
def readyAncestor (t : RadixTree) : ℕ → Option NodeId → Option (SeqId × ℕ)
  | 0, _ => none
  | _, none => none
  | fuel + 1, some n =>
    match t.nodes n with
    | none => none
    | some x =>
      match x.readySeqIds.first? with
      | some seqId => some (seqId, min x.canonicalLen (t.cumulativeTokenDepth n))
      | none => readyAncestor t fuel x.parent

/-- `find_covering_seq_id_locked`: a ready ancestor, else the first ready sequence found below. -/
def findCoveringLoop (t : RadixTree) : ℕ → NodeId → Option (SeqId × ℕ)
  | 0, _ => none
  | fuel + 1, node =>
    match t.nodes node with
    | none => none
    | some x =>
      match t.readyAncestor (t.nextId + 1) (some node) with
      | some source => some source
      | none => (t.childList x).findSome? fun child => findCoveringLoop t fuel child

/-- `find_covering_seq_id`. -/
def findCoveringSeqId (t : RadixTree) (node : NodeId) : Option (SeqId × ℕ) :=
  t.findCoveringLoop (t.nextId + 1) node

/-- The number of registered sequences. -/
def activeSequenceCount (t : RadixTree) : ℕ :=
  t.allNodes.foldl (fun count n => count + t.field n (fun x => x.seqIds.size) 0) 0

/-- The number of nodes. -/
def nodeCount (t : RadixTree) : ℕ := t.allNodes.length

end RadixTree

end RadixForge
