import Mathlib.Data.List.AList
import Mathlib.Data.List.Sort
import RadixForge.Library.OrderedSet

/-!
# Nodes of the radix tree and the heap they live in

`RadixNode` has the fields of the C++ record. Raw node pointers become identities in a heap,
so parent links, children maps and pointers held by requests can all name the same node, and
a pruned node is one that is absent. Identities are never reused, as no pointer to a deleted
node may be compared with a later one.

`std::set` is an ordered set, `std::unordered_map` an association list with distinct keys.
The iteration order of an unordered map is not specified: it is a parameter of the tree.
-/

namespace RadixForge

open Library

/-- A `llama_token`. -/
abbrev Token := ℤ

/-- A `llama_seq_id`; the value `-1` of the source is `none` here. -/
abbrev SeqId := ℕ

/-- The identity of an allocated node. -/
abbrev NodeId := ℕ

/-- One node: a run of tokens below its parent, and the physical sequences registered there. -/
structure RadixNode where
  tokens : List Token := []
  refCount : ℕ := 0
  seqIds : OrderedSet SeqId := ∅
  readySeqIds : OrderedSet SeqId := ∅
  lastAccessTick : ℕ := 0
  canonicalLen : ℕ := 0
  children : AList (fun _ : Token => NodeId) := ∅
  parent : Option NodeId := none

/-- An iteration order for unordered maps: any rearrangement, and one that may change over time. -/
structure ChildOrder where
  visit : ℕ → List NodeId → List NodeId
  perm : ∀ tick children, (visit tick children).Perm children

/-- The order in which the entries are stored. -/
def ChildOrder.stored : ChildOrder where
  visit _ children := children
  perm _ children := List.Perm.refl children

/-- The tree: a heap of nodes, the next unused identity, and the access clock. -/
structure RadixTree where
  nodes : NodeId → Option RadixNode
  nextId : NodeId
  tick : ℕ
  order : ChildOrder

/-- The identity of the root, the only node allocated by the constructor. -/
def rootId : NodeId := 0

/-- The tree after construction: a referenced root without tokens. -/
def RadixTree.init (order : ChildOrder) : RadixTree where
  nodes n := if n = rootId then some { refCount := 1 } else none
  nextId := 1
  tick := 0
  order := order

/-- The identities stored in a node's children map. -/
def RadixNode.childIds (x : RadixNode) : List NodeId := x.children.entries.map fun entry => entry.2

/-- The child identities of a node are those that its map has. -/
theorem RadixNode.mem_childIds {x : RadixNode} {c : NodeId} :
    c ∈ x.childIds ↔ ∃ key, x.children.lookup key = some c := by
  simp only [childIds, List.mem_map]
  constructor
  · rintro ⟨⟨key, child⟩, hentry, rfl⟩
    exact ⟨key, AList.mem_lookup_iff.mpr hentry⟩
  · rintro ⟨key, hlookup⟩
    exact ⟨⟨key, c⟩, AList.mem_lookup_iff.mp hlookup, rfl⟩

namespace RadixTree

/-- Overwrite one heap cell; `none` deletes the node. -/
def put (t : RadixTree) (n : NodeId) (x : Option RadixNode) : RadixTree :=
  { t with nodes := fun m => if m = n then x else t.nodes m }

/-- Change the node at one identity, if it is allocated. -/
def modify (t : RadixTree) (n : NodeId) (f : RadixNode → RadixNode) : RadixTree :=
  { t with nodes := fun m => if m = n then (t.nodes m).map f else t.nodes m }

/-- Allocate a node at the next identity. -/
def alloc (t : RadixTree) (x : RadixNode) : RadixTree :=
  { t.put t.nextId (some x) with nextId := t.nextId + 1 }

/-- Advance the access clock. -/
def advance (t : RadixTree) : RadixTree := { t with tick := t.tick + 1 }

/-- A node is put in its place, and nowhere else. -/
@[simp] theorem put_nodes (t : RadixTree) (n m : NodeId) (x : Option RadixNode) :
    (t.put n x).nodes m = if m = n then x else t.nodes m := rfl

/-- Putting a node allocates nothing. -/
@[simp] theorem put_nextId (t : RadixTree) (n : NodeId) (x : Option RadixNode) :
    (t.put n x).nextId = t.nextId := rfl

/-- Putting a node does not advance the clock. -/
@[simp] theorem put_tick (t : RadixTree) (n : NodeId) (x : Option RadixNode) :
    (t.put n x).tick = t.tick := rfl

/-- Only the node that is modified changes. -/
@[simp] theorem modify_nodes (t : RadixTree) (n m : NodeId) (f : RadixNode → RadixNode) :
    (t.modify n f).nodes m = if m = n then (t.nodes m).map f else t.nodes m := rfl

/-- A modification allocates nothing. -/
@[simp] theorem modify_nextId (t : RadixTree) (n : NodeId) (f : RadixNode → RadixNode) :
    (t.modify n f).nextId = t.nextId := rfl

/-- A modification does not advance the clock. -/
@[simp] theorem modify_tick (t : RadixTree) (n : NodeId) (f : RadixNode → RadixNode) :
    (t.modify n f).tick = t.tick := rfl

/-- A new node gets the next identity, and the others stay. -/
@[simp] theorem alloc_nodes (t : RadixTree) (m : NodeId) (x : RadixNode) :
    (t.alloc x).nodes m = if m = t.nextId then some x else t.nodes m := rfl

/-- A new node takes one identity. -/
@[simp] theorem alloc_nextId (t : RadixTree) (x : RadixNode) : (t.alloc x).nextId = t.nextId + 1 :=
  rfl

/-- Advancing the clock leaves the nodes. -/
@[simp] theorem advance_nodes (t : RadixTree) : t.advance.nodes = t.nodes := rfl

/-- Advancing the clock allocates nothing. -/
@[simp] theorem advance_nextId (t : RadixTree) : t.advance.nextId = t.nextId := rfl

/-- The child of a node under a key. -/
def childAt (t : RadixTree) (n : NodeId) (key : Token) : Option NodeId :=
  (t.nodes n).bind fun x => x.children.lookup key

/-- The children of a node in the order an iteration over the map meets them. -/
def childList (t : RadixTree) (x : RadixNode) : List NodeId := t.order.visit t.tick x.childIds

/-- Iteration meets exactly the stored children. -/
theorem mem_childList {t : RadixTree} {x : RadixNode} {c : NodeId} :
    c ∈ t.childList x ↔ ∃ key, x.children.lookup key = some c := by
  rw [childList, (t.order.perm _ _).mem_iff, RadixNode.mem_childIds]

end RadixTree

end RadixForge
