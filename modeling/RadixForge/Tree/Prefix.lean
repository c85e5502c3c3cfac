import RadixForge.Tree.Node

/-!
# Prefix walks, splits and pruning

The structural half of `radix_tree.cpp`: the mutating walk of `find_prefix_locked` with
`split_node`, `insert`, `release` with `prune_empty_leaves_locked`, and the read-only walk of
`inspect_prefix_locked`. Each `while` loop carries a fuel argument; the callers pass a bound
that the shape of the tree makes sufficient.
-/

namespace RadixForge

open Library

/-- What `insert` tells its caller about the prompt. -/
structure PrefixMatch where
  node : NodeId
  cacheNode : NodeId
  matchedTokens : ℕ
  remaining : List Token
deriving DecidableEq

/-- The coverage reported by the read-only inspection. -/
structure PrefixAvailability where
  matchedTokens : ℕ := 0
  readyTokens : ℕ := 0
  pendingTokens : ℕ := 0
deriving DecidableEq

/-- The number of leading tokens on which a node and the rest of a prompt agree. -/
def matchLen : List Token → List Token → ℕ
  | a :: as, b :: bs => if a = b then matchLen as bs + 1 else 0
  | _, _ => 0

namespace RadixTree

/-- Point every child of a moved children map at its new parent. -/
def reparent (t : RadixTree) (children : List NodeId) (parent : NodeId) : RadixTree :=
  children.foldl (fun t c => t.modify c fun x => { x with parent := some parent }) t

/-- Cut a node at `splitPos`. The prefix keeps identity, sequences and references; the suffix is a
new node without sequences that takes over the children. -/
def splitNode (t : RadixTree) (node : NodeId) (splitPos : ℕ) : RadixTree :=
  match t.nodes node with
  | none => t
  | some x =>
    match x.tokens.drop splitPos with
    | [] => t
    | suffixKey :: suffixTokens =>
      let suffix := t.nextId
      let t := t.alloc { tokens := suffixKey :: suffixTokens, lastAccessTick := x.lastAccessTick,
                         children := x.children, parent := some node }
      let t := t.reparent x.childIds suffix
      t.modify node fun x => { x with tokens := x.tokens.take splitPos,
                                      children := (∅ : AList fun _ : Token => NodeId).insert
                                        suffixKey suffix }

/-- The loop of `find_prefix_locked`: the node reached, the tokens matched so far and the rest. -/
def findPrefixLoop : ℕ → RadixTree → NodeId → ℕ → List Token → RadixTree × NodeId × ℕ × List Token
  | _, t, current, matched, [] => (t, current, matched, [])
  | 0, t, current, matched, next :: rest => (t, current, matched, next :: rest)
  | fuel + 1, t, current, matched, next :: rest =>
    match t.childAt current next with
    | none => (t, current, matched, next :: rest)
    | some child =>
      let childTokens := ((t.nodes child).map RadixNode.tokens).getD []
      let len := matchLen childTokens (next :: rest)
      if len < childTokens.length then
        (t.splitNode child len, child, matched + len, (next :: rest).drop len)
      else
        findPrefixLoop fuel t child (matched + childTokens.length)
          ((next :: rest).drop childTokens.length)

/-- The mutating walk from the root; every iteration but the last consumes a token. -/
def findPrefix (t : RadixTree) (tokens : List Token) : RadixTree × PrefixMatch :=
  let (t, current, matched, remaining) := t.findPrefixLoop tokens.length rootId 0 tokens
  (t, { node := current, cacheNode := current, matchedTokens := matched, remaining := remaining })

/-- Hold the unmatched tokens in a new leaf below the matched node. -/
def addLeaf (t : RadixTree) (found : PrefixMatch) (tick : ℕ) : RadixTree × PrefixMatch :=
  match found.remaining with
  | [] => (t, found)
  | key :: _ =>
    let leaf := t.nextId
    let t :=
      t.alloc { tokens := found.remaining, parent := some found.node, lastAccessTick := tick }
    let t := t.modify found.node fun x => { x with children := x.children.insert key leaf }
    (t, { found with node := leaf })

/-- Insert a full prompt and take a reference on the node that ends it. -/
def insert (t : RadixTree) (promptTokens : List Token) : RadixTree × PrefixMatch :=
  let t := t.advance
  let (t, found) := t.findPrefix promptTokens
  let (t, found) := t.addLeaf { found with cacheNode := found.node } t.tick
  (t.modify found.node fun x => { x with lastAccessTick := t.tick, refCount := x.refCount + 1 },
    found)

/-- Delete a dead leaf, then its ancestors as long as they are dead leaves themselves. -/
def pruneEmptyLeavesLoop : ℕ → RadixTree → NodeId → RadixTree
  | 0, t, _ => t
  | fuel + 1, t, node =>
    match t.nodes node with
    | none => t
    | some x =>
      if node ≠ rootId ∧ x.refCount = 0 ∧ x.seqIds = ∅ ∧ x.children.entries = [] then
        match x.parent, x.tokens with
        | some parent, key :: _ =>
          pruneEmptyLeavesLoop fuel
            ((t.modify parent fun y => { y with children := y.children.erase key }).put node none)
              parent
        | _, _ => t
      else t

/-- `prune_empty_leaves_locked`. -/
def pruneEmptyLeaves (t : RadixTree) (node : NodeId) : RadixTree :=
  t.pruneEmptyLeavesLoop t.nextId node

/-- Drop one reference and prune from there. -/
def release (t : RadixTree) (node : NodeId) : RadixTree :=
  match t.nodes node with
  | none => t
  | some x =>
    if 0 < x.refCount then
      (t.modify node fun x => { x with refCount := x.refCount - 1 }).pruneEmptyLeaves node
    else t

/-- Add up the token runs from a node to the root. -/
def cumulativeTokenDepthLoop : ℕ → RadixTree → Option NodeId → ℕ
  | 0, _, _ => 0
  | _, _, none => 0
  | fuel + 1, t, some n =>
    match t.nodes n with
    | none => 0
    | some x => x.tokens.length + cumulativeTokenDepthLoop fuel t x.parent

/-- `cumulative_token_depth`. -/
def cumulativeTokenDepth (t : RadixTree) (node : NodeId) : ℕ :=
  t.cumulativeTokenDepthLoop (t.nextId + 1) (some node)

/-- Account for one visited node in the availability of a prompt. -/
def considerAvailability (x : RadixNode) (covered : ℕ) (availability : PrefixAvailability) :
    PrefixAvailability :=
  let cacheCoverage := min covered x.canonicalLen
  if cacheCoverage = 0 then availability
  else
    let availability :=
      if x.readySeqIds ≠ ∅ then
        { availability with readyTokens := max availability.readyTokens cacheCoverage }
      else availability
    if x.readySeqIds.size < x.seqIds.size then
      { availability with pendingTokens := max availability.pendingTokens cacheCoverage }
    else availability

/-- The loop of `inspect_prefix_locked`, which walks without splitting. -/
def inspectPrefixLoop (t : RadixTree) :
    ℕ → NodeId → ℕ → PrefixAvailability → List Token → PrefixAvailability
  | _, _, matched, availability, [] => { availability with matchedTokens := matched }
  | 0, _, matched, availability, _ :: _ => { availability with matchedTokens := matched }
  | fuel + 1, current, matched, availability, next :: rest =>
    match t.childAt current next with
    | none => { availability with matchedTokens := matched }
    | some child =>
      let x := (t.nodes child).getD {}
      let len := matchLen x.tokens (next :: rest)
      if len = 0 then { availability with matchedTokens := matched }
      else
        let availability := considerAvailability x (matched + len) availability
        if len < x.tokens.length then { availability with matchedTokens := matched + len }
        else inspectPrefixLoop t fuel child (matched + len) availability ((next :: rest).drop len)

/-- `inspect_prefix`. -/
def inspectPrefix (t : RadixTree) (promptTokens : List Token) : PrefixAvailability :=
  t.inspectPrefixLoop promptTokens.length rootId 0 {} promptTokens

end RadixTree

end RadixForge
