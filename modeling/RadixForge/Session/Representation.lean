import RadixForge.Session.Results

/-!
# The representation of the tree

In every state of every run, and at every moment inside a call at which the tree has changed, the
tree is well formed: links in both directions agree, registrations agree, and the canonical length
of a node that owns sequences reaches its end.
-/

namespace RadixForge

open Library

/-- Links, registrations and canonical lengths of a tree agree. -/
structure RadixTree.WellFormed (t : RadixTree) : Prop where
  linked : ∀ n x, t.nodes n = some x → n ≠ rootId →
    ∃ key rest p, x.tokens = key :: rest ∧ x.parent = some p ∧ t.childAt p key = some n
  ready : ∀ n x, t.nodes n = some x → ∀ i ∈ x.readySeqIds, i ∈ x.seqIds
  once : ∀ a b x y, t.nodes a = some x → t.nodes b = some y → ∀ i ∈ x.seqIds, i ∈ y.seqIds → a = b
  canonical : ∀ n x, t.nodes n = some x → n ≠ rootId →
    (x.canonicalLen = 0 ↔ x.seqIds = ∅) ∧ (x.seqIds ≠ ∅ → t.cumulativeTokenDepth n ≤ x.canonicalLen)

/-- The states of the mapper inside a call: in the loops of the evictions, after an insertion, and
after the allocation of an id. -/
inductive KVMapper.Within (m : KVMapper) : KVMapper → Prop where
  | relieving (fuel : ℕ) : Within m (KVMapper.evictKvPressureLoop fuel m)
  | counted (prompt : List Token) (fuel : ℕ) :
      Within m (KVMapper.evictKvPressureLoop fuel (m.countRequest prompt))
  | evicted : Within m m.evictOne.1
  | inserted (prompt : List Token) : Within m (m.admitPrompt prompt).1
  | allocated (prompt : List Token) : Within m (m.admitPrompt prompt).1.allocateSeqId.1

namespace Books

variable {s : Session} {path : NodeId → List Token} {idle : NodeId → Option SeqId}

/-- A tree with sound books is well formed. -/
theorem wellFormed (h : Books s path idle) : s.mapper.tree.WellFormed where
  linked n x hx hn := by
    obtain ⟨p, key, rest, hp, htok, hchild, _⟩ := h.placement.shape.up hx hn
    exact ⟨key, rest, p, htok, hp, hchild⟩
  ready n x hx i hi := by
    have hdata : s.mapper.tree.data n = x.data := RadixTree.data_of_nodes hx
    have hcoherent := (h.placement.coherent n).1 i
    rw [hdata] at hcoherent
    exact hcoherent hi
  once a b x y hx hy i hxi hyi := by
    refine h.registered_once (i := i) ?_ ?_
    · rw [RadixTree.data_of_nodes hx]
      exact hxi
    · rw [RadixTree.data_of_nodes hy]
      exact hyi
  canonical n x hx hn := by
    have hdata : s.mapper.tree.data n = x.data := RadixTree.data_of_nodes hx
    have hdepth := h.placement.canonical n
    have hempty := (h.placement.coherent n).2
    rw [hdata] at hdepth hempty
    have hlong : 0 < (path n).length :=
      List.length_pos_iff.mpr (h.placement.shape.path_ne_nil ⟨x, hx⟩ hn)
    refine ⟨⟨fun hzero => ?_, hempty⟩, fun hsome => ?_⟩
    · by_contra hsome
      have hreach : (path n).length ≤ x.canonicalLen := hdepth hsome
      omega
    · rw [h.placement.shape.depth_eq ⟨x, hx⟩]
      exact hdepth hsome

/-- Inside a call the tree is that of a mapper with books, in which the node of an insertion is
held. -/
theorem within (h : Books s path idle) (hhand : s.hand = none) {m : KVMapper}
    (hm : s.mapper.Within m) :
    ∃ m' holds path' idle', m'.tree = m.tree ∧
      Books { s with mapper := m', holds := holds } path' idle' := by
  cases hm with
  | relieving fuel =>
    obtain ⟨idle', hbooks, _⟩ := h.evictKvPressureLoop hhand fuel
    exact ⟨_, _, _, _, rfl, hbooks⟩
  | counted prompt fuel =>
    have hcounted : Books { s with mapper := s.mapper.countRequest prompt } path idle := h.metrics _
    obtain ⟨idle', hbooks, _⟩ := hcounted.evictKvPressureLoop hhand fuel
    exact ⟨_, _, _, _, rfl, hbooks⟩
  | evicted =>
    obtain ⟨idle', hbooks, _⟩ := h.evictOne_keep hhand
    exact ⟨_, _, _, _, rfl, hbooks⟩
  | inserted prompt =>
    obtain ⟨path', idle', hadmitted⟩ := h.admitPrompt hhand prompt
    exact ⟨_, _, _, _, rfl, hadmitted.books⟩
  | allocated prompt =>
    obtain ⟨path', idle', hadmitted⟩ := h.admitPrompt hhand prompt
    obtain ⟨m', idle'', hallocated, ⟨_, hnone⟩ | ⟨i, rest, _, hsome⟩⟩ :=
      hadmitted.allocateSeqId hhand
    · exact ⟨m', _, _, _, by rw [hnone], hallocated.books⟩
    · exact ⟨m', _, _, _, by rw [hsome], hallocated.books⟩

end Books

/-- In every state of every run, and at every moment inside the next call, the tree is well formed.
-/
theorem tree_well_formed (config : Config) (order : ChildOrder) (calls : List Call) (s : Session)
    (hrun : (Session.init config order).Run calls s) :
    s.mapper.tree.WellFormed ∧ (s.hand = none → ∀ m, s.mapper.Within m → m.tree.WellFormed) := by
  obtain ⟨path, idle, h⟩ := Session.run_sound hrun
  refine ⟨h.wellFormed, fun hhand m hm => ?_⟩
  obtain ⟨m', holds, path', idle', htree, hbooks⟩ := h.within hhand hm
  rw [← htree]
  exact hbooks.wellFormed

/-- A sequence that was extended below a split node. -/
theorem tree_well_formed_extended : ∃ s,
    (Session.init ⟨3, 64, true⟩ .stored).Run
      [.prepare [1, 2], .decode 1 1 0, .decode 1 2 1, .markReady 1 1, .prepare [1, 3],
        .decode 1 5 2, .extend 1 1 [1, 2, 5], .releaseSequence 1 4] s ∧
      s.mapper.tree.nodeCount = 5 ∧ s.mapper.tree.WellFormed := by
  have hrun : (run Session.step (Session.init ⟨3, 64, true⟩ .stored) [.prepare [1, 2],
      .decode 1 1 0, .decode 1 2 1, .markReady 1 1, .prepare [1, 3], .decode 1 5 2,
      .extend 1 1 [1, 2, 5], .releaseSequence 1 4]).any (fun s =>
        s.mapper.tree.nodeCount = 5) = true := by decide +kernel
  obtain ⟨s, hs, hcond⟩ := (Option.any_eq_true _ _).mp hrun
  exact ⟨s, hs, of_decide_eq_true hcond, (tree_well_formed _ _ _ s hs).1⟩

end RadixForge
