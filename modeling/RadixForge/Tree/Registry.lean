import RadixForge.Tree.Shape

/-!
# What a node records besides its place in the tree

References, registered and ready sequences and the canonical length make up the data of a
node. The registry of a tree is its data at every identity, with the empty record where nothing
is allocated; splits and new leaves do not change it, and every other operation changes it at
one or two nodes. `NodeData` has one function for each of these changes.
-/

namespace RadixForge

open Library

/-- The part of a node that the structural changes leave alone. -/
@[ext] structure NodeData where
  refCount : ℕ := 0
  seqIds : OrderedSet SeqId := ∅
  readySeqIds : OrderedSet SeqId := ∅
  canonicalLen : ℕ := 0

namespace NodeData

/-- One more reference. -/
def hold (d : NodeData) : NodeData := { d with refCount := d.refCount + 1 }

/-- One reference less. -/
def letGo (d : NodeData) : NodeData := { d with refCount := d.refCount - 1 }

/-- No sequences left. -/
def clear (d : NodeData) : NodeData := { d with seqIds := ∅, readySeqIds := ∅, canonicalLen := 0 }

/-- A new pending sequence. -/
def register (seqId : SeqId) (canonicalLen : ℕ) (d : NodeData) : NodeData :=
  { d with seqIds := d.seqIds.insert seqId
           canonicalLen := if d.canonicalLen = 0 then canonicalLen else d.canonicalLen }

/-- A pending sequence becomes ready. -/
def markReady (seqId : SeqId) (d : NodeData) : NodeData :=
  if seqId ∈ d.seqIds then { d with readySeqIds := d.readySeqIds.insert seqId } else d

/-- A sequence leaves. -/
def drop (seqId : SeqId) (d : NodeData) : NodeData :=
  { d with seqIds := d.seqIds.erase seqId
           readySeqIds := d.readySeqIds.erase seqId
           canonicalLen := if d.seqIds.erase seqId = ∅ then 0 else d.canonicalLen }

/-- A ready sequence arrives with its own canonical length. -/
def takeOver (seqId : SeqId) (canonicalLen : ℕ) (d : NodeData) : NodeData :=
  { d with seqIds := d.seqIds.insert seqId
           readySeqIds := d.readySeqIds.insert seqId
           canonicalLen := canonicalLen }

/-- A new canonical length for the sequences of a node. -/
def recount (canonicalLen : ℕ) (d : NodeData) : NodeData := { d with canonicalLen := canonicalLen }

/-- A node without references and sequences, whose removal loses nothing. -/
def Unused (d : NodeData) : Prop := d.refCount = 0 ∧ d.seqIds = ∅

/-- Ready sequences are registered, and a node without sequences has no canonical length. -/
def Coherent (d : NodeData) : Prop :=
  (∀ s ∈ d.readySeqIds, s ∈ d.seqIds) ∧ (d.seqIds = ∅ → d.canonicalLen = 0)

/-- Unused coherent data is the empty record. -/
theorem Coherent.eq_default {d : NodeData} (h : d.Coherent) (hunused : d.Unused) : d = {} := by
  have hready : d.readySeqIds = ∅ := by
    rw [OrderedSet.eq_empty_iff]
    intro s hs
    have hmem := h.1 s hs
    rw [hunused.2] at hmem
    exact OrderedSet.notMem_empty s hmem
  ext1
  · exact hunused.1
  · exact hunused.2
  · exact hready
  · exact h.2 hunused.2

/-- A reference more keeps the data coherent. -/
theorem Coherent.hold {d : NodeData} (h : d.Coherent) : d.hold.Coherent := h

/-- A reference less keeps the data coherent. -/
theorem Coherent.letGo {d : NodeData} (h : d.Coherent) : d.letGo.Coherent := h

/-- Data without sequences is coherent. -/
theorem Coherent.clear (d : NodeData) : d.clear.Coherent := ⟨fun _ h => h, fun _ => rfl⟩

/-- A registration keeps the data coherent. -/
theorem Coherent.register {d : NodeData} (h : d.Coherent) (seqId : SeqId) (canonicalLen : ℕ) :
    (d.register seqId canonicalLen).Coherent := by
  constructor
  · intro s hs
    exact OrderedSet.mem_insert.mpr (Or.inr (h.1 s hs))
  · intro hempty
    exact absurd (OrderedSet.mem_insert.mpr (Or.inl rfl)) (OrderedSet.eq_empty_iff.mp hempty seqId)

/-- A mark keeps the data coherent. -/
theorem Coherent.markReady {d : NodeData} (h : d.Coherent) (seqId : SeqId) :
    (d.markReady seqId).Coherent := by
  unfold NodeData.markReady
  split
  · rename_i hmem
    refine ⟨fun s hs => ?_, h.2⟩
    rcases OrderedSet.mem_insert.mp hs with rfl | hs
    · exact hmem
    · exact h.1 s hs
  · exact h

/-- Data that loses a sequence stays coherent. -/
theorem Coherent.drop {d : NodeData} (h : d.Coherent) (seqId : SeqId) :
    (d.drop seqId).Coherent := by
  constructor
  · intro s hs
    have hs' := OrderedSet.mem_erase.mp hs
    exact OrderedSet.mem_erase.mpr ⟨hs'.1, h.1 s hs'.2⟩
  · intro hempty
    exact if_pos hempty

/-- Data that takes a sequence over stays coherent. -/
theorem Coherent.takeOver {d : NodeData} (h : d.Coherent) (seqId : SeqId) (canonicalLen : ℕ) :
    (d.takeOver seqId canonicalLen).Coherent := by
  constructor
  · intro s hs
    rcases OrderedSet.mem_insert.mp hs with rfl | hs
    · exact OrderedSet.mem_insert.mpr (Or.inl rfl)
    · exact OrderedSet.mem_insert.mpr (Or.inr (h.1 s hs))
  · intro hempty
    exact absurd (OrderedSet.mem_insert.mpr (Or.inl rfl)) (OrderedSet.eq_empty_iff.mp hempty seqId)

end NodeData

/-- The data of a node. -/
def RadixNode.data (x : RadixNode) : NodeData :=
  { refCount := x.refCount, seqIds := x.seqIds, readySeqIds := x.readySeqIds,
    canonicalLen := x.canonicalLen }

namespace RadixTree

/-- The registry of a tree: the data at an identity, nothing at an unallocated one. -/
def data (t : RadixTree) (n : NodeId) : NodeData := t.field n RadixNode.data {}

/-- The data of a node that there is. -/
theorem data_of_nodes {t : RadixTree} {n : NodeId} {x : RadixNode} (h : t.nodes n = some x) :
    t.data n = x.data := by
  simp [data, field, h]

/-- Where there is no node there is no data. -/
theorem data_of_none {t : RadixTree} {n : NodeId} (h : t.nodes n = none) : t.data n = {} := by
  simp [data, field, h]

/-- Data of its own keeps an identity alive. -/
theorem alive_of_data {t : RadixTree} {n : NodeId} (h : ¬ (t.data n).Unused) : t.Alive n := by
  cases hn : t.nodes n with
  | none => exact absurd (data_of_none hn ▸ ⟨rfl, rfl⟩) h
  | some x => exact ⟨x, hn⟩

/-- A change of one living node is a change of the registry at its identity. -/
theorem data_modify {t : RadixTree} {n : NodeId} {f : RadixNode → RadixNode}
    {g : NodeData → NodeData} (hfg : ∀ x, (f x).data = g x.data) (hn : t.Alive n) :
    (t.modify n f).data = Function.update t.data n (g (t.data n)) := by
  obtain ⟨x, hx⟩ := hn
  funext m
  by_cases hm : m = n
  · subst hm
    rw [Function.update_self, data_of_nodes hx, ← hfg x]
    exact data_of_nodes (by simp [hx])
  · rw [Function.update_of_ne hm]
    simp [data, field, hm]

/-- A change that touches neither tokens nor links. -/
def Local (f : RadixNode → RadixNode) : Prop :=
  ∀ x, (f x).tokens = x.tokens ∧ (f x).parent = x.parent ∧ (f x).children = x.children

/-- A change of data leaves the children. -/
theorem Local.childAt {f : RadixNode → RadixNode} (hf : Local f) (t : RadixTree) (n m : NodeId)
    (key : Token) :
    (t.modify n f).childAt m key = t.childAt m key := by
  unfold RadixTree.childAt
  by_cases hm : m = n
  · subst hm
    cases hn : t.nodes m with
    | none => simp [hn]
    | some x => simp [hn, (hf x).2.2]
  · simp [hm]

/-- A change of data leaves the parents. -/
theorem Local.parentOf {f : RadixNode → RadixNode} (hf : Local f) (t : RadixTree) (n m : NodeId) :
    (t.modify n f).parentOf m = t.parentOf m := by
  unfold RadixTree.parentOf
  rw [modify_nodes]
  split
  · cases t.nodes m with
    | none => rfl
    | some x => exact (hf x).2.1
  · rfl

/-- A modification leaves the same nodes in the tree. -/
theorem alive_modify {t : RadixTree} {n m : NodeId} {f : RadixNode → RadixNode} :
    (t.modify n f).Alive m ↔ t.Alive m := by
  unfold Alive
  rw [modify_nodes]
  split <;> cases t.nodes m <;> simp

end RadixTree

namespace Shape

variable {t : RadixTree} {path : NodeId → List Token}

/-- The shape is that of the heap. -/
theorem congr (h : Shape t path) {t' : RadixTree} (hnodes : t'.nodes = t.nodes)
    (hnext : t'.nextId = t.nextId) :
    Shape t' path := by
  have hchild (p : NodeId) (key : Token) : t'.childAt p key = t.childAt p key := by
    simp [RadixTree.childAt, hnodes]
  constructor
  · rw [hnodes]
    exact h.root
  · exact h.rootPath
  · intro n x hx hn
    rw [hnodes] at hx
    simp only [hchild]
    exact h.up hx hn
  · intro p key c hc
    rw [hchild] at hc
    rw [hnodes]
    exact h.down hc
  · intro n x hx
    rw [hnodes] at hx
    rw [hnext]
    exact h.fresh hx

/-- A local change of one node keeps the shape. -/
theorem modify (h : Shape t path) (n : NodeId) {f : RadixNode → RadixNode}
    (hf : RadixTree.Local f) :
    Shape (t.modify n f) path := by
  have hnode {m : NodeId} {y : RadixNode} (hy : (t.modify n f).nodes m = some y) :
      ∃ x, t.nodes m = some x ∧ y.tokens = x.tokens ∧ y.parent = x.parent := by
    rw [RadixTree.modify_nodes] at hy
    split at hy
    · obtain ⟨x, hx, rfl⟩ := Option.map_eq_some_iff.mp hy
      exact ⟨x, hx, (hf x).1, (hf x).2.1⟩
    · exact ⟨y, hy, rfl, rfl⟩
  have hback {m : NodeId} {x : RadixNode} (hx : t.nodes m = some x) :
      ∃ y, (t.modify n f).nodes m = some y ∧ y.tokens = x.tokens ∧ y.parent = x.parent := by
    rw [RadixTree.modify_nodes, hx]
    split
    · exact ⟨f x, rfl, (hf x).1, (hf x).2.1⟩
    · exact ⟨x, rfl, rfl, rfl⟩
  constructor
  · obtain ⟨r, hr, htok, hparent⟩ := h.root
    obtain ⟨r', hr', htok', hparent'⟩ := hback hr
    exact ⟨r', hr', htok'.trans htok, hparent'.trans hparent⟩
  · exact h.rootPath
  · intro m y hy hm
    obtain ⟨x, hx, htok, hparent⟩ := hnode hy
    obtain ⟨p, key, rest, hp, hkey, hchild, hpath⟩ := h.up hx hm
    exact ⟨p, key, rest, hparent.trans hp, htok.trans hkey, by rw [hf.childAt, hchild],
      by rw [hpath, htok]⟩
  · intro p key c hc
    rw [hf.childAt] at hc
    obtain ⟨x, rest, hx, hparent, htok⟩ := h.down hc
    obtain ⟨y, hy, htok', hparent'⟩ := hback hx
    exact ⟨y, rest, hy, hparent'.trans hparent, htok'.trans htok⟩
  · intro m y hy
    obtain ⟨x, hx, _⟩ := hnode hy
    exact h.fresh hx

end Shape

end RadixForge
