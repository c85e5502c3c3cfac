import RadixForge.Tree.Pruning
import RadixForge.Tree.Reading

/-!
# The operations on the registry

One specification for each operation of the tree on sequences and references: it keeps the
paths and writes one entry of the registry, and no operation that prunes leaves a dead node
behind. An extension also grows the tree and writes two entries.
-/

namespace RadixForge

open Library

/-- Every node records coherent data. -/
def RadixTree.Coherent (t : RadixTree) : Prop := ∀ n, (t.data n).Coherent

/-- Coherent data stays so if coherent data is written. -/
theorem RadixTree.Coherent.update {t t' : RadixTree} (h : t.Coherent) {n : NodeId} {d : NodeData}
    (hd : d.Coherent) (hdata : t'.data = Function.update t.data n d) : t'.Coherent := by
  intro m
  rw [hdata]
  by_cases hm : m = n
  · rw [hm, Function.update_self]
    exact hd
  · rw [Function.update_of_ne hm]
    exact h m

namespace Shape

variable {t : RadixTree} {path : NodeId → List Token}

/-- `release` gives one reference back. -/
theorem release_spec (h : Shape t path) (hcoherent : t.Coherent) {n : NodeId}
    (hrefs : 0 < (t.data n).refCount) :
    Shape (t.release n) path ∧ (t.release n).data = Function.update t.data n (t.data n).letGo ∧
      t.Shrinks (t.release n) ∧ ((∀ m, ¬ t.Dead m) → ∀ m, ¬ (t.release n).Dead m) := by
  have hn : t.Alive n := RadixTree.alive_of_data fun hunused => hrefs.ne' hunused.1
  obtain ⟨x, hx⟩ := hn
  have hpos : 0 < x.refCount := by
    rw [RadixTree.data_of_nodes hx] at hrefs
    exact hrefs
  have hdef : t.release n =
      (t.modify n fun x => { x with refCount := x.refCount - 1 }).pruneEmptyLeaves n := by
    simp only [RadixTree.release, hx, if_pos hpos]
  rw [hdef]
  exact h.modify_prune hcoherent ⟨x, hx⟩ (fun x => ⟨rfl, rfl, rfl⟩) (fun x => rfl)
    (hcoherent n).letGo

/-- `evict` takes every sequence of an idle node. -/
theorem evict_spec (h : Shape t path) (hcoherent : t.Coherent) {n : NodeId} (hn : t.Evictable n) :
    (t.evict n).2 = (t.data n).seqIds.toList ∧ Shape (t.evict n).1 path ∧
      (t.evict n).1.data = Function.update t.data n (t.data n).clear ∧
      t.Shrinks (t.evict n).1 ∧ ((∀ m, ¬ t.Dead m) → ∀ m, ¬ (t.evict n).1.Dead m) := by
  obtain ⟨x, hx⟩ := hn.alive
  obtain ⟨hroot, hrefs, hseqs⟩ := hn
  rw [RadixTree.data_of_nodes hx] at hrefs hseqs
  obtain ⟨p, hp, _⟩ := h.parent_spec hx hroot
  have hcond : ¬ (x.parent = none ∨ x.refCount ≠ 0 ∨ x.seqIds = ∅) := by
    rw [hp]
    rintro (hnone | hne | hempty)
    · contradiction
    · exact hne hrefs
    · exact hseqs hempty
  have hdef : t.evict n =
      ((t.modify n fun x =>
        { x with seqIds := ∅, readySeqIds := ∅, canonicalLen := 0 }).pruneEmptyLeaves n,
        x.seqIds.toList) := by
    simp only [RadixTree.evict, hx, if_neg hcond]
  rw [hdef]
  refine ⟨by rw [RadixTree.data_of_nodes hx]; rfl, ?_⟩
  exact h.modify_prune hcoherent ⟨x, hx⟩
    (fun x => ⟨rfl, rfl, rfl⟩) (fun x => rfl) (NodeData.Coherent.clear _)

/-- `register_seq_id` adds a pending sequence. -/
theorem registerSeqId_spec (h : Shape t path) {n : NodeId} (hn : t.Alive n) (s : SeqId) (len : ℕ) :
    Shape (t.registerSeqId n s len) path ∧
      (t.registerSeqId n s len).data = Function.update t.data n ((t.data n).register s len) :=
  ⟨h.modify n fun _ => ⟨rfl, rfl, rfl⟩, RadixTree.data_modify (fun _ => rfl) hn⟩

/-- `mark_seq_id_ready` makes a registered sequence ready. -/
theorem markSeqIdReady_spec (h : Shape t path) {n : NodeId} (hn : t.Alive n) (s : SeqId) :
    Shape (t.markSeqIdReady n s) path ∧
      (t.markSeqIdReady n s).data = Function.update t.data n ((t.data n).markReady s) := by
  refine ⟨h.modify n fun x => ?_, RadixTree.data_modify (fun x => ?_) hn⟩
  · split <;> exact ⟨rfl, rfl, rfl⟩
  · by_cases hmem : s ∈ x.seqIds <;> simp [NodeData.markReady, RadixNode.data, hmem]

/-- What dropping a sequence does to the data of a node. -/
theorem dropSeqId_data (s : SeqId) (x : RadixNode) :
    (RadixTree.dropSeqId s x).data = x.data.drop s := by
  simp only [RadixTree.dropSeqId, NodeData.drop, RadixNode.data]
  split <;> simp_all

/-- Dropping a sequence leaves the tokens, the children and the parent of a node. -/
theorem dropSeqId_local (s : SeqId) : RadixTree.Local (RadixTree.dropSeqId s) := by
  intro x
  simp only [RadixTree.dropSeqId]
  split <;> exact ⟨rfl, rfl, rfl⟩

/-- `release_seq_id` keeps a sole ready sequence that is to be retained and drops any other. -/
theorem releaseSeqId_spec (h : Shape t path) {n : NodeId} {s : SeqId} (hs : s ∈ (t.data n).seqIds)
    (retain : Bool) :
    if retain ∧ s ∈ (t.data n).readySeqIds ∧ (t.data n).seqIds.size ≤ 1 then t.releaseSeqId n
      s retain = (t, false)
    else (t.releaseSeqId n s retain).2 = true ∧ Shape (t.releaseSeqId n s retain).1 path ∧
      (t.releaseSeqId n s retain).1.data = Function.update t.data n ((t.data n).drop s) := by
  have hn : t.Alive n := RadixTree.alive_of_data fun hunused =>
    OrderedSet.notMem_empty s (hunused.2 ▸ hs)
  obtain ⟨x, hx⟩ := hn
  have hmem : s ∈ x.seqIds := by
    rw [RadixTree.data_of_nodes hx] at hs
    exact hs
  have hdata : (t.modify n (RadixTree.dropSeqId s)).data =
      Function.update t.data n ((t.data n).drop s) :=
    RadixTree.data_modify (dropSeqId_data s) ⟨x, hx⟩
  have hshape := h.modify n (dropSeqId_local s)
  rw [RadixTree.data_of_nodes hx] at hdata ⊢
  simp only [RadixTree.releaseSeqId, hx, hmem, not_true_eq_false, if_false, RadixNode.data]
  split
  · rfl
  · exact ⟨rfl, hshape, hdata⟩

end Shape

/-- The last part of an extension: the sequence is counted anew at its node, or goes to the node
that was found. -/
def RadixTree.settleSeqId (t : RadixTree) (node target : NodeId) (seqId : SeqId)
    (canonicalLen : ℕ) :
    RadixTree × NodeId :=
  if target = node then (t.modify node fun x => { x with canonicalLen := canonicalLen }, node)
  else
    let t := (t.modify node (RadixTree.dropSeqId seqId)).advance
    (t.modify target fun x => { x with seqIds := x.seqIds.insert seqId
                                       readySeqIds := x.readySeqIds.insert seqId
                                       canonicalLen := canonicalLen
                                       lastAccessTick := t.tick }, target)

/-- The node that was found is the one that is returned. -/
@[simp] theorem RadixTree.settleSeqId_node (t : RadixTree) (node target : NodeId) (s : SeqId)
    (len : ℕ) :
    (t.settleSeqId node target s len).2 = target := by
  unfold RadixTree.settleSeqId
  split
  · rename_i htarget
    exact htarget.symm
  · rfl

namespace Shape

variable {t : RadixTree} {path : NodeId → List Token}

section Extension

variable {n target : NodeId} {s : SeqId} {tokens : List Token}

/-- The sequence leaves its node, and the node that was found takes it over. -/
theorem settleSeqId_spec (h : Shape t path) (hs : s ∈ (t.data n).seqIds)
    (hready : s ∈ (t.data n).readySeqIds) (htarget : t.Alive target) (len : ℕ) :
    Shape (t.settleSeqId n target s len).1 path ∧
      (∀ m, t.Alive m → (t.settleSeqId n target s len).1.Alive m) ∧
      (t.settleSeqId n target s len).1.data =
        Function.update (Function.update t.data n ((t.data n).drop s)) target
          ((Function.update t.data n ((t.data n).drop s) target).takeOver s len) := by
  have hn : t.Alive n := RadixTree.alive_of_data fun hunused =>
    OrderedSet.notMem_empty s (hunused.2 ▸ hs)
  unfold RadixTree.settleSeqId
  split
  · rename_i heq
    subst heq
    refine ⟨h.modify _ fun x => ⟨rfl, rfl, rfl⟩, fun m hm => RadixTree.alive_modify.mpr hm, ?_⟩
    rw [RadixTree.data_modify (g := NodeData.recount len) (fun x => rfl) hn, Function.update_idem,
      Function.update_self]
    congr 1
    -- dropping and taking over the same sequence leaves the sets as they are
    have hsame {set : OrderedSet SeqId} (hmem : s ∈ set) : (set.erase s).insert s = set := by
      refine OrderedSet.ext_mem fun a => ?_
      by_cases ha : a = s <;> simp [ha, hmem]
    ext1
    · rfl
    · exact (hsame hs).symm
    · exact (hsame hready).symm
    · rfl
  · have hdrop : (t.modify n (RadixTree.dropSeqId s)).advance.data =
        Function.update t.data n ((t.data n).drop s) :=
      RadixTree.data_modify (dropSeqId_data s) hn
    have hadvanced : Shape (t.modify n (RadixTree.dropSeqId s)).advance path :=
      (h.modify n (dropSeqId_local s)).congr rfl rfl
    have hkept (m : NodeId) (hm : t.Alive m) :
        (t.modify n (RadixTree.dropSeqId s)).advance.Alive m :=
      RadixTree.alive_modify.mpr hm
    generalize (t.modify n (RadixTree.dropSeqId s)).advance = t₁ at hdrop hadvanced hkept ⊢
    refine ⟨hadvanced.modify _ fun _ => ⟨rfl, rfl, rfl⟩,
      fun m hm => RadixTree.alive_modify.mpr (hkept m hm), ?_⟩
    simp only
    rw [← hdrop]
    exact RadixTree.data_modify (g := NodeData.takeOver s len) (fun _ => rfl) (hkept _ htarget)

/-- An extension of a ready sequence is a walk, a leaf for what is left over, and the move of the
sequence. -/
theorem extendSeqId_walked (h : Shape t path) (hs : s ∈ (t.data n).seqIds)
    (hready : s ∈ (t.data n).readySeqIds) (htokens : tokens ≠ []) :
    ∃ (t₁ t₂ : RadixTree) (k : NodeId) (len : ℕ) (rest : List Token),
      Walked t path tokens t₁ k len rest ∧ t₂.nodes = t₁.nodes ∧ t₂.nextId = t₁.nextId ∧
      t.extendSeqId n s tokens tokens.length =
        (t₂.addLeaf ⟨k, k, len, rest⟩ t₂.tick).1.settleSeqId n
        (t₂.addLeaf ⟨k, k, len, rest⟩ t₂.tick).2.node s tokens.length := by
  have hn : t.Alive n := RadixTree.alive_of_data fun hunused =>
    OrderedSet.notMem_empty s (hunused.2 ▸ hs)
  obtain ⟨x, hx⟩ := hn
  rw [RadixTree.data_of_nodes hx] at hs hready
  have hcond : ¬ (tokens = [] ∨ tokens.length = 0 ∨ tokens.length < tokens.length ∨ s ∉ x.seqIds ∨
      s ∉ x.readySeqIds) := by
    rw [List.length_eq_zero_iff]
    rintro (hnil | hzero | hlt | hnot | hnot)
    · exact htokens hnil
    · exact htokens hzero
    · exact lt_irrefl _ hlt
    · exact hnot hs
    · exact hnot hready
  obtain ⟨t₁, k, len, rest, hfind, hwalked⟩ := h.findPrefix_walked tokens
  -- the clock advances only when a leaf is created
  have hclock : (if rest = [] then t₁ else t₁.advance).nodes = t₁.nodes ∧
      (if rest = [] then t₁ else t₁.advance).nextId = t₁.nextId := by
    split <;> exact ⟨rfl, rfl⟩
  refine ⟨t₁, if rest = [] then t₁ else t₁.advance, k, len, rest, hwalked, hclock.1, hclock.2, ?_⟩
  simp only [RadixTree.extendSeqId, hx, if_neg hcond, hfind]
  rfl

/-- The walk and the leaf of an extension grow the tree by a node that ends the tokens. -/
theorem walked_addLeaf_growth (h : Shape t path) {t₁ t₂ : RadixTree} {k : NodeId} {len : ℕ}
    {rest : List Token} (hwalked : Walked t path tokens t₁ k len rest)
    (hnodes : t₂.nodes = t₁.nodes) (hnext : t₂.nextId = t₁.nextId) (tick : ℕ) :
    ∃ path', Growth t path (t₂.addLeaf ⟨k, k, len, rest⟩ tick).1 path' ∧
      (t₂.addLeaf ⟨k, k, len, rest⟩ tick).1.Alive (t₂.addLeaf ⟨k, k, len, rest⟩ tick).2.node ∧
      path' (t₂.addLeaf ⟨k, k, len, rest⟩ tick).2.node = tokens := by
  obtain ⟨path₁, hgrow, hk, hpath₁, _, hkey⟩ := hwalked.growth h
  have hgrow₂ := hgrow.congr hnodes hnext
  have hkey₂ (key : Token) (rest' : List Token) (hrest : rest = key :: rest') :
      t₂.childAt k key = none := by
    rw [← hkey key rest' hrest]
    simp only [RadixTree.childAt, hnodes]
  obtain ⟨path₃, hgrow₃, halive₃, hpath₃, _⟩ :=
    addLeaf_growth hgrow₂.shape ⟨k, k, len, rest⟩ (hgrow₂.alive hk) hkey₂ tick
  exact ⟨path₃, hgrow₂.trans hgrow₃, halive₃, hpath₃.trans hpath₁⟩

/-- `extend_seq_id` moves a ready sequence to the node that ends the given tokens. -/
theorem extendSeqId_spec (h : Shape t path) (hs : s ∈ (t.data n).seqIds)
    (hready : s ∈ (t.data n).readySeqIds) (htokens : tokens ≠ []) :
    ∃ path', Shape (t.extendSeqId n s tokens tokens.length).1 path' ∧
      (∀ m, t.Alive m → (t.extendSeqId n s tokens tokens.length).1.Alive m ∧ path' m <+: path m) ∧
      path' (t.extendSeqId n s tokens tokens.length).2 = tokens ∧
      (t.extendSeqId n s tokens tokens.length).1.data =
        Function.update (Function.update t.data n ((t.data n).drop s))
          (t.extendSeqId n s tokens tokens.length).2
          ((Function.update t.data n ((t.data n).drop s)
            (t.extendSeqId n s tokens tokens.length).2).takeOver s tokens.length) := by
  obtain ⟨t₁, t₂, k, len, rest, hwalked, hnodes, hnext, hextended⟩ :=
    h.extendSeqId_walked hs hready htokens
  obtain ⟨path', hgrow, halive, hpath⟩ := h.walked_addLeaf_growth hwalked hnodes hnext t₂.tick
  rw [hextended, RadixTree.settleSeqId_node]
  generalize t₂.addLeaf ⟨k, k, len, rest⟩ t₂.tick = leaf at hgrow halive hpath ⊢
  rw [← hgrow.data] at hs hready ⊢
  obtain ⟨hshape, hkept, hdata⟩ := hgrow.shape.settleSeqId_spec hs hready halive tokens.length
  exact ⟨path', hshape, fun m hm => ⟨hkept m (hgrow.alive hm), hgrow.shorter hm⟩, hpath, hdata⟩

end Extension

end Shape

end RadixForge
