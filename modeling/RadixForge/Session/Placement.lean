import RadixForge.Session.Registers
import RadixForge.Tree.Operations

/-!
# Clients in the tree

`Placement` is the part of the session invariant about the tree: its shape, coherent data, as
many references as there are clients and held nodes, the registrations, and canonical lengths
that reach the end of each node. There is one lemma for each way a session changes the tree.
-/

namespace RadixForge

open Library

/-- References and registrations in the tree are those of the clients and the idle sequences. -/
structure Placement (t : RadixTree) (path : NodeId → List Token) (live : List Client)
    (holds : List NodeId) (idle : NodeId → Option SeqId) : Prop where
  shape : Shape t path
  coherent : t.Coherent
  refs : ∀ n, (t.data n).refCount =
    live.countP (fun c => c.leaf = n) + holds.count n + if n = rootId then 1 else 0
  registers : Registers t.data live idle
  canonical : ∀ n, (t.data n).seqIds ≠ ∅ → (path n).length ≤ (t.data n).canonicalLen
  idleNode : ∀ n i, idle n = some i → n ≠ rootId

namespace Placement

variable {t : RadixTree} {path : NodeId → List Token} {live : List Client} {holds : List NodeId}
  {idle : NodeId → Option SeqId}

/-- A leaf or a held node is referenced. -/
theorem refs_pos (h : Placement t path live holds idle) {n : NodeId}
    (hn : (∃ c ∈ live, c.leaf = n) ∨ n ∈ holds) :
    0 < (t.data n).refCount := by
  rw [h.refs]
  rcases hn with ⟨c, hc, hleaf⟩ | hn
  · have hpos : 0 < live.countP fun c => c.leaf = n :=
      List.countP_pos_iff.mpr ⟨c, hc, by simpa using hleaf⟩
    omega
  · have hpos := List.count_pos_iff.mpr hn
    omega

/-- The nodes that clients and callers hold are in the tree. -/
theorem leaf_alive (h : Placement t path live holds idle) {n : NodeId}
    (hn : (∃ c ∈ live, c.leaf = n) ∨ n ∈ holds) :
    t.Alive n :=
  RadixTree.alive_of_data fun hunused => (h.refs_pos hn).ne' hunused.1

/-- A node that lists a sequence is in the tree. -/
theorem alive_of_registered (_ : Placement t path live holds idle) {n : NodeId} {i : SeqId}
    (hi : i ∈ (t.data n).seqIds) : t.Alive n :=
  RadixTree.alive_of_data fun hunused => OrderedSet.notMem_empty i (hunused.2 ▸ hi)

/-- The sequence of a client is listed at its owner. -/
theorem mem_owner (h : Placement t path live holds idle) {c : Client} (hc : c ∈ live) :
    c.seqId ∈ (t.data c.owner).seqIds :=
  (h.registers.registered _ _).mpr (Or.inl ⟨c, hc, rfl, rfl⟩)

/-- An idle sequence is listed at its node. -/
theorem mem_idle (h : Placement t path live holds idle) {n : NodeId} {i : SeqId}
    (hi : idle n = some i) :
    i ∈ (t.data n).seqIds :=
  (h.registers.registered _ _).mpr (Or.inr hi)

/-- Canonical lengths still reach the end of nodes whose paths got shorter. -/
theorem canonical_shorter (h : Placement t path live holds idle) {path' : NodeId → List Token}
    (hshorter : ∀ n, t.Alive n → path' n <+: path n) {n : NodeId} (hn : (t.data n).seqIds ≠ ∅) :
    (path' n).length ≤ (t.data n).canonicalLen :=
  (hshorter n (RadixTree.alive_of_data fun hunused => hn hunused.2)).length_le.trans
    (h.canonical n hn)

/-- Changes of references only. -/
theorem rereference (h : Placement t path live holds idle) {t' : RadixTree}
    {path' : NodeId → List Token}
    {holds' : List NodeId} {n : NodeId} {d : NodeData} (hshape : Shape t' path')
    (hshorter : ∀ m, t.Alive m → path' m <+: path m) (hdata : t'.data = Function.update t.data n d)
    (hseqs : d.seqIds = (t.data n).seqIds ∧ d.readySeqIds = (t.data n).readySeqIds ∧
      d.canonicalLen = (t.data n).canonicalLen)
    (hrefs : ∀ m, (t'.data m).refCount =
      live.countP (fun c => c.leaf = m) + holds'.count m + if m = rootId then 1 else 0) :
    Placement t' path' live holds' idle := by
  have hsame (m : NodeId) : (t'.data m).seqIds = (t.data m).seqIds ∧
      (t'.data m).readySeqIds = (t.data m).readySeqIds ∧
      (t'.data m).canonicalLen = (t.data m).canonicalLen := by
    rw [hdata, Function.update_apply]
    split
    · rename_i heq
      exact heq ▸ hseqs
    · exact ⟨rfl, rfl, rfl⟩
  have hcoherent : d.Coherent := by
    have hn := h.coherent n
    unfold NodeData.Coherent at hn ⊢
    rwa [hseqs.1, hseqs.2.1, hseqs.2.2]
  refine ⟨hshape, h.coherent.update hcoherent hdata, hrefs, ?_, ?_, h.idleNode⟩
  · exact h.registers.congr fun m => ⟨(hsame m).1, (hsame m).2.1⟩
  · intro m hm
    rw [(hsame m).1] at hm
    rw [(hsame m).2.2]
    exact h.canonical_shorter hshorter hm

/-- An insertion adds one held reference. -/
theorem hold (h : Placement t path live holds idle) {t' : RadixTree} {path' : NodeId → List Token}
    {n : NodeId} (hshape : Shape t' path') (hshorter : ∀ m, t.Alive m → path' m <+: path m)
    (hdata : t'.data = Function.update t.data n (t.data n).hold) :
    Placement t' path' live (n :: holds) idle := by
  refine h.rereference hshape hshorter hdata ⟨rfl, rfl, rfl⟩ fun m => ?_
  rw [hdata, Function.update_apply, List.count_cons]
  by_cases hm : m = n
  · subst hm
    simp only [if_true, NodeData.hold, h.refs, BEq.rfl]
    omega
  · have hne : (n == m) = false := by simpa using Ne.symm hm
    simp only [if_neg hm, h.refs, hne, Bool.false_eq_true, if_false, Nat.add_zero]

/-- Giving a held reference back. -/
theorem letGo (h : Placement t path live holds idle) {t' : RadixTree} {n : NodeId} (hn : n ∈ holds)
    (hshape : Shape t' path) (hdata : t'.data = Function.update t.data n (t.data n).letGo) :
    Placement t' path live (holds.erase n) idle := by
  refine h.rereference hshape (fun m _ => List.prefix_refl _) hdata ⟨rfl, rfl, rfl⟩ fun m => ?_
  have hpos := List.count_pos_iff.mpr hn
  rw [hdata, Function.update_apply, List.count_erase]
  by_cases hm : m = n
  · subst hm
    simp only [if_true, NodeData.letGo, h.refs, BEq.rfl]
    omega
  · have hne : (n == m) = false := by simpa using Ne.symm hm
    simp only [if_neg hm, h.refs, hne, Bool.false_eq_true, if_false, Nat.sub_zero]

/-- References do not change when only sequences do. -/
theorem refs_update (h : Placement t path live holds idle) {t' : RadixTree} {n : NodeId}
    {d : NodeData} (hdata : t'.data = Function.update t.data n d)
    (hrefs : d.refCount = (t.data n).refCount) (m : NodeId) :
    (t'.data m).refCount = live.countP (fun c => c.leaf = m) + holds.count m +
      if m = rootId then 1 else 0 := by
  rw [← h.refs, hdata, Function.update_apply]
  split
  · rename_i heq
    rw [heq, hrefs]
  · rfl

/-- An eviction takes the idle sequence of a node without clients away. -/
theorem evict (h : Placement t path live holds idle) {t' : RadixTree} {n : NodeId}
    (hlive : ∀ c ∈ live, c.owner ≠ n) (hshape : Shape t' path)
    (hdata : t'.data = Function.update t.data n (t.data n).clear) :
    Placement t' path live holds (Function.update idle n none) := by
  refine ⟨hshape, h.coherent.update (NodeData.Coherent.clear _) hdata,
    h.refs_update hdata rfl, ?_, ?_, ?_⟩
  · rw [hdata]
    exact h.registers.clear hlive
  · intro m hm
    rw [hdata, Function.update_apply] at hm ⊢
    split at hm
    · exact absurd rfl hm
    · rename_i hne
      rw [if_neg hne]
      exact h.canonical m hm
  · intro m i hm
    rw [Function.update_apply] at hm
    split at hm
    · contradiction
    · exact h.idleNode m i hm

/-- A new client is registered at a held node, which becomes its leaf. -/
theorem register (h : Placement t path live holds idle) {t' : RadixTree} {c : Client}
    (hn : c.leaf ∈ holds)
    (howner : c.owner = c.leaf) (hpending : c.ready = false) (hpath : path c.leaf = c.prompt)
    (hshape : Shape t' path)
    (hdata : t'.data = Function.update t.data c.leaf
      ((t.data c.leaf).register c.seqId c.prompt.length)) :
    Placement t' path (c :: live) (holds.erase c.leaf) idle := by
  refine ⟨hshape, h.coherent.update ((h.coherent c.leaf).register _ _) hdata,
    ?_, ?_, ?_, h.idleNode⟩
  · intro m
    have hpos := List.count_pos_iff.mpr hn
    rw [h.refs_update hdata rfl, List.countP_cons, List.count_erase]
    by_cases hm : c.leaf = m
    · subst hm
      simp only [decide_true, if_true, BEq.rfl]
      omega
    · have hne : (c.leaf == m) = false := by simpa using hm
      simp [hm, hne]
  · rw [hdata, ← howner]
    exact h.registers.register hpending _
  · intro m hm
    rw [hdata, Function.update_apply] at hm ⊢
    by_cases hmn : m = c.leaf
    · rw [if_pos hmn]
      simp only [NodeData.register]
      split
      · rw [hmn, hpath]
      · rename_i hlen
        -- a canonical length that is already set belongs to sequences registered before
        rw [hmn]
        exact h.canonical _ fun hempty => hlen ((h.coherent _).2 hempty)
    · rw [if_neg hmn] at hm ⊢
      exact h.canonical m hm

/-- A change of a client that keeps its place. -/
theorem change (h : Placement t path live holds idle) {i : SeqId} {f : Client → Client}
    (hf : ∀ c, (f c).owner = c.owner ∧ (f c).seqId = c.seqId ∧ (f c).ready = c.ready)
    (hleaf : ∀ c, (f c).leaf = c.leaf) :
    Placement t path (live.map fun c => if c.seqId = i then f c else c) holds idle := by
  refine ⟨h.shape, h.coherent, fun n => ?_, h.registers.change hf, h.canonical, h.idleNode⟩
  rw [countP_leaf_change hleaf, h.refs]

/-- A client's sequence becomes ready. -/
theorem markReady (h : Placement t path live holds idle) (hnodup : (live.map Client.seqId).Nodup)
    {t' : RadixTree} {c : Client} (hc : c ∈ live) (hshape : Shape t' path)
    (hdata : t'.data = Function.update t.data c.owner ((t.data c.owner).markReady c.seqId)) :
    Placement t' path (live.map fun d => if d.seqId = c.seqId then { d with ready := true } else d)
      holds idle := by
  have hsame : ((t.data c.owner).markReady c.seqId).refCount = (t.data c.owner).refCount ∧
      ((t.data c.owner).markReady c.seqId).seqIds = (t.data c.owner).seqIds ∧
      ((t.data c.owner).markReady c.seqId).canonicalLen = (t.data c.owner).canonicalLen := by
    unfold NodeData.markReady
    split <;> exact ⟨rfl, rfl, rfl⟩
  refine ⟨hshape, h.coherent.update ((h.coherent _).markReady _) hdata, ?_, ?_, ?_, h.idleNode⟩
  · intro m
    rw [h.refs_update hdata hsame.1 m, countP_leaf_change]
    exact fun c => rfl
  · rw [hdata]
    exact h.registers.markReady hnodup hc
  · intro m hm
    rw [hdata, Function.update_apply] at hm ⊢
    split at hm
    · rename_i heq
      rw [if_pos heq, heq, hsame.2.2]
      rw [hsame.2.1] at hm
      exact h.canonical _ hm
    · rename_i hne
      rw [if_neg hne]
      exact h.canonical m hm

/-- A departing client turns its reference into a held one. -/
theorem refs_leave (_ : Placement t path live holds idle) (hnodup : (live.map Client.seqId).Nodup)
    {c : Client} (hc : c ∈ live) (m : NodeId) :
    live.countP (fun d => d.leaf = m) + holds.count m =
      (live.filter fun d => d.seqId ≠ c.seqId).countP (fun d => d.leaf = m) +
        (c.leaf :: holds).count m := by
  rw [(perm_client_filter hnodup hc).countP_eq, List.countP_cons, List.count_cons]
  simp only [beq_iff_eq, decide_eq_true_eq]
  omega

/-- A node that loses a sequence but not all of them still has a canonical length that covers its
path. -/
theorem canonical_drop (h : Placement t path live holds idle) {n : NodeId} {i : SeqId}
    (hn : ((t.data n).drop i).seqIds ≠ ∅) : (path n).length ≤ ((t.data n).drop i).canonicalLen := by
  have hkeep : ((t.data n).drop i).canonicalLen = (t.data n).canonicalLen := if_neg hn
  rw [hkeep]
  refine h.canonical n fun hempty => hn ?_
  rw [OrderedSet.eq_empty_iff] at hempty ⊢
  intro j hj
  exact hempty j (OrderedSet.mem_erase.mp hj).2

/-- A client leaves and its sequence is dropped. -/
theorem leave (h : Placement t path live holds idle) (hnodup : (live.map Client.seqId).Nodup)
    {t' : RadixTree} {c : Client} (hc : c ∈ live) (hheld : ∀ n, idle n ≠ some c.seqId)
    (hshape : Shape t' path)
    (hdata : t'.data = Function.update t.data c.owner ((t.data c.owner).drop c.seqId)) :
    Placement t' path (live.filter fun d => d.seqId ≠ c.seqId) (c.leaf :: holds) idle := by
  refine ⟨hshape, h.coherent.update ((h.coherent _).drop _) hdata, ?_, ?_, ?_, h.idleNode⟩
  · intro m
    rw [h.refs_update hdata rfl m, h.refs_leave hnodup hc]
  · rw [hdata]
    exact h.registers.drop hnodup hc hheld
  · intro m hm
    rw [hdata, Function.update_apply] at hm ⊢
    split at hm
    · rename_i heq
      rw [if_pos heq, heq]
      exact h.canonical_drop hm
    · rename_i hne
      rw [if_neg hne]
      exact h.canonical m hm

/-- A client leaves and its sole ready sequence stays at the owner. -/
theorem park (h : Placement t path live holds idle) (hnodup : (live.map Client.seqId).Nodup)
    {c : Client} (hc : c ∈ live) (hready : c.ready = true)
    (hsole : ∀ i ∈ (t.data c.owner).seqIds, i = c.seqId) (hroot : c.owner ≠ rootId) :
    Placement t path (live.filter fun d => d.seqId ≠ c.seqId) (c.leaf :: holds)
      (Function.update idle c.owner (some c.seqId)) := by
  refine ⟨h.shape, h.coherent, ?_, h.registers.park hnodup hc hready hsole, h.canonical, ?_⟩
  · intro m
    rw [h.refs, h.refs_leave hnodup hc]
  · intro m i hm
    rw [Function.update_apply] at hm
    split at hm
    · rename_i heq
      exact heq ▸ hroot
    · exact h.idleNode m i hm

/-- A client's ready sequence moves to the node that ends its history. -/
theorem extend (h : Placement t path live holds idle) (hnodup : (live.map Client.seqId).Nodup)
    {t' : RadixTree}
    {path' : NodeId → List Token} {c : Client} {n : NodeId} {len : ℕ} (hc : c ∈ live)
    (hready : c.ready = true)
    (hheld : ∀ k, idle k ≠ some c.seqId) (hshape : Shape t' path')
    (hshorter : ∀ m, t.Alive m → path' m <+: path m)
    (hlen : (path' n).length ≤ len)
    (hdata : t'.data =
      Function.update (Function.update t.data c.owner ((t.data c.owner).drop c.seqId)) n
      ((Function.update t.data c.owner ((t.data c.owner).drop c.seqId) n).takeOver c.seqId len)) :
    Placement t' path' (live.map fun d => if d.seqId = c.seqId then { d with owner := n } else d)
      holds idle := by
  generalize hdropped : Function.update t.data c.owner ((t.data c.owner).drop c.seqId) =
    data₁ at hdata
  have hregisters : Registers data₁ _ _ := hdropped ▸ h.registers.drop hnodup hc hheld
  have hcoherent (m : NodeId) : (data₁ m).Coherent := by
    rw [← hdropped, Function.update_apply]
    split
    · exact (h.coherent _).drop _
    · exact h.coherent m
  have hcanonical (m : NodeId) (hm : (data₁ m).seqIds ≠ ∅) :
      (path' m).length ≤ (data₁ m).canonicalLen := by
    have halive : t.Alive m := by
      refine RadixTree.alive_of_data fun hunused => hm ?_
      rw [← hdropped, Function.update_apply]
      split
      · rename_i heq
        rw [heq] at hunused
        rw [NodeData.drop, hunused.2]
        exact OrderedSet.eq_empty_iff.mpr fun j hj =>
          OrderedSet.notMem_empty j (OrderedSet.mem_erase.mp hj).2
      · exact hunused.2
    refine (hshorter m halive).length_le.trans ?_
    rw [← hdropped, Function.update_apply] at hm ⊢
    split at hm
    · rename_i heq
      rw [if_pos heq, heq]
      exact h.canonical_drop hm
    · rename_i hne
      rw [if_neg hne]
      exact h.canonical m hm
  refine ⟨hshape, ?_, ?_, ?_, ?_, h.idleNode⟩
  · intro m
    rw [hdata, Function.update_apply]
    split
    · exact (hcoherent _).takeOver _ _
    · exact hcoherent m
  · intro m
    have hrefs : (t'.data m).refCount = (t.data m).refCount := by
      rw [hdata, ← hdropped]
      simp only [Function.update_apply]
      split_ifs <;> simp_all [NodeData.takeOver, NodeData.drop]
    rw [hrefs, h.refs, countP_leaf_change]
    exact fun c => rfl
  · rw [hdata]
    exact hregisters.takeOver hnodup hc hready n len
  · intro m hm
    rw [hdata, Function.update_apply] at hm ⊢
    split at hm
    · rename_i heq
      rw [if_pos heq, heq]
      exact hlen
    · rename_i hne
      rw [if_neg hne]
      exact hcanonical m hm

end Placement

end RadixForge
