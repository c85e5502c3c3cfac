import Mathlib.Data.Finset.Max
import RadixForge.Tree.Branches

/-!
# Operations that leave no dead branch

Evictions, releases and registrations keep every childless node in use and do not touch the nodes
that are dead already. A tree without dead nodes is no larger than what is in use.
-/

namespace RadixForge

open Library

namespace RadixTree

/-- Every childless node except the root is referenced or has a registered sequence. -/
def LeavesUsed (t : RadixTree) : Prop :=
  ∀ n x, t.nodes n = some x → n ≠ rootId → x.children.entries = [] → 0 < x.refCount ∨ x.seqIds ≠ ∅

/-- All leaves are in use exactly if no node is dead. -/
theorem leavesUsed_iff (t : RadixTree) : t.LeavesUsed ↔ t.NoDead := by
  have hused (x : RadixNode) : (0 < x.refCount ∨ x.seqIds ≠ ∅) ↔ ¬ x.data.Unused := by
    rw [NodeData.Unused, not_and_or, Nat.pos_iff_ne_zero]
    rfl
  constructor
  · rintro h n ⟨⟨x, hx⟩, hroot, hunused, hleaf⟩
    rw [data_of_nodes hx] at hunused
    refine (hused x).mp (h n x hx hroot ((entries_eq_nil_iff _).mpr fun key => ?_)) hunused
    rw [← childAt_of_nodes hx, hleaf]
  · intro h n x hx hroot hentries
    refine (hused x).mpr fun hunused =>
      h n ⟨⟨x, hx⟩, hroot, data_of_nodes hx ▸ hunused, fun key => ?_⟩
    rw [childAt_of_nodes hx]
    exact (entries_eq_nil_iff _).mp hentries key

/-- The second tree has a dead node exactly if the first one has. -/
structure Tidies (t t' : RadixTree) : Prop where
  noDead : t.NoDead → t'.NoDead
  dead : ∀ m, t.Dead m → t'.Dead m

/-- A tree that stays has the same dead nodes. -/
theorem Tidies.refl (t : RadixTree) : t.Tidies t := ⟨id, fun _ => id⟩

/-- Two changes that leave a dead node only where there was one do so together. -/
theorem Tidies.trans {t₁ t₂ t₃ : RadixTree} (h₁ : t₁.Tidies t₂) (h₂ : t₂.Tidies t₃) :
    t₁.Tidies t₃ :=
  ⟨fun h => h₂.noDead (h₁.noDead h), fun m hm => h₂.dead m (h₁.dead m hm)⟩

/-- A change of a node that is and stays in use. -/
theorem Tidies.of_used {t t' : RadixTree} {n : NodeId} (h : ∀ m ≠ n, (t'.Dead m ↔ t.Dead m))
    (hbefore : ¬ t.Dead n) (hafter : ¬ t'.Dead n) : t.Tidies t' where
  noDead hnone m := by
    by_cases hm : m = n
    · exact hm ▸ hafter
    · exact (h m hm).not.mpr (hnone m)
  dead m hm := (h m fun heq => hbefore (heq ▸ hm)).mpr hm

/-- A referenced node is not dead. -/
theorem not_dead_of_refs {t : RadixTree} {n : NodeId} (h : 0 < (t.data n).refCount) : ¬ t.Dead n :=
  fun hdead => h.ne' hdead.2.2.1.1

/-- A node with a sequence is not dead. -/
theorem not_dead_of_mem {t : RadixTree} {n : NodeId} {i : SeqId} (h : i ∈ (t.data n).seqIds) :
    ¬ t.Dead n :=
  fun hdead => OrderedSet.notMem_empty i (hdead.2.2.1.2 ▸ h)

end RadixTree

namespace Shape

variable {t : RadixTree} {path : NodeId → List Token}

/-- An eviction leaves a dead node only where there was one. -/
theorem evict_tidies (h : Shape t path) (hcoherent : t.Coherent) {n : NodeId} (hn : t.Evictable n) :
    t.Tidies (t.evict n).1 :=
  ⟨(h.evict_spec hcoherent hn).2.2.2.2, fun _ hm => h.evict_dead hn hm⟩

/-- A release leaves a dead node only where there was one. -/
theorem release_tidies (h : Shape t path) (hcoherent : t.Coherent) {n : NodeId}
    (hrefs : 0 < (t.data n).refCount) :
    t.Tidies (t.release n) :=
  ⟨(h.release_spec hcoherent hrefs).2.2.2,
    fun _ hm => h.release_dead (fun heq => RadixTree.not_dead_of_refs hrefs (heq ▸ hm)) hm⟩

/-- A registration at a referenced node leaves a dead node only where there was one. -/
theorem registerSeqId_tidies (h : Shape t path) {n : NodeId} (hrefs : 0 < (t.data n).refCount)
    (i : SeqId) (len : ℕ) :
    t.Tidies (t.registerSeqId n i len) := by
  have hn : t.Alive n := RadixTree.alive_of_data fun hunused => hrefs.ne' hunused.1
  refine .of_used (n := n) (fun m hm => ?_) (RadixTree.not_dead_of_refs hrefs) ?_
  · rw [h.registerSeqId_dead hn, and_iff_right hm]
  · rw [h.registerSeqId_dead hn]
    exact fun hand => hand.1 rfl

/-- The release of a sequence matters at its node only. -/
theorem releaseSeqId_dead {n m : NodeId} (hne : m ≠ n) (i : SeqId) (retain : Bool) :
    (t.releaseSeqId n i retain).1.Dead m ↔ t.Dead m := by
  unfold RadixTree.releaseSeqId
  split
  · rfl
  · split
    · rfl
    · split
      · rfl
      · exact RadixTree.dead_modify (dropSeqId_local i) hne

/-- A mark at a referenced node leaves a dead node only where there was one. -/
theorem markSeqIdReady_tidies (h : Shape t path) {n : NodeId} (hrefs : 0 < (t.data n).refCount)
    (i : SeqId) :
    t.Tidies (t.markSeqIdReady n i) := by
  have hn : t.Alive n := RadixTree.alive_of_data fun hunused => hrefs.ne' hunused.1
  refine .of_used (n := n) (fun m hm => ?_) (RadixTree.not_dead_of_refs hrefs)
    (RadixTree.not_dead_of_refs ?_)
  · refine RadixTree.dead_modify (fun x => ?_) hm
    split <;> exact ⟨rfl, rfl, rfl⟩
  · rw [(h.markSeqIdReady_spec hn i).2, Function.update_self, NodeData.markReady]
    split <;> exact hrefs

/-- Without dead nodes, and with nothing in use but the root, the root is alone. -/
theorem nodeCount_eq_one (h : Shape t path) (hnone : t.NoDead)
    (hunused : ∀ n, n ≠ rootId → (t.data n).Unused) :
    t.nodeCount = 1 := by
  have hroot : ∀ n ∈ t.allNodes, n = rootId := by
    by_contra hother
    push Not at hother
    obtain ⟨n, hn, hne⟩ := hother
    -- a deepest node has no children
    obtain ⟨d, hd, hdeepest⟩ :=
      (t.allNodes.toFinset.erase rootId).exists_max_image (fun m => (path m).length)
      ⟨n, Finset.mem_erase.mpr ⟨hne, List.mem_toFinset.mpr hn⟩⟩
    simp only [Finset.mem_erase, List.mem_toFinset] at hd hdeepest
    refine hnone d ⟨(h.allNodes_spec.2 d).mp hd.2, hd.1, hunused d hd.1, fun key => ?_⟩
    by_contra hchild
    obtain ⟨c, hc⟩ := Option.ne_none_iff_exists'.mp hchild
    have hle := hdeepest c ⟨h.child_ne_root hc, (h.allNodes_spec.2 c).mpr (h.child_alive hc)⟩
    exact absurd (h.child_lt hc) (not_lt.mpr hle)
  have hall : t.allNodes.toFinset = {rootId} := by
    ext n
    rw [List.mem_toFinset, Finset.mem_singleton]
    refine ⟨hroot n, ?_⟩
    rintro rfl
    exact (h.allNodes_spec.2 rootId).mpr h.root_alive
  rw [RadixTree.nodeCount, ← List.toFinset_card_of_nodup h.allNodes_spec.1, hall,
    Finset.card_singleton]

end Shape

end RadixForge
