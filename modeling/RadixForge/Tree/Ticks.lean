import RadixForge.Library.Recency
import RadixForge.Tree.Operations

/-!
# Access ticks

The changes of the tree as seen by its clock. Most keep the ticks of the nodes that survive; an
insertion and an extension to another node leave the newest tick at the node where they end. The
candidate for an eviction has the least tick of all evictable nodes.
-/

namespace RadixForge

open Library

namespace RadixTree

/-- The access tick of a node. -/
def accessTick (t : RadixTree) (n : NodeId) : ℕ := t.field n RadixNode.lastAccessTick 0

/-- No node is ahead of the clock. -/
def Past (t : RadixTree) : Prop := ∀ n x, t.nodes n = some x → x.lastAccessTick ≤ t.tick

/-- Surviving nodes keep their ticks, and no node but the excepted ones comes to own sequences. -/
structure KeepsTicks (t t' : RadixTree) (except : NodeId → Prop) : Prop where
  tick : t.tick ≤ t'.tick
  nextId : t.nextId ≤ t'.nextId
  past : t.Past → t'.Past
  node : ∀ n x, t'.nodes n = some x → n < t.nextId → ¬ except n →
    ∃ y, t.nodes n = some y ∧ x.lastAccessTick = y.lastAccessTick
  owner : ∀ n x, t'.nodes n = some x → ¬ except n → x.seqIds ≠ ∅ →
    ∃ y, t.nodes n = some y ∧ y.seqIds ≠ ∅

/-- Nothing but the clock and the ticks of a node matters to other nodes. -/
abbrev Ages (t t' : RadixTree) : Prop := t.KeepsTicks t' fun _ => False

namespace KeepsTicks

variable {t t₁ t₂ : RadixTree} {except : NodeId → Prop}

/-- A tree that stays keeps its ticks. -/
theorem refl (t : RadixTree) : t.Ages t :=
  ⟨le_rfl, le_rfl, id, fun _ x hx _ _ => ⟨x, hx, rfl⟩, fun _ x hx _ howns => ⟨x, hx, howns⟩⟩

/-- Changes that keep the ticks follow each other. -/
theorem trans (h₁ : t.Ages t₁) (h₂ : t₁.KeepsTicks t₂ except) : t.KeepsTicks t₂ except where
  tick := h₁.tick.trans h₂.tick
  nextId := h₁.nextId.trans h₂.nextId
  past hpast := h₂.past (h₁.past hpast)
  node n x hx hn hnot := by
    obtain ⟨y, hy, hxy⟩ := h₂.node n x hx (lt_of_lt_of_le hn h₁.nextId) hnot
    obtain ⟨z, hz, hyz⟩ := h₁.node n y hy hn id
    exact ⟨z, hz, hxy.trans hyz⟩
  owner n x hx hnot howns := by
    obtain ⟨y, hy, hyowns⟩ := h₂.owner n x hx hnot howns
    exact h₁.owner n y hy id hyowns

/-- A change of one node that keeps its tick and gives it no sequence. -/
theorem modify (t : RadixTree) (n : NodeId) {f : RadixNode → RadixNode}
    (hf : ∀ x, (f x).lastAccessTick = x.lastAccessTick ∧ ((f x).seqIds ≠ ∅ → x.seqIds ≠ ∅)) :
    t.Ages (t.modify n f) := by
  have hback (m : NodeId) (x : RadixNode) (hx : (t.modify n f).nodes m = some x) :
      ∃ y, t.nodes m = some y ∧ x.lastAccessTick = y.lastAccessTick ∧
        (x.seqIds ≠ ∅ → y.seqIds ≠ ∅) := by
    rw [modify_nodes] at hx
    split at hx
    · obtain ⟨y, hy, rfl⟩ := Option.map_eq_some_iff.mp hx
      exact ⟨y, hy, hf y⟩
    · exact ⟨x, hx, rfl, id⟩
  refine ⟨le_rfl, le_rfl, fun hpast m x hx => ?_, fun m x hx _ _ => ?_, fun m x hx _ howns => ?_⟩
  · obtain ⟨y, hy, hxy, _⟩ := hback m x hx
    exact hxy ▸ hpast m y hy
  · obtain ⟨y, hy, hxy, _⟩ := hback m x hx
    exact ⟨y, hy, hxy⟩
  · obtain ⟨y, hy, _, hxy⟩ := hback m x hx
    exact ⟨y, hy, hxy howns⟩

/-- A change of a node that leaves the newest tick there. -/
theorem stamp (t : RadixTree) (n : NodeId) {f : RadixNode → RadixNode}
    (hf : ∀ x, (f x).lastAccessTick = t.tick) :
    t.KeepsTicks (t.modify n f) (· = n) := by
  refine ⟨le_rfl, le_rfl, fun hpast m x hx => ?_, fun m x hx _ hne => ?_,
    fun m x hx hne howns => ?_⟩
  · rw [modify_nodes] at hx
    split at hx
    · obtain ⟨y, _, rfl⟩ := Option.map_eq_some_iff.mp hx
      exact (hf y).le
    · exact hpast m x hx
  · rw [modify_nodes, if_neg hne] at hx
    exact ⟨x, hx, rfl⟩
  · rw [modify_nodes, if_neg hne] at hx
    exact ⟨x, hx, howns⟩

/-- A node is deleted. -/
theorem put_none (t : RadixTree) (n : NodeId) : t.Ages (t.put n none) := by
  have hback (m : NodeId) (x : RadixNode) (hx : (t.put n none).nodes m = some x) :
      t.nodes m = some x := by
    rw [put_nodes] at hx
    split at hx
    · contradiction
    · exact hx
  exact ⟨le_rfl, le_rfl, fun hpast m x hx => hpast m x (hback m x hx),
    fun m x hx _ _ => ⟨x, hback m x hx, rfl⟩,
    fun m x hx _ howns => ⟨x, hback m x hx, howns⟩⟩

/-- A new node owns nothing and is not ahead of the clock. -/
theorem alloc (t : RadixTree) {x : RadixNode} (htick : t.Past → x.lastAccessTick ≤ t.tick)
    (hempty : x.seqIds = ∅) :
    t.Ages (t.alloc x) := by
  refine ⟨le_rfl, Nat.le_succ _, fun hpast m y hy => ?_, fun m y hy hm _ => ?_,
    fun m y hy _ howns => ?_⟩
  · rw [alloc_nodes] at hy
    split at hy
    · cases hy
      exact htick hpast
    · exact hpast m y hy
  · rw [alloc_nodes, if_neg hm.ne] at hy
    exact ⟨y, hy, rfl⟩
  · rw [alloc_nodes] at hy
    split at hy
    · cases hy
      exact absurd hempty howns
    · exact ⟨y, hy, howns⟩

/-- Advancing the clock keeps the ticks. -/
theorem advance (t : RadixTree) : t.Ages t.advance :=
  ⟨Nat.le_succ _, le_rfl, fun hpast n x hx => (hpast n x hx).trans (Nat.le_succ _),
    fun _ x hx _ _ => ⟨x, hx, rfl⟩,
    fun _ x hx _ howns => ⟨x, hx, howns⟩⟩

/-- Giving nodes a new parent keeps the ticks. -/
theorem reparent (t : RadixTree) (children : List NodeId) (parent : NodeId) :
    t.Ages (t.reparent children parent) := by
  unfold RadixTree.reparent
  induction children generalizing t with
  | nil => exact refl t
  | cons c rest ih =>
    rw [List.foldl_cons]
    refine trans ?_ (ih _)
    exact modify t c fun _ => ⟨rfl, id⟩

/-- The suffix of a split has the tick of its node. -/
theorem splitNode (t : RadixTree) (n : NodeId) (k : ℕ) : t.Ages (t.splitNode n k) := by
  unfold RadixTree.splitNode
  split
  · exact refl t
  · rename_i x hx
    split
    · exact refl t
    · refine trans ?_ (trans (reparent _ x.childIds t.nextId) (modify _ n fun _ => ⟨rfl, id⟩))
      exact alloc t (fun hpast => hpast n x hx) rfl

/-- The loop of the walk keeps the ticks. -/
theorem findPrefixLoop (fuel : ℕ) (t : RadixTree) (n : NodeId) (matched : ℕ) (tokens : List Token) :
    t.Ages (t.findPrefixLoop fuel n matched tokens).1 := by
  induction fuel generalizing t n matched tokens with
  | zero => cases tokens <;> exact refl t
  | succ fuel ih =>
    cases tokens with
    | nil => exact refl t
    | cons next rest =>
      unfold RadixTree.findPrefixLoop
      split
      · exact refl t
      · simp only
        split
        · exact splitNode t _ _
        · exact ih t _ _ _

/-- The walk keeps the ticks. -/
theorem findPrefix (t : RadixTree) (tokens : List Token) : t.Ages (t.findPrefix tokens).1 :=
  findPrefixLoop tokens.length t rootId 0 tokens

/-- A new leaf keeps the ticks. -/
theorem addLeaf (t : RadixTree) (found : PrefixMatch) : t.Ages (t.addLeaf found t.tick).1 := by
  unfold RadixTree.addLeaf
  split
  · exact refl t
  · refine trans ?_ (modify _ _ fun _ => ⟨rfl, id⟩)
    exact alloc t (fun _ => le_rfl) rfl

/-- Pruning keeps the ticks of what is left. -/
theorem pruneEmptyLeavesLoop (fuel : ℕ) (t : RadixTree) (n : NodeId) :
    t.Ages (t.pruneEmptyLeavesLoop fuel n) := by
  induction fuel generalizing t n with
  | zero => exact refl t
  | succ fuel ih =>
    unfold RadixTree.pruneEmptyLeavesLoop
    split
    · exact refl t
    · split
      · split
        · refine trans (trans ?_ (put_none _ n)) (ih _ _)
          exact modify t _ fun _ => ⟨rfl, id⟩
        · exact refl t
      · exact refl t

/-- A release keeps the ticks of what is left. -/
theorem release (t : RadixTree) (n : NodeId) : t.Ages (t.release n) := by
  unfold RadixTree.release
  split
  · exact refl t
  · split
    · refine trans ?_ (pruneEmptyLeavesLoop _ _ n)
      exact modify t n fun _ => ⟨rfl, id⟩
    · exact refl t

/-- An eviction keeps the ticks of what is left. -/
theorem evict (t : RadixTree) (n : NodeId) : t.Ages (t.evict n).1 := by
  unfold RadixTree.evict
  split
  · exact refl t
  · split
    · exact refl t
    · refine trans ?_ (pruneEmptyLeavesLoop _ _ n)
      exact modify t n fun _ => ⟨rfl, fun hne => absurd rfl hne⟩

/-- A node that loses a sequence keeps its tick. -/
theorem dropSeqId (t : RadixTree) (n : NodeId) (s : SeqId) :
    t.Ages (t.modify n (RadixTree.dropSeqId s)) := by
  have hempty {x : RadixNode} (hne : x.seqIds.erase s ≠ ∅) : x.seqIds ≠ ∅ := by
    intro hempty
    refine hne (OrderedSet.eq_empty_iff.mpr fun i hi => ?_)
    rw [OrderedSet.mem_erase, hempty] at hi
    exact OrderedSet.notMem_empty i hi.2
  refine modify t n fun x => ?_
  simp only [RadixTree.dropSeqId]
  split <;> exact ⟨rfl, hempty⟩

/-- The release of a sequence keeps the ticks. -/
theorem releaseSeqId (t : RadixTree) (n : NodeId) (s : SeqId) (retain : Bool) :
    t.Ages (t.releaseSeqId n s retain).1 := by
  unfold RadixTree.releaseSeqId
  split
  · exact refl t
  · split
    · exact refl t
    · split
      · exact refl t
      · exact dropSeqId t n s

/-- A mark keeps the ticks. -/
theorem markSeqIdReady (t : RadixTree) (n : NodeId) (s : SeqId) : t.Ages (t.markSeqIdReady n s) :=
  modify t n fun x => by split <;> exact ⟨rfl, id⟩

end KeepsTicks

/-- The structural half of an insertion or extension keeps all ticks; its end gets the newest one.
-/
theorem insert_stamps (t : RadixTree) (prompt : List Token) :
    t.tick < (t.insert prompt).1.tick ∧
      t.KeepsTicks (t.insert prompt).1 (· = (t.insert prompt).2.node) ∧
      ∀ x, (t.insert prompt).1.nodes (t.insert prompt).2.node = some x →
      x.lastAccessTick = (t.insert prompt).1.tick := by
  have hfind := KeepsTicks.findPrefix t.advance prompt
  simp only [RadixTree.insert]
  generalize t.advance.findPrefix prompt = walk at hfind ⊢
  obtain ⟨t₁, found⟩ := walk
  have hleaf := KeepsTicks.addLeaf t₁ { found with cacheNode := found.node }
  simp only
  generalize t₁.addLeaf { found with cacheNode := found.node } t₁.tick = hung at hleaf ⊢
  obtain ⟨t₂, found₂⟩ := hung
  have hages := (KeepsTicks.advance t).trans (hfind.trans hleaf)
  have hlt : t.tick < t₂.tick := Nat.lt_of_succ_le (hfind.tick.trans hleaf.tick)
  refine ⟨hlt, hages.trans (KeepsTicks.stamp t₂ found₂.node fun _ => rfl), fun x hx => ?_⟩
  rw [modify_nodes, if_pos rfl] at hx
  obtain ⟨y, _, rfl⟩ := Option.map_eq_some_iff.mp hx
  rfl

/-- An extension in place keeps all ticks; one to another node leaves the newest tick there. -/
theorem extend_stamps (t : RadixTree) (n : NodeId) (s : SeqId) (tokens : List Token) (len : ℕ) :
    ((t.extendSeqId n s tokens len).2 = n → t.Ages (t.extendSeqId n s tokens len).1) ∧
      ((t.extendSeqId n s tokens len).2 ≠ n → t.tick < (t.extendSeqId n s tokens len).1.tick ∧
        t.KeepsTicks (t.extendSeqId n s tokens len).1 (· = (t.extendSeqId n s tokens len).2) ∧
        ∀ x, (t.extendSeqId n s tokens len).1.nodes (t.extendSeqId n s tokens len).2 = some x →
          x.lastAccessTick = (t.extendSeqId n s tokens len).1.tick) := by
  have hstay : (n = n → t.Ages t) ∧ (n ≠ n → t.tick < t.tick ∧ t.KeepsTicks t (· = n) ∧
      ∀ x, t.nodes n = some x → x.lastAccessTick = t.tick) :=
    ⟨fun _ => KeepsTicks.refl t, fun hne => absurd rfl hne⟩
  unfold extendSeqId
  split
  · exact hstay
  · split
    · exact hstay
    · have hfind := KeepsTicks.findPrefix t tokens
      simp only
      generalize t.findPrefix tokens = walk at hfind ⊢
      obtain ⟨t₁, found⟩ := walk
      have hclock : t₁.Ages (if found.remaining = [] then t₁ else t₁.advance) := by
        split
        · exact KeepsTicks.refl t₁
        · exact KeepsTicks.advance t₁
      simp only
      generalize (if found.remaining = [] then t₁ else t₁.advance) = t₂ at hclock ⊢
      have hleaf := KeepsTicks.addLeaf t₂ found
      generalize t₂.addLeaf found t₂.tick = hung at hleaf ⊢
      obtain ⟨t₃, found₃⟩ := hung
      have hages : t.Ages t₃ := hfind.trans (hclock.trans hleaf)
      simp only
      split
      · exact ⟨fun _ => hages.trans (KeepsTicks.modify t₃ n fun _ => ⟨rfl, id⟩),
          fun hne => absurd rfl hne⟩
      · rename_i hmoved
        have hdropped := hages.trans ((KeepsTicks.dropSeqId t₃ n s).trans (KeepsTicks.advance _))
        have hlt : t.tick < (t₃.modify n (RadixTree.dropSeqId s)).advance.tick :=
          Nat.lt_succ_of_le hages.tick
        refine ⟨fun heq => absurd heq hmoved, fun _ => ⟨hlt, ?_, fun x hx => ?_⟩⟩
        · exact hdropped.trans (KeepsTicks.stamp _ found₃.node fun _ => rfl)
        · rw [modify_nodes, if_pos rfl] at hx
          obtain ⟨y, _, rfl⟩ := Option.map_eq_some_iff.mp hx
          rfl

/-- The first candidate has the least tick of all evictable nodes. -/
theorem candidate_least {t : RadixTree} {path : NodeId → List Token} (h : Shape t path)
    {n m : NodeId} (hn : n ∈ t.findEvictionCandidates 1) (hm : t.Evictable m) :
    t.accessTick n ≤ t.accessTick m := by
  unfold findEvictionCandidates at hn
  have hmem : m ∈ t.allNodes.filter t.isEvictable :=
    List.mem_filter.mpr ⟨(h.allNodes_spec.2 m).mpr hm.alive, isEvictable_iff.mpr hm⟩
  have hsorted := List.pairwise_insertionSort (fun a b =>
    t.field a RadixNode.lastAccessTick 0 ≤ t.field b RadixNode.lastAccessTick 0)
      (t.allNodes.filter t.isEvictable)
  rw [← (List.perm_insertionSort (fun a b =>
    t.field a RadixNode.lastAccessTick 0 ≤ t.field b RadixNode.lastAccessTick 0) _).mem_iff] at hmem
  generalize (t.allNodes.filter t.isEvictable).insertionSort (fun a b =>
    t.field a RadixNode.lastAccessTick 0 ≤ t.field b RadixNode.lastAccessTick 0) =
      sorted at hn hmem hsorted
  cases sorted with
  | nil => contradiction
  | cons a rest =>
    obtain rfl := List.mem_singleton.mp hn
    rcases List.mem_cons.mp hmem with rfl | hrest
    · exact le_rfl
    · exact (List.pairwise_cons.mp hsorted).1 m hrest

end RadixTree

end RadixForge
