import RadixForge.Tree.Registry

/-!
# What the read-only operations return

The path of a node can be read off the tree, the stack traversals visit every node once, the
eviction candidates are exactly found when there are any, and a copy source is a ready sequence
at a node above or below the one it was asked for.
-/

namespace RadixForge

open Library

namespace RadixTree

/-- Collect the tokens from the root to a node. -/
def pathTokensLoop : ℕ → RadixTree → Option NodeId → List Token
  | 0, _, _ => []
  | _, _, none => []
  | fuel + 1, t, some n =>
    match t.nodes n with
    | none => []
    | some x => pathTokensLoop fuel t x.parent ++ x.tokens

/-- The tokens from the root to a node. -/
def pathTokens (t : RadixTree) (n : NodeId) : List Token := t.pathTokensLoop (t.nextId + 1) (some n)

/-- Nothing leads to an unallocated identity. -/
theorem pathTokens_of_none {t : RadixTree} {n : NodeId} (h : t.nodes n = none) :
    t.pathTokens n = [] := by
  simp [pathTokens, pathTokensLoop, h]

/-- A field of a node that there is. -/
theorem field_of_nodes {β : Type*} {t : RadixTree} {n : NodeId} {x : RadixNode}
    (h : t.nodes n = some x) (f : RadixNode → β) (fallback : β) : t.field n f fallback = f x := by
  simp [field, h]

end RadixTree

namespace Shape

variable {t : RadixTree} {path : NodeId → List Token}

/-- With fuel for the way to the root the path is spelled out as a whole. -/
theorem pathTokensLoop_eq (h : Shape t path) (fuel : ℕ) {n : NodeId} (hn : t.Alive n)
    (hfuel : rank t.nextId (fun m => (path m).length) n < fuel) :
    t.pathTokensLoop fuel (some n) = path n := by
  induction fuel generalizing n with
  | zero => omega
  | succ fuel ih =>
    obtain ⟨x, hx⟩ := hn
    simp only [RadixTree.pathTokensLoop, hx]
    by_cases hroot : n = rootId
    · obtain ⟨r, hr, htok, hparent⟩ := h.root
      rw [hroot, hr] at hx
      cases hx
      cases fuel <;> simp [hparent, htok, hroot, h.rootPath, RadixTree.pathTokensLoop]
    · obtain ⟨p, hp, ⟨y, hy⟩, hpath, hlt⟩ := h.parent_spec hx hroot
      have hrank : rank t.nextId (fun m => (path m).length) p <
          rank t.nextId (fun m => (path m).length) n :=
        rank_lt_rank (h.fresh hy) hlt
      rw [hp, ih ⟨y, hy⟩ (by omega), hpath]

/-- The path of a living node is the one read off the tree. -/
theorem pathTokens_eq (h : Shape t path) {n : NodeId} (hn : t.Alive n) : t.pathTokens n = path n :=
  h.pathTokensLoop_eq _ hn (Nat.lt_succ_of_le (rank_le _ _ _))

/-- The children that are pushed are nodes with this parent. -/
theorem pushedChildren_parent (h : Shape t path) {a b : NodeId} (hb : b ∈ t.pushedChildren a) :
    t.parentOf b = some a ∧ t.Alive b := by
  unfold RadixTree.pushedChildren at hb
  cases ha : t.nodes a with
  | none => simp [ha] at hb
  | some x =>
    simp only [ha, List.mem_reverse] at hb
    obtain ⟨key, hkey⟩ := RadixTree.mem_childList.mp hb
    obtain ⟨y, rest, hy, hparent, _⟩ := h.down (RadixTree.childAt_eq_some.mpr ⟨x, ha, hkey⟩)
    exact ⟨by simp [RadixTree.parentOf, hy, hparent], ⟨y, hy⟩⟩

/-- A child is pushed. -/
theorem mem_pushedChildren (_ : Shape t path) {a b : NodeId} {key : Token}
    (hb : t.childAt a key = some b) :
    b ∈ t.pushedChildren a := by
  obtain ⟨x, hx, hkey⟩ := RadixTree.childAt_eq_some.mp hb
  simp only [RadixTree.pushedChildren, hx, List.mem_reverse]
  exact RadixTree.mem_childList.mpr ⟨key, hkey⟩

/-- No child is pushed twice. -/
theorem pushedChildren_nodup (h : Shape t path) (a : NodeId) : (t.pushedChildren a).Nodup := by
  unfold RadixTree.pushedChildren
  cases ha : t.nodes a with
  | none => exact List.nodup_nil
  | some x =>
    simp only [List.nodup_reverse]
    rw [RadixTree.childList, (t.order.perm _ _).nodup_iff]
    -- two entries with the same child have the same key, the first token of that child
    refine List.Nodup.map_on (fun e he e' he' heq => ?_) x.children.nodupKeys.nodup
    have hdown (e : (_ : Token) × NodeId) (he : e ∈ x.children.entries) :
        t.childAt a e.1 = some e.2 :=
      RadixTree.childAt_eq_some.mpr ⟨x, ha, AList.mem_lookup_iff.mpr he⟩
    obtain ⟨y, rest, hy, _, htok⟩ := h.down (hdown e he)
    obtain ⟨y', rest', hy', _, htok'⟩ := h.down (hdown e' he')
    rw [heq, hy'] at hy
    cases hy
    rw [htok'] at htok
    exact Sigma.ext (List.cons.inj htok).1.symm (heq_of_eq heq)

/-- A living node is reached from the root through children. -/
theorem reachable (h : Shape t path) (k : ℕ) {n : NodeId} (hn : t.Alive n)
    (hk : (path n).length ≤ k) :
    Relation.ReflTransGen (fun a b => b ∈ t.pushedChildren a) rootId n := by
  induction k generalizing n with
  | zero =>
    rw [h.eq_root_of_path_nil hn (List.length_eq_zero_iff.mp (by omega))]
  | succ k ih =>
    by_cases hroot : n = rootId
    · rw [hroot]
    · obtain ⟨x, hx⟩ := hn
      obtain ⟨p, key, rest, _, _, hchild, _⟩ := h.up hx hroot
      have hlt := h.child_lt hchild
      exact (ih (RadixTree.alive_of_childAt hchild) (by omega)).tail (h.mem_pushedChildren hchild)

/-- The traversals visit exactly the living nodes, each once. -/
theorem allNodes_spec (h : Shape t path) : t.allNodes.Nodup ∧ ∀ n, n ∈ t.allNodes ↔ t.Alive n := by
  have hstart : t.parentOf rootId = none := by
    obtain ⟨r, hr, _, hparent⟩ := h.root
    simp [RadixTree.parentOf, hr, hparent]
  have hbound : ∀ a ∈ Finset.range t.nextId, ∀ b ∈ t.pushedChildren a,
      b ∈ Finset.range t.nextId := by
    intro a _ b hb
    obtain ⟨y, hy⟩ := (h.pushedChildren_parent hb).2
    exact Finset.mem_range.mpr (h.fresh hy)
  have hspec := stackWalk_spec (fun a b hb => (h.pushedChildren_parent hb).1)
    h.pushedChildren_nodup hstart
    (Finset.range t.nextId) hbound (Finset.mem_range.mpr h.root_lt)
  rw [Finset.card_range] at hspec
  refine ⟨hspec.1, fun n => ⟨fun hn => ?_, fun hn => hspec.2.2 n (h.reachable _ hn le_rfl)⟩⟩
  rcases hspec.2.1 n hn with rfl | ⟨a, ha⟩
  · exact h.root_alive
  · obtain ⟨x, hx, _⟩ := Option.bind_eq_some_iff.mp ha
    exact ⟨x, hx⟩

end Shape

namespace RadixTree

/-- A node whose sequences an eviction takes away. -/
def Evictable (t : RadixTree) (n : NodeId) : Prop :=
  n ≠ rootId ∧ (t.data n).refCount = 0 ∧ (t.data n).seqIds ≠ ∅

/-- The test for something to evict decides what it should. -/
theorem isEvictable_iff {t : RadixTree} {n : NodeId} : t.isEvictable n = true ↔ t.Evictable n := by
  unfold isEvictable Evictable
  cases hn : t.nodes n with
  | none => simp [field, hn, data_of_none hn]
  | some x => simp [field, hn, data_of_nodes hn, RadixNode.data]

/-- What can be evicted is in the tree. -/
theorem Evictable.alive {t : RadixTree} {n : NodeId} (h : t.Evictable n) : t.Alive n :=
  alive_of_data fun hunused => h.2.2 hunused.2

/-- An evictable node lists an id. -/
theorem Evictable.ids_ne_nil {t : RadixTree} {n : NodeId} (h : t.Evictable n) :
    (t.data n).seqIds.toList ≠ [] := by
  intro hnil
  exact h.2.2 (OrderedSet.eq_empty_iff.mpr fun i hi =>
    by simp [← OrderedSet.mem_toList, hnil] at hi)

/-- Every candidate is unreferenced and owns sequences. -/
theorem evictable_of_candidate {t : RadixTree} {n : NodeId} {count : ℕ}
    (hn : n ∈ t.findEvictionCandidates count) :
    t.Evictable n := by
  unfold findEvictionCandidates at hn
  have hmem := (List.perm_insertionSort _ _).mem_iff.mp (List.mem_of_mem_take hn)
  exact isEvictable_iff.mp (List.mem_filter.mp hmem).2

/-- No candidate means that nothing can be evicted. -/
theorem not_evictable_of_no_candidate {t : RadixTree} {path : NodeId → List Token}
    (h : Shape t path) (hnone : t.findEvictionCandidates 1 = []) (n : NodeId) :
    ¬ t.Evictable n := by
  intro hn
  have hmem : n ∈ t.allNodes.filter t.isEvictable :=
    List.mem_filter.mpr ⟨(h.allNodes_spec.2 n).mpr hn.alive, isEvictable_iff.mpr hn⟩
  unfold findEvictionCandidates at hnone
  rw [List.take_eq_nil_iff] at hnone
  rcases hnone with hone | hsort
  · contradiction
  · have hsorted := (List.perm_insertionSort (fun a b =>
      t.field a RadixNode.lastAccessTick 0 ≤ t.field b RadixNode.lastAccessTick 0) _).mem_iff.mpr
        hmem
    rw [hsort] at hsorted
    contradiction

end RadixTree

namespace Shape

variable {t : RadixTree} {path : NodeId → List Token}

/-- The source found on the way to the root. -/
theorem readyAncestor_spec (h : Shape t path) (fuel : ℕ) {n : NodeId} {source : SeqId} {len : ℕ}
    (hn : t.Alive n) (hfound : t.readyAncestor fuel (some n) = some (source, len)) :
    ∃ a, t.Alive a ∧ source ∈ (t.data a).readySeqIds ∧
      len = min (t.data a).canonicalLen (path a).length ∧
      path a <+: path n := by
  induction fuel generalizing n with
  | zero => simp [RadixTree.readyAncestor] at hfound
  | succ fuel ih =>
    obtain ⟨x, hx⟩ := hn
    simp only [RadixTree.readyAncestor, hx] at hfound
    cases hfirst : x.readySeqIds.first? with
    | some s =>
      simp only [hfirst, Option.some.injEq, Prod.mk.injEq] at hfound
      obtain ⟨rfl, rfl⟩ := hfound
      refine ⟨n, ⟨x, hx⟩, ?_, ?_, List.prefix_refl _⟩
      · rw [RadixTree.data_of_nodes hx]
        exact OrderedSet.mem_of_first hfirst
      · rw [RadixTree.data_of_nodes hx, h.depth_eq ⟨x, hx⟩]
        rfl
    | none =>
      simp only [hfirst] at hfound
      by_cases hroot : n = rootId
      · obtain ⟨r, hr, _, hparent⟩ := h.root
        rw [hroot, hr] at hx
        cases hx
        cases fuel <;> simp [hparent, RadixTree.readyAncestor] at hfound
      · obtain ⟨p, hp, hpalive, hpath, _⟩ := h.parent_spec hx hroot
        rw [hp] at hfound
        obtain ⟨a, ha, hsource, hlen, hprefix⟩ := ih hpalive hfound
        exact ⟨a, ha, hsource, hlen, hprefix.trans (hpath ▸ List.prefix_append _ _)⟩

/-- A copy source is ready at a node comparable to the one asked for, and covers what that node's
canonical length and path allow. -/
theorem findCoveringLoop_spec (h : Shape t path) (fuel : ℕ) {n : NodeId} {source : SeqId} {len : ℕ}
    (hn : t.Alive n) (hfound : t.findCoveringLoop fuel n = some (source, len)) :
    ∃ a, t.Alive a ∧ source ∈ (t.data a).readySeqIds ∧
      len = min (t.data a).canonicalLen (path a).length ∧
      (path a <+: path n ∨ path n <+: path a) := by
  induction fuel generalizing n with
  | zero => simp [RadixTree.findCoveringLoop] at hfound
  | succ fuel ih =>
    obtain ⟨x, hx⟩ := hn
    simp only [RadixTree.findCoveringLoop, hx] at hfound
    cases hup : t.readyAncestor (t.nextId + 1) (some n) with
    | some result =>
      simp only [hup] at hfound
      rw [Option.some.injEq] at hfound
      obtain ⟨a, ha, hsource, hlen, hprefix⟩ :=
        h.readyAncestor_spec _ ⟨x, hx⟩ (hup.trans (congrArg some hfound))
      exact ⟨a, ha, hsource, hlen, Or.inl hprefix⟩
    | none =>
      simp only [hup] at hfound
      obtain ⟨c, hc, hbelow⟩ := List.exists_of_findSome?_eq_some hfound
      obtain ⟨key, hkey⟩ := RadixTree.mem_childList.mp hc
      have hchild : t.childAt n key = some c := RadixTree.childAt_eq_some.mpr ⟨x, hx, hkey⟩
      obtain ⟨a, ha, hsource, hlen, hprefix⟩ := ih (h.child_alive hchild) hbelow
      obtain ⟨y, _, hy, _⟩ := h.down hchild
      have hnc : path n <+: path c := h.child_path hchild hy ▸ List.prefix_append _ _
      refine ⟨a, ha, hsource, hlen, ?_⟩
      rcases hprefix with hac | hca
      · exact List.prefix_or_prefix_of_prefix hac hnc
      · exact Or.inr (hnc.trans hca)

/-- A node with a ready sequence is covered by its own first one. -/
theorem findCoveringSeqId_of_ready (h : Shape t path) {n : NodeId} (hn : t.Alive n) {s : SeqId}
    (hfirst : (t.data n).readySeqIds.first? = some s) :
    t.findCoveringSeqId n = some (s, min (t.data n).canonicalLen (path n).length) := by
  obtain ⟨x, hx⟩ := hn
  rw [RadixTree.data_of_nodes hx] at hfirst ⊢
  have hup : t.readyAncestor (t.nextId + 1) (some n) =
      some (s, min x.canonicalLen (path n).length) := by
    have hready : x.readySeqIds.first? = some s := hfirst
    simp only [RadixTree.readyAncestor, hx, hready, h.depth_eq ⟨x, hx⟩]
  simp only [RadixTree.findCoveringSeqId, RadixTree.findCoveringLoop, hx, hup]
  rfl

end Shape

end RadixForge
