import RadixForge.Session.Results
import RadixForge.Session.Retention
import RadixForge.Tree.Reuse

/-!
# What the departure of a client leaves of its tokens

A client that departs releases its sequence, possibly after an extension to everything it decoded,
and gives its reference back. The tokens are covered as a whole afterwards if another ready sequence
is listed where they end, or if the client's own ready sequence gets there and no other one is
listed at that node.
-/

namespace RadixForge

open Library

/-- Without the sequence at a node, the node stays ready if it is. -/
theorem NodeData.staysReady_of_notMem {d : NodeData} {i : SeqId} (hi : i ∉ d.readySeqIds) :
    d.StaysReady i ↔ d.HasReady := by
  rw [NodeData.hasReady_iff, NodeData.StaysReady]
  constructor
  · rintro (⟨j, hj, _⟩ | ⟨hmem, _⟩)
    · exact ⟨j, hj⟩
    · exact absurd hmem hi
  · rintro ⟨j, hj⟩
    exact Or.inl ⟨j, hj, fun heq => hi (heq ▸ hj)⟩

/-- An inspection finds all tokens ready exactly if a ready sequence is listed where they end. -/
theorem Placement.whole_iff {t : RadixTree} {path : NodeId → List Token} {live : List Client}
    {holds : List NodeId} {idle : NodeId → Option SeqId} (h : Placement t path live holds idle)
    {tokens : List Token} (htokens : tokens ≠ []) :
    (t.inspectPrefix tokens).readyTokens = tokens.length ↔ t.Whole tokens := by
  obtain ⟨⟨m, hm⟩, hgreatest⟩ := (h.shape.inspectPrefix_spec tokens).2.1
  have hshare (n : NodeId) : t.share NodeData.HasReady tokens n = tokens.length ↔
      t.EndsIn n tokens ∧ (t.data n).HasReady := by
    have hright := matchLen_le_right (t.pathTokens n) tokens
    have hpos := List.length_pos_iff.mpr htokens
    rw [RadixTree.share]
    constructor
    · intro hshare
      split at hshare
      · rename_i hentered
        exact ⟨⟨hentered.1, by omega⟩, hentered.2⟩
      · omega
    · rintro ⟨⟨henters, hmatch⟩, hready⟩
      -- the canonical length of a node with sequences reaches the end of its path
      have hcanonical := h.canonical n (hready.owns (h.coherent n))
      have hleft := matchLen_le_left (t.pathTokens n) tokens
      rw [h.shape.pathTokens_eq (h.shape.alive_of_enters henters)] at hmatch hleft
      rw [if_pos ⟨henters, hready⟩, h.shape.pathTokens_eq (h.shape.alive_of_enters henters)]
      omega
  constructor
  · intro hready
    exact ⟨m, (hshare m).mp (hm.trans hready)⟩
  · rintro ⟨n, hn⟩
    have hle := hgreatest ⟨n, rfl⟩
    have hmatch := matchLen_le_right (t.pathTokens m) tokens
    rw [(hshare n).mpr hn] at hle
    refine le_antisymm ?_ hle
    rw [← hm, RadixTree.share]
    split
    · exact (min_le_left _ _).trans hmatch
    · exact Nat.zero_le _

namespace Books

variable {s : Session} {path : NodeId → List Token} {idle : NodeId → Option SeqId}

/-- After the release of a client's sequence those nodes are ready that stay so without it. -/
theorem hasReady_released (h : Books s path idle)
    (hcache : s.mapper.config.prefixCacheEnabled = true) {c : Client}
    (hc : c ∈ s.live) (n : NodeId) :
    ((s.mapper.releaseSequence c.seqId c.owner).tree.data n).HasReady ↔
      (s.mapper.tree.data n).StaysReady c.seqId := by
  have hmem := h.placement.mem_owner hc
  have hspec := h.placement.shape.releaseSeqId_spec hmem s.mapper.config.prefixCacheEnabled
  rw [KVMapper.releaseSequence_tree]
  have helsewhere (hn : n ≠ c.owner) : c.seqId ∉ (s.mapper.tree.data n).readySeqIds := fun hready =>
    hn (h.registered_once ((h.placement.coherent n).1 _ hready) hmem)
  split at hspec
  · rename_i hretain
    rw [hspec]
    by_cases hn : n = c.owner
    · subst hn
      have halone : ∀ j ∈ (s.mapper.tree.data c.owner).seqIds, j = c.seqId := fun j hj =>
        OrderedSet.eq_of_size_le_one hretain.2.2 hj hmem
      exact iff_of_true (NodeData.hasReady_iff.mpr ⟨_, hretain.2.1⟩) (Or.inr ⟨hretain.2.1, halone⟩)
    · exact (NodeData.staysReady_of_notMem (helsewhere hn)).symm
  · rename_i hretain
    rw [hspec.2.2]
    by_cases hn : n = c.owner
    · subst hn
      rw [Function.update_self, NodeData.hasReady_iff, NodeData.StaysReady]
      have hnot : ¬ (c.seqId ∈ (s.mapper.tree.data c.owner).readySeqIds ∧
          ∀ j ∈ (s.mapper.tree.data c.owner).seqIds, j = c.seqId) := by
        intro hstays
        exact hretain ⟨hcache, hstays.1, OrderedSet.size_le_one_of_unique hstays.2⟩
      rw [or_iff_left hnot]
      exact exists_congr fun j => by rw [NodeData.drop, OrderedSet.mem_erase, and_comm]
    · rw [Function.update_of_ne hn]
      exact (NodeData.staysReady_of_notMem (helsewhere hn)).symm

/-- A client that releases its sequence and gives its reference back leaves the tokens covered
exactly if the node where they end stays ready. -/
theorem whole_departed (h : Books s path idle) (hcache : s.mapper.config.prefixCacheEnabled = true)
    {c : Client} (hc : c ∈ s.live) (hhand : s.hand = none ∨ s.hand = some c.seqId)
    (tokens : List Token) :
    ((s.mapper.releaseSequence c.seqId c.owner).releaseNode c.leaf).tree.Whole tokens ↔
      ∃ n, s.mapper.tree.EndsIn n tokens ∧ (s.mapper.tree.data n).StaysReady c.seqId := by
  obtain ⟨idle', hreleased⟩ := h.releaseSequence hc hhand
  have hleaf : c.leaf ∈ c.leaf :: s.holds := List.mem_cons_self
  obtain ⟨hbooks, hshrinks⟩ := hreleased.release hleaf
  have hshrinks' : s.mapper.tree.Shrinks (s.mapper.releaseSequence c.seqId c.owner).tree := by
    rw [KVMapper.releaseSequence_tree]
    exact h.placement.shape.releaseSeqId_shrinks _ _ _
  have hready (n : NodeId) :
      (((s.mapper.releaseSequence c.seqId c.owner).releaseNode c.leaf).tree.data n).HasReady ↔
      (s.mapper.tree.data n).StaysReady c.seqId := by
    rw [← h.hasReady_released hcache hc n]
    obtain ⟨_, hdata, _⟩ := hreleased.placement.shape.release_spec hreleased.placement.coherent
      (hreleased.placement.refs_pos (Or.inr hleaf))
    change (((s.mapper.releaseSequence c.seqId c.owner).tree.release c.leaf).data n).HasReady ↔ _
    rw [hdata, Function.update_apply]
    split
    · rename_i heq
      rw [heq]
      exact Iff.rfl
    · exact Iff.rfl
  rw [h.placement.shape.whole_of_shrinks hbooks.placement.shape
    (hshrinks'.trans hshrinks) hbooks.placement.coherent]
  exact exists_congr fun n => and_congr_right fun _ => hready n

/-- An extended client is registered where its history ends. -/
theorem whole_extended (h : Books s path idle) (hhand : s.hand = none)
    (hcache : s.mapper.config.prefixCacheEnabled = true) {c : Client} (hc : c ∈ s.live)
    (hready : c.ready = true) :
    (∃ n, (s.mapper.extendSequence c.seqId c.leaf c.history).1.tree.EndsIn n c.history ∧
        ((s.mapper.extendSequence c.seqId c.leaf c.history).1.tree.data n).StaysReady c.seqId) ↔
      s.mapper.tree.KeepsWhole c.seqId c.history true := by
  have hmem := h.placement.mem_owner hc
  have hmemReady := h.mem_ready hc hready
  rw [h.owner_eq_leaf hhand hc] at hmem hmemReady
  rw [← h.placement.shape.extendSeqId_staysReady hmem hmemReady (h.history_ne_nil hc hready)]
  have htree : (s.mapper.extendSequence c.seqId c.leaf c.history).1.tree =
      (s.mapper.tree.extendSeqId c.leaf c.seqId c.history c.history.length).1 := by
    simp only [KVMapper.extendSequence, hcache, Bool.not_true, Bool.false_eq_true, if_false]
    unfold KVMapper.setSequenceCellCount
    split <;> rfl
  rw [htree]

end Books

/-- A client departs, with an extension to its history or without: its tokens are covered afterwards
exactly under the condition for the tree before. -/
theorem Session.departure_whole_iff {s s' : Session} (hs : s.Sound) (hhand : s.hand = none)
    (hcache : s.mapper.config.prefixCacheEnabled = true) {c : Client}
    (hc : c ∈ s.live) {extension : Bool} {owner : NodeId}
    (hrun : s.Run ((if extension then [.extend c.seqId c.leaf c.history] else []) ++
      [.releaseSequence c.seqId owner, .release c.leaf]) s') :
    s'.mapper.tree.Whole c.history ↔ s.mapper.tree.KeepsWhole c.seqId c.history extension := by
  obtain ⟨path, idle, h⟩ := hs
  -- the release of the sequence and of the reference, from either session
  have hrest {s₁ : Session} {path₁ : NodeId → List Token} {d : Client} (h₁ : Books s₁ path₁ idle)
      (hcache₁ : s₁.mapper.config.prefixCacheEnabled = true)
        (hd : d ∈ s₁.live) (hseq : d.seqId = c.seqId)
      (hleaf : d.leaf = c.leaf) (hhand₁ : s₁.hand = none ∨ s₁.hand = some d.seqId)
      (hrun₁ : s₁.Run [.releaseSequence c.seqId owner, .release c.leaf] s') :
      s'.mapper.tree.Whole c.history ↔
        ∃ n, s₁.mapper.tree.EndsIn n c.history ∧ (s₁.mapper.tree.data n).StaysReady c.seqId := by
    obtain ⟨s₂, hrelease, hlast⟩ := Option.bind_eq_some_iff.mp hrun₁
    have howner : owner = d.owner := by
      obtain ⟨e, he, hcond⟩ := Option.bind_eq_some_iff.mp hrelease
      obtain ⟨hmem, hid⟩ := mem_of_client he
      obtain ⟨⟨howner, _⟩, _⟩ := Option.ite_none_right_eq_some.mp hcond
      rw [howner, client_unique h₁.accounts.nodup hmem hd (hid.trans hseq.symm)]
    have hmapper : s'.mapper = (s₁.mapper.releaseSequence d.seqId d.owner).releaseNode d.leaf := by
      rw [run_mapper hrun₁, howner, ← hseq, ← hleaf]
      rfl
    rw [hmapper, h₁.whole_departed hcache₁ hd hhand₁, hseq]
  cases extension with
  | false =>
    rw [hrest h hcache hc rfl rfl (Or.inl hhand) hrun, h.placement.shape.keepsWhole_iff]
  | true =>
    obtain ⟨s₁, hextend, hrun₁⟩ := Option.bind_eq_some_iff.mp hrun
    have hready : c.ready = true ∧ s₁ =
        { (s.call (.extend c.seqId c.leaf c.history)).change c.seqId fun d =>
        { d with owner := (s.mapper.extendSequence c.seqId c.leaf
          c.history).2 } with hand := some c.seqId } := by
      generalize hcall : Call.extend c.seqId c.leaf c.history = call at hextend
      have hpermitted := permitted_of_step hextend
      cases hpermitted with
      | @extend d _ hd hready =>
        obtain ⟨hseq, hleaf, hhistory⟩ := Call.extend.inj hcall
        obtain rfl := client_unique h.accounts.nodup hc hd hseq
        exact ⟨hready, rfl⟩
      | _ => cases hcall
    obtain ⟨hready, rfl⟩ := hready
    obtain ⟨path₁, h₁⟩ := h.extend hhand hc hready
    have hd := (mem_change h.accounts.nodup hc (f := fun d =>
      { d with owner := (s.mapper.extendSequence c.seqId c.leaf c.history).2 }) _).mpr (Or.inr rfl)
    have hcache₁ :
        (s.mapper.extendSequence c.seqId c.leaf c.history).1.config.prefixCacheEnabled = true := by
      rw [KVMapper.extendSequence_config]
      exact hcache
    rw [← h.whole_extended hhand hcache hc hready]
    exact hrest h₁ hcache₁ hd rfl rfl (Or.inr rfl) hrun₁

end RadixForge
