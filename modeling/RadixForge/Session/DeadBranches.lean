import RadixForge.Session.Invariant
import RadixForge.Tree.Tidying

/-!
# Dead branches over a run

Every call keeps childless nodes in use, except that a preparation or extension whose tokens stop
strictly inside the run of a childless node leaves a dead suffix behind, which no later call
removes on its own account.
-/

namespace RadixForge

open Library

namespace KVMapper

/-- Freeing sequences leaves the tree. -/
@[simp] theorem foldl_freeSequence_tree (m : KVMapper) (ids : List SeqId) :
    (ids.foldl freeSequence m).tree = m.tree := by
  induction ids generalizing m with
  | nil => rfl
  | cons i rest ih => exact ih (m.freeSequence i)

/-- What an eviction of a node does to the tree. -/
@[simp] theorem evictNode_tree (m : KVMapper) (n : NodeId) :
    (m.evictNode n).tree = (m.tree.evict n).1 :=
  foldl_freeSequence_tree _ _

end KVMapper

namespace Books

variable {s : Session} {path : NodeId → List Token} {idle : NodeId → Option SeqId}

/-- An eviction leaves a dead node only where there was one. -/
theorem evictOne_tidies (h : Books s path idle) :
    s.mapper.tree.Tidies s.mapper.evictOne.1.tree := by
  rcases KVMapper.evictOne_cases h.placement.shape h.placement.coherent with
    ⟨hnone, _⟩ | ⟨n, hn, hsome⟩
  · rw [hnone]
    exact .refl _
  · rw [hsome]
    simp only [KVMapper.evictNode_tree]
    exact h.placement.shape.evict_tidies h.placement.coherent hn

/-- The loop that relieves pressure leaves a dead node only where there was one. -/
theorem evictKvPressureLoop_tidies (h : Books s path idle) (hhand : s.hand = none) (fuel : ℕ) :
    s.mapper.tree.Tidies (KVMapper.evictKvPressureLoop fuel s.mapper).tree := by
  induction fuel generalizing s idle with
  | zero => exact .refl _
  | succ fuel ih =>
    unfold KVMapper.evictKvPressureLoop
    split
    · obtain ⟨idle₁, hbooks, _⟩ := h.evictOne_keep hhand
      have htidies := h.evictOne_tidies
      generalize s.mapper.evictOne = outcome at hbooks htidies
      obtain ⟨m, evicted⟩ := outcome
      cases evicted with
      | false => exact htidies
      | true => exact htidies.trans (ih hbooks hhand)
    · exact .refl _

/-- The relief of pressure leaves a dead node only where there was one. -/
theorem evictKvPressure_tidies (h : Books s path idle) (hhand : s.hand = none) :
    s.mapper.tree.Tidies s.mapper.evictKvPressure.tree :=
  h.evictKvPressureLoop_tidies hhand _

/-- The part of a preparation after the insertion. -/
theorem prepare_tidies (h : Books s path idle) (hhand : s.hand = none) (prompt : List Token) :
    (s.mapper.admitPrompt prompt).1.tree.Tidies (s.mapper.prepareSequence prompt).1.tree := by
  obtain ⟨path₁, idle₁, hadmitted⟩ := h.admitPrompt hhand prompt
  unfold KVMapper.prepareSequence
  generalize s.mapper.admitPrompt prompt = admitted at hadmitted ⊢
  obtain ⟨m, found⟩ := admitted
  have hrefill : m.tree.Tidies (if m.freeSeqIds = [] then m.evictOne.1 else m).tree := by
    split
    · exact hadmitted.books.evictOne_tidies
    · exact .refl _
  obtain ⟨m', idle', hallocated, hcase⟩ := hadmitted.allocateSeqId hhand
  have hplacement := hallocated.books.placement
  have hrefs := hplacement.refs_pos (n := found.node) (Or.inr List.mem_cons_self)
  have htree : m.allocateSeqId.1.tree = (if m.freeSeqIds = [] then m.evictOne.1 else m).tree := by
    unfold KVMapper.allocateSeqId
    simp only
    split <;> rfl
  rcases hcase with ⟨_, hnone⟩ | ⟨i, rest, _, hsome⟩
  · simp only [hnone] at htree ⊢
    rw [← htree] at hrefill
    exact hrefill.trans (hplacement.shape.release_tidies hplacement.coherent hrefs)
  · simp only [hsome] at htree ⊢
    rw [← htree] at hrefill
    have hbound := hplacement.shape.registerSeqId_tidies hrefs i prompt.length
    simp only [KVMapper.bindSequence, (KVMapper.copyPrefix_fields _ _ _ _).1]
    exact hrefill.trans hbound

/-- A released sequence leaves its node in use: the node is referenced, or it was extended to and
another sequence stays. -/
theorem releaseSequence_tidies (h : Books s path idle) {c : Client} (hc : c ∈ s.live) :
    s.mapper.tree.Tidies (s.mapper.releaseSequence c.seqId c.owner).tree := by
  have hmem := h.placement.mem_owner hc
  have hspec := h.placement.shape.releaseSeqId_spec hmem s.mapper.config.prefixCacheEnabled
  rw [KVMapper.releaseSequence_tree]
  split at hspec
  · rw [hspec]
    exact .refl _
  · rename_i hdropped
    obtain ⟨_, _, hdata⟩ := hspec
    refine .of_used (fun m hm => Shape.releaseSeqId_dead hm _ _) (RadixTree.not_dead_of_mem hmem) ?_
    rintro ⟨_, _, ⟨hrefs, hseqs⟩, _⟩
    rw [hdata, Function.update_self] at hrefs hseqs
    rcases h.owners c hc with howner | ⟨_, hready, hcache⟩
    · exact (h.placement.refs_pos (Or.inl ⟨c, hc, howner.symm⟩)).ne' hrefs
    · have hmemReady := (h.placement.registers.readied c.owner c.seqId).mpr
        (Or.inl ⟨c, hc, rfl, rfl, hready⟩)
      refine hdropped ⟨hcache, hmemReady,
        OrderedSet.size_le_one_of_unique (a := c.seqId) fun j hj => ?_⟩
      by_contra hne
      exact OrderedSet.notMem_empty j (hseqs ▸ OrderedSet.mem_erase.mpr ⟨hne, hj⟩)

end Books

namespace Session

/-- The tokens that a preparation inserts, after relieving the memory pressure, or that an extension
looks up, do not stop strictly inside the run of a childless node. -/
def KeepsLeaves (s : Session) : Call → Prop
  | .prepare prompt => ¬ (s.mapper.countRequest prompt).evictKvPressure.tree.StopsInLeaf prompt
  | .extend _ _ tokens => s.mapper.config.prefixCacheEnabled = true →
    ¬ s.mapper.tree.StopsInLeaf tokens
  | _ => True

end Session

/-- A preparation leaves a dead node behind exactly if its insertion splits a childless node. -/
theorem Books.prepare_dead {s : Session} {path : NodeId → List Token} {idle : NodeId → Option SeqId}
    (h : Books s path idle) (hhand : s.hand = none) (hnone : s.mapper.tree.NoDead)
    (prompt : List Token) :
    (s.mapper.prepareSequence prompt).1.tree.NoDead ↔ s.KeepsLeaves (.prepare prompt) := by
  have hcounted : Books { s with mapper := s.mapper.countRequest prompt } path idle := h.metrics _
  obtain ⟨idle₁, hbooks, _⟩ := hcounted.evictKvPressure hhand
  have hbefore := (hcounted.evictKvPressure_tidies hhand).noDead hnone
  have hafter := h.prepare_tidies hhand prompt
  obtain ⟨hkeeps, hstrands, _⟩ := hbooks.placement.shape.insert_branches prompt
  refine ⟨fun hnoDead hstops => ?_, fun hstops => hafter.noDead (hkeeps hbefore hstops)⟩
  obtain ⟨m, _, hdead⟩ := hstrands hstops
  exact hnoDead m (hafter.dead m hdead)

/-- One call keeps childless nodes in use exactly if it does not split a childless node. -/
theorem Session.step_dead {s s' : Session} {call : Call} (hs : s.Sound)
    (hnone : s.mapper.tree.NoDead) (hstep : s.step call = some s') :
    s'.mapper.tree.NoDead ↔ s.KeepsLeaves call := by
  obtain ⟨path, idle, h⟩ := hs
  have htidy {t : RadixTree} (htidies : s.mapper.tree.Tidies t) : t.NoDead ↔ True :=
    iff_true_intro (htidies.noDead hnone)
  cases permitted_of_step hstep with
  | prepare hhand _ => exact h.prepare_dead hhand hnone _
  | exhausted hhand _ => exact h.prepare_dead hhand hnone _
  | decode => exact htidy (.refl _)
  | markReady hhand hc =>
    exact htidy
      (h.placement.shape.markSeqIdReady_tidies (h.placement.refs_pos (Or.inl ⟨_, hc, rfl⟩)) _)
  | setCellCount =>
    simp only [call, Call.apply, KVMapper.setSequenceCellCount]
    split <;> exact htidy (.refl _)
  | extend hhand hc hready =>
    rename_i c
    have howner := h.owner_eq_leaf hhand hc
    have hmem := h.placement.mem_owner hc
    have hmemReady := (h.placement.registers.readied c.owner c.seqId).mpr
      (Or.inl ⟨c, hc, rfl, rfl, hready⟩)
    rw [howner] at hmem hmemReady
    obtain ⟨hkeeps, hstrands⟩ :=
      h.placement.shape.extendSeqId_branches hmem hmemReady (h.history_ne_nil hc hready)
      (h.placement.refs_pos (Or.inl ⟨c, hc, rfl⟩))
    simp only [call, change, Call.apply, KVMapper.extendSequence, KeepsLeaves]
    cases hcache : s.mapper.config.prefixCacheEnabled with
    | false => simpa using hnone
    | true =>
      simp only [Bool.not_true, Bool.false_eq_true, if_false, true_implies,
        KVMapper.setSequenceCellCount]
      split <;> exact ⟨fun hnoDead hstops => hstrands hstops hnoDead, hkeeps hnone⟩
  | releaseSequence hc => exact htidy (h.releaseSequence_tidies hc)
  | release hhand hnode =>
    exact htidy (h.placement.shape.release_tidies h.placement.coherent
      (h.placement.refs_pos (Or.inr hnode)))
  | gcIfNeeded =>
    simp only [call, Call.apply, KVMapper.gcIfNeeded]
    split
    · exact htidy (.refl _)
    · exact htidy h.evictOne_tidies
  | evictIdle => exact htidy h.evictOne_tidies
  | evictKvPressure hhand => exact htidy (h.evictKvPressure_tidies hhand)

/-- A new tree has no dead node. -/
theorem Session.init_noDead (config : Config) (order : ChildOrder) :
    (Session.init config order).mapper.tree.NoDead := by
  rintro n ⟨⟨x, hx⟩, hroot, _⟩
  exact absurd hx (by simp [Session.init, KVMapper.init, RadixTree.init, hroot])

/-- Childless nodes are in use in every state of a run exactly if no step of it splits a childless
node; then, once every client left and every retained sequence is evicted, the root is alone. -/
theorem leaves_stay_used (config : Config) (order : ChildOrder) (calls : List Call) (s : Session)
    (hrun : (Session.init config order).Run calls s) :
    ((∀ before after s₁, calls = before ++ after → (Session.init config order).Run before s₁ →
        s₁.mapper.tree.LeavesUsed) ↔
      RunsWithin Session.step Session.KeepsLeaves (Session.init config order) calls) ∧
      (RunsWithin Session.step Session.KeepsLeaves (Session.init config order) calls →
        s.live = [] → s.holds = [] →
        s.mapper.retainedSeqIds = ∅ → s.mapper.tree.nodeCount = 1) := by
  have hwithin {calls : List Call} {s : Session} (hrun : (Session.init config order).Run calls s)
      (hkeeps : RunsWithin Session.step Session.KeepsLeaves (Session.init config order) calls) :
      s.Sound ∧ s.mapper.tree.NoDead :=
    run_invariant_within (P := fun s => s.Sound ∧ s.mapper.tree.NoDead)
      (fun _ _ _ hs hkeep hstep =>
        ⟨Session.step_sound hs.1 hstep, (Session.step_dead hs.1 hs.2 hstep).mpr hkeep⟩)
      ⟨Session.init_sound config order, Session.init_noDead config order⟩ hkeeps hrun
  refine ⟨⟨fun hused before call after heq s₁ hbefore => ?_,
    fun hkeeps before after s₁ heq hbefore => ?_⟩,
    fun hkeeps hlive hholds hretained => ?_⟩
  · subst heq
    obtain ⟨s₂, hs₂, hrest⟩ := run_append_some hrun
    rw [hbefore] at hs₂
    cases hs₂
    obtain ⟨s₂, hstep, _⟩ := Option.bind_eq_some_iff.mp hrest
    have hnone := (RadixTree.leavesUsed_iff _).mp (hused before (call :: after) s₁ rfl hbefore)
    refine (Session.step_dead (Session.run_sound hbefore) hnone hstep).mp
      ((RadixTree.leavesUsed_iff _).mp ?_)
    exact hused (before ++ [call]) after s₂ (by simp) (run_snoc.mpr ⟨s₁, hbefore, hstep⟩)
  · exact (RadixTree.leavesUsed_iff _).mpr (hwithin hbefore (RunsWithin.initial (heq ▸ hkeeps))).2
  · obtain ⟨⟨path, idle, h⟩, hnone⟩ := hwithin hrun hkeeps
    refine h.placement.shape.nodeCount_eq_one hnone fun n hn =>
      ⟨?_, OrderedSet.eq_empty_iff.mpr fun i hi => ?_⟩
    · rw [h.placement.refs, hlive, hholds, if_neg hn]
      rfl
    · rcases (h.placement.registers.registered n i).mp hi with ⟨c, hc, _⟩ | hidle
      · rw [hlive] at hc
        contradiction
      · have hmem := (h.accounts.retained i).mpr ⟨n, hidle⟩
        rw [hretained] at hmem
        contradiction

/-- A session that cleans up after itself. -/
theorem leaves_stay_used_single : ∃ s,
    (Session.init ⟨3, 64, true⟩ .stored).Run [.prepare [1, 2], .releaseSequence 1 1, .release 1] s ∧
      ((∀ before after s₁, [Call.prepare [1, 2], .releaseSequence 1 1, .release 1] =
        before ++ after →
          (Session.init ⟨3, 64, true⟩ .stored).Run before s₁ → s₁.mapper.tree.LeavesUsed) ↔
        RunsWithin Session.step Session.KeepsLeaves (Session.init ⟨3, 64, true⟩ .stored)
          [.prepare [1, 2], .releaseSequence 1 1, .release 1]) := by
  have hrun : (run Session.step (Session.init ⟨3, 64, true⟩ .stored) [.prepare [1, 2],
      .releaseSequence 1 1, .release 1]).isSome = true := by decide +kernel
  obtain ⟨s, hs⟩ := Option.isSome_iff_exists.mp hrun
  exact ⟨s, hs, (leaves_stay_used _ _ _ s hs).1⟩

/-- Two prompts that branch off in the run of a leaf leave a dead suffix behind for good. -/
theorem leaves_left_dead :
    ¬ ∀ (config : Config) (order : ChildOrder) (calls : List Call) (s : Session),
    (Session.init config order).Run calls s → s.mapper.tree.LeavesUsed ∧
      (s.live = [] → s.holds = [] → s.mapper.retainedSeqIds = ∅ → s.mapper.tree.nodeCount = 1) := by
  intro hall
  have hrun :
      (run Session.step (Session.init ⟨3, 64, true⟩ .stored) [.prepare [1, 2], .prepare [1, 3],
        .releaseSequence 2 3, .release 3, .releaseSequence 1 1, .release 1]).any
          (fun s => s.live = [] ∧ s.holds = [] ∧
        s.mapper.retainedSeqIds = ∅ ∧ s.mapper.tree.nodeCount ≠ 1) = true := by decide +kernel
  obtain ⟨s, hs, hcond⟩ := (Option.any_eq_true _ _).mp hrun
  obtain ⟨hlive, hholds, hretained, hcount⟩ := of_decide_eq_true hcond
  exact hcount ((hall _ _ _ s hs).2 hlive hholds hretained)

end RadixForge
