import RadixForge.Session.DeadBranches
import RadixForge.Tree.Ticks

/-!
# Which node an eviction takes

A node is used when a prompt is inserted at it, when a sequence is extended into it, and when one of
its ready sequences is copied. The last use leaves no tick. In every run an eviction takes the least
recently used node if the node it takes was not copied from since it was last inserted at or
extended into.
-/

namespace RadixForge

open Library

/-- The node where a sequence is ready. -/
def RadixTree.readyNode (t : RadixTree) (seqId : SeqId) : Option NodeId :=
  t.allNodes.find? fun n => seqId ∈ (t.data n).readySeqIds

/-- The uses of nodes that a call makes, one after the other. A copy from the node that was just
inserted at is no later use of it. `stays` tells whether an extension that ends where the sequence
already is counts. -/
def KVMapper.uses (stays : Bool) (m : KVMapper) (r : Recency NodeId) : Call → Recency NodeId
  | .prepare promptTokens =>
    let (m, found) := m.admitPrompt promptTokens
    let r := r.touch found.node
    match m.allocateSeqId with
    | (_, none) => r
    | (m, some _) =>
      match m.copySource found with
      | none => r
      | some (source, len) =>
        if 0 < cachedPosition promptTokens found (some (source, len)) then
          match m.tree.readyNode source with
          | none => r
          | some n => if n = found.node then r else r.visit n
        else r
  | .extend seqId node tokens =>
    if !m.config.prefixCacheEnabled then r
    else
      let target := (m.tree.extendSeqId node seqId tokens tokens.length).2
      if target = node then (if stays then r.visit node else r) else r.touch target
  | _ => r

/-- A step of a session with the record of the uses. -/
def Session.observe (stays : Bool) (state : Session × Recency NodeId) (call : Call) :
    Option (Session × Recency NodeId) :=
  (state.1.step call).map fun s => (s, state.1.mapper.uses stays state.2 call)

/-- Where `evict_one_locked` is entered during a call: the mapper there, and the record of the uses
before. -/
inductive KVMapper.Evicting (m : KVMapper) (r : Recency NodeId) :
    Call → KVMapper → Recency NodeId → Prop
  | idle : Evicting m r .evictIdle m r
  | gc (hempty : m.freeSeqIds = []) : Evicting m r .gcIfNeeded m r
  | pressure (fuel : ℕ) : Evicting m r .evictKvPressure (KVMapper.evictKvPressureLoop fuel m) r
  | relief (promptTokens : List Token) (fuel : ℕ) :
      Evicting m r (.prepare promptTokens)
        (KVMapper.evictKvPressureLoop fuel (m.countRequest promptTokens)) r
  | pool (promptTokens : List Token) (hempty : (m.admitPrompt promptTokens).1.freeSeqIds = []) :
      Evicting m r (.prepare promptTokens) (m.admitPrompt promptTokens).1
        (r.touch (m.admitPrompt promptTokens).2.node)

/-- The ticks of a tree agree with the record of the uses. -/
structure RadixTree.Timed (t : RadixTree) (r : Recency NodeId) : Prop where
  tracks : r.Tracks t.Alive t.accessTick t.tick
  owner : ∀ n x, t.nodes n = some x → x.seqIds ≠ ∅ → 0 < r.stamped n
  fresh : ∀ n, 0 < r.stamped n → n < t.nextId

namespace RadixTree.Timed

variable {t t' : RadixTree} {r : Recency NodeId}

/-- Nothing is stamped ahead of the clock. -/
theorem past (h : t.Timed r) : t.Past := by
  intro n x hx
  have hle := h.tracks.stamp_le n ⟨x, hx⟩
  rwa [RadixTree.accessTick, RadixTree.field_of_nodes hx] at hle

/-- The ticks of a tree whose nodes are not ahead of the clock. -/
theorem stamp_le (hpast : t.Past) (n : NodeId) (hn : t.Alive n) : t.accessTick n ≤ t.tick := by
  obtain ⟨x, hx⟩ := hn
  rw [RadixTree.accessTick, RadixTree.field_of_nodes hx]
  exact hpast n x hx

/-- Changes that keep the ticks of surviving nodes. -/
theorem ages (h : t.Timed r) (hages : t.Ages t') : t'.Timed r := by
  refine ⟨h.tracks.mono (stamp_le (hages.past h.past)) fun n hn hpos => ?_, fun n x hx howns => ?_,
    fun n hpos => lt_of_lt_of_le (h.fresh n hpos) hages.nextId⟩
  · obtain ⟨x, hx⟩ := hn
    obtain ⟨y, hy, hxy⟩ := hages.node n x hx (h.fresh n hpos) id
    rw [RadixTree.accessTick, RadixTree.accessTick, RadixTree.field_of_nodes hx,
      RadixTree.field_of_nodes hy]
    exact ⟨⟨y, hy⟩, hxy⟩
  · obtain ⟨y, hy, hyowns⟩ := hages.owner n x hx id howns
    exact h.owner n y hy hyowns

/-- A change that leaves the newest tick at the node where it ends. -/
theorem touch (h : t.Timed r) {n : NodeId} (hlt : t.tick < t'.tick)
    (hkeeps : t.KeepsTicks t' (· = n)) (hn : t'.Alive n) (hnext : n < t'.nextId)
    (hnew : ∀ x, t'.nodes n = some x → x.lastAccessTick = t'.tick) : t'.Timed (r.touch n) := by
  obtain ⟨x, hx⟩ := hn
  have htick : t'.accessTick n = t'.tick := by
    rw [RadixTree.accessTick, RadixTree.field_of_nodes hx]
    exact hnew x hx
  refine ⟨h.tracks.touch (htick ▸ hlt) (stamp_le (hkeeps.past h.past)) fun m hm hne hmpos => ?_,
    fun m y hy howns => ?_, fun m hmpos => ?_⟩
  · obtain ⟨y, hy⟩ := hm
    obtain ⟨z, hz, hyz⟩ := hkeeps.node m y hy (h.fresh m hmpos) hne
    rw [RadixTree.accessTick, RadixTree.accessTick, RadixTree.field_of_nodes hy,
      RadixTree.field_of_nodes hz]
    exact ⟨⟨z, hz⟩, hyz⟩
  · by_cases hm : m = n
    · exact hm ▸ r.touch_stamped_pos n
    · obtain ⟨z, hz, hzowns⟩ := hkeeps.owner m y hy hm howns
      rw [r.touch_stamped_of_ne hm]
      exact h.owner m z hz hzowns
  · by_cases hm : m = n
    · exact hm ▸ hnext
    · rw [r.touch_stamped_of_ne hm] at hmpos
      exact lt_of_lt_of_le (h.fresh m hmpos) hkeeps.nextId

/-- A use that leaves no stamp does not matter to the stamps. -/
theorem visit (h : t.Timed r) (n : NodeId) : t.Timed (r.visit n) :=
  ⟨h.tracks.visit n, h.owner, h.fresh⟩

/-- A sequence is registered at a node that was used. -/
theorem register (h : t.Timed r) {n : NodeId} (hpos : 0 < r.stamped n) (s : SeqId) (len : ℕ) :
    (t.registerSeqId n s len).Timed r := by
  have hnode (m : NodeId) : (t.registerSeqId n s len).nodes m =
      if m = n then (t.nodes m).map fun x => { x with seqIds := x.seqIds.insert s
                                                      canonicalLen := if x.canonicalLen = 0 then len
                                                        else x.canonicalLen }
      else t.nodes m := rfl
  have hticks (m : NodeId) : (t.registerSeqId n s len).accessTick m = t.accessTick m := by
    simp only [RadixTree.accessTick, RadixTree.field, hnode]
    split
    · cases t.nodes m <;> rfl
    · rfl
  refine ⟨h.tracks.mono (fun m hm => ?_) fun m hm _ => ⟨RadixTree.alive_modify.mp hm, hticks m⟩,
    fun m x hx howns => ?_, h.fresh⟩
  · rw [hticks]
    exact h.tracks.stamp_le m (RadixTree.alive_modify.mp hm)
  · by_cases hm : m = n
    · exact hm ▸ hpos
    · rw [hnode, if_neg hm] at hx
      exact h.owner m x hx howns

end RadixTree.Timed

namespace KVMapper

/-- The search for something to evict stamps nothing. -/
theorem evictOneLoop_ages (fuel : ℕ) (m : KVMapper) : m.tree.Ages (evictOneLoop fuel m).1.tree := by
  induction fuel generalizing m with
  | zero => exact RadixTree.KeepsTicks.refl _
  | succ fuel ih =>
    unfold evictOneLoop
    split
    · exact RadixTree.KeepsTicks.refl _
    · rename_i node _ _
      simp only
      split
      · exact (RadixTree.KeepsTicks.evict m.tree node).trans
          (ih { m with tree := (m.tree.evict node).1 })
      · simp only [foldl_freeSequence_tree]
        exact RadixTree.KeepsTicks.evict m.tree node

/-- The loop that relieves pressure stamps nothing. -/
theorem evictKvPressureLoop_ages (fuel : ℕ) (m : KVMapper) :
    m.tree.Ages (evictKvPressureLoop fuel m).tree := by
  induction fuel generalizing m with
  | zero => exact RadixTree.KeepsTicks.refl _
  | succ fuel ih =>
    have hone : m.tree.Ages m.evictOne.1.tree := evictOneLoop_ages _ m
    unfold evictKvPressureLoop
    split
    · generalize m.evictOne = outcome at hone ⊢
      obtain ⟨m₁, evicted⟩ := outcome
      cases evicted with
      | false => exact hone
      | true => exact hone.trans (ih m₁)
    · exact RadixTree.KeepsTicks.refl _

/-- The relief of pressure stamps nothing. -/
theorem evictKvPressure_ages (m : KVMapper) : m.tree.Ages m.evictKvPressure.tree :=
  evictKvPressureLoop_ages _ m

/-- Taking a sequence stamps nothing. -/
theorem allocateSeqId_ages (m : KVMapper) : m.tree.Ages m.allocateSeqId.1.tree := by
  cases hfree : m.freeSeqIds with
  | nil =>
    have hone : m.tree.Ages m.evictOne.1.tree := evictOneLoop_ages _ m
    rw [allocateSeqId_of_empty hfree]
    split <;> exact hone
  | cons i rest =>
    rw [allocateSeqId_of_free hfree]
    exact RadixTree.KeepsTicks.refl _

/-- A release stamps nothing. -/
theorem releaseSequence_ages (m : KVMapper) (i : SeqId) (n : NodeId) :
    m.tree.Ages (m.releaseSequence i n).tree :=
  m.releaseSequence_tree i n ▸
    RadixTree.KeepsTicks.releaseSeqId m.tree n i m.config.prefixCacheEnabled

end KVMapper

namespace Books

variable {s : Session} {path : NodeId → List Token} {idle : NodeId → Option SeqId}
  {r : Recency NodeId}

/-- The insertion of a preparation is a use of its node. -/
theorem admitPrompt_timed (h : Books s path idle) (hhand : s.hand = none)
    (htimed : s.mapper.tree.Timed r) (prompt : List Token) :
    (s.mapper.admitPrompt prompt).1.tree.Timed (r.touch (s.mapper.admitPrompt prompt).2.node) := by
  obtain ⟨path', idle', hadmitted⟩ := h.admitPrompt hhand prompt
  have halive := hadmitted.books.placement.leaf_alive (Or.inr List.mem_cons_self)
  obtain ⟨x, hx⟩ := halive
  have hnext := hadmitted.books.placement.shape.fresh hx
  have hpressed := htimed.ages (s.mapper.countRequest prompt).evictKvPressure_ages
  obtain ⟨hlt, hkeeps, hnew⟩ :=
    RadixTree.insert_stamps (s.mapper.countRequest prompt).evictKvPressure.tree prompt
  exact hpressed.touch hlt hkeeps ⟨x, hx⟩ hnext hnew

/-- A preparation is used as recorded. -/
theorem prepare_timed (stays : Bool) (h : Books s path idle) (hhand : s.hand = none)
    (htimed : s.mapper.tree.Timed r) (prompt : List Token) :
    (s.mapper.prepareSequence prompt).1.tree.Timed (s.mapper.uses stays r (.prepare prompt)) := by
  have hadmitted := h.admitPrompt_timed hhand htimed prompt
  simp only [KVMapper.prepareSequence, KVMapper.uses]
  generalize s.mapper.admitPrompt prompt = admitted at hadmitted ⊢
  obtain ⟨m, found⟩ := admitted
  have hpos : 0 < (r.touch found.node).stamped found.node := r.touch_stamped_pos found.node
  simp only at hadmitted ⊢
  generalize r.touch found.node = r₁ at hadmitted hpos ⊢
  have hallocated := hadmitted.ages m.allocateSeqId_ages
  generalize m.allocateSeqId = allocated at hallocated ⊢
  obtain ⟨m', newSeq⟩ := allocated
  cases newSeq with
  | none => exact hallocated.ages (RadixTree.KeepsTicks.release _ _)
  | some i =>
    simp only [KVMapper.bindSequence, (KVMapper.copyPrefix_fields _ _ _ _).1]
    have hregistered := hallocated.register hpos i prompt.length
    split
    · exact hregistered
    · split
      · split
        · exact hregistered
        · split
          · exact hregistered
          · exact hregistered.visit _
      · exact hregistered

/-- An extension is used as recorded. -/
theorem extend_timed (stays : Bool) (h : Books s path idle) (hhand : s.hand = none)
    (htimed : s.mapper.tree.Timed r) {c : Client} (hc : c ∈ s.live) (hready : c.ready = true) :
    (s.mapper.extendSequence c.seqId c.leaf c.history).1.tree.Timed
      (s.mapper.uses stays r (.extend c.seqId c.leaf c.history)) := by
  obtain ⟨path', hbooks⟩ := h.extend hhand hc hready
  have halive : (s.mapper.extendSequence c.seqId c.leaf c.history).1.tree.Alive
      (s.mapper.extendSequence c.seqId c.leaf c.history).2 := by
    refine hbooks.placement.alive_of_registered (hbooks.placement.mem_owner (c := { c with
      owner := (s.mapper.extendSequence c.seqId c.leaf c.history).2 }) ?_)
    exact List.mem_map.mpr ⟨c, hc, if_pos rfl⟩
  obtain ⟨x, hx⟩ := halive
  have hnext := hbooks.placement.shape.fresh hx
  have htree (m : KVMapper) (i : SeqId) (count : ℕ) :
      (m.setSequenceCellCount i count).tree = m.tree := by
    unfold KVMapper.setSequenceCellCount
    split <;> rfl
  obtain ⟨hstayed, hmoved⟩ :=
    RadixTree.extend_stamps s.mapper.tree c.leaf c.seqId c.history c.history.length
  unfold KVMapper.extendSequence at hx hnext ⊢
  unfold KVMapper.uses
  cases hcache : s.mapper.config.prefixCacheEnabled with
  | false =>
    simp only [Bool.not_false, if_true]
    exact htimed
  | true =>
    simp only [hcache, Bool.not_true, Bool.false_eq_true, if_false, htree] at hx hnext ⊢
    split
    · rename_i heq
      have hages := htimed.ages (hstayed heq)
      split
      · exact hages.visit _
      · exact hages
    · rename_i hne
      obtain ⟨hlt, hkeeps, hnew⟩ := hmoved hne
      exact htimed.touch hlt hkeeps ⟨x, hx⟩ hnext hnew

end Books

/-- A step keeps the ticks and the record of the uses in agreement. -/
theorem Session.observe_timed {stays : Bool} {state state' : Session × Recency NodeId} {call : Call}
    (h : state.1.Sound ∧ state.1.mapper.tree.Timed state.2)
    (hstep : Session.observe stays state call = some state') :
    state'.1.Sound ∧ state'.1.mapper.tree.Timed state'.2 := by
  obtain ⟨s, r⟩ := state
  obtain ⟨s', hstep', rfl⟩ := Option.map_eq_some_iff.mp hstep
  obtain ⟨hsound, htimed⟩ := h
  refine ⟨Session.step_sound hsound hstep', ?_⟩
  obtain ⟨path, idle, h⟩ := hsound
  simp only at hstep' htimed h ⊢
  rw [Session.step_mapper hstep']
  have hone : s.mapper.evictOne.1.tree.Timed r :=
    htimed.ages (KVMapper.evictOneLoop_ages _ s.mapper)
  cases Session.permitted_of_step hstep' with
  | prepare hhand hprepare => exact h.prepare_timed stays hhand htimed _
  | exhausted hhand hprepare => exact h.prepare_timed stays hhand htimed _
  | decode hhand hc hnext => exact htimed
  | markReady hhand hc hprompt hlen => exact htimed.ages (RadixTree.KeepsTicks.markSeqIdReady _ _ _)
  | setCellCount hhand hc =>
    simp only [Call.apply, KVMapper.setSequenceCellCount]
    split <;> exact htimed
  | extend hhand hc hready => exact h.extend_timed stays hhand htimed hc hready
  | releaseSequence hc hhand => exact htimed.ages (KVMapper.releaseSequence_ages _ _ _)
  | release hhand hnode => exact htimed.ages (RadixTree.KeepsTicks.release _ _)
  | gcIfNeeded hhand =>
    simp only [Call.apply, KVMapper.gcIfNeeded]
    split
    · exact htimed
    · exact hone
  | evictIdle hhand => exact hone
  | evictKvPressure hhand => exact htimed.ages s.mapper.evictKvPressure_ages

/-- In a new tree nothing is used or stamped. -/
theorem Session.init_timed (config : Config) (order : ChildOrder) :
    (Session.init config order).mapper.tree.Timed {} := by
  have hnodes (n : NodeId) : (Session.init config order).mapper.tree.nodes n =
      if n = rootId then some { refCount := 1 } else none := rfl
  refine ⟨.empty fun n hn => ?_, fun n x hx howns => ?_, fun n hpos => absurd hpos (lt_irrefl _)⟩
  · refine RadixTree.Timed.stamp_le (fun m x hx => ?_) n hn
    rw [hnodes] at hx
    split at hx
    · cases hx
      exact le_rfl
    · contradiction
  · rw [hnodes] at hx
    split at hx
    · cases hx
      exact absurd rfl howns
    · contradiction

/-- Where an eviction is entered, the tree has a shape and its ticks agree with the record. -/
theorem Books.evicting {s s' : Session} {path : NodeId → List Token} {idle : NodeId → Option SeqId}
    {r r' : Recency NodeId} {call : Call} {m : KVMapper} (h : Books s path idle)
    (htimed : s.mapper.tree.Timed r) (hstep : s.step call = some s')
    (hevicting : s.mapper.Evicting r call m r') :
    (∃ path', Shape m.tree path') ∧ m.tree.Timed r' := by
  have hhand (hcall : ∀ i n, call ≠ .releaseSequence i n) : s.hand = none := by
    cases Session.permitted_of_step hstep <;> first | assumption | exact absurd rfl (hcall _ _)
  cases hevicting with
  | idle => exact ⟨⟨path, h.placement.shape⟩, htimed⟩
  | gc hempty => exact ⟨⟨path, h.placement.shape⟩, htimed⟩
  | pressure fuel =>
    obtain ⟨_, hbooks, _⟩ := h.evictKvPressureLoop (hhand (by simp)) fuel
    exact ⟨⟨path, hbooks.placement.shape⟩, htimed.ages (KVMapper.evictKvPressureLoop_ages _ _)⟩
  | relief prompt fuel =>
    have hcounted : Books { s with mapper := s.mapper.countRequest prompt } path idle := h.metrics _
    obtain ⟨_, hbooks, _⟩ := hcounted.evictKvPressureLoop (hhand (by simp)) fuel
    exact ⟨⟨path, hbooks.placement.shape⟩,
      htimed.ages (KVMapper.evictKvPressureLoop_ages _ (s.mapper.countRequest prompt))⟩
  | pool prompt hempty =>
    obtain ⟨path', idle', hadmitted⟩ := h.admitPrompt (hhand (by simp)) prompt
    exact ⟨⟨path', hadmitted.books.placement.shape⟩,
      h.admitPrompt_timed (hhand (by simp)) htimed prompt⟩

/-- Whenever an eviction takes a node that was not copied from since it was last inserted at or
extended into, no other evictable node had its last use earlier. -/
theorem evicts_least_recently_used (stays : Bool) (config : Config) (order : ChildOrder)
    (calls : List Call) (s : Session) (r : Recency NodeId)
    (hrun : run (Session.observe stays) (Session.init config order, ({} : Recency NodeId)) calls =
      some (s, r))
    (call : Call) (s' : Session) (hstep : s.step call = some s') (m : KVMapper)
    (r' : Recency NodeId) (hevicting : s.mapper.Evicting r call m r') (n : NodeId)
    (hn : m.tree.findEvictionCandidates 1 = [n]) (hmarked : r'.last n = r'.stamped n) :
    ∀ k, m.tree.Evictable k → ¬ r'.last k < r'.last n := by
  obtain ⟨⟨path, idle, h⟩, htimed⟩ :=
    run_invariant (P := fun state => state.1.Sound ∧ state.1.mapper.tree.Timed state.2)
    (fun _ _ _ hstate hstep => Session.observe_timed hstate hstep)
    ⟨Session.init_sound config order, Session.init_timed config order⟩ hrun
  obtain ⟨⟨path', hshape⟩, htimed'⟩ := h.evicting htimed hstep hevicting
  have hmem : n ∈ m.tree.findEvictionCandidates 1 := hn ▸ List.mem_singleton_self n
  have hevictable := RadixTree.evictable_of_candidate hmem
  have hstamped (k : NodeId) (hk : m.tree.Evictable k) : 0 < r'.stamped k := by
    obtain ⟨x, hx⟩ := hk.alive
    refine htimed'.owner k x hx ?_
    have howns := hk.2.2
    rw [RadixTree.data_of_nodes hx] at howns
    exact howns
  intro k hk
  exact htimed'.tracks.least hevictable.alive hk.alive (hstamped n hevictable) (hstamped k hk)
    (RadixTree.candidate_least hshape hmem hk) hmarked

/-- Two prompts that were retained one after the other: the first one goes first. -/
theorem evicts_least_recently_used_idle : ∃ s r s',
    run (Session.observe true) (Session.init ⟨5, 64, true⟩ .stored, ({} : Recency NodeId))
      [.prepare [1, 2], .decode 1 1 0, .decode 1 2 1, .markReady 1 1, .releaseSequence 1 1,
        .release 1, .prepare [5], .decode 2 5 0,
      .markReady 2 2, .releaseSequence 2 2, .release 2] = some (s, r) ∧
        s.step .evictIdle = some s' ∧
      s.mapper.tree.findEvictionCandidates 1 = [1] ∧ s.mapper.tree.Evictable 2 ∧
      ∀ k, s.mapper.tree.Evictable k → ¬ r.last k < r.last 1 := by
  have hrun : (run (Session.observe true) (Session.init ⟨5, 64, true⟩ .stored,
      ({} : Recency NodeId)) [.prepare [1, 2], .decode 1 1 0, .decode 1 2 1, .markReady 1 1,
      .releaseSequence 1 1, .release 1, .prepare [5], .decode 2 5 0, .markReady 2 2,
      .releaseSequence 2 2, .release 2]).any (fun state =>
        (state.1.step .evictIdle).isSome ∧ state.1.mapper.tree.findEvictionCandidates 1 = [1] ∧
          state.1.mapper.tree.isEvictable 2 ∧ state.2.last 1 = state.2.stamped 1) = true := by
            decide +kernel
  obtain ⟨state, hs, hcond⟩ := (Option.any_eq_true _ _).mp hrun
  obtain ⟨hstep, hcandidate, hevictable, hmarked⟩ := of_decide_eq_true hcond
  obtain ⟨s', hs'⟩ := Option.isSome_iff_exists.mp hstep
  exact ⟨state.1, state.2, s', hs, hs', hcandidate, RadixTree.isEvictable_iff.mp hevictable,
    evicts_least_recently_used true _ _ _ state.1 state.2 hs .evictIdle s' hs' state.1.mapper
      state.2 .idle 1 hcandidate
      hmarked⟩

/-- In every run, whenever an eviction takes a node, no other evictable node had its last use
earlier. -/
def EvictsLeastRecent (stays : Bool) : Prop :=
  ∀ (config : Config) (order : ChildOrder) (calls : List Call) (s : Session)
    (r : Recency NodeId),
    run (Session.observe stays) (Session.init config order, ({} : Recency NodeId)) calls =
      some (s, r) →
      ∀ (call : Call) (s' : Session), s.step call = some s' →
      ∀ (m : KVMapper) (r' : Recency NodeId),
        s.mapper.Evicting r call m r' → ∀ n, m.tree.findEvictionCandidates 1 = [n] →
          ∀ k, m.tree.Evictable k → ¬ r'.last k < r'.last n

/-- A prompt that was copied from last is evicted before one that was not used since. -/
theorem evicts_copied_prefix_first : ¬ EvictsLeastRecent false ∧ ¬ EvictsLeastRecent true := by
  have hnot (stays : Bool) : ¬ EvictsLeastRecent stays := by
    intro hall
    have hrun : (run (Session.observe stays) (Session.init ⟨5, 64, true⟩ .stored,
        ({} : Recency NodeId)) [.prepare [1, 2], .decode 1 1 0, .decode 1 2 1, .markReady 1 1,
        .releaseSequence 1 1, .release 1, .prepare [5], .decode 2 5 0, .markReady 2 2,
        .releaseSequence 2 2, .release 2, .prepare [1, 2, 3]]).any (fun state =>
          (state.1.step .evictIdle).isSome ∧ state.1.mapper.tree.findEvictionCandidates 1 = [1] ∧
            state.1.mapper.tree.isEvictable 2 ∧ state.2.last 2 < state.2.last 1) = true := by
      cases stays <;> decide +kernel
    obtain ⟨state, hs, hcond⟩ := (Option.any_eq_true _ _).mp hrun
    obtain ⟨hstep, hcandidate, hevictable, hearlier⟩ := of_decide_eq_true hcond
    obtain ⟨s', hs'⟩ := Option.isSome_iff_exists.mp hstep
    exact hall _ _ _ state.1 state.2 hs .evictIdle s' hs' state.1.mapper state.2
      .idle 1 hcandidate 2
      (RadixTree.isEvictable_iff.mp hevictable) hearlier
  exact ⟨hnot false, hnot true⟩

end RadixForge
