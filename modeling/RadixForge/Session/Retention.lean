import RadixForge.Session.Invariant

/-!
# Ready sequences at the release

A client whose sequence is ready releases it at the node that lists it. The node keeps a ready
sequence exactly if another ready one is listed there, or nothing else is: a pending sequence at the
node is counted against the retention of the only ready one.
-/

namespace RadixForge

open Library

/-- After the release of a client's sequence its node has a ready sequence, and the client's own one
is retained there if no other was ready. -/
def Session.KeepsReady (s : Session) (c : Client) : Prop :=
  let m := s.mapper.releaseSequence c.seqId c.owner
  (m.tree.data c.owner).readySeqIds ≠ ∅ ∧
    ((∀ i ∈ (s.mapper.tree.data c.owner).readySeqIds, i = c.seqId) →
      c.seqId ∈ (m.tree.data c.owner).readySeqIds ∧ c.seqId ∈ m.retainedSeqIds)

instance (s : Session) (c : Client) : Decidable (s.KeepsReady c) :=
  inferInstanceAs (Decidable (_ ∧ _))

namespace Books

variable {s : Session} {path : NodeId → List Token} {idle : NodeId → Option SeqId}

/-- The sequence of a client that is ready is listed as ready at its owner. -/
theorem mem_ready (h : Books s path idle) {c : Client} (hc : c ∈ s.live) (hready : c.ready = true) :
    c.seqId ∈ (s.mapper.tree.data c.owner).readySeqIds :=
  (h.placement.registers.readied _ _).mpr (Or.inl ⟨c, hc, rfl, rfl, hready⟩)

/-- Alone at its node, a ready sequence is retained there. -/
theorem keepsReady_of_alone (h : Books s path idle)
    (hcache : s.mapper.config.prefixCacheEnabled = true) {c : Client} (hc : c ∈ s.live)
    (hready : c.ready = true) (halone : ∀ i ∈ (s.mapper.tree.data c.owner).seqIds, i = c.seqId) :
    s.KeepsReady c := by
  have hmem := h.mem_ready hc hready
  have hspec := h.placement.shape.releaseSeqId_spec (h.placement.mem_owner hc)
    s.mapper.config.prefixCacheEnabled
  rw [if_pos ⟨hcache, hmem, OrderedSet.size_le_one_of_unique halone⟩] at hspec
  have hcovering := h.placement.covering_of_sole hmem halone
  simp only [Session.KeepsReady, KVMapper.releaseSequence, hspec, Bool.false_eq_true, if_false,
    hcovering, if_true]
  exact ⟨fun hempty => OrderedSet.notMem_empty _ (hempty ▸ hmem),
    fun _ => ⟨hmem, Finset.mem_insert_self _ _⟩⟩

/-- Beside another sequence, a ready one leaves its node. -/
theorem release_beside (h : Books s path idle) {c : Client} (hc : c ∈ s.live) {i : SeqId}
    (hi : i ∈ (s.mapper.tree.data c.owner).seqIds) (hne : i ≠ c.seqId) :
    ((s.mapper.releaseSequence c.seqId c.owner).tree.data c.owner).readySeqIds =
      (s.mapper.tree.data c.owner).readySeqIds.erase c.seqId := by
  have hmem := h.placement.mem_owner hc
  have hspec := h.placement.shape.releaseSeqId_spec hmem s.mapper.config.prefixCacheEnabled
  rw [if_neg fun hretain => hne (OrderedSet.eq_of_size_le_one hretain.2.2 hi hmem)] at hspec
  obtain ⟨hfreed, _, hdata⟩ := hspec
  simp only [KVMapper.releaseSequence, hfreed, if_true]
  change ((s.mapper.tree.releaseSeqId c.owner c.seqId _).1.data c.owner).readySeqIds = _
  rw [hdata, Function.update_self]
  rfl

end Books

/-- In every state of every run with the prefix cache, the release of a ready sequence leaves its
node with a ready one exactly if another ready sequence is listed at the node or no other sequence
is. -/
theorem released_ready_kept_iff (config : Config) (order : ChildOrder) (calls : List Call)
    (s : Session) (hrun : (Session.init config order).Run calls s)
    (hcache : config.prefixCacheEnabled = true) (c : Client) (hc : c ∈ s.live)
    (hready : c.ready = true) :
    s.KeepsReady c ↔ (∃ i ∈ (s.mapper.tree.data c.owner).readySeqIds, i ≠ c.seqId) ∨
      ∀ i ∈ (s.mapper.tree.data c.owner).seqIds, i = c.seqId := by
  obtain ⟨path, idle, h⟩ := Session.run_sound hrun
  have henabled : s.mapper.config.prefixCacheEnabled =
      true := by rw [Session.run_config hrun]; exact hcache
  by_cases halone : ∀ i ∈ (s.mapper.tree.data c.owner).seqIds, i = c.seqId
  · exact iff_of_true (h.keepsReady_of_alone henabled hc hready halone) (Or.inr halone)
  · push Not at halone
    obtain ⟨j, hj, hne⟩ := halone
    have hafter := h.release_beside hc hj hne
    have hother : ¬ ∀ i ∈ (s.mapper.tree.data c.owner).seqIds, i = c.seqId :=
      fun hall => hne (hall j hj)
    rw [or_iff_left hother]
    constructor
    · intro hkeeps
      obtain ⟨i, _, hi⟩ := OrderedSet.exists_first hkeeps.1
      rw [hafter, OrderedSet.mem_erase] at hi
      exact ⟨i, hi.2, hi.1⟩
    · rintro ⟨i, hi, hdiffers⟩
      constructor
      · intro hempty
        have hkept : i ∈
            ((s.mapper.releaseSequence c.seqId c.owner).tree.data c.owner).readySeqIds := by
          rw [hafter, OrderedSet.mem_erase]
          exact ⟨hdiffers, hi⟩
        exact OrderedSet.notMem_empty i (hempty ▸ hkept)
      · intro honly
        exact absurd (honly i hi) hdiffers

/-- A request alone at its node leaves its sequence there. -/
theorem released_ready_kept_alone : ∃ s, ∃ c ∈ s.live,
    (Session.init ⟨3, 64, true⟩ .stored).Run
      [.prepare [1, 2], .decode 1 1 0, .decode 1 2 1, .markReady 1 1] s ∧
      c.seqId = 1 ∧ s.KeepsReady c := by
  have hrun : (run Session.step (Session.init ⟨3, 64, true⟩ .stored) [.prepare [1, 2],
      .decode 1 1 0, .decode 1 2 1, .markReady 1 1]).any (fun s => s.live.any fun c => c.ready ∧
        c.seqId = 1 ∧
        ∀ i ∈ (s.mapper.tree.data c.owner).seqIds.toList, i = c.seqId) = true := by decide +kernel
  obtain ⟨s, hs, hany⟩ := (Option.any_eq_true _ _).mp hrun
  obtain ⟨c, hc, hcond⟩ := List.any_eq_true.mp hany
  obtain ⟨hready, hid, halone⟩ := of_decide_eq_true hcond
  exact ⟨s, c, hc, hs, hid,
    (released_ready_kept_iff _ _ _ s hs rfl c hc hready).mpr (Or.inr halone)⟩

/-- A second request with the same prompt is still pending when the first one releases the only
ready sequence, which is freed. -/
theorem released_ready_lost :
    ¬ ∀ (config : Config) (order : ChildOrder) (calls : List Call) (s : Session),
    (Session.init config order).Run calls s → config.prefixCacheEnabled = true →
    ∀ c ∈ s.live, c.ready = true →
      s.KeepsReady c := by
  intro hall
  have hrun : (run Session.step (Session.init ⟨3, 64, true⟩ .stored) [.prepare [1, 2],
      .decode 1 1 0, .decode 1 2 1, .markReady 1 1, .prepare [1, 2]]).any
        (fun s => s.live.any fun c => c.ready ∧ ¬ s.KeepsReady c) = true := by
    decide +kernel
  obtain ⟨s, hs, hany⟩ := (Option.any_eq_true _ _).mp hrun
  obtain ⟨c, hc, hcond⟩ := List.any_eq_true.mp hany
  obtain ⟨hready, hlost⟩ := of_decide_eq_true hcond
  exact hlost (hall _ _ _ s hs rfl c hc hready)

end RadixForge
