import RadixForge.Session.CellCounts
import RadixForge.Tree.Enrolling

/-!
# A disabled prefix cache

With the cache disabled no sequence is ever idle. A call then copies no cells, a preparation takes
nothing over, an extension changes nothing, and the release of a sequence frees it, so that a
preparation succeeds exactly if the pool is not empty. Nothing can be evicted, and so a preparation
does no more to the tree than enroll its prompt.
-/

namespace RadixForge

open Library

/-- The memory was changed by removals only. -/
def LlamaMemory.Removed (m m' : LlamaMemory) : Prop :=
  ∃ removals, m'.calls = m.calls ++ removals ∧ ∀ call ∈ removals, ∃ i p0 p1, call = .seqRm i p0 p1

/-- A call that reuses nothing and retains nothing. -/
structure Call.Cold (m : KVMapper) (call : Call) : Prop where
  prepared : ∀ prompt result, call = .prepare prompt → (m.prepareSequence prompt).2 = .ok result →
    result.cachedPos = 0
  copies : m.memory.Removed (call.apply m).memory
  extended : ∀ i node tokens, call = .extend i node tokens →
    m.extendSequence i node tokens = (m, node)
  released : ∀ i node, call = .releaseSequence i node → i ∈ (call.apply m).freeSeqIds ∧
    (call.apply m).memory.cells i = [] ∧ i ∉ (call.apply m).retainedSeqIds

namespace LlamaMemory

variable {m m' m'' : LlamaMemory}

/-- Without a call the memory is changed by removals only. -/
theorem Removed.same (h : m'.calls = m.calls) : m.Removed m' :=
  ⟨[], by rw [h, List.append_nil], fun _ hcall => absurd hcall List.not_mem_nil⟩

/-- Changes by removals only follow each other. -/
theorem Removed.trans (h : m.Removed m') (h' : m'.Removed m'') : m.Removed m'' := by
  obtain ⟨first, hfirst, hremoves⟩ := h
  obtain ⟨second, hsecond, hremoves'⟩ := h'
  refine ⟨first ++ second, by rw [hsecond, hfirst, List.append_assoc], fun call hcall => ?_⟩
  exact (List.mem_append.mp hcall).elim (hremoves call) (hremoves' call)

/-- A removal is one. -/
theorem seqRm_removed (m : LlamaMemory) (i : SeqId) (p0 p1 : ℤ) : m.Removed (m.seqRm i p0 p1) :=
  ⟨[.seqRm i p0 p1], rfl, fun _ hcall => ⟨i, p0, p1, List.mem_singleton.mp hcall⟩⟩

end LlamaMemory

namespace KVMapper

/-- Freeing sequences only removes from the memory. -/
theorem foldl_freeSequence_removed (m : KVMapper) (ids : List SeqId) :
    m.memory.Removed (ids.foldl freeSequence m).memory := by
  induction ids generalizing m with
  | nil => exact .same rfl
  | cons i rest ih => exact (m.memory.seqRm_removed i 0 (-1)).trans (ih (m.freeSequence i))

/-- The search for something to evict only removes from the memory. -/
theorem evictOneLoop_removed (fuel : ℕ) (m : KVMapper) :
    m.memory.Removed (evictOneLoop fuel m).1.memory := by
  induction fuel generalizing m with
  | zero => exact .same rfl
  | succ fuel ih =>
    unfold evictOneLoop
    split
    · exact .same rfl
    · rename_i node _ _
      simp only
      split
      · exact ih { m with tree := (m.tree.evict node).1 }
      · exact foldl_freeSequence_removed { m with tree := (m.tree.evict node).1 }
          (m.tree.evict node).2

/-- An eviction only removes from the memory. -/
theorem evictOne_removed (m : KVMapper) : m.memory.Removed m.evictOne.1.memory :=
  evictOneLoop_removed _ m

/-- The loop that relieves pressure only removes from the memory. -/
theorem evictKvPressureLoop_removed (fuel : ℕ) (m : KVMapper) :
    m.memory.Removed (evictKvPressureLoop fuel m).memory := by
  induction fuel generalizing m with
  | zero => exact .same rfl
  | succ fuel ih =>
    have hone := m.evictOne_removed
    unfold evictKvPressureLoop
    split
    · generalize m.evictOne = outcome at hone ⊢
      obtain ⟨m₁, evicted⟩ := outcome
      cases evicted with
      | false => exact hone
      | true => exact hone.trans (ih m₁)
    · exact .same rfl

/-- Taking a sequence only removes from the memory. -/
theorem allocateSeqId_removed (m : KVMapper) : m.memory.Removed m.allocateSeqId.1.memory := by
  have hrefilled : m.memory.Removed (if m.freeSeqIds = [] then m.evictOne.1 else m).memory := by
    split
    · exact m.evictOne_removed
    · exact .same rfl
  simp only [allocateSeqId]
  generalize (if m.freeSeqIds = [] then m.evictOne.1 else m) = m₁ at hrefilled ⊢
  split <;> exact hrefilled

/-- A release only removes from the memory. -/
theorem releaseSequence_removed (m : KVMapper) (i : SeqId) (node : NodeId) :
    m.memory.Removed (m.releaseSequence i node).memory := by
  unfold releaseSequence
  simp only
  split
  · exact m.memory.seqRm_removed i 0 (-1)
  · split
    · exact .same rfl
    · split
      · exact m.memory.seqRm_removed _ _ _
      · exact .same rfl

/-- Without the cache a preparation takes nothing over and copies nothing. -/
theorem prepareSequence_cold {m : KVMapper} (hoff : m.config.prefixCacheEnabled = false)
    (prompt : List Token) :
    m.memory.Removed (m.prepareSequence prompt).1.memory ∧
      ∀ result, (m.prepareSequence prompt).2 = .ok result → result.cachedPos = 0 := by
  have hadmitted : m.memory.Removed (m.admitPrompt prompt).1.memory :=
    evictKvPressureLoop_removed ((m.countRequest prompt).seqCellCounts.entries.length + 1)
      (m.countRequest prompt)
  have hconfig : (m.admitPrompt prompt).1.config = m.config := evictKvPressure_config _
  simp only [prepareSequence]
  generalize m.admitPrompt prompt = admitted at hadmitted hconfig ⊢
  obtain ⟨m₁, found⟩ := admitted
  have hallocated := m₁.allocateSeqId_removed
  have hconfig' := m₁.allocateSeqId_config
  simp only at hadmitted hconfig ⊢
  generalize m₁.allocateSeqId = allocated at hallocated hconfig' ⊢
  obtain ⟨m₂, newSeq | newSeq⟩ := allocated
  · exact ⟨hadmitted.trans hallocated, fun result hresult => by cases hresult⟩
  · have hsource : m₂.copySource found = none := by
      rw [copySource, hconfig', hconfig, hoff]
      exact if_neg fun hand => absurd hand.1 Bool.false_ne_true
    simp only [bindSequence, hsource, cachedPosition_none]
    refine ⟨hadmitted.trans (hallocated.trans (.same rfl)), fun result hresult => ?_⟩
    cases hresult
    rfl

/-- A new count of cells leaves the memory. -/
theorem setSequenceCellCount_memory (m : KVMapper) (i : SeqId) (count : ℕ) :
    (m.setSequenceCellCount i count).memory = m.memory := by
  unfold setSequenceCellCount
  split <;> rfl

/-- Without the cache an extension changes nothing. -/
theorem extendSequence_cold {m : KVMapper} (hoff : m.config.prefixCacheEnabled = false) (i : SeqId)
    (node : NodeId) (tokens : List Token) : m.extendSequence i node tokens = (m, node) := by
  rw [extendSequence, hoff]
  rfl

end KVMapper

namespace Books

variable {s : Session} {path : NodeId → List Token} {idle : NodeId → Option SeqId}

/-- Without the cache nothing is idle. -/
theorem not_idle_cold (h : Books s path idle) (hoff : s.mapper.config.prefixCacheEnabled = false)
    (n : NodeId) (i : SeqId) :
    idle n ≠ some i := fun hidle => absurd (h.accounts.cached n i hidle) (hoff ▸ Bool.false_ne_true)

/-- Without the cache a released sequence is freed. -/
theorem releaseSequence_cold (h : Books s path idle)
    (hoff : s.mapper.config.prefixCacheEnabled = false) {c : Client} (hc : c ∈ s.live) :
    ∃ tree, s.mapper.releaseSequence c.seqId c.owner =
      { s.mapper with tree := tree }.freeSequence c.seqId := by
  have hspec := h.placement.shape.releaseSeqId_spec (h.placement.mem_owner hc)
    s.mapper.config.prefixCacheEnabled
  rw [if_neg fun hretain => absurd hretain.1 (hoff ▸ Bool.false_ne_true)] at hspec
  refine ⟨(s.mapper.tree.releaseSeqId c.owner c.seqId s.mapper.config.prefixCacheEnabled).1, ?_⟩
  simp only [KVMapper.releaseSequence, hspec.1, if_true]

/-- Without the cache every sequence is in the pool or has a client. -/
theorem free_length_cold (h : Books s path idle)
    (hoff : s.mapper.config.prefixCacheEnabled = false) :
    s.mapper.freeSeqIds.length + s.live.length = s.mapper.config.maxSequences - 1 := by
  have hleases := h.accounts.leases
  have hperm : (s.mapper.freeSeqIds ++ s.live.map Client.seqId).Perm
      (List.range' 1 (s.mapper.config.maxSequences - 1)) := by
    refine (List.perm_ext_iff_of_nodup ?_ List.nodup_range').mpr fun i => ?_
    · exact List.nodup_append'.mpr ⟨hleases.free_nodup, hleases.held_nodup,
        fun i hi hi' => hleases.free_held i hi hi'⟩
    · rw [List.mem_append, hleases.cover i]
      simp [h.not_idle_cold hoff]
  have hlength := hperm.length_eq
  rwa [List.length_append, List.length_map, List.length_range'] at hlength

/-- Without the cache a preparation succeeds exactly if the pool is not empty. -/
theorem prepare_ok_iff_cold (h : Books s path idle) (hhand : s.hand = none)
    (hoff : s.mapper.config.prefixCacheEnabled = false) (prompt : List Token) :
    (∃ result, (s.mapper.prepareSequence prompt).2 = .ok result) ↔ s.mapper.freeSeqIds ≠ [] := by
  constructor
  · rintro ⟨result, hresult⟩ hempty
    obtain ⟨_, _, hprepared⟩ := h.prepareSequence hhand prompt
    have hbefore := h.free_length_cold hoff
    have hconfig := s.mapper.prepareSequence_config prompt
    generalize s.mapper.prepareSequence prompt = outcome at hresult hprepared hconfig
    obtain ⟨m, _⟩ := outcome
    cases hresult
    have hafter := hprepared.free_length_cold (hconfig ▸ hoff)
    change _ = m.config.maxSequences - 1 at hafter
    rw [congrArg Config.maxSequences hconfig, List.length_cons] at hafter
    rw [hempty, List.length_nil] at hbefore
    omega
  · exact fun hfree => KVMapper.prepare_of_pool hfree prompt

/-- Without the cache nothing can be evicted. -/
theorem not_evictable_cold (h : Books s path idle) (hhand : s.hand = none)
    (hoff : s.mapper.config.prefixCacheEnabled = false) (n : NodeId) :
    ¬ s.mapper.tree.Evictable n := by
  intro hn
  obtain ⟨_, i, hi, _⟩ := h.evictable_idle hhand hn
  exact h.not_idle_cold hoff n i hi

/-- Without the cache a preparation inserts its prompt and registers the first sequence of the pool.
-/
theorem prepare_registers (h : Books s path idle) (hhand : s.hand = none)
    (hoff : s.mapper.config.prefixCacheEnabled = false) (prompt : List Token) {i : SeqId}
    {rest : List SeqId} (hfree : s.mapper.freeSeqIds = i :: rest) {result : PrepareResult}
    (hresult : (s.mapper.prepareSequence prompt).2 = .ok result) :
    result.leafNode = (s.mapper.tree.insert prompt).2.node ∧ result.seqId = i ∧
      (s.mapper.prepareSequence prompt).1.tree = (s.mapper.tree.insert prompt).1.registerSeqId
        (s.mapper.tree.insert prompt).2.node i prompt.length := by
  have hidle : (s.mapper.countRequest prompt).evictKvPressure = s.mapper.countRequest prompt := by
    unfold KVMapper.evictKvPressure KVMapper.evictKvPressureLoop
    split
    · rcases KVMapper.evictOne_cases (m := s.mapper.countRequest prompt) h.placement.shape
        h.placement.coherent with ⟨hnone, _⟩ | ⟨n, hn, _⟩
      · rw [hnone]
      · exact absurd hn (h.not_evictable_cold hhand hoff n)
    · rfl
  have hadmitted : s.mapper.admitPrompt prompt =
      ({ s.mapper.countRequest prompt with tree := (s.mapper.tree.insert prompt).1 },
        (s.mapper.tree.insert prompt).2) := by
    simp only [KVMapper.admitPrompt, hidle]
    rfl
  have hpool : ({ s.mapper.countRequest prompt with
      tree := (s.mapper.tree.insert prompt).1 } : KVMapper).freeSeqIds = i :: rest := hfree
  simp only [KVMapper.prepareSequence, hadmitted, KVMapper.allocateSeqId_of_free hpool] at hresult ⊢
  cases hresult
  refine ⟨rfl, rfl, ?_⟩
  simp only [KVMapper.bindSequence, (KVMapper.copyPrefix_fields _ _ _ _).1]

/-- No node has a sequence of the pool. -/
theorem not_mem_of_free (h : Books s path idle) {i : SeqId} (hi : i ∈ s.mapper.freeSeqIds)
    (n : NodeId) :
    i ∉ (s.mapper.tree.data n).seqIds := by
  intro hmem
  rcases (h.placement.registers.registered n i).mp hmem with ⟨c, hc, _, hid⟩ | hidle
  · exact h.accounts.leases.free_held i hi (hid ▸ List.mem_map_of_mem hc)
  · exact h.accounts.leases.free_idle i hi n hidle

/-- Without the cache a preparation enrolls its prompt. -/
theorem prepare_enrolled (h : Books s path idle) (hhand : s.hand = none)
    (hoff : s.mapper.config.prefixCacheEnabled = false) {prompt : List Token}
    {result : PrepareResult} (hresult : (s.mapper.prepareSequence prompt).2 = .ok result) :
    Enrolled s.mapper.tree prompt (s.mapper.prepareSequence prompt).1.tree result.leafNode := by
  obtain ⟨i, rest, hfree⟩ := List.exists_cons_of_ne_nil
    ((h.prepare_ok_iff_cold hhand hoff prompt).mp ⟨result, hresult⟩)
  obtain ⟨hnode, _, htree⟩ := h.prepare_registers hhand hoff prompt hfree hresult
  rw [hnode, htree]
  exact h.placement.shape.enrolled h.placement.coherent prompt
    (h.not_mem_of_free (hfree ▸ List.mem_cons_self)) prompt.length

/-- Without the cache an empty prompt that is given back at once leaves an alike tree. -/
theorem prepare_nothing (h : Books s path idle) (hhand : s.hand = none)
    (hoff : s.mapper.config.prefixCacheEnabled = false) {result : PrepareResult}
    (hresult : (s.mapper.prepareSequence []).2 = .ok result) : Alike s.mapper.tree
      (((s.mapper.prepareSequence []).1.releaseSequence result.seqId result.leafNode).releaseNode
        result.leafNode).tree := by
  obtain ⟨i, rest, hfree⟩ := List.exists_cons_of_ne_nil
    ((h.prepare_ok_iff_cold hhand hoff []).mp ⟨result, hresult⟩)
  obtain ⟨hnode, hid, htree⟩ := h.prepare_registers hhand hoff [] hfree hresult
  rw [KVMapper.releaseNode, KVMapper.releaseSequence_tree, htree, hnode, hid]
  exact .nothing h.placement.shape.spelled i _ _

end Books

/-- Without the cache every permitted call is cold. -/
theorem Session.step_cold {s s' : Session} {call : Call} (hs : s.Sound)
    (hoff : s.mapper.config.prefixCacheEnabled = false) (hstep : s.step call = some s') :
    call.Cold s.mapper := by
  obtain ⟨path, idle, hbooks⟩ := hs
  refine ⟨fun prompt result _ hresult =>
    (KVMapper.prepareSequence_cold hoff prompt).2 result hresult, ?_,
    fun i node tokens _ => KVMapper.extendSequence_cold hoff i node tokens, ?_⟩
  · cases call with
    | prepare prompt => exact (KVMapper.prepareSequence_cold hoff prompt).1
    | setCellCount seqId count =>
      exact .same (congrArg LlamaMemory.calls (s.mapper.setSequenceCellCount_memory seqId count))
    | extend seqId node tokens =>
      rw [Call.apply, KVMapper.extendSequence_cold hoff]
      exact .same rfl
    | releaseSequence seqId node => exact s.mapper.releaseSequence_removed seqId node
    | gcIfNeeded =>
      simp only [Call.apply, KVMapper.gcIfNeeded]
      split
      · exact .same rfl
      · exact s.mapper.evictOne_removed
    | evictIdle => exact s.mapper.evictOne_removed
    | evictKvPressure => exact KVMapper.evictKvPressureLoop_removed _ s.mapper
    | decode | markReady | release => exact .same rfl
  · rintro i node rfl
    cases permitted_of_step hstep with
    | releaseSequence hc _ =>
      rename_i c
      obtain ⟨tree, hreleased⟩ := hbooks.releaseSequence_cold hoff hc
      rw [Call.apply, hreleased]
      refine ⟨List.mem_append_right _ List.mem_cons_self, ?_, Finset.notMem_erase _ _⟩
      rw [KVMapper.freeSequence_cells, if_pos rfl]

end RadixForge
