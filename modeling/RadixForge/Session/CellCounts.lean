import Mathlib.Algebra.BigOperators.Group.Finset.Basic
import RadixForge.Session.Capacity
import RadixForge.Session.Permits

/-!
# Recorded cell counts

A call changes the record and the cells of the sequence it is about; of the others it only frees
some. An idle sequence was trimmed and recorded when it was released, so its record is right from
then on.
-/

namespace RadixForge

open Library

/-- The sequence that a call is about. -/
def Call.subject? (m : KVMapper) : Call → Option SeqId
  | .prepare prompt => (m.prepareSequence prompt).2.toOption.map PrepareResult.seqId
  | .decode seqId _ _ => some seqId
  | .markReady seqId _ => some seqId
  | .setCellCount seqId _ => some seqId
  | .extend seqId _ _ => some seqId
  | .releaseSequence seqId _ => some seqId
  | _ => none

namespace KVMapper

/-- What is used is the sum of the records. -/
theorem kvCellsUsed_eq (m : KVMapper) :
    m.kvCellsUsed = ∑ i ∈ m.seqCellCounts.keys.toFinset, (m.seqCellCounts.lookup i).getD 0 := by
  have hfold : m.kvCellsUsed = (m.seqCellCounts.entries.map Sigma.snd).sum := by
    rw [kvCellsUsed, List.sum_eq_foldl, List.foldl_map]
  rw [List.sum_toFinset _ m.seqCellCounts.keys_nodup, hfold, AList.keys, List.keys, List.map_map]
  refine congrArg List.sum (List.map_congr_left fun entry hentry => ?_)
  have hlookup : m.seqCellCounts.lookup entry.1 = some entry.2 := AList.mem_lookup_iff.mpr hentry
  rw [Function.comp_apply, hlookup]
  rfl

/-- The record and the cells of a sequence stay. -/
structure Untouched (m m' : KVMapper) (i : SeqId) : Prop where
  count : m'.seqCellCounts.lookup i = m.seqCellCounts.lookup i
  cells : m'.memory.cells i = m.memory.cells i

/-- A sequence stays in the pool if it was there; otherwise it is freed or untouched. -/
structure Spares (m m' : KVMapper) (i : SeqId) : Prop where
  pooled : i ∈ m.freeSeqIds → i ∈ m'.freeSeqIds
  same : i ∈ m'.freeSeqIds ∨ m.Untouched m' i

variable {m m' m'' : KVMapper} {i : SeqId}

/-- A mapper that stays leaves every sequence untouched. -/
theorem Untouched.refl (m : KVMapper) (i : SeqId) : m.Untouched m i := ⟨rfl, rfl⟩

/-- With a pool that does not shrink, what is untouched is spared. -/
theorem Untouched.spares (h : m.Untouched m' i) (hfree : ∀ j ∈ m.freeSeqIds, j ∈ m'.freeSeqIds) :
    m.Spares m' i :=
  ⟨hfree i, .inr h⟩

/-- A mapper that stays spares every sequence. -/
theorem Spares.refl (m : KVMapper) (i : SeqId) : m.Spares m i := ⟨id, .inr (.refl m i)⟩

/-- Tree and metrics do not matter. -/
theorem Spares.recount {tree : RadixTree} {metrics metrics' : CacheMetrics}
    (h : Spares { m with tree := tree, metrics := metrics } m' i) :
    m.Spares { m' with metrics := metrics' } i :=
  ⟨h.pooled, h.same.imp_right fun hsame => ⟨hsame.count, hsame.cells⟩⟩

/-- A sequence that is spared twice is spared. -/
theorem Spares.trans (h : m.Spares m' i) (h' : m'.Spares m'' i) : m.Spares m'' i where
  pooled hi := h'.pooled (h.pooled hi)
  same := by
    rcases h'.same with hfree | ⟨hcount', hcells'⟩
    · exact .inl hfree
    · rcases h.same with hfree | ⟨hcount, hcells⟩
      · exact .inl (h'.pooled hfree)
      · exact .inr ⟨hcount'.trans hcount, hcells'.trans hcells⟩

/-- Freeing a sequence leaves the others untouched. -/
theorem freeSequence_untouched (m : KVMapper) {j : SeqId} (hne : i ≠ j) :
    m.Untouched (m.freeSequence j) i :=
  ⟨AList.lookup_erase_ne hne, by rw [freeSequence_cells, if_neg hne]⟩

/-- Freeing a sequence puts it into the pool, and leaves the others. -/
theorem freeSequence_spares (m : KVMapper) (j i : SeqId) : m.Spares (m.freeSequence j) i where
  pooled hi := List.mem_append_left _ hi
  same := by
    by_cases heq : i = j
    · exact .inl (List.mem_append_right _ (List.mem_singleton.mpr heq))
    · exact .inr (m.freeSequence_untouched heq)

/-- Freeing some sequences puts them into the pool, and leaves the others. -/
theorem foldl_freeSequence_spares (m : KVMapper) (ids : List SeqId) (i : SeqId) :
    m.Spares (ids.foldl freeSequence m) i := by
  induction ids generalizing m with
  | nil => exact .refl m i
  | cons j rest ih => exact (m.freeSequence_spares j i).trans (ih (m.freeSequence j))

/-- The search for something to evict spares every sequence. -/
theorem evictOneLoop_spares (fuel : ℕ) (m : KVMapper) (i : SeqId) :
    m.Spares (evictOneLoop fuel m).1 i := by
  induction fuel generalizing m with
  | zero => exact .refl m i
  | succ fuel ih =>
    unfold evictOneLoop
    split
    · exact .refl m i
    · rename_i node _ _
      simp only
      split
      · exact (ih { m with tree := (m.tree.evict node).1 }).recount
      · exact (foldl_freeSequence_spares { m with tree := (m.tree.evict node).1 }
          (m.tree.evict node).2 i).recount

/-- An eviction spares every sequence. -/
theorem evictOne_spares (m : KVMapper) (i : SeqId) : m.Spares m.evictOne.1 i :=
  evictOneLoop_spares _ m i

/-- The loop that relieves pressure spares every sequence. -/
theorem evictKvPressureLoop_spares (fuel : ℕ) (m : KVMapper) (i : SeqId) :
    m.Spares (evictKvPressureLoop fuel m) i := by
  induction fuel generalizing m with
  | zero => exact .refl m i
  | succ fuel ih =>
    have hone := m.evictOne_spares i
    unfold evictKvPressureLoop
    split
    · generalize m.evictOne = outcome at hone ⊢
      obtain ⟨m₁, evicted⟩ := outcome
      cases evicted with
      | false => exact hone
      | true => exact hone.trans (ih m₁)
    · exact .refl m i

/-- An allocation spares every sequence but the one it takes. -/
theorem allocateSeqId_spares (m : KVMapper) (hne : m.allocateSeqId.2 ≠ some i) :
    m.Spares m.allocateSeqId.1 i := by
  have hrefilled : m.Spares (if m.freeSeqIds = [] then m.evictOne.1 else m) i := by
    split
    · exact m.evictOne_spares i
    · exact .refl m i
  simp only [allocateSeqId] at hne ⊢
  generalize (if m.freeSeqIds = [] then m.evictOne.1 else m) = m₁ at hrefilled hne ⊢
  cases hfree : m₁.freeSeqIds with
  | nil => exact hrefilled
  | cons j rest =>
    simp only [hfree, ne_eq, Option.some.injEq] at hne
    refine hrefilled.trans ⟨fun hi => ?_, .inr ⟨rfl, rfl⟩⟩
    rw [hfree] at hi
    exact (List.mem_cons.mp hi).resolve_left (Ne.symm hne)

/-- A prefix is copied to the new sequence only. -/
theorem copyPrefix_cells_of_ne (m : KVMapper) (source : Option (SeqId × ℕ)) {newSeq : SeqId}
    (hne : i ≠ newSeq) (k : ℕ) :
    (m.copyPrefix source newSeq k).memory.cells i = m.memory.cells i := by
  unfold copyPrefix
  split
  · split
    · exact if_neg hne
    · rfl
  · rfl

/-- Binding a sequence spares the others. -/
theorem bindSequence_spares (m : KVMapper) (prompt : List Token) (found : PrefixMatch)
    {newSeq : SeqId} (hne : i ≠ newSeq) :
    m.Spares (m.bindSequence prompt found newSeq).1 i := by
  obtain ⟨_, _, hfree, hcounts, _⟩ :=
    m.copyPrefix_fields (m.copySource found) newSeq
      (cachedPosition prompt found (m.copySource found))
  refine Untouched.spares ⟨?_, m.copyPrefix_cells_of_ne _ hne _⟩ fun _ hj => hfree ▸ hj
  exact (AList.lookup_insert_ne hne).trans (congrArg (AList.lookup i) hcounts)

/-- A preparation spares every sequence but the one it binds. -/
theorem prepareSequence_spares (m : KVMapper) (prompt : List Token)
    (hne : (m.prepareSequence prompt).2.toOption.map PrepareResult.seqId ≠ some i) :
    m.Spares (m.prepareSequence prompt).1 i := by
  have hadmitted : m.Spares (m.admitPrompt prompt).1 i := by
    have hrelieved := evictKvPressureLoop_spares
      ((m.countRequest prompt).seqCellCounts.entries.length + 1)
      (m.countRequest prompt) i
    exact ⟨hrelieved.pooled, hrelieved.same.imp_right fun hsame => ⟨hsame.count, hsame.cells⟩⟩
  simp only [prepareSequence] at hne ⊢
  generalize m.admitPrompt prompt = admitted at hadmitted hne ⊢
  obtain ⟨m₁, found⟩ := admitted
  have hallocated := m₁.allocateSeqId_spares (i := i)
  simp only at hadmitted hne ⊢
  generalize m₁.allocateSeqId = allocated at hallocated hne ⊢
  obtain ⟨m₂, newSeq | newSeq⟩ := allocated
  · exact hadmitted.trans ((hallocated (Option.some_ne_none i).symm).trans ⟨id, .inr ⟨rfl, rfl⟩⟩)
  · have hi : i ≠ newSeq := fun heq => hne (congrArg some heq.symm)
    exact hadmitted.trans ((hallocated fun heq => hi (Option.some.inj heq).symm).trans
      (m₂.bindSequence_spares prompt found hi))

/-- A preparation succeeds if the pool is not empty. -/
theorem prepare_of_pool {m : KVMapper} (hfree : m.freeSeqIds ≠ []) (prompt : List Token) :
    ∃ result, (m.prepareSequence prompt).2 = .ok result := by
  obtain ⟨i, rest, hpool⟩ := List.exists_cons_of_ne_nil hfree
  refine m.prepare_of_free prompt (List.ne_nil_of_mem (a := i) ?_)
  refine (evictKvPressureLoop_spares _ (m.countRequest prompt) i).pooled ?_
  exact hpool ▸ List.mem_cons_self

/-- A new sequence is recorded with what it took from the cache. -/
theorem prepareSequence_recorded {m : KVMapper} {prompt : List Token} {result : PrepareResult}
    (h : (m.prepareSequence prompt).2 = .ok result) :
    (m.prepareSequence prompt).1.seqCellCounts.lookup result.seqId = some result.cachedPos := by
  simp only [prepareSequence] at h ⊢
  generalize m.admitPrompt prompt = admitted at h ⊢
  obtain ⟨m₁, found⟩ := admitted
  simp only at h ⊢
  generalize m₁.allocateSeqId = allocated at h ⊢
  obtain ⟨m₂, newSeq | newSeq⟩ := allocated
  · contradiction
  · simp only [Except.ok.injEq] at h ⊢
    rw [← h]
    exact AList.lookup_insert _

/-- A new count of cells leaves the other sequences untouched. -/
theorem setSequenceCellCount_untouched (m : KVMapper) {j : SeqId} (hne : i ≠ j) (count : ℕ) :
    m.Untouched (m.setSequenceCellCount j count) i := by
  unfold setSequenceCellCount
  split
  · exact ⟨AList.lookup_insert_ne hne, rfl⟩
  · exact .refl m i

/-- An extension leaves the other sequences untouched. -/
theorem extendSequence_untouched (m : KVMapper) {j : SeqId} (hne : i ≠ j) (node : NodeId)
    (tokens : List Token) :
    m.Untouched (m.extendSequence j node tokens).1 i := by
  unfold extendSequence
  split
  · exact .refl m i
  · have hset := setSequenceCellCount_untouched
      { m with tree := (m.tree.extendSeqId node j tokens tokens.length).1 } hne
      tokens.length
    exact ⟨hset.count, hset.cells⟩

/-- A release leaves the other sequences untouched. -/
theorem releaseSequence_untouched (m : KVMapper) {j : SeqId} (hne : i ≠ j) (node : NodeId) :
    m.Untouched (m.releaseSequence j node) i := by
  unfold releaseSequence
  simp only
  split
  · have hfreed := freeSequence_untouched
      { m with tree := (m.tree.releaseSeqId node j m.config.prefixCacheEnabled).1 } hne
    exact ⟨hfreed.count, hfreed.cells⟩
  · split
    · exact ⟨rfl, rfl⟩
    · split
      · exact ⟨AList.lookup_insert_ne hne, if_neg hne⟩
      · exact ⟨rfl, rfl⟩

/-- The pool does not shrink at the end of a sequence. -/
theorem mem_free_releaseSequence (m : KVMapper) (j : SeqId) (node : NodeId) :
    ∀ k ∈ m.freeSeqIds, k ∈ (m.releaseSequence j node).freeSeqIds := by
  intro k hk
  unfold releaseSequence
  simp only
  split
  · exact List.mem_append_left _ hk
  · split
    · exact hk
    · split <;> exact hk

/-- An extension leaves the pool. -/
theorem extendSequence_free (m : KVMapper) (j : SeqId) (node : NodeId) (tokens : List Token) :
    (m.extendSequence j node tokens).1.freeSeqIds = m.freeSeqIds := by
  unfold extendSequence
  split
  · rfl
  · simp only [setSequenceCellCount]
    split <;> rfl

/-- A new count of cells leaves the pool. -/
theorem setSequenceCellCount_free (m : KVMapper) (j : SeqId) (count : ℕ) :
    (m.setSequenceCellCount j count).freeSeqIds = m.freeSeqIds := by
  unfold setSequenceCellCount
  split <;> rfl

end KVMapper

/-- A call spares every sequence but the one it is about. -/
theorem Call.apply_spares (m : KVMapper) (call : Call) {i : SeqId}
    (hne : call.subject? m ≠ some i) :
    m.Spares (call.apply m) i := by
  have hother {j : SeqId} (hj : some j ≠ some i) : i ≠ j := fun heq => hj (congrArg some heq.symm)
  cases call with
  | prepare prompt => exact m.prepareSequence_spares prompt hne
  | decode seqId token pos =>
    exact KVMapper.Untouched.spares ⟨rfl, if_neg (hother hne)⟩ fun _ hj => hj
  | markReady seqId node =>
    exact KVMapper.Untouched.spares ⟨AList.lookup_insert_ne (hother hne), rfl⟩ fun _ hj => hj
  | setCellCount seqId cellCount =>
    exact (m.setSequenceCellCount_untouched (hother hne) cellCount).spares fun _ hj =>
      (m.setSequenceCellCount_free seqId cellCount).symm ▸ hj
  | extend seqId node tokens =>
    exact (m.extendSequence_untouched (hother hne) node tokens).spares fun _ hj =>
      (m.extendSequence_free seqId node tokens).symm ▸ hj
  | releaseSequence seqId node =>
    exact (m.releaseSequence_untouched (hother hne) node).spares
      (m.mem_free_releaseSequence seqId node)
  | release node => exact ⟨id, .inr ⟨rfl, rfl⟩⟩
  | gcIfNeeded =>
    simp only [apply, KVMapper.gcIfNeeded]
    split
    · exact .refl m i
    · exact m.evictOne_spares i
  | evictIdle => exact m.evictOne_spares i
  | evictKvPressure => exact m.evictKvPressureLoop_spares _ i

namespace Books

variable {s : Session} {path : NodeId → List Token} {idle : NodeId → Option SeqId}

/-- A recorded sequence is not in the pool. -/
theorem not_pooled (h : Books s path idle) {i : SeqId} (hi : i ∈ s.mapper.seqCellCounts) :
    i ∉ s.mapper.freeSeqIds := by
  intro hfree
  rcases (h.accounts.counts i).mp hi with hlive | ⟨n, hidle⟩
  · exact h.accounts.leases.free_held i hfree hlive
  · exact h.accounts.leases.free_idle i hfree n hidle

/-- The record of a released sequence that is kept is the number of its cells. -/
theorem releaseSequence_recorded (h : Books s path idle) {c : Client} (hc : c ∈ s.live) {k : ℕ}
    (hlookup : (s.mapper.releaseSequence c.seqId c.owner).seqCellCounts.lookup c.seqId = some k) :
    k = ((s.mapper.releaseSequence c.seqId c.owner).memory.cells c.seqId).length := by
  have hmem := h.placement.mem_owner hc
  have hspec := h.placement.shape.releaseSeqId_spec hmem s.mapper.config.prefixCacheEnabled
  split at hspec
  · rename_i hretain
    obtain ⟨_, hready, hsize⟩ := hretain
    have hsole : ∀ i ∈ (s.mapper.tree.data c.owner).seqIds, i = c.seqId := fun i hi =>
      OrderedSet.eq_of_size_le_one hsize hi hmem
    have hcready : c.ready = true := by
      rcases (h.placement.registers.readied _ _).mp hready with ⟨d, hd, _, hseq, hdready⟩ | hidle
      · exact client_unique h.accounts.nodup hd hc hseq ▸ hdready
      · exact absurd hidle (h.accounts.not_idle hc _)
    have hcovering := h.placement.covering_of_sole hready hsole
    have hsound := h.contents.clients c hc
    have hlong := (hsound.ready hcready).2.2.length_le
    simp only [KVMapper.releaseSequence, hspec, Bool.false_eq_true, if_false, hcovering, if_true,
      AList.lookup_insert, Option.some.injEq] at hlookup ⊢
    simp only [LlamaMemory.seqRm_cells, if_true, hsound.cells, LlamaMemory.tape_filter_not_inRange,
      LlamaMemory.tape_length, List.length_take, min_eq_left hlong]
    exact hlookup.symm
  · obtain ⟨hfreed, _⟩ := hspec
    simp only [KVMapper.releaseSequence, hfreed, if_true, KVMapper.freeSequence,
      AList.lookup_erase] at hlookup
    contradiction

end Books

/-- The records of the sequences that no client owns are the numbers of their cells. -/
def Session.IdleRecorded (s : Session) : Prop :=
  ∀ i k, s.mapper.seqCellCounts.lookup i = some k → i ∉ s.live.map Client.seqId →
    k = (s.mapper.memory.cells i).length

/-- A call keeps the records of idle sequences right. -/
theorem Session.step_idleRecorded {s s' : Session} {call : Call} (hs : s.Sound) (hs' : s'.Sound)
    (h : s.IdleRecorded) (hstep : s.step call = some s') : s'.IdleRecorded := by
  intro i k hlookup hlive
  have hmapper := step_mapper hstep
  by_cases hsubject : call.subject? s.mapper = some i
  · have hkept {live : List Client} (hids : live.map Client.seqId = s.live.map Client.seqId)
        {c : Client} (hc : c ∈ s.live)
        (hi : c.seqId = i) : i ∈ live.map Client.seqId := by
      rw [hids, ← hi]
      exact List.mem_map_of_mem hc
    obtain ⟨_, _, hbooks⟩ := hs
    cases permitted_of_step hstep with
    | prepare _ hprepare =>
      simp only [Call.subject?, hprepare, Except.toOption, Option.map_some,
        Option.some.injEq] at hsubject
      exact absurd (List.mem_cons.mpr (.inl hsubject.symm)) hlive
    | exhausted _ hprepare => simp [Call.subject?, hprepare, Except.toOption] at hsubject
    | decode _ hc _ =>
      exact (hlive (hkept (map_seqId_change fun _ => rfl) hc (Option.some.inj hsubject))).elim
    | markReady _ hc _ _ =>
      exact (hlive (hkept (map_seqId_change fun _ => rfl) hc (Option.some.inj hsubject))).elim
    | setCellCount _ hc => exact absurd (Option.some.inj hsubject ▸ List.mem_map_of_mem hc) hlive
    | extend _ hc _ =>
      exact (hlive (hkept (map_seqId_change fun _ => rfl) hc (Option.some.inj hsubject))).elim
    | releaseSequence hc _ =>
      obtain rfl := Option.some.inj hsubject
      exact hbooks.releaseSequence_recorded hc hlookup
    | release | gcIfNeeded | evictIdle | evictKvPressure =>
      exact absurd hsubject (Option.some_ne_none i).symm
  · have hspares := call.apply_spares s.mapper hsubject
    rw [← hmapper] at hspares
    obtain ⟨_, _, hbooks'⟩ := hs'
    have hrecorded : i ∈ s'.mapper.seqCellCounts := AList.lookup_isSome.mp (by rw [hlookup]; rfl)
    obtain ⟨hcount, hcells⟩ := hspares.same.resolve_left (hbooks'.not_pooled hrecorded)
    rw [hcells]
    refine h i k (hcount ▸ hlookup) fun hold => hlive ?_
    obtain ⟨c, hc, rfl⟩ := List.mem_map.mp hold
    obtain ⟨d, hd, hseq, _⟩ :=
      step_keeps_client hstep hc (fun node tokens heq => hsubject (heq ▸ rfl))
      fun node heq => hsubject (heq ▸ rfl)
    exact List.mem_map.mpr ⟨d, hd, hseq⟩

/-- The records of idle sequences are right in every reachable state. -/
theorem Session.run_idleRecorded {config : Config} {order : ChildOrder} {s : Session}
    {calls : List Call} (hrun : (Session.init config order).Run calls s) : s.IdleRecorded := by
  have hboth : s.Sound ∧ s.IdleRecorded := by
    refine run_invariant (P := fun s => s.Sound ∧ s.IdleRecorded) (fun s call s' h hstep => ?_)
      ⟨init_sound config order, fun i k hlookup => ?_⟩ hrun
    · have hsound := step_sound h.1 hstep
      exact ⟨hsound, step_idleRecorded h.1 hsound h.2 hstep⟩
    · simp [init, KVMapper.init] at hlookup
  exact hboth.2

end RadixForge
