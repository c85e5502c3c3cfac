import RadixForge.Session.Invariant
import RadixForge.Tree.Restoring

/-!
# Preparations that fail

A preparation that finds no sequence id and evicted nothing inserts its prompt and gives the
reference back. Pool, counts, retained ids, memory and the data of every node are as before. The
inspections are as before exactly if the prompt does not leave the run of a node that owns sequences
and does not follow a dead node to its end.
-/

namespace RadixForge

open Library

/-- Two mappers agree up to access ticks and the counters of requests. -/
structure KVMapper.Restored (m m' : KVMapper) : Prop where
  free : m'.freeSeqIds = m.freeSeqIds
  counts : m'.seqCellCounts = m.seqCellCounts
  retained : m'.retainedSeqIds = m.retainedSeqIds
  memory : m'.memory = m.memory
  counters : m'.metrics = { m.metrics with totalRequests := m'.metrics.totalRequests
                                           promptTokens := m'.metrics.promptTokens }
  data : ∀ n, m.tree.Alive n → m'.tree.Alive n → m'.tree.data n = m.tree.data n
  inspections : ∀ tokens, m'.inspectPrefix tokens = m.inspectPrefix tokens

namespace KVMapper

variable {m : KVMapper} {path : NodeId → List Token}

/-- Freeing sequences counts nothing. -/
@[simp] theorem foldl_freeSequence_metrics (m : KVMapper) (ids : List SeqId) :
    (ids.foldl freeSequence m).metrics = m.metrics := by
  induction ids generalizing m with
  | nil => rfl
  | cons i rest ih => exact ih (m.freeSequence i)

/-- An eviction is counted. -/
theorem evictOneLoop_evictions (fuel : ℕ) (m : KVMapper) :
    m.metrics.evictions ≤ (evictOneLoop fuel m).1.metrics.evictions ∧
      ((evictOneLoop fuel m).2 = true →
        m.metrics.evictions < (evictOneLoop fuel m).1.metrics.evictions) := by
  induction fuel generalizing m with
  | zero => exact ⟨le_rfl, fun h => absurd h Bool.false_ne_true⟩
  | succ fuel ih =>
    unfold evictOneLoop
    split
    · exact ⟨le_rfl, fun h => absurd h Bool.false_ne_true⟩
    · rename_i node _ _
      simp only
      split
      · exact ih { m with tree := (m.tree.evict node).1 }
      · rename_i hsome
        have hpos := List.length_pos_iff.mpr hsome
        simp only [foldl_freeSequence_metrics]
        exact ⟨Nat.le_add_right _ _, fun _ => Nat.lt_add_of_pos_right hpos⟩

/-- The relief of pressure only adds to the evictions. -/
theorem evictKvPressureLoop_evictions (fuel : ℕ) (m : KVMapper) :
    m.metrics.evictions ≤ (evictKvPressureLoop fuel m).metrics.evictions := by
  induction fuel generalizing m with
  | zero => exact le_rfl
  | succ fuel ih =>
    have hone := (evictOneLoop_evictions (m.tree.nextId + 1) m).1
    unfold evictKvPressureLoop
    split
    · unfold evictOne
      generalize evictOneLoop (m.tree.nextId + 1) m = outcome at hone ⊢
      obtain ⟨m₁, evicted⟩ := outcome
      cases evicted with
      | false => exact hone
      | true => exact hone.trans (ih m₁)
    · exact le_rfl

/-- An eviction that counted nothing did nothing. -/
theorem evictOne_idle (h : Shape m.tree path) (hcoherent : m.tree.Coherent)
    (hkept : m.evictOne.1.metrics.evictions ≤ m.metrics.evictions) : m.evictOne = (m, false) := by
  rcases evictOne_cases h hcoherent with ⟨hnone, _⟩ | ⟨n, _, hevicted⟩
  · exact hnone
  · have hcounted := (evictOneLoop_evictions (m.tree.nextId + 1) m).2
    change m.evictOne.2 = true → m.metrics.evictions < m.evictOne.1.metrics.evictions at hcounted
    exact absurd hkept (not_le.mpr (hcounted (by rw [hevicted])))

/-- Relieving the memory pressure did nothing if it counted nothing. -/
theorem evictKvPressure_idle (h : Shape m.tree path) (hcoherent : m.tree.Coherent)
    (hkept : m.evictKvPressure.metrics.evictions ≤ m.metrics.evictions) :
    m.evictKvPressure = m := by
  unfold evictKvPressure evictKvPressureLoop at hkept ⊢
  split
  · rename_i hhigh
    rw [if_pos hhigh] at hkept
    have hone : m.evictOne = (m, false) := by
      refine evictOne_idle h hcoherent ?_
      generalize m.evictOne = outcome at hkept ⊢
      obtain ⟨m₁, evicted⟩ := outcome
      cases evicted with
      | false => exact hkept
      | true => exact (evictKvPressureLoop_evictions _ m₁).trans hkept
    rw [hone]
  · rfl

/-- Binding a sequence evicts nothing. -/
theorem bindSequence_evictions (m : KVMapper) (prompt : List Token) (found : PrefixMatch)
    (newSeq : SeqId) :
    (m.bindSequence prompt found newSeq).1.metrics.evictions = m.metrics.evictions := by
  simp only [bindSequence, copyPrefix]
  split
  · split <;> rfl
  · rfl

/-- An allocation changes the counter of evictions as the eviction for an empty pool does. -/
theorem allocateSeqId_evictions (m : KVMapper) : m.allocateSeqId.1.metrics.evictions =
    (if m.freeSeqIds = [] then m.evictOne.1 else m).metrics.evictions := by
  simp only [allocateSeqId]
  generalize (if m.freeSeqIds = [] then m.evictOne.1 else m) = m'
  cases m'.freeSeqIds <;> rfl

/-- A preparation counts what its allocation counted. -/
theorem prepareSequence_evictions (m : KVMapper) (prompt : List Token) :
    (m.prepareSequence prompt).1.metrics.evictions =
      (m.admitPrompt prompt).1.allocateSeqId.1.metrics.evictions := by
  simp only [prepareSequence]
  generalize (m.admitPrompt prompt).1.allocateSeqId = allocated
  obtain ⟨m', newSeq | newSeq⟩ := allocated
  · rfl
  · exact bindSequence_evictions m' prompt (m.admitPrompt prompt).2 newSeq

/-- A preparation that evicted nothing inserts its prompt and takes an id of the pool if it has one.
-/
theorem prepare_undisturbed (h : Shape m.tree path) (hcoherent : m.tree.Coherent)
    (prompt : List Token)
    (hkept : (m.prepareSequence prompt).1.metrics.evictions = m.metrics.evictions) :
    m.admitPrompt prompt = ({ m.countRequest prompt with tree := (m.tree.insert prompt).1 },
      (m.tree.insert prompt).2) ∧
      (m.admitPrompt prompt).1.allocateSeqId = match m.freeSeqIds with
        | [] => ((m.admitPrompt prompt).1, none)
        | i :: rest => ({ (m.admitPrompt prompt).1 with freeSeqIds := rest }, some i) := by
  rw [prepareSequence_evictions, allocateSeqId_evictions] at hkept
  have hpressure := evictKvPressureLoop_evictions
    ((m.countRequest prompt).seqCellCounts.entries.length + 1)
    (m.countRequest prompt)
  have hone :=
    (evictOneLoop_evictions ((m.admitPrompt prompt).1.tree.nextId + 1) (m.admitPrompt prompt).1).1
  change m.metrics.evictions ≤ (m.admitPrompt prompt).1.metrics.evictions at hpressure
  change (m.admitPrompt prompt).1.metrics.evictions ≤
    (m.admitPrompt prompt).1.evictOne.1.metrics.evictions at hone
  have hadmitted : m.admitPrompt prompt =
      ({ m.countRequest prompt with tree := (m.tree.insert prompt).1 },
        (m.tree.insert prompt).2) := by
    have hidle : (m.countRequest prompt).evictKvPressure = m.countRequest prompt := by
      refine evictKvPressure_idle (m := m.countRequest prompt) h hcoherent (le_of_le_of_eq ?_ hkept)
      split
      · exact hone
      · exact le_rfl
    simp only [admitPrompt, hidle]
    rfl
  refine ⟨hadmitted, ?_⟩
  rw [hadmitted] at hkept ⊢
  cases hfree : m.freeSeqIds with
  | nil =>
    obtain ⟨path', hinserted⟩ := insert_spec h prompt
    rw [if_pos (show (m.countRequest prompt).freeSeqIds = [] from hfree)] at hkept
    have hidle := evictOne_idle
      (m := { m.countRequest prompt with tree := (m.tree.insert prompt).1 }) hinserted.shape
      (hcoherent.update (hcoherent _).hold hinserted.data) hkept.le
    simp only [allocateSeqId,
      if_pos (show (m.countRequest prompt).freeSeqIds = [] from hfree), hidle]
    rw [show (m.countRequest prompt).freeSeqIds = [] from hfree]
  | cons i rest => exact allocateSeqId_of_free hfree

/-- A failed preparation that evicted nothing inserted its prompt and gave the reference back. -/
theorem prepare_withdraws (h : Shape m.tree path) (hcoherent : m.tree.Coherent)
    {prompt : List Token} {m' : KVMapper} {e : SequenceCapacityExhausted}
    (hprepare : m.prepareSequence prompt = (m', .error e))
    (hkept : m'.metrics.evictions = m.metrics.evictions) :
    m' = { m.countRequest prompt with tree := m.tree.withdraw prompt } := by
  obtain ⟨hadmitted, hallocate⟩ :=
    prepare_undisturbed h hcoherent prompt (by rw [hprepare]; exact hkept)
  simp only [prepareSequence, hallocate] at hprepare
  cases hfree : m.freeSeqIds with
  | nil =>
    simp only [hfree, hadmitted, Prod.mk.injEq] at hprepare
    exact hprepare.1.symm
  | cons i rest => simp [hfree] at hprepare

/-- A successful preparation that evicted nothing binds the first id of the pool to the inserted
prompt. -/
theorem prepare_binds (h : Shape m.tree path) (hcoherent : m.tree.Coherent) {prompt : List Token}
    {m' : KVMapper} {result : PrepareResult}
    (hprepare : m.prepareSequence prompt = (m', .ok result))
    (hkept : m'.metrics.evictions = m.metrics.evictions) :
    ∃ i rest, m.freeSeqIds = i :: rest ∧ ({ m.countRequest prompt with
      tree := (m.tree.insert prompt).1
      freeSeqIds := rest } : KVMapper).bindSequence prompt (m.tree.insert prompt).2 i =
        (m', result) := by
  obtain ⟨hadmitted, hallocate⟩ :=
    prepare_undisturbed h hcoherent prompt (by rw [hprepare]; exact hkept)
  simp only [prepareSequence, hallocate] at hprepare
  cases hfree : m.freeSeqIds with
  | nil => simp [hfree] at hprepare
  | cons i rest =>
    simp only [hfree, hadmitted, Prod.mk.injEq, Except.ok.injEq] at hprepare
    exact ⟨i, rest, rfl, Prod.ext hprepare.1 hprepare.2⟩

end KVMapper

/-- A failed preparation that evicted nothing restores the mapper exactly if the prompt does not
leave the run of a node that owns sequences and does not follow a dead node to its end. -/
theorem failed_prepare_restores_iff (config : Config) (order : ChildOrder) (calls : List Call)
    (s : Session) (hrun : (Session.init config order).Run calls s) (prompt : List Token)
    (m : KVMapper) (e : SequenceCapacityExhausted)
    (hprepare : s.mapper.prepareSequence prompt = (m, .error e))
    (hkept : m.metrics.evictions = s.mapper.metrics.evictions) :
    s.mapper.Restored m ↔ ¬ s.mapper.tree.CutsOwner prompt ∧
      ¬ s.mapper.tree.FollowsDead prompt := by
  obtain ⟨path, idle, h⟩ := Session.run_sound hrun
  obtain ⟨hdata, hsame⟩ :=
    h.placement.shape.withdraw_spec h.placement.coherent h.placement.canonical prompt
  rw [KVMapper.prepare_withdraws h.placement.shape h.placement.coherent hprepare hkept, ← hsame]
  constructor
  · exact fun hrestored => hrestored.inspections
  · exact fun hinspections => ⟨rfl, rfl, rfl, rfl, rfl, fun n _ _ => congrFun hdata n, hinspections⟩

/-- A prompt that has nothing in common with the live one. -/
theorem failed_prepare_restores_disjoint : ∃ s m e,
    (Session.init ⟨2, 64, true⟩ .stored).Run [.prepare [1, 2]] s ∧
      s.mapper.prepareSequence [3] = (m, .error e) ∧
      m.metrics.evictions = s.mapper.metrics.evictions ∧
      (s.mapper.Restored m ↔ ¬ s.mapper.tree.CutsOwner [3] ∧ ¬ s.mapper.tree.FollowsDead [3]) := by
  have hrun : (run Session.step (Session.init ⟨2, 64, true⟩ .stored) [.prepare [1, 2]]).any
      (fun s =>
      (s.mapper.prepareSequence [3]).2.toOption.isNone ∧
        (s.mapper.prepareSequence [3]).1.metrics.evictions = s.mapper.metrics.evictions) =
          true := by decide +kernel
  obtain ⟨s, hs, hcond⟩ := (Option.any_eq_true _ _).mp hrun
  obtain ⟨hnone, hkept⟩ := of_decide_eq_true hcond
  generalize hprepare : s.mapper.prepareSequence [3] = outcome at hnone hkept
  obtain ⟨m, e | result⟩ := outcome
  · exact ⟨s, m, e, hs, hprepare, hkept,
      failed_prepare_restores_iff _ _ _ s hs [3] m e hprepare hkept⟩
  · simp [Except.toOption] at hnone

/-- A failed prompt that branches off inside a ready one leaves the split behind: three ready tokens
become one. -/
theorem failed_prepare_hides_ready_tokens :
    ¬ ∀ (config : Config) (order : ChildOrder) (calls : List Call) (s : Session),
    (Session.init config order).Run calls s →
    ∀ (prompt : List Token) (m : KVMapper) (e : SequenceCapacityExhausted),
      s.mapper.prepareSequence prompt = (m, .error e) →
      m.metrics.evictions = s.mapper.metrics.evictions →
        s.mapper.Restored m := by
  intro hall
  have hrun : (run Session.step (Session.init ⟨2, 64, true⟩ .stored) [.prepare [1, 2, 3],
      .decode 1 1 0, .decode 1 2 1, .decode 1 3 2, .markReady 1 1]).any
        (fun s => (s.mapper.prepareSequence [1, 9]).2.toOption.isNone ∧
        (s.mapper.prepareSequence [1, 9]).1.metrics.evictions = s.mapper.metrics.evictions ∧
        (s.mapper.inspectPrefix [1, 2, 3]).readyTokens = 3 ∧
        ((s.mapper.prepareSequence [1, 9]).1.inspectPrefix [1, 2, 3]).readyTokens = 1) = true := by
          decide +kernel
  obtain ⟨s, hs, hcond⟩ := (Option.any_eq_true _ _).mp hrun
  obtain ⟨hnone, hkept, hbefore, hafter⟩ := of_decide_eq_true hcond
  generalize hprepare : s.mapper.prepareSequence [1, 9] = outcome at hnone hkept hafter
  obtain ⟨m, e | result⟩ := outcome
  · have hrestored := hall _ _ _ s hs [1, 9] m e hprepare hkept
    rw [hrestored.inspections, hbefore] at hafter
    contradiction
  · simp [Except.toOption] at hnone

end RadixForge
