import Mathlib.Data.Finset.Card
import RadixForge.Mapper.Memory
import RadixForge.Tree.Sequences

/-!
# The mapper from tree nodes to physical sequences

`kv_mapper.cpp`: the pool of sequence ids, the recorded cell counts, the retained ids and the
operations the worker calls. The floating-point watermark enters as the integer the source
casts it to. The only exception raised after `insert` is the exhausted pool, thrown before an
id is taken; the part of the handler that returns an id to the pool serves allocation failures
of the C++ runtime, which have no counterpart here.
-/

namespace RadixForge

open Library

/-- The configuration read by the mapper. -/
structure Config where
  /-- `max_sequences`; id 0 is reserved. -/
  maxSequences : ℕ
  /-- `n_ctx` times `kv_high_watermark`, truncated to an integer. -/
  highWatermark : ℕ
  prefixCacheEnabled : Bool
deriving DecidableEq

/-- Cache performance counters. -/
structure CacheMetrics where
  hits : ℕ := 0
  misses : ℕ := 0
  evictions : ℕ := 0
  totalRequests : ℕ := 0
  cacheHitTokens : ℕ := 0
  promptTokens : ℕ := 0
deriving DecidableEq

/-- The exception of an exhausted sequence pool. -/
structure SequenceCapacityExhausted where
  what : String

/-- A prepared sequence: its id, the cached positions, the tokens still to decode and its node. -/
structure PrepareResult where
  seqId : SeqId
  cachedPos : ℕ
  delta : List Token
  leafNode : NodeId
deriving DecidableEq

/-- The mapper with the tree and the memory it drives. -/
structure KVMapper where
  config : Config
  tree : RadixTree
  memory : LlamaMemory
  freeSeqIds : List SeqId
  seqCellCounts : AList (fun _ : SeqId => ℕ)
  retainedSeqIds : Finset SeqId
  metrics : CacheMetrics

namespace KVMapper

/-- A mapper over an empty tree and a fresh context; ids from 1 on are free. -/
def init (config : Config) (order : ChildOrder) : KVMapper where
  config := config
  tree := .init order
  memory := .init
  freeSeqIds := List.range' 1 (config.maxSequences - 1)
  seqCellCounts := ∅
  retainedSeqIds := ∅
  metrics := {}

/-- Clear a sequence and return its id to the pool. -/
def freeSequence (m : KVMapper) (seqId : SeqId) : KVMapper :=
  { m with
    memory := m.memory.seqRm seqId 0 (-1)
    freeSeqIds := m.freeSeqIds ++ [seqId]
    seqCellCounts := m.seqCellCounts.erase seqId
    retainedSeqIds := m.retainedSeqIds.erase seqId }

/-- The loop of `evict_one_locked`; it repeats only if a candidate turns out to own nothing. -/
def evictOneLoop : ℕ → KVMapper → KVMapper × Bool
  | 0, m => (m, false)
  | fuel + 1, m =>
    match m.tree.findEvictionCandidates 1 with
    | [] => (m, false)
    | node :: _ =>
      let (tree, evicted) := m.tree.evict node
      let m := { m with tree := tree }
      if evicted = [] then evictOneLoop fuel m
      else
        let m := evicted.foldl freeSequence m
        ({ m with metrics := { m.metrics with evictions := m.metrics.evictions + evicted.length } },
          true)

/-- `evict_one_locked`. -/
def evictOne (m : KVMapper) : KVMapper × Bool := evictOneLoop (m.tree.nextId + 1) m

/-- `kv_cells_used`. -/
def kvCellsUsed (m : KVMapper) : ℕ :=
  m.seqCellCounts.entries.foldl (fun total entry => total + entry.2) 0

/-- The loop of `evict_kv_pressure_locked`. -/
def evictKvPressureLoop : ℕ → KVMapper → KVMapper
  | 0, m => m
  | fuel + 1, m =>
    if m.config.highWatermark < m.kvCellsUsed then
      match m.evictOne with
      | (m, true) => evictKvPressureLoop fuel m
      | (m, false) => m
    else m

/-- `evict_kv_pressure`; each eviction removes at least one recorded sequence. -/
def evictKvPressure (m : KVMapper) : KVMapper :=
  evictKvPressureLoop (m.seqCellCounts.entries.length + 1) m

/-- `evict_idle_sequence`. -/
def evictIdleSequence (m : KVMapper) : KVMapper × Bool := m.evictOne

/-- `gc_if_needed`. -/
def gcIfNeeded (m : KVMapper) : KVMapper := if m.freeSeqIds ≠ [] then m else m.evictOne.1

/-- `allocate_seq_id_locked`: evict if the pool is empty, then take the first free id. -/
def allocateSeqId (m : KVMapper) : KVMapper × Option SeqId :=
  let m := if m.freeSeqIds = [] then m.evictOne.1 else m
  match m.freeSeqIds with
  | [] => (m, none)
  | id :: rest => ({ m with freeSeqIds := rest }, some id)

/-- The ready sequence to copy from, looked up only with the cache enabled and a nonempty match. -/
def copySource (m : KVMapper) (found : PrefixMatch) : Option (SeqId × ℕ) :=
  if m.config.prefixCacheEnabled ∧ 0 < found.matchedTokens then m.tree.findCoveringSeqId
    found.cacheNode else none

/-- Positions taken over from the source: never the last one of the prompt. -/
def cachedPosition (promptTokens : List Token) (found : PrefixMatch) (source : Option (SeqId × ℕ)) :
    ℕ :=
  let cachedPos := match source with
    | some (_, sourceLen) => min found.matchedTokens sourceLen
    | none => 0
  if promptTokens ≠ [] ∧ cachedPos = promptTokens.length then cachedPos - 1 else cachedPos

/-- Copy the cached prefix and count the hit, or count the miss. -/
def copyPrefix (m : KVMapper) (source : Option (SeqId × ℕ)) (newSeq : SeqId) (cachedPos : ℕ) :
    KVMapper :=
  match source with
  | some (srcSeq, _) =>
    if 0 < cachedPos then
      { m with
        memory := m.memory.seqCp srcSeq newSeq 0 cachedPos
        metrics := { m.metrics with hits := m.metrics.hits + 1
                                    cacheHitTokens := m.metrics.cacheHitTokens + cachedPos } }
    else { m with metrics := { m.metrics with misses := m.metrics.misses + 1 } }
  | none => { m with metrics := { m.metrics with misses := m.metrics.misses + 1 } }

/-- Count the request and its tokens. -/
def countRequest (m : KVMapper) (promptTokens : List Token) : KVMapper :=
  { m with metrics := { m.metrics with totalRequests := m.metrics.totalRequests + 1
                                       promptTokens := m.metrics.promptTokens +
                                         promptTokens.length } }

/-- Count the request and insert its prompt after relieving the memory pressure. -/
def admitPrompt (m : KVMapper) (promptTokens : List Token) : KVMapper × PrefixMatch :=
  let m := (m.countRequest promptTokens).evictKvPressure
  let (tree, found) := m.tree.insert promptTokens
  ({ m with tree := tree }, found)

/-- Bind an allocated id to the prompt's node: copy the cached prefix and register as pending. -/
def bindSequence (m : KVMapper) (promptTokens : List Token) (found : PrefixMatch) (newSeq : SeqId) :
    KVMapper × PrepareResult :=
  let source := m.copySource found
  let cachedPos := cachedPosition promptTokens found source
  let m := m.copyPrefix source newSeq cachedPos
  ({ m with
     tree := m.tree.registerSeqId found.node newSeq promptTokens.length
     seqCellCounts := m.seqCellCounts.insert newSeq cachedPos
     retainedSeqIds := m.retainedSeqIds.erase newSeq },
   { seqId := newSeq, cachedPos := cachedPos, delta := promptTokens.drop cachedPos,
     leafNode := found.node })

/-- `prepare_sequence`. An exhausted pool gives back the reference taken by `insert`. -/
def prepareSequence (m : KVMapper) (promptTokens : List Token) :
    KVMapper × Except SequenceCapacityExhausted PrepareResult :=
  let (m, found) := m.admitPrompt promptTokens
  match m.allocateSeqId with
  | (m, none) =>
    ({ m with tree := m.tree.release found.node },
      .error ⟨"No free seq_ids available after eviction"⟩)
  | (m, some newSeq) =>
    let (m, result) := m.bindSequence promptTokens found newSeq
    (m, .ok result)

/-- `mark_sequence_ready`, which also records the node's canonical length as the cell count. -/
def markSequenceReady (m : KVMapper) (seqId : SeqId) (node : NodeId) : KVMapper :=
  let tree := m.tree.markSeqIdReady node seqId
  { m with tree := tree
           seqCellCounts := m.seqCellCounts.insert seqId
             (tree.field node RadixNode.canonicalLen 0) }

/-- `set_sequence_cell_count`. -/
def setSequenceCellCount (m : KVMapper) (seqId : SeqId) (cellCount : ℕ) : KVMapper :=
  if seqId ∈ m.seqCellCounts then { m with seqCellCounts := m.seqCellCounts.insert seqId cellCount }
    else m

/-- `extend_sequence`: the returned node owns the sequence. -/
def extendSequence (m : KVMapper) (seqId : SeqId) (node : NodeId) (tokens : List Token) :
    KVMapper × NodeId :=
  if !m.config.prefixCacheEnabled then (m, node)
  else
    let (tree, extended) := m.tree.extendSeqId node seqId tokens tokens.length
    ({ m with tree := tree }.setSequenceCellCount seqId tokens.length, extended)

/-- `inspect_prefix`. -/
def inspectPrefix (m : KVMapper) (promptTokens : List Token) : PrefixAvailability :=
  m.tree.inspectPrefix promptTokens

/-- `release_sequence`: free the sequence, or trim it and keep it as the node's canonical cache. -/
def releaseSequence (m : KVMapper) (seqId : SeqId) (node : NodeId) : KVMapper :=
  let (tree, shouldFree) := m.tree.releaseSeqId node seqId m.config.prefixCacheEnabled
  let m := { m with tree := tree }
  if shouldFree then m.freeSequence seqId
  else
    match m.tree.findCoveringSeqId node with
    | none => m
    | some (covering, canonicalLen) =>
      if covering = seqId then
        { m with memory := m.memory.seqRm seqId canonicalLen (-1)
                 seqCellCounts := m.seqCellCounts.insert seqId canonicalLen
                 retainedSeqIds := insert seqId m.retainedSeqIds }
      else m

/-- `RadixTree::release` on the mapper's tree. -/
def releaseNode (m : KVMapper) (node : NodeId) : KVMapper := { m with tree := m.tree.release node }

/-- `active_sequence_count`, a difference of two container sizes. -/
def activeSequenceCount (m : KVMapper) : ℤ := m.seqCellCounts.entries.length - m.retainedSeqIds.card

/-- Freeing sequences leaves the configuration. -/
@[simp] theorem foldl_freeSequence_config (m : KVMapper) (ids : List SeqId) :
    (ids.foldl freeSequence m).config = m.config := by
  induction ids generalizing m with
  | nil => rfl
  | cons i rest ih => exact ih (m.freeSequence i)

/-- The search for something to evict leaves the configuration. -/
theorem evictOneLoop_config (fuel : ℕ) (m : KVMapper) :
    (evictOneLoop fuel m).1.config = m.config := by
  induction fuel generalizing m with
  | zero => rfl
  | succ fuel ih =>
    unfold evictOneLoop
    split
    · rfl
    · simp only
      split
      · rw [ih]
      · simp only [foldl_freeSequence_config]

/-- An eviction leaves the configuration. -/
@[simp] theorem evictOne_config (m : KVMapper) : m.evictOne.1.config = m.config :=
  evictOneLoop_config _ m

/-- The relief of pressure leaves the configuration. -/
@[simp] theorem evictKvPressure_config (m : KVMapper) : m.evictKvPressure.config = m.config := by
  unfold evictKvPressure
  generalize m.seqCellCounts.entries.length + 1 = fuel
  induction fuel generalizing m with
  | zero => rfl
  | succ fuel ih =>
    have hone := evictOne_config m
    unfold evictKvPressureLoop
    split
    · generalize m.evictOne = outcome at hone
      obtain ⟨m', evicted⟩ := outcome
      cases evicted with
      | false => exact hone
      | true => exact (ih m').trans hone
    · rfl

/-- A free sequence is taken from the front of the pool. -/
theorem allocateSeqId_of_free {m : KVMapper} {i : SeqId} {rest : List SeqId}
    (h : m.freeSeqIds = i :: rest) :
    m.allocateSeqId = ({ m with freeSeqIds := rest }, some i) := by
  simp [allocateSeqId, h]

/-- An empty pool is served by what one eviction frees. -/
theorem allocateSeqId_of_empty {m : KVMapper} (h : m.freeSeqIds = []) :
    m.allocateSeqId = match m.evictOne.1.freeSeqIds with
      | [] => (m.evictOne.1, none)
      | i :: rest => ({ m.evictOne.1 with freeSeqIds := rest }, some i) := by
  simp only [allocateSeqId, if_pos h]

/-- Taking a sequence leaves the configuration. -/
@[simp] theorem allocateSeqId_config (m : KVMapper) : m.allocateSeqId.1.config = m.config := by
  unfold allocateSeqId
  simp only
  have hrefill : (if m.freeSeqIds = [] then m.evictOne.1 else m).config = m.config := by
    split
    · exact evictOne_config m
    · rfl
  generalize (if m.freeSeqIds = [] then m.evictOne.1 else m) = m' at hrefill ⊢
  split <;> exact hrefill

/-- Copying a prefix leaves the configuration. -/
@[simp] theorem copyPrefix_config (m : KVMapper) (source : Option (SeqId × ℕ)) (i : SeqId) (k : ℕ) :
    (m.copyPrefix source i k).config = m.config := by
  unfold copyPrefix
  split
  · split <;> rfl
  · rfl

/-- A preparation leaves the configuration. -/
@[simp] theorem prepareSequence_config (m : KVMapper) (prompt : List Token) :
    (m.prepareSequence prompt).1.config = m.config := by
  have hadmit : (m.admitPrompt prompt).1.config = m.config := evictKvPressure_config _
  unfold prepareSequence
  generalize m.admitPrompt prompt = admitted at hadmit ⊢
  obtain ⟨m₁, found⟩ := admitted
  have hallocate := allocateSeqId_config m₁
  generalize hcase : m₁.allocateSeqId = allocated at hallocate
  obtain ⟨m₂, newSeq⟩ := allocated
  cases newSeq with
  | none =>
    simp only [hcase]
    exact hallocate.trans hadmit
  | some i =>
    simp only [hcase]
    exact (copyPrefix_config _ _ _ _).trans (hallocate.trans hadmit)

/-- A release leaves the configuration. -/
@[simp] theorem releaseSequence_config (m : KVMapper) (i : SeqId) (node : NodeId) :
    (m.releaseSequence i node).config = m.config := by
  unfold releaseSequence
  simp only
  split
  · rfl
  · split
    · rfl
    · split <;> rfl

/-- A release touches the tree at the node of the sequence only. -/
theorem releaseSequence_tree (m : KVMapper) (i : SeqId) (n : NodeId) :
    (m.releaseSequence i n).tree = (m.tree.releaseSeqId n i m.config.prefixCacheEnabled).1 := by
  unfold releaseSequence
  simp only
  split
  · rfl
  · split
    · rfl
    · split <;> rfl

/-- A new count of cells leaves the configuration. -/
@[simp] theorem setSequenceCellCount_config (m : KVMapper) (i : SeqId) (count : ℕ) :
    (m.setSequenceCellCount i count).config = m.config := by
  unfold setSequenceCellCount
  split <;> rfl

/-- An extension leaves the configuration. -/
@[simp] theorem extendSequence_config (m : KVMapper) (i : SeqId) (node : NodeId)
    (tokens : List Token) :
    (m.extendSequence i node tokens).1.config = m.config := by
  unfold extendSequence
  split
  · rfl
  · exact setSequenceCellCount_config _ _ _

end KVMapper

end RadixForge
