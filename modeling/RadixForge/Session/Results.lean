import RadixForge.Session.Invariant

/-!
# Copy sources and sequence ids

What the books say about the mapper alone, for any interleaving of clients and evictions: every
prepared sequence holds exactly the cached part of its prompt, and the sequence ids are
partitioned into the pool and the tree, with all containers in agreement.
-/

namespace RadixForge

open Library

/-- A sequence id that some node of the tree lists. -/
def RadixTree.Registered (t : RadixTree) (i : SeqId) : Prop := ∃ n, i ∈ (t.data n).seqIds

/-- A sequence id without a client. -/
def Session.Ownerless (s : Session) (i : SeqId) : Prop := ∀ c ∈ s.live, c.seqId ≠ i

/-- The positions of a tape are those from zero on. -/
theorem LlamaMemory.tape_positions (tokens : List Token) :
    (tape tokens).map Prod.snd = List.range tokens.length := by
  rw [tape, List.zipIdx_map_snd, List.range_eq_range']

/-- The tokens of a tape are those it was made of. -/
theorem LlamaMemory.tape_tokens (tokens : List Token) : (tape tokens).map Prod.fst = tokens :=
  List.zipIdx_map_fst 0 tokens

/-- A successful preparation leaves a nonempty rest of the prompt to decode. -/
theorem Books.prepare_rest {s : Session} {path : NodeId → List Token} {idle : NodeId → Option SeqId}
    (h : Books s path idle) (hhand : s.hand = none) {prompt : List Token} (hprompt : prompt ≠ [])
    {m : KVMapper} {result : PrepareResult}
    (hprepare : s.mapper.prepareSequence prompt = (m, .ok result)) :
    result.cachedPos < prompt.length ∧ result.delta = prompt.drop result.cachedPos := by
  obtain ⟨path₁, idle₁, hadmitted⟩ := h.admitPrompt hhand prompt
  unfold KVMapper.prepareSequence at hprepare
  generalize s.mapper.admitPrompt prompt = admitted at hadmitted hprepare
  obtain ⟨m₁, found⟩ := admitted
  obtain ⟨m₂, idle₂, hallocated, ⟨_, hnone⟩ | ⟨i, rest, _, hsome⟩⟩ := hadmitted.allocateSeqId hhand
  · simp [hnone] at hprepare
  · simp only [hsome, Prod.mk.injEq, Except.ok.injEq] at hprepare
    rw [← hprepare.2]
    exact ⟨KVMapper.cachedPosition_lt _ hprompt hallocated.matched_le, rfl⟩

/-- In any interleaving of clients and evictions, a prepared sequence holds exactly the positions of
the cached part of its prompt, each once and with the prompt's tokens, and a nonempty rest is left
to decode. -/
theorem prepare_copies_prompt (config : Config) (order : ChildOrder) (calls : List Call)
    (s : Session) (hrun : (Session.init config order).Run calls s) (hhand : s.hand = none)
    (prompt : List Token) (hprompt : prompt ≠ []) (m : KVMapper) (result : PrepareResult)
    (hprepare : s.mapper.prepareSequence prompt = (m, .ok result)) :
    (m.memory.cells result.seqId).map Prod.snd = List.range result.cachedPos ∧
      (m.memory.cells result.seqId).map Prod.fst = prompt.take result.cachedPos ∧
      prompt = prompt.take result.cachedPos ++ result.delta ∧ result.delta ≠ [] := by
  obtain ⟨path, idle, hbooks⟩ := Session.run_sound hrun
  obtain ⟨hlt, hdelta⟩ := hbooks.prepare_rest hhand hprompt hprepare
  obtain ⟨path', idle', hprepared⟩ := hbooks.prepareSequence hhand prompt
  rw [hprepare] at hprepared
  have hcells : m.memory.cells result.seqId = LlamaMemory.tape (prompt.take result.cachedPos) :=
    (hprepared.contents.clients _ List.mem_cons_self).cells
  rw [hcells, LlamaMemory.tape_positions, LlamaMemory.tape_tokens, List.length_take,
    min_eq_left hlt.le, hdelta]
  refine ⟨rfl, rfl, (List.take_append_drop _ _).symm, ?_⟩
  rw [ne_eq, List.drop_eq_nil_iff]
  omega

/-- A second prompt copies what a retained sequence of the first one covers. -/
theorem prepare_copies_prompt_reuse : ∃ s m result,
    (Session.init ⟨3, 64, true⟩ .stored).Run
      [.prepare [1, 2], .decode 1 1 0, .decode 1 2 1, .markReady 1 1, .extend 1 1 [1, 2],
        .releaseSequence 1 1, .release 1] s ∧
      s.mapper.prepareSequence [1, 2, 3] = (m, .ok result) ∧ result.cachedPos = 2 ∧
      (m.memory.cells result.seqId).map Prod.fst = [1, 2] := by
  have hrun : (run Session.step (Session.init ⟨3, 64, true⟩ .stored) [.prepare [1, 2],
      .decode 1 1 0, .decode 1 2 1, .markReady 1 1, .extend 1 1 [1, 2], .releaseSequence 1 1,
      .release 1]).any (fun s => s.hand = none ∧
        (s.mapper.prepareSequence [1, 2, 3]).2.toOption.map PrepareResult.cachedPos = some 2) =
          true := by decide +kernel
  obtain ⟨s, hs, hcond⟩ := (Option.any_eq_true _ _).mp hrun
  obtain ⟨hhand, hposition⟩ := of_decide_eq_true hcond
  generalize hprepare : s.mapper.prepareSequence [1, 2, 3] = outcome at hposition
  obtain ⟨m, result | result⟩ := outcome
  · simp [Except.toOption] at hposition
  · have hcached : result.cachedPos = 2 := by simpa [Except.toOption] using hposition
    have hcells :=
      (prepare_copies_prompt _ _ _ s hs hhand [1, 2, 3] (by decide) m result hprepare).2.1
    rw [hcached] at hcells
    exact ⟨s, m, result, hs, hprepare, hcached, hcells⟩

/-- A registered id belongs to a client or is parked idle. -/
theorem Books.registered_iff {s : Session} {path : NodeId → List Token}
    {idle : NodeId → Option SeqId} (h : Books s path idle) (i : SeqId) :
    s.mapper.tree.Registered i ↔ i ∈ s.live.map Client.seqId ∨ ∃ n, idle n = some i := by
  unfold RadixTree.Registered
  simp only [h.placement.registers.registered, exists_or, List.mem_map]
  refine or_congr_left ⟨?_, ?_⟩
  · rintro ⟨n, c, hc, _, hi⟩
    exact ⟨c, hc, hi⟩
  · rintro ⟨c, hc, hi⟩
    exact ⟨c.owner, c, hc, rfl, hi⟩

/-- An id is registered at one node only. -/
theorem Books.registered_once {s : Session} {path : NodeId → List Token}
    {idle : NodeId → Option SeqId} (h : Books s path idle) {i : SeqId} {a b : NodeId}
    (ha : i ∈ (s.mapper.tree.data a).seqIds) (hb : i ∈ (s.mapper.tree.data b).seqIds) : a = b := by
  rcases (h.placement.registers.registered a i).mp ha with ⟨c, hc, howner, hi⟩ | hidle <;>
    rcases (h.placement.registers.registered b i).mp hb with ⟨d, hd, howner', hi'⟩ | hidle'
  · rw [← howner, ← howner', client_unique h.accounts.nodup hc hd (hi.trans hi'.symm)]
  · exact absurd (hi ▸ hidle') (h.accounts.not_idle hc b)
  · exact absurd (hi' ▸ hidle) (h.accounts.not_idle hd a)
  · exact h.accounts.leases.idle_inj a b i hidle hidle'

/-- As many recorded counts as clients and retained ids. -/
theorem Books.counts_length {s : Session} {path : NodeId → List Token}
    {idle : NodeId → Option SeqId} (h : Books s path idle) :
    s.mapper.seqCellCounts.entries.length = s.live.length + s.mapper.retainedSeqIds.card := by
  have hkeys : s.mapper.seqCellCounts.keys.toFinset =
      (s.live.map Client.seqId).toFinset ∪ s.mapper.retainedSeqIds := by
    ext i
    rw [List.mem_toFinset, ← AList.mem_keys, h.accounts.counts, Finset.mem_union, List.mem_toFinset,
      h.accounts.retained]
  have hdisjoint : Disjoint (s.live.map Client.seqId).toFinset s.mapper.retainedSeqIds := by
    rw [Finset.disjoint_left]
    intro i hi hretained
    obtain ⟨n, hn⟩ := (h.accounts.retained i).mp hretained
    exact h.accounts.leases.held_idle i (List.mem_toFinset.mp hi) n hn
  have hlength : s.mapper.seqCellCounts.entries.length = s.mapper.seqCellCounts.keys.length := by
    rw [AList.keys, List.keys, List.length_map]
  rw [hlength, ← List.toFinset_card_of_nodup s.mapper.seqCellCounts.keys_nodup, hkeys,
    Finset.card_union_of_disjoint hdisjoint, List.toFinset_card_of_nodup h.accounts.nodup,
    List.length_map]

/-- Sequence ids are conserved: in every state of every run the ids are partitioned without
duplicates into the pool and the tree, each registered id is at one node, the recorded counts are
those of the registered ids, and the retained ids are the registered ones without a client. -/
theorem sequence_ids_conserved (config : Config) (order : ChildOrder) (calls : List Call)
    (s : Session) (hrun : (Session.init config order).Run calls s) :
    s.mapper.freeSeqIds.Nodup ∧
      (∀ i, 1 ≤ i ∧ i < config.maxSequences ↔ i ∈ s.mapper.freeSeqIds ∨
        s.mapper.tree.Registered i) ∧
      (∀ i ∈ s.mapper.freeSeqIds, ¬ s.mapper.tree.Registered i) ∧
      (∀ i a b, i ∈ (s.mapper.tree.data a).seqIds → i ∈ (s.mapper.tree.data b).seqIds → a = b) ∧
      (∀ i, i ∈ s.mapper.seqCellCounts ↔ s.mapper.tree.Registered i) ∧
      (∀ i, i ∈ s.mapper.retainedSeqIds ↔ s.mapper.tree.Registered i ∧ s.Ownerless i) ∧
      s.mapper.activeSequenceCount = s.live.length := by
  obtain ⟨path, idle, h⟩ := Session.run_sound hrun
  have hconfig : s.mapper.config = config := Session.run_config hrun
  have hleases := h.accounts.leases
  refine ⟨hleases.free_nodup, fun i => ?_, fun i hi => ?_, fun i a b => h.registered_once,
    fun i => ?_, fun i => ?_, ?_⟩
  · rw [h.registered_iff, ← hleases.cover, hconfig, List.mem_range'_1]
    omega
  · rw [h.registered_iff, not_or, not_exists]
    exact ⟨hleases.free_held i hi, hleases.free_idle i hi⟩
  · rw [h.registered_iff, h.accounts.counts]
  · rw [h.registered_iff, h.accounts.retained]
    constructor
    · rintro ⟨n, hn⟩
      refine ⟨Or.inr ⟨n, hn⟩, fun c hc heq => h.accounts.not_idle hc n (heq ▸ hn)⟩
    · rintro ⟨hlive | hidle, hownerless⟩
      · obtain ⟨c, hc, heq⟩ := List.mem_map.mp hlive
        exact absurd heq (hownerless c hc)
      · exact hidle
  · unfold KVMapper.activeSequenceCount
    rw [h.counts_length]
    omega

/-- One client left, one in the middle of its prompt. -/
theorem sequence_ids_conserved_two_clients : ∃ s,
    (Session.init ⟨3, 64, true⟩ .stored).Run
      [.prepare [1, 2], .prepare [1, 3], .decode 2 1 0, .releaseSequence 1 1, .release 1] s ∧
      s.mapper.activeSequenceCount = 1 := by
  have hrun :
      (run Session.step (Session.init ⟨3, 64, true⟩ .stored) [.prepare [1, 2], .prepare [1, 3],
        .decode 2 1 0, .releaseSequence 1 1, .release 1]).any (fun s => s.live.length = 1) =
          true := by decide +kernel
  obtain ⟨s, hs, hcond⟩ := (Option.any_eq_true _ _).mp hrun
  have hlive : s.live.length = 1 := of_decide_eq_true hcond
  have hcount := (sequence_ids_conserved _ _ _ s hs).2.2.2.2.2.2
  rw [hlive] at hcount
  exact ⟨s, hs, hcount⟩

end RadixForge
