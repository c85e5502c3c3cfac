import RadixForge.Session.Steps

/-!
# Preparations keep the books

A preparation inserts the prompt and holds its node, allocates an id, which may evict, and binds
the id: it copies the cached prefix from a ready sequence and registers a pending one. The held
reference keeps the node through the eviction, and through it the cache node above.
-/

namespace RadixForge

open Library

/-- A list and a prefix of it agree on what the prefix has. -/
theorem take_of_isPrefix {u w : List Token} (h : u <+: w) {k : ℕ} (hk : k ≤ u.length) :
    w.take k = u.take k := by
  obtain ⟨v, rfl⟩ := h
  rw [List.take_append_of_le_length hk]

/-- The node a living child hangs from is alive. -/
theorem Shape.alive_of_parentOf {t : RadixTree} {path : NodeId → List Token} (h : Shape t path)
    {n p : NodeId} (hp : t.parentOf n = some p) : t.Alive p := by
  obtain ⟨x, hx, hparent⟩ := Option.bind_eq_some_iff.mp hp
  by_cases hroot : n = rootId
  · obtain ⟨r, hr, _, hnone⟩ := h.root
    rw [hroot, hr] at hx
    cases hx
    rw [hparent] at hnone
    contradiction
  · obtain ⟨q, hq, halive, _⟩ := h.parent_spec hx hroot
    rw [hparent] at hq
    exact Option.some.inj hq ▸ halive

/-- The state of a preparation between the insertion and the registration: the mapper with the node
held, and what `insert` promised about the match. -/
structure Preparing (s : Session) (m : KVMapper) (prompt : List Token) (found : PrefixMatch)
    (path : NodeId → List Token) (idle : NodeId → Option SeqId) : Prop where
  books : Books { s with mapper := m, holds := found.node :: s.holds } path idle
  node : path found.node = prompt
  cachePath : path found.cacheNode = prompt.take found.matchedTokens
  matched_le : found.matchedTokens ≤ prompt.length
  cacheNode : m.tree.Alive found.cacheNode
  parent : found.node = found.cacheNode ∨ m.tree.parentOf found.node = some found.cacheNode

/-- A tree that shrank without losing the held node still has the cache node above it. -/
theorem Preparing.shrink {s : Session} {m m' : KVMapper} {prompt : List Token} {found : PrefixMatch}
    {path : NodeId → List Token} {idle idle' : NodeId → Option SeqId}
    (h : Preparing s m prompt found path idle)
    (hbooks : Books { s with mapper := m', holds := found.node :: s.holds } path idle')
    (hshrinks : m.tree.Shrinks m'.tree) : Preparing s m' prompt found path idle' := by
  have halive : m'.tree.Alive found.node := hbooks.placement.leaf_alive (Or.inr List.mem_cons_self)
  have hparent : found.node = found.cacheNode ∨
      m'.tree.parentOf found.node = some found.cacheNode :=
    h.parent.imp_right fun hp => (hshrinks _ halive).2.trans hp
  refine ⟨hbooks, h.node, h.cachePath, h.matched_le, ?_, hparent⟩
  rcases hparent with heq | hp
  · exact heq ▸ halive
  · exact hbooks.placement.shape.alive_of_parentOf hp

namespace Books

variable {s : Session} {path : NodeId → List Token} {idle : NodeId → Option SeqId}

/-- Counters of the metrics do not matter. -/
theorem metrics (h : Books s path idle) (metrics : CacheMetrics) :
    Books { s with mapper := { s.mapper with metrics := metrics } } path idle :=
  ⟨h.placement, h.accounts.congr rfl rfl rfl (fun _ => Iff.rfl) rfl, h.contents, h.owners⟩

/-- Inserting the prompt holds its node. -/
theorem insert (h : Books s path idle) (prompt : List Token) :
    ∃ path', Preparing s { s.mapper with tree := (s.mapper.tree.insert prompt).1 } prompt
      (s.mapper.tree.insert prompt).2 path' idle := by
  obtain ⟨path', hinserted⟩ := insert_spec h.placement.shape prompt
  refine ⟨path', ⟨?_, ?_, ?_, h.owners⟩, hinserted.node, hinserted.cachePath, hinserted.matched_le,
    hinserted.alive _ hinserted.cacheNode, hinserted.parent⟩
  · exact h.placement.hold hinserted.shape hinserted.shorter hinserted.data
  · exact h.accounts.congr rfl rfl rfl (fun _ => Iff.rfl) rfl
  · refine h.contents.shorten (fun c hc => ?_) (fun c hc => ?_) (fun n i hi => ?_)
    · exact hinserted.shorter _ (h.placement.leaf_alive (Or.inl ⟨c, hc, rfl⟩))
    · exact hinserted.shorter _ (h.placement.alive_of_registered (h.placement.mem_owner hc))
    · exact hinserted.shorter _ (h.placement.alive_of_registered (h.placement.mem_idle hi))

/-- The first half of a preparation. -/
theorem admitPrompt (h : Books s path idle) (hhand : s.hand = none) (prompt : List Token) :
    ∃ path' idle', Preparing s (s.mapper.admitPrompt prompt).1 prompt
      (s.mapper.admitPrompt prompt).2 path' idle' := by
  have hcounted : Books { s with mapper := s.mapper.countRequest prompt } path idle := h.metrics _
  obtain ⟨idle₁, hbooks, _⟩ := hcounted.evictKvPressure hhand
  obtain ⟨path', hpreparing⟩ := hbooks.insert prompt
  exact ⟨path', idle₁, ⟨hpreparing.books, hpreparing.node, hpreparing.cachePath,
    hpreparing.matched_le, hpreparing.cacheNode, hpreparing.parent⟩⟩

/-- A ready sequence holds a tape that starts with the path of its node. -/
theorem ready_cells (h : Books s path idle) {n : NodeId} {i : SeqId}
    (hi : i ∈ (s.mapper.tree.data n).readySeqIds) :
    ∃ w, s.mapper.memory.cells i = LlamaMemory.tape w ∧ path n <+: w := by
  rcases (h.placement.registers.readied n i).mp hi with ⟨c, hc, rfl, rfl, hready⟩ | hidle
  · have hsound := h.contents.clients c hc
    exact ⟨c.history, hsound.cells, (hsound.ready hready).2.2⟩
  · exact h.contents.parked n i hidle

end Books

namespace Preparing

variable {s : Session} {m : KVMapper} {prompt : List Token} {found : PrefixMatch}
  {path : NodeId → List Token} {idle : NodeId → Option SeqId}

/-- Allocation takes the first id of a pool that it refilled by an eviction if it was empty. -/
theorem allocateSeqId (h : Preparing s m prompt found path idle) (hhand : s.hand = none) :
    ∃ m' idle', Preparing s m' prompt found path idle' ∧
      ((m'.freeSeqIds = [] ∧ m.allocateSeqId = (m', none)) ∨
        ∃ i rest, m'.freeSeqIds = i :: rest ∧
        m.allocateSeqId = ({ m' with freeSeqIds := rest }, some i)) := by
  have hrefill : ∃ m' idle', Preparing s m' prompt found path idle' ∧
      (if m.freeSeqIds = [] then m.evictOne.1 else m) = m' := by
    split
    · obtain ⟨idle', hbooks, hshrinks, _⟩ := h.books.evictOne_keep hhand
      exact ⟨_, idle', h.shrink hbooks hshrinks, rfl⟩
    · exact ⟨m, idle, h, rfl⟩
  obtain ⟨m', idle', hm', heq⟩ := hrefill
  refine ⟨m', idle', hm', ?_⟩
  simp only [KVMapper.allocateSeqId, heq]
  cases hfree : m'.freeSeqIds with
  | nil => exact Or.inl ⟨rfl, rfl⟩
  | cons i rest => exact Or.inr ⟨i, rest, rfl, rfl⟩

/-- A copy source agrees with the prompt on everything it is asked for. -/
theorem copySource_sound (h : Preparing s m prompt found path idle) {source : SeqId} {len : ℕ}
    (hsource : m.copySource found = some (source, len)) :
    ∃ w, m.memory.cells source = LlamaMemory.tape w ∧
      ∀ k ≤ min found.matchedTokens len, w.take k = prompt.take k := by
  unfold KVMapper.copySource at hsource
  split at hsource
  · have hplacement := h.books.placement
    obtain ⟨a, ha, hready, hlen, hcomparable⟩ :=
      hplacement.shape.findCoveringLoop_spec _ h.cacheNode hsource
    obtain ⟨w, hcells, hpath⟩ := h.books.ready_cells hready
    have hcanonical : (path a).length ≤ (m.tree.data a).canonicalLen := by
      refine hplacement.canonical a fun hempty => ?_
      exact OrderedSet.notMem_empty source (hempty ▸ (hplacement.coherent a).1 source hready)
    rw [min_eq_right hcanonical] at hlen
    refine ⟨w, hcells, fun k hk => ?_⟩
    rw [hlen, le_min_iff] at hk
    rw [take_of_isPrefix hpath hk.2]
    rcases hcomparable with habove | hbelow
    · rw [h.cachePath] at habove
      rw [← take_of_isPrefix habove hk.2, List.take_take, min_eq_left hk.1]
    · rw [h.cachePath] at hbelow
      have hkl : k ≤ (prompt.take found.matchedTokens).length := by
        rw [List.length_take, min_eq_left h.matched_le]
        exact hk.1
      rw [take_of_isPrefix hbelow hkl, List.take_take, min_eq_left hk.1]
  · contradiction

end Preparing

namespace KVMapper

/-- The last position of a nonempty prompt is never taken from the cache. -/
theorem cachedPosition_lt {prompt : List Token} {found : PrefixMatch} (source : Option (SeqId × ℕ))
    (hprompt : prompt ≠ []) (hmatched : found.matchedTokens ≤ prompt.length) :
    cachedPosition prompt found source < prompt.length := by
  have hpos := List.length_pos_iff.mpr hprompt
  unfold cachedPosition
  cases source with
  | none =>
    simp only
    split <;> omega
  | some source =>
    simp only
    split
    · omega
    · rename_i hnot
      have hle := min_le_left found.matchedTokens source.2
      rcases Nat.lt_or_eq_of_le (hle.trans hmatched) with hlt | heq
      · exact hlt
      · exact absurd ⟨hprompt, heq⟩ hnot

/-- Without a source nothing is cached. -/
theorem cachedPosition_none (prompt : List Token) (found : PrefixMatch) :
    cachedPosition prompt found none = 0 := by
  simp only [cachedPosition]
  split <;> rfl

/-- No more is cached than was matched and than the source covers. -/
theorem cachedPosition_le (prompt : List Token) (found : PrefixMatch) (source : SeqId) (len : ℕ) :
    cachedPosition prompt found (some (source, len)) ≤ min found.matchedTokens len := by
  simp only [cachedPosition]
  split <;> omega

/-- Copying a prefix changes the memory only. -/
theorem copyPrefix_fields (m : KVMapper) (source : Option (SeqId × ℕ)) (i : SeqId) (k : ℕ) :
    (m.copyPrefix source i k).tree = m.tree ∧ (m.copyPrefix source i k).config = m.config ∧
      (m.copyPrefix source i k).freeSeqIds = m.freeSeqIds ∧
      (m.copyPrefix source i k).seqCellCounts = m.seqCellCounts ∧
      (m.copyPrefix source i k).retainedSeqIds = m.retainedSeqIds := by
  unfold copyPrefix
  split
  · split <;> exact ⟨rfl, rfl, rfl, rfl, rfl⟩
  · exact ⟨rfl, rfl, rfl, rfl, rfl⟩

end KVMapper

namespace Preparing

variable {s : Session} {m : KVMapper} {prompt : List Token} {found : PrefixMatch}
  {path : NodeId → List Token} {idle : NodeId → Option SeqId}

/-- The copy puts exactly the cached part of the prompt into a free sequence. -/
theorem copyPrefix_cells (h : Preparing s m prompt found path idle) {i : SeqId}
    (hi : m.memory.cells i = []) (j : SeqId) :
    (m.copyPrefix (m.copySource found) i
        (KVMapper.cachedPosition prompt found (m.copySource found))).memory.cells j =
      if j = i then LlamaMemory.tape
        (prompt.take (KVMapper.cachedPosition prompt found (m.copySource found)))
      else m.memory.cells j := by
  cases hsource : m.copySource found with
  | none =>
    rw [KVMapper.cachedPosition_none]
    simp only [KVMapper.copyPrefix, List.take_zero, LlamaMemory.tape_nil]
    split
    · rename_i heq
      rw [heq, hi]
    · rfl
  | some source =>
    obtain ⟨source, len⟩ := source
    obtain ⟨w, hw, hagree⟩ := h.copySource_sound hsource
    have hle := KVMapper.cachedPosition_le prompt found source len
    generalize KVMapper.cachedPosition prompt found (some (source, len)) = k at hle ⊢
    simp only [KVMapper.copyPrefix]
    split
    · simp only [LlamaMemory.seqCp_cells, hi, hw, List.nil_append,
        LlamaMemory.tape_filter_inRange, hagree k hle]
    · have hk : k = 0 := by omega
      subst hk
      simp only [List.take_zero, LlamaMemory.tape_nil]
      split
      · rename_i heq
        rw [heq, hi]
      · rfl

/-- The client of a preparation is sound once its sequence holds the cached part of the prompt. -/
theorem prepared_sound (h : Preparing s m prompt found path idle) {memory : LlamaMemory} {i : SeqId}
    {k : ℕ} (hcells : memory.cells i = LlamaMemory.tape (prompt.take k)) :
    (Client.prepared prompt
      { seqId := i, cachedPos := k, delta := prompt.drop k, leafNode := found.node }).Sound
      path memory where
  leafPath := h.node ▸ List.prefix_refl _
  leafRoot := by
    intro hroot
    have hnode : found.node = rootId := hroot
    have hpath := h.node
    rw [hnode, h.books.placement.shape.rootPath] at hpath
    exact hpath.symm
  order := Or.inl (List.take_prefix _ _)
  ready hready := absurd hready Bool.false_ne_true
  cells := hcells

/-- Binding the first free id completes a preparation. -/
theorem bindSequence (h : Preparing s m prompt found path idle) {i : SeqId} {rest : List SeqId}
    (hfree : m.freeSeqIds = i :: rest) :
    Books { s with
      mapper := ({ m with freeSeqIds := rest }.bindSequence prompt found i).1
      live := .prepared prompt ({ m with freeSeqIds := rest }.bindSequence prompt found i).2 ::
        s.live } path idle := by
  have hcells : m.memory.cells i = [] := h.books.contents.free i (hfree ▸ List.mem_cons_self)
  have hcopy := h.copyPrefix_cells hcells
  have hsource : ({ m with freeSeqIds := rest } : KVMapper).copySource found =
      m.copySource found := rfl
  simp only [KVMapper.bindSequence, hsource]
  generalize KVMapper.cachedPosition prompt found (m.copySource found) = k at hcopy ⊢
  generalize m.copySource found = source at hcopy ⊢
  have hmemory : (({ m with freeSeqIds := rest } : KVMapper).copyPrefix source i k).memory =
      (m.copyPrefix source i k).memory := by
    unfold KVMapper.copyPrefix
    split
    · split <;> rfl
    · rfl
  obtain ⟨htree, hconfig, hpool, hcounts, hretained⟩ :=
    KVMapper.copyPrefix_fields { m with freeSeqIds := rest } source i k
  generalize ({ m with freeSeqIds := rest } : KVMapper).copyPrefix source i k = m' at *
  have hheld : found.node ∈ found.node :: s.holds := List.mem_cons_self
  obtain ⟨hshape, hdata⟩ := h.books.placement.shape.registerSeqId_spec
    (h.books.placement.leaf_alive (Or.inr hheld)) i prompt.length
  have hplacement := h.books.placement.register (c := .prepared prompt
    { seqId := i, cachedPos := k, delta := prompt.drop k, leafNode := found.node }) hheld rfl
      rfl h.node hshape hdata
  refine ⟨?_, ?_, ?_, ?_⟩
  · rw [htree]
    simpa [Client.prepared] using hplacement
  · exact h.books.accounts.take hfree hconfig hpool (congrArg (AList.insert i k) hcounts)
      (congrArg (fun ids => ids.erase i) hretained)
  · have hcontents := h.books.contents
    have hleases := h.books.accounts.leases
    simp only [hfree] at hcontents hleases
    simp only [hpool, hmemory]
    exact hcontents.take hleases rfl (h.prepared_sound ((hcopy i).trans (if_pos rfl)))
      fun j hj => (hcopy j).trans (if_neg hj)
  · intro c hc
    rcases List.mem_cons.mp hc with rfl | hc
    · exact Or.inl rfl
    · simp only [hconfig]
      exact h.books.owners c hc

end Preparing

/-- A preparation keeps the books: it binds a new client or gives the inserted reference back. -/
theorem Books.prepareSequence {s : Session} {path : NodeId → List Token}
    {idle : NodeId → Option SeqId} (h : Books s path idle) (hhand : s.hand = none)
    (prompt : List Token) :
    ∃ path' idle', match s.mapper.prepareSequence prompt with
      | (m, .ok result) =>
        Books { s with mapper := m, live := .prepared prompt result :: s.live } path' idle'
      | (m, .error _) => Books { s with mapper := m } path' idle' := by
  obtain ⟨path₁, idle₁, hadmitted⟩ := h.admitPrompt hhand prompt
  unfold KVMapper.prepareSequence
  generalize s.mapper.admitPrompt prompt = admitted at hadmitted ⊢
  obtain ⟨m, found⟩ := admitted
  obtain ⟨m', idle', hallocated, ⟨hempty, hnone⟩ | ⟨i, rest, hfree, hsome⟩⟩ :=
    hadmitted.allocateSeqId hhand
  · refine ⟨path₁, idle', ?_⟩
    simp only [hnone]
    have hreleased := (hallocated.books.release (n := found.node) List.mem_cons_self).1
    rwa [List.erase_cons_head] at hreleased
  · refine ⟨path₁, idle', ?_⟩
    simp only [hsome]
    exact hallocated.bindSequence hfree

end RadixForge
