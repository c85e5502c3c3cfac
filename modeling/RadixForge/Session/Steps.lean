import RadixForge.Session.Eviction

/-!
# Calls of one client keep the books

Decoding, marking, extending and releasing. Extending moves a client's sequence to a node that
nobody references, which is why the protocol asks for its release before any other call.
-/

namespace RadixForge

open Library

/-- A prefix goes on with the next token. -/
theorem prefix_snoc_of_getElem {history prompt : List Token} {token : Token}
    (h : history <+: prompt) (hnext : prompt[history.length]? = some token) :
    history ++ [token] <+: prompt := by
  obtain ⟨rest, rfl⟩ := h
  rw [List.getElem?_append_right le_rfl, Nat.sub_self] at hnext
  cases rest with
  | nil => simp at hnext
  | cons a rest =>
    rw [List.getElem?_cons_zero, Option.some.injEq] at hnext
    exact ⟨rest, by rw [hnext, List.append_assoc, List.singleton_append]⟩

/-- With the whole prompt decoded, the history starts with it. -/
theorem Client.Sound.prompt_prefix {c : Client} {path : NodeId → List Token} {memory : LlamaMemory}
    (h : c.Sound path memory) (hlen : c.prompt.length ≤ c.history.length) :
    c.prompt <+: c.history := by
  rcases h.order with hshort | hlong
  · rw [hshort.eq_of_length_le hlen]
  · exact hlong

namespace Contents

variable {memory memory' : LlamaMemory} {path : NodeId → List Token} {m : KVMapper}
  {live : List Client} {idle : NodeId → Option SeqId}

/-- A change of one client and of its own cells. -/
theorem change (h : Contents memory path live m.freeSeqIds idle) (ha : Accounts m live idle)
    {c : Client} (hc : c ∈ live) {f : Client → Client} (hf : (f c).Sound path memory')
    (hcells : ∀ j, j ≠ c.seqId → memory'.cells j = memory.cells j) :
    Contents memory' path (live.map fun d => if d.seqId = c.seqId then f d else d)
      m.freeSeqIds idle where
  clients d hd := by
    rcases (mem_change ha.nodup hc d).mp hd with ⟨hd, hne⟩ | rfl
    · obtain ⟨hleafPath, hleafRoot, horder, hready, hc'⟩ := h.clients d hd
      exact ⟨hleafPath, hleafRoot, horder, hready, by rw [hcells _ hne, hc']⟩
    · exact hf
  parked n i hi := by
    rw [hcells i]
    · exact h.parked n i hi
    · rintro rfl
      exact ha.not_idle hc n hi
  free i hi := by
    rw [hcells i]
    · exact h.free i hi
    · rintro rfl
      exact ha.leases.free_held _ hi (List.mem_map_of_mem hc)

/-- A client leaves and its cells are cleared. -/
theorem giveBack (h : Contents memory path live m.freeSeqIds idle) (ha : Accounts m live idle)
    {c : Client} (hc : c ∈ live)
    (hcells : ∀ j, memory'.cells j = if j = c.seqId then [] else memory.cells j) :
    Contents memory' path (live.filter fun d => d.seqId ≠ c.seqId)
      (m.freeSeqIds ++ [c.seqId]) idle where
  clients d hd := by
    simp only [List.mem_filter, decide_eq_true_eq] at hd
    obtain ⟨hleafPath, hleafRoot, horder, hready, hc'⟩ := h.clients d hd.1
    exact ⟨hleafPath, hleafRoot, horder, hready, by rw [hcells, if_neg hd.2, hc']⟩
  parked n i hi := by
    rw [hcells, if_neg]
    · exact h.parked n i hi
    · rintro rfl
      exact ha.not_idle hc n hi
  free i hi := by
    rw [hcells]
    split
    · rfl
    · rename_i hne
      rcases List.mem_append.mp hi with hi | hi
      · exact h.free i hi
      · exact absurd (List.mem_singleton.mp hi) hne

/-- A ready client leaves and its cells are cut to the path of its owner. -/
theorem park (h : Contents memory path live m.freeSeqIds idle)
    (ha : Accounts m live idle) {c : Client}
    (hc : c ∈ live) (hready : c.ready = true)
    (hcells : ∀ j, memory'.cells j =
      if j = c.seqId then LlamaMemory.tape (c.history.take (path c.owner).length)
        else memory.cells j) :
    Contents memory' path (live.filter fun d => d.seqId ≠ c.seqId) m.freeSeqIds
      (Function.update idle c.owner (some c.seqId)) where
  clients d hd := by
    simp only [List.mem_filter, decide_eq_true_eq] at hd
    obtain ⟨hleafPath, hleafRoot, horder, hready, hc'⟩ := h.clients d hd.1
    exact ⟨hleafPath, hleafRoot, horder, hready, by rw [hcells, if_neg hd.2, hc']⟩
  parked n i hi := by
    rw [Function.update_apply] at hi
    split at hi
    · rename_i heq
      obtain ⟨_, _, hpath⟩ := (h.clients c hc).ready hready
      rw [← Option.some.inj hi, hcells, if_pos rfl, heq]
      exact ⟨_, rfl, List.prefix_take_iff.mpr ⟨hpath, le_rfl⟩⟩
    · rw [hcells, if_neg]
      · exact h.parked n i hi
      · rintro rfl
        exact ha.not_idle hc n hi
  free i hi := by
    rw [hcells, if_neg]
    · exact h.free i hi
    · rintro rfl
      exact ha.leases.free_held _ hi (List.mem_map_of_mem hc)

end Contents

/-- The sole ready sequence of a node covers its own node, up to the end of the path. -/
theorem Placement.covering_of_sole {t : RadixTree} {path : NodeId → List Token} {live : List Client}
    {holds : List NodeId} {idle : NodeId → Option SeqId} (h : Placement t path live holds idle)
    {n : NodeId} {i : SeqId} (hready : i ∈ (t.data n).readySeqIds)
    (hsole : ∀ j ∈ (t.data n).seqIds, j = i) :
    t.findCoveringSeqId n = some (i, (path n).length) := by
  have hmem := (h.coherent n).1 i hready
  have hfirst : (t.data n).readySeqIds.first? = some i := by
    obtain ⟨j, hj, hjmem⟩ := OrderedSet.exists_first (s := (t.data n).readySeqIds) fun hempty =>
      OrderedSet.notMem_empty _ (hempty ▸ hready)
    rw [hj, hsole j ((h.coherent n).1 j hjmem)]
  have hlen : min (t.data n).canonicalLen (path n).length = (path n).length :=
    min_eq_right (h.canonical n fun hempty => OrderedSet.notMem_empty _ (hempty ▸ hmem))
  rw [h.shape.findCoveringSeqId_of_ready (h.alive_of_registered hmem) hfirst, hlen]

namespace Books

variable {s : Session} {path : NodeId → List Token} {idle : NodeId → Option SeqId}

/-- With no sequence in hand a client owns what it holds. -/
theorem owner_eq_leaf (h : Books s path idle) (hhand : s.hand = none) {c : Client}
    (hc : c ∈ s.live) :
    c.owner = c.leaf := by
  rcases h.owners c hc with heq | ⟨heq, _⟩
  · exact heq
  · rw [hhand] at heq
    contradiction

/-- A held reference is given back. -/
theorem release (h : Books s path idle) {n : NodeId} (hn : n ∈ s.holds) :
    Books { s with mapper := s.mapper.releaseNode n, holds := s.holds.erase n } path idle ∧
      s.mapper.tree.Shrinks (s.mapper.releaseNode n).tree := by
  obtain ⟨hshape, hdata, hshrinks, _⟩ :=
    h.placement.shape.release_spec h.placement.coherent (h.placement.refs_pos (Or.inr hn))
  have haccounts : Accounts (s.mapper.releaseNode n) s.live idle :=
    h.accounts.congr rfl rfl rfl (fun _ => Iff.rfl) rfl
  exact ⟨⟨h.placement.letGo hn hshape hdata, haccounts, h.contents, h.owners⟩, hshrinks⟩

/-- A count for a sequence of a client adds no sequence. -/
theorem mem_counts_insert (h : Books s path idle) {c : Client} (hc : c ∈ s.live) (count : ℕ)
    (i : SeqId) :
    i ∈ s.mapper.seqCellCounts.insert c.seqId count ↔ i ∈ s.mapper.seqCellCounts := by
  rw [AList.mem_insert]
  refine or_iff_right_of_imp ?_
  rintro rfl
  exact (h.accounts.counts _).mpr (Or.inl (List.mem_map_of_mem hc))

/-- Recorded cell counts matter only for the moment of evictions. -/
theorem setCellCount (h : Books s path idle) (i : SeqId) (count : ℕ) :
    Books { s with mapper := s.mapper.setSequenceCellCount i count } path idle := by
  unfold KVMapper.setSequenceCellCount
  split
  · rename_i hmem
    refine ⟨h.placement, h.accounts.congr rfl rfl rfl (fun j => ?_) rfl, h.contents, h.owners⟩
    rw [AList.mem_insert]
    exact or_iff_right_of_imp fun heq => heq ▸ hmem
  · exact h

/-- A client decodes its next token. -/
theorem decode (h : Books s path idle) {c : Client} (hc : c ∈ s.live) {token : Token} {pos : ℕ}
    (hnext : c.Next token pos) :
    Books { s with mapper := s.mapper.decodeToken c.seqId token pos
                   live := s.live.map fun d =>
                     if d.seqId = c.seqId then { d with history := d.history ++ [token] } else d }
                       path idle := by
  have hsound := h.contents.clients c hc
  obtain ⟨hpos, hfits⟩ := hnext
  subst hpos
  refine ⟨?_, ?_, ?_, ?_⟩
  · exact h.placement.change (fun _ => ⟨rfl, rfl, rfl⟩) fun _ => rfl
  · exact h.accounts.congr (map_seqId_change fun _ => rfl) rfl rfl (fun _ => Iff.rfl) rfl
  · refine h.contents.change h.accounts hc ?_ ?_
    · refine ⟨hsound.leafPath, hsound.leafRoot, ?_, fun hr => ?_, ?_⟩
      · rcases hfits with hlong | hshort
        · exact Or.inr ((hsound.prompt_prefix hlong).trans (List.prefix_append _ _))
        · rcases hsound.order with horder | horder
          · exact Or.inl (prefix_snoc_of_getElem horder hshort)
          · exact Or.inr (horder.trans (List.prefix_append _ _))
      · obtain ⟨hprompt, hroot, hpath⟩ := hsound.ready hr
        exact ⟨hprompt.trans (List.prefix_append _ _), hroot, hpath.trans (List.prefix_append _ _)⟩
      · rw [LlamaMemory.tape_snoc, ← hsound.cells]
        exact if_pos rfl
    · intro j hj
      exact if_neg hj
  · intro d hd
    rcases (mem_change h.accounts.nodup hc d).mp hd with ⟨hd, _⟩ | rfl
    · exact h.owners d hd
    · exact h.owners c hc

/-- A client that decoded its whole prompt becomes ready. -/
theorem markReady (h : Books s path idle) (hhand : s.hand = none) {c : Client} (hc : c ∈ s.live)
    (hprompt : c.prompt ≠ []) (hlen : c.prompt.length ≤ c.history.length) :
    Books { s with mapper := s.mapper.markSequenceReady c.seqId c.leaf
                   live := s.live.map fun d =>
                     if d.seqId = c.seqId then { d with ready := true } else d } path idle := by
  have hsound := h.contents.clients c hc
  have howner := h.owner_eq_leaf hhand hc
  have hstart := hsound.prompt_prefix hlen
  obtain ⟨hshape, hdata⟩ :=
    h.placement.shape.markSeqIdReady_spec (h.placement.leaf_alive (Or.inl ⟨c, hc, rfl⟩)) c.seqId
  rw [← howner] at hshape hdata ⊢
  refine ⟨h.placement.markReady h.accounts.nodup hc hshape hdata, ?_, ?_, ?_⟩
  · exact h.accounts.congr (map_seqId_change fun _ => rfl) rfl rfl (h.mem_counts_insert hc _) rfl
  · refine h.contents.change h.accounts hc ?_ fun _ _ => rfl
    refine ⟨hsound.leafPath, hsound.leafRoot, hsound.order, fun _ => ⟨hstart, ?_, ?_⟩, hsound.cells⟩
    · exact fun hroot => hprompt (hsound.leafRoot (howner ▸ hroot))
    · exact (howner ▸ hsound.leafPath).trans hstart
  · intro d hd
    rcases (mem_change h.accounts.nodup hc d).mp hd with ⟨hd, _⟩ | rfl
    · exact h.owners d hd
    · exact Or.inl howner

/-- A ready client decoded something. -/
theorem history_ne_nil (h : Books s path idle) {c : Client} (hc : c ∈ s.live)
    (hready : c.ready = true) :
    c.history ≠ [] := by
  obtain ⟨_, hroot, hpath⟩ := (h.contents.clients c hc).ready hready
  intro hnil
  rw [hnil, List.prefix_nil] at hpath
  exact hroot (h.placement.shape.eq_root_of_path_nil
    (h.placement.alive_of_registered (h.placement.mem_owner hc)) hpath)

/-- A ready client moves its sequence to the end of its history. -/
theorem extend (h : Books s path idle) (hhand : s.hand = none) {c : Client} (hc : c ∈ s.live)
    (hready : c.ready = true) :
    ∃ path', Books { s with
        mapper := (s.mapper.extendSequence c.seqId c.leaf c.history).1
        live := s.live.map fun d =>
          if d.seqId = c.seqId then {
            d with owner := (s.mapper.extendSequence c.seqId c.leaf c.history).2 } else d
        hand := some c.seqId } path' idle := by
  have hsound := h.contents.clients c hc
  have howner := h.owner_eq_leaf hhand hc
  obtain ⟨hprompt, _, _⟩ := hsound.ready hready
  cases hcache : s.mapper.config.prefixCacheEnabled with
  | false =>
    have hsame : s.live.map (fun d => if d.seqId = c.seqId then { d with owner := c.leaf } else d) =
        s.live := by
      refine (List.map_congr_left fun d hd => ?_).trans (List.map_id _)
      split
      · rename_i heq
        obtain rfl := client_unique h.accounts.nodup hd hc heq
        exact (congrArg (fun n => { d with owner := n }) howner).symm
      · rfl
    refine ⟨path, ?_⟩
    simp only [KVMapper.extendSequence, hcache, Bool.not_false, if_true]
    rw [hsame]
    exact ⟨h.placement, h.accounts, h.contents, fun d hd => Or.inl (h.owner_eq_leaf hhand hd)⟩
  | true =>
    have hhistory := h.history_ne_nil hc hready
    have hmem := h.placement.mem_owner hc
    have hmemReady : c.seqId ∈ (s.mapper.tree.data c.owner).readySeqIds :=
      (h.placement.registers.readied _ _).mpr (Or.inl ⟨c, hc, rfl, rfl, hready⟩)
    rw [howner] at hmem hmemReady
    obtain ⟨path', hshape, hgrow, htarget, hdata⟩ :=
      h.placement.shape.extendSeqId_spec hmem hmemReady hhistory
    simp only [KVMapper.extendSequence, hcache, Bool.not_true, Bool.false_eq_true, if_false]
    generalize s.mapper.tree.extendSeqId c.leaf c.seqId c.history c.history.length =
      extended at hshape hgrow htarget hdata
    obtain ⟨tree, n⟩ := extended
    rw [← howner] at hdata
    have hshorter : ∀ m, s.mapper.tree.Alive m → path' m <+: path m := fun m hm => (hgrow m hm).2
    have hplacement := h.placement.extend h.accounts.nodup hc hready
      (h.accounts.not_idle hc) hshape hshorter
      (le_of_eq (congrArg List.length htarget)) hdata
    have hcontents : Contents s.mapper.memory path' s.live s.mapper.freeSeqIds idle := by
      refine h.contents.shorten (fun d hd => ?_) (fun d hd => ?_) (fun k i hi => ?_)
      · exact hshorter _ (h.placement.leaf_alive (Or.inl ⟨d, hd, rfl⟩))
      · exact hshorter _ (h.placement.alive_of_registered (h.placement.mem_owner hd))
      · exact hshorter _ (h.placement.alive_of_registered (h.placement.mem_idle hi))
    have hnroot : n ≠ rootId := by
      rintro rfl
      exact hhistory (htarget.symm.trans hshape.rootPath)
    have hbooks : Books { s with
        mapper := { s.mapper with tree := tree }
        live := s.live.map fun d => if d.seqId = c.seqId then { d with owner := n } else d
        hand := some c.seqId } path' idle := by
      refine ⟨hplacement, ?_, ?_, fun d hd => ?_⟩
      · exact h.accounts.congr (map_seqId_change fun _ => rfl) rfl rfl (fun _ => Iff.rfl) rfl
      · refine hcontents.change h.accounts hc ?_ fun _ _ => rfl
        have hsound' := hcontents.clients c hc
        have hcover : path' n <+: c.history := htarget ▸ List.prefix_refl _
        exact ⟨hsound'.leafPath, hsound'.leafRoot, hsound'.order,
          fun _ => ⟨hprompt, hnroot, hcover⟩, hsound'.cells⟩
      · rcases (mem_change h.accounts.nodup hc d).mp hd with ⟨hd, _⟩ | rfl
        · exact Or.inl (h.owner_eq_leaf hhand hd)
        · exact Or.inr ⟨rfl, hready, hcache⟩
    exact ⟨path', hbooks.setCellCount c.seqId c.history.length⟩

/-- A client's sequence is freed, or parked at its owner as the sole ready one. -/
theorem releaseSequence (h : Books s path idle) {c : Client} (hc : c ∈ s.live)
    (hhand : s.hand = none ∨ s.hand = some c.seqId) :
    ∃ idle', Books { s with mapper := s.mapper.releaseSequence c.seqId c.owner
                            live := s.live.filter fun d => d.seqId ≠ c.seqId
                            holds := c.leaf :: s.holds
                            hand := none } path idle' := by
  have hmem := h.placement.mem_owner hc
  have hspec := h.placement.shape.releaseSeqId_spec hmem s.mapper.config.prefixCacheEnabled
  have howners : ∀ d ∈ s.live.filter (fun d => d.seqId ≠ c.seqId), d.owner = d.leaf := by
    intro d hd
    simp only [List.mem_filter, decide_eq_true_eq] at hd
    rcases h.owners d hd.1 with heq | ⟨heq, _⟩
    · exact heq
    · rcases hhand with hnone | hsome
      · rw [hnone] at heq
        contradiction
      · rw [hsome] at heq
        exact absurd (Option.some.inj heq).symm hd.2
  split at hspec
  · rename_i hretain
    obtain ⟨hcache, hready, hsize⟩ := hretain
    have hsole : ∀ i ∈ (s.mapper.tree.data c.owner).seqIds, i = c.seqId := fun i hi =>
      OrderedSet.eq_of_size_le_one hsize hi hmem
    have hcready : c.ready = true := by
      rcases (h.placement.registers.readied _ _).mp hready with ⟨d, hd, _, hseq, hdready⟩ | hidle
      · exact client_unique h.accounts.nodup hd hc hseq ▸ hdready
      · exact absurd hidle (h.accounts.not_idle hc _)
    have hvacant : idle c.owner = none := by
      cases hidle : idle c.owner with
      | none => rfl
      | some i =>
        have heq := hsole i (h.placement.mem_idle hidle)
        exact absurd (heq ▸ hidle) (h.accounts.not_idle hc _)
    have hcovering := h.placement.covering_of_sole hready hsole
    obtain ⟨_, hroot, _⟩ := (h.contents.clients c hc).ready hcready
    refine ⟨Function.update idle c.owner (some c.seqId), ?_⟩
    simp only [KVMapper.releaseSequence, hspec, Bool.false_eq_true, if_false, hcovering, if_true]
    refine ⟨?_, ?_, ?_, fun d hd => Or.inl (howners d hd)⟩
    · exact h.placement.park h.accounts.nodup hc hcready hsole hroot
    · exact h.accounts.park hc hvacant hcache rfl rfl rfl rfl
    · refine h.contents.park h.accounts hc hcready fun j => ?_
      simp only [LlamaMemory.seqRm_cells, (h.contents.clients c hc).cells,
        LlamaMemory.tape_filter_not_inRange]
  · obtain ⟨hfreed, hshape, hdata⟩ := hspec
    refine ⟨idle, ?_⟩
    simp only [KVMapper.releaseSequence, hfreed, if_true]
    refine ⟨?_, ?_, ?_, fun d hd => Or.inl (howners d hd)⟩
    · exact h.placement.leave h.accounts.nodup hc (h.accounts.not_idle hc) hshape hdata
    · exact h.accounts.giveBack hc rfl rfl rfl rfl
    · exact h.contents.giveBack h.accounts hc fun j => KVMapper.freeSequence_cells _ c.seqId j

end Books

end RadixForge
