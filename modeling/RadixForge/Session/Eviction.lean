import RadixForge.Session.Books

/-!
# Evictions keep the books

An eviction finds a node without references; no client owns a sequence there, so it takes exactly
one idle sequence back to the pool. The mapper evicts on demand, under memory pressure and when
a pool is empty; all three are sequences of such evictions.
-/

namespace RadixForge

open Library

namespace KVMapper

/-- The mapper after evicting a node. -/
def evictNode (m : KVMapper) (n : NodeId) : KVMapper :=
  let evicted := (m.tree.data n).seqIds.toList
  let m := evicted.foldl freeSequence { m with tree := (m.tree.evict n).1 }
  { m with metrics := { m.metrics with evictions := m.metrics.evictions + evicted.length } }

/-- `evict_one_locked` evicts a node if there is one to evict. -/
theorem evictOne_cases {m : KVMapper} {path : NodeId → List Token} (h : Shape m.tree path)
    (hcoherent : m.tree.Coherent) :
    (m.evictOne = (m, false) ∧ ∀ n, ¬ m.tree.Evictable n) ∨
      ∃ n, m.tree.Evictable n ∧ m.evictOne = (m.evictNode n, true) := by
  unfold evictOne evictOneLoop
  cases hcandidates : m.tree.findEvictionCandidates 1 with
  | nil => exact Or.inl ⟨rfl, RadixTree.not_evictable_of_no_candidate h hcandidates⟩
  | cons n rest =>
    have hn : m.tree.Evictable n :=
      RadixTree.evictable_of_candidate (hcandidates ▸ (List.mem_cons_self : n ∈ n :: rest))
    obtain ⟨hevicted, _⟩ := h.evict_spec hcoherent hn
    refine Or.inr ⟨n, hn, ?_⟩
    simp only [hevicted, if_neg hn.ids_ne_nil]
    rfl

/-- A sequence that is freed loses its cells, and no other does. -/
@[simp] theorem freeSequence_cells (m : KVMapper) (i j : SeqId) :
    (m.freeSequence i).memory.cells j = if j = i then [] else m.memory.cells j := by
  simp [freeSequence, LlamaMemory.filter_not_inRange_zero]

end KVMapper

namespace Contents

variable {memory memory' : LlamaMemory} {path : NodeId → List Token} {live : List Client}
  {free : List SeqId} {idle : NodeId → Option SeqId}

/-- Shorter paths are still covered. -/
theorem shorten (h : Contents memory path live free idle) {path' : NodeId → List Token}
    (hleaf : ∀ c ∈ live, path' c.leaf <+: path c.leaf)
    (howner : ∀ c ∈ live, path' c.owner <+: path c.owner)
    (hidle : ∀ n i, idle n = some i → path' n <+: path n) :
    Contents memory path' live free idle where
  clients c hc := by
    obtain ⟨hleafPath, hleafRoot, horder, hready, hcells⟩ := h.clients c hc
    refine ⟨(hleaf c hc).trans hleafPath, hleafRoot, horder, fun hr => ?_, hcells⟩
    obtain ⟨hprompt, hroot, hpath⟩ := hready hr
    exact ⟨hprompt, hroot, (howner c hc).trans hpath⟩
  parked n i hi := by
    obtain ⟨w, hw, hpath⟩ := h.parked n i hi
    exact ⟨w, hw, (hidle n i hi).trans hpath⟩
  free := h.free

/-- Clearing a sequence that no client owns frees it. -/
theorem reclaim (h : Contents memory path live free idle) {n : NodeId} {i : SeqId}
    (hlive : ∀ c ∈ live, c.seqId ≠ i) (hidle : ∀ k, idle k = some i → k = n)
    (hcells : ∀ j, memory'.cells j = if j = i then [] else memory.cells j) :
    Contents memory' path live (free ++ [i]) (Function.update idle n none) where
  clients c hc := by
    obtain ⟨hleafPath, hleafRoot, horder, hready, hc'⟩ := h.clients c hc
    exact ⟨hleafPath, hleafRoot, horder, hready, by rw [hcells, if_neg (hlive c hc), hc']⟩
  parked k j hk := by
    rw [Function.update_apply] at hk
    split at hk
    · contradiction
    · rename_i hkn
      rw [hcells, if_neg]
      · exact h.parked k j hk
      · rintro rfl
        exact hkn (hidle k hk)
  free j hj := by
    rw [hcells]
    split
    · rfl
    · rename_i hne
      rcases List.mem_append.mp hj with hj | hj
      · exact h.free j hj
      · exact absurd (List.mem_singleton.mp hj) hne

end Contents

namespace Books

variable {s : Session} {path : NodeId → List Token} {idle : NodeId → Option SeqId}

/-- What an evictable node holds: one idle sequence and nothing of a client. -/
theorem evictable_idle (h : Books s path idle) (hhand : s.hand = none) {n : NodeId}
    (hn : s.mapper.tree.Evictable n) :
    (∀ c ∈ s.live, c.owner ≠ n) ∧ ∃ i, idle n = some i ∧
      (s.mapper.tree.data n).seqIds.toList = [i] := by
  have hlive : ∀ c ∈ s.live, c.owner ≠ n := by
    intro c hc howner
    have hleaf : c.owner = c.leaf := by
      rcases h.owners c hc with heq | ⟨heq, _⟩
      · exact heq
      · rw [hhand] at heq
        contradiction
    have hpos := h.placement.refs_pos (n := n) (Or.inl ⟨c, hc, by rw [← hleaf, howner]⟩)
    exact hpos.ne' hn.2.1
  have hidle (i : SeqId) : i ∈ (s.mapper.tree.data n).seqIds ↔ idle n = some i := by
    rw [h.placement.registers.registered]
    refine or_iff_right ?_
    rintro ⟨c, hc, howner, _⟩
    exact hlive c hc howner
  obtain ⟨i, _, hi⟩ := OrderedSet.exists_first hn.2.2
  refine ⟨hlive, i, (hidle i).mp hi, ?_⟩
  have hsole : ∀ j ∈ (s.mapper.tree.data n).seqIds, j = i := fun j hj =>
    Option.some.inj (((hidle j).mp hj).symm.trans ((hidle i).mp hi))
  have hsize := OrderedSet.size_le_one_of_unique hsole
  have hmem : i ∈ (s.mapper.tree.data n).seqIds.toList := hi
  unfold OrderedSet.size at hsize
  match hlist : (s.mapper.tree.data n).seqIds.toList with
  | [] => simp [hlist] at hmem
  | [j] =>
    rw [hlist, List.mem_singleton] at hmem
    rw [hmem]
  | _ :: _ :: _ => simp [hlist] at hsize

/-- An eviction frees the idle sequence of its node. -/
theorem evictNode (h : Books s path idle) (hhand : s.hand = none) {n : NodeId}
    (hn : s.mapper.tree.Evictable n) :
    Books { s with mapper := s.mapper.evictNode n } path (Function.update idle n none) ∧
      s.mapper.tree.Shrinks (s.mapper.evictNode n).tree ∧
      ∃ i, idle n = some i ∧ (s.mapper.evictNode n).freeSeqIds = s.mapper.freeSeqIds ++ [i] := by
  obtain ⟨hlive, i, hi, hlist⟩ := h.evictable_idle hhand hn
  obtain ⟨_, hshape, hdata, hshrinks, _⟩ := h.placement.shape.evict_spec h.placement.coherent hn
  have hmapper : s.mapper.evictNode n =
      { ({ s.mapper with tree := (s.mapper.tree.evict n).1 } : KVMapper).freeSequence i with
        metrics := { s.mapper.metrics with evictions := s.mapper.metrics.evictions + 1 } } := by
    simp only [KVMapper.evictNode, hlist]
    rfl
  rw [hmapper]
  refine ⟨⟨?_, ?_, ?_, ?_⟩, hshrinks, i, hi, rfl⟩
  · exact h.placement.evict hlive hshape hdata
  · exact h.accounts.reclaim hi rfl rfl rfl rfl
  · refine h.contents.reclaim (fun c hc heq => h.accounts.not_idle hc n (heq ▸ hi))
      (fun k hk => h.accounts.leases.idle_inj k n i hk hi) fun j => ?_
    exact KVMapper.freeSequence_cells _ i j
  · exact h.owners

/-- `evict_one_locked` frees one idle sequence, or every idle sequence is at a referenced node. -/
theorem evictOne (h : Books s path idle) (hhand : s.hand = none) :
    (s.mapper.evictOne = (s.mapper, false) ∧ ∀ n, ¬ s.mapper.tree.Evictable n) ∨
      s.mapper.evictOne.2 = true ∧ ∃ n i, s.mapper.tree.Evictable n ∧ idle n = some i ∧
        Books { s with mapper := s.mapper.evictOne.1 } path (Function.update idle n none) ∧
        s.mapper.tree.Shrinks s.mapper.evictOne.1.tree ∧
        s.mapper.evictOne.1.freeSeqIds = s.mapper.freeSeqIds ++ [i] := by
  rcases KVMapper.evictOne_cases h.placement.shape h.placement.coherent with hnone | ⟨n, hn, hsome⟩
  · exact Or.inl hnone
  · right
    obtain ⟨hbooks, hshrinks, i, hi, hfree⟩ := h.evictNode hhand hn
    rw [hsome]
    exact ⟨rfl, n, i, hn, hi, hbooks, hshrinks, hfree⟩

/-- The weaker form that serves the loops. -/
theorem evictOne_keep (h : Books s path idle) (hhand : s.hand = none) :
    ∃ idle', Books { s with mapper := s.mapper.evictOne.1 } path idle' ∧
      s.mapper.tree.Shrinks s.mapper.evictOne.1.tree ∧
      s.mapper.freeSeqIds <+: s.mapper.evictOne.1.freeSeqIds := by
  rcases h.evictOne hhand with ⟨hnone, _⟩ | ⟨_, n, i, _, _, hbooks, hshrinks, hfree⟩
  · rw [hnone]
    exact ⟨idle, h, RadixTree.Shrinks.refl _, List.prefix_refl _⟩
  · exact ⟨_, hbooks, hshrinks, hfree ▸ List.prefix_append _ _⟩

/-- The loop of `evict_kv_pressure` keeps the books. -/
theorem evictKvPressureLoop (h : Books s path idle) (hhand : s.hand = none) (fuel : ℕ) :
    ∃ idle', Books { s with mapper := KVMapper.evictKvPressureLoop fuel s.mapper } path idle' ∧
      s.mapper.tree.Shrinks (KVMapper.evictKvPressureLoop fuel s.mapper).tree ∧
      s.mapper.freeSeqIds <+: (KVMapper.evictKvPressureLoop fuel s.mapper).freeSeqIds := by
  induction fuel generalizing s idle with
  | zero => exact ⟨idle, h, RadixTree.Shrinks.refl _, List.prefix_refl _⟩
  | succ fuel ih =>
    unfold KVMapper.evictKvPressureLoop
    split
    · obtain ⟨idle₁, hbooks, hshrinks, hfree⟩ := h.evictOne_keep hhand
      generalize s.mapper.evictOne = outcome at hbooks hshrinks hfree
      obtain ⟨m, evicted⟩ := outcome
      cases evicted with
      | false => exact ⟨idle₁, hbooks, hshrinks, hfree⟩
      | true =>
        obtain ⟨idle₂, hbooks₂, hshrinks₂, hfree₂⟩ := ih hbooks hhand
        exact ⟨idle₂, hbooks₂, hshrinks.trans hshrinks₂, hfree.trans hfree₂⟩
    · exact ⟨idle, h, RadixTree.Shrinks.refl _, List.prefix_refl _⟩

/-- `evict_kv_pressure` keeps the books. -/
theorem evictKvPressure (h : Books s path idle) (hhand : s.hand = none) :
    ∃ idle', Books { s with mapper := s.mapper.evictKvPressure } path idle' ∧
      s.mapper.tree.Shrinks s.mapper.evictKvPressure.tree ∧
      s.mapper.freeSeqIds <+: s.mapper.evictKvPressure.freeSeqIds :=
  h.evictKvPressureLoop hhand _

end Books

end RadixForge
