import RadixForge.Session.DeadBranches
import RadixForge.Session.Results

/-!
# Relieving the memory pressure

`evict_kv_pressure` evicts one idle node after the other while more cells are recorded than the high
watermark allows. Each eviction takes away the record of a sequence, so the loop ends, and it ends
at the watermark or without an idle owner. What it changes is what the evicted ids had; a referenced
node keeps its data.
-/

namespace RadixForge

open Library

namespace KVMapper

/-- The pool and the tree share the ids out between them, each id at one node, and the tree's are
counted. -/
structure Housed (m : KVMapper) (path : NodeId → List Token) : Prop where
  shape : Shape m.tree path
  coherent : m.tree.Coherent
  once : ∀ i a b, i ∈ (m.tree.data a).seqIds → i ∈ (m.tree.data b).seqIds → a = b
  pool : m.freeSeqIds.Nodup
  apart : ∀ i ∈ m.freeSeqIds, ¬ m.tree.Registered i
  counted : ∀ i, m.tree.Registered i → i ∈ m.seqCellCounts

/-- What evictions do: the evicted ids go from the tree to the pool and lose cells, count and
retained mark; nothing else changes but the nodes without references. -/
structure Relieves (m m' : KVMapper) (evicted : List SeqId) : Prop where
  config : m'.config = m.config
  pool : m'.freeSeqIds = m.freeSeqIds ++ evicted
  registered : ∀ i, m'.tree.Registered i ↔ m.tree.Registered i ∧ i ∉ evicted
  owned : ∀ i ∈ evicted, m.tree.Registered i
  cleared : ∀ i ∈ evicted, m'.memory.cells i = [] ∧ i ∉ m'.seqCellCounts ∧ i ∉ m'.retainedSeqIds
  kept : ∀ i, i ∉ evicted → m'.memory.cells i = m.memory.cells i ∧
    m'.seqCellCounts.lookup i = m.seqCellCounts.lookup i ∧
    (i ∈ m'.retainedSeqIds ↔ i ∈ m.retainedSeqIds)
  referenced : ∀ n, 0 < (m.tree.data n).refCount → m'.tree.data n = m.tree.data n

/-- Without an eviction nothing changes. -/
theorem Relieves.refl (m : KVMapper) : m.Relieves m [] where
  config := rfl
  pool := (List.append_nil _).symm
  registered i := by simp
  owned i hi := absurd hi List.not_mem_nil
  cleared i hi := absurd hi List.not_mem_nil
  kept i _ := ⟨rfl, rfl, Iff.rfl⟩
  referenced n _ := rfl

/-- Evictions after evictions. An id evicted first is not in the tree any more. -/
theorem Relieves.trans {m m₁ m₂ : KVMapper} {first second : List SeqId} (h₁ : m.Relieves m₁ first)
    (h₂ : m₁.Relieves m₂ second) : m.Relieves m₂ (first ++ second) where
  config := h₂.config.trans h₁.config
  pool := by rw [h₂.pool, h₁.pool, List.append_assoc]
  registered i := by rw [h₂.registered, h₁.registered, List.mem_append, not_or, and_assoc]
  owned i hi := by
    rcases List.mem_append.mp hi with hi | hi
    · exact h₁.owned i hi
    · exact ((h₁.registered i).mp (h₂.owned i hi)).1
  cleared i hi := by
    by_cases hsecond : i ∈ second
    · exact h₂.cleared i hsecond
    · have hfirst := (List.mem_append.mp hi).resolve_right hsecond
      obtain ⟨hcells, hcount, hretained⟩ := h₁.cleared i hfirst
      obtain ⟨hcells', hcount', hretained'⟩ := h₂.kept i hsecond
      refine ⟨hcells'.trans hcells, ?_, fun hmem => hretained (hretained'.mp hmem)⟩
      rw [← AList.lookup_eq_none, hcount', AList.lookup_eq_none]
      exact hcount
  kept i hi := by
    rw [List.mem_append, not_or] at hi
    obtain ⟨hcells, hcount, hretained⟩ := h₁.kept i hi.1
    obtain ⟨hcells', hcount', hretained'⟩ := h₂.kept i hi.2
    exact ⟨hcells'.trans hcells, hcount'.trans hcount, hretained'.trans hretained⟩
  referenced n hn := by
    have hsame := h₁.referenced n hn
    rw [h₂.referenced n (hsame ▸ hn), hsame]

section Freeing

variable (m : KVMapper) (ids : List SeqId)

/-- The sequences that are freed go to the end of the pool. -/
@[simp] theorem foldl_freeSequence_freeSeqIds :
    (ids.foldl freeSequence m).freeSeqIds = m.freeSeqIds ++ ids := by
  induction ids generalizing m with
  | nil => exact (List.append_nil _).symm
  | cons i rest ih => simp [ih, freeSequence]

/-- The sequences that are freed lose their cells, and no other does. -/
theorem foldl_freeSequence_cells (j : SeqId) :
    (ids.foldl freeSequence m).memory.cells j = if j ∈ ids then [] else m.memory.cells j := by
  induction ids generalizing m with
  | nil => rfl
  | cons i rest ih =>
    rw [List.foldl_cons, ih, freeSequence_cells]
    by_cases hrest : j ∈ rest <;> by_cases hj : j = i <;> simp [hrest, hj]

/-- The sequences that are freed lose their counts, and no other does. -/
theorem foldl_freeSequence_lookup (j : SeqId) :
    (ids.foldl freeSequence m).seqCellCounts.lookup j =
      if j ∈ ids then none else m.seqCellCounts.lookup j := by
  induction ids generalizing m with
  | nil => rfl
  | cons i rest ih =>
    have herase : (m.freeSequence i).seqCellCounts.lookup j =
        if j = i then none else m.seqCellCounts.lookup j := by
      split
      · rename_i heq
        subst heq
        exact AList.lookup_erase _ _
      · rename_i hne
        exact AList.lookup_erase_ne hne
    rw [List.foldl_cons, ih, herase]
    by_cases hrest : j ∈ rest <;> by_cases hj : j = i <;> simp [hrest, hj]

/-- The sequences that are freed are retained no more. -/
theorem foldl_freeSequence_retained (j : SeqId) :
    j ∈ (ids.foldl freeSequence m).retainedSeqIds ↔ j ∈ m.retainedSeqIds ∧ j ∉ ids := by
  induction ids generalizing m with
  | nil => simp
  | cons i rest ih =>
    rw [List.foldl_cons, ih, freeSequence, Finset.mem_erase, List.mem_cons, not_or]
    tauto

end Freeing

section Evicting

variable {m : KVMapper} {path : NodeId → List Token}

/-- After an eviction the node lists nothing and every other node what it listed. -/
theorem Housed.evict_registered (h : m.Housed path) {n : NodeId} (hn : m.tree.Evictable n)
    (i : SeqId) :
    (m.tree.evict n).1.Registered i ↔ m.tree.Registered i ∧ i ∉ (m.tree.data n).seqIds := by
  obtain ⟨_, _, hdata, _⟩ := h.shape.evict_spec h.coherent hn
  unfold RadixTree.Registered
  rw [hdata]
  constructor
  · rintro ⟨k, hk⟩
    by_cases hkn : k = n
    · rw [hkn, Function.update_self] at hk
      exact absurd hk (OrderedSet.notMem_empty i)
    · rw [Function.update_of_ne hkn] at hk
      exact ⟨⟨k, hk⟩, fun hmem => hkn (h.once i k n hk hmem)⟩
  · rintro ⟨⟨k, hk⟩, hnot⟩
    have hkn : k ≠ n := fun heq => hnot (heq ▸ hk)
    exact ⟨k, by rwa [Function.update_of_ne hkn]⟩

/-- One eviction relieves its node of all the ids there. -/
theorem Housed.evictNode_relieves (h : m.Housed path) {n : NodeId} (hn : m.tree.Evictable n) :
    m.Relieves (m.evictNode n) (m.tree.data n).seqIds.toList := by
  obtain ⟨_, _, hdata, _⟩ := h.shape.evict_spec h.coherent hn
  have htree : (m.evictNode n).tree = (m.tree.evict n).1 := foldl_freeSequence_tree _ _
  constructor
  · exact foldl_freeSequence_config _ _
  · exact foldl_freeSequence_freeSeqIds _ _
  · intro i
    rw [htree]
    exact h.evict_registered hn i
  · exact fun i hi => ⟨n, hi⟩
  · intro i hi
    refine ⟨(foldl_freeSequence_cells _ _ i).trans (if_pos hi), ?_, fun hmem => ?_⟩
    · rw [← AList.lookup_eq_none]
      exact (foldl_freeSequence_lookup _ _ i).trans (if_pos hi)
    · exact ((foldl_freeSequence_retained _ _ i).mp hmem).2 hi
  · intro i hi
    refine ⟨(foldl_freeSequence_cells _ _ i).trans (if_neg hi),
      (foldl_freeSequence_lookup _ _ i).trans (if_neg hi), ?_⟩
    exact (foldl_freeSequence_retained _ _ i).trans (and_iff_left hi)
  · intro k hk
    have hkn : k ≠ n := fun heq => hk.ne' (heq ▸ hn.2.1)
    rw [htree, hdata, Function.update_of_ne hkn]

/-- An eviction keeps the ids housed. -/
theorem Housed.evictNode (h : m.Housed path) {n : NodeId} (hn : m.tree.Evictable n) :
    (m.evictNode n).Housed path := by
  obtain ⟨_, hshape, hdata, _⟩ := h.shape.evict_spec h.coherent hn
  have hrelieves := h.evictNode_relieves hn
  have htree : (m.evictNode n).tree = (m.tree.evict n).1 := foldl_freeSequence_tree _ _
  have hlisted (i : SeqId) (a : NodeId) (ha : i ∈ ((m.evictNode n).tree.data a).seqIds) :
      i ∈ (m.tree.data a).seqIds := by
    rw [htree, hdata] at ha
    by_cases han : a = n
    · rw [han, Function.update_self] at ha
      exact absurd ha (OrderedSet.notMem_empty i)
    · rwa [Function.update_of_ne han] at ha
  constructor
  · rw [htree]
    exact hshape
  · rw [htree]
    exact h.coherent.update (NodeData.Coherent.clear _) hdata
  · exact fun i a b ha hb => h.once i a b (hlisted i a ha) (hlisted i b hb)
  · rw [hrelieves.pool, List.nodup_append']
    exact ⟨h.pool, OrderedSet.nodup _, fun i hfree hi => h.apart i hfree (hrelieves.owned i hi)⟩
  · intro i hi hreg
    obtain ⟨hreg, hnot⟩ := (hrelieves.registered i).mp hreg
    rw [hrelieves.pool, List.mem_append] at hi
    exact h.apart i (hi.resolve_right hnot) hreg
  · intro i hreg
    obtain ⟨hreg, hnot⟩ := (hrelieves.registered i).mp hreg
    rw [← AList.lookup_isSome, (hrelieves.kept i hnot).2.1, AList.lookup_isSome]
    exact h.counted i hreg

/-- The candidate search settles with its first turn, whatever its bound. -/
theorem Housed.evictOneLoop_eq (h : m.Housed path) (fuel : ℕ) :
    evictOneLoop (fuel + 1) m = m.evictOne := by
  unfold evictOne evictOneLoop
  cases hcandidates : m.tree.findEvictionCandidates 1 with
  | nil => rfl
  | cons n rest =>
    have hn : m.tree.Evictable n :=
      RadixTree.evictable_of_candidate (hcandidates ▸ (List.mem_cons_self : n ∈ n :: rest))
    have hsome : (m.tree.evict n).2 ≠ [] := by
      rw [(h.shape.evict_spec h.coherent hn).1]
      exact hn.ids_ne_nil
    simp only [if_neg hsome]

/-- The recorded ids become fewer by an eviction. -/
theorem Relieves.entries_lt {m' : KVMapper} {evicted : List SeqId}
    (hrelieves : m.Relieves m' evicted) (h : m.Housed path) (hsome : evicted ≠ []) :
    m'.seqCellCounts.entries.length < m.seqCellCounts.entries.length := by
  have hlength (counts : AList (fun _ : SeqId => ℕ)) :
      counts.entries.length = counts.keys.toFinset.card := by
    rw [List.toFinset_card_of_nodup counts.keys_nodup, AList.keys, List.keys, List.length_map]
  obtain ⟨i, hi⟩ := List.exists_mem_of_ne_nil evicted hsome
  rw [hlength, hlength]
  refine Finset.card_lt_card ((Finset.ssubset_iff_of_subset fun j hj => ?_).mpr ⟨i, ?_, ?_⟩)
  · rw [List.mem_toFinset, ← AList.mem_keys] at hj ⊢
    by_cases hevicted : j ∈ evicted
    · exact absurd hj (hrelieves.cleared j hevicted).2.1
    · rw [← AList.lookup_isSome, ← (hrelieves.kept j hevicted).2.1, AList.lookup_isSome]
      exact hj
  · rw [List.mem_toFinset, ← AList.mem_keys]
    exact h.counted i (hrelieves.owned i hi)
  · rw [List.mem_toFinset, ← AList.mem_keys]
    exact (hrelieves.cleared i hi).2.1

/-- The mapper after a number of evictions. -/
def evicted (m : KVMapper) (k : ℕ) : KVMapper := (fun m => m.evictOne.1)^[k] m

/-- A loop of evictions while too many cells are recorded, with the turns it takes: the last mapper
is at the watermark or without a candidate, and those before it were neither. -/
structure Settles (m : KVMapper) (k : ℕ) : Prop where
  pressed : ∀ j < k, m.config.highWatermark < (m.evicted j).kvCellsUsed ∧
    (m.evicted j).evictOne.2 = true
  settled : (m.evicted k).kvCellsUsed ≤ m.config.highWatermark ∨
    (m.evicted k).evictOne = (m.evicted k, false) ∧ ∀ n, ¬ (m.evicted k).tree.Evictable n

/-- The loop of `evict_kv_pressure` settles before it runs out of turns. -/
theorem Housed.evictKvPressureLoop (h : m.Housed path) {fuel : ℕ}
    (hfuel : m.seqCellCounts.entries.length < fuel) :
    ∃ k ids, KVMapper.evictKvPressureLoop fuel m = m.evicted k ∧ m.Settles k ∧
      m.Relieves (m.evicted k) ids ∧
      (∀ j ≤ k, (m.evicted j).Housed path) := by
  induction fuel generalizing m with
  | zero => exact absurd hfuel (Nat.not_lt_zero _)
  | succ fuel ih =>
    have hstay (hsettled : m.kvCellsUsed ≤ m.config.highWatermark ∨ m.evictOne = (m, false) ∧
        ∀ n, ¬ m.tree.Evictable n) :
        m.Settles 0 ∧ m.Relieves (m.evicted 0) [] ∧ ∀ j ≤ 0, (m.evicted j).Housed path :=
      ⟨⟨fun j hj => absurd hj (Nat.not_lt_zero j), hsettled⟩, Relieves.refl m, fun j hj => by
        rw [Nat.le_zero.mp hj]
        exact h⟩
    unfold KVMapper.evictKvPressureLoop
    split
    · rename_i hpressed
      rcases evictOne_cases h.shape h.coherent with ⟨hnone, hidle⟩ | ⟨n, hn, hone⟩
      · rw [hnone]
        exact ⟨0, [], rfl, hstay (Or.inr ⟨hnone, hidle⟩)⟩
      · have hrelieves := h.evictNode_relieves hn
        have hlt := hrelieves.entries_lt h hn.ids_ne_nil
        obtain ⟨k, ids, hloop, ⟨hbefore, hafter⟩, hrest, hhoused⟩ := ih (h.evictNode hn) (by omega)
        have hsucc (j : ℕ) : m.evicted (j + 1) = (m.evictNode n).evicted j := by
          rw [KVMapper.evicted, Function.iterate_succ_apply, hone]
          rfl
        rw [hone]
        refine ⟨k + 1, (m.tree.data n).seqIds.toList ++ ids, by rw [hsucc]; exact hloop,
          ⟨?_, ?_⟩, ?_, ?_⟩
        · intro j hj
          cases j with
          | zero => exact ⟨hpressed, by rw [KVMapper.evicted, Function.iterate_zero_apply, hone]⟩
          | succ j =>
            rw [hsucc, ← hrelieves.config]
            exact hbefore j (Nat.lt_of_succ_lt_succ hj)
        · rw [hsucc, ← hrelieves.config]
          exact hafter
        · rw [hsucc]
          exact hrelieves.trans hrest
        · intro j hj
          cases j with
          | zero => exact h
          | succ j =>
            rw [hsucc]
            exact hhoused j (Nat.le_of_succ_le_succ hj)
    · rename_i hlow
      exact ⟨0, [], rfl, hstay (Or.inl (not_lt.mp hlow))⟩

/-- The turns of the loop do not depend on its bound. -/
theorem Settles.unique {k k' : ℕ} (h : m.Settles k) (h' : m.Settles k') : k = k' := by
  have hle {a b : ℕ} (ha : m.Settles a) (hb : m.Settles b) : ¬ a < b := by
    intro hlt
    obtain ⟨hpressed, hevicts⟩ := hb.pressed a hlt
    rcases ha.settled with hlow | ⟨hnone, _⟩
    · exact absurd hpressed (not_lt.mpr hlow)
    · rw [hnone] at hevicts
      exact absurd hevicts Bool.false_ne_true
  have hk := hle h h'
  have hk' := hle h' h
  omega

end Evicting

end KVMapper

/-- The ids of a mapper with books are housed. -/
theorem Books.housed {s : Session} {path : NodeId → List Token} {idle : NodeId → Option SeqId}
    (h : Books s path idle) :
    s.mapper.Housed path where
  shape := h.placement.shape
  coherent := h.placement.coherent
  once _ _ _ ha hb := h.registered_once ha hb
  pool := h.accounts.leases.free_nodup
  apart i hi := by
    rw [h.registered_iff, not_or, not_exists]
    exact ⟨h.accounts.leases.free_held i hi, h.accounts.leases.free_idle i hi⟩
  counted i hi := (h.accounts.counts i).mpr ((h.registered_iff i).mp hi)

/-- In every reachable state `evict_kv_pressure` ends, whatever larger bound its loops are given. It
evicts one idle node after the other, each while the recorded cells exceed the watermark, and stops
at the watermark or without an idle node that owns sequences. The evicted ids go to the pool, each
once, and lose their cells, count and retained mark; the other ids keep theirs, and a referenced
node its sequences, their counts and ready marks. -/
theorem kv_pressure_relieved (config : Config) (order : ChildOrder) (calls : List Call)
    (s : Session) (hrun : (Session.init config order).Run calls s) :
    ∃ k evicted, s.mapper.evictKvPressure = s.mapper.evicted k ∧ s.mapper.Settles k ∧
      (∀ fuel, s.mapper.seqCellCounts.entries.length < fuel →
        KVMapper.evictKvPressureLoop fuel s.mapper = s.mapper.evictKvPressure) ∧
      (∀ j ≤ k, ∀ fuel, KVMapper.evictOneLoop (fuel + 1) (s.mapper.evicted j) =
        (s.mapper.evicted j).evictOne) ∧
      s.mapper.Relieves s.mapper.evictKvPressure evicted ∧
      s.mapper.evictKvPressure.freeSeqIds.Nodup ∧
      ∀ n, 0 < (s.mapper.tree.data n).refCount →
      s.mapper.evictKvPressure.tree.data n = s.mapper.tree.data n ∧
        ∀ i ∈ (s.mapper.tree.data n).seqIds,
          s.mapper.evictKvPressure.seqCellCounts.lookup i = s.mapper.seqCellCounts.lookup i := by
  obtain ⟨path, idle, hbooks⟩ := Session.run_sound hrun
  have h := hbooks.housed
  obtain ⟨k, evicted, hloop, hsettles, hrelieves, hhoused⟩ :=
    h.evictKvPressureLoop (Nat.lt_succ_self _)
  have hpressure : s.mapper.evictKvPressure = s.mapper.evicted k := hloop
  refine ⟨k, evicted, hpressure, hsettles, fun fuel hfuel => ?_,
    fun j hj fuel => (hhoused j hj).evictOneLoop_eq fuel, hpressure ▸ hrelieves,
    hpressure ▸ (hhoused k le_rfl).pool, fun n hn => ?_⟩
  · obtain ⟨k', _, hloop', hsettles', _⟩ := h.evictKvPressureLoop hfuel
    rw [hloop', hpressure, hsettles'.unique hsettles]
  · rw [hpressure]
    refine ⟨hrelieves.referenced n hn, fun i hi => (hrelieves.kept i fun hevicted => ?_).2.1⟩
    -- an evicted id is in the tree no more, but its node still lists it
    refine ((hrelieves.registered i).mp ⟨n, ?_⟩).2 hevicted
    rw [hrelieves.referenced n hn]
    exact hi

/-- A retained sequence goes as soon as its cells exceed the watermark. -/
theorem kv_pressure_relieved_retained : ∃ s,
    (Session.init ⟨3, 1, true⟩ .stored).Run
      [.prepare [1, 2], .decode 1 1 0, .decode 1 2 1, .markReady 1 1, .extend 1 1 [1, 2],
        .releaseSequence 1 1, .release 1] s ∧ s.mapper.freeSeqIds = [2] ∧
      s.mapper.evictKvPressure.freeSeqIds = [2, 1] ∧ ∃ k, s.mapper.Settles k := by
  have hrun : (run Session.step (Session.init ⟨3, 1, true⟩ .stored) [.prepare [1, 2],
      .decode 1 1 0, .decode 1 2 1, .markReady 1 1, .extend 1 1 [1, 2], .releaseSequence 1 1,
      .release 1]).any (fun s =>
        s.mapper.freeSeqIds = [2] ∧ s.mapper.evictKvPressure.freeSeqIds = [2, 1]) = true := by
          decide +kernel
  obtain ⟨s, hs, hcond⟩ := (Option.any_eq_true _ _).mp hrun
  obtain ⟨hfree, hevicted⟩ := of_decide_eq_true hcond
  obtain ⟨k, _, _, hsettles, _⟩ := kv_pressure_relieved _ _ _ s hs
  exact ⟨s, hs, hfree, hevicted, k, hsettles⟩

end RadixForge
