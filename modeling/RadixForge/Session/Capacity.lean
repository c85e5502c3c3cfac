import RadixForge.Session.Results
import RadixForge.Tree.Branches

/-!
# Reclaiming idle capacity

With no client left, a preparation fails in one situation only. A pool of a single id has its id
parked at the node in whose run the new prompt ends; inserting the prompt takes a reference on
that node before the allocation looks for something to evict, and memory pressure did not evict
it before.
-/

namespace RadixForge

open Library

/-- No client, no reference to give back. -/
def Session.Quiet (s : Session) : Prop := s.live = [] ∧ s.holds = [] ∧ s.hand = none

instance (s : Session) : Decidable s.Quiet := inferInstanceAs (Decidable (_ = _ ∧ _ = _ ∧ _ = _))

/-- The single usable id is parked where the prompt ends, and the recorded cells cause no pressure.
-/
def KVMapper.OwnerPinned (m : KVMapper) (prompt : List Token) : Prop :=
  m.config.maxSequences = 2 ∧ m.kvCellsUsed ≤ m.config.highWatermark ∧
    ∃ n, (m.tree.data n).seqIds ≠ ∅ ∧ m.tree.EndsIn n prompt

/-- Without pressure nothing is evicted. -/
theorem KVMapper.evictKvPressure_of_le {m : KVMapper} (h : m.kvCellsUsed ≤ m.config.highWatermark) :
    m.evictKvPressure = m := by
  unfold KVMapper.evictKvPressure KVMapper.evictKvPressureLoop
  rw [if_neg (not_lt.mpr h)]

/-- A nonempty pool serves the preparation. -/
theorem KVMapper.prepare_of_free (m : KVMapper) (prompt : List Token)
    (hfree : (m.countRequest prompt).evictKvPressure.freeSeqIds ≠ []) :
    ∃ result, (m.prepareSequence prompt).2 = .ok result := by
  have hpool : (m.admitPrompt prompt).1.freeSeqIds ≠ [] := hfree
  unfold KVMapper.prepareSequence
  generalize m.admitPrompt prompt = admitted at hpool ⊢
  obtain ⟨m', found⟩ := admitted
  obtain ⟨i, rest, hrest⟩ := List.exists_cons_of_ne_nil hpool
  simp only [KVMapper.allocateSeqId_of_free hrest]
  exact ⟨_, rfl⟩

namespace Books

variable {s : Session} {path : NodeId → List Token} {idle : NodeId → Option SeqId}

/-- In a quiet session what is registered is idle and can be evicted. -/
theorem evictable_of_quiet (h : Books s path idle) (hquiet : s.Quiet) {n : NodeId} {i : SeqId}
    (hi : idle n = some i) :
    s.mapper.tree.Evictable n := by
  refine ⟨h.placement.idleNode n i hi, ?_, fun hempty => ?_⟩
  · rw [h.placement.refs, hquiet.1, hquiet.2.1, if_neg (h.placement.idleNode n i hi)]
    rfl
  · exact OrderedSet.notMem_empty i (hempty ▸ h.placement.mem_idle hi)

/-- Memory pressure in a quiet session frees an id. -/
theorem free_of_pressure (h : Books s path idle) (hquiet : s.Quiet)
    (hused : s.mapper.config.highWatermark < s.mapper.kvCellsUsed) :
    s.mapper.evictKvPressure.freeSeqIds ≠ [] := by
  have hcounted : ∃ n i, idle n = some i := by
    by_contra hnone
    push Not at hnone
    have hcounts : s.mapper.seqCellCounts.entries = [] := by
      rw [List.eq_nil_iff_forall_not_mem]
      intro entry hentry
      have hmem : entry.1 ∈ s.mapper.seqCellCounts :=
        AList.mem_keys.mpr (List.mem_map_of_mem hentry)
      rcases (h.accounts.counts _).mp hmem with hlive | ⟨n, hn⟩
      · rw [hquiet.1] at hlive
        exact absurd hlive List.not_mem_nil
      · exact hnone n _ hn
    rw [KVMapper.kvCellsUsed, hcounts] at hused
    exact absurd hused (Nat.not_lt_zero _)
  obtain ⟨n, i, hi⟩ := hcounted
  rcases h.evictOne hquiet.2.2 with ⟨_, hnone⟩ | ⟨htrue, _, j, _, _, hbooks, _, hfree⟩
  · exact absurd (h.evictable_of_quiet hquiet hi) (hnone n)
  · unfold KVMapper.evictKvPressure KVMapper.evictKvPressureLoop
    rw [if_pos hused]
    generalize s.mapper.evictOne = outcome at htrue hbooks hfree
    obtain ⟨m, evicted⟩ := outcome
    simp only at htrue hbooks hfree
    subst htrue
    obtain ⟨_, _, _, hgrows⟩ :=
      hbooks.evictKvPressureLoop hquiet.2.2 s.mapper.seqCellCounts.entries.length
    intro hnil
    have hpool : s.mapper.freeSeqIds ++ [j] <+: [] := by
      rw [← hfree]
      exact hnil ▸ hgrows
    simp at hpool

/-- Without memory pressure an empty pool fails the preparation exactly if every idle sequence is at
the node the prompt is inserted at. -/
theorem prepare_of_empty (h : Books s path idle) (hquiet : s.Quiet) (prompt : List Token)
    (hused : s.mapper.kvCellsUsed ≤ s.mapper.config.highWatermark)
    (hfree : s.mapper.freeSeqIds = []) :
    (∃ result, (s.mapper.prepareSequence prompt).2 = .ok result) ↔
      ∃ n i, idle n = some i ∧ n ≠ (s.mapper.tree.insert prompt).2.node := by
  have hcounted : Books { s with mapper := s.mapper.countRequest prompt } path idle := h.metrics _
  obtain ⟨path', hpreparing⟩ := hcounted.insert prompt
  have hadmit : s.mapper.admitPrompt prompt =
      ({ s.mapper.countRequest prompt with tree := (s.mapper.tree.insert prompt).1 },
        (s.mapper.tree.insert prompt).2) := by
    have hquietPool : (s.mapper.countRequest prompt).evictKvPressure =
        s.mapper.countRequest prompt :=
      KVMapper.evictKvPressure_of_le hused
    simp only [KVMapper.admitPrompt, hquietPool]
    rfl
  have hbooks := hpreparing.books
  simp only [KVMapper.prepareSequence, hadmit]
  simp only at hbooks
  have hinserted : (s.mapper.countRequest prompt).tree.insert prompt =
      s.mapper.tree.insert prompt := rfl
  rw [hinserted] at hbooks
  generalize (s.mapper.tree.insert prompt).1 = tree at hbooks ⊢
  generalize (s.mapper.tree.insert prompt).2 = found at hbooks ⊢
  have hpool : ({ s.mapper.countRequest prompt with tree := tree } : KVMapper).freeSeqIds =
      [] := hfree
  generalize ({ s.mapper.countRequest prompt with tree := tree } : KVMapper) = m at hbooks hpool ⊢
  have hevictable (n : NodeId) : m.tree.Evictable n ↔ ∃ i, idle n = some i ∧ n ≠ found.node := by
    have hrefs := hbooks.placement.refs n
    simp only [hquiet.1, hquiet.2.1, List.countP_nil, Nat.zero_add] at hrefs
    constructor
    · intro hn
      obtain ⟨_, i, hi, _⟩ := hbooks.evictable_idle hquiet.2.2 hn
      refine ⟨i, hi, ?_⟩
      rintro rfl
      have hzero := hn.2.1
      rw [hrefs, List.count_cons_self] at hzero
      omega
    · rintro ⟨i, hi, hne⟩
      refine ⟨hbooks.placement.idleNode n i hi, ?_, fun hempty => ?_⟩
      · rw [hrefs, if_neg (hbooks.placement.idleNode n i hi), List.count_cons_of_ne hne.symm]
        rfl
      · exact OrderedSet.notMem_empty i (hempty ▸ hbooks.placement.mem_idle hi)
  rcases hbooks.evictOne hquiet.2.2 with ⟨hnone, hall⟩ | ⟨_, n, i, hn, _, _, _, hrefilled⟩
  · simp only at hnone hall
    have hallocate : m.allocateSeqId = (m, none) := by
      rw [KVMapper.allocateSeqId_of_empty hpool, hnone]
      simp only [hpool]
    simp only [hallocate, reduceCtorEq, exists_false, false_iff]
    rintro ⟨n, i, hi, hne⟩
    exact hall n ((hevictable n).mpr ⟨i, hi, hne⟩)
  · simp only at hrefilled hn
    have hallocate : m.allocateSeqId = ({ m.evictOne.1 with freeSeqIds := [] }, some i) := by
      rw [hpool, List.nil_append] at hrefilled
      rw [KVMapper.allocateSeqId_of_empty hpool]
      simp only [hrefilled]
    simp only [hallocate]
    obtain ⟨j, hj, hne⟩ := (hevictable n).mp hn
    exact ⟨fun _ => ⟨n, j, hj, hne⟩, fun _ => ⟨_, rfl⟩⟩

/-- An idle sequence has one of the usable ids. -/
theorem idle_usable (h : Books s path idle) {n : NodeId} {i : ℕ} (hi : idle n = some i) :
    1 ≤ i ∧ i < s.mapper.config.maxSequences := by
  have hmem := (h.accounts.leases.cover i).mpr (Or.inr (Or.inr ⟨n, hi⟩))
  rw [List.mem_range'_1] at hmem
  omega

/-- A pool of one id has one usable id. -/
theorem usable_unique {m : KVMapper} (htwo : m.config.maxSequences = 2) {i j : ℕ}
    (hi : 1 ≤ i ∧ i < m.config.maxSequences) (hj : 1 ≤ j ∧ j < m.config.maxSequences) :
    i = j := by
  omega

/-- In a quiet session every registered sequence is idle. -/
theorem idle_of_quiet (h : Books s path idle) (hquiet : s.Quiet) {n : NodeId}
    (hn : (s.mapper.tree.data n).seqIds ≠ ∅) : ∃ i, idle n = some i := by
  obtain ⟨i, _, hi⟩ := OrderedSet.exists_first hn
  rcases (h.placement.registers.registered n i).mp hi with ⟨c, hc, _⟩ | hi
  · rw [hquiet.1] at hc
    exact absurd hc List.not_mem_nil
  · exact ⟨i, hi⟩

/-- In a quiet session with an empty pool every usable id is idle. -/
theorem idle_of_usable (h : Books s path idle) (hquiet : s.Quiet)
    (hfree : s.mapper.freeSeqIds = []) {i : ℕ} (hlow : 1 ≤ i)
    (hhigh : i < s.mapper.config.maxSequences) : ∃ n, idle n = some i := by
  have hmem : i ∈ List.range' 1 (s.mapper.config.maxSequences - 1) := by
    rw [List.mem_range'_1]
    omega
  rcases (h.accounts.leases.cover i).mp hmem with hin | hin | hidle
  · rw [hfree] at hin
    exact absurd hin List.not_mem_nil
  · rw [hquiet.1] at hin
    exact absurd hin List.not_mem_nil
  · exact hidle

/-- With an empty pool and no memory pressure there is an idle sequence away from the node of the
prompt exactly if the single usable id is not parked where the prompt ends. -/
theorem spare_iff (h : Books s path idle) (hquiet : s.Quiet)
    (hmax : 2 ≤ s.mapper.config.maxSequences) (hfree : s.mapper.freeSeqIds = [])
    (hused : s.mapper.kvCellsUsed ≤ s.mapper.config.highWatermark) {prompt : List Token}
    (hprompt : prompt ≠ []) :
    (∃ n i, idle n = some i ∧ n ≠ (s.mapper.tree.insert prompt).2.node) ↔
      ¬ s.mapper.OwnerPinned prompt := by
  have hnode := (h.placement.shape.insert_branches prompt).2.2
  constructor
  · rintro ⟨n, i, hi, hne⟩ ⟨htwo, _, k, hk, hends⟩
    obtain ⟨j, hj⟩ := h.idle_of_quiet hquiet hk
    have halive := h.placement.alive_of_registered (h.placement.mem_idle hj)
    have hkn := (hnode k halive).mpr (Or.inr hends)
    -- both owners hold the one usable id
    obtain rfl := usable_unique htwo (h.idle_usable hi) (h.idle_usable hj)
    exact hne (hkn ▸ h.accounts.leases.idle_inj n k i hi hj)
  · intro hpinned
    by_contra hnone
    push Not at hnone
    refine hpinned ?_
    have hparked (i : ℕ) (hlow : 1 ≤ i) (hhigh : i < s.mapper.config.maxSequences) :
        idle (s.mapper.tree.insert prompt).2.node = some i := by
      obtain ⟨n, hn⟩ := h.idle_of_usable hquiet hfree hlow hhigh
      exact hnone n i hn ▸ hn
    have hfirst := hparked 1 le_rfl (by omega)
    have hregistered := h.placement.mem_idle hfirst
    refine ⟨?_, hused, _, fun hempty => OrderedSet.notMem_empty 1 (hempty ▸ hregistered), ?_⟩
    · by_contra hne
      have hsecond := hparked 2 (by omega) (by omega)
      rw [hfirst] at hsecond
      exact absurd (Option.some.inj hsecond) (by decide)
    · rcases (hnode _ (h.placement.alive_of_registered hregistered)).mp rfl with ⟨_, hnil⟩ | hends
      · exact absurd hnil hprompt
      · exact hends

/-- Where a usable id is free, none is parked as the single one. -/
theorem not_pinned_of_free (h : Books s path idle) (hquiet : s.Quiet)
    (hfree : s.mapper.freeSeqIds ≠ []) (prompt : List Token) : ¬ s.mapper.OwnerPinned prompt := by
  rintro ⟨htwo, _, k, hk, _⟩
  obtain ⟨j, hj⟩ := h.idle_of_quiet hquiet hk
  obtain ⟨i, rest, hrest⟩ := List.exists_cons_of_ne_nil hfree
  have himem : i ∈ s.mapper.freeSeqIds := hrest ▸ List.mem_cons_self
  have hin := (h.accounts.leases.cover i).mpr (Or.inl himem)
  rw [List.mem_range'_1, Nat.add_sub_cancel' (htwo ▸ Nat.le_succ 1)] at hin
  obtain rfl := usable_unique htwo hin (h.idle_usable hj)
  exact h.accounts.leases.free_idle i himem k hj

/-- A preparation in a quiet session finds an id where one is free, and where the memory pressure
evicts. -/
theorem prepare_of_room (h : Books s path idle) (hquiet : s.Quiet) (prompt : List Token)
    (hroom : s.mapper.kvCellsUsed ≤ s.mapper.config.highWatermark → s.mapper.freeSeqIds ≠ []) :
    ∃ result, (s.mapper.prepareSequence prompt).2 = .ok result := by
  by_cases hused : s.mapper.kvCellsUsed ≤ s.mapper.config.highWatermark
  · refine s.mapper.prepare_of_free prompt ?_
    have hquietPool : (s.mapper.countRequest prompt).evictKvPressure =
        s.mapper.countRequest prompt :=
      KVMapper.evictKvPressure_of_le hused
    rw [hquietPool]
    exact hroom hused
  · have hcounted : Books { s with mapper := s.mapper.countRequest prompt } path idle := h.metrics _
    exact s.mapper.prepare_of_free prompt (hcounted.free_of_pressure hquiet (not_le.mp hused))

end Books

/-- In a quiet reachable session with room for a sequence, preparing a nonempty prompt succeeds
exactly if the single usable id is not parked where the prompt ends. -/
theorem prepare_succeeds_iff (config : Config) (order : ChildOrder) (hmax : 2 ≤ config.maxSequences)
    (calls : List Call) (s : Session) (hrun : (Session.init config order).Run calls s)
    (hquiet : s.Quiet) (prompt : List Token) (hprompt : prompt ≠ []) :
    (∃ result, (s.mapper.prepareSequence prompt).2 = .ok result) ↔
      ¬ s.mapper.OwnerPinned prompt := by
  obtain ⟨path, idle, h⟩ := Session.run_sound hrun
  have hconfig : s.mapper.config = config := Session.run_config hrun
  rw [← hconfig] at hmax
  by_cases hused : s.mapper.kvCellsUsed ≤ s.mapper.config.highWatermark
  · by_cases hfree : s.mapper.freeSeqIds = []
    · rw [h.prepare_of_empty hquiet prompt hused hfree]
      exact h.spare_iff hquiet hmax hfree hused hprompt
    · exact iff_of_true (h.prepare_of_room hquiet prompt fun _ => hfree)
        (h.not_pinned_of_free hquiet hfree prompt)
  · exact iff_of_true (h.prepare_of_room hquiet prompt fun hle => absurd hle hused)
      fun hpinned => hused hpinned.2.1

/-- A pool of one id, parked after a first request. -/
theorem prepare_succeeds_iff_single : ∃ s,
    (Session.init ⟨2, 64, true⟩ .stored).Run
      [.prepare [1, 2], .decode 1 1 0, .decode 1 2 1, .markReady 1 1, .extend 1 1 [1, 2],
        .releaseSequence 1 1, .release 1] s ∧
      ((∃ result, (s.mapper.prepareSequence [1, 2]).2 = .ok result) ↔
        ¬ s.mapper.OwnerPinned [1, 2]) := by
  have hrun : (run Session.step (Session.init ⟨2, 64, true⟩ .stored) [.prepare [1, 2],
      .decode 1 1 0, .decode 1 2 1, .markReady 1 1, .extend 1 1 [1, 2],
      .releaseSequence 1 1, .release 1]).any
        (fun s => s.Quiet) = true := by decide +kernel
  obtain ⟨s, hs, hcond⟩ := (Option.any_eq_true _ _).mp hrun
  exact ⟨s, hs, prepare_succeeds_iff _ _ (by decide) _ s hs
    (of_decide_eq_true hcond) [1, 2] (by decide)⟩

/-- Repeating the prompt of the only parked sequence exhausts the pool. -/
theorem prepare_fails_on_repeat :
    ¬ ∀ (config : Config) (order : ChildOrder) (calls : List Call) (s : Session),
    2 ≤ config.maxSequences → (Session.init config order).Run calls s → s.Quiet →
      ∀ prompt ≠ [], ∃ result, (s.mapper.prepareSequence prompt).2 = .ok result := by
  intro hall
  have hrun : (run Session.step (Session.init ⟨2, 64, true⟩ .stored) [.prepare [1, 2],
      .decode 1 1 0, .decode 1 2 1, .markReady 1 1, .extend 1 1 [1, 2],
      .releaseSequence 1 1, .release 1]).any
        (fun s => s.Quiet ∧ (s.mapper.prepareSequence [1, 2]).2.toOption = none) = true := by
          decide +kernel
  obtain ⟨s, hs, hcond⟩ := (Option.any_eq_true _ _).mp hrun
  obtain ⟨hquiet, hfails⟩ := of_decide_eq_true hcond
  obtain ⟨result, hresult⟩ := hall _ _ _ s (by decide) hs hquiet [1, 2] (by decide)
  rw [hresult] at hfails
  simp [Except.toOption] at hfails

end RadixForge
