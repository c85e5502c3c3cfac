import RadixForge.Session.Atomicity
import RadixForge.Session.Representation
import RadixForge.Tree.Agreement

/-!
# Insertions and copy sources of a session

In every state of every run, and at every moment inside the next call, an insertion is exact and the
search for a copy source returns the nearest ready sequence above, or one below. A preparation that
evicts nothing takes over what the inspection before it reported.
-/

namespace RadixForge

open Library

/-- In every state of every run, and at every moment inside the next call, an insertion is exact. -/
theorem insert_exact (config : Config) (order : ChildOrder) (calls : List Call) (s : Session)
    (hrun : (Session.init config order).Run calls s) (tokens : List Token) :
    InsertsExactly s.mapper.tree tokens (s.mapper.tree.insert tokens).1
      (s.mapper.tree.insert tokens).2 ∧
      (s.hand = none → ∀ m, s.mapper.Within m →
        InsertsExactly m.tree tokens (m.tree.insert tokens).1 (m.tree.insert tokens).2) := by
  obtain ⟨path, idle, h⟩ := Session.run_sound hrun
  refine ⟨h.placement.shape.insert_exactly tokens, fun hhand m hm => ?_⟩
  obtain ⟨m', holds, path', idle', htree, hbooks⟩ := h.within hhand hm
  rw [← htree]
  exact hbooks.placement.shape.insert_exactly tokens

/-- A prompt that leaves the run of a pending node. -/
theorem insert_exact_split : ∃ s, (Session.init ⟨3, 64, true⟩ .stored).Run [.prepare [1, 2, 3]] s ∧
    InsertsExactly s.mapper.tree [1, 2, 4] (s.mapper.tree.insert [1, 2, 4]).1
      (s.mapper.tree.insert [1, 2, 4]).2 := by
  have hrun : (run Session.step (Session.init ⟨3, 64, true⟩ .stored) [.prepare [1, 2, 3]]).isSome =
      true := by
    decide +kernel
  obtain ⟨s, hs⟩ := Option.isSome_iff_exists.mp hrun
  exact ⟨s, hs, (insert_exact _ _ _ s hs [1, 2, 4]).1⟩

/-- A preparation that evicts nothing takes over what the inspection reported, but not the last
position. -/
theorem prepare_as_inspected (config : Config) (order : ChildOrder) (calls : List Call)
    (s : Session) (hrun : (Session.init config order).Run calls s)
    (henabled : config.prefixCacheEnabled = true) (prompt : List Token)
    (hready : 0 < (s.mapper.inspectPrefix prompt).readyTokens)
    (hkept : (s.mapper.prepareSequence prompt).1.metrics.evictions = s.mapper.metrics.evictions) :
    (∀ result, (s.mapper.prepareSequence prompt).2 = .ok result →
        result.cachedPos = min (s.mapper.inspectPrefix prompt).readyTokens (prompt.length - 1)) ∧
      ((∃ result, (s.mapper.prepareSequence prompt).2 = .ok result) ↔
        s.mapper.freeSeqIds ≠ []) := by
  obtain ⟨path, idle, h⟩ := Session.run_sound hrun
  have hconfig := Session.run_config hrun
  have hplacement := h.placement
  have hroot : ¬ s.mapper.tree.Ready rootId := by
    intro hroot
    obtain ⟨i, hi, _⟩ := OrderedSet.exists_first hroot
    rcases (hplacement.registers.readied rootId i).mp (OrderedSet.mem_of_first hi) with
      ⟨c, hc, howner, _, hcready⟩ | hidle
    · exact ((h.contents.clients c hc).ready hcready).2.1 howner
    · exact hplacement.idleNode rootId i hidle rfl
  obtain ⟨hle, source, hsource⟩ :=
    hplacement.shape.insert_covers hplacement.coherent hplacement.canonical hroot prompt hready
  obtain ⟨_, hinserted⟩ := insert_spec hplacement.shape prompt
  refine ⟨fun result hresult => ?_, ?_⟩
  · obtain ⟨i, rest, _, hbind⟩ :=
      KVMapper.prepare_binds hplacement.shape hplacement.coherent (Prod.ext rfl hresult) hkept
    have hcopy : KVMapper.copySource { s.mapper.countRequest prompt with
        tree := (s.mapper.tree.insert prompt).1
        freeSeqIds := rest } (s.mapper.tree.insert prompt).2 =
          some (source, (s.mapper.inspectPrefix prompt).readyTokens) := by
      rw [KVMapper.copySource, if_pos]
      · exact hsource
      · exact ⟨(congrArg Config.prefixCacheEnabled hconfig).trans henabled, hready.trans_le hle⟩
    have hcached := congrArg (fun outcome => outcome.2.cachedPos) hbind
    simp only [KVMapper.bindSequence, hcopy, KVMapper.cachedPosition] at hcached
    have hmatched := hinserted.matched_le
    change (s.mapper.inspectPrefix prompt).readyTokens ≤ _ at hle
    have hprompt : prompt ≠ [] := by
      rintro rfl
      exact absurd (hready.trans_le (hle.trans hmatched)) (lt_irrefl _)
    simp only [min_eq_right hle, hprompt, ne_eq, not_false_eq_true, true_and] at hcached
    rw [← hcached]
    split <;> omega
  · obtain ⟨_, hallocate⟩ :=
      KVMapper.prepare_undisturbed hplacement.shape hplacement.coherent prompt hkept
    simp only [KVMapper.prepareSequence, hallocate]
    cases s.mapper.freeSeqIds <;> simp

/-- A prompt that goes on behind a ready one. -/
theorem prepare_as_inspected_longer : ∃ s,
    (Session.init ⟨3, 64, true⟩ .stored).Run
      [.prepare [1, 2], .decode 1 1 0, .decode 1 2 1, .markReady 1 1] s ∧
      ∃ result, (s.mapper.prepareSequence [1, 2, 3]).2 = .ok result ∧ result.cachedPos = 2 := by
  have hrun : (run Session.step (Session.init ⟨3, 64, true⟩ .stored) [.prepare [1, 2],
      .decode 1 1 0, .decode 1 2 1, .markReady 1 1]).any
        (fun s => (s.mapper.inspectPrefix [1, 2, 3]).readyTokens = 2 ∧
        (s.mapper.prepareSequence [1, 2, 3]).1.metrics.evictions = s.mapper.metrics.evictions ∧
        s.mapper.freeSeqIds ≠ []) = true := by decide +kernel
  obtain ⟨s, hs, hcond⟩ := (Option.any_eq_true _ _).mp hrun
  obtain ⟨hready, hkept, hfree⟩ := of_decide_eq_true hcond
  obtain ⟨hcached, hreturns⟩ :=
    prepare_as_inspected _ _ _ s hs rfl [1, 2, 3] (by rw [hready]; decide) hkept
  obtain ⟨result, hresult⟩ := hreturns.mpr hfree
  exact ⟨s, hs, result, hresult, by rw [hcached result hresult, hready]; rfl⟩

/-- What the search for a copy source finds from a node. -/
structure RadixTree.FindsSource (t : RadixTree) (n : NodeId) : Prop where
  none_iff : t.findCoveringSeqId n = none ↔ ∀ a, t.Related n a → ¬ t.Ready a
  found : ∀ source len, t.findCoveringSeqId n = some (source, len) →
    ∃ a, t.Related n a ∧ source ∈ (t.data a).readySeqIds ∧ len = t.coverage a
  above : ∀ source len, t.findCoveringSeqId n = some (source, len) → ∀ a, t.Chain n a → t.Ready a →
    t.coverage a ≤ len
  longest_iff : ∀ source len, t.findCoveringSeqId n = some (source, len) →
    ((∀ a, t.Related n a → t.Ready a →
      min (t.coverage a) (t.cumulativeTokenDepth n) ≤ min len (t.cumulativeTokenDepth n)) ↔
      t.Unhidden n)

/-- The search for a source finds the nearest one. -/
theorem Placement.findsSource {t : RadixTree} {path : NodeId → List Token} {live : List Client}
    {holds : List NodeId} {idle : NodeId → Option SeqId} (h : Placement t path live holds idle)
    {n : NodeId} (hn : t.Alive n) : t.FindsSource n where
  none_iff := h.shape.findCoveringSeqId_none_iff hn
  found _ _ hfound := h.shape.findCoveringSeqId_related hn hfound
  above _ _ hfound _ ha hready := h.shape.longest_above h.coherent h.canonical hn hfound ha hready
  longest_iff _ _ hfound := h.shape.longest_iff h.coherent h.canonical hn hfound

/-- A preparation whose cache node is not hidden takes over all that a related ready sequence
covers. -/
theorem Preparing.cachedPosition_longest {s : Session} {m : KVMapper} {prompt : List Token}
    {found : PrefixMatch} {path : NodeId → List Token} {idle : NodeId → Option SeqId}
    (h : Preparing s m prompt found path idle) (henabled : m.config.prefixCacheEnabled = true)
    (hunhidden : m.tree.Unhidden found.cacheNode) {a : NodeId}
    (ha : m.tree.Related found.cacheNode a) (hready : m.tree.Ready a) :
    min (min (m.tree.coverage a) found.matchedTokens) (prompt.length - 1) ≤
      KVMapper.cachedPosition prompt found (m.copySource found) := by
  have hfinds := h.books.placement.findsSource h.cacheNode
  have hdepth : m.tree.cumulativeTokenDepth found.cacheNode = found.matchedTokens := by
    rw [h.books.placement.shape.depth_eq h.cacheNode, h.cachePath, List.length_take,
      min_eq_left h.matched_le]
  by_cases hmatched : 0 < found.matchedTokens
  · rw [KVMapper.copySource, if_pos ⟨henabled, hmatched⟩]
    cases hsearch : m.tree.findCoveringSeqId found.cacheNode with
    | none => exact absurd hready (hfinds.none_iff.mp hsearch a ha)
    | some found' =>
      obtain ⟨source, len⟩ := found'
      have hlongest := (hfinds.longest_iff source len hsearch).mpr hunhidden a ha hready
      rw [hdepth, min_comm len] at hlongest
      simp only [KVMapper.cachedPosition]
      split
      · rename_i hwhole
        rw [hwhole.2]
        exact min_le_right _ _
      · exact (min_le_left _ _).trans hlongest
  · rw [Nat.eq_zero_of_not_pos hmatched, Nat.min_zero, Nat.zero_min]
    exact Nat.zero_le _

/-- The mapper of a preparation in which the copy source is looked up. -/
def KVMapper.searched (m : KVMapper) (prompt : List Token) : KVMapper :=
  (m.admitPrompt prompt).1.allocateSeqId.1

/-- In every state of every run, and at every moment inside the next call, the search finds the
nearest ready sequence above or one below; it is the longest unless the node is hidden. -/
theorem source_found (config : Config) (order : ChildOrder) (calls : List Call) (s : Session)
    (hrun : (Session.init config order).Run calls s) :
    (∀ n, s.mapper.tree.Alive n → s.mapper.tree.FindsSource n) ∧
      (s.hand = none → ∀ m, s.mapper.Within m → ∀ n, m.tree.Alive n → m.tree.FindsSource n) ∧
      (s.hand = none → config.prefixCacheEnabled = true → ∀ prompt result,
        (s.mapper.prepareSequence prompt).2 = .ok result →
        (s.mapper.searched prompt).tree.Unhidden (s.mapper.admitPrompt prompt).2.cacheNode →
        ∀ a, (s.mapper.searched prompt).tree.Related (s.mapper.admitPrompt prompt).2.cacheNode a →
          (s.mapper.searched prompt).tree.Ready a →
          min (min ((s.mapper.searched prompt).tree.coverage a)
            (s.mapper.admitPrompt prompt).2.matchedTokens)
            (prompt.length - 1) ≤ result.cachedPos) := by
  obtain ⟨path, idle, h⟩ := Session.run_sound hrun
  refine ⟨fun n hn => h.placement.findsSource hn, fun hhand m hm n hn => ?_,
    fun hhand henabled prompt result hresult => ?_⟩
  · obtain ⟨m', holds, path', idle', htree, hbooks⟩ := h.within hhand hm
    rw [← htree] at hn ⊢
    exact hbooks.placement.findsSource hn
  · obtain ⟨path₁, idle₁, hadmitted⟩ := h.admitPrompt hhand prompt
    have hconfig : (s.mapper.admitPrompt prompt).1.allocateSeqId.1.config = config := by
      rw [KVMapper.allocateSeqId_config]
      exact (KVMapper.evictKvPressure_config _).trans (Session.run_config hrun)
    unfold KVMapper.searched
    simp only [KVMapper.prepareSequence] at hresult
    generalize s.mapper.admitPrompt prompt = admitted at hadmitted hconfig hresult ⊢
    obtain ⟨m, found⟩ := admitted
    obtain ⟨m', idle', hallocated, ⟨_, hnone⟩ | ⟨i, rest, hfree, hsome⟩⟩ :=
      hadmitted.allocateSeqId hhand
    · simp [hnone] at hresult
    · simp only [hsome, Except.ok.injEq] at hresult ⊢
      rw [hsome] at hconfig
      intro hunhidden a ha hready
      rw [← hresult]
      exact hallocated.cachedPosition_longest (hconfig ▸ henabled) hunhidden ha hready

/-- The node of a ready prompt is not hidden. -/
theorem source_found_ready : ∃ s,
    (Session.init ⟨3, 64, true⟩ .stored).Run
      [.prepare [1, 2], .decode 1 1 0, .decode 1 2 1, .markReady 1 1] s ∧
      s.mapper.tree.Ready 1 ∧ s.mapper.tree.FindsSource 1 := by
  have hrun : (run Session.step (Session.init ⟨3, 64, true⟩ .stored) [.prepare [1, 2],
      .decode 1 1 0, .decode 1 2 1, .markReady 1 1]).any (fun s => s.mapper.tree.Ready 1) =
        true := by decide +kernel
  obtain ⟨s, hs, hcond⟩ := (Option.any_eq_true _ _).mp hrun
  have hready := of_decide_eq_true hcond
  exact ⟨s, hs, hready, (source_found _ _ _ s hs).1 1 hready.alive⟩

/-- The live sequence of a short prompt hides the one that was extended below a longer prompt. -/
theorem nearest_source_not_longest :
    ¬ ∀ (config : Config) (order : ChildOrder) (calls : List Call) (s : Session),
    (Session.init config order).Run calls s → ∀ (n : NodeId) (source : SeqId) (len : ℕ),
      s.mapper.tree.findCoveringSeqId n = some (source, len) → ∀ a, s.mapper.tree.Related n a →
      s.mapper.tree.Ready a →
        min (s.mapper.tree.coverage a) (s.mapper.tree.cumulativeTokenDepth n) ≤
          min len (s.mapper.tree.cumulativeTokenDepth n) := by
  intro hall
  have hrun : (run Session.step (Session.init ⟨3, 64, true⟩ .stored) [.prepare [1],
      .decode 1 1 0, .markReady 1 1, .prepare [1, 2, 3], .decode 2 2 1, .decode 2 3 2,
      .markReady 2 2, .decode 2 4 3, .extend 2 2 [1, 2, 3, 4], .releaseSequence 2 3]).any
        (fun s => s.mapper.tree.findCoveringSeqId 2 = some (1, 1) ∧
        s.mapper.tree.parentOf 3 = some 2 ∧ s.mapper.tree.Ready 3 ∧ s.mapper.tree.coverage 3 = 4 ∧
        s.mapper.tree.cumulativeTokenDepth 2 = 3) = true := by decide +kernel
  obtain ⟨s, hs, hcond⟩ := (Option.any_eq_true _ _).mp hrun
  obtain ⟨hfound, hparent, hready, hcovers, hdepth⟩ := of_decide_eq_true hcond
  have hle := hall _ _ _ s hs 2 1 1 hfound 3 (.inr (.single hparent)) hready
  rw [hcovers, hdepth] at hle
  exact absurd hle (by decide)

end RadixForge
