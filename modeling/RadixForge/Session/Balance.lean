import RadixForge.Session.Capacity
import RadixForge.Session.Pressure
import RadixForge.Session.Atomicity

/-!
# The balance of the cache counters

A preparation counts its request and its tokens before it looks for a sequence id, and a hit or a
miss after it has one. So the counters of requests run ahead of hits and misses by the preparations
that found the pool exhausted. When that happens can be read off the mapper before the call.
-/

namespace RadixForge

open Library

/-- The counters without the one of evictions. -/
def CacheMetrics.requests (c : CacheMetrics) : CacheMetrics := { c with evictions := 0 }

namespace KVMapper

/-- The pool is empty, and an idle node that owns sequences helps neither by memory pressure nor
when the pool is refilled, since the prompt ends in its run and takes a reference on it first. -/
def Drained (m : KVMapper) (promptTokens : List Token) : Prop :=
  m.freeSeqIds = [] ∧ ∀ n, m.tree.Evictable n →
    m.kvCellsUsed ≤ m.config.highWatermark ∧ m.tree.EndsIn n promptTokens

/-- The tokens that a call hands out for decoding. -/
def delta (m : KVMapper) : Call → List Token
  | .prepare promptTokens =>
    match (m.prepareSequence promptTokens).2 with
    | .ok result => result.delta
    | .error _ => []
  | _ => []

/-- The prompt that a call refuses to prepare. -/
def refusal (m : KVMapper) : Call → List (List Token)
  | .prepare promptTokens =>
    match (m.prepareSequence promptTokens).2 with
    | .ok _ => []
    | .error _ => [promptTokens]
  | _ => []

/-- The number of tokens handed out by a list of calls. -/
def handedOut (m : KVMapper) : List Call → ℕ
  | [] => 0
  | call :: rest => (m.delta call).length + (call.apply m).handedOut rest

/-- The prompts refused by a list of calls. -/
def refused (m : KVMapper) : List Call → List (List Token)
  | [] => []
  | call :: rest => m.refusal call ++ (call.apply m).refused rest

section Requests

variable (m : KVMapper)

/-- The search for something to evict counts no request. -/
theorem evictOneLoop_requests (fuel : ℕ) :
    (evictOneLoop fuel m).1.metrics.requests = m.metrics.requests := by
  induction fuel generalizing m with
  | zero => rfl
  | succ fuel ih =>
    unfold evictOneLoop
    split
    · rfl
    · rename_i node _ _
      simp only
      split
      · exact ih { m with tree := (m.tree.evict node).1 }
      · simp only [foldl_freeSequence_metrics]
        rfl

/-- An eviction counts no request. -/
@[simp] theorem evictOne_requests : m.evictOne.1.metrics.requests = m.metrics.requests :=
  m.evictOneLoop_requests _

/-- The loop that relieves pressure counts no request. -/
theorem evictKvPressureLoop_requests (fuel : ℕ) :
    (evictKvPressureLoop fuel m).metrics.requests = m.metrics.requests := by
  induction fuel generalizing m with
  | zero => rfl
  | succ fuel ih =>
    have hone := m.evictOne_requests
    unfold evictKvPressureLoop
    split
    · generalize m.evictOne = outcome at hone ⊢
      obtain ⟨m₁, evicted⟩ := outcome
      cases evicted with
      | false => exact hone
      | true => exact (ih m₁).trans hone
    · rfl

/-- The relief of pressure counts no request. -/
@[simp] theorem evictKvPressure_requests :
    m.evictKvPressure.metrics.requests = m.metrics.requests :=
  m.evictKvPressureLoop_requests _

/-- Taking a sequence counts no request. -/
@[simp] theorem allocateSeqId_requests :
    m.allocateSeqId.1.metrics.requests = m.metrics.requests := by
  have hrefilled : (if m.freeSeqIds = [] then m.evictOne.1 else m).metrics.requests =
      m.metrics.requests := by
    split
    · exact m.evictOne_requests
    · rfl
  simp only [allocateSeqId]
  generalize (if m.freeSeqIds = [] then m.evictOne.1 else m) = m₁ at hrefilled ⊢
  split <;> exact hrefilled

/-- A release counts nothing. -/
theorem releaseSequence_metrics (i : SeqId) (node : NodeId) :
    (m.releaseSequence i node).metrics = m.metrics := by
  unfold releaseSequence
  simp only
  split
  · rfl
  · split
    · rfl
    · split <;> rfl

/-- A new count of cells counts nothing. -/
theorem setSequenceCellCount_metrics (i : SeqId) (count : ℕ) :
    (m.setSequenceCellCount i count).metrics = m.metrics := by
  unfold setSequenceCellCount
  split <;> rfl

/-- An extension counts nothing. -/
theorem extendSequence_metrics (i : SeqId) (node : NodeId) (tokens : List Token) :
    (m.extendSequence i node tokens).1.metrics = m.metrics := by
  unfold extendSequence
  split
  · rfl
  · exact setSequenceCellCount_metrics _ _ _

/-- Only preparations count requests. -/
theorem apply_requests {call : Call} (hcall : ∀ prompt, call ≠ .prepare prompt) :
    (call.apply m).metrics.requests = m.metrics.requests := by
  cases call with
  | prepare prompt => exact absurd rfl (hcall prompt)
  | decode seqId token pos => rfl
  | markReady seqId node => rfl
  | setCellCount seqId cellCount =>
    exact congrArg CacheMetrics.requests (m.setSequenceCellCount_metrics _ _)
  | extend seqId node tokens =>
    exact congrArg CacheMetrics.requests (m.extendSequence_metrics _ _ _)
  | releaseSequence seqId node =>
    exact congrArg CacheMetrics.requests (m.releaseSequence_metrics _ _)
  | release node => rfl
  | gcIfNeeded =>
    simp only [Call.apply, gcIfNeeded]
    split
    · rfl
    · exact m.evictOne_requests
  | evictIdle => exact m.evictOne_requests
  | evictKvPressure => exact m.evictKvPressure_requests

/-- A preparation that binds a sequence counts a hit with its tokens or a miss. -/
theorem bindSequence_counts {promptTokens : List Token} {found : PrefixMatch} (newSeq : SeqId)
    (hmatched : found.matchedTokens ≤ promptTokens.length) {bound : KVMapper × PrepareResult}
    (hbound : m.bindSequence promptTokens found newSeq = bound) :
    bound.1.metrics.totalRequests = m.metrics.totalRequests ∧
      bound.1.metrics.promptTokens = m.metrics.promptTokens ∧
      bound.1.metrics.hits + bound.1.metrics.misses = m.metrics.hits + m.metrics.misses + 1 ∧
      bound.1.metrics.cacheHitTokens + bound.2.delta.length =
        m.metrics.cacheHitTokens + promptTokens.length := by
  subst hbound
  simp only [bindSequence, List.length_drop]
  cases m.copySource found with
  | none =>
    rw [cachedPosition_none, Nat.sub_zero]
    exact ⟨rfl, rfl, (Nat.add_assoc _ _ _).symm, rfl⟩
  | some source =>
    have hle := cachedPosition_le promptTokens found source.1 source.2
    have hlen := min_le_left found.matchedTokens source.2
    simp only [copyPrefix]
    generalize cachedPosition promptTokens found (some source) = k at hle ⊢
    split
    · refine ⟨rfl, rfl, Nat.add_right_comm _ _ _, ?_⟩
      simp only
      omega
    · rename_i hzero
      rw [Nat.eq_zero_of_not_pos hzero, Nat.sub_zero]
      exact ⟨rfl, rfl, (Nat.add_assoc _ _ _).symm, rfl⟩

end Requests

section Preparations

variable {m : KVMapper} {path : NodeId → List Token}

/-- The count of a request is no part of what is housed. -/
theorem Housed.countRequest (h : m.Housed path) (prompt : List Token) :
    (m.countRequest prompt).Housed path :=
  ⟨h.shape, h.coherent, h.once, h.pool, h.apart, h.counted⟩

/-- The mapper after the relief of the memory pressure. -/
theorem Housed.evictKvPressure (h : m.Housed path) : m.evictKvPressure.Housed path := by
  obtain ⟨k, _, hloop, _, _, hhoused⟩ := h.evictKvPressureLoop (Nat.lt_succ_self _)
  rw [show m.evictKvPressure = m.evicted k from hloop]
  exact hhoused k le_rfl

/-- What a preparation adds to the counters. -/
theorem Housed.prepare_counts (h : m.Housed path) (prompt : List Token) :
    let c := m.metrics
    let c' := (m.prepareSequence prompt).1.metrics
    c'.totalRequests = c.totalRequests + 1 ∧ c'.promptTokens = c.promptTokens + prompt.length ∧
      c'.hits + c'.misses + (m.refusal (.prepare prompt)).length = c.hits + c.misses + 1 ∧
      c'.cacheHitTokens + (m.delta (.prepare prompt)).length +
        (m.refusal (.prepare prompt)).flatten.length =
        c.cacheHitTokens + prompt.length := by
  have hmatched : (m.admitPrompt prompt).2.matchedTokens ≤ prompt.length := by
    obtain ⟨_, hinserted⟩ := insert_spec (h.countRequest prompt).evictKvPressure.shape prompt
    exact hinserted.matched_le
  have hadmitted : (m.admitPrompt prompt).1.metrics.requests =
      (m.countRequest prompt).metrics.requests :=
    evictKvPressure_requests _
  simp only [delta, refusal, prepareSequence]
  generalize m.admitPrompt prompt = admitted at hmatched hadmitted ⊢
  obtain ⟨m₁, found⟩ := admitted
  have hallocated := (allocateSeqId_requests m₁).trans hadmitted
  generalize m₁.allocateSeqId = allocated at hallocated ⊢
  obtain ⟨m₂, newSeq⟩ := allocated
  simp only [CacheMetrics.requests, KVMapper.countRequest,
    CacheMetrics.mk.injEq] at hallocated hmatched
  obtain ⟨hhits, hmisses, _, htotal, htokens, hprompt⟩ := hallocated
  cases newSeq with
  | none =>
    simp only [List.length_singleton, List.flatten_singleton, List.length_nil]
    exact ⟨htotal, hprompt, by rw [hhits, hmisses], by rw [htokens, Nat.add_zero]⟩
  | some i =>
    obtain ⟨htotal', hprompt', houtcome, htokens'⟩ := bindSequence_counts m₂ i hmatched rfl
    simp only [List.length_nil, List.flatten_nil, Nat.add_zero]
    exact ⟨htotal'.trans htotal, hprompt'.trans hprompt, by rw [houtcome, hhits, hmisses],
      by rw [htokens', htokens]⟩

/-- A mapper without pressure or without candidates evicts nothing. -/
theorem Housed.evictKvPressure_idle (h : m.Housed path)
    (hidle : ∀ n, m.tree.Evictable n → m.kvCellsUsed ≤ m.config.highWatermark) :
    m.evictKvPressure = m := by
  unfold KVMapper.evictKvPressure KVMapper.evictKvPressureLoop
  split
  · rename_i hpressed
    rcases evictOne_cases h.shape h.coherent with ⟨hnone, _⟩ | ⟨n, hn, _⟩
    · rw [hnone]
    · exact absurd hpressed (not_lt.mpr (hidle n hn))
  · rfl

/-- Memory pressure refills the pool if there is a candidate. -/
theorem Housed.evictKvPressure_refills (h : m.Housed path) {n : NodeId} (hn : m.tree.Evictable n)
    (hpressed : m.config.highWatermark < m.kvCellsUsed) : m.evictKvPressure.freeSeqIds ≠ [] := by
  rcases evictOne_cases h.shape h.coherent with ⟨_, hnone⟩ | ⟨k, hk, hone⟩
  · exact absurd hn (hnone n)
  · have hrelieves := h.evictNode_relieves hk
    obtain ⟨_, ids, hloop, _, hrest, _⟩ :=
      (h.evictNode hk).evictKvPressureLoop (hrelieves.entries_lt h hk.ids_ne_nil)
    unfold KVMapper.evictKvPressure KVMapper.evictKvPressureLoop
    rw [if_pos hpressed, hone]
    simp only
    rw [hloop, hrest.pool, hrelieves.pool]
    simp [hk.ids_ne_nil]

/-- A preparation is refused exactly if the mapper is drained. -/
theorem Housed.prepare_refused_iff (h : m.Housed path) (prompt : List Token) :
    m.refusal (.prepare prompt) = [prompt] ∧ m.Drained prompt ∨ m.refusal (.prepare prompt) = [] ∧
      ¬ m.Drained prompt := by
  have hserved (hfree : (m.countRequest prompt).evictKvPressure.freeSeqIds ≠ []) :
      m.refusal (.prepare prompt) = [] := by
    obtain ⟨result, hresult⟩ := m.prepare_of_free prompt hfree
    simp only [refusal, hresult]
  by_cases hidle : ∀ n, m.tree.Evictable n → m.kvCellsUsed ≤ m.config.highWatermark
  · have hkept : (m.countRequest prompt).evictKvPressure = m.countRequest prompt :=
      (h.countRequest prompt).evictKvPressure_idle hidle
    by_cases hfree : m.freeSeqIds = []
    · -- only an eviction after the insertion can help, which took a reference
      obtain ⟨path', hinserted⟩ := insert_spec h.shape prompt
      have hadmit : m.admitPrompt prompt =
          ({ m.countRequest prompt with tree := (m.tree.insert prompt).1 },
            (m.tree.insert prompt).2) := by
        simp only [admitPrompt, hkept]
        rfl
      have hevictable (n : NodeId) : (m.tree.insert prompt).1.Evictable n ↔
          m.tree.Evictable n ∧ n ≠ (m.tree.insert prompt).2.node := by
        unfold RadixTree.Evictable
        rw [hinserted.data]
        by_cases hn : n = (m.tree.insert prompt).2.node
        · simp [hn, NodeData.hold]
        · simp [hn]
      have hnode (n : NodeId) (hn : m.tree.Evictable n) :
          n = (m.tree.insert prompt).2.node ↔ m.tree.EndsIn n prompt := by
        rw [eq_comm, (h.shape.insert_branches prompt).2.2 n hn.alive]
        exact or_iff_right fun hroot => hn.1 hroot.1
      have hpool : ({ m.countRequest prompt with tree := (m.tree.insert prompt).1 } :
          KVMapper).freeSeqIds = [] := hfree
      rcases evictOne_cases (m := { m.countRequest prompt with tree := (m.tree.insert prompt).1 })
        hinserted.shape
        (h.coherent.update (h.coherent _).hold hinserted.data) with ⟨hnone, hall⟩ | ⟨n, hn, hone⟩
      · left
        refine ⟨?_, hfree, fun n hn => ⟨hidle n hn, (hnode n hn).mp ?_⟩⟩
        · simp only [refusal, prepareSequence, hadmit, allocateSeqId_of_empty hpool, hnone]
          rw [hpool]
        · by_contra hne
          exact hall n ((hevictable n).mpr ⟨hn, hne⟩)
      · right
        obtain ⟨hold, hne⟩ := (hevictable n).mp hn
        refine ⟨?_, fun hdrained => hne ((hnode n hold).mpr (hdrained.2 n hold).2)⟩
        simp only [refusal, prepareSequence, hadmit, allocateSeqId_of_empty hpool, hone]
        obtain ⟨i, rest, hrest⟩ := List.exists_cons_of_ne_nil hn.ids_ne_nil
        have hrefilled :
            (({ m.countRequest prompt with tree := (m.tree.insert prompt).1 } : KVMapper).evictNode
              n).freeSeqIds =
            i :: rest := by
          rw [KVMapper.evictNode, foldl_freeSequence_freeSeqIds]
          simp only
          rw [hpool, hrest, List.nil_append]
        rw [hrefilled]
    · exact .inr ⟨hserved (by rw [hkept]; exact hfree), fun hdrained => hfree hdrained.1⟩
  · push Not at hidle
    obtain ⟨n, hn, hpressed⟩ := hidle
    refine .inr ⟨hserved ?_, fun hdrained => absurd (hdrained.2 n hn).1 (not_le.mpr hpressed)⟩
    exact (h.countRequest prompt).evictKvPressure_refills hn hpressed

end Preparations

end KVMapper

namespace Session

/-- A refused call found the mapper drained, and only such a call is refused. -/
theorem Sound.refusal_iff {s : Session} (hs : s.Sound) (call : Call) :
    s.mapper.refusal call = [] ↔ ∀ prompt, call = .prepare prompt → ¬ s.mapper.Drained prompt := by
  obtain ⟨path, idle, h⟩ := hs
  by_cases hcall : ∃ prompt, call = .prepare prompt
  · obtain ⟨prompt, rfl⟩ := hcall
    simp only [Call.prepare.injEq, forall_eq']
    rcases h.housed.prepare_refused_iff prompt with ⟨hrefusal, hdrained⟩ | ⟨hrefusal, hdrained⟩
    · rw [hrefusal]
      exact iff_of_false (List.cons_ne_nil _ _) (not_not.mpr hdrained)
    · exact iff_of_true hrefusal hdrained
  · refine iff_of_true ?_ fun prompt heq => absurd ⟨prompt, heq⟩ hcall
    cases call <;> first | rfl | exact absurd ⟨_, rfl⟩ hcall

/-- What a step adds to the counters. -/
theorem step_counts {s s' : Session} {call : Call} (hs : s.Sound) (hstep : s.step call = some s') :
    s'.mapper.metrics.totalRequests + s.mapper.metrics.hits + s.mapper.metrics.misses =
        s.mapper.metrics.totalRequests + s'.mapper.metrics.hits + s'.mapper.metrics.misses +
          (s.mapper.refusal call).length ∧
      s'.mapper.metrics.promptTokens + s.mapper.metrics.cacheHitTokens =
        s.mapper.metrics.promptTokens + s'.mapper.metrics.cacheHitTokens +
          (s.mapper.delta call).length +
          (s.mapper.refusal call).flatten.length := by
  rw [step_mapper hstep]
  by_cases hcall : ∃ prompt, call = .prepare prompt
  · obtain ⟨prompt, rfl⟩ := hcall
    obtain ⟨path, idle, h⟩ := hs
    obtain ⟨htotal, hprompt, houtcome, htokens⟩ := h.housed.prepare_counts prompt
    simp only [Call.apply]
    omega
  · have hsame := s.mapper.apply_requests fun prompt heq => hcall ⟨prompt, heq⟩
    simp only [CacheMetrics.requests, CacheMetrics.mk.injEq] at hsame
    obtain ⟨hhits, hmisses, _, htotal, htokens, hprompt⟩ := hsame
    have hnone : s.mapper.delta call = [] ∧ s.mapper.refusal call = [] := by
      cases call <;> first | exact ⟨rfl, rfl⟩ | exact absurd ⟨_, rfl⟩ hcall
    rw [hhits, hmisses, htotal, htokens, hprompt, hnone.1, hnone.2]
    simp

/-- What a run adds to the counters. -/
theorem run_counts {s s' : Session} {calls : List Call} (hs : s.Sound) (hrun : s.Run calls s') :
    s'.mapper.metrics.totalRequests + s.mapper.metrics.hits + s.mapper.metrics.misses =
        s.mapper.metrics.totalRequests + s'.mapper.metrics.hits + s'.mapper.metrics.misses +
          (s.mapper.refused calls).length ∧
      s'.mapper.metrics.promptTokens + s.mapper.metrics.cacheHitTokens =
        s.mapper.metrics.promptTokens + s'.mapper.metrics.cacheHitTokens +
          s.mapper.handedOut calls +
          (s.mapper.refused calls).flatten.length := by
  induction calls generalizing s with
  | nil =>
    cases hrun
    simp only [KVMapper.refused, KVMapper.handedOut, List.length_nil, List.flatten_nil]
    omega
  | cons call rest ih =>
    obtain ⟨s₁, hstep, hrest⟩ := Option.bind_eq_some_iff.mp hrun
    obtain ⟨hrequests, htokens⟩ := ih (step_sound hs hstep) hrest
    obtain ⟨hrequests₁, htokens₁⟩ := step_counts hs hstep
    rw [step_mapper hstep] at hrequests htokens hrequests₁ htokens₁
    simp only [KVMapper.refused, KVMapper.handedOut, List.length_append, List.flatten_append]
    omega

/-- A run refuses nothing exactly if no preparation of it met a drained mapper. -/
theorem refused_iff {s s' : Session} {calls : List Call} (hs : s.Sound) (hrun : s.Run calls s') :
    s.mapper.refused calls = [] ↔ ∀ before prompt rest, calls = before ++ .prepare prompt :: rest →
      ¬ (before.foldl Call.apply s.mapper).Drained prompt := by
  induction calls generalizing s with
  | nil => exact iff_of_true rfl fun before prompt rest heq => absurd heq (by simp)
  | cons call calls ih =>
    obtain ⟨s₁, hstep, hrest⟩ := Option.bind_eq_some_iff.mp hrun
    have hih := ih (step_sound hs hstep) hrest
    rw [step_mapper hstep] at hih
    rw [KVMapper.refused, List.append_eq_nil_iff, hs.refusal_iff, hih]
    constructor
    · rintro ⟨hfirst, hlater⟩ before prompt rest heq
      cases before with
      | nil =>
        obtain ⟨rfl, rfl⟩ := List.cons.inj heq
        exact hfirst prompt rfl
      | cons first before =>
        obtain ⟨rfl, htail⟩ := List.cons.inj heq
        exact hlater before prompt rest htail
    · intro hall
      refine ⟨fun prompt heq => hall [] prompt calls (heq ▸ rfl), fun before prompt rest heq => ?_⟩
      exact hall (call :: before) prompt rest (heq ▸ rfl)

end Session

/-- The counters balance exactly if no preparation met a drained mapper: the requests are the hits
and the misses, and the prompt tokens are the tokens taken from the cache and those handed out for
decoding. -/
theorem cache_counters_balance_iff (config : Config) (order : ChildOrder) (calls : List Call)
    (s : Session) (hrun : (Session.init config order).Run calls s) :
    (s.mapper.metrics.totalRequests = s.mapper.metrics.hits + s.mapper.metrics.misses ∧
      s.mapper.metrics.promptTokens =
        s.mapper.metrics.cacheHitTokens + (KVMapper.init config order).handedOut calls) ↔
      ∀ before prompt rest, calls = before ++ .prepare prompt :: rest →
        ¬ (before.foldl Call.apply (.init config order)).Drained prompt := by
  obtain ⟨hrequests, htokens⟩ := Session.run_counts (Session.init_sound config order) hrun
  have hrefused := Session.refused_iff (Session.init_sound config order) hrun
  simp only [Session.init] at hrequests htokens hrefused
  rw [← hrefused]
  simp only [KVMapper.init] at hrequests htokens ⊢
  constructor
  · rintro ⟨hbalance, _⟩
    refine List.eq_nil_of_length_eq_zero ?_
    omega
  · intro hnone
    rw [hnone] at hrequests htokens
    simp only [List.length_nil, List.flatten_nil] at hrequests htokens
    omega

/-- One prompt, its tokens decoded, and a second one that reuses them. -/
theorem cache_counters_balance_reuse :
    ∃ s, (Session.init ⟨3, 64, true⟩ .stored).Run [.prepare [1, 2], .decode 1 1 0,
    .decode 1 2 1, .markReady 1 1, .prepare [1, 2, 3]] s ∧
      s.mapper.metrics.totalRequests = 2 ∧ s.mapper.metrics.hits = 1 ∧
      ∀ before prompt rest, [.prepare [1, 2], .decode 1 1 0, .decode 1 2 1, .markReady 1 1,
        .prepare [1, 2, 3]] =
        before ++ .prepare prompt :: rest →
          ¬ (before.foldl Call.apply (.init ⟨3, 64, true⟩ .stored)).Drained prompt := by
  have hrun : (run Session.step (Session.init ⟨3, 64, true⟩ .stored) [.prepare [1, 2],
      .decode 1 1 0, .decode 1 2 1, .markReady 1 1, .prepare [1, 2, 3]]).any
        (fun s => s.mapper.metrics.totalRequests = 2 ∧
        s.mapper.metrics.hits = 1 ∧ s.mapper.metrics.misses = 1 ∧
        s.mapper.metrics.promptTokens = 5 ∧
        s.mapper.metrics.cacheHitTokens = 2 ∧
        (KVMapper.init ⟨3, 64, true⟩ .stored).handedOut [.prepare [1, 2],
          .decode 1 1 0, .decode 1 2 1, .markReady 1 1, .prepare [1, 2, 3]] = 3) = true := by
            decide +kernel
  obtain ⟨s, hs, hcond⟩ := (Option.any_eq_true _ _).mp hrun
  obtain ⟨htotal, hhits, hmisses, hprompt, htokens, hhanded⟩ := of_decide_eq_true hcond
  refine ⟨s, hs, htotal, hhits, (cache_counters_balance_iff _ _ _ s hs).mp ⟨?_, ?_⟩⟩
  · rw [htotal, hhits, hmisses]
  · rw [hprompt, htokens, hhanded]

/-- A single id serves the first prompt; the second one is counted as a request, but neither as a
hit nor as a miss. -/
theorem refused_request_counted :
    ¬ ∀ (config : Config) (order : ChildOrder) (calls : List Call) (s : Session),
    (Session.init config order).Run calls s →
      s.mapper.metrics.totalRequests = s.mapper.metrics.hits + s.mapper.metrics.misses ∧
        s.mapper.metrics.promptTokens =
          s.mapper.metrics.cacheHitTokens + (KVMapper.init config order).handedOut calls := by
  intro hall
  have hrun : (run Session.step (Session.init ⟨2, 64, true⟩ .stored) [.prepare [1],
      .prepare [2]]).any (fun s =>
      s.mapper.metrics.totalRequests = 2 ∧ s.mapper.metrics.hits = 0 ∧
        s.mapper.metrics.misses = 1) = true := by
    decide +kernel
  obtain ⟨s, hs, hcond⟩ := (Option.any_eq_true _ _).mp hrun
  obtain ⟨htotal, hhits, hmisses⟩ := of_decide_eq_true hcond
  have hbalance := (hall _ _ _ s hs).1
  rw [htotal, hhits, hmisses] at hbalance
  exact absurd hbalance (by decide)

end RadixForge
