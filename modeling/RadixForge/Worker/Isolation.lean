import Mathlib.Tactic.MkIffOfInductiveProp
import RadixForge.Session.Disabled
import RadixForge.Worker.Owners

/-!
# Isolation without the cache

Every call of a worker without the cache is cold. A batch is then prepared by what its requests show
apart from the contents of their prompts, unless one of them is deferred: the first requests that
are not cancelled and fit, as many as the pool has sequences. Requests are deferred for the sake of
a copy that a disabled cache never makes. When nothing is deferred is a matter of the prompts and of
the tree before the batch: no prompt that the batch looks at finds pending tokens there that are not
ready, and what it shares with the own part of an earlier one is ready there.
-/

namespace RadixForge

open Library

variable {L : Type} {b : Bridge L} {config : Config} {order : ChildOrder}

/-- What a request shows without the contents of its prompt. -/
structure Outline where
  id : ℕ
  cancelAfter : Option ℕ
  available : ℤ
  length : ℕ
deriving DecidableEq

/-- The outline of a request. -/
def Bridge.outline (b : Bridge L) (req : InferenceRequest) : Outline where
  id := req.id
  cancelAfter := req.cancelAfter
  available := b.available req
  length := (b.promptTokens req).length

/-- A request that is not cancelled and whose prompt fits. -/
def Outline.Fits (o : Outline) : Prop := o.cancelAfter ≠ some 0 ∧ 0 < o.available

instance (o : Outline) : Decidable o.Fits := inferInstanceAs (Decidable (_ ∧ _))

/-- The ids of the first requests that fit and have a prompt, in their order. -/
def admission (outlines : List Outline) (room : ℕ) : List ℕ :=
  ((outlines.filter fun o => o.Fits ∧ o.length ≠ 0).map Outline.id).take room

/-- The batch is prepared by the outlines of its requests and the size of the pool, and nothing is
deferred. -/
@[mk_iff]
structure Isolated (b : Bridge L) (reqs : List InferenceRequest) (w : World) : Prop where
  deferred : (prepareAll b reqs w).1.deferred = []
  prepared : (prepareAll b reqs w).1.ctxs.map (fun ctx => ctx.req.id) =
    admission (reqs.map b.outline) w.mapper.freeSeqIds.length

/-- The prompts that a batch looks at with a pool of the given size: all before the one that finds
the pool empty, and that one. An empty prompt gives its sequence back at once. -/
def examined : ℕ → List (List Token) → List (List Token)
  | _, [] => []
  | 0, prompt :: _ => [prompt]
  | room + 1, prompt :: rest =>
    if prompt = [] then examined (room + 1) rest else prompt :: examined room rest

/-- Each prompt is clear in the tree beside those before it. -/
def RadixTree.Undisturbed (t : RadixTree) (earlier prompts : List (List Token)) : Prop :=
  ∀ i (hi : i < prompts.length), t.ClearBeside (earlier ++ prompts.take i) prompts[i]

instance (t : RadixTree) (earlier prompts : List (List Token)) :
    Decidable (t.Undisturbed earlier prompts) :=
  inferInstanceAs (Decidable (∀ i, ∀ _ : i < prompts.length, _))

/-- Every prompt that a batch with the given pool looks at is clear in the tree before the batch,
beside those before it. -/
def KVMapper.Undisturbed (m : KVMapper) (prompts : List (List Token)) : Prop :=
  m.tree.Undisturbed [] (examined m.freeSeqIds.length prompts)

instance (m : KVMapper) (prompts : List (List Token)) : Decidable (m.Undisturbed prompts) :=
  inferInstanceAs (Decidable (RadixTree.Undisturbed _ _ _))

/-- The mapper after the calls of a log. -/
def mapperAfter (config : Config) (order : ChildOrder) (log : List Entry) : KVMapper :=
  (callsOf log).foldl Call.apply (.init config order)

/-- The prompts of the requests that are not cancelled and fit. -/
def Bridge.turns (b : Bridge L) (reqs : List InferenceRequest) : List (List Token) :=
  (reqs.filter fun req => (b.outline req).Fits).map b.promptTokens

section Turns

variable {w : World} {tickets : List Ticket}

/-- A prompt does not have to wait if no more tokens are pending than ready. -/
theorem mustWait_eq_false (w : World) (tokens : List Token) : mustWait w tokens = false ↔
    (w.mapper.inspectPrefix tokens).pendingTokens ≤
      (w.mapper.inspectPrefix tokens).readyTokens := by
  simp only [mustWait, decide_eq_false_iff_not]
  omega

/-- The tree of a world between two batches is that of a sound session with no sequence in hand. -/
theorem World.Tracked.books (h : w.Tracked config order tickets) :
    ∃ (s : Session) (path : NodeId → List Token)
    (idle : NodeId → Option SeqId), s.mapper = w.mapper ∧ w.mapper.config = config ∧ s.hand = none ∧
      Books s path idle := by
  obtain ⟨s, hfollows, _, _, _, hhand⟩ := h
  obtain ⟨path, idle, hbooks⟩ := hfollows.sound
  have hconfig : s.mapper.config = config := Session.run_config hfollows.run
  exact ⟨s, path, idle, hfollows.mapper, hfollows.mapper ▸ hconfig, hhand, hbooks⟩

/-- The tree spells out its paths. -/
theorem World.Tracked.shape (h : w.Tracked config order tickets) :
    Shape w.mapper.tree w.mapper.tree.pathTokens := by
  obtain ⟨s, path, idle, hmapper, _, _, hbooks⟩ := h.books
  exact hmapper ▸ hbooks.placement.shape.spelled

/-- An inspection tells whether a prompt is clear. -/
theorem World.Tracked.clear_iff (h : w.Tracked config order tickets) (tokens : List Token) :
    w.mapper.tree.Clear tokens ↔ (w.mapper.tree.inspectPrefix tokens).pendingTokens ≤
      (w.mapper.tree.inspectPrefix tokens).readyTokens := by
  obtain ⟨s, path, idle, hmapper, _, _, hbooks⟩ := h.books
  rw [← hmapper]
  exact hbooks.placement.shape.clear_iff hbooks.placement.coherent hbooks.placement.canonical tokens

/-- Without the cache every sequence is in the pool or has a ticket. -/
theorem World.Tracked.free_length (h : w.Tracked config order tickets)
    (hoff : config.prefixCacheEnabled = false) :
    w.mapper.freeSeqIds.length + tickets.length = config.maxSequences - 1 := by
  obtain ⟨s, hfollows, hlive, _⟩ := h
  obtain ⟨_, _, hbooks⟩ := hfollows.sound
  have hconfig : s.mapper.config = config := Session.run_config hfollows.run
  have hlength := hbooks.free_length_cold (hconfig ▸ hoff)
  rw [hlive.length_eq, List.length_map, hconfig] at hlength
  rw [← hfollows.mapper]
  exact hlength

/-- Without the cache a preparation succeeds exactly if the pool is not empty. -/
theorem World.Tracked.prepare_ok_iff (h : w.Tracked config order tickets)
    (hoff : config.prefixCacheEnabled = false) (prompt : List Token) :
    (∃ result, (w.mapper.prepareSequence prompt).2 = .ok result) ↔ w.mapper.freeSeqIds ≠ [] := by
  obtain ⟨s, _, _, hmapper, hconfig, hhand, hbooks⟩ := h.books
  rw [← hmapper] at hconfig ⊢
  exact hbooks.prepare_ok_iff_cold hhand (hconfig ▸ hoff) prompt

/-- The turn of a request that has to wait. -/
theorem prepareOne_waits {req : InferenceRequest} (hfits : 0 < b.available req)
    (hwait : mustWait w (b.promptTokens req) = true) :
    ∃ r, prepareOne b req w = (.deferred r, w) := by
  refine ⟨req.clamp (b.available req), ?_⟩
  simp only [prepareOne, if_neg hfits.not_ge, hwait, if_true]

/-- The turn of a request that finds the pool empty. -/
theorem prepareOne_exhausted {req : InferenceRequest} (h : w.Tracked config order tickets)
    (hoff : config.prefixCacheEnabled = false) (hfits : 0 < b.available req)
    (hwait : mustWait w (b.promptTokens req) = false) (hfree : w.mapper.freeSeqIds = []) :
    ∃ r, (prepareOne b req w).1 = .exhausted r := by
  have hfails := mt (h.prepare_ok_iff hoff (b.promptTokens req)).mp (not_not.mpr hfree)
  simp only [prepareOne, if_neg hfits.not_ge, hwait, Bool.false_eq_true, if_false,
    World.prepareSequence]
  cases hresult : (w.mapper.prepareSequence (b.promptTokens req)).2 with
  | error e => exact ⟨_, rfl⟩
  | ok prep => exact absurd ⟨prep, hresult⟩ hfails

/-- Without the cache all of a prompt is left to compute. -/
theorem World.Tracked.delta_cold (h : w.Tracked config order tickets)
    (hoff : config.prefixCacheEnabled = false) {prompt : List Token} {result : PrepareResult}
    (hresult : (w.mapper.prepareSequence prompt).2 = .ok result) :
    result.delta = prompt := by
  obtain ⟨_, _, _, _, hconfig, _, _⟩ := h.books
  rw [KVMapper.prepareSequence_delta hresult,
    (KVMapper.prepareSequence_cold (hconfig ▸ hoff) prompt).2 result hresult, List.drop_zero]

/-- The turn of a request without a prompt, which gives its sequence back. -/
theorem prepareOne_empty {req : InferenceRequest} (h : w.Tracked config order tickets)
    (hoff : config.prefixCacheEnabled = false) (hfits : 0 < b.available req)
    (hwait : mustWait w (b.promptTokens req) = false) (hfree : w.mapper.freeSeqIds ≠ [])
    (hempty : b.promptTokens req = []) :
    (prepareOne b req w).1 = .rejected ∧
      Alike w.mapper.tree (prepareOne b req w).2.mapper.tree := by
  rw [hempty] at hwait
  obtain ⟨prep, hresult⟩ := (h.prepare_ok_iff hoff []).mpr hfree
  have hdelta := h.delta_cold hoff hresult
  have hturn : (prepareOne b req w).1 = .rejected ∧ (prepareOne b req w).2.mapper =
      ((w.mapper.prepareSequence []).1.releaseSequence prep.seqId prep.leafNode).releaseNode
        prep.leafNode := by
    simp only [prepareOne, if_neg hfits.not_ge, hempty, hwait, Bool.false_eq_true, if_false,
      World.prepareSequence, hresult, hdelta, if_true]
    exact ⟨trivial, rfl⟩
  refine ⟨hturn.1, hturn.2 ▸ ?_⟩
  obtain ⟨s, _, _, hmapper, hconfig, hhand, hbooks⟩ := h.books
  rw [← hmapper] at hresult hconfig ⊢
  exact hbooks.prepare_nothing hhand (hconfig ▸ hoff) hresult

/-- The turn of a request that gets a sequence. -/
theorem prepareOne_served {req : InferenceRequest} (h : w.Tracked config order tickets)
    (hoff : config.prefixCacheEnabled = false) (hfits : 0 < b.available req)
    (hwait : mustWait w (b.promptTokens req) = false) (hfree : w.mapper.freeSeqIds ≠ [])
    (hprompt : b.promptTokens req ≠ []) :
    ∃ ctx, (prepareOne b req w).1 = .prepared ctx ∧ ctx.req.id = req.id ∧
      Enrolled w.mapper.tree (b.promptTokens req)
        (prepareOne b req w).2.mapper.tree ctx.prep.leafNode := by
  obtain ⟨prep, hresult⟩ := (h.prepare_ok_iff hoff (b.promptTokens req)).mpr hfree
  have hdelta := h.delta_cold hoff hresult
  have hturn : ∃ ctx, (prepareOne b req w).1 = .prepared ctx ∧ ctx.req.id = req.id ∧
      ctx.prep = prep ∧ (prepareOne b req w).2.mapper =
        (w.mapper.prepareSequence (b.promptTokens req)).1 := by
    simp only [prepareOne, if_neg hfits.not_ge, hwait, Bool.false_eq_true, if_false,
      World.prepareSequence, hresult, hdelta, hprompt]
    exact ⟨_, rfl, InferenceRequest.clamp_id _ _, rfl, rfl⟩
  obtain ⟨ctx, hone, hid, hprep, hmapped⟩ := hturn
  refine ⟨ctx, hone, hid, hprep ▸ hmapped ▸ ?_⟩
  obtain ⟨s, _, _, hmapper, hconfig, hhand, hbooks⟩ := h.books
  rw [← hmapper] at hresult hconfig ⊢
  exact hbooks.prepare_enrolled hhand (hconfig ▸ hoff) hresult

/-- A poll leaves the room of a request as it is. -/
theorem isCancelled_outline (req : InferenceRequest) (w : World) :
    b.available (isCancelled req w).2.1 = b.available req := by
  rw [Bridge.available, isCancelled_promptTokens]
  rfl

/-- The turns of a batch begin with its first request, if that fits. -/
theorem Bridge.turns_cons (b : Bridge L) (req : InferenceRequest) (rest : List InferenceRequest) :
    b.turns (req :: rest) = if (b.outline req).Fits then b.promptTokens req :: b.turns rest
      else b.turns rest := by
  unfold turns
  by_cases hfits : (b.outline req).Fits
  · rw [List.filter_cons_of_pos (by simpa using hfits), if_pos hfits, List.map_cons]
  · rw [List.filter_cons_of_neg (by simpa using hfits), if_neg hfits]

/-- A request that does not fit, or has no prompt, is passed over. -/
theorem admission_skip {o : Outline} (h : ¬ (o.Fits ∧ o.length ≠ 0)) (rest : List Outline)
    (room : ℕ) :
    admission (o :: rest) room = admission rest room := by
  rw [admission, List.filter_cons_of_neg (by simpa using h)]
  rfl

/-- The first request that fits and has a prompt. -/
theorem admission_serve {o : Outline} (h : o.Fits ∧ o.length ≠ 0) (rest : List Outline) (room : ℕ) :
    admission (o :: rest) (room + 1) = o.id :: admission rest room := by
  rw [admission, List.filter_cons_of_pos (by simpa using h), List.map_cons, List.take_succ_cons]
  rfl

/-- The first prompt of a batch decides on itself, and the others come after it. -/
theorem RadixTree.undisturbed_cons {t : RadixTree} {earlier rest : List (List Token)}
    {prompt : List Token} :
    t.Undisturbed earlier (prompt :: rest) ↔
      t.ClearBeside earlier prompt ∧ t.Undisturbed (earlier ++ [prompt]) rest := by
  constructor
  · refine fun hall => ⟨?_, fun i hi => ?_⟩
    · have hfirst := hall 0 (Nat.zero_lt_succ _)
      rwa [List.take_zero, List.append_nil] at hfirst
    · have hnext := hall (i + 1) (Nat.succ_lt_succ hi)
      rwa [List.take_succ_cons, List.append_cons] at hnext
  · rintro ⟨hfirst, hrest⟩ i hi
    cases i with
    | zero => rwa [List.take_zero, List.append_nil]
    | succ i =>
      rw [List.take_succ_cons, List.append_cons]
      exact hrest i (Nat.lt_of_succ_lt_succ hi)

/-- A prompt does not have to wait exactly if it is clear in the tree before the batch, beside the
prompts that were enrolled before it. -/
theorem World.Tracked.goes_iff (h : w.Tracked config order tickets) {t : RadixTree}
    {earlier : List (List Token)} (henrolled : Enrollments t earlier w.mapper.tree)
    (hstart : ∀ tokens, t.Clear tokens ↔
      (t.inspectPrefix tokens).pendingTokens ≤ (t.inspectPrefix tokens).readyTokens)
    (tokens : List Token) :
    mustWait w tokens = false ↔ t.ClearBeside earlier tokens := by
  rw [mustWait_eq_false, RadixTree.ClearBeside, ← hstart, ← henrolled.clear]
  exact (h.clear_iff tokens).symm

section First

variable {req req' : InferenceRequest} {rest : List InferenceRequest} {w' : World}

/-- A request that fits is not cancelled by the poll before its turn, and stays as it was. -/
theorem Outline.Fits.polled (hfits : (b.outline req).Fits) (h : w.Tracked config order tickets) :
    ∃ req' w', isCancelled req w = (false, req', w') ∧ b.promptTokens req' = b.promptTokens req ∧
      0 < b.available req' ∧ req'.id = req.id ∧ w'.mapper = w.mapper ∧
      w'.Tracked config order tickets := by
  have hanswer : (isCancelled req w).1 = false :=
    (isCancelled_answer req w).trans (decide_eq_false hfits.1)
  refine ⟨(isCancelled req w).2.1, (isCancelled req w).2.2, Prod.ext hanswer rfl,
    isCancelled_promptTokens req w, ?_, isCancelled_id req w, isCancelled_mapper req w,
    h.isCancelled req⟩
  exact isCancelled_outline (b := b) req w ▸ hfits.2

/-- A request that does not fit is passed over, and the mapper stays as it was. -/
theorem prepareAll_unfit (hfits : ¬ (b.outline req).Fits) (h : w.Tracked config order tickets)
    (rest : List InferenceRequest) : ∃ w', prepareAll b (req :: rest) w = prepareAll b rest w' ∧
      w'.mapper = w.mapper ∧ w'.Tracked config order tickets := by
  have hanswer := isCancelled_answer req w
  have hroom := isCancelled_outline (b := b) req w
  have hmapper := isCancelled_mapper req w
  have hpolled := h.isCancelled req
  generalize hpoll : isCancelled req w = polled at hanswer hroom hmapper hpolled
  obtain ⟨cancelled, req', w'⟩ := polled
  cases cancelled with
  | true => exact ⟨w', by simp only [prepareAll, hpoll, if_true], hmapper, hpolled⟩
  | false =>
    have hshort : b.available req' ≤ 0 := by
      rw [hroom]
      exact not_lt.mp fun hpos => hfits ⟨of_decide_eq_false hanswer.symm, hpos⟩
    have hone : prepareOne b req' w' =
        (.rejected, w'.callback req'.id (.onError "prompt exceeds context window" 400)) := by
      simp only [prepareOne, if_pos hshort]
    refine ⟨w'.callback req'.id (.onError "prompt exceeds context window" 400), ?_, hmapper,
      hpolled.callback _ _⟩
    simp only [prepareAll, hpoll, Bool.false_eq_true, if_false, hone]

/-- A request that is passed over changes nothing for the rest of the batch. -/
theorem isolated_skip (hbatch : prepareAll b (req :: rest) w = prepareAll b rest w')
    (hroom : w'.mapper.freeSeqIds.length = w.mapper.freeSeqIds.length)
    (hskip : ¬ ((b.outline req).Fits ∧ (b.outline req).length ≠ 0)) :
    Isolated b (req :: rest) w ↔ Isolated b rest w' := by
  rw [isolated_iff, isolated_iff, hbatch, List.map_cons, admission_skip hskip, hroom]

/-- A request that has to wait is deferred. -/
theorem not_isolated_of_waits (hpoll : isCancelled req w = (false, req', w'))
    (hfits : 0 < b.available req') (hwait : mustWait w' (b.promptTokens req') = true) :
    ¬ Isolated b (req :: rest) w := by
  intro hisolated
  obtain ⟨r, hone⟩ := prepareOne_waits hfits hwait
  have hdeferred := hisolated.deferred
  simp [prepareAll, hpoll, hone] at hdeferred

/-- A request that finds the pool empty ends the batch. -/
theorem isolated_of_exhausted (hpoll : isCancelled req w = (false, req', w')) {r : InferenceRequest}
    (hone : (prepareOne b req' w').1 = .exhausted r) (hfree : w.mapper.freeSeqIds = []) :
    Isolated b (req :: rest) w := by
  generalize houtcome : prepareOne b req' w' = outcome at hone
  obtain ⟨preparation, w₂⟩ := outcome
  cases hone
  rw [isolated_iff, hfree]
  simp only [prepareAll, hpoll, Bool.false_eq_true, if_false, houtcome]
  exact ⟨trivial, rfl⟩

/-- A request that is rejected is passed over. -/
theorem prepareAll_rejected (hpoll : isCancelled req w = (false, req', w'))
    (hone : (prepareOne b req' w').1 = .rejected) :
    prepareAll b (req :: rest) w = prepareAll b rest (prepareOne b req' w').2 := by
  generalize houtcome : prepareOne b req' w' = outcome at hone
  obtain ⟨preparation, w₂⟩ := outcome
  cases hone
  simp only [prepareAll, hpoll, Bool.false_eq_true, if_false, houtcome]

/-- A request that is prepared comes first, and the rest of the batch has one sequence less. -/
theorem isolated_prepared (hpoll : isCancelled req w = (false, req', w')) {ctx : PrefillCtx}
    (hone : (prepareOne b req' w').1 = .prepared ctx) (hid : ctx.req.id = req.id)
    (hroom : w.mapper.freeSeqIds.length = (prepareOne b req' w').2.mapper.freeSeqIds.length + 1)
    (hserve : (b.outline req).Fits ∧ (b.outline req).length ≠ 0) :
    Isolated b (req :: rest) w ↔ Isolated b rest (prepareOne b req' w').2 := by
  generalize houtcome : prepareOne b req' w' = outcome at hone hroom ⊢
  obtain ⟨preparation, w₂⟩ := outcome
  cases hone
  rw [isolated_iff, isolated_iff, hroom, List.map_cons, admission_serve hserve]
  simp only [prepareAll, hpoll, Bool.false_eq_true, if_false, houtcome, List.map_cons,
    hid, List.cons.injEq]
  exact and_congr_right fun _ => and_iff_right rfl

/-- The turn of a request without a prompt changes nothing for the rest of the batch. -/
theorem isolated_empty (rest : List InferenceRequest) (hoff : config.prefixCacheEnabled = false)
    (hpoll : isCancelled req w = (false, req', w')) (hmapper : w'.mapper = w.mapper)
    (hpolled : w'.Tracked config order tickets) (hfits : 0 < b.available req')
    (hwait : mustWait w' (b.promptTokens req') = false) (hpool : w'.mapper.freeSeqIds ≠ [])
    (htokens : b.promptTokens req' = b.promptTokens req) (hempty : b.promptTokens req = []) :
    ∃ (w₂ : World) (tickets' : List Ticket), (Isolated b (req :: rest) w ↔ Isolated b rest w₂) ∧
      w₂.Tracked config order tickets' ∧ Alike w'.mapper.tree w₂.mapper.tree ∧
      w₂.mapper.freeSeqIds.length = w.mapper.freeSeqIds.length := by
  obtain ⟨hone, halike⟩ := prepareOne_empty hpolled hoff hfits hwait hpool (htokens.trans hempty)
  have hbefore := hpolled.free_length hoff
  have htracked := (prepareOne_tracked (b := b) req' hpolled).1
  rw [hone] at htracked
  have hafter := World.Tracked.free_length htracked hoff
  have hroom : (prepareOne b req' w').2.mapper.freeSeqIds.length = w.mapper.freeSeqIds.length := by
    rw [← hmapper]
    simp only [Preparation.prefill, Option.toList_none, List.map_nil, List.nil_append] at hafter
    omega
  have hskip : ¬ ((b.outline req).Fits ∧ (b.outline req).length ≠ 0) :=
    fun hand => hand.2 (congrArg List.length hempty)
  exact ⟨_, _, isolated_skip (prepareAll_rejected hpoll hone) hroom hskip, htracked, halike, hroom⟩

/-- The turn of a request that gets a sequence enrolls its prompt and leaves one sequence less for
the rest of the batch. -/
theorem isolated_served (rest : List InferenceRequest) (hoff : config.prefixCacheEnabled = false)
    (hpoll : isCancelled req w = (false, req', w')) (hmapper : w'.mapper = w.mapper)
    (hpolled : w'.Tracked config order tickets) (hid : req'.id = req.id)
    (houtline : (b.outline req).Fits) (hfits : 0 < b.available req')
    (hwait : mustWait w' (b.promptTokens req') = false) (hpool : w'.mapper.freeSeqIds ≠ [])
    (htokens : b.promptTokens req' = b.promptTokens req) (hprompt : b.promptTokens req ≠ []) :
    ∃ (w₂ : World) (tickets' : List Ticket) (leaf : NodeId), (Isolated b (req :: rest) w ↔
      Isolated b rest w₂) ∧
      w₂.Tracked config order tickets' ∧
      Enrolled w'.mapper.tree (b.promptTokens req) w₂.mapper.tree leaf ∧
      w.mapper.freeSeqIds.length = w₂.mapper.freeSeqIds.length + 1 := by
  obtain ⟨ctx, hone, hctx, hnext⟩ :=
    prepareOne_served hpolled hoff hfits hwait hpool (htokens ▸ hprompt)
  have hbefore := hpolled.free_length hoff
  have htracked := (prepareOne_tracked (b := b) req' hpolled).1
  rw [hone] at htracked
  have hafter := World.Tracked.free_length htracked hoff
  have hroom : w.mapper.freeSeqIds.length =
      (prepareOne b req' w').2.mapper.freeSeqIds.length + 1 := by
    rw [← hmapper]
    simp only [Preparation.prefill, Option.toList_some, List.map_cons, List.map_nil,
      List.singleton_append, List.length_cons] at hafter
    omega
  have hserve : (b.outline req).Fits ∧ (b.outline req).length ≠ 0 :=
    ⟨houtline, fun hzero => hprompt (List.length_eq_zero_iff.mp hzero)⟩
  rw [htokens] at hnext
  exact ⟨_, _, _, isolated_prepared hpoll hone (hctx.trans hid) hroom hserve,
    htracked, hnext, hroom⟩

end First

/-- The first prompt of an undisturbed batch is clear, unless it is passed over. -/
theorem RadixTree.Undisturbed.first {t : RadixTree} {earlier rest : List (List Token)}
    {prompt : List Token} {room : ℕ} (h : t.Undisturbed earlier (examined room (prompt :: rest)))
    (hprompt : prompt ≠ []) :
    t.ClearBeside earlier prompt := by
  cases room with
  | zero =>
    rw [examined, RadixTree.undisturbed_cons] at h
    exact h.1
  | succ room =>
    rw [examined, if_neg hprompt, RadixTree.undisturbed_cons] at h
    exact h.1

/-- Without the cache a batch is isolated exactly if every prompt it looks at is clear in a tree
before it, beside the prompts that were enrolled since. -/
theorem prepareAll_isolated (hoff : config.prefixCacheEnabled = false) {t : RadixTree}
    (hstart : ∀ tokens, t.Clear tokens ↔
      (t.inspectPrefix tokens).pendingTokens ≤ (t.inspectPrefix tokens).readyTokens)
    (reqs : List InferenceRequest) {earlier : List (List Token)}
    (henrolled : Enrollments t earlier w.mapper.tree) (h : w.Tracked config order tickets) :
    Isolated b reqs w ↔
      t.Undisturbed earlier (examined w.mapper.freeSeqIds.length (b.turns reqs)) := by
  induction reqs generalizing w tickets earlier with
  | nil => exact iff_of_true ⟨rfl, List.take_nil.symm⟩ fun i hi => absurd hi (Nat.not_lt_zero i)
  | cons req rest ih =>
    rw [b.turns_cons]
    by_cases hfits : (b.outline req).Fits
    · obtain ⟨req', w₁, hpoll, htokens, havailable, hid, hmapper, hpolled⟩ := hfits.polled h
      rw [if_pos hfits]
      rw [← hmapper] at henrolled
      have hgoes := hpolled.goes_iff henrolled hstart (b.promptTokens req)
      by_cases hwait : mustWait w₁ (b.promptTokens req) = false
      · cases hfree : w.mapper.freeSeqIds with
        | nil =>
          obtain ⟨r, hone⟩ := prepareOne_exhausted hpolled hoff havailable
            (htokens ▸ hwait) (hmapper ▸ hfree)
          refine iff_of_true (isolated_of_exhausted hpoll hone hfree) ?_
          rw [List.length_nil, examined, RadixTree.undisturbed_cons]
          exact ⟨hgoes.mp hwait, fun i hi => absurd hi (Nat.not_lt_zero i)⟩
        | cons i ids =>
          have hpool : w₁.mapper.freeSeqIds ≠ [] := by
            rw [hmapper, hfree]
            exact List.cons_ne_nil i ids
          rw [List.length_cons, examined]
          split
          · -- an empty prompt is given back at once
            rename_i hempty
            obtain ⟨w₂, _, hiff, htracked, halike, hroom⟩ :=
              isolated_empty rest hoff hpoll hmapper hpolled havailable
              (htokens ▸ hwait) hpool htokens hempty
            rw [hiff, ih (henrolled.alike halike) htracked, hroom, hfree, List.length_cons]
          · rename_i hprompt
            obtain ⟨w₂, _, leaf, hiff, htracked, hnext, hroom⟩ :=
              isolated_served rest hoff hpoll hmapper hpolled hid hfits
              havailable (htokens ▸ hwait) hpool htokens hprompt
            have hclear := (hpolled.clear_iff _).mpr ((mustWait_eq_false _ _).mp hwait)
            rw [RadixTree.undisturbed_cons, and_iff_right (hgoes.mp hwait), hiff,
              ih (henrolled.enroll hprompt hclear hnext) htracked]
            rw [hfree, List.length_cons, Nat.add_right_cancel_iff] at hroom
            rw [hroom]
      · -- a request that waits is deferred, wherever the pool stands
        have hdeferred := Bool.not_eq_false _ ▸ hwait
        have hprompt : b.promptTokens req ≠ [] := by
          intro hempty
          rw [hempty] at hwait
          exact hwait rfl
        refine iff_of_false (not_isolated_of_waits hpoll havailable (htokens ▸ hdeferred))
          fun hundisturbed => ?_
        exact hwait (hgoes.mpr (hundisturbed.first hprompt))
    · obtain ⟨w', hbatch, hmapper, htracked⟩ := prepareAll_unfit hfits h rest
      rw [if_neg hfits, isolated_skip hbatch (hmapper ▸ rfl) fun hand => hfits hand.1, ← hmapper]
      exact ih (hmapper ▸ henrolled) htracked

/-- Without the cache a batch is isolated exactly if it is undisturbed. -/
theorem World.Tracked.isolated_iff_undisturbed (h : w.Tracked config order tickets)
    (hoff : config.prefixCacheEnabled = false) (reqs : List InferenceRequest) :
    Isolated b reqs w ↔ w.mapper.Undisturbed (b.turns reqs) :=
  prepareAll_isolated hoff h.clear_iff reqs (.start h.shape) h

end Turns

/-- Without the cache every call of a world's log is cold. -/
theorem World.Follows.cold {w : World} {s : Session} (h : w.Follows config order s)
    (hoff : config.prefixCacheEnabled = false) {before after : List Entry} {call : Call}
    (hlog : w.log = before ++ .call call :: after) :
    call.Cold (mapperAfter config order before) := by
  obtain ⟨_, hrun, _⟩ := h.past (before ++ [.call call])
    ⟨after, by rw [hlog, List.append_assoc]; rfl⟩
  have hcalls : callsOf (before ++ [.call call]) = callsOf before ++ [call] := by
    simp [callsOf, Entry.call?]
  rw [hcalls] at hrun
  obtain ⟨s₁, hbefore, hstep⟩ := run_snoc.mp hrun
  have hmapper : s₁.mapper = mapperAfter config order before := Session.run_mapper hbefore
  have hconfig : s₁.mapper.config = config := Session.run_config hbefore
  rw [← hmapper]
  exact Session.step_cold (Session.run_sound hbefore) (hconfig ▸ hoff) hstep

/-- Without the cache every call is cold in every run, and a batch is isolated exactly if it is
undisturbed: batches with the same outlines and as many free sequences are then prepared alike. -/
theorem cache_off_isolated (b : Bridge L) (config : Config)
    (hoff : config.prefixCacheEnabled = false) (order : ChildOrder) (actions : List Action)
    (k : Worker L) (hrun : (Worker.init config order : Worker L).Run b actions k) :
    (∀ before call after, k.world.log = before ++ .call call :: after →
      call.Cold (mapperAfter config order before)) ∧
      (∀ pending, k.phase = .admitted pending →
        (Isolated b pending k.world ↔ k.world.mapper.Undisturbed (b.turns pending))) ∧
      ∀ (b' : Bridge L) (actions' : List Action) (k' : Worker L),
      (Worker.init config order : Worker L).Run b' actions' k' →
        ∀ pending pending', k.phase = .admitted pending → k'.phase = .admitted pending' →
          pending.map b.outline = pending'.map b'.outline →
          k.world.mapper.freeSeqIds.length = k'.world.mapper.freeSeqIds.length →
          k.world.mapper.Undisturbed (b.turns pending) →
          k'.world.mapper.Undisturbed (b'.turns pending') →
          (prepareAll b pending k.world).1.ctxs.map (fun ctx => ctx.req.id) =
            (prepareAll b' pending' k'.world).1.ctxs.map fun ctx => ctx.req.id := by
  have htracked := (Worker.run_follows hrun).tracked
  obtain ⟨s, hfollows, _⟩ := (Worker.run_follows hrun).tracked
  refine ⟨fun before call after => hfollows.cold hoff,
    fun pending _ => htracked.isolated_iff_undisturbed hoff pending, ?_⟩
  intro b' actions' k' hrun' pending pending' _ _ houtlines hroom hundisturbed hundisturbed'
  have htracked' := (Worker.run_follows hrun').tracked
  rw [((htracked.isolated_iff_undisturbed hoff pending).mpr hundisturbed).prepared,
    ((htracked'.isolated_iff_undisturbed hoff pending').mpr hundisturbed').prepared,
    houtlines, hroom]

/-- Two requests with different prompts are both prepared. -/
theorem cache_off_isolated_two : ∃ k pending,
    (Worker.init ⟨4, 64, false⟩ .stored).Run
      (Bridge.counting (fun text => if text = "" then [1, 2] else [3, 4]) 9)
      [.enqueue {}, .enqueue { prompt := "a" }, .check, .pop] k ∧ k.phase = .admitted pending ∧
        pending.length = 2 ∧
      Isolated (Bridge.counting (fun text => if text = "" then [1, 2] else [3, 4]) 9)
        pending k.world := by
  have hrun :
      (run (Worker.step (Bridge.counting (fun text => if text = "" then [1, 2] else [3, 4]) 9))
      (Worker.init ⟨4, 64, false⟩ .stored) [.enqueue {}, .enqueue { prompt := "a" }, .check,
        .pop]).any (fun k =>
        k.admitted.length = 2 ∧ k.world.mapper.Undisturbed
          ((Bridge.counting (fun text => if text = "" then [1, 2] else [3, 4]) 9).turns
            k.admitted)) = true := by
    decide +kernel
  obtain ⟨k, hk, hcond⟩ := (Option.any_eq_true _ _).mp hrun
  obtain ⟨hlength, hundisturbed⟩ := of_decide_eq_true hcond
  cases hphase : k.phase with
  | admitted pending =>
    simp only [Worker.admitted, hphase] at hlength hundisturbed
    exact ⟨k, pending, hk, hphase, hlength,
      ((cache_off_isolated _ ⟨4, 64, false⟩ rfl .stored _ k hk).2.1 pending hphase).mpr
        hundisturbed⟩
  | _ => simp [Worker.admitted, hphase] at hlength

/-- Two requests with the same prompt: the second one is deferred, although nothing can be copied.
-/
theorem deferred_without_cache :
    ¬ ∀ (L : Type) (b : Bridge L) (config : Config) (order : ChildOrder)
    (actions : List Action) (k : Worker L) (pending : List InferenceRequest),
      config.prefixCacheEnabled = false →
      (Worker.init config order : Worker L).Run b actions k → k.phase = .admitted pending →
      Isolated b pending k.world := by
  intro hall
  have hrun : (run (Worker.step (Bridge.counting (fun _ => [5, 6]) 9))
      (Worker.init ⟨4, 64, false⟩ .stored)
      [.enqueue {}, .enqueue {}, .check, .pop]).any (fun k =>
        (prepareAll (Bridge.counting (fun _ => [5, 6]) 9) k.admitted k.world).1.deferred.length =
          1) = true := by
    decide +kernel
  obtain ⟨k, hk, hcond⟩ := (Option.any_eq_true _ _).mp hrun
  cases hphase : k.phase with
  | admitted pending =>
    simp only [Worker.admitted, hphase] at hcond
    have hone := of_decide_eq_true hcond
    rw [(hall _ _ _ _ _ k pending rfl hk hphase).deferred] at hone
    exact absurd hone (by decide)
  | _ => simp [Worker.admitted, hphase, prepareAll] at hcond

end RadixForge
