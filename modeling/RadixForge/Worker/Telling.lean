import RadixForge.Worker.Isolation
import RadixForge.Worker.Departures

/-!
# What the callbacks say

A callback says what is true of the request that arrived: a piece is the text of its token, the last
piece comes with statistics that describe the prompt, an error is one of five, and only a request
whose predicate turned true is told that it was cancelled. The worker keeps what it needs for that
with each request, so this is a property of every visit.
-/

namespace RadixForge

open Library

variable {L : Type} {b : Bridge L} {arrivals : List InferenceRequest} {w w' w'' : World}

/-- The statistics of a request with this prompt: what it reused of the prompt, and the rest, which
is not empty. -/
structure InferenceStats.Describes (prompt : List Token) (stats : InferenceStats) : Prop where
  total : stats.promptTokens = prompt.length
  parts : stats.promptN + stats.cacheN = prompt.length
  decoded : 1 ≤ stats.promptN

/-- The errors that the worker reports, with their status. A sixth one, `resource exhausted` with
status 503, answers an exception of the mapper that is no exhaustion of sequences, that is an
allocation that failed; the model has none. -/
def failures : List (String × ℕ) :=
  [("prompt exceeds context window", 400), ("internal cache preparation error", 500),
    ("KV cache is full", 503), ("inference decode failed", 500), ("inference prefill failed", 500)]

/-- What a callback may say to a request that arrived. -/
def Event.Honest (b : Bridge L) (req : InferenceRequest) : Event → Prop
  | .polled answer => answer = true → req.cancelAfter ≠ none
  | .onToken token piece isLast stats =>
    piece = (token.map b.tokenToPiece).getD [] ∧ (token = none → isLast = true) ∧
      stats.isSome = isLast ∧
      ∀ s ∈ stats, s.Describes (b.promptTokens req)
  | .onError message status => (message, status) ∈ failures
  | .onCancel => req.cancelAfter ≠ none

/-- A request in the worker is that of an arrival: it has its prompt, and its predicate turns true
only if that of the arrival does. -/
def InferenceRequest.Of (b : Bridge L) (arrivals : List InferenceRequest) (req : InferenceRequest) :
    Prop :=
  ∃ a ∈ arrivals[req.id]?, b.promptTokens req = b.promptTokens a ∧
    (req.cancelAfter ≠ none → a.cancelAfter ≠ none)

/-- A prefill knows the request it is for, and describes its prompt. -/
structure PrefillCtx.Of (b : Bridge L) (arrivals : List InferenceRequest) (ctx : PrefillCtx) :
    Prop where
  origin : ctx.req.Of b arrivals
  stats : ctx.stats.Describes (b.promptTokens ctx.req)

/-- A sequence knows the request it is for, and describes its prompt. -/
structure ActiveSeq.Of (b : Bridge L) (arrivals : List InferenceRequest) (seq : ActiveSeq L) :
    Prop where
  origin : seq.req.Of b arrivals
  stats : seq.stats.Describes (b.promptTokens seq.req)

/-- Callbacks are added, and every one that is says what is true of its request. -/
structure World.Tells (b : Bridge L) (arrivals : List InferenceRequest) (w w' : World) : Prop where
  grows : ∀ id, w.eventsOf id <+: w'.eventsOf id
  honest : ∀ id, ∀ e ∈ w'.eventsOf id, e ∈ w.eventsOf id ∨ ∃ a ∈ arrivals[id]?, e.Honest b a

namespace World

/-- A world tells nothing beyond itself. -/
theorem Tells.refl (w : World) : w.Tells b arrivals w :=
  ⟨fun _ => List.prefix_refl _, fun _ _ h => Or.inl h⟩

/-- Truthful stretches compose. -/
theorem Tells.trans (h : w.Tells b arrivals w') (h' : w'.Tells b arrivals w'') :
    w.Tells b arrivals w'' :=
  ⟨fun id => (h.grows id).trans (h'.grows id),
    fun id e he => (h'.honest id e he).elim (h.honest id e) Or.inr⟩

/-- Nothing is added. -/
theorem Tells.same (h : ∀ id, w'.eventsOf id = w.eventsOf id) : w.Tells b arrivals w' :=
  ⟨fun id => (h id).symm ▸ List.prefix_refl _, fun id _ he => Or.inl (h id ▸ he)⟩

/-- A mapper call tells nothing. -/
theorem Tells.call (w : World) (c : Call) : w.Tells b arrivals (w.call c) :=
  .same (call_eventsOf w c)

/-- Giving a sequence back tells nothing. -/
theorem Tells.giveBack (w : World) (id : ℕ) (seqId : SeqId) (owner leaf : NodeId) :
    w.Tells b arrivals (w.giveBack id seqId owner leaf) :=
  .same fun _ => giveBack_eventsOf _ _ _ _ _ _

/-- The note that a sequence is leaving tells nothing. -/
theorem Tells.leaving (w : World) (id : ℕ) (seqId : SeqId) (leaf : NodeId) (tokens : List Token)
    (extension : Bool) :
    w.Tells b arrivals (w.note (.leaving id seqId leaf tokens extension)) :=
  .same fun _ => leaving_eventsOf _ _ _ _ _ _ _

/-- The note of an admission tells nothing. -/
theorem Tells.admitted (w : World) (id : ℕ) (prompt : List Token) (result : PrepareResult) :
    w.Tells b arrivals (w.note (.admitted id prompt result)) :=
  .same fun _ => admitted_eventsOf _ _ _ _ _

/-- A callback that is true of the arrival. -/
theorem Tells.callback (w : World) {req : InferenceRequest} (h : req.Of b arrivals) {e : Event}
    (he : ∀ a, b.promptTokens req = b.promptTokens a →
      (req.cancelAfter ≠ none → a.cancelAfter ≠ none) → e.Honest b a) :
    w.Tells b arrivals (w.callback req.id e) := by
  refine ⟨fun id => ?_, fun id e' he' => ?_⟩
  · rw [callback_eventsOf]
    split
    · exact List.prefix_append _ _
    · exact List.prefix_refl _
  · obtain ⟨a, ha, hprompt, hcancels⟩ := h
    rw [callback_eventsOf] at he'
    split at he'
    · rename_i hid
      rcases List.mem_append.mp he' with he' | he'
      · exact Or.inl he'
      · rw [List.mem_singleton.mp he']
        exact Or.inr ⟨a, hid ▸ ha, he a hprompt hcancels⟩
    · exact Or.inl he'

/-- A piece that is the text of its token, without statistics. -/
theorem Tells.piece (w : World) {req : InferenceRequest} (h : req.Of b arrivals) (token : Token) :
    w.Tells b arrivals
      (w.callback req.id (.onToken (some token) (b.tokenToPiece token) false none)) :=
  .callback w h fun _ _ _ => ⟨rfl, fun hnone => absurd hnone (Option.some_ne_none _), rfl,
    fun _ hs => absurd hs (Option.not_mem_none _)⟩

/-- The last piece comes with statistics that describe the prompt. -/
theorem Tells.last (w : World) {req : InferenceRequest} (h : req.Of b arrivals)
    (token : Option Token)
    {stats : InferenceStats} (hstats : stats.Describes (b.promptTokens req)) :
    w.Tells b arrivals
      (w.callback req.id (.onToken token ((token.map b.tokenToPiece).getD []) true
        (some stats))) := by
  refine .callback w h fun a hprompt _ => ⟨rfl, fun _ => rfl, rfl, fun s hs => ?_⟩
  cases hs
  exact hprompt ▸ hstats

/-- One of the errors of the worker. -/
theorem Tells.error (w : World) {req : InferenceRequest} (h : req.Of b arrivals) {message : String}
    {status : ℕ} (hfailure : (message, status) ∈ failures) :
    w.Tells b arrivals (w.callback req.id (.onError message status)) :=
  .callback w h fun _ _ _ => hfailure

end World

/-- What a poll leaves of a request. -/
structure InferenceRequest.Polled (b : Bridge L) (arrivals : List InferenceRequest)
    (req : InferenceRequest) (w : World) (polled : Bool × InferenceRequest × World) : Prop where
  tells : w.Tells b arrivals polled.2.2
  origin : polled.2.1.Of b arrivals
  prompt : b.promptTokens polled.2.1 = b.promptTokens req

/-- The poll of `cancelled` is truthful. -/
theorem isCancelled_tells {req : InferenceRequest} (h : req.Of b arrivals) (w : World) :
    req.Polled b arrivals w (isCancelled req w) := by
  unfold isCancelled
  split
  · rename_i hzero
    have hpolled : w.Tells b arrivals (w.callback req.id (.polled true)) :=
      .callback w h fun a _ hcancels _ => hcancels (by rw [hzero]; exact Option.some_ne_none 0)
    simp only
    split
    · refine ⟨hpolled.trans (.callback _ h fun a _ hcancels => ?_), ?_, rfl⟩
      · exact hcancels (by rw [hzero]; exact Option.some_ne_none 0)
      · exact h
    · exact ⟨hpolled, h, rfl⟩
  · rename_i n hsucc
    refine ⟨.callback w h fun a _ _ hfalse => absurd hfalse Bool.false_ne_true, ?_, rfl⟩
    obtain ⟨a, ha, hprompt, hcancels⟩ := h
    exact ⟨a, ha, hprompt, fun _ => hcancels (by rw [hsucc]; exact Option.some_ne_none _)⟩
  · exact ⟨.callback w h fun a _ _ hfalse => absurd hfalse Bool.false_ne_true, h, rfl⟩

/-- The number of generated tokens does not matter to the prompt. -/
theorem InferenceStats.Describes.predict {prompt : List Token} {stats : InferenceStats}
    (h : stats.Describes prompt) (n : ℕ) :
    InferenceStats.Describes prompt { stats with predictedN := n } := ⟨h.total, h.parts, h.decoded⟩

section Visits

/-- The poll of a sequence is truthful. -/
theorem pollActive_tells (seq : ActiveSeq L) (w : World) (h : seq.Of b arrivals) :
    w.Tells b arrivals (pollActive seq w).2 ∧ ∀ s ∈ (pollActive seq w).1, s.Of b arrivals := by
  have hpolled := isCancelled_tells h.origin w
  refine ⟨hpolled.tells, fun s hs => ?_⟩
  cases hs
  exact ⟨hpolled.origin, hpolled.prompt.symm ▸ h.stats⟩

/-- Retiring a sequence is truthful. -/
theorem retire_tells {seq : ActiveSeq L} (h : seq.Of b arrivals) (notify : Bool) (w : World) :
    w.Tells b arrivals (retire seq notify w) := by
  have hmarked : w.Tells b arrivals
      (w.note (.leaving seq.req.id seq.seqId seq.leafNode seq.cachedTokens notify)) :=
    .leaving w _ _ _ _ _
  cases notify with
  | false => exact hmarked.trans (.giveBack _ _ _ _ _)
  | true =>
    simp only [retire, if_true]
    generalize w.note (.leaving seq.req.id seq.seqId seq.leafNode seq.cachedTokens true) =
      w₁ at hmarked ⊢
    have hpolled := isCancelled_tells h.origin w₁
    generalize isCancelled seq.req w₁ = polled at hpolled ⊢
    obtain ⟨cancelled, req, w₂⟩ := polled
    have hextended : w₂.Tells b arrivals (if cancelled then (w₂, seq.leafNode)
        else w₂.extendSequence seq.seqId seq.leafNode seq.cachedTokens).1 := by
      cases cancelled with
      | true => exact .refl w₂
      | false => exact .call w₂ _
    simp only at hextended ⊢
    generalize (if cancelled then (w₂, seq.leafNode)
      else w₂.extendSequence seq.seqId seq.leafNode seq.cachedTokens) = extended at hextended ⊢
    obtain ⟨w₃, node⟩ := extended
    have hagain := isCancelled_tells hpolled.origin w₃
    have hstats : seq.stats.Describes (b.promptTokens (isCancelled req w₃).2.1) := by
      rw [hagain.prompt, hpolled.prompt]
      exact h.stats
    simp only at hextended ⊢
    generalize isCancelled req w₃ = polled' at hagain hstats ⊢
    obtain ⟨cancelled', req', w₄⟩ := polled'
    have htold : w₄.Tells b arrivals (if cancelled' then w₄
        else w₄.callback req'.id (.onToken none [] true (some seq.stats))) := by
      cases cancelled' with
      | true => exact .refl w₄
      | false => exact .last w₄ hagain.origin none hstats
    exact ((((hmarked.trans hpolled.tells).trans hextended).trans hagain.tells).trans htold).trans
      (.giveBack _ _ _ _ _)

/-- Dropping a cancelled sequence is truthful. -/
theorem dropCancelled_tells (seq : ActiveSeq L) (w : World) (h : seq.Of b arrivals) :
    w.Tells b arrivals (dropCancelled seq w).2 ∧
      ∀ s ∈ (dropCancelled seq w).1, s.Of b arrivals := by
  unfold dropCancelled
  split
  · exact ⟨retire_tells h false w, fun s hs => absurd hs (Option.not_mem_none s)⟩
  · refine ⟨.refl w, fun s hs => ?_⟩
    cases hs
    exact h

/-- Abandoning a prefill is truthful. -/
theorem abandon_tells (ctx : PrefillCtx) (w : World) : w.Tells b arrivals (abandon ctx w) :=
  (World.Tells.leaving w _ _ _ _ _).trans (.giveBack _ _ _ _ _)

/-- Dropping an abandoned prefill is truthful. -/
theorem dropAbandoned_tells (ctx : PrefillCtx) (w : World) (h : ctx.Of b arrivals) :
    w.Tells b arrivals (dropAbandoned ctx w).2 ∧
      ∀ c ∈ (dropAbandoned ctx w).1, c.Of b arrivals := by
  have hpolled := isCancelled_tells h.origin w
  unfold dropAbandoned
  generalize isCancelled ctx.req w = polled at hpolled ⊢
  obtain ⟨cancelled, req, w₁⟩ := polled
  cases cancelled with
  | true =>
    exact ⟨hpolled.tells.trans (abandon_tells _ _), fun c hc => absurd hc (Option.not_mem_none c)⟩
  | false =>
    refine ⟨hpolled.tells, fun c hc => ?_⟩
    cases hc
    exact ⟨hpolled.origin, hpolled.prompt.symm ▸ h.stats⟩

/-- What a failure tells a request. -/
theorem failed_tells {req : InferenceRequest} (h : req.Of b arrivals) {message : String}
    {status : ℕ} (hfailure : (message, status) ∈ failures) (seqId : SeqId) (leaf : NodeId)
    (tokens : List Token) (w : World) :
    w.Tells b arrivals
      (((if (isCancelled req (w.note (.leaving req.id seqId leaf tokens false))).1
          then (isCancelled req (w.note (.leaving req.id seqId leaf tokens false))).2.2
          else (isCancelled req (w.note (.leaving req.id seqId leaf tokens false))).2.2.callback
            (isCancelled req (w.note (.leaving req.id seqId leaf tokens false))).2.1.id
              (.onError message status)).giveBack
        (isCancelled req (w.note (.leaving req.id seqId leaf tokens false))).2.1.id
          seqId leaf leaf)) := by
  have hmarked : w.Tells b arrivals (w.note (.leaving req.id seqId leaf tokens false)) :=
    .leaving w _ _ _ _ _
  have hpolled := isCancelled_tells h (w.note (.leaving req.id seqId leaf tokens false))
  refine ((hmarked.trans hpolled.tells).trans ?_).trans (.giveBack _ _ _ _ _)
  split
  · exact .refl _
  · exact .error _ hpolled.origin hfailure

/-- Failing a sequence is truthful when the message is one of `failures`. -/
theorem failActive_tells {message : String} {status : ℕ} (hfailure : (message, status) ∈ failures)
    (seq : ActiveSeq L) (w : World) (h : seq.Of b arrivals) :
    w.Tells b arrivals (failActive message status seq w) :=
  failed_tells h.origin hfailure seq.seqId seq.leafNode seq.cachedTokens w

/-- Failing a prefill is truthful when the message is one of `failures`. -/
theorem failPrefill_tells {message : String} {status : ℕ} (hfailure : (message, status) ∈ failures)
    (ctx : PrefillCtx) (w : World) (h : ctx.Of b arrivals) :
    w.Tells b arrivals (failPrefill message status ctx w) :=
  failed_tells h.origin hfailure ctx.prep.seqId ctx.prep.leafNode ctx.tokens w

/-- Counting a chunk as decoded is truthful. -/
theorem finishChunk_tells (p : PrefillCtx × Option PromptSubmission) (w : World)
    (h : p.1.Of b arrivals) :
    w.Tells b arrivals (finishChunk p w).2 ∧ ∀ q ∈ (finishChunk p w).1, q.1.Of b arrivals := by
  obtain ⟨ctx, submission⟩ := p
  cases submission with
  | none =>
    refine ⟨.refl w, fun q hq => ?_⟩
    cases hq
    exact h
  | some submission =>
    unfold finishChunk
    simp only
    split
    · refine ⟨.call w _, fun q hq => ?_⟩
      cases hq
      exact ⟨h.origin, h.stats⟩
    · refine ⟨.refl w, fun q hq => ?_⟩
      cases hq
      exact ⟨h.origin, h.stats⟩

/-- Advancing a sequence is truthful. -/
theorem advanceSeq_tells (outputs : List (Option L)) (p : ℕ × ActiveSeq L) (w : World)
    (h : p.2.Of b arrivals) :
    w.Tells b arrivals (advanceSeq b outputs p w).2 ∧
      ∀ s ∈ (advanceSeq b outputs p w).1, s.Of b arrivals := by
  obtain ⟨row, seq⟩ := p
  have hcounted : w.Tells b arrivals (w.call (.setCellCount seq.seqId (seq.pos + 1))) := .call w _
  simp only [advanceSeq]
  generalize seq.sampler.sampleRow b outputs row = sampled
  obtain ⟨newTok, sampler⟩ := sampled
  simp only
  split
  · refine ⟨hcounted, fun s hs => ?_⟩
    cases hs
    exact ⟨h.origin, h.stats⟩
  · generalize w.call (.setCellCount seq.seqId (seq.pos + 1)) = w₁ at hcounted ⊢
    have hpolled := isCancelled_tells h.origin w₁
    have hstats : InferenceStats.Describes (b.promptTokens (isCancelled seq.req w₁).2.1)
        { seq.stats with predictedN := seq.stats.predictedN + 1 } := by
      rw [hpolled.prompt]
      exact h.stats.predict _
    generalize isCancelled seq.req w₁ = polled at hpolled hstats ⊢
    obtain ⟨cancelled, req, w₂⟩ := polled
    simp only at hstats ⊢
    generalize hpiece : (if cancelled then w₂ else w₂.callback req.id _) = w₃
    have htold : w₂.Tells b arrivals w₃ := by
      rw [← hpiece]
      split
      · exact .refl w₂
      · by_cases hlast : seq.remaining - 1 = 0
        · simp only [hlast, decide_true, if_true]
          exact .last w₂ hpolled.origin (some newTok) hstats
        · simp only [hlast, decide_false, Bool.false_eq_true, if_false]
          exact .piece w₂ hpolled.origin newTok
    have hsofar := (hcounted.trans hpolled.tells).trans htold
    split
    · refine ⟨hsofar, fun s hs => ?_⟩
      cases hs
      exact ⟨hpolled.origin, hstats⟩
    · have hagain := isCancelled_tells hpolled.origin w₃
      generalize isCancelled req w₃ = polled' at hagain ⊢
      obtain ⟨cancelled', req', w₄⟩ := polled'
      have hstats' := hagain.prompt.symm ▸ hstats
      simp only at hstats' ⊢
      split
      · refine ⟨hsofar.trans hagain.tells, fun s hs => ?_⟩
        cases hs
        exact ⟨hagain.origin, hstats'⟩
      · refine ⟨hsofar.trans hagain.tells, fun s hs => ?_⟩
        cases hs
        exact ⟨hagain.origin, hstats'⟩

/-- Retiring a finished sequence is truthful. -/
theorem retireDone_tells (seq : ActiveSeq L) (w : World) (h : seq.Of b arrivals) :
    w.Tells b arrivals (retireDone seq w).2 ∧ ∀ s ∈ (retireDone seq w).1, s.Of b arrivals := by
  unfold retireDone
  split
  · have hpolled := isCancelled_tells h.origin w
    generalize isCancelled seq.req w = polled at hpolled ⊢
    obtain ⟨cancelled, req, w₁⟩ := polled
    have hseq : ActiveSeq.Of b arrivals { seq with req := req } :=
      ⟨hpolled.origin, hpolled.prompt.symm ▸ h.stats⟩
    have hretired := retire_tells hseq seq.notifyOnRetire w₁
    exact ⟨hpolled.tells.trans hretired, fun s hs => absurd hs (Option.not_mem_none s)⟩
  · refine ⟨.refl w, fun s hs => ?_⟩
    cases hs
    exact h

/-- The first token of a prefill is told truthfully. -/
theorem beginGeneration_tells (outputs : List (Option L)) {ctx : PrefillCtx} (row : ℕ) (w : World)
    (h : ctx.Of b arrivals) : w.Tells b arrivals (beginGeneration b outputs ctx row w).2 ∧
      ∀ s ∈ (beginGeneration b outputs ctx row w).1, s.Of b arrivals := by
  have hpolled := isCancelled_tells h.origin w
  have hstats : ctx.stats.Describes (b.promptTokens (isCancelled ctx.req w).2.1) :=
    hpolled.prompt.symm ▸ h.stats
  unfold beginGeneration
  generalize isCancelled ctx.req w = polled at hpolled hstats ⊢
  obtain ⟨cancelled, req, w₁⟩ := polled
  simp only at hstats ⊢
  have hgone {w₂ : World} (hsofar : w.Tells b arrivals w₂) (ctx : PrefillCtx) :
      w.Tells b arrivals (abandon ctx w₂) ∧ ∀ s ∈ (none : Option (ActiveSeq L)), s.Of b arrivals :=
    ⟨hsofar.trans (abandon_tells ctx w₂), fun s hs => absurd hs (Option.not_mem_none s)⟩
  split
  · exact hgone hpolled.tells _
  · split
    · exact hgone (hpolled.tells.trans (.last w₁ hpolled.origin none hstats)) _
    · by_cases hlast : req.maxTokens ≤ 1
      · simp only [hlast, decide_true, if_true]
        exact hgone (hpolled.tells.trans (.last w₁ hpolled.origin (some _) (hstats.predict 1))) _
      · simp only [hlast, decide_false, Bool.false_eq_true, if_false]
        refine ⟨hpolled.tells.trans (.piece w₁ hpolled.origin _), fun s hs => ?_⟩
        cases hs
        exact ⟨hpolled.origin, hstats.predict 1⟩

/-- What a prefill becomes knows the request it is for. -/
def progressOf (b : Bridge L) (arrivals : List InferenceRequest) :
    PrefillCtx ⊕ ActiveSeq L → Prop :=
  Sum.elim (PrefillCtx.Of b arrivals) (ActiveSeq.Of b arrivals)

/-- The end of a prefill's step is truthful. -/
theorem finishPrefill_tells (outputs : List (Option L)) (q : PrefillCtx × Option ℕ) (w : World)
    (h : q.1.Of b arrivals) :
    w.Tells b arrivals (finishPrefill b outputs q w).2 ∧
      ∀ r ∈ (finishPrefill b outputs q w).1, progressOf b arrivals r := by
  obtain ⟨ctx, row⟩ := q
  cases row with
  | none =>
    refine ⟨.refl w, fun r hr => ?_⟩
    cases hr
    exact h
  | some row =>
    have hbegun := beginGeneration_tells outputs row w h
    simp only [finishPrefill]
    generalize beginGeneration b outputs ctx row w = outcome at hbegun ⊢
    obtain ⟨seq, w₁⟩ := outcome
    refine ⟨hbegun.1, fun r hr => ?_⟩
    obtain ⟨s, hs, rfl⟩ := Option.map_eq_some_iff.mp hr
    exact hbegun.2 s hs

/-- The poll of a request that stays in the queue is truthful. -/
theorem keepQueued_tells (req : InferenceRequest) (w : World) (h : req.Of b arrivals) :
    w.Tells b arrivals (keepQueued req w).2 ∧ ∀ r ∈ (keepQueued req w).1, r.Of b arrivals := by
  have hpolled := isCancelled_tells h w
  unfold keepQueued
  generalize isCancelled req w = polled at hpolled ⊢
  obtain ⟨cancelled, req', w₁⟩ := polled
  refine ⟨hpolled.tells, fun r hr => ?_⟩
  cases cancelled with
  | true => exact absurd hr (Option.not_mem_none r)
  | false =>
    cases hr
    exact hpolled.origin

end Visits

section Steps

variable {slots : Slots L}

/-- The two lists know the requests they are for. -/
structure Slots.Of (b : Bridge L) (arrivals : List InferenceRequest) (slots : Slots L) : Prop where
  active : ∀ seq ∈ slots.active, seq.Of b arrivals
  prefilling : ∀ ctx ∈ slots.prefilling, ctx.Of b arrivals

/-- A pass whose visits say what is true. -/
theorem pass_tells {α β : Type} {visit : α → World → Option β × World} {P : α → Prop} {Q : β → Prop}
    (hvisit : ∀ a w, P a → w.Tells b arrivals (visit a w).2 ∧ ∀ r ∈ (visit a w).1, Q r)
    (as : List α) (hP : ∀ a ∈ as, P a) (w : World) :
    w.Tells b arrivals (pass visit as w).2 ∧ ∀ r ∈ (pass visit as w).1, Q r :=
  pass_related World.Tells.refl (fun _ _ _ h h' => h.trans h') hvisit as hP w

/-- A loop that fails everyone is truthful when each turn is. -/
theorem failAll_tells {α : Type} {fail : α → World → World} {P : α → Prop}
    (hfail : ∀ (a : α) (w : World), P a → w.Tells b arrivals (fail a w)) (as : List α)
    (hP : ∀ a ∈ as, P a) (w : World) :
    w.Tells b arrivals (failAll fail as w) := by
  induction as generalizing w with
  | nil => exact .refl w
  | cons a rest ih =>
    exact (hfail a w (hP a List.mem_cons_self)).trans
      (ih (fun a ha => hP a (List.mem_cons_of_mem _ ha)) _)

/-- Dropping the cancelled prefills and sequences is truthful. -/
theorem dropAllCancelled_tells (h : slots.Of b arrivals) (w : World) :
    w.Tells b arrivals (dropAllCancelled slots w).2 ∧
      (dropAllCancelled slots w).1.Of b arrivals := by
  have hpolled := pass_tells pollActive_tells slots.active h.1 w
  have hkept := pass_tells dropCancelled_tells _ hpolled.2 (pass pollActive slots.active w).2
  have hprefilling := pass_tells dropAbandoned_tells slots.prefilling h.2
    (pass dropCancelled (pass pollActive slots.active w).1 (pass pollActive slots.active w).2).2
  exact ⟨(hpolled.1.trans hkept.1).trans hprefilling.1, hkept.2, hprefilling.2⟩

/-- Submitting a batch tells nothing. -/
theorem decodeBatch_tells (rows : List Row) (first second : ℤ) (w : World) :
    w.Tells b arrivals (decodeBatch b rows first second w).2.2 :=
  .same (decodeBatch_eventsOf rows first second w)

/-- Failing the newest of the batch is truthful. -/
theorem failNewest_tells (h : slots.Of b arrivals) (w : World) :
    w.Tells b arrivals (failNewest slots w).2 ∧ (failNewest slots w).1.Of b arrivals := by
  unfold failNewest
  split
  · rename_i seq hseq
    exact ⟨failActive_tells (by decide) seq w (h.1 seq (List.mem_of_getLast? hseq)),
      fun s hs => h.1 s (List.mem_of_mem_dropLast hs), h.2⟩
  · split
    · rename_i ctx hctx
      exact ⟨failPrefill_tells (by decide) ctx w (h.2 ctx (List.mem_of_getLast? hctx)), h.1,
        fun c hc => h.2 c (List.mem_of_mem_dropLast hc)⟩
    · exact ⟨.refl w, h⟩

/-- Failing everything is truthful. -/
theorem failEverything_tells (h : slots.Of b arrivals) (w : World) :
    w.Tells b arrivals (failEverything slots w).2 ∧ (failEverything slots w).1.Of b arrivals := by
  have hdecode : ("inference decode failed", 500) ∈ failures := by decide
  have hprefill : ("inference prefill failed", 500) ∈ failures := by decide
  have hactive := failAll_tells (failActive_tells (b := b) (L := L) hdecode) slots.active h.active w
  have hprefilling := failAll_tells (failPrefill_tells (b := b) hprefill)
    slots.prefilling h.prefilling
    (failAll (failActive "inference decode failed" 500) slots.active w)
  exact ⟨hactive.trans hprefilling, fun s hs => absurd hs List.not_mem_nil,
    fun c hc => absurd hc List.not_mem_nil⟩

/-- Advancing everything in the batch is truthful. -/
theorem advanceAll_tells (h : slots.Of b arrivals) (submissions : List (Option PromptSubmission))
    (outputs : List (Option L)) (w : World) :
    w.Tells b arrivals (advanceAll b submissions outputs slots w).2 ∧
      (advanceAll b submissions outputs slots w).1.Of b arrivals := by
  have hmarked := pass_tells finishChunk_tells (slots.prefilling.zip submissions)
    (fun p hp => h.2 p.1 (List.of_mem_zip hp).1) w
  simp only [advanceAll]
  generalize pass finishChunk (slots.prefilling.zip submissions) w = marked at hmarked ⊢
  obtain ⟨chunks, w₁⟩ := marked
  have hadvanced := pass_tells (advanceSeq_tells (b := b) outputs)
    ((List.range slots.active.length).zip slots.active)
    (fun p hp => h.1 p.2 (List.of_mem_zip hp).2) w₁
  simp only at hmarked ⊢
  generalize pass (advanceSeq b outputs) ((List.range slots.active.length).zip slots.active) w₁ =
    advanced at hadvanced ⊢
  obtain ⟨seqs, w₂⟩ := advanced
  have hretired := pass_tells retireDone_tells seqs hadvanced.2 w₂
  simp only at hadvanced ⊢
  generalize pass retireDone seqs w₂ = retired at hretired ⊢
  obtain ⟨kept, w₃⟩ := retired
  have hfinished := pass_tells (finishPrefill_tells (b := b) outputs) chunks hmarked.2 w₃
  simp only at hretired ⊢
  generalize pass (finishPrefill b outputs) chunks w₃ = finished at hfinished ⊢
  obtain ⟨results, w₄⟩ := finished
  refine ⟨((hmarked.1.trans hadvanced.1).trans hretired.1).trans hfinished.1,
    fun s hs => ?_, fun c hc => ?_⟩
  · rcases List.mem_append.mp hs with hs | hs
    · exact hretired.2 s hs
    · obtain ⟨r, hr, hright⟩ := List.mem_filterMap.mp hs
      have hstays := hfinished.2 r hr
      rw [Sum.getRight?_eq_some_iff.mp hright] at hstays
      exact hstays
  · obtain ⟨r, hr, hleft⟩ := List.mem_filterMap.mp hc
    have hstays := hfinished.2 r hr
    rw [Sum.getLeft?_eq_some_iff.mp hleft] at hstays
    exact hstays

/-- A fused step is truthful. -/
theorem fusedStep_tells (h : slots.Of b arrivals) (first second : ℤ) (w : World) :
    w.Tells b arrivals (fusedStep b first second slots w).2 ∧
      (fusedStep b first second slots w).1.Of b arrivals := by
  have hdropped := dropAllCancelled_tells h w
  unfold fusedStep
  generalize dropAllCancelled slots w = dropped at hdropped ⊢
  obtain ⟨slots', w'⟩ := dropped
  simp only at hdropped ⊢
  generalize buildBatch b slots' = plan
  obtain ⟨rows, submissions⟩ := plan
  simp only
  split
  · exact hdropped
  · have hdecoded := hdropped.1.trans (decodeBatch_tells (b := b) rows first second w')
    generalize decodeBatch b rows first second w' = decoded at hdecoded ⊢
    obtain ⟨status, outputs, w''⟩ := decoded
    simp only at hdecoded ⊢
    split
    · have hfailed := failNewest_tells hdropped.2 w''
      exact ⟨hdecoded.trans hfailed.1, hfailed.2⟩
    · split
      · have hfailed := failEverything_tells hdropped.2 w''
        exact ⟨hdecoded.trans hfailed.1, hfailed.2⟩
      · have hadvanced := advanceAll_tells (b := b) hdropped.2 submissions outputs w''
        exact ⟨hdecoded.trans hadvanced.1, hadvanced.2⟩

end Steps

section Preparing

/-- Clamping `max_tokens` keeps the prompt. -/
theorem InferenceRequest.clamp_promptTokens (req : InferenceRequest) (available : ℤ) :
    b.promptTokens (req.clamp available) = b.promptTokens req := by
  unfold InferenceRequest.clamp
  split <;> rfl

/-- A clamped request is still one that arrived. -/
theorem InferenceRequest.Of.clamp {req : InferenceRequest} (h : req.Of b arrivals) (available : ℤ) :
    (req.clamp available).Of b arrivals := by
  unfold InferenceRequest.clamp
  split
  · exact h
  · exact h

/-- The outcome of a turn knows its request. -/
def Preparation.Of (b : Bridge L) (arrivals : List InferenceRequest) : Preparation → Prop
  | .rejected => True
  | .deferred req => req.Of b arrivals
  | .exhausted req => req.Of b arrivals
  | .prepared ctx => ctx.Of b arrivals

/-- Preparing a request is truthful. -/
theorem prepareOne_tells {req : InferenceRequest} (h : req.Of b arrivals) (w : World) :
    w.Tells b arrivals (prepareOne b req w).2 ∧ (prepareOne b req w).1.Of b arrivals := by
  have hclamped := h.clamp (b.available req)
  unfold prepareOne
  simp only
  split
  · exact ⟨.error w h (by decide), trivial⟩
  · split
    · exact ⟨.refl w, hclamped⟩
    · have hcalled : w.Tells b arrivals (w.call (.prepare (b.promptTokens req))) := .call w _
      simp only [World.prepareSequence]
      cases hresult : (w.mapper.prepareSequence (b.promptTokens req)).2 with
      | error e => exact ⟨hcalled, hclamped⟩
      | ok prep =>
        have hdelta := KVMapper.prepareSequence_delta hresult
        have hadmitted := hcalled.trans (.admitted (w.call (.prepare (b.promptTokens req)))
          (req.clamp (b.available req)).id (b.promptTokens req) prep)
        by_cases hempty : prep.delta = []
        · simp only [if_pos hempty]
          exact ⟨((hadmitted.trans (.leaving _ _ _ _ _ _)).trans (.giveBack _ _ _ _ _)).trans
            (.error _ hclamped (by decide)), trivial⟩
        · simp only [if_neg hempty]
          have hlength : 0 < prep.delta.length := List.length_pos_iff.mpr hempty
          refine ⟨hadmitted, hclamped, ?_, ?_, hlength⟩
          · rw [req.clamp_promptTokens]
          · rw [req.clamp_promptTokens]
            show prep.delta.length + prep.cachedPos = (b.promptTokens req).length
            rw [hdelta, List.length_drop] at hlength ⊢
            omega

/-- The lists of a batch know the requests they are for. -/
structure Batch.Of (b : Bridge L) (arrivals : List InferenceRequest) (batch : Batch) : Prop where
  ctxs : ∀ ctx ∈ batch.ctxs, ctx.Of b arrivals
  deferred : ∀ req ∈ batch.deferred, req.Of b arrivals
  queued : ∀ req ∈ batch.queued, req.Of b arrivals

/-- Preparing the batch is truthful. -/
theorem prepareAll_tells {reqs : List InferenceRequest} (h : ∀ req ∈ reqs, req.Of b arrivals)
    (w : World) :
    w.Tells b arrivals (prepareAll b reqs w).2 ∧ (prepareAll b reqs w).1.Of b arrivals := by
  induction reqs generalizing w with
  | nil =>
    exact ⟨.refl w, fun c hc => absurd hc List.not_mem_nil, fun r hr => absurd hr List.not_mem_nil,
      fun r hr => absurd hr List.not_mem_nil⟩
  | cons req rest ih =>
    have hrest := ih fun r hr => h r (List.mem_cons_of_mem _ hr)
    have hpolled := isCancelled_tells (h req List.mem_cons_self) w
    unfold prepareAll
    generalize isCancelled req w = polled at hpolled ⊢
    obtain ⟨cancelled, req', w₁⟩ := polled
    simp only
    split
    · exact ⟨hpolled.tells.trans (hrest w₁).1, (hrest w₁).2⟩
    · have hone := prepareOne_tells hpolled.origin w₁
      simp only at hone
      generalize prepareOne b req' w₁ = outcome at hone ⊢
      obtain ⟨preparation, w₂⟩ := outcome
      have hsofar := hpolled.tells.trans hone.1
      obtain ⟨htells, hctxs, hdeferred, hqueued⟩ := hrest w₂
      cases preparation with
      | rejected => exact ⟨hsofar.trans htells, hctxs, hdeferred, hqueued⟩
      | deferred r =>
        exact ⟨hsofar.trans htells, hctxs, List.forall_mem_cons.mpr ⟨hone.2, hdeferred⟩, hqueued⟩
      | exhausted r =>
        have hkept := pass_tells keepQueued_tells rest
          (fun r hr => h r (List.mem_cons_of_mem _ hr)) w₂
        exact ⟨hsofar.trans hkept.1, fun c hc => absurd hc List.not_mem_nil,
          fun r hr => absurd hr List.not_mem_nil, List.forall_mem_cons.mpr ⟨hone.2, hkept.2⟩⟩
      | prepared ctx =>
        exact ⟨hsofar.trans htells, List.forall_mem_cons.mpr ⟨hone.2, hctxs⟩, hdeferred, hqueued⟩

end Preparing

/-- An arrival changes nothing for the requests before it. -/
theorem mem_getElem_append {α : Type} {l : List α} {i : ℕ} {a x : α} (h : a ∈ l[i]?) :
    a ∈ (l ++ [x])[i]? := by
  obtain ⟨hlt, _⟩ := List.getElem?_eq_some_iff.mp h
  rw [List.getElem?_append_left hlt]
  exact h

/-- A request that arrived has still arrived when another does. -/
theorem InferenceRequest.Of.arrive {req : InferenceRequest} (h : req.Of b arrivals)
    (new : InferenceRequest) :
    req.Of b (arrivals ++ [new]) := by
  obtain ⟨a, ha, hsame⟩ := h
  exact ⟨a, mem_getElem_append ha, hsame⟩

namespace Worker

variable {k k' : Worker L} {config : Config} {order : ChildOrder}

/-- The worker knows the arrivals of its requests, and each callback so far said what is true. -/
structure Truthful (b : Bridge L) (k : Worker L) : Prop where
  slots : k.slots.Of b k.arrivals
  waiting : ∀ req ∈ k.waiting, req.Of b k.arrivals
  told : ∀ id, ∀ e ∈ k.world.eventsOf id, ∃ a ∈ k.arrivals[id]?, e.Honest b a

/-- More was said, and it is true. -/
theorem Truthful.tell (h : k.Truthful b) {w : World} (htells : k.world.Tells b k.arrivals w) :
    ∀ id, ∀ e ∈ w.eventsOf id, ∃ a ∈ k.arrivals[id]?, e.Honest b a :=
  fun id e he => (htells.honest id e he).elim (h.told id e) fun htrue => htrue

/-- The exit of the loop is truthful. -/
theorem exit_truthful (h : k.Truthful b) (hwaiting : k.waiting = k.queue) :
    k.exit.Truthful b ∧ ∀ id, k.world.eventsOf id <+: k.exit.world.eventsOf id := by
  have hactive := failAll_tells
    (fun (seq : ActiveSeq L) w hseq => retire_tells hseq false w) k.slots.active
    h.slots.active k.world
  have habandon (ctx : PrefillCtx) (w : World) (_ : True) :
      w.Tells b k.arrivals (abandon ctx w) := abandon_tells ctx w
  have hprefilling := failAll_tells habandon k.slots.prefilling (fun _ _ => trivial)
    (failAll (fun seq w => retire seq false w) k.slots.active k.world)
  refine ⟨⟨⟨fun s hs => absurd hs List.not_mem_nil, fun c hc => absurd hc List.not_mem_nil⟩,
    fun r hr => ?_, h.tell (hactive.trans hprefilling)⟩, (hactive.trans hprefilling).grows⟩
  refine h.waiting r ?_
  rw [hwaiting]
  simpa [waiting, exit] using hr

/-- The arrival of a request makes nothing untrue. -/
theorem Truthful.arrive (h : k.Truthful b) (req : InferenceRequest) :
    Truthful b { k with
      queue := k.queue ++ [{ req with id := k.arrivals.length, onCancel := true }]
      arrivals := k.arrivals ++ [{ req with id := k.arrivals.length, onCancel := true }] } := by
  generalize hnew : ({ req with id := k.arrivals.length, onCancel := true } : InferenceRequest) =
    new
  have hid : new.id = k.arrivals.length := hnew ▸ rfl
  refine ⟨⟨fun seq hseq => ?_, fun ctx hctx => ?_⟩, fun r hr => ?_, fun id e he => ?_⟩
  · exact ⟨(h.slots.active seq hseq).origin.arrive new, (h.slots.active seq hseq).stats⟩
  · exact ⟨(h.slots.prefilling ctx hctx).origin.arrive new, (h.slots.prefilling ctx hctx).stats⟩
  · have hcases : r ∈ k.waiting ∨ r = new := by
      simp only [Worker.waiting, List.mem_append, List.mem_singleton] at hr ⊢
      tauto
    rcases hcases with hr | rfl
    · exact (h.waiting r hr).arrive new
    · refine ⟨r, ?_, rfl, fun hne => hne⟩
      rw [hid]
      exact List.getElem?_concat_length
  · obtain ⟨a, ha, htrue⟩ := h.told id e he
    exact ⟨a, mem_getElem_append ha, htrue⟩

/-- The preparation of a batch says what is true, and takes nothing back. -/
theorem prepare_truthful (h : k.Truthful b) {pending : List InferenceRequest}
    (hwaiting : k.waiting = k.queue ++ pending) :
    (k.prepare b pending).Truthful b ∧
      ∀ id, k.world.eventsOf id <+: (k.prepare b pending).world.eventsOf id := by
  have hprepared := prepareAll_tells
    (fun r hr => h.waiting r (hwaiting ▸ List.mem_append_right _ hr)) k.world
  refine ⟨⟨⟨h.slots.active, fun ctx hctx => ?_⟩, fun r hr => ?_, h.tell hprepared.1⟩,
    hprepared.1.grows⟩
  · rcases List.mem_append.mp hctx with hctx | hctx
    · exact h.slots.prefilling ctx hctx
    · exact hprepared.2.ctxs ctx hctx
  · rcases List.mem_append.mp hr with hr | hr
    · exact h.waiting r (hwaiting ▸ List.mem_append_left _ hr)
    · rcases List.mem_append.mp hr with hr | hr
      · exact hprepared.2.queued r hr
      · exact hprepared.2.deferred r hr

/-- Every step says what is true, and takes nothing back. -/
theorem step_truthful {action : Action} (h : k.Truthful b) (hstep : k.step b action = some k') :
    k'.Truthful b ∧ ∀ id, k.world.eventsOf id <+: k'.world.eventsOf id := by
  have hkept {w : List InferenceRequest} (hwaiting : ∀ r ∈ w, r ∈ k.waiting) :
      ∀ r ∈ w, r.Of b k.arrivals :=
    fun r hr => h.waiting r (hwaiting r hr)
  cases step_moves hstep with
  | enqueue req => exact ⟨h.arrive req, fun _ => List.prefix_refl _⟩
  | stop => exact ⟨⟨h.slots, h.waiting, h.told⟩, fun _ => List.prefix_refl _⟩
  | enter hphase =>
    refine ⟨⟨h.slots, hkept fun r hr => ?_, h.told⟩, fun _ => List.prefix_refl _⟩
    rw [waiting_of_head hphase]
    simpa [waiting] using hr
  | leave hphase => exact exit_truthful h (waiting_of_head hphase)
  | leaveEmpty hphase => exact exit_truthful h (waiting_of_running hphase)
  | pop hphase =>
    refine ⟨⟨h.slots, hkept fun r hr => ?_, h.told⟩, fun _ => List.prefix_refl _⟩
    rw [waiting_of_running hphase]
    rcases List.mem_append.mp hr with hr | hr
    · exact List.mem_of_mem_drop hr
    · exact List.mem_of_mem_take hr
  | prepare hphase => exact prepare_truthful h (waiting_of_admitted hphase)
  | @requeue retry hphase =>
    refine ⟨⟨h.slots, hkept fun r hr => ?_, h.told⟩, fun _ => List.prefix_refl _⟩
    rw [waiting_of_prepared hphase]
    have hmem : r ∈ retry ++ k.queue := by simpa [waiting, deferToFront] using hr
    exact List.mem_append.mpr (List.mem_append.mp hmem).symm
  | fuse first second hphase =>
    have hfused := fusedStep_tells h.slots first second k.world
    refine ⟨⟨hfused.2, hkept fun r hr => ?_, h.tell hfused.1⟩, hfused.1.grows⟩
    rw [waiting_of_requeued hphase]
    simpa [waiting, fuse] using hr

/-- Nothing was said before the first request. -/
theorem init_truthful (b : Bridge L) (config : Config) (order : ChildOrder) :
    (Worker.init config order : Worker L).Truthful b :=
  ⟨⟨fun _ hs => absurd hs List.not_mem_nil, fun _ hc => absurd hc List.not_mem_nil⟩,
    fun _ hr => absurd hr List.not_mem_nil, fun _ _ he => absurd he List.not_mem_nil⟩

/-- In every run the callbacks say what is true. -/
theorem run_truthful {actions : List Action}
    (hrun : (Worker.init config order : Worker L).Run b actions k) :
    k.Truthful b :=
  run_invariant (fun _ _ _ h hstep => (step_truthful h hstep).1) (init_truthful b config order) hrun

end Worker

/-- In every run what was said stays said. -/
theorem Worker.run_grows {k k' : Worker L} {actions : List Action} (h : k.Truthful b)
    (hrun : k.Run b actions k') (id : ℕ) :
    k.world.eventsOf id <+: k'.world.eventsOf id := by
  refine (run_invariant (P := fun k₁ : Worker L => k₁.Truthful b ∧
    k.world.eventsOf id <+: k₁.world.eventsOf id)
    (fun k₁ action k₂ hk₁ hstep => ?_) ⟨h, List.prefix_refl _⟩ hrun).2
  obtain ⟨htruthful, hgrows⟩ := step_truthful hk₁.1 hstep
  exact ⟨htruthful, hk₁.2.trans (hgrows id)⟩

/-- In every run of the worker each callback says what is true of the request that arrived: a piece
is the text of its token, only the last one comes without a token, and it alone comes with
statistics, in which what was reused of the prompt and what was decoded of it add up to the prompt;
errors are the five that need no failed allocation; and `cancelled` answers true, and `on_cancel` is
invoked, only for a request whose predicate turns true. -/
theorem callbacks_honest (b : Bridge L) (config : Config) (order : ChildOrder)
    (actions : List Action) (k : Worker L)
    (hrun : (Worker.init config order : Worker L).Run b actions k) (id : ℕ) :
    ∀ e ∈ k.world.eventsOf id, ∃ req ∈ k.arrivals[id]?, e.Honest b req :=
  (Worker.run_truthful hrun).told id

/-- A request that reuses the prompt of an earlier one. -/
theorem callbacks_honest_reused : ∃ k : Worker Unit,
    (Worker.init ⟨4, 64, true⟩ .stored).Run
      (Bridge.counting (fun text => if text = "" then [5, 6] else [5, 6, 7]) 1)
      (.enqueue {} :: Worker.iteration 0 0 ++ .enqueue { prompt := "a" } ::
        Worker.iteration 0 0) k ∧
      .onToken none [] true (some ⟨1, 2, 3, 0⟩) ∈ k.world.eventsOf 1 ∧
      ∀ e ∈ k.world.eventsOf 1, ∃ req ∈ k.arrivals[1]?,
        e.Honest (Bridge.counting (fun text => if text = "" then [5, 6] else [5, 6, 7]) 1) req := by
  have hrun :
      (run (Worker.step (Bridge.counting (fun text => if text = "" then [5, 6] else [5, 6, 7]) 1))
      (Worker.init ⟨4, 64, true⟩ .stored)
      (.enqueue {} :: Worker.iteration 0 0 ++ .enqueue { prompt := "a" } ::
        Worker.iteration 0 0)).any (fun k =>
        .onToken none [] true (some ⟨1, 2, 3, 0⟩) ∈ k.world.eventsOf 1) = true := by decide +kernel
  obtain ⟨k, hk, hcond⟩ := (Option.any_eq_true _ _).mp hrun
  exact ⟨k, hk, of_decide_eq_true hcond, callbacks_honest _ _ _ _ k hk 1⟩

end RadixForge
