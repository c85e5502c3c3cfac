import RadixForge.Worker.Serving
import RadixForge.Worker.Following

/-!
# Every visit of the worker settles one request

Each visit of the fused step adds callbacks to its own request only, and keeps that request or lets
it depart. A sampled token continues what the request generates because its logits are those of
the decoded history.
-/

namespace RadixForge

open Library

variable {L : Type} {b : Bridge L} {terms : Terms} {w w' : World} {es : List Event}

section Visits

/-- A prefix of what is generated is delivered at any time. -/
theorem ActiveSeq.Serves.given {seq : ActiveSeq L} (h : seq.Serves b terms es) :
    delivered es <+: terms.generated seq.req.id :=
  ⟨_, h.generates⟩

/-- A prefill has been given no more than the reference generation. -/
theorem PrefillCtx.Serves.given {ctx : PrefillCtx} (h : ctx.Serves b terms es) :
    delivered es <+: terms.generated ctx.req.id := by
  rw [h.nothing]
  exact List.nil_prefix

/-- The poll of a sequence settles it: checked and kept, or let go. -/
theorem pollActive_settles {decodes : Prop} (seq : ActiveSeq L) (w : World)
    (htolerates : decodes → seq.req.cancelAfter ≠ some 0 → seq.polled.Tolerates b terms)
    (h : seq.Serves b terms (w.eventsOf seq.req.id)) :
    w.Settles (pollActive seq w).2 terms seq.req.id
      ((pollActive seq w).1.map fun s => ⟨s.req.id, s.Checked b terms decodes⟩) := by
  rcases h.polls w with ⟨hopen, w', hpoll, hadds⟩ | ⟨hcancelled, w', hpoll, hadds⟩
  · have hpolled : pollActive seq w = (some seq.polled, w') := by
      simp only [pollActive, hpoll, Bool.or_false]
      rfl
    have hserves : seq.polled.Serves b terms (w.eventsOf seq.req.id ++ [.polled false]) := by
      refine ⟨h.toOpen.poll, h.going, h.unnoticed, h.budget, ?_⟩
      rw [delivered_append]
      exact (List.append_nil (delivered _)).symm ▸ h.generates
    have hchecked : seq.polled.Checked b terms decodes
        (w.eventsOf seq.req.id ++ [.polled false]) := by
      unfold ActiveSeq.Checked
      rw [if_neg (by rw [hserves.going]; exact Bool.false_ne_true)]
      exact ⟨hserves, fun hdecodes => htolerates hdecodes hopen⟩
    rw [hpolled]
    exact .keep hadds rfl hchecked
  · have hpolled : pollActive seq w =
        (some { seq with req := { seq.req with onCancel := false }, done := true }, w') := by
      simp only [pollActive, hpoll, Bool.or_true]
    rw [hpolled]
    exact .keep hadds rfl (h.leave hcancelled h.given)

/-- Retiring a sequence tells its request nothing. -/
theorem retire_adds_nothing (seq : ActiveSeq L) (w : World) (i : ℕ) :
    w.Adds (retire seq false w) i [] :=
  (World.adds_leaving _ _ _ _ _ _ i).quiet (World.adds_giveBack _ _ _ _ _ i)

/-- Abandoning a prefill tells its request nothing. -/
theorem abandon_adds_nothing (ctx : PrefillCtx) (w : World) (i : ℕ) : w.Adds (abandon ctx w) i [] :=
  (World.adds_leaving _ _ _ _ _ _ i).quiet (World.adds_giveBack _ _ _ _ _ i)

/-- Dropping a cancelled sequence settles it; the others go on to be sampled. -/
theorem dropCancelled_settles {decodes : Prop} (seq : ActiveSeq L) (w : World)
    (h : seq.Checked b terms decodes (w.eventsOf seq.req.id)) :
    w.Settles (dropCancelled seq w).2 terms seq.req.id
      ((dropCancelled seq w).1.map (ActiveSeq.sampling b terms decodes)) := by
  unfold dropCancelled
  unfold ActiveSeq.Checked at h
  split
  · rename_i hdone
    rw [if_pos hdone] at h
    exact .leave (retire_adds_nothing seq w _) ((List.append_nil _).symm ▸ h)
  · rename_i hdone
    rw [if_neg hdone] at h
    exact .keep (World.adds_nothing (fun _ => rfl) _) rfl ((List.append_nil _).symm ▸ h)

/-- Dropping an abandoned prefill settles it; the others keep their record. -/
theorem dropAbandoned_settles (ctx : PrefillCtx) (w : World)
    (h : ctx.Serves b terms (w.eventsOf ctx.req.id)) :
    w.Settles (dropAbandoned ctx w).2 terms ctx.req.id
      ((dropAbandoned ctx w).1.map (PrefillCtx.record b terms)) := by
  unfold dropAbandoned
  rcases h.polls w with ⟨_, w', hpoll, hadds⟩ | ⟨hcancelled, w', hpoll, hadds⟩
  · simp only [hpoll, Bool.false_eq_true, if_false]
    refine .keep hadds rfl ⟨h.toOpen.poll, ?_, h.generates⟩
    rw [delivered_append, h.nothing]
    rfl
  · simp only [hpoll, if_true]
    exact .leave (hadds.quiet (abandon_adds_nothing _ _ _)) (h.leave hcancelled h.given)

/-- A failure: the client is told, unless the request is found cancelled. -/
theorem failActive_settles (message : String) (status : ℕ) (hfailed : terms.allowed .failed .quiet)
    (seq : ActiveSeq L) (w : World) (h : seq.Serves b terms (w.eventsOf seq.req.id)) :
    w.Settles (failActive message status seq w) terms seq.req.id none := by
  have hleaving := World.adds_leaving w seq.req.id seq.seqId seq.leafNode
    seq.cachedTokens false seq.req.id
  unfold failActive
  rcases h.polls (w.note (.leaving seq.req.id seq.seqId seq.leafNode seq.cachedTokens false)) with
    ⟨_, w', hpoll, hadds⟩ | ⟨hcancelled, w', hpoll, hadds⟩
  · simp only [hpoll, Bool.false_eq_true, if_false]
    refine .leave (((hleaving.after hadds).trans (World.adds_callback _ _ _)).quiet
      (World.adds_giveBack _ _ _ _ _ _)) ?_
    refine ⟨_, _, hfailed, List.append_assoc _ _ _ ▸ h.toOpen.poll.close (.failed _ _ ?_)⟩
    rw [delivered_append]
    exact (List.append_nil (delivered _)).symm ▸ h.given
  · simp only [hpoll, if_true]
    exact .leave ((hleaving.after hadds).quiet (World.adds_giveBack _ _ _ _ _ _))
      (h.leave hcancelled h.given)

/-- Failing a prefill settles it: it leaves, told of its failure or having cancelled. -/
theorem failPrefill_settles (message : String) (status : ℕ) (hfailed : terms.allowed .failed .quiet)
    (ctx : PrefillCtx) (w : World) (h : ctx.Serves b terms (w.eventsOf ctx.req.id)) :
    w.Settles (failPrefill message status ctx w) terms ctx.req.id none := by
  have hleaving := World.adds_leaving w ctx.req.id ctx.prep.seqId ctx.prep.leafNode
    ctx.tokens false ctx.req.id
  unfold failPrefill
  rcases h.polls (w.note (.leaving ctx.req.id ctx.prep.seqId ctx.prep.leafNode ctx.tokens false))
    with
    ⟨_, w', hpoll, hadds⟩ | ⟨hcancelled, w', hpoll, hadds⟩
  · simp only [hpoll, Bool.false_eq_true, if_false]
    refine .leave (((hleaving.after hadds).trans (World.adds_callback _ _ _)).quiet
      (World.adds_giveBack _ _ _ _ _ _)) ?_
    refine ⟨_, _, hfailed, List.append_assoc _ _ _ ▸ h.toOpen.poll.close (.failed _ _ ?_)⟩
    rw [delivered_append]
    exact (List.append_nil (delivered _)).symm ▸ h.given
  · simp only [hpoll, if_true]
    exact .leave ((hleaving.after hadds).quiet (World.adds_giveBack _ _ _ _ _ _))
      (h.leave hcancelled h.given)

/-- The next token ends what is generated, or is the next part of it. -/
theorem ActiveSeq.Serves.next {seq : ActiveSeq L} (h : seq.Serves b terms es) {token : Token}
    {sampler : Sampler L} (hnext : seq.sampler.next b seq.decoded.cachedTokens = (token, sampler)) :
    if b.isEog token then delivered es = terms.generated seq.req.id
    else delivered es ++ token :: b.generateLoop (seq.remaining - 1).toNat sampler
      (seq.decoded.cachedTokens ++ [token]) =
      terms.generated seq.req.id := by
  have hbudget := h.budget
  have hgenerates := h.generates
  rw [show seq.remaining.toNat = (seq.remaining - 1).toNat + 1 by omega, Bridge.generateLoop_succ,
    hnext] at hgenerates
  split
  · rename_i heog
    simpa only [heog, if_true, List.append_nil] using hgenerates
  · rename_i heog
    simpa only [heog, Bool.false_eq_true, if_false] using hgenerates

/-- Advancing a sequence whose row holds its logits settles it: one more token, or closed. -/
theorem advanceSeq_settles (outputs : List (Option L)) (row : ℕ) (seq : ActiveSeq L) (w : World)
    (hrow : (outputs[row]?).join = some (b.logits (LlamaMemory.tape seq.decoded.cachedTokens)))
    (h : seq.Serves b terms (w.eventsOf seq.req.id)) (htolerates : seq.Tolerates b terms) :
    w.Settles (advanceSeq b outputs (row, seq) w).2 terms seq.req.id
      ((advanceSeq b outputs (row, seq) w).1.map fun s => ⟨s.req.id, s.Advanced b terms⟩) := by
  have hcounted := World.adds_call w (.setCellCount seq.seqId (seq.pos + 1)) seq.req.id
  simp only [advanceSeq, Sampler.sampleRow_eq b seq.sampler hrow]
  generalize hnext : seq.sampler.next b seq.decoded.cachedTokens = next
  obtain ⟨token, sampler⟩ := next
  have hgenerates := h.next hnext
  have hbudget := h.budget
  split
  · rename_i heog
    rw [if_pos heog] at hgenerates
    refine .keep hcounted rfl (.ended rfl rfl ?_ ?_ htolerates.late)
    · exact (List.append_nil (w.eventsOf seq.req.id)).symm ▸ h.toOpen
    · exact (List.append_nil (w.eventsOf seq.req.id)).symm ▸ hgenerates
  · rename_i heog
    rw [if_neg heog] at hgenerates
    have hspends (hlast : seq.remaining - 1 = 0) :
        seq.Spends b := ⟨by rw [hnext]; exact Bool.eq_false_iff.mpr heog, by omega⟩
    rcases h.polls (w.call (.setCellCount seq.seqId (seq.pos + 1))) with
      ⟨hopen, w', hpoll, hadds⟩ | ⟨hcancelled, w', hpoll, hadds⟩
    · simp only [hpoll, Bool.false_eq_true, if_false]
      have hpolled := h.toOpen.poll
      by_cases hlast : seq.remaining - 1 = 0
      · -- the last piece; the sequence is polled once more before it is retired
        rw [if_pos (decide_eq_true hlast)]
        refine .keep ((hcounted.after hadds).trans (World.adds_callback _ _ _)) rfl
          (.spent rfl h.unnoticed h.installed ?_ (htolerates.spent (hspends hlast)) fun hzero => ?_)
        · rw [hlast, Int.toNat_zero] at hgenerates
          rw [decide_eq_true hlast, ← List.append_assoc]
          refine hpolled.close (.completed _ _ _ ?_)
          rw [delivered_append]
          exact (List.append_nil (delivered _)).symm ▸ hgenerates
        · exact htolerates.twice (InferenceRequest.polled_cancelAfter hopen hzero) (hspends hlast)
      · rw [if_neg (by rw [decide_eq_false hlast]; exact Bool.false_ne_true)]
        have hpiece := hpolled.add
          (e := .onToken (some token) (b.tokenToPiece token) false none) rfl
        have hgiven : delivered (w.eventsOf seq.req.id ++ [.polled false] ++
            [.onToken (some token) (b.tokenToPiece token) false none]) =
              delivered (w.eventsOf seq.req.id) ++ [token] := by
          simp [Event.token?]
        have hdelivered := (hcounted.after hadds).trans (World.adds_callback w' seq.req.polled.id
          (.onToken (some token) (b.tokenToPiece token) false none))
        simp only [decide_eq_false hlast, Bool.false_eq_true, if_false]
        rcases hpiece.polls (w'.callback seq.req.polled.id
          (.onToken (some token) (b.tokenToPiece token) false none)) with
          ⟨_, w'', hpoll', hadds'⟩ | ⟨hcancelled, w'', hpoll', hadds'⟩
        · simp only [hpoll', Bool.false_eq_true, if_false]
          refine .keep (hdelivered.trans hadds') rfl (.running ⟨?_, h.going, h.unnoticed, ?_, ?_⟩)
          · rw [← List.append_assoc, ← List.append_assoc]
            exact hpiece.poll
          · show 1 ≤ seq.remaining - 1
            omega
          · have hsilent : delivered [Event.polled false] = [] := rfl
            rw [← List.append_assoc, ← List.append_assoc, delivered_append, hgiven,
              hsilent, List.append_nil, List.append_assoc]
            exact hgenerates
        · -- the request was cancelled right after its piece
          simp only [hpoll', if_true]
          refine .keep (hdelivered.trans hadds') rfl (.dropped rfl h.unnoticed ?_)
          rw [← List.append_assoc, ← List.append_assoc]
          refine hpiece.linger hcancelled ?_
            (htolerates.late (Or.inr (InferenceRequest.polled_cancelAfter hopen hcancelled)))
          rw [hgiven]
          exact ⟨_, by rw [List.append_assoc, List.singleton_append]; exact hgenerates⟩
    · -- the request was cancelled right after its token was sampled
      have hlingers := h.toOpen.linger hcancelled h.given (htolerates.late (Or.inl hcancelled))
      simp only [hpoll, if_true]
      split
      · exact .keep (hcounted.after hadds) rfl (.dropped rfl h.unnoticed hlingers)
      · obtain ⟨w'', hpoll', hadds'⟩ := hlingers.polls w'
        simp only [hpoll', if_true]
        refine .keep ((hcounted.after hadds).trans hadds') rfl (.dropped rfl h.unnoticed ?_)
        rw [← List.append_assoc]
        exact hlingers.poll

/-- A sequence whose cancellation was noticed before its retirement is polled twice more. -/
theorem retire_lingers (seq : ActiveSeq L) (w : World)
    (h : seq.req.Lingers terms (w.eventsOf seq.req.id)) :
    w.Settles (retire seq true w) terms seq.req.id none := by
  have hleaving := World.adds_leaving w seq.req.id seq.seqId seq.leafNode
    seq.cachedTokens true seq.req.id
  obtain ⟨w₁, hpoll, hadds⟩ :=
    h.polls (w.note (.leaving seq.req.id seq.seqId seq.leafNode seq.cachedTokens true))
  obtain ⟨w₂, hpoll', hadds'⟩ := h.polls w₁
  simp only [retire, if_true, hpoll, hpoll']
  refine .leave (((hleaving.after hadds).trans hadds').quiet (World.adds_giveBack _ _ _ _ _ _)) ?_
  rw [← List.append_assoc]
  exact h.poll.leave

/-- A sequence that received all it generates is told so, unless it is found cancelled. -/
theorem retire_ended (hfair : terms.Fair) (seq : ActiveSeq L) (w : World)
    (h : seq.req.Open terms (w.eventsOf seq.req.id))
    (hall : delivered (w.eventsOf seq.req.id) = terms.generated seq.req.id)
    (hlate : seq.req.cancelAfter = some 0 → terms.allowed .cancelled .polled) :
    w.Settles (retire seq true w) terms seq.req.id none := by
  have hleaving := World.adds_leaving w seq.req.id seq.seqId seq.leafNode
    seq.cachedTokens true seq.req.id
  rcases h.polls (w.note (.leaving seq.req.id seq.seqId seq.leafNode seq.cachedTokens true)) with
    ⟨hopen, w₁, hpoll, hadds⟩ | ⟨hcancelled, w₁, hpoll, hadds⟩
  · have hpolled := h.poll
    have hextended := (hleaving.after hadds).quiet
      (World.adds_call w₁ (.extend seq.seqId seq.leafNode seq.cachedTokens) seq.req.id)
    have hgiven : delivered (w.eventsOf seq.req.id ++ [.polled false]) =
        terms.generated seq.req.id := by
      rw [delivered_append]
      exact (List.append_nil (delivered _)).trans hall
    rcases hpolled.polls (w₁.call (.extend seq.seqId seq.leafNode seq.cachedTokens)) with
      ⟨_, w₂, hpoll', hadds'⟩ | ⟨hcancelled, w₂, hpoll', hadds'⟩
    · simp only [retire, if_true, hpoll, hpoll', World.extendSequence, Bool.false_eq_true, if_false]
      refine .leave (((hextended.trans hadds').trans (World.adds_callback _ _ _)).quiet
        (World.adds_giveBack _ _ _ _ _ _)) ?_
      refine ⟨_, _, hfair.completed, ?_⟩
      rw [← List.append_assoc, ← List.append_assoc]
      refine hpolled.poll.close (.completed _ _ _ ?_)
      rw [delivered_append, hgiven]
      exact (List.append_nil _).trans (List.append_nil _)
    · simp only [retire, if_true, hpoll, hpoll', World.extendSequence, Bool.false_eq_true, if_false]
      refine .leave ((hextended.trans hadds').quiet (World.adds_giveBack _ _ _ _ _ _)) ?_
      rw [← List.append_assoc]
      exact hpolled.leave hcancelled (hgiven ▸ List.prefix_refl _)
  · have hlingers := h.linger hcancelled (hall ▸ List.prefix_refl _) (hlate hcancelled)
    obtain ⟨w₂, hpoll', hadds'⟩ := hlingers.polls w₁
    simp only [retire, if_true, hpoll, hpoll']
    refine .leave (((hleaving.after hadds).trans hadds').quiet (World.adds_giveBack _ _ _ _ _ _)) ?_
    rw [← List.append_assoc]
    exact hlingers.leave

/-- Retiring a finished sequence settles it; the others keep their record. -/
theorem retireDone_settles (hfair : terms.Fair) (seq : ActiveSeq L) (w : World)
    (h : seq.Advanced b terms (w.eventsOf seq.req.id)) :
    w.Settles (retireDone seq w).2 terms seq.req.id
      ((retireDone seq w).1.map (ActiveSeq.record b terms)) := by
  have hnothing (req : InferenceRequest) (w : World) :=
    retire_adds_nothing { seq with req := req } w seq.req.id
  unfold retireDone
  cases h with
  | running hserves =>
    rw [if_neg (by rw [hserves.going]; exact Bool.false_ne_true)]
    exact .keep (World.adds_nothing (fun _ => rfl) _) rfl ((List.append_nil _).symm ▸ hserves)
  | ended hdone hnotify hopen hall hlate =>
    rw [if_pos hdone, hnotify]
    have hsettled (req : InferenceRequest) {w' : World} {es : List Event}
        (hid : req.id = seq.req.id)
        (hadds : w.Adds w' seq.req.id es)
          (hretired : w'.Settles (retire { seq with req := req } true w') terms req.id none) :
        w.Settles (retire { seq with req := req } true w') terms seq.req.id none := by
      obtain ⟨es', hadds', hleft⟩ := hretired
      rw [hid, hadds, if_pos rfl, List.append_assoc] at hleft
      exact .leave (hadds.trans (hid ▸ hadds')) hleft
    rcases hopen.polls w with ⟨hnot, w', hpoll, hadds⟩ | ⟨hcancelled, w', hpoll, hadds⟩
    · simp only [hpoll]
      refine hsettled seq.req.polled rfl hadds (retire_ended hfair _ _ ?_ ?_ fun hzero => ?_)
      · show seq.req.polled.Open terms (w'.eventsOf seq.req.id)
        rw [hadds, if_pos rfl]
        exact hopen.poll
      · show delivered (w'.eventsOf seq.req.id) = terms.generated seq.req.id
        rw [hadds, if_pos rfl, delivered_append]
        exact (List.append_nil (delivered _)).trans hall
      · exact hlate (Or.inr (InferenceRequest.polled_cancelAfter hnot hzero))
    · simp only [hpoll]
      refine hsettled { seq.req with onCancel := false } rfl hadds (retire_lingers _ _ ?_)
      show InferenceRequest.Lingers terms { seq.req with onCancel := false }
        (w'.eventsOf seq.req.id)
      rw [hadds, if_pos rfl]
      exact hopen.linger hcancelled (hall ▸ List.prefix_refl _) (hlate (Or.inl hcancelled))
  | spent hdone hnotify hinstalled hdeparted hpolled htwice =>
    rw [if_pos hdone, hnotify]
    have hpolls := w.isCancelled_polls seq.req
    generalize isCancelled seq.req w = polled at hpolls ⊢
    cases hpolls with
    | running w' _ hadds =>
      exact .leave (hadds.quiet (hnothing _ _))
        ⟨_, _, hpolled, hdeparted.poll Closing.noConfusion Tail.noConfusion false⟩
    | first w' hcancelled _ hadds =>
      refine .leave (hadds.quiet (hnothing _ _)) ⟨_, _, htwice hcancelled, ?_⟩
      generalize w.eventsOf seq.req.id = es at hdeparted ⊢
      obtain _ | ⟨before, e, after, hopened, hcloses, htrails⟩ := hdeparted
      cases htrails
      rw [List.append_assoc]
      exact .closed before e _ hopened hcloses .cancelled
    | again w' _ hagain => exact absurd (hinstalled.symm.trans hagain) Bool.noConfusion
  | dropped hdone hnotify hlingers =>
    rw [if_pos hdone, hnotify]
    obtain ⟨w', hpoll, hadds⟩ := hlingers.polls w
    simp only [hpoll]
    exact .leave (hadds.quiet (hnothing _ _)) hlingers.leave

/-- Counting a chunk as decoded settles its prefill. -/
theorem finishChunk_settles (p : PrefillCtx × Option PromptSubmission) (w : World)
    (h : p.1.Serves b terms (w.eventsOf p.1.req.id)) :
    w.Settles (finishChunk p w).2 terms p.1.req.id
      ((finishChunk p w).1.map fun q => q.1.record b terms) := by
  obtain ⟨ctx, submission⟩ := p
  have hsame {w' : World} (hadds : w.Adds w' ctx.req.id []) (start : ℕ) :
      w.Settles w' terms ctx.req.id
        (some (PrefillCtx.record b terms { ctx with deltaStart := start })) :=
    .keep hadds rfl ((List.append_nil (w.eventsOf ctx.req.id)).symm ▸
      ⟨h.toOpen, h.nothing, h.generates⟩)
  cases submission with
  | none => exact hsame (World.adds_nothing (fun _ => rfl) _) ctx.deltaStart
  | some submission =>
    simp only [finishChunk]
    split
    · exact hsame (World.adds_call _ _ _) _
    · exact hsame (World.adds_nothing (fun _ => rfl) _) _

/-- The record of what becomes of a prefill. -/
def progressRecord (b : Bridge L) (terms : Terms) : PrefillCtx ⊕ ActiveSeq L → Record :=
  Sum.elim (PrefillCtx.record b terms) (ActiveSeq.record b terms)

/-- The first token of a prefill whose row holds its logits settles it. -/
theorem beginGeneration_settles (hfair : terms.Fair) (outputs : List (Option L)) (ctx : PrefillCtx)
    (row : ℕ) (w : World)
    (hrow : (outputs[row]?).join = some (b.logits (LlamaMemory.tape ctx.tokens)))
    (h : ctx.Serves b terms (w.eventsOf ctx.req.id)) :
    w.Settles (beginGeneration b outputs ctx row w).2 terms ctx.req.id
      ((beginGeneration b outputs ctx row w).1.map (ActiveSeq.record b terms)) := by
  unfold beginGeneration
  rcases h.polls w with ⟨_, w', hpoll, hadds⟩ | ⟨hcancelled, w', hpoll, hadds⟩
  · have hpolled := h.toOpen.poll
    have hnothing : delivered (w.eventsOf ctx.req.id ++ [.polled false]) = [] := by
      rw [delivered_append, h.nothing]
      rfl
    have hgenerates := h.generates
    obtain ⟨n, hn⟩ : ∃ n, (max 1 ctx.req.maxTokens).toNat = n + 1 :=
      ⟨(max 1 ctx.req.maxTokens).toNat - 1, by omega⟩
    rw [hn, Bridge.generateLoop_succ] at hgenerates
    simp only [hpoll, Sampler.sampleRow_eq b _ hrow, Bool.false_eq_true, if_false]
    have hparameters : ctx.req.polled.temperature = ctx.req.temperature ∧
        ctx.req.polled.topP = ctx.req.topP := ⟨rfl, rfl⟩
    simp only [hparameters.1, hparameters.2]
    generalize Sampler.next b { temperature := ctx.req.temperature, topP := ctx.req.topP }
      ctx.tokens = next at hgenerates ⊢
    obtain ⟨token, sampler⟩ := next
    split
    · rename_i heog
      simp only at heog
      simp only [heog, if_true] at hgenerates
      refine .leave ((hadds.trans (World.adds_callback _ _ _)).quiet (abandon_adds_nothing _ _ _))
        ⟨_, _, hfair.completed, ?_⟩
      rw [← List.append_assoc]
      exact hpolled.close (.completed _ _ _ (by rw [hnothing]; exact hgenerates))
    · rename_i heog
      simp only at heog
      simp only [heog, Bool.false_eq_true, if_false] at hgenerates
      by_cases hlast : ctx.req.maxTokens ≤ 1
      · have hlast' : ctx.req.polled.maxTokens ≤ 1 := hlast
        obtain rfl : n = 0 := by omega
        simp only [hlast', decide_true, if_true]
        refine .leave ((hadds.trans (World.adds_callback _ _ _)).quiet (abandon_adds_nothing _ _ _))
          ⟨_, _, hfair.completed, ?_⟩
        rw [← List.append_assoc]
        exact hpolled.close (.completed _ _ _ (by rw [hnothing]; exact hgenerates))
      · have hlast' : ¬ ctx.req.polled.maxTokens ≤ 1 := hlast
        simp only [hlast', decide_false, Bool.false_eq_true, if_false]
        refine .keep (hadds.trans (World.adds_callback _ _ _)) rfl ⟨?_, rfl, rfl, ?_, ?_⟩
        · rw [← List.append_assoc]
          exact hpolled.add rfl
        · show 1 ≤ ctx.req.maxTokens - 1
          omega
        · have hbudget : (ctx.req.maxTokens - 1).toNat = n := by omega
          rw [← List.append_assoc, delivered_append, hnothing]
          show [token] ++ b.generateLoop (ctx.req.maxTokens - 1).toNat sampler
            (ctx.tokens ++ [token]) = _
          rw [hbudget]
          exact hgenerates
  · simp only [hpoll, if_true]
    exact .leave (hadds.quiet (abandon_adds_nothing _ _ _)) (h.leave hcancelled h.given)

/-- The end of a step settles a prefill, finished or not. -/
theorem finishPrefill_settles (hfair : terms.Fair) (outputs : List (Option L))
    (q : PrefillCtx × Option ℕ) (w : World) {U : PrefillCtx → Prop}
    (hdone : ChunkDone U b outputs q)
    (h : q.1.Serves b terms (w.eventsOf q.1.req.id)) :
    w.Settles (finishPrefill b outputs q w).2 terms q.1.req.id
      ((finishPrefill b outputs q w).1.map (progressRecord b terms)) := by
  obtain ⟨ctx, row⟩ := q
  cases row with
  | none =>
    exact .keep (World.adds_nothing (fun _ => rfl) _) rfl
      ((List.append_nil (w.eventsOf ctx.req.id)).symm ▸ h)
  | some row =>
    have hbegun := beginGeneration_settles hfair outputs ctx row w (hdone.finished row rfl).2 h
    simp only [finishPrefill]
    generalize beginGeneration b outputs ctx row w = begun at hbegun ⊢
    obtain ⟨seq, w'⟩ := begun
    cases seq <;> exact hbegun

end Visits

end RadixForge
