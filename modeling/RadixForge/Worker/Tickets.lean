import RadixForge.Worker.Tracking

/-!
# Every step of the worker follows the protocol

The tickets of the worker are its prefills and its active sequences. Each loop of `fused_step` is
a pass whose visits keep or give back the ticket of their item; a decoded batch extends the history
of every client by its rows, so that the logits of a row are those of its client's history.
-/

namespace RadixForge

open Library

variable {L : Type}

/-- The ticket of a prefill: what is decoded is a part of the prompt. -/
def PrefillCtx.ticket (ctx : PrefillCtx) : Ticket where
  id := ctx.req.id
  client :=
    { prompt := ctx.tokens
      seqId := ctx.prep.seqId
      leaf := ctx.prep.leafNode
      owner := ctx.prep.leafNode
      history := ctx.tokens.take (ctx.prep.cachedPos + ctx.deltaStart)
      ready := decide (ctx.deltaStart = ctx.prep.delta.length) }

/-- The ticket of an active sequence: its prompt is the beginning of what is decoded. -/
def ActiveSeq.ticket (seq : ActiveSeq L) : Ticket where
  id := seq.req.id
  client :=
    { prompt := seq.cachedTokens.take seq.stats.promptTokens
      seqId := seq.seqId
      leaf := seq.leafNode
      owner := seq.leafNode
      history := seq.cachedTokens
      ready := true }

/-- The positions of a prefill fit its prompt. -/
structure PrefillCtx.Fits (ctx : PrefillCtx) : Prop where
  cached : ctx.prep.cachedPos < ctx.tokens.length
  delta : ctx.prep.delta = ctx.tokens.drop ctx.prep.cachedPos
  start : ctx.deltaStart ≤ ctx.prep.delta.length
  stats : ctx.stats.promptTokens = ctx.tokens.length

/-- The positions of an active sequence fit what is decoded. -/
structure ActiveSeq.Fits (seq : ActiveSeq L) : Prop where
  pos : seq.done = false → seq.pos = seq.cachedTokens.length
  prompt : seq.stats.promptTokens ≤ seq.cachedTokens.length

/-- A prefill with a part of its prompt still to decode. -/
def PrefillCtx.Unfinished (ctx : PrefillCtx) : Prop :=
  ctx.Fits ∧ ctx.deltaStart < ctx.prep.delta.length

/-- What may be known of every prefill between steps: its positions fit, and neither a poll of its
request nor a decoded part of the rest of its prompt takes it away. -/
structure PrefillCtx.Lasting (U : PrefillCtx → Prop) : Prop where
  fits : ∀ ctx, U ctx → ctx.Fits
  polled : ∀ (ctx : PrefillCtx) req, U ctx → U { ctx with req := req }
  decoded : ∀ (ctx : PrefillCtx) n, ctx.Fits → ctx.deltaStart + n < ctx.prep.delta.length →
    U { ctx with deltaStart := ctx.deltaStart + n }

/-- An active sequence that goes on. -/
def ActiveSeq.Running (seq : ActiveSeq L) : Prop := seq.Fits ∧ seq.done = false

/-- An active sequence that was not decoded since it was last accounted for, done or not. -/
def ActiveSeq.Aligned (seq : ActiveSeq L) : Prop :=
  seq.Fits ∧ seq.pos = seq.cachedTokens.length

/-- What holds of the two lists once the cancelled requests are dropped. -/
structure Slots.FitFor (U : PrefillCtx → Prop) (slots : Slots L) : Prop where
  active : ∀ seq ∈ slots.active, seq.Running
  prefilling : ∀ ctx ∈ slots.prefilling, U ctx

/-- What holds of the two lists between steps. -/
abbrev Slots.Fit (slots : Slots L) : Prop := slots.FitFor PrefillCtx.Unfinished

/-- What a step asks of the two lists: a sequence may be done already. -/
structure Slots.Sits (U : PrefillCtx → Prop) (slots : Slots L) : Prop where
  active : ∀ seq ∈ slots.active, seq.Aligned
  prefilling : ∀ ctx ∈ slots.prefilling, U ctx

/-- The tickets of the worker. -/
def Slots.tickets (slots : Slots L) : List Ticket :=
  slots.active.map ActiveSeq.ticket ++ slots.prefilling.map PrefillCtx.ticket

variable {config : Config} {order : ChildOrder} {w : World} {tickets : List Ticket}

/-- What a prefill reuses and what it decodes are together its prompt. -/
theorem PrefillCtx.Fits.total {ctx : PrefillCtx} (h : ctx.Fits) :
    ctx.prep.cachedPos + ctx.prep.delta.length = ctx.tokens.length := by
  have hcached := h.cached
  rw [h.delta, List.length_drop]
  omega

/-- Positions that fit go on to fit. -/
theorem PrefillCtx.fits_lasting : Lasting Fits where
  fits _ h := h
  polled _ _ h := ⟨h.cached, h.delta, h.start, h.stats⟩
  decoded _ _ h hlt := ⟨h.cached, h.delta, hlt.le, h.stats⟩

/-- A prefill is unfinished until its whole prompt is decoded. -/
theorem PrefillCtx.unfinished_lasting : Lasting Unfinished where
  fits _ h := h.1
  polled _ _ h := ⟨fits_lasting.polled _ _ h.1, h.2⟩
  decoded _ _ h hlt := ⟨fits_lasting.decoded _ _ h hlt, hlt⟩

/-- A sequence that goes on was accounted for. -/
theorem ActiveSeq.Running.aligned {seq : ActiveSeq L} (h : seq.Running) : seq.Aligned :=
  ⟨h.1, h.1.pos h.2⟩

/-- Between steps no sequence is done, as a step does not ask. -/
theorem Slots.FitFor.sits {U : PrefillCtx → Prop} {slots : Slots L} (h : slots.FitFor U) :
    slots.Sits U :=
  ⟨fun seq hseq => (h.active seq hseq).aligned, h.prefilling⟩

namespace World

/-- The cells of a ticket are its history. -/
theorem Tracked.cells {t : Ticket} (h : w.Tracked config order (t :: tickets)) :
    w.mapper.memory.cells t.client.seqId = LlamaMemory.tape t.client.history := by
  obtain ⟨s, hfollows, hlive, _⟩ := h
  obtain ⟨_, _, hbooks⟩ := hfollows.sound
  rw [← hfollows.mapper]
  exact (hbooks.contents.clients _ (hlive.mem_iff.mpr List.mem_cons_self)).cells

end World

/-- The rule for passes: each visit trades the ticket of its item for those of what it keeps. -/
theorem pass_tracked {α β : Type} {visit : α → World → Option β × World} {before : α → Ticket}
    {after : β → Ticket} {P : α → Prop} {Q : β → Prop}
    (hvisit : ∀ a (w : World) tickets, P a → w.Tracked config order (before a :: tickets) →
      (visit a w).2.Tracked config order ((visit a w).1.toList.map after ++ tickets) ∧
      ∀ b ∈ (visit a w).1, Q b)
    {as : List α} (hP : ∀ a ∈ as, P a) (h : w.Tracked config order (as.map before ++ tickets)) :
    (pass visit as w).2.Tracked config order ((pass visit as w).1.map after ++ tickets) ∧
      ∀ b ∈ (pass visit as w).1, Q b :=
  pass_trade (H := fun (w : World) tickets => w.Tracked config order tickets)
    (fun _ _ _ h hperm => h.perm hperm) hvisit hP h

/-- The poll of `cancelled` keeps the request's id. -/
@[simp] theorem isCancelled_id (req : InferenceRequest) (w : World) :
    (isCancelled req w).2.1.id = req.id := by
  unfold isCancelled
  split
  · simp only
    split <;> rfl
  all_goals rfl

/-- Abandoning a prefill gives its ticket back. -/
theorem abandon_tracked {ctx : PrefillCtx} (h : w.Tracked config order (ctx.ticket :: tickets)) :
    (abandon ctx w).Tracked config order tickets :=
  (h.leaving _ _ _ _).giveBack (Or.inl rfl) _

/-- Retiring a sequence gives its ticket back. -/
theorem retire_tracked {seq : ActiveSeq L} (h : w.Tracked config order (seq.ticket :: tickets))
    (notify : Bool) :
    (retire seq notify w).Tracked config order tickets := by
  have hleaving :
      (w.note (.leaving seq.req.id seq.seqId seq.leafNode seq.cachedTokens notify)).Departing
        config order
      seq.ticket seq.leafNode none tickets := h.leaving _ _ _ _
  unfold retire
  cases notify with
  | false => exact hleaving.giveBack (Or.inl rfl) _
  | true =>
    have hpolled := hleaving.isCancelled seq.req
    simp only [if_true]
    generalize isCancelled seq.req _ = polled at hpolled ⊢
    obtain ⟨cancelled, req, w₁⟩ := polled
    cases cancelled with
    | true =>
      have hpolled' := hpolled.isCancelled req
      simp only [if_true]
      generalize isCancelled req _ = polled' at hpolled' ⊢
      obtain ⟨cancelled', req', w₂⟩ := polled'
      cases cancelled' with
      | true => exact hpolled'.giveBack (Or.inl rfl) _
      | false => exact (hpolled'.callback _ _).giveBack (Or.inl rfl) _
    | false =>
      have hextended : (w₁.call (.extend seq.seqId seq.leafNode seq.cachedTokens)).Departing
          config order seq.ticket
          (w₁.mapper.extendSequence seq.seqId seq.leafNode seq.cachedTokens).2
            (some seq.seqId) tickets :=
        hpolled.extend rfl
      have hpolled' := hextended.isCancelled req
      simp only [Bool.false_eq_true, if_false, World.extendSequence]
      generalize isCancelled req _ = polled' at hpolled' ⊢
      obtain ⟨cancelled', req', w₂⟩ := polled'
      cases cancelled' with
      | true => exact hpolled'.giveBack (Or.inr rfl) _
      | false => exact (hpolled'.callback _ _).giveBack (Or.inr rfl) _

/-- Failing a sequence gives its ticket back. -/
theorem failActive_tracked {seq : ActiveSeq L} (h : w.Tracked config order (seq.ticket :: tickets))
    (message : String) (status : ℕ) :
    (failActive message status seq w).Tracked config order tickets := by
  have hleaving :
      (w.note (.leaving seq.req.id seq.seqId seq.leafNode seq.cachedTokens false)).Departing
        config order
      seq.ticket seq.leafNode none tickets := h.leaving _ _ _ _
  have hpolled := hleaving.isCancelled seq.req
  unfold failActive
  simp only
  generalize isCancelled seq.req _ = polled at hpolled ⊢
  obtain ⟨cancelled, req, w₁⟩ := polled
  cases cancelled with
  | true => exact hpolled.giveBack (Or.inl rfl) _
  | false => exact (hpolled.callback _ _).giveBack (Or.inl rfl) _

/-- Failing a prefill gives its ticket back. -/
theorem failPrefill_tracked {ctx : PrefillCtx} (h : w.Tracked config order (ctx.ticket :: tickets))
    (message : String) (status : ℕ) :
    (failPrefill message status ctx w).Tracked config order tickets := by
  have hleaving :
      (w.note (.leaving ctx.req.id ctx.prep.seqId ctx.prep.leafNode ctx.tokens false)).Departing
        config order
      ctx.ticket ctx.prep.leafNode none tickets := h.leaving _ _ _ _
  have hpolled := hleaving.isCancelled ctx.req
  unfold failPrefill
  simp only
  generalize isCancelled ctx.req _ = polled at hpolled ⊢
  obtain ⟨cancelled, req, w₁⟩ := polled
  cases cancelled with
  | true => exact hpolled.giveBack (Or.inl rfl) _
  | false => exact (hpolled.callback _ _).giveBack (Or.inl rfl) _

/-- A failure of every item gives every ticket back. -/
theorem failAll_tracked {α : Type} {fail : α → World → World} {ticket : α → Ticket}
    (hfail : ∀ a (w : World) tickets, w.Tracked config order (ticket a :: tickets) →
      (fail a w).Tracked config order tickets)
    {as : List α} (h : w.Tracked config order (as.map ticket ++ tickets)) :
    (failAll fail as w).Tracked config order tickets := by
  induction as generalizing w with
  | nil => exact h
  | cons a rest ih => exact ih (hfail a w _ h)

section Visits

/-- The poll of a sequence keeps its ticket, or gives it back. -/
theorem pollActive_tracked (seq : ActiveSeq L) (w : World) (tickets : List Ticket)
    (haligned : seq.Aligned) (h : w.Tracked config order (seq.ticket :: tickets)) :
    (pollActive seq w).2.Tracked config order
      ((pollActive seq w).1.toList.map ActiveSeq.ticket ++ tickets) ∧
      ∀ s ∈ (pollActive seq w).1, s.Aligned := by
  have hpolled := h.isCancelled seq.req
  have hid := isCancelled_id seq.req w
  unfold pollActive
  generalize isCancelled seq.req w = polled at hpolled hid ⊢
  obtain ⟨cancelled, req, w₁⟩ := polled
  obtain ⟨⟨_, hprompt⟩, hpos⟩ := haligned
  refine ⟨?_, ?_⟩
  · have hticket : ActiveSeq.ticket { seq with req := req, done := seq.done || cancelled } =
        seq.ticket := by
      simp only [ActiveSeq.ticket]
      rw [hid]
    simpa [hticket] using hpolled
  · intro s hs
    cases hs
    exact ⟨⟨fun _ => hpos, hprompt⟩, hpos⟩

/-- Dropping a cancelled sequence gives its ticket back. -/
theorem dropCancelled_tracked (seq : ActiveSeq L) (w : World) (tickets : List Ticket)
    (haligned : seq.Aligned) (h : w.Tracked config order (seq.ticket :: tickets)) :
    (dropCancelled seq w).2.Tracked config order
      ((dropCancelled seq w).1.toList.map ActiveSeq.ticket ++ tickets) ∧
      ∀ s ∈ (dropCancelled seq w).1, s.Running := by
  unfold dropCancelled
  split
  · exact ⟨retire_tracked h false, fun s hs => absurd hs (Option.not_mem_none s)⟩
  · rename_i hdone
    refine ⟨h, fun s hs => ?_⟩
    cases hs
    exact ⟨haligned.1, Bool.eq_false_iff.mpr hdone⟩

/-- Dropping an abandoned prefill gives its ticket back. -/
theorem dropAbandoned_tracked {U : PrefillCtx → Prop} (hU : PrefillCtx.Lasting U)
    (ctx : PrefillCtx) (w : World) (tickets : List Ticket) (hctx : U ctx)
    (h : w.Tracked config order (ctx.ticket :: tickets)) :
    (dropAbandoned ctx w).2.Tracked config order
      ((dropAbandoned ctx w).1.toList.map PrefillCtx.ticket ++ tickets) ∧
      ∀ c ∈ (dropAbandoned ctx w).1, U c := by
  have hpolled := h.isCancelled ctx.req
  have hid := isCancelled_id ctx.req w
  unfold dropAbandoned
  generalize isCancelled ctx.req w = polled at hpolled hid ⊢
  obtain ⟨cancelled, req, w₁⟩ := polled
  have hticket : PrefillCtx.ticket { ctx with req := req } = ctx.ticket := by
    simp only [PrefillCtx.ticket]
    rw [hid]
  rw [← hticket] at hpolled
  cases cancelled with
  | true => exact ⟨abandon_tracked hpolled, fun c hc => absurd hc (Option.not_mem_none c)⟩
  | false =>
    refine ⟨hpolled, fun c hc => ?_⟩
    cases hc
    exact hU.polled _ _ hctx

/-- Retiring a finished sequence gives its ticket back. -/
theorem retireDone_tracked (seq : ActiveSeq L) (w : World) (tickets : List Ticket)
    (hfits : seq.Fits) (h : w.Tracked config order (seq.ticket :: tickets)) :
    (retireDone seq w).2.Tracked config order
      ((retireDone seq w).1.toList.map ActiveSeq.ticket ++ tickets) ∧
      ∀ s ∈ (retireDone seq w).1, s.Running := by
  unfold retireDone
  split
  · have hpolled := h.isCancelled seq.req
    have hid := isCancelled_id seq.req w
    generalize isCancelled seq.req w = polled at hpolled hid ⊢
    obtain ⟨cancelled, req, w₁⟩ := polled
    have hticket : ActiveSeq.ticket { seq with req := req } = seq.ticket := by
      simp only [ActiveSeq.ticket]
      rw [hid]
    rw [← hticket] at hpolled
    exact ⟨retire_tracked hpolled _, fun s hs => absurd hs (Option.not_mem_none s)⟩
  · rename_i hdone
    refine ⟨h, fun s hs => ?_⟩
    cases hs
    exact ⟨hfits, Bool.eq_false_iff.mpr hdone⟩

end Visits

end RadixForge
