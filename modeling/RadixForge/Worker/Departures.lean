import RadixForge.Worker.Journal

/-!
# The journal over whole runs

Every visit of a fused step either writes no mark of a departure or lets the request of its item
depart, so that the passes, the preparation of a batch, the exit of the loop and every step of the
worker keep the journal.
-/

namespace RadixForge

open Library

variable {L : Type} {b : Bridge L} {config : Config} {order : ChildOrder}

section Visits

variable {w : World} {tickets : List Ticket}

/-- A cancelled sequence departs as the journal says, and one that is kept does not. -/
theorem dropCancelled_journal (seq : ActiveSeq L) (w : World)
    (h : w.Tracked config order (seq.ticket :: tickets)) (hjournal : Journal config order w.log) :
    Journal config order (dropCancelled seq w).2.log := by
  unfold dropCancelled
  split
  · exact retire_journal false h hjournal
  · exact hjournal

/-- A cancelled prefill departs as the journal says, and one that is kept does not. -/
theorem dropAbandoned_journal (ctx : PrefillCtx) (w : World)
    (h : w.Tracked config order (ctx.ticket :: tickets)) (hjournal : Journal config order w.log) :
    Journal config order (dropAbandoned ctx w).2.log := by
  have hpolled := h.isCancelled ctx.req
  have hkept := (World.Quiet.isCancelled ctx.req w).journal hjournal
  have hid := isCancelled_id ctx.req w
  obtain ⟨es, hlog, hanswer⟩ := World.isCancelled_log ctx.req w
  unfold dropAbandoned
  generalize isCancelled ctx.req w = polled at hpolled hkept hid hlog hanswer ⊢
  obtain ⟨cancelled, req, w₁⟩ := polled
  simp only at hpolled hkept hid hlog hanswer ⊢
  have hticket : PrefillCtx.ticket { ctx with req := req } = ctx.ticket := by
    simp only [PrefillCtx.ticket]
    rw [hid]
  rw [← hticket] at hpolled
  cases cancelled with
  | true =>
    refine abandon_journal hpolled hkept (Or.inr (Or.inl ?_))
    rw [hlog, hid]
    exact List.mem_append_right _ (List.mem_map_of_mem (hanswer.mp rfl))
  | false => exact hkept

/-- Nobody departs with the end of a chunk. -/
theorem finishChunk_quiet (p : PrefillCtx × Option PromptSubmission) (w : World) :
    w.Quiet (finishChunk p w).2 := by
  obtain ⟨ctx, submission⟩ := p
  cases submission with
  | none => exact .refl w
  | some submission =>
    simp only [finishChunk]
    split
    · exact .call w _
    · exact .refl w

/-- Nobody departs while a sequence advances. -/
theorem advanceSeq_quiet (outputs : List (Option L)) (p : ℕ × ActiveSeq L) (w : World) :
    w.Quiet (advanceSeq b outputs p w).2 := by
  obtain ⟨row, seq⟩ := p
  have hcounted : w.Quiet (w.call (.setCellCount seq.seqId (seq.pos + 1))) := .call w _
  simp only [advanceSeq]
  split
  · exact hcounted
  · have hpolled := hcounted.trans (World.Quiet.isCancelled seq.req _)
    generalize isCancelled seq.req (w.call (.setCellCount seq.seqId (seq.pos + 1))) =
      polled at hpolled ⊢
    obtain ⟨cancelled, req, w₁⟩ := polled
    simp only at hpolled ⊢
    have hdelivered (e : Event) :
        w.Quiet (if cancelled = true then w₁ else w₁.callback req.id e) := by
      split
      · exact hpolled
      · exact hpolled.trans (.callback w₁ _ _)
    split
    · exact hdelivered _
    · generalize hw₂ : (if cancelled = true then w₁ else w₁.callback req.id _) = w₂
      have hagain := (show w.Quiet w₂ from hw₂ ▸ hdelivered _).trans (.isCancelled req w₂)
      generalize isCancelled req w₂ = polled at hagain ⊢
      obtain ⟨cancelled', req', w₃⟩ := polled
      simp only at hagain ⊢
      split
      · exact hagain
      · exact hagain

/-- A sequence that is done departs as the journal says. -/
theorem retireDone_journal (seq : ActiveSeq L) (w : World)
    (h : w.Tracked config order (seq.ticket :: tickets)) (hjournal : Journal config order w.log) :
    Journal config order (retireDone seq w).2.log := by
  unfold retireDone
  split
  · have hpolled := h.isCancelled seq.req
    have hkept := (World.Quiet.isCancelled seq.req w).journal hjournal
    have hid := isCancelled_id seq.req w
    generalize isCancelled seq.req w = polled at hpolled hkept hid ⊢
    obtain ⟨cancelled, req, w₁⟩ := polled
    have hticket : ActiveSeq.ticket { seq with req := req } = seq.ticket := by
      simp only [ActiveSeq.ticket]
      rw [hid]
    rw [← hticket] at hpolled
    exact retire_journal _ hpolled hkept
  · exact hjournal

/-- A request that begins to generate, or leaves with its first token, is ready with its whole
prompt. -/
theorem beginGeneration_journal (outputs : List (Option L)) {ctx : PrefillCtx} (row : ℕ)
    (hfits : ctx.Fits) (hstart : ctx.deltaStart = ctx.prep.delta.length)
    (h : w.Tracked config order (ctx.ticket :: tickets)) (hjournal : Journal config order w.log) :
    Journal config order (beginGeneration b outputs ctx row w).2.log := by
  have hpolled := h.isCancelled ctx.req
  have hkept := (World.Quiet.isCancelled ctx.req w).journal hjournal
  have hid := isCancelled_id ctx.req w
  unfold beginGeneration
  generalize isCancelled ctx.req w = polled at hpolled hkept hid ⊢
  obtain ⟨cancelled, req, w₁⟩ := polled
  simp only at hpolled hkept hid ⊢
  have hticket : PrefillCtx.ticket { ctx with req := req } = ctx.ticket := by
    simp only [PrefillCtx.ticket]
    rw [hid]
  rw [← hticket] at hpolled
  have hserved : ctx.ticket.client.ready = true ∧ ctx.ticket.client.history = ctx.tokens := by
    refine ⟨decide_eq_true hstart, ?_⟩
    simp only [PrefillCtx.ticket, hstart, hfits.total, List.take_length]
  have hleave (e : Event) :
      Journal config order (abandon { ctx with req := req } (w₁.callback req.id e)).log :=
    abandon_journal (hpolled.callback _ _) ((World.Quiet.callback w₁ _ _).journal hkept)
      (Or.inl hserved)
  split
  · exact abandon_journal hpolled hkept (Or.inl hserved)
  · split
    · exact hleave _
    · split
      · exact hleave _
      · exact (World.Quiet.callback w₁ _ _).journal hkept

/-- A prefill that ends with its first token departs as the journal says. -/
theorem finishPrefill_journal (outputs : List (Option L)) (q : PrefillCtx × Option ℕ) (w : World)
    {U : PrefillCtx → Prop} (hdone : ChunkDone U b outputs q)
    (h : w.Tracked config order (q.1.ticket :: tickets))
    (hjournal : Journal config order w.log) :
    Journal config order (finishPrefill b outputs q w).2.log := by
  obtain ⟨ctx, row⟩ := q
  cases row with
  | none => exact hjournal
  | some row =>
    exact beginGeneration_journal outputs row hdone.fits (hdone.finished row rfl).1 h hjournal

end Visits

/-- The rule for passes: each visit keeps the journal. -/
theorem pass_journal {α β : Type} {visit : α → World → Option β × World} {before : α → Ticket}
    {after : β → Ticket}
    {P : α → Prop} {Q : β → Prop}
    (htracked : ∀ a (w : World) tickets, P a → w.Tracked config order (before a :: tickets) →
      (visit a w).2.Tracked config order ((visit a w).1.toList.map after ++ tickets) ∧
      ∀ b ∈ (visit a w).1, Q b)
    (hvisit : ∀ a (w : World) tickets, P a → w.Tracked config order (before a :: tickets) →
      Journal config order w.log →
      Journal config order (visit a w).2.log)
    {as : List α} {w : World} {tickets : List Ticket} (hP : ∀ a ∈ as, P a)
    (h : w.Tracked config order (as.map before ++ tickets))
    (hjournal : Journal config order w.log) :
    Journal config order (pass visit as w).2.log := by
  have hpass :
      ((pass visit as w).2.Tracked config order ((pass visit as w).1.map after ++ tickets) ∧
      Journal config order (pass visit as w).2.log) ∧ ∀ b ∈ (pass visit as w).1, Q b := by
    refine pass_trade (H := fun (w : World) tickets => w.Tracked config order tickets ∧
      Journal config order w.log)
      (fun _ _ _ h hperm => ⟨h.1.perm hperm, h.2⟩) (fun a w tickets ha h => ?_) hP ⟨h, hjournal⟩
    obtain ⟨hkept, hforall⟩ := htracked a w tickets ha h.1
    exact ⟨⟨hkept, hvisit a w tickets ha h.1 h.2⟩, hforall⟩
  exact hpass.1.2

/-- A failure of every item keeps the journal, in worlds that a failure does not leave. -/
theorem failAll_journal {α : Type} {fail : α → World → World} {ticket : α → Ticket} {P : α → Prop}
    {R : World → Prop}
    (htracked : ∀ a (w : World) tickets, w.Tracked config order (ticket a :: tickets) →
      (fail a w).Tracked config order tickets)
    (hstays : ∀ a (w : World), R w → R (fail a w))
    (hfail : ∀ a (w : World) tickets, P a → R w → w.Tracked config order (ticket a :: tickets) →
      Journal config order w.log → Journal config order (fail a w).log)
    {as : List α} {w : World} {tickets : List Ticket} (hP : ∀ a ∈ as, P a) (hw : R w)
    (h : w.Tracked config order (as.map ticket ++ tickets))
    (hjournal : Journal config order w.log) :
    R (failAll fail as w) ∧ Journal config order (failAll fail as w).log := by
  induction as generalizing w with
  | nil => exact ⟨hw, hjournal⟩
  | cons a rest ih =>
    exact ih (fun c hc => hP c (List.mem_cons_of_mem _ hc)) (hstays a w hw) (htracked a w _ h)
      (hfail a w _ (hP a List.mem_cons_self) hw h hjournal)

section Steps

variable {slots : Slots L} {w : World} {tickets : List Ticket}

/-- What is cancelled departs as the journal says. -/
theorem dropAllCancelled_journal (hfit : slots.Fit) (h : w.Tracked config order slots.tickets)
    (hjournal : Journal config order w.log) :
    Journal config order (dropAllCancelled slots w).2.log := by
  obtain ⟨hpolled, hfits⟩ := pass_tracked pollActive_tracked hfit.sits.active h
  have hkept := pass_journal pollActive_tracked
    (fun seq w _ _ _ hj => (World.Quiet.isCancelled seq.req w).journal hj) hfit.sits.active h
    hjournal
  obtain ⟨hremaining, _⟩ := pass_tracked dropCancelled_tracked hfits hpolled
  have hkept' := pass_journal dropCancelled_tracked
    (fun seq w _ _ h hj => dropCancelled_journal seq w h hj) hfits hpolled hkept
  exact pass_journal (dropAbandoned_tracked PrefillCtx.unfinished_lasting)
    (fun ctx w _ _ h hj => dropAbandoned_journal ctx w h hj) hfit.prefilling
    (hremaining.perm List.perm_append_comm) hkept'

/-- Nobody departs in a decode. -/
theorem decodeRows_quiet (rows : List Row) (w : World) : w.Quiet (decodeRows b rows w).2 := by
  induction rows generalizing w with
  | nil => exact .refl w
  | cons row rest ih => exact (World.Quiet.call w _).trans (ih _)

/-- Nobody departs in the decodes of a step. -/
theorem decodeBatch_quiet (rows : List Row) (first second : ℤ) (w : World) :
    w.Quiet (decodeBatch b rows first second w).2.2 := by
  have hretried : w.Quiet (if first = 1 then (if w.evictIdleSequence.2 then second else first,
      w.evictIdleSequence.1)
      else (first, w)).2 := by
    split
    · exact .call w _
    · exact .refl w
  simp only [decodeBatch]
  generalize (if first = 1 then (if w.evictIdleSequence.2 then second else first,
    w.evictIdleSequence.1)
    else (first, w)) = outcome at hretried ⊢
  obtain ⟨status, w₁⟩ := outcome
  simp only at hretried ⊢
  split
  · exact hretried.trans (decodeRows_quiet rows w₁)
  · exact hretried

/-- What follows a successful decode. -/
theorem advanceAll_journal {submissions : List (Option PromptSubmission)}
    {outputs : List (Option L)} (hfit : slots.Fit)
    (hchunks : ∀ p ∈ slots.prefilling.zip submissions,
      ChunkFits PrefillCtx.Unfinished b outputs p)
    (h : w.Tracked config order (slots.active.map (fun seq => seq.decoded.ticket) ++
      (slots.prefilling.zip submissions).map chunkTicket))
    (hjournal : Journal config order w.log) :
    Journal config order (advanceAll b submissions outputs slots w).2.log := by
  have hkept := pass_journal (finishChunk_tracked PrefillCtx.unfinished_lasting b outputs)
    (fun p w _ _ _ hj => (finishChunk_quiet p w).journal hj) hchunks
    (h.perm List.perm_append_comm) hjournal
  obtain ⟨hadvancing, hdone⟩ := finishChunks_tracked PrefillCtx.unfinished_lasting hchunks h
  simp only [advanceAll]
  generalize pass finishChunk (slots.prefilling.zip submissions) w = marked
    at hadvancing hdone hkept ⊢
  obtain ⟨chunks, w₁⟩ := marked
  have hrunning (p : ℕ × ActiveSeq L) (hp : p ∈ (List.range slots.active.length).zip slots.active) :
      p.2.Running :=
    hfit.active p.2 (List.of_mem_zip hp).2
  obtain ⟨hadvanced, hfits⟩ := pass_tracked (advanceSeq_tracked b outputs) hrunning hadvancing
  have hkept₂ := pass_journal (advanceSeq_tracked b outputs)
    (fun p w _ _ _ hj => (advanceSeq_quiet outputs p w).journal hj)
    hrunning hadvancing hkept
  generalize pass (advanceSeq b outputs) ((List.range slots.active.length).zip slots.active) w₁ =
    advanced
    at hadvanced hfits hkept₂ ⊢
  obtain ⟨seqs, w₂⟩ := advanced
  obtain ⟨hretired, _⟩ := pass_tracked retireDone_tracked hfits hadvanced
  have hkept₃ := pass_journal retireDone_tracked
    (fun seq w _ _ h hj => retireDone_journal seq w h hj) hfits hadvanced hkept₂
  simp only
  generalize pass retireDone seqs w₂ = retired at hretired hkept₃ ⊢
  obtain ⟨remaining, w₃⟩ := retired
  exact pass_journal (finishPrefill_tracked b outputs)
    (fun q w _ hdone h hj => finishPrefill_journal outputs q w hdone h hj)
    hdone (hretired.perm List.perm_append_comm) hkept₃

/-- The newest prefills that fail depart as the journal says. -/
theorem failNewest_journal (h : w.Tracked config order slots.tickets)
    (hjournal : Journal config order w.log) :
    Journal config order (failNewest slots w).2.log := by
  unfold failNewest
  split
  · rename_i seq hseq
    obtain ⟨init, hinit⟩ := List.getLast?_eq_some_iff.mp hseq
    simp only [Slots.tickets, hinit, List.map_append, List.map_cons, List.map_nil,
      List.append_assoc, List.singleton_append] at h
    exact failActive_journal _ _ (h.perm List.perm_middle) hjournal
  · split
    · rename_i ctx hctx
      obtain ⟨init, hinit⟩ := List.getLast?_eq_some_iff.mp hctx
      simp only [Slots.tickets, hinit, List.map_append, List.map_cons, List.map_nil] at h
      rw [← List.append_assoc] at h
      exact failPrefill_journal _ _ (h.perm List.perm_append_comm) hjournal
    · exact hjournal

/-- Everything that fails departs as the journal says. -/
theorem failEverything_journal (h : w.Tracked config order slots.tickets)
    (hjournal : Journal config order w.log) :
    Journal config order (failEverything slots w).2.log := by
  have hfailed (seq : ActiveSeq L) (w : World) (tickets : List Ticket)
      (h : w.Tracked config order (seq.ticket :: tickets)) :=
    failActive_tracked h "inference decode failed" 500
  have hactive := failAll_tracked hfailed h
  have hkept := (failAll_journal (P := fun _ => True) (R := fun _ => True) hfailed (fun _ _ h => h)
    (fun seq w _ _ _ h hj => failActive_journal _ _ h hj) (fun _ _ => trivial) trivial h hjournal).2
  rw [← List.append_nil (slots.prefilling.map PrefillCtx.ticket)] at hactive
  exact (failAll_journal (P := fun _ => True) (R := fun _ => True)
    (fun ctx w _ h => failPrefill_tracked h "inference prefill failed" 500) (fun _ _ h => h)
    (fun ctx w _ _ _ h hj => failPrefill_journal _ _ h hj)
      (fun _ _ => trivial) trivial hactive hkept).2

/-- A fused step keeps the journal, whatever its decodes return. -/
theorem fusedStep_journal (hfit : slots.Fit) (first second : ℤ)
    (h : w.Tracked config order slots.tickets) (hjournal : Journal config order w.log) :
    Journal config order (fusedStep b first second slots w).2.log := by
  obtain ⟨hdropped, hfit'⟩ := dropAllCancelled_tracked PrefillCtx.unfinished_lasting hfit.sits h
  have hkept := dropAllCancelled_journal hfit h hjournal
  unfold fusedStep
  generalize dropAllCancelled slots w = dropped at hdropped hfit' hkept ⊢
  obtain ⟨slots, w⟩ := dropped
  have hdecoded := decodeBatch_tracked (b := b) PrefillCtx.unfinished_lasting hfit' first second
    hdropped
  simp only at hdecoded hkept ⊢
  generalize buildBatch b slots = plan at hdecoded ⊢
  obtain ⟨rows, submissions⟩ := plan
  have hsame := (decodeBatch_quiet (b := b) rows first second w).journal hkept
  simp only at hdecoded ⊢
  split
  · exact hkept
  · generalize decodeBatch b rows first second w = decoded at hdecoded hsame ⊢
    obtain ⟨status, outputs, w'⟩ := decoded
    simp only at hdecoded hsame ⊢
    split
    · rename_i hstatus
      rw [if_neg (by omega)] at hdecoded
      exact failNewest_journal hdecoded hsame
    · split
      · rename_i hstatus
        rw [if_neg hstatus] at hdecoded
        exact failEverything_journal hdecoded hsame
      · rename_i hstatus
        rw [if_pos (not_not.mp hstatus)] at hdecoded
        exact advanceAll_journal hfit' hdecoded.2.2.1 hdecoded.1 hsame

end Steps

section Preparation

variable {w : World} {tickets : List Ticket}

/-- A request that is rejected after its preparation receives an error. -/
theorem prepareOne_journal (req : InferenceRequest) (h : w.Tracked config order tickets)
    (hjournal : Journal config order w.log) : Journal config order (prepareOne b req w).2.log := by
  unfold prepareOne
  simp only
  split
  · exact (World.Quiet.callback w _ _).journal hjournal
  · split
    · exact hjournal
    · simp only [World.prepareSequence]
      have hcalled := World.Quiet.call w (.prepare (b.promptTokens req))
      cases hresult : (w.mapper.prepareSequence (b.promptTokens req)).2 with
      | error e => exact hcalled.journal hjournal
      | ok prep =>
        simp only
        have hprepared := h.prepared (req.clamp (b.available req)).id hresult
        have hmark : Entry.departs
            (.admitted (req.clamp (b.available req)).id (b.promptTokens req) prep) = false := rfl
        have hkept := (hcalled.trans (.note _ hmark)).journal hjournal
        split
        · generalize (w.call (.prepare (b.promptTokens req))).note
            (.admitted (req.clamp (b.available req)).id
            (b.promptTokens req) prep) = w₁ at hprepared hkept ⊢
          have hdeparts := World.departs_giveBack (w := w₁)
            (d := ⟨w₁.log, prep.seqId, prep.leafNode, b.promptTokens req, false⟩) []
              false prep.leafNode rfl
            (World.marked_log w₁ _ (req.clamp (b.available req)).id)
              (fun _ h => absurd h List.not_mem_nil) rfl
            (Or.inl rfl)
          refine hprepared.depart hkept hdeparts (.callback _ _ _) rfl rfl ?_
          refine Or.inr (Or.inr (Or.inl ⟨"internal cache preparation error", 500, ?_⟩))
          exact List.mem_append_right _ List.mem_cons_self
        · exact hkept

/-- What is rejected in the preparation of a batch departs as the journal says. -/
theorem prepareAll_journal (reqs : List InferenceRequest) (h : w.Tracked config order tickets)
    (hjournal : Journal config order w.log) : Journal config order (prepareAll b reqs w).2.log := by
  induction reqs generalizing w tickets with
  | nil => exact hjournal
  | cons req rest ih =>
    have hpolled := h.isCancelled req
    have hkept := (World.Quiet.isCancelled req w).journal hjournal
    unfold prepareAll
    generalize isCancelled req w = polled at hpolled hkept ⊢
    obtain ⟨cancelled, req, w₁⟩ := polled
    simp only at hpolled hkept ⊢
    split
    · exact ih hpolled hkept
    · have hone := (prepareOne_tracked (b := b) req hpolled).1
      have hkept₂ := prepareOne_journal (b := b) req hpolled hkept
      generalize prepareOne b req w₁ = outcome at hone hkept₂ ⊢
      obtain ⟨preparation, w₂⟩ := outcome
      cases preparation with
      | rejected => exact ih hone hkept₂
      | deferred req => exact ih hone hkept₂
      | exhausted req =>
        have hrest (reqs : List InferenceRequest) (w : World) :
            w.Quiet (pass keepQueued reqs w).2 := by
          induction reqs generalizing w with
          | nil => exact .refl w
          | cons req rest ih => exact (World.Quiet.isCancelled req w).trans (ih _)
        exact (hrest rest w₂).journal hkept₂
      | prepared ctx => exact ih hone hkept₂

end Preparation

namespace Worker

variable {k k' : Worker L}

/-- The prefills that the loop leaves behind have received nothing terminal. -/
theorem exit_journal (hfollows : k.Follows config order) (hserves : k.Serves b fun _ _ => True)
    (hjournal : Journal config order k.world.log) : Journal config order k.exit.world.log := by
  have hretired (seq : ActiveSeq L) (w : World) (tickets : List Ticket)
      (h : w.Tracked config order (seq.ticket :: tickets)) := retire_tracked h false
  have hquiet {w w' : World} (hadds : ∀ i, w.Adds w' i []) (hsame : ∀ i, w.eventsOf i =
      k.world.eventsOf i) (i : ℕ) :
      w'.eventsOf i = k.world.eventsOf i := by
    rw [hadds i i, if_pos rfl, List.append_nil, hsame]
  have hactive := failAll_tracked hretired hfollows.tracked
  obtain ⟨hsame, hkept⟩ := failAll_journal (P := fun _ => True) (R := fun w => ∀ i, w.eventsOf i =
    k.world.eventsOf i) hretired
    (fun seq w => hquiet (retire_adds_nothing seq w))
      (fun seq w _ _ _ h hj => retire_journal false h hj) (fun _ _ => trivial)
    (fun _ => rfl) hfollows.tracked hjournal
  rw [← List.append_nil (k.slots.prefilling.map PrefillCtx.ticket)] at hactive
  have habandoned (ctx : PrefillCtx) (w : World) (tickets : List Ticket)
      (h : w.Tracked config order (ctx.ticket :: tickets)) := abandon_tracked h
  have hopen (ctx : PrefillCtx) (hctx : ctx ∈ k.slots.prefilling) :
      ∀ e ∈ k.world.eventsOf ctx.req.id, e.isTerminal = false :=
    (hserves.opened
      (List.mem_append_left _ (List.mem_append_right _ (List.mem_map_of_mem hctx)))).2.1
  have habandon (ctx : PrefillCtx) (w : World) (tickets : List Ticket)
      (hopen : ∀ e ∈ k.world.eventsOf ctx.req.id, e.isTerminal = false)
        (hsame : ∀ i, w.eventsOf i = k.world.eventsOf i)
      (h : w.Tracked config order (ctx.ticket :: tickets)) (hj : Journal config order w.log) :
      Journal config order (abandon ctx w).log := by
    refine abandon_journal h hj (Or.inr (Or.inr fun e he => hopen e ?_))
    rw [← hsame]
    exact World.mem_eventsOf.mpr he
  exact (failAll_journal habandoned (fun ctx w => hquiet (abandon_adds_nothing ctx w)) habandon
    hopen hsame hactive hkept).2

/-- Every step keeps the journal. -/
theorem step_journal {action : Action} (hfollows : k.Follows config order)
    (hserves : k.Serves b fun _ _ => True) (hjournal : Journal config order k.world.log)
    (hstep : k.step b action = some k') :
    Journal config order k'.world.log := by
  cases step_moves hstep with
  | enqueue | stop | enter | pop | requeue => exact hjournal
  | leave | leaveEmpty => exact exit_journal hfollows hserves hjournal
  | prepare hphase => exact prepareAll_journal _ hfollows.tracked hjournal
  | fuse first second hphase =>
    exact fusedStep_journal hfollows.fit first second hfollows.tracked hjournal

/-- The journal of every run. -/
theorem run_journal {actions : List Action}
    (hrun : (Worker.init config order : Worker L).Run b actions k) :
    Journal config order k.world.log := by
  have hempty : Journal config order [] := by
    intro before id hbefore
    have hlength := hbefore.length_le
    simp at hlength
  have hall := run_invariant (P := fun k : Worker L => k.Follows config order ∧
    k.Serves b (fun _ _ => True) ∧
      Journal config order k.world.log) (fun k action k' hk hstep =>
    ⟨step_follows hk.1 hstep,
      step_serves ⟨trivial, trivial⟩ hk.1 (admits_of_all action) hk.2.1 hstep,
      step_journal hk.1 hk.2.1 hk.2.2 hstep⟩)
        ⟨init_follows config order, init_serves config order, hempty⟩ hrun
  exact hall.2.2

end Worker

end RadixForge
