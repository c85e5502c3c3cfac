import RadixForge.Worker.Decoding
import RadixForge.Worker.Loop

/-!
# The worker follows the protocol over whole runs

The remaining loops of the fused step, the preparation of a batch, and from them every step of
the worker: its tickets are those of its prefills and active sequences in every reachable state,
whatever arrives, is cancelled or fails.
-/

namespace RadixForge

open Library

variable {L : Type} {b : Bridge L} {config : Config} {order : ChildOrder} {w : World}
  {tickets : List Ticket} {U : PrefillCtx → Prop}

/-- A prefill after its chunk: still left, or finished with the logits of its prompt in a known row.
-/
structure ChunkDone (U : PrefillCtx → Prop) (b : Bridge L) (outputs : List (Option L))
    (q : PrefillCtx × Option ℕ) : Prop where
  fits : q.1.Fits
  left : q.2 = none → U q.1
  finished : ∀ row ∈ q.2, q.1.deltaStart = q.1.prep.delta.length ∧
    (outputs[row]?).join = some (b.logits (LlamaMemory.tape q.1.tokens))

/-- A chunk that is finished leaves its ticket behind. -/
theorem finishChunk_tracked (hU : PrefillCtx.Lasting U) (b : Bridge L)
    (outputs : List (Option L)) (p : PrefillCtx × Option PromptSubmission) (w : World)
    (tickets : List Ticket) (hfits : ChunkFits U b outputs p)
    (h : w.Tracked config order (chunkTicket p :: tickets)) :
    (finishChunk p w).2.Tracked config order
      ((finishChunk p w).1.toList.map (fun q => q.1.ticket) ++ tickets) ∧
      ∀ q ∈ (finishChunk p w).1, ChunkDone U b outputs q := by
  obtain ⟨ctx, submission⟩ := p
  obtain ⟨hleft, hpart, hwhole⟩ := hfits
  have hctx : ctx.Fits := hU.fits ctx hleft
  cases submission with
  | none =>
    have hticket : chunkTicket (ctx, none) = ctx.ticket := by
      simp only [chunkTicket, Ticket.withHistory, PrefillCtx.ticket, Option.map_none,
        Option.getD_none, Nat.add_zero]
    rw [hticket] at h
    refine ⟨h, fun q hq => ?_⟩
    cases hq
    exact ⟨hctx, fun _ => hleft, fun row hrow => absurd hrow (Option.not_mem_none row)⟩
  | some submission =>
    obtain ⟨hpos, hle⟩ := hpart submission rfl
    have hpending : decide (ctx.deltaStart = ctx.prep.delta.length) = false :=
      decide_eq_false (by simp only at hle; omega)
    have hfits' : PrefillCtx.Fits { ctx with deltaStart := ctx.deltaStart + submission.tokens } :=
      ⟨hctx.cached, hctx.delta, hle, hctx.stats⟩
    simp only [finishChunk]
    split
    · rename_i htotal
      obtain ⟨row, hrow, hlogits⟩ := hwhole submission rfl htotal
      have hhistory : ctx.tokens.take (ctx.prep.cachedPos + ctx.deltaStart + submission.tokens) =
          ctx.tokens := by
        rw [Nat.add_assoc, htotal, hctx.total, List.take_length]
      have hprompt : ctx.tokens ≠ [] := List.ne_nil_of_length_pos (Nat.zero_lt_of_lt hctx.cached)
      have hmarked := h.markReady hprompt (by
        simp only [chunkTicket, Ticket.withHistory, PrefillCtx.ticket, Option.map_some,
          Option.getD_some, hhistory]
        exact le_rfl)
      have hticket : PrefillCtx.ticket
          { ctx with deltaStart := ctx.deltaStart + submission.tokens } =
          { chunkTicket (ctx, some submission) with
            client := { (chunkTicket (ctx, some submission)).client with ready := true } } := by
        simp only [chunkTicket, Ticket.withHistory, PrefillCtx.ticket, Option.map_some,
          Option.getD_some, htotal, decide_true, Nat.add_assoc]
      rw [← hticket] at hmarked
      refine ⟨hmarked, fun q hq => ?_⟩
      cases hq
      refine ⟨hfits', fun hnone => ?_, fun row' hrow' => ⟨htotal, ?_⟩⟩
      · simp [hrow] at hnone
      · rw [hrow] at hrow'
        cases hrow'
        exact hlogits
    · rename_i htotal
      have hticket : PrefillCtx.ticket
          { ctx with deltaStart := ctx.deltaStart + submission.tokens } =
          chunkTicket (ctx, some submission) := by
        simp only [chunkTicket, Ticket.withHistory, PrefillCtx.ticket, Option.map_some,
          Option.getD_some, hpending, decide_eq_false htotal, Nat.add_assoc]
      rw [← hticket] at h
      refine ⟨h, fun q hq => ?_⟩
      cases hq
      exact ⟨hfits', fun _ => hU.decoded ctx _ hctx (lt_of_le_of_ne hle htotal),
        fun row hrow => absurd hrow (Option.not_mem_none row)⟩

/-- A sequence that advances has the ticket of what it decoded. -/
theorem advanceSeq_tracked (b : Bridge L) (outputs : List (Option L)) (p : ℕ × ActiveSeq L)
    (w : World) (tickets : List Ticket) (hfits : p.2.Running)
    (h : w.Tracked config order (p.2.decoded.ticket :: tickets)) :
    (advanceSeq b outputs p w).2.Tracked config order
        ((advanceSeq b outputs p w).1.toList.map ActiveSeq.ticket ++ tickets) ∧
      ∀ s ∈ (advanceSeq b outputs p w).1, s.Fits := by
  obtain ⟨row, seq⟩ := p
  have hpos : seq.pos = seq.cachedTokens.length := hfits.1.pos hfits.2
  have hprompt : seq.stats.promptTokens ≤ (seq.cachedTokens ++ [seq.nextToken]).length := by
    have hshort : seq.stats.promptTokens ≤ seq.cachedTokens.length := hfits.1.prompt
    rw [List.length_append]
    omega
  have hcounted : (w.call (.setCellCount seq.seqId (seq.pos + 1))).Tracked config order
      (seq.decoded.ticket :: tickets) := h.setCellCount _
  -- every branch keeps the ticket of the decoded sequence
  have hkeep {w' : World} {s : ActiveSeq L}
      (h' : w'.Tracked config order (seq.decoded.ticket :: tickets))
      (hticket : s.ticket = seq.decoded.ticket) (hs : s.Fits) :
      w'.Tracked config order ((some s).toList.map ActiveSeq.ticket ++ tickets) ∧
        ∀ t ∈ some s, t.Fits := by
    rw [← hticket] at h'
    refine ⟨h', fun t ht => ?_⟩
    cases ht
    exact hs
  simp only [advanceSeq]
  split
  · exact hkeep hcounted rfl ⟨fun hfalse => Bool.noConfusion hfalse, hprompt⟩
  · have hpolled := hcounted.isCancelled seq.req
    have hid := isCancelled_id seq.req (w.call (.setCellCount seq.seqId (seq.pos + 1)))
    generalize isCancelled seq.req (w.call (.setCellCount seq.seqId (seq.pos + 1))) =
      polled at hpolled hid ⊢
    obtain ⟨cancelled, req, w₁⟩ := polled
    simp only at hpolled hid ⊢
    have hdelivered (e : Event) :
        (if cancelled = true then w₁ else w₁.callback req.id e).Tracked config order
          (seq.decoded.ticket :: tickets) := by
      split
      · exact hpolled
      · exact hpolled.callback _ _
    split
    · exact hkeep (hdelivered _) (by simp only [ActiveSeq.ticket, ActiveSeq.decoded, hid])
        ⟨fun hfalse => Bool.noConfusion hfalse, hprompt⟩
    · generalize hw₂ : (if cancelled = true then w₁ else w₁.callback req.id _) = w₂
      have hpolled' := (show w₂.Tracked config order (seq.decoded.ticket :: tickets) from hw₂ ▸
        hdelivered _).isCancelled req
      have hid' := isCancelled_id req w₂
      generalize isCancelled req w₂ = polled at hpolled' hid' ⊢
      obtain ⟨cancelled', req', w₃⟩ := polled
      simp only at hpolled' hid' ⊢
      split
      · exact hkeep hpolled' (by simp only [ActiveSeq.ticket, ActiveSeq.decoded, hid', hid])
          ⟨fun hfalse => Bool.noConfusion hfalse, hprompt⟩
      · refine hkeep hpolled' (by simp only [ActiveSeq.ticket, ActiveSeq.decoded, hid', hid])
          ⟨fun _ => ?_, hprompt⟩
        simp only [List.length_append, List.length_singleton, hpos]

/-- The first token of a finished prompt. -/
theorem beginGeneration_tracked (b : Bridge L) (outputs : List (Option L)) {ctx : PrefillCtx}
    (row : ℕ) (hfits : ctx.Fits) (hstart : ctx.deltaStart = ctx.prep.delta.length)
    (h : w.Tracked config order (ctx.ticket :: tickets)) :
    (beginGeneration b outputs ctx row w).2.Tracked config order
        ((beginGeneration b outputs ctx row w).1.toList.map ActiveSeq.ticket ++ tickets) ∧
      ∀ s ∈ (beginGeneration b outputs ctx row w).1, s.Running := by
  have hpolled := h.isCancelled ctx.req
  have hid := isCancelled_id ctx.req w
  unfold beginGeneration
  generalize isCancelled ctx.req w = polled at hpolled hid ⊢
  obtain ⟨cancelled, req, w₁⟩ := polled
  have hticket : PrefillCtx.ticket { ctx with req := req } = ctx.ticket := by
    simp only [PrefillCtx.ticket]
    rw [hid]
  rw [← hticket] at hpolled
  have hleave {w' : World} (stats : InferenceStats)
      (h' : w'.Tracked config order (PrefillCtx.ticket { ctx with req := req } :: tickets)) :
      (abandon { ctx with req := req, stats := stats } w').Tracked config order
          ((none : Option (ActiveSeq L)).toList.map ActiveSeq.ticket ++ tickets) ∧
        ∀ s ∈ (none : Option (ActiveSeq L)), s.Running :=
    ⟨(abandon_tracked h' : (abandon { ctx with req := req, stats := stats } w').Tracked
      config order tickets),
      fun s hs => absurd hs (Option.not_mem_none s)⟩
  simp only
  split
  · exact hleave _ hpolled
  · split
    · exact hleave _ (hpolled.callback _ _)
    · split
      · exact hleave _ (hpolled.callback _ _)
      · have hhistory : ctx.tokens.take (ctx.prep.cachedPos + ctx.prep.delta.length) =
            ctx.tokens := by
          rw [hfits.total, List.take_length]
        refine ⟨?_, fun s hs => ?_⟩
        · have hdelivered := hpolled.callback req.id
          simp only [PrefillCtx.ticket, hstart, hhistory, decide_true] at hdelivered
          simp only [Option.toList_some, List.map_cons, List.map_nil, ActiveSeq.ticket,
            hfits.stats, List.take_length]
          exact hdelivered _
        · cases hs
          exact ⟨⟨fun _ => hfits.total, hfits.stats.le⟩, rfl⟩

/-- A prefill that is finished leaves its ticket to the sequence, or gives it back. -/
theorem finishPrefill_tracked (b : Bridge L) (outputs : List (Option L)) (q : PrefillCtx × Option ℕ)
    (w : World) (tickets : List Ticket) (hdone : ChunkDone U b outputs q)
    (h : w.Tracked config order (q.1.ticket :: tickets)) :
    (finishPrefill b outputs q w).2.Tracked config order
        ((finishPrefill b outputs q w).1.toList.map (Sum.elim PrefillCtx.ticket ActiveSeq.ticket) ++
          tickets) ∧
      ∀ r ∈ (finishPrefill b outputs q w).1,
      Sum.elim U ActiveSeq.Running r := by
  obtain ⟨ctx, row⟩ := q
  cases row with
  | none =>
    refine ⟨h, fun r hr => ?_⟩
    cases hr
    exact hdone.left rfl
  | some row =>
    obtain ⟨htracked, hrunning⟩ := beginGeneration_tracked b outputs row hdone.fits
      (hdone.finished row rfl).1 h
    simp only [finishPrefill]
    generalize beginGeneration b outputs ctx row w = begun at htracked hrunning ⊢
    obtain ⟨seq, w₁⟩ := begun
    cases seq with
    | none => exact ⟨htracked, fun r hr => absurd hr (Option.not_mem_none r)⟩
    | some seq =>
      refine ⟨htracked, fun r hr => ?_⟩
      cases hr
      exact hrunning seq rfl

/-- The two kinds of results, up to order. -/
theorem perm_results {α β γ : Type} (f : α → γ) (g : β → γ) (results : List (α ⊕ β)) :
    (results.map (Sum.elim f g)).Perm
      ((results.filterMap Sum.getRight?).map g ++ (results.filterMap Sum.getLeft?).map f) := by
  induction results with
  | nil => exact List.Perm.refl _
  | cons r rest ih =>
    cases r with
    | inl a => exact (ih.cons (f a)).trans (List.perm_append_comm_assoc [f a] _ _)
    | inr c => exact ih.cons (g c)

section Steps

variable {slots : Slots L}

/-- Dropping the cancelled prefills and sequences leaves the tickets of those that stay. -/
theorem dropAllCancelled_tracked (hU : PrefillCtx.Lasting U) (hsits : slots.Sits U)
    (h : w.Tracked config order slots.tickets) :
    (dropAllCancelled slots w).2.Tracked config order (dropAllCancelled slots w).1.tickets ∧
      (dropAllCancelled slots w).1.FitFor U := by
  obtain ⟨hpolled, hfits⟩ := pass_tracked pollActive_tracked hsits.active h
  obtain ⟨hkept, hrunning⟩ := pass_tracked dropCancelled_tracked hfits hpolled
  obtain ⟨hdropped, hleft⟩ := pass_tracked (dropAbandoned_tracked hU) hsits.prefilling
    (hkept.perm List.perm_append_comm)
  exact ⟨hdropped.perm List.perm_append_comm, hrunning, hleft⟩

/-- A decoded batch: the histories are longer by the rows, and the logits are those of the
histories. -/
theorem decodeRows_tracked (hU : PrefillCtx.Lasting U) (hfit : slots.FitFor U)
    (h : w.Tracked config order slots.tickets) :
    let plan := buildBatch b slots
    (decodeRows b plan.1 w).2.Tracked config order
      (slots.active.map (fun seq => seq.decoded.ticket) ++
        (slots.prefilling.zip plan.2).map chunkTicket) ∧
      (∀ i (hi : i < slots.active.length), ((decodeRows b plan.1 w).1[i]?).join =
        some (b.logits (LlamaMemory.tape slots.active[i].decoded.cachedTokens))) ∧
      (∀ p ∈ slots.prefilling.zip plan.2, ChunkFits U b (decodeRows b plan.1 w).1 p) ∧
      plan.2.length = slots.prefilling.length := by
  obtain ⟨hactive, houtputs⟩ := decodeRows_active (b := b) hfit.active h
  obtain ⟨hlength, hprompts, hchunks⟩ :=
    decodeRows_prompts (b := b) hU (b.nBatch - slots.active.length) 0
    slots.active.length hfit.prefilling (hactive.perm List.perm_append_comm)
  simp only [buildBatch]
  rw [decodeRows_append]
  generalize decodeRows b (slots.active.map ActiveSeq.row) w = first at *
  obtain ⟨outputs, w₁⟩ := first
  simp only at houtputs
  have hcount : outputs.length = slots.active.length := by rw [houtputs, List.length_map]
  refine ⟨hprompts.perm List.perm_append_comm, fun i hi => ?_, hchunks outputs hcount, hlength⟩
  rw [List.getElem?_append_left (hcount ▸ hi), houtputs, List.getElem?_map,
    List.getElem?_eq_getElem hi]
  rfl

/-- Submitting the batch leaves every ticket with what its step has decoded. -/
theorem decodeBatch_tracked (hU : PrefillCtx.Lasting U) (hfit : slots.FitFor U)
    (first second : ℤ) (h : w.Tracked config order slots.tickets) :
    let plan := buildBatch b slots
    let decoded := decodeBatch b plan.1 first second w
    if decoded.1 = 0 then
      decoded.2.2.Tracked config order (slots.active.map (fun seq => seq.decoded.ticket) ++
          (slots.prefilling.zip plan.2).map chunkTicket) ∧
        (∀ i (hi : i < slots.active.length), (decoded.2.1[i]?).join =
          some (b.logits (LlamaMemory.tape slots.active[i].decoded.cachedTokens))) ∧
        (∀ p ∈ slots.prefilling.zip plan.2, ChunkFits U b decoded.2.1 p) ∧
        plan.2.length = slots.prefilling.length
    else decoded.2.2.Tracked config order slots.tickets := by
  have hretried : (if first = 1 then (if w.evictIdleSequence.2 then second else first,
      w.evictIdleSequence.1)
      else (first, w)).2.Tracked config order slots.tickets := by
    split
    · exact h.evictIdle
    · exact h
  simp only [decodeBatch]
  generalize (if first = 1 then (if w.evictIdleSequence.2 then second else first,
    w.evictIdleSequence.1)
    else (first, w)) = outcome at hretried ⊢
  obtain ⟨status, w₁⟩ := outcome
  simp only at hretried ⊢
  by_cases hstatus : status = 0
  · simp only [hstatus, if_true]
    exact decodeRows_tracked hU hfit hretried
  · simp only [hstatus, if_false]
    exact hretried

/-- What a successful decode leaves before a first token is sampled: the prefills with their chunks
accounted for, the sequences that go on, and the world. -/
def settleBatch (b : Bridge L) (submissions : List (Option PromptSubmission))
    (outputs : List (Option L)) (slots : Slots L) (w : World) :
    List (PrefillCtx × Option ℕ) × List (ActiveSeq L) × World :=
  let (chunks, w) := pass finishChunk (slots.prefilling.zip submissions) w
  let (seqs, w) := pass (advanceSeq b outputs) ((List.range slots.active.length).zip slots.active) w
  let (seqs, w) := pass retireDone seqs w
  (chunks, seqs, w)

/-- The chunks of a decoded batch leave the sequences that advance, and the prefills after them. -/
theorem finishChunks_tracked (hU : PrefillCtx.Lasting U)
    {submissions : List (Option PromptSubmission)} {outputs : List (Option L)}
    (hchunks : ∀ p ∈ slots.prefilling.zip submissions, ChunkFits U b outputs p)
    (h : w.Tracked config order (slots.active.map (fun seq => seq.decoded.ticket) ++
      (slots.prefilling.zip submissions).map chunkTicket)) :
    let marked := pass finishChunk (slots.prefilling.zip submissions) w
    marked.2.Tracked config order (((List.range slots.active.length).zip slots.active).map
        (fun p => p.2.decoded.ticket) ++ marked.1.map fun q => q.1.ticket) ∧
      ∀ q ∈ marked.1, ChunkDone U b outputs q := by
  obtain ⟨hmarked, hdone⟩ := pass_tracked (finishChunk_tracked hU b outputs) hchunks
    (h.perm List.perm_append_comm)
  have hrows : (((List.range slots.active.length).zip slots.active).map fun p =>
      p.2.decoded.ticket) =
      slots.active.map fun seq => seq.decoded.ticket := by
    refine (List.map_map (g := fun seq : ActiveSeq L => seq.decoded.ticket)
      (f := Prod.snd)).symm.trans ?_
    rw [List.map_snd_zip (by rw [List.length_range])]
  refine ⟨?_, hdone⟩
  rw [hrows]
  exact hmarked.perm List.perm_append_comm

/-- The finished prompts still hold their tickets when the first of them is sampled. -/
theorem settleBatch_tracked (hU : PrefillCtx.Lasting U)
    {submissions : List (Option PromptSubmission)} {outputs : List (Option L)}
    (hfit : slots.FitFor U)
    (hchunks : ∀ p ∈ slots.prefilling.zip submissions, ChunkFits U b outputs p)
    (h : w.Tracked config order (slots.active.map (fun seq => seq.decoded.ticket) ++
      (slots.prefilling.zip submissions).map chunkTicket)) :
    let settled := settleBatch b submissions outputs slots w
    settled.2.2.Tracked config order
        (settled.2.1.map ActiveSeq.ticket ++ settled.1.map fun q => q.1.ticket) ∧
      (∀ q ∈ settled.1, ChunkDone U b outputs q) ∧ ∀ seq ∈ settled.2.1, seq.Running := by
  obtain ⟨hadvancing, hdone⟩ := finishChunks_tracked hU hchunks h
  obtain ⟨hadvanced, hfits⟩ := pass_tracked (advanceSeq_tracked b outputs)
    (fun p hp => hfit.active p.2 (List.of_mem_zip hp).2) hadvancing
  obtain ⟨hretired, hrunning⟩ := pass_tracked retireDone_tracked hfits hadvanced
  exact ⟨hretired, hdone, hrunning⟩

/-- What follows a successful decode. -/
theorem advanceAll_tracked (hU : PrefillCtx.Lasting U)
    {submissions : List (Option PromptSubmission)} {outputs : List (Option L)}
    (hfit : slots.FitFor U)
    (hchunks : ∀ p ∈ slots.prefilling.zip submissions, ChunkFits U b outputs p)
    (h : w.Tracked config order (slots.active.map (fun seq => seq.decoded.ticket) ++
      (slots.prefilling.zip submissions).map chunkTicket)) :
    (advanceAll b submissions outputs slots w).2.Tracked config order
      (advanceAll b submissions outputs slots w).1.tickets ∧
      (advanceAll b submissions outputs slots w).1.FitFor U := by
  have hsettled := settleBatch_tracked hU hfit hchunks h
  have hadvance : advanceAll b submissions outputs slots w =
      ({ active := (settleBatch b submissions outputs slots w).2.1 ++
           (pass (finishPrefill b outputs) (settleBatch b submissions outputs slots w).1
             (settleBatch b submissions outputs slots w).2.2).1.filterMap Sum.getRight?
         prefilling := (pass (finishPrefill b outputs)
           (settleBatch b submissions outputs slots w).1
           (settleBatch b submissions outputs slots w).2.2).1.filterMap Sum.getLeft? },
        (pass (finishPrefill b outputs) (settleBatch b submissions outputs slots w).1
          (settleBatch b submissions outputs slots w).2.2).2) := rfl
  rw [hadvance]
  generalize settleBatch b submissions outputs slots w = settled at hsettled ⊢
  obtain ⟨chunks, kept, w₃⟩ := settled
  obtain ⟨hretired, hdone, hrunning⟩ := hsettled
  obtain ⟨hfinished, hlists⟩ := pass_tracked (finishPrefill_tracked b outputs) hdone
    (hretired.perm List.perm_append_comm)
  simp only
  generalize pass (finishPrefill b outputs) chunks w₃ = finished at hfinished hlists ⊢
  obtain ⟨results, w₄⟩ := finished
  simp only at hfinished hlists hrunning ⊢
  refine ⟨hfinished.perm ?_, fun seq hseq => ?_, fun ctx hctx => ?_⟩
  · refine ((perm_results _ _ results).append_right _).trans ?_
    simp only [Slots.tickets, List.map_append]
    exact List.perm_append_comm.trans (List.append_assoc _ _ _ ▸ List.Perm.refl _)
  · rcases List.mem_append.mp hseq with hkept | hnew
    · exact hrunning seq hkept
    · obtain ⟨r, hr, hright⟩ := List.mem_filterMap.mp hnew
      obtain rfl := Sum.getRight?_eq_some_iff.mp hright
      exact hlists _ hr
  · obtain ⟨r, hr, hleft⟩ := List.mem_filterMap.mp hctx
    obtain rfl := Sum.getLeft?_eq_some_iff.mp hleft
    exact hlists _ hr

/-- Failing the newest of the batch leaves the tickets of all others. -/
theorem failNewest_tracked (hfit : slots.FitFor U) (h : w.Tracked config order slots.tickets) :
    (failNewest slots w).2.Tracked config order (failNewest slots w).1.tickets ∧
      (failNewest slots w).1.FitFor U := by
  have hsplit {α : Type} {as : List α} {a : α} (ha : as.getLast? = some a) :
      as = as.dropLast ++ [a] := by
    obtain ⟨init, rfl⟩ := List.getLast?_eq_some_iff.mp ha
    rw [List.dropLast_concat]
  unfold failNewest
  split
  · rename_i seq hseq
    have hactive := hsplit hseq
    refine ⟨failActive_tracked (h.perm ?_) _ _,
      fun s hs => hfit.active s (List.mem_of_mem_dropLast hs), hfit.prefilling⟩
    simp only [Slots.tickets]
    nth_rewrite 1 [hactive]
    rw [List.map_append, List.append_assoc]
    exact List.perm_append_comm_assoc _ [seq.ticket] _
  · rename_i hnone
    split
    · rename_i ctx hctx
      have hprefilling := hsplit hctx
      refine ⟨failPrefill_tracked (h.perm ?_) _ _, hfit.active,
        fun c hc => hfit.prefilling c (List.mem_of_mem_dropLast hc)⟩
      simp only [Slots.tickets]
      nth_rewrite 1 [hprefilling]
      rw [List.map_append, ← List.append_assoc]
      exact List.perm_append_comm
    · exact ⟨h, hfit⟩

/-- Failing everything leaves no ticket. -/
theorem failEverything_tracked (h : w.Tracked config order slots.tickets) :
    (failEverything slots w).2.Tracked config order (failEverything slots w).1.tickets ∧
      (failEverything slots w).1.FitFor U := by
  have hactive := failAll_tracked
    (fun seq w tickets (h : w.Tracked config order (ActiveSeq.ticket seq :: tickets)) =>
    failActive_tracked h "inference decode failed" 500) h
  rw [← List.append_nil (slots.prefilling.map PrefillCtx.ticket)] at hactive
  have hprefilling := failAll_tracked (fun ctx w tickets
    (h : w.Tracked config order (PrefillCtx.ticket ctx :: tickets)) =>
    failPrefill_tracked h "inference prefill failed" 500) hactive
  exact ⟨hprefilling, fun s hs => absurd hs List.not_mem_nil,
    fun c hc => absurd hc List.not_mem_nil⟩

/-- A fused step follows the protocol, whatever its decodes return. -/
theorem fusedStep_tracked (hU : PrefillCtx.Lasting U) (hsits : slots.Sits U) (first second : ℤ)
    (h : w.Tracked config order slots.tickets) :
    (fusedStep b first second slots w).2.Tracked config order
      (fusedStep b first second slots w).1.tickets ∧
      (fusedStep b first second slots w).1.FitFor U := by
  obtain ⟨hdropped, hfit'⟩ := dropAllCancelled_tracked hU hsits h
  unfold fusedStep
  generalize dropAllCancelled slots w = dropped at hdropped hfit' ⊢
  obtain ⟨slots, w⟩ := dropped
  have hdecoded := decodeBatch_tracked (b := b) hU hfit' first second hdropped
  simp only at hdecoded ⊢
  generalize buildBatch b slots = plan at hdecoded ⊢
  obtain ⟨rows, submissions⟩ := plan
  simp only at hdecoded ⊢
  split
  · exact ⟨hdropped, hfit'⟩
  · generalize decodeBatch b rows first second w = decoded at hdecoded ⊢
    obtain ⟨status, outputs, w'⟩ := decoded
    simp only at hdecoded ⊢
    split
    · rename_i hstatus
      rw [if_neg (by omega)] at hdecoded
      exact failNewest_tracked hfit' hdecoded
    · split
      · rename_i hstatus
        rw [if_neg hstatus] at hdecoded
        exact failEverything_tracked hdecoded
      · rename_i hstatus
        rw [if_pos (not_not.mp hstatus)] at hdecoded
        exact advanceAll_tracked hU hfit' hdecoded.2.2.1 hdecoded.1

end Steps

/-- What is left to decode is the prompt without its cached part. -/
theorem KVMapper.prepareSequence_delta {m : KVMapper} {prompt : List Token} {result : PrepareResult}
    (h : (m.prepareSequence prompt).2 = .ok result) :
    result.delta = prompt.drop result.cachedPos := by
  unfold KVMapper.prepareSequence at h
  generalize m.admitPrompt prompt = admitted at h
  obtain ⟨m₁, found⟩ := admitted
  generalize hallocate : m₁.allocateSeqId = allocated at h
  obtain ⟨m₂, newSeq⟩ := allocated
  cases newSeq with
  | none => simp [hallocate] at h
  | some i =>
    simp only [hallocate, Except.ok.injEq] at h
    rw [← h]
    rfl

/-- The prefill of a prepared request. -/
def Preparation.prefill : Preparation → Option PrefillCtx
  | .prepared ctx => some ctx
  | _ => none

section Preparation

/-- A prepared request gets a ticket; any other outcome leaves the tickets as they are. -/
theorem prepareOne_tracked (req : InferenceRequest) (h : w.Tracked config order tickets) :
    (prepareOne b req w).2.Tracked config order
        ((prepareOne b req w).1.prefill.toList.map PrefillCtx.ticket ++ tickets) ∧
      ∀ ctx ∈ (prepareOne b req w).1.prefill, ctx.Unfinished := by
  have hnone : ∀ ctx ∈ (none : Option PrefillCtx), ctx.Unfinished :=
    fun ctx hctx => absurd hctx (Option.not_mem_none ctx)
  unfold prepareOne
  simp only
  split
  · exact ⟨h.callback _ _, hnone⟩
  · split
    · exact ⟨h, hnone⟩
    · simp only [World.prepareSequence]
      cases hresult : (w.mapper.prepareSequence (b.promptTokens req)).2 with
      | error e => exact ⟨h.exhausted hresult, hnone⟩
      | ok prep =>
        have hprepared := h.prepared (req.clamp (b.available req)).id hresult
        have hdelta := KVMapper.prepareSequence_delta hresult
        simp only
        by_cases hempty : prep.delta = []
        · rw [if_pos hempty]
          exact ⟨((hprepared.leaving _ _ _ _).giveBack (Or.inl rfl) _).callback _ _, hnone⟩
        · rw [if_neg hempty]
          have hlength : 0 < prep.delta.length := List.length_pos_iff.mpr hempty
          have hlt : prep.cachedPos < (b.promptTokens req).length := by
            rw [hdelta, List.length_drop] at hlength
            omega
          refine ⟨?_, fun ctx hctx => ?_⟩
          · simp only [Preparation.prefill, Option.toList_some, List.map_cons, List.map_nil,
              PrefillCtx.ticket, Nat.add_zero, decide_eq_false hlength.ne]
            exact hprepared
          · cases hctx
            exact ⟨⟨hlt, hdelta, Nat.zero_le _, rfl⟩, hlength⟩

/-- Polling the requests that stay in the queue changes no ticket. -/
theorem keepQueued_tracked (reqs : List InferenceRequest) (h : w.Tracked config order tickets) :
    (pass keepQueued reqs w).2.Tracked config order tickets := by
  induction reqs generalizing w with
  | nil => exact h
  | cons req rest ih => exact ih (h.isCancelled req)

/-- The preparation of a batch adds a ticket for each prefill. -/
theorem prepareAll_tracked (reqs : List InferenceRequest) (h : w.Tracked config order tickets) :
    (prepareAll b reqs w).2.Tracked config order
      ((prepareAll b reqs w).1.ctxs.map PrefillCtx.ticket ++ tickets) ∧
      ∀ ctx ∈ (prepareAll b reqs w).1.ctxs, ctx.Unfinished := by
  induction reqs generalizing w tickets with
  | nil => exact ⟨h, fun c hc => absurd hc List.not_mem_nil⟩
  | cons req rest ih =>
    have hpolled := h.isCancelled req
    unfold prepareAll
    generalize isCancelled req w = polled at hpolled ⊢
    obtain ⟨cancelled, req, w₁⟩ := polled
    simp only at hpolled ⊢
    split
    · exact ih hpolled
    · have hone := prepareOne_tracked (b := b) req hpolled
      generalize prepareOne b req w₁ = outcome at hone ⊢
      obtain ⟨preparation, w₂⟩ := outcome
      cases preparation with
      | rejected => exact ih hone.1
      | deferred req => exact ih hone.1
      | exhausted req =>
        exact ⟨keepQueued_tracked rest hone.1, fun c hc => absurd hc List.not_mem_nil⟩
      | prepared ctx =>
        obtain ⟨htracked, hunfinished⟩ := hone
        obtain ⟨hrest, hall⟩ := ih htracked
        refine ⟨hrest.perm (List.perm_append_comm_assoc _ [ctx.ticket] _), fun c hc => ?_⟩
        rcases List.mem_cons.mp hc with rfl | hc
        · exact hunfinished c rfl
        · exact hall c hc

end Preparation

/-- The worker is a client of the mapper that follows the protocol. -/
structure Worker.Follows (k : Worker L) (config : Config) (order : ChildOrder) : Prop where
  tracked : k.world.Tracked config order k.slots.tickets
  fit : k.slots.Fit

namespace Worker

/-- The first state follows a session run. -/
theorem init_follows (config : Config) (order : ChildOrder) :
    (Worker.init config order : Worker L).Follows config order := by
  have hpast : ∀ before, before <+: [] → ∃ s, (Session.init config order).Run (callsOf before) s ∧
      s.Hosts (heldOf before) := by
    intro before hbefore
    rw [List.prefix_nil.mp hbefore]
    exact ⟨_, rfl, ⟨fun h hh => absurd hh List.not_mem_nil, List.nodup_nil⟩⟩
  refine ⟨⟨Session.init config order,
    ⟨rfl, rfl, ⟨fun h hh => absurd hh List.not_mem_nil, List.nodup_nil⟩, hpast⟩, List.Perm.refl _,
    List.Perm.refl _, rfl, rfl⟩, fun s hs => absurd hs List.not_mem_nil,
    fun c hc => absurd hc List.not_mem_nil⟩

/-- The exit of the loop hands back every sequence. -/
theorem exit_tracked {k : Worker L} (h : k.world.Tracked config order k.slots.tickets) :
    k.exit.world.Tracked config order k.exit.slots.tickets := by
  have hactive := failAll_tracked
    (fun seq w tickets (h : w.Tracked config order (ActiveSeq.ticket seq :: tickets)) =>
    retire_tracked h false) h
  rw [← List.append_nil (k.slots.prefilling.map PrefillCtx.ticket)] at hactive
  exact failAll_tracked (fun ctx w tickets
    (h : w.Tracked config order (PrefillCtx.ticket ctx :: tickets)) => abandon_tracked h) hactive

/-- The exit of the loop leaves no slot that could be unfit. -/
theorem exit_follows {k : Worker L} (h : k.Follows config order) : k.exit.Follows config order :=
  ⟨exit_tracked h.tracked, fun _ hs => absurd hs List.not_mem_nil,
    fun _ hc => absurd hc List.not_mem_nil⟩

/-- Every step of the worker and of the threads around it. -/
theorem step_follows {k k' : Worker L} {action : Action} (h : k.Follows config order)
    (hstep : k.step b action = some k') : k'.Follows config order := by
  cases step_moves hstep with
  | enqueue | stop | enter | pop | requeue => exact ⟨h.tracked, h.fit⟩
  | leave | leaveEmpty => exact exit_follows h
  | @prepare pending hphase =>
    obtain ⟨htracked, hunfinished⟩ := prepareAll_tracked (b := b) pending h.tracked
    refine ⟨htracked.perm ?_, h.fit.active, fun c hc => ?_⟩
    · simp only [Worker.prepare, Slots.tickets, List.map_append]
      exact List.perm_append_comm.trans (List.Perm.of_eq (List.append_assoc _ _ _))
    · rcases List.mem_append.mp hc with hc | hc
      · exact h.fit.prefilling c hc
      · exact hunfinished c hc
  | fuse first second hphase =>
    obtain ⟨htracked, hfit⟩ := fusedStep_tracked (b := b) PrefillCtx.unfinished_lasting
      h.fit.sits first second h.tracked
    exact ⟨htracked, hfit⟩

/-- The worker follows the protocol in every reachable state. -/
theorem run_follows {actions : List Action} {k : Worker L}
    (hrun : (Worker.init config order : Worker L).Run b actions k) : k.Follows config order :=
  run_invariant (fun _ _ _ hk hstep => step_follows hk hstep) (init_follows config order) hrun

end Worker

end RadixForge
