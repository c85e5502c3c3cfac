import RadixForge.Session.Results
import RadixForge.Worker.Settling

/-!
# The ledger over whole runs

The loops of the fused step and the preparation of a batch keep the ledger of requests, and so does
every step of the worker, as long as what the step may lead to is allowed: failures of a decode,
the silent exit of the loop, and late polls.
-/

namespace RadixForge

open Library

variable {L : Type} {b : Bridge L} {config : Config} {order : ChildOrder} {terms : Terms}
  {w : World} {others : List Record}

/-- The records of the two lists. -/
def Slots.records (b : Bridge L) (terms : Terms) (slots : Slots L) : List Record :=
  slots.active.map (ActiveSeq.record b terms) ++ slots.prefilling.map (PrefillCtx.record b terms)

section FusedStep

variable {slots : Slots L}

/-- Dropping what is cancelled; the sequences that stay were polled. -/
theorem dropAllCancelled_ledger {decodes : Prop}
    (htolerates : ∀ seq ∈ slots.active, decodes → seq.req.cancelAfter ≠ some 0 →
      seq.polled.Tolerates b terms)
    (h : w.Ledger terms (slots.records b terms ++ others)) :
    (dropAllCancelled slots w).2.Ledger terms
      ((dropAllCancelled slots w).1.active.map (ActiveSeq.sampling b terms decodes) ++
      (dropAllCancelled slots w).1.prefilling.map (PrefillCtx.record b terms) ++ others) := by
  have hactive : w.Ledger terms (slots.active.map (ActiveSeq.record b terms) ++
      (slots.prefilling.map (PrefillCtx.record b terms) ++ others)) := by
    rw [← List.append_assoc]
    exact h
  have hpolled := pass_ledger (fun seq w htolerates h => pollActive_settles seq w htolerates h)
    htolerates hactive
  have hkept := pass_ledger (P := fun _ => True) (fun seq w _ h => dropCancelled_settles seq w h)
    (fun _ _ => trivial) hpolled
  have hdropped := pass_ledger (P := fun _ => True) (fun ctx w _ h => dropAbandoned_settles ctx w h)
    (fun _ _ => trivial)
    (hkept.perm (List.perm_append_comm_assoc _ _ _))
  simp only [dropAllCancelled]
  rw [List.append_assoc]
  exact hdropped.perm (List.perm_append_comm_assoc _ _ _)

/-- Decoding rows adds no event. -/
theorem decodeRows_eventsOf (rows : List Row) (w : World) (i : ℕ) :
    (decodeRows b rows w).2.eventsOf i = w.eventsOf i := by
  induction rows generalizing w with
  | nil => rfl
  | cons row rest ih =>
    simp only [decodeRows]
    rw [ih, World.call_eventsOf]

/-- Submitting a batch adds no event. -/
theorem decodeBatch_eventsOf (rows : List Row) (first second : ℤ) (w : World) (i : ℕ) :
    (decodeBatch b rows first second w).2.2.eventsOf i = w.eventsOf i := by
  have hretried : (if first = 1 then (if w.evictIdleSequence.2 then second else first,
      w.evictIdleSequence.1)
      else (first, w)).2.eventsOf i = w.eventsOf i := by
    split
    · exact World.call_eventsOf _ _ _
    · rfl
  simp only [decodeBatch]
  generalize (if first = 1 then (if w.evictIdleSequence.2 then second else first,
    w.evictIdleSequence.1)
    else (first, w)) = outcome at hretried ⊢
  obtain ⟨status, w₁⟩ := outcome
  simp only at hretried ⊢
  split
  · exact (decodeRows_eventsOf _ _ _).trans hretried
  · exact hretried

/-- The status of a batch is that of its first or of its repeated decode. -/
theorem decodeBatch_status (rows : List Row) (first second : ℤ) (w : World) :
    (decodeBatch b rows first second w).1 = first ∨ first = 1 ∧
      (decodeBatch b rows first second w).1 = second := by
  simp only [decodeBatch]
  split
  · rename_i hfirst
    rw [apply_ite Prod.fst]
    split <;> split <;> simp_all
  · split <;> exact Or.inl rfl

/-- What follows a successful decode. -/
theorem advanceAll_ledger (hfair : terms.Fair) {submissions : List (Option PromptSubmission)}
    {outputs : List (Option L)}
    {tickets : List Ticket} (hlength : submissions.length = slots.prefilling.length)
    (hrows : ∀ i (hi : i < slots.active.length), (outputs[i]?).join =
      some (b.logits (LlamaMemory.tape slots.active[i].decoded.cachedTokens)))
    (hchunks : ∀ p ∈ slots.prefilling.zip submissions, ChunkFits PrefillCtx.Unfinished b outputs p)
    (htracked : w.Tracked config order
      ((slots.prefilling.zip submissions).map chunkTicket ++ tickets))
    (h : w.Ledger terms (slots.active.map (ActiveSeq.sampling b terms True) ++
      slots.prefilling.map (PrefillCtx.record b terms) ++ others)) :
    (advanceAll b submissions outputs slots w).2.Ledger terms
      ((advanceAll b submissions outputs slots w).1.records b terms ++ others) := by
  have hdone := (pass_tracked (finishChunk_tracked PrefillCtx.unfinished_lasting b outputs) hchunks
    htracked).2
  have hprefills : (slots.prefilling.zip submissions).map (fun p => p.1.record b terms) =
      slots.prefilling.map (PrefillCtx.record b terms) := by
    refine (List.map_map (g := PrefillCtx.record b terms) (f := Prod.fst)).symm.trans ?_
    rw [List.map_fst_zip hlength.ge]
  have hactives : ((List.range slots.active.length).zip slots.active).map
      (fun p => p.2.sampling b terms True) =
      slots.active.map (ActiveSeq.sampling b terms True) := by
    refine (List.map_map (g := ActiveSeq.sampling b terms True) (f := Prod.snd)).symm.trans ?_
    rw [List.map_snd_zip (by rw [List.length_range])]
  have hindexed : ∀ p ∈ (List.range slots.active.length).zip slots.active,
      (outputs[p.1]?).join = some (b.logits (LlamaMemory.tape p.2.decoded.cachedTokens)) := by
    intro p hp
    obtain ⟨i, hi, hget⟩ := List.mem_iff_getElem.mp hp
    rw [List.length_zip, List.length_range, min_self] at hi
    rw [List.getElem_zip, List.getElem_range] at hget
    rw [← hget]
    exact hrows i hi
  rw [List.append_assoc, ← hprefills] at h
  have hmarked := pass_ledger (P := fun _ => True)
    (fun p w _ h => finishChunk_settles (b := b) p w h) (fun _ _ => trivial)
      (h.perm (List.perm_append_comm_assoc _ _ _))
  simp only [advanceAll]
  generalize pass finishChunk (slots.prefilling.zip submissions) w = marked at hmarked hdone ⊢
  obtain ⟨chunks, w₁⟩ := marked
  rw [← hactives] at hmarked
  have hadvanced := pass_ledger
    (fun p w hrow (h : (p.2.sampling b terms True).holds (w.eventsOf p.2.req.id)) =>
    advanceSeq_settles outputs p.1 p.2 w hrow h.1 (h.2 trivial)) hindexed
    (hmarked.perm (List.perm_append_comm_assoc _ _ _))
  generalize pass (advanceSeq b outputs) ((List.range slots.active.length).zip slots.active) w₁ =
    advanced at hadvanced ⊢
  obtain ⟨seqs, w₂⟩ := advanced
  have hretired := pass_ledger (P := fun _ => True)
    (fun seq w _ h => retireDone_settles hfair seq w h) (fun _ _ => trivial)
    hadvanced
  simp only
  generalize pass retireDone seqs w₂ = retired at hretired ⊢
  obtain ⟨kept, w₃⟩ := retired
  have hfinished := pass_ledger
    (fun q w hdone h => finishPrefill_settles hfair outputs q w hdone h) hdone
    (hretired.perm (List.perm_append_comm_assoc _ _ _))
  simp only
  generalize pass (finishPrefill b outputs) chunks w₃ = finished at hfinished ⊢
  obtain ⟨results, w₄⟩ := finished
  refine hfinished.perm ?_
  refine ((perm_results _ _ results).append_right _).trans ?_
  simp only [Slots.records, List.map_append]
  rw [← List.append_assoc]
  refine List.Perm.append_right _ (List.perm_append_comm.trans ?_)
  rw [List.append_assoc]

/-- Failing the newest of the batch keeps the ledger: it leaves, told of its failure. -/
theorem failNewest_ledger (hfailed : terms.allowed .failed .quiet)
    (h : w.Ledger terms (slots.records b terms ++ others)) :
    (failNewest slots w).2.Ledger terms ((failNewest slots w).1.records b terms ++ others) := by
  have hsplit {α : Type} {as : List α} {a : α} (ha : as.getLast? = some a) :
      as = as.dropLast ++ [a] := by
    obtain ⟨init, rfl⟩ := List.getLast?_eq_some_iff.mp ha
    rw [List.dropLast_concat]
  unfold failNewest
  split
  · rename_i seq hseq
    have hactive := hsplit hseq
    have hfirst : w.Ledger terms
        (ActiveSeq.record b terms seq :: (slots.active.dropLast.map (ActiveSeq.record b terms) ++
        slots.prefilling.map (PrefillCtx.record b terms) ++ others)) := by
      refine h.perm ?_
      simp only [Slots.records]
      nth_rewrite 1 [hactive]
      rw [List.map_append, List.append_assoc, List.append_assoc, List.append_assoc]
      exact List.perm_append_comm_assoc _ [seq.record b terms] _
    exact hfirst.settle (failActive_settles _ _ hfailed seq w (hfirst.known _ List.mem_cons_self).2)
  · split
    · rename_i ctx hctx
      have hprefilling := hsplit hctx
      have hfirst : w.Ledger terms
          (PrefillCtx.record b terms ctx :: (slots.active.map (ActiveSeq.record b terms) ++
          slots.prefilling.dropLast.map (PrefillCtx.record b terms) ++ others)) := by
        refine h.perm ?_
        simp only [Slots.records]
        nth_rewrite 1 [hprefilling]
        rw [List.map_append, ← List.append_assoc, List.append_assoc]
        exact List.perm_append_comm_assoc _ [ctx.record b terms] _
      exact hfirst.settle
        (failPrefill_settles _ _ hfailed ctx w (hfirst.known _ List.mem_cons_self).2)
    · exact h

/-- Failing everything keeps the ledger: every record leaves, told of its failure. -/
theorem failEverything_ledger (hfailed : terms.allowed .failed .quiet)
    (h : w.Ledger terms (slots.records b terms ++ others)) :
    (failEverything slots w).2.Ledger terms
      ((failEverything slots w).1.records b terms ++ others) := by
  rw [Slots.records, List.append_assoc] at h
  have hactive := failAll_ledger
    (fun seq w h => failActive_settles "inference decode failed" 500 hfailed seq w h) h
  exact failAll_ledger
    (fun ctx w h => failPrefill_settles "inference prefill failed" 500 hfailed ctx w h) hactive

/-- A fused step keeps the ledger. -/
theorem fusedStep_ledger (hfair : terms.Fair) (first second : ℤ)
    (hfailed : first ≠ 0 → terms.allowed .failed .quiet)
    (htolerates : first = 0 ∨ first = 1 ∧ second = 0 →
      ∀ seq ∈ slots.active, seq.req.cancelAfter ≠ some 0 → seq.polled.Tolerates b terms)
    (hfit : slots.Fit) (htracked : w.Tracked config order slots.tickets)
    (h : w.Ledger terms (slots.records b terms ++ others)) :
    (fusedStep b first second slots w).2.Ledger terms
      ((fusedStep b first second slots w).1.records b terms ++ others) := by
  obtain ⟨hdropped, hfit'⟩ := dropAllCancelled_tracked PrefillCtx.unfinished_lasting hfit.sits
    htracked
  have hledger := dropAllCancelled_ledger (fun seq hseq hdecodes => htolerates hdecodes seq hseq) h
  unfold fusedStep
  generalize dropAllCancelled slots w = dropped at hdropped hfit' hledger ⊢
  obtain ⟨slots, w⟩ := dropped
  have hserves : w.Ledger terms (slots.records b terms ++ others) := by
    rw [List.append_assoc] at hledger
    rw [Slots.records, List.append_assoc]
    exact hledger.weaken (fun _ => rfl) fun _ _ _ h => h.1
  have hdecoded := decodeBatch_tracked (b := b) PrefillCtx.unfinished_lasting hfit' first second
    hdropped
  have hstatus := decodeBatch_status (b := b) (buildBatch b slots).1 first second w
  have hsame := decodeBatch_eventsOf (b := b) (buildBatch b slots).1 first second w
  simp only at hdecoded ⊢
  generalize buildBatch b slots = plan at hdecoded hstatus hsame ⊢
  obtain ⟨rows, submissions⟩ := plan
  simp only at hdecoded hstatus hsame ⊢
  split
  · exact hserves
  · generalize decodeBatch b rows first second w = decoded at hdecoded hstatus hsame ⊢
    obtain ⟨status, outputs, w'⟩ := decoded
    simp only at hdecoded hstatus hsame ⊢
    have hserves' := hserves.silent hsame
    split
    · exact failNewest_ledger (hfailed (by omega)) hserves'
    · split
      · exact failEverything_ledger (hfailed (by omega)) hserves'
      · rename_i hzero
        rw [not_not] at hzero
        rw [if_pos hzero] at hdecoded
        obtain ⟨htracked', hrows, hchunks, hlength⟩ := hdecoded
        have hdecodes : first = 0 ∨ first = 1 ∧ second = 0 := by omega
        have hsampling : w'.Ledger terms (slots.active.map (ActiveSeq.sampling b terms True) ++
            slots.prefilling.map (PrefillCtx.record b terms) ++ others) := by
          rw [List.append_assoc] at hledger ⊢
          exact (hledger.silent hsame).weaken (fun _ => rfl) fun _ _ _ h =>
            ⟨h.1, fun _ => h.2 hdecodes⟩
        exact advanceAll_ledger hfair hlength hrows hchunks
          (htracked'.perm List.perm_append_comm) hsampling

end FusedStep

section Preparation

/-- What is left of a nonempty prompt to decode is nonempty. -/
theorem World.Tracked.delta_ne_nil {tickets : List Ticket} (h : w.Tracked config order tickets)
    {prompt : List Token} (hprompt : prompt ≠ []) {result : PrepareResult}
    (hresult : (w.mapper.prepareSequence prompt).2 = .ok result) :
    result.delta ≠ [] := by
  obtain ⟨s, hfollows, _, _, _, hhand⟩ := h
  obtain ⟨path, idle, hbooks⟩ := hfollows.sound
  rw [← hfollows.mapper] at hresult
  obtain ⟨hlt, hdelta⟩ := hbooks.prepare_rest hhand hprompt (Prod.ext rfl hresult)
  rw [hdelta, ne_eq, List.drop_eq_nil_iff]
  omega

/-- The record of what becomes of a request of the batch. -/
def Preparation.record (b : Bridge L) (terms : Terms) : Preparation → Option Record
  | .rejected => none
  | .deferred req => some (req.record b terms)
  | .exhausted req => some (req.record b terms)
  | .prepared ctx => some (ctx.record b terms)

/-- A request that is open stays so when its `max_tokens` is clamped. -/
theorem InferenceRequest.clamp_open {req : InferenceRequest} {es : List Event}
    (h : req.Open terms es) (available : ℤ) :
    (req.clamp available).Open terms es := by
  unfold InferenceRequest.clamp
  split
  · exact ⟨h.installed, h.opened, h.cancellable⟩
  · exact h

/-- Clamping `max_tokens` keeps the request's id. -/
@[simp] theorem InferenceRequest.clamp_id (req : InferenceRequest) (available : ℤ) :
    (req.clamp available).id = req.id := by
  unfold InferenceRequest.clamp
  split <;> rfl

/-- The prefill of a request generates what the request does. -/
theorem Bridge.generate_prefill {req : InferenceRequest} (havailable : ¬ b.available req ≤ 0)
    (hprompt : b.promptTokens req ≠ []) :
    b.generateLoop (max 1 (req.clamp (b.available req)).maxTokens).toNat
      { temperature := (req.clamp (b.available req)).temperature,
        topP := (req.clamp (b.available req)).topP }
      (b.promptTokens req) = b.generate req := by
  rw [generate, if_neg (not_or.mpr ⟨havailable, hprompt⟩)]
  unfold InferenceRequest.clamp
  split
  · rename_i hlt
    rw [min_eq_right hlt.le]
  · rename_i hle
    rw [min_eq_left (not_lt.mp hle)]

/-- Preparing a request settles it: as a prefill, back in the queue, or told why not. -/
theorem prepareOne_settles (hfair : terms.Fair) {tickets : List Ticket} (req : InferenceRequest)
    (w : World) (htracked : w.Tracked config order tickets)
    (h : req.Waits b terms (w.eventsOf req.id)) :
    w.Settles (prepareOne b req w).2 terms req.id ((prepareOne b req w).1.record b terms) := by
  have hsame {w' : World} (hadds : w.Adds w' req.id []) :
      w.Settles w' terms req.id (some ((req.clamp (b.available req)).record b terms)) := by
    refine .keep hadds (InferenceRequest.clamp_id _ _) ?_
    refine ⟨?_, ?_, ?_⟩
    · exact (List.append_nil (w.eventsOf req.id)).symm ▸ InferenceRequest.clamp_open h.toOpen _
    · exact (List.append_nil (w.eventsOf req.id)).symm ▸ h.nothing
    · rw [b.generate_clamp, InferenceRequest.clamp_id]
      exact h.generates
  -- a request that generates nothing is rejected with an error
  have hreject {w' : World} (hadds : w.Adds w' req.id []) (hnothing : b.generate req = [])
      (message : String) (status : ℕ) :
      w.Settles (w'.callback req.id (.onError message status)) terms req.id none := by
    refine .leave (hadds.after (World.adds_callback _ _ _))
      ⟨_, _, hfair.rejected, h.toOpen.close (.rejected _ _ ?_)⟩
    rw [h.nothing, ← h.generates, hnothing]
  unfold prepareOne
  simp only
  split
  · rename_i havailable
    exact hreject (World.adds_nothing (fun _ => rfl) _) (if_pos (Or.inl havailable)) _ _
  · rename_i havailable
    split
    · exact hsame (World.adds_nothing (fun _ => rfl) _)
    · simp only [World.prepareSequence]
      cases hresult : (w.mapper.prepareSequence (b.promptTokens req)).2 with
      | error e => exact hsame (World.adds_call _ _ _)
      | ok prep =>
        have hadmitted : w.Adds ((w.call (.prepare (b.promptTokens req))).note
            (.admitted (req.clamp (b.available req)).id (b.promptTokens req) prep)) req.id [] :=
          (World.adds_call _ _ _).quiet
            (World.adds_nothing (fun _ => World.admitted_eventsOf _ _ _ _ _) _)
        simp only
        split
        · rename_i hempty
          have hprompt : b.promptTokens req = [] := by
            by_contra hne
            exact htracked.delta_ne_nil hne hresult hempty
          simp only [InferenceRequest.clamp_id] at hadmitted ⊢
          exact hreject ((hadmitted.quiet (World.adds_leaving _ _ _ _ _ _ _)).quiet
            (World.adds_giveBack _ _ _ _ _ _))
            (if_pos (Or.inr hprompt)) _ _
        · rename_i hdelta
          have hprompt : b.promptTokens req ≠ [] := by
            intro hnil
            refine hdelta ?_
            rw [KVMapper.prepareSequence_delta hresult, hnil, List.drop_nil]
          refine .keep hadmitted (InferenceRequest.clamp_id _ _) ⟨?_, ?_, ?_⟩
          · exact (List.append_nil (w.eventsOf req.id)).symm ▸
              InferenceRequest.clamp_open h.toOpen _
          · exact (List.append_nil (w.eventsOf req.id)).symm ▸ h.nothing
          · rw [InferenceRequest.clamp_id]
            exact (Bridge.generate_prefill havailable hprompt).trans h.generates

/-- A request that is polled before its turn. -/
theorem pollWaiting_settles {req : InferenceRequest} (w : World)
    (h : req.Waits b terms (w.eventsOf req.id)) :
    w.Settles (isCancelled req w).2.2 terms req.id
      (if (isCancelled req w).1 then none else some ((isCancelled req w).2.1.record b terms)) := by
  rcases h.polls w with ⟨_, w', hpoll, hadds⟩ | ⟨hcancelled, w', hpoll, hadds⟩
  · simp only [hpoll, Bool.false_eq_true, if_false]
    refine .keep hadds rfl ⟨h.toOpen.poll, ?_, h.generates⟩
    rw [delivered_append, h.nothing]
    rfl
  · simp only [hpoll, if_true]
    exact .leave hadds (h.leave hcancelled (h.nothing ▸ List.nil_prefix))

/-- The poll of a request that stays in the queue settles it: kept, or told nothing more. -/
theorem keepQueued_settles (req : InferenceRequest) (w : World)
    (h : req.Waits b terms (w.eventsOf req.id)) :
    w.Settles (keepQueued req w).2 terms req.id
      ((keepQueued req w).1.map (InferenceRequest.record b terms)) := by
  have hpolled := pollWaiting_settles w h
  unfold keepQueued
  generalize isCancelled req w = polled at hpolled ⊢
  obtain ⟨cancelled, req', w'⟩ := polled
  cases cancelled <;> exact hpolled

/-- The records of a prepared batch. -/
def Batch.records (b : Bridge L) (terms : Terms) (batch : Batch) : List Record :=
  batch.ctxs.map (PrefillCtx.record b terms) ++
    (batch.queued ++ batch.deferred).map (InferenceRequest.record b terms)

/-- The preparation of a batch keeps the ledger. -/
theorem prepareAll_ledger (hfair : terms.Fair) {tickets : List Ticket}
    (reqs : List InferenceRequest) (htracked : w.Tracked config order tickets)
    (h : w.Ledger terms (reqs.map (InferenceRequest.record b terms) ++ others)) :
    (prepareAll b reqs w).2.Ledger terms ((prepareAll b reqs w).1.records b terms ++ others) := by
  induction reqs generalizing w tickets others with
  | nil => exact h
  | cons req rest ih =>
    have hpolled := h.settle (pollWaiting_settles w (h.known _ List.mem_cons_self).2)
    have htracked' := htracked.isCancelled req
    unfold prepareAll
    generalize isCancelled req w = polled at hpolled htracked' ⊢
    obtain ⟨cancelled, req', w₁⟩ := polled
    simp only at hpolled htracked' ⊢
    split
    · rename_i hcancelled
      rw [if_pos hcancelled] at hpolled
      exact ih htracked' hpolled
    · rename_i hcancelled
      rw [if_neg hcancelled] at hpolled
      have hone := hpolled.settle
        (prepareOne_settles hfair req' w₁ htracked' (hpolled.known _ List.mem_cons_self).2)
      have htracked'' := (prepareOne_tracked (b := b) req' htracked').1
      generalize prepareOne b req' w₁ = outcome at hone htracked'' ⊢
      obtain ⟨preparation, w₂⟩ := outcome
      have hshift {r : Record} {w' : World}
          (h : w'.Ledger terms (r :: (rest.map (InferenceRequest.record b terms) ++ others))) :
          w'.Ledger terms (rest.map (InferenceRequest.record b terms) ++ (r :: others)) :=
        h.perm List.perm_middle.symm
      cases preparation with
      | rejected => exact ih htracked'' hone
      | deferred req'' =>
        refine (ih htracked'' (hshift hone)).perm ?_
        simp only [Batch.records, List.map_append, List.map_cons,
          List.append_assoc, List.cons_append]
        exact List.Perm.append_left _ (List.Perm.append_left _ List.perm_middle)
      | exhausted req'' =>
        have hqueued := pass_ledger (P := fun _ => True) (fun r w _ h => keepQueued_settles r w h)
          (fun _ _ => trivial)
          (hshift hone)
        refine hqueued.perm ?_
        simp only [Batch.records, List.map_nil, List.nil_append, List.append_nil,
          List.map_cons, List.cons_append]
        exact List.perm_middle
      | prepared ctx =>
        refine (ih htracked'' (hshift hone)).perm ?_
        simp only [Batch.records, List.map_cons, List.cons_append]
        exact List.perm_middle

end Preparation

/-- The prefills of a batch join the others, the requests put back join the queue. -/
theorem perm_admission {α : Type} (ctxs retry active prefilling queue : List α) :
    ((ctxs ++ retry) ++ ((active ++ prefilling) ++ queue)).Perm
      ((active ++ (prefilling ++ ctxs)) ++ (queue ++ retry)) := by
  have hretry : ((ctxs ++ retry) ++ ((active ++ prefilling) ++ queue)).Perm
      (ctxs ++ ((active ++ prefilling) ++ queue ++ retry)) := by
    rw [List.append_assoc]
    exact List.Perm.append_left _ List.perm_append_comm
  have hctxs : (ctxs ++ (active ++ (prefilling ++ (queue ++ retry)))).Perm
      (active ++ (prefilling ++ (ctxs ++ (queue ++ retry)))) :=
    (List.perm_append_comm_assoc _ _ _).trans
      (List.Perm.append_left _ (List.perm_append_comm_assoc _ _ _))
  simp only [List.append_assoc] at hretry ⊢
  exact hretry.trans hctxs

/-- What the requests that arrived generate, and the departures that are allowed. -/
def contract (b : Bridge L) (allowed : Closing → Tail → Prop) (arrivals : List InferenceRequest) :
    Terms where
  generated id := ((arrivals[id]?).map b.generate).getD []
  arrived := arrivals.length
  allowed := allowed

namespace Worker

/-- Every request that arrived is waiting, prefilling or active, or it has departed. -/
def Serves (b : Bridge L) (allowed : Closing → Tail → Prop) (k : Worker L) : Prop :=
  k.world.Ledger (contract b allowed k.arrivals)
    (k.slots.records b (contract b allowed k.arrivals) ++
    k.waiting.map (InferenceRequest.record b (contract b allowed k.arrivals)))

/-- What a step may lead to is allowed: a cancellation of the new request, the silent exit of the
loop, a failed decode, and the polls after the tokens of a successful one. -/
def Admits (b : Bridge L) (allowed : Closing → Tail → Prop) (k : Worker L) : Action → Prop
  | .enqueue req => req.cancelAfter ≠ none → allowed .cancelled .quiet
  | .check => k.running = false → allowed .silent .quiet
  | .pop => k.running = false → allowed .silent .quiet
  | .fuse first second => (first ≠ 0 → allowed .failed .quiet) ∧
      (first = 0 ∨ first = 1 ∧ second = 0 → ∀ seq ∈ k.slots.active, seq.req.cancelAfter ≠ some 0 →
        seq.polled.Tolerates b (contract b allowed k.arrivals))
  | _ => True

variable {allowed : Closing → Tail → Prop} {k k' : Worker L}

/-- The first state has nobody to serve. -/
theorem init_serves (config : Config) (order : ChildOrder) :
    (Worker.init config order : Worker L).Serves b allowed := by
  refine ⟨List.nodup_nil, fun r hr => absurd hr List.not_mem_nil, fun id hid => ?_, fun _ _ => rfl⟩
  exact absurd hid (Nat.not_lt_zero id)

/-- At the exit of the loop all that are left go silently. -/
theorem exit_serves (hsilent : allowed .silent .quiet) (h : k.Serves b allowed)
    (hwaiting : k.waiting = k.queue) :
    k.exit.Serves b allowed := by
  have hleft {es : List Event} {req : InferenceRequest}
      (hopen : req.Open (contract b allowed k.arrivals) es)
      (hgiven : delivered es <+: (contract b allowed k.arrivals).generated req.id) :
      (contract b allowed k.arrivals).Left req.id (es ++ []) := by
    rw [List.append_nil]
    exact ⟨_, _, hsilent, .silent es hopen.opened hgiven⟩
  rw [Serves, Slots.records, List.append_assoc] at h
  have hactive := failAll_ledger
    (fun seq w (h : seq.Serves b (contract b allowed k.arrivals) (w.eventsOf seq.req.id)) =>
    .leave (retire_adds_nothing seq w _) (hleft h.toOpen h.given)) h
  have hprefilling := failAll_ledger
    (fun ctx w (h : ctx.Serves b (contract b allowed k.arrivals) (w.eventsOf ctx.req.id)) =>
    .leave (abandon_adds_nothing ctx w _) (hleft h.toOpen h.given)) hactive
  rw [hwaiting] at hprefilling
  exact hprefilling.perm (by simp [exit, Slots.records, waiting])

/-- A new request waits; the others do as before. -/
theorem enqueue_serves {req : InferenceRequest}
    (hcancel : req.cancelAfter ≠ none → allowed .cancelled .quiet) (h : k.Serves b allowed)
    (hstep : k.step b (.enqueue req) = some k') : k'.Serves b allowed := by
  cases hstep
  generalize hnew : ({ req with id := k.arrivals.length, onCancel := true } : InferenceRequest) =
    new
  have hid : new.id = k.arrivals.length := hnew ▸ rfl
  have hgenerated (id : ℕ) (hlt : id < k.arrivals.length) :
      (contract b allowed (k.arrivals ++ [new])).generated id =
        (contract b allowed k.arrivals).generated id := by
    simp only [contract, List.getElem?_append_left hlt]
  have hopen {r : InferenceRequest} {es : List Event}
      (h : r.Open (contract b allowed k.arrivals) es) :
      r.Open (contract b allowed (k.arrivals ++ [new])) es := ⟨h.installed, h.opened, h.cancellable⟩
  have hwaits : new.Waits b (contract b allowed (k.arrivals ++ [new])) [] := by
    refine ⟨⟨hnew ▸ rfl, fun e he => absurd he List.not_mem_nil,
      fun hne => hcancel (by rw [← hnew] at hne; exact hne)⟩, rfl, ?_⟩
    simp [contract, hid]
  have harrived := h.arrive (contract b allowed (k.arrivals ++ [new]))
    (new.record b (contract b allowed (k.arrivals ++ [new])))
    (k.slots.records b (contract b allowed (k.arrivals ++ [new])) ++
      k.waiting.map (InferenceRequest.record b (contract b allowed (k.arrivals ++ [new]))))
    (by simp [contract]) rfl hgenerated hid hwaits
      (by simp [Slots.records, Function.comp_def, ActiveSeq.record, PrefillCtx.record,
        InferenceRequest.record]) ?_
  · refine harrived.perm ?_
    simp only [waiting, List.map_append, List.append_assoc, List.map_singleton]
    exact List.Perm.append_left _ (List.Perm.append_left _ List.perm_append_comm)
  · intro r hr
    rcases List.mem_append.mp hr with hr | hr
    · rcases List.mem_append.mp hr with hr | hr
      · obtain ⟨seq, hseq, rfl⟩ := List.mem_map.mp hr
        refine ⟨seq.record b (contract b allowed k.arrivals),
          List.mem_append_left _ (List.mem_append_left _ (List.mem_map_of_mem hseq)),
          rfl, fun es hlt h => ?_⟩
        exact ⟨hopen h.toOpen, h.going, h.unnoticed, h.budget,
          (hgenerated _ hlt).symm ▸ h.generates⟩
      · obtain ⟨ctx, hctx, rfl⟩ := List.mem_map.mp hr
        refine ⟨ctx.record b (contract b allowed k.arrivals),
          List.mem_append_left _ (List.mem_append_right _ (List.mem_map_of_mem hctx)),
          rfl, fun es hlt h => ?_⟩
        exact ⟨hopen h.toOpen, h.nothing, (hgenerated _ hlt).symm ▸ h.generates⟩
    · obtain ⟨old, hold, rfl⟩ := List.mem_map.mp hr
      refine ⟨old.record b (contract b allowed k.arrivals),
        List.mem_append_right _ (List.mem_map_of_mem hold), rfl,
        fun es hlt h => ?_⟩
      exact ⟨hopen h.toOpen, h.nothing, (hgenerated _ hlt).symm ▸ h.generates⟩

/-- Every step of the worker and of the threads around it. -/
theorem step_serves (hfair : allowed .completed .quiet ∧ allowed .rejected .quiet) {action : Action}
    (hfollows : k.Follows config order) (hadmits : k.Admits b allowed action)
    (h : k.Serves b allowed) (hstep : k.step b action = some k') : k'.Serves b allowed := by
  cases step_moves hstep with
  | enqueue req => exact enqueue_serves hadmits h hstep
  | stop => exact h
  | enter hphase =>
    rw [Serves, waiting_of_head hphase] at h
    exact h.perm (by simp [waiting])
  | leave hphase hstopped => exact exit_serves (hadmits hstopped) h (waiting_of_head hphase)
  | leaveEmpty hphase hempty hstopped =>
    exact exit_serves (hadmits hstopped) h (waiting_of_running hphase)
  | pop hphase =>
    rw [Serves, waiting_of_running hphase] at h
    refine h.perm (List.Perm.append_left _ (List.Perm.map _ ?_))
    exact (List.perm_append_comm.trans (List.Perm.of_eq (List.take_append_drop _ _))).symm
  | @prepare pending hphase =>
    rw [Serves, waiting_of_admitted hphase, List.map_append] at h
    have hprepared := prepareAll_ledger ⟨hfair.1, hfair.2⟩ pending hfollows.tracked
      (h.perm ((List.Perm.of_eq (List.append_assoc _ _ _).symm).trans List.perm_append_comm))
    refine hprepared.perm ?_
    simp only [Batch.records, Slots.records, waiting, Worker.prepare, List.map_append]
    exact perm_admission _ _ _ _ _
  | requeue hphase =>
    rw [Serves, waiting_of_prepared hphase] at h
    refine h.perm (List.Perm.append_left _ ?_)
    simp only [waiting, deferToFront, List.append_nil, List.map_append]
    exact List.perm_append_comm
  | fuse first second hphase =>
    rw [Serves, waiting_of_requeued hphase] at h
    have hfused := fusedStep_ledger ⟨hfair.1, hfair.2⟩ first second hadmits.1 hadmits.2
      hfollows.fit hfollows.tracked h
    exact hfused.perm (by simp [waiting, fuse])

/-- The ledger is kept by every run whose steps lead to allowed departures only. -/
theorem run_serves (allowed : Closing → Tail → Prop)
    (hfair : allowed .completed .quiet ∧ allowed .rejected .quiet) {actions : List Action}
    (hadmits : RunsWithin (step b) (fun k action => k.Admits b allowed action)
      (Worker.init config order : Worker L) actions)
    (hrun : (Worker.init config order : Worker L).Run b actions k) : k.Serves b allowed :=
  (run_invariant_within (P := fun k => k.Follows config order ∧ k.Serves b allowed)
    (fun _ _ _ hk hadmits hstep =>
      ⟨step_follows hk.1 hstep, step_serves hfair hk.1 hadmits hk.2 hstep⟩)
    ⟨init_follows config order, init_serves config order⟩ hadmits hrun).2

end Worker

end RadixForge
