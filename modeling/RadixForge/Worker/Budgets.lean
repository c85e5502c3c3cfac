import RadixForge.Worker.Following

/-!
# The budget of a sequence

Admission clamps `max_tokens` to the room that the prompt leaves in the context window. From then on
the position of a sequence and what remains of its budget stay below the window together, so no
position of a batch comes near its end.
-/

namespace RadixForge

open Library

variable {L : Type} {b : Bridge L} {config : Config} {order : ChildOrder}

/-- A prefill is a part of its prompt, which fits the context window with its budget. -/
structure PrefillCtx.Budgeted (b : Bridge L) (ctx : PrefillCtx) : Prop where
  total : ctx.prep.cachedPos + ctx.prep.delta.length = ctx.tokens.length
  room : ctx.tokens.length + max 1 ctx.req.maxTokens ≤ b.nCtx - 4

/-- An active sequence has a budget, and reaches its end inside the context window. -/
structure ActiveSeq.Budgeted (b : Bridge L) (seq : ActiveSeq L) : Prop where
  positive : 1 ≤ seq.remaining
  room : seq.pos + seq.remaining < b.nCtx - 4

/-- The budgets of the two lists. -/
structure Slots.Budgeted (b : Bridge L) (slots : Slots L) : Prop where
  active : ∀ seq ∈ slots.active, seq.Budgeted b
  prefilling : ∀ ctx ∈ slots.prefilling, ctx.Budgeted b

/-- Empty slots are within their budgets. -/
theorem Slots.Budgeted.empty (b : Bridge L) : ({} : Slots L).Budgeted b :=
  ⟨fun _ hseq => absurd hseq List.not_mem_nil, fun _ hctx => absurd hctx List.not_mem_nil⟩

/-- A poll leaves the budget. -/
@[simp] theorem isCancelled_maxTokens (req : InferenceRequest) (w : World) :
    (isCancelled req w).2.1.maxTokens = req.maxTokens := by
  unfold isCancelled
  split
  · simp only
    split <;> rfl
  all_goals rfl

section Visits

/-- A sequence that is polled stays within its budget. -/
theorem pollActive_budgeted (seq : ActiveSeq L) (w : World) (h : seq.Budgeted b) :
    ∀ s ∈ (pollActive seq w).1, s.Budgeted b := by
  intro s hs
  cases hs
  exact ⟨h.positive, h.room⟩

/-- A sequence that is not dropped stays within its budget. -/
theorem dropCancelled_budgeted (seq : ActiveSeq L) (w : World) (h : seq.Budgeted b) :
    ∀ s ∈ (dropCancelled seq w).1, s.Budgeted b := by
  intro s hs
  unfold dropCancelled at hs
  split at hs
  · exact absurd hs (Option.not_mem_none s)
  · cases hs
    exact h

/-- A prefill that is not dropped stays within its budget. -/
theorem dropAbandoned_budgeted (ctx : PrefillCtx) (w : World) (h : ctx.Budgeted b) :
    ∀ c ∈ (dropAbandoned ctx w).1, c.Budgeted b := by
  intro c hc
  have hmax := isCancelled_maxTokens ctx.req w
  unfold dropAbandoned at hc
  generalize isCancelled ctx.req w = polled at hmax hc
  obtain ⟨cancelled, req, w'⟩ := polled
  cases cancelled with
  | true => exact absurd hc (Option.not_mem_none c)
  | false =>
    cases hc
    exact ⟨h.total, hmax.symm ▸ h.room⟩

/-- A chunk that is finished leaves its prefill within its budget. -/
theorem finishChunk_budgeted (p : PrefillCtx × Option PromptSubmission) (w : World)
    (h : p.1.Budgeted b) :
    ∀ q ∈ (finishChunk p w).1, q.1.Budgeted b := by
  obtain ⟨ctx, submission⟩ := p
  intro q hq
  cases submission with
  | none =>
    cases hq
    exact h
  | some submission =>
    simp only [finishChunk] at hq
    split at hq
    all_goals
      cases hq
      exact ⟨h.total, h.room⟩

/-- A sequence that goes on has spent one token of its budget for one position. -/
theorem advanceSeq_budgeted (outputs : List (Option L)) (p : ℕ × ActiveSeq L) (w : World)
    (h : p.2.Budgeted b) :
    ∀ s ∈ (advanceSeq b outputs p w).1, s.done = false → s.Budgeted b := by
  obtain ⟨row, seq⟩ := p
  obtain ⟨hpositive, hroom⟩ := h
  have hdone {s : ActiveSeq L} (hs : s.done = true) : ∀ t ∈ some s, t.done = false →
      t.Budgeted b := by
    intro t ht hfalse
    cases ht
    exact absurd (hs.symm.trans hfalse) Bool.noConfusion
  simp only [advanceSeq]
  split
  · exact hdone rfl
  · generalize isCancelled seq.req (w.call (.setCellCount seq.seqId (seq.pos + 1))) = polled
    obtain ⟨cancelled, req, w₁⟩ := polled
    simp only
    split
    · exact hdone rfl
    · rename_i hlast
      generalize isCancelled req _ = polled
      obtain ⟨cancelled', req', w₂⟩ := polled
      simp only
      split
      · exact hdone rfl
      · intro s hs _
        cases hs
        have hleft : seq.remaining - 1 ≠ 0 := by simpa using hlast
        simp only at hpositive hroom
        refine ⟨?_, ?_⟩
        · show 1 ≤ seq.remaining - 1
          omega
        · show ((seq.pos + 1 : ℕ) : ℤ) + (seq.remaining - 1) < b.nCtx - 4
          push_cast
          omega

/-- A sequence that is not retired is within its budget. -/
theorem retireDone_budgeted (seq : ActiveSeq L) (w : World)
    (h : seq.done = false → seq.Budgeted b) :
    ∀ s ∈ (retireDone seq w).1, s.Budgeted b := by
  intro s hs
  unfold retireDone at hs
  split at hs
  · exact absurd hs (Option.not_mem_none s)
  · rename_i hdone
    cases hs
    exact h (Bool.eq_false_iff.mpr hdone)

/-- A prompt that is finished leaves room for what remains of the budget after its first token. -/
theorem beginGeneration_budgeted (outputs : List (Option L)) (ctx : PrefillCtx) (row : ℕ)
    (w : World) (h : ctx.Budgeted b) :
    ∀ s ∈ (beginGeneration b outputs ctx row w).1, s.Budgeted b := by
  intro s hs
  have hmax := isCancelled_maxTokens ctx.req w
  unfold beginGeneration at hs
  generalize isCancelled ctx.req w = polled at hmax hs
  obtain ⟨cancelled, req, w'⟩ := polled
  simp only at hmax hs
  split at hs
  · exact absurd hs (Option.not_mem_none s)
  · split at hs
    · exact absurd hs (Option.not_mem_none s)
    · split at hs
      · exact absurd hs (Option.not_mem_none s)
      · rename_i hlast
        cases hs
        obtain ⟨htotal, hroom⟩ := h
        simp only [decide_eq_true_eq, not_le] at hlast
        rw [← hmax, max_eq_right (by omega)] at hroom
        refine ⟨?_, ?_⟩
        · show 1 ≤ req.maxTokens - 1
          omega
        · show ((ctx.prep.cachedPos + ctx.prep.delta.length : ℕ) : ℤ) + (req.maxTokens - 1) <
            b.nCtx - 4
          rw [htotal]
          omega

/-- A prefill that goes on, and a sequence that begins, is within its budget. -/
theorem finishPrefill_budgeted (outputs : List (Option L)) (q : PrefillCtx × Option ℕ) (w : World)
    (h : q.1.Budgeted b) :
    ∀ r ∈ (finishPrefill b outputs q w).1, Sum.elim (PrefillCtx.Budgeted b)
      (ActiveSeq.Budgeted b) r := by
  obtain ⟨ctx, row⟩ := q
  intro r hr
  cases row with
  | none =>
    cases hr
    exact h
  | some row =>
    obtain ⟨seq, hseq, rfl⟩ := Option.map_eq_some_iff.mp hr
    exact beginGeneration_budgeted outputs ctx row w h seq hseq

end Visits

namespace Slots.Budgeted

variable {slots : Slots L}

/-- Dropping what is cancelled keeps the budgets. -/
theorem dropAllCancelled (h : slots.Budgeted b) (w : World) :
    (dropAllCancelled slots w).1.Budgeted b where
  active := pass_forall dropCancelled_budgeted _ (pass_forall pollActive_budgeted _ h.active w) _
  prefilling := pass_forall dropAbandoned_budgeted _ h.prefilling _

/-- Failing the newest prefills keeps the budgets. -/
theorem failNewest (h : slots.Budgeted b) (w : World) : (failNewest slots w).1.Budgeted b := by
  unfold RadixForge.failNewest
  split
  · exact ⟨fun seq hseq => h.active seq (List.mem_of_mem_dropLast hseq), h.prefilling⟩
  · split
    · exact ⟨h.active, fun ctx hctx => h.prefilling ctx (List.mem_of_mem_dropLast hctx)⟩
    · exact h

/-- The last part of a fused step keeps the budgets. -/
theorem advanceAll (h : slots.Budgeted b) (submissions : List (Option PromptSubmission))
    (outputs : List (Option L)) (w : World) :
    (advanceAll b submissions outputs slots w).1.Budgeted b := by
  have hchunks := pass_forall (finishChunk_budgeted (b := b)) (slots.prefilling.zip submissions)
    (fun p hp => h.prefilling p.1 (List.of_mem_zip hp).1) w
  simp only [RadixForge.advanceAll]
  generalize pass finishChunk (slots.prefilling.zip submissions) w = marked at hchunks ⊢
  obtain ⟨chunks, w₁⟩ := marked
  have hadvanced := pass_forall (advanceSeq_budgeted (b := b) outputs)
    ((List.range slots.active.length).zip slots.active)
    (fun p hp => h.active p.2 (List.of_mem_zip hp).2) w₁
  generalize pass (advanceSeq b outputs) ((List.range slots.active.length).zip slots.active) w₁ =
    advanced at hadvanced ⊢
  obtain ⟨seqs, w₂⟩ := advanced
  have hretired := pass_forall retireDone_budgeted _ hadvanced w₂
  simp only at hchunks ⊢
  generalize pass retireDone seqs w₂ = retired at hretired ⊢
  obtain ⟨kept, w₃⟩ := retired
  have hfinished := pass_forall (finishPrefill_budgeted outputs) _ hchunks w₃
  simp only at hretired ⊢
  generalize pass (finishPrefill b outputs) chunks w₃ = finished at hfinished ⊢
  obtain ⟨results, w₄⟩ := finished
  refine ⟨fun seq hseq => ?_, fun ctx hctx => ?_⟩
  · rcases List.mem_append.mp hseq with hkept | hnew
    · exact hretired seq hkept
    · obtain ⟨r, hr, hright⟩ := List.mem_filterMap.mp hnew
      obtain rfl := Sum.getRight?_eq_some_iff.mp hright
      exact hfinished _ hr
  · obtain ⟨r, hr, hleft⟩ := List.mem_filterMap.mp hctx
    obtain rfl := Sum.getLeft?_eq_some_iff.mp hleft
    exact hfinished _ hr

/-- A fused step keeps the budgets. -/
theorem fusedStep (h : slots.Budgeted b) (first second : ℤ) (w : World) :
    (fusedStep b first second slots w).1.Budgeted b := by
  have hdropped := h.dropAllCancelled w
  unfold RadixForge.fusedStep
  generalize RadixForge.dropAllCancelled slots w = dropped at hdropped ⊢
  obtain ⟨slots', w'⟩ := dropped
  simp only at hdropped ⊢
  generalize buildBatch b slots' = plan
  obtain ⟨rows, submissions⟩ := plan
  simp only
  split
  · exact hdropped
  · generalize decodeBatch b rows first second w' = decoded
    obtain ⟨status, outputs, w''⟩ := decoded
    simp only
    split
    · exact hdropped.failNewest w''
    · split
      · exact Slots.Budgeted.empty b
      · exact hdropped.advanceAll submissions outputs w''

end Slots.Budgeted

/-- A prepared request fits the context window. -/
theorem prepareOne_budgeted (req : InferenceRequest) (w : World) :
    ∀ ctx ∈ (prepareOne b req w).1.prefill, ctx.Budgeted b := by
  have hnone : ∀ ctx ∈ (none : Option PrefillCtx), ctx.Budgeted b :=
    fun ctx hctx => absurd hctx (Option.not_mem_none ctx)
  unfold prepareOne
  simp only
  split
  · exact hnone
  · rename_i havailable
    split
    · exact hnone
    · simp only [World.prepareSequence]
      cases hresult : (w.mapper.prepareSequence (b.promptTokens req)).2 with
      | error e => exact hnone
      | ok prep =>
        have hdelta := KVMapper.prepareSequence_delta hresult
        by_cases hempty : prep.delta = []
        · simp only [if_pos hempty]
          exact hnone
        · simp only [if_neg hempty]
          intro ctx hctx
          cases hctx
          have hlength : 0 < prep.delta.length := List.length_pos_iff.mpr hempty
          rw [hdelta, List.length_drop] at hlength
          refine ⟨?_, ?_⟩
          · show prep.cachedPos + prep.delta.length = (b.promptTokens req).length
            rw [hdelta, List.length_drop]
            omega
          · have hclamped : (req.clamp (b.available req)).maxTokens ≤ b.available req := by
              unfold InferenceRequest.clamp
              split
              · exact le_rfl
              · omega
            have hroom : max 1 (req.clamp (b.available req)).maxTokens ≤ b.available req :=
              max_le (by omega) hclamped
            show ((b.promptTokens req).length : ℤ) + max 1 (req.clamp (b.available req)).maxTokens ≤
              b.nCtx - 4
            have havailable : b.available req = b.nCtx - (b.promptTokens req).length - 4 := rfl
            omega

/-- The prefills of a batch fit the context window. -/
theorem prepareAll_budgeted (reqs : List InferenceRequest) (w : World) :
    ∀ ctx ∈ (prepareAll b reqs w).1.ctxs, ctx.Budgeted b := by
  induction reqs generalizing w with
  | nil => exact fun ctx hctx => absurd hctx List.not_mem_nil
  | cons req rest ih =>
    unfold prepareAll
    generalize isCancelled req w = polled
    obtain ⟨cancelled, req', w₁⟩ := polled
    simp only
    split
    · exact ih w₁
    · have hone := prepareOne_budgeted (b := b) req' w₁
      generalize prepareOne b req' w₁ = outcome at hone ⊢
      obtain ⟨preparation, w₂⟩ := outcome
      cases preparation with
      | rejected => exact ih w₂
      | deferred r => exact ih w₂
      | exhausted r => exact fun ctx hctx => absurd hctx List.not_mem_nil
      | prepared ctx =>
        intro c hc
        rcases List.mem_cons.mp hc with rfl | hc
        · exact hone c rfl
        · exact ih w₂ c hc

namespace Worker

variable {k k' : Worker L}

/-- Every step keeps the budgets. -/
theorem step_budgeted {action : Action} (h : k.slots.Budgeted b)
    (hstep : k.step b action = some k') :
    k'.slots.Budgeted b := by
  cases step_moves hstep with
  | enqueue | stop | enter | pop | requeue => exact h
  | leave | leaveEmpty => exact Slots.Budgeted.empty b
  | @prepare pending hphase =>
    refine ⟨h.active, fun ctx hctx => ?_⟩
    rcases List.mem_append.mp hctx with hctx | hctx
    · exact h.prefilling ctx hctx
    · exact prepareAll_budgeted pending k.world ctx hctx
  | fuse first second hphase => exact h.fusedStep first second k.world

/-- The budgets hold in every run. -/
theorem run_budgeted {actions : List Action}
    (hrun : (Worker.init config order : Worker L).Run b actions k) :
    k.slots.Budgeted b :=
  run_invariant (fun _ _ _ hk hstep => step_budgeted hk hstep) (Slots.Budgeted.empty b) hrun

end Worker

section Positions

/-- The rows of a prompt chunk are at positions of the prompt. -/
theorem PrefillCtx.Budgeted.rows {ctx : PrefillCtx} (h : ctx.Budgeted b) (take : ℕ) :
    ∀ row ∈ ctx.rows take, (row.pos : ℤ) < b.nCtx - 4 := by
  intro row hrow
  obtain ⟨⟨token, index⟩, hindex, rfl⟩ := List.mem_map.mp hrow
  have hfrom := List.le_snd_of_mem_zipIdx hindex
  have hbound := List.snd_lt_add_of_mem_zipIdx hindex
  simp only [List.length_take, List.length_drop] at hfrom hbound
  have htotal := h.total
  have hroom := h.room
  have hone := le_max_left 1 ctx.req.maxTokens
  simp only
  push_cast
  omega

/-- No row of a prompt lies beyond the context. -/
theorem submitPrompts_positions (capacity promptTokens batchIdx : ℕ) {ctxs : List PrefillCtx}
    (h : ∀ ctx ∈ ctxs, ctx.Budgeted b) :
    ∀ row ∈ (submitPrompts capacity promptTokens batchIdx ctxs).1, (row.pos : ℤ) < b.nCtx - 4 := by
  induction ctxs generalizing promptTokens batchIdx with
  | nil => exact fun row hrow => absurd hrow List.not_mem_nil
  | cons ctx rest ih =>
    have hrest := fun c hc => h c (List.mem_cons_of_mem _ hc)
    unfold submitPrompts
    simp only
    split
    · exact ih promptTokens batchIdx hrest
    · intro row hrow
      rcases List.mem_append.mp hrow with hrow | hrow
      · exact (h ctx List.mem_cons_self).rows _ row hrow
      · exact ih _ _ hrest row hrow

/-- The positions of a batch stay inside the context window. -/
theorem Slots.Budgeted.positions {slots : Slots L} (h : slots.Budgeted b) :
    ∀ row ∈ (buildBatch b slots).1, (row.pos : ℤ) < b.nCtx - 4 := by
  intro row hrow
  rcases List.mem_append.mp hrow with hrow | hrow
  · obtain ⟨seq, hseq, rfl⟩ := List.mem_map.mp hrow
    obtain ⟨hpositive, hroom⟩ := h.active seq hseq
    simp only [ActiveSeq.row]
    omega
  · exact submitPrompts_positions _ _ _ h.prefilling row hrow

/-- In every run the batch of a fused step has its positions inside the context window, and the
cached tokens of an active sequence end at its position. -/
theorem positions_inside_context (b : Bridge L) (config : Config) (order : ChildOrder)
    (actions : List Action) (k : Worker L)
    (hrun : (Worker.init config order : Worker L).Run b actions k) :
    (∀ row ∈ (buildBatch b (dropAllCancelled k.slots k.world).1).1, (row.pos : ℤ) < b.nCtx - 4) ∧
      ∀ seq ∈ k.slots.active, seq.cachedTokens.length = seq.pos := by
  refine ⟨((Worker.run_budgeted hrun).dropAllCancelled k.world).positions, fun seq hseq => ?_⟩
  have hrunning := (Worker.run_follows hrun).fit.active seq hseq
  exact (hrunning.1.pos hrunning.2).symm

/-- A prompt of two tokens, decoded and continued by two tokens. -/
theorem positions_inside_context_two : ∃ k,
    (Worker.init ⟨4, 64, true⟩ .stored).Run (Bridge.counting (fun _ => [5, 6]) 9)
      (.enqueue {} :: Worker.iteration 0 0 ++ Worker.iteration 0 0) k ∧
      k.slots.active.map ActiveSeq.pos = [3] ∧
      ∀ seq ∈ k.slots.active, seq.cachedTokens.length = seq.pos := by
  have hrun : (run (Worker.step (Bridge.counting (fun _ => [5, 6]) 9))
      (Worker.init ⟨4, 64, true⟩ .stored)
      (.enqueue {} :: Worker.iteration 0 0 ++ Worker.iteration 0 0)).any
        (fun k => k.slots.active.map ActiveSeq.pos = [3]) = true := by
    decide +kernel
  obtain ⟨k, hk, hcond⟩ := (Option.any_eq_true _ _).mp hrun
  exact ⟨k, hk, of_decide_eq_true hcond, (positions_inside_context _ _ _ _ k hk).2⟩

end Positions

end RadixForge
