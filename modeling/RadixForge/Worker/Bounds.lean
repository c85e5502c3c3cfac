import RadixForge.Worker.Following

/-!
# Bounds of the batch and of admission

A batch never has more rows than `n_batch`: the prompt chunks share what the active sequences leave
of it, and a prompt that finishes has a row of its own in the batch, so the active sequences of the
next step fit again. Admission keeps one sequence id of the model free.
-/

namespace RadixForge

open Library

variable {L : Type} {b : Bridge L} {config : Config} {order : ChildOrder}

section Rows

/-- There is one row for each token that is taken. -/
theorem PrefillCtx.rows_length (ctx : PrefillCtx) (take : ℕ)
    (h : ctx.deltaStart + take ≤ ctx.prep.delta.length) :
    (ctx.rows take).length = take := by
  simp only [rows, List.length_map, List.length_zipIdx, List.length_take, List.length_drop]
  omega

/-- The chunks fit into what is left of the batch, and each submission has a row. -/
theorem submitPrompts_length (capacity promptTokens batchIdx : ℕ) (ctxs : List PrefillCtx) :
    (submitPrompts capacity promptTokens batchIdx ctxs).1.length ≤ capacity - promptTokens ∧
      (submitPrompts capacity promptTokens batchIdx ctxs).2.countP Option.isSome ≤
        (submitPrompts capacity promptTokens batchIdx ctxs).1.length := by
  induction ctxs generalizing promptTokens batchIdx with
  | nil => exact ⟨Nat.zero_le _, le_rfl⟩
  | cons ctx rest ih =>
    unfold submitPrompts
    simp only
    split
    · obtain ⟨hlength, hcount⟩ := ih promptTokens batchIdx
      exact ⟨hlength, by simpa using hcount⟩
    · rename_i hroom
      rw [not_or, not_le] at hroom
      generalize htake : min (ctx.prep.delta.length - ctx.deltaStart) (capacity - promptTokens) =
        take
      obtain ⟨hlength, hcount⟩ := ih (promptTokens + take) (batchIdx + take)
      have hrows := ctx.rows_length take (by omega)
      simp only [List.length_append, hrows, List.countP_cons, Option.isSome_some, if_true]
      omega

/-- A row as a place in the memory. -/
def Row.place (row : Row) : SeqId × ℕ := (row.seqId, row.pos)

/-- The rows of one prompt are at different positions of its sequence. -/
theorem PrefillCtx.rows_places (ctx : PrefillCtx) (take : ℕ) :
    ((ctx.rows take).map Row.place).Nodup ∧ ∀ row ∈ ctx.rows take, row.seqId = ctx.prep.seqId := by
  generalize htokens : (ctx.prep.delta.drop ctx.deltaStart).take take = tokens
  have hplaces : (ctx.rows take).map Row.place =
      (List.range' ctx.deltaStart tokens.length).map fun i =>
        (ctx.prep.seqId, ctx.prep.cachedPos + i) := by
    rw [← List.zipIdx_map_snd ctx.deltaStart tokens]
    simp only [rows, htokens, List.map_map]
    rfl
  refine ⟨?_, fun row hrow => ?_⟩
  · rw [hplaces]
    refine List.Nodup.map (fun i j hij => ?_) List.nodup_range'
    have hpos := (Prod.mk.inj hij).2
    omega
  · obtain ⟨p, _, rfl⟩ := List.mem_map.mp hrow
    rfl

/-- The rows of the prompts are at different places if their sequences are different. -/
theorem submitPrompts_places (capacity promptTokens batchIdx : ℕ) {ctxs : List PrefillCtx}
    (hnodup : (ctxs.map fun ctx => ctx.prep.seqId).Nodup) :
    ((submitPrompts capacity promptTokens batchIdx ctxs).1.map Row.place).Nodup ∧
      ∀ row ∈ (submitPrompts capacity promptTokens batchIdx ctxs).1, row.seqId ∈ ctxs.map fun ctx =>
        ctx.prep.seqId := by
  induction ctxs generalizing promptTokens batchIdx with
  | nil => exact ⟨List.nodup_nil, fun row hrow => absurd hrow List.not_mem_nil⟩
  | cons ctx rest ih =>
    obtain ⟨hnew, hrest⟩ := List.nodup_cons.mp hnodup
    unfold submitPrompts
    simp only
    split
    · obtain ⟨hplaces, hids⟩ := ih promptTokens batchIdx hrest
      exact ⟨hplaces, fun row hrow => List.mem_cons_of_mem _ (hids row hrow)⟩
    · generalize min (ctx.prep.delta.length - ctx.deltaStart) (capacity - promptTokens) = take
      obtain ⟨hplaces, hids⟩ := ih (promptTokens + take) (batchIdx + take) hrest
      obtain ⟨hown, hownIds⟩ := ctx.rows_places take
      refine ⟨?_, fun row hrow => ?_⟩
      · rw [List.map_append, List.nodup_append]
        refine ⟨hown, hplaces, fun p hp q hq heq => ?_⟩
        obtain ⟨row, hrow, rfl⟩ := List.mem_map.mp hp
        obtain ⟨row', hrow', rfl⟩ := List.mem_map.mp hq
        have hsame : row.seqId = row'.seqId := congrArg Prod.fst heq
        rw [hownIds row hrow] at hsame
        have hmem : ctx.prep.seqId ∈ rest.map fun ctx => ctx.prep.seqId := by
          rw [hsame]
          exact hids row' hrow'
        exact hnew hmem
      · rcases List.mem_append.mp hrow with hrow | hrow
        · exact hownIds row hrow ▸ List.mem_cons_self
        · exact List.mem_cons_of_mem _ (hids row hrow)

/-- The sequence ids of the two lists. -/
def Slots.seqIds (slots : Slots L) : List SeqId :=
  slots.active.map ActiveSeq.seqId ++ slots.prefilling.map fun ctx => ctx.prep.seqId

/-- No two rows of a batch are at the same place. -/
theorem buildBatch_places {slots : Slots L} (hnodup : slots.seqIds.Nodup) :
    ((buildBatch b slots).1.map Row.place).Nodup := by
  obtain ⟨hactive, hprefilling, hdisjoint⟩ := List.nodup_append.mp hnodup
  obtain ⟨hplaces, hids⟩ :=
    submitPrompts_places (b.nBatch - slots.active.length) 0 slots.active.length hprefilling
  simp only [buildBatch, List.map_append]
  refine List.nodup_append.mpr ⟨?_, hplaces, fun p hp q hq heq => ?_⟩
  · refine List.Nodup.of_map Prod.fst ?_
    rw [List.map_map, List.map_map]
    exact hactive
  · obtain ⟨row, hrow, rfl⟩ := List.mem_map.mp hp
    obtain ⟨seq, hseq, rfl⟩ := List.mem_map.mp hrow
    obtain ⟨row', hrow', rfl⟩ := List.mem_map.mp hq
    have hsame : seq.seqId = row'.seqId := congrArg Prod.fst heq
    exact hdisjoint _ (List.mem_map_of_mem hseq) _ (hids row' hrow') hsame

/-- A batch has at most `n_batch` rows if the active sequences fit. -/
theorem buildBatch_length {slots : Slots L} (hactive : slots.active.length ≤ b.nBatch) :
    (buildBatch b slots).1.length ≤ b.nBatch ∧
      slots.active.length + (buildBatch b slots).2.countP Option.isSome ≤
        (buildBatch b slots).1.length := by
  obtain ⟨hlength, hcount⟩ :=
    submitPrompts_length (b.nBatch - slots.active.length) 0 slots.active.length slots.prefilling
  simp only [buildBatch, List.length_append, List.length_map]
  omega

end Rows

section Sizes

variable {slots : Slots L} {w : World}

/-- Dropping what is cancelled only makes the slots fewer. -/
theorem dropAllCancelled_length (slots : Slots L) (w : World) :
    (dropAllCancelled slots w).1.active.length ≤ slots.active.length ∧
      (dropAllCancelled slots w).1.prefilling.length ≤ slots.prefilling.length :=
  ⟨(pass_length_le _ _ _).trans (pass_length_le _ _ _), pass_length_le _ _ _⟩

/-- Failing the newest prefills only makes the slots fewer. -/
theorem failNewest_length (slots : Slots L) (w : World) :
    (failNewest slots w).1.active.length ≤ slots.active.length ∧
      (failNewest slots w).1.prefilling.length ≤ slots.prefilling.length := by
  unfold failNewest
  split
  · exact ⟨by simp, le_rfl⟩
  · split
    · exact ⟨le_rfl, by simp⟩
    · exact ⟨le_rfl, le_rfl⟩

/-- The two kinds of results are all results. -/
theorem length_results {α β : Type} (results : List (α ⊕ β)) :
    (results.filterMap Sum.getRight?).length = results.countP Sum.isRight ∧
      (results.filterMap Sum.getRight?).length + (results.filterMap Sum.getLeft?).length =
        results.length := by
  induction results with
  | nil => exact ⟨rfl, rfl⟩
  | cons r rest ih =>
    obtain ⟨hright, htotal⟩ := ih
    cases r with
    | inl a =>
      simp only [List.filterMap_cons, Sum.getRight?_inl, Sum.getLeft?_inl,
        List.length_cons, List.countP_cons, Sum.isRight_inl, Bool.false_eq_true, if_false]
      omega
    | inr c =>
      simp only [List.filterMap_cons, Sum.getRight?_inr, Sum.getLeft?_inr,
        List.length_cons, List.countP_cons, Sum.isRight_inr, if_true]
      omega

/-- Pairing submissions with their prefills adds none. -/
theorem countP_zip_le (ctxs : List PrefillCtx) (submissions : List (Option PromptSubmission)) :
    (ctxs.zip submissions).countP (fun p => p.2.isSome) ≤ submissions.countP Option.isSome := by
  induction ctxs generalizing submissions with
  | nil => exact Nat.zero_le _
  | cons ctx rest ih =>
    cases submissions with
    | nil => exact Nat.zero_le _
    | cons submission submissions =>
      rw [List.zip_cons_cons, List.countP_cons, List.countP_cons]
      exact Nat.add_le_add_right (ih submissions) _

/-- After a successful decode nothing is added, and only prompts with a submission become active. -/
theorem advanceAll_length (submissions : List (Option PromptSubmission)) (outputs : List (Option L))
    (slots : Slots L) (w : World) :
    (advanceAll b submissions outputs slots w).1.active.length ≤
      slots.active.length + submissions.countP Option.isSome ∧
      (advanceAll b submissions outputs slots w).1.active.length +
        (advanceAll b submissions outputs slots w).1.prefilling.length ≤
          slots.active.length + slots.prefilling.length ∧
      (advanceAll b submissions outputs slots w).1.prefilling.length ≤ slots.prefilling.length := by
  have hchunk : ∀ (p : PrefillCtx × Option PromptSubmission) (w : World), ∀ q ∈ (finishChunk p w).1,
      q.2.isSome = true → p.2.isSome = true := by
    rintro ⟨ctx, _ | submission⟩ w q hq hsome
    · cases hq
      exact hsome
    · rfl
  have hprefill : ∀ (q : PrefillCtx × Option ℕ) (w : World), ∀ r ∈ (finishPrefill b outputs q w).1,
      r.isRight = true → q.2.isSome = true := by
    rintro ⟨ctx, _ | row⟩ w r hr hright
    · cases hr
      contradiction
    · rfl
  have hsubmitted := countP_zip_le slots.prefilling submissions
  have hchunks := pass_countP hchunk (slots.prefilling.zip submissions) w
  have hkeptChunks := pass_length_le finishChunk (slots.prefilling.zip submissions) w
  simp only [advanceAll]
  generalize pass finishChunk (slots.prefilling.zip submissions) w = marked at hchunks hkeptChunks ⊢
  obtain ⟨chunks, w₁⟩ := marked
  have hadvanced := pass_length_le (advanceSeq b outputs)
    ((List.range slots.active.length).zip slots.active) w₁
  generalize pass (advanceSeq b outputs) ((List.range slots.active.length).zip slots.active) w₁ =
    advanced at hadvanced ⊢
  obtain ⟨seqs, w₂⟩ := advanced
  have hretired := pass_length_le retireDone seqs w₂
  simp only
  generalize pass retireDone seqs w₂ = retired at hretired ⊢
  obtain ⟨kept, w₃⟩ := retired
  have hfinished := pass_countP hprefill chunks w₃
  have hkept := pass_length_le (finishPrefill b outputs) chunks w₃
  simp only
  generalize pass (finishPrefill b outputs) chunks w₃ = finished at hfinished hkept ⊢
  obtain ⟨results, w₄⟩ := finished
  obtain ⟨hright, htotal⟩ := length_results results
  simp only [List.length_append, List.length_zip, List.length_range, min_self] at *
  omega

/-- A fused step adds to neither list what was not in one of them, and nothing to the prefills. -/
theorem fusedStep_shrinks (first second : ℤ) (slots : Slots L) (w : World) :
    (fusedStep b first second slots w).1.active.length +
      (fusedStep b first second slots w).1.prefilling.length ≤
        slots.active.length + slots.prefilling.length ∧
      (fusedStep b first second slots w).1.prefilling.length ≤ slots.prefilling.length := by
  have hdropped := dropAllCancelled_length slots w
  unfold fusedStep
  generalize dropAllCancelled slots w = dropped at hdropped ⊢
  obtain ⟨slots', w'⟩ := dropped
  simp only at hdropped ⊢
  generalize buildBatch b slots' = plan
  obtain ⟨rows, submissions⟩ := plan
  simp only
  split
  · simp only
    omega
  · generalize decodeBatch b rows first second w' = decoded
    obtain ⟨status, outputs, w''⟩ := decoded
    simp only
    split
    · have hfailed := failNewest_length slots' w''
      omega
    · split
      · simp only [failEverything, List.length_nil]
        omega
      · have hadvanced := advanceAll_length (b := b) submissions outputs slots' w''
        omega

/-- The active sequences after a fused step fit into a batch again. -/
theorem fusedStep_fits (first second : ℤ) (hactive : slots.active.length ≤ b.nBatch) :
    (fusedStep b first second slots w).1.active.length ≤ b.nBatch := by
  have hdropped := dropAllCancelled_length slots w
  unfold fusedStep
  generalize dropAllCancelled slots w = dropped at hdropped ⊢
  obtain ⟨slots', w'⟩ := dropped
  simp only at hdropped ⊢
  have hfits : slots'.active.length ≤ b.nBatch := by omega
  obtain ⟨hlength, hcount⟩ := buildBatch_length hfits
  generalize buildBatch b slots' = plan at hlength hcount ⊢
  obtain ⟨rows, submissions⟩ := plan
  simp only at hlength hcount ⊢
  split
  · exact hfits
  · generalize decodeBatch b rows first second w' = decoded
    obtain ⟨status, outputs, w''⟩ := decoded
    simp only
    split
    · have hfailed := failNewest_length slots' w''
      omega
    · split
      · exact Nat.zero_le _
      · have hadvanced := advanceAll_length (b := b) submissions outputs slots' w''
        omega

end Sizes

/-- The prefills of a batch are at most its requests. -/
theorem prepareAll_length (reqs : List InferenceRequest) (w : World) :
    (prepareAll b reqs w).1.ctxs.length ≤ reqs.length := by
  induction reqs generalizing w with
  | nil => exact le_rfl
  | cons req rest ih =>
    unfold prepareAll
    generalize isCancelled req w = polled
    obtain ⟨cancelled, req', w₁⟩ := polled
    simp only
    split
    · exact (ih w₁).trans (Nat.le_succ _)
    · generalize prepareOne b req' w₁ = outcome
      obtain ⟨preparation, w₂⟩ := outcome
      cases preparation with
      | rejected => exact (ih w₂).trans (Nat.le_succ _)
      | deferred r => exact (ih w₂).trans (Nat.le_succ _)
      | exhausted r => exact Nat.zero_le _
      | prepared ctx => exact Nat.succ_le_succ (ih w₂)

namespace Worker

variable {k k' : Worker L}

/-- The requests taken from the queue and not yet prepared. -/
def admitted (k : Worker L) : List InferenceRequest :=
  match k.phase with
  | .admitted pending => pending
  | _ => []

/-- The bounds of the two lists. -/
structure Bounded (b : Bridge L) (k : Worker L) : Prop where
  active : k.slots.active.length ≤ b.nBatch
  total : k.slots.active.length + k.slots.prefilling.length + k.admitted.length ≤ maxGenerating b

/-- A worker that has left keeps its bounds. -/
theorem exit_bounded (b : Bridge L) (k : Worker L) : k.exit.Bounded b :=
  ⟨Nat.zero_le _, Nat.zero_le _⟩

/-- Every step keeps the bounds. -/
theorem step_bounded {action : Action} (h : k.Bounded b) (hstep : k.step b action = some k') :
    k'.Bounded b := by
  obtain ⟨hactive, htotal⟩ := h
  cases step_moves hstep with
  | enqueue | stop => exact ⟨hactive, htotal⟩
  | enter hphase =>
    simp only [admitted, hphase] at htotal
    exact ⟨hactive, htotal⟩
  | leave | leaveEmpty => exact exit_bounded b k
  | pop hphase =>
    simp only [admitted, hphase, List.length_nil] at htotal
    refine ⟨hactive, ?_⟩
    simp only [admitted, List.length_take]
    omega
  | @prepare pending hphase =>
    simp only [admitted, hphase] at htotal
    have hprepared := prepareAll_length (b := b) pending k.world
    refine ⟨hactive, ?_⟩
    simp only [Worker.prepare, admitted, List.length_append, List.length_nil]
    omega
  | requeue hphase =>
    simp only [admitted, hphase] at htotal
    exact ⟨hactive, htotal⟩
  | fuse first second hphase =>
    simp only [admitted, hphase, List.length_nil] at htotal
    obtain ⟨hfewer, _⟩ := fusedStep_shrinks (b := b) first second k.slots k.world
    refine ⟨fusedStep_fits first second hactive, ?_⟩
    simp only [fuse, admitted, List.length_nil]
    omega

/-- The bounds hold in every run. -/
theorem run_bounded {actions : List Action}
    (hrun : (Worker.init config order : Worker L).Run b actions k) : k.Bounded b :=
  run_invariant (fun _ _ _ hk hstep => step_bounded hk hstep) ⟨Nat.zero_le _, Nat.zero_le _⟩ hrun

end Worker

/-- The sequence ids of the tickets are different. -/
theorem World.Tracked.nodup {w : World} {tickets : List Ticket}
    (h : w.Tracked config order tickets) :
    (tickets.map fun t => t.client.seqId).Nodup := by
  obtain ⟨s, hfollows, hlive, _⟩ := h
  have hperm := hlive.map Client.seqId
  rw [List.map_map] at hperm
  exact hperm.nodup_iff.mp hfollows.sound.nodup

/-- In every run the active sequences fit into a batch, admission leaves one id of the model free,
the sequence ids are different, and the batch of a fused step has at most `n_batch` rows at
different places. -/
theorem batch_bounds (b : Bridge L) (config : Config) (order : ChildOrder) (actions : List Action)
    (k : Worker L) (hrun : (Worker.init config order : Worker L).Run b actions k) :
    k.slots.active.length ≤ b.nBatch ∧
      k.slots.active.length + k.slots.prefilling.length ≤ b.nSeqMax - 1 ∧
      k.slots.seqIds.Nodup ∧
      (buildBatch b (dropAllCancelled k.slots k.world).1).1.length ≤ b.nBatch ∧
      ((buildBatch b (dropAllCancelled k.slots k.world).1).1.map Row.place).Nodup := by
  have hbounded := Worker.run_bounded hrun
  have hfollows := Worker.run_follows hrun
  have hids (slots : Slots L) : (slots.tickets.map fun t => t.client.seqId) = slots.seqIds := by
    simp [Slots.tickets, Slots.seqIds, Function.comp_def, ActiveSeq.ticket, PrefillCtx.ticket]
  have htotal : k.slots.active.length + k.slots.prefilling.length ≤ b.nSeqMax - 1 :=
    (Nat.le_add_right _ _).trans hbounded.total
  have hdropped := (dropAllCancelled_tracked PrefillCtx.unfinished_lasting hfollows.fit.sits
    hfollows.tracked).1.nodup
  rw [hids] at hdropped
  exact ⟨hbounded.active, htotal, hids k.slots ▸ hfollows.tracked.nodup,
    (buildBatch_length ((dropAllCancelled_length _ _).1.trans hbounded.active)).1,
    buildBatch_places hdropped⟩

/-- Two requests with the same prompt: one is decoded, the other is put back. -/
theorem batch_bounds_two : ∃ k,
    (Worker.init ⟨4, 64, true⟩ .stored).Run (Bridge.counting (fun _ => [5, 6]) 9)
      (.enqueue {} :: .enqueue {} :: Worker.iteration 0 0) k ∧ k.slots.active.length = 1 ∧
        k.slots.seqIds.Nodup := by
  have hrun : (run (Worker.step (Bridge.counting (fun _ => [5, 6]) 9))
      (Worker.init ⟨4, 64, true⟩ .stored)
      (.enqueue {} :: .enqueue {} :: Worker.iteration 0 0)).any
        (fun k => k.slots.active.length = 1) = true := by
    decide +kernel
  obtain ⟨k, hk, hcond⟩ := (Option.any_eq_true _ _).mp hrun
  exact ⟨k, hk, of_decide_eq_true hcond, (batch_bounds _ _ _ _ k hk).2.2.1⟩

end RadixForge
