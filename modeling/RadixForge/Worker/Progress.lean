import Mathlib.Algebra.Order.Group.Int
import Mathlib.Data.Int.Cast.Lemmas
import RadixForge.Worker.Bounds
import RadixForge.Worker.Budgets

/-!
# Every fused step makes progress

The work of the two lists is what remains of the budgets, and for a prefill also the part of its
prompt that was not submitted. A successful step does at least one unit of work for each row of its
batch; a failed one removes at least one sequence, and so does a step with nothing to submit.
-/

namespace RadixForge

open Library

variable {L : Type} {b : Bridge L} {config : Config} {order : ChildOrder}

/-- The work of a prefill: what is not submitted of its prompt, and its budget. -/
def PrefillCtx.work (ctx : PrefillCtx) : ℤ :=
  (ctx.prep.delta.length - ctx.deltaStart : ℕ) + max 1 ctx.req.maxTokens

/-- The work of the two lists. -/
def Slots.work (slots : Slots L) : ℤ :=
  (slots.active.map ActiveSeq.remaining).sum + (slots.prefilling.map PrefillCtx.work).sum

/-- The work of a prefill after the submitted part of its prompt. -/
def chunkWork (p : PrefillCtx × Option PromptSubmission) : ℤ :=
  p.1.work - (p.2.map PromptSubmission.tokens).getD 0

/-- The work of a sequence after its token was sampled. -/
def ActiveSeq.left (seq : ActiveSeq L) : ℤ := if seq.done then 0 else seq.remaining

/-- Fused steps with no admission between them, with the statuses of their decodes. -/
def fusedSteps (b : Bridge L) : List (ℤ × ℤ) → Slots L → World → Slots L × World
  | [], slots, w => (slots, w)
  | (first, second) :: rest, slots, w =>
    let (slots, w) := fusedStep b first second slots w
    fusedSteps b rest slots w

/-- A prefill has at least one step of work left. -/
theorem PrefillCtx.one_le_work (ctx : PrefillCtx) : 1 ≤ ctx.work := by
  have hone := le_max_left 1 ctx.req.maxTokens
  unfold work
  omega

/-- Every sequence has work left. -/
theorem Slots.Budgeted.length_le_work {slots : Slots L} (h : slots.Budgeted b) :
    ((slots.active.length + slots.prefilling.length : ℕ) : ℤ) ≤ slots.work := by
  have hactive := List.card_nsmul_le_sum (slots.active.map ActiveSeq.remaining) 1 fun x hx => by
    obtain ⟨seq, hseq, rfl⟩ := List.mem_map.mp hx
    exact (h.active seq hseq).positive
  have hprefilling := List.card_nsmul_le_sum (slots.prefilling.map PrefillCtx.work) 1 fun x hx => by
    obtain ⟨ctx, _, rfl⟩ := List.mem_map.mp hx
    exact ctx.one_le_work
  simp only [List.length_map, nsmul_eq_mul, mul_one] at hactive hprefilling
  unfold work
  push_cast
  exact add_le_add hactive hprefilling

/-- Something to do is work. -/
theorem Slots.Budgeted.work_pos {slots : Slots L} (h : slots.Budgeted b)
    (hne : ¬ (slots.active = [] ∧ slots.prefilling = [])) : 0 < slots.work := by
  have hlength := h.length_le_work
  rw [← List.length_eq_zero_iff, ← List.length_eq_zero_iff] at hne
  omega

section Visits

/-- The poll of a sequence costs no work. -/
theorem pollActive_work (seq : ActiveSeq L) (w : World) :
    ((pollActive seq w).1.toList.map ActiveSeq.remaining).sum = seq.remaining := by
  simp [pollActive]

/-- Dropping the cancelled sequences adds no work. -/
theorem dropCancelled_work (seq : ActiveSeq L) (w : World) (h : seq.Budgeted b) :
    ((dropCancelled seq w).1.toList.map ActiveSeq.remaining).sum ≤ seq.remaining := by
  have hpositive := h.positive
  unfold dropCancelled
  split
  · show 0 ≤ seq.remaining
    omega
  · simp

/-- Dropping the abandoned prefills adds no work. -/
theorem dropAbandoned_work (ctx : PrefillCtx) (w : World) :
    ((dropAbandoned ctx w).1.toList.map PrefillCtx.work).sum ≤ ctx.work := by
  have hmax := isCancelled_maxTokens ctx.req w
  have hone := ctx.one_le_work
  unfold dropAbandoned
  generalize isCancelled ctx.req w = polled at hmax ⊢
  obtain ⟨cancelled, req, w'⟩ := polled
  cases cancelled with
  | true =>
    show 0 ≤ ctx.work
    omega
  | false =>
    simp only at hmax
    simp [PrefillCtx.work, hmax]

/-- After its chunk a prefill has at most the work the chunk left it. -/
theorem finishChunk_work (p : PrefillCtx × Option PromptSubmission) (w : World)
    (h : ∀ s ∈ p.2, p.1.deltaStart + s.tokens ≤ p.1.prep.delta.length) :
    ((finishChunk p w).1.toList.map fun q => q.1.work).sum ≤ chunkWork p := by
  obtain ⟨ctx, submission⟩ := p
  cases submission with
  | none => simp [finishChunk, chunkWork]
  | some submission =>
    have hpart : ctx.deltaStart + submission.tokens ≤ ctx.prep.delta.length := h submission rfl
    have hwork : PrefillCtx.work { ctx with deltaStart := ctx.deltaStart + submission.tokens } =
        chunkWork (ctx, some submission) := by
      simp only [PrefillCtx.work, chunkWork, Option.map_some, Option.getD_some]
      omega
    simp only [finishChunk]
    split
    all_goals simp [hwork]

/-- A sequence does one unit of work, or ends. -/
theorem advanceSeq_work (outputs : List (Option L)) (p : ℕ × ActiveSeq L) (w : World)
    (h : p.2.Budgeted b) :
    ((advanceSeq b outputs p w).1.toList.map ActiveSeq.left).sum ≤ p.2.remaining - 1 := by
  obtain ⟨row, seq⟩ := p
  have hpositive : 1 ≤ seq.remaining := h.positive
  have hdone {s : ActiveSeq L} (hs : s.done = true) :
      ((some s).toList.map ActiveSeq.left).sum ≤ seq.remaining - 1 := by
    simp only [Option.toList_some, List.map_cons, List.map_nil, List.sum_singleton,
      ActiveSeq.left, hs, if_true]
    omega
  simp only [advanceSeq]
  split
  · exact hdone rfl
  · generalize isCancelled seq.req (w.call (.setCellCount seq.seqId (seq.pos + 1))) = polled
    obtain ⟨cancelled, req, w₁⟩ := polled
    simp only
    split
    · exact hdone rfl
    · generalize isCancelled req _ = polled
      obtain ⟨cancelled', req', w₂⟩ := polled
      simp only
      split
      · exact hdone rfl
      · simp only [Option.toList_some, List.map_cons, List.map_nil,
          List.sum_singleton, ActiveSeq.left]
        split
        · omega
        · exact le_rfl

/-- Retiring the finished sequences adds no work. -/
theorem retireDone_work (seq : ActiveSeq L) (w : World) :
    ((retireDone seq w).1.toList.map ActiveSeq.remaining).sum ≤ seq.left := by
  unfold retireDone ActiveSeq.left
  split
  · exact le_rfl
  · simp

/-- A finished prompt leaves no more than its budget. -/
theorem finishPrefill_work (outputs : List (Option L)) (q : PrefillCtx × Option ℕ) (w : World) :
    ((finishPrefill b outputs q w).1.toList.map
      (Sum.elim PrefillCtx.work ActiveSeq.remaining)).sum ≤ q.1.work := by
  obtain ⟨ctx, row⟩ := q
  cases row with
  | none => simp [finishPrefill]
  | some row =>
    have hmax := isCancelled_maxTokens ctx.req w
    have hbudget := le_max_right 1 ctx.req.maxTokens
    have hnone : ((none : Option (PrefillCtx ⊕ ActiveSeq L)).toList.map
        (Sum.elim PrefillCtx.work ActiveSeq.remaining)).sum ≤
        ctx.work := by
      have hone := ctx.one_le_work
      show 0 ≤ ctx.work
      omega
    simp only [finishPrefill, beginGeneration]
    generalize isCancelled ctx.req w = polled at hmax ⊢
    obtain ⟨cancelled, req, w'⟩ := polled
    simp only at hmax ⊢
    split
    · exact hnone
    · split
      · exact hnone
      · split
        · exact hnone
        · simp only [Option.map_some, Option.toList_some, List.map_cons, List.map_nil, Sum.elim_inr,
            List.sum_singleton, PrefillCtx.work]
          omega

end Visits

section Submissions

/-- The submitted chunks are parts of their prompts, and as long as the rows are many. -/
theorem submitPrompts_work (capacity promptTokens batchIdx : ℕ) {ctxs : List PrefillCtx}
    (h : ∀ ctx ∈ ctxs, ctx.Unfinished) :
    let plan := submitPrompts capacity promptTokens batchIdx ctxs
    ((ctxs.zip plan.2).map chunkWork).sum + plan.1.length = (ctxs.map PrefillCtx.work).sum ∧
      ∀ p ∈ ctxs.zip plan.2, ∀ s ∈ p.2, p.1.deltaStart + s.tokens ≤ p.1.prep.delta.length := by
  induction ctxs generalizing promptTokens batchIdx with
  | nil => exact ⟨rfl, fun p hp => absurd hp List.not_mem_nil⟩
  | cons ctx rest ih =>
    have hunfinished := (h ctx List.mem_cons_self).2
    have hrest := fun c hc => h c (List.mem_cons_of_mem _ hc)
    unfold submitPrompts
    simp only
    split
    · obtain ⟨hsum, hparts⟩ := ih promptTokens batchIdx hrest
      refine ⟨?_, fun p hp s hs => ?_⟩
      · simp only [List.zip_cons_cons, List.map_cons, List.sum_cons, chunkWork, Option.map_none,
          Option.getD_none] at hsum ⊢
        push_cast
        omega
      · rcases List.mem_cons.mp hp with rfl | hp
        · exact absurd hs (Option.not_mem_none s)
        · exact hparts p hp s hs
    · generalize htake : min (ctx.prep.delta.length - ctx.deltaStart) (capacity - promptTokens) =
        take
      have hpart : ctx.deltaStart + take ≤ ctx.prep.delta.length := by omega
      obtain ⟨hsum, hparts⟩ := ih (promptTokens + take) (batchIdx + take) hrest
      refine ⟨?_, fun p hp s hs => ?_⟩
      · simp only [List.zip_cons_cons, List.map_cons, List.sum_cons, chunkWork,
          Option.map_some, Option.getD_some, List.length_append,
          ctx.rows_length take hpart] at hsum ⊢
        push_cast
        omega
      · rcases List.mem_cons.mp hp with rfl | hp
        · cases hs
          exact hpart
        · exact hparts p hp s hs

/-- An unfinished prompt fills a batch that has room. -/
theorem submitPrompts_rows {capacity batchIdx : ℕ} (hcapacity : 1 ≤ capacity)
    {ctxs : List PrefillCtx} (h : ∀ ctx ∈ ctxs, ctx.Unfinished)
    (hrows : (submitPrompts capacity 0 batchIdx ctxs).1 = []) : ctxs = [] := by
  cases ctxs with
  | nil => rfl
  | cons ctx rest =>
    have hunfinished := (h ctx List.mem_cons_self).2
    unfold submitPrompts at hrows
    simp only at hrows
    rw [if_neg (by omega)] at hrows
    have hlength := congrArg List.length hrows
    rw [List.length_append, ctx.rows_length _ (by omega), List.length_nil] at hlength
    omega

/-- A batch is empty if there is nothing to decode, and only then. -/
theorem buildBatch_eq_nil {slots : Slots L} (hbatch : 1 ≤ b.nBatch) (hfit : slots.Fit) :
    (buildBatch b slots).1 = [] ↔ slots.active = [] ∧ slots.prefilling = [] := by
  constructor
  · intro hrows
    obtain ⟨hactive, hprompts⟩ := List.append_eq_nil_iff.mp hrows
    have hnone := List.map_eq_nil_iff.mp hactive
    rw [hnone] at hprompts
    exact ⟨hnone, submitPrompts_rows hbatch hfit.prefilling hprompts⟩
  · intro hempty
    simp [buildBatch, hempty, submitPrompts]

end Submissions

section Steps

variable {slots : Slots L} {w : World}

/-- Dropping the cancelled prefills and sequences adds no work. -/
theorem dropAllCancelled_work (h : slots.Budgeted b) (w : World) :
    (dropAllCancelled slots w).1.work ≤ slots.work := by
  have hpolled := pass_sum_le (P := fun _ => True)
    (fun (seq : ActiveSeq L) w _ => (pollActive_work seq w).le) slots.active
    (fun _ _ => trivial) w
  have hkept := pass_sum_le dropCancelled_work _ (pass_forall pollActive_budgeted _ h.active w)
    (pass pollActive slots.active w).2
  have hprefilling := pass_sum_le (P := fun _ => True)
    (fun ctx w _ => dropAbandoned_work ctx w) slots.prefilling
    (fun _ _ => trivial) (pass dropCancelled (pass pollActive slots.active w).1
      (pass pollActive slots.active w).2).2
  exact add_le_add (hkept.trans hpolled) hprefilling

/-- The newest sequence takes its work along. -/
theorem failNewest_work (h : slots.Budgeted b) (w : World)
    (hne : ¬ (slots.active = [] ∧ slots.prefilling = [])) :
    (failNewest slots w).1.work < slots.work := by
  unfold failNewest
  split
  · rename_i seq hseq
    obtain ⟨init, hinit⟩ := List.getLast?_eq_some_iff.mp hseq
    have hpositive := (h.active seq (hinit ▸ List.mem_append_right _ List.mem_cons_self)).positive
    simp only [Slots.work, hinit, List.dropLast_concat, List.map_append, List.map_cons,
      List.map_nil, List.sum_append, List.sum_singleton]
    omega
  · rename_i hnone
    split
    · rename_i ctx hctx
      obtain ⟨init, hinit⟩ := List.getLast?_eq_some_iff.mp hctx
      have hone := ctx.one_le_work
      simp only [Slots.work, hinit, List.dropLast_concat, List.map_append, List.map_cons,
        List.map_nil, List.sum_append, List.sum_singleton]
      omega
    · rename_i hnone'
      exact absurd ⟨List.getLast?_eq_none_iff.mp hnone, List.getLast?_eq_none_iff.mp hnone'⟩ hne

/-- A successful decode does one unit of work for each row. -/
theorem advanceAll_work (h : slots.Budgeted b) (hfit : slots.Fit) (outputs : List (Option L))
    (w : World) :
    (advanceAll b (buildBatch b slots).2 outputs slots w).1.work + (buildBatch b slots).1.length ≤
      slots.work := by
  obtain ⟨hsum, hparts⟩ :=
    submitPrompts_work (b.nBatch - slots.active.length) 0 slots.active.length hfit.prefilling
  simp only [buildBatch, List.length_append, List.length_map]
  generalize submitPrompts (b.nBatch - slots.active.length) 0 slots.active.length slots.prefilling =
    plan at hsum hparts ⊢
  obtain ⟨rows, submissions⟩ := plan
  have hmarked := pass_sum_le finishChunk_work _ hparts w
  simp only [advanceAll] at hsum ⊢
  generalize pass finishChunk (slots.prefilling.zip submissions) w = marked at hmarked ⊢
  obtain ⟨chunks, w₁⟩ := marked
  have hadvanced := pass_sum_le (advanceSeq_work (b := b) outputs)
    ((List.range slots.active.length).zip slots.active)
    (fun p hp => h.active p.2 (List.of_mem_zip hp).2) w₁
  have hspent : (((List.range slots.active.length).zip slots.active).map fun p =>
      p.2.remaining - 1).sum =
      (slots.active.map ActiveSeq.remaining).sum - slots.active.length := by
    have hsnd : (((List.range slots.active.length).zip slots.active).map fun p =>
        p.2.remaining - 1) =
        slots.active.map fun seq => seq.remaining + -1 := by
      refine (List.map_map (g := fun seq : ActiveSeq L => seq.remaining + -1)
        (f := Prod.snd)).symm.trans ?_
      rw [List.map_snd_zip (by rw [List.length_range])]
    rw [hsnd, List.sum_map_add, List.map_const', List.sum_replicate, nsmul_eq_mul, mul_neg, mul_one]
    rfl
  rw [hspent] at hadvanced
  generalize pass (advanceSeq b outputs) ((List.range slots.active.length).zip slots.active) w₁ =
    advanced at hadvanced ⊢
  obtain ⟨seqs, w₂⟩ := advanced
  have hretired := pass_sum_le (P := fun _ => True)
    (fun (seq : ActiveSeq L) w _ => retireDone_work seq w) seqs
    (fun _ _ => trivial) w₂
  simp only at hmarked hadvanced ⊢
  generalize pass retireDone seqs w₂ = retired at hretired ⊢
  obtain ⟨kept, w₃⟩ := retired
  have hfinished := pass_sum_le (P := fun _ => True)
    (fun q w _ => finishPrefill_work (b := b) outputs q w) chunks
    (fun _ _ => trivial) w₃
  simp only at hretired ⊢
  generalize pass (finishPrefill b outputs) chunks w₃ = finished at hfinished ⊢
  obtain ⟨results, w₄⟩ := finished
  have hresults := (perm_results PrefillCtx.work ActiveSeq.remaining results).sum_eq
  simp only [List.sum_append] at hresults
  simp only [Slots.work, List.map_append, List.sum_append] at hfinished ⊢
  push_cast
  omega

/-- A fused step of a worker with something to do leaves it less work. -/
theorem fusedStep_work (first second : ℤ) (hbatch : 1 ≤ b.nBatch) (h : slots.Budgeted b)
    (hfit : slots.Fit) (htracked : w.Tracked config order slots.tickets)
    (hne : ¬ (slots.active = [] ∧ slots.prefilling = [])) :
    (fusedStep b first second slots w).1.work < slots.work := by
  have hpositive := h.work_pos hne
  have hdropped := dropAllCancelled_work h w
  have hbudgets := h.dropAllCancelled w
  have hfits := (dropAllCancelled_tracked PrefillCtx.unfinished_lasting hfit.sits htracked).2
  unfold fusedStep
  generalize dropAllCancelled slots w = dropped at hdropped hbudgets hfits ⊢
  obtain ⟨slots', w'⟩ := dropped
  simp only at hdropped hbudgets hfits ⊢
  have hadvanced := advanceAll_work hbudgets hfits
  have hidle := buildBatch_eq_nil hbatch hfits
  generalize buildBatch b slots' = plan at hadvanced hidle ⊢
  obtain ⟨rows, submissions⟩ := plan
  simp only at hadvanced hidle ⊢
  split
  · rename_i hrows
    obtain ⟨hactive, hprefilling⟩ := hidle.mp hrows
    have hnothing : slots'.work = 0 := by simp [Slots.work, hactive, hprefilling]
    exact hnothing ▸ hpositive
  · rename_i hrows
    have hlength := List.length_pos_iff.mpr hrows
    generalize decodeBatch b rows first second w' = decoded
    obtain ⟨status, outputs, w''⟩ := decoded
    simp only
    split
    · exact (failNewest_work hbudgets w'' (mt hidle.mpr hrows)).trans_le hdropped
    · split
      · exact hpositive
      · have hdone := hadvanced outputs w''
        omega

/-- As many fused steps as there is work leave nothing. -/
theorem fusedSteps_empty (hbatch : 1 ≤ b.nBatch) (statuses : List (ℤ × ℤ)) (h : slots.Budgeted b)
    (hfit : slots.Fit) (htracked : w.Tracked config order slots.tickets)
    (hwork : slots.work ≤ statuses.length) :
    (fusedSteps b statuses slots w).1.active = [] ∧
      (fusedSteps b statuses slots w).1.prefilling = [] := by
  induction statuses generalizing slots w with
  | nil =>
    by_contra hne
    have hpositive := h.work_pos hne
    simp only [List.length_nil] at hwork
    omega
  | cons status rest ih =>
    obtain ⟨first, second⟩ := status
    obtain ⟨htracked', hfit'⟩ := fusedStep_tracked (b := b) PrefillCtx.unfinished_lasting hfit.sits
      first second htracked
    refine ih (h.fusedStep first second w) hfit' htracked' ?_
    show (fusedStep b first second slots w).1.work ≤ rest.length
    rw [List.length_cons] at hwork
    by_cases hempty : slots.active = [] ∧ slots.prefilling = []
    · obtain ⟨hshrinks, _⟩ := fusedStep_shrinks (b := b) first second slots w
      rw [hempty.1, hempty.2] at hshrinks
      obtain ⟨hactive, hprefilling⟩ : (fusedStep b first second slots w).1.active = [] ∧
          (fusedStep b first second slots w).1.prefilling = [] := by simpa using hshrinks
      simp [Slots.work, hactive, hprefilling]
    · have hless := fusedStep_work first second hbatch h hfit htracked hempty
      push_cast at hwork
      omega

end Steps

/-- In every run a fused step leaves less work while there is some, whatever its decodes return, and
without admissions as many fused steps as there is work leave nothing. -/
theorem fused_step_progress (b : Bridge L) (config : Config) (order : ChildOrder)
    (actions : List Action) (k : Worker L) (hbatch : 1 ≤ b.nBatch)
    (hrun : (Worker.init config order : Worker L).Run b actions k) :
    (¬ (k.slots.active = [] ∧ k.slots.prefilling = []) → ∀ first second : ℤ,
        (fusedStep b first second k.slots k.world).1.work < k.slots.work) ∧
      ∀ statuses : List (ℤ × ℤ), k.slots.work ≤ statuses.length →
        (fusedSteps b statuses k.slots k.world).1.active = [] ∧
        (fusedSteps b statuses k.slots k.world).1.prefilling = [] := by
  have hbudgets := Worker.run_budgeted hrun
  obtain ⟨htracked, hfit⟩ := Worker.run_follows hrun
  exact ⟨fun hne first second => fusedStep_work first second hbatch hbudgets hfit htracked hne,
    fun statuses hwork => fusedSteps_empty hbatch statuses hbudgets hfit htracked hwork⟩

/-- Three tokens to generate after a prompt of two: one step leaves two units of work. -/
theorem fused_step_progress_three : ∃ k,
    (Worker.init ⟨4, 64, true⟩ .stored).Run (Bridge.counting (fun _ => [5, 6]) 9)
      (.enqueue { maxTokens := 3 } :: Worker.iteration 0 0) k ∧ k.slots.work = 2 ∧
      (fusedStep (Bridge.counting (fun _ => [5, 6]) 9) 0 0 k.slots k.world).1.work < 2 := by
  have hrun : (run (Worker.step (Bridge.counting (fun _ => [5, 6]) 9))
      (Worker.init ⟨4, 64, true⟩ .stored)
      (.enqueue { maxTokens := 3 } :: Worker.iteration 0 0)).any
        (fun k => k.slots.work = 2 ∧ k.slots.active.length = 1) = true := by
    decide +kernel
  obtain ⟨k, hk, hcond⟩ := (Option.any_eq_true _ _).mp hrun
  obtain ⟨hwork, hlength⟩ := of_decide_eq_true hcond
  have hne : ¬ (k.slots.active = [] ∧ k.slots.prefilling = []) := by
    rintro ⟨hactive, _⟩
    simp [hactive] at hlength
  have hless := (fused_step_progress _ _ _ _ k (by decide) hk).1 hne 0 0
  rw [hwork] at hless
  exact ⟨k, hk, hwork, hless⟩

end RadixForge
