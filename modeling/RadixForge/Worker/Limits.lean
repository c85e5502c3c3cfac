import RadixForge.Worker.Budgets
import RadixForge.Worker.Counting
import RadixForge.Worker.Conservation

/-!
# Generation respects its limit

What a request generates is no longer than its budget, but for a budget of zero: the token that is
sampled when the prompt is finished is delivered before the budget is looked at. The count that
comes with the last callback is the number of tokens delivered, over every run.
-/

namespace RadixForge

open Library

variable {L : Type} {b : Bridge L} {config : Config} {order : ChildOrder}

/-- The roll entries of the two lists. -/
def Slots.entries (slots : Slots L) : List Record :=
  slots.active.map ActiveSeq.entry ++ slots.prefilling.map PrefillCtx.entry

section Steps

variable {slots : Slots L} {w : World} {others : List Record}

/-- Every prefill has its submission, an empty one included. -/
theorem submitPrompts_submissions (capacity promptTokens batchIdx : ℕ) (ctxs : List PrefillCtx) :
    (submitPrompts capacity promptTokens batchIdx ctxs).2.length = ctxs.length := by
  induction ctxs generalizing promptTokens batchIdx with
  | nil => rfl
  | cons ctx rest ih =>
    unfold submitPrompts
    simp only
    split
    · exact congrArg (· + 1) (ih promptTokens batchIdx)
    · exact congrArg (· + 1) (ih _ _)

/-- Dropping the cancelled prefills and sequences keeps the roll. -/
theorem dropAllCancelled_roll (h : w.Roll (slots.entries ++ others)) :
    (dropAllCancelled slots w).2.Roll ((dropAllCancelled slots w).1.entries ++ others) := by
  rw [Slots.entries, List.append_assoc] at h
  have hpolled := pass_roll pollActive_tallies h
  have hkept := pass_roll dropCancelled_tallies hpolled
  have hdropped := pass_roll dropAbandoned_tallies (hkept.perm (List.perm_append_comm_assoc _ _ _))
  simp only [dropAllCancelled, Slots.entries]
  rw [List.append_assoc]
  exact hdropped.perm (List.perm_append_comm_assoc _ _ _)

/-- Advancing everything in the batch keeps the roll. -/
theorem advanceAll_roll {submissions : List (Option PromptSubmission)} (outputs : List (Option L))
    (hlength : submissions.length = slots.prefilling.length)
    (h : w.Roll (slots.entries ++ others)) :
    (advanceAll b submissions outputs slots w).2.Roll
      ((advanceAll b submissions outputs slots w).1.entries ++ others) := by
  have hprefills : (slots.prefilling.zip submissions).map (fun p => p.1.entry) =
      slots.prefilling.map PrefillCtx.entry := by
    refine (List.map_map (g := PrefillCtx.entry) (f := Prod.fst)).symm.trans ?_
    rw [List.map_fst_zip hlength.ge]
  have hactives : ((List.range slots.active.length).zip slots.active).map (fun p => p.2.entry) =
      slots.active.map ActiveSeq.entry := by
    refine (List.map_map (g := ActiveSeq.entry) (f := Prod.snd)).symm.trans ?_
    rw [List.map_snd_zip (by rw [List.length_range])]
  rw [Slots.entries, List.append_assoc, ← hprefills] at h
  have hmarked := pass_roll finishChunk_tallies (h.perm (List.perm_append_comm_assoc _ _ _))
  simp only [advanceAll]
  generalize pass finishChunk (slots.prefilling.zip submissions) w = marked at hmarked ⊢
  obtain ⟨chunks, w₁⟩ := marked
  rw [← hactives] at hmarked
  have hadvanced := pass_roll (advanceSeq_tallies (b := b) outputs)
    (hmarked.perm (List.perm_append_comm_assoc _ _ _))
  generalize pass (advanceSeq b outputs) ((List.range slots.active.length).zip slots.active) w₁ =
    advanced at hadvanced ⊢
  obtain ⟨seqs, w₂⟩ := advanced
  have hretired := pass_roll retireDone_tallies hadvanced
  simp only
  generalize pass retireDone seqs w₂ = retired at hretired ⊢
  obtain ⟨kept, w₃⟩ := retired
  have hfinished := pass_roll (finishPrefill_tallies (b := b) outputs)
    (hretired.perm (List.perm_append_comm_assoc _ _ _))
  simp only
  generalize pass (finishPrefill b outputs) chunks w₃ = finished at hfinished ⊢
  obtain ⟨results, w₄⟩ := finished
  refine hfinished.perm ?_
  refine ((perm_results _ _ results).append_right _).trans ?_
  simp only [Slots.entries, List.map_append]
  rw [← List.append_assoc]
  refine List.Perm.append_right _ (List.perm_append_comm.trans ?_)
  rw [List.append_assoc]

/-- Failing the newest of the batch keeps the roll. -/
theorem failNewest_roll (h : w.Roll (slots.entries ++ others)) :
    (failNewest slots w).2.Roll ((failNewest slots w).1.entries ++ others) := by
  unfold failNewest
  split
  · rename_i seq hseq
    obtain ⟨init, hinit⟩ := List.getLast?_eq_some_iff.mp hseq
    simp only [Slots.entries, hinit, List.dropLast_concat, List.map_append, List.map_cons,
      List.map_nil, List.append_assoc, List.singleton_append] at h ⊢
    exact World.Roll.settle (h.perm List.perm_middle) (failActive_tallies _ _ seq w
      ((h.perm List.perm_middle).known _ List.mem_cons_self))
  · split
    · rename_i ctx hctx
      obtain ⟨init, hinit⟩ := List.getLast?_eq_some_iff.mp hctx
      simp only [Slots.entries, hinit, List.dropLast_concat, List.map_append, List.map_cons,
        List.map_nil, List.append_assoc, List.singleton_append] at h ⊢
      rw [← List.append_assoc] at h ⊢
      exact World.Roll.settle (h.perm List.perm_middle) (failPrefill_tallies _ _ ctx w
        ((h.perm List.perm_middle).known _ List.mem_cons_self))
    · exact h

/-- Failing everything keeps the roll. -/
theorem failEverything_roll (h : w.Roll (slots.entries ++ others)) :
    (failEverything slots w).2.Roll ((failEverything slots w).1.entries ++ others) := by
  rw [Slots.entries, List.append_assoc] at h
  exact failAll_roll (failPrefill_tallies "inference prefill failed" 500)
    (failAll_roll (failActive_tallies "inference decode failed" 500) h)

/-- A fused step keeps the roll. -/
theorem fusedStep_roll (first second : ℤ) (h : w.Roll (slots.entries ++ others)) :
    (fusedStep b first second slots w).2.Roll
      ((fusedStep b first second slots w).1.entries ++ others) := by
  have hdropped := dropAllCancelled_roll h
  unfold fusedStep
  generalize dropAllCancelled slots w = dropped at hdropped ⊢
  obtain ⟨slots', w'⟩ := dropped
  have hlength : (buildBatch b slots').2.length = slots'.prefilling.length :=
    submitPrompts_submissions _ _ _ _
  simp only at hdropped ⊢
  generalize buildBatch b slots' = plan at hlength ⊢
  obtain ⟨rows, submissions⟩ := plan
  simp only at hlength ⊢
  split
  · exact hdropped
  · have hdecoded := hdropped.silent (decodeBatch_eventsOf (b := b) rows first second w')
    generalize decodeBatch b rows first second w' = decoded at hdecoded ⊢
    obtain ⟨status, outputs, w''⟩ := decoded
    simp only at hdecoded ⊢
    split
    · exact failNewest_roll hdecoded
    · split
      · exact failEverything_roll hdecoded
      · exact advanceAll_roll outputs hlength hdecoded

end Steps

section Preparation

variable {w : World} {others : List Record}

/-- The roll entry of what becomes of a request of the batch. -/
def Preparation.entry : Preparation → Option Record
  | .rejected => none
  | .deferred req => some req.entry
  | .exhausted req => some req.entry
  | .prepared ctx => some ctx.entry

/-- A prefill begins with a counter of zero. -/
theorem prepareOne_stats (req : InferenceRequest) (w : World) :
    ∀ ctx ∈ (prepareOne b req w).1.prefill, ctx.stats.predictedN = 0 := by
  have hnone : ∀ ctx ∈ (none : Option PrefillCtx), ctx.stats.predictedN = 0 := fun ctx hctx =>
    absurd hctx (Option.not_mem_none ctx)
  unfold prepareOne
  simp only
  split
  · exact hnone
  · split
    · exact hnone
    · simp only [World.prepareSequence]
      cases (w.mapper.prepareSequence (b.promptTokens req)).2 with
      | error e => exact hnone
      | ok prep =>
        simp only
        split
        · exact hnone
        · intro ctx hctx
          cases hctx
          rfl

/-- Preparing a request keeps the count of its tokens. -/
theorem prepareOne_tallies (req : InferenceRequest) (w : World)
    (h : Counted 0 (w.eventsOf req.id)) :
    w.Tallies (prepareOne b req w).2 req.id (prepareOne b req w).1.entry := by
  have hstats := prepareOne_stats (b := b) req w
  rcases prepareOne_adds (b := b) req w with ⟨message, status, hgone, hadds⟩ | ⟨hstays, hadds⟩
  · have hquiet : Silent [.onError message status] :=
      fun _ he => (List.mem_singleton.mp he).symm ▸ ⟨rfl, rfl⟩
    have hleft := World.Hushes.leave ⟨_, hquiet, hadds⟩ h.reported
    generalize prepareOne b req w = outcome at hgone hleft ⊢
    obtain ⟨preparation, w'⟩ := outcome
    cases preparation with
    | rejected => exact hleft
    | deferred _ => contradiction
    | exhausted _ => contradiction
    | prepared _ => contradiction
  · have hquiet := World.hushes_of_adds hadds
    generalize prepareOne b req w = outcome at hstays hquiet hstats ⊢
    obtain ⟨preparation, w'⟩ := outcome
    have hcounted := hquiet.counted h
    cases preparation with
    | rejected => contradiction
    | deferred r => exact hquiet.keep (Option.some.inj hstays) hcounted
    | exhausted r => exact hquiet.keep (Option.some.inj hstays) hcounted
    | prepared ctx => exact hquiet.keep (Option.some.inj hstays) ⟨hstats ctx rfl, hcounted⟩

/-- A poll of a request that waits. -/
theorem pollWaiting_tallies (req : InferenceRequest) (w : World)
    (h : Counted 0 (w.eventsOf req.id)) :
    w.Tallies (isCancelled req w).2.2 req.id
      (if (isCancelled req w).1 then none else some (isCancelled req w).2.1.entry) := by
  have hpolled := w.hushes_isCancelled req
  split
  · exact hpolled.leave h.reported
  · exact hpolled.keep (isCancelled_id req w) (hpolled.counted h)

/-- The poll of a request that stays in the queue keeps the count of its tokens. -/
theorem keepQueued_tallies (req : InferenceRequest) (w : World)
    (h : Counted 0 (w.eventsOf req.id)) :
    w.Tallies (keepQueued req w).2 req.id ((keepQueued req w).1.map InferenceRequest.entry) := by
  have hpolled := pollWaiting_tallies req w h
  unfold keepQueued
  generalize isCancelled req w = polled at hpolled ⊢
  obtain ⟨cancelled, req', w'⟩ := polled
  cases cancelled <;> exact hpolled

/-- The roll entries of a prepared batch. -/
def Batch.entries (batch : Batch) : List Record :=
  batch.ctxs.map PrefillCtx.entry ++ (batch.queued ++ batch.deferred).map InferenceRequest.entry

/-- The preparation of a batch keeps the roll. -/
theorem prepareAll_roll (reqs : List InferenceRequest)
    (h : w.Roll (reqs.map InferenceRequest.entry ++ others)) :
    (prepareAll b reqs w).2.Roll ((prepareAll b reqs w).1.entries ++ others) := by
  induction reqs generalizing w others with
  | nil => exact h
  | cons req rest ih =>
    have hpolled := h.settle (pollWaiting_tallies req w (h.known _ List.mem_cons_self))
    unfold prepareAll
    generalize isCancelled req w = polled at hpolled ⊢
    obtain ⟨cancelled, req', w₁⟩ := polled
    simp only at hpolled ⊢
    split
    · rename_i hcancelled
      rw [if_pos hcancelled] at hpolled
      exact ih hpolled
    · rename_i hcancelled
      rw [if_neg hcancelled] at hpolled
      have hone := hpolled.settle
        (prepareOne_tallies (b := b) req' w₁ (hpolled.known _ List.mem_cons_self))
      generalize prepareOne b req' w₁ = outcome at hone ⊢
      obtain ⟨preparation, w₂⟩ := outcome
      have hshift {r : Record} {w' : World}
          (h : w'.Roll (r :: (rest.map InferenceRequest.entry ++ others))) :
          w'.Roll (rest.map InferenceRequest.entry ++ (r :: others)) :=
        h.perm List.perm_middle.symm
      cases preparation with
      | rejected => exact ih hone
      | deferred req'' =>
        refine (ih (hshift hone)).perm ?_
        simp only [Batch.entries, List.map_append, List.map_cons,
          List.append_assoc, List.cons_append]
        exact List.Perm.append_left _ (List.Perm.append_left _ List.perm_middle)
      | exhausted req'' =>
        refine (pass_roll keepQueued_tallies (hshift hone)).perm ?_
        simp only [Batch.entries, List.map_nil, List.nil_append, List.append_nil,
          List.map_cons, List.cons_append]
        exact List.perm_middle
      | prepared ctx =>
        refine (ih (hshift hone)).perm ?_
        simp only [Batch.entries, List.map_cons, List.cons_append]
        exact List.perm_middle

end Preparation

namespace Worker

variable {k k' : Worker L}

/-- The worker has a roll of its requests. -/
def Rolls (k : Worker L) : Prop :=
  k.world.Roll (k.slots.entries ++ k.waiting.map InferenceRequest.entry)

/-- The exit of the loop keeps the roll. -/
theorem exit_rolls (h : k.Rolls) (hwaiting : k.waiting = k.queue) : k.exit.Rolls := by
  rw [Rolls, Slots.entries, List.append_assoc] at h
  have hactive := failAll_roll (fun seq w (h : seq.Counts (w.eventsOf seq.req.id)) =>
    (World.hushes_of_adds (retire_adds_nothing seq w _)).leave h.counted.reported) h
  have hprefilling := failAll_roll (fun ctx w (h : ctx.Counts (w.eventsOf ctx.req.id)) =>
    (World.hushes_of_adds (abandon_adds_nothing ctx w _)).leave h.counted.reported) hactive
  rw [hwaiting] at hprefilling
  exact hprefilling.perm (by simp [exit, Slots.entries, waiting])

/-- The roll has an entry for each request present. -/
theorem entries_ids (k : Worker L) :
    (k.slots.entries ++ k.waiting.map InferenceRequest.entry).map Record.id = k.present := by
  simp [present, Slots.entries, Function.comp_def, ActiveSeq.entry, PrefillCtx.entry,
    InferenceRequest.entry]

/-- A new request has received nothing. -/
theorem enqueue_rolls {req : InferenceRequest} (hserves : k.Serves b fun _ _ => True) (h : k.Rolls)
    (hstep : k.step b (.enqueue req) = some k') : k'.Rolls := by
  cases hstep
  generalize hnew : ({ req with id := k.arrivals.length, onCancel := true } : InferenceRequest) =
    new
  have hid : new.id = k.arrivals.length := hnew ▸ rfl
  have hfresh : new.id ∉ k.present := fun hmem => by
    have hlt := (hserves.opened hmem).1
    omega
  have hadded : k.world.Roll
      (new.entry :: (k.slots.entries ++ k.waiting.map InferenceRequest.entry)) := by
    refine ⟨?_, fun r hr => ?_,
      fun id hnot => h.left id fun hmem => hnot (List.mem_cons_of_mem _ hmem)⟩
    · rw [List.map_cons, entries_ids]
      exact List.nodup_cons.mpr ⟨hfresh, k.entries_ids ▸ h.nodup⟩
    · rcases List.mem_cons.mp hr with rfl | hr
      · show Counted 0 (k.world.eventsOf new.id)
        rw [hserves.fresh hid.ge]
        exact Counted.nil
      · exact h.known r hr
  refine hadded.perm ?_
  simp only [waiting, List.map_append, List.append_assoc, List.map_singleton]
  exact List.perm_middle.symm.trans (List.Perm.append_left _ List.perm_middle.symm)

/-- Every step of the worker and of the threads around it. -/
theorem step_rolls {action : Action} (hserves : k.Serves b fun _ _ => True) (h : k.Rolls)
    (hstep : k.step b action = some k') : k'.Rolls := by
  cases step_moves hstep with
  | enqueue req => exact enqueue_rolls hserves h hstep
  | stop => exact h
  | enter hphase =>
    rw [Rolls, waiting_of_head hphase] at h
    exact h.perm (by simp [waiting])
  | leave hphase => exact exit_rolls h (waiting_of_head hphase)
  | leaveEmpty hphase => exact exit_rolls h (waiting_of_running hphase)
  | pop hphase =>
    rw [Rolls, waiting_of_running hphase] at h
    refine h.perm (List.Perm.append_left _ (List.Perm.map _ ?_))
    exact (List.perm_append_comm.trans (List.Perm.of_eq (List.take_append_drop _ _))).symm
  | @prepare pending hphase =>
    rw [Rolls, waiting_of_admitted hphase, List.map_append] at h
    have hprepared := prepareAll_roll (b := b) pending
      (h.perm ((List.Perm.of_eq (List.append_assoc _ _ _).symm).trans List.perm_append_comm))
    refine hprepared.perm ?_
    simp only [Batch.entries, Slots.entries, waiting, Worker.prepare, List.map_append]
    exact perm_admission _ _ _ _ _
  | requeue hphase =>
    rw [Rolls, waiting_of_prepared hphase] at h
    refine h.perm (List.Perm.append_left _ ?_)
    simp only [waiting, deferToFront, List.append_nil, List.map_append]
    exact List.perm_append_comm
  | fuse first second hphase =>
    rw [Rolls, waiting_of_requeued hphase] at h
    exact (fusedStep_roll (b := b) first second h).perm (by simp [waiting, fuse])

/-- The reports of every run are right. -/
theorem run_rolls {actions : List Action}
    (hrun : (Worker.init config order : Worker L).Run b actions k) : k.Rolls := by
  induction actions using List.reverseRecOn generalizing k with
  | nil =>
    cases hrun
    exact ⟨List.nodup_nil, fun r hr => absurd hr List.not_mem_nil,
      fun _ _ e he => absurd he List.not_mem_nil⟩
  | append_singleton before action ih =>
    obtain ⟨k₁, hbefore, hstep⟩ := run_snoc.mp hrun
    exact step_rolls (run_serves_all hbefore) (ih hbefore) hstep

/-- What a request was told in a run is within its budget and reported truly. -/
theorem Rolls.reported (h : k.Rolls) (id : ℕ) : Reported (k.world.eventsOf id) := by
  by_cases hid : id ∈ (k.slots.entries ++ k.waiting.map InferenceRequest.entry).map Record.id
  · obtain ⟨r, hr, rfl⟩ := List.mem_map.mp hid
    have hholds := h.known r hr
    rcases List.mem_append.mp hr with hr | hr
    · rcases List.mem_append.mp hr with hr | hr
      · obtain ⟨seq, _, rfl⟩ := List.mem_map.mp hr
        exact (ActiveSeq.Counts.counted hholds).reported
      · obtain ⟨ctx, _, rfl⟩ := List.mem_map.mp hr
        exact (PrefillCtx.Counts.counted hholds).reported
    · obtain ⟨req, _, rfl⟩ := List.mem_map.mp hr
      exact Counted.reported hholds
  · exact h.left id hid

/-- What a request has received is a prefix of what it generates, and all of it after the last
piece. -/
theorem Serves.generated (h : k.Serves b fun _ _ => True) {id : ℕ} (hid : id < k.arrivals.length) :
    delivered (k.world.eventsOf id) <+: b.generate k.arrivals[id] ∧
      ((∃ e ∈ k.world.eventsOf id, e.isLast = true) →
        delivered (k.world.eventsOf id) = b.generate k.arrivals[id]) := by
  have hgenerated : (contract b (fun _ _ => True) k.arrivals).generated id =
      b.generate k.arrivals[id] := by
    simp [contract, hid]
  rw [← hgenerated]
  by_cases hpresent : id ∈ k.present
  · obtain ⟨_, hopen, hgiven⟩ := h.opened hpresent
    refine ⟨hgiven, fun hlast => ?_⟩
    obtain ⟨e, he, hlast⟩ := hlast
    have hterminal : e.isTerminal = true := by cases e <;> simp_all [Event.isLast, Event.isTerminal]
    rw [hopen e he] at hterminal
    contradiction
  · obtain ⟨closing, tail, _, hdeparted⟩ := h.departed hid hpresent
    refine ⟨hdeparted.delivered_prefix, fun hlast => ?_⟩
    obtain ⟨e, he, hlast⟩ := hlast
    exact hdeparted.delivered_eq (Or.inl (hdeparted.completed_of_last he hlast))

end Worker

namespace Bridge

/-- The token that is sampled when the prompt of a request is finished. -/
def firstToken (b : Bridge L) (req : InferenceRequest) : Token :=
  (Sampler.next b { temperature := req.temperature, topP := req.topP } (b.promptTokens req)).1

/-- A request that is rejected, or whose first token ends the generation. -/
def EndsAtOnce (b : Bridge L) (req : InferenceRequest) : Prop :=
  b.available req ≤ 0 ∨ b.promptTokens req = [] ∨ b.isEog (b.firstToken req) = true

/-- The reference loop generates at most as many tokens as it has turns. -/
theorem generateLoop_length (b : Bridge L) (n : ℕ) (s : Sampler L) (history : List Token) :
    (b.generateLoop n s history).length ≤ n := by
  induction n generalizing s history with
  | zero => exact le_rfl
  | succ n ih =>
    rw [generateLoop_succ]
    split
    · exact Nat.zero_le _
    · exact Nat.succ_le_succ (ih _ _)

/-- Nothing is generated exactly if the first token is not reached. -/
theorem generate_eq_nil (b : Bridge L) (req : InferenceRequest) :
    b.generate req = [] ↔ b.EndsAtOnce req := by
  unfold generate EndsAtOnce
  split
  · rename_i hrejected
    exact iff_of_true rfl (hrejected.imp_right Or.inl)
  · rename_i hgoes
    rw [not_or] at hgoes
    obtain ⟨n, hn⟩ : ∃ n, (max 1 (min req.maxTokens (b.available req))).toNat = n + 1 :=
      ⟨(max 1 (min req.maxTokens (b.available req))).toNat - 1, by omega⟩
    rw [hn, generateLoop_succ]
    simp only [hgoes.1, hgoes.2, false_or, firstToken]
    split
    · rename_i heog
      exact iff_of_true rfl heog
    · rename_i heog
      exact iff_of_false (List.cons_ne_nil _ _) heog

end Bridge

/-- `max_tokens` after the clamp to the context; a prompt that does not fit has no budget. -/
def InferenceRequest.limit (b : Bridge L) (req : InferenceRequest) : ℤ :=
  min req.maxTokens (max 0 (b.available req))

/-- What is generated stays within the limit, unless the limit is zero and a token is generated. -/
theorem generate_within_limit (b : Bridge L) {req : InferenceRequest} (hm : 0 ≤ req.maxTokens) :
    ((b.generate req).length : ℤ) ≤ req.limit b ↔ 1 ≤ req.maxTokens ∨ b.EndsAtOnce req := by
  rw [← b.generate_eq_nil]
  unfold InferenceRequest.limit
  by_cases hnil : b.generate req = []
  · rw [hnil]
    exact iff_of_true (le_min hm (le_max_left _ _)) (Or.inr rfl)
  · have hpos := List.length_pos_iff.mpr hnil
    constructor
    · intro hle
      have hbudget := hle.trans (min_le_left _ _)
      exact Or.inl (by omega)
    · intro hone
      have hpositive := hone.resolve_right hnil
      have hgoes : ¬ (b.available req ≤ 0 ∨ b.promptTokens req = []) :=
        fun hrejected => hnil (if_pos hrejected)
      have hlength := b.generateLoop_length (max 1 (min req.maxTokens (b.available req))).toNat
        { temperature := req.temperature, topP := req.topP } (b.promptTokens req)
      rw [Bridge.generate, if_neg hgoes]
      rw [not_or, not_le] at hgoes
      omega

/-- In every run, a request with a budget of at least one, or one that generates nothing, receives
no more tokens than its limit; once the last piece is delivered no other request stays within it. A
reported count is always the number of tokens delivered. -/
theorem max_tokens_respected_iff (b : Bridge L) (config : Config) (order : ChildOrder)
    (actions : List Action) (k : Worker L)
    (hrun : (Worker.init config order : Worker L).Run b actions k) (id : ℕ)
    (hid : id < k.arrivals.length) (hm : 0 ≤ k.arrivals[id].maxTokens) :
    (1 ≤ k.arrivals[id].maxTokens ∨ b.EndsAtOnce k.arrivals[id] →
        ((delivered (k.world.eventsOf id)).length : ℤ) ≤ k.arrivals[id].limit b) ∧
      ((∃ e ∈ k.world.eventsOf id, e.isLast = true) →
        (((delivered (k.world.eventsOf id)).length : ℤ) ≤ k.arrivals[id].limit b ↔
          1 ≤ k.arrivals[id].maxTokens ∨ b.EndsAtOnce k.arrivals[id])) ∧
      Reported (k.world.eventsOf id) := by
  obtain ⟨hgiven, hall⟩ := (Worker.run_serves_all hrun).generated hid
  refine ⟨fun hwithin => ?_, fun hlast => ?_, (Worker.run_rolls hrun).reported id⟩
  · have hlength : ((delivered (k.world.eventsOf id)).length : ℤ) ≤
        (b.generate k.arrivals[id]).length :=
      Int.ofNat_le.mpr hgiven.length_le
    exact hlength.trans ((generate_within_limit b hm).mpr hwithin)
  · rw [hall hlast]
    exact generate_within_limit b hm

/-- A request for two tokens receives two and is told so. -/
theorem max_tokens_respected_two : ∃ k,
    (Worker.init ⟨4, 64, true⟩ .stored).Run (Bridge.counting (fun _ => [5, 6]) 0)
      (.enqueue { maxTokens := 2 } :: Worker.iteration 0 0 ++ Worker.iteration 0 0) k ∧
      delivered (k.world.eventsOf 0) = [1, 2] ∧ Reported (k.world.eventsOf 0) := by
  have hrun : (run (Worker.step (Bridge.counting (fun _ => [5, 6]) 0))
      (Worker.init ⟨4, 64, true⟩ .stored)
      (.enqueue { maxTokens := 2 } :: Worker.iteration 0 0 ++ Worker.iteration 0 0)).any (fun k =>
        k.arrivals.map InferenceRequest.maxTokens = [2] ∧ delivered (k.world.eventsOf 0) = [1, 2]) =
          true := by
    decide +kernel
  obtain ⟨k, hk, hcond⟩ := (Option.any_eq_true _ _).mp hrun
  obtain ⟨harrived, hgiven⟩ := of_decide_eq_true hcond
  have hid : 0 < k.arrivals.length := by
    have hlength := congrArg List.length harrived
    rw [List.length_map] at hlength
    exact hlength ▸ Nat.zero_lt_one
  have hm : k.arrivals[0].maxTokens = 2 := by
    have hget : (k.arrivals.map InferenceRequest.maxTokens)[0]? = some 2 := by rw [harrived]; rfl
    rw [List.getElem?_map, List.getElem?_eq_getElem hid] at hget
    exact Option.some.inj hget
  exact ⟨k, hk, hgiven, (max_tokens_respected_iff _ _ _ _ k hk 0 hid (by omega)).2.2⟩

/-- A request for no token receives one. -/
theorem max_tokens_zero_delivers :
    ¬ ∀ (L : Type) (b : Bridge L) (config : Config) (order : ChildOrder)
    (actions : List Action) (k : Worker L), (Worker.init config order : Worker L).Run b actions k →
      ∀ req ∈ k.arrivals, 0 ≤ req.maxTokens →
      ((delivered (k.world.eventsOf req.id)).length : ℤ) ≤ req.limit b := by
  intro hall
  have hrun : (run (Worker.step (Bridge.counting (fun _ => [5, 6]) 0))
      (Worker.init ⟨4, 64, true⟩ .stored)
      (.enqueue { maxTokens := 0 } :: Worker.iteration 0 0)).any (fun k =>
        k.arrivals.map (fun req => (req.id, req.maxTokens)) = [(0, 0)] ∧
          delivered (k.world.eventsOf 0) = [1]) = true := by
    decide +kernel
  obtain ⟨k, hk, hcond⟩ := (Option.any_eq_true _ _).mp hrun
  obtain ⟨harrived, hgiven⟩ := of_decide_eq_true hcond
  have hmem : (0, 0) ∈ k.arrivals.map fun req => (req.id, req.maxTokens) := by
    rw [harrived]; exact List.mem_cons_self
  obtain ⟨req, hreq, hfields⟩ := List.mem_map.mp hmem
  obtain ⟨hid, hm⟩ := Prod.mk.inj hfields
  have hle := hall _ _ _ _ _ k hk req hreq hm.ge
  rw [hid, hgiven] at hle
  have hlimit : req.limit (Bridge.counting (fun _ => [5, 6]) 0) ≤ 0 := hm ▸ min_le_left _ _
  simp only [List.length_singleton] at hle
  omega

end RadixForge
