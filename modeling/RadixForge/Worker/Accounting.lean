import Mathlib.Algebra.GroupWithZero.Nat
import RadixForge.Worker.CellCounts

/-!
# The accounting of the worker's cells

The records are kept by the preparation of a batch and by the exit of the loop, and by a fused step
if it records every prompt that it finishes as a whole. Between the steps of such a run every
registered sequence that is not a prefill's is recorded with the number of its cells.
-/

namespace RadixForge

open Library

variable {L : Type} {b : Bridge L} {config : Config} {order : ChildOrder}

section Preparation

variable {w : World} {tickets : List Ticket} {claims : List (Claim SeqId (Option ℕ))}

/-- A callback leaves the claims on recorded cells. -/
theorem World.callback_claimed (h : Claimed World.recorded w claims) (id : ℕ) (e : Event) :
    Claimed World.recorded (w.callback id e) claims :=
  h.same fun _ _ => rfl

/-- A poll leaves the claims on recorded cells. -/
theorem isCancelled_claimed (h : Claimed World.recorded w claims) (req : InferenceRequest) :
    Claimed World.recorded (isCancelled req w).2.2 claims :=
  h.same fun c _ => World.isCancelled_recorded req w c.key

/-- The sequence of a new ticket is not that of another. -/
theorem World.Tracked.fresh {t : Ticket} (h : w.Tracked config order (t :: tickets)) :
    ∀ u ∈ tickets, u.client.seqId ≠ t.client.seqId := by
  obtain ⟨s, hfollows, hlive, _⟩ := h
  intro u hu
  exact seqId_ne_of_perm hfollows.sound.nodup hlive u.client (List.mem_map_of_mem hu)

/-- Claims about sequences of tickets are about sequences of more tickets. -/
theorem Covers.mono {tickets' : List Ticket} (h : Covers tickets claims)
    (hsub : tickets ⊆ tickets') : Covers tickets' claims := by
  intro c hc
  obtain ⟨t, ht, hkey⟩ := h c hc
  exact ⟨t, hsub ht, hkey⟩

/-- A new prefill is claimed by its ticket. -/
theorem Covers.cons (h : Covers tickets claims) (ctx : PrefillCtx) :
    Covers ([ctx.ticket] ++ tickets) ([ctx.cellRecord] ++ claims) := by
  intro c hc
  rcases List.mem_cons.mp hc with rfl | hc
  · exact ⟨ctx.ticket, List.mem_cons_self, rfl⟩
  · exact h.mono (List.subset_cons_self _ _) c hc

/-- A prepared request is recorded with what it took from the cache. -/
theorem prepareOne_claimed (req : InferenceRequest) (h : w.Tracked config order tickets)
    (hcovers : Covers tickets claims) (hclaimed : Claimed World.recorded w claims) :
    Claimed World.recorded (prepareOne b req w).2
      ((prepareOne b req w).1.prefill.toList.map PrefillCtx.cellRecord ++ claims) := by
  unfold prepareOne
  simp only
  split
  · exact World.callback_claimed hclaimed _ _
  · split
    · exact hclaimed
    · simp only [World.prepareSequence]
      cases hresult : (w.mapper.prepareSequence (b.promptTokens req)).2 with
      | error e =>
        refine call_claimed (.prepare (b.promptTokens req)) hcovers rfl (h.exhausted hresult)
          (fun c _ hsubject => ?_) hclaimed
        simp [Call.subject?, hresult, Except.toOption] at hsubject
      | ok prep =>
        have hprepared := h.prepared (req.clamp (b.available req)).id hresult
        have hfresh : ∀ c ∈ claims, prep.seqId ≠ c.key := by
          intro c hc
          obtain ⟨t, ht, hkey⟩ := hcovers c hc
          exact hkey ▸ (hprepared.fresh t ht).symm
        have hothers := call_claimed (.prepare (b.promptTokens req))
          (hcovers.mono (List.subset_cons_self _ _)) rfl hprepared
          (fun c hc hsubject => hfresh c hc
            (by simpa [Call.subject?, hresult, Except.toOption] using hsubject)) hclaimed
        have hnew := hothers.cons (recordedAs prep.seqId prep.cachedPos)
          (fun hmem => (List.mem_map.mp hmem).elim fun c hc => hfresh c hc.1 hc.2.symm)
          (KVMapper.prepareSequence_recorded hresult)
        simp only
        by_cases hempty : prep.delta = []
        · rw [if_pos hempty]
          refine World.callback_claimed (hnew.settle (World.records_none fun k hk => ?_)) _ _
          exact World.giveBack_recorded _ _ _ _ hk
        · rw [if_neg hempty]
          exact hnew

/-- What is kept queued leaves the claims on recorded cells. -/
theorem keepQueued_claimed (reqs : List InferenceRequest)
    (hclaimed : Claimed World.recorded w claims) :
    Claimed World.recorded (pass keepQueued reqs w).2 claims := by
  induction reqs generalizing w with
  | nil => exact hclaimed
  | cons req rest ih => exact ih (isCancelled_claimed hclaimed req)

/-- The preparation of a batch keeps the records right. -/
theorem prepareAll_claimed (reqs : List InferenceRequest) (h : w.Tracked config order tickets)
    (hcovers : Covers tickets claims) (hclaimed : Claimed World.recorded w claims) :
    Claimed World.recorded (prepareAll b reqs w).2
      ((prepareAll b reqs w).1.ctxs.map PrefillCtx.cellRecord ++ claims) := by
  induction reqs generalizing w tickets claims with
  | nil => exact hclaimed
  | cons req rest ih =>
    have hpolled := h.isCancelled req
    have hkept := isCancelled_claimed hclaimed req
    unfold prepareAll
    generalize isCancelled req w = polled at hpolled hkept ⊢
    obtain ⟨cancelled, req, w₁⟩ := polled
    simp only at hpolled hkept ⊢
    split
    · exact ih hpolled hcovers hkept
    · have hone := (prepareOne_tracked (b := b) req hpolled).1
      have hrecorded := prepareOne_claimed (b := b) req hpolled hcovers hkept
      generalize prepareOne b req w₁ = outcome at hone hrecorded ⊢
      obtain ⟨preparation, w₂⟩ := outcome
      cases preparation with
      | rejected => exact ih hone hcovers hrecorded
      | deferred req => exact ih hone hcovers hrecorded
      | exhausted req => exact keepQueued_claimed rest hrecorded
      | prepared ctx =>
        refine (ih hone ?_ hrecorded).perm (List.perm_append_comm_assoc _ [ctx.cellRecord] _)
        exact hcovers.cons ctx

end Preparation

/-- The exit of the loop drops every record. -/
theorem Worker.exit_claimed {k : Worker L}
    (h : Claimed World.recorded k.world k.slots.cellRecords) :
    Claimed World.recorded k.exit.world k.exit.slots.cellRecords := by
  have hactive := failAll_claimed (fun seq w i hi => retire_recorded seq false w hi) h
  rw [← List.append_nil (k.slots.prefilling.map PrefillCtx.cellRecord)] at hactive
  exact failAll_claimed (fun ctx w i hi => abandon_recorded ctx w hi) hactive

/-- A fused step is to record every prompt that it finishes as a whole. -/
def Worker.marksExact (b : Bridge L) (k : Worker L) : Action → Prop
  | .fuse first second => fusedMarksExact b first second k.slots k.world
  | _ => True

instance (b : Bridge L) (k : Worker L) : ∀ action, Decidable (k.marksExact b action)
  | .fuse _ _ => inferInstanceAs (Decidable (fusedMarksExact ..))
  | .enqueue _ | .stop | .check | .pop | .prepare | .requeue => inferInstanceAs (Decidable True)

/-- Every step of the worker and of the threads around it keeps the records right. -/
theorem Worker.step_claimed {k k' : Worker L} {action : Action} (h : k.Follows config order)
    (hmarks : k.marksExact b action) (hstep : k.step b action = some k')
    (hclaimed : Claimed World.recorded k.world k.slots.cellRecords) :
    Claimed World.recorded k'.world k'.slots.cellRecords := by
  cases step_moves hstep with
  | enqueue | stop | enter | pop | requeue => exact hclaimed
  | leave | leaveEmpty => exact exit_claimed hclaimed
  | @prepare pending hphase =>
    refine (prepareAll_claimed (b := b) pending h.tracked k.slots.covers hclaimed).perm ?_
    simp only [Worker.prepare, Slots.cellRecords, List.map_append]
    exact List.perm_append_comm.trans (List.Perm.of_eq (List.append_assoc _ _ _))
  | fuse first second hphase => exact fusedStep_claimed h.fit first second h.tracked hmarks hclaimed

/-- The records of the worker's sequences in a run whose fused steps record every prompt as a whole.
-/
theorem Worker.run_claimed {actions : List Action} {k : Worker L}
    (hmarks : RunsWithin (Worker.step b) (Worker.marksExact b) (Worker.init config order) actions)
    (hrun : (Worker.init config order : Worker L).Run b actions k) :
    Claimed World.recorded k.world k.slots.cellRecords := by
  have hinit : Claimed World.recorded (Worker.init config order : Worker L).world
      (Worker.init config order : Worker L).slots.cellRecords :=
        ⟨List.nodup_nil, fun c hc => absurd hc List.not_mem_nil⟩
  have hboth : k.Follows config order ∧ Claimed World.recorded k.world k.slots.cellRecords := by
    refine run_invariant_within (P := fun k => k.Follows config order ∧
      Claimed World.recorded k.world k.slots.cellRecords)
      (fun k action k' h hallowed hstep => ?_)
      ⟨init_follows config order, hinit⟩ hmarks hrun
    exact ⟨step_follows h.1 hstep, step_claimed h.1 hallowed hstep h.2⟩
  exact hboth.2

namespace Worker

/-- A listed sequence that is not a prefill's. -/
def Counted (k : Worker L) (i : SeqId) : Prop :=
  k.world.mapper.tree.Registered i ∧ ∀ ctx ∈ k.slots.prefilling, ctx.prep.seqId ≠ i

/-- Every listed sequence that is not a prefill's is recorded with the number of its cells, and what
is used is the sum of these with what the prefills started with. -/
structure CellsExact (k : Worker L) : Prop where
  recorded : ∀ i, k.Counted i → k.world.recorded i = some (k.world.mapper.memory.cells i).length
  used : ∃ counted : Finset SeqId, (∀ i, i ∈ counted ↔ k.Counted i) ∧ k.world.mapper.kvCellsUsed =
    ∑ i ∈ counted, (k.world.mapper.memory.cells i).length +
      (k.slots.prefilling.map fun ctx => ctx.prep.cachedPos).sum

variable {k : Worker L}

/-- The records of the worker's sequences and of the idle ones make the accounting exact. -/
theorem Follows.cells_counted (h : k.Follows config order)
    (hclaimed : Claimed World.recorded k.world k.slots.cellRecords) : k.CellsExact := by
  obtain ⟨s, hfollows, hlive, _⟩ := h.tracked
  obtain ⟨path, idle, hbooks⟩ := hfollows.sound
  have hidle := Session.run_idleRecorded hfollows.run
  have hlisted (i : SeqId) := (hbooks.accounts.counts i).trans (hbooks.registered_iff i).symm
  have hcells := hbooks.contents.clients
  unfold Session.IdleRecorded at hidle
  rw [hfollows.mapper] at hidle hlisted hcells
  have hrecorded : ∀ i, k.Counted i →
      k.world.recorded i = some (k.world.mapper.memory.cells i).length := by
    intro i ⟨hi, hnot⟩
    by_cases howned : i ∈ s.live.map Client.seqId
    · -- the sequence of a request that is not a prefill is that of an active one
      obtain ⟨c, hc, rfl⟩ := List.mem_map.mp howned
      obtain ⟨t, ht, rfl⟩ := List.mem_map.mp (hlive.mem_iff.mp hc)
      rcases List.mem_append.mp ht with hactive | hprefilling
      · obtain ⟨seq, hseq, rfl⟩ := List.mem_map.mp hactive
        have hrecord : k.world.recorded seq.seqId = some seq.pos :=
          hclaimed.holds seq.cellRecord (List.mem_append_left _ (List.mem_map_of_mem hseq))
        obtain ⟨hfits, hdone⟩ := h.fit.active seq hseq
        refine hrecord.trans (congrArg some ?_)
        rw [(hcells _ hc).cells, LlamaMemory.tape_length, hfits.pos hdone]
        rfl
      · obtain ⟨ctx, hctx, rfl⟩ := List.mem_map.mp hprefilling
        exact absurd rfl (hnot ctx hctx)
    · obtain ⟨count, hcount⟩ :=
        Option.isSome_iff_exists.mp (AList.lookup_isSome.mpr ((hlisted i).mpr hi))
      exact hcount.trans (congrArg some (hidle i count hcount howned))
  have hstarting : ∀ ctx ∈ k.slots.prefilling, k.world.recorded ctx.prep.seqId =
      some ctx.prep.cachedPos := fun ctx hctx =>
    hclaimed.holds ctx.cellRecord (List.mem_append_right _ (List.mem_map_of_mem hctx))
  have hnodup : (k.slots.prefilling.map fun ctx => ctx.prep.seqId).Nodup := by
    have hkeys := hclaimed.nodup
    rw [Slots.cellRecords, List.map_append, List.map_map, List.map_map] at hkeys
    exact hkeys.of_append_right
  have hsub : (k.slots.prefilling.map fun ctx => ctx.prep.seqId).toFinset ⊆
      k.world.mapper.seqCellCounts.keys.toFinset := by
    intro i hi
    obtain ⟨ctx, hctx, rfl⟩ := List.mem_map.mp (List.mem_toFinset.mp hi)
    exact List.mem_toFinset.mpr
      (AList.lookup_isSome.mp (Option.isSome_iff_exists.mpr ⟨_, hstarting ctx hctx⟩))
  have hcounted (i : SeqId) : i ∈ k.world.mapper.seqCellCounts.keys.toFinset \
      (k.slots.prefilling.map fun ctx => ctx.prep.seqId).toFinset ↔ k.Counted i := by
    rw [Finset.mem_sdiff, List.mem_toFinset, List.mem_toFinset, List.mem_map]
    refine and_congr (hlisted i) ⟨fun hnot ctx hctx heq => hnot ⟨ctx, hctx, heq⟩, ?_⟩
    rintro hnot ⟨ctx, hctx, heq⟩
    exact hnot ctx hctx heq
  refine ⟨hrecorded, _, hcounted, ?_⟩
  rw [KVMapper.kvCellsUsed_eq, ← Finset.sum_sdiff hsub, List.sum_toFinset _ hnodup, List.map_map]
  congr 1
  · refine Finset.sum_congr rfl fun i hi => ?_
    exact congrArg (Option.getD · 0) (hrecorded i ((hcounted i).mp hi))
  · refine congrArg List.sum (List.map_congr_left fun ctx hctx => ?_)
    exact congrArg (Option.getD · 0) (hstarting ctx hctx)

end Worker

/-- In every run whose fused steps record every prompt that they finish as a whole, the accounting
of the cells is exact in every state. -/
theorem cells_exact (b : Bridge L) (config : Config) (order : ChildOrder) (actions : List Action)
    (k : Worker L)
    (hmarks : RunsWithin (Worker.step b) (Worker.marksExact b) (Worker.init config order) actions)
    (hrun : (Worker.init config order : Worker L).Run b actions k) : k.CellsExact :=
  (Worker.run_follows hrun).cells_counted (Worker.run_claimed hmarks hrun)

/-- Two prompts with a common beginning, of which the longer one comes last. -/
theorem cells_exact_shared : ∃ k,
    (Worker.init ⟨4, 64, true⟩ .stored).Run
      (Bridge.counting (fun text => if text = "" then [1, 2] else [1, 2, 3]) 0)
      (.enqueue {} :: Worker.iteration 0 0 ++ .enqueue { prompt := "a" } ::
        Worker.iteration 0 0) k ∧
      k.Counted 2 ∧ k.CellsExact := by
  have hmarks : RunsWithin
      (Worker.step (Bridge.counting (fun text => if text = "" then [1, 2] else [1, 2, 3]) 0))
      (Worker.marksExact (Bridge.counting (fun text => if text = "" then [1, 2] else [1, 2, 3]) 0))
        (Worker.init ⟨4, 64, true⟩ .stored)
      (.enqueue {} :: Worker.iteration 0 0 ++ .enqueue { prompt := "a" } ::
        Worker.iteration 0 0) := by decide +kernel
  have hrun :
      (run (Worker.step (Bridge.counting (fun text => if text = "" then [1, 2] else [1, 2, 3]) 0))
      (Worker.init ⟨4, 64, true⟩ .stored)
      (.enqueue {} :: Worker.iteration 0 0 ++ .enqueue { prompt := "a" } ::
        Worker.iteration 0 0)).any (fun k =>
        2 ∈ (k.world.mapper.tree.data 2).seqIds ∧
          2 ∉ k.slots.prefilling.map fun ctx => ctx.prep.seqId) = true := by
    decide +kernel
  obtain ⟨k, hk, hcond⟩ := (Option.any_eq_true _ _).mp hrun
  obtain ⟨hlisted, hactive⟩ := of_decide_eq_true hcond
  refine ⟨k, hk, ⟨⟨2, hlisted⟩, fun ctx hctx heq => hactive ?_⟩, cells_exact _ _ _ _ k hmarks hk⟩
  exact List.mem_map.mpr ⟨ctx, hctx, heq⟩

/-- A prompt that ends inside a longer one is recorded with the length of that one. -/
theorem split_prompt_overcounted :
    ¬ ∀ (L : Type) (b : Bridge L) (config : Config) (order : ChildOrder)
    (actions : List Action) (k : Worker L), (Worker.init config order : Worker L).Run b actions k →
      k.CellsExact := by
  intro hall
  have hrun :
      (run (Worker.step (Bridge.counting (fun text => if text = "" then [1, 2] else [1, 2, 3]) 0))
      (Worker.init ⟨4, 64, true⟩ .stored)
      (.enqueue { prompt := "a" } :: Worker.iteration 0 0 ++ .enqueue {} ::
        Worker.iteration 0 0)).any (fun k =>
        2 ∈ (k.world.mapper.tree.data 1).seqIds ∧
          (2 ∉ k.slots.prefilling.map fun ctx => ctx.prep.seqId) ∧
          k.world.recorded 2 = some 3 ∧ (k.world.mapper.memory.cells 2).length = 2) = true := by
    decide +kernel
  obtain ⟨k, hk, hcond⟩ := (Option.any_eq_true _ _).mp hrun
  obtain ⟨hlisted, hactive, hrecorded, hcells⟩ := of_decide_eq_true hcond
  have hexact := (hall _ _ _ _ _ k hk).recorded 2
    ⟨⟨1, hlisted⟩, fun ctx hctx heq => hactive (List.mem_map.mpr ⟨ctx, hctx, heq⟩)⟩
  rw [hrecorded, hcells] at hexact
  exact absurd hexact (by decide)

end RadixForge
