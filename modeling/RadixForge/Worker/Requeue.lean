import RadixForge.Worker.Bounds
import RadixForge.Worker.Callbacks

/-!
# The order of the requests put back

A batch goes back to the queue in two lists: the requests that wait for a pending prefix, and from
the first one that finds no sequence id on the rest of the batch. All of the former were popped
before the latter, but the latter are put in front of them.
-/

namespace RadixForge

open Library

variable {L : Type} {b : Bridge L} {config : Config} {order : ChildOrder}

/-- A request that stays in the queue keeps its id. -/
theorem keepQueued_id (req : InferenceRequest) (w : World) :
    ∀ r ∈ (keepQueued req w).1, r.id = req.id := by
  have hid := isCancelled_id req w
  intro r hr
  unfold keepQueued at hr
  simp only at hr
  split at hr
  · contradiction
  · rw [← Option.mem_some_iff.mp hr]
    exact hid

/-- A request goes back under its id. -/
theorem prepareOne_id (req : InferenceRequest) (w : World) :
    (∀ r, (prepareOne b req w).1 = .deferred r → r.id = req.id) ∧
      ∀ r, (prepareOne b req w).1 = .exhausted r → r.id = req.id := by
  unfold prepareOne
  simp only
  split
  · exact ⟨fun r h => by contradiction, fun r h => by contradiction⟩
  · split
    · exact ⟨fun r h => by cases h; exact InferenceRequest.clamp_id _ _,
        fun r h => by contradiction⟩
    · split
      · exact ⟨fun r h => by contradiction,
          fun r h => by cases h; exact InferenceRequest.clamp_id _ _⟩
      · split
        · exact ⟨fun r h => by contradiction, fun r h => by contradiction⟩
        · exact ⟨fun r h => by contradiction, fun r h => by contradiction⟩

/-- The deferred requests and behind them the queued ones are in the order of the batch. -/
theorem prepareAll_order (reqs : List InferenceRequest) (w : World) :
    (((prepareAll b reqs w).1.deferred ++ (prepareAll b reqs w).1.queued).map
      InferenceRequest.id).Sublist
      (reqs.map InferenceRequest.id) := by
  induction reqs generalizing w with
  | nil => exact List.Sublist.refl _
  | cons req rest ih =>
    have hid := isCancelled_id req w
    simp only [prepareAll]
    generalize isCancelled req w = polled at hid ⊢
    obtain ⟨cancelled, req', w₁⟩ := polled
    simp only at hid ⊢
    rw [List.map_cons, ← hid]
    split
    · exact (ih w₁).cons _
    · obtain ⟨hdeferred, hexhausted⟩ := prepareOne_id (b := b) req' w₁
      generalize prepareOne b req' w₁ = outcome at hdeferred hexhausted ⊢
      obtain ⟨preparation, w₂⟩ := outcome
      cases preparation with
      | rejected => exact (ih w₂).cons _
      | deferred r =>
        simp only [List.cons_append, List.map_cons, hdeferred r rfl]
        exact (ih w₂).cons_cons _
      | exhausted r =>
        simp only [List.nil_append, List.map_cons, hexhausted r rfl]
        exact (pass_sublist keepQueued_id rest w₂).cons_cons _
      | prepared ctx => exact (ih w₂).cons _

namespace Worker

variable {k k' : Worker L}

/-- Until the requests are put back, others only arrive. -/
theorem run_prepared {retry : List InferenceRequest} (hphase : k.phase = .prepared retry)
    {actions : List Action} (hrequeue : Action.requeue ∉ actions) (hrun : k.Run b actions k') :
    k'.phase = .prepared retry ∧ ∃ arrived, k'.queue = k.queue ++ arrived := by
  induction actions generalizing k with
  | nil =>
    cases hrun
    exact ⟨hphase, [], (List.append_nil _).symm⟩
  | cons action rest ih =>
    obtain ⟨k₁, hstep, hrest⟩ := Option.bind_eq_some_iff.mp hrun
    rw [List.mem_cons, not_or] at hrequeue
    have hnext (hphase₁ : k₁.phase = .prepared retry) := ih hphase₁ hrequeue.2 hrest
    cases action with
    | enqueue req =>
      cases hstep
      obtain ⟨hphase', arrived, hqueue⟩ := hnext hphase
      exact ⟨hphase', _ :: arrived, by rw [hqueue, List.append_assoc, List.singleton_append]⟩
    | stop =>
      cases hstep
      exact hnext hphase
    | requeue => exact absurd rfl hrequeue.1
    | check | pop | prepare | fuse => simp [step, hphase] at hstep

end Worker

/-- In every run, what a batch puts back stands in front of everything that was waiting. It is in
the order in which it was popped exactly if not both causes occurred: a batch with deferred and
queued requests is always put back in another order. -/
theorem requeued_in_order_iff (b : Bridge L) (config : Config) (order : ChildOrder)
    (actions : List Action) (k : Worker L)
    (hrun : (Worker.init config order : Worker L).Run b actions k) (pending : List InferenceRequest)
    (hphase : k.phase = .admitted pending) (between : List Action)
    (hbetween : Action.requeue ∉ between) (k' : Worker L)
    (hrequeued : k.Run b (.prepare :: between ++ [.requeue]) k') :
    let batch := (prepareAll b pending k.world).1
    ∃ requeued arrived, k'.queue = requeued ++ (k.queue ++ arrived) ∧
      (requeued.map InferenceRequest.id).Perm
        ((batch.deferred ++ batch.queued).map InferenceRequest.id) ∧
      ((requeued.map InferenceRequest.id).Sublist (pending.map InferenceRequest.id) ↔
        batch.deferred = [] ∨ batch.queued = []) := by
  obtain ⟨k₁, hbefore, hlast⟩ := run_snoc.mp hrequeued
  obtain ⟨k₂, hprepare, hrest⟩ := Option.bind_eq_some_iff.mp hbefore
  simp only [Worker.step, hphase, Option.some.injEq] at hprepare
  subst hprepare
  obtain ⟨hphase₁, arrived, hqueue⟩ :=
    Worker.run_prepared (k := k.prepare b pending) rfl hbetween hrest
  simp only [Worker.step, hphase₁, Option.some.injEq] at hlast
  subst hlast
  refine ⟨_, arrived, congrArg _ hqueue, ?_, ?_⟩
  · rw [List.map_append, List.map_append]
    exact List.perm_append_comm
  · have hnodup : (pending.map InferenceRequest.id).Nodup := by
      have hserves := (Worker.run_serves_all hrun).nodup
      rw [Worker.present, show k.waiting = k.queue ++ pending by simp [Worker.waiting, hphase],
        List.map_append] at hserves
      exact (List.nodup_append.mp (List.nodup_append.mp hserves).2.1).2.1
    have hkept := prepareAll_order (b := b) pending k.world
    rw [List.map_append] at hkept ⊢
    rw [swapped_sublist_iff hnodup hkept, List.map_eq_nil_iff, List.map_eq_nil_iff]

/-- A model with five sequence slots and three prompts. -/
def Bridge.threePrompts : Bridge Unit :=
  { Bridge.counting (fun text => if text = "a" then [1, 2] else if text = "b" then [5, 6] else [7,
    8]) 99 with nSeqMax := 5 }

/-- Two prompts served and retained; then both again, the first of them before two requests with a
new prompt. -/
def crowdedBatch : List Action :=
  .enqueue { prompt := "a", maxTokens := 1 } :: .enqueue { prompt := "b", maxTokens := 1 } ::
    Worker.iteration 0 0 ++
    [.enqueue { prompt := "a" }, .enqueue {}, .enqueue {}, .enqueue { prompt := "b" }, .check, .pop]

/-- The third request of the batch waits for the second one's prefix, and the fourth finds no id: it
is put back in front of the third. -/
theorem requeued_in_order_iff_crowded :
    ∃ (k : Worker Unit) (pending : List InferenceRequest) (k' : Worker Unit),
    (Worker.init ⟨5, 64, true⟩ .stored).Run Bridge.threePrompts crowdedBatch k ∧
    k.phase = .admitted pending ∧
      k.Run Bridge.threePrompts [.prepare, .requeue] k' ∧
      ∃ requeued arrived, k'.queue = requeued ++ (k.queue ++ arrived) ∧
        ¬ (requeued.map InferenceRequest.id).Sublist (pending.map InferenceRequest.id) := by
  have hrun : (run (Worker.step Bridge.threePrompts) (Worker.init ⟨5, 64, true⟩ .stored)
      crowdedBatch).any (fun k =>
      (run (Worker.step Bridge.threePrompts) k [.prepare, .requeue]).isSome ∧
        (prepareAll Bridge.threePrompts k.admitted k.world).1.deferred.map InferenceRequest.id =
          [4] ∧
        (prepareAll Bridge.threePrompts k.admitted k.world).1.queued.map InferenceRequest.id =
          [5]) = true := by
    decide +kernel
  obtain ⟨k, hk, hcond⟩ := (Option.any_eq_true _ _).mp hrun
  obtain ⟨hsome, hdeferred, hqueued⟩ := of_decide_eq_true hcond
  obtain ⟨k', hk'⟩ := Option.isSome_iff_exists.mp hsome
  cases hphase : k.phase with
  | admitted pending =>
    simp only [Worker.admitted, hphase] at hdeferred hqueued
    obtain ⟨requeued, arrived, hqueue, _, hiff⟩ :=
      requeued_in_order_iff Bridge.threePrompts ⟨5, 64, true⟩ .stored
      crowdedBatch k hk pending hphase [] List.not_mem_nil k' hk'
    refine ⟨k, pending, k', hk, hphase, hk', requeued, arrived, hqueue, hiff.not.mpr ?_⟩
    rintro (hnil | hnil)
    · rw [hnil] at hdeferred
      exact absurd hdeferred (by decide)
    · rw [hnil] at hqueued
      exact absurd hqueued (by decide)
  | _ => simp [Worker.admitted, hphase, prepareAll] at hdeferred

/-- A request that was popped later is put back in front of one that was deferred. -/
theorem requeued_out_of_order : ¬ ∀ (L : Type) (b : Bridge L) (config : Config) (order : ChildOrder)
    (actions : List Action) (k : Worker L), (Worker.init config order : Worker L).Run b actions k →
      ∀ (pending : List InferenceRequest), k.phase = .admitted pending →
      ∀ k', k.Run b [.prepare, .requeue] k' →
        ∃ requeued arrived, k'.queue = requeued ++ (k.queue ++ arrived) ∧
          (requeued.map InferenceRequest.id).Perm (((prepareAll b pending k.world).1.deferred ++
            (prepareAll b pending k.world).1.queued).map InferenceRequest.id) ∧
          (requeued.map InferenceRequest.id).Sublist (pending.map InferenceRequest.id) := by
  intro hall
  have hrun : (run (Worker.step Bridge.threePrompts) (Worker.init ⟨5, 64, true⟩ .stored)
      crowdedBatch).any (fun k =>
      (run (Worker.step Bridge.threePrompts) k [.prepare, .requeue]).any (fun k' =>
        k'.queue.map InferenceRequest.id = [5, 4]) ∧
          k.admitted.map InferenceRequest.id = [2, 3, 4, 5] ∧
        (prepareAll Bridge.threePrompts k.admitted k.world).1.deferred.map InferenceRequest.id =
          [4] ∧
        (prepareAll Bridge.threePrompts k.admitted k.world).1.queued.map InferenceRequest.id =
          [5]) = true := by
    decide +kernel
  obtain ⟨k, hk, hcond⟩ := (Option.any_eq_true _ _).mp hrun
  obtain ⟨hsome, hadmitted, hdeferred, hqueued⟩ := of_decide_eq_true hcond
  obtain ⟨k', hk', hqueue'⟩ := (Option.any_eq_true _ _).mp hsome
  have hids : k'.queue.map InferenceRequest.id = [5, 4] := of_decide_eq_true hqueue'
  cases hphase : k.phase with
  | admitted pending =>
    simp only [Worker.admitted, hphase] at hadmitted hdeferred hqueued
    obtain ⟨requeued, arrived, hqueue, hperm, hsublist⟩ := hall _ _ _ _ _ k hk pending hphase k' hk'
    rw [List.map_append, hdeferred, hqueued] at hperm
    rw [hqueue, List.map_append] at hids
    -- both requests of the queue are put back, in this order
    have hback : requeued.map InferenceRequest.id = [5, 4] :=
      List.append_inj_left (hids.trans (List.append_nil _).symm) hperm.length_eq
    rw [hback, hadmitted] at hsublist
    exact absurd hsublist (by decide)
  | _ => simp [Worker.admitted, hphase] at hadmitted

end RadixForge
