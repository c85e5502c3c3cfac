import RadixForge.Worker.Callbacks

/-!
# No request is lost or duplicated

`prepare_all` sends each request of its batch to one place, and over a run every request that
arrived is in one place or has left after one terminal event; the sequences and references in use
are those of the prefills and active sequences.
-/

namespace RadixForge

open Library

variable {L : Type} {b : Bridge L} {config : Config} {order : ChildOrder}

/-- The requests of a prepared batch that stay. -/
def Batch.kept (batch : Batch) : List ℕ :=
  batch.ctxs.map (fun ctx => ctx.req.id) ++ batch.deferred.map InferenceRequest.id ++
    batch.queued.map InferenceRequest.id

/-- A request of the batch was told that it is rejected. -/
def RejectedBy (w w' : World) (id : ℕ) : Prop :=
  ∃ message status, w'.eventsOf id = w.eventsOf id ++ [.polled false, .onError message status]

/-- A request of the batch was found cancelled. -/
def CancelledBy (w w' : World) (id : ℕ) : Prop :=
  w'.eventsOf id = w.eventsOf id ++ [.polled true, .onCancel]

/-- Each request of the batch is prepared, deferred, queued, rejected or cancelled, and only one of
these; requests that stay were polled once and told nothing. -/
structure Sorted (reqs : List InferenceRequest) (batch : Batch) (w w' : World) : Prop where
  once : batch.kept.Nodup
  known : ∀ id ∈ batch.kept, id ∈ reqs.map InferenceRequest.id
  kept : ∀ id ∈ batch.kept, w'.eventsOf id = w.eventsOf id ++ [.polled false]
  gone : ∀ id ∈ reqs.map InferenceRequest.id, id ∉ batch.kept → RejectedBy w w' id ∨
    CancelledBy w w' id
  others : ∀ id, id ∉ reqs.map InferenceRequest.id → w'.eventsOf id = w.eventsOf id

namespace Sorted

variable {req : InferenceRequest} {rest : List InferenceRequest} {batch batch' : Batch}
  {w w₁ w' : World} {es : List Event}

/-- A batch of no requests is sorted. -/
theorem nil (w : World) : Sorted [] {} w w :=
  ⟨List.nodup_nil, fun _ h => absurd h List.not_mem_nil, fun _ h => absurd h List.not_mem_nil,
    fun _ h => absurd h List.not_mem_nil, fun _ _ => rfl⟩

/-- The first request of the batch is told something, and not by what the rest is told. -/
theorem first (h : Sorted rest batch w₁ w') (hnew : req.id ∉ rest.map InferenceRequest.id)
    (hadds : w.Adds w₁ req.id es) : w'.eventsOf req.id = w.eventsOf req.id ++ es := by
  rw [h.others _ hnew, hadds, if_pos rfl]

/-- What one request hears the others do not. -/
theorem before (hnew : req.id ∉ rest.map InferenceRequest.id) (hadds : w.Adds w₁ req.id es) {id : ℕ}
    (hid : id ∈ rest.map InferenceRequest.id) : w₁.eventsOf id = w.eventsOf id := by
  have hne : req.id ≠ id := fun heq => hnew (heq ▸ hid)
  rw [hadds, if_neg hne]

/-- The first request leaves. -/
theorem leave (h : Sorted rest batch w₁ w') (hnew : req.id ∉ rest.map InferenceRequest.id)
    (hadds : w.Adds w₁ req.id es)
    (hes : (∃ message status, es = [.polled false, .onError message status]) ∨
      es = [.polled true, .onCancel]) :
    Sorted (req :: rest) batch w w' where
  once := h.once
  known id hid := List.mem_cons_of_mem _ (h.known id hid)
  kept id hid := by rw [h.kept id hid, before hnew hadds (h.known id hid)]
  gone id hid hnot := by
    rcases List.mem_cons.mp hid with rfl | hid
    · rcases hes with ⟨message, status, rfl⟩ | rfl
      · exact Or.inl ⟨message, status, h.first hnew hadds⟩
      · exact Or.inr (h.first hnew hadds)
    · have hsame := before hnew hadds hid
      rcases h.gone id hid hnot with ⟨message, status, htold⟩ | htold
      · exact Or.inl ⟨message, status, htold.trans (by rw [hsame])⟩
      · exact Or.inr (htold.trans (by rw [hsame]))
  others id hnot := by
    rw [List.map_cons, List.mem_cons, not_or] at hnot
    rw [h.others id hnot.2, hadds, if_neg (Ne.symm hnot.1)]

/-- The first request stays. -/
theorem keep (h : Sorted rest batch w₁ w') (hnew : req.id ∉ rest.map InferenceRequest.id)
    (hadds : w.Adds w₁ req.id [.polled false]) (hkept : batch'.kept.Perm (req.id :: batch.kept)) :
    Sorted (req :: rest) batch' w w' where
  once := hkept.nodup_iff.mpr (List.nodup_cons.mpr ⟨fun hid => hnew (h.known _ hid), h.once⟩)
  known id hid := by
    rcases List.mem_cons.mp (hkept.mem_iff.mp hid) with rfl | hid
    · exact List.mem_cons_self
    · exact List.mem_cons_of_mem _ (h.known id hid)
  kept id hid := by
    rcases List.mem_cons.mp (hkept.mem_iff.mp hid) with rfl | hid
    · exact h.first hnew hadds
    · rw [h.kept id hid, before hnew hadds (h.known id hid)]
  gone id hid hnot := by
    rw [hkept.mem_iff, List.mem_cons, not_or] at hnot
    have hid := (List.mem_cons.mp hid).resolve_left hnot.1
    have hsame := before hnew hadds hid
    rcases h.gone id hid hnot.2 with ⟨message, status, htold⟩ | htold
    · exact Or.inl ⟨message, status, htold.trans (by rw [hsame])⟩
    · exact Or.inr (htold.trans (by rw [hsame]))
  others id hnot := by
    rw [List.map_cons, List.mem_cons, not_or] at hnot
    rw [h.others id hnot.2, hadds, if_neg (Ne.symm hnot.1)]

end Sorted

/-- The request of an outcome that stays. -/
def Preparation.stays : Preparation → Option ℕ
  | .rejected => none
  | .deferred req => some req.id
  | .exhausted req => some req.id
  | .prepared ctx => some ctx.req.id

/-- One request of the batch is rejected with an error, or it stays and is told nothing. -/
theorem prepareOne_adds (req : InferenceRequest) (w : World) :
    (∃ message status, (prepareOne b req w).1.stays = none ∧
      w.Adds (prepareOne b req w).2 req.id [.onError message status]) ∨
      (prepareOne b req w).1.stays = some req.id ∧ w.Adds (prepareOne b req w).2 req.id [] := by
  have hid := InferenceRequest.clamp_id req (b.available req)
  unfold prepareOne
  simp only
  split
  · exact Or.inl ⟨_, _, rfl, World.adds_callback _ _ _⟩
  · split
    · exact Or.inr ⟨congrArg some hid, World.adds_nothing (fun _ => rfl) _⟩
    · simp only [World.prepareSequence]
      cases hresult : (w.mapper.prepareSequence (b.promptTokens req)).2 with
      | error e => exact Or.inr ⟨congrArg some hid, World.adds_call _ _ _⟩
      | ok prep =>
        have hadmitted : w.Adds ((w.call (.prepare (b.promptTokens req))).note
            (.admitted (req.clamp (b.available req)).id (b.promptTokens req) prep)) req.id [] :=
          (World.adds_call _ _ _).quiet
            (World.adds_nothing (fun _ => World.admitted_eventsOf _ _ _ _ _) _)
        simp only
        split
        · refine Or.inl ⟨"internal cache preparation error", 500, rfl, ?_⟩
          simp only [hid] at hadmitted ⊢
          exact ((hadmitted.quiet (World.adds_leaving _ _ _ _ _ _ _)).quiet
            (World.adds_giveBack _ _ _ _ _ _)).after (World.adds_callback _ _ _)
        · exact Or.inr ⟨congrArg some hid, hadmitted⟩

/-- A poll of a request whose cancellation was not noticed before. -/
theorem isCancelled_adds {req : InferenceRequest} (hinstalled : req.onCancel = true) (w : World) :
    w.Adds (isCancelled req w).2.2 req.id
      (if (isCancelled req w).1 then [.polled true, .onCancel] else [.polled false]) := by
  have hpolls := w.isCancelled_polls req
  generalize isCancelled req w = polled at hpolls ⊢
  cases hpolls with
  | running w' _ hadds => exact hadds
  | first w' _ _ hadds => exact hadds
  | again w' _ hagain => exact absurd (hinstalled.symm.trans hagain) Bool.noConfusion

/-- After an exhausted pool the rest of the batch is queued, but for what is cancelled. -/
theorem keepQueued_sorted {reqs : List InferenceRequest}
    (hnodup : (reqs.map InferenceRequest.id).Nodup) (hinstalled : ∀ req ∈ reqs, req.onCancel = true)
    (w : World) :
    Sorted reqs { queued := (pass keepQueued reqs w).1 } w (pass keepQueued reqs w).2 := by
  induction reqs generalizing w with
  | nil => exact .nil w
  | cons req rest ih =>
    obtain ⟨hnew, hnodup⟩ := List.nodup_cons.mp hnodup
    have hadds := isCancelled_adds (hinstalled req List.mem_cons_self) w
    have hid := isCancelled_id req w
    have hvisit : keepQueued req w =
        (if (isCancelled req w).1 then none else some (isCancelled req w).2.1,
      (isCancelled req w).2.2) := rfl
    rw [pass_cons, hvisit]
    generalize isCancelled req w = polled at hadds hid ⊢
    obtain ⟨cancelled, req', w₁⟩ := polled
    have hrest := ih hnodup (fun r hr => hinstalled r (List.mem_cons_of_mem _ hr)) w₁
    cases cancelled with
    | true => exact hrest.leave hnew hadds (Or.inr rfl)
    | false =>
      refine hrest.keep hnew hadds ?_
      simp only at hid
      simp [Batch.kept, hid]

/-- One call of `prepare_all` sends each request of its batch to one place. -/
theorem prepareAll_sorted {reqs : List InferenceRequest}
    (hnodup : (reqs.map InferenceRequest.id).Nodup) (hinstalled : ∀ req ∈ reqs, req.onCancel = true)
    (w : World) :
    Sorted reqs (prepareAll b reqs w).1 w (prepareAll b reqs w).2 := by
  induction reqs generalizing w with
  | nil => exact .nil w
  | cons req rest ih =>
    obtain ⟨hnew, hnodup⟩ := List.nodup_cons.mp hnodup
    have hinstalled' := fun r hr => hinstalled r (List.mem_cons_of_mem req hr)
    have hadds := isCancelled_adds (hinstalled req List.mem_cons_self) w
    have hid := isCancelled_id req w
    unfold prepareAll
    generalize isCancelled req w = polled at hadds hid ⊢
    obtain ⟨cancelled, req', w₁⟩ := polled
    cases cancelled with
    | true => exact (ih hnodup hinstalled' w₁).leave hnew hadds (Or.inr rfl)
    | false =>
      have hone := prepareOne_adds (b := b) req' w₁
      simp only at hid hadds
      rw [hid] at hone
      simp only [Bool.false_eq_true, if_false] at hadds ⊢
      generalize prepareOne b req' w₁ = outcome at hone ⊢
      obtain ⟨preparation, w₂⟩ := outcome
      rcases hone with ⟨message, status, hgone, htold⟩ | ⟨hstays, htold⟩
      · cases preparation with
        | rejected =>
          exact (ih hnodup hinstalled' w₂).leave hnew (hadds.trans htold)
            (Or.inl ⟨message, status, rfl⟩)
        | deferred _ => contradiction
        | exhausted _ => contradiction
        | prepared _ => contradiction
      · have hasked := hadds.quiet htold
        cases preparation with
        | rejected => contradiction
        | deferred r =>
          refine (ih hnodup hinstalled' w₂).keep hnew hasked ?_
          simp only [Batch.kept,
            List.map_cons, Option.some.inj hstays, List.append_assoc, List.cons_append]
          exact List.perm_middle
        | exhausted r =>
          refine (keepQueued_sorted hnodup hinstalled' w₂).keep hnew hasked ?_
          simp [Batch.kept, Option.some.inj hstays]
        | prepared ctx =>
          refine (ih hnodup hinstalled' w₂).keep hnew hasked ?_
          simp [Batch.kept, Option.some.inj hstays]

namespace Worker

variable {k : Worker L} {allowed : Closing → Tail → Prop}

/-- The sequence ids in use are those of the prefills and active sequences, each once, and every
reference in the tree is that of one of them, but for the root's own. -/
structure Owns (k : Worker L) : Prop where
  nodup : (k.slots.active.map ActiveSeq.seqId ++
    k.slots.prefilling.map (fun ctx => ctx.prep.seqId)).Nodup
  used : ∀ i, k.world.mapper.tree.Registered i ∧ i ∉ k.world.mapper.retainedSeqIds ↔
    i ∈ k.slots.active.map ActiveSeq.seqId ++ k.slots.prefilling.map (fun ctx => ctx.prep.seqId)
  refs : ∀ n, (k.world.mapper.tree.data n).refCount =
    (k.slots.active.map ActiveSeq.leafNode ++
      k.slots.prefilling.map (fun ctx => ctx.prep.leafNode)).count n +
      if n = rootId then 1 else 0

/-- The loop owns what its slots hold. -/
theorem Follows.owns (h : k.Follows config order) : k.Owns := by
  obtain ⟨s, hfollows, hlive, _, hholds, _⟩ := h.tracked
  obtain ⟨path, idle, hbooks⟩ := hfollows.sound
  have hids : (k.slots.tickets.map Ticket.client).map Client.seqId =
      k.slots.active.map ActiveSeq.seqId ++ k.slots.prefilling.map (fun ctx => ctx.prep.seqId) := by
    simp [Slots.tickets, Function.comp_def, ActiveSeq.ticket, PrefillCtx.ticket]
  have hleaves : (k.slots.tickets.map Ticket.client).map Client.leaf =
      k.slots.active.map ActiveSeq.leafNode ++
        k.slots.prefilling.map (fun ctx => ctx.prep.leafNode) := by
    simp [Slots.tickets, Function.comp_def, ActiveSeq.ticket, PrefillCtx.ticket]
  have hperm := hlive.map Client.seqId
  rw [hids] at hperm
  refine ⟨hperm.nodup_iff.mp hbooks.accounts.nodup, fun i => ?_, fun n => ?_⟩
  · rw [← hfollows.mapper, ← hperm.mem_iff, hbooks.registered_iff, hbooks.accounts.retained]
    refine ⟨fun hor => hor.1.resolve_right hor.2, fun hmem => ⟨Or.inl hmem, fun hretained => ?_⟩⟩
    obtain ⟨n, hn⟩ := hretained
    exact hbooks.accounts.leases.held_idle i hmem n hn
  · rw [← hfollows.mapper, hbooks.placement.refs, hholds, ← hleaves,
      (hlive.map Client.leaf).symm.count_eq, List.count_nil, Nat.add_zero,
      List.count_eq_countP, List.countP_map]
    congr 1

/-- Every request that arrived is waiting, prefilling or active and was told nothing terminal, or it
left after one terminal event. -/
structure Conserves (k : Worker L) : Prop where
  once : k.present.Nodup
  here : ∀ id ∈ k.present, id < k.arrivals.length ∧ ∀ e ∈ k.world.eventsOf id, e.isTerminal = false
  left : ∀ id < k.arrivals.length, id ∉ k.present →
    (k.world.eventsOf id).countP Event.isTerminal = 1

/-- What is served without a silent or cancelled end is conserved. -/
theorem Serves.conserves
    (hallowed : ∀ closing tail, allowed closing tail → closing ≠ .silent ∧ tail ≠ .cancelled)
    (h : k.Serves b allowed) : k.Conserves where
  once := h.nodup
  here id hid := ⟨(h.opened hid).1, (h.opened hid).2.1⟩
  left id hlt hnot := by
    obtain ⟨closing, tail, hclosing, hdeparted⟩ := h.departed hlt hnot
    obtain ⟨hsilent, htail⟩ := hallowed _ _ hclosing
    exact hdeparted.one_terminal hsilent htail

/-- The requests that wait have their callbacks installed. -/
theorem Serves.installed (h : k.Serves b allowed) {req : InferenceRequest}
    (hreq : req ∈ k.waiting) : req.onCancel = true :=
  (World.Ledger.known h (req.record b (contract b allowed k.arrivals))
    (List.mem_append_right _ (List.mem_map_of_mem hreq))).2.installed

/-- Only a call of `stop` changes whether the worker runs. -/
theorem step_running {k' : Worker L} {action : Action} (hstop : action ≠ .stop)
    (hstep : k.step b action = some k') :
    k'.running = k.running := by
  cases step_moves hstep with
  | stop => contradiction
  | enqueue | enter | leave | leaveEmpty | pop | prepare | requeue | fuse => rfl

/-- A worker that is not told to stop keeps running. -/
theorem run_running {actions : List Action} (hstop : Action.stop ∉ actions)
    (hrun : (Worker.init config order : Worker L).Run b actions k) : k.running = true := by
  induction actions using List.reverseRecOn generalizing k with
  | nil => cases hrun; rfl
  | append_singleton before action ih =>
    obtain ⟨k₁, hbefore, hstep⟩ := run_snoc.mp hrun
    rw [List.mem_append, not_or, List.mem_singleton] at hstop
    rw [step_running (Ne.symm hstop.2) hstep]
    exact ih hstop.1 hbefore

/-- A running worker that polls before the last piece admits no other ends. -/
theorem admits_of_cancelsBeforeLast {action : Action} (hrunning : k.running = true)
    (h : k.CancelsBeforeLast b action) :
    k.Admits b (fun closing tail => closing ≠ .silent ∧ tail ≠ .cancelled) action := by
  cases action with
  | fuse first second =>
    refine ⟨fun _ => ⟨Closing.noConfusion, Tail.noConfusion⟩, fun hdecodes seq hseq hopen => ?_⟩
    refine ⟨fun _ => ⟨Closing.noConfusion, Tail.noConfusion⟩,
      fun _ => ⟨Closing.noConfusion, Tail.noConfusion⟩, ?_⟩
    intro hone hspends
    exact absurd hspends (h hdecodes seq hseq (InferenceRequest.polled_cancelAfter hopen hone))
  | enqueue req => exact fun _ => ⟨Closing.noConfusion, Tail.noConfusion⟩
  | check => exact fun hstopped => absurd (hrunning.symm.trans hstopped) Bool.noConfusion
  | pop => exact fun hstopped => absurd (hrunning.symm.trans hstopped) Bool.noConfusion
  | stop | prepare | requeue => exact trivial

end Worker

/-- In every run that is not stopped and in which no request is cancelled right after its last
token, every request that arrived is in one place or left after one terminal event, what left owns
nothing, and a batch about to be prepared is sorted without loss. -/
theorem requests_conserved (b : Bridge L) (config : Config) (order : ChildOrder)
    (actions : List Action) (k : Worker L)
    (hstop : Action.stop ∉ actions) (hrun : (Worker.init config order : Worker L).Run b actions k)
    (hcancels : RunsWithin (Worker.step b) (Worker.CancelsBeforeLast b)
      (Worker.init config order) actions) :
    k.Conserves ∧ k.Owns ∧
      ∀ pending, k.phase = .admitted pending →
        Sorted pending (prepareAll b pending k.world).1 k.world
          (prepareAll b pending k.world).2 := by
  have hserves := Worker.run_serves (fun closing tail => closing ≠ .silent ∧ tail ≠ .cancelled)
    ⟨⟨Closing.noConfusion, Tail.noConfusion⟩, ⟨Closing.noConfusion, Tail.noConfusion⟩⟩
    (fun before a after heq s hs => Worker.admits_of_cancelsBeforeLast
      (Worker.run_running (fun hmem => hstop (by rw [heq]; exact List.mem_append_left _ hmem)) hs)
      (hcancels before a after heq s hs)) hrun
  refine ⟨hserves.conserves fun _ _ h => h, (Worker.run_follows hrun).owns,
    fun pending hphase => ?_⟩
  have hwaiting : k.waiting = k.queue ++ pending := by simp [Worker.waiting, hphase]
  refine prepareAll_sorted ?_
    (fun req hreq => hserves.installed (hwaiting ▸ List.mem_append_right _ hreq)) k.world
  have hnodup := (List.nodup_append.mp hserves.nodup).2.1
  rw [hwaiting, List.map_append] at hnodup
  exact (List.nodup_append.mp hnodup).2.1

/-- Two requests that end by their stop token. -/
theorem requests_conserved_two : ∃ k,
    (Worker.init ⟨4, 64, true⟩ .stored).Run (Bridge.counting (fun _ => [5, 6]) 2)
      (.enqueue {} :: .enqueue { maxTokens := 2 } :: Worker.iteration 0 0 ++ Worker.iteration 0 0)
        k ∧ k.Conserves := by
  have hrun : (run (Worker.step (Bridge.counting (fun _ => [5, 6]) 2))
      (Worker.init ⟨4, 64, true⟩ .stored)
      (.enqueue {} :: .enqueue { maxTokens := 2 } :: Worker.iteration 0 0 ++
        Worker.iteration 0 0)).isSome = true := by
    decide +kernel
  have hcancels : RunsWithin (Worker.step (Bridge.counting (fun _ => [5, 6]) 2))
      (Worker.CancelsBeforeLast (Bridge.counting (fun _ => [5, 6]) 2))
        (Worker.init ⟨4, 64, true⟩ .stored)
      (.enqueue {} :: .enqueue { maxTokens := 2 } :: Worker.iteration 0 0 ++
        Worker.iteration 0 0) := by decide +kernel
  obtain ⟨k, hk⟩ := Option.isSome_iff_exists.mp hrun
  exact ⟨k, hk, (requests_conserved _ _ _ _ k (by simp [Worker.iteration]) hk hcancels).1⟩

/-- A request that is cancelled right after its last token is told twice that it ended. -/
theorem requests_told_twice :
    ¬ ∀ (L : Type) (b : Bridge L) (config : Config) (order : ChildOrder) (actions : List Action)
    (k : Worker L), Action.stop ∉ actions → (Worker.init config order : Worker L).Run b actions k →
      k.Conserves := by
  intro hall
  have hrun : (run (Worker.step (Bridge.counting (fun _ => [5, 6]) 0))
      (Worker.init ⟨4, 64, true⟩ .stored)
      (.enqueue { maxTokens := 2, cancelAfter := some 5 } :: Worker.iteration 0 0 ++
        Worker.iteration 0 0)).any (fun k =>
        k.arrivals.length = 1 ∧ k.present = [] ∧ (k.world.eventsOf 0).countP Event.isTerminal = 2) =
          true := by
    decide +kernel
  obtain ⟨k, hk, hcond⟩ := (Option.any_eq_true _ _).mp hrun
  obtain ⟨harrived, hpresent, htwice⟩ := of_decide_eq_true hcond
  have hconserves := hall _ _ _ _ _ k (by simp [Worker.iteration]) hk
  have hone := hconserves.left 0 (by omega) (by simp [hpresent])
  omega

end RadixForge
