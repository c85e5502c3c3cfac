import RadixForge.Tree.Inspecting
import RadixForge.Worker.Bounds
import RadixForge.Worker.Callbacks

/-!
# Whose sequences the tree lists

A node lists the sequences of the requests registered there and at most one of no request, which is
idle. A listed sequence that is not ready belongs to a prefill that is not finished, so a request
that is deferred waits for such a prefill: the one whose sequence is the pending coverage it found.
-/

namespace RadixForge

open Library

variable {L : Type} {b : Bridge L} {config : Config} {order : ChildOrder}

/-- No node lists two sequences without a client. -/
def Session.IdleOnce (s : Session) : Prop :=
  ∀ n, ∀ i ∈ (s.mapper.tree.data n).seqIds, ∀ j ∈ (s.mapper.tree.data n).seqIds, s.Ownerless i →
    s.Ownerless j → i = j

/-- Every listed sequence that is not ready is that of a client that is not ready, at its node. -/
def Session.PendingOwned (s : Session) : Prop :=
  ∀ n, ∀ i ∈ (s.mapper.tree.data n).seqIds, i ∉ (s.mapper.tree.data n).readySeqIds →
    ∃ c ∈ s.live, c.seqId = i ∧ c.owner = n ∧ c.ready = false

namespace Books

variable {s : Session} {path : NodeId → List Token} {idle : NodeId → Option SeqId}

/-- A listed sequence without a client is the idle one. -/
theorem idle_of_ownerless (h : Books s path idle) {n : NodeId} {i : SeqId}
    (hi : i ∈ (s.mapper.tree.data n).seqIds) (hownerless : s.Ownerless i) : idle n = some i := by
  rcases (h.placement.registers.registered n i).mp hi with ⟨c, hc, _, hseq⟩ | hidle
  · exact absurd hseq (hownerless c hc)
  · exact hidle

/-- In sound books an idle sequence is registered once. -/
theorem idleOnce (h : Books s path idle) : s.IdleOnce := by
  intro n i hi j hj hownerless hownerless'
  have hfirst := h.idle_of_ownerless hi hownerless
  rw [h.idle_of_ownerless hj hownerless'] at hfirst
  exact (Option.some.inj hfirst).symm

/-- In sound books a pending sequence belongs to a request that is still prefilling. -/
theorem pendingOwned (h : Books s path idle) : s.PendingOwned := by
  intro n i hi hpending
  rcases (h.placement.registers.registered n i).mp hi with ⟨c, hc, howner, hseq⟩ | hidle
  · refine ⟨c, hc, hseq, howner, Bool.eq_false_iff.mpr fun hready => hpending ?_⟩
    exact (h.placement.registers.readied n i).mpr (Or.inl ⟨c, hc, howner, hseq, hready⟩)
  · exact absurd ((h.placement.registers.readied n i).mpr (Or.inr hidle)) hpending

end Books

/-- The sequences of the tickets are those of the slots. -/
theorem Slots.tickets_seqIds (slots : Slots L) :
    (slots.tickets.map Ticket.client).map Client.seqId = slots.seqIds := by
  simp [Slots.tickets, Slots.seqIds, Function.comp_def, ActiveSeq.ticket, PrefillCtx.ticket]

/-- In every state of every run of the worker, and after each single call of it, a node lists at
most one sequence that no request owns. -/
theorem one_idle_per_node (b : Bridge L) (config : Config) (order : ChildOrder)
    (actions : List Action) (k : Worker L)
    (hrun : (Worker.init config order : Worker L).Run b actions k) :
    (∀ n, ∀ i ∈ (k.world.mapper.tree.data n).seqIds, ∀ j ∈ (k.world.mapper.tree.data n).seqIds,
        i ∉ k.slots.seqIds → j ∉ k.slots.seqIds → i = j) ∧
      ∀ before, before <+: k.world.log → ∃ s, (Session.init config order).Run (callsOf before) s ∧
        s.Hosts (heldOf before) ∧ s.IdleOnce := by
  obtain ⟨s, hfollows, hlive, _⟩ := (Worker.run_follows hrun).tracked
  obtain ⟨path, idle, hbooks⟩ := hfollows.sound
  constructor
  · intro n i hi j hj hnot hnot'
    have hids := hlive.map Client.seqId
    rw [Slots.tickets_seqIds] at hids
    have hownerless {a : SeqId} (ha : a ∉ k.slots.seqIds) : s.Ownerless a := by
      rintro c hc rfl
      exact ha (hids.mem_iff.mp (List.mem_map_of_mem hc))
    rw [← hfollows.mapper] at hi hj
    exact hbooks.idleOnce n i hi j hj (hownerless hnot) (hownerless hnot')
  · intro before hbefore
    obtain ⟨s', hrun', hhosts⟩ := hfollows.past before hbefore
    obtain ⟨_, _, hbooks'⟩ := Session.run_sound hrun'
    exact ⟨s', hrun', hhosts, hbooks'.idleOnce⟩

/-- The second of two requests with one prompt meets the idle sequence of the first one at its node.
-/
theorem one_idle_per_node_shared : ∃ k,
    (Worker.init ⟨4, 64, true⟩ .stored).Run (Bridge.counting (fun _ => [5, 6]) 1)
        (.enqueue {} :: (Worker.iteration 0 0 ++ .enqueue { id := 1 } ::
          (Worker.iteration 0 0).take 4)) k ∧
      (k.world.mapper.tree.data 1).seqIds.toList = [1, 2] ∧ k.slots.seqIds = [2] ∧
        ∀ n, ∀ i ∈ (k.world.mapper.tree.data n).seqIds, ∀ j ∈ (k.world.mapper.tree.data n).seqIds,
          i ∉ k.slots.seqIds → j ∉ k.slots.seqIds → i = j := by
  have hrun : (run (Worker.step (Bridge.counting (fun _ => [5, 6]) 1))
      (Worker.init ⟨4, 64, true⟩ .stored)
      (.enqueue {} :: (Worker.iteration 0 0 ++ .enqueue { id := 1 } ::
        (Worker.iteration 0 0).take 4))).any
        (fun k => (k.world.mapper.tree.data 1).seqIds.toList = [1, 2] ∧ k.slots.seqIds = [2]) =
          true := by
    decide +kernel
  obtain ⟨k, hk, hcond⟩ := (Option.any_eq_true _ _).mp hrun
  obtain ⟨hlisted, howned⟩ := of_decide_eq_true hcond
  exact ⟨k, hk, hlisted, howned, (one_idle_per_node _ _ _ _ k hk).1⟩

/-- Every listed sequence that is not ready is that of an unfinished prefill, at its leaf. -/
def World.PendingOwned (w : World) (ctxs : List PrefillCtx) : Prop :=
  ∀ n, ∀ i ∈ (w.mapper.tree.data n).seqIds, i ∉ (w.mapper.tree.data n).readySeqIds →
    ∃ ctx ∈ ctxs, ctx.prep.seqId = i ∧ ctx.prep.leafNode = n ∧
    ctx.deltaStart < ctx.prep.delta.length

/-- The prefills own the pending sequences. -/
theorem World.Tracked.pendingOwned {w : World} {slots : Slots L} {ctxs : List PrefillCtx}
    (h : w.Tracked config order (ctxs.map PrefillCtx.ticket ++ slots.tickets))
    (hunfinished : ∀ ctx ∈ slots.prefilling ++ ctxs, ctx.Unfinished) :
    w.PendingOwned (slots.prefilling ++ ctxs) := by
  obtain ⟨s, hfollows, hlive, _, _, hhand⟩ := h
  obtain ⟨path, idle, hbooks⟩ := hfollows.sound
  intro n i hi hpending
  rw [← hfollows.mapper] at hi hpending
  obtain ⟨c, hc, hseq, howner, hready⟩ := hbooks.pendingOwned n i hi hpending
  have hleaf : c.leaf = n := by rw [← hbooks.owner_eq_leaf hhand hc, howner]
  obtain ⟨ticket, hticket, rfl⟩ := List.mem_map.mp (hlive.mem_iff.mp hc)
  have hprefill : ∃ ctx ∈ slots.prefilling ++ ctxs, ctx.ticket = ticket := by
    rcases List.mem_append.mp hticket with hnew | hold
    · obtain ⟨ctx, hctx, heq⟩ := List.mem_map.mp hnew
      exact ⟨ctx, List.mem_append_right _ hctx, heq⟩
    · rcases List.mem_append.mp hold with hactive | hprefilling
      · -- active sequences are ready
        obtain ⟨seq, _, rfl⟩ := List.mem_map.mp hactive
        exact absurd hready Bool.true_eq_false_eq_False
      · obtain ⟨ctx, hctx, heq⟩ := List.mem_map.mp hprefilling
        exact ⟨ctx, List.mem_append_left _ hctx, heq⟩
  obtain ⟨ctx, hctx, rfl⟩ := hprefill
  exact ⟨ctx, hctx, hseq, hleaf, (hunfinished ctx hctx).2⟩

/-- The prefill is what a request with these tokens waits for: its sequence is listed and not ready
at its leaf, that node covers most of what is pending for the tokens and more than what is ready,
and its request was told nothing terminal. -/
structure PrefillCtx.Delays (ctx : PrefillCtx) (w : World) (tokens : List Token) : Prop where
  listed : ctx.prep.seqId ∈ (w.mapper.tree.data ctx.prep.leafNode).seqIds
  pending : ctx.prep.seqId ∉ (w.mapper.tree.data ctx.prep.leafNode).readySeqIds
  unfinished : ctx.deltaStart < ctx.prep.delta.length
  covers : w.mapper.tree.share NodeData.HasPending tokens ctx.prep.leafNode =
    (w.mapper.inspectPrefix tokens).pendingTokens
  longer : (w.mapper.inspectPrefix tokens).readyTokens <
    (w.mapper.inspectPrefix tokens).pendingTokens
  opened : ∀ e ∈ w.eventsOf ctx.req.id, e.isTerminal = false

/-- A node with a pending sequence lists one that is not ready. -/
theorem NodeData.HasPending.exists_pending {d : NodeData} (h : d.HasPending) :
    ∃ i ∈ d.seqIds, i ∉ d.readySeqIds := by
  by_contra hnone
  push Not at hnone
  have hsub : d.seqIds.toList ⊆ d.readySeqIds.toList := fun i hi => hnone i hi
  exact absurd (d.seqIds.nodup.subperm hsub).length_le (not_le.mpr h)

/-- What makes a request wait is the sequence of a prefill. -/
theorem World.PendingOwned.delays {w : World} {ctxs : List PrefillCtx} (h : w.PendingOwned ctxs)
    {path : NodeId → List Token} (hshape : Shape w.mapper.tree path)
    (hopened : ∀ ctx ∈ ctxs, ∀ e ∈ w.eventsOf ctx.req.id, e.isTerminal = false)
    {tokens : List Token} (hwait : mustWait w tokens = true) :
    ∃ ctx ∈ ctxs, ctx.Delays w tokens := by
  have hlonger : (w.mapper.inspectPrefix tokens).readyTokens <
      (w.mapper.inspectPrefix tokens).pendingTokens := by
    have hdiff := of_decide_eq_true hwait
    omega
  obtain ⟨n, hn⟩ := (hshape.inspectPrefix_spec tokens).2.2.1
  change w.mapper.tree.share NodeData.HasPending tokens n =
    (w.mapper.inspectPrefix tokens).pendingTokens at hn
  have hpending : (w.mapper.tree.data n).HasPending := by
    by_contra hnot
    rw [RadixTree.share, if_neg fun hand => hnot hand.2] at hn
    omega
  obtain ⟨i, hi, hnot⟩ := hpending.exists_pending
  obtain ⟨ctx, hctx, rfl, rfl, hunfinished⟩ := h n i hi hnot
  exact ⟨ctx, hctx, hi, hnot, hunfinished, hn, hlonger, hopened ctx hctx⟩

/-- A poll changes neither the prompt nor the mapper. -/
theorem isCancelled_promptTokens (req : InferenceRequest) (w : World) :
    b.promptTokens (isCancelled req w).2.1 = b.promptTokens req := by
  unfold isCancelled
  split
  · split <;> rfl
  · rfl
  · rfl

/-- The poll of `cancelled` leaves the mapper alone. -/
theorem isCancelled_mapper (req : InferenceRequest) (w : World) :
    (isCancelled req w).2.2.mapper = w.mapper := by
  unfold isCancelled
  split
  · split <;> rfl
  · rfl
  · rfl

/-- A poll answers whether the request is cancelled by now. -/
theorem isCancelled_answer (req : InferenceRequest) (w : World) :
    (isCancelled req w).1 = decide (req.cancelAfter = some 0) := by
  unfold isCancelled
  split
  · rename_i hzero
    simp only [hzero, decide_true]
    split <;> rfl
  · rename_i n hsucc
    simp [hsucc]
  · rename_i hnone
    simp [hnone]

/-- A deferred request was found waiting at its turn. -/
theorem mustWait_of_deferred {req r : InferenceRequest} {w : World}
    (h : (prepareOne b req w).1 = .deferred r) :
    mustWait w (b.promptTokens req) = true := by
  unfold prepareOne at h
  by_contra hnot
  simp only [hnot, if_false] at h
  split at h
  · contradiction
  · split at h
    · contradiction
    · split at h <;> contradiction

/-- The turn of a request in a batch: the requests before it are prepared, and it is not cancelled.
-/
structure DeferredAt (b : Bridge L) (w : World) (before : List InferenceRequest)
    (req r : InferenceRequest) : Prop where
  polled : (isCancelled req (prepareAll b before w).2).1 = false
  deferred : (prepareOne b (isCancelled req (prepareAll b before w).2).2.1
    (isCancelled req (prepareAll b before w).2).2.2).1 = .deferred r

/-- Every deferred request of a batch was deferred at its turn. -/
theorem prepareAll_deferred (reqs : List InferenceRequest) (w : World) :
    ∀ r ∈ (prepareAll b reqs w).1.deferred, ∃ before req after, reqs = before ++ req :: after ∧
      DeferredAt b w before req r := by
  induction reqs generalizing w with
  | nil => exact fun r hr => absurd hr List.not_mem_nil
  | cons req rest ih =>
    intro r hr
    -- the turns of the rest come after that of the first request
    have hlater {w₂ : World} (hworld : ∀ before, (prepareAll b (req :: before) w).2 =
        (prepareAll b before w₂).2)
        (hrest : r ∈ (prepareAll b rest w₂).1.deferred) : ∃ before req' after, req :: rest =
          before ++ req' :: after ∧
          DeferredAt b w before req' r := by
      obtain ⟨before, req', after, heq, hturn⟩ := ih w₂ r hrest
      refine ⟨req :: before, req', after, by rw [heq]; rfl, ?_, ?_⟩
      · rw [hworld]
        exact hturn.polled
      · rw [hworld]
        exact hturn.deferred
    generalize hpolled : isCancelled req w = polled
    obtain ⟨cancelled, req', w₁⟩ := polled
    cases cancelled with
    | true =>
      simp only [prepareAll, hpolled, if_true] at hr
      exact hlater (fun before => by simp only [prepareAll, hpolled, if_true]) hr
    | false =>
      generalize hone : prepareOne b req' w₁ = outcome
      obtain ⟨preparation, w₂⟩ := outcome
      simp only [prepareAll, hpolled, Bool.false_eq_true, if_false, hone] at hr
      cases preparation with
      | rejected => exact hlater (fun before => by simp [prepareAll, hpolled, hone]) hr
      | deferred r' =>
        rcases List.mem_cons.mp hr with rfl | hr
        · refine ⟨[], req, rest, rfl, ?_, ?_⟩
          · simp only [prepareAll, hpolled]
          · simp only [prepareAll, hpolled, hone]
        · exact hlater (fun before => by simp [prepareAll, hpolled, hone]) hr
      | exhausted r' => exact absurd hr List.not_mem_nil
      | prepared ctx => exact hlater (fun before => by simp [prepareAll, hpolled, hone]) hr

/-- The prefills of a worker and of the part of a batch that is prepared are still open. -/
theorem Worker.Serves.prefills_opened {allowed : Closing → Tail → Prop}
    (hfair : allowed .completed .quiet ∧ allowed .rejected .quiet) {k : Worker L}
    (h : k.Serves b allowed) (hfollows : k.Follows config order)
    {before after : List InferenceRequest} (hphase : k.phase = .admitted (before ++ after)) :
    ∀ ctx ∈ k.slots.prefilling ++ (prepareAll b before k.world).1.ctxs,
      ∀ e ∈ (prepareAll b before k.world).2.eventsOf ctx.req.id, e.isTerminal = false := by
  have hledger : k.world.Ledger (contract b allowed k.arrivals)
      (before.map (InferenceRequest.record b (contract b allowed k.arrivals)) ++
        (k.slots.records b (contract b allowed k.arrivals) ++
          (k.queue ++ after).map (InferenceRequest.record b (contract b allowed k.arrivals)))) := by
    refine World.Ledger.perm h ?_
    simp only [waiting, hphase, List.map_append, ← List.append_assoc]
    refine List.Perm.append_right _ ?_
    rw [List.append_assoc, List.append_assoc]
    exact (List.Perm.of_eq (List.append_assoc _ _ _).symm).trans List.perm_append_comm
  have hprepared := prepareAll_ledger ⟨hfair.1, hfair.2⟩ before hfollows.tracked hledger
  intro ctx hctx
  have hrecord : ctx.record b (contract b allowed k.arrivals) ∈
      (prepareAll b before k.world).1.records b (contract b allowed k.arrivals) ++
        (k.slots.records b (contract b allowed k.arrivals) ++
          (k.queue ++ after).map (InferenceRequest.record b (contract b allowed k.arrivals))) := by
    rcases List.mem_append.mp hctx with hctx | hctx
    · exact List.mem_append_right _
        (List.mem_append_left _ (List.mem_append_right _ (List.mem_map_of_mem hctx)))
    · exact List.mem_append_left _ (List.mem_append_left _ (List.mem_map_of_mem hctx))
  exact (PrefillCtx.Serves.toOpen (hprepared.known _ hrecord).2).opened

/-- In every run of the worker, a listed sequence that is not ready is that of an unfinished
prefill, also while a batch is being prepared, and after each single call that of a request that is
not ready. A request is deferred only at a turn where such a prefill delays it. -/
theorem deferral_waits_for_prefill (b : Bridge L) (config : Config) (order : ChildOrder)
    (actions : List Action) (k : Worker L)
    (hrun : (Worker.init config order : Worker L).Run b actions k) :
    k.world.PendingOwned k.slots.prefilling ∧
      (∀ before, before <+: k.world.log → ∃ s, (Session.init config order).Run (callsOf before) s ∧
        s.Hosts (heldOf before) ∧ s.PendingOwned) ∧
      ∀ pending, k.phase = .admitted pending →
        (∀ before after, pending = before ++ after →
          (prepareAll b before k.world).2.PendingOwned
            (k.slots.prefilling ++ (prepareAll b before k.world).1.ctxs)) ∧
        ∀ r ∈ (prepareAll b pending k.world).1.deferred, ∃ before req after, pending =
          before ++ req :: after ∧
          DeferredAt b k.world before req r ∧
          ∃ ctx ∈ k.slots.prefilling ++ (prepareAll b before k.world).1.ctxs,
            ctx.Delays (prepareAll b before k.world).2 (b.promptTokens req) := by
  have hfollows := Worker.run_follows hrun
  have hserves := Worker.run_serves_all hrun
  have hturn (before : List InferenceRequest) : (prepareAll b before k.world).2.PendingOwned
      (k.slots.prefilling ++ (prepareAll b before k.world).1.ctxs) := by
    obtain ⟨htracked, hunfinished⟩ := prepareAll_tracked (b := b) before hfollows.tracked
    refine htracked.pendingOwned fun ctx hctx => ?_
    rcases List.mem_append.mp hctx with hctx | hctx
    · exact hfollows.fit.prefilling ctx hctx
    · exact hunfinished ctx hctx
  refine ⟨?_, fun before hbefore => ?_,
    fun pending hphase => ⟨fun before _ _ => hturn before, fun r hr => ?_⟩⟩
  · have hnow := hturn []
    simpa [prepareAll] using hnow
  · obtain ⟨_, hnow, _⟩ := hfollows.tracked
    obtain ⟨s, hrun', hhosts⟩ := hnow.past before hbefore
    obtain ⟨_, _, hbooks⟩ := Session.run_sound hrun'
    exact ⟨s, hrun', hhosts, hbooks.pendingOwned⟩
  · obtain ⟨before, req, after, rfl, hdeferred⟩ := prepareAll_deferred pending k.world r hr
    refine ⟨before, req, after, rfl, hdeferred, ?_⟩
    obtain ⟨⟨s, hs, _⟩, _⟩ := prepareAll_tracked (b := b) before hfollows.tracked
    obtain ⟨path, idle, hbooks⟩ := hs.sound
    have hshape := hbooks.placement.shape
    rw [hs.mapper] at hshape
    have hwait := mustWait_of_deferred hdeferred.deferred
    rw [isCancelled_promptTokens, mustWait, isCancelled_mapper, ← mustWait] at hwait
    exact (hturn before).delays hshape
      (hserves.prefills_opened ⟨trivial, trivial⟩ hfollows hphase) hwait

/-- Two requests with the same prompt arrive together: the second one waits for the first. -/
theorem deferral_waits_for_prefill_two : ∃ k before req r,
    (Worker.init ⟨4, 64, true⟩ .stored).Run (Bridge.counting (fun _ => [5, 6]) 9)
      [.enqueue {}, .enqueue {}, .check, .pop] k ∧
        DeferredAt (Bridge.counting (fun _ => [5, 6]) 9) k.world before req r ∧
      ∃ ctx ∈ k.slots.prefilling ++ (prepareAll (Bridge.counting (fun _ => [5, 6]) 9)
        before k.world).1.ctxs, ctx.Delays
          (prepareAll (Bridge.counting (fun _ => [5, 6]) 9) before k.world).2 [5, 6] := by
  have hrun : (run (Worker.step (Bridge.counting (fun _ => [5, 6]) 9))
      (Worker.init ⟨4, 64, true⟩ .stored)
      [.enqueue {}, .enqueue {}, .check, .pop]).any (fun k =>
        (prepareAll (Bridge.counting (fun _ => [5, 6]) 9) k.admitted k.world).1.deferred.length =
          1) = true := by
    decide +kernel
  obtain ⟨k, hk, hcond⟩ := (Option.any_eq_true _ _).mp hrun
  cases hphase : k.phase with
  | admitted pending =>
    simp only [Worker.admitted, hphase] at hcond
    obtain ⟨r, hdeferred⟩ := List.length_eq_one_iff.mp (of_decide_eq_true hcond)
    have hturns := ((deferral_waits_for_prefill _ _ _ _ k hk).2.2 pending hphase).2 r
      (hdeferred ▸ List.mem_singleton_self r)
    obtain ⟨before, req, _, _, hturn, hdelays⟩ := hturns
    exact ⟨k, before, req, r, hk, hturn, hdelays⟩
  | _ => simp [Worker.admitted, hphase, prepareAll] at hcond

end RadixForge
