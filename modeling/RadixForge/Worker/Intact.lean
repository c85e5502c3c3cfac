import RadixForge.Worker.Exceptions
import RadixForge.Worker.Owners

/-!
# What an exception leaves of the cache

An iteration that throws before it has changed what it cannot give back leaves the worker as sound
as a complete one: while no request of the batch is prepared, while the cancelled requests are
dropped and none of the prefills is, and at the first callback of a loop that fails what it finds or
samples the finished prompts. What such a throw can leave that no complete iteration does are
sequences that are done and finished prompts that stay prefills; neither disturbs a later step.
-/

namespace RadixForge

open Library

variable {L : Type} {b : Bridge L} {config : Config} {order : ChildOrder} {w w' : World}
  {tickets : List Ticket}

/-- The throws that leave nothing half done. -/
def ThrowSite.Harmless : ThrowSite → Prop
  | .preparing n | .dropping n | .failing n | .beginning n => n = 0
  | .polling | .failingNewest => True
  | .advancing | .retiring => False

/-- The nodes that the requests of the two lists hold. -/
def Slots.leaves (slots : Slots L) : List NodeId :=
  slots.active.map ActiveSeq.leafNode ++ slots.prefilling.map fun ctx => ctx.prep.leafNode

/-- Every active sequence is at the end of its cells. -/
def Slots.AtEnd (slots : Slots L) (w : World) : Prop :=
  ∀ seq ∈ slots.active, seq.pos = (w.mapper.memory.cells seq.seqId).length

/-- Every sequence is free, retained or that of a request in one of the two lists; every reference
to a node is that of such a request, apart from the root's own; and every active sequence is at the
end of its cells, also when the next batch is built. -/
structure Worker.Intact (k : Worker L) (config : Config) : Prop where
  ids : ∀ i, 1 ≤ i → i < config.maxSequences → i ∈ k.world.mapper.freeSeqIds ∨
    i ∈ k.world.mapper.retainedSeqIds ∨ i ∈ k.slots.seqIds
  references : ∀ n, (k.world.mapper.tree.data n).refCount =
    k.slots.leaves.count n + if n = rootId then 1 else 0
  positions : k.slots.AtEnd k.world
  submitted : (dropAllCancelled k.slots k.world).1.AtEnd (dropAllCancelled k.slots k.world).2

/-- The invariant behind it: the worker follows the protocol, and its lists are what a step asks
for. -/
structure Worker.Sits (k : Worker L) (config : Config) (order : ChildOrder) : Prop where
  tracked : k.world.Tracked config order k.slots.tickets
  sits : k.slots.Sits PrefillCtx.Fits

section Intact

variable {slots : Slots L}

/-- The leaves of the tickets are those of the slots. -/
theorem Slots.tickets_leaves (slots : Slots L) :
    (slots.tickets.map Ticket.client).map Client.leaf = slots.leaves := by
  simp [Slots.tickets, Slots.leaves, Function.comp_def, ActiveSeq.ticket, PrefillCtx.ticket]

/-- The cells of an active sequence that is aligned end at its position. -/
theorem World.Tracked.atEnd (h : w.Tracked config order slots.tickets)
    (haligned : ∀ seq ∈ slots.active, seq.Aligned) : slots.AtEnd w := by
  obtain ⟨s, hfollows, hlive, _⟩ := h
  obtain ⟨_, _, hbooks⟩ := hfollows.sound
  intro seq hseq
  have hticket : seq.ticket ∈ slots.tickets :=
    List.mem_append_left _ (List.mem_map_of_mem hseq)
  have hclient := hlive.mem_iff.mpr (List.mem_map_of_mem (f := Ticket.client) hticket)
  have hcells : s.mapper.memory.cells seq.seqId = LlamaMemory.tape seq.cachedTokens :=
    (hbooks.contents.clients _ hclient).cells
  rw [← hfollows.mapper, hcells, LlamaMemory.tape_length]
  exact (haligned seq hseq).2

/-- The references of a node are those of the tickets, and the root's own. -/
theorem World.Tracked.refCount (h : w.Tracked config order tickets) (n : NodeId) :
    (w.mapper.tree.data n).refCount =
      ((tickets.map Ticket.client).map Client.leaf).count n + if n = rootId then 1 else 0 := by
  obtain ⟨s, hfollows, hlive, _, hholds, _⟩ := h
  obtain ⟨_, _, hbooks⟩ := hfollows.sound
  rw [← hfollows.mapper, hbooks.placement.refs, hholds, List.count_nil, Nat.add_zero,
    ← (hlive.map Client.leaf).count_eq, List.count_eq_countP, List.countP_map]
  congr 1

/-- A worker that sits is intact. -/
theorem Worker.Sits.intact {k : Worker L} (h : k.Sits config order) : k.Intact config := by
  obtain ⟨hdropped, hfit⟩ := dropAllCancelled_tracked PrefillCtx.fits_lasting h.sits h.tracked
  have hpositions := h.tracked.atEnd h.sits.active
  refine ⟨fun i hpos hlt => ?_, fun n => ?_, hpositions,
    hdropped.atEnd fun seq hseq => (hfit.active seq hseq).aligned⟩
  · obtain ⟨s, hfollows, hlive, _⟩ := h.tracked
    obtain ⟨path, idle, hbooks⟩ := hfollows.sound
    have hids := hlive.map Client.seqId
    rw [Slots.tickets_seqIds] at hids
    have hconfig : s.mapper.config = config := Session.run_config hfollows.run
    have hvalid : i ∈ List.range' 1 (s.mapper.config.maxSequences - 1) := by
      rw [hconfig, List.mem_range'_1]
      omega
    rw [← hfollows.mapper]
    rcases (hbooks.accounts.leases.cover i).mp hvalid with hfree | hheld | hidle
    · exact Or.inl hfree
    · exact Or.inr (Or.inr (hids.mem_iff.mp hheld))
    · exact Or.inr (Or.inl ((hbooks.accounts.retained i).mpr hidle))
  · rw [h.tracked.refCount, Slots.tickets_leaves]

end Intact

section Throws

/-- `cancelled` itself may always throw. -/
theorem mem_isCancelledThrows (req : InferenceRequest) (w : World) :
    w ∈ isCancelledThrows req w := by
  unfold isCancelledThrows
  split <;> exact List.mem_cons_self

/-- A throw in a poll keeps every ticket. -/
theorem isCancelledThrows_tracked {req : InferenceRequest}
    (h : w.Tracked config order tickets) (hthrow : w' ∈ isCancelledThrows req w) :
    w'.Tracked config order tickets := by
  unfold isCancelledThrows at hthrow
  split at hthrow
  · rcases List.mem_cons.mp hthrow with rfl | hthrow
    · exact h
    · rw [List.mem_singleton.mp hthrow]
      exact (h.callback _ _).callback _ _
  · rw [List.mem_singleton.mp hthrow]
    exact h

/-- A throw on the way to a failure keeps every ticket and the id of the request. -/
theorem complainThrows_tracked {message : String} {status : ℕ} {req req' : InferenceRequest}
    (h : w.Tracked config order tickets)
    (hthrow : (req', w') ∈ complainThrows message status req w) :
    w'.Tracked config order tickets ∧ req'.id = req.id := by
  have hpolled := h.isCancelled req
  have hid := isCancelled_id req w
  unfold complainThrows at hthrow
  generalize isCancelled req w = outcome at hpolled hid hthrow
  obtain ⟨cancelled, polled, w₁⟩ := outcome
  rcases List.mem_append.mp hthrow with hpoll | herror
  · obtain ⟨w₂, hw₂, heq⟩ := List.mem_map.mp hpoll
    cases heq
    exact ⟨isCancelledThrows_tracked h hw₂, rfl⟩
  · cases cancelled with
    | true => exact absurd herror List.not_mem_nil
    | false =>
      cases List.mem_singleton.mp herror
      exact ⟨hpolled.callback _ _, hid⟩

/-- A throw while the queue is polled keeps every ticket. -/
theorem keepQueuedThrows_tracked {reqs : List InferenceRequest}
    (h : w.Tracked config order tickets) (hthrow : w' ∈ keepQueuedThrows reqs w) :
    w'.Tracked config order tickets := by
  induction reqs generalizing w with
  | nil => exact absurd hthrow List.not_mem_nil
  | cons req rest ih =>
    rcases List.mem_append.mp hthrow with hpoll | hrest
    · exact isCancelledThrows_tracked h hpoll
    · exact ih (h.isCancelled req) hrest

/-- A throw of `prepare_all` leaves the tickets of the prefills that are lost with it. -/
theorem prepareAllThrows_tracked {reqs : List InferenceRequest} {lost : List PrefillCtx}
    (h : w.Tracked config order tickets) (hthrow : (lost, w') ∈ prepareAllThrows b reqs w) :
    w'.Tracked config order (lost.map PrefillCtx.ticket ++ tickets) := by
  induction reqs generalizing w lost tickets with
  | nil => exact absurd hthrow List.not_mem_nil
  | cons req rest ih =>
    have hpolled := h.isCancelled req
    have hpoll (hmem : (lost, w') ∈ (isCancelledThrows req w).map fun w =>
        (([] : List PrefillCtx), w)) :
        w'.Tracked config order (lost.map PrefillCtx.ticket ++ tickets) := by
      obtain ⟨w₁, hw₁, heq⟩ := List.mem_map.mp hmem
      cases heq
      exact isCancelledThrows_tracked h hw₁
    unfold prepareAllThrows at hthrow
    generalize isCancelled req w = outcome at hpolled hthrow
    obtain ⟨cancelled, req', w₁⟩ := outcome
    simp only at hpolled hthrow
    split at hthrow
    · rcases List.mem_append.mp hthrow with hmem | hmem
      · exact hpoll hmem
      · exact ih hpolled hmem
    · rcases List.mem_append.mp hthrow with hmem | hmem
      · exact hpoll hmem
      rcases List.mem_cons.mp hmem with heq | hmem
      · cases heq
        exact hpolled
      have hone := (prepareOne_tracked (b := b) req' hpolled).1
      generalize prepareOne b req' w₁ = prepared at hone hmem
      obtain ⟨preparation, w₂⟩ := prepared
      cases preparation with
      | rejected =>
        rcases List.mem_cons.mp hmem with heq | hmem
        · cases heq
          exact hone
        · exact ih hone hmem
      | deferred r => exact ih hone hmem
      | exhausted r =>
        obtain ⟨w₃, hw₃, heq⟩ := List.mem_map.mp hmem
        cases heq
        exact keepQueuedThrows_tracked hone hw₃
      | prepared ctx =>
        obtain ⟨⟨lost', w₃⟩, hlater, heq⟩ := List.mem_map.mp hmem
        cases heq
        exact (ih hone hlater).perm (List.perm_append_comm_assoc _ [ctx.ticket] _)

/-- Without a finished prompt nothing is sampled. -/
theorem pass_finishPrefill_none {outputs : List (Option L)} {chunks : List (PrefillCtx × Option ℕ)}
    (hnone : ∀ q ∈ chunks, q.2 = none) (w : World) :
    (pass (finishPrefill b outputs) chunks w).2 = w := by
  induction chunks with
  | nil => rfl
  | cons q rest ih =>
    obtain ⟨ctx, row⟩ := q
    have hrow : row = none := hnone _ List.mem_cons_self
    subst hrow
    exact ih fun q hq => hnone q (List.mem_cons_of_mem _ hq)

/-- A throw while the first token is sampled leaves the prefill its ticket. -/
theorem beginGenerationThrows_tracked {outputs : List (Option L)} {ctx ctx' : PrefillCtx} {row : ℕ}
    (hfits : ctx.Fits) (h : w.Tracked config order (ctx.ticket :: tickets))
    (hthrow : (ctx', w') ∈ beginGenerationThrows b outputs ctx row w) :
    w'.Tracked config order (ctx'.ticket :: tickets) ∧ ctx'.Fits := by
  have hpolled := h.isCancelled ctx.req
  have hid := isCancelled_id ctx.req w
  have hpoll (hmem : (ctx', w') ∈ (isCancelledThrows ctx.req w).map fun w => (ctx, w)) :
      w'.Tracked config order (ctx'.ticket :: tickets) ∧ ctx'.Fits := by
    obtain ⟨w₁, hw₁, heq⟩ := List.mem_map.mp hmem
    cases heq
    exact ⟨isCancelledThrows_tracked h hw₁, hfits⟩
  unfold beginGenerationThrows at hthrow
  generalize isCancelled ctx.req w = outcome at hpolled hid hthrow
  obtain ⟨cancelled, req, w₁⟩ := outcome
  simp only at hpolled hid hthrow
  have hkept (stats : InferenceStats) (hstats : stats.promptTokens = ctx.stats.promptTokens)
      (e : Event) :
      (w₁.callback req.id e).Tracked config order
          (PrefillCtx.ticket { ctx with req := req, stats := stats } :: tickets) ∧
        PrefillCtx.Fits { ctx with req := req, stats := stats } := by
    have hticket : PrefillCtx.ticket { ctx with req := req, stats := stats } = ctx.ticket := by
      simp only [PrefillCtx.ticket, hid]
    rw [hticket]
    exact ⟨hpolled.callback _ _, hfits.cached, hfits.delta, hfits.start, hstats.trans hfits.stats⟩
  split at hthrow
  · exact hpoll hthrow
  · split at hthrow
    · rcases List.mem_append.mp hthrow with hmem | hmem
      · exact hpoll hmem
      · cases List.mem_singleton.mp hmem
        exact hkept ctx.stats rfl _
    · rcases List.mem_append.mp hthrow with hmem | hmem
      · exact hpoll hmem
      · cases List.mem_singleton.mp hmem
        exact hkept { ctx.stats with predictedN := 1 } rfl _

end Throws

section Steps

variable {slots slots' : Slots L} {site : ThrowSite}

/-- The ticket of a sequence does not show how often its request was polled. -/
theorem ActiveSeq.ticket_polled (seq : ActiveSeq L) {req : InferenceRequest}
    (hid : req.id = seq.req.id) :
    ActiveSeq.ticket { seq with req := req } = seq.ticket := by
  simp only [ActiveSeq.ticket, hid]

/-- Nor does that of a prefill. -/
theorem PrefillCtx.ticket_polled (ctx : PrefillCtx) {req : InferenceRequest}
    (hid : req.id = ctx.req.id) :
    PrefillCtx.ticket { ctx with req := req } = ctx.ticket := by
  simp only [PrefillCtx.ticket, hid]

/-- Once the cancelled sequences are retired the others hold their tickets. -/
theorem dropActive_tracked {seqs : List (ActiveSeq L)} (haligned : ∀ seq ∈ seqs, seq.Aligned)
    (h : w.Tracked config order (seqs.map ActiveSeq.ticket ++ tickets)) :
    (dropActive seqs w).2.Tracked config order
        ((dropActive seqs w).1.map ActiveSeq.ticket ++ tickets) ∧
      ∀ seq ∈ (dropActive seqs w).1, seq.Running := by
  obtain ⟨hpolled, hpolls⟩ := pass_tracked pollActive_tracked haligned h
  exact pass_tracked dropCancelled_tracked hpolls hpolled

/-- The prefills that stay before the one at which the loop is interrupted, and what comes after. -/
theorem dropAbandoned_before {before after : List PrefillCtx} {ctx : PrefillCtx}
    (hsits : slots.Sits PrefillCtx.Fits) (h : w.Tracked config order slots.tickets)
    (hprefilling : slots.prefilling = before ++ ctx :: after) :
    let dropped := pass dropAbandoned before (dropActive slots.active w).2
    dropped.2.Tracked config order (dropped.1.map PrefillCtx.ticket ++
        ((ctx :: after).map PrefillCtx.ticket ++
          (dropActive slots.active w).1.map ActiveSeq.ticket)) ∧
      ∀ c ∈ dropped.1, c.Fits := by
  obtain ⟨hdropped, _⟩ := dropActive_tracked hsits.active h
  have hbefore := hdropped.perm List.perm_append_comm
  rw [hprefilling, List.map_append, List.append_assoc] at hbefore
  exact pass_tracked (dropAbandoned_tracked PrefillCtx.fits_lasting)
    (fun c hc => hsits.prefilling c (hprefilling ▸ List.mem_append_left _ hc)) hbefore

/-- A harmless throw while what is cancelled is dropped. -/
theorem dropThrows_sits (hsits : slots.Sits PrefillCtx.Fits)
    (h : w.Tracked config order slots.tickets) (hthrow : DropThrows slots w site slots' w')
    (hharmless : site.Harmless) :
    w'.Tracked config order slots'.tickets ∧ slots'.Sits PrefillCtx.Fits := by
  cases hthrow with
  | @polling before after seq _ hactive hthrow =>
    rw [Slots.tickets, hactive, List.map_append, List.append_assoc] at h
    have haligned (s : ActiveSeq L) (hs : s ∈ before ++ seq :: after) : s.Aligned :=
      hsits.active s (hactive ▸ hs)
    obtain ⟨hpolled, hpolls⟩ :=
      pass_tracked pollActive_tracked (fun s hs => haligned s (List.mem_append_left _ hs)) h
    refine ⟨?_, fun s hs => ?_, hsits.prefilling⟩
    · rw [Slots.tickets, List.map_append, List.append_assoc]
      exact isCancelledThrows_tracked hpolled hthrow
    · rcases List.mem_append.mp hs with hs | hs
      · exact hpolls s hs
      · exact haligned s (List.mem_append_right _ hs)
  | @dropping before after ctx kept w₁ _ gap hprefilling hkept hgap hthrow =>
    obtain rfl := List.eq_nil_of_length_eq_zero hharmless
    obtain ⟨_, hrunning⟩ := dropActive_tracked hsits.active h
    obtain ⟨hstay, hleft⟩ := dropAbandoned_before hsits h hprefilling
    rw [hkept] at hstay hleft
    refine ⟨?_, fun s hs => (hrunning s hs).aligned, fun c hc => ?_⟩
    · refine (isCancelledThrows_tracked hstay hthrow).perm ?_
      rw [Slots.tickets, List.append_nil, List.map_append, ← List.append_assoc]
      exact List.perm_append_comm
    · rw [List.append_nil] at hc
      rcases List.mem_append.mp hc with hc | hc
      · exact hleft c hc
      · exact hsits.prefilling c (hprefilling ▸ List.mem_append_right _ hc)

/-- A throw at the failure of a sequence leaves it among the others, as it was. -/
theorem complainThrows_active {before after : List (ActiveSeq L)} {seq : ActiveSeq L}
    {ctxs : List PrefillCtx} {message : String} {status : ℕ}
    {req : InferenceRequest}
    (hsits : (Slots.mk (before ++ seq :: after) ctxs).Sits PrefillCtx.Fits)
    (h : w.Tracked config order (Slots.mk (before ++ seq :: after) ctxs).tickets)
    (hthrow : (req, w') ∈ complainThrows message status seq.req w) :
    w'.Tracked config order (Slots.mk (before ++ { seq with req := req } :: after) ctxs).tickets ∧
      (Slots.mk (before ++ { seq with req := req } :: after) ctxs).Sits PrefillCtx.Fits := by
  obtain ⟨htracked, hid⟩ := complainThrows_tracked h hthrow
  refine ⟨?_, fun s hs => ?_, hsits.prefilling⟩
  · simpa [Slots.tickets, seq.ticket_polled hid] using htracked
  · rcases List.mem_append.mp hs with hs | hs
    · exact hsits.active s (List.mem_append_left _ hs)
    · rcases List.mem_cons.mp hs with rfl | hs
      · obtain ⟨⟨hpos, hprompt⟩, hend⟩ :=
          hsits.active seq (List.mem_append_right _ List.mem_cons_self)
        exact ⟨⟨hpos, hprompt⟩, hend⟩
      · exact hsits.active s (List.mem_append_right _ (List.mem_cons_of_mem _ hs))

/-- A throw at the failure of a prefill leaves it among the others, as it was. -/
theorem complainThrows_prefilling {before after : List PrefillCtx} {ctx : PrefillCtx}
    {seqs : List (ActiveSeq L)} {message : String} {status : ℕ} {req : InferenceRequest}
    (hsits : (Slots.mk seqs (before ++ ctx :: after)).Sits PrefillCtx.Fits)
    (h : w.Tracked config order (Slots.mk seqs (before ++ ctx :: after)).tickets)
    (hthrow : (req, w') ∈ complainThrows message status ctx.req w) :
    w'.Tracked config order (Slots.mk seqs (before ++ { ctx with req := req } :: after)).tickets ∧
      (Slots.mk seqs (before ++ { ctx with req := req } :: after)).Sits PrefillCtx.Fits := by
  obtain ⟨htracked, hid⟩ := complainThrows_tracked h hthrow
  refine ⟨?_, hsits.active, fun c hc => ?_⟩
  · simpa [Slots.tickets, ctx.ticket_polled hid] using htracked
  · rcases List.mem_append.mp hc with hc | hc
    · exact hsits.prefilling c (List.mem_append_left _ hc)
    · rcases List.mem_cons.mp hc with rfl | hc
      · exact PrefillCtx.fits_lasting.polled _ _
          (hsits.prefilling ctx (List.mem_append_right _ List.mem_cons_self))
      · exact hsits.prefilling c (List.mem_append_right _ (List.mem_cons_of_mem _ hc))

/-- A throw at the first finished prompt leaves it among the prefills. -/
theorem beginGenerationThrows_sits {outputs : List (Option L)}
    {before after : List (PrefillCtx × Option ℕ)} {kept : List (ActiveSeq L)}
    {ctx ctx' : PrefillCtx} {row : ℕ} (hrunning : ∀ seq ∈ kept, seq.Running)
    (hdone : ∀ q ∈ before ++ (ctx, some row) :: after, ChunkDone PrefillCtx.Fits b outputs q)
    (h : w.Tracked config order (kept.map ActiveSeq.ticket ++
      (before ++ (ctx, some row) :: after).map fun q => q.1.ticket))
    (hthrow : (ctx', w') ∈ beginGenerationThrows b outputs ctx row w) :
    w'.Tracked config order
        (Slots.mk kept (before.map Prod.fst ++ ctx' :: after.map Prod.fst)).tickets ∧
      (Slots.mk kept (before.map Prod.fst ++ ctx' :: after.map Prod.fst)).Sits PrefillCtx.Fits := by
  have hfinished := hdone (ctx, some row) (List.mem_append_right _ List.mem_cons_self)
  have hfirst : w.Tracked config order (ctx.ticket ::
      (kept.map ActiveSeq.ticket ++ before.map (fun q => q.1.ticket) ++
        after.map fun q => q.1.ticket)) := by
    refine h.perm ?_
    rw [List.map_append, List.map_cons, ← List.append_assoc]
    exact List.perm_middle
  obtain ⟨htracked, hfits⟩ := beginGenerationThrows_tracked hfinished.fits hfirst hthrow
  refine ⟨htracked.perm ?_, fun s hs => (hrunning s hs).aligned, fun c hc => ?_⟩
  · simp only [Slots.tickets, List.map_append, List.map_cons, List.map_map, Function.comp_def]
    rw [← List.append_assoc]
    exact List.perm_middle.symm
  · rcases List.mem_append.mp hc with hc | hc
    · obtain ⟨q, hq, rfl⟩ := List.mem_map.mp hc
      exact (hdone q (List.mem_append_left _ hq)).fits
    · rcases List.mem_cons.mp hc with rfl | hc
      · exact hfits
      · obtain ⟨q, hq, rfl⟩ := List.mem_map.mp hc
        exact (hdone q (List.mem_append_right _ (List.mem_cons_of_mem _ hq))).fits

/-- A harmless throw of a decode that failed, or of the first finished prompt after one that did
not. -/
theorem decodeThrows_sits {submissions : List (Option PromptSubmission)}
    {outputs : List (Option L)} {status : ℤ} (hfit : slots.FitFor PrefillCtx.Fits)
    (hdecoded : if status = 0 then
        w.Tracked config order (slots.active.map (fun seq => seq.decoded.ticket) ++
          (slots.prefilling.zip submissions).map chunkTicket) ∧
        ∀ p ∈ slots.prefilling.zip submissions, ChunkFits PrefillCtx.Fits b outputs p
      else w.Tracked config order slots.tickets)
    (hthrow : DecodeThrows b submissions outputs slots w status site slots' w')
    (hharmless : site.Harmless) :
    w'.Tracked config order slots'.tickets ∧ slots'.Sits PrefillCtx.Fits := by
  have hsits := hfit.sits
  cases hthrow with
  | newestActive hactive hthrow =>
    rw [if_neg one_ne_zero] at hdecoded
    obtain ⟨active, ctxs⟩ := slots
    obtain rfl := hactive
    exact complainThrows_active hsits hdecoded hthrow
  | newestPrefill hactive hprefilling hthrow =>
    rw [if_neg one_ne_zero] at hdecoded
    obtain ⟨active, ctxs⟩ := slots
    obtain rfl := hprefilling
    exact complainThrows_prefilling hsits hdecoded hthrow
  | failingActive hstatus hactive hthrow =>
    obtain rfl := List.eq_nil_of_length_eq_zero hharmless
    rw [if_neg hstatus.1] at hdecoded
    obtain ⟨active, ctxs⟩ := slots
    obtain rfl := hactive
    exact complainThrows_active hsits hdecoded hthrow
  | failingPrefill hstatus hprefilling hthrow =>
    obtain rfl := List.eq_nil_of_length_eq_zero hharmless
    rw [if_neg hstatus.1] at hdecoded
    have hfailed := failAll_tracked
      (fun seq w tickets (h : w.Tracked config order (ActiveSeq.ticket seq :: tickets)) =>
      failActive_tracked h "inference decode failed" 500) hdecoded
    obtain ⟨active, ctxs⟩ := slots
    obtain rfl := hprefilling
    exact complainThrows_prefilling ⟨fun _ hs => absurd hs List.not_mem_nil, hsits.prefilling⟩
      hfailed hthrow
  | advancing => exact absurd hharmless id
  | retiring => exact absurd hharmless id
  | @beginning _ before after kept ctx ctx' row w₁ _ moved hsettled hsplit hthrow =>
    rw [if_pos rfl] at hdecoded
    obtain ⟨hretired, hdone, hrunning⟩ :=
      settleBatch_tracked PrefillCtx.fits_lasting hfit hdecoded.2 hdecoded.1
    rw [hsettled] at hretired hdone hrunning
    subst hsplit
    have hnone (q : PrefillCtx × Option ℕ) (hq : q ∈ before) : q.2 = none := by
      have hnot := List.countP_eq_zero.mp hharmless q hq
      simpa using hnot
    have hstay : before.map (fun q => if q.2.isSome then moved q.1 else q.1) =
        before.map Prod.fst :=
      List.map_congr_left fun q hq => by simp [hnone q hq]
    rw [pass_finishPrefill_none hnone] at hthrow
    rw [hstay]
    exact beginGenerationThrows_sits hrunning hdone hretired hthrow

/-- What is tracked when a decode has returned. -/
theorem decodeBatch_returned {first second status : ℤ} {kept : Slots L} {rows : List Row}
    {submissions : List (Option PromptSubmission)} {outputs : List (Option L)} {w₁ w₂ : World}
    (hsits : slots.Sits PrefillCtx.Fits) (h : w.Tracked config order slots.tickets)
    (hdropped : dropAllCancelled slots w = (kept, w₁))
    (hbatch : buildBatch b kept = (rows, submissions))
    (hdecode : decodeBatch b rows first second w₁ = (status, outputs, w₂)) :
    kept.FitFor PrefillCtx.Fits ∧ if status = 0 then
        w₂.Tracked config order (kept.active.map (fun seq => seq.decoded.ticket) ++
          (kept.prefilling.zip submissions).map chunkTicket) ∧
        ∀ p ∈ kept.prefilling.zip submissions, ChunkFits PrefillCtx.Fits b outputs p
      else w₂.Tracked config order kept.tickets := by
  obtain ⟨htracked, hfit⟩ := dropAllCancelled_tracked PrefillCtx.fits_lasting hsits h
  rw [hdropped] at htracked hfit
  have hdecoded :=
    decodeBatch_tracked (b := b) PrefillCtx.fits_lasting hfit first second htracked
  simp only [hbatch, hdecode] at hdecoded
  refine ⟨hfit, ?_⟩
  split at hdecoded
  · rename_i hzero
    rw [if_pos hzero]
    exact ⟨hdecoded.1, hdecoded.2.2.1⟩
  · rename_i hfailed
    rw [if_neg hfailed]
    exact hdecoded

/-- A harmless throw of a fused step. -/
theorem fusedThrows_sits {first second : ℤ} (hsits : slots.Sits PrefillCtx.Fits)
    (h : w.Tracked config order slots.tickets)
    (hthrow : FusedThrows b first second slots w site slots' w') (hharmless : site.Harmless) :
    w'.Tracked config order slots'.tickets ∧ slots'.Sits PrefillCtx.Fits := by
  cases hthrow with
  | dropping hthrow => exact dropThrows_sits hsits h hthrow hharmless
  | decoded hdropped hbatch hrows hdecode hthrow =>
    obtain ⟨hfit, hdecoded⟩ := decodeBatch_returned hsits h hdropped hbatch hdecode
    exact decodeThrows_sits hfit hdecoded hthrow hharmless

end Steps

namespace Worker

/-- A worker that was just started sits. -/
theorem init_sits (config : Config) (order : ChildOrder) :
    (Worker.init config order : Worker L).Sits config order :=
  ⟨(init_follows config order).tracked, fun _ hs => absurd hs List.not_mem_nil,
    fun _ hc => absurd hc List.not_mem_nil⟩

/-- Every step keeps it, also after an exception. -/
theorem step_sits {k k' : Worker L} {action : Action} (h : k.Sits config order)
    (hstep : k.step b action = some k') : k'.Sits config order := by
  cases step_moves hstep with
  | enqueue | stop | enter | pop | requeue => exact ⟨h.tracked, h.sits⟩
  | leave | leaveEmpty =>
    exact ⟨exit_tracked h.tracked, fun _ hs => absurd hs List.not_mem_nil,
      fun _ hc => absurd hc List.not_mem_nil⟩
  | @prepare pending hphase =>
    obtain ⟨htracked, hunfinished⟩ := prepareAll_tracked (b := b) pending h.tracked
    refine ⟨htracked.perm ?_, h.sits.active, fun c hc => ?_⟩
    · simp only [Worker.prepare, Slots.tickets, List.map_append]
      exact List.perm_append_comm.trans (List.Perm.of_eq (List.append_assoc _ _ _))
    · rcases List.mem_append.mp hc with hc | hc
      · exact h.sits.prefilling c hc
      · exact (hunfinished c hc).1
  | fuse first second hphase =>
    obtain ⟨htracked, hfit⟩ := fusedStep_tracked (b := b) PrefillCtx.fits_lasting h.sits
      first second h.tracked
    exact ⟨htracked, hfit.sits⟩

/-- A harmless throw keeps it. -/
theorem throws_sits {k k' : Worker L} {site : ThrowSite} (h : k.Sits config order)
    (hthrows : k.Throws b site k') (hharmless : site.Harmless) : k'.Sits config order := by
  cases hthrows with
  | @preparing pending lost w hphase hthrow =>
    obtain rfl := List.eq_nil_of_length_eq_zero hharmless
    exact ⟨prepareAllThrows_tracked h.tracked hthrow, h.sits⟩
  | fusing _ _ hphase hthrow =>
    obtain ⟨htracked, hsits⟩ := fusedThrows_sits h.sits h.tracked hthrow hharmless
    exact ⟨htracked, hsits⟩

/-- The worker sits whatever it reaches with harmless throws. -/
theorem reaches_sits {k : Worker L}
    (hreaches : (Worker.init config order : Worker L).Reaches b ThrowSite.Harmless k) :
    k.Sits config order := by
  induction hreaches with
  | start => exact init_sits config order
  | step _ hstep ih => exact step_sits ih hstep
  | throws _ hharmless hthrows ih => exact throws_sits ih hthrows hharmless

/-- What a run reaches. -/
theorem reaches_run {allowed : ThrowSite → Prop} {k k₁ k₂ : Worker L} {actions : List Action}
    (hreaches : k.Reaches b allowed k₁) (hrun : k₁.Run b actions k₂) : k.Reaches b allowed k₂ :=
  run_invariant (fun _ _ _ h hstep => h.step hstep) hreaches hrun

end Worker

end RadixForge
