import RadixForge.Session.Disabled
import RadixForge.Worker.Intact

/-!
# What an exception loses

The other throws leave a worker that is not intact. A preparation interrupted after it has prepared
a request loses its sequence. A loop interrupted after it has given sequences back leaves their
entries in the list, more than there are references. After a decode, a sequence that is interrupted
while it advances or is retired has a cell more than its position says. The loop over the finished
prompts is left out here: what its first prompts leave behind is moved from.
-/

namespace RadixForge

open Library

variable {L : Type} {b : Bridge L} {config : Config} {order : ChildOrder} {w w' : World}
  {tickets : List Ticket} {slots slots' : Slots L} {site : ThrowSite}

section Entries

/-- Sequences of tickets that no list has are neither free nor retained. -/
theorem World.Tracked.not_intact_of_lost {k : Worker L} {lost : List PrefillCtx} (hlost : lost ≠ [])
    (h : k.world.Tracked config order (lost.map PrefillCtx.ticket ++ k.slots.tickets)) :
    ¬ k.Intact config := by
  intro hintact
  obtain ⟨s, hfollows, hlive, _⟩ := h
  obtain ⟨path, idle, hbooks⟩ := hfollows.sound
  have hleases := hbooks.accounts.leases
  have hconfig : s.mapper.config = config := Session.run_config hfollows.run
  obtain ⟨ctx, hctx⟩ := List.exists_mem_of_ne_nil lost hlost
  have hids := hlive.map Client.seqId
  rw [List.map_append, List.map_append, Slots.tickets_seqIds] at hids
  have hmem : ctx.prep.seqId ∈
      ((lost.map PrefillCtx.ticket).map Ticket.client).map Client.seqId :=
    List.mem_map_of_mem (List.mem_map_of_mem (List.mem_map_of_mem hctx))
  have hheld := hids.mem_iff.mpr (List.mem_append_left _ hmem)
  have hvalid := (hleases.cover ctx.prep.seqId).mpr (Or.inr (Or.inl hheld))
  rw [hconfig, List.mem_range'_1] at hvalid
  have hwhere := hintact.ids ctx.prep.seqId hvalid.1 (by omega)
  rw [← hfollows.mapper] at hwhere
  rcases hwhere with hfree | hretained | howned
  · exact hleases.free_held _ hfree hheld
  · obtain ⟨n, hn⟩ := (hbooks.accounts.retained _).mp hretained
    exact hleases.held_idle _ hheld n hn
  · exact (List.nodup_append.mp (hids.nodup_iff.mp hleases.held_nodup)).2.2 _ hmem _ howned rfl

/-- An intact worker has an entry for each ticket. -/
theorem World.Tracked.length_of_references (h : w.Tracked config order tickets)
    (hrefs : ∀ n, (w.mapper.tree.data n).refCount =
      slots.leaves.count n + if n = rootId then 1 else 0) :
    slots.active.length + slots.prefilling.length = tickets.length := by
  have hperm : slots.leaves.Perm ((tickets.map Ticket.client).map Client.leaf) := by
    refine List.perm_iff_count.mpr fun n => ?_
    have hnode := hrefs n
    rw [h.refCount] at hnode
    omega
  simpa [Slots.leaves] using hperm.length_eq

/-- The loop over the cancelled prefills has dropped none. -/
theorem dropThrows_harmless (hsits : slots.Sits PrefillCtx.Fits)
    (h : w.Tracked config order slots.tickets) (hthrow : DropThrows slots w site slots' w')
    (hrefs : ∀ n, (w'.mapper.tree.data n).refCount =
      slots'.leaves.count n + if n = rootId then 1 else 0) : site.Harmless := by
  cases hthrow with
  | polling => exact trivial
  | dropping gap hprefilling hkept hgap hthrow =>
    obtain ⟨hstay, _⟩ := dropAbandoned_before hsits h hprefilling
    rw [hkept] at hstay
    have hlength := (isCancelledThrows_tracked hstay hthrow).length_of_references hrefs
    simp only [List.length_append, List.length_cons, List.length_map] at hlength
    change gap.length = 0
    omega

end Entries

section Positions

/-- A throw in a poll does not reach the mapper. -/
theorem isCancelledThrows_mapper {req : InferenceRequest} (hthrow : w' ∈ isCancelledThrows req w) :
    w'.mapper = w.mapper := by
  unfold isCancelledThrows at hthrow
  split at hthrow
  · rcases List.mem_cons.mp hthrow with rfl | hthrow
    · rfl
    · rw [List.mem_singleton.mp hthrow]
      rfl
  · rw [List.mem_singleton.mp hthrow]

/-- An extension leaves the memory. -/
theorem KVMapper.extendSequence_memory (m : KVMapper) (i : SeqId) (node : NodeId)
    (tokens : List Token) : (m.extendSequence i node tokens).1.memory = m.memory := by
  unfold extendSequence
  split
  · rfl
  · exact setSequenceCellCount_memory _ _ _

/-- What a throw leaves of a sequence: its id and its position, and the memory as it was. -/
structure ActiveSeq.Left (seq : ActiveSeq L) (w : World) (left : ActiveSeq L × World) : Prop where
  seqId : left.1.seqId = seq.seqId
  pos : left.1.pos = seq.pos
  memory : left.2.mapper.memory = w.mapper.memory

/-- A throw in a poll leaves the position of the sequence as it is by then. -/
theorem ActiveSeq.left_of_poll {seq s : ActiveSeq L} {req : InferenceRequest} {w₁ : World}
    {left : ActiveSeq L × World} (hmem : left ∈ (isCancelledThrows req w₁).map fun w => (s, w))
    (hseqId : s.seqId = seq.seqId) (hpos : s.pos = seq.pos)
    (hmemory : w₁.mapper.memory = w.mapper.memory) : seq.Left w left := by
  obtain ⟨w₂, hw₂, rfl⟩ := List.mem_map.mp hmem
  exact ⟨hseqId, hpos, by rw [isCancelledThrows_mapper hw₂, hmemory]⟩

/-- A throw while a sequence advances leaves its position. -/
theorem ActiveSeq.advanceSeqThrows_left {outputs : List (Option L)} {p : ℕ × ActiveSeq L}
    {left : ActiveSeq L × World} (hthrow : left ∈ advanceSeqThrows b outputs p w) :
    p.2.Left w left := by
  obtain ⟨row, seq⟩ := p
  have hcounted : (w.call (.setCellCount seq.seqId (seq.pos + 1))).mapper.memory =
      w.mapper.memory := KVMapper.setSequenceCellCount_memory _ _ _
  simp only [advanceSeqThrows] at hthrow
  split at hthrow
  · exact absurd hthrow List.not_mem_nil
  · have hasked := isCancelled_mapper seq.req (w.call (.setCellCount seq.seqId (seq.pos + 1)))
    rcases List.mem_append.mp hthrow with hthrow | hagain
    · rcases List.mem_append.mp hthrow with hfirst | hdelivering
      · exact left_of_poll hfirst rfl rfl hcounted
      · split at hdelivering
        · exact absurd hdelivering List.not_mem_nil
        · rw [List.mem_singleton.mp hdelivering]
          exact ⟨rfl, rfl, by rw [World.callback_mapper, hasked, hcounted]⟩
    · split at hagain
      · exact absurd hagain List.not_mem_nil
      · refine left_of_poll hagain rfl rfl ?_
        split
        · rw [hasked, hcounted]
        · rw [World.callback_mapper, hasked, hcounted]

/-- A throw while a sequence is retired leaves its position. -/
theorem ActiveSeq.retireDoneThrows_left {seq : ActiveSeq L} {left : ActiveSeq L × World}
    (hthrow : left ∈ retireDoneThrows seq w) : seq.Left w left := by
  have hmapper := isCancelled_mapper seq.req w
  unfold retireDoneThrows at hthrow
  generalize isCancelled seq.req w = first at hmapper hthrow
  obtain ⟨_, req, w₁⟩ := first
  have hfirst : w₁.mapper.memory = w.mapper.memory := congrArg KVMapper.memory hmapper
  have hmapper' := isCancelled_mapper req w₁
  simp only at hthrow
  split at hthrow
  · generalize isCancelled req w₁ = second at hmapper' hthrow
    obtain ⟨cancelled, req', w₂⟩ := second
    have hsecond : w₂.mapper.memory = w.mapper.memory :=
      (congrArg KVMapper.memory hmapper').trans hfirst
    simp only at hthrow
    generalize hextended : (if cancelled = true then w₂ else
      (w₂.extendSequence seq.seqId seq.leafNode seq.cachedTokens).1) = w₃ at hthrow
    have hthird : w₃.mapper.memory = w.mapper.memory := by
      rw [← hextended]
      split
      · exact hsecond
      · exact (KVMapper.extendSequence_memory _ _ _ _).trans hsecond
    rcases List.mem_append.mp hthrow with hthrow | hlast
    · rcases List.mem_append.mp hthrow with hthrow | hagain
      · rcases List.mem_append.mp hthrow with hmem | hmem
        · exact left_of_poll hmem rfl rfl rfl
        · exact left_of_poll hmem rfl rfl hfirst
      · exact left_of_poll hagain rfl rfl hthird
    · split at hlast
      · exact absurd hlast List.not_mem_nil
      · rw [List.mem_singleton.mp hlast]
        exact ⟨rfl, rfl, by rw [World.callback_mapper, isCancelled_mapper, hthird]⟩
  · exact left_of_poll hthrow rfl rfl rfl

/-- A sequence that is done after it was decoded has a cell more than its position says. -/
theorem advanceSeq_behind (outputs : List (Option L)) {p : ℕ × ActiveSeq L}
    (hrunning : p.2.Running) (w : World) :
    ∀ s ∈ (advanceSeq b outputs p w).1, s.done = true → s.pos + 1 = s.cachedTokens.length := by
  obtain ⟨row, seq⟩ := p
  have hlength : seq.pos + 1 = (seq.cachedTokens ++ [seq.nextToken]).length := by
    rw [hrunning.1.pos hrunning.2, List.length_append, List.length_singleton]
  have hkept {s t : ActiveSeq L} (hs : s ∈ some t) (ht : t.pos = seq.pos)
      (hcached : t.cachedTokens = seq.cachedTokens ++ [seq.nextToken]) :
      s.pos + 1 = s.cachedTokens.length := by
    cases hs
    rw [ht, hcached]
    exact hlength
  simp only [advanceSeq]
  split
  · exact fun s hs _ => hkept hs rfl rfl
  · generalize isCancelled seq.req (w.call (.setCellCount seq.seqId (seq.pos + 1))) = polled
    obtain ⟨cancelled, req, w₁⟩ := polled
    simp only
    split
    · exact fun s hs _ => hkept hs rfl rfl
    · generalize (if cancelled = true then w₁ else w₁.callback req.id _) = w₂
      generalize isCancelled req w₂ = asked
      obtain ⟨cancelled', req', w₃⟩ := asked
      simp only
      split
      · exact fun s hs _ => hkept hs rfl rfl
      · intro s hs hdone
        cases hs
        exact absurd (hrunning.2.symm.trans hdone) Bool.false_ne_true

/-- A sequence of a ticket with a cell more than its position is not at the end of its cells. -/
theorem ActiveSeq.Left.not_atEnd {t : Ticket} {seq : ActiveSeq L} {left : ActiveSeq L × World}
    (hleft : seq.Left w left) (h : w.Tracked config order (t :: tickets))
    (hseqId : t.client.seqId = seq.seqId) (hbehind : seq.pos + 1 = t.client.history.length)
    (hmem : left.1 ∈ slots.active) : ¬ slots.AtEnd left.2 := by
  intro hend
  have hpos := hend _ hmem
  rw [hleft.pos, hleft.memory, hleft.seqId, ← hseqId, h.cells, LlamaMemory.tape_length] at hpos
  omega

end Positions

/-- After a decode that failed, the loops have failed nothing; after one that did not, the sequences
are past their loops. -/
theorem decodeThrows_harmless {submissions : List (Option PromptSubmission)}
    {outputs : List (Option L)} {status : ℤ} (hfit : slots.FitFor PrefillCtx.Fits)
    (hdecoded : if status = 0 then
        w.Tracked config order (slots.active.map (fun seq => seq.decoded.ticket) ++
          (slots.prefilling.zip submissions).map chunkTicket) ∧
        ∀ p ∈ slots.prefilling.zip submissions, ChunkFits PrefillCtx.Fits b outputs p
      else w.Tracked config order slots.tickets)
    (hthrow : DecodeThrows b submissions outputs slots w status site slots' w')
    (hsite : ∀ n, site ≠ .beginning n)
    (hrefs : ∀ n, (w'.mapper.tree.data n).refCount =
      slots'.leaves.count n + if n = rootId then 1 else 0)
    (hend : slots'.AtEnd w') : site.Harmless := by
  have hfails (seq : ActiveSeq L) (w : World) (tickets : List Ticket)
      (h : w.Tracked config order (seq.ticket :: tickets)) :=
    failActive_tracked h "inference decode failed" 500
  cases hthrow with
  | newestActive => exact trivial
  | newestPrefill => exact trivial
  | failingActive hstatus hactive hthrow =>
    rw [if_neg hstatus.1, Slots.tickets, hactive, List.map_append, List.append_assoc] at hdecoded
    have hlength := (complainThrows_tracked (failAll_tracked hfails hdecoded)
      hthrow).1.length_of_references hrefs
    simp only [List.length_append, List.length_cons, List.length_map] at hlength
    change List.length _ = 0
    omega
  | failingPrefill hstatus hprefilling hthrow =>
    rw [if_neg hstatus.1, Slots.tickets, hprefilling, List.map_append] at hdecoded
    have hfailed := failAll_tracked (fun ctx w tickets
      (h : w.Tracked config order (PrefillCtx.ticket ctx :: tickets)) =>
      failPrefill_tracked h "inference prefill failed" 500) (failAll_tracked hfails hdecoded)
    have hlength := (complainThrows_tracked hfailed hthrow).1.length_of_references hrefs
    simp only [List.length_append, List.length_cons, List.length_map, List.length_nil] at hlength
    change List.length _ = 0
    omega
  | @advancing chunks before after p seq w₁ _ hchunks hactive hthrow =>
    rw [if_pos rfl] at hdecoded
    obtain ⟨hadvancing, _⟩ := finishChunks_tracked PrefillCtx.fits_lasting hdecoded.2 hdecoded.1
    rw [hchunks, hactive, List.map_append, List.append_assoc] at hadvancing
    have hrunning (q : ℕ × ActiveSeq L) (hq : q ∈ before ++ p :: after) : q.2.Running :=
      hfit.active q.2 (List.of_mem_zip (hactive ▸ hq)).2
    obtain ⟨htracked, _⟩ := pass_tracked (advanceSeq_tracked b outputs)
      (fun q hq => hrunning q (List.mem_append_left _ hq)) hadvancing
    have hp := hrunning p (List.mem_append_right _ List.mem_cons_self)
    refine absurd hend ((ActiveSeq.advanceSeqThrows_left hthrow).not_atEnd
      (htracked.perm List.perm_middle) rfl ?_ (List.mem_append_right _ List.mem_cons_self))
    simp only [ActiveSeq.ticket, ActiveSeq.decoded, List.length_append, List.length_singleton,
      hp.1.pos hp.2]
  | @retiring chunks seqs before after kept seq seq' w₁ w₂ w₃ _ gap hchunks hactive hsplit hkept
      hgap hdone hthrow =>
    rw [if_pos rfl] at hdecoded
    obtain ⟨hadvancing, _⟩ := finishChunks_tracked PrefillCtx.fits_lasting hdecoded.2 hdecoded.1
    rw [hchunks] at hadvancing
    have hrunning (q : ℕ × ActiveSeq L)
        (hq : q ∈ (List.range slots.active.length).zip slots.active) : q.2.Running :=
      hfit.active q.2 (List.of_mem_zip hq).2
    obtain ⟨hadvanced, hfits⟩ := pass_tracked (advanceSeq_tracked b outputs) hrunning hadvancing
    have hbehind := pass_forall (fun q w (hq : ActiveSeq.Running q.2) =>
      advanceSeq_behind (b := b) outputs hq w) _ hrunning w₁
    simp only [hactive, hsplit] at hadvanced hfits hbehind
    rw [List.map_append, List.append_assoc] at hadvanced
    obtain ⟨htracked, _⟩ := pass_tracked retireDone_tracked
      (fun s hs => hfits s (List.mem_append_left _ hs)) hadvanced
    rw [hkept] at htracked
    exact absurd hend ((ActiveSeq.retireDoneThrows_left hthrow).not_atEnd
      (htracked.perm List.perm_middle) rfl
      (hbehind seq (List.mem_append_right _ List.mem_cons_self) hdone)
      (List.mem_append_right _ List.mem_cons_self))
  | beginning => exact absurd rfl (hsite _)

/-- A throw of a fused step that leaves the worker intact is harmless. -/
theorem fusedThrows_harmless {first second : ℤ} (hsits : slots.Sits PrefillCtx.Fits)
    (h : w.Tracked config order slots.tickets)
    (hthrow : FusedThrows b first second slots w site slots' w') (hsite : ∀ n, site ≠ .beginning n)
    (hrefs : ∀ n, (w'.mapper.tree.data n).refCount =
      slots'.leaves.count n + if n = rootId then 1 else 0)
    (hend : slots'.AtEnd w') : site.Harmless := by
  cases hthrow with
  | dropping hthrow => exact dropThrows_harmless hsits h hthrow hrefs
  | decoded hdropped hbatch hrows hdecode hthrow =>
    obtain ⟨hfit, hdecoded⟩ := decodeBatch_returned hsits h hdropped hbatch hdecode
    exact decodeThrows_harmless hfit hdecoded hthrow hsite hrefs hend

/-- A throw that leaves the worker intact is harmless. -/
theorem Worker.Sits.harmless_of_intact {k k' : Worker L} (h : k.Sits config order)
    (hthrows : k.Throws b site k') (hsite : ∀ n, site ≠ .beginning n) (hintact : k'.Intact config) :
    site.Harmless := by
  cases hthrows with
  | @preparing _ lost w hphase hthrow =>
    by_contra hprepared
    exact World.Tracked.not_intact_of_lost (k := { k with phase := .head, world := w })
      (fun hnil => hprepared (congrArg List.length hnil))
      (prepareAllThrows_tracked h.tracked hthrow) hintact
  | fusing _ _ hphase hthrow =>
    exact fusedThrows_harmless h.sits h.tracked hthrow hsite hintact.references hintact.positions

/-- In every run in which what throws leaves nothing half done, every state is intact: also the one
after the handler, and every later one. That is exact at every site but the loop over the finished
prompts: there what its first prompts leave is moved from, and nothing is said about it. -/
theorem caught_exceptions_leave_intact (b : Bridge L) (config : Config) (order : ChildOrder)
    (k : Worker L)
    (hreaches : (Worker.init config order : Worker L).Reaches b ThrowSite.Harmless k) :
    k.Intact config ∧ ∀ site k', k.Throws b site k' → (∀ n, site ≠ .beginning n) →
      (k'.Intact config ↔ site.Harmless) := by
  have hsits := Worker.reaches_sits hreaches
  exact ⟨hsits.intact, fun site k' hthrows hsite => ⟨hsits.harmless_of_intact hthrows hsite,
    fun hharmless => (Worker.throws_sits hsits hthrows hharmless).intact⟩⟩

/-- The tokens of two prompts that share nothing. -/
def Bridge.apart : Bridge Unit := .counting (fun text => if text = "a" then [5, 6] else [7, 8]) 9

/-- The poll of the second of two sequences throws after the first one was found cancelled: it is
done and still active when the handler goes on, and the next iteration retires it. -/
theorem caught_exceptions_leave_intact_done : ∃ k₁ k₂ : Worker Unit,
    (Worker.init ⟨4, 64, true⟩ .stored).Reaches Bridge.apart ThrowSite.Harmless k₁ ∧
      k₁.slots.active.map ActiveSeq.done = [true, false] ∧ k₁.Intact ⟨4, 64, true⟩ ∧
      k₁.Run Bridge.apart (Worker.iteration 0 0) k₂ ∧ k₂.slots.seqIds = [2] ∧
      k₂.Intact ⟨4, 64, true⟩ := by
  have hrun : (run (Worker.step Bridge.apart) (Worker.init ⟨4, 64, true⟩ .stored)
      ([.enqueue { prompt := "a", cancelAfter := some 3 }, .enqueue { prompt := "b" }] ++
        (Worker.iteration 0 0 ++ (Worker.iteration 0 0).take 4))).any (fun k =>
      let polled := pass pollActive (k.slots.active.take 1) k.world
      (k.step Bridge.apart (.fuse 0 0)).isSome ∧ polled.1.map ActiveSeq.done = [true] ∧
        (k.slots.active.drop 1).map ActiveSeq.done = [false] ∧
        (run (Worker.step Bridge.apart) { k with
            phase := .head, slots := { k.slots with active := polled.1 ++ k.slots.active.drop 1 }
            world := polled.2 } (Worker.iteration 0 0)).any fun k =>
          k.slots.seqIds = [2]) = true := by
    decide +kernel
  obtain ⟨k, hk, hcond⟩ := (Option.any_eq_true _ _).mp hrun
  obtain ⟨hfuses, hfirst, hsecond, hlater⟩ := of_decide_eq_true hcond
  obtain ⟨k₂, hk₂, hlast⟩ := (Option.any_eq_true _ _).mp hlater
  have hphase : k.phase = .requeued := by
    cases hphase : k.phase with
    | requeued => rfl
    | _ => simp [Worker.step, hphase] at hfuses
  have hthrow : DropThrows k.slots k.world .polling
      { k.slots with
        active := (pass pollActive (k.slots.active.take 1) k.world).1 ++ k.slots.active.drop 1 }
      (pass pollActive (k.slots.active.take 1) k.world).2 := by
    have hactive := List.take_append_drop 1 k.slots.active
    cases hrest : k.slots.active.drop 1 with
    | nil => simp [hrest] at hsecond
    | cons t after =>
      rw [hrest] at hactive
      exact .polling hactive.symm (mem_isCancelledThrows t.req _)
  have hbefore : (Worker.init ⟨4, 64, true⟩ .stored).Reaches Bridge.apart
      ThrowSite.Harmless k := Worker.reaches_run .start hk
  have hthrown := hbefore.throws (show ThrowSite.polling.Harmless from trivial)
    (.fusing 0 0 hphase (.dropping hthrow))
  refine ⟨_, k₂, hthrown, ?_, (caught_exceptions_leave_intact _ _ _ _ hthrown).1, hk₂,
    of_decide_eq_true hlast,
    (caught_exceptions_leave_intact _ _ _ _ (Worker.reaches_run hthrown hk₂)).1⟩
  rw [List.map_append, hfirst, hsecond]
  rfl

/-- The tokenizer throws for the second of two requests that were admitted together: the first one
is prepared, and its sequence is lost. -/
theorem caught_exception_loses_sequence :
    ¬ ∀ (b : Bridge Unit) (config : Config) (order : ChildOrder) (k : Worker Unit),
    (Worker.init config order).Reaches b (fun _ => True) k → k.Intact config := by
  intro hall
  have hrun : (run (Worker.step Bridge.apart) (Worker.init ⟨4, 64, true⟩ .stored)
      [.enqueue { prompt := "a" }, .enqueue { prompt := "b" }, .check, .pop]).any (fun k =>
      k.slots.seqIds = [] ∧ ((prepareAllThrows Bridge.apart k.admitted k.world)[3]?).any fun left =>
        1 ∉ left.2.mapper.freeSeqIds ∧ 1 ∉ left.2.mapper.retainedSeqIds) = true := by
    decide +kernel
  obtain ⟨k, hk, hcond⟩ := (Option.any_eq_true _ _).mp hrun
  obtain ⟨hslots, hleft⟩ := of_decide_eq_true hcond
  obtain ⟨⟨lost, w⟩, hlost, hgone⟩ := (Option.any_eq_true _ _).mp hleft
  obtain ⟨hfree, hretained⟩ := of_decide_eq_true hgone
  cases hphase : k.phase with
  | admitted pending =>
    rw [Worker.admitted, hphase] at hlost
    have hintact := hall _ _ _ _ ((Worker.reaches_run .start hk).throws trivial
      (.preparing hphase (List.mem_of_getElem? hlost)))
    rcases hintact.ids 1 le_rfl (by decide) with h | h | h
    · exact hfree h
    · exact hretained h
    · exact absurd (hslots ▸ h) List.not_mem_nil
  | _ => simp [Worker.admitted, hphase, prepareAllThrows] at hlost

end RadixForge
