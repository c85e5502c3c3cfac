import RadixForge.Session.CellCounts
import RadixForge.Worker.Owners

/-!
# The recorded cells of the worker's sequences

The record of an active sequence is its position and that of a prefill is where it began. Each visit
of a fused step touches the record of its own sequence only. The record made when a prompt is
finished is the canonical length of its leaf, which is right if that is the length of the prompt.
-/

namespace RadixForge

open Library

variable {L : Type} {b : Bridge L} {config : Config} {order : ChildOrder}

namespace World

/-- The recorded cell count of a sequence. -/
def recorded (w : World) (i : SeqId) : Option ℕ := w.mapper.seqCellCounts.lookup i

/-- A step that touches the record of one sequence. -/
abbrev Records (w w' : World) (i : SeqId) (kept : Option (Claim SeqId (Option ℕ))) : Prop :=
  Library.Settles recorded w w' i kept

variable {w w' w'' : World} {i j : SeqId}

/-- A poll leaves the recorded cells. -/
theorem isCancelled_recorded (req : InferenceRequest) (w : World) (i : SeqId) :
    (isCancelled req w).2.2.recorded i = w.recorded i := by
  rw [recorded, isCancelled_mapper]
  rfl

/-- Giving a sequence back leaves the recorded cells of the others. -/
theorem giveBack_recorded (w : World) (id : ℕ) (owner leaf : NodeId) (hne : i ≠ j) :
    (w.giveBack id j owner leaf).recorded i = w.recorded i :=
  (w.mapper.releaseSequence_untouched hne owner).count

/-- An extension leaves the recorded cells of the other sequences. -/
theorem extendSequence_recorded (w : World) (node : NodeId) (tokens : List Token) (hne : i ≠ j) :
    (w.extendSequence j node tokens).1.recorded i = w.recorded i :=
  (w.mapper.extendSequence_untouched hne node tokens).count

/-- Nothing is recorded. -/
theorem records_nothing (hsame : ∀ i, w'.recorded i = w.recorded i) {c : Claim SeqId (Option ℕ)}
    (hkey : c.key = i) (hc : c.holds (w.recorded i)) : w.Records w' i (some c) where
  other k _ := hsame k
  kept d hd := by
    cases hd
    exact ⟨hkey, (hsame i).symm ▸ hc⟩

/-- A step after which nothing is claimed. -/
theorem records_none (hother : ∀ k, k ≠ i → w'.recorded k = w.recorded k) :
    w.Records w' i none where
  other := hother
  kept d hd := absurd hd (Option.not_mem_none d)

end World

/-- The claim that so many cells are recorded. -/
def recordedAs (i : SeqId) (count : ℕ) : Claim SeqId (Option ℕ) := ⟨i, (· = some count)⟩

/-- The record of an active sequence. -/
def ActiveSeq.cellRecord (seq : ActiveSeq L) : Claim SeqId (Option ℕ) :=
  recordedAs seq.seqId seq.pos

/-- The record of an active sequence after its token was sampled, unless it is done. -/
def ActiveSeq.advancedCells (seq : ActiveSeq L) : Claim SeqId (Option ℕ) :=
  ⟨seq.seqId, fun count => seq.done = false → count = some seq.pos⟩

/-- The record of a prefill. -/
def PrefillCtx.cellRecord (ctx : PrefillCtx) : Claim SeqId (Option ℕ) :=
  recordedAs ctx.prep.seqId ctx.prep.cachedPos

/-- The record of a prefill after its chunk: a finished prompt is recorded as a whole. -/
def chunkCells (q : PrefillCtx × Option ℕ) : Claim SeqId (Option ℕ) :=
  recordedAs q.1.prep.seqId (if q.2.isSome then q.1.tokens.length else q.1.prep.cachedPos)

/-- The record of what becomes of a prefill. -/
def progressCells : PrefillCtx ⊕ ActiveSeq L → Claim SeqId (Option ℕ) :=
  Sum.elim PrefillCtx.cellRecord ActiveSeq.cellRecord

/-- The records of the two lists. -/
def Slots.cellRecords (slots : Slots L) : List (Claim SeqId (Option ℕ)) :=
  slots.active.map ActiveSeq.cellRecord ++ slots.prefilling.map PrefillCtx.cellRecord

/-- The canonical length of a node is that of its data. -/
theorem RadixTree.field_canonicalLen (t : RadixTree) (n : NodeId) :
    t.field n RadixNode.canonicalLen 0 = (t.data n).canonicalLen := by
  simp only [data, field]
  cases t.nodes n <;> rfl

section Visits

variable {w : World} {i : SeqId}

/-- A sequence that retires leaves the recorded cells of the others. -/
theorem retire_recorded (seq : ActiveSeq L) (notify : Bool) (w : World) (hne : i ≠ seq.seqId) :
    (retire seq notify w).recorded i = w.recorded i := by
  unfold retire
  cases notify with
  | false => exact World.giveBack_recorded _ _ _ _ hne
  | true =>
    have hpolled := World.isCancelled_recorded seq.req
      (w.note (.leaving seq.req.id seq.seqId seq.leafNode seq.cachedTokens true)) i
    simp only [if_true]
    generalize isCancelled seq.req _ = polled at hpolled ⊢
    obtain ⟨cancelled, req, w₁⟩ := polled
    simp only at hpolled ⊢
    generalize hextended : (if cancelled = true then (w₁, seq.leafNode)
      else w₁.extendSequence seq.seqId seq.leafNode seq.cachedTokens) = extended
    obtain ⟨w₂, owner⟩ := extended
    have hsame : w₂.recorded i = w₁.recorded i := by
      split at hextended
      · cases hextended
        rfl
      · cases hextended
        exact w₁.extendSequence_recorded _ _ hne
    have hpolled' := World.isCancelled_recorded req w₂ i
    simp only
    generalize isCancelled req w₂ = polled at hpolled' ⊢
    obtain ⟨cancelled', req', w₃⟩ := polled
    simp only at hpolled' ⊢
    rw [World.giveBack_recorded _ _ _ _ hne]
    cases cancelled' with
    | true => exact hpolled'.trans (hsame.trans hpolled)
    | false => exact hpolled'.trans (hsame.trans hpolled)

/-- A prefill that is abandoned leaves the recorded cells of the others. -/
theorem abandon_recorded (ctx : PrefillCtx) (w : World) (hne : i ≠ ctx.prep.seqId) :
    (abandon ctx w).recorded i = w.recorded i :=
  World.giveBack_recorded _ _ _ _ hne

/-- A sequence that fails leaves the recorded cells of the others. -/
theorem failActive_recorded (message : String) (status : ℕ) (seq : ActiveSeq L) (w : World)
    (hne : i ≠ seq.seqId) :
    (failActive message status seq w).recorded i = w.recorded i := by
  have hpolled := World.isCancelled_recorded seq.req
    (w.note (.leaving seq.req.id seq.seqId seq.leafNode seq.cachedTokens false)) i
  unfold failActive
  simp only
  generalize isCancelled seq.req _ = polled at hpolled ⊢
  obtain ⟨cancelled, req, w₁⟩ := polled
  rw [World.giveBack_recorded _ _ _ _ hne]
  cases cancelled <;> exact hpolled

/-- A prefill that fails leaves the recorded cells of the others. -/
theorem failPrefill_recorded (message : String) (status : ℕ) (ctx : PrefillCtx) (w : World)
    (hne : i ≠ ctx.prep.seqId) :
    (failPrefill message status ctx w).recorded i = w.recorded i := by
  have hpolled := World.isCancelled_recorded ctx.req
    (w.note (.leaving ctx.req.id ctx.prep.seqId ctx.prep.leafNode ctx.tokens false)) i
  unfold failPrefill
  simp only
  generalize isCancelled ctx.req _ = polled at hpolled ⊢
  obtain ⟨cancelled, req, w₁⟩ := polled
  rw [World.giveBack_recorded _ _ _ _ hne]
  cases cancelled <;> exact hpolled

/-- A sequence that is polled keeps what is recorded for it. -/
theorem pollActive_records (seq : ActiveSeq L) (w : World)
    (h : seq.cellRecord.holds (w.recorded seq.seqId)) :
    w.Records (pollActive seq w).2 seq.seqId ((pollActive seq w).1.map ActiveSeq.cellRecord) :=
  World.records_nothing (World.isCancelled_recorded seq.req w) rfl h

/-- A sequence that is not dropped keeps what is recorded for it. -/
theorem dropCancelled_records (seq : ActiveSeq L) (w : World)
    (h : seq.cellRecord.holds (w.recorded seq.seqId)) :
    w.Records (dropCancelled seq w).2 seq.seqId
      ((dropCancelled seq w).1.map ActiveSeq.cellRecord) := by
  unfold dropCancelled
  split
  · exact World.records_none fun _ hk => retire_recorded seq false w hk
  · exact World.records_nothing (fun _ => rfl) rfl h

/-- A prefill that is not dropped keeps what is recorded for it. -/
theorem dropAbandoned_records (ctx : PrefillCtx) (w : World)
    (h : ctx.cellRecord.holds (w.recorded ctx.prep.seqId)) :
    w.Records (dropAbandoned ctx w).2 ctx.prep.seqId
      ((dropAbandoned ctx w).1.map PrefillCtx.cellRecord) := by
  have hpolled := World.isCancelled_recorded ctx.req w
  unfold dropAbandoned
  generalize isCancelled ctx.req w = polled at hpolled ⊢
  obtain ⟨cancelled, req, w'⟩ := polled
  cases cancelled with
  | true => exact World.records_none fun k hk => (abandon_recorded _ w' hk).trans (hpolled k)
  | false => exact World.records_nothing hpolled rfl h

/-- A sequence that goes on is recorded at its new position. -/
theorem advanceSeq_records (outputs : List (Option L)) (p : ℕ × ActiveSeq L) (w : World)
    (h : p.2.cellRecord.holds (w.recorded p.2.seqId)) :
    w.Records (advanceSeq b outputs p w).2 p.2.seqId
      ((advanceSeq b outputs p w).1.map ActiveSeq.advancedCells) := by
  obtain ⟨row, seq⟩ := p
  have hset (k : SeqId) (hk : k ≠ seq.seqId) :
      (w.call (.setCellCount seq.seqId (seq.pos + 1))).recorded k = w.recorded k :=
    (w.mapper.setSequenceCellCount_untouched hk (seq.pos + 1)).count
  have hself : (w.call (.setCellCount seq.seqId (seq.pos + 1))).recorded seq.seqId =
      some (seq.pos + 1) := by
    have hmem : seq.seqId ∈ w.mapper.seqCellCounts :=
      AList.lookup_isSome.mp (Option.isSome_iff_exists.mpr ⟨_, h⟩)
    simp only [World.recorded, World.call_mapper, Call.apply, KVMapper.setSequenceCellCount,
      if_pos hmem, AList.lookup_insert]
  -- in every branch the sequence is done or one position further
  have hkeep {w' : World} {s : ActiveSeq L} (hsame : ∀ k, w'.recorded k =
      (w.call (.setCellCount seq.seqId (seq.pos + 1))).recorded k) (hid : s.seqId = seq.seqId)
      (hs : s.done = true ∨ s.pos = seq.pos + 1) : w.Records w' seq.seqId
        (some s.advancedCells) := by
    refine ⟨fun k hk => (hsame k).trans (hset k hk), fun c hc => ?_⟩
    cases hc
    refine ⟨hid, fun hdone => ?_⟩
    rw [hsame, hself, hs.resolve_left (by rw [hdone]; exact Bool.false_ne_true)]
  simp only [advanceSeq]
  split
  · exact hkeep (fun _ => rfl) rfl (.inl rfl)
  · have hpolled := World.isCancelled_recorded seq.req
      (w.call (.setCellCount seq.seqId (seq.pos + 1)))
    generalize isCancelled seq.req (w.call (.setCellCount seq.seqId (seq.pos + 1))) =
      polled at hpolled ⊢
    obtain ⟨cancelled, req, w₁⟩ := polled
    simp only at hpolled ⊢
    have hdelivered (e : Event) (k : SeqId) :
        (if cancelled = true then w₁ else w₁.callback req.id e).recorded k =
        (w.call (.setCellCount seq.seqId (seq.pos + 1))).recorded k := by
      split <;> exact hpolled k
    split
    · exact hkeep (hdelivered _) rfl (.inl rfl)
    · generalize hw₂ : (if cancelled = true then w₁ else w₁.callback req.id _) = w₂
      have hpolled' (k : SeqId) :=
        (World.isCancelled_recorded req w₂ k).trans (hw₂ ▸ hdelivered _ k)
      generalize isCancelled req w₂ = polled at hpolled' ⊢
      obtain ⟨cancelled', req', w₃⟩ := polled
      simp only at hpolled' ⊢
      split
      · exact hkeep hpolled' rfl (.inl rfl)
      · exact hkeep hpolled' rfl (.inr rfl)

/-- A sequence that is not retired keeps what is recorded for it. -/
theorem retireDone_records (seq : ActiveSeq L) (w : World)
    (h : seq.advancedCells.holds (w.recorded seq.seqId)) :
    w.Records (retireDone seq w).2 seq.seqId ((retireDone seq w).1.map ActiveSeq.cellRecord) := by
  unfold retireDone
  split
  · have hpolled := World.isCancelled_recorded seq.req w
    generalize isCancelled seq.req w = polled at hpolled ⊢
    obtain ⟨cancelled, req, w'⟩ := polled
    exact World.records_none fun k hk =>
      (retire_recorded { seq with req := req } seq.notifyOnRetire w' hk).trans (hpolled k)
  · rename_i hdone
    exact World.records_nothing (fun _ => rfl) rfl (h (Bool.eq_false_iff.mpr hdone))

/-- A request that begins to generate is recorded with its whole prompt. -/
theorem finishPrefill_records (outputs : List (Option L)) (q : PrefillCtx × Option ℕ) (w : World)
    (hfits : q.1.Fits) (h : (chunkCells q).holds (w.recorded q.1.prep.seqId)) :
    w.Records (finishPrefill b outputs q w).2 q.1.prep.seqId
      ((finishPrefill b outputs q w).1.map progressCells) := by
  obtain ⟨ctx, row⟩ := q
  cases row with
  | none => exact World.records_nothing (fun _ => rfl) rfl h
  | some row =>
    have hpolled := World.isCancelled_recorded ctx.req w
    simp only [finishPrefill, beginGeneration]
    generalize isCancelled ctx.req w = polled at hpolled ⊢
    obtain ⟨cancelled, req, w'⟩ := polled
    simp only at hpolled ⊢
    have hleave (stats : InferenceStats) (e : Event) : w.Records
        (abandon { ctx with req := req, stats := stats } (w'.callback req.id e))
          ctx.prep.seqId none :=
      World.records_none fun k hk => (abandon_recorded _ _ hk).trans (hpolled k)
    split
    · exact World.records_none fun k hk => (abandon_recorded _ _ hk).trans (hpolled k)
    · split
      · exact hleave _ _
      · split
        · exact hleave _ _
        · refine ⟨fun k _ => hpolled k, fun c hc => ?_⟩
          cases hc
          refine ⟨rfl, (hpolled _).trans ?_⟩
          rw [hfits.total]
          exact h

/-- Marking a sequence changes no canonical length. -/
theorem RadixTree.markSeqIdReady_canonicalLen (t : RadixTree) (n m : NodeId) (i : SeqId) :
    ((t.markSeqIdReady n i).data m).canonicalLen = (t.data m).canonicalLen := by
  simp only [data, field, markSeqIdReady, modify_nodes]
  split
  · cases t.nodes m with
    | none => rfl
    | some x =>
      simp only [Option.map_some]
      split <;> rfl
  · rfl

/-- A finished prompt is recorded with the canonical length of its leaf. -/
theorem finishChunk_records {outputs : List (Option L)} {p : PrefillCtx × Option PromptSubmission}
    {U : PrefillCtx → Prop} (w : World) (hfits : ChunkFits U b outputs p)
    (hmark : ∀ s ∈ p.2, p.1.deltaStart + s.tokens = p.1.prep.delta.length →
      (w.mapper.tree.data p.1.prep.leafNode).canonicalLen = p.1.tokens.length)
    (h : p.1.cellRecord.holds (w.recorded p.1.prep.seqId)) :
    w.Records (finishChunk p w).2 p.1.prep.seqId ((finishChunk p w).1.map chunkCells) ∧
      ∀ n, ((finishChunk p w).2.mapper.tree.data n).canonicalLen =
        (w.mapper.tree.data n).canonicalLen := by
  obtain ⟨ctx, submission⟩ := p
  cases submission with
  | none => exact ⟨World.records_nothing (fun _ => rfl) rfl h, fun _ => rfl⟩
  | some submission =>
    simp only [finishChunk]
    split
    · rename_i htotal
      obtain ⟨row, hrow, _⟩ := hfits.whole submission rfl htotal
      refine ⟨⟨fun k hk => AList.lookup_insert_ne hk, fun c hc => ?_⟩,
        fun n => RadixTree.markSeqIdReady_canonicalLen _ _ _ _⟩
      cases hc
      refine ⟨rfl, (AList.lookup_insert _).trans ?_⟩
      rw [RadixTree.field_canonicalLen, RadixTree.markSeqIdReady_canonicalLen,
        hmark submission rfl htotal, hrow]
      rfl
    · exact ⟨World.records_nothing (fun _ => rfl) rfl h, fun _ => rfl⟩

end Visits

section Steps

variable {slots : Slots L} {w : World} {tickets : List Ticket}
  {claims : List (Claim SeqId (Option ℕ))}

/-- A ticket's sequence is not in the pool. -/
theorem World.Tracked.not_pooled (h : w.Tracked config order tickets) {t : Ticket}
    (ht : t ∈ tickets) :
    t.client.seqId ∉ w.mapper.freeSeqIds := by
  obtain ⟨s, hfollows, hlive, _⟩ := h
  obtain ⟨_, _, hbooks⟩ := hfollows.sound
  intro hfree
  rw [← hfollows.mapper] at hfree
  refine hbooks.accounts.leases.free_held _ hfree (List.mem_map_of_mem (hlive.mem_iff.mpr ?_))
  exact List.mem_map_of_mem ht

/-- The claims are about sequences of tickets. -/
def Covers (tickets : List Ticket) (claims : List (Claim SeqId (Option ℕ))) : Prop :=
  ∀ c ∈ claims, ∃ t ∈ tickets, t.client.seqId = c.key

/-- The claims of slots are about the sequences of their tickets. -/
theorem Slots.covers (slots : Slots L) : Covers slots.tickets slots.cellRecords := by
  intro c hc
  rcases List.mem_append.mp hc with hc | hc
  · obtain ⟨seq, hseq, rfl⟩ := List.mem_map.mp hc
    exact ⟨seq.ticket, List.mem_append_left _ (List.mem_map_of_mem hseq), rfl⟩
  · obtain ⟨ctx, hctx, rfl⟩ := List.mem_map.mp hc
    exact ⟨ctx.ticket, List.mem_append_right _ (List.mem_map_of_mem hctx), rfl⟩

/-- A call that is not about a claimed sequence. -/
theorem call_claimed (call : Call) (hcovers : Covers tickets claims) {w' : World}
    (hmapper : w'.mapper = call.apply w.mapper) (h : w'.Tracked config order tickets)
    (hsubject : ∀ c ∈ claims, call.subject? w.mapper ≠ some c.key)
    (hclaimed : Claimed World.recorded w claims) : Claimed World.recorded w' claims := by
  refine hclaimed.same fun c hc => ?_
  obtain ⟨t, ht, hkey⟩ := hcovers c hc
  have hpooled := h.not_pooled ht
  rw [hkey, hmapper] at hpooled
  rw [World.recorded, hmapper]
  exact ((call.apply_spares w.mapper (hsubject c hc)).same.resolve_left hpooled).count

/-- Dropping what is cancelled keeps the claims of the rest. -/
theorem dropAllCancelled_claimed (h : Claimed World.recorded w slots.cellRecords) :
    Claimed World.recorded (dropAllCancelled slots w).2
      (dropAllCancelled slots w).1.cellRecords := by
  have hpolled := pass_claimed (P := fun _ => True) (fun seq w _ => pollActive_records seq w)
    (fun _ _ => trivial) h
  have hkept := pass_claimed (P := fun _ => True) (fun seq w _ => dropCancelled_records seq w)
    (fun _ _ => trivial) hpolled
  have hdropped := pass_claimed (P := fun _ => True) (fun ctx w _ => dropAbandoned_records ctx w)
    (fun _ _ => trivial)
    (hkept.perm List.perm_append_comm)
  exact hdropped.perm List.perm_append_comm

/-- A decode leaves the recorded cells. -/
theorem decodeRows_recorded (rows : List Row) (w : World) (i : SeqId) :
    (decodeRows b rows w).2.recorded i = w.recorded i := by
  induction rows generalizing w with
  | nil => rfl
  | cons row rest ih => exact (ih (w.call (.decode row.seqId row.token row.pos))).trans rfl

/-- The decodes of a step leave the claims on recorded cells. -/
theorem decodeBatch_claimed (rows : List Row) (first second : ℤ)
    (h : w.Tracked config order slots.tickets)
    (hclaimed : Claimed World.recorded w slots.cellRecords) :
    Claimed World.recorded (decodeBatch b rows first second w).2.2 slots.cellRecords := by
  have hretried : Claimed World.recorded
      (if first = 1 then (if w.evictIdleSequence.2 then second else first, w.evictIdleSequence.1)
        else (first, w)).2 slots.cellRecords := by
    split
    · exact call_claimed .evictIdle slots.covers rfl h.evictIdle
        (fun c _ => (Option.some_ne_none c.key).symm) hclaimed
    · exact hclaimed
  simp only [decodeBatch]
  generalize (if first = 1 then (if w.evictIdleSequence.2 then second else first,
    w.evictIdleSequence.1)
    else (first, w)) = outcome at hretried ⊢
  obtain ⟨status, w₁⟩ := outcome
  simp only at hretried ⊢
  split
  · exact hretried.same fun c _ => decodeRows_recorded rows w₁ c.key
  · exact hretried

/-- Every prompt that the submissions finish is recorded as a whole at its leaf. -/
def MarksExact (slots : Slots L) (submissions : List (Option PromptSubmission)) (w : World) :
    Prop :=
  ∀ p ∈ slots.prefilling.zip submissions, ∀ s ∈ p.2, p.1.deltaStart + s.tokens =
    p.1.prep.delta.length →
    (w.mapper.tree.data p.1.prep.leafNode).canonicalLen = p.1.tokens.length

instance (slots : Slots L) (submissions : List (Option PromptSubmission)) (w : World) :
    Decidable (MarksExact slots submissions w) :=
  inferInstanceAs (Decidable (∀ p ∈ slots.prefilling.zip submissions, ∀ s ∈ p.2, _ → _))

/-- The chunks of a decoded batch. -/
theorem finishChunks_claimed {outputs : List (Option L)}
    {U : PrefillCtx → Prop} {ps : List (PrefillCtx × Option PromptSubmission)}
    (hchunks : ∀ p ∈ ps, ChunkFits U b outputs p)
    (hmarks : ∀ p ∈ ps, ∀ s ∈ p.2, p.1.deltaStart + s.tokens = p.1.prep.delta.length →
      (w.mapper.tree.data p.1.prep.leafNode).canonicalLen = p.1.tokens.length)
    (h : Claimed World.recorded w (ps.map (fun p => p.1.cellRecord) ++ claims)) :
    Claimed World.recorded (pass finishChunk ps w).2
      ((pass finishChunk ps w).1.map chunkCells ++ claims) := by
  refine (pass_trade (H := fun (w' : World) claims =>
    (∀ n, (w'.mapper.tree.data n).canonicalLen = (w.mapper.tree.data n).canonicalLen) ∧
      Claimed World.recorded w' claims)
    (P := fun p => ChunkFits U b outputs p ∧
      ∀ s ∈ p.2, p.1.deltaStart + s.tokens = p.1.prep.delta.length →
      (w.mapper.tree.data p.1.prep.leafNode).canonicalLen = p.1.tokens.length) (Q := fun _ => True)
    (fun _ _ _ h hperm => ⟨h.1, h.2.perm hperm⟩) (fun p w' claims hp h => ⟨?_, fun _ _ => trivial⟩)
    (fun p hp => ⟨hchunks p hp, hmarks p hp⟩) ⟨fun _ => rfl, h⟩).1.2
  obtain ⟨hcanonical, hclaimed⟩ := h
  obtain ⟨hrecords, hsame⟩ :=
    finishChunk_records w' hp.1 (fun s hs htotal => (hcanonical _).trans (hp.2 s hs htotal))
    (hclaimed.holds _ List.mem_cons_self)
  have hsettled := hclaimed.settle hrecords
  refine ⟨fun n => (hsame n).trans (hcanonical n), ?_⟩
  cases hkept : (finishChunk p w').1 with
  | none =>
    rw [hkept] at hsettled
    exact hsettled
  | some q =>
    rw [hkept] at hsettled
    exact hsettled

/-- What follows a successful decode. -/
theorem advanceAll_claimed {submissions : List (Option PromptSubmission)}
    {outputs : List (Option L)}
    (hchunks : ∀ p ∈ slots.prefilling.zip submissions,
      ChunkFits PrefillCtx.Unfinished b outputs p)
    (hlength : submissions.length = slots.prefilling.length)
    (hmarks : MarksExact slots submissions w)
    (h : w.Tracked config order (slots.active.map (fun seq => seq.decoded.ticket) ++
      (slots.prefilling.zip submissions).map chunkTicket))
    (hclaimed : Claimed World.recorded w slots.cellRecords) :
    Claimed World.recorded (advanceAll b submissions outputs slots w).2
      (advanceAll b submissions outputs slots w).1.cellRecords := by
  have hprefills : (slots.prefilling.zip submissions).map (fun p => p.1.cellRecord) =
      slots.prefilling.map PrefillCtx.cellRecord := by
    refine (List.map_map (g := PrefillCtx.cellRecord) (f := Prod.fst)).symm.trans ?_
    rw [List.map_fst_zip hlength.ge]
  have hactives : ((List.range slots.active.length).zip slots.active).map
      (fun p => p.2.cellRecord) =
      slots.active.map ActiveSeq.cellRecord := by
    refine (List.map_map (g := ActiveSeq.cellRecord) (f := Prod.snd)).symm.trans ?_
    rw [List.map_snd_zip (by rw [List.length_range])]
  rw [Slots.cellRecords, ← hprefills] at hclaimed
  obtain ⟨_, hdone⟩ := pass_tracked
    (finishChunk_tracked PrefillCtx.unfinished_lasting b outputs) hchunks
    (h.perm List.perm_append_comm)
  have hmarked := finishChunks_claimed hchunks hmarks (hclaimed.perm List.perm_append_comm)
  simp only [advanceAll]
  generalize pass finishChunk (slots.prefilling.zip submissions) w = marked at hmarked hdone ⊢
  obtain ⟨chunks, w₁⟩ := marked
  rw [← hactives] at hmarked
  have hadvanced := pass_claimed (P := fun _ => True)
    (fun p w _ => advanceSeq_records (b := b) outputs p w)
    (fun _ _ => trivial) (hmarked.perm List.perm_append_comm)
  generalize pass (advanceSeq b outputs) ((List.range slots.active.length).zip slots.active) w₁ =
    advanced at hadvanced ⊢
  obtain ⟨seqs, w₂⟩ := advanced
  have hretired := pass_claimed (P := fun _ => True) (fun seq w _ => retireDone_records seq w)
    (fun _ _ => trivial) hadvanced
  simp only
  generalize pass retireDone seqs w₂ = retired at hretired ⊢
  obtain ⟨kept, w₃⟩ := retired
  have hfinished := pass_claimed (P := fun q : PrefillCtx × Option ℕ => q.1.Fits)
    (fun q w hfits => finishPrefill_records (b := b) outputs q w hfits)
      (fun q hq => (hdone q hq).fits)
    (hretired.perm List.perm_append_comm)
  simp only
  generalize pass (finishPrefill b outputs) chunks w₃ = finished at hfinished ⊢
  obtain ⟨results, w₄⟩ := finished
  refine hfinished.perm ?_
  refine ((perm_results _ _ results).append_right _).trans ?_
  simp only [Slots.cellRecords, List.map_append]
  exact List.perm_append_comm.trans (List.append_assoc _ _ _ ▸ List.Perm.refl _)

/-- A failure of one item drops its claim. -/
theorem failAll_claimed {α : Type} {fail : α → World → World} {record : α → Claim SeqId (Option ℕ)}
    (hfail : ∀ a (w : World) i, i ≠ (record a).key → (fail a w).recorded i = w.recorded i)
    {as : List α} (h : Claimed World.recorded w (as.map record ++ claims)) :
    Claimed World.recorded (failAll fail as w) claims := by
  induction as generalizing w with
  | nil => exact h
  | cons a rest ih => exact ih (h.settle (World.records_none (hfail a w)))

/-- Failing the newest prefills keeps the claims of the rest. -/
theorem failNewest_claimed (h : Claimed World.recorded w slots.cellRecords) :
    Claimed World.recorded (failNewest slots w).2 (failNewest slots w).1.cellRecords := by
  unfold failNewest
  split
  · rename_i seq hseq
    obtain ⟨init, hinit⟩ := List.getLast?_eq_some_iff.mp hseq
    simp only [Slots.cellRecords, hinit, List.dropLast_concat, List.map_append, List.map_cons,
      List.map_nil, List.append_assoc, List.singleton_append] at h ⊢
    exact (h.perm List.perm_middle).settle
      (World.records_none fun k hk => failActive_recorded _ _ seq w hk)
  · split
    · rename_i ctx hctx
      obtain ⟨init, hinit⟩ := List.getLast?_eq_some_iff.mp hctx
      simp only [Slots.cellRecords, hinit, List.dropLast_concat, List.map_append, List.map_cons,
        List.map_nil] at h ⊢
      rw [← List.append_assoc] at h
      exact (h.perm List.perm_append_comm).settle
        (World.records_none fun k hk => failPrefill_recorded _ _ ctx w hk)
    · exact h

/-- Failing everything leaves no claims. -/
theorem failEverything_claimed (h : Claimed World.recorded w slots.cellRecords) :
    Claimed World.recorded (failEverything slots w).2 (failEverything slots w).1.cellRecords := by
  have hactive := failAll_claimed
    (fun seq w i hi => failActive_recorded "inference decode failed" 500 seq w hi) h
  rw [← List.append_nil (slots.prefilling.map PrefillCtx.cellRecord)] at hactive
  exact failAll_claimed
    (fun ctx w i hi => failPrefill_recorded "inference prefill failed" 500 ctx w hi) hactive

/-- Every prompt that a fused step finishes is recorded as a whole. -/
def fusedMarksExact (b : Bridge L) (first second : ℤ) (slots : Slots L) (w : World) : Prop :=
  let dropped := dropAllCancelled slots w
  let batch := buildBatch b dropped.1
  let decoded := decodeBatch b batch.1 first second dropped.2
  decoded.1 = 0 → MarksExact dropped.1 batch.2 decoded.2.2

instance (b : Bridge L) (first second : ℤ) (slots : Slots L) (w : World) :
    Decidable (fusedMarksExact b first second slots w) :=
  inferInstanceAs (Decidable (_ = _ → _))

/-- A fused step keeps the records right. -/
theorem fusedStep_claimed (hfit : slots.Fit) (first second : ℤ)
    (h : w.Tracked config order slots.tickets) (hmarks : fusedMarksExact b first second slots w)
    (hclaimed : Claimed World.recorded w slots.cellRecords) :
    Claimed World.recorded (fusedStep b first second slots w).2
      (fusedStep b first second slots w).1.cellRecords := by
  obtain ⟨hdropped, hfit'⟩ := dropAllCancelled_tracked PrefillCtx.unfinished_lasting hfit.sits h
  have hkept := dropAllCancelled_claimed hclaimed
  unfold fusedMarksExact at hmarks
  unfold fusedStep
  generalize dropAllCancelled slots w = dropped at hdropped hfit' hkept hmarks ⊢
  obtain ⟨slots, w⟩ := dropped
  have hdecoded := decodeBatch_tracked (b := b) PrefillCtx.unfinished_lasting hfit' first second
    hdropped
  simp only at hdecoded hmarks hkept ⊢
  generalize buildBatch b slots = plan at hdecoded hmarks ⊢
  obtain ⟨rows, submissions⟩ := plan
  have hsame := decodeBatch_claimed (b := b) rows first second hdropped hkept
  simp only at hdecoded hmarks ⊢
  split
  · exact hkept
  · generalize decodeBatch b rows first second w = decoded at hdecoded hmarks hsame ⊢
    obtain ⟨status, outputs, w'⟩ := decoded
    simp only at hdecoded hmarks hsame ⊢
    split
    · exact failNewest_claimed hsame
    · split
      · exact failEverything_claimed hsame
      · rename_i hstatus
        obtain hzero := not_not.mp hstatus
        rw [if_pos hzero] at hdecoded
        obtain ⟨htracked, _, hchunks, hlength⟩ := hdecoded
        exact advanceAll_claimed hchunks hlength (hmarks hzero) htracked hsame

end Steps

end RadixForge
