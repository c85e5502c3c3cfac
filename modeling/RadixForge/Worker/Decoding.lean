import RadixForge.Worker.Tickets

/-!
# What a decoded batch leaves in the memory

After a successful decode the history of every client is longer by its rows, and the logits of a
row are those of the history up to that row: for an active sequence everything decoded, for the
last row of a prompt the whole prompt.
-/

namespace RadixForge

open Library

variable {L : Type} {b : Bridge L} {config : Config} {order : ChildOrder} {w : World}
  {tickets : List Ticket}

/-- A ticket with another history. -/
def Ticket.withHistory (t : Ticket) (history : List Token) : Ticket :=
  { t with client := { t.client with history := history } }

/-- A sequence whose next token is decoded. -/
def ActiveSeq.decoded (seq : ActiveSeq L) : ActiveSeq L :=
  { seq with cachedTokens := seq.cachedTokens ++ [seq.nextToken] }

/-- The ticket of a prefill whose chunk is decoded and not yet accounted for. -/
def chunkTicket (p : PrefillCtx × Option PromptSubmission) : Ticket :=
  p.1.ticket.withHistory
    (p.1.tokens.take (p.1.prep.cachedPos + p.1.deltaStart +
      (p.2.map PromptSubmission.tokens).getD 0))

/-- A submission takes a part of what remains of a prompt; if it takes all of it, it knows a row
whose logits are those of the whole prompt. -/
structure ChunkFits (U : PrefillCtx → Prop) (b : Bridge L) (outputs : List (Option L))
    (p : PrefillCtx × Option PromptSubmission) : Prop where
  left : U p.1
  part : ∀ s ∈ p.2, 0 < s.tokens ∧ p.1.deltaStart + s.tokens ≤ p.1.prep.delta.length
  whole : ∀ s ∈ p.2, p.1.deltaStart + s.tokens = p.1.prep.delta.length →
    ∃ row, s.logitIndex = some row ∧
    (outputs[row]?).join = some (b.logits (LlamaMemory.tape p.1.tokens))

/-- Rows are decoded one after the other. -/
theorem decodeRows_append (as bs : List Row) (w : World) :
    decodeRows b (as ++ bs) w = ((decodeRows b as w).1 ++ (decodeRows b bs (decodeRows b as w).2).1,
      (decodeRows b bs (decodeRows b as w).2).2) := by
  induction as generalizing w with
  | nil => rfl
  | cons row rest ih => simp only [List.cons_append, decodeRows, ih]

/-- One decoded row. -/
theorem decodeRow_tracked {t : Ticket} (h : w.Tracked config order (t :: tickets)) {token : Token}
    {pos : ℕ} (hnext : t.client.Next token pos) :
    (w.call (.decode t.client.seqId token pos)).Tracked config order
        (t.withHistory (t.client.history ++ [token]) :: tickets) ∧
      (w.call (.decode t.client.seqId token pos)).mapper.memory.cells t.client.seqId =
        LlamaMemory.tape (t.client.history ++ [token]) :=
  ⟨h.decode hnext, (h.decode hnext).cells⟩

/-- The rows of the active sequences. -/
theorem decodeRows_active {seqs : List (ActiveSeq L)} (hfits : ∀ seq ∈ seqs, seq.Running)
    (h : w.Tracked config order (seqs.map ActiveSeq.ticket ++ tickets)) :
    (decodeRows b (seqs.map ActiveSeq.row) w).2.Tracked config order
        (seqs.map (fun seq => seq.decoded.ticket) ++ tickets) ∧
      (decodeRows b (seqs.map ActiveSeq.row) w).1 =
        seqs.map fun seq =>
          some (b.logits (LlamaMemory.tape (seq.cachedTokens ++ [seq.nextToken]))) := by
  induction seqs generalizing w tickets with
  | nil => exact ⟨h, rfl⟩
  | cons seq rest ih =>
    obtain ⟨⟨hpos, hprompt⟩, hdone⟩ := hfits seq List.mem_cons_self
    have hnext : seq.ticket.client.Next seq.nextToken seq.pos := by
      refine ⟨hpos hdone, Or.inl ?_⟩
      rw [hpos hdone]
      simp only [ActiveSeq.ticket, List.length_take]
      exact min_le_right _ _
    obtain ⟨htracked, hcells⟩ := decodeRow_tracked h hnext
    have hticket : seq.ticket.withHistory (seq.ticket.client.history ++ [seq.nextToken]) =
        seq.decoded.ticket := by
      simp only [Ticket.withHistory, ActiveSeq.ticket, ActiveSeq.decoded,
        List.take_append_of_le_length hprompt]
    rw [hticket] at htracked
    obtain ⟨hdecoded, houtputs⟩ := ih (fun s hs => hfits s (List.mem_cons_of_mem _ hs))
      (htracked.perm (List.perm_append_comm_assoc [_] _ _))
    refine ⟨hdecoded.perm (List.perm_append_comm_assoc _ [_] _), ?_⟩
    have hcells' : (w.call (.decode seq.seqId seq.nextToken seq.pos)).mapper.memory.cells
        seq.seqId =
      LlamaMemory.tape (seq.cachedTokens ++ [seq.nextToken]) := hcells
    simp only [List.map_cons, decodeRows, ActiveSeq.row, if_true, hcells']
    exact congrArg _ houtputs

/-- The rows of a chunk of a prompt, from position `c + i` on. -/
theorem decodeRows_chunk (flag : ℕ → Bool) {t : Ticket} (c n : ℕ) {i : ℕ}
    (hn : c + i + n ≤ t.client.prompt.length)
    (h : w.Tracked config order (t.withHistory (t.client.prompt.take (c + i)) :: tickets)) :
    let rows := (((t.client.prompt.drop (c + i)).take n).zipIdx i).map fun p =>
      ({ token := p.1, pos := c + p.2, seqId := t.client.seqId, logits := flag p.2 } : Row)
    (decodeRows b rows w).2.Tracked config order
      (t.withHistory (t.client.prompt.take (c + i + n)) :: tickets) ∧
      (decodeRows b rows w).1 = (List.range' i n).map fun j =>
        if flag j then some (b.logits (LlamaMemory.tape (t.client.prompt.take (c + j + 1))))
          else none := by
  induction n generalizing w i with
  | zero => exact ⟨by simpa [decodeRows] using h, by simp [decodeRows]⟩
  | succ n ih =>
    have hlt : c + i < t.client.prompt.length := by omega
    have hnext : (t.withHistory (t.client.prompt.take (c + i))).client.Next
        t.client.prompt[c + i] (c + i) := by
      refine ⟨?_, Or.inr ?_⟩
      · simp only [Ticket.withHistory, List.length_take]
        omega
      · exact List.getElem?_eq_getElem hlt
    obtain ⟨htracked, hcells⟩ := decodeRow_tracked h hnext
    have htake : t.client.prompt.take (c + i) ++ [t.client.prompt[c + i]] =
        t.client.prompt.take (c + (i + 1)) := by
      rw [← Nat.add_assoc, List.take_succ_eq_append_getElem hlt]
    have hhistory : (t.withHistory (t.client.prompt.take (c + i))).client.history ++
        [t.client.prompt[c + i]] =
      t.client.prompt.take (c + (i + 1)) := htake
    rw [hhistory] at htracked hcells
    obtain ⟨hdecoded, houtputs⟩ := ih (i := i + 1) (by omega) htracked
    rw [List.drop_eq_getElem_cons hlt, List.take_succ_cons, List.zipIdx_cons,
      List.map_cons, List.range'_succ, List.map_cons]
    simp only [decodeRows]
    refine ⟨?_, ?_⟩
    · rw [show c + i + (n + 1) = c + (i + 1) + n by omega]
      exact hdecoded
    · refine congrArg₂ List.cons ?_ houtputs
      exact congrArg (fun cells => if flag i then some (b.logits cells) else none) hcells

/-- The rows of one prefill. -/
theorem decodeRows_prefill {ctx : PrefillCtx} (hfits : ctx.Fits) {take : ℕ}
    (htake : ctx.deltaStart + take ≤ ctx.prep.delta.length)
    (h : w.Tracked config order (ctx.ticket :: tickets)) :
    (decodeRows b (ctx.rows take) w).2.Tracked config order
        (ctx.ticket.withHistory (ctx.tokens.take (ctx.prep.cachedPos + ctx.deltaStart + take)) ::
          tickets) ∧
      (decodeRows b (ctx.rows take) w).1.length = take ∧
      (0 < take → ctx.deltaStart + take = ctx.prep.delta.length →
        (decodeRows b (ctx.rows take) w).1[take - 1]? =
          some (some (b.logits (LlamaMemory.tape ctx.tokens)))) := by
  have htotal := hfits.total
  have hdelta : ctx.prep.delta.drop ctx.deltaStart =
      ctx.tokens.drop (ctx.prep.cachedPos + ctx.deltaStart) := by
    rw [hfits.delta, List.drop_drop]
  have hbefore : w.Tracked config order
      (ctx.ticket.withHistory (ctx.ticket.client.prompt.take
        (ctx.prep.cachedPos + ctx.deltaStart)) :: tickets) := h
  have hchunk := decodeRows_chunk (b := b)
    (fun j => decide (take = ctx.prep.delta.length - ctx.deltaStart) &&
    decide (j = ctx.deltaStart + take - 1)) ctx.prep.cachedPos take
    (show ctx.prep.cachedPos + ctx.deltaStart + take ≤ ctx.tokens.length by omega) hbefore
  have hrows : ctx.rows take =
      (((ctx.ticket.client.prompt.drop (ctx.prep.cachedPos + ctx.deltaStart)).take take).zipIdx
      ctx.deltaStart).map fun p => Row.mk p.1 (ctx.prep.cachedPos + p.2) ctx.ticket.client.seqId
        (decide (take = ctx.prep.delta.length - ctx.deltaStart) &&
          decide (p.2 = ctx.deltaStart + take - 1)) := by
    simp only [PrefillCtx.ticket, ← hdelta]
    rfl
  rw [hrows]
  obtain ⟨htracked, houtputs⟩ := hchunk
  refine ⟨htracked, by rw [houtputs]; simp, fun hpos hwhole => ?_⟩
  have hlast : ctx.prep.cachedPos + (ctx.deltaStart + (take - 1)) + 1 = ctx.tokens.length := by
    omega
  have hindex : ctx.deltaStart + (take - 1) = ctx.deltaStart + take - 1 := by omega
  have htaken : take = ctx.prep.delta.length - ctx.deltaStart := by omega
  rw [houtputs, List.getElem?_map, List.getElem?_range' (by omega)]
  simp only [Option.map_some, Nat.one_mul, hindex, ← htaken, decide_true, Bool.and_self, if_true]
  rw [← hindex, hlast]
  exact congrArg (fun tokens => some (some (b.logits (LlamaMemory.tape tokens))))
    (List.take_length (l := ctx.tokens))

/-- The rows of all prompt chunks. -/
theorem decodeRows_prompts {U : PrefillCtx → Prop} (hU : PrefillCtx.Lasting U)
    (capacity promptTokens batchIdx : ℕ) {ctxs : List PrefillCtx} (hleft : ∀ ctx ∈ ctxs, U ctx)
    (h : w.Tracked config order (ctxs.map PrefillCtx.ticket ++ tickets)) :
    let plan := submitPrompts capacity promptTokens batchIdx ctxs
    plan.2.length = ctxs.length ∧
      (decodeRows b plan.1 w).2.Tracked config order
        ((ctxs.zip plan.2).map chunkTicket ++ tickets) ∧
      ∀ before : List (Option L), before.length = batchIdx →
        ∀ p ∈ ctxs.zip plan.2, ChunkFits U b (before ++ (decodeRows b plan.1 w).1) p := by
  induction ctxs generalizing promptTokens batchIdx w tickets with
  | nil => exact ⟨rfl, h, fun _ _ p hp => absurd hp List.not_mem_nil⟩
  | cons ctx rest ih =>
    have hctx := hleft ctx List.mem_cons_self
    have hfits := hU.fits ctx hctx
    have hrest := fun c hc => hleft c (List.mem_cons_of_mem _ hc)
    unfold submitPrompts
    simp only
    split
    · obtain ⟨hlength, htracked, hchunks⟩ :=
        ih promptTokens batchIdx hrest (h.perm (List.perm_append_comm_assoc [_] _ _))
      have hticket : chunkTicket (ctx, none) = ctx.ticket := by
        simp only [chunkTicket, Ticket.withHistory, PrefillCtx.ticket, Option.map_none,
          Option.getD_none, Nat.add_zero]
      refine ⟨congrArg (· + 1) hlength, ?_, fun before hbefore p hp => ?_⟩
      · rw [List.zip_cons_cons, List.map_cons, hticket]
        exact htracked.perm (List.perm_append_comm_assoc _ [_] _)
      · rcases List.mem_cons.mp hp with rfl | hp
        · exact ⟨hctx, fun s hs => absurd hs (Option.not_mem_none s),
            fun s hs => absurd hs (Option.not_mem_none s)⟩
        · exact hchunks before hbefore p hp
    · rename_i hroom
      rw [not_or, not_le] at hroom
      obtain ⟨hcapacity, hremaining⟩ := hroom
      generalize htake : min (ctx.prep.delta.length - ctx.deltaStart) (capacity - promptTokens) =
        take
      have hpos : 0 < take := by omega
      have hle : ctx.deltaStart + take ≤ ctx.prep.delta.length := by
        have hstart := hfits.start
        omega
      obtain ⟨htracked, hlength, hlast⟩ := decodeRows_prefill (b := b) hfits hle h
      obtain ⟨hlength', htracked', hchunks⟩ := ih (promptTokens + take) (batchIdx + take) hrest
        (htracked.perm (List.perm_append_comm_assoc [_] _ _))
      rw [decodeRows_append]
      generalize hrows : decodeRows b (ctx.rows take) w = first at *
      obtain ⟨outputs, w₁⟩ := first
      have houtputs : outputs.length = take := hlength
      refine ⟨congrArg (· + 1) hlength', ?_, fun before hbefore p hp => ?_⟩
      · rw [List.zip_cons_cons, List.map_cons]
        exact htracked'.perm (List.perm_append_comm_assoc _ [_] _)
      · rw [← List.append_assoc]
        rcases List.mem_cons.mp hp with rfl | hp
        · refine ⟨hctx, ?_, ?_⟩
          · intro s hs
            cases hs
            exact ⟨hpos, hle⟩
          · intro s hs hwhole
            cases hs
            simp only at hwhole
            refine ⟨batchIdx + take - 1, if_pos (by omega), ?_⟩
            have hindex : batchIdx + take - 1 - before.length = take - 1 := by omega
            rw [List.getElem?_append_left (by simp only [List.length_append]; omega),
              List.getElem?_append_right (by omega), hindex, hlast hpos hwhole]
            rfl
        · exact hchunks (before ++ outputs) (by simp only [List.length_append]; omega) p hp

end RadixForge
