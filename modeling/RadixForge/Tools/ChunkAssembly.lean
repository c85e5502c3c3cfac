import Mathlib.Algebra.GroupWithZero.Nat
import RadixForge.Tools.ChunkSpike

/-!
# Assembled prompts

What `run_variant` puts together is the tape of the prompt: the cells that are attached and the
tokens that are decoded line up, whatever is recomputed, and each decode goes on where the sequence
ends.
-/

namespace RadixForge

open Library

namespace LlamaMemory

variable {l : List Token} {n : ℕ} {a b : ℤ}

/-- Removing a range leaves a piece of tape that lies outside of it. -/
theorem zipIdx_filter_outside (h : (n + l.length : ℕ) ≤ a ∨ 0 ≤ b ∧ b ≤ n) :
    (l.zipIdx n).filter (fun c => !inRange a b c) = l.zipIdx n := by
  rw [List.filter_eq_self]
  intro c hc
  have hlow := List.le_snd_of_mem_zipIdx hc
  have hhigh := List.snd_lt_add_of_mem_zipIdx hc
  simp only [inRange, Bool.not_eq_true', decide_eq_false_iff_not]
  omega

/-- Removing a range takes away a piece of tape that lies inside of it. -/
theorem zipIdx_filter_inside (hlow : a ≤ n) (hhigh : (n + l.length : ℕ) ≤ b) :
    (l.zipIdx n).filter (fun c => !inRange a b c) = [] := by
  rw [List.filter_eq_nil_iff]
  intro c hc
  have hle := List.le_snd_of_mem_zipIdx hc
  have hlt := List.snd_lt_add_of_mem_zipIdx hc
  simp only [inRange, Bool.not_eq_true', decide_eq_false_iff_not, not_not]
  omega

/-- Shifting everything from the start of a piece of tape on moves it. -/
theorem zipIdx_shift (l : List Token) (n m : ℕ) :
    (l.zipIdx n).filterMap (shiftCell n (-1) (m - n)) = l.zipIdx m := by
  suffices h : ∀ k, (l.zipIdx (n + k)).filterMap (shiftCell n (-1) (m - n)) =
      l.zipIdx (m + k) from h 0
  induction l with
  | nil => simp
  | cons token l ih =>
    intro k
    have hshift : shiftCell n (-1) (m - n) (token, n + k) = some (token, m + k) := by
      have hin : inRange n (-1) (token, n + k) = true := by
        simp only [inRange, decide_eq_true_eq]
        omega
      rw [shiftCell, if_pos hin, if_neg (by push_cast; omega)]
      congr 2
      push_cast
      omega
    rw [List.zipIdx_cons, List.zipIdx_cons, List.filterMap_cons_some hshift]
    exact congrArg _ (ih (k + 1))

/-- A tape is cut anywhere. -/
theorem tape_append (s t : List Token) : tape (s ++ t) = tape s ++ t.zipIdx s.length := by
  simp [tape, List.zipIdx_append]

end LlamaMemory

namespace ChunkSpike

open LlamaMemory

variable {c : Context} {s : SeqId}

namespace Context

/-- A decode adds cells behind those of its sequence only. -/
@[simp] theorem decode_cells (c : Context) (tokens : List Token) (sequence : SeqId) (position : ℕ)
    (s : SeqId) :
    (c.decode tokens sequence position).cells s =
      if s = sequence then c.cells sequence ++ tokens.zipIdx position else c.cells s := by
  unfold decode
  split
  · rename_i hnil
    rw [hnil, List.zipIdx_nil, List.append_nil]
    split
    · rename_i hs
      rw [hs]
    · rfl
  · rfl

/-- A removal takes the cells in its range from its sequence only. -/
@[simp] theorem removeRange_cells (c : Context) (sequence : SeqId) (p0 p1 : ℤ) (s : SeqId) :
    (c.removeRange sequence p0 p1).cells s =
      if s = sequence then (c.cells sequence).filter (fun c => !inRange p0 p1 c)
        else c.cells s := rfl

/-- A sequence that is removed has no cells. -/
@[simp] theorem removeSequence_cells (c : Context) (sequence s : SeqId) :
    (c.removeSequence sequence).cells s = if s = sequence then [] else c.cells s := by
  rw [removeSequence, removeRange_cells]
  congr 1
  simp [inRange]

/-- A copy adds the cells of its source behind those of its target. -/
@[simp] theorem copySequence_cells (c : Context) (src dst s : SeqId) :
    (c.copySequence src dst).cells s = if s = dst then c.cells dst ++ c.cells src
      else c.cells s := by
  have hall : (c.cells src).filter (inRange (-1) (-1)) = c.cells src := by simp [inRange]
  rw [← hall]
  rfl

/-- A sequence that is restored has the cells of the blob. -/
@[simp] theorem restore_cells (c : Context) (blob : Blob) (sequence s : SeqId) :
    (c.restore blob sequence).cells s = if s = sequence then blob.data else c.cells s := by
  have hremove := c.removeSequence_cells sequence s
  change (if s = sequence then blob.data else (c.removeSequence sequence).cells s) = _
  split
  · rfl
  · rename_i hs
    rw [hremove, if_neg hs]

end Context

/-- The cells of a blob are those of its chunk, behind the given tokens. -/
def Blob.Holds (blob : Blob) (lead chunk : List Token) : Prop :=
  blob = ⟨tape (lead ++ chunk), chunk.length⟩

/-- Of a blob only the tail of its chunk is imported. -/
theorem importTail_cells {blob : Blob} {prefixed : Bool} {prefixTokens lead chunk : List Token}
    {recomputed : ℕ} (hblob : blob.Holds lead chunk)
    (hlead : lead = if prefixed then prefixTokens else []) (hrecomputed : recomputed ≤ chunk.length)
    (s : SeqId) :
    (c.importTail blob prefixed prefixTokens.length recomputed lead.length).cells s =
      if s = kTemporarySeq then (chunk.drop recomputed).zipIdx (lead.length + recomputed)
        else c.cells s := by
  have htake : (chunk.take recomputed).length = recomputed := List.length_take_of_le hrecomputed
  have hdata : blob.data = tape lead ++ ((chunk.take recomputed).zipIdx lead.length ++
      (chunk.drop recomputed).zipIdx (lead.length + recomputed)) := by
    have happend : (chunk.take recomputed ++ chunk.drop recomputed).zipIdx lead.length =
        _ := List.zipIdx_append
    rw [List.take_append_drop, htake] at happend
    rw [hblob, tape_append, happend]
  -- the recomputed head of the chunk is removed from the middle
  obtain ⟨c', hc'⟩ : ∃ c', c' = if 0 < recomputed then
      (c.restore blob kTemporarySeq).removeRange kTemporarySeq lead.length
        (lead.length + recomputed)
    else c.restore blob kTemporarySeq := ⟨_, rfl⟩
  have hcells : ∀ s, c'.cells s = if s = kTemporarySeq then
      tape lead ++ (chunk.drop recomputed).zipIdx (lead.length + recomputed) else c.cells s := by
    intro s
    rw [hc']
    by_cases hpos : 0 < recomputed
    · rw [if_pos hpos, Context.removeRange_cells, Context.restore_cells, Context.restore_cells,
        if_pos rfl, hdata, List.filter_append, List.filter_append, tape,
        zipIdx_filter_outside (.inl (by simp)),
        zipIdx_filter_inside le_rfl (by rw [htake]; push_cast; rfl),
        zipIdx_filter_outside (.inr ⟨by omega, by push_cast; rfl⟩), List.nil_append]
      split <;> rfl
    · obtain rfl : recomputed = 0 := by omega
      rw [if_neg hpos, Context.restore_cells, hdata, List.take_zero,
        List.zipIdx_nil, List.nil_append]
  -- and the prefix from the front, if there is one
  have himport : c.importTail blob prefixed prefixTokens.length recomputed lead.length =
      if prefixed then c'.removeRange kTemporarySeq 0 prefixTokens.length else c' := by
    rw [hc']
    rfl
  rw [himport]
  cases prefixed with
  | true =>
    obtain rfl : lead = prefixTokens := hlead
    rw [if_pos rfl, Context.removeRange_cells, hcells, hcells, if_pos rfl, List.filter_append, tape,
      zipIdx_filter_inside (n := 0) (by simp) (by simp),
      zipIdx_filter_outside (.inr ⟨by omega, by push_cast; omega⟩), List.nil_append]
    split <;> rfl
  | false =>
    obtain rfl : lead = [] := hlead
    rw [if_neg Bool.false_ne_true, hcells, tape_nil, List.nil_append]

/-- The tail of a blob is attached where it belongs. -/
theorem attachTail_cells {blob : Blob} {prefixed : Bool} {prefixTokens lead chunk : List Token}
    {recomputed : ℕ} (hblob : blob.Holds lead chunk)
    (hlead : lead = if prefixed then prefixTokens else []) (hrecomputed : recomputed < chunk.length)
    (finalPosition : ℕ) (s : SeqId) :
    (c.attachTail blob prefixed prefixTokens.length recomputed finalPosition).cells s =
      if s = kTemporarySeq then []
      else if s = kTargetSeq then c.cells kTargetSeq ++ (chunk.drop recomputed).zipIdx
        (finalPosition + recomputed)
      else c.cells s := by
  have hstart : (if prefixed then prefixTokens.length else 0) = lead.length := by
    rw [hlead]
    cases prefixed <;> rfl
  have hcount : blob.tokenCount = chunk.length := by rw [hblob]
  obtain ⟨c', hc'⟩ : ∃ c', c' =
    c.importTail blob prefixed prefixTokens.length recomputed lead.length := ⟨_, rfl⟩
  have hcells := importTail_cells (c := c) hblob hlead hrecomputed.le
  rw [← hc'] at hcells
  have hattach : c.attachTail blob prefixed prefixTokens.length recomputed finalPosition =
      ((c'.shiftRange kTemporarySeq (lead.length + recomputed : ℕ) (-1)
        ((finalPosition + recomputed : ℕ) - (lead.length + recomputed : ℕ))).copySequence
          kTemporarySeq
          kTargetSeq).removeSequence kTemporarySeq := by
    simp only [Context.attachTail, hstart, hcount, ← hc']
    rw [if_pos (by omega)]
    push_cast
    rfl
  have hshifted : ∀ s, (c'.shiftRange kTemporarySeq (lead.length + recomputed : ℕ) (-1)
      ((finalPosition + recomputed : ℕ) - (lead.length + recomputed : ℕ))).cells s =
        if s = kTemporarySeq then (chunk.drop recomputed).zipIdx (finalPosition + recomputed)
          else c.cells s := by
    intro s
    change (if s = kTemporarySeq then (c'.cells kTemporarySeq).filterMap _ else c'.cells s) = _
    rw [hcells, hcells, if_pos rfl, zipIdx_shift]
    split <;> rfl
  rw [hattach, Context.removeSequence_cells, Context.copySequence_cells, hshifted, hshifted,
    hshifted, if_pos rfl, if_neg (show kTargetSeq ≠ kTemporarySeq by decide)]
  split
  · rfl
  · rfl

/-- Attaching touches the temporary sequence and the target only. -/
theorem attachTail_cells_of_ne (c : Context) (blob : Blob) (prefixed : Bool)
    (prefixTokens recomputed finalPosition : ℕ) {s : SeqId} (htemporary : s ≠ kTemporarySeq)
    (htarget : s ≠ kTargetSeq) :
    (c.attachTail blob prefixed prefixTokens recomputed finalPosition).cells s = c.cells s := by
  have himport (blobStart : ℕ) :
      (c.importTail blob prefixed prefixTokens recomputed blobStart).cells s = c.cells s := by
    unfold Context.importTail
    cases prefixed <;> by_cases hpos : 0 < recomputed <;> simp [hpos, htemporary]
  unfold Context.attachTail
  dsimp only
  generalize (if prefixed then prefixTokens else 0) = blobStart
  rw [Context.removeSequence_cells, if_neg htemporary]
  split
  · rw [Context.copySequence_cells, if_neg htarget]
    exact (if_neg htemporary).trans (himport blobStart)
  · exact himport blobStart

section Decodes

/-- Removing a sequence decodes nothing. -/
@[simp] theorem Context.removeSequence_decodes (c : Context) (sequence : SeqId) :
    (c.removeSequence sequence).decodes = c.decodes := rfl

/-- Copying a sequence decodes nothing. -/
@[simp] theorem Context.copySequence_decodes (c : Context) (src dst : SeqId) :
    (c.copySequence src dst).decodes = c.decodes := rfl

/-- Attaching decodes nothing. -/
theorem Context.attachTail_decodes (c : Context) (blob : Blob) (prefixed : Bool)
    (prefixTokens recomputed finalPosition : ℕ) :
    (c.attachTail blob prefixed prefixTokens recomputed finalPosition).decodes = c.decodes := by
  have himport (blobStart : ℕ) :
      (c.importTail blob prefixed prefixTokens recomputed blobStart).decodes = c.decodes := by
    unfold Context.importTail
    cases prefixed <;> by_cases hpos : 0 <
      recomputed <;> simp only [hpos, if_true, if_false] <;> rfl
  unfold Context.attachTail
  dsimp only
  generalize (if prefixed then prefixTokens else 0) = blobStart
  rw [Context.removeSequence_decodes]
  split
  · exact himport blobStart
  · exact himport blobStart

/-- A decode goes on where its sequence ends. -/
def DecodeCall.Adjoins (d : DecodeCall) : Prop :=
  (∀ c ∈ d.held, c.2 < d.position) ∧ (d.position = 0 ∨ ∃ c ∈ d.held, c.2 + 1 = d.position)

/-- A decode behind a tape goes on where its sequence ends. -/
theorem adjoins_tape (sequence : SeqId) (tokens held : List Token) :
    (DecodeCall.mk sequence held.length tokens (tape held)).Adjoins := by
  constructor
  · intro c hc
    simpa [tape] using List.snd_lt_add_of_mem_zipIdx hc
  · rcases List.eq_nil_or_concat held with hheld | ⟨held, token, rfl⟩
    · exact .inl (by rw [hheld]; rfl)
    · refine .inr ⟨(token, held.length), ?_, by simp⟩
      rw [List.concat_eq_append, tape_snoc]
      exact List.mem_append_right _ (List.mem_singleton_self _)

end Decodes

/-- The prefix is decoded, and nothing is left in the scratch sequence. -/
structure Ready (prefixTokens : List Token) (c : Context) : Prop where
  kept : c.cells kPrefixSeq = tape prefixTokens
  scratch : c.cells kScratchSeq = []

section Precompute

variable {prefixTokens : List Token}

/-- The two blobs of a chunk hold it alone and behind the prefix. -/
theorem precomputeChunk_spec {state : Context × ItemCache} (h : Ready prefixTokens state.1)
    (chunk : List Token) :
    Ready prefixTokens (precomputeChunk prefixTokens state chunk).1 ∧
      (precomputeChunk prefixTokens state chunk).2.naive =
        state.2.naive ++ [⟨tape chunk, chunk.length⟩] ∧
      (precomputeChunk prefixTokens state chunk).2.prefixed =
        state.2.prefixed ++ [⟨tape (prefixTokens ++ chunk), chunk.length⟩] := by
  have hne : kPrefixSeq ≠ kScratchSeq := by decide
  refine ⟨⟨?_, ?_⟩, ?_, ?_⟩
  · simp [precomputeChunk, hne, h.kept]
  · simp [precomputeChunk]
  · simp [precomputeChunk, Context.snapshot, h.scratch, tape]
  · simp [precomputeChunk, Context.snapshot, hne, h.kept, tape_append]

/-- The blobs of an item hold its chunks. -/
theorem precomputeChunks_spec {c : Context} (h : Ready prefixTokens c)
    (chunks : List (List Token)) :
    Ready prefixTokens (precomputeChunks c prefixTokens chunks).1 ∧
      (precomputeChunks c prefixTokens chunks).2.naive =
        chunks.map (fun chunk => ⟨tape chunk, chunk.length⟩) ∧
      (precomputeChunks c prefixTokens chunks).2.prefixed =
        chunks.map fun chunk => ⟨tape (prefixTokens ++ chunk), chunk.length⟩ := by
  induction chunks using List.reverseRecOn with
  | nil => exact ⟨h, rfl, rfl⟩
  | append_singleton chunks chunk ih =>
    obtain ⟨hready, hnaive, hprefixed⟩ := ih
    obtain ⟨hready', hnaive', hprefixed'⟩ := precomputeChunk_spec hready chunk
    have hfold : precomputeChunks c prefixTokens (chunks ++ [chunk]) =
        precomputeChunk prefixTokens (precomputeChunks c prefixTokens chunks) chunk :=
          List.foldl_concat _ _ _ _
    rw [hfold, List.map_append, List.map_append]
    exact ⟨hready', by rw [hnaive', hnaive]; rfl, by rw [hprefixed', hprefixed]; rfl⟩

/-- The blobs that a variant uses hold the chunks of the item. -/
theorem blobs_hold {c : Context} (h : Ready prefixTokens c) (chunks : List (List Token))
    (prefixed : Bool) :
    ∀ entry ∈ chunks.zipIdx, ((if prefixed then (precomputeChunks c prefixTokens chunks).2.prefixed
      else (precomputeChunks c prefixTokens chunks).2.naive).getD entry.2 ⟨[], 0⟩).Holds
        (if prefixed then prefixTokens else []) entry.1 := by
  intro ⟨chunk, index⟩ hentry
  obtain ⟨_, hnaive, hprefixed⟩ := precomputeChunks_spec h chunks
  have hchunk : chunks[index]? = some chunk := List.mk_mem_zipIdx_iff_getElem?.mp hentry
  cases prefixed with
  | true => simp [hprefixed, List.getD_eq_getElem?_getD, List.getElem?_map, hchunk, Blob.Holds]
  | false => simp [hnaive, List.getD_eq_getElem?_getD, List.getElem?_map, hchunk, Blob.Holds]

end Precompute

/-- The assembly has got as far as the given tokens: the target sequence holds the tape of those
that are not queued, and what was decoded since the start was decoded into it, each time at its end.
-/
structure Assembles (c : Context) (base : ℕ) (done : List Token) (a : Assembly) : Prop where
  queued : ∃ held, done = held ++ a.pending ∧ a.context.cells kTargetSeq = tape held ∧
    (a.pending ≠ [] → a.pendingPosition = held.length)
  others : ∀ s, s ≠ kTargetSeq → s ≠ kTemporarySeq → a.context.cells s = c.cells s
  issued : ∃ issued, a.context.decodes = c.decodes ++ issued ∧
    (∀ d ∈ issued, d.sequence = kTargetSeq ∧ d.Adjoins) ∧
    a.decodeCalls = issued.length ∧
    a.computed = base + (issued.map fun d => d.tokens.length).sum + a.pending.length

namespace Assembles

variable {base : ℕ} {done : List Token} {a : Assembly}

/-- At the start the target is a copy of the prefix. -/
theorem start {prefixTokens : List Token} (h : Ready prefixTokens c) (suffix : List Token) :
    Assembles c suffix.length prefixTokens (Assembly.start c prefixTokens suffix) := by
  have hne : kPrefixSeq ≠ kTargetSeq := by decide
  refine ⟨⟨prefixTokens, (List.append_nil _).symm, ?_, fun hpending => absurd rfl hpending⟩,
    fun s hs _ => ?_, ⟨[], (List.append_nil _).symm,
      fun _ hd => absurd hd List.not_mem_nil, rfl, rfl⟩⟩
  · simp [Assembly.start, hne, h.kept]
  · simp [Assembly.start, hs]

/-- Tokens are queued behind the others. -/
theorem queue (h : Assembles c base done a) (hposition : a.position = done.length)
    (tokens : List Token) (computed : ℕ) (hcomputed : computed = a.computed + tokens.length) :
    Assembles c base (done ++ tokens) { a.queue tokens a.position with computed := computed } := by
  obtain ⟨⟨held, hdone, hcells, hpending⟩, hothers, issued, hdecodes, hall, hcalls, hsum⟩ := h
  refine ⟨⟨held, ?_, hcells, ?_⟩, hothers, issued, hdecodes, hall, hcalls, ?_⟩
  · rw [hdone, List.append_assoc]
    rfl
  · intro _
    change (if a.pending = [] then a.position else a.pendingPosition) = held.length
    split
    · rename_i hnil
      rw [hposition, hdone, hnil, List.append_nil]
    · rename_i hne
      exact hpending hne
  · change computed = base + _ + (a.pending ++ tokens).length
    rw [hcomputed, hsum, List.length_append]
    omega

/-- The head of a chunk is queued behind the others. -/
theorem queueHead (h : Assembles c base done a) (hposition : a.position = done.length)
    {chunk : List Token} {recomputed : ℕ} (hrecomputed : recomputed ≤ chunk.length) :
    Assembles c base (done ++ chunk.take recomputed) (a.queueHead chunk recomputed) := by
  unfold Assembly.queueHead
  split
  · exact h.queue hposition _ _ (by rw [List.length_take_of_le hrecomputed])
  · rename_i hzero
    obtain rfl : recomputed = 0 := by omega
    rwa [List.take_zero, List.append_nil]

/-- The queued tokens are decoded where the target ends. -/
theorem decode (h : Assembles c base done a) (hpending : a.pending ≠ []) : Assembles c base done
    { a with
      context := a.context.decode a.pending kTargetSeq a.pendingPosition
      decodeCalls := a.decodeCalls + 1
      pending := [] } := by
  obtain ⟨⟨held, hdone, hcells, hposition⟩, hothers, issued, hdecodes, hall, hcalls, hsum⟩ := h
  have hcall : (a.context.decode a.pending kTargetSeq a.pendingPosition).decodes =
      a.context.decodes ++ [⟨kTargetSeq, held.length, a.pending, tape held⟩] := by
    rw [Context.decode, if_neg hpending, hposition hpending, hcells]
  refine ⟨⟨done, (List.append_nil _).symm, ?_, fun hne => absurd rfl hne⟩, fun s hs hs' => ?_,
    issued ++ [⟨kTargetSeq, held.length, a.pending, tape held⟩], ?_, ?_, ?_, ?_⟩
  · simp [hcells, hposition hpending, hdone, tape_append]
  · simp [hs, hothers s hs hs']
  · rw [hcall, hdecodes, List.append_assoc]
  · exact List.forall_mem_append.mpr ⟨hall, List.forall_mem_singleton.mpr ⟨rfl, adjoins_tape _ _ _⟩⟩
  · rw [List.length_append, hcalls, List.length_singleton]
  · simp only [List.map_append, List.sum_append, List.map_cons, List.map_nil, List.sum_cons,
      List.sum_nil, List.length_nil]
    omega

/-- A flush leaves nothing queued. -/
theorem flush (h : Assembles c base done a) :
    Assembles c base done a.flush ∧ a.flush.pending = [] := by
  unfold Assembly.flush
  split
  · rename_i hnil
    exact ⟨h, hnil⟩
  · rename_i hne
    exact ⟨h.decode hne, rfl⟩

/-- The tail of a chunk is attached behind its head. -/
theorem attach {prefixed : Bool} {prefixTokens lead chunk : List Token}
    {recomputed : ℕ} {blob : Blob}
    (h : Assembles c base (done ++ chunk.take recomputed) a) (hposition : a.position = done.length)
    (hblob : blob.Holds lead chunk) (hlead : lead = if prefixed then prefixTokens else [])
    (hrecomputed : recomputed ≤ chunk.length) :
    Assembles c base (done ++ chunk)
      (a.attach chunk blob prefixed prefixTokens.length recomputed) := by
  unfold Assembly.attach
  split
  · rename_i hlt
    obtain ⟨⟨⟨held, hdone, hcells, _⟩, hothers, issued, hdecodes, hall, hcalls, hsum⟩, hnil⟩ :=
      h.flush
    rw [hnil, List.append_nil] at hdone
    have hattached := attachTail_cells (c := a.flush.context) hblob hlead hlt a.position
    refine ⟨⟨done ++ chunk, ?_, ?_, fun hne => absurd hnil hne⟩, fun s hs hs' => ?_, issued,
      ?_, hall, hcalls, hsum⟩
    · change done ++ chunk = done ++ chunk ++ a.flush.pending
      rw [hnil, List.append_nil]
    · change (a.flush.context.attachTail blob prefixed prefixTokens.length recomputed
        a.position).cells kTargetSeq = _
      rw [hattached, if_neg (by decide), if_pos rfl, hcells, ← hdone, hposition]
      have hwhole : done ++ chunk = done ++ chunk.take recomputed ++ chunk.drop recomputed := by
        rw [List.append_assoc, List.take_append_drop]
      have hlength : (done ++ chunk.take recomputed).length = done.length + recomputed := by
        rw [List.length_append, List.length_take_of_le hrecomputed]
      rw [hwhole, tape_append (done ++ chunk.take recomputed), hlength]
    · change (a.flush.context.attachTail blob prefixed prefixTokens.length recomputed
        a.position).cells s = _
      rw [hattached, if_neg hs', if_neg hs, hothers s hs hs']
    · change (a.flush.context.attachTail blob prefixed prefixTokens.length recomputed
        a.position).decodes = _
      rw [Context.attachTail_decodes, hdecodes]
  · rename_i hge
    rwa [List.take_of_length_le (by omega)] at h

/-- One chunk is added. -/
theorem addChunk {spec : VariantSpec} (selected : List Bool) {blobs : List Blob}
    {prefixTokens : List Token}
    {entry : List Token × ℕ} (h : Assembles c base done a) (hposition : a.position = done.length)
    (hblob : (blobs.getD entry.2 ⟨[], 0⟩).Holds
      (if spec.prefixed then prefixTokens else []) entry.1) :
    Assembles c base (done ++ entry.1)
      (Assembly.addChunk spec selected blobs prefixTokens.length a entry) ∧
      (Assembly.addChunk spec selected blobs prefixTokens.length a entry).position =
        (done ++ entry.1).length := by
  obtain ⟨chunk, index⟩ := entry
  have hrecomputed : Assembly.recomputed spec selected chunk index ≤ chunk.length := by
    unfold Assembly.recomputed
    split
    · exact le_rfl
    · split
      · exact min_le_right _ _
      · exact Nat.zero_le _
  have hhead : ∀ n, (a.queueHead chunk n).position = a.position := by
    intro n
    unfold Assembly.queueHead
    split <;> rfl
  have hattach : ∀ (a : Assembly) blob n,
      (a.attach chunk blob spec.prefixed prefixTokens.length n).position = a.position := by
    intro a blob n
    unfold Assembly.attach Assembly.flush
    split
    · split <;> rfl
    · rfl
  have hqueued := h.queueHead hposition hrecomputed
  have hattached := hqueued.attach ((hhead _).trans hposition) hblob rfl hrecomputed
  refine ⟨⟨hattached.queued, hattached.others, hattached.issued⟩, ?_⟩
  change (((a.queueHead chunk _).attach chunk _ spec.prefixed prefixTokens.length _).position +
    chunk.length) = _
  rw [hattach, hhead, hposition, List.length_append]

/-- All chunks are added. -/
theorem addChunks {spec : VariantSpec} (selected : List Bool) {blobs : List Blob}
    {prefixTokens : List Token}
    {entries : List (List Token × ℕ)} (h : Assembles c base done a)
    (hposition : a.position = done.length)
    (hblobs : ∀ entry ∈ entries,
      (blobs.getD entry.2 ⟨[], 0⟩).Holds (if spec.prefixed then prefixTokens else []) entry.1) :
    Assembles c base (done ++ (entries.map Prod.fst).flatten)
        (entries.foldl (Assembly.addChunk spec selected blobs prefixTokens.length) a) ∧
      (entries.foldl (Assembly.addChunk spec selected blobs prefixTokens.length) a).position =
        (done ++ (entries.map Prod.fst).flatten).length := by
  induction entries generalizing done a with
  | nil => simpa using ⟨h, hposition⟩
  | cons entry entries ih =>
    obtain ⟨hblob, hrest⟩ := List.forall_mem_cons.mp hblobs
    obtain ⟨hadded, hposition'⟩ := h.addChunk selected hposition hblob
    have hfolded := ih hadded hposition' hrest
    rw [List.append_assoc] at hfolded
    exact hfolded

end Assembles

/-- The target holds the tape of the tokens; every decode since the given context went into the
target, right behind its last cell; and the tokens decoded are counted. -/
structure Gapless (c : Context) (tokens suffix : List Token) (a : Assembly) : Prop where
  cells : a.context.cells kTargetSeq = tape tokens
  issued : ∃ issued, a.context.decodes = c.decodes ++ issued ∧
    (∀ d ∈ issued, d.sequence = kTargetSeq ∧ d.Adjoins) ∧
    a.computed = (issued.map fun d => d.tokens.length).sum ∧
    (suffix ≠ [] → a.decodeCalls = issued.length)

section Runs

variable {prefixTokens : List Token}

/-- The suffix closes the assembly. -/
theorem Assembles.finish {done suffix : List Token} {a : Assembly}
    (h : Assembles c suffix.length done a) (hposition : a.position = done.length) :
    Gapless c (done ++ suffix) suffix (a.finish suffix) ∧
      ∀ s, s ≠ kTargetSeq → s ≠ kTemporarySeq → (a.finish suffix).context.cells s = c.cells s := by
  have hqueued := h.queue hposition suffix _ rfl
  by_cases hpending : a.pending ++ suffix = []
  · obtain ⟨hnil, hsuffix⟩ := List.append_eq_nil_iff.mp hpending
    obtain ⟨⟨held, hdone, hcells, _⟩, hothers, issued, hdecodes, hall, _, hsum⟩ := h
    have hcontext : (a.finish suffix).context = a.context := by
      simp [Assembly.finish, Assembly.queue, hpending, Context.decode]
    refine ⟨⟨?_, issued, by rw [hcontext, hdecodes], hall, ?_, fun hne => absurd hsuffix hne⟩, ?_⟩
    · rw [hcontext, hcells, hdone, hnil, hsuffix, List.append_nil, List.append_nil]
    · change a.computed = _
      rw [hsum, hnil, hsuffix, List.length_nil]
      omega
    · rw [hcontext]
      exact hothers
  · obtain ⟨⟨held, hdone, hcells, _⟩, hothers, issued, hdecodes, hall, hcalls, hsum⟩ :=
      hqueued.decode hpending
    rw [List.append_nil] at hdone
    refine ⟨⟨hcells.trans (by rw [hdone]), issued, hdecodes, hall, ?_, fun _ => hcalls⟩, hothers⟩
    have hsum' : a.computed + suffix.length =
        suffix.length + (issued.map fun d => d.tokens.length).sum + 0 := hsum
    change a.computed = _
    omega

/-- A variant is assembled without a gap, and leaves the other sequences as they are. -/
theorem assemble_spec {c' : Context} (h : Ready prefixTokens c) (h' : Ready prefixTokens c')
    (chunks : List (List Token)) (suffix : List Token) (spec : VariantSpec) (selected : List Bool) :
    Gapless c (prefixTokens ++ chunks.flatten ++ suffix) suffix
        (assemble c prefixTokens chunks suffix
          (precomputeChunks c' prefixTokens chunks).2 spec selected) ∧
      ∀ s, s ≠ kTargetSeq → s ≠ kTemporarySeq →
        (assemble c prefixTokens chunks suffix (precomputeChunks c' prefixTokens chunks).2 spec
          selected).context.cells s =
          c.cells s := by
  obtain ⟨hadded, hposition⟩ :=
    (Assembles.start h suffix).addChunks selected rfl (blobs_hold h' chunks spec.prefixed)
  rw [List.zipIdx_map_fst] at hadded hposition
  exact hadded.finish hposition

/-- The contexts that `main` goes through: the prefix is loaded, and then the chunks of items are
precomputed, blobs are checked, and variants are run with the blobs of their items. -/
inductive Reached (prefixTokens : List Token) : Context → Prop
  | loaded : Reached prefixTokens (Context.init.decode prefixTokens kPrefixSeq 0)
  | precomputed {c : Context} (h : Reached prefixTokens c) (chunks : List (List Token)) :
      Reached prefixTokens (precomputeChunks c prefixTokens chunks).1
  | checked {c : Context} (h : Reached prefixTokens c) (chunk : List Token)
      (blob : Blob) (probe : Token) :
      Reached prefixTokens (checkIndependence c prefixTokens chunk blob probe)
  | ran {c c' : Context} (h : Reached prefixTokens c) (h' : Reached prefixTokens c')
      (chunks : List (List Token))
      (suffix : List Token) (spec : VariantSpec) (selected : List Bool) (answer : List Token) :
      Reached prefixTokens
        (runSpec c prefixTokens chunks suffix (precomputeChunks c' prefixTokens chunks).2
          spec selected answer).1

/-- The greedy decoding touches its sequence only. -/
theorem greedyAnswer_cells {sequence s : SeqId} (hs : s ≠ sequence) (answer : List Token)
    (c : Context) (position : ℕ) :
    (greedyAnswer c sequence position answer).cells s = c.cells s := by
  induction answer generalizing c position with
  | nil => rfl
  | cons token answer ih => rw [greedyAnswer, ih, Context.decode_cells, if_neg hs]

/-- The check of the blobs touches the target and the temporary sequence only. -/
theorem checkIndependence_cells (c : Context) (prefixTokens chunk : List Token) (blob : Blob)
    (probe : Token) {s : SeqId} (htarget : s ≠ kTargetSeq) (htemporary : s ≠ kTemporarySeq) :
    (checkIndependence c prefixTokens chunk blob probe).cells s = c.cells s := by
  have hprobe (c : Context) (position : ℕ) :
      (probeBlob c blob position probe).cells s = c.cells s := by
    simp [probeBlob, htemporary]
  unfold checkIndependence
  dsimp only
  rw [hprobe, Context.removeSequence_cells, if_neg htarget,
    attachTail_cells_of_ne _ _ _ _ _ _ htemporary htarget, Context.copySequence_cells,
    if_neg htarget, hprobe]

/-- In every context that is reached the prefix is there and the scratch sequence is empty. -/
theorem Reached.ready (h : Reached prefixTokens c) : Ready prefixTokens c := by
  have hprefix : kPrefixSeq ≠ kTargetSeq ∧ kPrefixSeq ≠ kTemporarySeq := by decide
  have hscratch : kScratchSeq ≠ kTargetSeq ∧ kScratchSeq ≠ kTemporarySeq := by decide
  induction h with
  | loaded => exact ⟨by rw [Context.decode_cells, if_pos rfl]; rfl,
    by rw [Context.decode_cells, if_neg (by decide)]; rfl⟩
  | precomputed _ chunks ih => exact (precomputeChunks_spec ih chunks).1
  | checked _ chunk blob probe ih =>
    exact ⟨(checkIndependence_cells _ _ _ _ _ hprefix.1 hprefix.2).trans ih.kept,
      (checkIndependence_cells _ _ _ _ _ hscratch.1 hscratch.2).trans ih.scratch⟩
  | ran _ _ chunks suffix spec selected answer ih ih' =>
    obtain ⟨_, hothers⟩ := assemble_spec ih ih' chunks suffix spec selected
    constructor
    · rw [runSpec, Context.removeSequence_cells, if_neg hprefix.1, greedyAnswer_cells hprefix.1,
        hothers _ hprefix.1 hprefix.2, ih.kept]
    · rw [runSpec, Context.removeSequence_cells, if_neg hscratch.1, greedyAnswer_cells hscratch.1,
        hothers _ hscratch.1 hscratch.2, ih.scratch]

/-- Before the greedy decoding every variant has put together the whole prompt: one cell for each
position, with the token of that position, each decode right behind the last cell, and as many
tokens decoded as it reports. A run with the name of a variant is one of these, with a mark for each
chunk of its item. -/
theorem chunks_assembled {c' : Context} (h : Reached prefixTokens c) (h' : Reached prefixTokens c')
    (chunks : List (List Token)) (suffix : List Token) (spec : VariantSpec) (selected : List Bool)
    (answer : List Token) :
    Gapless c (prefixTokens ++ chunks.flatten ++ suffix) suffix
        (assemble c prefixTokens chunks suffix (precomputeChunks c' prefixTokens chunks).2 spec
          selected) ∧
      (runSpec c prefixTokens chunks suffix
        (precomputeChunks c' prefixTokens chunks).2 spec selected
          answer).2.tokensComputed =
        (assemble c prefixTokens chunks suffix (precomputeChunks c' prefixTokens chunks).2 spec
          selected).computed ∧
      ∀ {B : Type} [LinearOrder B] (item : Item B) (variant : Bytes),
        ∀ run ∈ runVariant c item prefixTokens chunks suffix
            (precomputeChunks c' prefixTokens chunks).2 variant answer,
          ∃ spec ∈ parseVariant variant,
            (selectedChunks item spec).length = item.chunks.length ∧
              Gapless c (prefixTokens ++ chunks.flatten ++ suffix) suffix
                (assemble c prefixTokens chunks suffix (precomputeChunks c' prefixTokens chunks).2
                  spec (selectedChunks item spec)) ∧
              run.2.tokensComputed =
                (assemble c prefixTokens chunks suffix (precomputeChunks c' prefixTokens chunks).2
                  spec (selectedChunks item spec)).computed := by
  refine ⟨(assemble_spec h.ready h'.ready chunks suffix spec selected).1, rfl, ?_⟩
  intro B _ item variant run hrun
  obtain ⟨named, hnamed, rfl⟩ := Option.map_eq_some_iff.mp hrun
  exact ⟨named, hnamed, selectedChunks_length item named,
    (assemble_spec h.ready h'.ready chunks suffix named (selectedChunks item named)).1, rfl⟩

/-- Blobs behind the prefix, of which the first token is recomputed but in the first chunk, and the
last chunk whole, in a run with the name of that variant. -/
theorem chunks_assembled_named :
    let loaded := Context.init.decode [1, 2] kPrefixSeq 0
    let cache := (precomputeChunks loaded [1, 2] [[3], [4, 5], [6, 7]]).2
    let item : Item ℕ :=
      ⟨[ascii "a", ascii "b", ascii "c"], [false, false, true], [0, 0, 0], rfl, rfl⟩
    let marked : VariantSpec := { prefixed := true, head := 1, gold := true }
    ∃ run ∈ runVariant loaded item [1, 2] [[3], [4, 5], [6, 7]] [8] cache
        (ascii "prefixed+r1+gold") [9],
      Gapless loaded [1, 2, 3, 4, 5, 6, 7, 8] [8]
          (assemble loaded [1, 2] [[3], [4, 5], [6, 7]] [8] cache marked [false, false, true]) ∧
        run.2.tokensComputed = 4 := by
  intro loaded cache item marked
  have hparse : parseVariant (ascii "prefixed+r1+gold") = some marked := by decide +kernel
  have hselected : selectedChunks item marked = [false, false, true] := rfl
  have hloaded : Reached [1, 2] loaded := .loaded
  obtain ⟨hgapless, -, hnamed⟩ := chunks_assembled hloaded hloaded [[3], [4, 5], [6, 7]] [8] marked
    [false, false, true] [9]
  have hrun : runVariant loaded item [1, 2] [[3], [4, 5], [6, 7]] [8] cache
      (ascii "prefixed+r1+gold") [9] = some _ := congrArg (Option.map _) hparse
  obtain ⟨spec, hspec, -, -, hcomputed⟩ := hnamed item (ascii "prefixed+r1+gold") _ hrun
  rw [Option.mem_def, hparse, Option.some.injEq] at hspec
  subst hspec
  refine ⟨_, hrun, hgapless, hcomputed.trans ?_⟩
  rw [hselected]
  decide +kernel

end Runs

end ChunkSpike

end RadixForge
