import RadixForge.Worker.Prepare

/-!
# The fused step

`fused_step`: drop what is cancelled, build one batch of generation rows and prompt chunks,
decode it, and on success advance every sequence, retire the completed ones and turn finished
prefills into active sequences. The loops are passes over the two lists. `llama_decode` is its
status, an input of the step: status 0 appends the rows in order, any other changes nothing.
-/

namespace RadixForge

open Library

variable {L : Type}

/-- A sampler: its parameters and the logits it has been given. -/
structure Sampler (L : Type) where
  temperature : ℚ
  topP : ℚ
  given : List (Option L) := []

/-- A sequence in the decode loop. -/
structure ActiveSeq (L : Type) where
  req : InferenceRequest
  seqId : SeqId
  leafNode : NodeId
  pos : ℕ
  nextToken : Token
  remaining : ℤ
  sampler : Sampler L
  done : Bool := false
  notifyOnRetire : Bool := false
  stats : InferenceStats
  cachedTokens : List Token

/-- A row of the batch. -/
structure Row where
  token : Token
  pos : ℕ
  seqId : SeqId
  logits : Bool

/-- The part of a prompt in the batch; a finished prompt knows the row of its logits. -/
structure PromptSubmission where
  tokens : ℕ
  logitIndex : Option ℕ

/-- Sample from the logits of a row. -/
def Sampler.sampleRow (b : Bridge L) (s : Sampler L) (outputs : List (Option L)) (row : ℕ) :
    Token × Sampler L :=
  let s := { s with given := s.given ++ [(outputs[row]?).join] }
  (b.sample s.temperature s.topP s.given, s)

/-- `retire`. The node that owns the sequence is the one it was extended to, if it was. -/
def retire (seq : ActiveSeq L) (notifyClient : Bool) (w : World) : World :=
  let w := w.note (.leaving seq.req.id seq.seqId seq.leafNode seq.cachedTokens notifyClient)
  if notifyClient then
    let (cancelled, req, w) := isCancelled seq.req w
    let (w, sequenceNode) :=
      if cancelled then (w, seq.leafNode)
        else w.extendSequence seq.seqId seq.leafNode seq.cachedTokens
    let (cancelled, req, w) := isCancelled req w
    let w := if cancelled then w else w.callback req.id (.onToken none [] true (some seq.stats))
    w.giveBack req.id seq.seqId sequenceNode seq.leafNode
  else w.giveBack seq.req.id seq.seqId seq.leafNode seq.leafNode

/-- Poll a sequence at the start of the step. -/
def pollActive (seq : ActiveSeq L) (w : World) : Option (ActiveSeq L) × World :=
  let (cancelled, req, w) := isCancelled seq.req w
  (some { seq with req := req, done := seq.done || cancelled }, w)

/-- Retire a cancelled sequence without notice. -/
def dropCancelled (seq : ActiveSeq L) (w : World) : Option (ActiveSeq L) × World :=
  if seq.done then (none, retire seq false w) else (some seq, w)

/-- Give the sequence of a prefill back. -/
def abandon (ctx : PrefillCtx) (w : World) : World :=
  (w.note (.leaving ctx.req.id ctx.prep.seqId ctx.prep.leafNode ctx.tokens false)).giveBack
    ctx.req.id ctx.prep.seqId ctx.prep.leafNode ctx.prep.leafNode

/-- Drop a prefill whose request is cancelled. -/
def dropAbandoned (ctx : PrefillCtx) (w : World) : Option PrefillCtx × World :=
  let (cancelled, req, w) := isCancelled ctx.req w
  let ctx := { ctx with req := req }
  if cancelled then (none, abandon ctx w) else (some ctx, w)

/-- The row that decodes the next token of a sequence. -/
def ActiveSeq.row (seq : ActiveSeq L) : Row :=
  { token := seq.nextToken, pos := seq.pos, seqId := seq.seqId, logits := true }

/-- The rows of the next part of a prompt; only the last row of the prompt asks for logits. -/
def PrefillCtx.rows (ctx : PrefillCtx) (take : ℕ) : List Row :=
  let completes := decide (take = ctx.prep.delta.length - ctx.deltaStart)
  (((ctx.prep.delta.drop ctx.deltaStart).take take).zipIdx ctx.deltaStart).map
    fun (token, promptIndex) =>
    { token := token, pos := ctx.prep.cachedPos + promptIndex, seqId := ctx.prep.seqId
      logits := completes && decide (promptIndex = ctx.deltaStart + take - 1) }

/-- The prompt chunks that fit into the rest of the batch, with the submission of each prefill. -/
def submitPrompts (capacity : ℕ) :
    ℕ → ℕ → List PrefillCtx → List Row × List (Option PromptSubmission)
  | _, _, [] => ([], [])
  | promptTokens, batchIdx, ctx :: rest =>
    let remaining := ctx.prep.delta.length - ctx.deltaStart
    if capacity ≤ promptTokens ∨ remaining = 0 then
      let (rows, submissions) := submitPrompts capacity promptTokens batchIdx rest
      (rows, none :: submissions)
    else
      let take := min remaining (capacity - promptTokens)
      let (rows, submissions) := submitPrompts capacity (promptTokens + take) (batchIdx + take) rest
      (ctx.rows take ++ rows,
        some { tokens := take
               logitIndex := if take = remaining then some (batchIdx + take - 1) else none } ::
                 submissions)

/-- A decoded batch: each row adds its cell, and the flagged rows have logits. -/
def decodeRows (b : Bridge L) : List Row → World → List (Option L) × World
  | [], w => ([], w)
  | row :: rest, w =>
    let w := w.call (.decode row.seqId row.token row.pos)
    let output := if row.logits then some (b.logits (w.mapper.memory.cells row.seqId)) else none
    let (outputs, w) := decodeRows b rest w
    (output :: outputs, w)

/-- `llama_decode`, repeated once after a successful eviction if the cache is full. -/
def decodeBatch (b : Bridge L) (rows : List Row) (first second : ℤ) (w : World) :
    ℤ × List (Option L) × World :=
  let (status, w) :=
    if first = 1 then
      let (w, evicted) := w.evictIdleSequence
      (if evicted then second else first, w)
    else (first, w)
  if status = 0 then
    let (outputs, w) := decodeRows b rows w
    (status, outputs, w)
  else (status, [], w)

/-- `fail_active`. -/
def failActive (message : String) (status : ℕ) (seq : ActiveSeq L) (w : World) : World :=
  let w := w.note (.leaving seq.req.id seq.seqId seq.leafNode seq.cachedTokens false)
  let (cancelled, req, w) := isCancelled seq.req w
  let w := if cancelled then w else w.callback req.id (.onError message status)
  w.giveBack req.id seq.seqId seq.leafNode seq.leafNode

/-- `fail_prefill`. -/
def failPrefill (message : String) (status : ℕ) (ctx : PrefillCtx) (w : World) : World :=
  let w := w.note (.leaving ctx.req.id ctx.prep.seqId ctx.prep.leafNode ctx.tokens false)
  let (cancelled, req, w) := isCancelled ctx.req w
  let w := if cancelled then w else w.callback req.id (.onError message status)
  w.giveBack req.id ctx.prep.seqId ctx.prep.leafNode ctx.prep.leafNode

/-- Account for a decoded prompt chunk; a finished prompt becomes ready and keeps its logits row. -/
def finishChunk :
    PrefillCtx × Option PromptSubmission → World → Option (PrefillCtx × Option ℕ) × World
  | (ctx, none), w => (some (ctx, none), w)
  | (ctx, some submission), w =>
    let ctx := { ctx with deltaStart := ctx.deltaStart + submission.tokens }
    if ctx.deltaStart = ctx.prep.delta.length then
      (some (ctx, submission.logitIndex), w.call (.markReady ctx.prep.seqId ctx.prep.leafNode))
    else (some (ctx, none), w)

/-- Advance a sequence by the token sampled from its row. -/
def advanceSeq (b : Bridge L) (outputs : List (Option L)) :
    ℕ × ActiveSeq L → World → Option (ActiveSeq L) × World
  | (row, seq), w =>
    let seq := { seq with cachedTokens := seq.cachedTokens ++ [seq.nextToken] }
    let w := w.call (.setCellCount seq.seqId (seq.pos + 1))
    let (newTok, sampler) := seq.sampler.sampleRow b outputs row
    let seq := { seq with sampler := sampler }
    if b.isEog newTok then (some { seq with done := true, notifyOnRetire := true }, w)
    else
      let piece := b.tokenToPiece newTok
      let seq := { seq with stats := { seq.stats with predictedN := seq.stats.predictedN + 1 }
                            remaining := seq.remaining - 1 }
      let last := decide (seq.remaining = 0)
      let (cancelled, req, w) := isCancelled seq.req w
      let w :=
        if cancelled then w
        else w.callback req.id
          (.onToken (some newTok) piece last (if last then some seq.stats else none))
      if last then (some { seq with req := req, done := true }, w)
      else
        let (cancelled, req, w) := isCancelled req w
        if cancelled then (some { seq with req := req, done := true }, w)
        else (some { seq with req := req, nextToken := newTok, pos := seq.pos + 1 }, w)

/-- Retire a sequence that is done, after one more poll. -/
def retireDone (seq : ActiveSeq L) (w : World) : Option (ActiveSeq L) × World :=
  if seq.done then
    let (_, req, w) := isCancelled seq.req w
    (none, retire { seq with req := req } seq.notifyOnRetire w)
  else (some seq, w)

/-- Sample the first token of a finished prompt; the request leaves or becomes active. -/
def beginGeneration (b : Bridge L) (outputs : List (Option L)) (ctx : PrefillCtx) (row : ℕ)
    (w : World) :
    Option (ActiveSeq L) × World :=
  let (cancelled, req, w) := isCancelled ctx.req w
  let ctx := { ctx with req := req }
  if cancelled then (none, abandon ctx w)
  else
    let (firstTok, sampler) :=
      Sampler.sampleRow b { temperature := ctx.req.temperature, topP := ctx.req.topP } outputs row
    if b.isEog firstTok then (none,
      abandon ctx (w.callback ctx.req.id (.onToken none [] true (some ctx.stats))))
    else
      let piece := b.tokenToPiece firstTok
      let stats := { ctx.stats with predictedN := 1 }
      let firstIsLast := decide (ctx.req.maxTokens ≤ 1)
      let w := w.callback ctx.req.id
        (.onToken (some firstTok) piece firstIsLast (if firstIsLast then some stats else none))
      if firstIsLast then (none, abandon ctx w)
      else
        (some { req := ctx.req, seqId := ctx.prep.seqId, leafNode := ctx.prep.leafNode
                pos := ctx.prep.cachedPos + ctx.prep.delta.length, nextToken := firstTok
                remaining := ctx.req.maxTokens - 1, sampler := sampler, stats := stats
                cachedTokens := ctx.tokens }, w)

/-- Begin generation for the prefills that finished their prompt. -/
def finishPrefill (b : Bridge L) (outputs : List (Option L)) :
    PrefillCtx × Option ℕ → World → Option (PrefillCtx ⊕ ActiveSeq L) × World
  | (ctx, none), w => (some (.inl ctx), w)
  | (ctx, some row), w =>
    let (seq, w) := beginGeneration b outputs ctx row w
    (seq.map .inr, w)

/-- The two lists of the worker. -/
structure Slots (L : Type) where
  active : List (ActiveSeq L) := []
  prefilling : List PrefillCtx := []

/-- Drop what is cancelled. -/
def dropAllCancelled (slots : Slots L) (w : World) : Slots L × World :=
  let (seqs, w) := pass pollActive slots.active w
  let (seqs, w) := pass dropCancelled seqs w
  let (prefilling, w) := pass dropAbandoned slots.prefilling w
  ({ active := seqs, prefilling := prefilling }, w)

/-- The rows of the batch, with the submission of each prefill. -/
def buildBatch (b : Bridge L) (slots : Slots L) : List Row × List (Option PromptSubmission) :=
  let decoding := slots.active.length
  let (rows, submissions) := submitPrompts (b.nBatch - decoding) 0 decoding slots.prefilling
  (slots.active.map ActiveSeq.row ++ rows, submissions)

/-- Apply a failure to every item. -/
def failAll {α : Type} (fail : α → World → World) : List α → World → World
  | [], w => w
  | a :: rest, w => failAll fail rest (fail a w)

/-- A full cache fails the newest sequence, or the newest prefill if there is none. -/
def failNewest (slots : Slots L) (w : World) : Slots L × World :=
  match slots.active.getLast? with
  | some seq =>
    ({ slots with active := slots.active.dropLast }, failActive "KV cache is full" 503 seq w)
  | none =>
    match slots.prefilling.getLast? with
    | some ctx => ({ slots with prefilling := slots.prefilling.dropLast },
      failPrefill "KV cache is full" 503 ctx w)
    | none => (slots, w)

/-- Any other failure fails everything. -/
def failEverything (slots : Slots L) (w : World) : Slots L × World :=
  let w := failAll (failActive "inference decode failed" 500) slots.active w
  ({}, failAll (failPrefill "inference prefill failed" 500) slots.prefilling w)

/-- What follows a successful decode. -/
def advanceAll (b : Bridge L) (submissions : List (Option PromptSubmission))
    (outputs : List (Option L)) (slots : Slots L) (w : World) : Slots L × World :=
  let (chunks, w) := pass finishChunk (slots.prefilling.zip submissions) w
  let (seqs, w) := pass (advanceSeq b outputs) ((List.range slots.active.length).zip slots.active) w
  let (seqs, w) := pass retireDone seqs w
  let (finished, w) := pass (finishPrefill b outputs) chunks w
  ({ active := seqs ++
    finished.filterMap Sum.getRight?, prefilling := finished.filterMap Sum.getLeft? }, w)

/-- `fused_step`, with the statuses of the first and of a repeated decode. -/
def fusedStep (b : Bridge L) (first second : ℤ) (slots : Slots L) (w : World) : Slots L × World :=
  let (slots, w) := dropAllCancelled slots w
  let (rows, submissions) := buildBatch b slots
  if rows = [] then (slots, w)
  else
    let (status, outputs, w) := decodeBatch b rows first second w
    if status = 1 then failNewest slots w
    else if status ≠ 0 then failEverything slots w
    else advanceAll b submissions outputs slots w

end RadixForge
