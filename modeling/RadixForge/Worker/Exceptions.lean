import RadixForge.Worker.Following

/-!
# Exceptions in the worker loop

`run` catches what an iteration throws, logs it and goes on with the next one. What throws is code
from outside: the chat template, the tokenizer and the callbacks of a request. The vectors of the
iteration are destroyed with what they own; the two lists of the worker, the mapper and the tree
stay as the throw left them, since nothing is rolled back.

A throw is described by the loop it comes from and by what it leaves. `std::remove_if` interrupted
after it has removed an item leaves a gap of removed and moved-from items, and a prefill that became
active is moved from; nothing is said about such values.
-/

namespace RadixForge

open Library

variable {L : Type}

/-- Where a throw comes from. The number is that of the items the loop had dealt with for good: the
requests of the batch that were prepared, the prefills that were dropped, the sequences or prefills
that were failed, the finished prompts that were sampled. -/
inductive ThrowSite where
  | preparing (prepared : ℕ)
  | polling
  | dropping (dropped : ℕ)
  | failingNewest
  | failing (failed : ℕ)
  | advancing
  | retiring
  | beginning (begun : ℕ)
deriving DecidableEq

/-- A throw inside `is_cancelled`: of `cancelled`, or of `on_cancel`, which stays installed. -/
def isCancelledThrows (req : InferenceRequest) (w : World) : List World :=
  if req.cancelAfter = some 0 ∧ req.onCancel then
    [w, (w.callback req.id (.polled true)).callback req.id .onCancel]
  else [w]

/-- A throw while the rest of a batch is polled for the queue. -/
def keepQueuedThrows : List InferenceRequest → World → List World
  | [], _ => []
  | req :: rest, w => isCancelledThrows req w ++ keepQueuedThrows rest (keepQueued req w).2

/-- A throw of `prepare_all`: the prefills prepared so far, which are lost, and the world. -/
def prepareAllThrows (b : Bridge L) : List InferenceRequest → World → List (List PrefillCtx × World)
  | [], _ => []
  | req :: rest, w =>
    let polling := (isCancelledThrows req w).map fun w => ([], w)
    let (cancelled, req, w) := isCancelled req w
    if cancelled then polling ++ prepareAllThrows b rest w
    else
      -- the template or the tokenizer
      let resolving := ([], w)
      polling ++ resolving ::
        match prepareOne b req w with
        -- `on_error`
        | (.rejected, w) => ([], w) :: prepareAllThrows b rest w
        | (.deferred _, w) => prepareAllThrows b rest w
        | (.exhausted _, w) => (keepQueuedThrows rest w).map fun w => ([], w)
        | (.prepared ctx, w) =>
          (prepareAllThrows b rest w).map fun (lost, w) => (ctx :: lost, w)

/-- A throw of `fail_active` or `fail_prefill`: of the poll, or of `on_error`. -/
def complainThrows (message : String) (status : ℕ) (req : InferenceRequest) (w : World) :
    List (InferenceRequest × World) :=
  let (cancelled, polled, w') := isCancelled req w
  ((isCancelledThrows req w).map fun w => (req, w)) ++
    if cancelled then [] else [(polled, w'.callback req.id (.onError message status))]

/-- A throw while a sequence advances: its token is accounted for, its position is not. -/
def advanceSeqThrows (b : Bridge L) (outputs : List (Option L)) :
    ℕ × ActiveSeq L → World → List (ActiveSeq L × World)
  | (row, seq), w =>
    let seq := { seq with cachedTokens := seq.cachedTokens ++ [seq.nextToken] }
    let w := w.call (.setCellCount seq.seqId (seq.pos + 1))
    let (newTok, sampler) := seq.sampler.sampleRow b outputs row
    let seq := { seq with sampler := sampler }
    if b.isEog newTok then []
    else
      let piece := b.tokenToPiece newTok
      let seq := { seq with stats := { seq.stats with predictedN := seq.stats.predictedN + 1 }
                            remaining := seq.remaining - 1 }
      let last := decide (seq.remaining = 0)
      let polling := (isCancelledThrows seq.req w).map fun w => (seq, w)
      let (cancelled, req, w) := isCancelled seq.req w
      let seq := { seq with req := req }
      let delivered := w.callback req.id
        (.onToken (some newTok) piece last (if last then some seq.stats else none))
      let delivering := if cancelled then [] else [(seq, delivered)]
      let w := if cancelled then w else delivered
      polling ++ delivering ++ if last then [] else (isCancelledThrows req w).map fun w => (seq, w)

/-- A throw while a sequence that is done is retired: of a poll, or of the last `on_token`. -/
def retireDoneThrows (seq : ActiveSeq L) (w : World) : List (ActiveSeq L × World) :=
  let polling := (isCancelledThrows seq.req w).map fun w => (seq, w)
  let (_, req, w) := isCancelled seq.req w
  let seq := { seq with req := req }
  if seq.notifyOnRetire then
    let asking := (isCancelledThrows req w).map fun w => (seq, w)
    let (cancelled, req, w) := isCancelled req w
    let seq := { seq with req := req }
    let w := if cancelled then w else (w.extendSequence seq.seqId seq.leafNode seq.cachedTokens).1
    let askingAgain := (isCancelledThrows req w).map fun w => (seq, w)
    let (cancelled, req, w) := isCancelled req w
    let seq := { seq with req := req }
    polling ++ asking ++ askingAgain ++
      if cancelled then [] else [(seq, w.callback req.id (.onToken none [] true (some seq.stats)))]
  else polling

/-- A throw while the first token of a finished prompt is sampled: of the poll, or of `on_token`. -/
def beginGenerationThrows (b : Bridge L) (outputs : List (Option L)) (ctx : PrefillCtx) (row : ℕ)
    (w : World) : List (PrefillCtx × World) :=
  let polling := (isCancelledThrows ctx.req w).map fun w => (ctx, w)
  let (cancelled, req, w) := isCancelled ctx.req w
  let ctx := { ctx with req := req }
  if cancelled then polling
  else
    let (firstTok, _) :=
      Sampler.sampleRow b { temperature := ctx.req.temperature, topP := ctx.req.topP } outputs row
    if b.isEog firstTok then
      polling ++ [(ctx, w.callback ctx.req.id (.onToken none [] true (some ctx.stats)))]
    else
      let piece := b.tokenToPiece firstTok
      let ctx := { ctx with stats := { ctx.stats with predictedN := 1 } }
      let firstIsLast := decide (ctx.req.maxTokens ≤ 1)
      let delivered := w.callback ctx.req.id
        (.onToken (some firstTok) piece firstIsLast (if firstIsLast then some ctx.stats else none))
      polling ++ [(ctx, delivered)]

/-- The sequences that go on once the cancelled ones are retired. -/
def dropActive (seqs : List (ActiveSeq L)) (w : World) : List (ActiveSeq L) × World :=
  let (seqs, w) := pass pollActive seqs w
  pass dropCancelled seqs w

/-- A request after one more poll. -/
def InferenceRequest.afterPoll (req : InferenceRequest) : InferenceRequest :=
  match req.cancelAfter with
  | some 0 => { req with onCancel := false }
  | some (n + 1) => { req with cancelAfter := some n }
  | none => req

/-- A throw while what is cancelled is dropped. -/
inductive DropThrows (slots : Slots L) (w : World) : ThrowSite → Slots L → World → Prop where
  | polling {before after : List (ActiveSeq L)} {seq : ActiveSeq L} {w' : World}
      (hactive : slots.active = before ++ seq :: after)
      (hthrow : w' ∈ isCancelledThrows seq.req (pass pollActive before w).2) :
      DropThrows slots w .polling
        { slots with active := (pass pollActive before w).1 ++ seq :: after } w'
  | dropping {before after : List PrefillCtx} {ctx : PrefillCtx} {kept : List PrefillCtx}
      {w₁ w' : World} (gap : List PrefillCtx)
      (hprefilling : slots.prefilling = before ++ ctx :: after)
      (hkept : pass dropAbandoned before (dropActive slots.active w).2 = (kept, w₁))
      (hgap : kept.length + gap.length = before.length)
      (hthrow : w' ∈ isCancelledThrows ctx.req w₁) :
      DropThrows slots w (.dropping gap.length)
        { active := (dropActive slots.active w).1, prefilling := kept ++ gap ++ ctx :: after } w'

/-- A throw after the decode, by the status of the decode. -/
inductive DecodeThrows (b : Bridge L) (submissions : List (Option PromptSubmission))
    (outputs : List (Option L)) (slots : Slots L) (w : World) :
    ℤ → ThrowSite → Slots L → World → Prop where
  | newestActive {rest : List (ActiveSeq L)} {seq : ActiveSeq L} {req : InferenceRequest}
      {w' : World} (hactive : slots.active = rest ++ [seq])
      (hthrow : (req, w') ∈ complainThrows "KV cache is full" 503 seq.req w) :
      DecodeThrows b submissions outputs slots w 1 .failingNewest
        { slots with active := rest ++ [{ seq with req := req }] } w'
  | newestPrefill {rest : List PrefillCtx} {ctx : PrefillCtx} {req : InferenceRequest}
      {w' : World} (hactive : slots.active = []) (hprefilling : slots.prefilling = rest ++ [ctx])
      (hthrow : (req, w') ∈ complainThrows "KV cache is full" 503 ctx.req w) :
      DecodeThrows b submissions outputs slots w 1 .failingNewest
        { slots with prefilling := rest ++ [{ ctx with req := req }] } w'
  | failingActive {status : ℤ} {before after : List (ActiveSeq L)} {seq : ActiveSeq L}
      {req : InferenceRequest} {w' : World} (hstatus : status ≠ 0 ∧ status ≠ 1)
      (hactive : slots.active = before ++ seq :: after)
      (hthrow : (req, w') ∈ complainThrows "inference decode failed" 500 seq.req
        (failAll (failActive "inference decode failed" 500) before w)) :
      DecodeThrows b submissions outputs slots w status (.failing before.length)
        { slots with
          active := before.map (fun s => { s with req := s.req.afterPoll }) ++
            { seq with req := req } :: after } w'
  | failingPrefill {status : ℤ} {before after : List PrefillCtx} {ctx : PrefillCtx}
      {req : InferenceRequest} {w' : World} (hstatus : status ≠ 0 ∧ status ≠ 1)
      (hprefilling : slots.prefilling = before ++ ctx :: after)
      (hthrow : (req, w') ∈ complainThrows "inference prefill failed" 500 ctx.req
        (failAll (failPrefill "inference prefill failed" 500) before
          (failAll (failActive "inference decode failed" 500) slots.active w))) :
      DecodeThrows b submissions outputs slots w status (.failing before.length)
        { active := []
          prefilling := before.map (fun c => { c with req := c.req.afterPoll }) ++
            { ctx with req := req } :: after } w'
  | advancing {chunks : List (PrefillCtx × Option ℕ)} {before after : List (ℕ × ActiveSeq L)}
      {p : ℕ × ActiveSeq L} {seq : ActiveSeq L} {w₁ w' : World}
      (hchunks : pass finishChunk (slots.prefilling.zip submissions) w = (chunks, w₁))
      (hactive : (List.range slots.active.length).zip slots.active = before ++ p :: after)
      (hthrow : (seq, w') ∈ advanceSeqThrows b outputs p
        (pass (advanceSeq b outputs) before w₁).2) :
      DecodeThrows b submissions outputs slots w 0 .advancing
        { active := (pass (advanceSeq b outputs) before w₁).1 ++ seq :: after.map Prod.snd
          prefilling := chunks.map Prod.fst } w'
  | retiring {chunks : List (PrefillCtx × Option ℕ)}
      {seqs before after kept : List (ActiveSeq L)} {seq seq' : ActiveSeq L} {w₁ w₂ w₃ w' : World}
      (gap : List (ActiveSeq L))
      (hchunks : pass finishChunk (slots.prefilling.zip submissions) w = (chunks, w₁))
      (hactive : pass (advanceSeq b outputs)
        ((List.range slots.active.length).zip slots.active) w₁ = (seqs, w₂))
      (hsplit : seqs = before ++ seq :: after)
      (hkept : pass retireDone before w₂ = (kept, w₃))
      (hgap : kept.length + gap.length = before.length) (hdone : seq.done = true)
      (hthrow : (seq', w') ∈ retireDoneThrows seq w₃) :
      DecodeThrows b submissions outputs slots w 0 .retiring
        { active := kept ++ gap ++ seq' :: after, prefilling := chunks.map Prod.fst } w'
  | beginning {chunks before after : List (PrefillCtx × Option ℕ)} {kept : List (ActiveSeq L)}
      {ctx ctx' : PrefillCtx} {row : ℕ} {w₁ w' : World} (moved : PrefillCtx → PrefillCtx)
      (hsettled : settleBatch b submissions outputs slots w = (chunks, kept, w₁))
      (hsplit : chunks = before ++ (ctx, some row) :: after)
      (hthrow : (ctx', w') ∈ beginGenerationThrows b outputs ctx row
        (pass (finishPrefill b outputs) before w₁).2) :
      DecodeThrows b submissions outputs slots w 0 (.beginning (before.countP fun q => q.2.isSome))
        { active := kept
          prefilling := before.map (fun q => if q.2.isSome then moved q.1 else q.1) ++
            ctx' :: after.map Prod.fst } w'

/-- A throw of `fused_step`. -/
inductive FusedThrows (b : Bridge L) (first second : ℤ) (slots : Slots L) (w : World) :
    ThrowSite → Slots L → World → Prop where
  | dropping {site : ThrowSite} {slots' : Slots L} {w' : World}
      (hthrow : DropThrows slots w site slots' w') :
      FusedThrows b first second slots w site slots' w'
  | decoded {site : ThrowSite} {kept slots' : Slots L} {rows : List Row}
      {submissions : List (Option PromptSubmission)} {status : ℤ} {outputs : List (Option L)}
      {w₁ w₂ w' : World} (hdropped : dropAllCancelled slots w = (kept, w₁))
      (hbatch : buildBatch b kept = (rows, submissions)) (hrows : rows ≠ [])
      (hdecoded : decodeBatch b rows first second w₁ = (status, outputs, w₂))
      (hthrow : DecodeThrows b submissions outputs kept w₂ status site slots' w') :
      FusedThrows b first second slots w site slots' w'

namespace Worker

/-- An iteration that throws: it ends in the handler, and the loop begins anew. -/
inductive Throws (b : Bridge L) (k : Worker L) : ThrowSite → Worker L → Prop where
  | preparing {pending : List InferenceRequest} {lost : List PrefillCtx} {w : World}
      (hphase : k.phase = .admitted pending)
      (hthrow : (lost, w) ∈ prepareAllThrows b pending k.world) :
      Throws b k (.preparing lost.length) { k with phase := .head, world := w }
  | fusing {site : ThrowSite} (first second : ℤ) {slots : Slots L} {w : World}
      (hphase : k.phase = .requeued)
      (hthrow : FusedThrows b first second k.slots k.world site slots w) :
      Throws b k site { k with phase := .head, slots := slots, world := w }

/-- What a worker reaches when iterations throw at the allowed sites only. -/
inductive Reaches (b : Bridge L) (allowed : ThrowSite → Prop) (k : Worker L) : Worker L → Prop where
  | start : Reaches b allowed k k
  | step {k₁ k₂ : Worker L} {action : Action} (hreaches : Reaches b allowed k k₁)
      (hstep : k₁.step b action = some k₂) : Reaches b allowed k k₂
  | throws {k₁ k₂ : Worker L} {site : ThrowSite} (hreaches : Reaches b allowed k k₁)
      (hallowed : allowed site) (hthrows : k₁.Throws b site k₂) : Reaches b allowed k k₂

end Worker

end RadixForge
