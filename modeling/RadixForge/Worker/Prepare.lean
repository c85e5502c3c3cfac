import RadixForge.Library.Pass
import RadixForge.Worker.Request

/-!
# Preparing the admitted requests

`prepare_all`: poll, resolve the chat template, tokenize, check the context window, wait for a
pending prefix, and prepare a sequence. The cases of one request are an outcome; an exhausted pool
ends the loop and puts the rest of the batch back. Other exceptions come from outside code and leave
the loop where it stands; `prepareAllThrows` says what remains then.
-/

namespace RadixForge

open Library

variable {L : Type}

/-- A prepared request whose prompt is being decoded. -/
structure PrefillCtx where
  req : InferenceRequest
  prep : PrepareResult
  tokens : List Token
  deltaStart : ℕ := 0
  stats : InferenceStats

namespace Bridge

/-- The prompt text: the raw prompt, or the chat messages through the template. -/
def promptText (b : Bridge L) (req : InferenceRequest) : String :=
  if req.prompt = "" ∧ req.messages ≠ [] then b.applyChatTemplate
    (req.messages.map fun m => (m.role, m.content))
  else req.prompt

/-- The prompt tokens. -/
def promptTokens (b : Bridge L) (req : InferenceRequest) : List Token :=
  b.tokenize (b.promptText req)

/-- The room that the context window leaves for generated tokens. -/
def available (b : Bridge L) (req : InferenceRequest) : ℤ :=
  b.nCtx - (b.promptTokens req).length - 4

end Bridge

/-- Clamp `max_tokens` to the room in the context window. -/
def InferenceRequest.clamp (req : InferenceRequest) (available : ℤ) : InferenceRequest :=
  if available < req.maxTokens then { req with maxTokens := available } else req

/-- What becomes of one request of the batch. -/
inductive Preparation where
  | rejected
  | deferred (req : InferenceRequest)
  | exhausted (req : InferenceRequest)
  | prepared (ctx : PrefillCtx)

/-- Whether the request has to wait for a pending prefix. -/
def mustWait (w : World) (tokens : List Token) : Bool :=
  let availability := w.mapper.inspectPrefix tokens
  decide (0 < (availability.pendingTokens : ℤ) - availability.readyTokens)

/-- The body of the loop for a request that is not cancelled. -/
def prepareOne (b : Bridge L) (req : InferenceRequest) (w : World) : Preparation × World :=
  let tokens := b.promptTokens req
  let available := b.available req
  if available ≤ 0 then (.rejected,
    w.callback req.id (.onError "prompt exceeds context window" 400))
  else
    let req := req.clamp available
    if mustWait w tokens then (.deferred req, w)
    else
      match w.prepareSequence tokens with
      | (w, .error _) => (.exhausted req, w)
      | (w, .ok prep) =>
        let w := w.note (.admitted req.id tokens prep)
        if prep.delta = [] then
          let w := w.note (.leaving req.id prep.seqId prep.leafNode tokens false)
          let w := w.giveBack req.id prep.seqId prep.leafNode prep.leafNode
          (.rejected, w.callback req.id (.onError "internal cache preparation error" 500))
        else
          (.prepared { req := req, prep := prep, tokens := tokens
                       stats := { promptN := prep.delta.length, cacheN := prep.cachedPos
                                  promptTokens := tokens.length } }, w)

/-- Keep a request of the rest of the batch unless it is cancelled. -/
def keepQueued (req : InferenceRequest) (w : World) : Option InferenceRequest × World :=
  let (cancelled, req, w) := isCancelled req w
  (if cancelled then none else some req, w)

/-- The three lists that `prepare_all` fills. -/
structure Batch where
  ctxs : List PrefillCtx := []
  deferred : List InferenceRequest := []
  queued : List InferenceRequest := []

/-- `prepare_all`. -/
def prepareAll (b : Bridge L) : List InferenceRequest → World → Batch × World
  | [], w => ({}, w)
  | req :: rest, w =>
    let (cancelled, req, w) := isCancelled req w
    if cancelled then prepareAll b rest w
    else
      match prepareOne b req w with
      | (.rejected, w) => prepareAll b rest w
      | (.deferred req, w) =>
        let (batch, w) := prepareAll b rest w
        ({ batch with deferred := req :: batch.deferred }, w)
      | (.exhausted req, w) =>
        let (queued, w) := pass keepQueued rest w
        ({ queued := req :: queued }, w)
      | (.prepared ctx, w) =>
        let (batch, w) := prepareAll b rest w
        ({ batch with ctxs := ctx :: batch.ctxs }, w)

end RadixForge
