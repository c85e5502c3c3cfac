import Mathlib.Data.Rat.Defs
import RadixForge.Session.Protocol

/-!
# Requests and what the worker does on their behalf

The model of the language model is a parameter: tokenizer, chat template, logits as a function
of the cells of a sequence, and a sampler that is a function of the logits it was given. A request
carries the moment from which its `cancelled` predicate answers true, counted in polls. The
worker writes a log of its calls on the mapper and of the callbacks it invokes; the marks in it say
when a request was prepared and when its departure began and ended.
-/

namespace RadixForge

open Library

/-- What the worker uses of `LlamaBridge`, the vocabulary and the sampler. -/
structure Bridge (L : Type) where
  tokenize : String → List Token
  applyChatTemplate : List (String × String) → String
  logits : List Cell → L
  sample : ℚ → ℚ → List (Option L) → Token
  isEog : Token → Bool
  tokenToPiece : Token → List UInt8
  nCtx : ℤ
  nBatch : ℕ
  nSeqMax : ℕ

/-- One turn of a chat. -/
structure ChatMessage where
  role : String
  content : String

/-- The counters of a request; its two durations are not modelled. -/
structure InferenceStats where
  promptN : ℕ := 0
  cacheN : ℕ := 0
  promptTokens : ℕ := 0
  predictedN : ℕ := 0
deriving DecidableEq

/-- A request. `id` is its number of arrival and stands for its callbacks; `cancelAfter` is the
number of polls that `cancelled` still answers with false; `onCancel` tells whether that callback is
still installed. -/
structure InferenceRequest where
  id : ℕ := 0
  prompt : String := ""
  messages : List ChatMessage := []
  maxTokens : ℤ := 4096
  temperature : ℚ := 7 / 10
  topP : ℚ := 9 / 10
  cancelAfter : Option ℕ := none
  onCancel : Bool := true

/-- A callback as the client sees it. The token behind a piece is recorded with it. -/
inductive Event where
  | polled (answer : Bool)
  | onToken (token : Option Token) (piece : List UInt8) (isLast : Bool)
      (stats : Option InferenceStats)
  | onError (message : String) (status : ℕ)
  | onCancel
deriving DecidableEq

/-- An entry of the log: a call on the mapper, a callback of a request, or a mark. -/
inductive Entry where
  | call (c : Call)
  | event (id : ℕ) (e : Event)
  | admitted (id : ℕ) (prompt : List Token) (result : PrepareResult)
  | leaving (id : ℕ) (seqId : SeqId) (leaf : NodeId) (tokens : List Token) (extension : Bool)
  | left (id : ℕ)

/-- The mapper and the log of the worker. -/
structure World where
  mapper : KVMapper
  log : List Entry

/-- The call of an entry. -/
def Entry.call? : Entry → Option Call
  | .call c => some c
  | _ => none

/-- The callback of an entry, if it is one of the given request. -/
def Entry.eventOf? (id : ℕ) : Entry → Option Event
  | .event id' e => if id' = id then some e else none
  | _ => none

namespace World

/-- A fresh mapper and an empty log. -/
def init (config : Config) (order : ChildOrder) : World where
  mapper := .init config order
  log := []

/-- The calls made on the mapper. -/
def calls (w : World) : List Call := w.log.filterMap Entry.call?

/-- The callbacks invoked on a request. -/
def eventsOf (w : World) (id : ℕ) : List Event := w.log.filterMap (Entry.eventOf? id)

/-- Write a mark or a callback to the log. -/
def note (w : World) (entry : Entry) : World := { w with log := w.log ++ [entry] }

/-- Call the mapper. -/
def call (w : World) (c : Call) : World where
  mapper := c.apply w.mapper
  log := w.log ++ [.call c]

/-- Invoke a callback. -/
def callback (w : World) (id : ℕ) (e : Event) : World := w.note (.event id e)

/-- A note leaves the mapper alone. -/
@[simp] theorem note_mapper (w : World) (entry : Entry) : (w.note entry).mapper = w.mapper := rfl

/-- A callback leaves the mapper alone. -/
@[simp] theorem callback_mapper (w : World) (id : ℕ) (e : Event) :
    (w.callback id e).mapper = w.mapper := rfl

/-- A mapper call does to the mapper what it stands for. -/
@[simp] theorem call_mapper (w : World) (c : Call) : (w.call c).mapper = c.apply w.mapper := rfl

/-- A note adds the call it stands for, if any. -/
theorem note_calls (w : World) (entry : Entry) :
    (w.note entry).calls = w.calls ++ entry.call?.toList := by
  simp only [calls, note, List.filterMap_append, List.filterMap_cons, List.filterMap_nil]
  cases entry.call? <;> rfl

/-- A callback adds no call. -/
@[simp] theorem callback_calls (w : World) (id : ℕ) (e : Event) :
    (w.callback id e).calls = w.calls := by
  simp [callback, note_calls, Entry.call?]

/-- A mapper call adds itself to the calls. -/
@[simp] theorem call_calls (w : World) (c : Call) : (w.call c).calls = w.calls ++ [c] := by
  simp [calls, call, Entry.call?]

/-- A callback adds to the events of its request only. -/
@[simp] theorem callback_eventsOf (w : World) (id id' : ℕ) (e : Event) :
    (w.callback id e).eventsOf id' =
      if id = id' then w.eventsOf id' ++ [e] else w.eventsOf id' := by
  by_cases hid : id = id' <;> simp [eventsOf, callback, note, Entry.eventOf?, hid]

/-- A mapper call adds no event. -/
@[simp] theorem call_eventsOf (w : World) (c : Call) (id : ℕ) :
    (w.call c).eventsOf id = w.eventsOf id := by
  simp [eventsOf, call, Entry.eventOf?]

/-- The note of an admission is no event. -/
@[simp] theorem admitted_eventsOf (w : World) (id id' : ℕ) (prompt : List Token)
    (result : PrepareResult) :
    (w.note (.admitted id prompt result)).eventsOf id' = w.eventsOf id' := by
  simp [eventsOf, note, Entry.eventOf?]

/-- The note that a sequence is leaving is no event. -/
@[simp] theorem leaving_eventsOf (w : World) (id id' : ℕ) (seqId : SeqId) (leaf : NodeId)
    (tokens : List Token) (extension : Bool) :
    (w.note (.leaving id seqId leaf tokens extension)).eventsOf id' = w.eventsOf id' := by
  simp [eventsOf, note, Entry.eventOf?]

/-- The note that a request has left is no event. -/
@[simp] theorem left_eventsOf (w : World) (id id' : ℕ) :
    (w.note (.left id)).eventsOf id' = w.eventsOf id' := by
  simp [eventsOf, note, Entry.eventOf?]

/-- `prepare_sequence`. -/
def prepareSequence (w : World) (prompt : List Token) :
    World × Except SequenceCapacityExhausted PrepareResult :=
  (w.call (.prepare prompt), (w.mapper.prepareSequence prompt).2)

/-- `extend_sequence`. -/
def extendSequence (w : World) (seqId : SeqId) (node : NodeId) (tokens : List Token) :
    World × NodeId :=
  (w.call (.extend seqId node tokens), (w.mapper.extendSequence seqId node tokens).2)

/-- `evict_idle_sequence`. -/
def evictIdleSequence (w : World) : World × Bool :=
  (w.call .evictIdle, w.mapper.evictIdleSequence.2)

/-- `release_sequence` at its owner followed by `RadixTree::release` of the leaf. -/
def giveBack (w : World) (id : ℕ) (seqId : SeqId) (owner leaf : NodeId) : World :=
  ((w.call (.releaseSequence seqId owner)).call (.release leaf)).note (.left id)

/-- Giving a sequence back to the mapper is no event. -/
@[simp] theorem giveBack_eventsOf (w : World) (id id' : ℕ) (seqId : SeqId) (owner leaf : NodeId) :
    (w.giveBack id seqId owner leaf).eventsOf id' = w.eventsOf id' := by
  simp [giveBack]

end World

/-- `is_cancelled`: poll, and on the first true answer invoke and drop `on_cancel`. -/
def isCancelled (req : InferenceRequest) (w : World) : Bool × InferenceRequest × World :=
  match req.cancelAfter with
  | some 0 =>
    let w := w.callback req.id (.polled true)
    if req.onCancel then (true, { req with onCancel := false }, w.callback req.id .onCancel)
      else (true, req, w)
  | some (n + 1) => (false, { req with cancelAfter := some n }, w.callback req.id (.polled false))
  | none => (false, req, w.callback req.id (.polled false))

end RadixForge
