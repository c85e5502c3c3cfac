import Mathlib.Data.Int.Notation
import RadixForge.Http.OpenAi
import RadixForge.Json.Grammar
import RadixForge.Library.OrderedMap

/-!
# Traces of routed experts

`tools/moe_trace.cpp`. The tool decodes each request token by token, captures the selected experts
of every layer through `cb_eval`, and writes their bytes to one file and a line of JSON with the
offset to another; the numbers of the model go to a third. What llama.cpp does and what the clock
shows are parameters, and a failure of the tool ends it, as do an overflow, a division by zero and a
read past an end. The trace of a request is kept by tokens and layers, and what is written are its
bytes in this order.
-/

namespace RadixForge.MoeStudy

open Library

section Capturing

/-- A tensor that `cb_eval` shows: its name, whether it is a contiguous `I32` one, its two
dimensions and its ids. -/
structure Tensor where
  name : List Char
  plain : Bool
  nExpert : ℕ
  nTokens : ℕ
  ids : List ℤ

/-- `kTensorPrefix`. -/
def kTensorPrefix : List Char := "ffn_moe_argsort-".toList

/-- `std::atoi`. -/
def atoi (text : List Char) : ℤ :=
  let text := text.dropWhile (· ∈ [' ', '\t', '\n', '\x0b', '\x0c', '\r'])
  let negative : Bool := text.head? = some '-'
  let digits := if negative ∨ text.head? = some '+' then text.tail else text
  let magnitude := (digits.takeWhile Char.isDigit).foldl
    (fun n c => n * 10 + (c.toNat - '0'.toNat)) 0
  if negative then -(magnitude : ℤ) else magnitude

/-- The layer of a tensor that is captured. -/
def Tensor.layer? (t : Tensor) : Option ℤ :=
  if kTensorPrefix.isPrefixOf t.name then some (atoi (t.name.drop kTensorPrefix.length)) else none

/-- `Capture`. -/
structure Capture where
  nExpert : ℕ := 0
  k : ℕ
  nTokens : ℕ := 0
  byLayer : List (ℤ × Bytes) := []

/-- `static_cast<uint8_t>`. -/
def toByte (id : ℤ) : UInt8 := UInt8.ofNat (id % 256).toNat

/-- The first ids of each token; a read past the end has no result. -/
def Tensor.selected (k : ℕ) (t : Tensor) : Option Bytes :=
  ((List.range t.nTokens).mapM fun tok =>
    (List.range k).mapM fun j => t.ids[tok * t.nExpert + j]?.map toByte).map List.flatten

/-- `on_tensor` for a tensor that was asked for or that is shown anyway. -/
def onTensor (cap : Capture) (t : Tensor) : Option Capture :=
  match t.layer? with
  | none => some cap
  | some layer =>
    if t.plain = false ∨ 256 < t.nExpert then none
    else (t.selected cap.k).map fun row =>
      { cap with nExpert := t.nExpert, nTokens := t.nTokens,
                 byLayer := assign layer row cap.byLayer }

end Capturing

section Tracing

/-- What the tool uses of a request. -/
structure Request where
  id : Bytes
  family : Bytes
  agent : Bytes
  turn : Int32
  maxTokens : Int32
  messages : List (Bytes × Bytes)
deriving DecidableEq

/-- What `operator<<` writes of a duration, a finite `double`. -/
structure Millis where
  text : Bytes
  number : NumberText text

/-- What the tool uses of llama.cpp and of the clock: the tokens of the rendered messages, the
cleared memory and sampler, the tensors that a decode shows, the greedy sampler, the tokens, and the
durations of the request that ends. -/
structure Engine (σ : Type) where
  tokenize : Request → Option (List Int32)
  clear : σ → σ
  decode : σ → List Int32 → ℕ → Option (σ × List Tensor)
  sample : σ → σ × Int32
  isEog : Int32 → Bool
  piece : Int32 → Bytes
  elapsed : σ → Millis × Millis

variable {σ : Type} (e : Engine σ)

/-- llama.cpp, `cap` and `moe_layers`. -/
structure Tracer (σ : Type) where
  engine : σ
  cap : Capture
  moeLayers : List ℤ := []

/-- The bytes from one place to another; a read past the end has no result. -/
def slice (start size : ℕ) (row : Bytes) : Option Bytes :=
  if start + size ≤ row.length then some ((row.drop start).take size) else none

/-- `decode`: the rows of the tokens go behind the trace. -/
def decode (s : Tracer σ) (tokens : List Int32) (pos : ℕ) (trace : List (List Bytes)) :
    Option (Tracer σ × List (List Bytes)) :=
  (e.decode s.engine tokens pos).bind fun shown =>
    (shown.2.foldlM onTensor { s.cap with byLayer := [] }).bind fun cap =>
      if cap.nTokens ≠ tokens.length ∨ cap.byLayer = [] then none
      else if s.moeLayers ≠ [] ∧ cap.byLayer.length ≠ s.moeLayers.length then none
      else
        let moeLayers := if s.moeLayers = [] then cap.byLayer.map Prod.fst else s.moeLayers
        ((List.range tokens.length).mapM fun tok =>
          moeLayers.mapM fun layer =>
            (lookup layer cap.byLayer).bind (slice (tok * cap.k) cap.k)).map fun rows =>
            ({ engine := shown.1, cap := cap, moeLayers := moeLayers }, trace ++ rows)

/-- The loop over the prompt. -/
def prefill : Tracer σ → List Int32 → ℕ → List (List Bytes) → Option (Tracer σ × List (List Bytes))
  | s, [], _, trace => some (s, trace)
  | s, token :: rest, pos, trace =>
    (decode e s [token] pos trace).bind fun r => prefill r.1 rest (pos + 1) r.2

/-- The local variables of the generation. -/
structure Generation (σ : Type) where
  tracer : Tracer σ
  generated : List Int32 := []
  text : Bytes := []
  trace : List (List Bytes)

/-- The loop of the generation, with the tokens that may still be generated. -/
def generate : ℕ → ℕ → Generation σ → Option (Generation σ)
  | 0, _, g => some g
  | left + 1, pos, g =>
    let sampled := e.sample g.tracer.engine
    let s := { g.tracer with engine := sampled.1 }
    if e.isEog sampled.2 then some { g with tracer := s }
    else
      let g := { g with tracer := s, generated := g.generated ++ [sampled.2],
                        text := g.text ++ e.piece sampled.2 }
      -- the last token is emitted but never routed
      if left = 0 then some g
      else (decode e s [sampled.2] pos g.trace).bind fun r => generate left (pos + 1)
        { g with tracer := r.1, trace := r.2 }

/-- A traced request. -/
structure Traced where
  request : Request
  prompt : List Int32
  generated : List Int32
  text : Bytes
  trace : List (List Bytes)
  elapsed : Millis × Millis

/-- The tokens of a row. -/
def Traced.tokens (t : Traced) : List Int32 := t.prompt ++ t.generated

/-- The bytes of a trace. -/
def Traced.bytes (t : Traced) : Bytes := t.trace.flatten.flatten

end Tracing

section Files

/-- `operator<<` for an integer. -/
def decimal (n : ℤ) : Bytes := if n < 0 then byte '-' :: natText n.natAbs else natText n.natAbs

/-- The members of a row: keys, texts between them, and strings between quotation marks. The tokens
of the prompt are separated by commas, and each generated one has a comma before it. -/
def Traced.row (t : Traced) (nRouted offset : ℕ) : Bytes :=
  ascii "\x7b\"id\":\"" ++ jsonEscape t.request.id ++ ascii "\",\"family\":\"" ++
    jsonEscape t.request.family ++
    ascii "\",\"agent\":\"" ++ jsonEscape t.request.agent ++ ascii "\",\"turn\":" ++
      decimal t.request.turn.toInt ++
    ascii ",\"n_prompt\":" ++ natText t.prompt.length ++ ascii ",\"n_gen\":" ++
      natText t.generated.length ++
    ascii ",\"n_routed\":" ++ natText nRouted ++ ascii ",\"offset\":" ++ natText offset ++
    ascii ",\"prefill_ms\":" ++ t.elapsed.1.text ++ ascii ",\"decode_ms\":" ++ t.elapsed.2.text ++
    ascii ",\"tokens\":[" ++ separated (t.prompt.map fun token => decimal token.toInt) ++
    (t.generated.flatMap fun token => byte ',' :: decimal token.toInt) ++
    ascii "],\"text\":\"" ++ jsonEscape t.text ++ ascii "\"\x7d\n"

/-- What was written, and `offset`. -/
structure Files where
  bin : Bytes := []
  jsonl : Bytes := []
  offset : ℕ := 0

/-- Write a traced request; a division by zero has no result. -/
def Files.write (files : Files) (perToken : ℕ) (t : Traced) : Option Files :=
  if perToken = 0 then none
  else some
    { bin := files.bin ++ t.bytes
      jsonl := files.jsonl ++ t.row (t.bytes.length / perToken) files.offset
      offset := files.offset + t.bytes.length }

/-- The path of the model and what llama.cpp says of it. -/
structure Model where
  path : Bytes
  desc : Bytes

/-- The text of the `meta.json` file. -/
def Model.info (m : Model) (nExpert k : ℕ) (moeLayers : List ℤ) : Bytes :=
  ascii "\x7b\"model\":\"" ++ jsonEscape m.path ++ ascii "\",\"desc\":\"" ++ jsonEscape m.desc ++
    ascii "\",\"n_expert\":" ++ natText nExpert ++ ascii ",\"k\":" ++ natText k ++
      ascii ",\"moe_layers\":[" ++
    separated (moeLayers.map decimal) ++
    ascii "],\"dtype\":\"uint8\",\"layout\":\"[n_routed][n_moe_layers][k]\"\x7d\n"

/-- The files of a run. -/
structure Output where
  info : Bytes
  bin : Bytes
  jsonl : Bytes

variable {σ : Type} (e : Engine σ)

end Files

end RadixForge.MoeStudy
