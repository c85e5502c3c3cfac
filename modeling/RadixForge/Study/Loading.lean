import RadixForge.Http.Boundaries
import RadixForge.Json.Parser
import RadixForge.Study.ExpertCache
import RadixForge.Study.Trace

/-!
# Loading a trace

`load` of `scripts/moe_study/analyze.py` reads the three files of `moe_trace`. What Python raises
has no result here: for a text that is no UTF-8, for a line that is no JSON, for a missing member,
for an integer that `int64` does not have, and for a part of the trace that has another size than
its shape.

The sizes and the strings of the files have one type each. The tool writes them with these types,
and members of other types, which Python would take over, have no result.
-/

namespace RadixForge.MoeStudy

open Library

section Texts

/-- The strict decoder of UTF-8. -/
def decodeUtf8 (bytes : Bytes) :
    Option (List Char) := bytes.toByteArray.utf8Decode?.map Array.toList

/-- A text file is read with one kind of line ends. -/
def universalNewlines : List Char → List Char
  | [] => []
  | '\r' :: '\n' :: rest => '\n' :: universalNewlines rest
  | c :: rest => (if c = '\r' then '\n' else c) :: universalNewlines rest

/-- `read_text`. -/
def readText (bytes : Bytes) : Option (List Char) := (decodeUtf8 bytes).map universalNewlines

/-- The characters that end a line for `splitlines`. -/
def endsLine (c : Char) : Bool :=
  c ∈ ['\n', '\r', '\x0b', '\x0c', '\x1c', '\x1d', '\x1e', '\u0085', '\u2028', '\u2029']

/-- `splitlines` with what it has of a line. -/
def splitlinesFrom (line : List Char) : List Char → List (List Char)
  | [] => if line = [] then [] else [line]
  | '\r' :: '\n' :: rest => line :: splitlinesFrom [] rest
  | c :: rest => if endsLine c then line :: splitlinesFrom [] rest
    else splitlinesFrom (line ++ [c]) rest

/-- `splitlines`. -/
def splitlines (text : List Char) : List (List Char) := splitlinesFrom [] text

end Texts

section Json

/-- Numbers as they are written. -/
def literals : Floats Bytes where
  stod := some
  isFinite _ := true
  isNan _ := false
  signbit _ := false
  millionths _ := 0

/-- `json.loads`: a document of RFC 8259, however deep it is. What Python takes beyond it (`NaN` and
infinities, halves of surrogate pairs) and a key that occurs twice, whose last value it keeps, are
in no file of the tool. -/
def loads (text : List Char) : Option (JsonValue Bytes) :=
  match parseValue literals ((encode text).length + 1) (encode text) with
  | .returned (value, rest) => if skipWs rest = [] then some value else none
  | _ => none

/-- The `int` of a number without fraction and exponent. -/
def integer? (literal : Bytes) : Option ℤ :=
  let digits := skipMinus literal
  let magnitude := digits.foldl (fun (n : ℤ) c => 10 * n + ((c.toNat : ℤ) - 48)) 0
  if digits.all isDigit then some (if literal.head? = some (byte '-') then -magnitude
    else magnitude) else none

/-- A member. -/
def member? (v : JsonValue Bytes) (key : String) : Option (JsonValue Bytes) :=
  if v.contains (ascii key) then some (v.field (ascii key)) else none

/-- An integer. -/
def int? : JsonValue Bytes → Option ℤ
  | .number literal => integer? literal
  | _ => none

/-- A member that is a size. -/
def size? (v : JsonValue Bytes) (key : String) : Option ℕ :=
  ((member? v key).bind int?).bind fun n => if n < 0 then none else some n.toNat

/-- A member that is a string. -/
def string? (v : JsonValue Bytes) (key : String) : Option Bytes :=
  (member? v key).bind fun
    | .string text => some text
    | _ => none

/-- A member that is a list. -/
def items? (v : JsonValue Bytes) (key : String) : Option (List (JsonValue Bytes)) :=
  (member? v key).bind fun
    | .array items => some items
    | _ => none

/-- `np.asarray` with `int64`. -/
def int64s (items : List (JsonValue Bytes)) : Option (List ℤ) :=
  items.mapM fun item => (int? item).bind fun n => if -2 ^ 63 ≤ n ∧ n < 2 ^ 63 then some n else none

end Json

section Loading

variable {L k : ℕ}

/-- `Req`. -/
structure Loaded (L k : ℕ) extends Req L k where
  id : Bytes
  family : Bytes
  agent : Bytes
  tokens : List ℤ

/-- `reshape` to tokens, layers and experts; it throws if the size is another one. -/
def reshape (L k n : ℕ) (raw : Bytes) : Option (List (Routing L k)) :=
  if raw.length = n * L * k then
    some ((List.range n).map fun t layer place => (raw.getD ((t * L + layer) * k + place) 0).toNat)
  else none

/-- A row of the file with its part of the trace. -/
def loadRow (L k : ℕ) (raw : Bytes) (row : JsonValue Bytes) : Option (Loaded L k) :=
  (size? row "offset").bind fun start =>
    (size? row "n_routed").bind fun nRouted =>
      (reshape L k nRouted ((raw.drop start).take (nRouted * L * k))).bind fun routes =>
        (string? row "id").bind fun id =>
          (string? row "family").bind fun family =>
            (string? row "agent").bind fun agent =>
              ((items? row "tokens").bind int64s).bind fun tokens =>
                (size? row "n_prompt").map fun nPrompt =>
                  { id := id
                    family := family
                    agent := agent
                    tokens := tokens
                    nPrompt := nPrompt
                    routes := routes }

/-- What `load` returns, with the numbers that give the trace its shape. -/
structure Study where
  info : JsonValue Bytes
  layers : ℕ
  k : ℕ
  reqs : List (Loaded layers k)

/-- The rows of the file. -/
def loadRows (L k : ℕ) (raw : Bytes) (text : List Char) : Option (List (Loaded L k)) :=
  (splitlines text).mapM fun line => (loads line).bind (loadRow L k raw)

/-- `load`. -/
def load (out : Output) : Option Study :=
  ((readText out.info).bind loads).bind fun info =>
    (items? info "moe_layers").bind fun moeLayers =>
      (size? info "k").bind fun k =>
        (readText out.jsonl).bind fun text =>
          (loadRows moeLayers.length k out.bin text).map fun reqs =>
            { info := info
              layers := moeLayers.length
              k := k
              reqs := reqs }

end Loading

end RadixForge.MoeStudy
