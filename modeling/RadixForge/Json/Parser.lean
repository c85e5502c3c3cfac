import RadixForge.Json.Value
import RadixForge.Library.Parsing

/-!
# The JSON parser

`json::Parser`, function by function. `pos_` is modelled by the rest of the input after it. A
`while` loop is its body with as many rounds as there are bytes left, and one more. `parse_value`
counts `depth` up to `kMaxDepth`; the model counts the levels that remain down to zero, which bounds
the recursion.
-/

namespace RadixForge

open Library

variable {D : Type}

/-- `kMaxDepth`. -/
def maxDepth : ℕ := 64

/-- The bytes that `skip_ws` skips. -/
def isSpace (c : UInt8) : Bool := c = byte ' ' || c = byte '\t' || c = byte '\n' || c = byte '\r'

/-- A decimal digit. -/
def isDigit (c : UInt8) : Bool := byte '0' ≤ c && c ≤ byte '9'

/-- `skip_ws`. -/
def skipWs (s : Bytes) : Bytes := s.dropWhile isSpace

/-- `expect`. -/
def expect (c : UInt8) (s : Bytes) : Outcome Bytes :=
  match skipWs s with
  | [] => .thrown "unexpected JSON token"
  | x :: s => if x = c then .returned s else .thrown "unexpected JSON token"

/-- `hex_value`; none is its -1. -/
def hexValue (c : UInt8) : Option ℕ :=
  if byte '0' ≤ c && c ≤ byte '9' then some (c.toNat - (byte '0').toNat)
  else if byte 'a' ≤ c && c ≤ byte 'f' then some (c.toNat - (byte 'a').toNat + 10)
  else if byte 'A' ≤ c && c ≤ byte 'F' then some (c.toNat - (byte 'A').toNat + 10)
  else none

/-- The number that hexadecimal digits stand for. -/
def hexNumber (digits : Bytes) : Option ℕ :=
  digits.foldlM (fun unit c => (hexValue c).map fun value => unit * 16 + value) 0

/-- `parse_unicode_code_unit`. -/
def parseUnicodeCodeUnit (s : Bytes) : Outcome (ℕ × Bytes) :=
  if s.length < 4 then .thrown "truncated JSON Unicode escape"
  else
    match hexNumber (s.take 4) with
    | none => .thrown "invalid JSON Unicode escape"
    | some unit => .returned (unit, s.drop 4)

/-- `append_utf8`. -/
def appendUtf8 (codePoint : ℕ) : Bytes :=
  if codePoint ≤ 0x7F then [UInt8.ofNat codePoint]
  else if codePoint ≤ 0x7FF then
    [UInt8.ofNat (0xC0 ||| codePoint >>> 6), UInt8.ofNat (0x80 ||| (codePoint &&& 0x3F))]
  else if codePoint ≤ 0xFFFF then
    [UInt8.ofNat (0xE0 ||| codePoint >>> 12), UInt8.ofNat (0x80 ||| (codePoint >>> 6 &&& 0x3F)),
      UInt8.ofNat (0x80 ||| (codePoint &&& 0x3F))]
  else
    [UInt8.ofNat (0xF0 ||| codePoint >>> 18), UInt8.ofNat (0x80 ||| (codePoint >>> 12 &&& 0x3F)),
      UInt8.ofNat (0x80 ||| (codePoint >>> 6 &&& 0x3F)),
      UInt8.ofNat (0x80 ||| (codePoint &&& 0x3F))]

/-- The second half of a surrogate pair, after its first half. -/
def parseLowSurrogate (high : ℕ) (s : Bytes) : Outcome (Bytes × Bytes) :=
  match s with
  | x :: y :: s =>
    if x = backslash ∧ y = byte 'u' then
      (parseUnicodeCodeUnit s).andThen fun (low, s) =>
        if low < 0xDC00 ∨ 0xDFFF < low then .thrown "invalid low surrogate in JSON string"
        else .returned (appendUtf8 (0x10000 + (high - 0xD800) <<< 10 + (low - 0xDC00)), s)
    else .thrown "unpaired high surrogate in JSON string"
  | _ => .thrown "unpaired high surrogate in JSON string"

/-- `append_unicode_escape`: the bytes to append, and the rest. -/
def appendUnicodeEscape (s : Bytes) : Outcome (Bytes × Bytes) :=
  (parseUnicodeCodeUnit s).andThen fun (unit, s) =>
    if 0xD800 ≤ unit ∧ unit ≤ 0xDBFF then parseLowSurrogate unit s
    else if 0xDC00 ≤ unit ∧ unit ≤ 0xDFFF then .thrown "unpaired low surrogate in JSON string"
    else .returned (appendUtf8 unit, s)

/-- The escapes of one byte. -/
def simpleEscape (c : UInt8) : Option UInt8 :=
  if c = quote then some quote
  else if c = backslash then some backslash
  else if c = byte '/' then some (byte '/')
  else if c = byte 'b' then some 0x08
  else if c = byte 'f' then some 0x0C
  else if c = byte 'n' then some 0x0A
  else if c = byte 'r' then some 0x0D
  else if c = byte 't' then some 0x09
  else none

/-- What follows a reverse solidus: the bytes to append, and the rest. -/
def parseEscape (s : Bytes) : Outcome (Bytes × Bytes) :=
  match s with
  | [] => .thrown "unterminated JSON escape sequence"
  | c :: s =>
    match simpleEscape c with
    | some e => .returned ([e], s)
    | none => if c = byte 'u' then appendUnicodeEscape s else .thrown "invalid JSON escape sequence"

/-- One round of the loop of `parse_string`. -/
def stringRound (result : Bytes) (s : Bytes) : Outcome ((Bytes ⊕ Bytes) × Bytes) :=
  match s with
  | [] => .thrown "unterminated JSON string"
  | c :: s =>
    if c = quote then .returned (.inr result, s)
    else if c < 0x20 then .thrown "unescaped control character in JSON string"
    else if c ≠ backslash then .returned (.inl (result ++ [c]), s)
    else (parseEscape s).andThen fun (e, s) => .returned (.inl (result ++ e), s)

/-- `parse_string`. -/
def parseString (s : Bytes) : Outcome (Bytes × Bytes) :=
  (expect quote s).andThen fun s => loop stringRound (s.length + 1) [] s

/-- The integer part of a number. -/
def scanInteger (s : Bytes) : Outcome Bytes :=
  match s with
  | [] => .thrown "invalid JSON number"
  | c :: s =>
    if c = byte '0' then
      if s.head?.any isDigit then .thrown "leading zero in JSON number" else .returned s
    else if byte '1' ≤ c && c ≤ byte '9' then .returned (s.dropWhile isDigit)
    else .thrown "invalid JSON number"

/-- At least one digit. -/
def scanDigits (message : String) (s : Bytes) : Outcome Bytes :=
  if s.head?.any isDigit then .returned (s.dropWhile isDigit) else .thrown message

/-- The fraction of a number, if there is one. -/
def scanFraction (s : Bytes) : Outcome Bytes :=
  match s with
  | [] => .returned []
  | c :: t => if c = byte '.' then scanDigits "invalid JSON number fraction" t else .returned s

/-- A sign, if there is one. -/
def skipSign (s : Bytes) : Bytes :=
  match s with
  | [] => []
  | c :: t => if c = byte '+' ∨ c = byte '-' then t else s

/-- The exponent of a number, if there is one. -/
def scanExponent (s : Bytes) : Outcome Bytes :=
  match s with
  | [] => .returned []
  | c :: t =>
    if c = byte 'e' ∨ c = byte 'E' then scanDigits "invalid JSON number exponent" (skipSign t)
      else .returned s

/-- A minus sign, if there is one. -/
def skipMinus (s : Bytes) : Bytes :=
  match s with
  | [] => []
  | c :: t => if c = byte '-' then t else s

/-- The text of a number. -/
def scanNumber (s : Bytes) : Outcome Bytes :=
  (scanInteger (skipMinus s)).andThen fun s => (scanFraction s).andThen scanExponent

/-- `parse_number`. An exception of `std::stod` goes on to the caller. -/
def parseNumber (floats : Floats D) (s : Bytes) : Outcome (JsonValue D × Bytes) :=
  (scanNumber s).andThen fun rest =>
    match floats.stod (s.take (s.length - rest.length)) with
    | none => .thrown "stod"
    | some value => if floats.isFinite value then .returned (.number value, rest)
      else .thrown "non-finite JSON number"

/-- `parse_bool`. -/
def parseBool (s : Bytes) : Outcome (JsonValue D × Bytes) :=
  if ascii "true" <+: s then .returned (.bool true, s.drop 4)
  else if ascii "false" <+: s then .returned (.bool false, s.drop 5)
  else .thrown "invalid JSON literal"

/-- `parse_null`. -/
def parseNull (s : Bytes) : Outcome (JsonValue D × Bytes) :=
  if ascii "null" <+: s then .returned (.null, s.drop 4) else .thrown "invalid JSON literal"

section Containers

variable {α σ : Type}

/-- What the parsers of arrays and of objects differ in: the brackets, how an element is parsed and
added to those before it, the value they make, and the messages. -/
structure Container (D α σ : Type) where
  first : UInt8
  last : UInt8
  element : Bytes → Outcome (α × Bytes)
  add : σ → α → σ
  make : σ → JsonValue D
  unterminated : String
  expected : String

/-- One round of the loops of `parse_array` and `parse_object`. -/
def containerRound (p : Container D α σ) (state : σ) (s : Bytes) :
    Outcome ((σ ⊕ JsonValue D) × Bytes) :=
  (p.element s).andThen fun (a, s) =>
    match skipWs s with
    | [] => .thrown p.unterminated
    | c :: s =>
      if c = p.last then .returned (.inr (p.make (p.add state a)), s)
      else if c = byte ',' then .returned (.inl (p.add state a), s)
      else .thrown p.expected

/-- The common part of `parse_array` and `parse_object`. -/
def parseContainer (p : Container D α σ) (start : σ) (s : Bytes) : Outcome (JsonValue D × Bytes) :=
  (expect p.first s).andThen fun s =>
    match skipWs s with
    | [] => loop (containerRound p) 1 start []
    | c :: rest =>
      if c = p.last then .returned (p.make start, rest)
        else loop (containerRound p) (rest.length + 2) start (c :: rest)

/-- The array of its items, with their parser. -/
def arrayContainer (value : Bytes → Outcome (JsonValue D × Bytes)) :
    Container D (JsonValue D) (List (JsonValue D)) where
  first := openBracket
  last := closeBracket
  element := value
  add items v := items ++ [v]
  make := .array
  unterminated := "unterminated JSON array"
  expected := "expected ',' or ']' in JSON array"

/-- `parse_array`, with the parser of its items. -/
def parseArray (value : Bytes → Outcome (JsonValue D × Bytes)) (s : Bytes) :
    Outcome (JsonValue D × Bytes) :=
  parseContainer (arrayContainer value) [] s

/-- A member of an object: its key and its value. -/
def parseMember (value : Bytes → Outcome (JsonValue D × Bytes)) (s : Bytes) :
    Outcome ((Bytes × JsonValue D) × Bytes) :=
  match skipWs s with
  | [] => .thrown "expected JSON object key"
  | c :: rest =>
    if c ≠ quote then .thrown "expected JSON object key"
    else
      (parseString (c :: rest)).andThen fun (key, s) =>
        (expect (byte ':') s).andThen fun s =>
          (value s).andThen fun (v, s) => .returned ((key, v), s)

/-- The object of its members, with the parser of their values. -/
def objectContainer (value : Bytes → Outcome (JsonValue D × Bytes)) :
    Container D (Bytes × JsonValue D) (List (Bytes × JsonValue D)) where
  first := openBrace
  last := closeBrace
  element := parseMember value
  add entries member := emplace member.1 member.2 entries
  make := .object
  unterminated := "unterminated JSON object"
  expected := "expected ',' or '\x7d' in JSON object"

/-- `parse_object`, with the parser of its values. -/
def parseObject (value : Bytes → Outcome (JsonValue D × Bytes)) (s : Bytes) :
    Outcome (JsonValue D × Bytes) :=
  parseContainer (objectContainer value) [] s

end Containers

/-- `parse_value` with `depth` at `maxDepth + 1 - levels`. -/
def parseValue (floats : Floats D) : ℕ → Bytes → Outcome (JsonValue D × Bytes)
  | 0, _ => .thrown "JSON nesting limit exceeded"
  | levels + 1, s =>
    match skipWs s with
    | [] => .thrown "unexpected end of JSON input"
    | c :: rest =>
      if c = quote then (parseString (c :: rest)).andThen fun (text, s) =>
        .returned (.string text, s)
      else if c = openBrace then parseObject (parseValue floats levels) (c :: rest)
      else if c = openBracket then parseArray (parseValue floats levels) (c :: rest)
      else if c = byte 't' ∨ c = byte 'f' then parseBool (c :: rest)
      else if c = byte 'n' then parseNull (c :: rest)
      else if c = byte '-' ∨ isDigit c then parseNumber floats (c :: rest)
      else .thrown "invalid JSON value"

/-- `json::parse`. -/
def parse (floats : Floats D) (input : Bytes) : Outcome (JsonValue D) :=
  (parseValue floats (maxDepth + 1) input).andThen fun (v, s) =>
    if skipWs s = [] then .returned v else .thrown "unexpected trailing JSON data"

end RadixForge
