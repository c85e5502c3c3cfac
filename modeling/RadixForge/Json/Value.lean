import RadixForge.Library.OrderedMap

/-!
# JSON values

Texts are lists of bytes. The numbers are a parameter: what `std::stod` makes of a text, which of
its results are finite, and what `std::to_string` prints of them. An object is the map of its
members, in the order of `std::map`.
-/

namespace RadixForge

open Library

/-- A string of the program. -/
abbrev Bytes := List UInt8

/-- The bytes of a text of the source. -/
def ascii (text : String) : Bytes := text.toList.map Char.toUInt8

/-- The byte of a character of the source. -/
abbrev byte (c : Char) : UInt8 := c.toUInt8

/-- The quotation mark. -/
abbrev quote : UInt8 := 0x22

/-- The reverse solidus. -/
abbrev backslash : UInt8 := 0x5C

/-- The left curly bracket. -/
abbrev openBrace : UInt8 := 0x7B

/-- The right curly bracket. -/
abbrev closeBrace : UInt8 := 0x7D

/-- The left square bracket. -/
abbrev openBracket : UInt8 := 0x5B

/-- The right square bracket. -/
abbrev closeBracket : UInt8 := 0x5D

/-- What the program uses of the floating-point numbers: how a text is read, and what is printed of
a number, which is its sign and its magnitude in millionths. -/
structure Floats (D : Type) where
  stod : Bytes → Option D
  isFinite : D → Bool
  isNan : D → Bool
  signbit : D → Bool
  millionths : D → ℕ

/-- A JSON value. -/
inductive JsonValue (D : Type) where
  | null
  | bool (value : Bool)
  | number (value : D)
  | string (value : Bytes)
  | array (items : List (JsonValue D))
  | object (entries : List (Bytes × JsonValue D))

namespace JsonValue

variable {D : Type}

/-- `operator[]` with a key: the entry of the key, or null. -/
def field (v : JsonValue D) (key : Bytes) : JsonValue D :=
  match v with
  | .object entries => (lookup key entries).getD .null
  | _ => .null

/-- `contains`. -/
def contains (v : JsonValue D) (key : Bytes) : Bool :=
  match v with
  | .object entries => (lookup key entries).isSome
  | _ => false

/-- `operator[]` with an index; out of range it throws. -/
def item? (v : JsonValue D) (index : ℕ) : Option (JsonValue D) :=
  match v with
  | .array items => items[index]?
  | _ => none

/-- The string of a value, empty if it is none. -/
def asString (v : JsonValue D) : Bytes :=
  match v with
  | .string value => value
  | _ => []

end JsonValue

end RadixForge
