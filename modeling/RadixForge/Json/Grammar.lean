import RadixForge.Json.Parser

/-!
# The grammar of JSON

The documents of RFC 8259 read over bytes, each with the value it denotes. A string denotes its
bytes with every escape replaced by the UTF-8 encoding of its code point; an object denotes the map
of the first occurrences of its keys; a number denotes what `std::stod` makes of its text, which has
to be finite. `Value n` holds of values whose containers are nested at most `n` deep.
-/

namespace RadixForge

open Library

variable {D : Type}

/-- Any amount of white space. -/
def IsWs (s : Bytes) : Prop := ∀ c ∈ s, isSpace c = true

/-- One or more digits. -/
def Digits (s : Bytes) : Prop := s ≠ [] ∧ ∀ c ∈ s, isDigit c = true

/-- Zero, or digits of which the first is not zero. -/
def IntegerText (s : Bytes) : Prop := s = [byte '0'] ∨ Digits s ∧ s.head? ≠ some (byte '0')

/-- A point and digits, or nothing. -/
def FractionText (s : Bytes) : Prop := s = [] ∨ ∃ digits, Digits digits ∧ s = byte '.' :: digits

/-- A letter, perhaps a sign, and digits, or nothing. -/
def ExponentText (s : Bytes) : Prop :=
  s = [] ∨ ∃ letter sign digits, (letter = byte 'e' ∨ letter = byte 'E') ∧
    (sign = [] ∨ sign = [byte '+'] ∨ sign = [byte '-']) ∧ Digits digits ∧
    s = letter :: (sign ++ digits)

/-- The text of a number. -/
def NumberText (s : Bytes) : Prop :=
  ∃ minus integer fraction exponent, (minus = [] ∨ minus = [byte '-']) ∧ IntegerText integer ∧
    FractionText fraction ∧ ExponentText exponent ∧ s = minus ++ (integer ++ (fraction ++ exponent))

/-- Four hexadecimal digits and the code unit they stand for. -/
def CodeUnit (s : Bytes) (unit : ℕ) : Prop := s.length = 4 ∧ hexNumber s = some unit

/-- The escapes of one byte, each with the byte it stands for. -/
def escapes : List (UInt8 × UInt8) :=
  [(quote, quote), (backslash, backslash), (byte '/', byte '/'), (byte 'b', 0x08),
    (byte 'f', 0x0C), (byte 'n', 0x0A), (byte 'r', 0x0D), (byte 't', 0x09)]

/-- The UTF-8 encoding of a code point. -/
def utf8 (codePoint : ℕ) : Bytes := String.utf8EncodeChar (Char.ofNat codePoint)

/-- The inside of a string and the bytes it denotes. -/
inductive Chars : Bytes → Bytes → Prop where
  | nil : Chars [] []
  | raw (c : UInt8) {s v : Bytes} : 0x20 ≤ c → c ≠ quote → c ≠ backslash → Chars s v →
      Chars (c :: s) (c :: v)
  | escape {c e : UInt8} {s v : Bytes} : (c, e) ∈ escapes → Chars s v →
      Chars (backslash :: c :: s) (e :: v)
  | unicode {h s v : Bytes} {unit : ℕ} : CodeUnit h unit →
      (unit < 0xD800 ∨ 0xDFFF < unit) → Chars s v →
      Chars (backslash :: byte 'u' :: (h ++ s)) (utf8 unit ++ v)
  | pair {h l s v : Bytes} {high low : ℕ} : CodeUnit h high → 0xD800 ≤ high → high ≤ 0xDBFF →
      CodeUnit l low → 0xDC00 ≤ low → low ≤ 0xDFFF → Chars s v →
      Chars (backslash :: byte 'u' :: (h ++ backslash :: byte 'u' :: (l ++ s)))
        (utf8 (0x10000 + (high - 0xD800) * 0x400 + (low - 0xDC00)) ++ v)

/-- A value in its text, with the white space around it. -/
structure Item (D : Type) where
  before : Bytes
  text : Bytes
  after : Bytes
  value : JsonValue D

/-- The bytes of an item. -/
def Item.full (item : Item D) : Bytes := item.before ++ (item.text ++ item.after)

/-- The white space of an item is white space. -/
def Item.Spaced (item : Item D) : Prop := IsWs item.before ∧ IsWs item.after

/-- A member of an object: its key in its text, with the white space around it, and its value. -/
structure Member (D : Type) where
  before : Bytes
  keyText : Bytes
  key : Bytes
  after : Bytes
  item : Item D

/-- The bytes of a member. -/
def Member.full (member : Member D) : Bytes :=
  member.before ++
    (quote :: (member.keyText ++ quote :: (member.after ++ byte ':' :: member.item.full)))

/-- The white space of a member is white space, and its key denotes what it says. -/
def Member.Spaced (member : Member D) : Prop :=
  IsWs member.before ∧ Chars member.keyText member.key ∧ IsWs member.after ∧ member.item.Spaced

/-- The key and the value of a member. -/
def Member.entry (member : Member D) : Bytes × JsonValue D := (member.key, member.item.value)

/-- Texts separated by commas. -/
def separated : List Bytes → Bytes
  | [] => []
  | [s] => s
  | s :: t :: rest => s ++ byte ',' :: separated (t :: rest)

/-- The map of the first occurrences of the keys of a list of members. -/
def IsMapOf (entries members : List (Bytes × JsonValue D)) : Prop :=
  SortedKeys entries ∧ ∀ key, lookup key entries = lookup key members

/-- A value, whose containers are nested at most so deep, in its text. -/
inductive Value (floats : Floats D) : ℕ → Bytes → JsonValue D → Prop where
  | null (n : ℕ) : Value floats n (ascii "null") .null
  | true (n : ℕ) : Value floats n (ascii "true") (.bool true)
  | false (n : ℕ) : Value floats n (ascii "false") (.bool false)
  | number (n : ℕ) {s : Bytes} {value : D} : NumberText s → floats.stod s = some value →
      floats.isFinite value = true →
      Value floats n s (.number value)
  | string (n : ℕ) {s v : Bytes} : Chars s v → Value floats n (quote :: (s ++ [quote])) (.string v)
  | noItems (n : ℕ) {space : Bytes} :
      IsWs space → Value floats (n + 1) (openBracket :: (space ++ [closeBracket])) (.array [])
  | items (n : ℕ) (items : List (Item D)) : items ≠ [] → (∀ item ∈ items, item.Spaced) →
      (∀ item ∈ items, Value floats n item.text item.value) →
      Value floats (n + 1) (openBracket :: (separated (items.map Item.full) ++ [closeBracket]))
        (.array (items.map Item.value))
  | noMembers (n : ℕ) {space : Bytes} :
      IsWs space → Value floats (n + 1) (openBrace :: (space ++ [closeBrace])) (.object [])
  | members (n : ℕ) (members : List (Member D)) {entries : List (Bytes × JsonValue D)} :
      members ≠ [] →
      (∀ member ∈ members, member.Spaced) →
      (∀ member ∈ members, Value floats n member.item.text member.item.value) →
      IsMapOf entries (members.map Member.entry) →
      Value floats (n + 1) (openBrace :: (separated (members.map Member.full) ++ [closeBrace]))
        (.object entries)

/-- A document: a value with white space around it. -/
def Document (floats : Floats D) (n : ℕ) (s : Bytes) (v : JsonValue D) : Prop :=
  ∃ item : Item D, item.Spaced ∧ item.value = v ∧ Value floats n item.text v ∧ s = item.full

end RadixForge
