import Mathlib.Data.List.Basic
import RadixForge.Json.Value

/-!
# Texts of the API

The functions of `openai_api` that write: escaped strings, numbers as `std::to_string` prints them,
the two objects of statistics, and the error object; and the length of the part of a text that ends
between two characters.
-/

namespace RadixForge

open Library

variable {D : Type}

/-- `%04x` of a byte. -/
def hexText (c : UInt8) : Bytes :=
  let digit (n : ℕ) : UInt8 := (Nat.digitChar n).toUInt8
  [byte '0', byte '0', digit (c.toNat / 16), digit (c.toNat % 16)]

/-- The switch of `json_escape`. -/
def escapeByte (c : UInt8) : Bytes :=
  if c = quote then [backslash, quote]
  else if c = backslash then [backslash, backslash]
  else if c = 0x0A then [backslash, byte 'n']
  else if c = 0x0D then [backslash, byte 'r']
  else if c = 0x09 then [backslash, byte 't']
  else if c < 0x20 then backslash :: byte 'u' :: hexText c
  else [c]

/-- `json_escape`. -/
def jsonEscape (value : Bytes) : Bytes := value.flatMap escapeByte

/-- The decimal digits of a natural number. -/
def natText (n : ℕ) : Bytes := (Nat.toDigits 10 n).map Char.toUInt8

/-- `std::to_string` of an `int32_t`. -/
def intText (n : Int32) : Bytes :=
  if n.toInt < 0 then byte '-' :: natText n.toInt.natAbs else natText n.toInt.natAbs

/-- `std::to_string` of a `double`. -/
def doubleText (floats : Floats D) (d : D) : Bytes :=
  let sign := if floats.signbit d then [byte '-'] else []
  if floats.isFinite d then
    sign ++ (natText (floats.millionths d / 1000000) ++
      byte '.' :: (natText (floats.millionths d % 1000000)).leftpad 6 (byte '0'))
  else sign ++ ascii (if floats.isNan d then "nan" else "inf")

/-- `InferenceStats` with its durations. -/
structure Statistics (D : Type) where
  promptN : Int32
  cacheN : Int32
  promptTokens : Int32
  predictedN : Int32
  promptMs : D
  predictedMs : D

/-- `timings_json`. -/
def timingsJson (floats : Floats D) (stats : Statistics D) : Bytes :=
  ascii "\x7b\"prompt_n\":" ++
    (intText stats.promptN ++ (ascii ",\"cache_n\":" ++ (intText stats.cacheN ++
    (ascii ",\"prompt_ms\":" ++ (doubleText floats stats.promptMs ++ (ascii ",\"predicted_n\":" ++
      (intText stats.predictedN ++
        (ascii ",\"predicted_ms\":" ++ (doubleText floats stats.predictedMs ++ ascii "\x7d")))))))))

/-- `usage_json`. -/
def usageJson (stats : Statistics D) : Bytes :=
  ascii "\x7b\"prompt_tokens\":" ++
    (intText stats.promptTokens ++ (ascii ",\"completion_tokens\":" ++
    (intText stats.predictedN ++ (ascii ",\"total_tokens\":" ++
      (intText (stats.promptTokens + stats.predictedN) ++ ascii "\x7d")))))

/-- `error_json`. -/
def errorJson (message type : Bytes) : Bytes :=
  ascii "\x7b\"error\":\x7b\"message\":\"" ++
    (jsonEscape message ++ (ascii "\",\"type\":\"" ++ (type ++ ascii "\"\x7d\x7d")))

/-- `completion_json`. -/
def completionJson (floats : Floats D) (content : Bytes) (stats : Statistics D) (isChat : Bool) :
    Bytes :=
  if isChat then
    ascii
      "\x7b\"object\":\"chat.completion\",\"choices\":[\x7b\"message\":\x7b\"role\":\"assistant\",\"content\":\"" ++
      (jsonEscape content ++ (ascii "\"\x7d,\"finish_reason\":\"stop\"\x7d],\"timings\":" ++
        (timingsJson floats stats ++
        (ascii ",\"usage\":" ++ (usageJson stats ++ ascii "\x7d")))))
  else
    ascii "\x7b\"object\":\"text_completion\",\"choices\":[\x7b\"text\":\"" ++
      (jsonEscape content ++
      (ascii "\",\"finish_reason\":\"stop\"\x7d],\"timings\":" ++ (timingsJson floats stats ++
        (ascii ",\"usage\":" ++ (usageJson stats ++ ascii "\x7d")))))

/-- A byte of a character after its first one. -/
def isContinuation (c : UInt8) : Bool := c &&& 0xC0 = 0x80

/-- How many bytes the character has that starts with a byte. -/
def expectedLength (lead : UInt8) : ℕ :=
  if 0xF0 ≤ lead && lead ≤ 0xF4 then 4
  else if 0xE0 ≤ lead && lead ≤ 0xEF then 3
  else if 0xC2 ≤ lead && lead ≤ 0xDF then 2
  else 1

/-- `complete_utf8_prefix_length`. -/
def completeUtf8PrefixLength (text : Bytes) : ℕ :=
  -- the loop over the last three bytes
  let continuations := (text.reverse.take 3).takeWhile isContinuation
  match text.reverse.drop continuations.length with
  | [] => text.length
  | lead :: before =>
    if continuations.length + 1 < expectedLength lead then before.length else text.length

end RadixForge
