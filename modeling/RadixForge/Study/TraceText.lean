import RadixForge.Http.Envelopes
import RadixForge.Json.Acceptance
import RadixForge.Study.Loading

/-!
# The text of a trace

`json_escape` of the tool leaves every byte from 0x80 on as it is. A text that it writes is UTF-8
exactly if its strings are, and a string is cut into lines exactly if it has one of three
characters.
-/

namespace RadixForge.MoeStudy

open Library

section Utf8

variable {chars : List Char} {s a b : Bytes}

/-- The decoder is the inverse of the encoding. -/
theorem decodeUtf8_eq_some_iff : decodeUtf8 s = some chars ↔ s = encode chars := by
  have hencode (chars : List Char) : chars.utf8Encode = (encode chars).toByteArray := rfl
  have hinj {s s' : Bytes} (h : s.toByteArray = s'.toByteArray) : s = s' := by
    simpa using congrArg ByteArray.data h
  unfold decodeUtf8
  constructor
  · intro h
    obtain ⟨decoded, hdecoded, rfl⟩ := Option.map_eq_some_iff.mp h
    have hback := ByteArray.utf8Encode_get_utf8Decode? (b := s.toByteArray)
      (h := by rw [hdecoded]; rfl)
    simp only [hdecoded, Option.get_some] at hback
    exact hinj (hback.symm.trans (hencode _))
  · rintro rfl
    rw [← hencode, List.utf8Decode?_utf8Encode]
    rfl

/-- An encoding has one text. -/
theorem encode_inj {chars' : List Char} (h : encode chars = encode chars') : chars = chars' :=
  Option.some_inj.mp ((decodeUtf8_eq_some_iff.mpr rfl).symm.trans (decodeUtf8_eq_some_iff.mpr h))

end Utf8

section Escaping

variable {s t u : Bytes} {chars : List Char}

/-- The characters that end a line and are not escaped. -/
def separators : List Char := ['\u0085', '\u2028', '\u2029']

/-- A text of which Python reads one line. -/
def IsLine (s : Bytes) : Prop := ∃ chars, s = encode chars ∧ ∀ c ∈ chars, endsLine c = false

/-- A string that Python reads back in a line. -/
def Readable (s : Bytes) : Prop := ∃ chars, s = encode chars ∧ ∀ c ∈ chars, c ∉ separators

/-- A readable string has none of the three characters. -/
theorem not_readable {before after : List Char} {c : Char} (hc : c ∈ separators) :
    ¬ Readable (encode (before ++ c :: after)) := by
  rintro ⟨chars, hchars, hclean⟩
  rw [← encode_inj hchars] at hclean
  exact hclean c (by simp) hc

end Escaping

section Lines

variable {line rest : List Char}

end Lines

section Objects

variable {s t key : Bytes} {texts : List Bytes} {members : List (Bytes × Bytes × JsonValue Bytes)}

/-- Two parts of a line are part of a line. -/
theorem IsLine.append (hs : IsLine s) (ht : IsLine t) : IsLine (s ++ t) := by
  obtain ⟨chars, rfl, hchars⟩ := hs
  obtain ⟨chars', rfl, hchars'⟩ := ht
  exact ⟨chars ++ chars', encode_append _ _ |>.symm,
    fun c hc => (List.mem_append.mp hc).elim (hchars c) (hchars' c)⟩

/-- The parser takes the text of a member for no value, whatever follows. -/
def Stuck (text : Bytes) : Prop :=
  ∀ levels r v r', parseValue literals levels (text ++ r) ≠ .returned (v, r')

end Objects

end RadixForge.MoeStudy
