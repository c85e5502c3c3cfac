import RadixForge.Http.Streaming
import RadixForge.Json.Strings

/-!
# The documents that the server writes

An escaped text denotes the text in a JSON string, the printed numbers are number texts of the
grammar, and what the server puts together from them are documents of one line.
-/

namespace RadixForge

open Library

variable {D : Type} {floats : Floats D}

section Escaped

/-- An escaped byte is one character of the grammar, which denotes the byte. -/
theorem chars_escapeByte (c : UInt8) {s v : Bytes} (h : Chars s v) :
    Chars (escapeByte c ++ s) (c :: v) := by
  have hcontrol : ∀ c : UInt8, c < 0x20 → CodeUnit (hexText c) c.toNat ∧ utf8 c.toNat = [c] ∧
      c.toNat < 0xD800 :=
    forall_byte (p := fun c => c < 0x20 →
      ((hexText c).length = 4 ∧ hexNumber (hexText c) = some c.toNat) ∧
      utf8 c.toNat = [c] ∧ c.toNat < 0xD800) (by decide +kernel)
  unfold escapeByte
  split
  · rename_i hc
    rw [hc]
    exact .escape (by decide) h
  · rename_i hquote
    split
    · rename_i hc
      rw [hc]
      exact .escape (by decide) h
    · rename_i hbackslash
      split
      · rename_i hc
        rw [hc]
        exact .escape (by decide) h
      · split
        · rename_i hc
          rw [hc]
          exact .escape (by decide) h
        · split
          · rename_i hc
            rw [hc]
            exact .escape (by decide) h
          · split
            · rename_i hlow
              obtain ⟨hunit, hutf8, hlt⟩ := hcontrol c hlow
              have hchars := Chars.unicode hunit (.inl hlt) h
              rw [hutf8] at hchars
              exact hchars
            · rename_i hlow
              exact .raw c (UInt8.not_lt.mp hlow) hquote hbackslash h

/-- An escaped text denotes the text. -/
theorem chars_jsonEscape (s : Bytes) : Chars (jsonEscape s) s := by
  induction s with
  | nil => exact .nil
  | cons c s ih => exact chars_escapeByte c ih

/-- Text on one line. -/
def OneLine (s : Bytes) : Prop := ∀ c ∈ s, 0x20 ≤ c

instance (s : Bytes) : Decidable (OneLine s) := List.decidableBAll (fun c => 0x20 ≤ c) s

/-- Two texts on one line make one line. -/
theorem OneLine.append {s t : Bytes} (hs : OneLine s) (ht : OneLine t) : OneLine (s ++ t) :=
  fun c hc => (List.mem_append.mp hc).elim (hs c) (ht c)

/-- Escaped text is on one line. -/
theorem oneLine_jsonEscape (s : Bytes) : OneLine (jsonEscape s) := by
  have hbyte : ∀ c : UInt8, OneLine (escapeByte c) := forall_byte (by decide +kernel)
  intro d hd
  obtain ⟨c, _, hc⟩ := List.mem_flatMap.mp hd
  exact hbyte c d hc

end Escaped

section Printed

/-- The digits of a natural number are digits. -/
theorem digits_natText (n : ℕ) : Digits (natText n) := by
  refine ⟨by simp [natText, Nat.toDigits_ne_nil], fun c hc => ?_⟩
  obtain ⟨d, hd, rfl⟩ := List.mem_map.mp hc
  have hdigit := Nat.isDigit_of_mem_toDigits (by decide) (by decide) hd
  simp only [Char.isDigit, Bool.and_eq_true, decide_eq_true_eq, UInt32.le_iff_toNat_le] at hdigit
  have hbyte : ∀ m < 58, 48 ≤ m → isDigit (UInt8.ofNat m) = true := by decide
  exact hbyte d.val.toNat (Nat.lt_succ_of_le hdigit.2) hdigit.1

/-- Only zero starts with the digit zero. -/
theorem head_natText {n : ℕ} (hn : n ≠ 0) : (natText n).head? ≠ some (byte '0') := by
  induction n using Nat.strongRecOn with
  | ind n ih =>
    rw [natText, Nat.toDigits_eq_if (by decide)]
    split
    · rename_i hlt
      have hdigit : ∀ m < 10, m ≠ 0 → some (Nat.digitChar m).toUInt8 ≠ some (byte '0') := by decide
      exact hdigit n hlt hn
    · have hshort := ih (n / 10) (by omega) (by omega)
      rw [natText] at hshort
      obtain ⟨c, rest, hdigits⟩ :=
        List.exists_cons_of_ne_nil (Nat.toDigits_ne_nil (n := n / 10) (b := 10))
      rw [hdigits] at hshort ⊢
      exact hshort

/-- A printed natural number is the integer part of a number. -/
theorem integerText_natText (n : ℕ) : IntegerText (natText n) := by
  by_cases hn : n = 0
  · exact .inl (by rw [hn]; rfl)
  · exact .inr ⟨digits_natText n, head_natText hn⟩

/-- A printed integer is a number. -/
theorem numberText_intText (n : Int32) : NumberText (intText n) := by
  unfold intText
  split
  · exact ⟨[byte '-'], natText n.toInt.natAbs, [], [], .inr rfl, integerText_natText _,
      .inl rfl, .inl rfl, by simp⟩
  · exact ⟨[], natText n.toInt.natAbs, [], [], .inl rfl, integerText_natText _,
      .inl rfl, .inl rfl, by simp⟩

/-- A printed finite number is a number. -/
theorem numberText_doubleText {d : D} (hd : floats.isFinite d = true) :
    NumberText (doubleText floats d) := by
  have hfraction : Digits ((natText (floats.millionths d % 1000000)).leftpad 6 (byte '0')) := by
    obtain ⟨hne, hdigits⟩ := digits_natText (floats.millionths d % 1000000)
    refine ⟨by simp [List.leftpad, hne], fun c hc => ?_⟩
    rcases List.mem_append.mp hc with hc | hc
    · rw [(List.mem_replicate.mp hc).2]
      decide
    · exact hdigits c hc
  simp only [doubleText, hd, if_true]
  refine ⟨if floats.signbit d then [byte '-'] else [],
    natText (floats.millionths d / 1000000), _, [], ?_, integerText_natText _,
    .inr ⟨_, hfraction, rfl⟩, .inl rfl, by simp⟩
  split
  · exact .inr rfl
  · exact .inl rfl

/-- Text of printable ASCII. -/
def Printable (s : Bytes) : Prop := ∀ c ∈ s, 0x20 ≤ c ∧ c < 0x7F

instance (s : Bytes) : Decidable (Printable s) :=
  List.decidableBAll (fun c => 0x20 ≤ c ∧ c < 0x7F) s

/-- Two printable texts make a printable one. -/
theorem Printable.append {s t : Bytes} (hs : Printable s) (ht : Printable t) : Printable (s ++ t) :=
  fun c hc => (List.mem_append.mp hc).elim (hs c) (ht c)

/-- A printable text has no line break. -/
theorem Printable.oneLine {s : Bytes} (h : Printable s) : OneLine s := fun c hc => (h c hc).1

/-- Numbers are printable. -/
theorem NumberText.printable {s : Bytes} (h : NumberText s) : Printable s := by
  have hdigit : ∀ c : UInt8, isDigit c = true → 0x20 ≤ c ∧ c < 0x7F :=
    forall_byte (p := fun c => isDigit c = true → 0x20 ≤ c ∧ c < 0x7F) (by decide +kernel)
  obtain ⟨minus, integer, fraction, exponent, hminus, hinteger, hfraction, hexponent, rfl⟩ := h
  have hminus : Printable minus := by rcases hminus with rfl | rfl <;> decide
  have hinteger : Printable integer := by
    rcases hinteger with rfl | ⟨⟨_, hdigits⟩, _⟩
    · decide
    · exact fun c hc => hdigit c (hdigits c hc)
  have hfraction : Printable fraction := by
    rcases hfraction with rfl | ⟨digits, ⟨_, hdigits⟩, rfl⟩
    · decide
    · exact List.forall_mem_cons.mpr ⟨by decide, fun c hc => hdigit c (hdigits c hc)⟩
  have hexponent : Printable exponent := by
    rcases hexponent with rfl | ⟨letter, sign, digits, hletter, hsign, ⟨_, hdigits⟩, rfl⟩
    · decide
    · have hdigits : Printable digits := fun c hc => hdigit c (hdigits c hc)
      refine List.forall_mem_cons.mpr ⟨by rcases hletter with rfl | rfl <;> decide,
        Printable.append ?_ hdigits⟩
      rcases hsign with rfl | rfl | rfl <;> decide
  exact hminus.append (hinteger.append (hfraction.append hexponent))

/-- Numbers are on one line. -/
theorem NumberText.oneLine {s : Bytes} (h : NumberText s) : OneLine s := h.printable.oneLine

end Printed

section Compact

variable {n : ℕ}

/-- Bytes that stand for themselves in a string. -/
def Plain (s : Bytes) : Prop := ∀ c ∈ s, 0x20 ≤ c ∧ c ≠ quote ∧ c ≠ backslash

instance (s : Bytes) : Decidable (Plain s) :=
  List.decidableBAll (fun c => 0x20 ≤ c ∧ c ≠ quote ∧ c ≠ backslash) s

/-- Plain bytes stand for themselves in a string. -/
theorem Plain.chars {s : Bytes} (h : Plain s) : Chars s s := by
  induction s with
  | nil => exact .nil
  | cons c s ih =>
    obtain ⟨⟨hlow, hquote, hbackslash⟩, hrest⟩ := List.forall_mem_cons.mp h
    exact .raw c hlow hquote hbackslash (ih hrest)

/-- A value without white space around it. -/
def compactItem (text : Bytes) (v : JsonValue D) : Item D := ⟨[], text, [], v⟩

/-- A member without white space in it. -/
def compactMember (key text : Bytes) (v : JsonValue D) : Member D :=
  ⟨[], key, key, [], compactItem text v⟩

/-- The bytes of a member without white space in it. -/
def memberText (key text : Bytes) : Bytes := quote :: (key ++ quote :: byte ':' :: text)

/-- A member of a compact document is the text of its key and its value. -/
theorem full_compactMember (key text : Bytes) (v : JsonValue D) :
    (compactMember key text v).full = memberText key text := by
  simp [compactMember, compactItem, Member.full, Item.full, memberText]

/-- An object without white space. Its entries are the first occurrences of its members. -/
theorem value_object (members : List (Bytes × Bytes × JsonValue D)) (hne : members ≠ [])
    (hkeys : ∀ m ∈ members, Plain m.1) (hvalues : ∀ m ∈ members, Value floats n m.2.1 m.2.2) :
    ∃ entries, (∀ key, lookup key entries = lookup key (members.map fun m => (m.1, m.2.2))) ∧
      Value floats (n + 1)
        (openBrace :: (separated (members.map fun m => memberText m.1 m.2.1) ++ [closeBrace]))
        (.object entries) := by
  obtain ⟨hsorted, hlookup⟩ := lookup_foldl_emplace (members.map fun m => (m.1, m.2.2))
    (m := ([] : List (Bytes × JsonValue D))) List.Pairwise.nil
  refine ⟨_, fun key => (hlookup key).trans rfl, ?_⟩
  have hvalue : Value floats (n + 1) _ _ :=
    .members n (members.map fun m => compactMember m.1 m.2.1 m.2.2)
    (by simpa using hne) ?_ ?_ ⟨hsorted, fun key => (hlookup key).trans (by rw [List.map_map]; rfl)⟩
  · rw [List.map_map] at hvalue
    simpa only [Function.comp_def, full_compactMember] using hvalue
  · intro member hmember
    obtain ⟨m, hm, rfl⟩ := List.mem_map.mp hmember
    exact ⟨isWs_nil, (hkeys m hm).chars, isWs_nil, isWs_nil, isWs_nil⟩
  · intro member hmember
    obtain ⟨m, hm, rfl⟩ := List.mem_map.mp hmember
    exact hvalues m hm

/-- An array without white space. -/
theorem value_array (items : List (Bytes × JsonValue D))
    (hvalues : ∀ i ∈ items, Value floats n i.1 i.2) :
    Value floats (n + 1) (openBracket :: (separated (items.map Prod.fst) ++ [closeBracket]))
      (.array (items.map Prod.snd)) := by
  cases items with
  | nil => exact .noItems n isWs_nil
  | cons i items =>
    have hvalue : Value floats (n + 1) _ _ :=
      .items n ((i :: items).map fun i => compactItem i.1 i.2) (by simp)
      (fun item hitem => by
        obtain ⟨i, _, rfl⟩ := List.mem_map.mp hitem
        exact ⟨isWs_nil, isWs_nil⟩)
      (fun item hitem => by
        obtain ⟨i, hi, rfl⟩ := List.mem_map.mp hitem
        exact hvalues i hi)
    have htexts : ((i :: items).map fun i => compactItem i.1 i.2).map Item.full =
        (i :: items).map Prod.fst := by
      simp [compactItem, Item.full]
    have hitems : ((i :: items).map fun i => compactItem i.1 i.2).map Item.value =
        (i :: items).map Prod.snd := by
      simp [compactItem]
    rwa [htexts, hitems] at hvalue

/-- An array of one item without white space. -/
theorem value_singleton {text : Bytes} {v : JsonValue D} (h : Value floats n text v) :
    Value floats (n + 1) (openBracket :: (text ++ [closeBracket])) (.array [v]) :=
  value_array [(text, v)] (List.forall_mem_singleton.mpr h)

/-- An escaped text in quotation marks. -/
theorem value_jsonEscape (n : ℕ) (s : Bytes) :
    Value floats n (quote :: (jsonEscape s ++ [quote])) (.string s) :=
  .string n (chars_jsonEscape s)

end Compact

/-- `std::stod` reads what `std::to_string` prints of an `int32_t` or of a finite `double` as a
finite number. -/
structure Floats.ReadsBack (floats : Floats D) : Prop where
  int : ∀ n : Int32, ∃ v, floats.stod (intText n) = some v ∧ floats.isFinite v = true
  double : ∀ d, floats.isFinite d = true → ∃ v, floats.stod (doubleText floats d) = some v ∧
    floats.isFinite v = true

section Statistics

variable {stats : Statistics D}

/-- The durations are finite. -/
def Statistics.Finite (floats : Floats D) (stats : Statistics D) : Prop :=
  floats.isFinite stats.promptMs = true ∧ floats.isFinite stats.predictedMs = true

/-- `timings_json` writes a value. -/
theorem value_timingsJson (n : ℕ) (hreads : floats.ReadsBack) (hfinite : stats.Finite floats) :
    ∃ v, Value floats (n + 1) (timingsJson floats stats) v := by
  obtain ⟨promptN, hpromptN, hf₁⟩ := hreads.int stats.promptN
  obtain ⟨cacheN, hcacheN, hf₂⟩ := hreads.int stats.cacheN
  obtain ⟨promptMs, hpromptMs, hf₃⟩ := hreads.double _ hfinite.1
  obtain ⟨predictedN, hpredictedN, hf₄⟩ := hreads.int stats.predictedN
  obtain ⟨predictedMs, hpredictedMs, hf₅⟩ := hreads.double _ hfinite.2
  obtain ⟨entries, _, hvalue⟩ := value_object (n := n)
    [(ascii "prompt_n", intText stats.promptN, .number promptN),
      (ascii "cache_n", intText stats.cacheN, .number cacheN),
      (ascii "prompt_ms", doubleText floats stats.promptMs, .number promptMs),
      (ascii "predicted_n", intText stats.predictedN, .number predictedN),
      (ascii "predicted_ms", doubleText floats stats.predictedMs, .number predictedMs)]
        (List.cons_ne_nil _ _)
    (by
      simp only [List.forall_mem_cons, List.not_mem_nil, false_imp_iff, implies_true, and_true]
      decide) (by
      simp only [List.forall_mem_cons, List.not_mem_nil, false_imp_iff, implies_true, and_true]
      exact ⟨.number _ (numberText_intText _) hpromptN hf₁,
        .number _ (numberText_intText _) hcacheN hf₂, .number _ (numberText_doubleText hfinite.1)
          hpromptMs hf₃, .number _ (numberText_intText _) hpredictedN hf₄,
        .number _ (numberText_doubleText hfinite.2) hpredictedMs hf₅⟩)
  simp only [List.map_cons, List.map_nil, separated, memberText, List.append_assoc,
    List.cons_append] at hvalue
  exact ⟨_, hvalue⟩

/-- `usage_json` writes the object of its three counts, as they are read. -/
theorem value_usageJson_counts (n : ℕ) (stats : Statistics D) {prompt completion total : D}
    (hprompt : floats.stod (intText stats.promptTokens) = some prompt ∧
      floats.isFinite prompt = true)
    (hcompletion : floats.stod (intText stats.predictedN) = some completion ∧
      floats.isFinite completion = true)
    (htotal : floats.stod (intText (stats.promptTokens + stats.predictedN)) = some total ∧
      floats.isFinite total = true) :
    ∃ v, Value floats (n + 1) (usageJson stats) v ∧
      v.field (ascii "prompt_tokens") = .number prompt ∧
      v.field (ascii "completion_tokens") = .number completion ∧
      v.field (ascii "total_tokens") = .number total := by
  obtain ⟨entries, hentries, hvalue⟩ := value_object (n := n)
    [(ascii "prompt_tokens", intText stats.promptTokens, .number prompt),
      (ascii "completion_tokens", intText stats.predictedN, .number completion),
      (ascii "total_tokens", intText (stats.promptTokens + stats.predictedN), .number total)]
        (List.cons_ne_nil _ _)
    (by
      simp only [List.forall_mem_cons, List.not_mem_nil, false_imp_iff, implies_true, and_true]
      decide) (by
      simp only [List.forall_mem_cons, List.not_mem_nil, false_imp_iff, implies_true, and_true]
      exact ⟨.number _ (numberText_intText _) hprompt.1 hprompt.2,
        .number _ (numberText_intText _) hcompletion.1 hcompletion.2,
        .number _ (numberText_intText _) htotal.1 htotal.2⟩)
  simp only [List.map_cons, List.map_nil, separated, memberText, List.append_assoc,
    List.cons_append] at hvalue
  have hcompletionKey : ascii "prompt_tokens" ≠ ascii "completion_tokens" := by decide
  have htotalKey : ascii "prompt_tokens" ≠ ascii "total_tokens" ∧
      ascii "completion_tokens" ≠ ascii "total_tokens" := by
    decide
  refine ⟨_, hvalue, ?_, ?_, ?_⟩
  · simp [JsonValue.field, hentries, lookup_cons]
  · simp [JsonValue.field, hentries, lookup_cons, hcompletionKey]
  · simp [JsonValue.field, hentries, lookup_cons, htotalKey]

/-- `usage_json` writes a value. -/
theorem value_usageJson (n : ℕ) (hreads : floats.ReadsBack) (stats : Statistics D) :
    ∃ v, Value floats (n + 1) (usageJson stats) v := by
  obtain ⟨prompt, hprompt⟩ := hreads.int stats.promptTokens
  obtain ⟨completion, hcompletion⟩ := hreads.int stats.predictedN
  obtain ⟨total, htotal⟩ := hreads.int (stats.promptTokens + stats.predictedN)
  obtain ⟨v, hvalue, _⟩ := value_usageJson_counts n stats hprompt hcompletion htotal
  exact ⟨v, hvalue⟩

/-- `timings_json` writes one line. -/
theorem oneLine_timingsJson (hfinite : stats.Finite floats) :
    OneLine (timingsJson floats stats) := by
  have hint (n : Int32) : OneLine (intText n) := (numberText_intText n).oneLine
  have hms₁ := (numberText_doubleText hfinite.1).oneLine
  have hms₂ := (numberText_doubleText hfinite.2).oneLine
  refine OneLine.append (by decide) ((hint _).append (OneLine.append (by decide) ((hint _).append
    (OneLine.append (by decide)
      (hms₁.append (OneLine.append (by decide) ((hint _).append (OneLine.append (by decide)
      (hms₂.append (by decide))))))))))

/-- `usage_json` writes one line. -/
theorem oneLine_usageJson (stats : Statistics D) : OneLine (usageJson stats) := by
  have hint (n : Int32) : OneLine (intText n) := (numberText_intText n).oneLine
  exact OneLine.append (by decide) ((hint _).append (OneLine.append (by decide) ((hint _).append
    (OneLine.append (by decide) ((hint _).append (by decide))))))

end Statistics

end RadixForge
