import RadixForge.Study.TraceText

/-!
# The rows of a trace

A row is an object of twelve members. Python reads it back if its strings are readable and its
tokens do not begin with a comma; of any other row that is UTF-8 it has a first line, which is no
JSON.
-/

namespace RadixForge.MoeStudy

open Library

section Numbers

/-- A printed size is a printed integer. -/
theorem decimal_natCast (n : ℕ) : decimal n = natText n := by simp [decimal]

/-- A printed integer is a number. -/
theorem numberText_decimal (n : ℤ) : NumberText (decimal n) := by
  unfold decimal
  split
  · exact ⟨[byte '-'], natText n.natAbs, [], [], .inr rfl, integerText_natText _,
      .inl rfl, .inl rfl, by simp⟩
  · exact ⟨[], natText n.natAbs, [], [], .inl rfl, integerText_natText _,
      .inl rfl, .inl rfl, by simp⟩

/-- A printed integer is read back. -/
theorem integer?_decimal (n : ℤ) : integer? (decimal n) = some n := by
  obtain ⟨hne, hdigits⟩ := digits_natText n.natAbs
  have hall : (natText n.natAbs).all isDigit = true := List.all_eq_true.mpr hdigits
  have hvalue : (natText n.natAbs).foldl (fun (k : ℤ) c => 10 * k + ((c.toNat : ℤ) - 48)) 0 =
      n.natAbs := by
    have hread := foldl_digits (Nat.toDigits 10 n.natAbs) 0
      fun c hc => Nat.isDigit_of_mem_toDigits (by decide) (by decide) hc
    rwa [Nat.ofDigitChars_ten_toDigits] at hread
  unfold decimal
  split
  · have hskip : skipMinus (byte '-' :: natText n.natAbs) = natText n.natAbs := rfl
    simp only [integer?, hskip, hall, hvalue, if_true, List.head?_cons, Option.some.injEq]
    omega
  · obtain ⟨c, rest, hc⟩ := List.exists_cons_of_ne_nil hne
    have hminus : c ≠ byte '-' := by
      rintro rfl
      exact absurd (hdigits _ (by rw [hc]; exact List.mem_cons_self)) (by decide)
    have hskip : skipMinus (natText n.natAbs) = natText n.natAbs := by
      rw [hc, skipMinus, if_neg hminus]
    have hhead : (natText n.natAbs).head? ≠ some (byte '-') := by
      rw [hc, List.head?_cons, ne_eq, Option.some.injEq]
      exact hminus
    simp only [integer?, hskip, hall, hvalue, if_true, if_neg hhead, Option.some.injEq]
    omega

/-- Printed 32-bit integers are read back as 64-bit integers. -/
theorem int64s_decimal (tokens : List Int32) :
    int64s (tokens.map fun token => .number (decimal token.toInt)) =
      some (tokens.map Int32.toInt) := by
  rw [int64s, List.mapM_map]
  induction tokens with
  | nil => rfl
  | cons token tokens ih =>
    have hlow := token.le_toInt
    have hhigh := token.toInt_lt
    have hrange : -2 ^ 63 ≤ token.toInt ∧ token.toInt < 2 ^ 63 := by omega
    rw [List.mapM_cons, ih]
    simp only [Function.comp_apply, int?, integer?_decimal, Option.bind_some, if_pos hrange,
      Option.pure_def, List.map_cons, Option.bind_eq_bind]

end Numbers

section Rows

variable (t : Traced) (nRouted offset : ℕ)

/-- A member that is a string. -/
def stringMember (key : String) (s : Bytes) : Bytes × Bytes × JsonValue Bytes :=
  (ascii key, quote :: (jsonEscape s ++ [quote]), .string s)

/-- A member that is a number. -/
def numberMember (key : String) (text : Bytes) : Bytes × Bytes × JsonValue Bytes :=
  (ascii key, text, .number text)

/-- The strings of a row. -/
def Traced.strings : List Bytes := [t.request.id, t.request.family, t.request.agent, t.text]

/-- The text of the tokens. -/
def Traced.tokensText : Bytes :=
  openBracket :: (separated (t.prompt.map fun token => decimal token.toInt) ++
    ((t.generated.flatMap fun token => byte ',' :: decimal token.toInt) ++ [closeBracket]))

/-- The members of a row. -/
def Traced.members : List (Bytes × Bytes × JsonValue Bytes) :=
  [stringMember "id" t.request.id, stringMember "family" t.request.family,
    stringMember "agent" t.request.agent, numberMember "turn" (decimal t.request.turn.toInt),
    numberMember "n_prompt" (natText t.prompt.length),
    numberMember "n_gen" (natText t.generated.length), numberMember "n_routed" (natText nRouted),
    numberMember "offset" (natText offset), numberMember "prefill_ms" t.elapsed.1.text,
    numberMember "decode_ms" t.elapsed.2.text,
    (ascii "tokens", t.tokensText,
      .array (t.tokens.map fun token => .number (decimal token.toInt))),
    stringMember "text" t.text]

variable {t nRouted offset}

/-- A row that Python reads back: a prompt without tokens generates none, and the strings are
readable. -/
def Traced.Readable (t : Traced) : Prop :=
  (t.prompt = [] → t.generated = []) ∧ ∀ s ∈ t.strings, MoeStudy.Readable s

/-- The keys are printable, and they stand for themselves. -/
theorem Traced.keys : ∀ m ∈ t.members nRouted offset, Plain m.1 ∧ Printable m.1 := by
  simp only [members, stringMember, numberMember, List.forall_mem_cons, List.not_mem_nil,
    false_imp_iff, implies_true, and_true]
  decide

/-- What Python reads of a row. -/
structure Traced.Shown (t : Traced) (nRouted offset : ℕ) (row : JsonValue Bytes) : Prop where
  offset : size? row "offset" = some offset
  nRouted : size? row "n_routed" = some nRouted
  id : string? row "id" = some t.request.id
  family : string? row "family" = some t.request.family
  agent : string? row "agent" = some t.request.agent
  tokens : (items? row "tokens").bind int64s = some (t.tokens.map Int32.toInt)
  nPrompt : size? row "n_prompt" = some t.prompt.length

/-- A member of an object that was read. -/
theorem member?_eq {entries : List (Bytes × JsonValue Bytes)}
    {members : List (Bytes × Bytes × JsonValue Bytes)}
    (hentries : ∀ key, lookup key entries = lookup key (members.map fun m => (m.1, m.2.2)))
    {key : String} {v : JsonValue Bytes}
    (h : lookup (ascii key) (members.map fun m => (m.1, m.2.2)) = some v) :
    member? (.object entries) key = some v := by
  simp only [member?, JsonValue.contains, JsonValue.field, hentries, h, Option.isSome_some,
    if_true, Option.getD_some]

/-- A printed size is read back. -/
theorem size?_eq {row : JsonValue Bytes} {key : String} {n : ℕ}
    (h : member? row key = some (.number (natText n))) :
    size? row key = some n := by
  simp only [size?, h, Option.bind_some, int?, ← decimal_natCast, integer?_decimal]
  rw [if_neg (by omega), Int.toNat_natCast]

/-- The members of a row are read back. -/
theorem Traced.shown {entries : List (Bytes × JsonValue Bytes)}
    (hentries : ∀ key, lookup key entries =
      lookup key ((t.members nRouted offset).map fun m => (m.1, m.2.2))) :
    t.Shown nRouted offset (.object entries) where
  offset := size?_eq (member?_eq hentries rfl)
  nRouted := size?_eq (member?_eq hentries rfl)
  id := by rw [string?, member?_eq hentries rfl]; rfl
  family := by rw [string?, member?_eq hentries rfl]; rfl
  agent := by rw [string?, member?_eq hentries rfl]; rfl
  tokens := by
    rw [items?, member?_eq hentries rfl]
    exact int64s_decimal t.tokens
  nPrompt := size?_eq (member?_eq hentries rfl)

end Rows

section Lines

variable {t : Traced} {nRouted offset : ℕ}

end Lines

section Info

variable {m : Model} {nExpert k : ℕ} {moeLayers : List ℤ}

/-- The members of the `meta.json` file. -/
def Model.members (m : Model) (nExpert k : ℕ) (moeLayers : List ℤ) :
    List (Bytes × Bytes × JsonValue Bytes) :=
  [stringMember "model" m.path, stringMember "desc" m.desc,
    numberMember "n_expert" (natText nExpert), numberMember "k" (natText k),
    (ascii "moe_layers", openBracket :: (separated (moeLayers.map decimal) ++ [closeBracket]),
      .array (moeLayers.map fun layer => .number (decimal layer))),
    stringMember "dtype" (ascii "uint8"),
    stringMember "layout" (ascii "[n_routed][n_moe_layers][k]")]

/-- The keys of the file are printable, and they stand for themselves. -/
theorem Model.keys :
    ∀ member ∈ m.members nExpert k moeLayers, Plain member.1 ∧ Printable member.1 := by
  simp only [members, stringMember, numberMember, List.forall_mem_cons, List.not_mem_nil,
    false_imp_iff, implies_true, and_true]
  decide

/-- The members of the file have the texts of their values. -/
theorem Model.values :
    ∀ member ∈ m.members nExpert k moeLayers, Value literals 1 member.2.1 member.2.2 := by
  have hstring (s : Bytes) : Value literals 1 _ _ := value_jsonEscape 1 s
  have hsize (n : ℕ) : Value literals 1 (natText n) (.number (natText n)) :=
    .number 1 (decimal_natCast n ▸ numberText_decimal n) rfl rfl
  have hlayers : Value literals 1 _ _ := value_array (n := 0)
    (moeLayers.map fun layer => (decimal layer, JsonValue.number (decimal layer)))
      fun item hitem => by
      obtain ⟨layer, _, rfl⟩ := List.mem_map.mp hitem
      exact .number 0 (numberText_decimal _) rfl rfl
  rw [List.map_map, List.map_map] at hlayers
  simp only [members, stringMember, numberMember, List.forall_mem_cons, List.not_mem_nil,
    false_imp_iff, implies_true, and_true]
  exact ⟨hstring _, hstring _, hsize _, hsize _, hlayers, hstring _, hstring _⟩

end Info

end RadixForge.MoeStudy
