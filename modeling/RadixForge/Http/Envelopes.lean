import RadixForge.Http.Framing

/-!
# Response envelopes

What `completion_json` and `error_json` write is read back by the parser: the content, the message
and the counts of tokens come out as they were put in.
-/

namespace RadixForge

open Library

variable {D : Type} {floats : Floats D} {ofInt : Int32 → D} {stats : Statistics D}

/-- `std::stod` reads what `std::to_string` prints: of an `int32_t` its own `double`, of a finite
`double` a finite one. -/
structure Floats.Exact (floats : Floats D) (ofInt : Int32 → D) : Prop where
  injective : Function.Injective ofInt
  int : ∀ n, floats.stod (intText n) = some (ofInt n) ∧ floats.isFinite (ofInt n) = true
  double : ∀ d, floats.isFinite d = true → ∃ v, floats.stod (doubleText floats d) = some v ∧
    floats.isFinite v = true

/-- Floats that are exact on integers are read back as they were written. -/
theorem Floats.Exact.readsBack (h : floats.Exact ofInt) : floats.ReadsBack where
  int n := ⟨ofInt n, h.int n⟩
  double := h.double

/-- The sum of the tokens of the prompt and of the completion is an `int32_t`. -/
def Statistics.Summable (stats : Statistics D) : Prop :=
  -2 ^ 31 ≤ stats.promptTokens.toInt + stats.predictedN.toInt ∧
    stats.promptTokens.toInt + stats.predictedN.toInt < 2 ^ 31

/-- Then nothing is lost in the addition. -/
theorem Statistics.Summable.toInt_add (h : stats.Summable) :
    (stats.promptTokens + stats.predictedN).toInt =
      stats.promptTokens.toInt + stats.predictedN.toInt := by
  rw [Int32.toInt_add]
  exact Int.bmod_eq_of_le (by have := h.1; omega) (by have := h.2; omega)

/-- The three counts of `usage` are those of the statistics. -/
structure CountsTokens (ofInt : Int32 → D) (stats : Statistics D) (usage : JsonValue D) : Prop where
  prompt : usage.field (ascii "prompt_tokens") = .number (ofInt stats.promptTokens)
  completion : usage.field (ascii "completion_tokens") = .number (ofInt stats.predictedN)
  total : ∃ total : Int32, total.toInt = stats.promptTokens.toInt + stats.predictedN.toInt ∧
    usage.field (ascii "total_tokens") = .number (ofInt total)

/-- `choices[0].message.content` of a chat completion, `choices[0].text` of a text completion. -/
def completionContent (isChat : Bool) (doc : JsonValue D) : JsonValue D :=
  match (doc.field (ascii "choices")).item? 0 with
  | some choice =>
    if isChat then (choice.field (ascii "message")).field (ascii "content")
      else choice.field (ascii "text")
  | none => .null

section Completion

/-- The object around the first choice of a completion. -/
def completionText (floats : Floats D) (object choice : Bytes) (stats : Statistics D) : Bytes :=
  openBrace :: (separated [memberText (ascii "object") (quote :: (object ++ [quote])),
    memberText (ascii "choices") (openBracket :: (choice ++ [closeBracket])),
    memberText (ascii "timings") (timingsJson floats stats),
    memberText (ascii "usage") (usageJson stats)] ++ [closeBrace])

/-- It is a document that holds the choice and the counts. -/
theorem document_completionText (hexact : floats.Exact ofInt) (hfinite : stats.Finite floats)
    (hsum : stats.Summable) (object : Bytes) {text : Bytes} {choice : JsonValue D}
    (hobject : Plain object) (hchoice : Value floats (61 + 1) text choice) :
    ∃ doc, Document floats maxDepth (completionText floats object text stats) doc ∧
      (doc.field (ascii "choices")).item? 0 = some choice ∧
      CountsTokens ofInt stats (doc.field (ascii "usage")) := by
  obtain ⟨timings, htimings⟩ := value_timingsJson 62 hexact.readsBack hfinite
  obtain ⟨usage, husage, hprompt, hcompletion, htotal⟩ :=
    value_usageJson_counts 62 stats (hexact.int _) (hexact.int _)
    (hexact.int _)
  obtain ⟨entries, hentries, hvalue⟩ := value_object
    [(ascii "object", quote :: (object ++ [quote]), .string object),
      (ascii "choices", openBracket :: (text ++ [closeBracket]), .array [choice]),
      (ascii "timings", timingsJson floats stats, timings), (ascii "usage", usageJson stats, usage)]
        (List.cons_ne_nil _ _)
    (by
      simp only [List.forall_mem_cons, List.not_mem_nil, false_imp_iff, implies_true, and_true]
      decide)
    (by
      simp only [List.forall_mem_cons, List.not_mem_nil, false_imp_iff, implies_true, and_true]
      exact ⟨.string _ hobject.chars, value_singleton hchoice, htimings, husage⟩)
  have hchoices : ascii "object" ≠ ascii "choices" := by decide
  have husageKey : ascii "object" ≠ ascii "usage" ∧ ascii "choices" ≠ ascii "usage" ∧
      ascii "timings" ≠ ascii "usage" := by
    decide
  have hfield : (JsonValue.object entries).field (ascii "usage") = usage := by
    simp [JsonValue.field, hentries, lookup_cons, husageKey]
  refine ⟨.object entries,
    ⟨compactItem _ _, ⟨isWs_nil, isWs_nil⟩, rfl, hvalue, (List.append_nil _).symm⟩, ?_, ?_⟩
  · simp [JsonValue.field, JsonValue.item?, hentries, lookup_cons, hchoices]
  · rw [hfield]
    exact ⟨hprompt, hcompletion, _, hsum.toInt_add, htotal⟩

/-- The choice of a chat completion. -/
def chatChoice (content : Bytes) : Bytes :=
  openBrace :: (separated [memberText (ascii "message") (openBrace :: (separated
    [memberText (ascii "role") (ascii "\"assistant\""),
      memberText (ascii "content") (quote :: (jsonEscape content ++ [quote]))] ++
      [closeBrace])), memberText (ascii "finish_reason") (ascii "\"stop\"")] ++ [closeBrace])

/-- The choice of a text completion. -/
def textChoice (content : Bytes) : Bytes :=
  openBrace :: (separated [memberText (ascii "text") (quote :: (jsonEscape content ++ [quote])),
    memberText (ascii "finish_reason") (ascii "\"stop\"")] ++ [closeBrace])

/-- The choice of a chat completion holds the content. -/
theorem value_chatChoice (floats : Floats D) (n : ℕ) (content : Bytes) :
    ∃ choice, Value floats (n + 2) (chatChoice content) choice ∧
      (choice.field (ascii "message")).field (ascii "content") = .string content := by
  have hassistant : Plain (ascii "assistant") := by decide
  have hplain : Plain (ascii "stop") := by decide
  have hrole : Value floats n (ascii "\"assistant\"") (.string (ascii "assistant")) :=
    .string n hassistant.chars
  have hstop : Value floats (n + 1) (ascii "\"stop\"") (.string (ascii "stop")) :=
    .string _ hplain.chars
  obtain ⟨message, hmessage, hmessageValue⟩ :=
    value_object [(ascii "role", _, _), (ascii "content", _, _)] (List.cons_ne_nil _ _)
    (by
      simp only [List.forall_mem_cons, List.not_mem_nil, false_imp_iff, implies_true, and_true]
      decide)
    (List.forall_mem_cons.mpr ⟨hrole, List.forall_mem_singleton.mpr (value_jsonEscape n content)⟩)
  obtain ⟨choice, hchoice, hchoiceValue⟩ := value_object
    [(ascii "message", _, _), (ascii "finish_reason", _, _)] (List.cons_ne_nil _ _)
    (by
      simp only [List.forall_mem_cons, List.not_mem_nil, false_imp_iff, implies_true, and_true]
      decide)
    (List.forall_mem_cons.mpr ⟨hmessageValue, List.forall_mem_singleton.mpr hstop⟩)
  have hkey : ascii "role" ≠ ascii "content" := by decide
  exact ⟨_, hchoiceValue, by simp [JsonValue.field, hchoice, hmessage, lookup_cons, hkey]⟩

/-- The choice of a text completion holds the content. -/
theorem value_textChoice (floats : Floats D) (n : ℕ) (content : Bytes) :
    ∃ choice, Value floats (n + 1) (textChoice content) choice ∧
      choice.field (ascii "text") = .string content := by
  have hplain : Plain (ascii "stop") := by decide
  have hstop : Value floats n (ascii "\"stop\"") (.string (ascii "stop")) := .string n hplain.chars
  obtain ⟨choice, hchoice, hchoiceValue⟩ := value_object
    [(ascii "text", _, _), (ascii "finish_reason", _, _)] (List.cons_ne_nil _ _)
    (by
      simp only [List.forall_mem_cons, List.not_mem_nil, false_imp_iff, implies_true, and_true]
      decide)
    (List.forall_mem_cons.mpr ⟨value_jsonEscape n content, List.forall_mem_singleton.mpr hstop⟩)
  exact ⟨_, hchoiceValue, by simp [JsonValue.field, hchoice, lookup_cons]⟩

/-- `completion_json` writes a document that holds the content and the counts. -/
theorem document_completionJson (hexact : floats.Exact ofInt) (hfinite : stats.Finite floats)
    (hsum : stats.Summable) (content : Bytes) (isChat : Bool) :
    ∃ doc, Document floats maxDepth (completionJson floats content stats isChat) doc ∧
      completionContent isChat doc = .string content ∧
      CountsTokens ofInt stats (doc.field (ascii "usage")) := by
  cases isChat with
  | true =>
    obtain ⟨choice, hchoice, hcontent⟩ := value_chatChoice floats 60 content
    obtain ⟨doc, hdocument, hfirst, hcounts⟩ :=
      document_completionText hexact hfinite hsum (ascii "chat.completion")
      (by decide) hchoice
    simp only [completionText, chatChoice, separated, memberText, List.append_assoc,
      List.cons_append, List.nil_append]
      at hdocument
    exact ⟨doc, hdocument, by simp [completionContent, hfirst, hcontent], hcounts⟩
  | false =>
    obtain ⟨choice, hchoice, hcontent⟩ := value_textChoice floats 61 content
    obtain ⟨doc, hdocument, hfirst, hcounts⟩ :=
      document_completionText hexact hfinite hsum (ascii "text_completion")
      (by decide) hchoice
    simp only [completionText, textChoice, separated, memberText, List.append_assoc,
      List.cons_append, List.nil_append]
      at hdocument
    exact ⟨doc, hdocument, by simp [completionContent, hfirst, hcontent], hcounts⟩

end Completion

section Error

/-- `error_json` writes a document that holds the message and a type that needs no escape. -/
theorem document_errorJson (floats : Floats D) (message : Bytes) {type : Bytes}
    (htype : jsonEscape type = type) :
    ∃ doc, Document floats maxDepth (errorJson message type) doc ∧
      (doc.field (ascii "error")).field (ascii "message") = .string message ∧
      (doc.field (ascii "error")).field (ascii "type") = .string type := by
  have hchars : Chars type type := by
    have hescaped := chars_jsonEscape type
    rwa [htype] at hescaped
  have htypeValue : Value floats 62 (quote :: (type ++ [quote])) (.string type) := .string 62 hchars
  obtain ⟨error, herror, herrorValue⟩ :=
    value_object [(ascii "message", _, _), (ascii "type", _, _)] (List.cons_ne_nil _ _)
    (by
      simp only [List.forall_mem_cons, List.not_mem_nil, false_imp_iff, implies_true, and_true]
      decide)
    (List.forall_mem_cons.mpr ⟨value_jsonEscape 62 message,
      List.forall_mem_singleton.mpr htypeValue⟩)
  obtain ⟨doc, hdoc, hdocValue⟩ := value_object [(ascii "error", _, _)] (List.cons_ne_nil _ _)
    (by
      simp only [List.forall_mem_cons, List.not_mem_nil, false_imp_iff, implies_true, and_true]
      decide)
    (List.forall_mem_singleton.mpr herrorValue)
  simp only [List.map_cons, List.map_nil, separated, memberText, List.append_assoc,
    List.cons_append, List.nil_append]
    at hdocValue
  have hkey : ascii "message" ≠ ascii "type" := by decide
  refine ⟨.object doc, ⟨compactItem _ _, ⟨isWs_nil, isWs_nil⟩, rfl, hdocValue,
    (List.append_nil _).symm⟩, ?_, ?_⟩
  · simp [JsonValue.field, hdoc, herror, lookup_cons]
  · simp [JsonValue.field, hdoc, herror, lookup_cons, hkey]

end Error

section Decimal

/-- The digits of a number are read as the number. -/
theorem foldl_digits (cs : List Char) (k : ℕ) (hdigits : ∀ c ∈ cs, c.isDigit = true) :
    (cs.map Char.toUInt8).foldl (fun (k : ℤ) c => 10 * k + ((c.toNat : ℤ) - 48)) k =
      Nat.ofDigitChars 10 cs k := by
  induction cs generalizing k with
  | nil => simp
  | cons c cs ih =>
    obtain ⟨hc, hrest⟩ := List.forall_mem_cons.mp hdigits
    simp only [Char.isDigit, Bool.and_eq_true, decide_eq_true_eq, UInt32.le_iff_toNat_le] at hc
    have hlow : 48 ≤ c.toNat := hc.1
    have hhigh : c.toNat ≤ 57 := hc.2
    have hbyte : c.toUInt8.toNat = c.toNat :=
      (UInt32.toNat_toUInt8 c.val).trans (Nat.mod_eq_of_lt (by
      have : c.val.toNat = c.toNat := rfl
      omega))
    have hdigit : 10 * (k : ℤ) + ((c.toUInt8.toNat : ℤ) - 48) =
        ((10 * k + (c.toNat - 48) : ℕ) : ℤ) := by
      rw [hbyte]
      omega
    rw [List.map_cons, List.foldl_cons, hdigit, ih _ hrest, Nat.ofDigitChars_cons]
    rfl

/-- With six zeros behind them they are read as its millionths. -/
theorem foldl_natText (n : ℕ) : (natText n ++ List.replicate 6 (byte '0')).foldl
    (fun (k : ℤ) c => 10 * k + ((c.toNat : ℤ) - 48)) 0 = 1000000 * n := by
  have hdigits := foldl_digits (Nat.toDigits 10 n) 0 fun c hc =>
    Nat.isDigit_of_mem_toDigits (by decide) (by decide) hc
  have hzeros := foldl_digits (List.replicate 6 '0') n fun c hc =>
    by rw [List.eq_of_mem_replicate hc]; rfl
  rw [Nat.ofDigitChars_ten_toDigits] at hdigits
  rw [Nat.ofDigitChars_replicate_zero, List.map_replicate] at hzeros
  rw [List.foldl_append, natText]
  calc _ = (List.replicate 6 (byte '0')).foldl (fun (k : ℤ) c => 10 * k + ((c.toNat : ℤ) - 48)) n :=
        congrArg (fun k => (List.replicate 6 (byte '0')).foldl _ k) hdigits
    _ = _ := hzeros.trans (by push_cast; rfl)

/-- A whole number with or without a sign is read exactly. -/
theorem stod_natText {sign : Bytes} (hsign : sign = [] ∨ sign = [byte '-']) (n : ℕ) :
    sixDecimals.stod (sign ++ natText n) =
      some (if (sign ++ natText n).head? = some (byte '-') then -(1000000 * n : ℤ) else 1000000 *
        n) := by
  obtain ⟨hne, hdigits⟩ := digits_natText n
  have hmagnitude : (sign ++ natText n).dropWhile (· = byte '-') = natText n := by
    rw [List.dropWhile_append_of_pos (by rcases hsign with rfl | rfl <;> simp)]
    refine (List.dropWhile_eq_self_iff (p := fun c => decide (c = byte '-'))).mpr fun hpos => ?_
    have hdigit := hdigits _ (List.getElem_mem hpos)
    have hminus : isDigit (byte '-') = false := by decide
    simp only [decide_eq_true_eq]
    exact fun h => by rw [h, hminus] at hdigit; cases hdigit
  have hall : (natText n).all (fun c => isDigit c || c = byte '.') = true :=
    List.all_eq_true.mpr fun c hc => by simp [hdigits c hc]
  have hnone : (natText n).dropWhile isDigit = [] := List.dropWhile_eq_nil_iff.mpr hdigits
  have htake : (natText n).takeWhile isDigit = natText n := List.takeWhile_eq_self_iff.mpr hdigits
  simp only [sixDecimals, hmagnitude, hall, hnone, htake, if_true, List.drop_nil, List.take_nil]
  exact congrArg (fun value : ℤ =>
    some (if (sign ++ natText n).head? = some (byte '-') then -value else value))
    (foldl_natText n)

/-- Integers are read back exactly. -/
theorem sixDecimals_exact : sixDecimals.Exact fun n => 1000000 * n.toInt := by
  refine ⟨?_, ?_, sixDecimals_readsBack.double⟩
  · intro n m h
    exact Int32.toInt_inj.mp (by simpa using h)
  · intro n
    refine ⟨?_, rfl⟩
    unfold intText
    split
    · rename_i hneg
      have hread := stod_natText (.inr rfl) n.toInt.natAbs
      rw [List.singleton_append, List.head?_cons, if_pos rfl] at hread
      exact hread.trans (congrArg some (by omega))
    · rename_i hnonneg
      have hread := stod_natText (.inl rfl) n.toInt.natAbs
      have hhead : (natText n.toInt.natAbs).head? ≠ some (byte '-') := by
        intro h
        have hdigit := (digits_natText n.toInt.natAbs).2 _ (List.mem_of_head? h)
        have hminus : isDigit (byte '-') = false := by decide
        rw [hminus] at hdigit
        cases hdigit
      rw [List.nil_append, if_neg hhead] at hread
      exact hread.trans (congrArg some (by omega))

end Decimal

/-- What the server answers is read back: a completion with its content, whatever its bytes are, and
with its counts of tokens, and an error with its message. -/
theorem envelopes_round_trip (hexact : floats.Exact ofInt) :
    (∀ (content : Bytes) (stats : Statistics D) (isChat : Bool), stats.Finite floats →
      stats.Summable →
      ∃ doc, parse floats (completionJson floats content stats isChat) = .returned doc ∧
        completionContent isChat doc = .string content ∧
        CountsTokens ofInt stats (doc.field (ascii "usage"))) ∧
    ∀ message type : Bytes, jsonEscape type = type →
    ∃ doc, parse floats (errorJson message type) = .returned doc ∧
      (doc.field (ascii "error")).field (ascii "message") = .string message ∧
      (doc.field (ascii "error")).field (ascii "type") = .string type := by
  constructor
  · intro content stats isChat hfinite hsum
    obtain ⟨doc, hdocument, hdoc⟩ := document_completionJson hexact hfinite hsum content isChat
    exact ⟨doc, parse_document hdocument, hdoc⟩
  · intro message type htype
    obtain ⟨doc, hdocument, hdoc⟩ := document_errorJson floats message htype
    exact ⟨doc, parse_document hdocument, hdoc⟩

/-- A completion with a byte of every kind, and an error message with a quotation mark. -/
theorem envelopes_round_trip_bytes :
    (∃ doc, parse sixDecimals
      (completionJson sixDecimals [0x00, 0x0A, 0x22, 0x5C, 0x41, 0xFF]
        ⟨3, 1, 4, 2, 0, 1500000⟩ true) =
        .returned doc ∧ completionContent true doc = .string [0x00, 0x0A, 0x22, 0x5C, 0x41, 0xFF] ∧
        CountsTokens (fun n => 1000000 * n.toInt) ⟨3, 1, 4, 2, 0, 1500000⟩
          (doc.field (ascii "usage"))) ∧
      ∃ doc, parse sixDecimals
        (errorJson (ascii "bad \"request\"") (ascii "invalid_request_error")) = .returned doc ∧
        (doc.field (ascii "error")).field (ascii "message") = .string (ascii "bad \"request\"") ∧
        (doc.field (ascii "error")).field (ascii "type") =
          .string (ascii "invalid_request_error") :=
  ⟨(envelopes_round_trip sixDecimals_exact).1 _ ⟨3, 1, 4, 2, 0, 1500000⟩ true ⟨rfl, rfl⟩
    ⟨by decide, by decide⟩, (envelopes_round_trip sixDecimals_exact).2 _ _ (by decide)⟩

end RadixForge
