import RadixForge.Http.Boundaries
import RadixForge.Http.Documents
import RadixForge.Json.Acceptance

/-!
# Streams of content events

The line of a content event is a document that holds its content, and the contents of a stream are
its pieces, cut between two characters.
-/

namespace RadixForge

open Library

variable {D : Type} {floats : Floats D}

/-- `choices[0].delta.content` of a document. -/
def deltaContent (doc : JsonValue D) : JsonValue D :=
  match (doc.field (ascii "choices")).item? 0 with
  | some choice => (choice.field (ascii "delta")).field (ascii "content")
  | none => .null

section Line

/-- The statistics of an event are finite, if it has any. -/
def FiniteStats (floats : Floats D) (stats : Option (Statistics D)) : Prop :=
  ∀ s ∈ stats, s.Finite floats

/-- The list of choices of a content event. -/
def choicesText (content reason : Bytes) : Bytes :=
  openBracket :: (openBrace ::
    (separated [memberText (ascii "delta") (openBrace :: (separated [memberText (ascii "content")
    (quote :: (jsonEscape content ++ [quote]))] ++ [closeBrace])),
      memberText (ascii "finish_reason") reason] ++ [closeBrace]) ++
      [closeBracket])

/-- The list of choices holds the content. -/
theorem value_choicesText (n : ℕ) (content : Bytes) {reason : Bytes} {reasonValue : JsonValue D}
    (hreason : Value floats (n + 1) reason reasonValue) :
    ∃ choices, Value floats (n + 3) (choicesText content reason) choices ∧
      ∀ rest entries, lookup (ascii "choices") entries =
        lookup (ascii "choices") ((ascii "choices", choices) :: rest) →
        deltaContent (.object entries) = .string content := by
  obtain ⟨delta, hdelta, hdeltaValue⟩ :=
    value_object [(ascii "content", _, _)] (List.cons_ne_nil _ _)
    (by
      simp only [List.forall_mem_cons, List.not_mem_nil, false_imp_iff, implies_true, and_true]
      decide) (List.forall_mem_singleton.mpr (value_jsonEscape n content))
  obtain ⟨choice, hchoice, hchoiceValue⟩ := value_object
    [(ascii "delta", _, _), (ascii "finish_reason", _, reasonValue)] (List.cons_ne_nil _ _)
    (by
      simp only [List.forall_mem_cons, List.not_mem_nil, false_imp_iff, implies_true, and_true]
      decide) (List.forall_mem_cons.mpr ⟨hdeltaValue, List.forall_mem_singleton.mpr hreason⟩)
  refine ⟨_, value_singleton hchoiceValue, fun rest entries hentries => ?_⟩
  have hcontent := hdelta (ascii "content")
  have hfirst := hchoice (ascii "delta")
  simp only [List.map_cons, List.map_nil, lookup_cons, if_true] at hcontent hfirst hentries
  simp only [deltaContent, JsonValue.field, JsonValue.item?, hentries, hfirst,
    hcontent, Option.getD_some, List.getElem?_cons_zero]

/-- The line of a content event is a document that holds its content. -/
theorem document_chunkJson (hreads : floats.ReadsBack) {stats : Option (Statistics D)}
    {isLast : Bool} (hfinite : isLast = true → FiniteStats floats stats) (content : Bytes) :
    ∃ doc, Document floats maxDepth (chunkJson floats content isLast stats) doc ∧
      deltaContent doc = .string content := by
  -- four containers are nested, so the content itself may be anywhere from the limit down to the
  -- fourth
  have hreason : ∃ reason,
      Value floats (60 + 1) (ascii (if isLast then "\"stop\"" else "null")) reason := by
    cases isLast with
    | false => exact ⟨_, .null _⟩
    | true => exact ⟨_, .string (s := ascii "stop") _ (Plain.chars (by decide))⟩
  obtain ⟨reason, hreason⟩ := hreason
  obtain ⟨choices, hchoices, hcontent⟩ := value_choicesText 60 content hreason
  suffices ∃ doc, Value floats (63 + 1) (chunkJson floats content isLast stats) doc ∧
      deltaContent doc = .string content by
    obtain ⟨doc, hvalue, hdoc⟩ := this
    exact ⟨doc, ⟨compactItem _ doc, ⟨isWs_nil, isWs_nil⟩, rfl, hvalue, (List.append_nil _).symm⟩,
      hdoc⟩
  by_cases hstats : ∃ s, isLast = true ∧ stats = some s
  · obtain ⟨s, rfl, rfl⟩ := hstats
    obtain ⟨timings, htimings⟩ := value_timingsJson 62 hreads (hfinite rfl s rfl)
    obtain ⟨usage, husage⟩ := value_usageJson 62 hreads s
    obtain ⟨entries, hentries, hvalue⟩ := value_object
      [(ascii "choices", choicesText content _, choices),
        (ascii "timings", timingsJson floats s, timings), (ascii "usage", usageJson s, usage)]
          (List.cons_ne_nil _ _)
      (by
        simp only [List.forall_mem_cons, List.not_mem_nil, false_imp_iff, implies_true, and_true]
        decide)
      (List.forall_mem_cons.mpr
        ⟨hchoices, List.forall_mem_cons.mpr ⟨htimings, List.forall_mem_singleton.mpr husage⟩⟩)
    simp only [List.map_cons, List.map_nil, choicesText, separated, memberText,
      List.append_assoc, List.cons_append, List.nil_append] at hvalue
    exact ⟨_, hvalue, hcontent _ entries (hentries _)⟩
  · obtain ⟨entries, hentries, hvalue⟩ :=
      value_object [(ascii "choices", choicesText content _, choices)]
      (List.cons_ne_nil _ _)
      (by
        simp only [List.forall_mem_cons, List.not_mem_nil, false_imp_iff, implies_true, and_true]
        decide)
      (List.forall_mem_singleton.mpr hchoices)
    have hsuffix : chunkSuffix floats isLast stats = ascii "\x7d]\x7d" := by
      unfold chunkSuffix
      split
      · exact absurd ⟨_, rfl, rfl⟩ hstats
      · rfl
    rw [chunkJson, hsuffix]
    simp only [List.map_cons, List.map_nil, choicesText, separated, memberText,
      List.append_assoc, List.cons_append, List.nil_append] at hvalue
    exact ⟨_, hvalue, hcontent _ entries (hentries _)⟩

/-- The data of a content event is one line. -/
theorem oneLine_chunkJson {stats : Option (Statistics D)} {isLast : Bool}
    (hfinite : isLast = true → FiniteStats floats stats) (content : Bytes) :
    OneLine (chunkJson floats content isLast stats) := by
  have hsuffix : OneLine (chunkSuffix floats isLast stats) := by
    unfold chunkSuffix
    split
    · exact OneLine.append (by decide) ((oneLine_timingsJson (hfinite rfl _ rfl)).append
        (OneLine.append (by decide) ((oneLine_usageJson _).append (by decide))))
    · decide
  have hreason : OneLine (ascii (if isLast then "\"stop\"" else "null")) := by
    cases isLast <;> decide
  exact OneLine.append (by decide) ((oneLine_jsonEscape content).append
    (OneLine.append (by decide) (hreason.append hsuffix)))

end Line

namespace StreamState

variable (state : StreamState) (token : Bytes) (isLast : Bool)

/-- A call whose sink does not fail writes one content event, and after the last one the end. -/
theorem onToken_writes (floats : Floats D) {state : StreamState} (hnot : state.cancelled = false)
    (token : Bytes) (isLast : Bool) (stats : Option (Statistics D)) :
    (state.onToken floats token isLast stats {}).2 =
        [.isWritable,
          .write (event (chunkJson floats (state.content token isLast).1 isLast stats))] ++
          (if isLast then [.write doneEvent] else []) ∧
      (state.onToken floats token isLast stats {}).1.incompleteUtf8 =
        (state.content token isLast).2 ∧
      (state.onToken floats token isLast stats {}).1.cancelled = false := by
  unfold onToken
  cases isLast <;> simp [hnot]

/-- What a call sends and what it keeps are what was kept and the token. -/
theorem content_append :
    (state.content token isLast).1 ++ (state.content token isLast).2 =
      state.incompleteUtf8 ++ token := by
  unfold content
  cases isLast <;> simp

/-- A call keeps at most three bytes. -/
theorem content_kept : (state.content token isLast).2.length ≤ 3 := by
  unfold content
  cases isLast with
  | false => simpa using length_drop_completeUtf8PrefixLength (state.incompleteUtf8 ++ token)
  | true => simp

/-- The last call keeps nothing. -/
theorem content_last : (state.content token true).2 = [] := rfl

/-- A call sends complete characters of a valid text. -/
theorem content_valid {state : StreamState} {token : Bytes} {isLast : Bool} {rest : Bytes}
    (h : ValidUtf8 (state.incompleteUtf8 ++ (token ++ rest))) (hlast : isLast = true → rest = []) :
    ValidUtf8 (state.content token isLast).1 ∧
      ValidUtf8 ((state.content token isLast).2 ++ rest) := by
  rw [← List.append_assoc] at h
  cases isLast with
  | false =>
    obtain ⟨chars, hchars, hrest⟩ := take_completeUtf8PrefixLength h
    exact ⟨⟨chars, hchars⟩, hrest⟩
  | true =>
    rw [hlast rfl, List.append_nil] at h ⊢
    refine ⟨?_, [], content_last state token⟩
    have happend := content_append state token true
    rw [content_last, List.append_nil] at happend
    rwa [happend]

end StreamState

/-- The pieces of a stream. -/
abbrev Pieces (D : Type) := List (Bytes × Option (Statistics D))

/-- All the bytes of the pieces. -/
def Pieces.bytes (pieces : Pieces D) : Bytes := (pieces.map Prod.fst).flatten

/-- The calls write the given events, each a line and its content, which hold the given text. -/
structure Lossless (floats : Floats D) (text : Bytes) (calls : List (StreamState × List SinkCall))
    (events : List (Bytes × Bytes)) : Prop where
  written : calls.flatMap Prod.snd =
    events.flatMap (fun e => [.isWritable, .write (event e.1)]) ++ if calls = [] then []
      else [.write doneEvent]
  framed : ∀ e ∈ events, OneLine e.1 ∧ ∃ doc, parse floats e.1 = .returned doc ∧
    deltaContent doc = .string e.2
  content : (events.map Prod.snd).flatten = text
  kept : ∀ call ∈ calls, call.1.incompleteUtf8.length ≤ 3
  valid : ValidUtf8 text → ∀ e ∈ events, ValidUtf8 e.2

/-- From any state a stream of pieces loses nothing, neither of them nor of what the state keeps. -/
theorem feed_lossless (hreads : floats.ReadsBack) (state : StreamState)
    (hnot : state.cancelled = false) (piece : Bytes × Option (Statistics D)) (rest : Pieces D)
    (hfinite : ∀ p ∈ (piece :: rest).getLast?, FiniteStats floats p.2) :
    ∃ events, Lossless floats (state.incompleteUtf8 ++ Pieces.bytes (piece :: rest))
      (StreamState.feed floats state (piece :: rest)) events := by
  induction rest generalizing state piece with
  | nil =>
    obtain ⟨token, stats⟩ := piece
    obtain ⟨hcalls, hincomplete, _⟩ := StreamState.onToken_writes floats hnot token true stats
    have hstats : true = true → FiniteStats floats stats := fun _ => hfinite _ rfl
    obtain ⟨doc, hdocument, hdoc⟩ := document_chunkJson hreads hstats (state.content token true).1
    have happend := StreamState.content_append state token true
    rw [StreamState.content_last, List.append_nil] at happend
    refine ⟨[(chunkJson floats (state.content token true).1 true stats,
      (state.content token true).1)], ?_, ?_, ?_, ?_, ?_⟩
    · simpa [StreamState.feed] using hcalls
    · exact List.forall_mem_singleton.mpr
        ⟨oneLine_chunkJson hstats _, doc, parse_document hdocument, hdoc⟩
    · simp [Pieces.bytes, happend]
    · refine List.forall_mem_singleton.mpr ?_
      exact hincomplete ▸ Nat.zero_le 3
    · intro hvalid
      refine List.forall_mem_singleton.mpr ?_
      simpa [Pieces.bytes, happend] using hvalid
  | cons next rest ih =>
    obtain ⟨token, stats⟩ := piece
    obtain ⟨hcalls, hincomplete, hnot'⟩ := StreamState.onToken_writes floats hnot token false stats
    have hstats : false = true → FiniteStats floats stats := fun h => absurd h (by decide)
    obtain ⟨doc, hdocument, hdoc⟩ := document_chunkJson hreads hstats (state.content token false).1
    have happend := StreamState.content_append state token false
    have hbytes : state.incompleteUtf8 ++ Pieces.bytes ((token, stats) :: next :: rest) =
        (state.content token false).1 ++
          ((state.content token false).2 ++ Pieces.bytes (next :: rest)) := by
      rw [← List.append_assoc (state.content token false).1, happend]
      simp [Pieces.bytes]
    obtain ⟨events, hevents⟩ := ih _ hnot' next (by simpa using hfinite)
    rw [hincomplete] at hevents
    have hwritten := hevents.written
    refine ⟨(chunkJson floats (state.content token false).1 false stats,
      (state.content token false).1) :: events, ?_, ?_, ?_, ?_, ?_⟩
    · rw [if_neg (by simp [StreamState.feed])] at hwritten ⊢
      rw [StreamState.feed, List.flatMap_cons, List.flatMap_cons, List.append_assoc, ← hwritten]
      exact congrArg (· ++ _) hcalls
    · exact List.forall_mem_cons.mpr ⟨⟨oneLine_chunkJson hstats _, doc,
        parse_document hdocument, hdoc⟩, hevents.framed⟩
    · rw [List.map_cons, List.flatten_cons, hevents.content, hbytes]
    · refine List.forall_mem_cons.mpr ⟨?_, hevents.kept⟩
      exact (congrArg List.length hincomplete).trans_le (StreamState.content_kept state token false)
    · intro hvalid
      have hall : ValidUtf8 (state.incompleteUtf8 ++ (token ++ Pieces.bytes (next :: rest))) := by
        simpa [Pieces.bytes] using hvalid
      obtain ⟨hcontent, hrest⟩ :=
        StreamState.content_valid hall (fun h : false = true => absurd h (by decide))
      exact List.forall_mem_cons.mpr ⟨hcontent, hevents.valid hrest⟩

/-- Numbers with six decimals, as integers in millionths. -/
def sixDecimals : Floats ℤ where
  stod text :=
    let magnitude := text.dropWhile (· = byte '-')
    if magnitude.all fun c => isDigit c || c = byte '.' then
      let decimals := ((magnitude.dropWhile isDigit).drop 1).take 6
      let value := (magnitude.takeWhile isDigit ++ decimals.rightpad 6 (byte '0')).foldl
        (fun n c => 10 * n + (c.toNat - 48 : ℤ)) 0
      some (if text.head? = some (byte '-') then -value else value)
    else none
  isFinite _ := true
  isNan _ := false
  signbit d := d < 0
  millionths d := d.natAbs

/-- Printed numbers are read back. -/
theorem sixDecimals_readsBack : sixDecimals.ReadsBack := by
  have hread (sign text : Bytes) (hsign : sign = [] ∨ sign = [byte '-'])
      (htext : ∀ c ∈ text, isDigit c = true ∨ c = byte '.') :
      ∃ v, sixDecimals.stod (sign ++ text) = some v ∧ sixDecimals.isFinite v = true := by
    have hall : ((sign ++ text).dropWhile (· = byte '-')).all (fun c => isDigit c || c = byte '.') =
        true := by
      rw [List.dropWhile_append_of_pos (by rcases hsign with rfl | rfl <;> simp), List.all_eq_true]
      exact fun c hc => by simpa using htext c (List.IsSuffix.mem hc (List.dropWhile_suffix _))
    exact ⟨_, if_pos hall, rfl⟩
  have hnat (n : ℕ) : ∀ c ∈ natText n, isDigit c = true ∨
      c = byte '.' := fun c hc => .inl ((digits_natText n).2 c hc)
  refine ⟨fun n => ?_, fun d _ => ?_⟩
  · unfold intText
    split
    · exact hread [byte '-'] _ (.inr rfl) (hnat _)
    · exact hread [] _ (.inl rfl) (hnat _)
  · refine hread _ _ (by split <;> simp) fun c hc => ?_
    rcases List.mem_append.mp hc with hc | hc
    · exact hnat _ c hc
    · rcases List.mem_cons.mp hc with rfl | hc
      · exact .inr rfl
      · rcases List.mem_append.mp hc with hc | hc
        · exact .inl (by rw [(List.mem_replicate.mp hc).2]; decide)
        · exact hnat _ c hc

/-- A stream of pieces is written as content events of one line each, which the parser accepts and
which hold the bytes of the pieces in order. At most three bytes are kept between two events, and
the events of a valid text are valid. -/
theorem stream_lossless (hreads : floats.ReadsBack) (pieces : Pieces D)
    (hfinite : ∀ p ∈ pieces.getLast?, FiniteStats floats p.2) :
    ∃ events, Lossless floats pieces.bytes (StreamState.feed floats {} pieces) events := by
  cases pieces with
  | nil =>
    exact ⟨[], ⟨rfl, fun _ h => absurd h List.not_mem_nil, rfl,
      fun _ h => absurd h List.not_mem_nil,
      fun _ _ h => absurd h List.not_mem_nil⟩⟩
  | cons piece rest => exact feed_lossless hreads {} rfl piece rest hfinite

/-- A character is cut by two pieces, and comes with statistics. -/
theorem stream_lossless_cut : ∃ events, Lossless sixDecimals [0xC3, 0xA9]
    (StreamState.feed sixDecimals {} [([0xC3], none), ([0xA9], some ⟨2, 0, 2, 2, 1500000, 250000⟩)])
      events :=
  stream_lossless sixDecimals_readsBack [([0xC3], none),
    ([0xA9], some ⟨2, 0, 2, 2, 1500000, 250000⟩)]
    (fun p hp s hs => by cases hp; cases hs; exact ⟨rfl, rfl⟩)

end RadixForge
