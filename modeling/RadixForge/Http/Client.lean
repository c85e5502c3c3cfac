import RadixForge.Http.Handler

/-!
# The client of a stream

A client splits what it receives into lines, reads the data of each event but the last as a
document, and appends its content, as the loop in `scripts/ab_open_loop.py` does. What it has read
after any of the writes is a beginning of what the request generates when it runs alone, and all of
it after the last piece.
-/

namespace RadixForge

open Library

variable {D L : Type} {floats : Floats D}

/-- The byte that ends a line. -/
def newline : UInt8 := byte '\n'

/-- The content of a document, if it has any. -/
def contentOf (doc : JsonValue D) : Bytes :=
  match deltaContent doc with
  | .string content => content
  | _ => []

/-- The body of the loop: the text after a line, unless the data of the line is no document. -/
def readLine (floats : Floats D) (text line : Bytes) : Option Bytes :=
  if line.take 6 ≠ ascii "data: " ∨ line = ascii "data: [DONE]" then some text
  else
    match parse floats (line.drop 6) with
    | .returned doc => some (text ++ contentOf doc)
    | _ => none

/-- The text after some more of the stream. -/
def readFrom (floats : Floats D) (text stream : Bytes) : Option Bytes :=
  (stream.splitOn newline).foldlM (readLine floats) text

/-- The text of a stream. -/
def readStream (floats : Floats D) (stream : Bytes) : Option Bytes := readFrom floats [] stream

/-- The bytes that a use of the sink writes. -/
def SinkCall.bytes : SinkCall → Bytes
  | .isWritable => []
  | .write bytes => bytes

/-- The bytes that uses of the sink write. -/
def wire (uses : List Use) : Bytes := uses.flatMap fun u => u.call.bytes

/-- Bytes that a client reads as some content, wherever they come in the stream. -/
def Adds (floats : Floats D) (bytes content : Bytes) : Prop :=
  ∀ text rest, readFrom floats text (bytes ++ rest) = readFrom floats (text ++ content) rest

section Lines

/-- Nothing is read as nothing. -/
theorem adds_nil (floats : Floats D) : Adds floats [] [] := by
  intro text rest
  rw [List.nil_append, List.append_nil]

/-- A line of its own is read first. -/
theorem readFrom_line {line : Bytes} (hline : newline ∉ line) (text rest : Bytes) :
    readFrom floats text (line ++ newline :: rest) = (readLine floats text line).bind fun text =>
      readFrom floats text rest := by
  rw [readFrom, List.splitOn_append_cons_self_of_not_mem hline, List.foldlM_cons]
  rfl

/-- A line without data is skipped. -/
theorem readLine_nil (text : Bytes) : readLine floats text [] = some text := rfl

/-- An event is read as what its line says. -/
theorem adds_event {line content : Bytes} (hline : OneLine line)
    (hreads : ∀ text, readLine floats text (ascii "data: " ++ line) = some (text ++ content)) :
      Adds floats (event line) content := by
  intro text rest
  have hdata : newline ∉ ascii "data: " ++ line := fun hmem =>
    absurd ((OneLine.append (by decide) hline) newline hmem) (by decide)
  have hevent : event line ++ rest =
      (ascii "data: " ++ line) ++ newline :: ([] ++ newline :: rest) := by
    rw [event, List.append_assoc, List.append_assoc, List.append_assoc]
    rfl
  rw [hevent, readFrom_line hdata, hreads, Option.bind_some, readFrom_line List.not_mem_nil,
    readLine_nil, Option.bind_some]

/-- An event with a document is read as its content. -/
theorem adds_document {line : Bytes} {doc : JsonValue D} (hline : OneLine line)
    (hbrace : line.head? = some openBrace) (hdocument : Document floats maxDepth line doc) :
    Adds floats (event line) (contentOf doc) := by
  refine adds_event hline fun text => ?_
  have hdata : ¬ ((ascii "data: " ++ line).take 6 ≠ ascii "data: " ∨
      ascii "data: " ++ line = ascii "data: [DONE]") := by
    rintro (htake | hdone)
    · exact htake (List.take_left' rfl)
    · have hline' : line = ascii "[DONE]" := congrArg (List.drop 6) hdone
      rw [hline'] at hbrace
      exact absurd hbrace (by decide)
  have hdrop : (ascii "data: " ++ line).drop 6 = line := List.drop_left' rfl
  rw [readLine, if_neg hdata, hdrop, parse_document hdocument]

end Lines

section Events

/-- A content event is read as its content. -/
theorem adds_chunk (hreads : floats.ReadsBack) {isLast : Bool} {stats : Option (Statistics D)}
    (hfinite : isLast = true → FiniteStats floats stats) (content : Bytes) :
    Adds floats (event (chunkJson floats content isLast stats)) content := by
  obtain ⟨doc, hdocument, hdelta⟩ := document_chunkJson hreads hfinite content
  have hadds := adds_document (oneLine_chunkJson hfinite content) rfl hdocument
  rwa [contentOf, hdelta] at hadds

/-- The event that keeps a connection open is read as nothing. -/
theorem adds_keepAlive (floats : Floats D) : Adds floats keepAlive [] := by
  have hline : OneLine
      (ascii "\x7b\"choices\":[\x7b\"delta\":\x7b\x7d,\"finish_reason\":null\x7d]\x7d") := by decide
  refine adds_event hline fun text => ?_
  rw [List.append_nil]
  exact congrArg some (List.append_nil text)

/-- The event that ends a stream is read as nothing. -/
theorem adds_doneEvent (floats : Floats D) : Adds floats doneEvent [] := by
  have hline : OneLine (ascii "[DONE]") := by decide
  exact adds_event hline fun text => congrArg some (List.append_nil text).symm

/-- The event of an error is read as nothing. -/
theorem adds_error (floats : Floats D) (message : Bytes) (status : ℕ) :
    Adds floats (event (errorJson message (errorType status))) [] := by
  have htype : Plain (errorType status) := by
    unfold errorType
    split <;> decide
  obtain ⟨error, _, herror⟩ :=
    value_object [(ascii "message", _, _), (ascii "type", _, _)] (List.cons_ne_nil _ _)
    (by
      simp only [List.forall_mem_cons, List.not_mem_nil, false_imp_iff, implies_true, and_true]
      decide)
    (List.forall_mem_cons.mpr ⟨value_jsonEscape 62 message,
      List.forall_mem_singleton.mpr (.string 62 htype.chars)⟩)
  obtain ⟨entries, hentries, hvalue⟩ := value_object [(ascii "error", _, _)] (List.cons_ne_nil _ _)
    (by
      simp only [List.forall_mem_cons, List.not_mem_nil, false_imp_iff, implies_true, and_true]
      decide)
    (List.forall_mem_singleton.mpr herror)
  simp only [List.map_cons, List.map_nil, separated, memberText, List.append_assoc,
    List.cons_append, List.nil_append]
    at hvalue
  have hdocument : Document floats maxDepth (errorJson message (errorType status))
      (.object entries) :=
    ⟨compactItem _ _, ⟨isWs_nil, isWs_nil⟩, rfl, hvalue, (List.append_nil _).symm⟩
  -- it has no choices
  have hcontent : contentOf (.object entries) = [] := by
    have hkey : ¬ ascii "error" = ascii "choices" := by decide
    have hchoices : lookup (ascii "choices") entries = none := by
      rw [hentries, List.map_cons, List.map_nil, lookup_cons, if_neg hkey]
      rfl
    simp only [contentOf, deltaContent, JsonValue.field, hchoices]
    rfl
  have hline : OneLine (errorJson message (errorType status)) :=
    OneLine.append (by decide) ((oneLine_jsonEscape message).append (OneLine.append (by decide)
      (OneLine.append (fun c hc => (htype c hc).1) (by decide))))
  exact hcontent ▸ adds_document hline rfl hdocument

/-- Calls of the sink with what a client reads of each. -/
def Conveyed (floats : Floats D) (calls : List SinkCall) (contents : List Bytes) : Prop :=
  List.Forall₂ (fun call content => Adds floats call.bytes content) calls contents

/-- What two parts of the calls convey, they convey together. -/
theorem Conveyed.append {calls calls' : List SinkCall} {contents contents' : List Bytes}
    (h : Conveyed floats calls contents) (h' : Conveyed floats calls' contents') :
    Conveyed floats (calls ++ calls') (contents ++ contents') := List.rel_append h h'

/-- The contents of the first calls come first. -/
theorem Conveyed.split {calls calls' : List SinkCall} {contents : List Bytes}
    (h : Conveyed floats (calls ++ calls') contents) :
    ∃ first second, Conveyed floats calls first ∧ Conveyed floats calls' second ∧
      first ++ second = contents := by
  induction calls generalizing contents with
  | nil => exact ⟨[], contents, .nil, h, rfl⟩
  | cons call calls ih =>
    cases h with
    | cons hcall hrest =>
      obtain ⟨first, second, hfirst, hsecond, rfl⟩ := ih hrest
      exact ⟨_ :: first, second, .cons hcall hfirst, hsecond, rfl⟩

/-- What is written is read. -/
theorem Conveyed.read {uses : List Use} {contents : List Bytes}
    (h : Conveyed floats (uses.map Use.call) contents) (text : Bytes) :
    readFrom floats text (wire uses) = some (text ++ contents.flatten) := by
  induction uses generalizing contents text with
  | nil =>
    cases h
    exact congrArg some (List.append_nil text).symm
  | cons u uses ih =>
    cases h with
    | cons hfirst hrest =>
      rw [wire, List.flatMap_cons, hfirst, ← wire, ih hrest, List.flatten_cons, List.append_assoc]

end Events

/-- The last piece closes a stream. -/
theorem Event.closes_of_isLast {e : Event} (h : e.isLast = true) : e.closes = true := by
  cases e with
  | onToken => exact h
  | onError => rfl
  | polled | onCancel => contradiction

/-- What a callback sends: contents that begin with what the state kept, and that end where it keeps
the rest. -/
structure StreamState.Sends (floats : Floats D) (state : StreamState) (piece : Bytes)
    (isLast : Bool) (after : StreamState) (calls : List SinkCall) (contents : List Bytes) :
    Prop where
  conveyed : Conveyed floats calls contents
  given : contents.flatten <+: state.incompleteUtf8 ++ piece
  kept : after.cancelled = false →
    contents.flatten ++ after.incompleteUtf8 = state.incompleteUtf8 ++ piece
  ended : isLast = true → after.cancelled = false → after.incompleteUtf8 = []

namespace StreamState

/-- A piece that the sink takes is sent with what was held back before it. -/
theorem onToken_sends (hreads : floats.ReadsBack) {state : StreamState}
    (hopen : state.cancelled = false) (piece : Bytes) {isLast : Bool}
    {stats : Option (Statistics D)} (hfinite : isLast = true → FiniteStats floats stats)
    (answers : SinkAnswers) :
    ∃ contents, state.Sends floats piece isLast (state.onToken floats piece isLast stats answers).1
      (state.onToken floats piece isLast stats answers).2 contents := by
  have hchunk := adds_chunk hreads hfinite (state.content piece isLast).1
  have happend := content_append state piece isLast
  have hgiven : [[], (state.content piece isLast).1].flatten <+: state.incompleteUtf8 ++ piece :=
    ⟨(state.content piece isLast).2, by simpa using happend⟩
  unfold onToken
  rw [if_neg (by rw [hopen]; exact Bool.false_ne_true)]
  split
  · exact ⟨[[]], .cons (adds_nil floats) .nil, List.nil_prefix, fun h => absurd h Bool.noConfusion,
      fun _ h => absurd h Bool.noConfusion⟩
  · dsimp only
    split
    · exact ⟨[[], _], .cons (adds_nil floats) (.cons hchunk .nil), hgiven,
        fun h => absurd h Bool.noConfusion,
        fun _ h => absurd h Bool.noConfusion⟩
    · split
      · rename_i hlast
        subst hlast
        refine ⟨[[], _, []], .cons (adds_nil floats)
          (.cons hchunk (.cons (adds_doneEvent floats) .nil)), ?_, fun _ => ?_,
          fun _ _ => rfl⟩
        · simpa using hgiven
        · simpa using happend
      · rename_i hlast
        exact ⟨[[], _], .cons (adds_nil floats) (.cons hchunk .nil), hgiven,
          fun _ => by simpa using happend,
          fun h => absurd h hlast⟩

/-- An error sends no text of the completion. -/
theorem onError_sends (floats : Floats D) {state : StreamState} (hopen : state.cancelled = false)
    (message : Bytes) (status : ℕ) (answers : SinkAnswers) :
    ∃ contents, state.Sends floats [] false (state.onError message status answers).1
      (state.onError message status answers).2 contents := by
  have herror : Adds floats (event (errorJson message (errorType status))) [] :=
    adds_error floats message status
  have hnothing {after : StreamState} {calls : List SinkCall} {contents : List Bytes}
      (hconveyed : Conveyed floats calls contents)
      (hempty : contents.flatten = []) (hkept : after.incompleteUtf8 = state.incompleteUtf8) :
      state.Sends floats [] false after calls contents :=
    ⟨hconveyed, hempty ▸ List.nil_prefix,
      fun _ => by rw [hempty, hkept, List.append_nil, List.nil_append],
      fun h => absurd h Bool.false_ne_true⟩
  unfold onError
  rw [if_neg (by rw [hopen]; exact Bool.false_ne_true)]
  dsimp only
  split
  · exact ⟨[[]], hnothing (.cons (adds_nil floats) .nil) rfl rfl⟩
  · split
    · exact ⟨[[], []], hnothing (.cons (adds_nil floats) (.cons herror .nil)) rfl rfl⟩
    · exact ⟨[[], [], []], hnothing
        (.cons (adds_nil floats) (.cons herror (.cons (adds_doneEvent floats) .nil))) rfl rfl⟩

/-- Nothing is sent when the wait for the worker times out, and nothing held back is lost. -/
theorem onTimeout_sends (floats : Floats D) (state : StreamState) (answers : SinkAnswers) :
    ∃ contents, Conveyed floats (state.onTimeout answers).2 contents ∧ contents.flatten = [] ∧
      (state.onTimeout answers).1.incompleteUtf8 = state.incompleteUtf8 ∧
        ((state.onTimeout answers).1.cancelled = false → state.cancelled = false) := by
  unfold onTimeout
  split
  · exact ⟨[[]], .cons (adds_nil floats) .nil, rfl, rfl, fun h => absurd h Bool.noConfusion⟩
  · split
    · exact ⟨[[], []], .cons (adds_nil floats) (.cons (adds_keepAlive floats) .nil), rfl, rfl,
        fun h => absurd h Bool.noConfusion⟩
    · exact ⟨[[], []], .cons (adds_nil floats) (.cons (adds_keepAlive floats) .nil),
        rfl, rfl, fun h => h⟩

end StreamState

/-- The durations of a callback are finite. -/
def Critical.Finite (floats : Floats D) : Critical D → Prop
  | .callback _ promptMs predictedMs _ => floats.isFinite promptMs = true ∧
    floats.isFinite predictedMs = true
  | _ => True

namespace Stream

variable {s s' : Stream}

/-- A client reads the text of the callbacks so far, but for what is kept, unless the stream was
cancelled on the way. -/
structure Delivers (floats : Floats D) (s : Stream) : Prop where
  contents : ∃ contents, Conveyed floats (s.uses.map Use.call) contents ∧
    contents.flatten <+: textOf s.heard ∧
    (s.state.cancelled = false → contents.flatten ++ s.state.incompleteUtf8 = textOf s.heard)
  ended : s.state.cancelled = false → (∃ e ∈ s.heard, e.isLast = true) → s.state.incompleteUtf8 = []

/-- A step without a callback or a use of the sink. -/
theorem Delivers.same (h : s.Delivers floats) (hcancelled : s'.state.cancelled = s.state.cancelled)
    (hkept : s'.state.incompleteUtf8 = s.state.incompleteUtf8) (huses : s'.uses = s.uses)
    (hheard : s'.heard = s.heard) :
    s'.Delivers floats where
  contents := by
    rw [huses, hheard, hcancelled, hkept]
    exact h.contents
  ended := by
    rw [hheard, hcancelled, hkept]
    exact h.ended

/-- A callback that sends nothing and delivers no text while the stream is open. -/
theorem Delivers.hear (h : s.Delivers floats) {e : Event}
    (hpiece : s.state.cancelled = false → e.piece = [])
    (hlast : s.state.cancelled = false → e.isLast = false) :
    Delivers floats { s with heard := s.heard ++ [e] } where
  contents := by
    obtain ⟨contents, hconveyed, hgiven, hkept⟩ := h.contents
    refine ⟨contents, hconveyed, ?_, fun hopen => ?_⟩
    · rw [textOf_append]
      exact hgiven.trans (List.prefix_append _ _)
    · rw [textOf_append, textOf_singleton, hpiece hopen, List.append_nil]
      exact hkept hopen
  ended := by
    intro hopen ⟨e', he', hends⟩
    rcases List.mem_append.mp he' with he' | he'
    · exact h.ended hopen ⟨e', he', hends⟩
    · rw [List.mem_singleton.mp he', hlast hopen] at hends
      contradiction

/-- A callback that sends contents. -/
theorem Delivers.send (h : s.Delivers floats) (hopen : s.state.cancelled = false) {e : Event}
    {isLast : Bool} {result : StreamState × List SinkCall}
    (hsends : ∃ contents, s.state.Sends floats e.piece isLast result.1 result.2 contents)
    (hlast : e.isLast = isLast) (hfirst : ¬ ∃ e' ∈ s.heard, e'.isLast = true) :
    Delivers floats { s.use true result with heard := s.heard ++ [e] } where
  contents := by
    obtain ⟨contents, hconveyed, _, hkept⟩ := h.contents
    obtain ⟨contents', hsends⟩ := hsends
    refine ⟨contents ++ contents', ?_, ?_, fun hopen' => ?_⟩
    · have hcalls : (s.use true result).uses.map Use.call = s.uses.map Use.call ++ result.2 := by
        simp [use, Function.comp_def]
      rw [hcalls]
      exact hconveyed.append hsends.conveyed
    · rw [textOf_append, textOf_singleton, ← hkept hopen, List.flatten_append, List.append_assoc]
      exact (List.prefix_append_right_inj _).mpr hsends.given
    · rw [textOf_append, textOf_singleton, ← hkept hopen, List.flatten_append, List.append_assoc,
        List.append_assoc, ← hsends.kept hopen']
      rfl
  ended := by
    intro hopen' ⟨e', he', hends⟩
    obtain ⟨contents', hsends⟩ := hsends
    rcases List.mem_append.mp he' with he' | he'
    · exact absurd ⟨e', he', hends⟩ hfirst
    · rw [List.mem_singleton.mp he', hlast] at hends
      exact hsends.ended hends hopen'

/-- A callback delivers its text. -/
theorem callback_delivers (hreads : floats.ReadsBack) {e : Event} {promptMs predictedMs : D}
    {answers : SinkAnswers} (h : s.Delivers floats)
    (hfinite : floats.isFinite promptMs = true ∧ floats.isFinite predictedMs = true)
    (hcallback : s.callback floats promptMs predictedMs answers e = some s')
    (hfinal : Final (s.heard ++ [e])) :
    Delivers floats { s' with heard := s.heard ++ [e] } := by
  have hfirst (hsink : e.usesSink = true) : ¬ ∃ e' ∈ s.heard, e'.isLast = true := by
    rintro ⟨e', he', hlast⟩
    have hnot := (List.pairwise_append.mp hfinal).2.2 e' he' e (List.mem_singleton_self e)
      (Event.closes_of_isLast hlast)
    exact absurd (hnot.symm.trans hsink) Bool.false_ne_true
  cases e with
  | polled answer =>
    simp only [callback] at hcallback
    split at hcallback
    · cases hcallback
      exact h.hear (fun _ => rfl) fun _ => rfl
    · contradiction
  | onCancel =>
    cases hcallback
    exact h.hear (fun _ => rfl) fun _ => rfl
  | onToken token piece isLast stats =>
    cases hcallback
    cases hopen : s.state.cancelled with
    | true =>
      rw [StreamState.onToken, if_pos hopen]
      have hsame := h.hear (e := .onToken token piece isLast stats)
        (fun hnot => absurd (hnot.symm.trans hopen) Bool.false_ne_true)
        (fun hnot => absurd (hnot.symm.trans hopen) Bool.false_ne_true)
      simpa [use] using hsame
    | false =>
      refine h.send hopen
        (StreamState.onToken_sends hreads hopen piece (fun _ st hst => ?_) answers) rfl (hfirst rfl)
      obtain ⟨_, _, rfl⟩ := Option.map_eq_some_iff.mp hst
      exact hfinite
  | onError message status =>
    cases hcallback
    cases hopen : s.state.cancelled with
    | true =>
      rw [StreamState.onError, if_pos hopen]
      simpa [use] using h.hear (e := .onError message status) (fun _ => rfl) fun _ => rfl
    | false =>
      exact h.send hopen (StreamState.onError_sends floats hopen _ status answers) rfl (hfirst rfl)

/-- A step of a stream whose callbacks are final. -/
theorem step_delivers (hreads : floats.ReadsBack) {move : Critical D} (h : s.Delivers floats)
    (hfinite : move.Finite floats)
    (hstep : s.step floats move = some s') (hfinal : Final s'.heard) : s'.Delivers floats := by
  cases move with
  | install | enqueue | awake | complete =>
    simp only [step] at hstep
    split at hstep
    · cases hstep
      exact h.same rfl rfl rfl rfl
    · contradiction
  | timeout answers =>
    simp only [step] at hstep
    split at hstep
    · cases hstep
      obtain ⟨contents, hconveyed, hgiven, hkept⟩ := h.contents
      obtain ⟨contents', hconveyed', hempty, hsame, hopen⟩ :=
        StreamState.onTimeout_sends floats s.state answers
      refine ⟨⟨contents ++ contents', ?_, ?_, fun hnot => ?_⟩, fun hnot hends => ?_⟩
      · have hcalls : (s.use false (s.state.onTimeout answers)).uses.map Use.call =
            s.uses.map Use.call ++ (s.state.onTimeout answers).2 := by
          simp [use, Function.comp_def]
        exact hcalls ▸ hconveyed.append hconveyed'
      · rw [List.flatten_append, hempty, List.append_nil]
        exact hgiven
      · rw [List.flatten_append, hempty, List.append_nil]
        exact (congrArg (contents.flatten ++ ·) hsame).trans (hkept (hopen hnot))
      · exact hsame.trans (h.ended (hopen hnot) hends)
    · contradiction
  | callback e promptMs predictedMs answers =>
    simp only [step] at hstep
    split at hstep
    · contradiction
    · contradiction
    · obtain ⟨s₁, hcallback, rfl⟩ := Option.map_eq_some_iff.mp hstep
      exact callback_delivers hreads h hfinite hcallback hfinal

/-- A run whose callbacks are final. -/
theorem run_delivers (hreads : floats.ReadsBack) {steps : List (Critical D)}
    (hfinite : ∀ move ∈ steps, move.Finite floats) (hrun : Run floats {} steps s)
    (hfinal : Final s.heard) : s.Delivers floats := by
  have hallowed : RunsWithin (step floats) (fun _ move => move.Finite floats) {} steps :=
    fun before move after heq _ _ =>
    hfinite move (heq ▸ List.mem_append_right before List.mem_cons_self)
  refine run_invariant_within (P := fun s => Final s.heard → s.Delivers floats)
    (fun s₁ move s₂ hdelivers hmove hstep hfinal' => ?_)
    (fun _ => ⟨⟨[], .nil, List.nil_prefix, fun _ => rfl⟩, fun _ _ => rfl⟩) hallowed hrun hfinal
  exact step_delivers hreads (hdelivers (hfinal'.sublist (step_heard hstep).sublist))
    hmove hstep hfinal'

end Stream

/-- In every interleaving of the content provider with the callbacks that the worker invokes in a
run, and for all answers of the sink, a client reads every part of what was written. What it reads
is a beginning of the text of all that the request generates when it runs alone, and the whole of it
when the last piece came and the sink did not fail. -/
theorem client_reads_text (b : Bridge L) (config : Config) (order : ChildOrder)
    (actions : List Action) (k : Worker L)
    (hrun : (Worker.init config order : Worker L).Run b actions k) (id : ℕ)
    (hid : id < k.arrivals.length) (floats : Floats D) (hreads : floats.ReadsBack)
    (steps : List (Critical D)) (hfinite : ∀ move ∈ steps, move.Finite floats) (s : Stream)
    (hsteps : Stream.Run floats {} steps s) (hheard : s.heard <+: k.world.eventsOf id)
    (uses : List Use) (huses : uses <+: s.uses) :
    ∃ text, readStream floats (wire uses) = some text ∧
      text <+: b.textOf (b.generate k.arrivals[id]) ∧
      (uses = s.uses → s.state.cancelled = false → (∃ e ∈ s.heard, e.isLast = true) →
        text = b.textOf (b.generate k.arrivals[id])) := by
  have hfinal := events_final hrun id
  have hdelivers := Stream.run_delivers hreads hfinite hsteps (hfinal.sublist hheard.sublist)
  obtain ⟨contents, hconveyed, hgiven, hkept⟩ := hdelivers.contents
  obtain ⟨hbegins, hall⟩ := Worker.run_text hrun hid
  have htext : textOf s.heard <+: textOf (k.world.eventsOf id) := by
    obtain ⟨rest, hrest⟩ := hheard
    exact ⟨textOf rest, by rw [← hrest, textOf_append]⟩
  obtain ⟨later, hlater⟩ := huses
  rw [← hlater, List.map_append] at hconveyed
  obtain ⟨first, second, hfirst, hsecond, rfl⟩ := hconveyed.split
  refine ⟨first.flatten, hfirst.read [], ?_, fun heq hopen hlast => ?_⟩
  · rw [List.flatten_append] at hgiven
    exact (((List.prefix_append _ _).trans hgiven).trans htext).trans hbegins
  · -- nothing is kept after the last piece, and no text comes after it
    obtain ⟨e, he, hends⟩ := hlast
    have hnone : second = [] := by
      rw [List.append_right_eq_self.mp (hlater.trans heq.symm)] at hsecond
      cases hsecond
      rfl
    have hsofar := hkept hopen
    rw [hdelivers.ended hopen ⟨e, he, hends⟩, hnone, List.append_nil, List.append_nil] at hsofar
    rw [hsofar, hfinal.textOf_eq hheard ⟨e, he, Event.closes_of_isLast hends⟩]
    exact hall ⟨e, hheard.subset he, hends⟩

/-- The two bytes of a character come in two pieces, and the connection is kept open between them.
-/
theorem client_reads_text_cut : ∃ k s,
    (Worker.init ⟨4, 64, true⟩ .stored).Run
      { Bridge.counting (fun _ => [5, 6]) 0 with tokenToPiece := fun token =>
        if token = 1 then [0xC3] else [0xA9] }
      (.enqueue { maxTokens := 2 } :: Worker.iteration 0 0 ++ Worker.iteration 0 0) k ∧
      Stream.Run sixDecimals {}
        (.install :: .enqueue ::
          ([.polled false, .polled false, .polled false, .onToken (some 1) [0xC3] false none].map
            fun e => .callback e 0 0 {}) ++ .timeout {} :: ([.polled false, .polled false,
          .onToken (some 2) [0xA9] true (some ⟨2, 0, 2, 2⟩), .polled false].map fun e =>
            .callback e 1500000 250000 {}) ++
            [.awake, .complete]) s ∧
      readStream sixDecimals (wire s.uses) = some [0xC3, 0xA9] := by
  have hworker : (run (Worker.step
      { Bridge.counting (fun _ => [5, 6]) 0 with tokenToPiece := fun token =>
        if token = 1 then [0xC3] else [0xA9] })
      (Worker.init ⟨4, 64, true⟩ .stored)
        (.enqueue { maxTokens := 2 } :: Worker.iteration 0 0 ++ Worker.iteration 0 0)).any
        (fun k => k.world.eventsOf 0 =
          [.polled false, .polled false, .polled false, .onToken (some 1) [0xC3] false none,
            .polled false, .polled false, .onToken (some 2) [0xA9] true (some ⟨2, 0, 2, 2⟩),
            .polled false] ∧
            k.arrivals.map (Bridge.generate { Bridge.counting (fun _ => [5, 6]) 0 with
              tokenToPiece := fun token => if token = 1 then [0xC3] else [0xA9] }) = [[1, 2]]) =
                true := by decide +kernel
  obtain ⟨k, hk, hcond⟩ := (Option.any_eq_true _ _).mp hworker
  obtain ⟨hevents, hgenerates⟩ := of_decide_eq_true hcond
  have hstream : (run (Stream.step sixDecimals) {}
      (.install :: .enqueue ::
        ([.polled false, .polled false, .polled false, .onToken (some 1) [0xC3] false none].map
          fun e => .callback e 0 0 {}) ++ .timeout {} :: ([.polled false, .polled false,
        .onToken (some 2) [0xA9] true (some ⟨2, 0, 2, 2⟩), .polled false].map fun e =>
          .callback e 1500000 250000 {}) ++
          [.awake, .complete])).any (fun s => s.state.cancelled = false ∧
            s.heard = [.polled false, .polled false, .polled false,
              .onToken (some 1) [0xC3] false none, .polled false, .polled false,
              .onToken (some 2) [0xA9] true (some ⟨2, 0, 2, 2⟩), .polled false]) = true := by
                decide +kernel
  obtain ⟨s, hs, hcond⟩ := (Option.any_eq_true _ _).mp hstream
  obtain ⟨hopen, hheard⟩ := of_decide_eq_true hcond
  have hid : 0 < k.arrivals.length := by
    have hlength := congrArg List.length hgenerates
    rw [List.length_map] at hlength
    exact hlength ▸ Nat.zero_lt_one
  obtain ⟨text, htext, _, hwhole⟩ :=
    client_reads_text _ _ _ _ k hk 0 hid sixDecimals sixDecimals_readsBack _
    (fun move hmove => by cases move with
      | callback => exact ⟨rfl, rfl⟩
      | _ => trivial) s hs (by rw [hheard, hevents]) _ (List.prefix_refl _)
  have hget : (k.arrivals.map (Bridge.generate { Bridge.counting (fun _ => [5, 6]) 0 with
      tokenToPiece := fun token => if token = 1 then [0xC3] else [0xA9] }))[0]? =
        some [1, 2] := by rw [hgenerates]; rfl
  rw [List.getElem?_map, List.getElem?_eq_getElem hid] at hget
  have hall := hwhole rfl hopen
    (by rw [hheard]; exact ⟨.onToken (some 2) [0xA9] true (some ⟨2, 0, 2, 2⟩), by simp, rfl⟩)
  rw [Option.some.inj hget] at hall
  exact ⟨k, s, hk, hs, htext.trans (congrArg some hall)⟩

end RadixForge
