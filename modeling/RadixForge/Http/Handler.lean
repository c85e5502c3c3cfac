import RadixForge.Http.Sink
import RadixForge.Worker.Limits
import RadixForge.Worker.Telling

/-!
# The non-streaming handler

A request without streaming between the worker and its handler, which waits until the request is
done or its time is over. The closures `on_token`, `on_error` and `cancelled` first look whether the
request was given up. Then the former two take the lock, and `cancelled` asks the HTTP library about
the connection, through a reference to a request that lives until the handler returns. The handler
may give up and return between the two parts of a closure.
-/

namespace RadixForge

open Library

variable {D L : Type}

/-- `NonStreamState`. -/
structure NonStreamState (D : Type) where
  fullResponse : Bytes := []
  stats : Statistics D
  cancelled : Bool := false
  done : Bool := false
  errorStatus : ℕ := 0
  errorMessage : Bytes := []

/-- What a client is answered. A status that the handler does not set is 200. -/
structure Answer where
  status : ℕ
  body : Bytes
deriving DecidableEq

/-- The type of an error with a status. -/
def errorType (status : ℕ) :
    Bytes := ascii (if status = 400 then "invalid_request_error" else "server_error")

/-- The answer for an error of the worker. -/
def errorAnswer (message : Bytes) (status : ℕ) : Answer :=
  ⟨status, errorJson message (errorType status)⟩

/-- The answer when the time is over. -/
def timeoutAnswer : Answer := ⟨504, errorJson (ascii "inference timeout") (ascii "timeout_error")⟩

namespace NonStreamState

/-- The locked part of `on_token`. -/
def onToken (state : NonStreamState D) (token : Bytes) (isLast : Bool)
    (stats : Option (Statistics D)) : NonStreamState D :=
  let state := { state with fullResponse := state.fullResponse ++ token }
  if isLast then { state with stats := stats.getD state.stats, done := true } else state

/-- The locked part of `on_error`. -/
def onError (state : NonStreamState D) (message : Bytes) (status : ℕ) : NonStreamState D :=
  { state with errorStatus := status, errorMessage := message, done := true }

/-- What the handler answers when the request is done. -/
def answer (floats : Floats D) (isChat : Bool) (state : NonStreamState D) : Answer :=
  if state.errorStatus ≠ 0 then errorAnswer state.errorMessage state.errorStatus
  else ⟨200, completionJson floats state.fullResponse state.stats isChat⟩

end NonStreamState

/-- A request between its handler and the worker: the shared state, the closure that passed its
check and has its second part before it, the callbacks so far, whether the handler has given the
request to the worker, its answer once it returned, and for each use of the request of the HTTP
library whether it came after that. -/
structure Exchange (D : Type) where
  state : NonStreamState D
  pending : Option Event := none
  heard : List Event := []
  enqueued : Bool := false
  answer : Option Answer := none
  touches : List Bool := []

/-- What can happen next. -/
inductive Turn (D : Type) where
  | enqueue
  | callback (e : Event)
  | finish (promptMs predictedMs : D)
  | awake
  | timeout

namespace Exchange

variable (floats : Floats D) (isChat : Bool)

/-- A fresh exchange; the durations of its statistics are zero. -/
def init (zero : D) : Exchange D where
  state := { stats := ⟨0, 0, 0, 0, zero, zero⟩ }

/-- The first part of a callback: the check whether the request was given up. A request that was
given up answers `cancelled` with yes and ignores pieces and errors. -/
def callback (s : Exchange D) (e : Event) : Option (Exchange D) :=
  match e with
  | .onCancel => some s
  | .polled answer =>
    if s.state.cancelled then if answer then some s else none
      else some { s with pending := some (.polled answer) }
  | e => if s.state.cancelled then some s else some { s with pending := some e }

/-- The second part of the callback that passed its check: pieces and errors under the lock, and for
`cancelled` the question to the connection, which may answer anything. -/
def finish (s : Exchange D) (promptMs predictedMs : D) : Event → Exchange D
  | .onToken _ piece isLast stats =>
    { s with state := s.state.onToken piece isLast (stats.map fun stats =>
      stats.withDurations promptMs predictedMs)
             pending := none }
  | .onError message status =>
    { s with state := s.state.onError (encode message.toList) status, pending := none }
  | .polled _ => { s with touches := s.touches ++ [s.answer.isSome], pending := none }
  | .onCancel => { s with pending := none }

/-- One step; a step that its thread cannot make now is refused. -/
def step (s : Exchange D) : Turn D → Option (Exchange D)
  | .enqueue => if s.enqueued then none else some { s with enqueued := true }
  | .callback e =>
    if s.enqueued && s.pending.isNone then (s.callback e).map fun s' =>
      { s' with heard := s.heard ++ [e] } else none
  | .finish promptMs predictedMs => s.pending.map (s.finish promptMs predictedMs)
  | .awake =>
    if s.enqueued && s.answer.isNone && s.state.done then some {
      s with answer := some (s.state.answer floats isChat) }
    else none
  | .timeout =>
    if s.enqueued && s.answer.isNone && !s.state.done then
      some { s with state := { s.state with cancelled := true }, answer := some timeoutAnswer }
    else none

/-- The runs of an exchange. -/
abbrev Run (s : Exchange D) (turns : List (Turn D)) (s' : Exchange D) : Prop :=
  run (step floats isChat) s turns = some s'

end Exchange

section Texts

variable {b : Bridge L} {es : List Event}

/-- The text that a callback delivers. -/
def Event.piece : Event → Bytes
  | .onToken _ piece _ _ => piece
  | _ => []

/-- The text that callbacks deliver. -/
def textOf (es : List Event) : Bytes := es.flatMap Event.piece

/-- The text of tokens. -/
def Bridge.textOf (b : Bridge L) (tokens : List Token) : Bytes := tokens.flatMap b.tokenToPiece

/-- The text of two parts of a log is that of the first and then that of the second. -/
@[simp] theorem textOf_append (es es' : List Event) :
    textOf (es ++ es') = textOf es ++ textOf es' := List.flatMap_append

/-- The text of one callback is its piece. -/
@[simp] theorem textOf_singleton (e : Event) : textOf [e] = e.piece := List.flatMap_singleton _ _

/-- Only a piece delivers text. -/
theorem Event.piece_eq_nil {e : Event} (h : e.usesSink = false) : e.piece = [] := by
  cases e with
  | onToken => contradiction
  | _ => rfl

/-- Honest callbacks deliver the text of the tokens that they deliver. -/
theorem textOf_honest (h : ∀ e ∈ es, ∃ req, e.Honest b req) :
    textOf es = b.textOf (delivered es) := by
  induction es with
  | nil => rfl
  | cons e es ih =>
    have htail := ih fun e' he' => h e' (List.mem_cons_of_mem e he')
    have hpiece : e.piece = b.textOf e.token?.toList := by
      obtain ⟨req, hhonest⟩ := h e List.mem_cons_self
      cases e with
      | onToken token piece isLast stats =>
        obtain ⟨hpiece, _⟩ := hhonest
        rw [Event.piece, hpiece]
        cases token with
        | none => rfl
        | some token => exact (List.flatMap_singleton _ _).symm
      | _ => rfl
    calc textOf (e :: es) = e.piece ++ textOf es := List.flatMap_cons
      _ = b.textOf e.token?.toList ++ b.textOf (delivered es) := by rw [hpiece, htail]
      _ = b.textOf (delivered (e :: es)) := by
        rw [delivered_cons, Bridge.textOf, Bridge.textOf, Bridge.textOf, List.flatMap_append]

/-- The text of a request in a run is a beginning of what it generates when it runs alone, and all
of it once the last piece is delivered. -/
theorem Worker.run_text {config : Config} {order : ChildOrder} {actions : List Action}
    {k : Worker L} (hrun : (Worker.init config order : Worker L).Run b actions k) {id : ℕ}
    (hid : id < k.arrivals.length) :
    textOf (k.world.eventsOf id) <+: b.textOf (b.generate k.arrivals[id]) ∧
      ((∃ e ∈ k.world.eventsOf id, e.isLast = true) →
        textOf (k.world.eventsOf id) = b.textOf (b.generate k.arrivals[id])) := by
  have hhonest : ∀ e ∈ k.world.eventsOf id, ∃ req, e.Honest b req := fun e he => by
    obtain ⟨req, _, htrue⟩ := (Worker.run_truthful hrun).told id e he
    exact ⟨req, htrue⟩
  obtain ⟨hbegins, hall⟩ := (Worker.run_serves_all hrun).generated hid
  rw [textOf_honest hhonest]
  refine ⟨?_, fun hlast => congrArg b.textOf (hall hlast)⟩
  obtain ⟨rest, hrest⟩ := hbegins
  exact ⟨b.textOf rest, by rw [← hrest, Bridge.textOf, Bridge.textOf, Bridge.textOf,
    List.flatMap_append]⟩

/-- After the closing callback no text is delivered. -/
theorem Final.textOf_eq (h : Final es) {heard : List Event} (hheard : heard <+: es)
    (hclosed : ∃ e ∈ heard, e.closes = true) :
    textOf heard = textOf es := by
  obtain ⟨rest, rfl⟩ := hheard
  obtain ⟨e, he, hcloses⟩ := hclosed
  have hrest : textOf rest = [] :=
    List.flatMap_eq_nil_iff.mpr fun e' he' =>
      Event.piece_eq_nil ((List.pairwise_append.mp h).2.2 e he e' he' hcloses)
  rw [textOf_append, hrest, List.append_nil]

end Texts

namespace Exchange

variable {floats : Floats D} {isChat : Bool} {zero : D} {s s' : Exchange D}

/-- What the state holds after the closing callback. -/
def Carries (state : NonStreamState D) (e : Event) : Prop :=
  match e with
  | .onToken _ _ _ stats => state.errorStatus = 0 ∧
      ∀ st ∈ stats, ∃ promptMs predictedMs, state.stats = st.withDurations promptMs predictedMs
  | .onError message status => state.errorStatus = status ∧
    state.errorMessage = encode message.toList
  | _ => False

/-- An answer for a closing callback and a text. -/
def Answers (floats : Floats D) (isChat : Bool) (text : Bytes) (e : Event) (a : Answer) : Prop :=
  match e with
  | .onToken _ _ _ stats => ∀ st ∈ stats, ∃ promptMs predictedMs,
      a = ⟨200, completionJson floats text (st.withDurations promptMs predictedMs) isChat⟩
  | .onError message status => status ≠ 0 → a = errorAnswer (encode message.toList) status
  | _ => False

/-- The invariant of an exchange whose callbacks are the beginning of a list. -/
structure Keeps (floats : Floats D) (isChat : Bool) (es : List Event) (s : Exchange D) : Prop where
  waits : ∀ e ∈ s.pending, e ≠ .onCancel ∧ ∃ before, s.heard = before ++ [e]
  text : s.state.cancelled = false →
    s.state.fullResponse ++ (s.pending.map Event.piece).getD [] = textOf s.heard
  running : s.state.cancelled = false → s.state.done = false →
    s.state.errorStatus = 0 ∧ ∀ e ∈ s.heard, e.closes = true → s.pending = some e
  closed : s.state.cancelled = false → s.state.done = true →
    (∀ e ∈ s.pending, e.usesSink = false) ∧ ∃ e ∈ s.heard, e.closes = true ∧ Carries s.state e
  timedOut : s.state.cancelled = true → s.answer = some timeoutAnswer
  answered : ∀ a ∈ s.answer, a = timeoutAnswer ∨ ∃ e ∈ es, e.closes = true ∧
    Answers floats isChat (textOf es) e a
  returned : s.answer.isSome = true → s.state.cancelled = true ∨ s.state.done = true

/-- The first part of a callback. -/
inductive Called (s : Exchange D) (e : Event) : Exchange D → Prop where
  | waiting (he : e ≠ .onCancel) (hopen : s.state.cancelled = false) :
      s.Called e { s with pending := some e }
  | skipped (hquiet : s.state.cancelled = false → e.usesSink = false) : s.Called e s

/-- The first part of a callback lets it wait or skips it. -/
theorem callback_called {e : Event} (h : s.callback e = some s') : s.Called e s' := by
  have hwait (he : e ≠ .onCancel)
      (heq : (if s.state.cancelled then some s else some { s with pending := some e }) = some s') :
        s.Called e s' := by
    split at heq
    · rename_i hcancelled
      cases heq
      exact .skipped fun hopen => absurd (hopen.symm.trans hcancelled) Bool.false_ne_true
    · rename_i hopen
      cases heq
      exact .waiting he (Bool.not_eq_true _ ▸ hopen)
  cases e with
  | polled answer =>
    simp only [callback] at h
    split at h
    · split at h
      · cases h
        exact .skipped fun _ => rfl
      · contradiction
    · rename_i hopen
      cases h
      exact .waiting Event.noConfusion (Bool.not_eq_true _ ▸ hopen)
  | onCancel =>
    cases h
    exact .skipped fun _ => rfl
  | onToken token piece isLast stats => exact hwait Event.noConfusion h
  | onError message status => exact hwait Event.noConfusion h

/-- The first part of a callback keeps the invariant, if the callbacks so far are final. -/
theorem callback_keeps {es : List Event} {e : Event} (h : s.Keeps floats isChat es)
    (hnone : s.pending = none) (hcallback : s.callback e = some s')
    (hfinal : Final (s.heard ++ [e])) :
    Keeps floats isChat es { s' with heard := s.heard ++ [e] } := by
  have hheard (hcancelled : s.state.cancelled = false) : s.state.fullResponse = textOf s.heard := by
    have htext := h.text hcancelled
    rwa [hnone, Option.map_none, Option.getD_none, List.append_nil] at htext
  have hopen (hcancelled : s.state.cancelled = false) (hdone : s.state.done = false) :
      s.state.errorStatus = 0 ∧ ∀ e' ∈ s.heard, e'.closes = false := by
    obtain ⟨hstatus, hpending⟩ := h.running hcancelled hdone
    refine ⟨hstatus, fun e' he' => ?_⟩
    by_contra hcloses
    rw [Bool.not_eq_false] at hcloses
    exact absurd (hnone.symm.trans (hpending e' he' hcloses)) (Option.some_ne_none e').symm
  cases callback_called hcallback with
  | waiting he hcancelled =>
    refine ⟨fun e' he' => ?_, fun _ => ?_,
      fun _ hdone => ⟨(hopen hcancelled hdone).1, fun e' he' hcloses => ?_⟩,
      fun _ hdone => ?_, h.timedOut, h.answered, h.returned⟩
    · cases he'
      exact ⟨he, s.heard, rfl⟩
    · rw [textOf_append, textOf_singleton, ← hheard hcancelled]
      rfl
    · rcases List.mem_append.mp he' with he' | he'
      · rw [(hopen hcancelled hdone).2 e' he'] at hcloses
        contradiction
      · rw [List.mem_singleton.mp he']
    · -- nothing that waits for the lock comes after the closing callback
      obtain ⟨_, e', he', hcloses, hcarries⟩ := h.closed hcancelled hdone
      refine ⟨fun e'' he'' => ?_, e', List.mem_append_left _ he', hcloses, hcarries⟩
      cases he''
      exact (List.pairwise_append.mp hfinal).2.2 e' he' e (List.mem_singleton_self e) hcloses
  | skipped hquiet =>
    -- a callback that is skipped delivers nothing
    refine ⟨fun e' he' => ?_, fun hcancelled => ?_,
      fun hcancelled hdone => ⟨(hopen hcancelled hdone).1, fun e' he' hcloses => ?_⟩,
      fun hcancelled hdone => ?_, h.timedOut, h.answered, h.returned⟩
    · exact absurd (hnone.symm.trans he') (Option.some_ne_none e').symm
    · rw [textOf_append, textOf_singleton, Event.piece_eq_nil (hquiet hcancelled), List.append_nil]
      exact h.text hcancelled
    · rcases List.mem_append.mp he' with he' | he'
      · rw [(hopen hcancelled hdone).2 e' he'] at hcloses
        contradiction
      · have hnot := hquiet hcancelled
        rw [List.mem_singleton.mp he'] at hcloses
        cases e with
        | onToken | onError => contradiction
        | polled | onCancel => contradiction
    · obtain ⟨hpending, e', he', hcloses, hcarries⟩ := h.closed hcancelled hdone
      exact ⟨hpending, e', List.mem_append_left _ he', hcloses, hcarries⟩

/-- The second part of a callback keeps the invariant. -/
theorem finish_keeps {es : List Event} {e : Event} (h : s.Keeps floats isChat es)
    (hpending : s.pending = some e) (promptMs predictedMs : D) :
    (s.finish promptMs predictedMs e).Keeps floats isChat es := by
  obtain ⟨he, before, hbefore⟩ := h.waits e hpending
  have hmem : e ∈ s.heard := hbefore ▸ List.mem_append_right _ (List.mem_singleton_self e)
  -- while a callback waits for the lock, an open state is not done yet
  have hopen (hsink : e.usesSink = true)
      (hcancelled : s.state.cancelled = false) : s.state.done = false := by
    by_contra hdone
    rw [Bool.not_eq_false] at hdone
    exact absurd (((h.closed hcancelled hdone).1 e hpending).symm.trans hsink) Bool.false_ne_true
  have htext (hcancelled : s.state.cancelled = false) : s.state.fullResponse ++ e.piece = textOf
      s.heard := by
    have htext := h.text hcancelled
    rwa [hpending] at htext
  cases e with
  | onCancel => exact absurd rfl he
  | polled answer =>
    refine ⟨fun e' he' => absurd he' (Option.not_mem_none e'), htext, fun hcancelled hdone => ?_,
      fun hcancelled hdone => ⟨fun e' he' => absurd he'
        (Option.not_mem_none e'), (h.closed hcancelled hdone).2⟩,
      h.timedOut, h.answered, h.returned⟩
    obtain ⟨hstatus, hlast⟩ := h.running hcancelled hdone
    refine ⟨hstatus, fun e' he' hcloses => ?_⟩
    cases hpending.symm.trans (hlast e' he' hcloses)
    contradiction
  | onError message status =>
    refine ⟨fun e' he' => absurd he' (Option.not_mem_none e'), htext, fun _ hdone => absurd
      hdone Bool.noConfusion,
      fun _ _ => ⟨fun e' he' => absurd he' (Option.not_mem_none e'), _, hmem,
        rfl, rfl, rfl⟩, h.timedOut, h.answered,
      fun _ => .inr rfl⟩
  | onToken token piece isLast stats =>
    cases isLast with
    | false =>
      refine ⟨fun e' he' => absurd he'
        (Option.not_mem_none e'), fun hcancelled => ?_, fun hcancelled hdone => ?_,
        fun hcancelled hdone => ?_, h.timedOut, h.answered, h.returned⟩
      · exact (List.append_nil _).trans (htext hcancelled)
      · obtain ⟨hstatus, hlast⟩ := h.running hcancelled hdone
        refine ⟨hstatus, fun e' he' hcloses => ?_⟩
        cases hpending.symm.trans (hlast e' he' hcloses)
        contradiction
      · exact absurd ((hopen rfl hcancelled).symm.trans hdone) Bool.false_ne_true
    | true =>
      refine ⟨fun e' he' => absurd he' (Option.not_mem_none e'), fun hcancelled => ?_,
        fun _ hdone => absurd hdone Bool.noConfusion,
        fun hcancelled _ =>
          ⟨fun e' he' => absurd he' (Option.not_mem_none e'), _, hmem, rfl, ?_, ?_⟩,
        h.timedOut, h.answered, fun _ => .inr rfl⟩
      · exact (List.append_nil _).trans (htext hcancelled)
      · exact (h.running hcancelled (hopen rfl hcancelled)).1
      · intro st hst
        cases hst
        exact ⟨promptMs, predictedMs, rfl⟩

/-- The answer of a state after the closing callback. -/
theorem answer_of_carries {state : NonStreamState D} {text : Bytes} {e : Event}
    (hcarries : Carries state e) (htext : state.fullResponse = text) :
    Answers floats isChat text e (state.answer floats isChat) := by
  cases e with
  | onToken token piece isLast stats =>
    intro st hst
    obtain ⟨hstatus, hstats⟩ := hcarries
    obtain ⟨promptMs, predictedMs, heq⟩ := hstats st hst
    refine ⟨promptMs, predictedMs, ?_⟩
    rw [NonStreamState.answer, if_neg (not_not.mpr hstatus), htext, heq]
  | onError message status =>
    intro hne
    obtain ⟨hstatus, hmessage⟩ := hcarries
    rw [NonStreamState.answer, if_pos (hstatus ▸ hne), hstatus, hmessage]
  | polled | onCancel => exact hcarries.elim

/-- The second part of a callback changes nothing of what was heard. -/
theorem finish_heard (s : Exchange D) (promptMs predictedMs : D) (e : Event) :
    (s.finish promptMs predictedMs e).heard = s.heard := by
  cases e <;> rfl

/-- A step adds to what was heard. -/
theorem step_heard {turn : Turn D} (h : s.step floats isChat turn = some s') :
    s.heard <+: s'.heard := by
  cases turn with
  | callback e =>
    simp only [step] at h
    split at h
    · obtain ⟨s₁, _, rfl⟩ := Option.map_eq_some_iff.mp h
      exact List.prefix_append _ _
    · contradiction
  | finish promptMs predictedMs =>
    obtain ⟨e, _, rfl⟩ := Option.map_eq_some_iff.mp h
    rw [finish_heard]
  | enqueue | awake | timeout =>
    simp only [step] at h
    split at h
    all_goals cases h
    exact List.prefix_refl _

/-- A step keeps the invariant. -/
theorem step_keeps {es : List Event} (hfinal : Final es) {turn : Turn D}
    (h : s.Keeps floats isChat es) (hstep : s.step floats isChat turn = some s')
    (hheard : s'.heard <+: es) : s'.Keeps floats isChat es := by
  cases turn with
  | enqueue =>
    simp only [step] at hstep
    split at hstep
    all_goals cases hstep
    exact ⟨h.waits, h.text, h.running, h.closed, h.timedOut, h.answered, h.returned⟩
  | callback e =>
    simp only [step] at hstep
    split at hstep
    · rename_i hready
      obtain ⟨s₁, hcallback, rfl⟩ := Option.map_eq_some_iff.mp hstep
      have hnone : s.pending = none :=
        Option.isNone_iff_eq_none.mp (Bool.and_eq_true_iff.mp hready).2
      exact callback_keeps h hnone hcallback (hfinal.sublist hheard.sublist)
    · contradiction
  | finish promptMs predictedMs =>
    obtain ⟨e, hpending, rfl⟩ := Option.map_eq_some_iff.mp hstep
    exact finish_keeps h hpending promptMs predictedMs
  | awake =>
    simp only [step] at hstep
    split at hstep
    · rename_i hready
      cases hstep
      simp only [Bool.and_eq_true, Option.isNone_iff_eq_none] at hready
      have hcancelled : s.state.cancelled = false := by
        by_contra hcancelled
        rw [Bool.not_eq_false] at hcancelled
        exact absurd (hready.1.2.symm.trans (h.timedOut hcancelled)) (Option.some_ne_none _).symm
      obtain ⟨hpending, e, he, hcloses, hcarries⟩ := h.closed hcancelled hready.2
      have htext : s.state.fullResponse = textOf es := by
        have hsofar := h.text hcancelled
        have hnothing : (s.pending.map Event.piece).getD [] = [] := by
          cases hcase : s.pending with
          | none => rfl
          | some e' => exact Event.piece_eq_nil (hpending e' hcase)
        rw [hnothing, List.append_nil] at hsofar
        exact hsofar.trans (hfinal.textOf_eq hheard ⟨e, he, hcloses⟩)
      refine ⟨h.waits, h.text, h.running, h.closed,
        fun htimeout => absurd (hcancelled.symm.trans htimeout) Bool.false_ne_true,
        fun a ha => .inr ⟨e, hheard.subset he, hcloses, ?_⟩, fun _ => .inr hready.2⟩
      cases ha
      exact answer_of_carries hcarries htext
    · contradiction
  | timeout =>
    simp only [step] at hstep
    split at hstep
    · cases hstep
      refine ⟨h.waits, fun hopen => ?_, fun hopen => ?_, fun hopen => ?_, fun _ => rfl,
        fun a ha => ?_, fun _ => .inl rfl⟩
      · contradiction
      · contradiction
      · contradiction
      · cases ha
        exact .inl rfl
    · contradiction

/-- A run whose callbacks are the beginning of a final list keeps the invariant. -/
theorem run_keeps {es : List Event} (hfinal : Final es) {turns : List (Turn D)}
    (hrun : Run floats isChat (init zero) turns s) (hheard : s.heard <+: es) :
    s.Keeps floats isChat es := by
  refine run_invariant (P := fun s => s.heard <+: es → s.Keeps floats isChat es)
    (fun s₁ turn s₂ hkeeps hstep hheard' => ?_)
    (fun _ => ⟨fun e he => absurd he (Option.not_mem_none e), fun _ => rfl,
      fun _ _ => ⟨rfl, fun e he => absurd he List.not_mem_nil⟩,
      fun _ hdone => absurd hdone Bool.noConfusion, fun hcancelled =>
        absurd hcancelled Bool.noConfusion,
      fun a ha => absurd ha (Option.not_mem_none a), fun hreturned =>
        absurd hreturned Bool.noConfusion⟩) hrun hheard
  exact step_keeps hfinal (hkeeps ((step_heard hstep).trans hheard')) hstep hheard'

/-- The turns of a callback whose parts follow each other at once. -/
def turnsOf (duration : D) (e : Event) : List (Turn D) :=
  .callback e :: if e = .onCancel then [] else [.finish duration duration]

end Exchange

/-- In every interleaving of the handler with the callbacks that the worker invokes in a run, a
request that does not stream is answered with the timeout, with one of the errors of the worker, or
with status 200 and the text of all that it generates when it runs alone, with statistics that
describe its prompt and count its tokens. -/
theorem completion_answered (b : Bridge L) (config : Config) (order : ChildOrder)
    (actions : List Action) (k : Worker L)
    (hrun : (Worker.init config order : Worker L).Run b actions k) (id : ℕ) (floats : Floats D)
    (isChat : Bool) (zero : D) (turns : List (Turn D)) (s : Exchange D)
    (hturns : Exchange.Run floats isChat (Exchange.init zero) turns s)
    (hheard : s.heard <+: k.world.eventsOf id) (a : Answer) (ha : s.answer = some a) :
    a = timeoutAnswer ∨
      (∃ failure ∈ failures, a = errorAnswer (encode failure.1.toList) failure.2) ∨
      ∃ req ∈ k.arrivals[id]?, ∃ (stats : InferenceStats) (promptMs predictedMs : D),
      stats.Describes (b.promptTokens req) ∧
        stats.predictedN = (b.generate req).length ∧
        a = ⟨200, completionJson floats (b.textOf (b.generate req))
          (stats.withDurations promptMs predictedMs) isChat⟩ := by
  rcases (Exchange.run_keeps (events_final hrun id) hturns hheard).answered a ha with
    htimeout | ⟨e, he, hcloses, hanswers⟩
  · exact .inl htimeout
  · refine .inr ?_
    obtain ⟨req, hreq, hhonest⟩ := (Worker.run_truthful hrun).told id e he
    cases e with
    | onError message status =>
      refine .inl ⟨_, hhonest, hanswers ?_⟩
      exact (by decide : ∀ failure ∈ failures, failure.2 ≠ 0) _ hhonest
    | onToken token piece isLast stats =>
      obtain ⟨hid, hget⟩ := List.getElem?_eq_some_iff.mp hreq
      obtain ⟨_, _, hsome, hdescribes⟩ := hhonest
      have hlast : isLast = true := hcloses
      obtain ⟨st, hst⟩ := Option.isSome_iff_exists.mp (hsome.trans hlast)
      obtain ⟨promptMs, predictedMs, hanswer⟩ := hanswers st hst
      have hends : ∃ e ∈ k.world.eventsOf id, e.isLast = true := ⟨_, he, hlast⟩
      have hcount := (Worker.run_rolls hrun).reported id _ he st.predictedN (by rw [hst]; rfl)
      rw [((Worker.run_serves_all hrun).generated hid).2 hends, hget] at hcount
      rw [(Worker.run_text hrun hid).2 hends, hget] at hanswer
      exact .inr ⟨req, hreq, st, promptMs, predictedMs, hdescribes st hst, hcount, hanswer⟩
    | polled | onCancel => contradiction

/-- A request that generates two pieces. -/
theorem completion_answered_two : ∃ k s a,
    (Worker.init ⟨4, 64, true⟩ .stored).Run
      { Bridge.counting (fun _ => [5, 6]) 0 with tokenToPiece := fun _ => [65] }
      (.enqueue { maxTokens := 2 } :: Worker.iteration 0 0 ++ Worker.iteration 0 0) k ∧
      Exchange.Run sixDecimals true (Exchange.init 0)
        (.enqueue ::
          ([.polled false, .polled false, .polled false, .onToken (some 1) [65] false none,
            .polled false, .polled false, .onToken (some 2) [65] true (some ⟨2, 0, 2, 2⟩)].flatMap
          (Exchange.turnsOf 250000)) ++ [.awake]) s ∧
      s.answer = some a ∧ a.status = 200 ∧
        (a = timeoutAnswer ∨
          (∃ failure ∈ failures, a = errorAnswer (encode failure.1.toList) failure.2) ∨
          ∃ req ∈ k.arrivals[0]?, ∃ (stats : InferenceStats) (promptMs predictedMs : ℤ),
          stats.Describes [5, 6] ∧
            a = ⟨200, completionJson sixDecimals [65, 65]
              (stats.withDurations promptMs predictedMs) true⟩) := by
  have hworker :
      (run (Worker.step { Bridge.counting (fun _ => [5, 6]) 0 with tokenToPiece := fun _ => [65] })
      (Worker.init ⟨4, 64, true⟩ .stored)
        (.enqueue { maxTokens := 2 } :: Worker.iteration 0 0 ++ Worker.iteration 0 0)).any
        (fun k => k.world.eventsOf 0 =
          [.polled false, .polled false, .polled false, .onToken (some 1) [65] false none,
            .polled false, .polled false, .onToken (some 2) [65] true (some ⟨2, 0, 2, 2⟩),
            .polled false] ∧
            k.arrivals.map
              (Bridge.generate
                { Bridge.counting (fun _ => [5, 6]) 0 with tokenToPiece := fun _ => [65] }) =
              [[1, 2]]) = true := by decide +kernel
  obtain ⟨k, hk, hcond⟩ := (Option.any_eq_true _ _).mp hworker
  obtain ⟨hevents, hgenerates⟩ := of_decide_eq_true hcond
  have hexchange : (run (Exchange.step sixDecimals true) (Exchange.init 0)
      (.enqueue :: ([.polled false, .polled false, .polled false, .onToken (some 1) [65] false none,
        .polled false, .polled false, .onToken (some 2) [65]
          true (some ⟨2, 0, 2, 2⟩)].flatMap (Exchange.turnsOf 250000)) ++ [.awake])).any (fun s =>
          s.answer.any (fun a => a.status = 200) ∧ s.heard = [.polled false, .polled false,
            .polled false, .onToken (some 1) [65] false none, .polled false, .polled false,
              .onToken (some 2) [65] true (some ⟨2, 0, 2, 2⟩)]) = true := by decide +kernel
  obtain ⟨s, hs, hcond⟩ := (Option.any_eq_true _ _).mp hexchange
  obtain ⟨hanswered, hheard⟩ := of_decide_eq_true hcond
  obtain ⟨a, ha, hstatus⟩ := (Option.any_eq_true _ _).mp hanswered
  refine ⟨k, s, a, hk, hs, ha, of_decide_eq_true hstatus, ?_⟩
  rcases completion_answered _ _ _ _ k hk 0 sixDecimals true 0 _ s hs
    (by rw [hheard, hevents]; exact ⟨[.polled false], rfl⟩) a ha
    with htimeout | hfailure | ⟨req, hreq, stats, promptMs, predictedMs, hdescribes, _, hanswer⟩
  · exact .inl htimeout
  · exact .inr (.inl hfailure)
  · refine .inr (.inr ⟨req, hreq, stats, promptMs, predictedMs, hdescribes, ?_⟩)
    have hget :
        (k.arrivals.map (Bridge.generate
          { Bridge.counting (fun _ => [5, 6]) 0 with tokenToPiece := fun _ => [65] }))[0]? =
        some [1, 2] := by rw [hgenerates]; rfl
    rw [List.getElem?_map, hreq] at hget
    rw [hanswer, Option.some.inj hget]
    rfl


end RadixForge
