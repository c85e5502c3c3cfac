import Mathlib.Data.List.Forall2
import RadixForge.Json.Acceptance

/-!
# Request bodies

What `parse_request_body` makes of a body, and when the messages of a chat come out as they were
sent: the accessors of a value answer for every type, so an element that is no message is read as an
empty one.
-/

namespace RadixForge

open Library

namespace Http

variable {D F : Type}

/-- What `parse_request_body` uses of the floating-point numbers: the comparisons with zero, with
the largest `int32_t` and with the integer part, and the two casts. -/
structure Doubles (D F : Type) extends Floats D where
  negative : D → Bool
  aboveInt32 : D → Bool
  integral : D → Bool
  toInt32 : D → Int32
  toFloat : D → F

/-- `ChatMessage`. -/
structure ChatMessage where
  role : Bytes
  content : Bytes
deriving DecidableEq

/-- The part of `InferenceRequest` that a body sets. -/
structure InferenceRequest (F : Type) where
  prompt : Bytes
  messages : List ChatMessage
  maxTokens : Int32
  temperature : F
  topP : F
  stream : Bool

/-- The part of `Config` that stands in for what a body leaves out. -/
structure GenerationDefaults (F : Type) where
  maxTokens : Int32
  temperature : F
  topP : F

/-- The body of the loop over the messages. -/
def readMessage (message : JsonValue D) : ChatMessage where
  role := if message.contains (ascii "role") then (message.field (ascii "role")).asString
    else ascii "user"
  content := if message.contains (ascii "content") then (message.field (ascii "content")).asString
    else []

/-- `max_tokens` of a body. -/
def readMaxTokens (numbers : Doubles D F) (body : JsonValue D) (config : GenerationDefaults F) :
    Outcome Int32 :=
  if body.contains (ascii "max_tokens") then
    match body.field (ascii "max_tokens") with
    | .number maxTokens =>
      if !numbers.isFinite maxTokens || numbers.negative maxTokens ||
          numbers.aboveInt32 maxTokens || !numbers.integral maxTokens then
        .thrown "max_tokens must be a non-negative int32"
      else .returned (numbers.toInt32 maxTokens)
    | _ => .thrown "max_tokens must be a number"
  else .returned config.maxTokens

/-- A number of a body, or the default. -/
def readNumber (numbers : Doubles D F) (body : JsonValue D) (key : Bytes) (default : F) : F :=
  match body.field key with
  | .number value => numbers.toFloat value
  | _ => default

/-- The prompt of a body, which is read only if it has no array of messages. -/
def readPrompt (body : JsonValue D) (request : InferenceRequest F) : InferenceRequest F :=
  match body.field (ascii "messages"), body.field (ascii "prompt") with
  | .array items, _ => { request with messages := request.messages ++ items.map readMessage }
  | _, .string prompt => { request with prompt := prompt }
  | _, _ => request

/-- `stream` of a body. -/
def readStream (body : JsonValue D) : Bool :=
  match body.field (ascii "stream") with
  | .bool value => value
  | _ => false

/-- `parse_request_body`. -/
def parseRequestBody (numbers : Doubles D F) (bodyText : Bytes) (request : InferenceRequest F)
    (config : GenerationDefaults F) : Outcome (InferenceRequest F) :=
  (parse numbers.toFloats bodyText).andThen fun body =>
    (readMaxTokens numbers body config).andThen fun maxTokens =>
      .returned
        { readPrompt body request with
          maxTokens := maxTokens
          temperature := readNumber numbers body (ascii "temperature") config.temperature
          topP := readNumber numbers body (ascii "top_p") config.topP
          stream := readStream body }

/-- The text that an object stores under a key, or the default if it has no such key. -/
def Stored (v : JsonValue D) (key default text : Bytes) : Prop :=
  ∃ entries, v = .object entries ∧
    (lookup key entries = some (.string text) ∨ lookup key entries = none ∧ text = default)

/-- The message holds what the element of the array says. -/
structure Conveys (v : JsonValue D) (message : ChatMessage) : Prop where
  role : Stored v (ascii "role") (ascii "user") message.role
  content : Stored v (ascii "content") [] message.content

/-- An object whose role and content are strings where it has them. -/
def IsMessage (v : JsonValue D) : Prop :=
  ∃ entries, v = .object entries ∧
    ∀ key ∈ [ascii "role", ascii "content"], ∀ value, lookup key entries = some value →
    ∃ text, value = .string text

/-- The body leaves `max_tokens` out, or gives a number that is a non-negative `int32_t`. -/
def ValidMaxTokens (numbers : Doubles D F) (body : JsonValue D) : Prop :=
  body.contains (ascii "max_tokens") = true → ∃ d, body.field (ascii "max_tokens") = .number d ∧
    numbers.isFinite d = true ∧ numbers.negative d = false ∧ numbers.aboveInt32 d = false ∧
    numbers.integral d = true

section Messages

variable {v : JsonValue D} {key default : Bytes}

/-- What the accessors read under a key is stored there, if the value is an object and has a string
under the key or nothing. -/
theorem stored_asString {entries : List (Bytes × JsonValue D)} :
    Stored (.object entries) key default
    (if (JsonValue.object entries).contains key then ((JsonValue.object entries).field key).asString
      else default) ↔
      ∀ value, lookup key entries = some value → ∃ text, value = .string text := by
  cases hlookup : lookup key entries with
  | none => simp [Stored, JsonValue.contains, hlookup]
  | some value =>
    simp only [Stored, JsonValue.contains, JsonValue.field, hlookup]
    cases value <;> simp [hlookup, JsonValue.asString]

/-- An element is read as what it says exactly if it is a message. -/
theorem conveys_readMessage : Conveys v (readMessage v) ↔ IsMessage v := by
  constructor
  · intro ⟨⟨entries, hv, hrole⟩, hcontent⟩
    subst hv
    refine ⟨entries, rfl, List.forall_mem_cons.mpr ⟨?_, List.forall_mem_singleton.mpr ?_⟩⟩
    · exact stored_asString.mp ⟨entries, rfl, hrole⟩
    · exact stored_asString.mp hcontent
  · intro ⟨entries, hv, hstrings⟩
    subst hv
    obtain ⟨hrole, hcontent⟩ := List.forall_mem_cons.mp hstrings
    exact ⟨stored_asString.mpr hrole, stored_asString.mpr (List.forall_mem_singleton.mp hcontent)⟩

end Messages

section Body

variable {numbers : Doubles D F} {bodyText : Bytes} {body : JsonValue D}
  {items : List (JsonValue D)}

/-- `max_tokens` is accepted exactly if it is valid. -/
theorem readMaxTokens_cases (numbers : Doubles D F) (body : JsonValue D)
    (config : GenerationDefaults F) :
    ValidMaxTokens numbers body ∧
      (∃ maxTokens, readMaxTokens numbers body config = .returned maxTokens) ∨
      ¬ValidMaxTokens numbers body ∧ ∃ message, readMaxTokens numbers body config =
        .thrown message := by
  unfold readMaxTokens ValidMaxTokens
  cases hcontains : body.contains (ascii "max_tokens") with
  | false => exact .inl ⟨fun h => (Bool.false_ne_true h).elim, _, rfl⟩
  | true =>
    cases body.field (ascii "max_tokens") with
    | number d =>
      cases hfinite : numbers.isFinite d <;> cases hnegative : numbers.negative d <;>
        cases habove : numbers.aboveInt32 d <;> cases hintegral : numbers.integral d <;>
        simp [hfinite, hnegative, habove, hintegral]
    | _ => simp

/-- Every element of an array of messages is read, in order, unless `max_tokens` is refused. -/
theorem parseRequestBody_messages (request : InferenceRequest F) (config : GenerationDefaults F)
    (hbody : parse numbers.toFloats bodyText = .returned body)
    (hitems : body.field (ascii "messages") = .array items) :
    ValidMaxTokens numbers body ∧
      (∃ request', parseRequestBody numbers bodyText request config = .returned request' ∧
        request'.messages = request.messages ++ items.map readMessage) ∨
      ¬ValidMaxTokens numbers body ∧ ∃ message, parseRequestBody numbers bodyText request config =
        .thrown message := by
  have hmessages : (readPrompt body request).messages =
      request.messages ++ items.map readMessage := by
    simp only [readPrompt, hitems]
  unfold parseRequestBody
  rw [hbody, Outcome.returned_andThen]
  rcases readMaxTokens_cases numbers body config with
    ⟨hvalid, maxTokens, hread⟩ | ⟨hinvalid, message, hread⟩
  · rw [hread, Outcome.returned_andThen]
    exact .inl ⟨hvalid, _, rfl, hmessages⟩
  · rw [hread]
    exact .inr ⟨hinvalid, message, rfl⟩

/-- The messages of a body are kept: a request that is returned has one for each element, in order,
that holds what the element says, and a body with an element that is no message is refused. -/
structure KeepsMessages (numbers : Doubles D F) (bodyText : Bytes) (request : InferenceRequest F)
    (config : GenerationDefaults F) : Prop where
  kept : ∀ body items request', parse numbers.toFloats bodyText = .returned body →
    body.field (ascii "messages") = .array items →
    parseRequestBody numbers bodyText request config = .returned request' →
    ∃ messages, request'.messages = request.messages ++ messages ∧
    List.Forall₂ Conveys items messages
  refused : ∀ body items, parse numbers.toFloats bodyText = .returned body →
    body.field (ascii "messages") = .array items → (∃ item ∈ items, ¬IsMessage item) →
    ∃ message, parseRequestBody numbers bodyText request config = .thrown message

/-- The messages of a body are kept exactly if each element of their array is an object with strings
for its role and its content, or the body is refused for its `max_tokens`. -/
theorem chat_content_kept_iff (numbers : Doubles D F) (bodyText : Bytes)
    (request : InferenceRequest F) (config : GenerationDefaults F) :
    KeepsMessages numbers bodyText request config ↔
      ∀ body items, parse numbers.toFloats bodyText = .returned body →
      body.field (ascii "messages") = .array items →
        ValidMaxTokens numbers body → ∀ item ∈ items, IsMessage item := by
  constructor
  · intro hkeeps body items hbody hitems hvalid item hitem
    by_contra hnot
    obtain ⟨message, hthrown⟩ := hkeeps.refused body items hbody hitems ⟨item, hitem, hnot⟩
    rcases parseRequestBody_messages request config hbody hitems with
      ⟨_, request', hreturned, _⟩ | ⟨hinvalid, _⟩
    · rw [hthrown] at hreturned
      cases hreturned
    · exact hinvalid hvalid
  · intro hall
    constructor
    · intro body items request' hbody hitems hreturned
      rcases parseRequestBody_messages request config hbody hitems with
        ⟨hvalid, request'', hreturned', hmessages⟩ | ⟨_, message, hthrown⟩
      · rw [hreturned] at hreturned'
        cases hreturned'
        refine ⟨_, hmessages, List.forall₂_map_right_iff.mpr
          (List.forall₂_same.mpr fun item hitem => ?_)⟩
        exact conveys_readMessage.mpr (hall body items hbody hitems hvalid item hitem)
      · rw [hreturned] at hthrown
        cases hthrown
    · intro body items hbody hitems ⟨item, hitem, hnot⟩
      rcases parseRequestBody_messages request config hbody hitems with ⟨hvalid, _⟩ | ⟨_, hthrown⟩
      · exact absurd (hall body items hbody hitems hvalid item hitem) hnot
      · exact hthrown

/-- A chat whose content is an array of parts. -/
def partsBody : Bytes :=
  ascii
    "\x7b\"messages\":[\x7b\"role\":\"user\",\"content\":[\x7b\"type\":\"text\",\"text\":\"hi\"\x7d]\x7d]\x7d"

/-- The value of this body. -/
def partsValue : JsonValue D :=
  .object [(ascii "messages", .array [.object
    [(ascii "content",
      .array [.object [(ascii "text", .string (ascii "hi")),
        (ascii "type", .string (ascii "text"))]]),
      (ascii "role", .string (ascii "user"))]])]

/-- It is accepted, and its content is lost. -/
theorem content_parts_dropped :
    ¬∀ (D F : Type) (numbers : Doubles D F) (bodyText : Bytes) (request : InferenceRequest F)
    (config : GenerationDefaults F), KeepsMessages numbers bodyText request config := by
  intro hall
  let numbers : Doubles Unit Unit :=
    { stod := fun _ => none, isFinite := fun _ => true, isNan := fun _ => false,
      signbit := fun _ => false, millionths := fun _ => 0, negative := fun _ => false, aboveInt32 :=
        fun _ => false, integral := fun _ => true,
      toInt32 := fun _ => 0, toFloat := id }
  have hbody : parse numbers.toFloats partsBody = .returned partsValue := rfl
  obtain ⟨message, hthrown⟩ :=
    (hall Unit Unit numbers partsBody ⟨[], [], 4096, (), (), true⟩ ⟨4096, (), ()⟩).refused
      _ _ hbody rfl
    ⟨_, List.mem_singleton_self _, by
      intro ⟨entries, hv, hstrings⟩
      cases hv
      obtain ⟨text, htext⟩ := hstrings (ascii "content")
        (List.mem_cons_of_mem _ (List.mem_singleton_self _)) _ rfl
      cases htext⟩
  have hvalid : ValidMaxTokens numbers partsValue := fun hcontains => absurd hcontains (by decide)
  rcases parseRequestBody_messages ⟨[], [], 4096, (), (), true⟩ ⟨4096, (), ()⟩ hbody rfl with
    ⟨_, request', hreturned, _⟩ | ⟨hinvalid, _⟩
  · rw [hthrown] at hreturned
    cases hreturned
  · exact hinvalid hvalid

end Body

end Http

end RadixForge
