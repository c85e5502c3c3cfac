import RadixForge.Http.OpenAi

/-!
# The streaming handler

The state that the three closures of a streaming request share with the content provider, and the
critical sections of all four. A critical section returns the new state and what it did with the
sink; the answers of the sink are given to it.
-/

namespace RadixForge

open Library

variable {D : Type}

/-- `StreamState`. -/
structure StreamState where
  cancelled : Bool := false
  enqueued : Bool := false
  done : Bool := false
  incompleteUtf8 : Bytes := []
deriving DecidableEq

/-- A use of the sink. -/
inductive SinkCall where
  | isWritable
  | write (bytes : Bytes)
deriving DecidableEq

/-- What the sink answers in one critical section: to `is_writable`, and to the first and second
`write`. -/
structure SinkAnswers where
  writable : Bool := true
  first : Bool := true
  second : Bool := true
deriving DecidableEq

/-- The event that ends a stream. -/
def doneEvent : Bytes := ascii "data: [DONE]\n\n"

/-- The event that keeps a connection open. -/
def keepAlive : Bytes :=
  ascii "data: \x7b\"choices\":[\x7b\"delta\":\x7b\x7d,\"finish_reason\":null\x7d]\x7d\n\n"

/-- What ends the JSON text of a content event. -/
def chunkSuffix (floats : Floats D) (isLast : Bool) (stats : Option (Statistics D)) : Bytes :=
  match isLast, stats with
  | true, some stats =>
    ascii "\x7d],\"timings\":" ++
      (timingsJson floats stats ++ (ascii ",\"usage\":" ++ (usageJson stats ++ ascii "\x7d")))
  | _, _ => ascii "\x7d]\x7d"

/-- The JSON text of a content event. -/
def chunkJson (floats : Floats D) (content : Bytes) (isLast : Bool)
    (stats : Option (Statistics D)) : Bytes :=
  ascii "\x7b\"choices\":[\x7b\"delta\":\x7b\"content\":\"" ++ (jsonEscape content ++
    (ascii "\"\x7d,\"finish_reason\":" ++
      (ascii (if isLast then "\"stop\"" else "null") ++ chunkSuffix floats isLast stats)))

/-- An event with a line of data. -/
def event (line : Bytes) : Bytes := ascii "data: " ++ (line ++ ascii "\n\n")

namespace StreamState

/-- The bytes that a call of `on_token` sends, and those it keeps for the next one. -/
def content (state : StreamState) (token : Bytes) (isLast : Bool) : Bytes × Bytes :=
  let text := state.incompleteUtf8 ++ token
  let length := completeUtf8PrefixLength text
  if isLast then (text.take length ++ text.drop length, [])
    else (text.take length, text.drop length)

/-- `on_token`. -/
def onToken (floats : Floats D) (state : StreamState) (token : Bytes) (isLast : Bool)
    (stats : Option (Statistics D)) (answers : SinkAnswers) : StreamState × List SinkCall :=
  if state.cancelled then (state, [])
  else if !answers.writable then ({ state with cancelled := true, done := true }, [.isWritable])
  else
    let (content, incomplete) := state.content token isLast
    let chunk := event (chunkJson floats content isLast stats)
    let state := { state with incompleteUtf8 := incomplete }
    if !answers.first then ({ state with cancelled := true, done := true },
      [.isWritable, .write chunk])
    else if isLast then
      ({ state with cancelled := !answers.second, done := true },
        [.isWritable, .write chunk, .write doneEvent])
    else (state, [.isWritable, .write chunk])

/-- `on_error`. The second write is tried if the first one succeeded. -/
def onError (state : StreamState) (message : Bytes) (status : ℕ) (answers : SinkAnswers) :
    StreamState × List SinkCall :=
  if state.cancelled then (state, [])
  else
    let type := ascii (if status = 400 then "invalid_request_error" else "server_error")
    let written := event (errorJson message type)
    if !answers.writable then ({ state with cancelled := true, done := true }, [.isWritable])
    else if !answers.first then ({ state with cancelled := true, done := true },
      [.isWritable, .write written])
    else
      ({ state with cancelled := !answers.second, done := true },
        [.isWritable, .write written, .write doneEvent])

/-- The content provider when a wait of two seconds is over and the stream is not done. It returns
when the sink fails. -/
def onTimeout (state : StreamState) (answers : SinkAnswers) : StreamState × List SinkCall :=
  if !answers.writable then ({ state with cancelled := true }, [.isWritable])
  else if !answers.first then ({ state with cancelled := true }, [.isWritable, .write keepAlive])
  else (state, [.isWritable, .write keepAlive])

/-- The calls of `on_token` for a stream of pieces, of which the last one is the last token, with a
sink that never fails: the states after the calls, and what they do with the sink. -/
def feed (floats : Floats D) :
    StreamState → List (Bytes × Option (Statistics D)) → List (StreamState × List SinkCall)
  | _, [] => []
  | state, (token, stats) :: rest =>
    let result := state.onToken floats token rest.isEmpty stats {}
    result :: feed floats result.1 rest

end StreamState

end RadixForge
