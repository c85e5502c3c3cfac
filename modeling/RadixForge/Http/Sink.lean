import RadixForge.Http.Framing
import RadixForge.Worker.Callbacks

/-!
# The sink of a stream

A streaming request between the worker and the content provider: every critical section is one step,
the callbacks of the worker come in the order in which it invokes them, and the sink answers
anything. The sink lives until the provider returns. The worker uses it no later, and nothing is
written after the event that ends the stream.
-/

namespace RadixForge

open Library

variable {D L : Type}

/-- Where the content provider stands: before its first critical section, before `enqueue`, in its
loop, before `sink.done()`, or after its return. -/
inductive Provider where
  | calling
  | enqueuing
  | waiting
  | completing
  | returned
deriving DecidableEq

/-- A use of the sink, by the worker or the provider, perhaps after the return of the provider. -/
structure Use where
  byWorker : Bool
  late : Bool
  call : SinkCall
deriving DecidableEq

/-- A stream: its state, the content provider, the callbacks so far and the uses of the sink so far.
-/
structure Stream where
  state : StreamState := {}
  provider : Provider := .calling
  heard : List Event := []
  uses : List Use := []
deriving DecidableEq

/-- A step of the content provider, or a callback. The durations go into its statistics. -/
inductive Critical (D : Type) where
  | install
  | enqueue
  | timeout (answers : SinkAnswers)
  | awake
  | complete
  | callback (e : Event) (promptMs predictedMs : D) (answers : SinkAnswers)

/-- The statistics of a callback with their durations. -/
def InferenceStats.withDurations (stats : InferenceStats) (promptMs predictedMs : D) :
    Statistics D where
  promptN := Int32.ofNat stats.promptN
  cacheN := Int32.ofNat stats.cacheN
  promptTokens := Int32.ofNat stats.promptTokens
  predictedN := Int32.ofNat stats.predictedN
  promptMs := promptMs
  predictedMs := predictedMs

namespace Stream

/-- Take over what a critical section did. -/
def use (s : Stream) (byWorker : Bool) (result : StreamState × List SinkCall) : Stream :=
  { s with state := result.1, uses := s.uses ++
    result.2.map (Use.mk byWorker (s.provider = .returned)) }

/-- The critical section of a callback. The predicate `cancelled` answers what the state says. -/
def callback (floats : Floats D) (s : Stream) (promptMs predictedMs : D) (answers : SinkAnswers) :
    Event → Option Stream
  | .polled answer => if answer = s.state.cancelled then some s else none
  | .onCancel => some s
  | .onToken _ piece isLast stats => some (s.use true
      (s.state.onToken floats piece isLast
        (stats.map fun stats => stats.withDurations promptMs predictedMs) answers))
  | .onError message status =>
    some (s.use true (s.state.onError (encode message.toList) status answers))

/-- One step; a step that its thread cannot make now is refused. -/
def step (floats : Floats D) (s : Stream) : Critical D → Option Stream
  | .install =>
    match s.provider with
    | .calling => some { s with state := { s.state with enqueued := true }, provider := .enqueuing }
    | _ => none
  | .enqueue =>
    match s.provider with
    | .enqueuing => some { s with provider := .waiting }
    | _ => none
  | .timeout answers =>
    match s.provider, s.state.done with
    | .waiting, false => some { s.use false (s.state.onTimeout answers) with
        provider := if answers.writable && answers.first then .waiting else .returned }
    | _, _ => none
  | .awake =>
    match s.provider, s.state.done with
    | .waiting, true =>
      some { s with provider := if s.state.cancelled then .returned else .completing }
    | _, _ => none
  | .complete =>
    match s.provider with
    | .completing => some { s with provider := .returned }
    | _ => none
  | .callback e promptMs predictedMs answers =>
    match s.provider with
    | .calling | .enqueuing => none
    | _ => (s.callback floats promptMs predictedMs answers e).map fun s' =>
        { s' with heard := s.heard ++ [e] }

/-- The runs of a stream. -/
abbrev Run (floats : Floats D) (s : Stream) (steps : List (Critical D)) (s' : Stream) : Prop :=
  run (step floats) s steps = some s'

end Stream

section Events

/-- A piece or an error. -/
def Event.usesSink : Event → Bool
  | .onToken _ _ _ _ => true
  | .onError _ _ => true
  | _ => false

/-- The last piece or an error. -/
def Event.closes : Event → Bool
  | .onToken _ _ isLast _ => isLast
  | .onError _ _ => true
  | _ => false

/-- Nothing that uses the sink comes after the last piece or an error. -/
def Final (es : List Event) : Prop := es.Pairwise fun e e' => e.closes = true → e'.usesSink = false

/-- An event that closes the stream ends the request. -/
theorem Event.isTerminal_of_closes {e : Event} (h : e.closes = true) : e.isTerminal = true := by
  cases e <;> simp_all [Event.closes, Event.isTerminal]

/-- Events that do not end anything are final. -/
theorem final_of_open {es : List Event} (h : ∀ e ∈ es, e.isTerminal = false) : Final es := by
  refine List.pairwise_of_forall_mem_list fun e he _ _ hcloses => ?_
  have hnot := h e he
  rw [Event.isTerminal_of_closes hcloses] at hnot
  contradiction

/-- The callbacks of a request that departed are final. -/
theorem Departed.final {generated : List Token} {closing : Closing} {tail : Tail} {es : List Event}
    (h : Departed generated closing tail es) : Final es := by
  cases h with
  | silent _ hopen _ => exact final_of_open hopen
  | closed before e after hopen _ htrails =>
    have hafter : ∀ e' ∈ after, e'.usesSink = false ∧ e'.closes = false := by
      intro e' he'
      cases htrails with
      | quiet => exact absurd he' List.not_mem_nil
      | polled _ h =>
        obtain ⟨answer, rfl⟩ := h e' he'
        exact ⟨rfl, rfl⟩
      | cancelled =>
        rcases List.mem_cons.mp he' with rfl | he'
        · exact ⟨rfl, rfl⟩
        · rcases List.mem_singleton.mp he' with rfl
          exact ⟨rfl, rfl⟩
    refine List.pairwise_append.mpr
      ⟨final_of_open hopen, List.pairwise_cons.mpr ⟨fun e' he' _ => (hafter e' he').1, ?_⟩, ?_⟩
    · refine List.pairwise_of_forall_mem_list fun e' he' _ _ hcloses => ?_
      rw [(hafter e' he').2] at hcloses
      contradiction
    · intro e' he' _ _ hcloses
      have hnot := hopen e' he'
      rw [Event.isTerminal_of_closes hcloses] at hnot
      contradiction

/-- In every run the worker's callbacks on a request are final. -/
theorem events_final {b : Bridge L} {config : Config} {order : ChildOrder} {actions : List Action}
    {k : Worker L} (hrun : (Worker.init config order : Worker L).Run b actions k) (id : ℕ) :
    Final (k.world.eventsOf id) := by
  have hserves := Worker.run_serves_all hrun
  by_cases hlt : id < k.arrivals.length
  · by_cases hpresent : id ∈ k.present
    · exact final_of_open (hserves.opened hpresent).2.1
    · obtain ⟨closing, tail, _, hdeparted⟩ := hserves.departed hlt hpresent
      exact hdeparted.final
  · rw [hserves.fresh (not_lt.mp hlt)]
    exact List.Pairwise.nil

end Events

/-- What a critical section did to the state and to the sink. Only one that closes the stream, or
finds the sink failing, leaves it done. -/
structure StreamState.Uses (state : StreamState) (closes : Bool) (after : StreamState)
    (calls : List SinkCall) : Prop where
  cancelled : state.cancelled = true → after.cancelled = true
  done : state.done = true → after.done = true
  closed : after.done = true → state.done = true ∨ after.cancelled = true ∨ closes = true
  ended : .write doneEvent ∈ calls → closes = true ∧ after.done = true
  ordered : calls.Pairwise fun c d => c = .write doneEvent → ∀ bytes, d ≠ .write bytes

namespace StreamState

/-- No event with a JSON text is the one that ends the stream. -/
theorem event_ne_doneEvent {line : Bytes} (h : line.head? = some openBrace) :
    event line ≠ doneEvent := by
  intro heq
  cases line with
  | nil => contradiction
  | cons c line =>
    cases h
    have hc : some openBrace = some openBracket := congrArg (fun bytes => bytes[6]?) heq
    exact absurd hc (by decide)

/-- Nothing is used. -/
theorem uses_nothing (state : StreamState) (closes : Bool) : state.Uses closes state [] where
  cancelled h := h
  done h := h
  closed h := .inl h
  ended h := absurd h List.not_mem_nil
  ordered := List.Pairwise.nil

/-- A piece uses the sink as a critical section may; it closes the stream if it is the last one. -/
theorem onToken_uses (floats : Floats D) (state : StreamState) (token : Bytes) (isLast : Bool)
    (stats : Option (Statistics D)) (answers : SinkAnswers) :
    state.Uses isLast (state.onToken floats token isLast stats answers).1
      (state.onToken floats token isLast stats answers).2 := by
  have hchunk (content : Bytes) : event (chunkJson floats content isLast stats) ≠ doneEvent :=
    event_ne_doneEvent rfl
  unfold onToken
  split
  · exact uses_nothing state isLast
  · split
    · exact ⟨fun _ => rfl, fun _ => rfl, fun _ => .inr (.inl rfl), by simp, by simp⟩
    · dsimp only
      split
      · exact ⟨fun _ => rfl, fun _ => rfl, fun _ => .inr (.inl rfl),
          by simp [(hchunk _).symm], by simp⟩
      · split
        · rename_i hopen _ _ hlast
          exact ⟨fun h => absurd h hopen, fun _ => rfl, fun _ => .inr (.inr hlast),
            fun _ => ⟨hlast, rfl⟩,
            by simp [hchunk]⟩
        · exact ⟨fun h => h, fun h => h, fun h => .inl h, by simp [(hchunk _).symm], by simp⟩

/-- An error uses the sink as a critical section may, and closes the stream. -/
theorem onError_uses (state : StreamState) (message : Bytes) (status : ℕ) (answers : SinkAnswers) :
    state.Uses true (state.onError message status answers).1
      (state.onError message status answers).2 := by
  have hevent (type : Bytes) : event (errorJson message type) ≠ doneEvent := event_ne_doneEvent rfl
  unfold onError
  split
  · exact uses_nothing state true
  · dsimp only
    split
    · exact ⟨fun _ => rfl, fun _ => rfl, fun _ => .inr (.inl rfl), by simp, by simp⟩
    · split
      · exact ⟨fun _ => rfl, fun _ => rfl, fun _ => .inr (.inl rfl),
          by simp [(hevent _).symm], by simp⟩
      · rename_i hopen _ _
        exact ⟨fun h => absurd h hopen, fun _ => rfl, fun _ => .inr (.inr rfl), fun _ => ⟨rfl, rfl⟩,
          by simp [hevent]⟩

/-- A timeout uses the sink as a critical section may, and closes nothing. -/
theorem onTimeout_uses (state : StreamState) (answers : SinkAnswers) :
    state.Uses false (state.onTimeout answers).1 (state.onTimeout answers).2 := by
  have hkeepAlive : keepAlive ≠ doneEvent := by decide
  unfold onTimeout
  split
  · exact ⟨fun _ => rfl, fun h => h, fun h => .inl h, by simp, by simp⟩
  · split
    · exact ⟨fun _ => rfl, fun h => h, fun h => .inl h, by simp [hkeepAlive.symm], by simp⟩
    · exact ⟨fun h => h, fun h => h, fun h => .inl h, by simp [hkeepAlive.symm], by simp⟩

/-- A cancelled stream does not use the sink for a callback. -/
theorem onToken_cancelled (floats : Floats D) {state : StreamState} (h : state.cancelled = true)
    (token : Bytes) (isLast : Bool) (stats : Option (Statistics D)) (answers : SinkAnswers) :
    (state.onToken floats token isLast stats answers).2 = [] := by
  simp [onToken, h]

/-- Nobody is told of an error once the stream is cancelled. -/
theorem onError_cancelled {state : StreamState} (h : state.cancelled = true) (message : Bytes)
    (status : ℕ) (answers : SinkAnswers) : (state.onError message status answers).2 = [] := by
  simp [onError, h]

end StreamState

namespace Stream

/-- The last piece or an error was heard. -/
def Closed (s : Stream) : Prop := ∃ e ∈ s.heard, e.closes = true

/-- The invariant of a stream. The provider leaves its loop only if the stream is cancelled or
closed, and the stream is closed once its end was written. -/
structure Safe (s : Stream) : Prop where
  inTime : ∀ u ∈ s.uses, u.byWorker = true → u.late = false
  ordered : s.uses.Pairwise fun u v => u.call = .write doneEvent → ∀ bytes, v.call ≠ .write bytes
  closed : s.state.done = true → s.state.cancelled = true ∨ s.Closed
  left : s.provider = .completing ∨ s.provider = .returned → s.state.cancelled = true ∨ s.Closed
  ended : (∃ u ∈ s.uses, u.call = .write doneEvent) → s.state.done = true ∧ s.Closed

/-- A critical section that uses the sink in time, and not after the end was written, keeps the
stream safe. -/
theorem Safe.use {s s' : Stream} {closes byWorker : Bool} {result : StreamState × List SinkCall}
    (h : s.Safe)
    (huses : s.state.Uses closes result.1 result.2) (hlate : byWorker = true →
      s.provider = .returned → result.2 = [])
    (hended : (∃ u ∈ s.uses, u.call = .write doneEvent) → result.2 = [])
    (hstate : s'.state = result.1) (hcalls : s'.uses = (s.use byWorker result).uses)
    (hheard : s.Closed → s'.Closed) (hcloses : closes = true → s'.Closed)
    (hprovider : s'.provider = .completing ∨ s'.provider = .returned →
      result.1.cancelled = true ∨ s'.Closed) : s'.Safe where
  inTime u hu hworker := by
    rw [hcalls] at hu
    rcases List.mem_append.mp hu with hu | hu
    · exact h.inTime u hu hworker
    · obtain ⟨call, hcall, rfl⟩ := List.mem_map.mp hu
      refine decide_eq_false fun hreturned => ?_
      rw [hlate hworker hreturned] at hcall
      exact absurd hcall List.not_mem_nil
  ordered := by
    rw [hcalls]
    refine List.pairwise_append.mpr
      ⟨h.ordered, List.pairwise_map.mpr huses.ordered, fun u hu v hv hdone => ?_⟩
    obtain ⟨call, hcall, rfl⟩ := List.mem_map.mp hv
    rw [hended ⟨u, hu, hdone⟩] at hcall
    exact absurd hcall List.not_mem_nil
  closed hdone := by
    rw [hstate] at hdone ⊢
    rcases huses.closed hdone with hdone | hcancelled | hclosed
    · exact (h.closed hdone).imp huses.cancelled hheard
    · exact .inl hcancelled
    · exact .inr (hcloses hclosed)
  left hprovider' := hstate ▸ hprovider hprovider'
  ended := by
    rintro ⟨u, hu, hdone⟩
    rw [hcalls] at hu
    rw [hstate]
    rcases List.mem_append.mp hu with hu | hu
    · obtain ⟨hdone, hclosed⟩ := h.ended ⟨u, hu, hdone⟩
      exact ⟨huses.done hdone, hheard hclosed⟩
    · obtain ⟨call, hcall, rfl⟩ := List.mem_map.mp hu
      obtain ⟨hcloses', hafter⟩ := huses.ended (hdone ▸ hcall)
      exact ⟨hafter, hcloses hcloses'⟩

/-- A critical section without a use of the sink. -/
theorem Safe.quiet {s s' : Stream} (h : s.Safe) (hdone : s'.state.done = s.state.done)
    (hcancelled : s'.state.cancelled = s.state.cancelled) (hcalls : s'.uses = s.uses)
    (hheard : s.Closed → s'.Closed)
    (hprovider : s'.provider = .completing ∨ s'.provider = .returned → s.state.cancelled = true ∨
      s.Closed) : s'.Safe where
  inTime := hcalls ▸ h.inTime
  ordered := hcalls ▸ h.ordered
  closed hdone' := by
    rw [hdone] at hdone'
    exact (h.closed hdone').imp hcancelled.trans hheard
  left hprovider' := (hprovider hprovider').imp hcancelled.trans hheard
  ended hlast := by
    rw [hcalls] at hlast
    obtain ⟨hdone', hclosed⟩ := h.ended hlast
    exact ⟨hdone.trans hdone', hheard hclosed⟩

/-- A closed stream stays closed whatever the worker says. -/
theorem Closed.hear {s s' : Stream} {e : Event} (h : s.Closed)
    (hheard : s'.heard = s.heard ++ [e]) : s'.Closed := by
  obtain ⟨e', he', hcloses⟩ := h
  exact ⟨e', hheard ▸ List.mem_append_left _ he', hcloses⟩

/-- A step adds to what was heard. -/
theorem step_heard {floats : Floats D} {s s' : Stream} {move : Critical D}
    (h : s.step floats move = some s') :
    s.heard <+: s'.heard := by
  cases move with
  | callback e promptMs predictedMs answers =>
    simp only [step] at h
    split at h
    · contradiction
    · contradiction
    · obtain ⟨s₁, _, rfl⟩ := Option.map_eq_some_iff.mp h
      exact List.prefix_append _ _
  | install | enqueue | timeout | awake | complete =>
    simp only [step] at h
    split at h
    · cases h
      exact List.prefix_refl _
    · contradiction

/-- A callback keeps the stream safe. After the stream is closed it does not use the sink. -/
theorem callback_safe {floats : Floats D} {s s₁ : Stream} {e : Event} {promptMs predictedMs : D}
    {answers : SinkAnswers} (h : s.Safe)
    (hcallback : s.callback floats promptMs predictedMs answers e = some s₁)
    (hfinal : s.Closed → e.usesSink = false) : Safe { s₁ with heard := s.heard ++ [e] } := by
  have hhear (s' : Stream) (hheard : s'.heard = s.heard ++ [e]) (hclosed : s.Closed) :
      s'.Closed := hclosed.hear hheard
  have huse (closes : Bool) (result : StreamState × List SinkCall)
      (huses : s.state.Uses closes result.1 result.2)
      (hsink : e.usesSink = true) (hcloses : closes = true → e.closes = true)
      (hcancelled : s.state.cancelled = true → result.2 = []) :
      Safe { s.use true result with heard := s.heard ++ [e] } := by
    have hopen : ¬ s.Closed := fun hclosed => by
      rw [hfinal hclosed] at hsink
      contradiction
    refine h.use huses (fun _ hreturned => ?_) (fun hlast => absurd (h.ended hlast).2 hopen) rfl
      rfl (hhear _ rfl)
      (fun hlast => ⟨e, List.mem_append_right _ (List.mem_singleton_self e), hcloses hlast⟩)
      (fun hprovider => (h.left hprovider).imp huses.cancelled (hhear _ rfl))
    exact hcancelled ((h.left (.inr hreturned)).resolve_right hopen)
  cases e with
  | polled answer =>
    simp only [callback] at hcallback
    split at hcallback
    · cases hcallback
      exact h.quiet rfl rfl rfl (hhear _ rfl) h.left
    · contradiction
  | onCancel =>
    cases hcallback
    exact h.quiet rfl rfl rfl (hhear _ rfl) h.left
  | onToken token piece isLast stats =>
    cases hcallback
    exact huse isLast _ (StreamState.onToken_uses floats s.state piece isLast _ answers)
      rfl (fun h => h)
      fun hcancelled => StreamState.onToken_cancelled floats hcancelled piece isLast _ answers
  | onError message status =>
    cases hcallback
    exact huse true _ (StreamState.onError_uses s.state _ status answers) rfl (fun _ => rfl)
      fun hcancelled => StreamState.onError_cancelled hcancelled _ status answers

/-- A step keeps the stream safe, if what the worker invoked so far is final. -/
theorem step_safe {floats : Floats D} {s s' : Stream} {move : Critical D} (h : s.Safe)
    (hstep : s.step floats move = some s') (hfinal : Final s'.heard) : s'.Safe := by
  cases move with
  | install =>
    simp only [step] at hstep
    split at hstep
    · cases hstep
      exact h.quiet rfl rfl rfl (fun h => h) (fun hprovider => by simp at hprovider)
    · contradiction
  | enqueue =>
    simp only [step] at hstep
    split at hstep
    · cases hstep
      exact h.quiet rfl rfl rfl (fun h => h) (fun hprovider => by simp at hprovider)
    · contradiction
  | timeout answers =>
    simp only [step] at hstep
    split at hstep
    · rename_i hwaiting hdone
      cases hstep
      refine h.use (StreamState.onTimeout_uses s.state answers) (fun hworker => by contradiction)
        (fun hlast => absurd (h.ended hlast).1 (by rw [hdone]; decide)) rfl rfl
          (fun h => h) (fun hcloses => by contradiction)
        fun hprovider => .inl ?_
      -- the provider returned, so the sink failed
      unfold StreamState.onTimeout
      split
      · rfl
      · split
        · rfl
        · simp_all
    · contradiction
  | awake =>
    simp only [step] at hstep
    split at hstep
    · rename_i hwaiting hdone
      cases hstep
      exact h.quiet rfl rfl rfl (fun h => h) (fun _ => h.closed hdone)
    · contradiction
  | complete =>
    simp only [step] at hstep
    split at hstep
    · rename_i hcompleting
      cases hstep
      exact h.quiet rfl rfl rfl (fun h => h) (fun _ => h.left (.inl hcompleting))
    · contradiction
  | callback e promptMs predictedMs answers =>
    simp only [step] at hstep
    split at hstep
    · contradiction
    · contradiction
    · obtain ⟨s₁, hcallback, rfl⟩ := Option.map_eq_some_iff.mp hstep
      refine callback_safe h hcallback fun hclosed => ?_
      obtain ⟨e', he', hcloses⟩ := hclosed
      exact (List.pairwise_append.mp hfinal).2.2 e' he' e (List.mem_singleton_self e) hcloses

/-- A run whose callbacks are final is safe. -/
theorem run_safe {floats : Floats D} {steps : List (Critical D)} {s : Stream}
    (hrun : Run floats {} steps s) (hfinal : Final s.heard) : s.Safe := by
  -- what was heard before a step is a beginning of what was heard after it
  refine run_invariant (P := fun s => Final s.heard →
    s.Safe) (fun s₁ move s₂ hsafe hstep hfinal' => ?_)
    (fun _ => ⟨fun _ hu => absurd hu List.not_mem_nil, List.Pairwise.nil, fun h => by contradiction,
      fun h => by simp at h, fun ⟨_, hu, _⟩ => absurd hu List.not_mem_nil⟩) hrun hfinal
  exact step_safe (hsafe (hfinal'.sublist (step_heard hstep).sublist)) hstep hfinal'

end Stream

/-- In every interleaving of the content provider with the callbacks that the worker invokes in a
run, and for all answers of the sink, the worker does not use the sink after the provider returned,
and nothing is written after the event that ends the stream. -/
theorem sink_safe (b : Bridge L) (config : Config) (order : ChildOrder) (actions : List Action)
    (k : Worker L) (hrun : (Worker.init config order : Worker L).Run b actions k) (id : ℕ)
    (floats : Floats D) (steps : List (Critical D)) (s : Stream)
    (hsteps : Stream.Run floats {} steps s) (hheard : s.heard <+: k.world.eventsOf id) :
    (∀ u ∈ s.uses, u.byWorker = true → u.late = false) ∧
      s.uses.Pairwise fun u v => u.call = .write doneEvent → ∀ bytes, v.call ≠ .write bytes := by
  have hsafe := Stream.run_safe hsteps ((events_final hrun id).sublist hheard.sublist)
  exact ⟨hsafe.inTime, hsafe.ordered⟩

/-- A stream that is kept open once between its two pieces. -/
theorem sink_safe_kept : ∃ s, Stream.Run sixDecimals {}
    (.install :: .enqueue ::
      ([.polled false, .polled false, .polled false, .onToken (some 1) [] false none].map
      fun e => .callback e 0 0 {}) ++ .timeout {} ::
        ([.polled false, .polled false, .polled false, .polled false,
          .onToken none [] true (some ⟨2, 0, 2, 1⟩)].map fun e => .callback e 1500000 250000 {}) ++
            [.awake, .complete]) s ∧
      s.provider = .returned ∧ s.uses.length = 7 ∧
      (∀ u ∈ s.uses, u.byWorker = true → u.late = false) ∧
        s.uses.Pairwise fun u v => u.call = .write doneEvent → ∀ bytes, v.call ≠ .write bytes := by
  have hworker : (run (Worker.step (Bridge.counting (fun _ => [5, 6]) 2))
      (Worker.init ⟨4, 64, true⟩ .stored)
      (.enqueue {} :: Worker.iteration 0 0 ++ Worker.iteration 0 0)).any
        (fun k => k.world.eventsOf 0 =
        [.polled false, .polled false, .polled false, .onToken (some 1) [] false none,
          .polled false, .polled false, .polled false, .polled false,
          .onToken none [] true (some ⟨2, 0, 2, 1⟩)]) = true := by decide
  obtain ⟨k, hk, hevents⟩ := (Option.any_eq_true _ _).mp hworker
  have hstream : (run (Stream.step sixDecimals) {}
      (.install :: .enqueue ::
        ([.polled false, .polled false, .polled false, .onToken (some 1) [] false none].map
        fun e => .callback e 0 0 {}) ++ .timeout {} ::
          ([.polled false, .polled false, .polled false, .polled false,
            .onToken none [] true (some ⟨2, 0, 2, 1⟩)].map fun e =>
              .callback e 1500000 250000 {}) ++
            [.awake, .complete])).any
              (fun s => s.provider = .returned ∧ s.uses.length = 7 ∧ s.heard =
              [.polled false, .polled false, .polled false,
                .onToken (some 1) [] false none, .polled false, .polled false,
                .polled false, .polled false,
                .onToken none [] true (some ⟨2, 0, 2, 1⟩)]) = true := by decide
  obtain ⟨s, hs, hcond⟩ := (Option.any_eq_true _ _).mp hstream
  obtain ⟨hreturned, huses, hheard⟩ := of_decide_eq_true hcond
  exact ⟨s, hs, hreturned, huses,
    sink_safe _ _ _ _ k hk 0 sixDecimals _ s hs (by rw [hheard, of_decide_eq_true hevents])⟩

end RadixForge
