import RadixForge.Worker.Lifecycle

/-!
# The callbacks of a request over a run

After a terminal event a request is not called again, unless it is polled late: when the last
token that its budget allows was delivered, or when it is found cancelled between the sampling of
its token and its retirement. Every request that arrived is in one place or has left after one
terminal event, unless it is cancelled right after its last token.
-/

namespace RadixForge

open Library

variable {L : Type} {b : Bridge L} {config : Config} {order : ChildOrder}

instance (b : Bridge L) (seq : ActiveSeq L) : Decidable (seq.Spends b) :=
  inferInstanceAs (Decidable (_ ∧ _))

namespace Worker

variable {allowed : Closing → Tail → Prop} {k k' : Worker L}

/-- The requests that the worker has. -/
def present (k : Worker L) : List ℕ :=
  k.slots.active.map (fun seq => seq.req.id) ++ k.slots.prefilling.map (fun ctx => ctx.req.id) ++
    k.waiting.map InferenceRequest.id

/-- The records are about the requests that are present. -/
theorem records_ids (terms : Terms) :
    (k.slots.records b terms ++ k.waiting.map (InferenceRequest.record b terms)).map Record.id =
      k.present := by
  simp [present, Slots.records, Function.comp_def, ActiveSeq.record, PrefillCtx.record,
    InferenceRequest.record]

/-- No request is present twice. -/
theorem Serves.nodup (h : k.Serves b allowed) : k.present.Nodup := by
  rw [← records_ids (b := b) (contract b allowed k.arrivals)]
  exact World.Ledger.nodup h

/-- A request that the worker has is still open and has received a part of what it generates. -/
theorem Serves.opened (h : k.Serves b allowed) {id : ℕ} (hid : id ∈ k.present) :
    id < k.arrivals.length ∧ (∀ e ∈ k.world.eventsOf id, e.isTerminal = false) ∧
      delivered (k.world.eventsOf id) <+: (contract b allowed k.arrivals).generated id := by
  rw [← records_ids (b := b) (contract b allowed k.arrivals)] at hid
  obtain ⟨r, hr, rfl⟩ := List.mem_map.mp hid
  obtain ⟨hlt, hholds⟩ := World.Ledger.known h r hr
  refine ⟨hlt, ?_⟩
  rcases List.mem_append.mp hr with hr | hr
  · rcases List.mem_append.mp hr with hr | hr
    · obtain ⟨seq, _, rfl⟩ := List.mem_map.mp hr
      exact ⟨(ActiveSeq.Serves.toOpen hholds).opened, ActiveSeq.Serves.given hholds⟩
    · obtain ⟨ctx, _, rfl⟩ := List.mem_map.mp hr
      exact ⟨(PrefillCtx.Serves.toOpen hholds).opened, PrefillCtx.Serves.given hholds⟩
  · obtain ⟨req, _, rfl⟩ := List.mem_map.mp hr
    refine ⟨(InferenceRequest.Waits.toOpen hholds).opened, ?_⟩
    rw [InferenceRequest.Waits.nothing hholds]
    exact List.nil_prefix

/-- A request that arrived and is not in the worker has departed in an allowed way. -/
theorem Serves.departed (h : k.Serves b allowed) {id : ℕ} (hid : id < k.arrivals.length)
    (hnot : id ∉ k.present) :
    ∃ closing tail, allowed closing tail ∧
      Departed ((contract b allowed k.arrivals).generated id) closing tail
        (k.world.eventsOf id) := by
  rw [← records_ids (b := b) (contract b allowed k.arrivals)] at hnot
  exact World.Ledger.left h id hid hnot

/-- A request that has not arrived has heard nothing. -/
theorem Serves.fresh (h : k.Serves b allowed) {id : ℕ} (hid : k.arrivals.length ≤ id) :
    k.world.eventsOf id = [] :=
  World.Ledger.fresh h id hid

/-- No poll comes too late: in a step that decodes, no sequence reaches the end of its budget, and
none is found cancelled between its token and its retirement. -/
def PollsInTime (b : Bridge L) (k : Worker L) : Action → Prop
  | .fuse first second => first = 0 ∨ first = 1 ∧ second = 0 →
    ∀ seq ∈ k.slots.active, seq.req.cancelAfter ≠ some 0 →
      seq.req.cancelAfter ≠ some 1 ∧ seq.req.cancelAfter ≠ some 2 ∧ ¬ seq.Spends b
  | _ => True

/-- No request is cancelled right after its last token: in a step that decodes, no sequence at the
end of its budget is cancelled at the third poll. -/
def CancelsBeforeLast (b : Bridge L) (k : Worker L) : Action → Prop
  | .fuse first second => first = 0 ∨ first = 1 ∧ second = 0 → ∀ seq ∈ k.slots.active,
      seq.req.cancelAfter = some 2 → ¬ seq.Spends b
  | _ => True

instance (b : Bridge L) (k : Worker L) : ∀ action, Decidable (PollsInTime b k action)
  | .fuse first second => inferInstanceAs (Decidable (first = 0 ∨ first = 1 ∧ second = 0 → _))
  | .enqueue _ | .stop | .check | .pop | .prepare | .requeue => isTrue trivial

instance (b : Bridge L) (k : Worker L) : ∀ action, Decidable (CancelsBeforeLast b k action)
  | .fuse first second => inferInstanceAs (Decidable (first = 0 ∨ first = 1 ∧ second = 0 → _))
  | .enqueue _ | .stop | .check | .pop | .prepare | .requeue => isTrue trivial

/-- A step that polls in time admits no late poll. -/
theorem admits_of_pollsInTime {action : Action} (h : k.PollsInTime b action) :
    k.Admits b (fun _ tail => tail = .quiet) action := by
  cases action with
  | fuse first second =>
    refine ⟨fun _ => rfl, fun hdecodes seq hseq hopen => ?_⟩
    obtain ⟨hone, htwo, hspends⟩ := h hdecodes seq hseq hopen
    refine ⟨fun hlate => ?_, fun hspent => absurd hspent hspends,
      fun _ hspent => absurd hspent hspends⟩
    rcases hlate with hzero | hnext
    · exact absurd (InferenceRequest.polled_cancelAfter hopen hzero) hone
    · exact absurd (InferenceRequest.polled_cancelAfter hopen hnext) htwo
  | enqueue req => exact fun _ => rfl
  | check => exact fun _ => rfl
  | pop => exact fun _ => rfl
  | stop | prepare | requeue => exact trivial

/-- Every step is admitted if every departure is allowed. -/
theorem admits_of_all (action : Action) : k.Admits b (fun _ _ => True) action := by
  cases action with
  | fuse first second =>
    exact ⟨fun _ => trivial,
      fun _ seq _ _ => ⟨fun _ => trivial, fun _ => trivial, fun _ _ => trivial⟩⟩
  | enqueue req => exact fun _ => trivial
  | check => exact fun _ => trivial
  | pop => exact fun _ => trivial
  | stop | prepare | requeue => exact trivial

/-- The ledger of a run of which nothing is asked. -/
theorem run_serves_all {actions : List Action}
    (hrun : (Worker.init config order : Worker L).Run b actions k) :
    k.Serves b fun _ _ => True :=
  run_serves _ ⟨trivial, trivial⟩ (fun _ a _ _ s _ => s.admits_of_all a) hrun

end Worker

/-- In every run without late polls, nothing is invoked on a request after its terminal event. -/
theorem callbacks_orderly (b : Bridge L) (config : Config) (order : ChildOrder)
    (actions : List Action) (k : Worker L)
    (hrun : (Worker.init config order : Worker L).Run b actions k)
    (hpolls : RunsWithin (Worker.step b) (Worker.PollsInTime b) (Worker.init config order) actions)
    (id : ℕ) :
    Orderly (k.world.eventsOf id) := by
  have hserves := Worker.run_serves (fun _ tail => tail = .quiet) ⟨rfl, rfl⟩
    (fun before a after heq s hs => Worker.admits_of_pollsInTime (hpolls before a after heq s hs))
      hrun
  by_cases hlt : id < k.arrivals.length
  · by_cases hpresent : id ∈ k.present
    · intro before e after heq hterminal
      have hopen := (hserves.opened hpresent).2.1
        e (heq ▸ List.mem_append_right _ List.mem_cons_self)
      rw [hopen] at hterminal
      contradiction
    · obtain ⟨closing, tail, rfl, hdeparted⟩ := hserves.departed hlt hpresent
      exact hdeparted.orderly
  · intro before e after heq
    rw [hserves.fresh (not_lt.mp hlt)] at heq
    simp at heq

/-- A request that ends by its stop token is polled in time. -/
theorem callbacks_orderly_stop : ∃ k,
    (Worker.init ⟨4, 64, true⟩ .stored).Run (Bridge.counting (fun _ => [5, 6]) 2)
      (.enqueue {} :: Worker.iteration 0 0 ++ Worker.iteration 0 0) k ∧
      k.world.eventsOf 0 ≠ [] ∧ Orderly (k.world.eventsOf 0) := by
  have hrun : (run (Worker.step (Bridge.counting (fun _ => [5, 6]) 2))
      (Worker.init ⟨4, 64, true⟩ .stored)
      (.enqueue {} :: Worker.iteration 0 0 ++ Worker.iteration 0 0)).any
        (fun k => k.world.eventsOf 0 ≠ []) = true := by
    decide +kernel
  have hpolls : RunsWithin (Worker.step (Bridge.counting (fun _ => [5, 6]) 2))
      (Worker.PollsInTime (Bridge.counting (fun _ => [5, 6]) 2)) (Worker.init ⟨4, 64, true⟩ .stored)
      (.enqueue {} :: Worker.iteration 0 0 ++ Worker.iteration 0 0) := by decide +kernel
  obtain ⟨k, hk, hcond⟩ := (Option.any_eq_true _ _).mp hrun
  exact ⟨k, hk, of_decide_eq_true hcond, callbacks_orderly _ _ _ _ k hk hpolls 0⟩

/-- A request that reaches its budget while decoding is polled after its last token. -/
theorem callbacks_polled_late :
    ¬ ∀ (L : Type) (b : Bridge L) (config : Config) (order : ChildOrder) (actions : List Action)
    (k : Worker L), (Worker.init config order : Worker L).Run b actions k →
      ∀ id, Orderly (k.world.eventsOf id) := by
  intro hall
  have hrun : (run (Worker.step (Bridge.counting (fun _ => [5, 6]) 0))
      (Worker.init ⟨4, 64, true⟩ .stored)
      (.enqueue { maxTokens := 2 } :: Worker.iteration 0 0 ++ Worker.iteration 0 0)).any
        (fun k => k.world.eventsOf 0 =
        [.polled false, .polled false, .polled false, .onToken (some 1) [] false none,
          .polled false, .polled false, .onToken (some 2) [] true (some ⟨2, 0, 2, 2⟩),
          .polled false]) = true := by decide +kernel
  obtain ⟨k, hk, hcond⟩ := (Option.any_eq_true _ _).mp hrun
  have horderly := hall _ _ _ _ _ k hk 0
  rw [of_decide_eq_true hcond] at horderly
  have hafter := horderly [.polled false, .polled false, .polled false,
    .onToken (some 1) [] false none, .polled false, .polled false]
      (.onToken (some 2) [] true (some ⟨2, 0, 2, 2⟩)) [.polled false] rfl rfl
  exact List.cons_ne_nil _ _ hafter

end RadixForge
