import RadixForge.Http.Handler

/-!
# The dangling reference of `cancelled`

The closure `cancelled` of a request that does not stream keeps a reference to the request of the
HTTP library, which lives until the handler returns. The handler returns early when its time is
over, which may happen between the two parts of the closure, and it returns before the worker is
done with the request if the worker polls it after its last piece.
-/

namespace RadixForge

open Library

variable {D L : Type}

namespace Exchange

variable {floats : Floats D} {isChat : Bool} {zero : D} {s s' : Exchange D}

/-- A poll came after the closing callback. -/
def PolledLate (es : List Event) : Prop :=
  ∃ before e after answer, es = before ++ e :: after ∧ e.closes = true ∧ .polled answer ∈ after

/-- The uses of the request of the HTTP library: none comes late before the handler returned;
without a timeout the request was polled late, and after one it is used late at most once. -/
structure Uses (s : Exchange D) : Prop where
  asked : s.touches ≠ [] → ∃ answer, .polled answer ∈ s.heard
  early : s.answer = none → true ∉ s.touches
  late : s.state.cancelled = false → true ∈ s.touches → PolledLate s.heard
  once : s.state.cancelled = true → true ∈ s.touches →
    s.touches.count true = 1 ∧ ∀ e ∈ s.pending, e.usesSink = true

/-- Further callbacks leave a late poll late. -/
theorem PolledLate.add {es : List Event} (h : PolledLate es) (es' : List Event) :
    PolledLate (es ++ es') := by
  obtain ⟨before, e, after, answer, rfl, hcloses, hpolled⟩ := h
  exact ⟨before, e, after ++ es', answer, by simp, hcloses, List.mem_append_left _ hpolled⟩

/-- A poll after the closing callback is late. -/
theorem PolledLate.of_last {before : List Event} {answer : Bool} {e : Event} (he : e ∈ before)
    (hcloses : e.closes = true) : PolledLate (before ++ [.polled answer]) := by
  obtain ⟨first, after, rfl⟩ := List.append_of_mem he
  exact ⟨first, e, after ++ [.polled answer], answer, by simp, hcloses,
    List.mem_append_right _ (List.mem_singleton_self _)⟩

/-- The second part of a callback uses the request of the HTTP library if it is a poll. -/
theorem finish_uses {es : List Event} {e : Event} (hkeeps : s.Keeps floats isChat es) (h : s.Uses)
    (hpending : s.pending = some e) (promptMs predictedMs : D) :
    (s.finish promptMs predictedMs e).Uses := by
  obtain ⟨_, before, hbefore⟩ := hkeeps.waits e hpending
  -- only a poll adds a use
  have hsame (hcancelled : (s.finish promptMs predictedMs e).state.cancelled = s.state.cancelled)
      (htouches : (s.finish promptMs predictedMs e).touches = s.touches)
      (hheard : (s.finish promptMs predictedMs e).heard = s.heard)
      (hanswer : (s.finish promptMs predictedMs e).answer = s.answer)
      (hnone : (s.finish promptMs predictedMs e).pending = none) :
        (s.finish promptMs predictedMs e).Uses := by
    refine ⟨?_, ?_, ?_, fun htimeout hlate =>
      ⟨?_, fun e' he' => absurd (hnone ▸ he') (Option.not_mem_none e')⟩⟩
    · rw [htouches, hheard]
      exact h.asked
    · rw [htouches, hanswer]
      exact h.early
    · rw [htouches, hheard, hcancelled]
      exact h.late
    · rw [hcancelled] at htimeout
      rw [htouches] at hlate ⊢
      exact (h.once htimeout hlate).1
  cases e with
  | onToken token piece isLast stats => cases isLast <;> exact hsame rfl rfl rfl rfl rfl
  | onError message status => exact hsame rfl rfl rfl rfl rfl
  | onCancel => exact hsame rfl rfl rfl rfl rfl
  | polled answer =>
    have hmem : .polled answer ∈ s.heard :=
      hbefore ▸ List.mem_append_right _ (List.mem_singleton_self _)
    refine ⟨fun _ => ⟨answer, hmem⟩, fun hnone hlate => ?_, fun hcancelled hlate => ?_,
      fun htimeout hlate => ?_⟩
    · change s.answer = none at hnone
      rcases List.mem_append.mp hlate with hlate | hlate
      · exact h.early hnone hlate
      · rw [hnone] at hlate
        exact Bool.noConfusion (List.mem_singleton.mp hlate)
    · change s.state.cancelled = false at hcancelled
      rcases List.mem_append.mp hlate with hlate | hlate
      · exact h.late hcancelled hlate
      · -- the handler returned without a timeout, so the request is done
        have hdone : s.state.done = true :=
          (hkeeps.returned (List.mem_singleton.mp hlate).symm).resolve_left
          fun htimeout => Bool.false_ne_true (hcancelled.symm.trans htimeout)
        obtain ⟨_, e', he', hcloses, _⟩ := hkeeps.closed hcancelled hdone
        change PolledLate s.heard
        rw [hbefore] at he' ⊢
        rcases List.mem_append.mp he' with he' | he'
        · exact .of_last he' hcloses
        · rw [List.mem_singleton.mp he'] at hcloses
          contradiction
    · change s.state.cancelled = true at htimeout
      -- the poll was the only one that began before the timeout
      have hnot : true ∉ s.touches := fun hbefore =>
        Bool.false_ne_true ((h.once htimeout hbefore).2 _ hpending)
      refine ⟨?_, fun e' he' => absurd he' (Option.not_mem_none e')⟩
      change (s.touches ++ [s.answer.isSome]).count true = 1
      rw [List.count_append, List.count_eq_zero_of_not_mem hnot, hkeeps.timedOut htimeout]
      rfl

/-- A step uses the request of the HTTP library as the invariant says. -/
theorem step_uses {es : List Event} {turn : Turn D} (hkeeps : s.Keeps floats isChat es) (h : s.Uses)
    (hstep : s.step floats isChat turn = some s') : s'.Uses := by
  cases turn with
  | enqueue =>
    simp only [step] at hstep
    split at hstep
    all_goals cases hstep
    exact ⟨h.asked, h.early, h.late, h.once⟩
  | callback e =>
    simp only [step] at hstep
    split at hstep
    · rename_i hready
      obtain ⟨s₁, hcallback, rfl⟩ := Option.map_eq_some_iff.mp hstep
      have hasked (hused : s.touches ≠ []) : ∃ answer, .polled answer ∈ s.heard ++ [e] :=
        (h.asked hused).imp fun _ => List.mem_append_left _
      cases callback_called hcallback with
      | waiting he hopen =>
        exact ⟨hasked, h.early, fun hcancelled hlate => (h.late hcancelled hlate).add [e],
          fun htimeout => absurd (hopen.symm.trans htimeout) Bool.false_ne_true⟩
      | skipped hquiet =>
        exact ⟨hasked, h.early, fun hcancelled hlate => (h.late hcancelled hlate).add [e], h.once⟩
    · contradiction
  | finish promptMs predictedMs =>
    obtain ⟨e, hpending, rfl⟩ := Option.map_eq_some_iff.mp hstep
    exact finish_uses hkeeps h hpending promptMs predictedMs
  | awake =>
    simp only [step] at hstep
    split at hstep
    · cases hstep
      exact ⟨h.asked, fun hnone => absurd hnone (Option.some_ne_none _), h.late, h.once⟩
    · contradiction
  | timeout =>
    simp only [step] at hstep
    split at hstep
    · rename_i hready
      cases hstep
      simp only [Bool.and_eq_true, Option.isNone_iff_eq_none] at hready
      exact ⟨h.asked, fun hnone => absurd hnone (Option.some_ne_none _),
        fun hopen => absurd hopen (Bool.false_ne_true ∘ Eq.symm), fun _ hlate =>
          absurd hlate (h.early hready.1.2)⟩
    · contradiction

/-- The uses of the request in a run whose callbacks are the beginning of a final list. -/
theorem run_uses {es : List Event} (hfinal : Final es) {turns : List (Turn D)}
    (hrun : Run floats isChat (init zero) turns s) (hheard : s.heard <+: es) : s.Uses := by
  have hstart : (init zero).Uses :=
    ⟨fun hused => absurd rfl hused, fun _ => List.not_mem_nil,
      fun _ hlate => absurd hlate List.not_mem_nil,
      fun _ hlate => absurd hlate List.not_mem_nil⟩
  have hfirst : Run floats isChat (init zero) [] (init zero) := rfl
  refine (run_invariant (P := fun s => s.heard <+: es → s.Keeps floats isChat es ∧ s.Uses)
    (fun s₁ turn s₂ hholds hstep hheard' => ?_)
      (fun hnothing => ⟨run_keeps hfinal hfirst hnothing, hstart⟩)
    hrun hheard).2
  obtain ⟨hkeeps, huses⟩ := hholds ((step_heard hstep).trans hheard')
  exact ⟨step_keeps hfinal hkeeps hstep hheard', step_uses hkeeps huses hstep⟩

section Schedule

/-- The worker is between two callbacks of a request that the handler has not given up. -/
structure Ready (s : Exchange D) : Prop where
  enqueued : s.enqueued = true
  idle : s.pending = none
  kept : s.state.cancelled = false

/-- What a ready exchange becomes when it hears callbacks. -/
structure Hears (s : Exchange D) (es : List Event) (s' : Exchange D) : Prop where
  ready : s'.Ready
  heard : s'.heard = s.heard ++ es
  answer : s'.answer = s.answer
  done : s'.state.done = true ↔ s.state.done = true ∨ ∃ e ∈ es, e.closes = true
  touches : s.touches <+: s'.touches
  touched : ∀ answer, .polled answer ∈ es → s.answer.isSome ∈ s'.touches

/-- A callback is heard at once. -/
theorem hears_one (floats : Floats D) (isChat : Bool) (h : s.Ready) (duration : D) (e : Event) :
    ∃ s', Run floats isChat s (turnsOf duration e) s' ∧ s.Hears [e] s' := by
  have hgoes : (s.enqueued && s.pending.isNone) = true := by rw [h.enqueued, h.idle]; rfl
  cases e with
  | polled answer =>
    refine ⟨finish { s with heard := s.heard ++ [.polled answer] } duration duration
      (.polled answer), ?_, ?_⟩
    · simp [Run, run, turnsOf, step, hgoes, callback, h.kept, finish]
    · exact ⟨⟨h.enqueued, rfl, h.kept⟩, rfl, rfl, by simp [Event.closes, finish],
        List.prefix_append _ _,
        fun _ _ => List.mem_append_right _ (List.mem_singleton_self _)⟩
  | onCancel =>
    refine ⟨{ s with heard := s.heard ++ [.onCancel] }, ?_, ?_⟩
    · simp [Run, run, turnsOf, step, hgoes, callback]
    · exact ⟨⟨h.enqueued, h.idle, h.kept⟩, rfl, rfl, by simp [Event.closes],
        List.prefix_refl _, by simp⟩
  | onToken token piece isLast stats =>
    refine ⟨finish { s with heard := s.heard ++ [.onToken token piece isLast stats] }
      duration duration
      (.onToken token piece isLast stats), ?_, ?_⟩
    · simp [Run, run, turnsOf, step, hgoes, callback, h.kept, finish]
    · cases isLast <;> exact ⟨⟨h.enqueued, rfl, h.kept⟩, rfl, rfl,
        by simp [Event.closes, finish, NonStreamState.onToken], List.prefix_refl _, by simp⟩
  | onError message status =>
    refine ⟨finish { s with heard := s.heard ++ [.onError message status] } duration duration
      (.onError message status), ?_, ?_⟩
    · simp [Run, run, turnsOf, step, hgoes, callback, h.kept, finish]
    · exact ⟨⟨h.enqueued, rfl, h.kept⟩, rfl, rfl,
        by simp [Event.closes, finish, NonStreamState.onError], List.prefix_refl _, by simp⟩

/-- Callbacks are heard one after the other. -/
theorem hears_all (floats : Floats D) (isChat : Bool) (h : s.Ready) (duration : D)
    (es : List Event) :
    ∃ s', Run floats isChat s (es.flatMap (turnsOf duration)) s' ∧ s.Hears es s' := by
  induction es generalizing s with
  | nil => exact ⟨s, rfl, h, (List.append_nil _).symm, rfl, by simp, List.prefix_refl _, by simp⟩
  | cons e es ih =>
    obtain ⟨s₁, hfirst, hone⟩ := hears_one floats isChat h duration e
    obtain ⟨s₂, hrest, hall⟩ := ih hone.ready
    refine ⟨s₂, ?_, hall.ready, ?_, hall.answer.trans hone.answer, ?_,
      hone.touches.trans hall.touches, fun answer hanswer => ?_⟩
    · rw [List.flatMap_cons, Run, run_append, hfirst]
      exact hrest
    · rw [hall.heard, hone.heard, List.append_assoc, List.singleton_append]
    · rw [hall.done, hone.done, or_assoc]
      simp
    · rcases List.mem_cons.mp hanswer with rfl | hanswer
      · exact hall.touches.subset (hone.touched answer List.mem_cons_self)
      · exact hone.answer ▸ hall.touched answer hanswer

/-- A request that is polled after the closing callback can be used late although the handler did
not give it up. -/
theorem exists_late (floats : Floats D) (isChat : Bool) (zero : D) {es : List Event}
    (h : PolledLate es) :
    ∃ turns s, Run floats isChat (init zero) turns s ∧ s.heard = es ∧ s.state.cancelled = false ∧
      true ∈ s.touches := by
  obtain ⟨before, e, after, answer, rfl, hcloses, hpolled⟩ := h
  -- the handler returns as soon as the closing callback is heard
  have hstart : Ready { init zero with enqueued := true } := ⟨rfl, rfl, rfl⟩
  obtain ⟨s, hclosing, hheard⟩ := hears_all floats isChat hstart zero (before ++ [e])
  have hdone : s.state.done = true :=
    hheard.done.mpr (.inr ⟨e, List.mem_append_right _ (List.mem_singleton_self e), hcloses⟩)
  have hnone : s.answer = none := hheard.answer
  have hreturned : Ready { s with answer := some (s.state.answer floats isChat) } :=
    ⟨hheard.ready.enqueued, hheard.ready.idle, hheard.ready.kept⟩
  obtain ⟨s', hafter, hheard'⟩ := hears_all floats isChat hreturned zero after
  refine ⟨.enqueue :: (before ++ [e]).flatMap (turnsOf zero) ++
    .awake :: after.flatMap (turnsOf zero), s', ?_, ?_, hheard'.ready.kept, ?_⟩
  · have henqueued : Run floats isChat (init zero)
        (.enqueue :: (before ++ [e]).flatMap (turnsOf zero)) s := hclosing
    have hawake : step floats isChat s .awake =
        some { s with answer := some (s.state.answer floats isChat) } := by
      simp [step, hheard.ready.enqueued, hnone, hdone]
    rw [Run, run_append, henqueued, Option.bind_some, run_cons, hawake]
    exact hafter
  · rw [hheard'.heard, hheard.heard]
    simp [init]
  · exact hheard'.touched answer hpolled

/-- A request whose time is over in the middle of a poll is used late. -/
theorem exists_interrupted (floats : Floats D) (isChat : Bool) (zero : D) (before : List Event)
    (answer : Bool) (hopen : ∀ e ∈ before, e.closes = false) :
    ∃ turns s, Run floats isChat (init zero) turns s ∧
      s.heard = before ++ [.polled answer] ∧ true ∈ s.touches := by
  have hstart : Ready { init zero with enqueued := true } := ⟨rfl, rfl, rfl⟩
  obtain ⟨s, hbefore, hheard⟩ := hears_all floats isChat hstart zero before
  have hdone : s.state.done = false := by
    rw [← Bool.not_eq_true, hheard.done]
    rintro (hdone | ⟨e, he, hcloses⟩)
    · exact Bool.noConfusion hdone
    · exact Bool.false_ne_true ((hopen e he).symm.trans hcloses)
  have hnone : s.answer = none := hheard.answer
  let asked : Exchange D :=
    { s with pending := some (.polled answer), heard := s.heard ++ [.polled answer] }
  let gone : Exchange D :=
    { asked with state := { s.state with cancelled := true }, answer := some timeoutAnswer }
  have hasked : s.step floats isChat (.callback (.polled answer)) = some asked := by
    simp [step, hheard.ready.enqueued, hheard.ready.idle, callback, hheard.ready.kept, asked]
  have hgone : asked.step floats isChat .timeout = some gone := by
    simp [step, asked, gone, hheard.ready.enqueued, hnone, hdone]
  have hfinished : gone.step floats isChat (.finish zero zero) =
      some (gone.finish zero zero (.polled answer)) := rfl
  refine ⟨.enqueue :: before.flatMap (turnsOf zero) ++
    [.callback (.polled answer), .timeout, .finish zero zero], gone.finish zero zero
      (.polled answer), ?_, ?_, List.mem_append_right _ (List.mem_singleton_self _)⟩
  · have henqueued : Run floats isChat (init zero) (.enqueue :: before.flatMap (turnsOf zero)) s :=
      hbefore
    rw [Run, run_append, henqueued, Option.bind_some, run_cons, hasked,
      Option.bind_some, run_cons, hgone, Option.bind_some, run_cons, hfinished]
    rfl
  · change s.heard ++ [.polled answer] = before ++ [.polled answer]
    rw [hheard.heard]
    rfl

end Schedule

end Exchange

/-- In every run of the worker, some interleaving with the handler uses the request of the HTTP
library after the handler returned exactly if the request is polled at all, since the time of the
handler may be over in the middle of a poll; some interleaving in which the handler does not give
the request up does so exactly if the request is polled after its last piece or its error; and in an
interleaving in which it gives the request up that happens at most once. -/
theorem request_used_late_iff (b : Bridge L) (config : Config) (order : ChildOrder)
    (actions : List Action) (k : Worker L)
    (hrun : (Worker.init config order : Worker L).Run b actions k) (id : ℕ) (floats : Floats D)
    (isChat : Bool) (zero : D) :
    ((∃ turns s, Exchange.Run floats isChat (Exchange.init zero) turns s ∧
      s.heard <+: k.world.eventsOf id ∧
        true ∈ s.touches) ↔ ∃ answer, .polled answer ∈ k.world.eventsOf id) ∧
      ((∃ turns s, Exchange.Run floats isChat (Exchange.init zero) turns s ∧
        s.heard <+: k.world.eventsOf id ∧
        s.state.cancelled = false ∧ true ∈ s.touches) ↔ Exchange.PolledLate (k.world.eventsOf id)) ∧
      ∀ turns s, Exchange.Run floats isChat (Exchange.init zero) turns s →
      s.heard <+: k.world.eventsOf id →
        s.state.cancelled = true → s.touches.count true ≤ 1 := by
  have huses {turns : List (Turn D)} {s : Exchange D}
      (hturns : Exchange.Run floats isChat (Exchange.init zero) turns s)
      (hheard : s.heard <+: k.world.eventsOf id) : s.Uses :=
        Exchange.run_uses (events_final hrun id) hturns hheard
  refine ⟨⟨?_, ?_⟩, ⟨?_, ?_⟩, fun turns s hturns hheard htimeout => ?_⟩
  · rintro ⟨turns, s, hturns, hheard, hlate⟩
    obtain ⟨answer, hpolled⟩ := (huses hturns hheard).asked (List.ne_nil_of_mem hlate)
    exact ⟨answer, hheard.subset hpolled⟩
  · rintro ⟨answer, hpolled⟩
    obtain ⟨before, after, hevents⟩ := List.append_of_mem hpolled
    have hbegins : before ++ [.polled answer] <+: k.world.eventsOf id :=
      ⟨after, by rw [hevents]; simp⟩
    by_cases hclosed : ∃ e ∈ before, e.closes = true
    · obtain ⟨e, he, hcloses⟩ := hclosed
      obtain ⟨turns, s, hturns, hheard, _, hlate⟩ :=
        Exchange.exists_late floats isChat zero (.of_last he hcloses)
      exact ⟨turns, s, hturns, hheard ▸ hbegins, hlate⟩
    · push Not at hclosed
      obtain ⟨turns, s, hturns, hheard, hlate⟩ :=
        Exchange.exists_interrupted floats isChat zero before answer
        fun e he => Bool.eq_false_iff.mpr (hclosed e he)
      exact ⟨turns, s, hturns, hheard ▸ hbegins, hlate⟩
  · rintro ⟨turns, s, hturns, hheard, hcancelled, hlate⟩
    have hsofar := (huses hturns hheard).late hcancelled hlate
    obtain ⟨rest, hrest⟩ := hheard
    exact hrest ▸ hsofar.add rest
  · intro hpolled
    obtain ⟨turns, s, hturns, hheard, hcancelled, hlate⟩ :=
      Exchange.exists_late floats isChat zero hpolled
    exact ⟨turns, s, hturns, hheard ▸ List.prefix_refl _, hcancelled, hlate⟩
  · by_cases hlate : true ∈ s.touches
    · exact ((huses hturns hheard).once htimeout hlate).1.le
    · exact (List.count_eq_zero_of_not_mem hlate).le.trans (Nat.zero_le 1)

/-- A request that reaches its budget while decoding is polled late, and the handler need not give
it up for that. -/
theorem request_used_late_budget : ∃ k turns s,
    (Worker.init ⟨4, 64, true⟩ .stored).Run (Bridge.counting (fun _ => [5, 6]) 0)
      (.enqueue { maxTokens := 2 } :: Worker.iteration 0 0 ++ Worker.iteration 0 0) k ∧
      Exchange.Run sixDecimals true (Exchange.init 0) turns s ∧ s.heard <+: k.world.eventsOf 0 ∧
      s.state.cancelled = false ∧ true ∈ s.touches := by
  have hrun : (run (Worker.step (Bridge.counting (fun _ => [5, 6]) 0))
      (Worker.init ⟨4, 64, true⟩ .stored)
      (.enqueue { maxTokens := 2 } :: Worker.iteration 0 0 ++ Worker.iteration 0 0)).any
        (fun k => k.world.eventsOf 0 =
        [.polled false, .polled false, .polled false, .onToken (some 1) [] false none,
          .polled false, .polled false, .onToken (some 2) [] true (some ⟨2, 0, 2, 2⟩),
          .polled false]) = true := by decide +kernel
  obtain ⟨k, hk, hcond⟩ := (Option.any_eq_true _ _).mp hrun
  obtain ⟨turns, s, hturns, hheard, hcancelled, hlate⟩ :=
    (request_used_late_iff _ _ _ _ k hk 0 sixDecimals true 0).2.1.mpr (by
      rw [of_decide_eq_true hcond]
      exact ⟨[.polled false, .polled false, .polled false, .onToken (some 1) [] false none,
        .polled false, .polled false], .onToken (some 2) [] true (some ⟨2, 0, 2, 2⟩),
        [.polled false], false, rfl, rfl, List.mem_singleton_self _⟩)
  exact ⟨k, turns, s, hk, hturns, hheard, hcancelled, hlate⟩

end RadixForge
