import RadixForge.Worker.Threads

/-!
# Wake-ups of the worker thread

`enqueue` changes the queue under the mutex, so its notification comes after the block of any wait
that saw the queue empty. `stop` stores `running_` without the mutex: both its store and its
notification may fall between the evaluation of the predicate and the block of the worker thread,
and then nobody wakes it.
-/

namespace RadixForge

open Library

variable {L : Type}

namespace Threads

variable {b : Bridge L} {admitWindow : Bool} {s s' : Threads L}

/-- The worker thread is blocked although it has something to do and nobody will notify it. -/
def Lost (s : Threads L) : Prop :=
  s.point = .blocked ∧
    (s.worker.queue ≠ [] ∧ s.unnotified = 0 ∨
      s.worker.running = false ∧ (s.stopping = .notified ∨ s.stopping = .joined))

/-- `stop` does not notify a worker thread that is about to block. -/
def NotifiesAwake (s : Threads L) : Move → Prop
  | .notifyAll => s.point ≠ .blocking
  | _ => True

instance (s : Threads L) : DecidablePred s.NotifiesAwake
  | .notifyAll => inferInstanceAs (Decidable (s.point ≠ .blocking))
  | .push _ | .notifyOne | .store | .join | .wake | .advance _ _ => .isTrue trivial

/-- Whoever changed the queue since the worker thread found it empty will still notify it. -/
structure Announced (s : Threads L) : Prop where
  blocking : s.point = .blocking → s.worker.queue = []
  blocked : s.point = .blocked → s.worker.queue ≠ [] → 0 < s.unnotified
  stopped : s.stopping = .uncalled ↔ s.worker.running = true

/-- `stop` will still notify a worker thread that found the worker running. -/
def Recalled (s : Threads L) : Prop :=
  s.point = .blocking ∨ s.point = .blocked → s.stopping = .uncalled ∨ s.stopping = .stored

/-- A notified thread is neither blocked nor about to block, unless it was about to block before. -/
theorem wake_point {point : Point} :
    point.wake ≠ .blocked ∧ (point.wake = .blocking → point = .blocking) := by
  cases point <;> simp [Point.wake]

/-- What a step of the worker thread leaves alone, and how it comes to block. -/
theorem advance_waits {first second : ℤ} (hstep : s.advance b admitWindow first second = some s') :
    s'.unnotified = s.unnotified ∧ s'.stopping = s.stopping ∧ s'.worker.running = s.worker.running ∧
      (s'.point = .blocking → s'.worker.queue = [] ∧ s.worker.running = true) ∧
        (s'.point = .blocked → s.point = .blocking ∧ s'.worker.queue = s.worker.queue) := by
  have hpop (h : s.popQueue b = some s') :
      s'.unnotified = s.unnotified ∧ s'.stopping = s.stopping ∧
        s'.worker.running = s.worker.running ∧
        (s'.point = .blocking → s'.worker.queue = [] ∧ s.worker.running = true) ∧
          (s'.point = .blocked → s.point = .blocking ∧ s'.worker.queue = s.worker.queue) := by
    obtain ⟨k, hk, rfl⟩ := Option.map_eq_some_iff.mp h
    exact ⟨rfl, rfl, Worker.popQueue_running hk, Point.noConfusion, Point.noConfusion⟩
  cases hpoint : s.point <;> simp only [advance, hpoint] at hstep
  case free =>
    unfold advanceFree at hstep
    cases hphase : s.worker.phase <;> simp only [hphase, Option.some.injEq] at hstep <;> subst hstep
    case head => exact ⟨rfl, rfl, s.worker.check_running, by simp [hpoint], by simp [hpoint]⟩
    case running => exact ⟨rfl, rfl, rfl, by split <;> simp, by split <;> simp⟩
    case admitted pending => exact ⟨rfl, rfl, rfl, by simp [hpoint], by simp [hpoint]⟩
    case prepared retry => exact ⟨rfl, rfl, rfl, by simp [hpoint], by simp [hpoint]⟩
    case requeued | exited => exact ⟨rfl, rfl, rfl, Point.noConfusion, Point.noConfusion⟩
  case predicate =>
    cases hstep
    refine ⟨rfl, rfl, rfl, fun hblocking => ?_, by split <;> simp⟩
    cases htest : s.worker.queue.isEmpty && s.worker.running
    · simp [htest] at hblocking
    · simpa using htest
  case blocking =>
    cases hstep
    exact ⟨rfl, rfl, rfl, Point.noConfusion, fun _ => ⟨rfl, rfl⟩⟩
  case woken | counting | counted =>
    cases hstep
    exact ⟨rfl, rfl, rfl, Point.noConfusion, Point.noConfusion⟩
  case resumed =>
    split at hstep
    · cases hstep
      exact ⟨rfl, rfl, rfl, Point.noConfusion, Point.noConfusion⟩
    · simpa only [hpoint] using hpop hstep
  case roused => simpa only [hpoint] using hpop hstep
  all_goals exact absurd hstep (by simp)

/-- Every step of the threads announces what it leaves in the queue. -/
theorem step_announced {move : Move} (h : s.Announced)
    (hstep : s.step b admitWindow move = some s') : s'.Announced := by
  cases move with
  | push req =>
    simp only [step] at hstep
    split at hstep
    · contradiction
    · rename_i hlocked
      cases hstep
      refine ⟨fun hblocking => absurd ?_ hlocked, fun _ _ => Nat.succ_pos _, h.stopped⟩
      rw [show s.point = .blocking from hblocking]
      rfl
  | notifyOne =>
    simp only [step] at hstep
    split at hstep
    · contradiction
    · cases hstep
      exact ⟨fun hblocking => h.blocking (wake_point.2 hblocking),
        fun hblocked => absurd hblocked wake_point.1, h.stopped⟩
  | store =>
    simp only [step] at hstep
    split at hstep
    · cases hstep
      exact ⟨h.blocking, h.blocked, by simp⟩
    · contradiction
  | notifyAll =>
    simp only [step] at hstep
    split at hstep
    · rename_i hstored
      cases hstep
      have hstopped := h.stopped
      simp only [hstored] at hstopped
      exact ⟨fun hblocking => h.blocking (wake_point.2 hblocking),
        fun hblocked => absurd hblocked wake_point.1, by simpa using hstopped⟩
    · contradiction
  | join =>
    simp only [step] at hstep
    split at hstep
    · rename_i hnotified _
      cases hstep
      have hstopped := h.stopped
      simp only [hnotified] at hstopped
      exact ⟨h.blocking, h.blocked, by simpa using hstopped⟩
    · contradiction
  | wake =>
    cases hstep
    exact ⟨fun hblocking => h.blocking (wake_point.2 hblocking),
      fun hblocked => absurd hblocked wake_point.1, h.stopped⟩
  | advance first second =>
    obtain ⟨hunnotified, hstopping, hrunning, hblocking, hblocked⟩ := advance_waits hstep
    refine ⟨fun hpoint => (hblocking hpoint).1, fun hpoint hqueue => ?_,
      by rw [hstopping, hrunning, h.stopped]⟩
    obtain ⟨hwas, hsame⟩ := hblocked hpoint
    exact absurd (hsame.trans (h.blocking hwas)) hqueue

/-- A step that does not notify a thread about to block leaves the notification of `stop` to come.
-/
theorem step_recalled {move : Move} (hannounced : s.Announced) (hawake : s.NotifiesAwake move)
    (h : s.Recalled) (hstep : s.step b admitWindow move = some s') : s'.Recalled := by
  have hwake (hpoint : s.point.wake = .blocking ∨ s.point.wake = .blocked) :
      s.stopping = .uncalled ∨ s.stopping = .stored := by
    rcases hpoint with hpoint | hpoint
    · exact h (.inl (wake_point.2 hpoint))
    · exact absurd hpoint wake_point.1
  cases move with
  | push req =>
    simp only [step] at hstep
    split at hstep
    · contradiction
    · cases hstep
      exact h
  | notifyOne =>
    simp only [step] at hstep
    split at hstep
    · contradiction
    · cases hstep
      exact hwake
  | store =>
    simp only [step] at hstep
    split at hstep
    · cases hstep
      exact fun _ => .inr rfl
    · contradiction
  | notifyAll =>
    simp only [step] at hstep
    split at hstep
    · cases hstep
      rintro (hpoint | hpoint)
      · exact absurd (wake_point.2 hpoint) hawake
      · exact absurd hpoint wake_point.1
    · contradiction
  | join =>
    simp only [step] at hstep
    split at hstep
    · rename_i hfinished
      cases hstep
      intro hpoint
      simp [hfinished] at hpoint
    · contradiction
  | wake =>
    cases hstep
    exact hwake
  | advance first second =>
    obtain ⟨_, hstopping, _, hblocking, hblocked⟩ := advance_waits hstep
    rw [Recalled, hstopping]
    rintro (hpoint | hpoint)
    · exact .inl (hannounced.stopped.mpr (hblocking hpoint).2)
    · exact h (.inl (hblocked hpoint).1)

/-- Nobody is waited for before the first step. -/
theorem init_announced (config : Config) (order : ChildOrder) :
    (init config order : Threads L).Announced :=
  ⟨Point.noConfusion, Point.noConfusion, by simp [init, Worker.init]⟩

/-- A notification of `stop` that falls between the test and the block of the worker thread is lost.
-/
theorem lost_of_blocking (hannounced : s.Announced) (hblocking : s.point = .blocking)
    (hstored : s.stopping = .stored) :
    ∃ s', s.Run b admitWindow [.notifyAll, .advance 0 0] s' ∧ s'.Lost := by
  have hstopped : s.worker.running = false := by
    have := hannounced.stopped
    simpa [hstored] using this
  refine ⟨{ s with stopping := .notified, point := .blocked }, ?_, rfl, .inr ⟨hstopped, .inl rfl⟩⟩
  simp only [Run, run_cons, step, advance, hblocking, hstored, Point.wake,
    Option.bind_some, run_nil]

end Threads

/-- No notification of `enqueue` is lost in any run. None is lost at all in a run in which `stop`
never notifies a worker thread that is about to block, and every such notification is lost. -/
theorem no_lost_wakeup (b : Bridge L) (admitWindow : Bool) (config : Config) (order : ChildOrder)
    (moves : List Move) (s : Threads L)
    (hrun : (Threads.init config order : Threads L).Run b admitWindow moves s) :
    (s.point = .blocked → s.worker.queue ≠ [] → 0 < s.unnotified) ∧
      (RunsWithin (Threads.step b admitWindow) Threads.NotifiesAwake
        (Threads.init config order) moves → ¬ s.Lost) ∧
        (s.point = .blocking → s.stopping = .stored →
          ∃ s', s.Run b admitWindow [.notifyAll, .advance 0 0] s' ∧ s'.Lost) := by
  have hannounced : s.Announced :=
    run_invariant (fun _ _ _ h hstep => Threads.step_announced h hstep)
      (Threads.init_announced config order) hrun
  refine ⟨hannounced.blocked, fun hawake hlost => ?_, Threads.lost_of_blocking hannounced⟩
  have hrecalled := (run_invariant_within (P := fun s : Threads L => s.Announced ∧ s.Recalled)
    (fun _ _ _ h hawake hstep =>
      ⟨Threads.step_announced h.1 hstep, Threads.step_recalled h.1 hawake h.2 hstep⟩)
    ⟨Threads.init_announced config order, fun _ => .inl rfl⟩ hawake hrun).2
  obtain ⟨hblocked, ⟨hqueue, hnobody⟩ | ⟨_, hstopping⟩⟩ := hlost
  · exact absurd hnobody (hannounced.blocked hblocked hqueue).ne'
  · rcases hrecalled (.inr hblocked) with h | h <;> simp [h] at hstopping

/-- A request arrives while the worker thread is blocked, and `stop` has not notified yet. -/
theorem no_lost_wakeup_arrival : ∃ s : Threads Unit,
    (Threads.init ⟨4, 64, true⟩ .stored).Run (Bridge.counting (fun _ => [5, 6]) 9) true
      [.advance 0 0, .advance 0 0, .advance 0 0, .advance 0 0, .push {}, .store] s ∧
        0 < s.unnotified ∧ ¬ s.Lost := by
  have hrun : (run (Threads.step (Bridge.counting (fun _ => [5, 6]) 9) true)
      (Threads.init ⟨4, 64, true⟩ .stored)
      [.advance 0 0, .advance 0 0, .advance 0 0, .advance 0 0, .push {}, .store]).any
        (fun s => s.point = .blocked ∧ s.worker.queue ≠ []) = true := by
    decide +kernel
  have hawake : RunsWithin (Threads.step (Bridge.counting (fun _ => [5, 6]) 9) true)
      Threads.NotifiesAwake
      (Threads.init ⟨4, 64, true⟩ .stored)
      [.advance 0 0, .advance 0 0, .advance 0 0, .advance 0 0, .push {}, .store] := by
    decide +kernel
  obtain ⟨s, hs, hcond⟩ := (Option.any_eq_true _ _).mp hrun
  obtain ⟨hblocked, hqueue⟩ := of_decide_eq_true hcond
  obtain ⟨hannounced, hfound, _⟩ := no_lost_wakeup _ _ _ _ _ s hs
  exact ⟨s, hs, hannounced hblocked hqueue, hfound hawake⟩

/-- `stop` stores and notifies between the test and the block of the worker thread, which then waits
for ever. -/
theorem stop_unnoticed : ∃ s : Threads Unit,
    (Threads.init ⟨4, 64, true⟩ .stored).Run (Bridge.counting (fun _ => [5, 6]) 9) true
      [.advance 0 0, .advance 0 0, .advance 0 0, .store, .notifyAll, .advance 0 0] s ∧ s.Lost := by
  have hrun : (run (Threads.step (Bridge.counting (fun _ => [5, 6]) 9) true)
      (Threads.init ⟨4, 64, true⟩ .stored)
      [.advance 0 0, .advance 0 0, .advance 0 0, .store, .notifyAll, .advance 0 0]).any
        (fun s => s.point = .blocked ∧ s.worker.running = false ∧ s.stopping = .notified) =
          true := by
    decide +kernel
  obtain ⟨s, hs, hcond⟩ := (Option.any_eq_true _ _).mp hrun
  obtain ⟨hblocked, hstopped, hnotified⟩ := of_decide_eq_true hcond
  exact ⟨s, hs, hblocked, .inr ⟨hstopped, .inl hnotified⟩⟩

end RadixForge
