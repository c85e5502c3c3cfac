import RadixForge.Worker.Loop

/-!
# The threads around the worker

The loop of the worker together with the threads that call `enqueue` and `stop`. A step of the
worker thread is a part of `run` that no other thread can cut in two: what happens under
`queue_mutex_` up to the point where the mutex is given back, the evaluation of the predicate of the
wait, the release of the mutex as the thread blocks, `prepare_all`, `fused_step`, and each store of
`generating_sequences_`. Between these steps the other threads move, but an `enqueue` needs the
mutex for its first half. The requests, the slots and the mapper are those of the worker, so every
interleaving of the threads is a run of the worker.
-/

namespace RadixForge

open Library

variable {L : Type}

/-- Where the worker thread stands besides the phase of its loop. -/
inductive Point where
  | free
  | predicate
  | blocking
  | blocked
  | woken
  | resumed
  | dozing
  | roused
  | counting
  | counted
  | finished
deriving DecidableEq

/-- The worker thread holds `queue_mutex_` there. -/
def Point.locked : Point → Bool
  | .predicate | .blocking | .resumed => true
  | _ => false

/-- A notification, the deadline or a spurious wake-up ends a wait; it is lost on a thread that is
not blocked. -/
def Point.wake : Point → Point
  | .blocked => .woken
  | .dozing => .roused
  | point => point

/-- How far the call of `stop` is. -/
inductive Stopping where
  | uncalled
  | stored
  | notified
  | joined
deriving DecidableEq

/-- The worker, the calls of `enqueue` that still have to notify, and the call of `stop`. -/
structure Threads (L : Type) where
  worker : Worker L
  point : Point := .free
  unnotified : ℕ := 0
  stopping : Stopping := .uncalled
  generating : ℕ := 0

/-- A step of one of the threads. -/
inductive Move where
  | push (req : InferenceRequest)
  | notifyOne
  | store
  | notifyAll
  | join
  | wake
  | advance (first second : ℤ)

namespace Threads

/-- A started worker that nobody called yet. -/
def init (config : Config) (order : ChildOrder) : Threads L where
  worker := .init config order

/-- `active.empty() && prefilling.empty()`. -/
def idle (s : Threads L) : Bool :=
  s.worker.slots.active.isEmpty && s.worker.slots.prefilling.isEmpty

/-- The next step of the worker thread while it waits for nothing of its own. -/
def advanceFree (b : Bridge L) (s : Threads L) : Option (Threads L) :=
  match s.worker.phase with
  | .head => some { s with worker := s.worker.check }
  | .running =>
    some { s with point := if s.idle && s.worker.queue.isEmpty then .predicate else .resumed }
  | .admitted pending => some { s with worker := s.worker.prepare b pending }
  | .prepared retry => some { s with worker := s.worker.deferToFront retry }
  | .requeued => some { s with generating := s.worker.slots.active.length, point := .counting }
  | .exited => some { s with generating := 0, point := .finished }

/-- Leave the wait: leave the loop if there is nothing left to do, and take the requests otherwise.
-/
def popQueue (b : Bridge L) (s : Threads L) : Option (Threads L) :=
  (s.worker.popQueue b).map fun k => { s with worker := k, point := .free }

/-- The next step of the worker thread. A thread that is blocked has none. -/
def advance (b : Bridge L) (admitWindow : Bool) (first second : ℤ) (s : Threads L) :
    Option (Threads L) :=
  match s.point with
  | .free => s.advanceFree b
  | .predicate =>
    some { s with point := if s.worker.queue.isEmpty && s.worker.running then .blocking
      else .resumed }
  | .blocking => some { s with point := .blocked }
  | .woken => some { s with point := .predicate }
  | .resumed =>
    if s.idle && !s.worker.queue.isEmpty && admitWindow then some { s with point := .dozing }
      else s.popQueue b
  | .roused => s.popQueue b
  | .counting => some { s with worker := s.worker.fuse b first second, point := .counted }
  | .counted => some { s with generating := s.worker.slots.active.length, point := .free }
  | .blocked | .dozing | .finished => none

/-- One step of the threads; a step that a thread cannot make now is refused. -/
def step (b : Bridge L) (admitWindow : Bool) (s : Threads L) : Move → Option (Threads L)
  | .push req =>
    if s.point.locked then none
    else (s.worker.step b (.enqueue req)).map fun k =>
      { s with worker := k, unnotified := s.unnotified + 1 }
  | .notifyOne =>
    if s.unnotified = 0 then none
      else some { s with unnotified := s.unnotified - 1, point := s.point.wake }
  | .store =>
    match s.stopping with
    | .uncalled => (s.worker.step b .stop).map fun k => { s with worker := k, stopping := .stored }
    | _ => none
  | .notifyAll =>
    match s.stopping with
    | .stored => some { s with stopping := .notified, point := s.point.wake }
    | _ => none
  | .join =>
    match s.stopping, s.point with
    | .notified, .finished => some { s with stopping := .joined }
    | _, _ => none
  | .wake => some { s with point := s.point.wake }
  | .advance first second => s.advance b admitWindow first second

/-- The runs of the threads. -/
abbrev Run (b : Bridge L) (admitWindow : Bool) (s : Threads L) (moves : List Move)
    (s' : Threads L) : Prop :=
  run (step b admitWindow) s moves = some s'

/-- The phase in which the worker thread stands at a point. -/
def Settled (s : Threads L) : Prop :=
  match s.point with
  | .free => True
  | .counting => s.worker.phase = .requeued
  | .counted => s.worker.phase = .head
  | .finished => s.worker.phase = .exited
  | _ => s.worker.phase = .running

variable {b : Bridge L} {admitWindow : Bool} {s s' : Threads L}

/-- A notification leaves the thread in its phase. -/
theorem Settled.wake (h : s.Settled) : ({ s with point := s.point.wake } : Threads L).Settled := by
  unfold Settled at *
  cases hpoint : s.point <;> simp only [hpoint, Point.wake] at h ⊢ <;> exact h

/-- Both sides of a test leave the thread in its phase. -/
theorem settled_ite {test : Bool} {p q : Point} (hp : ({ s with point := p } : Threads L).Settled)
    (hq : ({ s with point := q } : Threads L).Settled) :
    ({ s with point := if test then p else q } : Threads L).Settled := by
  cases test
  · exact hq
  · exact hp

/-- The worker thread makes at most one step of the worker. -/
theorem advance_worker {first second : ℤ} (h : s.Settled)
    (hstep : s.advance b admitWindow first second = some s') :
    s'.Settled ∧ ∃ actions, s.worker.Run b actions s'.worker := by
  have hstay {s' : Threads L} (hsettled : s'.Settled) (hsame : s'.worker = s.worker) :
      s'.Settled ∧ ∃ actions, s.worker.Run b actions s'.worker := ⟨hsettled, [], by rw [hsame]; rfl⟩
  have hact (action : Action) {s' : Threads L} (hsettled : s'.Settled)
      (hmove : s.worker.step b action = some s'.worker) :
      s'.Settled ∧ ∃ actions, s.worker.Run b actions s'.worker :=
        ⟨hsettled, [action], by rw [Worker.Run, run_cons, hmove]; rfl⟩
  have hpop (hphase : s.worker.phase = .running) (h : s.popQueue b = some s') :
      s'.Settled ∧ ∃ actions, s.worker.Run b actions s'.worker := by
    obtain ⟨k, hk, rfl⟩ := Option.map_eq_some_iff.mp h
    exact hact .pop trivial (by simp only [Worker.step, hphase]; exact hk)
  unfold Settled at h
  cases hpoint : s.point <;> simp only [advance, hpoint] at hstep h
  case free =>
    unfold advanceFree at hstep
    cases hphase : s.worker.phase <;> simp only [hphase, Option.some.injEq] at hstep <;> subst hstep
    case head => exact hact .check (by simp [Settled, hpoint]) (by simp [Worker.step, hphase])
    case running => exact hstay (settled_ite hphase hphase) rfl
    case admitted pending =>
      exact hact .prepare (by simp [Settled, hpoint]) (by simp [Worker.step, hphase])
    case prepared retry =>
      exact hact .requeue (by simp [Settled, hpoint]) (by simp [Worker.step, hphase])
    case requeued => exact hstay hphase rfl
    case exited => exact hstay hphase rfl
  case predicate =>
    cases hstep
    exact hstay (settled_ite h h) rfl
  case blocking | woken =>
    cases hstep
    exact hstay h rfl
  case resumed =>
    split at hstep
    · cases hstep
      exact hstay h rfl
    · exact hpop h hstep
  case roused => exact hpop h hstep
  case counting =>
    cases hstep
    exact hact (.fuse first second) rfl (by simp only [Worker.step, h])
  case counted =>
    cases hstep
    exact hstay trivial rfl
  all_goals exact absurd hstep (by simp)

/-- A step of a thread is at most one step of the worker. -/
theorem step_worker {move : Move} (h : s.Settled) (hstep : s.step b admitWindow move = some s') :
    s'.Settled ∧ ∃ actions, s.worker.Run b actions s'.worker := by
  cases move with
  | push req =>
    simp only [step] at hstep
    split at hstep
    · contradiction
    · cases hstep
      exact ⟨h, [.enqueue req], rfl⟩
  | notifyOne =>
    simp only [step] at hstep
    split at hstep
    · contradiction
    · cases hstep
      exact ⟨h.wake, [], rfl⟩
  | store =>
    simp only [step] at hstep
    split at hstep
    · cases hstep
      exact ⟨h, [.stop], rfl⟩
    · contradiction
  | notifyAll =>
    simp only [step] at hstep
    split at hstep
    · cases hstep
      exact ⟨h.wake, [], rfl⟩
    · contradiction
  | join =>
    simp only [step] at hstep
    split at hstep
    · cases hstep
      exact ⟨h, [], rfl⟩
    · contradiction
  | wake =>
    cases hstep
    exact ⟨h.wake, [], rfl⟩
  | advance first second => exact advance_worker h hstep

/-- Every interleaving of the threads is a run of the worker. -/
theorem run_worker {config : Config} {order : ChildOrder} {moves : List Move}
    (hrun : (init config order : Threads L).Run b admitWindow moves s) :
    ∃ actions, (Worker.init config order : Worker L).Run b actions s.worker := by
  refine (run_invariant (P := fun s : Threads L => s.Settled ∧
    ∃ actions, (Worker.init config order : Worker L).Run b actions s.worker)
      (fun s₁ move s₂ h hstep => ?_)
    (show Settled (init config order) ∧ _ from ⟨trivial, [], rfl⟩) hrun).2
  obtain ⟨hsettled, before, hbefore⟩ := h
  obtain ⟨hsettled', after, hafter⟩ := step_worker hsettled hstep
  exact ⟨hsettled', before ++ after, by rw [Worker.Run, run_append, hbefore]; exact hafter⟩

end Threads

end RadixForge
