import RadixForge.Http.Sink
import RadixForge.Worker.Telling
import RadixForge.Worker.Wakeup

/-!
# Shutting down

`main` from a signal to its end, the thread of `Server::start`, the calls of `handle_completion` and
the threads of the worker. `main` stops accepting, waits until the worker looks idle or the deadline
has passed, stops the server, joins its thread, and stops the worker. The thread of the server
returns from `listen` when it could not bind the port, or when cpp-httplib lets it. What cpp-httplib
guarantees is assumed by name: it starts handlers only while it listens or closes, and `listen`
returns only from a server that was stopped, after it waited for every handler, and then it does.
-/

namespace RadixForge

open Library

variable {L : Type}

/-- Where a call of `handle_completion` stands. It leaves without an answer when it times out or the
client is gone, and sets `cancelled` then. -/
inductive HandlerPoint where
  | entered
  | accepted
  | refused
  | pushed (id : ℕ)
  | waiting (id : ℕ)
  | answered (id : ℕ)
  | gone (id : ℕ)
deriving DecidableEq

namespace HandlerPoint

/-- The request that the handler enqueued. -/
def request? : HandlerPoint → Option ℕ
  | .entered | .accepted | .refused => none
  | .pushed id | .waiting id | .answered id | .gone id => some id

/-- The handler has returned. -/
def returned : HandlerPoint → Bool
  | .refused | .answered _ | .gone _ => true
  | .entered | .accepted | .pushed _ | .waiting _ => false

/-- The handler still has to notify the worker. -/
def pushing : HandlerPoint → Bool
  | .pushed _ => true
  | _ => false

end HandlerPoint

/-- Where `Server::start` stands. -/
inductive ServerPoint where
  | created
  | started
  | stoppable
  | listening
  | closed
  | returned
deriving DecidableEq

/-- What a `stop` before `listen` does, whether the port can be bound, where a handler may start,
and whether `listen` may return when the handlers stand so. -/
structure Httplib where
  stopsEarly : Bool
  binds : Bool
  starts : ServerPoint → Bool
  returns : ServerPoint → List HandlerPoint → Bool

namespace Httplib

/-- What cpp-httplib guarantees: handlers start while it listens or closes, `listen` returns from a
server that was stopped, and only after every handler, and then it does. -/
structure Waits (lib : Httplib) : Prop where
  starts : ∀ point, lib.starts point = true → point = .listening ∨ point = .closed
  waits : ∀ point handlers, lib.returns point handlers = true → point = .closed ∧
    ∀ h ∈ handlers, h.returned = true
  ends : ∀ handlers, (∀ h ∈ handlers, h.returned = true) → lib.returns .closed handlers = true

/-- A server that starts handlers whenever it may. -/
def eager (stopsEarly binds : Bool) : Httplib where
  stopsEarly := stopsEarly
  binds := binds
  starts point := point = .listening || point = .closed
  returns point handlers := point = .closed && handlers.all HandlerPoint.returned

/-- It guarantees what cpp-httplib does. -/
theorem eager_waits (stopsEarly binds : Bool) : (eager stopsEarly binds).Waits where
  starts point h := by simpa [eager] using h
  waits point handlers h := by simpa [eager] using h
  ends handlers h := by simpa [eager] using h

end Httplib

namespace ServerPoint

/-- The server does not listen yet. -/
def early : ServerPoint → Bool
  | .created | .started | .stoppable => true
  | .listening | .closed | .returned => false

/-- The server listens, or will if nobody stops it. -/
def listens (lib : Httplib) : ServerPoint → Bool
  | .created | .started | .stoppable => lib.binds
  | .listening => true
  | .closed | .returned => false

/-- Where `listen` leaves the server. -/
def opened (lib : Httplib) : ServerPoint := if lib.binds then .listening else .returned

/-- Where `Server::stop` leaves the server. -/
def close (lib : Httplib) : ServerPoint → ServerPoint
  | .listening => .closed
  | .stoppable => if lib.stopsEarly then .closed else .stoppable
  | point => point

end ServerPoint

/-- Where `main` stands after the signal. -/
inductive MainPoint where
  | serving
  | draining
  | stopping
  | joined
deriving DecidableEq

/-- The process: its worker, `accepting_`, and where its other threads stand. -/
structure Process (L : Type) where
  threads : Threads L
  accepting : Bool := true
  server : ServerPoint := .created
  main : MainPoint := .serving
  handlers : List HandlerPoint := []

/-- A step of a handler. -/
inductive Handling where
  | readAccepting
  | reject
  | push (req : InferenceRequest)
  | notify
  | answer
  | leave

/-- What can happen next. -/
inductive Happening where
  | start
  | install
  | listen
  | connect
  | handler (i : ℕ) (handling : Handling)
  | returnServer
  | beginDrain
  | stopServer
  | joinServer
  | stopWorker (move : Move)
  | worker (move : Move)

/-- The moves of `InferenceWorker::stop`. -/
def Move.stops : Move → Bool
  | .store | .notifyAll | .join => true
  | _ => false

/-- The moves of the worker thread. -/
def Move.runs : Move → Bool
  | .wake | .advance _ _ => true
  | _ => false

namespace Process

/-- A process whose worker was started. -/
def init (config : Config) (order : ChildOrder) : Process L where
  threads := .init config order

/-- The callbacks of a request told it the end. -/
def Told (s : Process L) (id : ℕ) : Prop :=
  ∃ e ∈ s.threads.worker.world.eventsOf id, e.closes = true

instance (s : Process L) (id : ℕ) : Decidable (s.Told id) :=
  inferInstanceAs (Decidable (∃ e ∈ s.threads.worker.world.eventsOf id, e.closes = true))

/-- One step of a handler: where it stands then, and the worker. -/
def handle (b : Bridge L) (admitWindow : Bool) (s : Process L) :
    HandlerPoint → Handling → Option (HandlerPoint × Threads L)
  | .entered, .readAccepting => some (if s.accepting then .accepted else .refused, s.threads)
  | .accepted, .reject => some (.refused, s.threads)
  | .accepted, .push req =>
    (s.threads.step b admitWindow (.push req)).map
      (HandlerPoint.pushed s.threads.worker.arrivals.length, ·)
  | .pushed id, .notify =>
    (s.threads.step b admitWindow .notifyOne).map (HandlerPoint.waiting id, ·)
  | .waiting id, .answer => if s.Told id then some (.answered id, s.threads) else none
  | .waiting id, .leave => some (.gone id, s.threads)
  | _, _ => none

/-- One step of the process; a step that a thread cannot make now is refused. -/
def step (b : Bridge L) (admitWindow : Bool) (lib : Httplib) (s : Process L) :
    Happening → Option (Process L)
  | .start =>
    if s.server = .created then some { s with server := .started, accepting := true } else none
  | .install => if s.server = .started then some { s with server := .stoppable } else none
  | .listen => if s.server = .stoppable then some { s with server := .opened lib } else none
  | .connect =>
    if lib.starts s.server = true then some { s with handlers := s.handlers ++ [.entered] }
    else none
  | .returnServer =>
    if lib.returns s.server s.handlers = true then some { s with server := .returned } else none
  | .beginDrain =>
    if s.main = .serving then some { s with main := .draining, accepting := false } else none
  | .stopServer =>
    if s.main = .draining then some { s with main := .stopping, server := s.server.close lib }
    else none
  | .joinServer =>
    if s.main = .stopping ∧ s.server = .returned then some { s with main := .joined } else none
  | .stopWorker move =>
    if s.main = .joined ∧ move.stops = true then
      (s.threads.step b admitWindow move).map fun threads => { s with threads := threads }
    else none
  | .worker move =>
    if move.runs = true then
      (s.threads.step b admitWindow move).map fun threads => { s with threads := threads }
    else none
  | .handler i handling =>
    (s.handlers[i]?).bind fun point =>
      (s.handle b admitWindow point handling).map fun moved =>
        { s with handlers := s.handlers.set i moved.1, threads := moved.2 }

/-- The runs of the process. -/
abbrev Run (b : Bridge L) (admitWindow : Bool) (lib : Httplib) (s : Process L)
    (happenings : List Happening) (s' : Process L) : Prop :=
  run (step b admitWindow lib) s happenings = some s'

end Process

section Moves

variable {b : Bridge L} {admitWindow : Bool} {s s' : Threads L}

/-- What a step of the worker thread or of `stop` leaves alone. -/
structure Threads.Undisturbed (b : Bridge L) (s s' : Threads L) : Prop where
  settled : s'.Settled
  run : ∃ actions, s.worker.Run b actions s'.worker
  arrivals : s'.worker.arrivals = s.worker.arrivals
  unnotified : s'.unnotified = s.unnotified

/-- The worker thread adds no request. -/
theorem Threads.advance_arrivals {first second : ℤ}
    (hstep : s.advance b admitWindow first second = some s') :
    s'.worker.arrivals = s.worker.arrivals := by
  have hpop (h : s.popQueue b = some s') : s'.worker.arrivals = s.worker.arrivals := by
    obtain ⟨k, hk, rfl⟩ := Option.map_eq_some_iff.mp h
    unfold Worker.popQueue at hk
    split at hk
    · cases hk
      rfl
    · split at hk
      · contradiction
      · cases hk
        rfl
  cases hpoint : s.point <;> simp only [advance, hpoint] at hstep
  case free =>
    unfold advanceFree at hstep
    cases hphase : s.worker.phase <;> simp only [hphase, Option.some.injEq] at hstep <;> subst hstep
    case head =>
      unfold Worker.check
      split <;> rfl
    all_goals rfl
  case predicate | blocking | woken | counting | counted =>
    cases hstep
    rfl
  case resumed =>
    split at hstep
    · cases hstep
      rfl
    · exact hpop hstep
  case roused => exact hpop hstep
  all_goals exact absurd hstep (by simp)

/-- The moves of the worker thread. -/
theorem Threads.step_runs {move : Move} (h : s.Settled) (hruns : move.runs = true)
    (hstep : s.step b admitWindow move = some s') :
    s.Undisturbed b s' ∧ s'.stopping = s.stopping ∧ s'.worker.running = s.worker.running := by
  obtain ⟨hsettled, hrun⟩ := step_worker h hstep
  cases move with
  | wake =>
    cases hstep
    exact ⟨⟨hsettled, hrun, rfl, rfl⟩, rfl, rfl⟩
  | advance first second =>
    obtain ⟨hunnotified, hstopping, hrunning, _⟩ := advance_waits hstep
    exact ⟨⟨hsettled, hrun, advance_arrivals hstep, hunnotified⟩, hstopping, hrunning⟩
  | push _ | notifyOne | store | notifyAll | join => cases hruns

/-- The moves of `stop`. -/
theorem Threads.step_stops {move : Move} (h : s.Settled) (hstops : move.stops = true)
    (hstep : s.step b admitWindow move = some s') :
    s.Undisturbed b s' := by
  obtain ⟨hsettled, hrun⟩ := step_worker h hstep
  cases move with
  | store | notifyAll | join =>
    simp only [step] at hstep
    split at hstep <;> cases hstep
    exact ⟨hsettled, hrun, rfl, rfl⟩
  | push _ | notifyOne | wake | advance _ _ => cases hstops

/-- The first half of `enqueue`. -/
theorem Threads.step_push {req : InferenceRequest}
    (hstep : s.step b admitWindow (.push req) = some s') :
    s'.worker.arrivals.length = s.worker.arrivals.length + 1 ∧ s'.unnotified = s.unnotified + 1 ∧
      s'.stopping = s.stopping := by
  simp only [step] at hstep
  split at hstep
  · contradiction
  · cases hstep
    exact ⟨List.length_append, rfl, rfl⟩

/-- The second half of `enqueue`. -/
theorem Threads.step_notify (hstep : s.step b admitWindow .notifyOne = some s') :
    s'.worker = s.worker ∧ s'.unnotified + 1 = s.unnotified ∧ s'.stopping = s.stopping := by
  simp only [step] at hstep
  split at hstep
  · contradiction
  · cases hstep
    exact ⟨rfl, Nat.sub_add_cancel (Nat.one_le_iff_ne_zero.mpr ‹_›), rfl⟩

end Moves

namespace Process

variable {b : Bridge L} {admitWindow : Bool} {lib : Httplib} {s s' : Process L}

/-- The request of a handler. -/
def requestAt (s : Process L) (i : ℕ) : Option ℕ := (s.handlers[i]?).bind HandlerPoint.request?

/-- What holds between any two steps of the process. -/
structure Sound (b : Bridge L) (s : Process L) : Prop where
  settled : s.threads.Settled
  truthful : s.threads.worker.Truthful b
  announced : s.threads.Announced
  owned : ∀ id < s.threads.worker.arrivals.length, ∃ i, s.requestAt i = some id
  told : ∀ id, .answered id ∈ s.handlers → s.Told id
  notifying : s.handlers.countP HandlerPoint.pushing = s.threads.unnotified
  joining : s.threads.stopping ≠ .uncalled → s.main = .joined
  joined : s.main = .joined → s.server = .returned
  returned : s.server = .returned → ∀ h ∈ s.handlers, h.returned = true
  unconnected : s.server.early = true → s.handlers = []

/-- What a request was told stays told. -/
theorem Told.run {threads : Threads L} {id : ℕ} (h : s.Told id)
    (htruthful : s.threads.worker.Truthful b)
    (hrun : ∃ actions, s.threads.worker.Run b actions threads.worker) :
    ({ s with threads := threads } : Process L).Told id := by
  obtain ⟨e, he, hcloses⟩ := h
  obtain ⟨actions, hactions⟩ := hrun
  exact ⟨e, (Worker.run_grows htruthful hactions id).subset he, hcloses⟩

/-- A move of the worker thread or of `stop`. -/
theorem Sound.disturb (h : s.Sound b) {threads : Threads L} {move : Move}
    (hstep : s.threads.step b admitWindow move = some threads)
    (hthreads : s.threads.Undisturbed b threads)
    (hjoining : threads.stopping ≠ .uncalled → s.main = .joined) :
    ({ s with threads := threads } : Process L).Sound b where
  settled := hthreads.settled
  truthful := by
    obtain ⟨actions, hactions⟩ := hthreads.run
    exact run_invariant (fun _ _ _ hk hstep => (Worker.step_truthful hk hstep).1)
      h.truthful hactions
  announced := Threads.step_announced h.announced hstep
  owned id hid := h.owned id (hthreads.arrivals ▸ hid)
  told id hid := (h.told id hid).run h.truthful hthreads.run
  notifying := h.notifying.trans hthreads.unnotified.symm
  joining := hjoining
  joined := h.joined
  returned := h.returned
  unconnected := h.unconnected

/-- What a step of a handler is. -/
theorem handle_cases {point : HandlerPoint} {handling : Handling} {moved : HandlerPoint × Threads L}
    (hstep : s.handle b admitWindow point handling = some moved) :
    point.returned = false ∧
      (moved.2 = s.threads ∧ moved.1.request? = point.request? ∧ point.pushing = false ∧
        moved.1.pushing = false ∧ (∀ id, moved.1 = .answered id → s.Told id) ∨
      (∃ req, point = .accepted ∧ moved.1 = .pushed s.threads.worker.arrivals.length ∧
        s.threads.step b admitWindow (.push req) = some moved.2) ∨
      ∃ id, point = .pushed id ∧ moved.1 = .waiting id ∧
      s.threads.step b admitWindow .notifyOne = some moved.2) := by
  unfold handle at hstep
  split at hstep
  · cases hstep
    refine ⟨rfl, .inl ⟨rfl, ?_, rfl, ?_, fun id h => ?_⟩⟩
    · dsimp only
      split <;> rfl
    · dsimp only
      split <;> rfl
    · dsimp only at h
      split at h <;> cases h
  · cases hstep
    exact ⟨rfl, .inl ⟨rfl, rfl, rfl, rfl, fun _ h => by cases h⟩⟩
  · obtain ⟨threads, hthreads, rfl⟩ := Option.map_eq_some_iff.mp hstep
    exact ⟨rfl, .inr (.inl ⟨_, rfl, rfl, hthreads⟩)⟩
  · obtain ⟨threads, hthreads, rfl⟩ := Option.map_eq_some_iff.mp hstep
    exact ⟨rfl, .inr (.inr ⟨_, rfl, rfl, hthreads⟩)⟩
  · split at hstep
    · rename_i htold
      cases hstep
      exact ⟨rfl, .inl ⟨rfl, rfl, rfl, rfl, fun _ h => by cases h; exact htold⟩⟩
    · contradiction
  · cases hstep
    exact ⟨rfl, .inl ⟨rfl, rfl, rfl, rfl, fun _ h => by cases h⟩⟩
  · contradiction

/-- A handler moves on and keeps its request, or gets one. -/
theorem requestAt_set {i : ℕ} {point next : HandlerPoint} (hpoint : s.handlers[i]? = some point)
    (hnext : point.request? = none ∨ next.request? = point.request?) (threads : Threads L)
    {j id : ℕ} (hj : s.requestAt j = some id) :
    ({ s with handlers := s.handlers.set i next, threads := threads } : Process L).requestAt j =
      some id := by
  unfold requestAt at hj ⊢
  simp only [List.getElem?_set]
  split
  · rename_i hij
    subst hij
    rw [hpoint, Option.bind_some] at hj
    rw [if_pos (List.getElem?_eq_some_iff.mp hpoint).1, Option.bind_some]
    rcases hnext with hnone | hsame
    · rw [hnone] at hj
      cases hj
    · rw [hsame, hj]
  · exact hj

/-- The handlers that still have to notify, after one of them moved on. -/
theorem pushing_set {i : ℕ} {point : HandlerPoint} (next : HandlerPoint)
    (hpoint : s.handlers[i]? = some point) :
    (s.handlers.set i next).countP HandlerPoint.pushing + (if point.pushing then 1 else 0) =
      s.handlers.countP HandlerPoint.pushing + (if next.pushing then 1 else 0) := by
  obtain ⟨hlt, hget⟩ := List.getElem?_eq_some_iff.mp hpoint
  rw [List.countP_set hlt, hget]
  have hpos : point.pushing = true → 0 < s.handlers.countP HandlerPoint.pushing := fun h =>
    List.countP_pos_iff.mpr ⟨point, List.mem_of_getElem? hpoint, h⟩
  cases hpushing : point.pushing
  · simp
  · have := hpos hpushing
    simp only [if_true]
    omega

/-- A step of a handler. -/
theorem Sound.handle (h : s.Sound b) {i : ℕ} {point : HandlerPoint} {handling : Handling}
    {moved : HandlerPoint × Threads L} (hpoint : s.handlers[i]? = some point)
    (hstep : s.handle b admitWindow point handling = some moved) :
    ({ s with handlers := s.handlers.set i moved.1, threads := moved.2 } : Process L).Sound b := by
  obtain ⟨hactive, hcases⟩ := handle_cases hstep
  have hnotReturned : s.server ≠ .returned := fun hreturned => by
    rw [h.returned hreturned point (List.mem_of_getElem? hpoint)] at hactive
    cases hactive
  have hconnected (hearly : s.server.early = true) : s.handlers.set i moved.1 = [] := by
    rw [h.unconnected hearly] at hpoint
    cases hpoint
  have hpushing := pushing_set moved.1 hpoint
  have hnotJoined : s.main ≠ .joined := fun hjoined => hnotReturned (h.joined hjoined)
  have huncalled : s.threads.stopping = .uncalled :=
    not_not.mp fun hcalled => hnotJoined (h.joining hcalled)
  rcases hcases with ⟨hthreads, hrequest, hbefore, hafter, htold⟩ | ⟨req, rfl, hmoved, hpush⟩ | ⟨id,
    rfl, hmoved, hnotify⟩
  · obtain ⟨next, threads⟩ := moved
    cases hthreads
    refine ⟨h.settled, h.truthful, h.announced, fun id hid => ?_, fun id hid => ?_, ?_,
      h.joining, h.joined,
      fun hreturned => absurd hreturned hnotReturned, hconnected⟩
    · obtain ⟨j, hj⟩ := h.owned id hid
      exact ⟨j, requestAt_set hpoint (.inr hrequest) _ hj⟩
    · rcases List.mem_or_eq_of_mem_set hid with hmem | heq
      · exact h.told id hmem
      · exact htold id heq.symm
    · rw [hbefore, hafter] at hpushing
      exact hpushing.trans h.notifying
  · obtain ⟨hsettled, actions, hactions⟩ := Threads.step_worker h.settled hpush
    obtain ⟨harrivals, hunnotified, hstopping⟩ := Threads.step_push hpush
    refine ⟨hsettled, ?_, Threads.step_announced h.announced hpush, fun id hid => ?_,
      fun id hid => ?_, ?_,
      fun hcalled => absurd (hstopping.trans huncalled) hcalled, fun hjoined =>
        absurd hjoined hnotJoined,
      fun hreturned => absurd hreturned hnotReturned, hconnected⟩
    · exact run_invariant (fun _ _ _ hk hstep => (Worker.step_truthful hk hstep).1)
        h.truthful hactions
    · rcases Nat.lt_succ_iff_lt_or_eq.mp (harrivals ▸ hid) with hold | rfl
      · obtain ⟨j, hj⟩ := h.owned id hold
        exact ⟨j, requestAt_set hpoint (.inl rfl) _ hj⟩
      · refine ⟨i, ?_⟩
        rw [requestAt, List.getElem?_set_self (List.getElem?_eq_some_iff.mp hpoint).1, hmoved]
        rfl
    · rcases List.mem_or_eq_of_mem_set hid with hmem | heq
      · exact (h.told id hmem).run h.truthful ⟨actions, hactions⟩
      · cases heq.trans hmoved
    · rw [hmoved] at hpushing ⊢
      rw [hunnotified, ← h.notifying]
      exact hpushing
  · obtain ⟨hsettled, actions, hactions⟩ := Threads.step_worker h.settled hnotify
    obtain ⟨hworker, hunnotified, hstopping⟩ := Threads.step_notify hnotify
    refine ⟨hsettled, hworker ▸ h.truthful, Threads.step_announced h.announced hnotify,
      fun id' hid => ?_, fun id' hid => ?_, ?_,
      fun hcalled => absurd (hstopping.trans huncalled) hcalled, fun hjoined =>
        absurd hjoined hnotJoined,
      fun hreturned => absurd hreturned hnotReturned, hconnected⟩
    · obtain ⟨j, hj⟩ := h.owned id' (hworker ▸ hid)
      exact ⟨j, requestAt_set hpoint (.inr (by rw [hmoved]; rfl)) _ hj⟩
    · rcases List.mem_or_eq_of_mem_set hid with hmem | heq
      · exact (h.told id' hmem).run h.truthful ⟨actions, hactions⟩
      · cases heq.trans hmoved
    · rw [hmoved] at hpushing ⊢
      rw [← h.notifying] at hunnotified
      exact Nat.add_right_cancel (hpushing.trans hunnotified.symm)

/-- The server goes on before it listens. -/
theorem Sound.serve (h : s.Sound b) (hearly : s.server.early = true) (point : ServerPoint)
    (accepting : Bool) :
    ({ s with server := point, accepting := accepting } : Process L).Sound b where
  settled := h.settled
  truthful := h.truthful
  announced := h.announced
  owned := h.owned
  told := h.told
  notifying := h.notifying
  joining := h.joining
  joined hjoined := by
    rw [h.joined hjoined] at hearly
    cases hearly
  returned _ handler hhandler := by
    have hnone : s.handlers = [] := h.unconnected hearly
    rw [hnone] at hhandler
    cases hhandler
  unconnected _ := h.unconnected hearly

/-- A new handler has no request. -/
theorem Sound.connect (h : s.Sound b) (hserver : s.server = .listening ∨ s.server = .closed) :
    ({ s with handlers := s.handlers ++ [.entered] } : Process L).Sound b where
  settled := h.settled
  truthful := h.truthful
  announced := h.announced
  owned id hid := by
    obtain ⟨j, hj⟩ := h.owned id hid
    refine ⟨j, ?_⟩
    obtain ⟨point, hpoint, hrequest⟩ := Option.bind_eq_some_iff.mp hj
    rw [requestAt, List.getElem?_append_left (List.getElem?_eq_some_iff.mp hpoint).1, hpoint]
    exact hrequest
  told id hid := by
    rcases List.mem_append.mp hid with hid | hid
    · exact h.told id hid
    · cases List.mem_singleton.mp hid
  notifying := by
    rw [List.countP_append, h.notifying]
    rfl
  joining := h.joining
  joined := h.joined
  returned hreturned := by
    rcases hserver with hserver | hserver <;> rw [hserver] at hreturned <;> cases hreturned
  unconnected hearly := by
    rcases hserver with hserver | hserver <;> rw [hserver] at hearly <;> cases hearly

/-- `main` goes on before it joined the thread of the server. -/
theorem Sound.proceed (h : s.Sound b) (hmain : s.main ≠ .joined) {main : MainPoint}
    {server : ServerPoint} (hmoved : main ≠ .joined)
    (hserver : server = .returned → s.server = .returned)
    (hearly : server.early = true → s.server.early = true) (accepting : Bool) :
    ({ s with main := main, server := server, accepting := accepting } : Process L).Sound b where
  settled := h.settled
  truthful := h.truthful
  announced := h.announced
  owned := h.owned
  told := h.told
  notifying := h.notifying
  joining hcalled := absurd (h.joining hcalled) hmain
  joined hjoined := absurd hjoined hmoved
  returned hreturned := h.returned (hserver hreturned)
  unconnected hnone := h.unconnected (hearly hnone)

/-- A stopped server has only returned if it had before, and does not listen yet only if it did not
before. -/
theorem close_cases (lib : Httplib) (point : ServerPoint) :
    (point.close lib = .returned → point = .returned) ∧
      ((point.close lib).early = true → point.early = true) := by
  cases point <;> cases h : lib.stopsEarly <;> simp [ServerPoint.close, ServerPoint.early, h]

/-- Every step keeps what holds. -/
theorem step_sound (hlib : lib.Waits) {happening : Happening} (h : s.Sound b)
    (hstep : s.step b admitWindow lib happening = some s') :
    s'.Sound b := by
  cases happening with
  | start =>
    obtain ⟨hserver, hs'⟩ := Option.ite_none_right_eq_some.mp hstep
    cases hs'
    exact h.serve (by rw [hserver]; rfl) .started true
  | install =>
    obtain ⟨hserver, hs'⟩ := Option.ite_none_right_eq_some.mp hstep
    cases hs'
    exact h.serve (by rw [hserver]; rfl) .stoppable s.accepting
  | listen =>
    obtain ⟨hserver, hs'⟩ := Option.ite_none_right_eq_some.mp hstep
    cases hs'
    exact h.serve (by rw [hserver]; rfl) (.opened lib) s.accepting
  | connect =>
    obtain ⟨hserver, hs'⟩ := Option.ite_none_right_eq_some.mp hstep
    cases hs'
    exact h.connect (hlib.starts _ hserver)
  | handler i handling =>
    obtain ⟨point, hpoint, hmap⟩ := Option.bind_eq_some_iff.mp hstep
    obtain ⟨moved, hmoved, rfl⟩ := Option.map_eq_some_iff.mp hmap
    exact h.handle hpoint hmoved
  | returnServer =>
    obtain ⟨hreturns, hs'⟩ := Option.ite_none_right_eq_some.mp hstep
    obtain ⟨_, hover⟩ := hlib.waits _ _ hreturns
    cases hs'
    exact ⟨h.settled, h.truthful, h.announced, h.owned, h.told, h.notifying, h.joining,
      fun _ => rfl, fun _ => hover, fun hearly => by cases hearly⟩
  | beginDrain =>
    obtain ⟨hmain, hs'⟩ := Option.ite_none_right_eq_some.mp hstep
    cases hs'
    exact h.proceed (by simp [hmain]) MainPoint.noConfusion id id false
  | stopServer =>
    obtain ⟨hmain, hs'⟩ := Option.ite_none_right_eq_some.mp hstep
    cases hs'
    obtain ⟨hreturned, hearly⟩ := close_cases lib s.server
    exact h.proceed (by simp [hmain]) MainPoint.noConfusion hreturned hearly s.accepting
  | joinServer =>
    obtain ⟨⟨_, hserver⟩, hs'⟩ := Option.ite_none_right_eq_some.mp hstep
    cases hs'
    exact ⟨h.settled, h.truthful, h.announced, h.owned, h.told, h.notifying, fun _ => rfl,
      fun _ => hserver, h.returned, h.unconnected⟩
  | stopWorker move =>
    obtain ⟨⟨hmain, hstops⟩, hmap⟩ := Option.ite_none_right_eq_some.mp hstep
    obtain ⟨threads, hthreads, rfl⟩ := Option.map_eq_some_iff.mp hmap
    exact h.disturb hthreads (Threads.step_stops h.settled hstops hthreads) fun _ => hmain
  | worker move =>
    obtain ⟨hruns, hmap⟩ := Option.ite_none_right_eq_some.mp hstep
    obtain ⟨threads, hthreads, rfl⟩ := Option.map_eq_some_iff.mp hmap
    obtain ⟨hundisturbed, hstopping, _⟩ := Threads.step_runs h.settled hruns hthreads
    exact h.disturb hthreads hundisturbed fun hcalled => h.joining (hstopping ▸ hcalled)

/-- What holds initially. -/
theorem init_sound (b : Bridge L) (config : Config) (order : ChildOrder) :
    (init config order : Process L).Sound b where
  settled := trivial
  truthful := Worker.init_truthful b config order
  announced := Threads.init_announced config order
  owned _ hid := absurd hid (Nat.not_lt_zero _)
  told _ hid := absurd hid List.not_mem_nil
  notifying := rfl
  joining hcalled := absurd rfl hcalled
  joined hjoined := by cases hjoined
  returned hreturned := by cases hreturned
  unconnected _ := rfl

/-- What holds in every run. -/
theorem run_sound (hlib : lib.Waits) {happenings : List Happening} (h : s.Sound b)
    (hrun : s.Run b admitWindow lib happenings s') : s'.Sound b :=
  run_invariant (fun _ _ _ h hstep => step_sound hlib h hstep) h hrun

/-- Once `main` joined the thread of the server, only the worker thread and `InferenceWorker::stop`
move. -/
theorem joined_cases (hlib : lib.Waits) {happening : Happening} (h : s.Sound b)
    (hmain : s.main = .joined) (hstep : s.step b admitWindow lib happening = some s') :
    ∃ move threads, (move.runs = true ∧ happening = .worker move ∨ move.stops = true) ∧
      s.threads.step b admitWindow move = some threads ∧ s' = { s with threads := threads } := by
  have hserver : s.server = .returned := h.joined hmain
  cases happening with
  | start | install | listen =>
    have hguard := (Option.ite_none_right_eq_some.mp hstep).1
    simp [hserver] at hguard
  | connect =>
    have hguard := hlib.starts _ (Option.ite_none_right_eq_some.mp hstep).1
    simp [hserver] at hguard
  | returnServer =>
    have hguard := (hlib.waits _ _ (Option.ite_none_right_eq_some.mp hstep).1).1
    rw [hserver] at hguard
    cases hguard
  | beginDrain | stopServer | joinServer =>
    have hguard := (Option.ite_none_right_eq_some.mp hstep).1
    simp [hmain] at hguard
  | handler i handling =>
    obtain ⟨point, hget, hmap⟩ := Option.bind_eq_some_iff.mp hstep
    obtain ⟨moved, hmoved, _⟩ := Option.map_eq_some_iff.mp hmap
    have hover := h.returned hserver point (List.mem_of_getElem? hget)
    rw [(handle_cases hmoved).1] at hover
    cases hover
  | stopWorker move =>
    obtain ⟨⟨_, hstops⟩, hmap⟩ := Option.ite_none_right_eq_some.mp hstep
    obtain ⟨threads, hthreads, hs'⟩ := Option.map_eq_some_iff.mp hmap
    exact ⟨move, threads, .inr hstops, hthreads, hs'.symm⟩
  | worker move =>
    obtain ⟨hruns, hmap⟩ := Option.ite_none_right_eq_some.mp hstep
    obtain ⟨threads, hthreads, hs'⟩ := Option.map_eq_some_iff.mp hmap
    exact ⟨move, threads, .inl ⟨hruns, rfl⟩, hthreads, hs'.symm⟩

/-- Nobody enqueues a request after `main` joined the thread of the server. -/
theorem joined_quiet (hlib : lib.Waits) {happening : Happening} (h : s.Sound b)
    (hmain : s.main = .joined) (hstep : s.step b admitWindow lib happening = some s') :
    s'.main = .joined ∧ s'.handlers = s.handlers ∧
      s'.threads.worker.arrivals = s.threads.worker.arrivals := by
  obtain ⟨move, threads, hmove, hthreads, rfl⟩ := joined_cases hlib h hmain hstep
  rcases hmove with ⟨hruns, _⟩ | hstops
  · exact ⟨hmain, rfl, (Threads.step_runs h.settled hruns hthreads).1.arrivals⟩
  · exact ⟨hmain, rfl, (Threads.step_stops h.settled hstops hthreads).arrivals⟩

end Process

/-- The worker is stopped only after every handler has returned, as cpp-httplib waits for them. When
it was stopped, each enqueued request belongs to a handler that answered it and was told its end, or
that gave it up, and nothing is enqueued any more. -/
theorem shutdown_cuts_no_client (b : Bridge L) (admitWindow : Bool) (lib : Httplib)
    (hlib : lib.Waits) (config : Config) (order : ChildOrder) (happenings : List Happening)
    (s : Process L) (hrun : (Process.init config order).Run b admitWindow lib happenings s)
    (hstopped : s.threads.worker.running = false) :
    (∀ point ∈ s.handlers, point.returned = true) ∧
      (∀ id < s.threads.worker.arrivals.length,
        ∃ i : ℕ, s.handlers[i]? = some (.answered id) ∧ s.Told id ∨
        s.handlers[i]? = some (.gone id)) ∧
      ∀ later s', s.Run b admitWindow lib later s' →
        s'.handlers = s.handlers ∧ s'.threads.worker.arrivals = s.threads.worker.arrivals := by
  have h : s.Sound b := Process.run_sound hlib (Process.init_sound b config order) hrun
  have hmain : s.main = .joined := h.joining fun huncalled => by
    rw [h.announced.stopped.mp huncalled] at hstopped
    cases hstopped
  have hover : ∀ point ∈ s.handlers, point.returned = true := h.returned (h.joined hmain)
  refine ⟨hover, fun id hid => ?_, fun later s' hlater => ?_⟩
  · obtain ⟨i, hi⟩ := h.owned id hid
    obtain ⟨point, hpoint, hrequest⟩ := Option.bind_eq_some_iff.mp hi
    have hmem := List.mem_of_getElem? hpoint
    have hreturned := hover point hmem
    refine ⟨i, ?_⟩
    cases point with
    | answered id' =>
      cases hrequest
      exact .inl ⟨hpoint, h.told id hmem⟩
    | gone id' =>
      cases hrequest
      exact .inr hpoint
    | refused => cases hrequest
    | entered | accepted | pushed _ | waiting _ => cases hreturned
  · have hquiet := run_invariant (P := fun s₁ : Process L => s₁.Sound b ∧ s₁.main = .joined ∧
      s₁.handlers = s.handlers ∧
        s₁.threads.worker.arrivals = s.threads.worker.arrivals)
          (fun s₁ happening s₂ hs₁ hstep => ?_) ⟨h, hmain, rfl, rfl⟩ hlater
    · exact hquiet.2.2
    · obtain ⟨hsound, hjoined, hhandlers, harrivals⟩ := hs₁
      obtain ⟨hjoined', hhandlers', harrivals'⟩ := Process.joined_quiet hlib hsound hjoined hstep
      exact ⟨Process.step_sound hlib hsound hstep, hjoined', hhandlers'.trans hhandlers,
        harrivals'.trans harrivals⟩

/-- A request that was answered after the server had been stopped. -/
theorem shutdown_cuts_no_client_late : ∃ s : Process Unit,
    (Process.init ⟨4, 64, true⟩ .stored).Run (Bridge.counting (fun _ => [5, 6]) 1) false
      (.eager false true)
      ([.start, .install, .listen, .connect, .handler 0 .readAccepting, .handler 0 (.push {}),
        .handler 0 .notify, .beginDrain, .stopServer] ++
        List.replicate 7 (.worker (.advance 0 0)) ++
        [.handler 0 .answer, .returnServer, .joinServer, .stopWorker .store]) s ∧
      s.threads.worker.arrivals.length = 1 ∧ ∀ id < s.threads.worker.arrivals.length,
        ∃ i : ℕ, s.handlers[i]? = some (.answered id) ∧ s.Told id ∨
          s.handlers[i]? = some (.gone id) := by
  have hrun : (run (Process.step (Bridge.counting (fun _ => [5, 6]) 1) false (.eager false true))
      (Process.init ⟨4, 64, true⟩ .stored)
      ([.start, .install, .listen, .connect, .handler 0 .readAccepting, .handler 0 (.push {}),
        .handler 0 .notify, .beginDrain, .stopServer] ++
        List.replicate 7 (.worker (.advance 0 0)) ++
        [.handler 0 .answer, .returnServer, .joinServer, .stopWorker .store])).any
        (fun s => s.threads.worker.running = false ∧ s.threads.worker.arrivals.length = 1) =
        true := by
    decide +kernel
  obtain ⟨s, hs, hcond⟩ := (Option.any_eq_true _ _).mp hrun
  obtain ⟨hstopped, hone⟩ := of_decide_eq_true hcond
  exact ⟨s, hs, hone,
    (shutdown_cuts_no_client _ _ _ (Httplib.eager_waits _ _) _ _ _ s hs hstopped).2.1⟩

end RadixForge
