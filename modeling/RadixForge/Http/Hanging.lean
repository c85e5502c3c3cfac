import RadixForge.Http.Shutdown
import Mathlib.Logic.Relation

/-!
# What a shutdown waits for

A shutdown can be completed from every state in which the server does not listen behind the back of
`main` and the worker thread did not miss the notification of `InferenceWorker::stop`. Both are
exact: a process that is stuck stays so in every continuation that has no spurious wake-up, and from
any other state the server comes to be stopped, each handler returns, and the worker thread comes
closer to its end with every step.
-/

namespace RadixForge

open Library

variable {L : Type}

section Ending

variable {b : Bridge L} {s : Threads L}

/-- How many steps the worker thread is from its end at most, once it was stopped. -/
def Threads.left (s : Threads L) : ℕ :=
  match s.point, s.worker.phase with
  | .finished, _ => 0
  | .free, .exited => 1
  | .free, .head => 2
  | .counted, _ => 3
  | .counting, _ => 4
  | .free, .requeued => 5
  | .free, .prepared _ => 6
  | .free, .admitted _ => 7
  | .roused, _ => 8
  | .dozing, _ => 9
  | .resumed, _ => 10
  | .predicate, _ => 11
  | .woken, _ => 12
  | .free, .running => 12
  | .blocked, _ | .blocking, _ => 13

/-- The worker thread is neither blocked nor about to block. -/
def Threads.Awake (s : Threads L) : Prop := s.point ≠ .blocking ∧ s.point ≠ .blocked

/-- A stopped worker thread takes what is in the queue, or leaves the loop. -/
theorem Threads.popQueue_left (hrunning : s.worker.running = false) :
    ∃ s', s.popQueue b = some s' ∧ s'.point = .free ∧ s'.left ≤ 7 := by
  unfold popQueue Worker.popQueue
  by_cases hqueue : s.worker.queue = []
  · exact ⟨_, by rw [if_pos ⟨hqueue, hrunning⟩]; rfl, rfl, by simp [left, Worker.exit]⟩
  · refine ⟨_, by rw [if_neg fun h => hqueue h.1, if_neg fun h => hqueue h.1]; rfl,
      rfl, by simp [left]⟩

/-- A stopped worker thread that is awake stays so and comes closer to its end, and needs no
spurious wake-up. -/
theorem Threads.left_step (b : Bridge L) (admitWindow : Bool) (h : s.Settled)
    (hrunning : s.worker.running = false) (hawake : s.Awake) (hpoint : s.point ≠ .finished) :
    ∃ move s', move.runs = true ∧ s.step b admitWindow move = some s' ∧ s'.Awake ∧
      s'.left < s.left := by
  have hadvance {s' : Threads L} (hstep : s.advance b admitWindow 0 0 = some s')
      (hawake' : s'.Awake) (hleft : s'.left < s.left) :
      ∃ move s', move.runs = true ∧ s.step b admitWindow move = some s' ∧ s'.Awake ∧
        s'.left < s.left :=
    ⟨.advance 0 0, s', rfl, hstep, hawake', hleft⟩
  cases hp : s.point <;> simp only [Settled, hp] at h
  case finished => exact absurd hp hpoint
  case blocking => exact absurd hp hawake.1
  case blocked => exact absurd hp hawake.2
  case free =>
    cases hphase : s.worker.phase with
    | head =>
      exact hadvance (by simp only [advance, hp, advanceFree, hphase]; rfl) (by simp [Awake])
        (by simp [left, hp, hphase, Worker.check, hrunning, Worker.exit])
    | running =>
      refine hadvance (by simp only [advance, hp, advanceFree, hphase]; rfl) ?_ ?_
      all_goals cases hidle : s.idle && s.worker.queue.isEmpty <;> simp [Awake, left, hp, hphase]
    | admitted pending =>
      exact hadvance (by simp only [advance, hp, advanceFree, hphase]; rfl) (by simp [Awake])
        (by simp [left, hp, hphase, Worker.prepare])
    | prepared retry =>
      exact hadvance (by simp only [advance, hp, advanceFree, hphase]; rfl) (by simp [Awake])
        (by simp [left, hp, hphase, Worker.deferToFront])
    | requeued =>
      exact hadvance (by simp only [advance, hp, advanceFree, hphase]; rfl) (by simp [Awake])
        (by simp [left, hp, hphase])
    | exited =>
      exact hadvance (by simp only [advance, hp, advanceFree, hphase]; rfl) (by simp [Awake])
        (by simp [left, hp, hphase])
  case predicate =>
    exact hadvance
      (by simp only [advance, hp, hrunning, Bool.and_false, Bool.false_eq_true, if_false]; rfl)
      (by simp [Awake]) (by simp [left, hp])
  case woken =>
    exact hadvance (by simp only [advance, hp]; rfl) (by simp [Awake]) (by simp [left, hp])
  case resumed =>
    obtain ⟨s', hs', hfree, hleft⟩ := popQueue_left (b := b) hrunning
    have height : s.left = 10 := by simp only [left, hp]
    by_cases hwindow : (s.idle && !s.worker.queue.isEmpty && admitWindow) = true
    · exact hadvance (by simp only [advance, hp, hwindow, if_true]; rfl) (by simp [Awake])
        (by simp [left, hp])
    · exact hadvance (by simp only [advance, hp, hwindow]; exact hs') (by simp [Awake, hfree])
        (by omega)
  case dozing =>
    exact ⟨.wake, _, rfl, rfl, by simp [Awake, hp, Point.wake], by simp [left, hp, Point.wake]⟩
  case roused =>
    obtain ⟨s', hs', hfree, hleft⟩ := popQueue_left (b := b) hrunning
    have height : s.left = 8 := by simp only [left, hp]
    exact hadvance (by simp only [advance, hp]; exact hs') (by simp [Awake, hfree]) (by omega)
  case counting =>
    exact hadvance (by simp only [advance, hp]; rfl) (by simp [Awake]) (by simp [left, hp])
  case counted =>
    exact hadvance (by simp only [advance, hp]; rfl) (by simp [Awake]) (by simp [left, hp, h])

end Ending

namespace Process

variable {b : Bridge L} {admitWindow : Bool} {lib : Httplib} {s s' : Process L}

/-- The worker thread is not woken from its wait unless somebody notified it. -/
def Prompted (s : Process L) : Happening → Prop
  | .worker .wake => s.threads.point ≠ .blocked
  | _ => True

/-- Nobody will stop the server any more, or the notification of `InferenceWorker::stop` was lost.
-/
def Stuck (lib : Httplib) (s : Process L) : Prop :=
  s.main = .stopping ∧ s.server.listens lib = true ∨ s.threads.stopping = .notified ∧
    ¬ s.threads.Awake

/-- The process can get from one state to another without a spurious wake-up. -/
def Reaches (b : Bridge L) (admitWindow : Bool) (lib : Httplib) : Process L → Process L → Prop :=
  Relation.ReflTransGen fun s s' => ∃ happening, s.Prompted happening ∧
    s.step b admitWindow lib happening = some s'

section Hanging

/-- A server that nobody will stop goes on. -/
theorem step_unstopped (hlib : lib.Waits) {happening : Happening} (hmain : s.main = .stopping)
    (hlistens : s.server.listens lib = true)
    (hstep : s.step b admitWindow lib happening = some s') :
      s'.main = .stopping ∧ s'.server.listens lib = true := by
  cases happening with
  | start | install =>
    obtain ⟨hserver, hs'⟩ := Option.ite_none_right_eq_some.mp hstep
    cases hs'
    rw [hserver] at hlistens
    exact ⟨hmain, hlistens⟩
  | listen =>
    obtain ⟨hserver, hs'⟩ := Option.ite_none_right_eq_some.mp hstep
    cases hs'
    rw [hserver] at hlistens
    have hbinds : lib.binds = true := hlistens
    refine ⟨hmain, ?_⟩
    simp [ServerPoint.opened, hbinds, ServerPoint.listens]
  | connect =>
    obtain ⟨_, hs'⟩ := Option.ite_none_right_eq_some.mp hstep
    cases hs'
    exact ⟨hmain, hlistens⟩
  | handler i handling =>
    obtain ⟨point, hpoint, hmap⟩ := Option.bind_eq_some_iff.mp hstep
    obtain ⟨moved, hmoved, rfl⟩ := Option.map_eq_some_iff.mp hmap
    exact ⟨hmain, hlistens⟩
  | returnServer =>
    have hserver := (hlib.waits _ _ (Option.ite_none_right_eq_some.mp hstep).1).1
    rw [hserver] at hlistens
    cases hlistens
  | joinServer =>
    obtain ⟨⟨_, hserver⟩, _⟩ := Option.ite_none_right_eq_some.mp hstep
    rw [hserver] at hlistens
    cases hlistens
  | beginDrain | stopServer =>
    obtain ⟨hother, _⟩ := Option.ite_none_right_eq_some.mp hstep
    rw [hmain] at hother
    cases hother
  | stopWorker move =>
    obtain ⟨⟨hjoined, _⟩, _⟩ := Option.ite_none_right_eq_some.mp hstep
    rw [hmain] at hjoined
    cases hjoined
  | worker move =>
    obtain ⟨_, hmap⟩ := Option.ite_none_right_eq_some.mp hstep
    obtain ⟨threads, hthreads, rfl⟩ := Option.map_eq_some_iff.mp hmap
    exact ⟨hmain, hlistens⟩

/-- A worker thread that missed the notification stays where it is. -/
theorem step_unnoticed (hlib : lib.Waits) {happening : Happening} (h : s.Sound b)
    (hprompted : s.Prompted happening) (hnotified : s.threads.stopping = .notified)
    (hasleep : ¬ s.threads.Awake) (hstep : s.step b admitWindow lib happening = some s') :
    s'.threads.stopping = .notified ∧ ¬ s'.threads.Awake := by
  obtain ⟨move, threads, hmove, hthreads, rfl⟩ :=
    joined_cases hlib h (h.joining (by simp [hnotified])) hstep
  have hpoint : s.threads.point = .blocking ∨ s.threads.point = .blocked := by
    unfold Threads.Awake at hasleep
    tauto
  cases move with
  | store | notifyAll => simp [Threads.step, hnotified] at hthreads
  | join => rcases hpoint with hpoint | hpoint <;>
    simp [Threads.step, hnotified, hpoint] at hthreads
  | wake =>
    rcases hmove with ⟨_, rfl⟩ | hstops
    · cases hthreads
      have hblocking : s.threads.point = .blocking := hpoint.resolve_right hprompted
      exact ⟨hnotified, fun hawake => hawake.1 (by simp [hblocking, Point.wake])⟩
    · cases hstops
  | advance first second =>
    rcases hpoint with hpoint | hpoint <;>
      simp only [Threads.step, Threads.advance, hpoint] at hthreads
    · cases hthreads
      exact ⟨hnotified, fun hawake => hawake.2 rfl⟩
    · cases hthreads
  | push _ | notifyOne => rcases hmove with ⟨hruns, _⟩ | hstops <;> contradiction

/-- A shutdown that hangs once hangs for ever. -/
theorem step_stuck (hlib : lib.Waits) {happening : Happening} (h : s.Sound b) (hstuck : s.Stuck lib)
    (hprompted : s.Prompted happening) (hstep : s.step b admitWindow lib happening = some s') :
    s'.Stuck lib := by
  rcases hstuck with ⟨hmain, hlistens⟩ | ⟨hnotified, hasleep⟩
  · exact .inl (step_unstopped hlib hmain hlistens hstep)
  · exact .inr (step_unnoticed hlib h hprompted hnotified hasleep hstep)

end Hanging

section Completion

/-- A step of somebody else reaches the state after it. -/
theorem Reaches.of_step (happening : Happening) (hprompted : s.Prompted happening)
    (hstep : s.step b admitWindow lib happening = some s') : Reaches b admitWindow lib s s' :=
  .single ⟨happening, hprompted, hstep⟩

/-- What is reached from a state that is reached is reached. -/
theorem Reaches.trans {s₁ : Process L} (h : Reaches b admitWindow lib s s₁)
    (h' : Reaches b admitWindow lib s₁ s') :
    Reaches b admitWindow lib s s' :=
  Relation.ReflTransGen.trans h h'

/-- What holds is kept on every way. -/
theorem Reaches.sound (hreaches : Reaches b admitWindow lib s s') (hlib : lib.Waits)
    (h : s.Sound b) : s'.Sound b := by
  induction hreaches with
  | refl => exact h
  | tail _ hstep ih =>
    obtain ⟨_, _, hstep⟩ := hstep
    exact step_sound hlib ih hstep

/-- A shutdown that hangs once never ends. -/
theorem Reaches.stuck (hreaches : Reaches b admitWindow lib s s') (hlib : lib.Waits) (h : s.Sound b)
    (hstuck : s.Stuck lib) : s'.Stuck lib := by
  induction hreaches with
  | refl => exact hstuck
  | tail hbefore hstep ih =>
    obtain ⟨_, hprompted, hstep⟩ := hstep
    exact step_stuck hlib (Reaches.sound hbefore hlib h) ih hprompted hstep

/-- The server comes to `listen`. -/
theorem reaches_opened (b : Bridge L) (admitWindow : Bool) (lib : Httplib)
    (hearly : s.server.early = true) :
    ∃ accepting, Reaches b admitWindow lib s
      { s with server := .opened lib, accepting := accepting } := by
  have hlisten (s : Process L) (hserver : s.server = .stoppable) :
      Reaches b admitWindow lib s { s with server := .opened lib } :=
    Reaches.of_step .listen trivial (if_pos hserver)
  have hinstall (s : Process L) (hserver : s.server = .started) :
      Reaches b admitWindow lib s { s with server := .opened lib } :=
    Reaches.trans (Reaches.of_step .install trivial (if_pos hserver))
      (hlisten { s with server := .stoppable } rfl)
  cases hserver : s.server with
  | created =>
    refine ⟨true, Reaches.trans (Reaches.of_step .start trivial (if_pos hserver)) ?_⟩
    exact hinstall { s with server := .started, accepting := true } rfl
  | started => exact ⟨s.accepting, hinstall s hserver⟩
  | stoppable => exact ⟨s.accepting, hlisten s hserver⟩
  | listening | closed | returned =>
    rw [hserver] at hearly
    cases hearly

/-- `main` stops a server that is through with `listen` or listens. -/
theorem reaches_closed (hearly : s.server.early = false) (hmain : s.main ≠ .joined)
    (hheard : ¬ (s.main = .stopping ∧ s.server.listens lib = true)) :
    ∃ s', Reaches b admitWindow lib s s' ∧ s'.main = .stopping ∧
      (s'.server = .closed ∨ s'.server = .returned) := by
  have hclose (s : Process L) (hearly : s.server.early = false) (hmain : s.main = .draining) :
      ∃ s', Reaches b admitWindow lib s s' ∧ s'.main = .stopping ∧
        (s'.server = .closed ∨ s'.server = .returned) := by
    refine ⟨_, Reaches.of_step .stopServer trivial (if_pos hmain), rfl, ?_⟩
    cases hserver : s.server with
    | created | started | stoppable =>
      rw [hserver] at hearly
      cases hearly
    | listening | closed => exact .inl (by simp [ServerPoint.close])
    | returned => exact .inr (by simp [ServerPoint.close])
  cases hpoint : s.main with
  | serving =>
    obtain ⟨s', hreaches, hs'⟩ := hclose { s with main := .draining, accepting := false } hearly rfl
    exact ⟨s', Reaches.trans (Reaches.of_step .beginDrain trivial (if_pos hpoint)) hreaches, hs'⟩
  | draining => exact hclose s hearly hpoint
  | stopping =>
    refine ⟨s, .refl, hpoint, ?_⟩
    cases hserver : s.server with
    | created | started | stoppable =>
      rw [hserver] at hearly
      cases hearly
    | listening => exact absurd ⟨hpoint, by rw [hserver]; rfl⟩ hheard
    | closed => exact .inl rfl
    | returned => exact .inr rfl
  | joined => exact absurd hpoint hmain

/-- `main` stops a server that it can still stop. -/
theorem reaches_stopped (b : Bridge L) (admitWindow : Bool) (hmain : s.main ≠ .joined)
    (hheard : ¬ (s.main = .stopping ∧ s.server.listens lib = true)) :
    ∃ s', Reaches b admitWindow lib s s' ∧ s'.main = .stopping ∧
      (s'.server = .closed ∨ s'.server = .returned) := by
  cases hearly : s.server.early with
  | false => exact reaches_closed hearly hmain hheard
  | true =>
    obtain ⟨accepting, hopened⟩ := reaches_opened b admitWindow lib hearly
    have hlate : (ServerPoint.opened lib).early =
        false := by cases hbinds : lib.binds <;> simp [ServerPoint.opened,
          hbinds, ServerPoint.early]
    have hlistens (hopen : (ServerPoint.opened lib).listens lib = true) :
        s.server.listens lib = true := by
      cases hbinds : lib.binds with
      | false => simp [ServerPoint.opened, hbinds, ServerPoint.listens] at hopen
      | true => cases hserver :
        s.server <;> simp [hserver, ServerPoint.early, ServerPoint.listens, hbinds] at hearly ⊢
    obtain ⟨s', hreaches, hs'⟩ : ∃ s',
      Reaches b admitWindow lib { s with server := .opened lib, accepting := accepting } s' ∧
        s'.main = .stopping ∧ (s'.server = .closed ∨ s'.server = .returned) :=
      reaches_closed hlate hmain fun hopen => hheard ⟨hopen.1, hlistens hopen.2⟩
    exact ⟨s', hopened.trans hreaches, hs'⟩

/-- A step of a handler. -/
theorem reaches_handle {i : ℕ} {point : HandlerPoint} (handling : Handling)
    {moved : HandlerPoint × Threads L} (hpoint : s.handlers[i]? = some point)
    (hmoved : s.handle b admitWindow point handling = some moved) :
    Reaches b admitWindow lib s
      { s with handlers := s.handlers.set i moved.1, threads := moved.2 } :=
  Reaches.of_step (.handler i handling) trivial (by
    rw [step, hpoint, Option.bind_some, hmoved]
    rfl)

/-- A handler can return without an answer. -/
theorem handler_returns (admitWindow : Bool) (lib : Httplib)
    (h : s.Sound b) {i : ℕ} {point : HandlerPoint} (hpoint : s.handlers[i]? = some point)
    (hactive : point.returned = false) :
    ∃ next threads, next.returned =
      true ∧ Reaches b admitWindow lib s
        { s with handlers := s.handlers.set i next, threads := threads } := by
  have hlt : i < s.handlers.length := (List.getElem?_eq_some_iff.mp hpoint).1
  have htwice {first next : HandlerPoint} {threads : Threads L} (handling handling' :
      Handling) (hover : next.returned = true)
      (hfirst : s.handle b admitWindow point handling = some (first, threads))
      (hnext :
        ({ s with handlers := s.handlers.set i first, threads := threads } : Process L).handle b
          admitWindow first handling' =
        some (next, threads)) :
      ∃ next threads, next.returned = true ∧
        Reaches b admitWindow lib
          s { s with handlers := s.handlers.set i next, threads := threads } := by
    refine ⟨next, threads, hover, Reaches.trans (reaches_handle handling hpoint hfirst) ?_⟩
    have hset : Reaches b admitWindow lib _ _ := reaches_handle handling'
      (List.getElem?_set_self hlt) hnext
    rwa [List.set_set] at hset
  cases point with
  | entered =>
    by_cases haccepting : s.accepting = true
    · exact htwice .readAccepting .reject rfl (by rw [Process.handle, if_pos haccepting]) rfl
    · have hrefused : s.handle b admitWindow .entered
          .readAccepting = some (.refused, s.threads) := by
        rw [Process.handle, if_neg haccepting]
      exact ⟨.refused, s.threads, rfl, reaches_handle .readAccepting hpoint hrefused⟩
  | accepted => exact ⟨.refused, s.threads, rfl, reaches_handle .reject hpoint rfl⟩
  | pushed id =>
    have hunnotified : s.threads.unnotified ≠ 0 := by
      rw [← h.notifying]
      exact (List.countP_pos_iff.mpr ⟨_, List.mem_of_getElem? hpoint, rfl⟩).ne'
    have hnotify : s.handle b admitWindow (.pushed id) .notify =
        some (.waiting id,
          { s.threads with unnotified := s.threads.unnotified - 1, point :=
            s.threads.point.wake }) := by
      rw [Process.handle, Threads.step, if_neg hunnotified]
      rfl
    exact htwice .notify .leave rfl hnotify rfl
  | waiting id => exact ⟨.gone id, s.threads, rfl, reaches_handle .leave hpoint rfl⟩
  | refused | answered _ | gone _ => cases hactive

/-- All handlers can return. -/
theorem handlers_return (admitWindow : Bool) (hlib : lib.Waits) (n : ℕ) (h : s.Sound b)
    (hn : s.handlers.countP (fun point => !point.returned) = n) :
    ∃ s', Reaches b admitWindow lib s s' ∧ s'.main = s.main ∧ s'.server = s.server ∧
      ∀ point ∈ s'.handlers, point.returned = true := by
  induction n generalizing s with
  | zero =>
    refine ⟨s, .refl, rfl, rfl, fun point hpoint => ?_⟩
    have := List.countP_eq_zero.mp hn point hpoint
    simpa using this
  | succ n ih =>
    obtain ⟨point, hmem, hactive⟩ :=
      List.countP_pos_iff.mp (show 0 < s.handlers.countP _ by rw [hn]; exact Nat.succ_pos n)
    have hpoint : point.returned = false := by simpa using hactive
    obtain ⟨i, hlt, hget⟩ := List.mem_iff_getElem.mp hmem
    obtain ⟨next, threads, hover, hreaches⟩ := handler_returns admitWindow lib h
      (List.getElem?_eq_some_iff.mpr ⟨hlt, hget⟩) hpoint
    obtain ⟨s', hreaches', hmain, hserver, hall⟩ := ih (hreaches.sound hlib h) (by
      rw [List.countP_set hlt, hget, hn]
      simp [hover, hpoint])
    exact ⟨s', hreaches.trans hreaches', hmain, hserver, hall⟩

/-- `main` joins the thread of a server that it can still stop. -/
theorem reaches_joined (admitWindow : Bool) (hlib : lib.Waits) (h : s.Sound b)
    (hmain : s.main ≠ .joined) (hheard : ¬ (s.main = .stopping ∧ s.server.listens lib = true)) :
    ∃ s', Reaches b admitWindow lib s s' ∧ s'.main = .joined ∧ s'.threads.stopping = .uncalled := by
  obtain ⟨s₁, hstopped, hstopping, hserver⟩ := reaches_stopped b admitWindow hmain hheard
  obtain ⟨s₂, hreturning, hsame, hkept, hover⟩ :=
    handlers_return admitWindow hlib _ (hstopped.sound hlib h) rfl
  rw [hstopping] at hsame
  have hreaches := hstopped.trans hreturning
  have huncalled : s₂.threads.stopping = .uncalled := by
    by_contra hcalled
    have := (hreaches.sound hlib h).joining hcalled
    rw [hsame] at this
    cases this
  have hjoin (s : Process L) (hmain : s.main = .stopping) (hserver : s.server = .returned) :
      Reaches b admitWindow lib s { s with main := .joined } :=
    Reaches.of_step .joinServer trivial (if_pos ⟨hmain, hserver⟩)
  rcases hserver with hserver | hserver
  · have hreturn : Reaches b admitWindow lib s₂ { s₂ with server := .returned } :=
      Reaches.of_step .returnServer trivial (if_pos (hkept.trans hserver ▸ hlib.ends _ hover))
    exact ⟨_, (hreaches.trans hreturn).trans (hjoin _ hsame rfl), rfl, huncalled⟩
  · exact ⟨_, hreaches.trans (hjoin s₂ hsame (hkept.trans hserver)), rfl, huncalled⟩

/-- A step of the worker thread. -/
theorem reaches_worker (move : Move) {threads : Threads L} (hruns : move.runs = true)
    (hpoint : s.threads.point ≠ .blocked)
    (hstep : s.threads.step b admitWindow move = some threads) :
      Reaches b admitWindow lib s { s with threads := threads } := by
  refine Reaches.of_step (.worker move) ?_ (by rw [step, if_pos hruns, hstep]; rfl)
  cases move with
  | wake => exact hpoint
  | push _ | notifyOne | store | notifyAll | join | advance _ _ => trivial

/-- A step of `InferenceWorker::stop`. -/
theorem reaches_stop {move : Move} {threads : Threads L} (hstops : move.stops = true)
    (hmain : s.main = .joined) (hstep : s.threads.step b admitWindow move = some threads) :
    Reaches b admitWindow lib s { s with threads := threads } := by
  refine Reaches.of_step (.stopWorker move) ?_ (by rw [step, if_pos ⟨hmain, hstops⟩, hstep]; rfl)
  cases move with
  | store | notifyAll | join => trivial
  | push _ | notifyOne | wake | advance _ _ => cases hstops

/-- The worker of a process whose `stop` was called is stopped. -/
theorem Sound.running (h : s.Sound b) (hcalled : s.threads.stopping ≠ .uncalled) :
    s.threads.worker.running = false :=
  Bool.not_eq_true _ ▸ fun hrunning => hcalled (h.announced.stopped.mpr hrunning)

/-- A stopped worker thread that is awake can come to its end. -/
theorem worker_finishes (b : Bridge L) (admitWindow : Bool) (lib : Httplib) (n : ℕ)
    (hn : s.threads.left ≤ n) (h : s.threads.Settled) (hrunning : s.threads.worker.running = false)
    (hawake : s.threads.Awake) :
    ∃ threads, Reaches b admitWindow lib s { s with threads := threads } ∧
      threads.point = .finished ∧
      threads.stopping = s.threads.stopping := by
  induction n generalizing s with
  | zero =>
    refine ⟨s.threads, .refl, not_not.mp fun hpoint => ?_, rfl⟩
    obtain ⟨_, _, _, _, _, hless⟩ := Threads.left_step b admitWindow h hrunning hawake hpoint
    omega
  | succ n ih =>
    by_cases hpoint : s.threads.point = .finished
    · exact ⟨s.threads, .refl, hpoint, rfl⟩
    · obtain ⟨move, threads, hruns, hstep, hawake', hless⟩ :=
        Threads.left_step b admitWindow h hrunning hawake hpoint
      obtain ⟨hundisturbed, hstopping, hsame⟩ := Threads.step_runs h hruns hstep
      obtain ⟨threads', hreaches, hfinished, hkept⟩ :=
        ih (s := { s with threads := threads }) (by dsimp only; omega)
        hundisturbed.settled (hsame.trans hrunning) hawake'
      exact ⟨threads', (reaches_worker move hruns hawake.2 hstep).trans hreaches, hfinished,
        hkept.trans hstopping⟩

/-- `InferenceWorker::stop` ends after its notification was heard. -/
theorem reaches_end (admitWindow : Bool) (lib : Httplib) (h : s.Sound b) (hmain : s.main = .joined)
    (hnotified : s.threads.stopping = .notified) (hawake : s.threads.Awake) :
    ∃ s', Reaches b admitWindow lib s s' ∧ s'.threads.stopping = .joined := by
  obtain ⟨threads, hreaches, hfinished, hstopping⟩ :=
    worker_finishes b admitWindow lib _ le_rfl h.settled
    (h.running (by simp [hnotified])) hawake
  have hjoin : threads.step b admitWindow .join = some { threads with stopping := .joined } := by
    simp only [Threads.step, hstopping, hnotified, hfinished]
  exact ⟨_, hreaches.trans (reaches_stop rfl hmain hjoin), rfl⟩

/-- `InferenceWorker::stop` ends if it notifies at the right time. -/
theorem reaches_notified (admitWindow : Bool) (hlib : lib.Waits) (h : s.Sound b)
    (hmain : s.main = .joined) (hstored : s.threads.stopping = .stored) :
    ∃ s', Reaches b admitWindow lib s s' ∧ s'.threads.stopping = .joined := by
  have hnotify (s : Process L) (h : s.Sound b) (hmain : s.main = .joined)
      (hstored : s.threads.stopping = .stored)
      (hpoint : s.threads.point ≠ .blocking) : ∃ s', Reaches b admitWindow lib s s' ∧
        s'.threads.stopping = .joined := by
    have hstep : s.threads.step b admitWindow .notifyAll =
        some { s.threads with stopping := .notified, point := s.threads.point.wake } := by
      simp only [Threads.step, hstored]
    have hreaches : Reaches b admitWindow lib s _ := reaches_stop rfl hmain hstep
    obtain ⟨s', hend, hjoined⟩ := reaches_end admitWindow lib (hreaches.sound hlib h) hmain rfl
      ⟨fun hblocking => hpoint (Threads.wake_point.2 hblocking), Threads.wake_point.1⟩
    exact ⟨s', hreaches.trans hend, hjoined⟩
  by_cases hpoint : s.threads.point = .blocking
  · -- the worker thread blocks first
    have hreaches : Reaches b admitWindow lib s
        { s with threads := { s.threads with point := .blocked } } :=
      reaches_worker (.advance 0 0) rfl (by simp [hpoint])
        (by simp only [Threads.step, Threads.advance, hpoint])
    obtain ⟨s', hend, hjoined⟩ := hnotify _ (hreaches.sound hlib h) hmain hstored (by simp)
    exact ⟨s', hreaches.trans hend, hjoined⟩
  · exact hnotify s h hmain hstored hpoint

/-- The shutdown ends once `main` joined the thread of the server, unless a notification was lost.
-/
theorem reaches_over (hlib : lib.Waits) (h : s.Sound b) (hmain : s.main = .joined)
    (hheard : s.threads.stopping = .notified → s.threads.Awake) :
    ∃ s', Reaches b admitWindow lib s s' ∧ s'.threads.stopping = .joined := by
  cases hstopping : s.threads.stopping with
  | uncalled =>
    have hstep : s.threads.step b admitWindow .store =
        some { s.threads with worker := {
          s.threads.worker with running := false }, stopping := .stored } := by
      simp only [Threads.step, hstopping]
      rfl
    have hreaches : Reaches b admitWindow lib s _ := reaches_stop rfl hmain hstep
    obtain ⟨s', hend, hjoined⟩ := reaches_notified admitWindow hlib
      (hreaches.sound hlib h) hmain rfl
    exact ⟨s', hreaches.trans hend, hjoined⟩
  | stored => exact reaches_notified admitWindow hlib h hmain hstopping
  | notified => exact reaches_end admitWindow lib h hmain hstopping (hheard hstopping)
  | joined => exact ⟨s, .refl, hstopping⟩

end Completion

end Process

/-- From a state of any run the shutdown can be completed without a spurious wake-up, unless `main`
has called `Server::stop` in vain, before `start` had installed `stop_fn_` or `listen` could hear
it, or the notification of `InferenceWorker::stop` fell between the test and the block of the worker
thread. -/
theorem shutdown_completes_iff (b : Bridge L) (admitWindow : Bool) (lib : Httplib)
    (hlib : lib.Waits) (config : Config) (order : ChildOrder) (happenings : List Happening)
    (s : Process L) (hrun : (Process.init config order).Run b admitWindow lib happenings s) :
    (∃ s', Process.Reaches b admitWindow lib s s' ∧ s'.threads.stopping = .joined) ↔
      ¬ (s.main = .stopping ∧ s.server.listens lib = true) ∧
        ¬ (s.threads.stopping = .notified ∧
          (s.threads.point = .blocking ∨ s.threads.point = .blocked)) := by
  have h : s.Sound b := Process.run_sound hlib (Process.init_sound b config order) hrun
  have hasleep : ¬ s.threads.Awake ↔ s.threads.point = .blocking ∨ s.threads.point = .blocked := by
    unfold Threads.Awake
    tauto
  rw [← hasleep]
  constructor
  · rintro ⟨s', hreaches, hover⟩
    rw [← not_or]
    intro hstuck
    rcases hreaches.stuck hlib h hstuck with ⟨hmain, _⟩ | ⟨hnotified, _⟩
    · have hjoined := (hreaches.sound hlib h).joining (by simp [hover])
      rw [hmain] at hjoined
      cases hjoined
    · rw [hover] at hnotified
      cases hnotified
  · rintro ⟨hheard, hnoticed⟩
    by_cases hmain : s.main = .joined
    · exact Process.reaches_over hlib h hmain fun hnotified => not_not.mp fun hasleep =>
        hnoticed ⟨hnotified, hasleep⟩
    · obtain ⟨s₁, hjoining, hjoined, huncalled⟩ :=
        Process.reaches_joined admitWindow hlib h hmain hheard
      obtain ⟨s', hreaches, hover⟩ :=
        Process.reaches_over hlib (hjoining.sound hlib h) hjoined fun hnotified => by
        rw [huncalled] at hnotified
        cases hnotified
      exact ⟨s', hjoining.trans hreaches, hover⟩

/-- Shutdowns that are never completed: a signal comes before `start` has built the server, and
`main` waits for the server for ever; and `stop` notifies while the worker thread is between its
test and its block. -/
theorem shutdown_completes_iff_hangs :
    (∃ s : Process Unit, (Process.init ⟨4, 64, true⟩ .stored).Run
      (Bridge.counting (fun _ => [5, 6]) 1) true (.eager true true)
        [.start, .beginDrain, .stopServer] s ∧
      ¬ ∃ s', Process.Reaches (Bridge.counting (fun _ => [5, 6]) 1) true (.eager true true) s s' ∧
        s'.threads.stopping = .joined) ∧
    ∃ s : Process Unit, (Process.init ⟨4, 64, true⟩ .stored).Run
      (Bridge.counting (fun _ => [5, 6]) 1) true (.eager true true)
        (List.replicate 3 (.worker (.advance 0 0)) ++
          [.start, .install, .listen, .beginDrain, .stopServer, .returnServer, .joinServer,
            .stopWorker .store, .stopWorker .notifyAll]) s ∧
      ¬ ∃ s', Process.Reaches (Bridge.counting (fun _ => [5, 6]) 1) true (.eager true true) s s' ∧
        s'.threads.stopping = .joined := by
  constructor
  · refine ⟨_, rfl, fun hcompletes => ?_⟩
    exact ((shutdown_completes_iff _ _ _ (Httplib.eager_waits _ _) ⟨4, 64, true⟩ .stored [.start,
      .beginDrain, .stopServer] _
      rfl).mp hcompletes).1 ⟨rfl, rfl⟩
  · have hrun : (run (Process.step (Bridge.counting (fun _ => [5, 6]) 1) true (.eager true true))
        (Process.init ⟨4, 64, true⟩ .stored)
          (List.replicate 3 (.worker (.advance 0 0)) ++
            [.start, .install, .listen, .beginDrain, .stopServer, .returnServer, .joinServer,
              .stopWorker .store, .stopWorker .notifyAll])).any
        (fun s => s.threads.stopping = .notified ∧ s.threads.point = .blocking) = true := by
          decide +kernel
    obtain ⟨s, hs, hcond⟩ := (Option.any_eq_true _ _).mp hrun
    obtain ⟨hnotified, hblocking⟩ := of_decide_eq_true hcond
    refine ⟨s, hs, fun hcompletes => ?_⟩
    exact ((shutdown_completes_iff _ _ _ (Httplib.eager_waits _ _) _ _ _ s hs).mp hcompletes).2
      ⟨hnotified, .inl hblocking⟩

end RadixForge
