import Mathlib.Logic.Relation
import RadixForge.Worker.Bounds
import RadixForge.Worker.Conservation
import RadixForge.Worker.Threads

/-!
# The drain signal

`is_idle` reads the length of the queue and then the stored number of generating sequences. Neither
counts the requests that the loop took from the queue, those that are prefilling, or those that
became active since the last store.

Where the worker thread stands tells when the answer is right: in its wait, or past its loop, the
thread holds nothing. Anywhere else the answer is right only on the way there, when the thread
comes to its wait without polling, telling or giving back a request.
-/

namespace RadixForge

open Library

variable {L : Type}

namespace Worker

/-- The requests that the loop took from the queue and neither prepared nor put back. -/
def hand (k : Worker L) : List InferenceRequest :=
  match k.phase with
  | .admitted pending => pending
  | .prepared retry => retry
  | _ => []

/-- A loop that was left holds no sequence. -/
def Left (k : Worker L) : Prop :=
  k.phase = .exited → k.slots.active = [] ∧ k.slots.prefilling = []

/-- Leaving is the only way into the last phase. -/
theorem step_left {b : Bridge L} {k k' : Worker L} {action : Action} (h : k.Left)
    (hstep : k.step b action = some k') : k'.Left := by
  cases action with
  | enqueue req | stop =>
    cases hstep
    exact h
  | check =>
    simp only [step] at hstep
    split at hstep
    · cases hstep
      unfold check
      split
      · exact Phase.noConfusion
      · exact fun _ => ⟨rfl, rfl⟩
    · contradiction
  | pop =>
    simp only [step] at hstep
    split at hstep
    · unfold popQueue at hstep
      split at hstep
      · cases hstep
        exact fun _ => ⟨rfl, rfl⟩
      · split at hstep
        · contradiction
        · cases hstep
          exact Phase.noConfusion
    · contradiction
  | prepare | requeue | fuse first second =>
    simp only [step] at hstep
    split at hstep
    · cases hstep
      exact Phase.noConfusion
    · contradiction

end Worker

/-- A step of a thread other than `enqueue`. -/
def Move.quiet : Move → Bool
  | .push _ => false
  | _ => true

/-- The points of the wait of an idle loop, from the test of its predicate to the next one. -/
def Point.waits : Point → Bool
  | .predicate | .blocking | .blocked | .woken => true
  | _ => false

namespace Threads

variable {b : Bridge L} {admitWindow : Bool} {s s' : Threads L}

/-- `is_idle` answers true if it reads the queue in one state and the counter in a later one. -/
def IsIdle (s₁ s₂ : Threads L) : Prop := s₁.worker.queue.length = 0 ∧ s₂.generating = 0

/-- The worker holds no unfinished request. -/
def Drained (s : Threads L) : Prop :=
  s.worker.queue = [] ∧ s.worker.hand = [] ∧
    s.worker.slots.prefilling = [] ∧ s.worker.slots.active = []

/-- The worker thread stands in the wait of its loop, or it has left the loop. -/
def Resting (s : Threads L) : Prop := s.point.waits = true ∨ s.worker.phase = .exited

/-- A step of the worker thread alone that polls, tells and gives back nothing. -/
def Silent (b : Bridge L) (admitWindow : Bool) (s s' : Threads L) : Prop :=
  ∃ first second, s.advance b admitWindow first second = some s' ∧ s'.worker.world = s.worker.world

/-- Going on alone and in silence, the worker thread comes to rest with an empty queue. -/
def ComesToRest (b : Bridge L) (admitWindow : Bool) (s : Threads L) : Prop :=
  ∃ s', Relation.ReflTransGen (Silent b admitWindow) s s' ∧ s'.Resting ∧ s'.worker.queue = []

/-- What holds of the worker thread at each of its points: it waits only with empty lists, and goes
on from the wait only if there is something to do. -/
structure Steady (s : Threads L) : Prop where
  settled : s.Settled
  left : s.worker.Left
  waiting : s.point.waits = true → s.worker.slots.active = [] ∧ s.worker.slots.prefilling = []
  resumed : s.point = .resumed →
    s.worker.queue ≠ [] ∨ s.idle = false ∨ s.worker.running = false
  dozing : s.point = .dozing ∨ s.point = .roused → s.worker.queue ≠ []

/-- A notification leaves the thread steady. -/
theorem Steady.wake (h : s.Steady) (hworker : s'.worker = s.worker)
    (hpoint : s'.point = s.point.wake) : s'.Steady := by
  have hsettled := h.settled.wake
  obtain ⟨worker, point, unnotified, stopping, generating⟩ := s'
  obtain rfl : worker = s.worker := hworker
  obtain rfl : point = s.point.wake := hpoint
  refine ⟨hsettled, h.left, fun hwaits => h.waiting ?_, fun hresumed => h.resumed ?_,
    fun hdozing => h.dozing ?_⟩
  all_goals cases hp : s.point <;> simp_all [Point.wake, Point.waits]

/-- Nothing is asked of a thread at its other points. -/
theorem steady_elsewhere (hsettled : s.Settled) (hleft : s.worker.Left)
    (hwaits : s.point.waits = false) (hresumed : s.point ≠ .resumed)
    (hdozing : ¬ (s.point = .dozing ∨ s.point = .roused)) :
    s.Steady where
  settled := hsettled
  left := hleft
  waiting h := absurd (hwaits.symm.trans h) Bool.false_ne_true
  resumed h := absurd h hresumed
  dozing h := absurd h hdozing

/-- The worker thread stays steady. -/
theorem advance_steady {first second : ℤ} (h : s.Steady)
    (hstep : s.advance b admitWindow first second = some s') : s'.Steady := by
  obtain ⟨hsettled, actions, hrun⟩ := advance_worker h.settled hstep
  have hleft : s'.worker.Left :=
    run_invariant (fun _ _ _ hk hstep => Worker.step_left hk hstep) h.left hrun
  have hpop (hstep : s.popQueue b = some s') : s'.Steady := by
    obtain ⟨k, _, rfl⟩ := Option.map_eq_some_iff.mp hstep
    exact steady_elsewhere hsettled hleft rfl Point.noConfusion (by simp)
  cases hpoint : s.point <;> simp only [advance, hpoint] at hstep
  case free =>
    unfold advanceFree at hstep
    cases hphase : s.worker.phase <;> simp only [hphase, Option.some.injEq] at hstep <;> subst hstep
    case running =>
      refine ⟨hsettled, hleft, fun hwaits => ?_, fun hresumed => ?_, fun hdozing => ?_⟩
      · cases hidle : s.idle && s.worker.queue.isEmpty
        · simp [hidle, Point.waits] at hwaits
        · simpa [idle] using (Bool.and_eq_true_iff.mp hidle).1
      · cases hidle : s.idle && s.worker.queue.isEmpty
        · rcases Bool.and_eq_false_iff.mp hidle with hbusy | hqueue
          · exact .inr (.inl hbusy)
          · exact .inl (by simpa using hqueue)
        · simp [hidle] at hresumed
      · cases hidle : s.idle && s.worker.queue.isEmpty <;> simp [hidle] at hdozing
    all_goals
      exact steady_elsewhere hsettled hleft (by simp [Point.waits, hpoint]) (by simp [hpoint])
        (by simp [hpoint])
  case predicate =>
    cases hstep
    refine ⟨hsettled, hleft, fun _ => h.waiting (by simp [hpoint, Point.waits]), fun hresumed => ?_,
      fun hdozing => ?_⟩
    · cases hstay : s.worker.queue.isEmpty && s.worker.running
      · rcases Bool.and_eq_false_iff.mp hstay with hqueue | hrunning
        · exact .inl (by simpa using hqueue)
        · exact .inr (.inr hrunning)
      · simp [hstay] at hresumed
    · cases hstay : s.worker.queue.isEmpty && s.worker.running <;> simp [hstay] at hdozing
  case blocking | woken =>
    cases hstep
    exact ⟨hsettled, hleft, fun _ => h.waiting (by simp [hpoint, Point.waits]),
      fun h => by simp at h,
      fun h => by simp at h⟩
  case resumed =>
    split at hstep
    · rename_i hwindow
      cases hstep
      refine ⟨hsettled, hleft, fun h => by simp [Point.waits] at h, Point.noConfusion, fun _ => ?_⟩
      simp only [Bool.and_eq_true, Bool.not_eq_true'] at hwindow
      simpa using hwindow.1.2
    · exact hpop hstep
  case roused => exact hpop hstep
  case counting | counted =>
    cases hstep
    exact steady_elsewhere hsettled hleft rfl Point.noConfusion (by simp)
  all_goals exact absurd hstep (by simp)

/-- Every thread leaves the worker thread steady. -/
theorem step_steady {move : Move} (h : s.Steady) (hstep : s.step b admitWindow move = some s') :
    s'.Steady := by
  cases move with
  | push req =>
    simp only [step] at hstep
    split at hstep
    · contradiction
    · cases hstep
      have hqueue : s.worker.queue ++
          [{ req with id := s.worker.arrivals.length, onCancel := true }] ≠ [] := by
        simp
      exact ⟨h.settled, h.left, h.waiting, fun _ => .inl hqueue, fun _ => hqueue⟩
  | store =>
    simp only [step] at hstep
    split at hstep
    · cases hstep
      exact ⟨h.settled, h.left, h.waiting, fun _ => .inr (.inr rfl), h.dozing⟩
    · contradiction
  | notifyOne | notifyAll =>
    simp only [step] at hstep
    split at hstep <;> cases hstep
    exact h.wake rfl rfl
  | wake =>
    cases hstep
    exact h.wake rfl rfl
  | join =>
    simp only [step] at hstep
    split at hstep <;> cases hstep
    exact ⟨h.settled, h.left, h.waiting, h.resumed, h.dozing⟩
  | advance first second => exact advance_steady h hstep

/-- In every run the worker thread is steady. -/
theorem run_steady {config : Config} {order : ChildOrder} {moves : List Move}
    (hrun : (init config order : Threads L).Run b admitWindow moves s) : s.Steady := by
  refine run_invariant (fun _ _ _ h hstep => step_steady h hstep) ?_ hrun
  exact steady_elsewhere trivial Phase.noConfusion rfl Point.noConfusion (by simp [init])

/-- A worker thread at rest has nothing in hand and no sequence. -/
theorem Steady.resting (h : s.Steady) (hresting : s.Resting) : s.worker.hand = [] ∧
    s.worker.slots.prefilling = [] ∧ s.worker.slots.active = [] := by
  rcases hresting with hwaits | hexited
  · obtain ⟨hactive, hprefilling⟩ := h.waiting hwaits
    have hsettled := h.settled
    refine ⟨?_, hprefilling, hactive⟩
    cases hpoint : s.point <;> simp [hpoint, Point.waits] at hwaits
    all_goals simp only [Settled, hpoint] at hsettled
    all_goals simp [Worker.hand, hsettled]
  · obtain ⟨hactive, hprefilling⟩ := h.left hexited
    exact ⟨by simp [Worker.hand, hexited], hprefilling, hactive⟩

/-- A silent step towards rest. -/
theorem ComesToRest.before (s' : Threads L) (first second : ℤ) (h : s'.ComesToRest b admitWindow)
    (hstep : s.advance b admitWindow first second = some s')
    (hworld : s'.worker.world = s.worker.world) : s.ComesToRest b admitWindow := by
  obtain ⟨s₁, hreaches, hrests⟩ := h
  exact ⟨s₁, .head ⟨first, second, hstep, hworld⟩ hreaches, hrests⟩

/-- A drained loop is left without a word. -/
theorem exit_world {k : Worker L} (hactive : k.slots.active = [])
    (hprefilling : k.slots.prefilling = []) :
    k.exit.world = k.world := by
  simp [Worker.exit, failAll, hactive, hprefilling]

/-- A drained worker comes from the head of its loop to its wait, or leaves the loop. -/
theorem head_comes_to_rest (hpoint : s.point = .free) (hphase : s.worker.phase = .head)
    (hdrained : s.Drained) : s.ComesToRest b admitWindow := by
  obtain ⟨hqueue, _, hprefilling, hactive⟩ := hdrained
  have hcheck : s.advance b admitWindow 0 0 = some { s with worker := s.worker.check } := by
    simp [advance, hpoint, advanceFree, hphase]
  cases hrunning : s.worker.running with
  | false =>
    have hexit : s.worker.check = s.worker.exit := by simp [Worker.check, hrunning]
    rw [hexit] at hcheck
    have hrests : ({ s with worker := s.worker.exit } : Threads L).ComesToRest b admitWindow :=
      ⟨_, .refl, .inr rfl, hqueue⟩
    exact hrests.before _ 0 0 hcheck (exit_world hactive hprefilling)
  | true =>
    have hgo : s.worker.check = { s.worker with phase := .running } := by
      simp [Worker.check, hrunning]
    rw [hgo] at hcheck
    refine ComesToRest.before { s with worker := { s.worker with phase := .running } } 0 0 ?_
      hcheck rfl
    refine ComesToRest.before
      { s with worker := { s.worker with phase := .running }, point := .predicate } 0 0 ?_ ?_ rfl
    · exact ⟨_, .refl, .inl rfl, hqueue⟩
    · simp [advance, hpoint, advanceFree, idle, hqueue, hactive, hprefilling]

/-- A fused step of nothing. -/
theorem fusedStep_empty {slots : Slots L} (hactive : slots.active = [])
    (hprefilling : slots.prefilling = []) (first second : ℤ) (w : World) :
    fusedStep b first second slots w = ({}, w) := by
  simp [fusedStep, dropAllCancelled, buildBatch, submitPrompts, hactive, hprefilling]

/-- From the fused step on, a drained worker comes to rest. -/
theorem counting_comes_to_rest (hpoint : s.point = .counting) (hdrained : s.Drained) :
    s.ComesToRest b admitWindow := by
  obtain ⟨hqueue, _, hprefilling, hactive⟩ := hdrained
  have hfuse : s.worker.fuse b 0 0 = { s.worker with phase := .head, slots := {} } := by
    simp only [Worker.fuse, fusedStep_empty hactive hprefilling]
  refine ComesToRest.before
    { s with worker := { s.worker with phase := .head, slots := {} }, point := .counted } 0 0 ?_
    (by simp [advance, hpoint, hfuse]) rfl
  refine ComesToRest.before
    { s with worker := { s.worker with phase := .head, slots := {} },
             generating := 0, point := .free } 0 0 ?_
    (by simp [advance]) rfl
  exact head_comes_to_rest rfl rfl ⟨hqueue, rfl, rfl, rfl⟩

/-- From the requeueing on, a drained worker comes to rest. -/
theorem requeued_comes_to_rest (hpoint : s.point = .free) (hphase : s.worker.phase = .requeued)
    (hdrained : s.Drained) : s.ComesToRest b admitWindow := by
  refine ComesToRest.before
    { s with generating := s.worker.slots.active.length, point := .counting } 0 0 ?_
    (by simp [advance, hpoint, advanceFree, hphase]) rfl
  exact counting_comes_to_rest rfl hdrained

/-- An empty retry list is put back in silence. -/
theorem prepared_comes_to_rest (hpoint : s.point = .free) (hphase : s.worker.phase = .prepared [])
    (hdrained : s.Drained) : s.ComesToRest b admitWindow := by
  refine ComesToRest.before { s with worker := s.worker.deferToFront [] } 0 0 ?_
    (by simp [advance, hpoint, advanceFree, hphase]) rfl
  exact requeued_comes_to_rest hpoint rfl ⟨hdrained.1, rfl, hdrained.2.2⟩

/-- A drained worker comes to rest. -/
theorem drained_comes_to_rest (h : s.Steady) (hdrained : s.Drained) :
    s.ComesToRest b admitWindow := by
  have hsettled := h.settled
  obtain ⟨hqueue, hhand, hprefilling, hactive⟩ := id hdrained
  cases hpoint : s.point <;> simp only [Settled, hpoint] at hsettled
  case free =>
    cases hphase : s.worker.phase with
    | head => exact head_comes_to_rest hpoint hphase hdrained
    | running =>
      refine ComesToRest.before { s with point := .predicate } 0 0 ?_
        (by simp [advance, hpoint, advanceFree, hphase, idle, hqueue, hactive, hprefilling]) rfl
      exact ⟨_, .refl, .inl rfl, hqueue⟩
    | admitted pending =>
      obtain rfl : pending = [] := by simpa [Worker.hand, hphase] using hhand
      refine ComesToRest.before { s with worker := s.worker.prepare b [] } 0 0 ?_
        (by simp [advance, hpoint, advanceFree, hphase]) rfl
      exact prepared_comes_to_rest hpoint rfl
        ⟨hqueue, rfl, by simpa [Worker.prepare, prepareAll] using hprefilling, hactive⟩
    | prepared retry =>
      obtain rfl : retry = [] := by simpa [Worker.hand, hphase] using hhand
      exact prepared_comes_to_rest hpoint hphase hdrained
    | requeued => exact requeued_comes_to_rest hpoint hphase hdrained
    | exited => exact ⟨s, .refl, .inr hphase, hqueue⟩
  case predicate | blocking | blocked | woken =>
    exact ⟨s, .refl, .inl (by simp [hpoint, Point.waits]), hqueue⟩
  case resumed =>
    have hrunning : s.worker.running = false := by
      rcases h.resumed hpoint with hbusy | hbusy | hrunning
      · exact absurd hqueue hbusy
      · simp [idle, hactive, hprefilling] at hbusy
      · exact hrunning
    refine ComesToRest.before { s with worker := s.worker.exit, point := .free } 0 0 ?_
      (by simp [advance, hpoint, hqueue, popQueue, Worker.popQueue, hrunning])
      (exit_world hactive hprefilling)
    exact ⟨_, .refl, .inr rfl, hqueue⟩
  case dozing => exact absurd hqueue (h.dozing (.inl hpoint))
  case roused => exact absurd hqueue (h.dozing (.inr hpoint))
  case counting => exact counting_comes_to_rest hpoint hdrained
  case counted =>
    refine ComesToRest.before
      { s with generating := s.worker.slots.active.length, point := .free } 0 0 ?_
      (by simp [advance, hpoint]) rfl
    exact head_comes_to_rest rfl hsettled hdrained
  case finished => exact ⟨s, .refl, .inr hsettled, hqueue⟩

/-- Nobody holds a sequence after a silent step that leaves no slot in use if nobody held one
before. -/
theorem slots_empty_of_world {config : Config} {order : ChildOrder} {k k' : Worker L}
    (h : k.Follows config order) (h' : k'.Follows config order) (hworld : k'.world = k.world)
    (hprefilling : k'.slots.prefilling = []) (hactive : k'.slots.active = []) :
    k.slots.prefilling = [] ∧ k.slots.active = [] := by
  obtain ⟨_, _, _, hheld, _⟩ := h.tracked
  obtain ⟨_, _, _, hheld', _⟩ := h'.tracked
  have hnone : heldOf k.world.log = [] := by
    rw [← hworld]
    refine List.Perm.eq_nil (hheld'.trans ?_)
    simp [Slots.tickets, hprefilling, hactive]
  rw [hnone] at hheld
  have hempty := hheld.symm.eq_nil
  simp only [Slots.tickets, List.map_append, List.append_eq_nil_iff, List.map_eq_nil_iff] at hempty
  exact ⟨hempty.2, hempty.1⟩

/-- Preparing a batch is not silent. -/
theorem prepareAll_not_silent {reqs : List InferenceRequest} (hne : reqs ≠ [])
    (hnodup : (reqs.map InferenceRequest.id).Nodup) (hinstalled : ∀ req ∈ reqs, req.onCancel = true)
    (w : World) : (prepareAll b reqs w).2 ≠ w := by
  obtain ⟨req, rest, rfl⟩ := List.exists_cons_of_ne_nil hne
  have hsorted := prepareAll_sorted (b := b) hnodup hinstalled w
  have hid : req.id ∈ (req :: rest).map InferenceRequest.id := by simp
  intro hsame
  rw [hsame] at hsorted
  by_cases hkept : req.id ∈ (prepareAll b (req :: rest) w).1.kept
  · simpa using hsorted.kept _ hkept
  · rcases hsorted.gone _ hid hkept with ⟨message, status, htold⟩ | htold
    · simp at htold
    · simp [CancelledBy] at htold

/-- If nothing waits after the requests were taken from the queue, nothing waited before. -/
theorem popQueue_waiting (hphase : s.worker.phase = .running) (hstep : s.popQueue b = some s')
    (hqueue : s'.worker.queue = []) (hhand : s'.worker.hand = []) :
    s.worker.queue = [] ∧ s.worker.hand = [] := by
  refine ⟨?_, by simp [Worker.hand, hphase]⟩
  obtain ⟨k, hk, rfl⟩ := Option.map_eq_some_iff.mp hstep
  unfold Worker.popQueue at hk
  split at hk
  · rename_i hleave
    exact hleave.1
  · split at hk
    · contradiction
    · cases hk
      rw [← List.take_append_drop (Worker.maxGenerating b -
        (s.worker.slots.active.length + s.worker.slots.prefilling.length)) s.worker.queue]
      exact List.append_eq_nil_iff.mpr ⟨hhand, hqueue⟩

/-- If preparing a batch was silent, the batch was empty. -/
theorem admitted_waiting {pending : List InferenceRequest}
    (hserves : s.worker.Serves b fun _ _ => True) (hphase : s.worker.phase = .admitted pending)
    (hworld : (s.worker.prepare b pending).world = s.worker.world) : s.worker.hand = [] := by
  have hpresent : s.worker.waiting = s.worker.queue ++ pending := by
    simp [Worker.waiting, hphase]
  have hnodup := (List.nodup_append.mp hserves.nodup).2.1
  rw [hpresent, List.map_append] at hnodup
  by_contra hne
  have hpending : pending ≠ [] := by simpa [Worker.hand, hphase] using hne
  exact prepareAll_not_silent hpending (List.nodup_append.mp hnodup).2.1
    (fun req hreq => hserves.installed (hpresent ▸ List.mem_append_right _ hreq)) _ hworld

/-- A silent step does not drain the worker. -/
theorem silent_drained {config : Config} {order : ChildOrder} {moves : List Move}
    (hrun : (init config order : Threads L).Run b admitWindow moves s)
    (hsilent : Silent b admitWindow s s') (hdrained : s'.Drained) : s.Drained := by
  obtain ⟨first, second, hstep, hworld⟩ := hsilent
  have hsettled := (run_steady hrun).settled
  obtain ⟨actions, hactions⟩ := run_worker hrun
  have hserves := Worker.run_serves_all hactions
  have hfollows := Worker.run_follows hactions
  have hrun' : (init config order : Threads L).Run b admitWindow
      (moves ++ [.advance first second]) s' :=
    run_snoc.mpr ⟨s, hrun, hstep⟩
  obtain ⟨actions', hactions'⟩ := run_worker hrun'
  obtain ⟨hqueue, hhand, hprefilling, hactive⟩ := hdrained
  obtain ⟨hprefilling', hactive'⟩ :=
    slots_empty_of_world hfollows (Worker.run_follows hactions') hworld
    hprefilling hactive
  have hwaiting : s.worker.queue = [] ∧ s.worker.hand = [] → s.Drained := fun hempty =>
    ⟨hempty.1, hempty.2, hprefilling', hactive'⟩
  refine hwaiting ?_
  cases hpoint : s.point <;> simp only [advance, hpoint] at hstep <;>
    simp only [Settled, hpoint] at hsettled
  case free =>
    unfold advanceFree at hstep
    cases hphase : s.worker.phase <;> simp only [hphase, Option.some.injEq] at hstep <;> subst hstep
    case head =>
      refine ⟨?_, by simp [Worker.hand, hphase]⟩
      unfold Worker.check at hqueue
      split at hqueue <;> exact hqueue
    case running => exact ⟨hqueue, by simp [Worker.hand, hphase]⟩
    case admitted pending =>
      exact ⟨hqueue, admitted_waiting hserves hphase hworld⟩
    case prepared retry =>
      obtain ⟨hretry, hrest⟩ := List.append_eq_nil_iff.mp hqueue
      exact ⟨hrest, by simpa [Worker.hand, hphase] using hretry⟩
    case requeued => exact ⟨hqueue, by simp [Worker.hand, hphase]⟩
    case exited => exact ⟨hqueue, by simp [Worker.hand, hphase]⟩
  case predicate | blocking | woken =>
    cases hstep
    exact ⟨hqueue, hhand⟩
  case resumed =>
    split at hstep
    · cases hstep
      exact ⟨hqueue, hhand⟩
    · exact popQueue_waiting hsettled hstep hqueue hhand
  case roused => exact popQueue_waiting hsettled hstep hqueue hhand
  case counting =>
    cases hstep
    exact ⟨hqueue, by simp [Worker.hand, hsettled]⟩
  case counted =>
    cases hstep
    exact ⟨hqueue, hhand⟩
  all_goals exact absurd hstep (by simp)

/-- A worker that comes to rest in silence was drained. -/
theorem drained_of_comes_to_rest {config : Config} {order : ChildOrder} {moves : List Move}
    (hrun : (init config order : Threads L).Run b admitWindow moves s)
    (hrests : s.ComesToRest b admitWindow) : s.Drained := by
  obtain ⟨s', hreaches, hresting, hqueue⟩ := hrests
  induction hreaches using Relation.ReflTransGen.head_induction_on generalizing moves with
  | refl => exact ⟨hqueue, (run_steady hrun).resting hresting⟩
  | head hsilent _ ih =>
    obtain ⟨first, second, hstep, _⟩ := id hsilent
    have hmove : step b admitWindow _ (.advance first second) = some _ := hstep
    exact silent_drained hrun hsilent (ih (run_snoc.mpr ⟨_, hrun, hmove⟩))

/-- The loop holds no request besides active ones, of which the counter misses none. -/
structure Emptying (s : Threads L) : Prop where
  queue : s.worker.queue = []
  hand : s.worker.hand = []
  prefilling : s.worker.slots.prefilling = []
  counted : s.worker.slots.active.length ≤ s.generating
  left : s.worker.Left

/-- Leaving the loop leaves nothing behind. -/
theorem exit_emptying (h : s.Emptying) (point : Point) :
    ({ s with worker := s.worker.exit, point := point } : Threads L).Emptying :=
  ⟨h.queue, rfl, rfl, Nat.zero_le _, fun _ => ⟨rfl, rfl⟩⟩

/-- Nothing is taken from an empty queue. -/
theorem popQueue_emptying (h : s.Emptying) (hstep : s.popQueue b = some s') : s'.Emptying := by
  obtain ⟨k, hk, rfl⟩ := Option.map_eq_some_iff.mp hstep
  unfold Worker.popQueue at hk
  split at hk
  · cases hk
    exact exit_emptying h _
  · split at hk
    · contradiction
    · cases hk
      exact ⟨by simp [h.queue], by simp [Worker.hand, h.queue], h.prefilling,
        h.counted, Phase.noConfusion⟩

/-- A fused step without prefills adds no active sequence. -/
theorem fuse_emptying (first second : ℤ) (h : s.Emptying) :
    ({ s with worker := s.worker.fuse b first second, point := .counted } :
      Threads L).Emptying := by
  obtain ⟨htotal, hprefilling⟩ := fusedStep_shrinks
    (b := b) first second s.worker.slots s.worker.world
  rw [h.prefilling, List.length_nil] at htotal hprefilling
  have hcounted := h.counted
  refine ⟨h.queue, rfl, List.length_eq_zero_iff.mp (Nat.le_zero.mp hprefilling),
    ?_, Phase.noConfusion⟩
  simp only [Worker.fuse]
  omega

/-- Without new requests the worker only gets emptier. -/
theorem advance_emptying {first second : ℤ} (h : s.Emptying)
    (hstep : s.advance b admitWindow first second = some s') :
    s'.Emptying := by
  have hsame : ∀ point, ({ s with point := point } : Threads L).Emptying :=
    fun _ => ⟨h.queue, h.hand, h.prefilling, h.counted, h.left⟩
  cases hpoint : s.point <;> simp only [advance, hpoint] at hstep
  case free =>
    unfold advanceFree at hstep
    cases hphase : s.worker.phase <;> simp only [hphase, Option.some.injEq] at hstep <;> subst hstep
    case head =>
      unfold Worker.check
      split
      · exact ⟨h.queue, rfl, h.prefilling, h.counted, Phase.noConfusion⟩
      · exact exit_emptying h _
    case running => exact hsame _
    case admitted pending =>
      obtain rfl : pending = [] := by simpa [Worker.hand, hphase] using h.hand
      exact ⟨h.queue, rfl, by simpa [Worker.prepare, prepareAll] using h.prefilling, h.counted,
        Phase.noConfusion⟩
    case prepared retry =>
      obtain rfl : retry = [] := by simpa [Worker.hand, hphase] using h.hand
      exact ⟨h.queue, rfl, h.prefilling, h.counted, Phase.noConfusion⟩
    case requeued => exact ⟨h.queue, h.hand, h.prefilling, Nat.le_refl _, h.left⟩
    case exited => exact ⟨h.queue, h.hand, h.prefilling, by simp [(h.left hphase).1], h.left⟩
  case predicate | blocking | woken =>
    cases hstep
    exact hsame _
  case resumed =>
    split at hstep
    · cases hstep
      exact hsame _
    · exact popQueue_emptying h (by simpa only [hpoint] using hstep)
  case roused => exact popQueue_emptying h (by simpa only [hpoint] using hstep)
  case counting =>
    cases hstep
    exact fuse_emptying first second h
  case counted =>
    cases hstep
    exact ⟨h.queue, h.hand, h.prefilling, Nat.le_refl _, h.left⟩
  all_goals exact absurd hstep (by simp)

/-- Without new requests every step leaves the worker emptier. -/
theorem step_emptying {move : Move} (hquiet : move.quiet = true) (h : s.Emptying)
    (hstep : s.step b admitWindow move = some s') : s'.Emptying := by
  cases move with
  | push req => contradiction
  | advance first second => exact advance_emptying h hstep
  | wake =>
    cases hstep
    exact ⟨h.queue, h.hand, h.prefilling, h.counted, h.left⟩
  | notifyOne | store | notifyAll | join =>
    simp only [step] at hstep
    split at hstep <;> cases hstep
    all_goals exact ⟨h.queue, h.hand, h.prefilling, h.counted, h.left⟩

/-- A worker that holds nothing but counted active requests keeps doing so until one arrives. -/
theorem run_emptying {moves : List Move} (hquiet : ∀ move ∈ moves, move.quiet = true)
    (h : s.Emptying) (hrun : s.Run b admitWindow moves s') : s'.Emptying := by
  induction moves generalizing s with
  | nil =>
    cases hrun
    exact h
  | cons move rest ih =>
    obtain ⟨s₁, hstep, hrest⟩ := Option.bind_eq_some_iff.mp hrun
    exact ih (fun m hm => hquiet m (List.mem_cons_of_mem _ hm))
      (step_emptying (hquiet _ List.mem_cons_self) h hstep) hrest

end Threads

/-- In every run, a call of `is_idle` that answers true with no request arriving meanwhile finds the
worker drained if at its first read the worker thread is in its wait or past its loop. At any other
place of the thread it does so exactly if the thread comes to rest in silence. -/
theorem idle_drained (b : Bridge L) (admitWindow : Bool) (config : Config) (order : ChildOrder)
    (before during : List Move) (s₁ s₂ : Threads L)
    (hbefore : (Threads.init config order : Threads L).Run b admitWindow before s₁)
    (hduring : s₁.Run b admitWindow during s₂) (hquiet : ∀ move ∈ during, move.quiet = true)
    (hidle : Threads.IsIdle s₁ s₂) :
    (s₁.Resting → s₂.Drained) ∧ (s₂.Drained ↔ s₂.ComesToRest b admitWindow) := by
  have hqueue : s₁.worker.queue = [] := List.length_eq_zero_iff.mp hidle.1
  have hsteady := Threads.run_steady hbefore
  have hreached : (Threads.init config order : Threads L).Run b admitWindow
      (before ++ during) s₂ := by
    rw [Threads.Run, run_append, hbefore]
    exact hduring
  refine ⟨fun hresting => ?_, Threads.drained_comes_to_rest (Threads.run_steady hreached),
    Threads.drained_of_comes_to_rest hreached⟩
  obtain ⟨hhand, hprefilling, hactive⟩ := hsteady.resting hresting
  have hcounted : s₁.worker.slots.active.length ≤ s₁.generating := by simp [hactive]
  have h := Threads.run_emptying hquiet ⟨hqueue, hhand, hprefilling, hcounted, hsteady.left⟩ hduring
  exact ⟨h.queue, h.hand, h.prefilling,
    List.length_eq_zero_iff.mp (Nat.le_zero.mp (hidle.2 ▸ h.counted))⟩

/-- A worker whose thread waits again is drained of the request that it served. -/
theorem idle_drained_waiting : ∃ s : Threads Unit,
    (Threads.init ⟨4, 64, true⟩ .stored).Run (Bridge.counting (fun _ => [5, 6]) 2) false
      (.push {} :: List.replicate 20 (.advance 0 0)) s ∧
        s.worker.world.eventsOf 0 ≠ [] ∧ s.Drained := by
  have hrun : (run (Threads.step (Bridge.counting (fun _ => [5, 6]) 2) false)
      (Threads.init ⟨4, 64, true⟩ .stored) (.push {} :: List.replicate 20 (.advance 0 0))).any
        (fun s => s.worker.queue.length = 0 ∧ s.generating = 0 ∧ s.point.waits = true ∧
          s.worker.world.eventsOf 0 ≠ []) = true := by
    decide +kernel
  obtain ⟨s, hs, hcond⟩ := (Option.any_eq_true _ _).mp hrun
  obtain ⟨hqueue, hgenerating, hwaits, htold⟩ := of_decide_eq_true hcond
  exact ⟨s, hs, htold,
    (idle_drained _ _ _ _ _ [] s s hs rfl (by simp) ⟨hqueue, hgenerating⟩).1 (.inl hwaits)⟩

/-- The loop has just taken a request from the queue: nothing is counted, and the request is in its
hand. -/
theorem idle_undrained : ∃ s : Threads Unit,
    (Threads.init ⟨4, 64, true⟩ .stored).Run (Bridge.counting (fun _ => [5, 6]) 9) false
      [.push {}, .advance 0 0, .advance 0 0, .advance 0 0] s ∧ Threads.IsIdle s s ∧
        ¬ s.Drained := by
  have hrun : (run (Threads.step (Bridge.counting (fun _ => [5, 6]) 9) false)
      (Threads.init ⟨4, 64, true⟩ .stored)
      [.push {}, .advance 0 0, .advance 0 0, .advance 0 0]).any
        (fun s => s.worker.queue.length = 0 ∧ s.generating = 0 ∧ s.worker.hand.length = 1) =
          true := by
    decide +kernel
  obtain ⟨s, hs, hcond⟩ := (Option.any_eq_true _ _).mp hrun
  obtain ⟨hqueue, hgenerating, hhand⟩ := of_decide_eq_true hcond
  refine ⟨s, hs, ⟨hqueue, hgenerating⟩, fun hdrained => ?_⟩
  rw [hdrained.2.1] at hhand
  contradiction

end RadixForge
