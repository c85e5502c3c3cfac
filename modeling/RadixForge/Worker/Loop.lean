import RadixForge.Library.Run
import RadixForge.Worker.FusedStep

/-!
# The worker loop

`run` as a state machine. An iteration pops requests from the queue, prepares them, puts back
what has to wait, and makes a fused step; the steps in between hold no lock, so requests may arrive
and `stop` may be called between any two of them.
-/

namespace RadixForge

open Library

variable {L : Type}

/-- Where the loop stands. -/
inductive Phase where
  | head
  | running
  | admitted (pending : List InferenceRequest)
  | prepared (retry : List InferenceRequest)
  | requeued
  | exited

/-- The worker thread with its queue. `arrivals` lists every request in the order of arrival. -/
structure Worker (L : Type) where
  queue : List InferenceRequest
  phase : Phase
  slots : Slots L
  world : World
  running : Bool
  arrivals : List InferenceRequest

/-- What can happen next: a call from another thread or a step of the loop. -/
inductive Action where
  | enqueue (req : InferenceRequest)
  | stop
  | check
  | pop
  | prepare
  | requeue
  | fuse (first second : ℤ)

namespace Worker

/-- A started worker on a fresh mapper. -/
def init (config : Config) (order : ChildOrder) : Worker L where
  queue := []
  phase := .head
  slots := {}
  world := .init config order
  running := true
  arrivals := []

/-- How many sequences may be in progress. -/
def maxGenerating (b : Bridge L) : ℕ := b.nSeqMax - 1

/-- Leave the loop: give back every sequence without notice. -/
def exit (k : Worker L) : Worker L :=
  let world := failAll (fun seq w => retire seq false w) k.slots.active k.world
  { k with phase := .exited, slots := {}, world := failAll abandon k.slots.prefilling world }

/-- The condition of the loop. -/
def check (k : Worker L) : Worker L := if k.running then { k with phase := .running } else k.exit

/-- Take requests from the queue as long as there is room; wait if there is nothing to do, and leave
if the worker was stopped meanwhile. -/
def popQueue (b : Bridge L) (k : Worker L) : Option (Worker L) :=
  if k.queue = [] ∧ k.running = false then some k.exit
  else if k.queue = [] ∧ k.slots.active = [] ∧ k.slots.prefilling = [] then none
  else
    let room := maxGenerating b - (k.slots.active.length + k.slots.prefilling.length)
    some { k with queue := k.queue.drop room, phase := .admitted (k.queue.take room) }

/-- Prepare the admitted requests; those put back come before the deferred ones. -/
def prepare (b : Bridge L) (k : Worker L) (pending : List InferenceRequest) : Worker L :=
  let (batch, world) := prepareAll b pending k.world
  { k with phase := .prepared (batch.queued ++ batch.deferred)
           slots := { k.slots with prefilling := k.slots.prefilling ++ batch.ctxs }
           world := world }

/-- `defer_to_front`. -/
def deferToFront (k : Worker L) (retry : List InferenceRequest) : Worker L :=
  { k with queue := retry ++ k.queue, phase := .requeued }

/-- The fused step of an iteration. -/
def fuse (b : Bridge L) (k : Worker L) (first second : ℤ) : Worker L :=
  let (slots, world) := fusedStep b first second k.slots k.world
  { k with phase := .head, slots := slots, world := world }

/-- One step of the system; an action that does not fit the phase is refused. -/
def step (b : Bridge L) (k : Worker L) : Action → Option (Worker L)
  | .enqueue req =>
    let req := { req with id := k.arrivals.length, onCancel := true }
    some { k with queue := k.queue ++ [req], arrivals := k.arrivals ++ [req] }
  | .stop => some { k with running := false }
  | .check =>
    match k.phase with
    | .head => some k.check
    | _ => none
  | .pop =>
    match k.phase with
    | .running => k.popQueue b
    | _ => none
  | .prepare =>
    match k.phase with
    | .admitted pending => some (k.prepare b pending)
    | _ => none
  | .requeue =>
    match k.phase with
    | .prepared retry => some (k.deferToFront retry)
    | _ => none
  | .fuse first second =>
    match k.phase with
    | .requeued => some (k.fuse b first second)
    | _ => none

/-- What a step does: one case for each branch, with what was tested on the way to it. -/
inductive Moves (b : Bridge L) (k : Worker L) : Action → Worker L → Prop
  | enqueue (req : InferenceRequest) : Moves b k (.enqueue req)
      { k with queue := k.queue ++ [{ req with id := k.arrivals.length, onCancel := true }]
               arrivals := k.arrivals ++ [{ req with id := k.arrivals.length, onCancel := true }] }
  | stop : Moves b k .stop { k with running := false }
  | enter (hphase : k.phase = .head) (hrunning : k.running = true) :
      Moves b k .check { k with phase := .running }
  | leave (hphase : k.phase = .head) (hstopped : k.running = false) : Moves b k .check k.exit
  | leaveEmpty (hphase : k.phase = .running) (hempty : k.queue = [])
      (hstopped : k.running = false) :
      Moves b k .pop k.exit
  | pop (hphase : k.phase = .running) (hgoesOn : ¬ (k.queue = [] ∧ k.running = false))
      (hwork : ¬ (k.queue = [] ∧ k.slots.active = [] ∧ k.slots.prefilling = [])) : Moves b k .pop
      { k with queue := k.queue.drop (maxGenerating
        b - (k.slots.active.length + k.slots.prefilling.length))
               phase := .admitted
                (k.queue.take
                  (maxGenerating b - (k.slots.active.length + k.slots.prefilling.length))) }
  | prepare {pending : List InferenceRequest} (hphase : k.phase = .admitted pending) :
      Moves b k .prepare (k.prepare b pending)
  | requeue {retry : List InferenceRequest} (hphase : k.phase = .prepared retry) :
      Moves b k .requeue (k.deferToFront retry)
  | fuse (first second : ℤ) (hphase : k.phase = .requeued) :
      Moves b k (.fuse first second) (k.fuse b first second)

/-- Every step is one of these. -/
theorem step_moves {b : Bridge L} {k k' : Worker L} {action : Action}
    (h : k.step b action = some k') :
    k.Moves b action k' := by
  cases action with
  | enqueue req =>
    cases h
    exact .enqueue req
  | stop =>
    cases h
    exact .stop
  | check =>
    simp only [step] at h
    split at h
    · rename_i hphase
      cases h
      unfold check
      split
      · rename_i hrunning
        exact .enter hphase hrunning
      · rename_i hrunning
        exact .leave hphase (Bool.eq_false_iff.mpr hrunning)
    · contradiction
  | pop =>
    simp only [step] at h
    split at h
    · rename_i hphase
      unfold popQueue at h
      split at h
      · rename_i hleaves
        cases h
        exact .leaveEmpty hphase hleaves.1 hleaves.2
      · rename_i hgoesOn
        split at h
        · contradiction
        · rename_i hwork
          cases h
          exact .pop hphase hgoesOn hwork
    · contradiction
  | prepare =>
    simp only [step] at h
    split at h
    · rename_i hphase
      cases h
      exact .prepare hphase
    · contradiction
  | requeue =>
    simp only [step] at h
    split at h
    · rename_i hphase
      cases h
      exact .requeue hphase
    · contradiction
  | fuse first second =>
    simp only [step] at h
    split at h
    · rename_i hphase
      cases h
      exact .fuse first second hphase
    · contradiction

/-- The runs of a worker. -/
abbrev Run (b : Bridge L) (k : Worker L) (actions : List Action) (k' : Worker L) : Prop :=
  run (step b) k actions = some k'

/-- The requests that are neither prefilling nor active: queued, or in the hands of the loop. -/
def waiting (k : Worker L) : List InferenceRequest :=
  k.queue ++
    match k.phase with
    | .admitted pending => pending
    | .prepared retry => retry
    | _ => []

/-- At the head of the loop only the queue waits. -/
theorem waiting_of_head {k : Worker L} (hphase : k.phase = .head) : k.waiting = k.queue := by
  simp [waiting, hphase]

/-- Before requests are taken from it only the queue waits. -/
theorem waiting_of_running {k : Worker L} (hphase : k.phase = .running) : k.waiting = k.queue := by
  simp [waiting, hphase]

/-- What was taken from the queue waits behind it. -/
theorem waiting_of_admitted {k : Worker L} {pending : List InferenceRequest}
    (hphase : k.phase = .admitted pending) :
    k.waiting = k.queue ++ pending := by
  simp [waiting, hphase]

/-- What is put back waits behind the queue, too. -/
theorem waiting_of_prepared {k : Worker L} {retry : List InferenceRequest}
    (hphase : k.phase = .prepared retry) :
    k.waiting = k.queue ++ retry := by
  simp [waiting, hphase]

/-- Once all is put back only the queue waits. -/
theorem waiting_of_requeued {k : Worker L} (hphase : k.phase = .requeued) :
    k.waiting = k.queue := by
  simp [waiting, hphase]

/-- The condition of the loop does not change the flag it reads. -/
theorem check_running (k : Worker L) : k.check.running = k.running := by
  unfold check
  split <;> rfl

/-- Taking requests from the queue does not change the flag. -/
theorem popQueue_running {b : Bridge L} {k k' : Worker L} (h : k.popQueue b = some k') :
    k'.running = k.running := by
  unfold popQueue at h
  split at h
  · cases h
    rfl
  · split at h
    · contradiction
    · cases h
      rfl

/-- One iteration of the loop, with the statuses of its decodes. -/
def iteration (first second : ℤ) : List Action :=
  [.check, .pop, .prepare, .requeue, .fuse first second]

end Worker

/-- A model that counts the tokens it samples up to a last one. -/
def Bridge.counting (tokenize : String → List Token) (stop : Token) : Bridge Unit where
  tokenize := tokenize
  applyChatTemplate _ := ""
  logits _ := ()
  sample _ _ given := given.length
  isEog token := token = stop
  tokenToPiece _ := []
  nCtx := 64
  nBatch := 8
  nSeqMax := 4

end RadixForge
