import RadixForge.Worker.Load
import RadixForge.Worker.Telling

/-!
# Every request is served

When no more requests arrive, a running worker serves all it has: every iteration leaves it less
load, so after as many iterations as it has load there is nothing left. Each request has then
departed; it failed only if a decode failed, it was cancelled only if its predicate turned true, and
otherwise it received all that it generates when it runs alone, or was rejected.
-/

namespace RadixForge

open Library

variable {L : Type} {b : Bridge L} {config : Config} {order : ChildOrder}

namespace Worker

variable {k k' : Worker L}

/-- Where an iteration finds the worker, and leaves it. -/
structure Idles (config : Config) (order : ChildOrder) (b : Bridge L) (k : Worker L) : Prop where
  head : k.phase = .head
  running : k.running = true
  follows : k.Follows config order
  budgeted : k.slots.Budgeted b

/-- The requests that an iteration takes from the queue. -/
def taken (b : Bridge L) (k : Worker L) : List InferenceRequest :=
  k.queue.take (maxGenerating b - (k.slots.active.length + k.slots.prefilling.length))

/-- The worker with the requests that it took. -/
def take (b : Bridge L) (k : Worker L) : Worker L :=
  { k with phase := .admitted (k.taken b)
           queue :=
             k.queue.drop (maxGenerating b - (k.slots.active.length + k.slots.prefilling.length)) }

/-- The requests that an iteration puts back. -/
def putBack (b : Bridge L) (k : Worker L) : List InferenceRequest :=
  (prepareAll b (k.taken b) k.world).1.queued ++ (prepareAll b (k.taken b) k.world).1.deferred

/-- The worker when an iteration makes its fused step. -/
def prepared (b : Bridge L) (k : Worker L) : Worker L :=
  ((k.take b).prepare b (k.taken b)).deferToFront (k.putBack b)

/-- At the head of the loop nobody is present when the two slots and the queue are empty. -/
theorem present_eq_nil_iff (hphase : k.phase = .head) :
    k.present = [] ↔ k.slots.active = [] ∧ k.slots.prefilling = [] ∧ k.queue = [] := by
  simp [present, waiting_of_head hphase]

/-- Preparing the batch leads to the requeueing. -/
theorem prepared_phase (b : Bridge L) (k : Worker L) : (k.prepared b).phase = .requeued := rfl

/-- After the requeueing the fused step is the next one. -/
theorem step_fuse (hphase : k.phase = .requeued) (first second : ℤ) :
    k.step b (.fuse first second) = some (k.fuse b first second) := by
  simp [step, hphase]

/-- The load after a fused step is the work of the slots and the weight of those that wait. -/
theorem fuse_load (hphase : k.phase = .requeued) (first second : ℤ) :
    (k.fuse b first second).load b = (fusedStep b first second k.slots k.world).1.work +
      (k.waiting.map (InferenceRequest.weight b)).sum := by
  simp [load, fuse, waiting, hphase]

/-- A worker with something to do goes through an iteration. -/
theorem run_to_prepared (hphase : k.phase = .head) (hrunning : k.running = true)
    (hpresent : k.present ≠ []) :
    k.Run b [.check, .pop, .prepare, .requeue] (k.prepared b) := by
  rw [ne_eq, present_eq_nil_iff hphase] at hpresent
  obtain ⟨queue, phase, slots, world, running, arrivals⟩ := k
  simp only at hphase hrunning hpresent
  subst hphase hrunning
  have hbusy : ¬ (queue = [] ∧ slots.active = [] ∧ slots.prefilling = []) := by tauto
  simp [Run, run_cons, step, check, popQueue, hbusy, prepared, take, putBack, taken,
    prepare, deferToFront]

/-- Taking and preparing requests adds no load; with nothing in progress it prepares one or takes
load away. -/
theorem prepared_load (hfollows : k.Follows config order) (hroomy : config.Roomy)
    (hseqs : 2 ≤ b.nSeqMax) (hphase : k.phase = .head) (hpresent : k.present ≠ []) :
    (k.prepared b).load b ≤ k.load b ∧
      ((k.prepared b).slots.active = [] ∧ (k.prepared b).slots.prefilling = [] →
        (k.prepared b).load b < k.load b) := by
  have hload := prepareAll_load (b := b) (k.taken b) k.world
  have hqueue : ((k.taken b).map (InferenceRequest.weight b)).sum +
      (((k.take b).queue).map (InferenceRequest.weight b)).sum =
      (k.queue.map (InferenceRequest.weight b)).sum := by
    rw [← List.sum_append, ← List.map_append]
    exact congrArg (fun l => (List.map (InferenceRequest.weight b) l).sum)
      (List.take_append_drop _ _)
  have hafter : (k.prepared b).load b = k.slots.work + (prepareAll b (k.taken b) k.world).1.load b +
      (((k.take b).queue).map (InferenceRequest.weight b)).sum := by
    simp only [load, prepared, deferToFront, prepare, take, waiting, putBack, Slots.work,
      Batch.load, List.map_append, List.sum_append, List.append_nil]
    omega
  have hbefore : k.load b = k.slots.work + (k.queue.map (InferenceRequest.weight b)).sum := by
    rw [load, waiting_of_head hphase]
  refine ⟨by omega, fun hnone => ?_⟩
  obtain ⟨hactive, hprefilling⟩ := hnone
  replace hactive : k.slots.active = [] := hactive
  replace hprefilling : k.slots.prefilling ++ (prepareAll b (k.taken b) k.world).1.ctxs =
    [] := hprefilling
  obtain ⟨hprefilling, hctxs⟩ := List.append_eq_nil_iff.mp hprefilling
  have htracked := hfollows.tracked
  rw [Slots.tickets, hactive, hprefilling] at htracked
  have htaken : k.taken b ≠ [] := by
    have hwaits : k.queue ≠ [] :=
      fun hnil => hpresent ((present_eq_nil_iff hphase).mpr ⟨hactive, hprefilling, hnil⟩)
    rw [taken, hactive, hprefilling, ne_eq, List.take_eq_nil_iff, not_or]
    exact ⟨by simp only [maxGenerating, List.length_nil]; omega, hwaits⟩
  rcases prepareAll_quiet (b := b) htracked hroomy htaken with hsome | hless
  · exact absurd hctxs hsome
  · omega

/-- A fused step makes no work out of nothing. -/
theorem fusedStep_work_empty {slots : Slots L} (hempty : slots.active = [] ∧ slots.prefilling = [])
    (first second : ℤ) (w : World) : (fusedStep b first second slots w).1.work = 0 := by
  obtain ⟨hshrinks, _⟩ := fusedStep_shrinks (b := b) first second slots w
  rw [hempty.1, hempty.2] at hshrinks
  obtain ⟨hactive, hprefilling⟩ : (fusedStep b first second slots w).1.active = [] ∧
      (fusedStep b first second slots w).1.prefilling = [] := by simpa using hshrinks
  simp [Slots.work, hactive, hprefilling]

/-- An iteration of a worker with something to do leaves it less load. -/
theorem iteration_load (hbatch : 1 ≤ b.nBatch) (hroomy : config.Roomy) (hseqs : 2 ≤ b.nSeqMax)
    (h : k.Idles config order b) (hpresent : k.present ≠ []) (first second : ℤ) :
    ∃ k', k.Run b (iteration first second) k' ∧ k'.Idles config order b ∧ k'.load b < k.load b := by
  have hreached := run_to_prepared (b := b) h.head h.running hpresent
  have hfollows : (k.prepared b).Follows config order :=
    run_invariant (fun _ _ _ hk hstep => step_follows hk hstep) h.follows hreached
  have hbudgeted : (k.prepared b).slots.Budgeted b :=
    run_invariant (fun _ _ _ hk hstep => step_budgeted hk hstep) h.budgeted hreached
  obtain ⟨hprepared, hquiet⟩ := prepared_load h.follows hroomy hseqs h.head hpresent
  have hstep := step_fuse (b := b) (k.prepared_phase b) first second
  have hload := fuse_load (b := b) (k.prepared_phase b) first second
  refine ⟨_, run_snoc.mpr ⟨_, hreached, hstep⟩,
    ⟨rfl, h.running, step_follows hfollows hstep, step_budgeted hbudgeted hstep⟩, ?_⟩
  have hbefore : (k.prepared b).load b = (k.prepared b).slots.work +
    ((k.prepared b).waiting.map (InferenceRequest.weight b)).sum := rfl
  generalize k.prepared b = k₁ at hfollows hbudgeted hprepared hquiet hload hbefore ⊢
  by_cases hempty : k₁.slots.active = [] ∧ k₁.slots.prefilling = []
  · have hless := hquiet hempty
    have hnothing := fusedStep_work_empty (b := b) hempty first second k₁.world
    have hsome := hbudgeted.length_le_work
    omega
  · have hworks := fusedStep_work first second hbatch hbudgeted hfollows.fit hfollows.tracked hempty
    omega

/-- A worker with something to do has load. -/
theorem Idles.load_pos (h : k.Idles config order b) (hpresent : k.present ≠ []) : 0 < k.load b := by
  have hwork := h.budgeted.length_le_work
  have hqueue := List.card_nsmul_le_sum (k.queue.map (InferenceRequest.weight b)) 1 fun x hx => by
    obtain ⟨req, _, rfl⟩ := List.mem_map.mp hx
    exact req.one_le_weight
  simp only [List.length_map, nsmul_eq_mul, mul_one] at hqueue
  rw [ne_eq, present_eq_nil_iff h.head, ← List.length_eq_zero_iff, ← List.length_eq_zero_iff,
    ← List.length_eq_zero_iff]
    at hpresent
  rw [load, waiting_of_head h.head]
  omega

/-- As many iterations as there is load leave nothing. -/
theorem Idles.drains (hbatch : 1 ≤ b.nBatch) (hroomy : config.Roomy) (hseqs : 2 ≤ b.nSeqMax)
    (h : k.Idles config order b) (statuses : List (ℤ × ℤ)) (henough : k.load b ≤ statuses.length) :
    ∃ served k', served <+: statuses ∧ k.Run b (served.flatMap fun s => iteration s.1 s.2) k' ∧
      k'.Idles config order b ∧ k'.present = [] :=
  have hleft (k : Worker L) (hk : k.Idles config order b) (hpresent : k.present ≠ []) :
      0 < k.load b := hk.load_pos hpresent
  run_rounds (fun _ s hk hpresent => iteration_load hbatch hroomy hseqs hk hpresent s.1 s.2)
    hleft statuses h henough

/-- Iterations of the loop enqueue nobody. -/
theorem iterations_flatMap_arrivals {served : List (ℤ × ℤ)}
    (hrun : k.Run b (served.flatMap fun s => iteration s.1 s.2) k') :
    k'.arrivals = k.arrivals := by
  have hwithin : RunsWithin (step b) (fun _ action => ∀ req, action ≠ .enqueue req) k
      (served.flatMap fun s => iteration s.1 s.2) := by
    intro before action after heq _ _
    obtain ⟨s, _, hmem⟩ := List.mem_flatMap.mp
      (heq.symm ▸ List.mem_append_right before List.mem_cons_self)
    intro req hreq
    simp [hreq, iteration] at hmem
  exact run_invariant_within (P := fun k₁ => k₁.arrivals = k.arrivals)
    (fun _ _ _ h hquiet hstep => (step_arrivals hquiet hstep).trans h) rfl hwithin hrun

/-- The departures of a run that is not stopped. -/
theorem admits_of_running {fails : Prop} {action : Action} (hrunning : k.running = true)
    (hfails : ∀ first second, action = .fuse first second → first ≠ 0 → fails) :
    k.Admits b (fun closing _ => closing ≠ .silent ∧ (closing = .failed → fails)) action := by
  cases action with
  | fuse first second =>
    refine ⟨fun hne => ⟨Closing.noConfusion, fun _ => hfails first second rfl hne⟩,
      fun _ seq _ _ => ?_⟩
    exact ⟨fun _ => ⟨Closing.noConfusion, Closing.noConfusion⟩,
      fun _ => ⟨Closing.noConfusion, Closing.noConfusion⟩,
      fun _ _ => ⟨Closing.noConfusion, Closing.noConfusion⟩⟩
  | enqueue req => exact fun _ => ⟨Closing.noConfusion, Closing.noConfusion⟩
  | check => exact fun hstopped => absurd (hrunning.symm.trans hstopped) Bool.noConfusion
  | pop => exact fun hstopped => absurd (hrunning.symm.trans hstopped) Bool.noConfusion
  | stop | prepare | requeue => exact trivial

/-- In a run that is not stopped a request that left failed only if a decode failed, and was
cancelled only if its predicate turned true. -/
theorem run_departed {actions : List Action} (hstop : Action.stop ∉ actions)
    (hrun : (Worker.init config order : Worker L).Run b actions k) (hpresent : k.present = [])
    {id : ℕ} (hid : id < k.arrivals.length) : ∃ closing tail, closing ≠ .silent ∧
      (closing = .failed → ∃ first second, first ≠ 0 ∧ Action.fuse first second ∈ actions) ∧
      (closing = .cancelled → k.arrivals[id].cancelAfter ≠ none) ∧
      Departed (b.generate k.arrivals[id]) closing tail (k.world.eventsOf id) := by
  have hserves := run_serves
    (fun closing _ => closing ≠ .silent ∧
      (closing = .failed → ∃ first second, first ≠ 0 ∧ Action.fuse first second ∈ actions))
    ⟨⟨Closing.noConfusion, Closing.noConfusion⟩, Closing.noConfusion, Closing.noConfusion⟩
    (fun before a after heq s hs => admits_of_running
      (run_running (fun hmem => hstop (by rw [heq]; exact List.mem_append_left _ hmem)) hs)
      fun first second ha hne =>
        ⟨first, second, hne, by rw [heq, ha]; exact List.mem_append_right _ List.mem_cons_self⟩)
          hrun
  obtain ⟨closing, tail, ⟨hsilent, hfailed⟩, hdeparted⟩ :=
    hserves.departed hid (hpresent ▸ List.not_mem_nil)
  have hgenerated : (contract b (fun closing _ => closing ≠ .silent ∧
      (closing = .failed → ∃ first second, first ≠ 0 ∧ Action.fuse first second ∈ actions))
        k.arrivals).generated id =
        b.generate k.arrivals[id] := by
    simp [contract, List.getElem?_eq_getElem hid]
  rw [hgenerated] at hdeparted
  refine ⟨closing, tail, hsilent, hfailed, ?_, hdeparted⟩
  rintro rfl
  -- the request was told so, which is true
  have htold : Event.onCancel ∈ k.world.eventsOf id := by
    generalize k.world.eventsOf id = es at hdeparted ⊢
    cases hdeparted with
    | closed before e after _ hcloses _ =>
      cases hcloses
      exact List.mem_append_right _ List.mem_cons_self
  obtain ⟨a, ha, hcancels⟩ := (run_truthful hrun).told id _ htold
  rw [List.getElem?_eq_getElem hid] at ha
  cases ha
  exact hcancels

end Worker

/-- In every run that is not stopped, from the head of the loop on, as many iterations without
arrivals as the worker has load leave it nothing to do, whatever their decodes return. Each request
that arrived has departed then: it failed only if a decode failed, it was cancelled only if its
predicate turned true, and otherwise it was told its end after all that it generates when it runs
alone. -/
theorem every_request_served (b : Bridge L) (hbatch : 1 ≤ b.nBatch) (hseqs : 2 ≤ b.nSeqMax)
    (config : Config) (hroomy : config.Roomy) (order : ChildOrder) (actions : List Action)
    (hstop : Action.stop ∉ actions) (k : Worker L)
    (hrun : (Worker.init config order : Worker L).Run b actions k) (hhead : k.phase = .head)
    (statuses : List (ℤ × ℤ)) (henough : k.load b ≤ statuses.length) :
    ∃ served k', served <+: statuses ∧
      k.Run b (served.flatMap fun s => Worker.iteration s.1 s.2) k' ∧
      k'.present = [] ∧ k'.arrivals = k.arrivals ∧
      ∀ (id : ℕ) (hid : id < k.arrivals.length), ∃ closing tail, closing ≠ .silent ∧
        (closing = .failed → ∃ first second, first ≠ 0 ∧
          (Action.fuse first second ∈ actions ∨ (first, second) ∈ served)) ∧
        (closing = .cancelled → k.arrivals[id].cancelAfter ≠ none) ∧
        Departed (b.generate k.arrivals[id]) closing tail (k'.world.eventsOf id) := by
  have hidles : k.Idles config order b :=
    ⟨hhead, Worker.run_running hstop hrun, Worker.run_follows hrun, Worker.run_budgeted hrun⟩
  obtain ⟨served, k', hprefix, hserved, _, hpresent⟩ :=
    hidles.drains hbatch hroomy hseqs statuses henough
  have harrivals := Worker.iterations_flatMap_arrivals hserved
  refine ⟨served, k', hprefix, hserved, hpresent, harrivals, fun id hid => ?_⟩
  have htotal : (Worker.init config order : Worker L).Run b
      (actions ++ served.flatMap fun s => Worker.iteration s.1 s.2) k' := by
    rw [Worker.Run, run_append, hrun]
    exact hserved
  have hnever : Action.stop ∉ actions ++ served.flatMap fun s => Worker.iteration s.1 s.2 := by
    rw [List.mem_append, not_or]
    exact ⟨hstop, by simp [Worker.iteration]⟩
  have hid' : id < k'.arrivals.length := harrivals ▸ hid
  obtain ⟨closing, tail, hsilent, hfailed, hcancelled, hdeparted⟩ :=
    Worker.run_departed hnever htotal hpresent hid'
  simp only [harrivals] at hcancelled hdeparted
  refine ⟨closing, tail, hsilent, fun hclosing => ?_, hcancelled, hdeparted⟩
  obtain ⟨first, second, hne, hmem⟩ := hfailed hclosing
  refine ⟨first, second, hne, ?_⟩
  rcases List.mem_append.mp hmem with hmem | hmem
  · exact Or.inl hmem
  · obtain ⟨s, hs, hmem⟩ := List.mem_flatMap.mp hmem
    refine Or.inr ?_
    have heq : first = s.1 ∧ second = s.2 := by simpa [Worker.iteration] using hmem
    rw [heq.1, heq.2]
    exact hs

/-- Two requests for the same prompt, of which the second one waits for the first. -/
theorem every_request_served_two : ∃ k k' : Worker Unit,
    (Worker.init ⟨3, 64, true⟩ .stored).Run (Bridge.counting (fun _ => [5, 6]) 2)
      [.enqueue { maxTokens := 2 }, .enqueue { maxTokens := 2 }] k ∧ k.arrivals.length = 2 ∧
        k'.present = [] ∧
      ∀ (id : ℕ) (hid : id < k.arrivals.length), ∃ closing tail, closing ≠ .silent ∧
        Departed (Bridge.generate (Bridge.counting (fun _ => [5, 6]) 2) k.arrivals[id]) closing tail
          (k'.world.eventsOf id) := by
  have hrun : (run (Worker.step (Bridge.counting (fun _ => [5, 6]) 2))
      (Worker.init ⟨3, 64, true⟩ .stored)
      [.enqueue { maxTokens := 2 }, .enqueue { maxTokens := 2 }]).any
        (fun k => k.arrivals.length = 2 ∧
        k.load (Bridge.counting (fun _ => [5, 6]) 2) ≤ 8) = true := by decide +kernel
  obtain ⟨k, hk, hcond⟩ := (Option.any_eq_true _ _).mp hrun
  obtain ⟨harrivals, hload⟩ := of_decide_eq_true hcond
  have hhead : k.phase = .head := by
    cases hk
    rfl
  obtain ⟨_, k', _, _, hpresent, _, hdeparted⟩ :=
    every_request_served _ (by decide) (by decide) _ (by decide) _ _
    (by simp) k hk hhead (List.replicate 8 (0, 0)) (by simpa using hload)
  refine ⟨k, k', hk, harrivals, hpresent, fun id hid => ?_⟩
  obtain ⟨closing, tail, hsilent, _, _, hends⟩ := hdeparted id hid
  exact ⟨closing, tail, hsilent, hends⟩

/-- With a single sequence, which a first request left at the end of its prompt, a second one for
that prompt is put back by every iteration. -/
theorem repeated_prompt_starves :
    ¬ ∀ (L : Type) (b : Bridge L) (config : Config) (order : ChildOrder)
    (actions : List Action) (k : Worker L), 1 ≤ b.nBatch → 2 ≤ b.nSeqMax → 2 ≤ config.maxSequences →
      Action.stop ∉ actions →
    (Worker.init config order : Worker L).Run b actions k → k.phase = .head →
    ∀ statuses : List (ℤ × ℤ),
      k.load b ≤ statuses.length → ∃ served k', served <+: statuses ∧
        k.Run b (served.flatMap fun s => Worker.iteration s.1 s.2) k' ∧ k'.present = [] := by
  intro hall
  have hrun : (run (Worker.step (Bridge.counting (fun _ => [5, 6]) 9))
      (Worker.init ⟨2, 64, true⟩ .stored)
      [.enqueue { maxTokens := 1 }, .enqueue { maxTokens := 1 }]).any (fun k =>
        k.load (Bridge.counting (fun _ => [5, 6]) 9) ≤ 6 ∧ ∀ n ∈ List.range 7,
          (run (Worker.step (Bridge.counting (fun _ => [5, 6]) 9)) k
            ((List.replicate n (0, 0)).flatMap fun s => Worker.iteration s.1 s.2)).any
              (fun k' => k'.present = []) = false) =
      true := by decide +kernel
  obtain ⟨k, hk, hcond⟩ := (Option.any_eq_true _ _).mp hrun
  obtain ⟨hload, hstuck⟩ := of_decide_eq_true hcond
  have hhead : k.phase = .head := by
    cases hk
    rfl
  obtain ⟨served, k', hprefix, hserved, hpresent⟩ :=
    hall _ _ _ _ _ k (by decide) (by decide) (by decide) (by simp) hk hhead
    (List.replicate 6 (0, 0)) (by simpa using hload)
  obtain ⟨hlength, hserves⟩ := List.prefix_replicate_iff.mp hprefix
  have hnever := hstuck served.length (List.mem_range.mpr (by omega))
  rw [← hserves, Option.mem_def.mp hserved] at hnever
  simp [hpresent] at hnever

end RadixForge
