import RadixForge.Session.CellCounts
import RadixForge.Worker.Limits
import RadixForge.Worker.Owners
import RadixForge.Worker.Progress

/-!
# Requests that run alone

A request that runs alone on a fresh worker, is not cancelled, and whose decodes succeed receives
all that it generates. In any other run it receives a prefix of that, and the same if it completes:
neither the cache nor the other requests can be seen in what is delivered.
-/

namespace RadixForge

open Library

variable {L : Type} {b : Bridge L} {config : Config} {order : ChildOrder}

namespace Worker

variable {k k' : Worker L}

/-- Iterations whose decodes succeed. -/
def iterations (n : ℕ) : List Action := (List.replicate n (iteration 0 0)).flatten

/-- A request arrives, is never cancelled, and gets so many iterations. -/
def alone (req : InferenceRequest) (n : ℕ) : List Action :=
  .enqueue { req with cancelAfter := none } :: iterations n

/-- A step in which nothing is cancelled and nothing fails. -/
def Smooth : Action → Prop
  | .enqueue req => req.cancelAfter = none
  | .stop => False
  | .fuse first _ => first = 0
  | _ => True

/-- The ends of a request that is not disturbed. -/
def ended (closing : Closing) (_ : Tail) : Prop := closing = .completed ∨ closing = .rejected

/-- The iterations of a run, one by one. -/
theorem iterations_succ (n : ℕ) : iterations (n + 1) = iteration 0 0 ++ iterations n := by
  rw [iterations, List.replicate_succ, List.flatten_cons]
  rfl

/-- An iteration decodes smoothly and enqueues nobody. -/
theorem smooth_of_mem_iterations {n : ℕ} {action : Action} (h : action ∈ iterations n) :
    Smooth action ∧ ∀ req, action ≠ .enqueue req := by
  obtain ⟨actions, hactions, hmem⟩ := List.mem_flatten.mp h
  rw [List.eq_of_mem_replicate hactions, iteration] at hmem
  simp only [List.mem_cons, List.not_mem_nil, or_false] at hmem
  rcases hmem with rfl | rfl | rfl | rfl | rfl
  all_goals exact ⟨by simp [Smooth], fun _ => Action.noConfusion⟩

/-- An undisturbed step leads to an undisturbed end. -/
theorem admits_of_smooth {action : Action} (h : k.Serves b ended) (hrunning : k.running = true)
    (hsmooth : Smooth action) :
    k.Admits b ended action := by
  cases action with
  | enqueue req => exact fun hne => absurd hsmooth hne
  | stop => trivial
  | check => exact fun hstopped => absurd (hrunning.symm.trans hstopped) Bool.noConfusion
  | pop => exact fun hstopped => absurd (hrunning.symm.trans hstopped) Bool.noConfusion
  | prepare => trivial
  | requeue => trivial
  | fuse first second =>
    refine ⟨fun hne => absurd hsmooth hne, fun _ seq hseq _ => ?_⟩
    have hmem : seq.record b (contract b ended k.arrivals) ∈ k.slots.records b
        (contract b ended k.arrivals) ++
        k.waiting.map (InferenceRequest.record b (contract b ended k.arrivals)) :=
      List.mem_append_left _ (List.mem_append_left _ (List.mem_map_of_mem hseq))
    have hserves : seq.Serves b (contract b ended k.arrivals) (k.world.eventsOf seq.req.id) :=
      (World.Ledger.known h _ hmem).2
    have hnever : seq.polled.req.cancelAfter = none := by
      by_contra hne
      have hcancelled := hserves.toOpen.cancellable (InferenceRequest.polled_cancelAfter_none hne)
      rcases hcancelled with heq | heq <;> cases heq
    refine ⟨fun hlate => ?_, fun _ => Or.inl rfl, fun _ _ => Or.inl rfl⟩
    rw [hnever] at hlate
    simp at hlate

/-- In an undisturbed run every request that left has completed or was rejected. -/
theorem run_smooth {actions : List Action} (hsmooth : ∀ action ∈ actions, Smooth action)
    (hrun : (Worker.init config order : Worker L).Run b actions k) : k.Serves b ended := by
  have hall : k.Follows config order ∧ k.Serves b ended ∧ k.running = true := by
    have hwithin : RunsWithin (step b) (fun _ action => Smooth action)
        (Worker.init config order : Worker L) actions := by
      rintro before action after rfl _ _
      exact hsmooth action (List.mem_append_right _ List.mem_cons_self)
    refine run_invariant_within (P := fun k => k.Follows config order ∧
      k.Serves b ended ∧ k.running = true)
      (fun k₁ action k₂ h hallowed hstep => ?_)
        ⟨init_follows config order, init_serves config order, rfl⟩ hwithin hrun
    obtain ⟨hfollows, hserves, hrunning⟩ := h
    refine ⟨step_follows hfollows hstep, step_serves ⟨Or.inl rfl, Or.inr rfl⟩ hfollows
      (admits_of_smooth hserves hrunning hallowed) hserves hstep, ?_⟩
    have hstop : action ≠ .stop := by
      rintro rfl
      exact hallowed
    rw [step_running hstop hstep]
    exact hrunning
  exact hall.2.1

/-- Only an arrival changes the arrivals. -/
theorem step_arrivals {action : Action} (hquiet : ∀ req, action ≠ .enqueue req)
    (hstep : k.step b action = some k') :
    k'.arrivals = k.arrivals := by
  cases step_moves hstep with
  | enqueue req => exact absurd rfl (hquiet req)
  | stop | enter | leave | leaveEmpty | pop | prepare | requeue | fuse => rfl

/-- Iterations of the loop enqueue nobody. -/
theorem iterations_arrivals {n : ℕ} (hrun : k.Run b (iterations n) k') :
    k'.arrivals = k.arrivals := by
  have hwithin : RunsWithin (step b) (fun _ action => ∀ req, action ≠ .enqueue req) k
      (iterations n) := by
    intro before action after heq _ _
    exact (smooth_of_mem_iterations (heq.symm ▸ List.mem_append_right _ List.mem_cons_self)).2
  exact run_invariant_within (P := fun k₁ => k₁.arrivals = k.arrivals)
    (fun _ _ _ h hquiet hstep => (step_arrivals hquiet hstep).trans h) rfl hwithin hrun

/-- An iteration with an empty queue is a fused step. -/
theorem run_iteration (hphase : k.phase = .head) (hrunning : k.running = true)
    (hqueue : k.queue = []) (hne : ¬ (k.slots.active = [] ∧ k.slots.prefilling = []))
    (first second : ℤ) :
    k.Run b (iteration first second) (k.fuse b first second) := by
  obtain ⟨queue, phase, slots, world, running, arrivals⟩ := k
  simp only at hphase hrunning hqueue hne
  subst hphase hrunning hqueue
  have hnotexit : ¬ (slots.active = [] ∧ slots.prefilling = []) := hne
  simp [Run, iteration, run_cons, step, check, popQueue, hnotexit, prepare, prepareAll,
    deferToFront, fuse]

/-- Iterations without other requests end with empty lists. -/
theorem iterations_finish (hbatch : 1 ≤ b.nBatch) {actions : List Action}
    (hrun : (Worker.init config order : Worker L).Run b actions k) (hphase : k.phase = .head)
    (hrunning : k.running = true) (hqueue : k.queue = []) :
    ∃ n k', k.Run b (iterations n) k' ∧ k'.present = [] := by
  generalize hwork : k.slots.work.toNat = work
  induction work using Nat.strong_induction_on generalizing k actions with
  | _ work ih =>
    by_cases hempty : k.slots.active = [] ∧ k.slots.prefilling = []
    · exact ⟨0, k, rfl, by simp [present, hempty.1, hempty.2, waiting, hqueue, hphase]⟩
    · obtain ⟨htracked, hfit⟩ := run_follows hrun
      have hbudgets := run_budgeted hrun
      have hless := fusedStep_work 0 0 hbatch hbudgets hfit htracked hempty
      have honce := run_iteration (b := b) hphase hrunning hqueue hempty 0 0
      have hreached : (Worker.init config order : Worker L).Run b (actions ++ iteration 0 0)
          (k.fuse b 0 0) := by
        rw [Run, run_append, hrun]
        exact honce
      have hshrinks : (k.fuse b 0 0).slots.work.toNat < work := by
        rw [← hwork, Int.toNat_lt_toNat (hbudgets.work_pos hempty)]
        exact hless
      obtain ⟨n, k', hrest, hdone⟩ := ih _ hshrinks hreached rfl hrunning hqueue rfl
      refine ⟨n + 1, k', ?_, hdone⟩
      rw [iterations_succ, Run, run_append, honce]
      exact hrest

end Worker

section Alone

variable {w : World}

/-- Without another request nothing is pending. -/
theorem World.Tracked.goes (h : w.Tracked config order []) (tokens : List Token) :
    mustWait w tokens = false := by
  have htracked : w.Tracked config order
      (([] : List PrefillCtx).map PrefillCtx.ticket ++ ({} : Slots Unit).tickets) := h
  have howned : w.PendingOwned [] :=
    htracked.pendingOwned fun ctx hctx => absurd hctx List.not_mem_nil
  obtain ⟨s, hfollows, _⟩ := h
  obtain ⟨path, _, hbooks⟩ := hfollows.sound
  have hshape := hbooks.placement.shape
  rw [hfollows.mapper] at hshape
  by_contra hwait
  obtain ⟨ctx, hctx, _⟩ := howned.delays hshape (fun ctx hctx => absurd hctx List.not_mem_nil)
    (Bool.not_eq_false _ ▸ hwait)
  exact absurd hctx List.not_mem_nil

/-- The first request on a fresh worker is prepared or rejected. -/
theorem prepareAll_alone (hmax : 2 ≤ config.maxSequences) (req : InferenceRequest)
    (hnever : req.cancelAfter = none) :
    (prepareAll b [req] (World.init config order)).1.queued ++
      (prepareAll b [req] (World.init config order)).1.deferred = [] := by
  have htracked : (World.init config order).Tracked config order [] :=
    (Worker.init_follows (L := L) config order).tracked
  have hpolled := htracked.isCancelled req
  have hanswer := isCancelled_answer req (World.init config order)
  have hmapper := isCancelled_mapper req (World.init config order)
  rw [hnever] at hanswer
  unfold prepareAll
  generalize isCancelled req (World.init config order) = polled at hpolled hanswer hmapper ⊢
  obtain ⟨cancelled, req', w₁⟩ := polled
  simp only [reduceCtorEq, decide_false] at hpolled hanswer hmapper ⊢
  subst hanswer
  have hpool : w₁.mapper.freeSeqIds ≠ [] := by
    rw [hmapper]
    intro hnil
    have hlength := congrArg List.length hnil
    simp only [World.init, KVMapper.init, List.length_range', List.length_nil] at hlength
    omega
  obtain ⟨prep, hprep⟩ := KVMapper.prepare_of_pool hpool (b.promptTokens req')
  have hgoes := hpolled.goes (b.promptTokens req')
  have hone : (∃ w', prepareOne b req' w₁ = (.rejected, w')) ∨
      ∃ ctx w', prepareOne b req' w₁ = (.prepared ctx, w') := by
    simp only [prepareOne, hgoes, World.prepareSequence, hprep, Bool.false_eq_true, if_false]
    by_cases hshort : b.available req' ≤ 0
    · rw [if_pos hshort]
      exact Or.inl ⟨_, rfl⟩
    · rw [if_neg hshort]
      by_cases hdelta : prep.delta = []
      · rw [if_pos hdelta]
        exact Or.inl ⟨_, rfl⟩
      · rw [if_neg hdelta]
        exact Or.inr ⟨_, _, rfl⟩
  rcases hone with ⟨w', hone⟩ | ⟨ctx, w', hone⟩
  · simp [hone, prepareAll]
  · simp [hone, prepareAll]

end Alone

namespace Worker

variable {k k' : Worker L}

/-- The first iteration of a lone request leaves an empty queue. -/
theorem first_iteration (hmax : 2 ≤ config.maxSequences) (hseqs : 2 ≤ b.nSeqMax)
    (req : InferenceRequest) (hnever : req.cancelAfter = none) :
    ∃ k₁, (Worker.init config order : Worker L).Run b (.enqueue req :: iteration 0 0) k₁ ∧
      k₁.phase = .head ∧ k₁.running = true ∧ k₁.queue = [] := by
  have hput : (prepareAll b [{ req with id := 0, onCancel := true }]
      (World.init config order)).1.queued ++
      (prepareAll b [{ req with id := 0, onCancel := true }] (World.init config order)).1.deferred =
        [] :=
    prepareAll_alone hmax { req with id := 0, onCancel := true } hnever
  obtain ⟨room, hroom⟩ : ∃ room, maxGenerating b = room + 1 :=
    ⟨b.nSeqMax - 2, by unfold maxGenerating; omega⟩
  -- the request is taken from the queue and does not come back
  refine ⟨(({ (Worker.init config order : Worker L) with
      phase := .admitted [{ req with id := 0, onCancel := true }]
      arrivals := [{ req with id := 0, onCancel := true }] }.prepare b
        [{ req with id := 0, onCancel := true }]).deferToFront
        []).fuse b 0 0, ?_, rfl, rfl, rfl⟩
  simp only [Run, iteration, run_cons, step, init, check, popQueue, Option.bind_some,
    List.length_nil, List.nil_append, if_true, List.cons_ne_nil, false_and, if_false, Nat.add_zero,
    Nat.sub_zero, hroom, List.take_succ_cons, List.take_nil, List.drop_succ_cons, List.drop_nil,
    prepare, hput, run_nil]
  rfl

/-- The request ran alone on a fresh worker until it left. -/
structure RanAlone (b : Bridge L) (config : Config) (order : ChildOrder) (req : InferenceRequest)
    (k : Worker L) : Prop where
  run : ∃ n, (Worker.init config order : Worker L).Run b (alone req n) k
  finished : k.present = []

/-- Every request can run alone until it left. -/
theorem exists_ranAlone (hbatch : 1 ≤ b.nBatch) (hmax : 2 ≤ config.maxSequences)
    (hseqs : 2 ≤ b.nSeqMax) (req : InferenceRequest) : ∃ k, RanAlone b config order req k := by
  obtain ⟨k₁, hfirst, hphase, hrunning, hqueue⟩ : ∃ k₁, (Worker.init config order : Worker L).Run b
      (.enqueue { req with cancelAfter := none } :: iteration 0 0) k₁ ∧
        k₁.phase = .head ∧ k₁.running = true ∧ k₁.queue = [] :=
    first_iteration hmax hseqs { req with cancelAfter := none } rfl
  obtain ⟨n, k, hrest, hdone⟩ := iterations_finish hbatch hfirst hphase hrunning hqueue
  refine ⟨k, ⟨n + 1, ?_⟩, hdone⟩
  rw [alone, iterations_succ, ← List.cons_append, Run, run_append, hfirst]
  exact hrest

/-- A request that ran alone has received all that it generates. -/
theorem RanAlone.delivered {req : InferenceRequest} (h : RanAlone b config order req k) :
    delivered (k.world.eventsOf 0) = b.generate req := by
  obtain ⟨⟨n, hrun⟩, hdone⟩ := h
  have hserves : k.Serves b ended := by
    refine run_smooth (fun action haction => ?_) hrun
    rcases List.mem_cons.mp haction with rfl | haction
    · exact rfl
    · exact (smooth_of_mem_iterations haction).1
  have harrivals : k.arrivals = [{ req with id := 0, cancelAfter := none, onCancel := true }] := by
    obtain ⟨k₁, hstep, hrest⟩ := Option.bind_eq_some_iff.mp hrun
    rw [iterations_arrivals hrest]
    cases hstep
    rfl
  have harrived : 0 < k.arrivals.length := by rw [harrivals]; exact Nat.zero_lt_one
  obtain ⟨closing, tail, hended, hdeparted⟩ := hserves.departed harrived
    (by rw [hdone]; exact List.not_mem_nil)
  rw [hdeparted.delivered_eq hended, harrivals]
  rfl

end Worker

/-- In every run every request receives a prefix of what it receives when it runs alone on a fresh
worker, and the same if it completes. -/
theorem cache_transparent (b : Bridge L) (hbatch : 1 ≤ b.nBatch) (config : Config)
    (hmax : 2 ≤ config.maxSequences) (hseqs : b.nSeqMax = config.maxSequences) (order : ChildOrder)
    (actions : List Action) (k : Worker L)
    (hrun : (Worker.init config order : Worker L).Run b actions k) (id : ℕ)
    (hid : id < k.arrivals.length) :
    (∃ k', Worker.RanAlone b config order k.arrivals[id] k') ∧
      ∀ k', Worker.RanAlone b config order k.arrivals[id] k' →
        delivered (k.world.eventsOf id) <+: delivered (k'.world.eventsOf 0) ∧
          ((∃ e ∈ k.world.eventsOf id, e.isLast = true) →
            delivered (k.world.eventsOf id) = delivered (k'.world.eventsOf 0)) := by
  refine ⟨Worker.exists_ranAlone hbatch hmax (hseqs ▸ hmax) _, fun k' halone => ?_⟩
  rw [halone.delivered]
  exact (Worker.run_serves_all hrun).generated hid

/-- Two requests, of which the second one continues the prompt of the first. -/
theorem cache_transparent_two : ∃ k k' : Worker Unit, ∃ hid : 1 < k.arrivals.length,
    (Worker.init ⟨4, 64, true⟩ .stored).Run
      (Bridge.counting (fun text => if text = "" then [5, 6] else [5, 6, 7]) 3)
      (.enqueue {} :: Worker.iteration 0 0 ++ .enqueue { prompt := "a" } ::
        Worker.iteration 0 0) k ∧
      Worker.RanAlone (Bridge.counting (fun text => if text = "" then [5, 6] else [5, 6, 7]) 3)
        ⟨4, 64, true⟩ .stored
        (k.arrivals.get ⟨1, hid⟩) k' ∧
      delivered (k.world.eventsOf 1) = [1] ∧
      delivered (k.world.eventsOf 1) <+: delivered (k'.world.eventsOf 0) := by
  have hrun :
      (run (Worker.step (Bridge.counting (fun text => if text = "" then [5, 6] else [5, 6, 7]) 3))
      (Worker.init ⟨4, 64, true⟩ .stored)
      (.enqueue {} :: Worker.iteration 0 0 ++ .enqueue { prompt := "a" } ::
        Worker.iteration 0 0)).any (fun k =>
        k.arrivals.length = 2 ∧ delivered (k.world.eventsOf 1) = [1]) = true := by decide +kernel
  obtain ⟨k, hk, hcond⟩ := (Option.any_eq_true _ _).mp hrun
  obtain ⟨hlength, hgiven⟩ := of_decide_eq_true hcond
  have hid : 1 < k.arrivals.length := hlength ▸ Nat.one_lt_two
  obtain ⟨⟨k', halone⟩, hall⟩ :=
    cache_transparent _ (by decide) ⟨4, 64, true⟩ (by decide) rfl .stored _ k hk 1 hid
  exact ⟨k, k', hid, hk, halone, hgiven, (hall k' halone).1⟩

end RadixForge
