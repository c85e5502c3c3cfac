import Mathlib.Algebra.Group.Action.Defs
import RadixForge.Library.Speculation
import RadixForge.Study.Drafting

/-!
# Replayed requests

`simulate_request` of `scripts/spec_study/simulate.py` replays a request whose output is known. What
it counts is what speculative decoding with its drafts does, under any model that chose this output.
-/

namespace RadixForge.SpecStudy

open Library

/-- The local variables of `simulate_request`. -/
structure Simulation where
  generated : List Token := []
  steps : ℕ := 0
  drafted : ℕ := 0
  accepted : ℕ := 0
  stepsWithDraft : ℕ := 0
  draftLengths : List ℕ := []
  lastAccepted : ℕ := 0

section Simulate

variable (record : Record) (prior : List Record) (mode : Mode) (m k : ℕ) (adaptive : Bool)

/-- The loop over the proposed tokens and those of the target. -/
def exactTokens : List (Token × Token) → ℕ
  | [] => 0
  | (proposedToken, targetToken) :: rest =>
    if proposedToken ≠ targetToken then 0 else exactTokens rest + 1

/-- The body of the loop of `simulate_request`. -/
def simulateStep (sim : Simulation) : Simulation :=
  let proposed := proposedDraft record prior mode m k adaptive sim.generated sim.lastAccepted
  let rest := record.outputTokens.drop sim.generated.length
  let exact := exactTokens (proposed.zip rest)
  { generated := sim.generated ++ rest.take (exact + 1)
    steps := sim.steps + 1
    drafted := if proposed ≠ [] then sim.drafted + proposed.length else sim.drafted
    accepted := sim.accepted + exact
    stepsWithDraft := if proposed ≠ [] then sim.stepsWithDraft + 1 else sim.stepsWithDraft
    draftLengths := sim.draftLengths ++ [proposed.length]
    lastAccepted := exact }

/-- The loop of `simulate_request`. -/
def simulateLoop : ℕ → Simulation → Simulation
  | 0, sim => sim
  | rounds + 1, sim =>
    if sim.generated.length < record.outputTokens.length then
      simulateLoop rounds (simulateStep record prior mode m k adaptive sim)
    else sim

/-- `simulate_request`. Each round takes a token of the output. -/
def simulateRequest : Simulation :=
  simulateLoop record prior mode m k adaptive (record.outputTokens.length + 1) {}

end Simulate

/-- What a simulation counts of the passes that it goes through. -/
structure Counts (sim final : Simulation) (passes : List (List Token × ℕ)) : Prop where
  steps : final.steps = sim.steps + passes.length
  drafted : final.drafted = sim.drafted + (passes.map fun pass => pass.1.length).sum
  accepted : final.accepted = sim.accepted + (passes.map Prod.snd).sum
  stepsWithDraft : final.stepsWithDraft = sim.stepsWithDraft + passes.countP fun pass => pass.1 ≠ []
  draftLengths : final.draftLengths = sim.draftLengths ++ passes.map fun pass => pass.1.length

/-- The loop finds where the tokens agree. -/
theorem exactTokens_zip (proposed target : List Token) :
    exactTokens (proposed.zip target) = agreement proposed target := by
  induction proposed generalizing target with
  | nil => rw [agreement_nil_left]; rfl
  | cons a proposed ih =>
    cases target with
    | nil => rfl
    | cons b target => rw [List.zip_cons_cons, exactTokens, agreement_cons, ih, ite_not]

/-- Nothing is counted without a pass. -/
theorem Counts.nil (sim : Simulation) : Counts sim sim [] :=
  ⟨rfl, rfl, rfl, rfl, (List.append_nil _).symm⟩

/-- Some passes are counted, and then others. -/
theorem Counts.append {sim next final : Simulation} {passes passes' : List (List Token × ℕ)}
    (h : Counts sim next passes) (h' : Counts next final passes') :
    Counts sim final (passes ++ passes') := by
  constructor
  · rw [h'.steps, h.steps, List.length_append, Nat.add_assoc]
  · rw [h'.drafted, h.drafted, List.map_append, List.sum_append, Nat.add_assoc]
  · rw [h'.accepted, h.accepted, List.map_append, List.sum_append, Nat.add_assoc]
  · rw [h'.stepsWithDraft, h.stepsWithDraft, List.countP_append, Nat.add_assoc]
  · rw [h'.draftLengths, h.draftLengths, List.map_append, List.append_assoc]

section Passes

variable {record : Record} (prior : List Record) (mode : Mode) (m k : ℕ) (adaptive : Bool)
  {model : List Token → Token}

/-- A round of the simulation is a pass of the model over the draft. -/
theorem simulateStep_eq
    (hmodel : record.outputTokens = greedy model record.promptTokens record.outputTokens.length)
    {sim : Simulation}
    (hgenerated : sim.generated = greedy model record.promptTokens sim.generated.length)
    (hlt : sim.generated.length < record.outputTokens.length) {draft : List Token}
    (hdraft : draft = proposedDraft record prior mode m k adaptive sim.generated sim.lastAccepted) :
    (simulateStep record prior mode m k adaptive sim).generated = sim.generated ++
        (passOver model (record.promptTokens ++ sim.generated) draft).take
          (record.outputTokens.length - sim.generated.length) ∧
      (simulateStep record prior mode m k adaptive sim).lastAccepted =
        min (accepted model (record.promptTokens ++ sim.generated) draft)
          (record.outputTokens.length - sim.generated.length) ∧
      Counts sim (simulateStep record prior mode m k adaptive sim) [(draft,
        min (accepted model (record.promptTokens ++ sim.generated) draft)
          (record.outputTokens.length - sim.generated.length))] := by
  have hrest : record.outputTokens.drop sim.generated.length =
      greedy model (record.promptTokens ++ sim.generated)
        (record.outputTokens.length - sim.generated.length) := by
    obtain ⟨room, hroom⟩ := Nat.exists_eq_add_of_le hlt.le
    rw [hroom, Nat.add_sub_cancel_left]
    rw [hroom, greedy_add, ← hgenerated] at hmodel
    rw [hmodel, List.drop_left]
  have hexact : exactTokens (draft.zip (record.outputTokens.drop sim.generated.length)) =
      min (accepted model (record.promptTokens ++ sim.generated) draft)
        (record.outputTokens.length - sim.generated.length) := by
    rw [exactTokens_zip, hrest, agreement_greedy]
  refine ⟨?_, ?_, ?_⟩
  · simp only [simulateStep, ← hdraft, hexact]
    rw [hrest, passOver_eq, take_greedy, take_greedy]
    congr 2
    omega
  · simp only [simulateStep, ← hdraft, hexact]
  · have hdrafted : (if draft ≠ [] then sim.drafted + draft.length else sim.drafted) =
        sim.drafted + draft.length := by
      split_ifs with hne
      · rfl
      · rw [not_not.mp hne, List.length_nil, Nat.add_zero]
    refine ⟨rfl, ?_, ?_, ?_, ?_⟩
    · simpa only [simulateStep, ← hdraft, List.map_singleton, List.sum_singleton] using hdrafted
    · simp only [simulateStep, ← hdraft, hexact, List.map_singleton, List.sum_singleton]
    · simp only [simulateStep, ← hdraft, List.countP_singleton, decide_eq_true_eq]
      split_ifs <;> rfl
    · simp only [simulateStep, ← hdraft, List.map_singleton]

/-- The rounds of the simulation are the passes of speculative decoding. -/
theorem simulateLoop_spec
    (hmodel : record.outputTokens = greedy model record.promptTokens record.outputTokens.length)
    (rounds : ℕ) (sim : Simulation)
    (hgenerated : sim.generated = greedy model record.promptTokens sim.generated.length)
    (hrounds : record.outputTokens.length < sim.generated.length + rounds) :
    ∃ passes, Speculates model (proposedDraft record prior mode m k adaptive) record.promptTokens
      record.outputTokens.length
        sim.generated sim.lastAccepted passes
          (simulateLoop record prior mode m k adaptive rounds sim).generated ∧
      Counts sim (simulateLoop record prior mode m k adaptive rounds sim) passes := by
  induction rounds generalizing sim with
  | zero => exact ⟨[], .done (by omega), .nil sim⟩
  | succ rounds ih =>
    rw [simulateLoop]
    split
    · rename_i hlt
      obtain ⟨hnext, hlast, hcounts⟩ :=
        simulateStep_eq prior mode m k adaptive hmodel hgenerated hlt rfl
      have hpass := Speculates.pass_eq
        (proposedDraft record prior mode m k adaptive sim.generated sim.lastAccepted)
        (record.outputTokens.length - sim.generated.length) hgenerated
      rw [← hnext] at hpass
      have hlength := congrArg List.length hpass
      rw [length_greedy] at hlength
      obtain ⟨passes, hspeculates, hrest⟩ :=
        ih (simulateStep record prior mode m k adaptive sim) (hlength ▸ hpass)
        (by omega)
      rw [hnext, hlast] at hspeculates
      exact ⟨_, .pass hlt hspeculates, hcounts.append hrest⟩
    · rename_i hdone
      exact ⟨[], .done (not_lt.mp hdone), .nil sim⟩

/-- The simulation of a request. -/
theorem simulateRequest_spec
    (hmodel : record.outputTokens = greedy model record.promptTokens record.outputTokens.length) :
    ∃ passes, Speculates model (proposedDraft record prior mode m k adaptive) record.promptTokens
      record.outputTokens.length
        [] 0 passes record.outputTokens ∧
      (simulateRequest record prior mode m k adaptive).generated = record.outputTokens ∧
      Counts {} (simulateRequest record prior mode m k adaptive) passes := by
  obtain ⟨passes, hspeculates, hcounts⟩ :=
    simulateLoop_spec prior mode m k adaptive hmodel (record.outputTokens.length + 1)
    {} rfl (by simp)
  have houtput : (simulateRequest record prior mode m k adaptive).generated = record.outputTokens :=
    (hspeculates.lossless rfl (Nat.zero_le _)).trans hmodel.symm
  have hpasses : Speculates model (proposedDraft record prior mode m k adaptive) record.promptTokens
      record.outputTokens.length
      [] 0 passes (simulateRequest record prior mode m k adaptive).generated := hspeculates
  rw [houtput] at hpasses
  exact ⟨passes, hpasses, houtput, hcounts⟩

/-- The longest draft. -/
def draftBound (k : ℕ) (adaptive : Bool) : ℕ := if adaptive then 16 else k

/-- No draft of a request is longer. -/
theorem length_proposedDraft (generated : List Token) (lastAccepted : ℕ) :
    (proposedDraft record prior mode m k adaptive generated lastAccepted).length ≤
      draftBound k adaptive := by
  refine (length_chooseDraft _ _ _ _).trans ?_
  unfold currentK draftBound
  split
  · exact min_le_left _ _
  · exact le_rfl

end Passes

/-- The simulation is lossless: it goes through the passes of speculative decoding, with its own
drafts, of any model that chose the output one by one, ends with the whole output and counts exactly
these passes. -/
theorem simulate_lossless (record : Record) (prior : List Record) (mode : Mode) (m k : ℕ)
    (adaptive : Bool) (model : List Token → Token)
    (hmodel : record.outputTokens = greedy model record.promptTokens record.outputTokens.length) :
    ∃ passes, Speculates model (proposedDraft record prior mode m k adaptive) record.promptTokens
      record.outputTokens.length
        [] 0 passes record.outputTokens ∧
      (simulateRequest record prior mode m k adaptive).generated = record.outputTokens ∧
      Counts {} (simulateRequest record prior mode m k adaptive) passes :=
  simulateRequest_spec prior mode m k adaptive hmodel

/-- A model that counts to three over and over is replayed in one pass. -/
theorem simulate_lossless_cycle : ∃ passes,
    Speculates (fun context => if context.getLast? = some 3 then 1 else context.getLast?.getD 0 + 1)
      (proposedDraft ⟨[1, 2, 3, 1, 2], [3, 1, 2, 3]⟩ [] .localOnly 2 4 false)
      [1, 2, 3, 1, 2] 4 [] 0 passes [3, 1, 2, 3] ∧
      passes.length = 1 := by
  obtain ⟨passes, hspeculates, _, hcounts⟩ :=
    simulate_lossless ⟨[1, 2, 3, 1, 2], [3, 1, 2, 3]⟩ [] .localOnly 2 4 false
    (fun context => if context.getLast? = some 3 then 1 else context.getLast?.getD 0 + 1)
      (by decide)
  have hsteps : (simulateRequest ⟨[1, 2, 3, 1, 2], [3, 1, 2, 3]⟩ [] .localOnly 2 4 false).steps =
      1 := by decide +kernel
  have hlength : 0 + passes.length = 1 := hcounts.steps.symm.trans hsteps
  exact ⟨passes, hspeculates, (Nat.zero_add _).symm.trans hlength⟩

/-- The counters of a simulation add up, with drafts up to a bound: each step but perhaps the last
yields one token that was not accepted from a draft. -/
structure AddsUp (record : Record) (bound : ℕ) (sim : Simulation) : Prop where
  output : sim.generated = record.outputTokens
  tokens : sim.accepted + sim.steps = record.outputTokens.length ∨
    sim.accepted + sim.steps = record.outputTokens.length + 1
  most : sim.steps ≤ record.outputTokens.length
  least : record.outputTokens.length ≤ sim.steps * (bound + 1)
  accepted : sim.accepted ≤ sim.drafted
  drafted : sim.drafted = sim.draftLengths.sum
  steps : sim.steps = sim.draftLengths.length
  stepsWithDraft : sim.stepsWithDraft = sim.draftLengths.countP (0 < ·)
  draftLengths : ∀ n ∈ sim.draftLengths, n ≤ bound

/-- The simulation of every request, with every earlier traffic, ends with its output, and its
counters add up. -/
theorem simulate_adds_up (record : Record) (prior : List Record) (mode : Mode) (m k : ℕ)
    (adaptive : Bool) :
    AddsUp record (draftBound k adaptive) (simulateRequest record prior mode m k adaptive) := by
  obtain ⟨model, hmodel⟩ := exists_greedy record.promptTokens record.outputTokens
  obtain ⟨passes, hspeculates, houtput, hcounts⟩ :=
    simulateRequest_spec prior mode m k adaptive hmodel
  generalize simulateRequest record prior mode m k adaptive = sim at houtput hcounts ⊢
  have hbound := hspeculates.drafted_le (length_proposedDraft prior mode m k adaptive)
  have hcount := hspeculates.count (Nat.zero_le _)
  have hsteps : sim.steps = passes.length := hcounts.steps.trans (Nat.zero_add _)
  have hdrafted : sim.drafted = (passes.map fun pass => pass.1.length).sum :=
    hcounts.drafted.trans (Nat.zero_add _)
  have haccepted : sim.accepted = (passes.map Prod.snd).sum :=
    hcounts.accepted.trans (Nat.zero_add _)
  have hlengths : sim.draftLengths = passes.map fun pass => pass.1.length := hcounts.draftLengths
  have hle : (passes.map Prod.snd).sum ≤ (passes.map fun pass => pass.1.length).sum :=
    List.sum_le_sum hspeculates.accepted_le_drafted
  have hmost : (passes.map fun pass => pass.1.length).sum ≤
      passes.length * draftBound k adaptive := by
    have hsum := List.sum_le_card_nsmul (passes.map fun pass => pass.1.length)
      (draftBound k adaptive)
      (List.forall_mem_map.mpr hbound)
    rwa [List.length_map, smul_eq_mul] at hsum
  refine ⟨houtput, ?_, ?_, ?_, ?_, ?_, ?_, ?_, ?_⟩
  · simp only [List.length_nil] at hcount
    omega
  · simp only [List.length_nil] at hcount
    omega
  · rw [Nat.mul_add_one, hsteps]
    simp only [List.length_nil] at hcount
    omega
  · rw [haccepted, hdrafted]
    exact hle
  · rw [hdrafted, hlengths]
  · rw [hsteps, hlengths, List.length_map]
  · rw [hcounts.stepsWithDraft, hlengths, List.countP_map]
    simp [Function.comp_def, List.length_pos_iff]
  · rw [hlengths]
    exact List.forall_mem_map.mpr hbound

end RadixForge.SpecStudy
