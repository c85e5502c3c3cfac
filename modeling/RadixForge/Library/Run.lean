import Mathlib.Algebra.Order.Group.Int
import Mathlib.Data.List.Basic

/-!
# Runs of a partial step function

A system is a step function that may refuse an action. A run applies a list of actions in
order; a property that holds initially and is kept by every accepted step holds after every
run. The guarded form asks this only of steps that satisfy a side condition, for properties
that some steps are known to break.

A reader that never refuses folds a list from the left. A property of its state and of the element
it reads next holds along the list if it holds at every element, with the state there.
-/

namespace Library

variable {σ α : Type*}

/-- Apply the actions in order; a refused action refuses the run. -/
def run (step : σ → α → Option σ) : σ → List α → Option σ
  | s, [] => some s
  | s, a :: as => (step s a).bind fun s' => run step s' as

/-- Every step of the run satisfies the side condition in the state where it is taken. -/
def RunsWithin (step : σ → α → Option σ) (allowed : σ → α → Prop) (s : σ) (as : List α) : Prop :=
  ∀ before a after, as = before ++ a :: after → ∀ s₁, run step s before = some s₁ → allowed s₁ a

/-- The run of no actions stays where it is. -/
@[simp] theorem run_nil (step : σ → α → Option σ) (s : σ) : run step s [] = some s := rfl

/-- A run takes its first step, and then the others from there. -/
theorem run_cons (step : σ → α → Option σ) (s : σ) (a : α) (as : List α) :
    run step s (a :: as) = (step s a).bind fun s' => run step s' as := rfl

/-- A concatenated run is the second run from the state the first one reaches. -/
theorem run_append (step : σ → α → Option σ) (s : σ) (as bs : List α) :
    run step s (as ++ bs) = (run step s as).bind fun s' => run step s' bs := by
  induction as generalizing s with
  | nil => rfl
  | cons a as ih =>
    simp only [List.cons_append, run_cons]
    cases step s a with
    | none => rfl
    | some s' => exact ih s'

/-- A run of one more action is a run and a step. -/
theorem run_snoc {step : σ → α → Option σ} {s s' : σ} {as : List α} {a : α} :
    run step s (as ++ [a]) = some s' ↔ ∃ s₁, run step s as = some s₁ ∧ step s₁ a = some s' := by
  rw [run_append, Option.bind_eq_some_iff]
  simp [run_cons]

/-- Every prefix of an accepted run is accepted, and the rest runs from there. -/
theorem run_append_some {step : σ → α → Option σ} {s s' : σ} {as bs : List α}
    (h : run step s (as ++ bs) = some s') :
    ∃ s₁, run step s as = some s₁ ∧ run step s₁ bs = some s' := by
  rw [run_append] at h
  exact Option.bind_eq_some_iff.mp h

/-- A property kept by every accepted step is kept by every accepted run. -/
theorem run_invariant {step : σ → α → Option σ} {P : σ → Prop}
    (hstep : ∀ s a s', P s → step s a = some s' → P s') {s s' : σ} {as : List α}
    (hs : P s) (h : run step s as = some s') : P s' := by
  induction as generalizing s with
  | nil => cases h; exact hs
  | cons a as ih =>
    obtain ⟨s₁, hfirst, hrest⟩ := Option.bind_eq_some_iff.mp h
    exact ih (hstep s a s₁ hs hfirst) hrest

/-- A side condition on a longer run holds on each of its prefixes. -/
theorem RunsWithin.initial {step : σ → α → Option σ} {allowed : σ → α → Prop} {s : σ}
    {as bs : List α} (h : RunsWithin step allowed s (as ++ bs)) : RunsWithin step allowed s as := by
  intro before a after heq s₁ hrun
  exact h before a (after ++ bs) (by simp [heq]) s₁ hrun

/-- A side condition on a run holds on the rest of the run from the state its first part reaches. -/
theorem RunsWithin.suffix {step : σ → α → Option σ} {allowed : σ → α → Prop} {s s₁ : σ}
    {as bs : List α} (h : RunsWithin step allowed s (as ++ bs)) (hrun : run step s as = some s₁) :
    RunsWithin step allowed s₁ bs := by
  intro before a after heq s₂ hbefore
  refine h (as ++ before) a after (by simp [heq]) s₂ ?_
  rw [run_append, hrun]
  exact hbefore

/-- A run within a side condition starts with a step within it and goes on so. -/
theorem runsWithin_cons {step : σ → α → Option σ} {allowed : σ → α → Prop} {s : σ} {a : α}
    {as : List α} :
    RunsWithin step allowed s (a :: as) ↔
      allowed s a ∧ ∀ s' ∈ step s a, RunsWithin step allowed s' as := by
  constructor
  · intro h
    refine ⟨h [] a as rfl s rfl, fun s' hs' => ?_⟩
    have hone : run step s [a] = some s' := by rw [run_cons, Option.mem_def.mp hs']; rfl
    have hsplit : RunsWithin step allowed s ([a] ++ as) := h
    exact hsplit.suffix hone
  · rintro ⟨hfirst, hrest⟩ before a' after heq s₁ hrun
    cases before with
    | nil =>
      cases hrun
      cases heq
      exact hfirst
    | cons x before =>
      cases heq
      obtain ⟨s', hs', hrun⟩ := Option.bind_eq_some_iff.mp hrun
      exact hrest s' hs' before a' after rfl s₁ hrun

/-- A decidable side condition can be checked along a run. -/
instance decidableRunsWithin (step : σ → α → Option σ) (allowed : σ → α → Prop)
    [∀ s a, Decidable (allowed s a)] :
    ∀ s as, Decidable (RunsWithin step allowed s as)
  | _, [] => isTrue fun before a after heq => absurd heq (by simp)
  | s, a :: as =>
    match hstep : step s a with
    | none => decidable_of_iff (allowed s a) (by simp [runsWithin_cons, hstep])
    | some s' =>
      have := decidableRunsWithin step allowed s' as
      decidable_of_iff (allowed s a ∧ RunsWithin step allowed s' as)
        (by simp [runsWithin_cons, hstep])

/-- A property kept by the steps that satisfy a side condition is kept by the runs within it. -/
theorem run_invariant_within {step : σ → α → Option σ} {P : σ → Prop} {allowed : σ → α → Prop}
    (hstep : ∀ s a s', P s → allowed s a → step s a = some s' → P s') {s s' : σ} {as : List α}
    (hs : P s) (hallowed : RunsWithin step allowed s as) (h : run step s as = some s') : P s' := by
  induction as generalizing s with
  | nil => cases h; exact hs
  | cons a as ih =>
    obtain ⟨s₁, hfirst, hrest⟩ := Option.bind_eq_some_iff.mp h
    have hone : run step s [a] = some s₁ := by simp [run_cons, hfirst]
    have hrestAllowed : RunsWithin step allowed s ([a] ++ as) := hallowed
    exact ih (hstep s a s₁ hs (hallowed [] a as rfl s rfl) hfirst) (hrestAllowed.suffix hone) hrest

/-- Rounds of which each leaves less, as long as anything is left, come to an end if there are
enough of them. -/
theorem run_rounds {β : Type*} {step : σ → α → Option σ} {round : β → List α} {P done : σ → Prop}
    {load : σ → ℤ}
    (hround : ∀ s b, P s → ¬ done s → ∃ s', run step s (round b) = some s' ∧
      P s' ∧ load s' < load s)
    (hleft : ∀ s, P s → ¬ done s → 0 < load s) (rounds : List β) {s : σ} (hs : P s)
    (hload : load s ≤ rounds.length) :
    ∃ served s', served <+: rounds ∧ run step s (served.flatMap round) = some s' ∧
      P s' ∧ done s' := by
  induction rounds generalizing s with
  | nil =>
    refine ⟨[], s, List.prefix_refl _, rfl, hs, ?_⟩
    by_contra hnot
    exact absurd (hleft s hs hnot) (not_lt.mpr hload)
  | cons b rest ih =>
    by_cases hdone : done s
    · exact ⟨[], s, List.nil_prefix, rfl, hs, hdone⟩
    · obtain ⟨s₁, hfirst, hs₁, hless⟩ := hround s b hs hdone
      have hrest : load s₁ ≤ rest.length := by
        rw [List.length_cons] at hload
        omega
      obtain ⟨served, s', hprefix, hrun, hs', hdone'⟩ := ih hs₁ hrest
      refine ⟨b :: served, s', List.cons_prefix_cons.mpr ⟨rfl, hprefix⟩, ?_, hs', hdone'⟩
      rw [List.flatMap_cons, run_append, hfirst]
      exact hrun

section Along

variable {step : σ → α → σ} {p q : σ → α → Prop} {state : σ} {l : List α}

/-- The property holds at every element of the list, with the state before it. -/
def Along (step : σ → α → σ) (p : σ → α → Prop) : σ → List α → Prop
  | _, [] => True
  | state, a :: rest => p state a ∧ Along step p (step state a) rest

instance Along.decidable [∀ state a, Decidable (p state a)] :
    ∀ state l, Decidable (Along step p state l)
  | _, [] => .isTrue trivial
  | state, a :: rest =>
    have := Along.decidable (step state a) rest
    inferInstanceAs (Decidable (p state a ∧ Along step p (step state a) rest))

/-- Every property holds along the empty list. -/
@[simp] theorem along_nil : Along step p state [] := trivial

/-- A property holds along a list at its first element and along the others. -/
theorem along_cons {a : α} :
    Along step p state (a :: l) ↔ p state a ∧ Along step p (step state a) l := Iff.rfl

/-- A property holds along two lists if it does along the first, and along the second from where the
first ends. -/
theorem along_append {l' : List α} :
    Along step p state (l ++ l') ↔ Along step p state l ∧ Along step p (l.foldl step state) l' := by
  induction l generalizing state with
  | nil => exact (and_iff_right trivial).symm
  | cons a rest ih => rw [List.cons_append, along_cons, ih, along_cons, List.foldl_cons, and_assoc]

/-- A property that follows from another one at the elements of the list. -/
theorem Along.imp (h : Along step p state l) (himp : ∀ state, ∀ a ∈ l, p state a → q state a) :
    Along step q state l := by
  induction l generalizing state with
  | nil => trivial
  | cons a rest ih =>
    exact ⟨himp state a List.mem_cons_self h.1,
      ih h.2 fun state b hb => himp state b (List.mem_cons_of_mem a hb)⟩

/-- The elements of the list are those that follow a part at its beginning. -/
theorem along_iff : Along step p state l ↔ ∀ u a, u ++ [a] <+: l → p (u.foldl step state) a := by
  induction l generalizing state with
  | nil => exact iff_of_true trivial fun u a h => absurd (List.prefix_nil.mp h) (by simp)
  | cons b rest ih =>
    rw [along_cons, ih]
    constructor
    · rintro ⟨hfirst, hrest⟩ u a h
      cases u with
      | nil =>
        obtain ⟨rfl, _⟩ := List.cons_prefix_cons.mp h
        exact hfirst
      | cons c u =>
        obtain ⟨rfl, hu⟩ := List.cons_prefix_cons.mp h
        exact hrest u a hu
    · intro h
      exact ⟨h [] b (List.cons_prefix_cons.mpr ⟨rfl, List.nil_prefix⟩),
        fun u a hu => h (b :: u) a (List.cons_prefix_cons.mpr ⟨rfl, hu⟩)⟩

end Along

end Library
