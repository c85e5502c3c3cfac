import Mathlib.Data.List.Basic

/-!
# Outcomes of a parser

A piece of a recursive descent parser reads from the front of its input and returns a value with the
rest, or throws. Its loops run a body until it is done and are cut off after a number of rounds;
they finish if every round that goes on consumes some input.
-/

namespace Library

/-- What a computation comes to. A loop that is cut off leaves it unfinished. -/
inductive Outcome (α : Type*) where
  | returned (value : α)
  | thrown (message : String)
  | unfinished
deriving DecidableEq

namespace Outcome

variable {α β : Type*}

/-- Go on with the value that was returned. -/
def andThen (o : Outcome α) (f : α → Outcome β) : Outcome β :=
  match o with
  | .returned a => f a
  | .thrown message => .thrown message
  | .unfinished => .unfinished

/-- What was returned is passed on. -/
@[simp] theorem returned_andThen (a : α) (f : α → Outcome β) :
    (Outcome.returned a).andThen f = f a := rfl

/-- What was thrown stays thrown. -/
@[simp] theorem thrown_andThen (message : String) (f : α → Outcome β) :
    (Outcome.thrown message).andThen f = .thrown message := rfl

/-- What goes on and returns has returned a value on the way. -/
theorem andThen_eq_returned {o : Outcome α} {f : α → Outcome β} {b : β} :
    o.andThen f = .returned b ↔ ∃ a, o = .returned a ∧ f a = .returned b := by
  cases o <;> simp [andThen]

/-- Steps that finish make a computation that finishes. -/
theorem andThen_finishes {o : Outcome α} {f : α → Outcome β} (ho : o ≠ .unfinished)
    (hf : ∀ a, o = .returned a → f a ≠ .unfinished) : o.andThen f ≠ .unfinished := by
  cases o with
  | returned a => exact hf a rfl
  | thrown message => simp
  | unfinished => contradiction

end Outcome

section Loop

variable {α σ β : Type*} {body : σ → List α → Outcome ((σ ⊕ β) × List α)}

/-- Run the body until it is done, at most as often as the fuel says. -/
def loop (body : σ → List α → Outcome ((σ ⊕ β) × List α)) : ℕ → σ → List α → Outcome (β × List α)
  | 0, _, _ => .unfinished
  | fuel + 1, state, input =>
    (body state input).andThen fun
      | (.inl state, rest) => loop body fuel state rest
      | (.inr result, rest) => .returned (result, rest)

/-- A round that is done ends the loop. -/
theorem loop_done {fuel : ℕ} {state : σ} {input rest : List α} {result : β}
    (h : body state input = .returned (.inr result, rest)) :
    loop body (fuel + 1) state input = .returned (result, rest) := by
  rw [loop, h]
  rfl

/-- A round that is not done leaves the rest to the next rounds. -/
theorem loop_more {fuel : ℕ} {state state' : σ} {input rest : List α}
    (h : body state input = .returned (.inl state', rest)) :
    loop body (fuel + 1) state input = loop body fuel state' rest := by
  rw [loop, h]
  rfl

/-- What holds of a last round, and of a round before it if of what follows, holds of the loop. -/
theorem loop_returned {P : σ → List α → β → List α → Prop}
    (hdone : ∀ state input result rest, body state input = .returned (.inr result, rest) →
      P state input result rest)
    (hmore : ∀ state input state' input' result rest, body state input =
      .returned (.inl state', input') → P state' input' result rest → P state input result rest)
    {fuel : ℕ} {state : σ} {input rest : List α} {result : β}
    (h : loop body fuel state input = .returned (result, rest)) : P state input result rest := by
  induction fuel generalizing state input with
  | zero => contradiction
  | succ fuel ih =>
    obtain ⟨⟨next | last, input'⟩, hround, hrest⟩ := Outcome.andThen_eq_returned.mp h
    · exact hmore _ _ _ _ _ _ hround (ih hrest)
    · cases hrest
      exact hdone _ _ _ _ hround

/-- A loop finishes if its body does and consumes input in every round. -/
theorem loop_finishes (hbody : ∀ state input, body state input ≠ .unfinished)
    (hconsumes : ∀ state input state' input', body state input = .returned (.inl state', input') →
      input'.length < input.length)
    {fuel : ℕ} {state : σ} {input : List α} (hfuel : input.length < fuel) :
    loop body fuel state input ≠ .unfinished := by
  induction fuel generalizing state input with
  | zero => exact absurd hfuel (Nat.not_lt_zero _)
  | succ fuel ih =>
    refine Outcome.andThen_finishes (hbody state input) fun round hround => ?_
    obtain ⟨next | last, input'⟩ := round
    · exact ih (Nat.lt_of_lt_of_le (hconsumes _ _ _ _ hround) (Nat.lt_succ_iff.mp hfuel))
    · simp

end Loop

end Library
