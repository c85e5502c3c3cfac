import Mathlib.Data.Finset.Card
import Mathlib.Data.List.Nodup
import Mathlib.Logic.Relation
import Mathlib.Order.Interval.Finset.Nat

/-!
# Traversals of a parent-linked forest

The usual worklist loop: pop an element, visit it and push its successors. If every successor
records the popped element as its parent, nothing is visited twice; with fuel for each element
of a closed finite set the loop ends with an empty stack, so everything reachable was visited.

A chain of identities below a bound whose weights strictly decrease cannot be longer than the
bound. `rank` counts the identities of smaller weight; it drops along the chain, so a loop
that follows the chain with the bound as fuel runs to its end.
-/

namespace Library

variable {α : Type*}

/-- Pop, visit and push, in the order of visits. -/
def stackWalk (next : α → List α) : ℕ → List α → List α
  | _, [] => []
  | 0, _ :: _ => []
  | fuel + 1, a :: stack => a :: stackWalk next fuel (next a ++ stack)

/-- The loop invariant: nothing is repeated, every member but the start was pushed by a visited
parent, and the successors of visited elements are visited or waiting. -/
structure WalkInvariant (next : α → List α) (parent : α → Option α) (start : α)
    (visited stack : List α) : Prop where
  nodup : (visited ++ stack).Nodup
  pushed : ∀ b ∈ visited ++ stack, b = start ∨ ∃ a ∈ visited, parent b = some a
  closed : ∀ a ∈ visited, ∀ b ∈ next a, b ∈ visited ++ stack
  started : start ∈ visited ++ stack

variable {next : α → List α} {parent : α → Option α} {start : α}

/-- One iteration keeps the invariant. -/
theorem WalkInvariant.visit (hparent : ∀ a b, b ∈ next a → parent b = some a)
    (hnodup : ∀ a, (next a).Nodup) (hstart : parent start = none) {a : α} {visited stack : List α}
    (h : WalkInvariant next parent start visited (a :: stack)) :
    WalkInvariant next parent start (visited ++ [a]) (next a ++ stack) := by
  have hmem (b : α) : b ∈ visited ++ [a] ++ (next a ++ stack) ↔
      b ∈ visited ++ a :: stack ∨ b ∈ next a := by
    simp only [List.mem_append, List.mem_cons, List.not_mem_nil, or_false]
    tauto
  -- a successor of the popped element has it as parent, so it was not pushed before
  have hfresh : ∀ b ∈ next a, b ∉ visited ++ a :: stack := by
    intro b hb hold
    rcases h.pushed b hold with rfl | ⟨c, hc, hbc⟩
    · simp [hparent a b hb] at hstart
    · have hca : c = a := Option.some.inj (hbc.symm.trans (hparent a b hb))
      exact (List.nodup_append.mp h.nodup).2.2 c hc a List.mem_cons_self hca
  refine ⟨?_, ?_, ?_, (hmem start).mpr (Or.inl h.started)⟩
  · have hperm : (visited ++ [a] ++ (next a ++ stack)).Perm
        ((visited ++ a :: stack) ++ next a) := by
      simp only [List.append_assoc, List.cons_append, List.nil_append]
      exact List.Perm.append_left visited (List.Perm.cons a List.perm_append_comm)
    rw [hperm.nodup_iff, List.nodup_append]
    refine ⟨h.nodup, hnodup a, fun x hx y hy hxy => ?_⟩
    subst hxy
    exact hfresh x hy hx
  · intro b hb
    rcases (hmem b).mp hb with hold | hnew
    · rcases h.pushed b hold with hroot | ⟨c, hc, hbc⟩
      · exact Or.inl hroot
      · exact Or.inr ⟨c, List.mem_append_left _ hc, hbc⟩
    · exact Or.inr ⟨a, by simp, hparent a b hnew⟩
  · intro c hc b hb
    rw [hmem]
    rcases List.mem_append.mp hc with hold | hnew
    · exact Or.inl (h.closed c hold b hb)
    · rw [List.mem_singleton] at hnew
      exact Or.inr (hnew ▸ hb)

/-- With fuel for every unvisited element of a closed set, the loop empties its stack. -/
theorem WalkInvariant.finish (hparent : ∀ a b, b ∈ next a → parent b = some a)
    (hnodup : ∀ a, (next a).Nodup) (hstart : parent start = none) (bound : Finset α)
    (hbound : ∀ a ∈ bound, ∀ b ∈ next a, b ∈ bound) (fuel : ℕ) {visited stack : List α}
    (h : WalkInvariant next parent start visited stack) (hsub : ∀ a ∈ visited ++ stack, a ∈ bound)
    (hfuel : bound.card ≤ visited.length + fuel) :
    WalkInvariant next parent start (visited ++ stackWalk next fuel stack) [] := by
  induction fuel generalizing visited stack with
  | zero =>
    cases stack with
    | nil => simpa [stackWalk] using h
    | cons a stack =>
      classical
      have hcard : (visited ++ a :: stack).length ≤ bound.card := by
        rw [← List.toFinset_card_of_nodup h.nodup]
        exact Finset.card_le_card fun x hx => hsub x (List.mem_toFinset.mp hx)
      simp only [List.length_append, List.length_cons] at hcard
      omega
  | succ fuel ih =>
    cases stack with
    | nil => simpa [stackWalk] using h
    | cons a stack =>
      have hnext := ih (h.visit hparent hnodup hstart) ?_
        (by rw [List.length_append, List.length_singleton]; omega)
      · simpa [stackWalk] using hnext
      · intro b hb
        simp only [List.mem_append, List.mem_singleton] at hb
        rcases hb with (hb | rfl) | hb | hb
        · exact hsub b (List.mem_append_left _ hb)
        · exact hsub b (by simp)
        · exact hbound a (hsub a (by simp)) b hb
        · exact hsub b (by simp [hb])

/-- The whole traversal visits each reachable element exactly once, and nothing without a parent. -/
theorem stackWalk_spec (hparent : ∀ a b, b ∈ next a → parent b = some a)
    (hnodup : ∀ a, (next a).Nodup) (hstart : parent start = none) (bound : Finset α)
    (hbound : ∀ a ∈ bound, ∀ b ∈ next a, b ∈ bound) (hmem : start ∈ bound) :
    (stackWalk next bound.card [start]).Nodup ∧
      (∀ b ∈ stackWalk next bound.card [start], b = start ∨ ∃ a, parent b = some a) ∧
      ∀ b, Relation.ReflTransGen (fun a b => b ∈ next a) start b →
      b ∈ stackWalk next bound.card [start] := by
  have hinit : WalkInvariant next parent start [] [start] := ⟨by simp, by simp, by simp, by simp⟩
  have hfinal := hinit.finish hparent hnodup hstart bound hbound bound.card
    (by simpa using hmem) (by simp)
  simp only [List.nil_append] at hfinal
  refine ⟨by simpa using hfinal.nodup, fun b hb => ?_, fun b hb => ?_⟩
  · exact (hfinal.pushed b (by simpa using hb)).imp_right fun ⟨a, _, hab⟩ => ⟨a, hab⟩
  · induction hb with
    | refl => simpa using hfinal.started
    | tail _ hab ih => simpa using hfinal.closed _ ih _ hab

section Descent

variable [LinearOrder α]

/-- The number of identities below the bound with a smaller weight. -/
def rank (bound : ℕ) (weight : ℕ → α) (n : ℕ) : ℕ :=
  ((Finset.range bound).filter fun m => weight m < weight n).card

/-- A bounded identity of smaller weight has a smaller rank. -/
theorem rank_lt_rank {bound : ℕ} {weight : ℕ → α} {m n : ℕ} (hm : m < bound)
    (h : weight m < weight n) :
    rank bound weight m < rank bound weight n := by
  apply Finset.card_lt_card
  rw [Finset.ssubset_iff_of_subset]
  · exact ⟨m, by simp [hm, h], by simp⟩
  · intro k hk
    simp only [Finset.mem_filter] at hk ⊢
    exact ⟨hk.1, hk.2.trans h⟩

/-- No identity outranks the bound. -/
theorem rank_le (bound : ℕ) (weight : ℕ → α) (n : ℕ) : rank bound weight n ≤ bound :=
  (Finset.card_filter_le _ _).trans (Finset.card_range bound).le

/-- A bounded identity ranks below the bound, as it does not count itself. -/
theorem rank_lt_bound {bound : ℕ} {weight : ℕ → α} {n : ℕ} (hn : n < bound) :
    rank bound weight n < bound := by
  refine lt_of_lt_of_le (Finset.card_lt_card ?_) (Finset.card_range bound).le
  rw [Finset.ssubset_iff_of_subset (Finset.filter_subset _ _)]
  exact ⟨n, by simp [hn], by simp⟩

end Descent

end Library
