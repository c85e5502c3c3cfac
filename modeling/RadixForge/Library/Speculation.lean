import Mathlib.Algebra.BigOperators.Group.List.Basic
import Mathlib.Algebra.Order.BigOperators.Group.List
import RadixForge.Library.Lists

/-!
# Speculative decoding

A deterministic model chooses the next item after a context. In one pass it checks a draft, whoever
made it: it accepts the items that it would have chosen itself and adds a choice of its own. So
whatever the drafts are, the passes yield what the model chooses one by one.
-/

namespace Library

variable {α : Type*} (model : List α → α)

section Greedy

/-- What the model chooses one by one. -/
def greedy (context : List α) : ℕ → List α
  | 0 => []
  | n + 1 => model context :: greedy (context ++ [model context]) n

/-- Greedy generation gives as many tokens as it is asked for. -/
@[simp] theorem length_greedy (context : List α) (n : ℕ) : (greedy model context n).length = n := by
  induction n generalizing context with
  | zero => rfl
  | succ n ih => rw [greedy, List.length_cons, ih]

/-- The choices go on after the first ones. -/
theorem greedy_add (context : List α) (m n : ℕ) :
    greedy model context (m + n) =
      greedy model context m ++ greedy model (context ++ greedy model context m) n := by
  induction m generalizing context with
  | zero => rw [Nat.zero_add, greedy, List.append_nil, List.nil_append]
  | succ m ih =>
    rw [Nat.add_right_comm, greedy, ih, greedy, List.cons_append, List.append_assoc,
      List.singleton_append]

/-- The first choices are the same for every number of them. -/
theorem take_greedy (context : List α) (m n : ℕ) :
    (greedy model context n).take m = greedy model context (min m n) := by
  rcases le_total m n with h | h
  · obtain ⟨k, rfl⟩ := Nat.exists_eq_add_of_le h
    rw [greedy_add, min_eq_left h]
    exact List.take_left' (length_greedy model context m)
  · rw [min_eq_right h, List.take_of_length_le (by rwa [length_greedy])]

/-- Every list is what some model chooses. -/
theorem exists_greedy [Inhabited α] (context output : List α) :
    ∃ model, output = greedy model context output.length := by
  refine ⟨fun longer => (output[longer.length - context.length]?).getD default, ?_⟩
  suffices h : ∀ n i, i + n = output.length →
      greedy (fun longer => (output[longer.length - context.length]?).getD default)
        (context ++ output.take i) n = output.drop i by
    simpa using (h output.length 0 (Nat.zero_add _)).symm
  intro n
  induction n with
  | zero =>
    intro i hi
    rw [greedy, List.drop_of_length_le (by omega)]
  | succ n ih =>
    intro i hi
    have hlt : i < output.length := by omega
    have hindex : (context ++ output.take i).length - context.length = i := by
      rw [List.length_append, List.length_take, min_eq_left hlt.le, Nat.add_sub_cancel_left]
    rw [greedy, hindex, List.getElem?_eq_getElem hlt, Option.getD_some, List.append_assoc,
      List.take_concat_get' _ _ hlt, ih (i + 1) (by omega), List.drop_eq_getElem_cons hlt]

end Greedy

variable [DecidableEq α]

/-- The number of items of a draft that the model would have chosen. -/
def accepted (context : List α) : List α → ℕ
  | [] => 0
  | a :: draft => if a = model context then accepted (context ++ [a]) draft + 1 else 0

/-- What a pass over a draft yields. -/
def passOver (context draft : List α) : List α :=
  let kept := draft.take (accepted model context draft)
  kept ++ [model (context ++ kept)]

/-- What is accepted of a draft is where it agrees with the choices of the model. -/
theorem accepted_eq_agreement (context draft : List α) {n : ℕ} (h : draft.length ≤ n) :
    accepted model context draft = agreement draft (greedy model context n) := by
  induction draft generalizing context n with
  | nil => rw [agreement_nil_left]; rfl
  | cons a draft ih =>
    obtain ⟨n, rfl⟩ := Nat.exists_eq_add_of_le' (show 1 ≤ n from (Nat.succ_pos _).trans_le h)
    rw [accepted, greedy, agreement_cons]
    split
    · rename_i heq
      rw [← heq, ih _ (Nat.le_of_succ_le_succ h)]
    · rfl

/-- The agreement with only so many choices of the model. -/
theorem agreement_greedy (context draft : List α) (n : ℕ) :
    agreement draft (greedy model context n) = min (accepted model context draft) n := by
  rw [accepted_eq_agreement model context draft (Nat.le_max_left draft.length n),
    ← agreement_take, take_greedy, min_eq_left (Nat.le_max_right draft.length n)]

/-- No more tokens are accepted than were drafted. -/
theorem accepted_le (context draft : List α) : accepted model context draft ≤ draft.length := by
  rw [accepted_eq_agreement model context draft le_rfl]
  exact agreement_le_left _ _

/-- A pass yields what the model chooses one by one. -/
theorem passOver_eq (context draft : List α) :
    passOver model context draft = greedy model context (accepted model context draft + 1) := by
  have hkept : draft.take (accepted model context draft) =
      greedy model context (accepted model context draft) := by
    have htake := take_agreement draft (greedy model context draft.length)
    rw [← accepted_eq_agreement model context draft le_rfl] at htake
    rw [htake, take_greedy, min_eq_left (accepted_le model context draft)]
  rw [passOver, hkept, greedy_add]
  rfl

/-- Decoding in passes up to a number of items. The drafts may depend on what has been generated and
on how much was accepted last; each is listed with the number of its items that were accepted. -/
inductive Speculates (drafter : List α → ℕ → List α) (prompt : List α) (limit : ℕ) :
    List α → ℕ → List (List α × ℕ) → List α → Prop
  | done {generated : List α} {last : ℕ} (h : limit ≤ generated.length) :
      Speculates drafter prompt limit generated last [] generated
  | pass {generated : List α} {last : ℕ} {passes : List (List α × ℕ)} {output : List α}
      (h : generated.length < limit)
      (hrest : Speculates drafter prompt limit
        (generated ++ (passOver model (prompt ++ generated) (drafter generated last)).take
          (limit - generated.length))
        (min (accepted model (prompt ++ generated) (drafter generated last))
          (limit - generated.length)) passes output) :
      Speculates drafter prompt limit generated last
        ((drafter generated last,
          min (accepted model (prompt ++ generated) (drafter generated last))
          (limit - generated.length)) :: passes) output

namespace Speculates

variable {model} {drafter : List α → ℕ → List α} {prompt generated output : List α} {limit last : ℕ}
  {passes : List (List α × ℕ)}

/-- The items of one pass are choices of the model. -/
theorem pass_eq (draft : List α) (room : ℕ)
    (hgenerated : generated = greedy model prompt generated.length) :
    generated ++ (passOver model (prompt ++ generated) draft).take room =
      greedy model prompt
        (generated.length + min (accepted model (prompt ++ generated) draft + 1) room) := by
  rw [passOver_eq, greedy_add model prompt, ← hgenerated]
  rw [take_greedy, min_comm]

/-- Whatever the drafts are, the output is what the model chooses one by one. -/
theorem lossless (h : Speculates model drafter prompt limit generated last passes output)
    (hgenerated : generated = greedy model prompt generated.length)
    (hlimit : generated.length ≤ limit) :
    output = greedy model prompt limit := by
  induction h with
  | done hdone => rw [hgenerated, hlimit.antisymm hdone]
  | @pass generated last passes output hlt _ ih =>
    have hpass := pass_eq (drafter generated last) (limit - generated.length) hgenerated
    refine ih ?_ ?_
    · rw [hpass, length_greedy]
    · rw [hpass, length_greedy]
      have := min_le_right (accepted model (prompt ++ generated) (drafter generated last) + 1)
        (limit - generated.length)
      omega

/-- Each pass yields what it accepts and one item more; at the end of the output the item may be
left out. -/
theorem count (h : Speculates model drafter prompt limit generated last passes output)
    (hlimit : generated.length ≤ limit) :
    generated.length + passes.length + (passes.map Prod.snd).sum = limit ∨
      generated.length + passes.length + (passes.map Prod.snd).sum = limit + 1 ∧
      generated.length < limit ∧
        generated.length + passes.length ≤ limit := by
  induction h with
  | done hdone => exact Or.inl (by simpa using hlimit.antisymm hdone)
  | @pass generated last passes output hlt hrest ih =>
    have hlength : (passOver model (prompt ++ generated) (drafter generated last)).length =
        accepted model (prompt ++ generated) (drafter generated last) + 1 := by
      rw [passOver_eq, length_greedy]
    simp only [List.length_append, List.length_take, hlength, List.length_cons, List.map_cons,
      List.sum_cons] at ih ⊢
    have hrest := ih (by omega)
    omega

/-- No pass accepts more than its draft. -/
theorem accepted_le_drafted
    (h : Speculates model drafter prompt limit generated last passes output) :
    ∀ p ∈ passes, p.2 ≤ p.1.length := by
  induction h with
  | done => exact fun p hp => absurd hp List.not_mem_nil
  | pass _ _ ih =>
    exact List.forall_mem_cons.mpr ⟨(min_le_left _ _).trans (accepted_le _ _ _), ih⟩

/-- A bound of the drafts. -/
theorem drafted_le (h : Speculates model drafter prompt limit generated last passes output)
    {bound : ℕ} (hbound : ∀ generated last, (drafter generated last).length ≤ bound) :
    ∀ p ∈ passes, p.1.length ≤ bound := by
  induction h with
  | done => exact fun p hp => absurd hp List.not_mem_nil
  | pass _ _ ih => exact List.forall_mem_cons.mpr ⟨hbound _ _, ih⟩

end Speculates

end Library
