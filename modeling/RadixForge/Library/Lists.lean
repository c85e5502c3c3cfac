import Mathlib.Algebra.Order.Ring.Nat
import Mathlib.Data.List.Basic
import Mathlib.Data.List.Forall2

/-!
# Lists that agree, and lists of blocks

The number of items on which two lists agree from the front, and the number on which they agree from
the end.

A concatenation of blocks of equal length is an array of the blocks: each element is found by the
number of its block and its place in it.
-/

namespace Library

variable {α β : Type*}

section Agreement

variable [DecidableEq α]

/-- The number of leading items on which two lists agree. -/
def agreement : List α → List α → ℕ
  | a :: as, b :: bs => if a = b then agreement as bs + 1 else 0
  | _, _ => 0

/-- The number of items on which two lists agree from the end. -/
def endMatch (as bs : List α) : ℕ := agreement as.reverse bs.reverse

/-- An empty list agrees with nothing on the right. -/
@[simp] theorem agreement_nil_left (bs : List α) : agreement [] bs = 0 := by
  cases bs <;> rfl

/-- An empty list agrees with nothing on the left. -/
@[simp] theorem agreement_nil_right (as : List α) : agreement as [] = 0 := by
  cases as <;> rfl

/-- Lists agree on one item more than their tails if their heads are equal. -/
theorem agreement_cons (a b : α) (as bs : List α) :
    agreement (a :: as) (b :: bs) = if a = b then agreement as bs + 1 else 0 := rfl

/-- The lists agree on so many items and no more. -/
theorem le_agreement_iff {as bs : List α} {n : ℕ} :
    n ≤ agreement as bs ↔ n ≤ as.length ∧ n ≤ bs.length ∧ as.take n = bs.take n := by
  induction as generalizing bs n with
  | nil => cases n <;> simp
  | cons a as ih =>
    cases bs with
    | nil => cases n <;> simp
    | cons b bs =>
      cases n with
      | zero => simp
      | succ n =>
        rw [agreement_cons]
        by_cases hab : a = b
        · simp only [hab, if_true, List.length_cons, List.take_succ_cons, List.cons.injEq, true_and,
            Nat.add_le_add_iff_right, ih]
        · simp [hab]

/-- Lists agree on no more items than the first one has. -/
theorem agreement_le_left (as bs : List α) : agreement as bs ≤ as.length :=
  (le_agreement_iff.mp le_rfl).1

/-- Lists agree on no more items than the second one has. -/
theorem agreement_le_right (as bs : List α) : agreement as bs ≤ bs.length :=
  (le_agreement_iff.mp le_rfl).2.1

/-- The items on which two lists agree are the same in both. -/
theorem take_agreement (as bs : List α) : as.take (agreement as bs) = bs.take (agreement as bs) :=
  (le_agreement_iff.mp le_rfl).2.2

/-- Lists that agree so far agree on the next item exactly if both have it. -/
theorem lt_agreement_iff {as bs : List α} {n : ℕ} (h : n ≤ agreement as bs) :
    n < agreement as bs ↔ n < as.length ∧ n < bs.length ∧ as[n]? = bs[n]? := by
  rw [Nat.lt_iff_add_one_le, le_agreement_iff]
  refine and_congr_right fun has => and_congr_right fun hbs => ?_
  rw [List.take_add_one, List.take_add_one, (le_agreement_iff.mp h).2.2, List.append_cancel_left_eq,
    List.getElem?_eq_getElem has, List.getElem?_eq_getElem hbs]
  simp

/-- With only the beginning of a list there is agreement on that at most. -/
theorem agreement_take (as bs : List α) (n : ℕ) :
    agreement as (bs.take n) = min (agreement as bs) n := by
  refine le_antisymm (le_min ?_ ?_) (le_agreement_iff.mpr ⟨?_, ?_, ?_⟩)
  · obtain ⟨has, hbs, htake⟩ := le_agreement_iff.mp (le_refl (agreement as (bs.take n)))
    rw [List.length_take] at hbs
    exact le_agreement_iff.mpr ⟨has, hbs.trans (min_le_right _ _),
      by rw [htake, List.take_take, min_eq_left (hbs.trans (min_le_left _ _))]⟩
  · exact (agreement_le_right as (bs.take n)).trans
      (by rw [List.length_take]; exact min_le_left _ _)
  · exact (min_le_left _ _).trans (agreement_le_left as bs)
  · rw [List.length_take, min_comm]
    exact min_le_min_left n (agreement_le_right as bs)
  · rw [List.take_take, min_eq_left (min_le_right _ _)]
    exact (le_agreement_iff.mp (min_le_left (agreement as bs) n)).2.2

section Ends

variable {as bs : List α} {n : ℕ}

/-- The lists end in the same so many items. -/
theorem le_endMatch_iff :
    n ≤ endMatch as bs ↔ n ≤ as.length ∧ n ≤ bs.length ∧
      as.drop (as.length - n) = bs.drop (bs.length - n) := by
  rw [endMatch, le_agreement_iff, List.length_reverse, List.length_reverse, List.take_reverse,
    List.take_reverse, List.reverse_inj]

/-- Lists agree at their ends on no more items than the first one has. -/
theorem endMatch_le_left (as bs : List α) : endMatch as bs ≤ as.length :=
  (le_endMatch_iff.mp le_rfl).1

/-- Lists agree at their ends on no more items than the second one has. -/
theorem endMatch_le_right (as bs : List α) : endMatch as bs ≤ bs.length :=
  (le_endMatch_iff.mp le_rfl).2.1

/-- Lists that end alike so far do so one item further exactly if both have it. -/
theorem lt_endMatch_iff (h : n ≤ endMatch as bs) :
    n < endMatch as bs ↔ n < as.length ∧ n < bs.length ∧
      as[as.length - n - 1]? = bs[bs.length - n - 1]? := by
  rw [endMatch, lt_agreement_iff h, List.length_reverse, List.length_reverse]
  refine and_congr_right fun has => and_congr_right fun hbs => ?_
  rw [List.getElem?_reverse has, List.getElem?_reverse hbs, Nat.sub_right_comm,
    Nat.sub_right_comm bs.length]

end Ends

end Agreement

/-! ## Blocks -/

/-- A concatenation is as long as all blocks together. -/
theorem length_flatten_blocks {blocks : List (List α)} {m : ℕ}
    (h : ∀ block ∈ blocks, block.length = m) :
    blocks.flatten.length = blocks.length * m := by
  induction blocks with
  | nil => simp
  | cons block blocks ih =>
    obtain ⟨hblock, hblocks⟩ := List.forall_mem_cons.mp h
    rw [List.flatten_cons, List.length_append, hblock, ih hblocks, List.length_cons,
      Nat.succ_mul, Nat.add_comm]

/-- An element of a concatenation is one of a block. -/
theorem getElem?_flatten_blocks {blocks : List (List α)} {m : ℕ}
    (h : ∀ block ∈ blocks, block.length = m) (i : ℕ) {j : ℕ} (hj : j < m) :
    blocks.flatten[i * m + j]? = blocks[i]?.bind (·[j]?) := by
  induction blocks generalizing i with
  | nil => simp
  | cons block blocks ih =>
    obtain ⟨hblock, hblocks⟩ := List.forall_mem_cons.mp h
    rw [List.flatten_cons]
    cases i with
    | zero =>
      rw [Nat.zero_mul, Nat.zero_add, List.getElem?_append_left (by rw [hblock]; exact hj)]
      rfl
    | succ i =>
      have hskip : (i + 1) * m + j = block.length + (i * m + j) := by
        rw [Nat.succ_mul, hblock]
        omega
      rw [hskip, List.getElem?_append_right (Nat.le_add_right _ _),
        Nat.add_sub_cancel_left, ih hblocks]
      rfl

/-- A partial function has a value on every element of a list. -/
theorem mapM_eq_some_iff {f : α → Option β} {items : List α} {values : List β} :
    items.mapM f = some values ↔ List.Forall₂ (fun a b => f a = some b) items values := by
  induction items generalizing values with
  | nil =>
    rw [List.mapM_nil, List.forall₂_nil_left_iff]
    exact ⟨fun h => (Option.some.inj h).symm, fun h => congrArg some h.symm⟩
  | cons a items ih =>
    rw [List.mapM_cons, List.forall₂_cons_left_iff]
    constructor
    · intro h
      obtain ⟨b, hb, hrest⟩ := Option.bind_eq_some_iff.mp h
      obtain ⟨values', hvalues, hpure⟩ := Option.bind_eq_some_iff.mp hrest
      cases hpure
      exact ⟨b, values', hb, ih.mp hvalues, rfl⟩
    · rintro ⟨b, values', hb, hvalues, rfl⟩
      rw [hb, ih.mpr hvalues]
      rfl

end Library
