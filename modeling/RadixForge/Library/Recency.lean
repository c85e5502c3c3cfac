import Mathlib.Data.Nat.Basic
import Mathlib.Logic.Function.Basic
import Mathlib.Order.Basic

/-!
# The order of uses and the order of stamps

Things are used one after the other. Some uses stamp the thing with a clock that only advances,
others leave no mark. The stamps order what is known as its last stamped uses do; where the last use
of a thing left its stamp, the thing with the least stamp is the one least recently used.
-/

namespace Library

/-- When things were last used, and when a use last stamped them. Zero is never. -/
structure Recency (α : Type*) where
  now : ℕ := 0
  last : α → ℕ := fun _ => 0
  stamped : α → ℕ := fun _ => 0

namespace Recency

variable {α : Type*} [DecidableEq α]

/-- A use that leaves no mark. -/
def visit (r : Recency α) (a : α) : Recency α :=
  { r with now := r.now + 1, last := Function.update r.last a (r.now + 1) }

/-- A use that stamps the thing. -/
def touch (r : Recency α) (a : α) : Recency α :=
  { r.visit a with stamped := Function.update r.stamped a (r.now + 1) }

/-- A thing that is used is stamped. -/
theorem touch_stamped_pos (r : Recency α) (a : α) : 0 < (r.touch a).stamped a := by
  simp only [touch, Function.update_self]
  exact Nat.succ_pos _

/-- The use of a thing leaves the stamps of the others. -/
theorem touch_stamped_of_ne (r : Recency α) {a b : α} (h : b ≠ a) :
    (r.touch a).stamped b = r.stamped b :=
  Function.update_of_ne h _ _

omit [DecidableEq α] in
/-- The stamps of the known things agree with the order of their stamped uses. -/
structure Tracks (r : Recency α) (known : α → Prop) (stamp : α → ℕ) (clock : ℕ) : Prop where
  stamped_le : ∀ a, r.stamped a ≤ r.last a
  last_le : ∀ a, r.last a ≤ r.now
  stamp_le : ∀ a, known a → stamp a ≤ clock
  order : ∀ a b, known a → known b → 0 < r.stamped a → 0 < r.stamped b → stamp a ≤ stamp b →
    r.stamped a ≤ r.stamped b

namespace Tracks

variable {r : Recency α} {known known' : α → Prop} {stamp stamp' : α → ℕ} {clock clock' : ℕ}

omit [DecidableEq α] in
/-- Nothing was used yet. -/
theorem empty (hstamp : ∀ a, known a → stamp a ≤ clock) : Tracks {} known stamp clock :=
  ⟨fun _ => le_rfl, fun _ => le_rfl, hstamp, fun _ _ _ _ _ _ _ => le_rfl⟩

omit [DecidableEq α] in
/-- Things are forgotten, new ones get known that were never stamped, and the clock advances. -/
theorem mono (h : r.Tracks known stamp clock) (hstamp : ∀ a, known' a → stamp' a ≤ clock')
    (hold : ∀ a, known' a → 0 < r.stamped a → known a ∧ stamp' a = stamp a) :
    r.Tracks known' stamp' clock' where
  stamped_le := h.stamped_le
  last_le := h.last_le
  stamp_le := hstamp
  order a b ha hb hposa hposb hle := by
    obtain ⟨ha', heqa⟩ := hold a ha hposa
    obtain ⟨hb', heqb⟩ := hold b hb hposb
    rw [heqa, heqb] at hle
    exact h.order a b ha' hb' hposa hposb hle

/-- A use without a mark. -/
theorem visit (h : r.Tracks known stamp clock) (a : α) : (r.visit a).Tracks known stamp clock where
  stamped_le b := by
    have hle := (h.stamped_le b).trans (h.last_le b)
    simp only [Recency.visit, Function.update_apply]
    split
    · exact hle.trans (Nat.le_succ _)
    · exact h.stamped_le b
  last_le b := by
    simp only [Recency.visit, Function.update_apply]
    split
    · exact le_rfl
    · exact (h.last_le b).trans (Nat.le_succ _)
  stamp_le := h.stamp_le
  order := h.order

/-- A use that leaves the newest stamp. -/
theorem touch (h : r.Tracks known stamp clock) {a : α} (hnew : clock < stamp' a)
    (hstamp : ∀ b, known' b → stamp' b ≤ clock')
    (hold : ∀ b, known' b → b ≠ a → 0 < r.stamped b → known b ∧ stamp' b = stamp b) :
    (r.touch a).Tracks known' stamp' clock' where
  stamped_le b := by
    simp only [Recency.touch, Recency.visit, Function.update_apply]
    split
    · exact le_rfl
    · exact h.stamped_le b
  last_le := (h.visit a).last_le
  stamp_le := hstamp
  order b c hb hc hposb hposc hle := by
    simp only [Recency.touch, Function.update_apply] at hposb hposc ⊢
    by_cases hba : b = a
    · by_cases hca : c = a
      · rw [if_pos hba, if_pos hca]
      · -- the newest stamp is above every other one
        rw [if_neg hca] at hposc
        obtain ⟨hc', heqc⟩ := hold c hc hca hposc
        rw [hba, heqc] at hle
        exact absurd (hle.trans (h.stamp_le c hc')) (not_le.mpr hnew)
    · rw [if_neg hba] at hposb ⊢
      by_cases hca : c = a
      · rw [if_pos hca]
        exact ((h.stamped_le b).trans (h.last_le b)).trans (Nat.le_succ _)
      · rw [if_neg hca] at hposc ⊢
        obtain ⟨hb', heqb⟩ := hold b hb hba hposb
        obtain ⟨hc', heqc⟩ := hold c hc hca hposc
        rw [heqb, heqc] at hle
        exact h.order b c hb' hc' hposb hposc hle

omit [DecidableEq α] in
/-- The thing with the least stamp is the least recently used, if its last use left the stamp. -/
theorem least (h : r.Tracks known stamp clock) {a b : α} (ha : known a) (hb : known b)
    (hposa : 0 < r.stamped a) (hposb : 0 < r.stamped b) (hleast : stamp a ≤ stamp b)
    (hmarked : r.last a = r.stamped a) : ¬ r.last b < r.last a := by
  rw [hmarked]
  exact not_lt.mpr ((h.order a b ha hb hposa hposb hleast).trans (h.stamped_le b))

end Tracks

end Recency

end Library
