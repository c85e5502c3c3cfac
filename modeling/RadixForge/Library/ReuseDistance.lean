import Mathlib.Data.Finset.Card
import Mathlib.Data.List.DropRight

/-!
# Reuse distances

A cache that gives up the least recently used item holds the items that were used last. So it misses
an access exactly if the item was not used before or at least as many other items as it has room for
were used since, and a larger cache misses no more.
-/

namespace Library

variable {α : Type*} [DecidableEq α]

/-- The items of a stream in the order of their last uses. -/
def lastUses (stream : List α) : List α := stream.foldl (fun stack a => stack.erase a ++ [a]) []

/-- The items that were used since the last use of an item. -/
def usedSince (stream : List α) (a : α) : Finset α := (stream.reverse.takeWhile (· ≠ a)).toFinset

/-- The item was not used before, or as many others as there is room for were used since. -/
def Far (capacity : ℕ) (stream : List α) (a : α) : Prop :=
  a ∈ stream → capacity ≤ (usedSince stream a).card

instance (capacity : ℕ) (stream : List α) (a : α) : Decidable (Far capacity stream a) :=
  inferInstanceAs (Decidable (_ → _))

/-- How many accesses come back late, after some earlier ones. -/
def farUses (capacity : ℕ) : List α → List α → ℕ
  | _, [] => 0
  | earlier, a :: rest => (if Far capacity earlier a then 1 else 0) +
    farUses capacity (earlier ++ [a]) rest

/-- An access of a cache that gives up the least recently used item, which stands first. -/
def useLru (capacity : ℕ) (cache : List α) (a : α) : List α :=
  if a ∈ cache then cache.erase a ++ [a]
  else if capacity < (cache ++ [a]).length then (cache ++ [a]).tail else cache ++ [a]

/-- The item that is used last moves to the end. -/
theorem lastUses_snoc (stream : List α) (a : α) :
    lastUses (stream ++ [a]) = (lastUses stream).erase a ++ [a] := by
  simp [lastUses]

/-- The last use of an item forgets what was used before it, that of another one is remembered. -/
theorem usedSince_snoc (stream : List α) (a b : α) :
    usedSince (stream ++ [b]) a = if b = a then ∅ else insert b (usedSince stream a) := by
  by_cases h : b = a <;> simp [usedSince, h]

/-- A smaller cache has more late accesses. -/
theorem farUses_anti {capacity capacity' : ℕ} (h : capacity ≤ capacity') (earlier stream : List α) :
    farUses capacity' earlier stream ≤ farUses capacity earlier stream := by
  induction stream generalizing earlier with
  | nil => exact le_rfl
  | cons a stream ih =>
    refine Nat.add_le_add ?_ (ih _)
    by_cases hfar : Far capacity' earlier a
    · have hless : Far capacity earlier a := fun hmem => h.trans (hfar hmem)
      rw [if_pos hfar, if_pos hless]
    · rw [if_neg hfar]
      exact Nat.zero_le _

/-- The items that were used since an item stand behind it in the order of the last uses. -/
theorem lastUses_spec (stream : List α) :
    (lastUses stream).Nodup ∧ (∀ a, a ∈ lastUses stream ↔ a ∈ stream) ∧
    ∀ a ∈ stream, ∃ before after, lastUses stream = before ++ a :: after ∧
    after.toFinset = usedSince stream a := by
  induction stream using List.reverseRecOn with
  | nil => exact ⟨List.nodup_nil, fun a => Iff.rfl, fun a ha => absurd ha List.not_mem_nil⟩
  | append_singleton stream b ih =>
    obtain ⟨hnodup, hmem, hsplit⟩ := ih
    have hfresh : b ∉ (lastUses stream).erase b := hnodup.not_mem_erase
    refine ⟨?_, fun a => ?_, fun a ha => ?_⟩
    · rw [lastUses_snoc]
      exact List.nodup_append.mpr ⟨hnodup.erase b, List.nodup_singleton b, fun x hx y hy hxy =>
        hfresh (by rwa [hxy, List.mem_singleton.mp hy] at hx)⟩
    · rw [lastUses_snoc, List.mem_append, List.mem_append, hnodup.mem_erase_iff,
        hmem, List.mem_singleton]
      tauto
    · rw [lastUses_snoc, usedSince_snoc]
      by_cases hb : b = a
      · exact ⟨(lastUses stream).erase b, [], by rw [hb], by simp [hb]⟩
      · have hold : a ∈ stream := (List.mem_append.mp ha).resolve_right fun h =>
          hb (List.mem_singleton.mp h).symm
        obtain ⟨before, after, hlast, hafter⟩ := hsplit a hold
        rw [if_neg hb, hlast]
        by_cases hbefore : b ∈ before
        · have hnot : b ∉ after := by
            rw [hlast] at hnodup
            exact fun h => (List.nodup_append.mp hnodup).2.2 b hbefore b
              (List.mem_cons_of_mem a h) rfl
          refine ⟨before.erase b, after ++ [b], ?_, ?_⟩
          · rw [List.erase_append_left _ hbefore, List.append_assoc, List.cons_append]
          · rw [List.toFinset_append, hafter, List.toFinset_cons, List.toFinset_nil,
              Finset.union_comm]
            rfl
        · refine ⟨before, after.erase b ++ [b], ?_, ?_⟩
          · rw [List.erase_append_right _ hbefore, List.erase_cons_tail (by simpa using Ne.symm hb),
              List.append_assoc, List.cons_append]
          · have hafterNodup : after.Nodup := by
              rw [hlast] at hnodup
              exact (List.nodup_cons.mp (List.nodup_append.mp hnodup).2.1).2
            rw [← hafter]
            ext x
            simp only [List.mem_toFinset, List.mem_append, hafterNodup.mem_erase_iff,
              List.mem_singleton, Finset.mem_insert]
            tauto

/-- A cache holds the items that do not come back late. -/
theorem mem_rtake_lastUses {capacity : ℕ} {stream : List α} {a : α} :
    a ∈ (lastUses stream).rtake capacity ↔ ¬ Far capacity stream a := by
  obtain ⟨hnodup, hmem, hsplit⟩ := lastUses_spec stream
  unfold Far
  rw [Classical.not_imp, not_le]
  constructor
  · intro ha
    have hin : a ∈ stream := (hmem a).mp (List.mem_of_mem_drop ha)
    refine ⟨hin, ?_⟩
    obtain ⟨before, after, hlast, hafter⟩ := hsplit a hin
    rw [hlast] at hnodup
    obtain ⟨_, hrest, hdisjoint⟩ := List.nodup_append.mp hnodup
    rw [← hafter, List.toFinset_card_of_nodup (List.nodup_cons.mp hrest).2]
    by_contra hfar
    rw [List.rtake, hlast, List.length_append, List.length_cons] at ha
    have hskip : before.length + (after.length + 1) - capacity =
        before.length + (after.length - capacity + 1) := by omega
    rw [hskip, ← List.drop_drop, List.drop_left, List.drop_succ_cons] at ha
    exact (List.nodup_cons.mp hrest).1 (List.mem_of_mem_drop ha)
  · rintro ⟨hin, hnear⟩
    obtain ⟨before, after, hlast, hafter⟩ := hsplit a hin
    rw [hlast] at hnodup
    rw [← hafter, List.toFinset_card_of_nodup
      (List.nodup_cons.mp (List.nodup_append.mp hnodup).2.1).2] at hnear
    rw [List.rtake, hlast, List.length_append, List.length_cons,
      List.drop_append_of_le_length (by omega)]
    exact List.mem_append_right _ List.mem_cons_self

/-- A cache that gives up the least recently used item holds the items that were used last. -/
theorem useLru_lastUses (capacity : ℕ) (stream : List α) (a : α) :
    useLru capacity ((lastUses stream).rtake capacity) a =
      (lastUses (stream ++ [a])).rtake capacity := by
  obtain ⟨hnodup, -⟩ := lastUses_spec stream
  rw [lastUses_snoc]
  generalize lastUses stream = stack at hnodup
  have hsplit : stack.take (stack.length - capacity) ++ stack.rtake capacity = stack :=
    List.take_append_drop _ _
  have hlength : (stack.rtake capacity).length = stack.length - (stack.length - capacity) :=
    List.length_drop
  generalize hold : stack.take (stack.length - capacity) = old at hsplit
  generalize stack.rtake capacity = cache at hsplit hlength
  have hsize : old.length = stack.length - capacity := by
    rw [← hold, List.length_take, min_eq_left (Nat.sub_le _ _)]
  have hdrop (items : List α) {n : ℕ} (hn : n = old.length) :
      (old ++ items).drop n = items := hn ▸ List.drop_left
  subst hsplit
  unfold useLru
  by_cases hcache : a ∈ cache
  · have hnot : a ∉ old := fun h => (List.nodup_append.mp hnodup).2.2 a h a hcache rfl
    rw [if_pos hcache, List.erase_append_right _ hnot, List.append_assoc, List.rtake]
    refine (hdrop _ ?_).symm
    simp only [List.length_append, List.length_cons, List.length_nil,
      List.length_erase_of_mem hcache] at hsize ⊢
    have := List.length_pos_of_mem hcache
    omega
  · rw [if_neg hcache]
    by_cases hmem : a ∈ old
    · have hpos := List.length_pos_of_mem hmem
      rw [List.length_append] at hsize hlength
      rw [if_pos (by rw [List.length_append, List.length_singleton]; omega),
        List.erase_append_left _ hmem, List.rtake, List.append_assoc, List.length_append,
        List.length_erase_of_mem hmem, List.length_append, List.length_singleton]
      have hskip : old.length - 1 + (cache.length + 1) - capacity = (old.erase a).length + 1 := by
        rw [List.length_erase_of_mem hmem]
        omega
      rw [hskip, ← List.drop_drop, List.drop_left, List.drop_one]
    · rw [List.erase_of_not_mem (fun h => (List.mem_append.mp h).elim hmem hcache),
        List.rtake, List.append_assoc]
      simp only [List.length_append, List.length_cons, List.length_nil] at hsize hlength ⊢
      split
      · have hskip : old.length + (cache.length + (0 + 1)) - capacity = old.length + 1 := by omega
        rw [hskip, ← List.drop_drop, List.drop_left, List.drop_one]
      · exact (hdrop _ (by omega)).symm

end Library
