import Mathlib.Data.List.Sort
import Mathlib.Data.List.Nodup

/-!
# Finite sets kept as ascending lists

The carrier of an ordered set container: a strictly ascending list, so that iteration order,
the first element and the size are those of the container. The order proof is part of the
value; two ordered sets with the same members are equal.
-/

namespace Library

/-- A finite set whose iteration order is ascending. -/
structure OrderedSet (α : Type*) [LinearOrder α] where
  toList : List α
  ascending : toList.Pairwise (· < ·)

namespace OrderedSet

variable {α : Type*} [LinearOrder α]

instance : Membership α (OrderedSet α) := ⟨fun s a => a ∈ s.toList⟩

instance (a : α) (s : OrderedSet α) : Decidable (a ∈ s) :=
  inferInstanceAs (Decidable (a ∈ s.toList))

instance : DecidableEq (OrderedSet α) := fun s t =>
  decidable_of_iff (s.toList = t.toList) ⟨fun h => by cases s; cases t; simp_all, fun h => h ▸ rfl⟩

/-- The set without members. -/
def empty : OrderedSet α := ⟨[], List.Pairwise.nil⟩

instance : EmptyCollection (OrderedSet α) := ⟨empty⟩

instance : Inhabited (OrderedSet α) := ⟨∅⟩

/-- Place a new element before the first larger one; a present element changes nothing. -/
def insertAscending (a : α) : List α → List α
  | [] => [a]
  | b :: rest => if a < b then a :: b :: rest else if a = b then b :: rest
    else b :: insertAscending a rest

/-- An insertion adds its value only. -/
theorem mem_insertAscending {a x : α} (values : List α) :
    x ∈ insertAscending a values ↔ x = a ∨ x ∈ values := by
  induction values with
  | nil => simp [insertAscending]
  | cons b rest ih =>
    simp only [insertAscending]
    split
    · simp
    · split
      · rename_i heq
        simp [heq]
      · simp only [List.mem_cons, ih]
        tauto

/-- An insertion keeps the values in ascending order. -/
theorem insertAscending_pairwise (a : α) (values : List α) (h : values.Pairwise (· < ·)) :
    (insertAscending a values).Pairwise (· < ·) := by
  induction values with
  | nil => simp [insertAscending]
  | cons b rest ih =>
    rw [List.pairwise_cons] at h
    simp only [insertAscending]
    split
    · rename_i hab
      refine List.pairwise_cons.mpr ⟨fun x hx => ?_, List.pairwise_cons.mpr h⟩
      rcases List.mem_cons.mp hx with rfl | hx
      · exact hab
      · exact hab.trans (h.1 x hx)
    · split
      · exact List.pairwise_cons.mpr h
      · rename_i hab hne
        refine List.pairwise_cons.mpr ⟨fun x hx => ?_, ih h.2⟩
        rcases (mem_insertAscending rest).mp hx with rfl | hx
        · exact lt_of_le_of_ne (not_lt.mp hab) (Ne.symm hne)
        · exact h.1 x hx

/-- Add an element. -/
def insert (a : α) (s : OrderedSet α) : OrderedSet α :=
  ⟨insertAscending a s.toList, insertAscending_pairwise a s.toList s.ascending⟩

/-- Remove an element. -/
def erase (a : α) (s : OrderedSet α) : OrderedSet α :=
  ⟨s.toList.erase a, s.ascending.sublist List.erase_sublist⟩

/-- The number of elements. -/
def size (s : OrderedSet α) : ℕ := s.toList.length

/-- The smallest element, where there is one. -/
def first? (s : OrderedSet α) : Option α := s.toList.head?

/-- The list of a set has its members. -/
@[simp] theorem mem_toList {a : α} {s : OrderedSet α} : a ∈ s.toList ↔ a ∈ s := Iff.rfl

/-- The empty set has no members. -/
@[simp] theorem notMem_empty (a : α) : a ∉ (∅ : OrderedSet α) := List.not_mem_nil

/-- An insertion adds its value to the members. -/
@[simp] theorem mem_insert {a x : α} {s : OrderedSet α} : x ∈ s.insert a ↔ x = a ∨ x ∈ s :=
  mem_insertAscending s.toList

/-- A set lists each member once. -/
theorem nodup (s : OrderedSet α) : s.toList.Nodup := s.ascending.imp (fun h => ne_of_lt h)

/-- A removal takes its value from the members. -/
@[simp] theorem mem_erase {a x : α} {s : OrderedSet α} : x ∈ s.erase a ↔ x ≠ a ∧ x ∈ s :=
  s.nodup.mem_erase_iff

/-- A set with the same members is the same set. -/
theorem ext_mem {s t : OrderedSet α} (h : ∀ a, a ∈ s ↔ a ∈ t) : s = t := by
  have hlist : s.toList = t.toList :=
    List.Perm.eq_of_pairwise (fun a b _ _ hab hba => absurd (hab.trans hba) (lt_irrefl a))
      s.ascending t.ascending ((List.perm_ext_iff_of_nodup s.nodup t.nodup).mpr h)
  cases s; cases t; simp_all

/-- Only the empty set has no member. -/
theorem eq_empty_iff {s : OrderedSet α} : s = ∅ ↔ ∀ a, a ∉ s :=
  ⟨fun h a => h ▸ notMem_empty a,
    fun h => ext_mem fun a => ⟨fun ha => absurd ha (h a), fun ha => absurd ha (notMem_empty a)⟩⟩

/-- A nonempty set starts with one of its members. -/
theorem exists_first {s : OrderedSet α} (h : s ≠ ∅) : ∃ a, s.first? = some a ∧ a ∈ s := by
  cases hs : s.toList with
  | nil => exact absurd (eq_empty_iff.mpr fun a ha => by simp [← mem_toList, hs] at ha) h
  | cons a rest => exact ⟨a, by simp [first?, hs], by simp [← mem_toList, hs]⟩

/-- The first value of a set is a member of it. -/
theorem mem_of_first {s : OrderedSet α} {a : α} (h : s.first? = some a) : a ∈ s :=
  List.mem_of_mem_head? (by simpa [first?] using h)

/-- A set with a member has a size. -/
theorem size_pos_of_mem {s : OrderedSet α} {a : α} (h : a ∈ s) : 0 < s.size :=
  List.length_pos_of_mem h

/-- With at most one element, any two members agree. -/
theorem eq_of_size_le_one {s : OrderedSet α} (h : s.size ≤ 1) {a b : α} (ha : a ∈ s) (hb : b ∈ s) :
    a = b := by
  obtain ⟨values, hasc⟩ := s
  match values with
  | [] => exact absurd ha List.not_mem_nil
  | [c] => rw [List.mem_singleton.mp ha, List.mem_singleton.mp hb]
  | _ :: _ :: _ => simp [size] at h

/-- Two different members make the set larger than one. -/
theorem size_le_one_of_unique {s : OrderedSet α} {a : α} (h : ∀ b ∈ s, b = a) : s.size ≤ 1 := by
  obtain ⟨values, hasc⟩ := s
  match values with
  | [] => simp [size]
  | [_] => simp [size]
  | b :: c :: rest =>
    have hb : b = a := h b List.mem_cons_self
    have hc : c = a := h c (List.mem_cons_of_mem _ List.mem_cons_self)
    have hlt : b < c := (List.pairwise_cons.mp hasc).1 c List.mem_cons_self
    exact absurd hlt (by rw [hb, hc]; exact lt_irrefl a)

end OrderedSet

end Library
