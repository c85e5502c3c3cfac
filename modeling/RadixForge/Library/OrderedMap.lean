import Mathlib.Data.List.Basic
import Mathlib.Data.List.Pairwise
import Mathlib.Order.Defs.Unbundled

/-!
# Ordered maps

A map is the list of its entries with strictly increasing keys. `emplace` keeps the entry of a key
that is there already, so emplacing the members of a list one by one makes the map of the first
occurrences. Two maps with the same answers are equal.
-/

namespace Library

variable {κ ν : Type*}

section Lookup

variable [DecidableEq κ]

/-- The first entry of a key. -/
def lookup (key : κ) : List (κ × ν) → Option ν
  | [] => none
  | (k, v) :: rest => if k = key then some v else lookup key rest

/-- Nothing is found in an empty map. -/
@[simp] theorem lookup_nil (key : κ) : lookup key ([] : List (κ × ν)) = none := rfl

/-- The first entry with the key is found. -/
theorem lookup_cons (key k : κ) (v : ν) (rest : List (κ × ν)) :
    lookup key ((k, v) :: rest) = if k = key then some v else lookup key rest := rfl

/-- A key with an answer is the key of an entry. -/
theorem exists_of_lookup {key : κ} {value : ν} {m : List (κ × ν)} (h : lookup key m = some value) :
    (key, value) ∈ m := by
  induction m with
  | nil => contradiction
  | cons entry rest ih =>
    obtain ⟨k, v⟩ := entry
    rw [lookup_cons] at h
    split at h
    · rename_i heq
      cases h
      rw [heq]
      exact List.mem_cons_self
    · exact List.mem_cons_of_mem _ (ih h)

end Lookup

section Emplace

variable [LT κ] [DecidableLT κ] [DecidableEq κ]

/-- Add an entry unless its key has one. -/
def emplace (key : κ) (value : ν) : List (κ × ν) → List (κ × ν)
  | [] => [(key, value)]
  | (k, v) :: rest =>
    if key < k then (key, value) :: (k, v) :: rest
    else if k = key then (k, v) :: rest
    else (k, v) :: emplace key value rest

/-- Emplacing brings in no other entry. -/
theorem eq_or_mem_of_mem_emplace {key : κ} {value : ν} {m : List (κ × ν)} {entry : κ × ν}
    (h : entry ∈ emplace key value m) : entry = (key, value) ∨ entry ∈ m := by
  induction m with
  | nil => exact .inl (List.mem_singleton.mp h)
  | cons first rest ih =>
    rw [emplace] at h
    split at h
    · exact List.mem_cons.mp h
    · split at h
      · exact .inr h
      · rcases List.mem_cons.mp h with rfl | h
        · exact .inr List.mem_cons_self
        · exact (ih h).imp_right (List.mem_cons_of_mem _)

end Emplace

/-- The keys increase strictly. -/
def SortedKeys [LT κ] (m : List (κ × ν)) : Prop := m.Pairwise fun a b => a.1 < b.1

/-- A key below all keys has no answer. -/
theorem lookup_eq_none_of_lt [LT κ] [DecidableEq κ] [Std.Asymm fun a b : κ => a < b] {key : κ}
    {m : List (κ × ν)} (h : ∀ entry ∈ m, key < entry.1) : lookup key m = none := by
  cases hlookup : lookup key m with
  | none => rfl
  | some value =>
    have hlt := h _ (exists_of_lookup hlookup)
    exact absurd hlt (Std.Asymm.asymm _ _ hlt)

section Order

variable [LT κ] [DecidableLT κ] [DecidableEq κ]
variable [Std.Trichotomous fun a b : κ => a < b] [IsTrans κ fun a b => a < b]

/-- Emplacing keeps the keys increasing. -/
theorem SortedKeys.emplace {key : κ} {value : ν} {m : List (κ × ν)} (h : SortedKeys m) :
    SortedKeys (emplace key value m) := by
  induction m with
  | nil => exact List.pairwise_singleton _ _
  | cons entry rest ih =>
    obtain ⟨k, v⟩ := entry
    obtain ⟨hfirst, hrest⟩ := List.pairwise_cons.mp h
    rw [Library.emplace]
    split
    · rename_i hlt
      refine List.pairwise_cons.mpr ⟨fun entry hentry => ?_, h⟩
      rcases List.mem_cons.mp hentry with rfl | hentry
      · exact hlt
      · exact trans_of (fun a b : κ => a < b) hlt (hfirst entry hentry)
    · split
      · exact h
      · rename_i hnot hne
        refine List.pairwise_cons.mpr ⟨fun entry hentry => ?_, ih hrest⟩
        rcases eq_or_mem_of_mem_emplace hentry with rfl | hentry
        · by_contra hge
          exact hne (Std.Trichotomous.trichotomous _ _ hge hnot)
        · exact hfirst entry hentry

variable [Std.Asymm fun a b : κ => a < b]

omit [Std.Trichotomous fun a b : κ => a < b] in
/-- A new entry answers for its key only, and only if the key had no answer. -/
theorem lookup_emplace {key : κ} {value : ν} {m : List (κ × ν)} (hsorted : SortedKeys m) (j : κ) :
    lookup j (emplace key value m) = (lookup j m).or (if key = j then some value else none) := by
  induction m with
  | nil => rfl
  | cons entry rest ih =>
    obtain ⟨k, v⟩ := entry
    obtain ⟨hfirst, hrest⟩ := List.pairwise_cons.mp hsorted
    rw [emplace]
    split
    · rename_i hlt
      by_cases hj : key = j
      · subst hj
        have hnone : lookup key ((k, v) :: rest) = none := by
          refine lookup_eq_none_of_lt fun entry hentry => ?_
          rcases List.mem_cons.mp hentry with rfl | hentry
          · exact hlt
          · exact trans_of (fun a b : κ => a < b) hlt (hfirst entry hentry)
        rw [hnone, lookup_cons, if_pos rfl, if_pos rfl]
        rfl
      · rw [lookup_cons, if_neg hj, if_neg hj, Option.or_none]
    · split
      · rename_i heq
        subst heq
        rw [lookup_cons]
        split
        · rfl
        · rw [Option.or_none]
      · rw [lookup_cons, ih hrest, lookup_cons]
        split
        · rfl
        · rfl

omit [DecidableLT κ] in
/-- Sorted entries with the same answers are the same. -/
theorem eq_of_lookup {m m' : List (κ × ν)} (h : SortedKeys m) (h' : SortedKeys m')
    (hsame : ∀ key, lookup key m = lookup key m') :
    m = m' := by
  induction m generalizing m' with
  | nil =>
    cases m' with
    | nil => rfl
    | cons entry rest =>
      obtain ⟨k, v⟩ := entry
      have hkey := hsame k
      rw [lookup_cons, if_pos rfl] at hkey
      contradiction
  | cons entry rest ih =>
    obtain ⟨k, v⟩ := entry
    obtain ⟨hfirst, hrest⟩ := List.pairwise_cons.mp h
    cases m' with
    | nil =>
      have hkey := hsame k
      rw [lookup_cons, if_pos rfl] at hkey
      contradiction
    | cons entry' rest' =>
      obtain ⟨k', v'⟩ := entry'
      obtain ⟨hfirst', hrest'⟩ := List.pairwise_cons.mp h'
      have habove {a b : κ} {v w : ν} {xs ys : List (κ × ν)} (hlt : a < b)
          (hys : ∀ entry ∈ ys, b < entry.1)
          (hsame : lookup a ((a, v) :: xs) = lookup a ((b, w) :: ys)) : False := by
        have hnone : lookup a ((b, w) :: ys) = none := by
          refine lookup_eq_none_of_lt fun entry hentry => ?_
          rcases List.mem_cons.mp hentry with rfl | hentry
          · exact hlt
          · exact trans_of (fun a b : κ => a < b) hlt (hys entry hentry)
        rw [hnone, lookup_cons, if_pos rfl] at hsame
        contradiction
      obtain rfl : k = k' :=
        Std.Trichotomous.trichotomous _ _ (fun hlt => habove hlt hfirst' (hsame k))
          (fun hlt => habove hlt hfirst (hsame k').symm)
      have hvalue := hsame k
      simp only [lookup_cons, if_true, Option.some.injEq] at hvalue
      subst hvalue
      congr 1
      refine ih hrest hrest' fun key => ?_
      by_cases hkey : k = key
      · subst hkey
        rw [lookup_eq_none_of_lt hfirst, lookup_eq_none_of_lt hfirst']
      · have := hsame key
        simpa only [lookup_cons, if_neg hkey] using this

/-- Emplacing the members of a list in order leaves the map of the first occurrences. -/
theorem lookup_foldl_emplace (members : List (κ × ν)) {m : List (κ × ν)} (h : SortedKeys m) :
    SortedKeys (members.foldl (fun m entry => emplace entry.1 entry.2 m) m) ∧
      ∀ key, lookup key (members.foldl (fun m entry => emplace entry.1 entry.2 m) m) =
        (lookup key m).or (lookup key members) := by
  induction members generalizing m with
  | nil => exact ⟨h, fun key => by simp⟩
  | cons entry rest ih =>
    obtain ⟨k, v⟩ := entry
    obtain ⟨hsorted, hlookup⟩ := ih (m := Library.emplace k v m) h.emplace
    refine ⟨hsorted, fun key => ?_⟩
    rw [List.foldl_cons, hlookup, lookup_emplace h, Option.or_assoc, lookup_cons]
    split <;> rfl

end Order

section Assign

variable [LT κ] [DecidableLT κ] [DecidableEq κ]

/-- Set the value of a key. -/
def assign (key : κ) (value : ν) : List (κ × ν) → List (κ × ν)
  | [] => [(key, value)]
  | (k, v) :: rest =>
    if key < k then (key, value) :: (k, v) :: rest
    else if k = key then (k, value) :: rest
    else (k, v) :: assign key value rest

/-- An assignment answers for its key only. -/
theorem lookup_assign (key : κ) (value : ν) (m : List (κ × ν)) (j : κ) :
    lookup j (assign key value m) = if key = j then some value else lookup j m := by
  induction m with
  | nil => rfl
  | cons entry rest ih =>
    obtain ⟨k, v⟩ := entry
    rw [assign]
    split
    · rw [lookup_cons]
    · split
      · rename_i heq
        rw [lookup_cons, lookup_cons, heq]
        split <;> rfl
      · rename_i hne
        rw [lookup_cons, lookup_cons, ih]
        by_cases hj : key = j
        · rw [if_pos hj, if_pos hj, if_neg fun hk => hne (hk.trans hj.symm)]
        · rw [if_neg hj, if_neg hj]

end Assign

end Library
