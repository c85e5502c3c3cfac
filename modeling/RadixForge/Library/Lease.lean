import Mathlib.Data.List.Nodup
import Mathlib.Logic.Function.Basic

/-!
# Leases of identifiers

A pool hands out identifiers. Each valid identifier is free, held by somebody, or parked idle at
a place that can hold one. The four moves between these states keep the accounts in order.
-/

namespace Library

variable {ι κ : Type*} {valid : ι → Prop} {free held : List ι} {idle : κ → Option ι}

/-- Every valid identifier is in exactly one of the three states. -/
structure Leases (valid : ι → Prop) (free held : List ι) (idle : κ → Option ι) : Prop where
  free_nodup : free.Nodup
  held_nodup : held.Nodup
  cover : ∀ i, valid i ↔ i ∈ free ∨ i ∈ held ∨ ∃ k, idle k = some i
  free_held : ∀ i ∈ free, i ∉ held
  free_idle : ∀ i ∈ free, ∀ k, idle k ≠ some i
  held_idle : ∀ i ∈ held, ∀ k, idle k ≠ some i
  idle_inj : ∀ a b i, idle a = some i → idle b = some i → a = b

namespace Leases

/-- Initially everything is free. -/
theorem init (hnodup : free.Nodup) : Leases (· ∈ free) free [] (fun _ : κ => none) where
  free_nodup := hnodup
  held_nodup := List.nodup_nil
  cover := by simp
  free_held := by simp
  free_idle := by simp
  held_idle := by simp
  idle_inj := by simp

/-- The first free identifier is handed out. -/
theorem take {i : ι} (h : Leases valid (i :: free) held idle) :
    Leases valid free (i :: held) idle where
  free_nodup := (List.nodup_cons.mp h.free_nodup).2
  held_nodup := List.nodup_cons.mpr ⟨h.free_held i List.mem_cons_self, h.held_nodup⟩
  cover j := by
    rw [h.cover j]
    simp only [List.mem_cons]
    tauto
  free_held j hj := by
    rw [List.mem_cons, not_or]
    refine ⟨?_, h.free_held j (List.mem_cons_of_mem _ hj)⟩
    rintro rfl
    exact (List.nodup_cons.mp h.free_nodup).1 hj
  free_idle j hj := h.free_idle j (List.mem_cons_of_mem _ hj)
  held_idle j hj := by
    rcases List.mem_cons.mp hj with rfl | hj
    · exact h.free_idle j List.mem_cons_self
    · exact h.held_idle j hj
  idle_inj := h.idle_inj

/-- What is parked after parking one more identifier at a vacant place. -/
theorem exists_update_some [DecidableEq κ] {k : κ} (hk : idle k = none) (i j : ι) :
    (∃ a, Function.update idle k (some i) a = some j) ↔ j = i ∨ ∃ a, idle a = some j := by
  constructor
  · rintro ⟨a, ha⟩
    rw [Function.update_apply] at ha
    split at ha
    · exact Or.inl (Option.some.inj ha).symm
    · exact Or.inr ⟨a, ha⟩
  · rintro (rfl | ⟨a, ha⟩)
    · exact ⟨k, Function.update_self ..⟩
    · refine ⟨a, ?_⟩
      rw [Function.update_of_ne, ha]
      rintro rfl
      rw [hk] at ha
      contradiction

/-- What is parked after taking the identifier of one place away. -/
theorem exists_update_none [DecidableEq κ] {k : κ} {i : ι} (h : Leases valid free held idle)
    (hk : idle k = some i) (j : ι) :
    (∃ a, Function.update idle k none a = some j) ↔ j ≠ i ∧ ∃ a, idle a = some j := by
  constructor
  · rintro ⟨a, ha⟩
    rw [Function.update_apply] at ha
    split at ha
    · contradiction
    · rename_i hak
      refine ⟨?_, a, ha⟩
      rintro rfl
      exact hak (h.idle_inj a k j ha hk)
  · rintro ⟨hne, a, ha⟩
    refine ⟨a, ?_⟩
    rw [Function.update_of_ne, ha]
    rintro rfl
    exact hne (Option.some.inj (ha.symm.trans hk))

variable [DecidableEq ι]

/-- A held identifier returns to the pool. -/
theorem giveBack {i : ι} (h : Leases valid free held idle) (hi : i ∈ held) :
    Leases valid (free ++ [i]) (held.filter (· ≠ i)) idle where
  free_nodup := by
    rw [List.nodup_append]
    refine ⟨h.free_nodup, List.nodup_singleton i, ?_⟩
    rintro a ha b hb rfl
    exact h.free_held a ha ((List.mem_singleton.mp hb) ▸ hi)
  held_nodup := h.held_nodup.filter _
  cover j := by
    rw [h.cover j]
    by_cases hj : j = i
    · simp [hj, hi]
    · simp [hj]
  free_held j hj := by
    rcases List.mem_append.mp hj with hj | hj
    · exact fun hmem => h.free_held j hj (List.mem_of_mem_filter hmem)
    · simp [List.mem_singleton.mp hj]
  free_idle j hj := by
    rcases List.mem_append.mp hj with hj | hj
    · exact h.free_idle j hj
    · exact List.mem_singleton.mp hj ▸ h.held_idle i hi
  held_idle j hj := h.held_idle j (List.mem_of_mem_filter hj)
  idle_inj := h.idle_inj

variable [DecidableEq κ]

/-- A held identifier is parked at a vacant place. -/
theorem park {i : ι} {k : κ} (h : Leases valid free held idle) (hi : i ∈ held)
    (hk : idle k = none) :
    Leases valid free (held.filter (· ≠ i)) (Function.update idle k (some i)) where
  free_nodup := h.free_nodup
  held_nodup := h.held_nodup.filter _
  cover j := by
    rw [h.cover j]
    rw [exists_update_some hk]
    by_cases hj : j = i
    · simp [hj, hi]
    · simp [hj]
  free_held j hj hmem := h.free_held j hj (List.mem_of_mem_filter hmem)
  free_idle j hj a := by
    by_cases hak : a = k
    · rw [hak, Function.update_self]
      rintro heq
      exact h.free_held j hj (Option.some.inj heq ▸ hi)
    · rw [Function.update_of_ne hak]
      exact h.free_idle j hj a
  held_idle j hj a := by
    have hj' := List.mem_filter.mp hj
    by_cases hak : a = k
    · rw [hak, Function.update_self]
      rintro heq
      simp [Option.some.inj heq] at hj'
    · rw [Function.update_of_ne hak]
      exact h.held_idle j hj'.1 a
  idle_inj a b j ha hb := by
    by_cases hak : a = k <;> by_cases hbk : b = k
    · rw [hak, hbk]
    · rw [hak, Function.update_self] at ha
      rw [Function.update_of_ne hbk] at hb
      exact absurd hb (Option.some.inj ha ▸ h.held_idle i hi b)
    · rw [hbk, Function.update_self] at hb
      rw [Function.update_of_ne hak] at ha
      exact absurd ha (Option.some.inj hb ▸ h.held_idle i hi a)
    · rw [Function.update_of_ne hak] at ha
      rw [Function.update_of_ne hbk] at hb
      exact h.idle_inj a b j ha hb

/-- A parked identifier returns to the pool. -/
theorem reclaim {i : ι} {k : κ} (h : Leases valid free held idle) (hk : idle k = some i) :
    Leases valid (free ++ [i]) held (Function.update idle k none) where
  free_nodup := by
    rw [List.nodup_append]
    refine ⟨h.free_nodup, List.nodup_singleton i, ?_⟩
    rintro a ha b hb rfl
    exact h.free_idle a ha k ((List.mem_singleton.mp hb) ▸ hk)
  held_nodup := h.held_nodup
  cover j := by
    rw [h.cover j]
    rw [h.exists_update_none hk]
    by_cases hj : j = i
    · subst hj
      have hsome : ∃ a, idle a = some j := ⟨k, hk⟩
      simp [hsome]
    · simp [hj]
  free_held j hj := by
    rcases List.mem_append.mp hj with hj | hj
    · exact h.free_held j hj
    · exact fun hmem => h.held_idle j hmem k (List.mem_singleton.mp hj ▸ hk)
  free_idle j hj a := by
    by_cases hak : a = k
    · rw [hak, Function.update_self]
      exact Option.some_ne_none j |>.symm
    · rw [Function.update_of_ne hak]
      rcases List.mem_append.mp hj with hj | hj
      · exact h.free_idle j hj a
      · rw [List.mem_singleton.mp hj]
        exact fun ha => hak (h.idle_inj a k i ha hk)
  held_idle j hj a := by
    by_cases hak : a = k
    · rw [hak, Function.update_self]
      exact Option.some_ne_none j |>.symm
    · rw [Function.update_of_ne hak]
      exact h.held_idle j hj a
  idle_inj a b j ha hb := by
    have hne {c : κ} (hc : Function.update idle k none c = some j) : idle c = some j := by
      by_cases hck : c = k
      · rw [hck, Function.update_self] at hc
        contradiction
      · rwa [Function.update_of_ne hck] at hc
    exact h.idle_inj a b j (hne ha) (hne hb)

end Leases

end Library
