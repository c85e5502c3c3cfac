import Mathlib.Algebra.Order.BigOperators.Group.List

/-!
# Passes over a list with a state

A pass visits the items of a list in order, threads a state through, and keeps what the visit of an
item returns, if anything. Where the state accounts for a collection of tokens, in any order, and
each visit trades the token of its item for those of what it keeps, so does the whole pass. A common
case are claims on what the state has at different keys, where a visit touches the key of its item
only.
-/

namespace Library

variable {α β σ τ κ ν : Type*}

/-- Visit the items in order; an item that returns nothing is removed. -/
def pass (visit : α → σ → Option β × σ) : List α → σ → List β × σ
  | [], s => ([], s)
  | a :: rest, s =>
    let (b, s) := visit a s
    let (bs, s) := pass visit rest s
    (b.toList ++ bs, s)

/-- A pass over nothing changes nothing. -/
@[simp] theorem pass_nil (visit : α → σ → Option β × σ) (s : σ) : pass visit [] s = ([], s) := rfl

/-- A pass visits the first item, and then the others with the state after it. -/
theorem pass_cons (visit : α → σ → Option β × σ) (a : α) (rest : List α) (s : σ) :
    pass visit (a :: rest) s = ((visit a s).1.toList ++ (pass visit rest (visit a s).2).1,
      (pass visit rest (visit a s).2).2) := rfl

/-- The rule for passes: if each visit trades the token of its item for those of what it keeps, and
keeps what has the property, then so does the pass. -/
theorem pass_trade {visit : α → σ → Option β × σ} {before : α → τ} {after : β → τ}
    {H : σ → List τ → Prop} (hperm : ∀ s l l', H s l → l.Perm l' → H s l') {P : α → Prop}
    {Q : β → Prop}
    (hvisit : ∀ a s l, P a → H s (before a :: l) →
      H (visit a s).2 ((visit a s).1.toList.map after ++ l) ∧ ∀ b ∈ (visit a s).1, Q b)
    {as : List α} {s : σ} {l : List τ} (hP : ∀ a ∈ as, P a) (h : H s (as.map before ++ l)) :
    H (pass visit as s).2 ((pass visit as s).1.map after ++ l) ∧
      ∀ b ∈ (pass visit as s).1, Q b := by
  induction as generalizing s l with
  | nil => exact ⟨h, fun b hb => absurd hb List.not_mem_nil⟩
  | cons a rest ih =>
    obtain ⟨htraded, hfirst⟩ := hvisit a s _ (hP a List.mem_cons_self) h
    obtain ⟨hdone, hrest⟩ := ih (fun a ha => hP a (List.mem_cons_of_mem _ ha))
      (hperm _ _ _ htraded (List.perm_append_comm_assoc _ _ _))
    rw [pass_cons]
    refine ⟨hperm _ _ _ hdone ?_, fun b hb => ?_⟩
    · rw [List.map_append, List.append_assoc]
      exact List.perm_append_comm_assoc _ _ _
    · rcases List.mem_append.mp hb with hb | hb
      · exact hfirst b (Option.mem_toList.mp hb)
      · exact hrest b hb

/-- If each visit keeps only what has the property, so does the pass. -/
theorem pass_forall {visit : α → σ → Option β × σ} {P : α → Prop} {Q : β → Prop}
    (hvisit : ∀ a s, P a → ∀ b ∈ (visit a s).1, Q b) (as : List α) (hP : ∀ a ∈ as, P a) (s : σ) :
    ∀ b ∈ (pass visit as s).1, Q b := by
  induction as generalizing s with
  | nil => exact fun b hb => absurd hb List.not_mem_nil
  | cons a rest ih =>
    intro b hb
    rw [pass_cons] at hb
    rcases List.mem_append.mp hb with hb | hb
    · exact hvisit a s (hP a List.mem_cons_self) b (Option.mem_toList.mp hb)
    · exact ih (fun a ha => hP a (List.mem_cons_of_mem _ ha)) _ b hb

/-- If what a visit keeps weighs at most as much as its item, the pass adds no weight. -/
theorem pass_sum_le {M : Type*} [AddCommMonoid M] [PartialOrder M] [IsOrderedAddMonoid M]
    {visit : α → σ → Option β × σ} {P : α → Prop} {f : α → M} {g : β → M}
    (hvisit : ∀ a s, P a → ((visit a s).1.toList.map g).sum ≤ f a) (as : List α)
    (hP : ∀ a ∈ as, P a) (s : σ) :
    ((pass visit as s).1.map g).sum ≤ (as.map f).sum := by
  induction as generalizing s with
  | nil => exact le_rfl
  | cons a rest ih =>
    have hfirst := hvisit a s (hP a List.mem_cons_self)
    have hrest := ih (fun a ha => hP a (List.mem_cons_of_mem _ ha)) (visit a s).2
    rw [pass_cons, List.map_append, List.sum_append, List.map_cons, List.sum_cons]
    exact add_le_add hfirst hrest

/-- If only items with a property are kept with another one, there are no more of these than of
those. -/
theorem pass_countP {visit : α → σ → Option β × σ} {p : α → Bool} {q : β → Bool}
    (hvisit : ∀ a s, ∀ b ∈ (visit a s).1, q b = true → p a = true) (as : List α) (s : σ) :
    (pass visit as s).1.countP q ≤ as.countP p := by
  induction as generalizing s with
  | nil => exact Nat.le_refl _
  | cons a rest ih =>
    have hrest := ih (visit a s).2
    have hfirst : (visit a s).1.toList.countP q ≤ [a].countP p := by
      cases hkept : (visit a s).1 with
      | none => exact Nat.zero_le _
      | some b =>
        have hb := hvisit a s b hkept
        by_cases hq : q b = true
        · simp [hq, hb hq]
        · simp [hq]
    rw [pass_cons, List.countP_append, ← List.singleton_append, List.countP_append]
    omega

/-- A pass keeps at most one item for each it visits. -/
theorem pass_length_le (visit : α → σ → Option β × σ) (as : List α) (s : σ) :
    (pass visit as s).1.length ≤ as.length := by
  have hcount : (pass visit as s).1.countP (fun _ => true) ≤ as.countP (fun _ => true) :=
    pass_countP (fun _ _ _ _ _ => rfl) as s
  simpa using hcount

/-- If a visit keeps an item under the key it had, the pass keeps the order of the keys. -/
theorem pass_sublist {visit : α → σ → Option β × σ} {before : α → κ} {after : β → κ}
    (hvisit : ∀ a s, ∀ b ∈ (visit a s).1, after b = before a) (as : List α) (s : σ) :
    ((pass visit as s).1.map after).Sublist (as.map before) := by
  induction as generalizing s with
  | nil => exact List.Sublist.refl _
  | cons a rest ih =>
    have hrest := ih (visit a s).2
    rw [pass_cons, List.map_append, List.map_cons]
    cases hkept : (visit a s).1 with
    | none => exact hrest.cons _
    | some b =>
      rw [Option.toList_some, List.map_singleton, hvisit a s b hkept]
      exact hrest.cons_cons _

/-- Two parts of a list without duplicates stand in it the other way round only if one of them is
empty. -/
theorem swapped_sublist_iff {xs ys l : List κ} (hnodup : l.Nodup) (h : (xs ++ ys).Sublist l) :
    (ys ++ xs).Sublist l ↔ xs = [] ∨ ys = [] := by
  classical
  constructor
  · intro hswapped
    by_contra hsome
    rw [not_or] at hsome
    obtain ⟨x, xs', rfl⟩ := List.exists_cons_of_ne_nil hsome.1
    obtain ⟨y, ys', rfl⟩ := List.exists_cons_of_ne_nil hsome.2
    have hpositions : l.Pairwise fun a b => l.idxOf a < l.idxOf b := by
      refine List.pairwise_iff_getElem.mpr fun i j hi hj hij => ?_
      rwa [hnodup.idxOf_getElem i hi, hnodup.idxOf_getElem j hj]
    have hxy := (List.pairwise_append.mp (hpositions.sublist h)).2.2 x List.mem_cons_self
      y List.mem_cons_self
    have hyx := (List.pairwise_append.mp (hpositions.sublist hswapped)).2.2 y List.mem_cons_self
      x List.mem_cons_self
    exact lt_asymm hxy hyx
  · rintro (rfl | rfl)
    · simpa using h
    · simpa using h

/-- What is claimed of the value that a state has at a key. -/
structure Claim (κ ν : Type*) where
  key : κ
  holds : ν → Prop

/-- The claims hold, and they are about different keys. -/
structure Claimed (view : σ → κ → ν) (s : σ) (claims : List (Claim κ ν)) : Prop where
  nodup : (claims.map Claim.key).Nodup
  holds : ∀ c ∈ claims, c.holds (view s c.key)

/-- A step that touches one key, and what can be claimed of it afterwards. -/
structure Settles (view : σ → κ → ν) (s s' : σ) (key : κ) (kept : Option (Claim κ ν)) : Prop where
  other : ∀ k, k ≠ key → view s' k = view s k
  kept : ∀ c ∈ kept, c.key = key ∧ c.holds (view s' key)

namespace Claimed

variable {view : σ → κ → ν} {s s' : σ} {c : Claim κ ν} {claims claims' : List (Claim κ ν)}

/-- Claims may be listed in any order. -/
theorem perm (h : Claimed view s claims) (hperm : claims.Perm claims') :
    Claimed view s claims' where
  nodup := (hperm.map Claim.key).nodup_iff.mp h.nodup
  holds c hc := h.holds c (hperm.mem_iff.mpr hc)

/-- A step that touches no claimed key. -/
theorem same (h : Claimed view s claims) (hsame : ∀ c ∈ claims, view s' c.key = view s c.key) :
    Claimed view s' claims where
  nodup := h.nodup
  holds c hc := (hsame c hc).symm ▸ h.holds c hc

/-- A claim about a new key. -/
theorem cons (h : Claimed view s claims) (c : Claim κ ν) (hfresh : c.key ∉ claims.map Claim.key)
    (hc : c.holds (view s c.key)) :
    Claimed view s (c :: claims) where
  nodup := List.nodup_cons.mpr ⟨hfresh, h.nodup⟩
  holds := List.forall_mem_cons.mpr ⟨hc, h.holds⟩

/-- A step that touches one key. -/
theorem settle (h : Claimed view s (c :: claims)) {kept : Option (Claim κ ν)}
    (hsettles : Settles view s s' c.key kept) :
    Claimed view s' (kept.toList ++ claims) := by
  obtain ⟨hnotin, hnodup⟩ := List.nodup_cons.mp h.nodup
  have hrest : Claimed view s' claims :=
    same ⟨hnodup, fun d hd => h.holds d (List.mem_cons_of_mem _ hd)⟩ fun d hd =>
      hsettles.other d.key fun heq => hnotin (heq ▸ List.mem_map_of_mem hd)
  cases kept with
  | none => exact hrest
  | some d =>
    obtain ⟨hkey, hd⟩ := hsettles.kept d rfl
    refine ⟨?_, fun e he => ?_⟩
    · rw [Option.toList_some, List.singleton_append, List.map_cons, hkey]
      exact h.nodup
    · rcases List.mem_cons.mp he with rfl | he
      · rw [hkey]
        exact hd
      · exact hrest.holds e he

end Claimed

/-- The rule for claims: each visit touches the key of its item only. -/
theorem pass_claimed {visit : α → σ → Option β × σ} {view : σ → κ → ν} {before : α → Claim κ ν}
    {after : β → Claim κ ν} {P : α → Prop}
    (hvisit : ∀ a s, P a → (before a).holds (view s (before a).key) →
      Settles view s (visit a s).2 (before a).key ((visit a s).1.map after))
    {as : List α} {s : σ} {claims : List (Claim κ ν)} (hP : ∀ a ∈ as, P a)
    (h : Claimed view s (as.map before ++ claims)) :
    Claimed view (pass visit as s).2 ((pass visit as s).1.map after ++ claims) := by
  refine (pass_trade (H := fun s claims => Claimed view s claims) (P := P) (Q := fun _ => True)
    (fun _ _ _ h hperm => h.perm hperm) (fun a s claims ha h => ⟨?_, fun _ _ => trivial⟩) hP h).1
  have hsettled := h.settle (hvisit a s ha (h.holds _ List.mem_cons_self))
  cases hkept : (visit a s).1 with
  | none =>
    rw [hkept] at hsettled
    exact hsettled
  | some b =>
    rw [hkept] at hsettled
    exact hsettled

/-- If each visit relates the states before and after it by a preorder and keeps only what has the
property, so does the pass. -/
theorem pass_related {visit : α → σ → Option β × σ} {R : σ → σ → Prop} (hrefl : ∀ s, R s s)
    (htrans : ∀ s s' s'', R s s' → R s' s'' → R s s'') {P : α → Prop} {Q : β → Prop}
    (hvisit : ∀ a s, P a → R s (visit a s).2 ∧ ∀ b ∈ (visit a s).1, Q b) (as : List α)
    (hP : ∀ a ∈ as, P a) (s : σ) :
    R s (pass visit as s).2 ∧ ∀ b ∈ (pass visit as s).1, Q b := by
  refine ⟨?_, pass_forall (fun a s ha => (hvisit a s ha).2) as hP s⟩
  induction as generalizing s with
  | nil => exact hrefl s
  | cons a rest ih =>
    have hfirst := (hvisit a s (hP a List.mem_cons_self)).1
    exact htrans _ _ _ hfirst (ih (fun a ha => hP a (List.mem_cons_of_mem _ ha)) (visit a s).2)

end Library
