import Mathlib.Data.Finset.Card

/-!
# Paging

Requests for several items at once are served by a cache of bounded size: all items of a request
have to be in the cache after it, and only they may be loaded. A schedule that gives up, in a full
cache only, items that are requested again no earlier than every other one it could give up loads as
few items as any schedule does.

A schedule may also change its cache between the requests, and load items before anybody asks for
them. Who loads only what is requested can serve the same stream with no more loads, by keeping what
the other one has in its cache.
-/

namespace Library

variable {α : Type*} [DecidableEq α]

/-- The items of some requests. -/
def requested (requests : List (Finset α)) : Finset α := requests.foldr (· ∪ ·) ∅

/-- No requests ask for nothing. -/
@[simp] theorem requested_nil : requested ([] : List (Finset α)) = ∅ := rfl

/-- Requests ask for what the first one and the others ask for. -/
@[simp] theorem requested_cons (request : Finset α) (rest : List (Finset α)) :
    requested (request :: rest) = request ∪ requested rest := rfl

/-- A cache serves a request: the items are in it afterwards, nothing else has come in, and there is
room. -/
structure Serves (capacity : ℕ) (cache request after : Finset α) : Prop where
  needed : request ⊆ after
  demanded : after ⊆ cache ∪ request
  room : after.card ≤ capacity

/-- A schedule for a stream of requests, with the number of items that it loads. -/
inductive Schedule (capacity : ℕ) : Finset α → List (Finset α) → ℕ → Prop
  | nil (cache : Finset α) : Schedule capacity cache [] 0
  | cons {cache request after : Finset α} {rest : List (Finset α)} {loads : ℕ}
      (h : Serves capacity cache request after)
      (hrest : Schedule capacity after rest loads) :
      Schedule capacity cache (request :: rest) ((request \ cache).card + loads)

/-- A request is served without giving up an item while there is room, nor one that is requested
again before another one that could be given up. -/
structure EvictsFarthest (capacity : ℕ) (rest : List (Finset α)) (cache request after : Finset α) :
    Prop
    extends Serves capacity cache request after where
  full : ∀ x ∈ cache, x ∉ after → capacity ≤ after.card
  farthest : ∀ x ∈ cache, x ∉ after → ∀ y ∈ after, y ∉ request →
    ∀ n, x ∈ requested (rest.take n) → y ∈ requested (rest.take n)

/-- A schedule that always gives up what is requested last. -/
inductive FarthestSchedule (capacity : ℕ) : Finset α → List (Finset α) → ℕ → Prop
  | nil (cache : Finset α) : FarthestSchedule capacity cache [] 0
  | cons {cache request after : Finset α} {rest : List (Finset α)} {loads : ℕ}
      (h : EvictsFarthest capacity rest cache request after)
        (hrest : FarthestSchedule capacity after rest loads) :
      FarthestSchedule capacity cache (request :: rest) ((request \ cache).card + loads)

/-- The first schedule is ahead of the second: however far one looks, what it has loaded more than
the second is made up for by requested items that it holds. -/
def Ahead (first second : Finset α) (requests : List (Finset α)) (loads loads' : ℕ) : Prop :=
  ∀ n, loads + (second ∩ requested (requests.take n)).card ≤
    loads' + (first ∩ requested (requests.take n)).card

/-- What a cache holds of a request and of further items, and what has to be loaded for the request,
are the request and what a cache without limit would hold of the further items. -/
theorem card_ledger (cache request items : Finset α) :
    (cache ∩ (request ∪ items)).card + (request ∩ items).card + (request \ cache).card =
      ((cache ∪ request) ∩ items).card + request.card := by
  have hheld : cache ∩ (request ∪ items) = (request ∩ cache) ∪ ((cache \ request) ∩ items) := by
    ext x
    simp only [Finset.mem_inter, Finset.mem_union, Finset.mem_sdiff]
    tauto
  have hunlimited : (cache ∪ request) ∩ items =
      (request ∩ items) ∪ ((cache \ request) ∩ items) := by
    ext x
    simp only [Finset.mem_inter, Finset.mem_union, Finset.mem_sdiff]
    tauto
  have hdisjoint (s : Finset α) : Disjoint (request ∩ s) ((cache \ request) ∩ items) := by
    refine Finset.disjoint_left.mpr fun x hx hx' => ?_
    exact (Finset.mem_sdiff.mp (Finset.mem_inter.mp hx').1).2 (Finset.mem_inter.mp hx).1
  rw [hheld, hunlimited, Finset.card_union_of_disjoint (hdisjoint _),
    Finset.card_union_of_disjoint (hdisjoint _)]
  have hsplit := Finset.card_inter_add_card_sdiff request cache
  omega

/-- A step of the farthest schedule stays ahead. -/
theorem Ahead.step {capacity : ℕ} {first second request first' second' : Finset α}
    {rest : List (Finset α)} {loads loads' : ℕ}
    (h : Ahead first second (request :: rest) loads loads')
    (hfirst : EvictsFarthest capacity rest first request first')
    (hsecond : Serves capacity second request second') :
    Ahead first' second' rest (loads + (request \ first).card)
      (loads' + (request \ second).card) := by
  intro n
  generalize hitems : requested (rest.take n) = items
  by_cases hgiven : ∃ x ∈ first, x ∉ first' ∧ x ∈ items
  · -- an item that is looked for was given up: then the cache is full of items that are looked for
    obtain ⟨x, hx, hx', hxitems⟩ := hgiven
    have hkept : first' \ items ⊆ request \ items := by
      intro y hy
      obtain ⟨hy, hyitems⟩ := Finset.mem_sdiff.mp hy
      refine Finset.mem_sdiff.mpr ⟨?_, hyitems⟩
      by_contra hyrequest
      exact hyitems (hitems ▸ hfirst.farthest x hx hx' y hy hyrequest n (hitems ▸ hxitems))
    have hsecond' : request \ items ⊆ second' \ items :=
      Finset.sdiff_subset_sdiff hsecond.needed le_rfl
    have hcards := (Finset.card_le_card hkept).trans (Finset.card_le_card hsecond')
    have hfull := hfirst.full x hx hx'
    have hroom := hsecond.room
    have hsplit := Finset.card_inter_add_card_sdiff first' items
    have hsplit' := Finset.card_inter_add_card_sdiff second' items
    have hnow := h 1
    simp only [List.take_succ_cons, List.take_zero, requested_cons, requested_nil,
      Finset.union_empty] at hnow
    have hloads := Finset.card_inter_add_card_sdiff request first
    have hloads' := Finset.card_inter_add_card_sdiff request second
    rw [Finset.inter_comm request first] at hloads
    rw [Finset.inter_comm request second] at hloads'
    omega
  · -- otherwise all that is looked for was kept
    have hkept : (first ∪ request) ∩ items ⊆ first' ∩ items := by
      intro x hx
      obtain ⟨hx, hxitems⟩ := Finset.mem_inter.mp hx
      refine Finset.mem_inter.mpr ⟨?_, hxitems⟩
      rcases Finset.mem_union.mp hx with hx | hx
      · by_contra hx'
        exact hgiven ⟨x, hx, hx', hxitems⟩
      · exact hfirst.needed hx
    have hsecond' : second' ∩ items ⊆ (second ∪ request) ∩ items :=
      Finset.inter_subset_inter hsecond.demanded le_rfl
    have hcard := Finset.card_le_card hkept
    have hcard' := Finset.card_le_card hsecond'
    have hledger := card_ledger first request items
    have hledger' := card_ledger second request items
    have hnext := h (n + 1)
    rw [List.take_succ_cons, requested_cons, hitems] at hnext
    omega

/-- Ahead once, the farthest schedule stays ahead to the end. -/
theorem FarthestSchedule.le_of_ahead {capacity : ℕ} {first second : Finset α}
    {requests : List (Finset α)} {loads loads' start start' : ℕ}
    (h : FarthestSchedule capacity first requests loads)
    (h' : Schedule capacity second requests loads')
    (hahead : Ahead first second requests start start') :
    start + loads ≤ start' + loads' := by
  induction h generalizing second loads' start start' with
  | nil cache =>
    cases h'
    simpa using hahead 0
  | cons hstep _ ih =>
    cases h' with
    | cons hserves hrest' =>
      have hrest := ih hrest' (hahead.step hstep hserves)
      omega

/-- No schedule loads fewer items than the farthest one. -/
theorem FarthestSchedule.optimal {capacity : ℕ} {cache : Finset α} {requests : List (Finset α)}
    {loads loads' : ℕ} (h : FarthestSchedule capacity cache requests loads)
    (h' : Schedule capacity cache requests loads') : loads ≤ loads' := by
  have hstart : Ahead cache cache requests 0 0 := fun n => le_rfl
  have hle := h.le_of_ahead h' hstart
  omega

/-! ## Loading ahead -/

/-- A schedule that may load items between the requests. -/
inductive EagerSchedule (capacity : ℕ) : Finset α → List (Finset α) → ℕ → Prop
  | nil (cache : Finset α) : EagerSchedule capacity cache [] 0
  | cons {cache request after : Finset α} {rest : List (Finset α)} {loads : ℕ}
      (h : Serves capacity cache request after)
      (hrest : EagerSchedule capacity after rest loads) :
      EagerSchedule capacity cache (request :: rest) ((request \ cache).card + loads)
  | ahead {cache after : Finset α} {requests : List (Finset α)} {loads : ℕ}
      (hrest : EagerSchedule capacity after requests loads) :
      EagerSchedule capacity cache requests ((after \ cache).card + loads)

/-- What another cache serves can be served from any cache, if what it lacks of the other one is
loaded later. -/
theorem Serves.follow {capacity : ℕ} {cache request after : Finset α}
    (h : Serves capacity cache request after) (held : Finset α) :
    Serves capacity held request ((held ∪ request) ∩ after) ∧
      (request \ held).card + (after \ ((held ∪ request) ∩ after)).card ≤
        (cache \ held).card + (request \ cache).card := by
  refine ⟨⟨?_, Finset.inter_subset_left,
    (Finset.card_le_card Finset.inter_subset_right).trans h.room⟩, ?_⟩
  · exact Finset.subset_inter Finset.subset_union_right h.needed
  · have hkept : after \ ((held ∪ request) ∩ after) ⊆ (cache \ held) \ request := by
      intro x hx
      have hafter := h.demanded (Finset.mem_sdiff.mp hx).1
      simp only [Finset.mem_sdiff, Finset.mem_inter, Finset.mem_union] at hx hafter ⊢
      tauto
    have hasked : request \ held ⊆ (request \ cache) ∪ ((cache \ held) ∩ request) := by
      intro x hx
      simp only [Finset.mem_sdiff, Finset.mem_union, Finset.mem_inter] at hx ⊢
      tauto
    have hsplit := Finset.card_inter_add_card_sdiff (cache \ held) request
    have hless := Finset.card_le_card hkept
    have hmore := (Finset.card_le_card hasked).trans (Finset.card_union_le _ _)
    omega

/-- Whoever loads only what is requested needs no more loads. -/
theorem EagerSchedule.lazy {capacity : ℕ} {cache : Finset α} {requests : List (Finset α)}
    {loads : ℕ} (h : EagerSchedule capacity cache requests loads) (held : Finset α) :
    ∃ loads', Schedule capacity held requests loads' ∧ loads' ≤ (cache \ held).card + loads := by
  induction h generalizing held with
  | nil cache => exact ⟨0, .nil held, Nat.zero_le _⟩
  | cons hserves _ ih =>
    obtain ⟨hfollows, hcard⟩ := hserves.follow held
    obtain ⟨loads', hschedule, hle⟩ := ih ((held ∪ _) ∩ _)
    exact ⟨_, .cons hfollows hschedule, by omega⟩
  | @ahead cache after _ _ _ ih =>
    obtain ⟨loads', hschedule, hle⟩ := ih held
    have hlacks : after \ held ⊆ (cache \ held) ∪ (after \ cache) := by
      intro x hx
      simp only [Finset.mem_sdiff, Finset.mem_union] at hx ⊢
      tauto
    have hcard := (Finset.card_le_card hlacks).trans (Finset.card_union_le _ _)
    exact ⟨loads', hschedule, by omega⟩

end Library
