import Mathlib.Algebra.BigOperators.Fin
import Mathlib.Data.Finset.Sort
import RadixForge.Library.Paging
import RadixForge.Study.ExpertCache

/-!
# The oracle and LRU

The misses of `simulate` are those of a schedule that keeps all experts of a token resident
together, and `belady` is the schedule that gives up what is needed last. So the oracle misses no
more often.
-/

namespace RadixForge.MoeStudy

open Library

variable {L k c : ℕ}

section Lru

/-- One access of a single cache, with the misses so far. -/
def lruAccess (c : ℕ) (state : Cache × ℕ) (e : ℕ) : Cache × ℕ :=
  if e ∈ state.1 then (moveToEnd state.1 e, state.2) else (addLast c state.1 e, state.2 + 1)

/-- The accesses of a row. -/
def lruRow (c : ℕ) (state : Cache × ℕ) (experts : List ℕ) : Cache × ℕ :=
  experts.foldl (lruAccess c) state

/-- The accesses of a layer. -/
def lruLayer (c : ℕ) (state : Cache × ℕ) (rows : List (List ℕ)) : Cache × ℕ :=
  rows.foldl (lruRow c) state

/-- After some accesses of distinct experts the cache ends with them, and what stands before them
was there before. -/
structure Recent (c : ℕ) (cache : Cache) (misses : ℕ) (accessed : List ℕ) (state : Cache × ℕ) :
    Prop where
  recent : ∃ old, state.1 = old ++ accessed ∧ old.Sublist cache
  nodup : state.1.Nodup
  room : state.1.length ≤ c
  loaded : misses + (accessed.toFinset \ cache.toFinset).card ≤ state.2

/-- One more expert is accessed. -/
theorem Recent.access {cache : Cache} {misses : ℕ} {accessed : List ℕ} {state : Cache × ℕ}
    (h : Recent c cache misses accessed state) {e : ℕ} (he : e ∉ accessed)
    (hroom : (accessed ++ [e]).length ≤ c) :
    Recent c cache misses (accessed ++ [e]) (lruAccess c state e) := by
  obtain ⟨⟨old, hcache, hold⟩, hnodup, hlength, hloaded⟩ := h
  have haccessed : (accessed ++ [e]).toFinset = insert e accessed.toFinset := by
    simp
  unfold lruAccess
  split
  · rename_i hmem
    have hmem' : e ∈ old := by
      rw [hcache] at hmem
      exact (List.mem_append.mp hmem).resolve_right he
    have herase : state.1.erase e = old.erase e ++ accessed := by
      rw [hcache, List.erase_append_left _ hmem']
    have hperm : (moveToEnd state.1 e).Perm state.1 :=
      (List.perm_append_singleton e _).trans (List.perm_cons_erase hmem).symm
    refine ⟨⟨old.erase e, ?_, List.erase_sublist.trans hold⟩, hperm.nodup_iff.mpr hnodup, ?_, ?_⟩
    · simp only [moveToEnd, herase, List.append_assoc]
    · exact hperm.length_eq.trans_le hlength
    · rw [haccessed, Finset.insert_sdiff_of_mem _ (List.mem_toFinset.mpr (hold.subset hmem'))]
      exact hloaded
  · rename_i hmem
    have hnew : (state.1 ++ [e]).Nodup := by
      refine List.nodup_append.mpr ⟨hnodup, List.nodup_singleton e, ?_⟩
      intro a ha b hb hab
      rw [hab, List.mem_singleton.mp hb] at ha
      exact hmem ha
    have hcard : misses + ((accessed ++ [e]).toFinset \ cache.toFinset).card ≤ state.2 + 1 := by
      have hle := Finset.card_insert_le e (accessed.toFinset \ cache.toFinset)
      have hsubset : (insert e accessed.toFinset) \ cache.toFinset ⊆
          insert e (accessed.toFinset \ cache.toFinset) := by
        intro x hx
        simp only [Finset.mem_sdiff, Finset.mem_insert] at hx ⊢
        exact hx.1.imp_right fun hx' => ⟨hx', hx.2⟩
      have hcard := Finset.card_le_card hsubset
      rw [haccessed]
      omega
    have hlast : (state.1 ++ [e]).length ≤ c + 1 := by
      rw [List.length_append, List.length_singleton]
      omega
    unfold addLast
    dsimp only
    split
    · rename_i hlong
      rw [hcache, List.append_assoc] at hlong hnew hlast ⊢
      cases old with
      | nil => exact absurd hroom (by simpa using hlong)
      | cons oldest old =>
        refine ⟨⟨old, rfl, (List.sublist_cons_self oldest old).trans hold⟩, hnew.tail, ?_, hcard⟩
        rw [List.length_tail]
        omega
    · rename_i hshort
      refine ⟨⟨old, ?_, hold⟩, hnew, Nat.not_lt.mp hshort, hcard⟩
      rw [hcache, List.append_assoc]

/-- All experts of a row are accessed. -/
theorem Recent.row {cache : Cache} {misses : ℕ} {accessed experts : List ℕ} {state : Cache × ℕ}
    (h : Recent c cache misses accessed state) (hdistinct : (accessed ++ experts).Nodup)
    (hroom : (accessed ++ experts).length ≤ c) :
    Recent c cache misses (accessed ++ experts) (lruRow c state experts) := by
  induction experts generalizing accessed state with
  | nil => simpa [lruRow] using h
  | cons e experts ih =>
    rw [List.append_cons] at hdistinct hroom ⊢
    have hprefix : (accessed ++ [e]).Nodup := (List.nodup_append.mp hdistinct).1
    have he : e ∉ accessed :=
      fun he => (List.nodup_append.mp hprefix).2.2 e he e (List.mem_singleton_self e) rfl
    have hshort : (accessed ++ [e]).length ≤ c := by
      rw [List.length_append] at hroom
      omega
    exact ih (h.access he hshort) hdistinct hroom

/-- A row of distinct experts is served, and each of them that was not there is a miss. -/
theorem lruRow_serves {state : Cache × ℕ} (hnodup : state.1.Nodup) (hlength : state.1.length ≤ c)
    {experts : List ℕ} (hdistinct : experts.Nodup) (hroom : experts.length ≤ c) :
    Serves c state.1.toFinset experts.toFinset (lruRow c state experts).1.toFinset ∧
      (lruRow c state experts).1.Nodup ∧ (lruRow c state experts).1.length ≤ c ∧
      state.2 + (experts.toFinset \ state.1.toFinset).card ≤ (lruRow c state experts).2 := by
  have hstart : Recent c state.1 state.2 [] state :=
    ⟨⟨state.1, (List.append_nil _).symm, List.Sublist.refl _⟩, hnodup, hlength, by simp⟩
  obtain ⟨⟨old, hcache, hold⟩, hnodup', hlength', hloaded⟩ := hstart.row hdistinct hroom
  rw [List.nil_append] at hcache hloaded
  refine ⟨⟨?_, ?_, ?_⟩, hnodup', hlength', hloaded⟩
  · rw [hcache, List.toFinset_append]
    exact Finset.subset_union_right
  · rw [hcache, List.toFinset_append]
    exact Finset.union_subset_union
      (fun x hx => List.mem_toFinset.mpr (hold.subset (List.mem_toFinset.mp hx))) le_rfl
  · exact (List.toFinset_card_le _).trans hlength'

/-- The misses of a layer are no fewer than the loads of a schedule. -/
theorem lruLayer_schedule {state : Cache × ℕ} (hnodup : state.1.Nodup)
    (hlength : state.1.length ≤ c) {rows : List (List ℕ)}
    (hrows : ∀ experts ∈ rows, experts.Nodup ∧ experts.length ≤ c) :
    ∃ loads, Schedule c state.1.toFinset (rows.map List.toFinset) loads ∧
      state.2 + loads ≤ (lruLayer c state rows).2 := by
  induction rows generalizing state with
  | nil => exact ⟨0, .nil _, le_rfl⟩
  | cons experts rows ih =>
    obtain ⟨⟨hdistinct, hroom⟩, hrest⟩ := List.forall_mem_cons.mp hrows
    obtain ⟨hserves, hnodup', hlength', hmisses⟩ := lruRow_serves hnodup hlength hdistinct hroom
    obtain ⟨loads, hschedule, hloads⟩ := ih hnodup' hlength' hrest
    exact ⟨_, .cons hserves hschedule,
      by rw [← add_assoc]; exact (Nat.add_le_add_right hmisses loads).trans hloads⟩

end Lru

section Belady

variable {needed : Finset ℕ} {nextUse : NextUse}

/-- After some of the needed experts: they are there, none of the needed ones was given up, experts
were given up in a full cache only, and none of those that could be given up has a larger key than
they. -/
structure Serving (c : ℕ) (needed : Finset ℕ) (nextUse : NextUse) (start : Finset ℕ × ℕ)
    (done : Finset ℕ) (state : Finset ℕ × ℕ) : Prop where
  only : done ⊆ needed
  served : done ⊆ state.1
  kept : start.1 ∩ needed ⊆ state.1
  demanded : state.1 ⊆ start.1 ∪ done
  room : state.1.card ≤ c
  full : ∀ x ∈ start.1, x ∉ state.1 → c ≤ state.1.card
  farthest : ∀ x ∈ start.1, x ∉ state.1 → ∀ y ∈ state.1, y ∉ needed →
    victimKey nextUse y ≤ victimKey nextUse x
  misses : state.2 = start.2 + (done \ start.1).card

/-- A needed expert that is held needs no load. -/
theorem Serving.hit {start state : Finset ℕ × ℕ} {done : Finset ℕ}
    (h : Serving c needed nextUse start done state) {e : ℕ} (he : e ∈ needed) (hfresh : e ∉ done)
    (hmem : e ∈ state.1) : Serving c needed nextUse start (insert e done) state := by
  have hstart : e ∈ start.1 := (Finset.mem_union.mp (h.demanded hmem)).resolve_right hfresh
  refine ⟨Finset.insert_subset he h.only, Finset.insert_subset hmem h.served, h.kept, ?_, h.room,
    h.full, h.farthest, ?_⟩
  · exact h.demanded.trans (Finset.union_subset_union le_rfl (Finset.subset_insert e done))
  · rw [Finset.insert_sdiff_of_mem _ hstart]
    exact h.misses

/-- A needed expert that is not held counts as one more miss. -/
theorem Serving.miss {start state : Finset ℕ × ℕ} {done : Finset ℕ}
    (h : Serving c needed nextUse start done state) {e : ℕ} (he : e ∈ needed) (hfresh : e ∉ done)
    (hmem : e ∉ state.1) : state.2 + 1 = start.2 + (insert e done \ start.1).card := by
  have hstart : e ∉ start.1 := fun hstart => hmem (h.kept (Finset.mem_inter.mpr ⟨hstart, he⟩))
  rw [Finset.insert_sdiff_of_notMem _ hstart,
    Finset.card_insert_of_notMem fun h => hfresh (Finset.mem_sdiff.mp h).1, h.misses]
  rfl

/-- The needed experts do not fill the cache, so there is a victim, one with the largest key. -/
theorem exists_victim (order : SetOrder) (nextUse : NextUse) (hneeded : needed.card ≤ c)
    {held : Finset ℕ} {e : ℕ} (he : e ∈ needed) (hmem : e ∉ held) (hfull : c ≤ held.card) :
    ∃ victim, (order.elements (held \ needed)).argmax (victimKey nextUse) = some victim ∧
      victim ∈ held ∧ victim ∉ needed ∧
      ∀ y ∈ held, y ∉ needed → victimKey nextUse y ≤ victimKey nextUse victim := by
  have hvictims : held \ needed ≠ ∅ := by
    intro hempty
    have hsubset : held ⊂ needed :=
      ⟨Finset.sdiff_eq_empty_iff_subset.mp hempty, fun hsuperset => hmem (hsuperset he)⟩
    have hlt := Finset.card_lt_card hsubset
    omega
  cases hvictim : (order.elements (held \ needed)).argmax (victimKey nextUse) with
  | none =>
    obtain ⟨x, hx⟩ := Finset.nonempty_iff_ne_empty.mpr hvictims
    have hnil := List.argmax_eq_none.mp hvictim
    exact absurd ((order.mem _ x).mpr hx) (by rw [hnil]; exact List.not_mem_nil)
  | some victim =>
    have hmemVictim := (order.mem _ _).mp (List.argmax_mem hvictim)
    obtain ⟨hheld, hunneeded⟩ := Finset.mem_sdiff.mp hmemVictim
    refine ⟨victim, rfl, hheld, hunneeded, fun y hy hy' => ?_⟩
    exact List.le_of_mem_argmax ((order.mem _ y).mpr (Finset.mem_sdiff.mpr ⟨hy, hy'⟩)) hvictim

/-- A needed expert takes the place of the victim. -/
theorem Serving.replace {start state : Finset ℕ × ℕ} {done : Finset ℕ}
    (h : Serving c needed nextUse start done state) {e victim : ℕ} (he : e ∈ needed)
    (hfresh : e ∉ done) (hmem : e ∉ state.1) (hfull : c ≤ state.1.card) (hheld : victim ∈ state.1)
    (hunneeded : victim ∉ needed)
    (hlargest : ∀ y ∈ state.1, y ∉ needed → victimKey nextUse y ≤ victimKey nextUse victim) :
    Serving c needed nextUse start (insert e done)
      (insert e (state.1.erase victim), state.2 + 1) := by
  have hcard : (insert e (state.1.erase victim)).card = state.1.card := by
    rw [Finset.card_insert_of_notMem fun h => hmem (Finset.mem_of_mem_erase h),
      Finset.card_erase_add_one hheld]
  refine ⟨Finset.insert_subset he h.only, ?_, ?_, ?_, ?_, fun _ _ _ => ?_, ?_,
    h.miss he hfresh hmem⟩
  · refine Finset.insert_subset_insert e fun x hx => Finset.mem_erase.mpr ⟨?_, h.served hx⟩
    rintro rfl
    exact hunneeded (h.only hx)
  · intro x hx
    refine Finset.mem_insert_of_mem (Finset.mem_erase.mpr ⟨?_, h.kept hx⟩)
    rintro rfl
    exact hunneeded (Finset.mem_inter.mp hx).2
  · intro x hx
    rcases Finset.mem_insert.mp hx with rfl | hx
    · exact Finset.mem_union_right _ (Finset.mem_insert_self _ _)
    · exact Finset.union_subset_union le_rfl (Finset.subset_insert e done)
        (h.demanded (Finset.mem_of_mem_erase hx))
  · exact hcard.trans_le h.room
  · exact hcard ▸ hfull
  · intro x hx hx' y hy hy'
    have hyheld : y ∈ state.1 := by
      rcases Finset.mem_insert.mp hy with rfl | hy
      · exact absurd he hy'
      · exact Finset.mem_of_mem_erase hy
    by_cases hxheld : x ∈ state.1
    · have hxvictim : x = victim := by
        by_contra hne
        exact hx' (Finset.mem_insert_of_mem (Finset.mem_erase.mpr ⟨hne, hxheld⟩))
      rw [hxvictim]
      exact hlargest y hyheld hy'
    · exact h.farthest x hx hxheld y hyheld hy'

/-- A needed expert is loaded into a cache that has room. -/
theorem Serving.load {start state : Finset ℕ × ℕ} {done : Finset ℕ}
    (h : Serving c needed nextUse start done state) {e : ℕ} (he : e ∈ needed) (hfresh : e ∉ done)
    (hmem : e ∉ state.1) (hspare : ¬ c ≤ state.1.card) :
    Serving c needed nextUse start (insert e done) (insert e state.1, state.2 + 1) := by
  refine ⟨Finset.insert_subset he h.only, Finset.insert_subset_insert e h.served,
    h.kept.trans (Finset.subset_insert e _), ?_, ?_, ?_, ?_, h.miss he hfresh hmem⟩
  · intro x hx
    rcases Finset.mem_insert.mp hx with rfl | hx
    · exact Finset.mem_union_right _ (Finset.mem_insert_self _ _)
    · exact Finset.union_subset_union le_rfl (Finset.subset_insert e done) (h.demanded hx)
  · rw [Finset.card_insert_of_notMem hmem]
    omega
  · intro x hx hx'
    exact absurd (h.full x hx fun hmem => hx' (Finset.mem_insert_of_mem hmem)) hspare
  · intro x hx hx'
    exact absurd (h.full x hx fun hmem => hx' (Finset.mem_insert_of_mem hmem)) hspare

/-- One more needed expert is served. -/
theorem Serving.serve {start state : Finset ℕ × ℕ} {done : Finset ℕ}
    (h : Serving c needed nextUse start done state) (order : SetOrder) (hneeded : needed.card ≤ c)
    {e : ℕ} (he : e ∈ needed) (hfresh : e ∉ done) :
    ∃ state', serveExpert order c needed nextUse state e = some state' ∧
      Serving c needed nextUse start (insert e done) state' := by
  unfold serveExpert
  split
  · rename_i hmem
    exact ⟨state, rfl, h.hit he hfresh hmem⟩
  · rename_i hmem
    split
    · rename_i hfull
      obtain ⟨victim, hvictim, hheld, hunneeded, hlargest⟩ :=
        exists_victim order nextUse hneeded he hmem hfull
      rw [hvictim]
      exact ⟨_, rfl, h.replace he hfresh hmem hfull hheld hunneeded hlargest⟩
    · rename_i hspare
      exact ⟨_, rfl, h.load he hfresh hmem hspare⟩

/-- All needed experts are served, and a victim is always found. -/
theorem serveToken_spec (order : SetOrder) (victimOrder : ℕ → SetOrder) (hneeded : needed.card ≤ c)
    {start : Finset ℕ × ℕ} (hroom : start.1.card ≤ c) :
    ∃ state', serveToken order victimOrder c needed nextUse start = some state' ∧
      Serving c needed nextUse start needed state' := by
  have hserve : ∀ (experts : List ℕ) (done : Finset ℕ) (state : Finset ℕ × ℕ),
      Serving c needed nextUse start done state →
      experts.Nodup → (∀ e ∈ experts, e ∈ needed ∧ e ∉ done) →
      ∃ state', experts.foldlM (fun state e => serveExpert (victimOrder e) c needed nextUse state e)
        state = some state' ∧
        Serving c needed nextUse start (done ∪ experts.toFinset) state' := by
    intro experts
    induction experts with
    | nil => exact fun done state h _ _ => ⟨state, rfl, by simpa using h⟩
    | cons e experts ih =>
      intro done state h hnodup hexperts
      obtain ⟨hfresh, hnodup⟩ := List.nodup_cons.mp hnodup
      obtain ⟨⟨he, hnot⟩, hrest⟩ := List.forall_mem_cons.mp hexperts
      obtain ⟨state', hstep, hserved⟩ := h.serve (victimOrder e) hneeded he hnot
      obtain ⟨state'', hfold, hserved'⟩ := ih (insert e done) state' hserved hnodup fun x hx =>
        ⟨(hrest x hx).1, fun hmem =>
        (Finset.mem_insert.mp hmem).elim (fun heq => hfresh (heq ▸ hx)) (hrest x hx).2⟩
      refine ⟨state'', ?_, ?_⟩
      · rw [List.foldlM_cons, hstep]
        exact hfold
      · rwa [List.toFinset_cons, Finset.union_insert, ← Finset.insert_union]
  have hstart : Serving c needed nextUse start ∅ start :=
    { only := Finset.empty_subset _, served := Finset.empty_subset _,
      kept := Finset.inter_subset_left
      demanded := Finset.subset_union_left, room := hroom, full := fun x hx hx' => absurd hx hx'
      farthest := fun x hx hx' => absurd hx hx', misses := by simp }
  obtain ⟨state', hfold, hserved⟩ :=
    hserve (order.elements needed) ∅ start hstart (order.nodup needed)
    fun e he => ⟨(order.mem needed e).mp he, Finset.notMem_empty e⟩
  have hall : ∅ ∪ (order.elements needed).toFinset = needed := by
    ext x
    simp [order.mem]
  rw [hall] at hserved
  exact ⟨state', hfold, hserved⟩

/-- The tokens from some position on that use an expert. -/
def uses (x : ℕ) : ℕ → List (List ℕ) → List ℕ
  | _, [] => []
  | t, experts :: rest => if x ∈ experts then t :: uses x (t + 1) rest else uses x (t + 1) rest

/-- The next uses are built of all uses. -/
theorem buildNextUse_eq {rows : List (List ℕ)} (hrows : ∀ experts ∈ rows, experts.Nodup) :
    buildNextUse rows = fun x => uses x 0 rows := by
  have hrow : ∀ (t : ℕ) (experts : List ℕ) (nextUse : NextUse), experts.Nodup →
      experts.foldl (fun nextUse e => Function.update nextUse e (t :: nextUse e)) nextUse =
        fun x => if x ∈ experts then t :: nextUse x else nextUse x := by
    intro t experts
    induction experts with
    | nil => intro nextUse _; simp
    | cons e experts ih =>
      intro nextUse hnodup
      obtain ⟨hfresh, hnodup⟩ := List.nodup_cons.mp hnodup
      rw [List.foldl_cons, ih _ hnodup]
      funext x
      by_cases hx : x = e
      · rw [hx, if_neg hfresh, if_pos List.mem_cons_self, Function.update_self]
      · rw [Function.update_of_ne hx]
        simp [hx]
  have hbuild : ∀ t, (rows.zipIdx t).foldr (fun entry nextUse =>
      entry.1.foldl (fun nextUse e => Function.update nextUse e (entry.2 :: nextUse e)) nextUse)
        (fun _ => []) =
        fun x => uses x t rows := by
    induction rows with
    | nil => intro t; rfl
    | cons experts rows ih =>
      obtain ⟨hnodup, hrest⟩ := List.forall_mem_cons.mp hrows
      intro t
      rw [List.zipIdx_cons, List.foldr_cons, ih hrest, hrow t experts _ hnodup]
      rfl
  exact hbuild 0

/-- Popping the needed experts leaves the uses behind the token. -/
theorem popNeeded_uses (t : ℕ) (experts : List ℕ) (rest : List (List ℕ)) :
    popNeeded experts.toFinset (fun x => uses x t (experts :: rest)) =
      fun x => uses x (t + 1) rest := by
  funext x
  by_cases hx : x ∈ experts <;> simp [popNeeded, uses, hx]

/-- Uses lie between the first token and the last one. -/
theorem uses_bounds {x t i : ℕ} {rows : List (List ℕ)} (h : i ∈ uses x t rows) :
    t ≤ i ∧ i < t + rows.length := by
  induction rows generalizing t with
  | nil => cases h
  | cons experts rows ih =>
    rw [List.length_cons]
    unfold uses at h
    split at h
    · rcases List.mem_cons.mp h with rfl | h
      · omega
      · have hbounds := ih h
        omega
    · have hbounds := ih h
      omega

/-- An expert is requested within some tokens if its next use is. -/
theorem requested_take_iff {x t n : ℕ} {rows : List (List ℕ)} :
    x ∈ requested ((rows.map List.toFinset).take n) ↔
      ∃ i, (uses x t rows).head? = some i ∧ i < t + n := by
  induction rows generalizing t n with
  | nil => simp [uses]
  | cons experts rows ih =>
    cases n with
    | zero =>
      refine ⟨fun h => by simp at h, fun ⟨i, hi, hlt⟩ => ?_⟩
      have hbounds := uses_bounds (List.mem_of_head? hi)
      omega
    | succ n =>
      rw [List.map_cons, List.take_succ_cons, requested_cons, Finset.mem_union,
        List.mem_toFinset, ih (t := t + 1)]
      by_cases hx : x ∈ experts
      · simp [uses, hx]
      · rw [uses, if_neg hx, or_iff_right hx, Nat.add_right_comm, Nat.add_assoc]

/-- An expert whose key is no larger is requested no later, as long as the sentinel lies behind the
stream. -/
theorem requested_of_key_le {x y t n : ℕ} {rows : List (List ℕ)}
    (hlength : t + rows.length ≤ 2 ^ 60)
    (hkey : victimKey (fun x => uses x t rows) y ≤ victimKey (fun x => uses x t rows) x)
    (hx : x ∈ requested ((rows.map List.toFinset).take n)) :
    y ∈ requested ((rows.map List.toFinset).take n) := by
  obtain ⟨i, hi, hlt⟩ := (requested_take_iff (t := t)).mp hx
  have hbounds := uses_bounds (List.mem_of_head? hi)
  have hsentinel : (1 <<< 60 : ℕ) = 2 ^ 60 := rfl
  simp only [victimKey, hi, Option.getD_some] at hkey
  cases hj : (uses y t rows).head? with
  | none =>
    rw [hj, Option.getD_none, hsentinel] at hkey
    omega
  | some j =>
    rw [hj, Option.getD_some] at hkey
    exact (requested_take_iff (t := t)).mpr ⟨j, hj, hkey.trans_lt hlt⟩

/-- The oracle of a layer is a schedule that gives up what is requested last, and counts its loads.
-/
theorem serveTokens_farthest (orders : SetOrders) (layer : ℕ) {t : ℕ} {rows : List (List ℕ)}
    (hrows : ∀ experts ∈ rows, experts.length ≤ c) (hlength : t + rows.length ≤ 2 ^ 60)
    {state : Finset ℕ × ℕ} (hroom : state.1.card ≤ c) : ∃ state' loads,
      serveTokens orders layer c t rows (fun x => uses x t rows) state = some state' ∧
        FarthestSchedule c state.1 (rows.map List.toFinset) loads ∧ state'.2 = state.2 + loads := by
  induction rows generalizing t state with
  | nil => exact ⟨state, 0, rfl, .nil _, rfl⟩
  | cons experts rows ih =>
    obtain ⟨hshort, hrest⟩ := List.forall_mem_cons.mp hrows
    rw [List.length_cons] at hlength
    have hneeded : experts.toFinset.card ≤ c := (List.toFinset_card_le experts).trans hshort
    obtain ⟨state', hserve, hserved⟩ : ∃ state',
      serveToken (orders.needed layer t) (orders.victims layer t) c
        experts.toFinset (fun x => uses x (t + 1) rows) state = some state' ∧
          Serving c experts.toFinset (fun x => uses x (t + 1) rows) state experts.toFinset state' :=
      serveToken_spec _ _ hneeded hroom
    obtain ⟨state'', loads, hrun, hschedule, hloads⟩ :=
      ih hrest (t := t + 1) (by omega) hserved.room
    have hstep : EvictsFarthest c (rows.map List.toFinset) state.1 experts.toFinset state'.1 :=
      { needed := hserved.served, demanded := hserved.demanded, room := hserved.room,
        full := hserved.full
        farthest := fun x hx hx' y hy hy' n hxn =>
          requested_of_key_le (by omega) (hserved.farthest x hx hx' y hy hy') hxn }
    refine ⟨state'', _, ?_, .cons hstep hschedule, ?_⟩
    · rw [serveTokens, popNeeded_uses, hserve]
      exact hrun
    · rw [hloads, hserved.misses, add_assoc]

end Belady

section Runs

/-- The rows of a layer hold distinct experts. -/
def Distinct (stream : List (Routing L k)) : Prop :=
  ∀ token ∈ stream, ∀ layer, Function.Injective (token layer)

variable {stream : List (Routing L k)}

/-- They are as many as a row has places. -/
theorem Distinct.rows (h : Distinct stream) (layer : Fin L) :
    ∀ experts ∈ stream.map fun token => row token layer, experts.Nodup ∧ experts.length = k := by
  intro experts hexperts
  obtain ⟨token, htoken, rfl⟩ := List.mem_map.mp hexperts
  exact ⟨List.nodup_ofFn.mpr (h token htoken layer), List.length_ofFn⟩

/-- The oracle of a layer counts the loads of a schedule that gives up what is requested last. -/
theorem serveLayer_farthest (orders : SetOrders) (hdistinct : Distinct stream) (hroom : k ≤ c)
    (hlength : stream.length ≤ 2 ^ 60) (misses : ℕ) (layer : Fin L) : ∃ loads,
      serveLayer orders c stream misses layer = some (misses + loads) ∧
        FarthestSchedule c ∅ ((stream.map fun token => row token layer).map List.toFinset)
          loads := by
  have hrows := hdistinct.rows layer
  have hempty : ((∅, misses) : Finset ℕ × ℕ).1.card ≤ c := Nat.zero_le c
  obtain ⟨state', loads, hrun, hschedule, hloads⟩ := serveTokens_farthest orders layer (t := 0)
    (fun experts hexperts => (hrows experts hexperts).2.trans_le hroom)
      (by rwa [Nat.zero_add, List.length_map]) hempty
  refine ⟨loads, ?_, hschedule⟩
  rw [serveLayer, buildNextUse_eq fun experts hexperts => (hrows experts hexperts).1, hrun]
  exact congrArg some hloads

/-- The rows of a layer as requests. -/
def requests (stream : List (Routing L k)) (layer : Fin L) : List (Finset ℕ) :=
  (stream.map fun token => row token layer).map List.toFinset

/-- The oracle returns, and its misses are bounded by those of any schedules for the layers. -/
theorem belady_le (orders : SetOrders) {reqs : List (Req L k)}
    (hdistinct : Distinct (decodeStream reqs)) (hroom : k ≤ c)
    (hlength : (decodeStream reqs).length ≤ 2 ^ 60) (hne : decodeStream reqs ≠ [])
    {bounds : Fin L → ℕ}
    (hbounds : ∀ layer, ∃ loads, Schedule c ∅ (requests (decodeStream reqs) layer) loads ∧
      loads ≤ bounds layer) :
    ∃ result, belady orders reqs c = some result ∧ result.1 ≤ ∑ layer, bounds layer := by
  have hlayers : ∀ (layers : List (Fin L)) (misses : ℕ), ∃ total,
      layers.foldlM (serveLayer orders c (decodeStream reqs)) misses = some total ∧
        total ≤ misses + (layers.map bounds).sum := by
    intro layers
    induction layers with
    | nil => exact fun misses => ⟨misses, rfl, by simp⟩
    | cons layer layers ih =>
      intro misses
      obtain ⟨loads, hserve, hfarthest⟩ :=
        serveLayer_farthest orders hdistinct hroom hlength misses layer
      obtain ⟨loads', hschedule, hle⟩ := hbounds layer
      have hoptimal := hfarthest.optimal hschedule
      obtain ⟨total, hfold, htotal⟩ := ih (misses + loads)
      refine ⟨total, ?_, ?_⟩
      · rw [List.foldlM_cons, hserve]
        exact hfold
      · rw [List.map_cons, List.sum_cons]
        omega
  obtain ⟨total, hfold, htotal⟩ := hlayers (List.finRange L) 0
  refine ⟨(total, (decodeStream reqs).length * L * k), ?_, ?_⟩
  · simp only [belady]
    rw [if_neg (by rwa [List.isEmpty_iff]), hfold]
    rfl
  · rw [Fin.sum_univ_def]
    exact htotal.trans_eq (Nat.zero_add _)

/-- The simulation keeps for each layer the state of its single cache. -/
structure Tallies (sim : Simulation L) (states : Fin L → Cache × ℕ) : Prop where
  caches : ∀ layer, sim.caches layer = (states layer).1
  misses : sim.misses = ∑ layer, (states layer).2

namespace Tallies

variable {sim : Simulation L} {states : Fin L → Cache × ℕ}

/-- One access changes one of them. -/
theorem access (h : Tallies sim states) (c : ℕ) (layer : Fin L) (e : ℕ) :
    Tallies (access c layer sim e)
      (Function.update states layer (lruAccess c (states layer) e)) := by
  have hsum (state : Cache × ℕ) : ∑ l, (Function.update states layer state l).2 + (states layer).2 =
      ∑ l, (states l).2 + state.2 := by
    have hother : ∑ l ∈ Finset.univ.erase layer, (Function.update states layer state l).2 =
        ∑ l ∈ Finset.univ.erase layer, (states l).2 :=
      Finset.sum_congr rfl fun l hl => by rw [Function.update_of_ne (Finset.ne_of_mem_erase hl)]
    have hnew := Finset.add_sum_erase Finset.univ
      (fun l => (Function.update states layer state l).2) (Finset.mem_univ layer)
    have hold := Finset.add_sum_erase Finset.univ (fun l => (states l).2) (Finset.mem_univ layer)
    simp only [Function.update_self] at hnew
    omega
  have hcaches (cache : Cache) (misses : ℕ) (l : Fin L) : Function.update sim.caches layer cache l =
      (Function.update states layer (cache, misses) l).1 := by
    by_cases hl : l = layer
    · rw [hl, Function.update_self, Function.update_self]
    · rw [Function.update_of_ne hl, Function.update_of_ne hl, h.caches]
  unfold MoeStudy.access lruAccess
  rw [h.caches layer]
  split
  · refine ⟨hcaches _ _, ?_⟩
    have hstep := hsum (moveToEnd (states layer).1 e, (states layer).2)
    rw [← h.misses] at hstep
    change sim.misses = _
    omega
  · refine ⟨hcaches _ _, ?_⟩
    have hstep := hsum (addLast c (states layer).1 e, (states layer).2 + 1)
    rw [← h.misses] at hstep
    change sim.misses + 1 = _
    omega

end Tallies

/-- An expert is used in a layer: read through `view`, the cache of the layer is accessed, and a
load is counted. -/
structure Touches (c : ℕ) (view : Simulation L → Simulation L)
    (touch : Fin L → Simulation L → ℕ → Simulation L) : Prop where
  caches : ∀ layer sim e, (view (touch layer sim e)).caches = (access c layer (view sim) e).caches
  misses : ∀ layer sim e, (view (touch layer sim e)).misses = (access c layer (view sim) e).misses

namespace Touches

variable {view : Simulation L → Simulation L} {touch : Fin L → Simulation L → ℕ → Simulation L}
variable {sim : Simulation L} {states : Fin L → Cache × ℕ}

/-- The cache of one layer changes, and its loads. -/
theorem tallies (htouch : Touches c view touch) (h : Tallies (view sim) states) (layer : Fin L)
    (e : ℕ) :
    Tallies (view (touch layer sim e))
      (Function.update states layer (lruAccess c (states layer) e)) := by
  obtain ⟨hcaches, hmisses⟩ := h.access c layer e
  exact ⟨fun other => (congrFun (htouch.caches layer sim e) other).trans (hcaches other),
    (htouch.misses layer sim e).trans hmisses⟩

/-- Some experts of a layer. -/
theorem row (htouch : Touches c view touch) (h : Tallies (view sim) states) (layer : Fin L)
    (experts : List ℕ) :
    Tallies (view (experts.foldl (touch layer) sim))
      (Function.update states layer (lruRow c (states layer) experts)) := by
  induction experts generalizing sim states with
  | nil => simpa [lruRow] using h
  | cons e experts ih =>
    have hrest := ih (htouch.tallies h layer e)
    rw [Function.update_self, Function.update_idem] at hrest
    exact hrest

/-- Some experts of each of some layers. -/
theorem rows (htouch : Touches c view touch) (experts : Fin L → List ℕ) {layers : List (Fin L)}
    (hnodup : layers.Nodup) (h : Tallies (view sim) states) :
    Tallies (view (layers.foldl (fun sim layer => (experts layer).foldl (touch layer) sim) sim))
      fun layer =>
        if layer ∈ layers then lruRow c (states layer) (experts layer) else states layer := by
  induction layers generalizing sim states with
  | nil => simpa using h
  | cons first layers ih =>
    obtain ⟨hfresh, hnodup⟩ := List.nodup_cons.mp hnodup
    have hrest := ih hnodup (htouch.row h first (experts first))
    have hstates : (fun layer =>
          if layer ∈ first :: layers then lruRow c (states layer) (experts layer)
          else states layer) =
        fun layer =>
          if layer ∈ layers then
            lruRow c (Function.update states first (lruRow c (states first) (experts first)) layer)
              (experts layer)
          else Function.update states first (lruRow c (states first) (experts first)) layer := by
      funext layer
      by_cases hlayer : layer = first
      · rw [hlayer, if_pos List.mem_cons_self, if_neg hfresh, Function.update_self]
      · simp only [List.mem_cons, hlayer, false_or, Function.update_of_ne hlayer]
    rw [List.foldl_cons, hstates]
    exact hrest

/-- Some experts of each layer. -/
theorem layers (htouch : Touches c view touch) (experts : Fin L → List ℕ)
    (h : Tallies (view sim) states) :
    Tallies
      (view ((List.finRange L).foldl
        (fun sim layer => (experts layer).foldl (touch layer) sim) sim))
      fun layer => lruRow c (states layer) (experts layer) := by
  simpa only [List.mem_finRange, if_true] using htouch.rows experts (List.nodup_finRange L) h

/-- The tokens of a stream, when it is an access of the simulation that is read. -/
theorem tokens (htouch : Touches c view (access c)) (h : Tallies (view sim) states)
    (stream : List (Routing L k)) :
    Tallies (view (stream.foldl (accessToken c) sim)) fun layer =>
      lruLayer c (states layer) (stream.map fun token => MoeStudy.row token layer) := by
  induction stream generalizing sim states with
  | nil => exact h
  | cons token stream ih => exact ih (htouch.layers (MoeStudy.row token) h)

end Touches

/-- An access of a token, read as it is. -/
theorem access_touches (c : ℕ) : Touches c id (access c (L := L)) where
  caches _ _ _ := rfl
  misses _ _ _ := rfl

/-- The demand misses of LRU are those of the layers over the whole decode stream. -/
theorem simulate_lru {reqs : List (Req L k)} {profiles : List (Profiles L)} {result : ℕ × ℕ × ℕ}
    (h : simulate reqs profiles c .lru = some result) :
    result.1 =
      ∑ layer, (lruLayer c ([], 0) ((decodeStream reqs).map fun token => row token layer)).2 := by
  have hrequests : ∀ (entries : List (Req L k × Profiles L)) (sim : Simulation L),
      entries.foldlM (simulateRequest c .lru) sim =
        some ((decodeStream (entries.map Prod.fst)).foldl (accessToken c) sim) := by
    intro entries
    induction entries with
    | nil => exact fun sim => rfl
    | cons entry entries ih =>
      intro sim
      rw [List.foldlM_cons, List.map_cons, decodeStream, List.flatMap_cons, List.foldl_append]
      exact ih _
  unfold simulate at h
  split at h
  · cases h
  · rename_i hlengths
    rw [not_or, not_not] at hlengths
    rw [hrequests, List.map_fst_zip hlengths.2.le] at h
    cases h
    have hstart : Tallies ({} : Simulation L) fun _ => ([], 0) := ⟨fun _ => rfl, by simp⟩
    exact ((access_touches c).tokens hstart (decodeStream reqs)).misses

/-- The oracle returns unless there is nothing to decode, and it never misses more often than LRU
does, as long as the stream has at most as many tokens as the sentinel says. -/
theorem oracle_bounds_lru (orders : SetOrders) (reqs : List (Req L k))
    (profiles : List (Profiles L)) (hdistinct : Distinct (decodeStream reqs)) (hroom : k ≤ c)
    (hlength : (decodeStream reqs).length ≤ 2 ^ 60) :
    (decodeStream reqs ≠ [] → ∃ oracle, belady orders reqs c = some oracle) ∧
      ∀ oracle lru, belady orders reqs c = some oracle → simulate reqs profiles c .lru = some lru →
      oracle.1 ≤ lru.1 := by
  have hbounds : ∀ layer, ∃ loads, Schedule c ∅ (requests (decodeStream reqs) layer) loads ∧
      loads ≤ (lruLayer c ([], 0) ((decodeStream reqs).map fun token => row token layer)).2 := by
    intro layer
    have hrows := hdistinct.rows layer
    have hempty : (([], 0) : Cache × ℕ).1.Nodup := List.nodup_nil
    obtain ⟨loads, hschedule, hloads⟩ :=
      lruLayer_schedule hempty (Nat.zero_le c) fun experts hexperts =>
      ⟨(hrows experts hexperts).1, (hrows experts hexperts).2.trans_le hroom⟩
    exact ⟨loads, hschedule, (Nat.zero_add loads).symm.trans_le hloads⟩
  have hbelady := belady_le orders hdistinct hroom hlength
  constructor
  · intro hne
    obtain ⟨oracle, horacle, _⟩ := hbelady hne hbounds
    exact ⟨oracle, horacle⟩
  · intro oracle lru horacle hlru
    have hne : decodeStream reqs ≠ [] := by
      intro hnil
      simp [belady, hnil] at horacle
    obtain ⟨oracle', horacle', hle⟩ := hbelady hne hbounds
    rw [horacle] at horacle'
    cases horacle'
    rw [simulate_lru hlru]
    exact hle

/-- The smallest element first. -/
def ascending : SetOrder where
  elements s := s.sort
  nodup s := s.sort_nodup _
  mem s x := Finset.mem_sort _

/-- All sets in ascending order. -/
def ascendingOrders : SetOrders := ⟨fun _ _ => ascending, fun _ _ _ => ascending⟩

/-- A request of three tokens with two layers of two experts each, behind a prompt of one token. -/
def turns : Req 2 2 :=
  ⟨1, [fun _ place => place, fun layer place => layer + place, fun _ place => 2 + place,
    fun layer place => layer + place]⟩

/-- Three tokens take turns among four experts in three slots. -/
theorem oracle_bounds_lru_turns :
    (decodeStream [turns] ≠ [] → ∃ oracle, belady ascendingOrders [turns] 3 = some oracle) ∧
      ∀ oracle lru, belady ascendingOrders [turns] 3 = some oracle →
      simulate [turns] [fun _ => none] 3 .lru = some lru →
        oracle.1 ≤ lru.1 :=
  oracle_bounds_lru ascendingOrders [turns] [fun _ => none] (by unfold Distinct; decide)
    (by decide) (by decide)

end Runs

section Sentinel

/-- A token that one expert serves. -/
def single (e : ℕ) : Routing 1 1 := fun _ _ => e

/-- Two experts, a third one for a long time, and then the second one again. -/
def longStream (n : ℕ) : List (Routing 1 1) :=
  single 0 :: single 1 :: single 2 :: (List.replicate n (single 2) ++ [single 1])

/-- Its rows. -/
def longRows (n : ℕ) : List (List ℕ) := List.replicate n [2] ++ [[1]]

/-- The rows of a long stream are its three first experts and the rest. -/
theorem longStream_rows (n : ℕ) (layer : Fin 1) :
    (longStream n).map (fun token => row token layer) = [0] :: [1] :: [2] :: longRows n := by
  have hrow (e : ℕ) : row (single e) layer = [e] := rfl
  simp [longStream, longRows, hrow]

/-- LRU keeps the second expert. -/
theorem lruLayer_longRows (n : ℕ) :
    (lruLayer 2 ([], 0) ([0] :: [1] :: [2] :: longRows n)).2 = 3 := by
  have hthird : (List.replicate n [2]).foldl (lruRow 2) ([1, 2], 3) = ([1, 2], 3) := by
    induction n with
    | zero => rfl
    | succ n ih => exact ih
  have hstart : lruLayer 2 ([], 0) ([0] :: [1] :: [2] :: longRows n) =
      (longRows n).foldl (lruRow 2) ([1, 2], 3) := rfl
  rw [hstart, longRows, List.foldl_append, hthird]
  rfl

/-- The second expert is used at the end, the first one no more. -/
theorem uses_longRows (n t : ℕ) : uses 0 t (longRows n) = [] ∧ uses 1 t (longRows n) = [t + n] := by
  induction n generalizing t with
  | zero => exact ⟨rfl, rfl⟩
  | succ n ih =>
    obtain ⟨hfirst, hsecond⟩ := ih (t + 1)
    have hrows : longRows (n + 1) = [2] :: longRows n := rfl
    rw [hrows, uses, uses, if_neg (by decide), if_neg (by decide), hfirst, hsecond]
    exact ⟨rfl, by rw [Nat.add_right_comm, Nat.add_assoc]⟩

/-- A set of one element is iterated in one order. -/
theorem SetOrder.elements_singleton (order : SetOrder) (e : ℕ) : order.elements {e} = [e] := by
  refine List.perm_singleton.mp
    ((List.perm_ext_iff_of_nodup (order.nodup _) (List.nodup_singleton e)).mpr fun x => ?_)
  rw [order.mem, Finset.mem_singleton, List.mem_singleton]

/-- A token of one expert. -/
theorem serveToken_single (order : SetOrder) (victimOrder : ℕ → SetOrder) (c e : ℕ)
    (nextUse : NextUse) (state : Finset ℕ × ℕ) :
    serveToken order victimOrder c [e].toFinset nextUse state =
      serveExpert (victimOrder e) c {e} nextUse state e := by
  have hset : [e].toFinset = {e} := by simp
  rw [hset, serveToken, order.elements_singleton, List.foldlM_cons]
  simp

/-- While the third expert is used nothing changes. -/
theorem serveTokens_longRows (orders : SetOrders) (layer : ℕ) {state : Finset ℕ × ℕ}
    (hmem : 2 ∈ state.1) (n t : ℕ) (nextUse : NextUse) :
    ∃ nextUse', serveTokens orders layer 2 t (longRows n) nextUse state =
      serveTokens orders layer 2 (t + n) [[1]] nextUse' state := by
  induction n generalizing t nextUse with
  | zero => exact ⟨nextUse, rfl⟩
  | succ n ih =>
    obtain ⟨nextUse', hrest⟩ := ih (t + 1) (popNeeded [2].toFinset nextUse)
    refine ⟨nextUse', ?_⟩
    have hrows : longRows (n + 1) = [2] :: longRows n := rfl
    rw [hrows, serveTokens, serveToken_single, serveExpert, if_pos hmem, Option.bind_some, hrest,
      Nat.add_right_comm, Nat.add_assoc]

/-- With a full cache some expert is given up, and it is a miss. -/
theorem serveExpert_full (order : SetOrder) (nextUse : NextUse) (cache : Finset ℕ) (misses : ℕ)
    {e : ℕ} (hfresh : e ∉ cache) (hfull : c ≤ cache.card) (hne : cache.Nonempty) : ∃ victim ∈ cache,
      serveExpert order c {e} nextUse (cache, misses) e =
        some (insert e (cache.erase victim), misses + 1) ∧
        ∀ y ∈ cache, victimKey nextUse y ≤ victimKey nextUse victim := by
  have hvictims : cache \ {e} = cache := by
    rw [Finset.sdiff_singleton_eq_erase, Finset.erase_eq_of_notMem hfresh]
  rw [serveExpert, if_neg hfresh, if_pos hfull, hvictims]
  cases hvictim : (order.elements cache).argmax (victimKey nextUse) with
  | none =>
    obtain ⟨x, hx⟩ := hne
    have hnil := List.argmax_eq_none.mp hvictim
    exact absurd ((order.mem _ x).mpr hx) (by rw [hnil]; exact List.not_mem_nil)
  | some victim =>
    exact ⟨victim, (order.mem _ _).mp (List.argmax_mem hvictim), rfl, fun y hy =>
      List.le_of_mem_argmax ((order.mem _ y).mpr hy) hvictim⟩

/-- The oracle gives up the second expert if its next use lies behind the sentinel. -/
theorem serveTokens_long (orders : SetOrders) (layer : ℕ) {n : ℕ} (hn : 2 ^ 60 ≤ n) : ∃ cache,
    serveTokens orders layer 2 0 ([0] :: [1] :: [2] :: longRows n)
      (fun x => uses x 0 ([0] :: [1] :: [2] :: longRows n)) (∅, 0) = some (cache, 4) := by
  have hfirst (order : SetOrder) (nextUse : NextUse) :
      serveExpert order 2 {0} nextUse (∅, 0) 0 = some ({0}, 1) := by
    simp [serveExpert]
  have hsecond (order : SetOrder) (nextUse : NextUse) :
      serveExpert order 2 {1} nextUse ({0}, 1) 1 = some ({1, 0}, 2) := by
    simp [serveExpert]
  obtain ⟨victim, hvictim, hthird, hlargest⟩ :=
    serveExpert_full (c := 2) (e := 2) (orders.victims layer 2 2)
    (fun x => uses x 3 (longRows n)) {1, 0} 2 (by decide) (by decide) (by decide)
  -- the key of the second expert is its next use, that of the first one the sentinel
  have hone : victim = 1 := by
    have hkey := hlargest 1 (by decide)
    rcases Finset.mem_insert.mp hvictim with h | h
    · exact h
    · rw [Finset.mem_singleton.mp h] at hkey
      obtain ⟨huses, huses'⟩ := uses_longRows n 3
      have hsentinel : (1 <<< 60 : ℕ) = 2 ^ 60 := rfl
      simp only [victimKey, huses, huses', List.head?_cons, List.head?_nil, Option.getD_some,
        Option.getD_none, hsentinel] at hkey
      omega
  rw [hone] at hthird
  have hmem : 2 ∈ ((insert 2 (({1, 0} : Finset ℕ).erase 1), 3) : Finset ℕ × ℕ).1 :=
    Finset.mem_insert_self _ _
  obtain ⟨nextUse', hlong⟩ := serveTokens_longRows orders layer hmem n 3 fun x =>
    uses x 3 (longRows n)
  obtain ⟨victim', _, hlast, _⟩ :=
    serveExpert_full (c := 2) (e := 1) (orders.victims layer (3 + n) 1)
    (popNeeded [1].toFinset nextUse') (insert 2 (({1, 0} : Finset ℕ).erase 1)) 3 (by decide)
      (by decide) (by decide)
  refine ⟨insert 1 ((insert 2 (({1, 0} : Finset ℕ).erase 1)).erase victim'), ?_⟩
  rw [serveTokens, popNeeded_uses, serveToken_single, hfirst, Option.bind_some,
    serveTokens, popNeeded_uses, serveToken_single, hsecond, Option.bind_some, serveTokens,
    popNeeded_uses, serveToken_single, hthird, Option.bind_some, hlong, serveTokens,
    serveToken_single, hlast]
  rfl

/-- The long stream is a request of its own. -/
def longRequest (n : ℕ) : Req 1 1 := ⟨0, longStream n⟩

/-- The decode stream of one long request is that of its tokens. -/
theorem decodeStream_longRequest (n : ℕ) : decodeStream [longRequest n] = longStream n := by
  simp [decodeStream, longRequest, Req.decode]

/-- Every row of it is a single expert. -/
theorem longStream_distinct (n : ℕ) : Distinct (longStream n) :=
  fun _ _ _ => Function.injective_of_subsingleton _

/-- The oracle misses four times if the stream is long. -/
theorem belady_long {n : ℕ} (hn : 2 ^ 60 ≤ n) :
    ∃ accesses, belady ascendingOrders [longRequest n] 2 = some (4, accesses) := by
  have hnodup : ∀ experts ∈ [0] :: [1] :: [2] :: longRows n, experts.Nodup := by
    intro experts hexperts
    rw [← longStream_rows n 0] at hexperts
    exact ((longStream_distinct n).rows 0 experts hexperts).1
  obtain ⟨cache, hserve⟩ := serveTokens_long ascendingOrders 0 hn
  have hlayer : serveLayer ascendingOrders 2 (longStream n) 0 (0 : Fin 1) = some 4 := by
    rw [serveLayer, longStream_rows, buildNextUse_eq hnodup, Fin.val_zero, hserve]
    rfl
  have hlayers : List.finRange 1 = [0] := rfl
  refine ⟨(longStream n).length * 1 * 1, ?_⟩
  rw [belady, decodeStream_longRequest, if_neg (by simp [longStream]), hlayers,
    List.foldlM_cons, hlayer]
  rfl

/-- LRU misses three times. -/
theorem simulate_long (n : ℕ) : ∃ prefetch accesses,
    simulate [longRequest n] [fun _ => none] 2 .lru = some (3, prefetch, accesses) := by
  have hreturns : ∃ result, simulate [longRequest n] [fun _ => none] 2 .lru = some result :=
    ⟨_, rfl⟩
  obtain ⟨result, hresult⟩ := hreturns
  have hmisses := simulate_lru hresult
  rw [decodeStream_longRequest] at hmisses
  simp only [longStream_rows, lruLayer_longRows, Finset.univ_unique, Finset.sum_const,
    Finset.card_singleton, one_smul] at hmisses
  exact ⟨result.2.1, result.2.2, by rw [hresult, ← hmisses]⟩

/-- With a longer stream the next use of an expert can lie behind the sentinel, and the oracle gives
up that expert rather than one that is needed no more. -/
theorem oracle_misses_sentinel :
    ¬ ∀ (L k c : ℕ) (orders : SetOrders) (reqs : List (Req L k)) (profiles : List (Profiles L)),
    Distinct (decodeStream reqs) → k ≤ c → ∀ oracle lru, belady orders reqs c = some oracle →
      simulate reqs profiles c .lru = some lru → oracle.1 ≤ lru.1 := by
  intro h
  obtain ⟨accesses, horacle⟩ := belady_long (Nat.le_refl (2 ^ 60))
  obtain ⟨prefetch, accesses', hlru⟩ := simulate_long (2 ^ 60)
  have hdistinct : Distinct (decodeStream [longRequest (2 ^ 60)]) := by
    rw [decodeStream_longRequest]
    exact longStream_distinct _
  have hle : 4 ≤ 3 := h 1 1 2 ascendingOrders [longRequest (2 ^ 60)] [fun _ => none] hdistinct
    (by decide) _ _ horacle hlru
  exact absurd hle (by decide)

end Sentinel

end RadixForge.MoeStudy
