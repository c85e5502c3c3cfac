import Mathlib.Algebra.Order.BigOperators.Group.Finset
import Mathlib.Tactic.Ring
import RadixForge.Library.Paging
import RadixForge.Library.ReuseDistance
import RadixForge.Study.Oracle

/-!
# The policies of the simulation

With LRU an access of `simulate` misses exactly if the expert was not accessed before or at least as
many others as there are slots were accessed since, so more slots never miss more often. With any
policy the loads, on demand and ahead, are those of a schedule that may load between the tokens, and
the oracle loads no more.
-/

namespace RadixForge.MoeStudy

open Library

variable {L k c : ℕ}

section Distances

/-- An access of a single cache. -/
theorem lruAccess_eq (state : Cache × ℕ) (e : ℕ) :
    lruAccess c state e = (useLru c state.1 e, state.2 + if e ∈ state.1 then 0 else 1) := by
  unfold lruAccess useLru
  split <;> rfl

/-- The accesses of a single cache after some earlier ones. -/
theorem foldl_lruAccess (c misses : ℕ) (earlier stream : List ℕ) :
    stream.foldl (lruAccess c) ((lastUses earlier).rtake c, misses) =
      ((lastUses (earlier ++ stream)).rtake c, misses + farUses c earlier stream) := by
  induction stream generalizing earlier misses with
  | nil => simp [farUses]
  | cons e stream ih =>
    have hmiss : (if e ∈ (lastUses earlier).rtake c then 0 else 1) =
        if Far c earlier e then 1 else 0 := by
      simp only [mem_rtake_lastUses, ite_not]
    rw [List.foldl_cons, lruAccess_eq, useLru_lastUses, hmiss, ih, farUses, List.append_assoc,
      List.singleton_append, Nat.add_assoc]

/-- The accesses of a layer. -/
def accesses (stream : List (Routing L k)) (layer : Fin L) : List ℕ :=
  stream.flatMap fun token => row token layer

/-- The misses of a layer are its late accesses. -/
theorem lruLayer_misses (c : ℕ) (stream : List (Routing L k)) (layer : Fin L) :
    (lruLayer c ([], 0) (stream.map fun token => row token layer)).2 =
      farUses c [] (accesses stream layer) := by
  have hstart : (lastUses ([] : List ℕ)).rtake c = [] := List.rtake_nil ..
  have hflat := foldl_lruAccess c 0 [] (accesses stream layer)
  rw [hstart, Nat.zero_add, accesses, List.flatMap_def, List.foldl_flatten] at hflat
  rw [accesses, List.flatMap_def]
  exact congrArg Prod.snd hflat

/-- A loop adds as much in each round. -/
theorem foldl_adds {σ β : Type*} {step : σ → β → σ} {count : σ → ℕ} {n : ℕ}
    (hstep : ∀ s b, count (step s b) = count s + n) (items : List β) (s : σ) :
    count (items.foldl step s) = count s + items.length * n := by
  induction items generalizing s with
  | nil => simp
  | cons b items ih =>
    rw [List.foldl_cons, ih, hstep, List.length_cons]
    ring

/-- An access counts itself and loads nothing ahead. -/
theorem access_counts (c : ℕ) (layer : Fin L) (sim : Simulation L) (e : ℕ) :
    (access c layer sim e).prefetch = sim.prefetch ∧
      (access c layer sim e).accesses = sim.accesses + 1 := by
  unfold access
  split <;> exact ⟨rfl, rfl⟩

/-- A token counts its experts and loads nothing ahead. -/
theorem accessToken_counts (c : ℕ) (sim : Simulation L) (token : Routing L k) :
    (accessToken c sim token).prefetch = sim.prefetch ∧
      (accessToken c sim token).accesses = sim.accesses + L * k := by
  have hrow (layer : Fin L) (sim : Simulation L) :
      ((row token layer).foldl (access c layer) sim).prefetch = sim.prefetch + 0 ∧
        ((row token layer).foldl (access c layer) sim).accesses = sim.accesses + k := by
    have hprefetch := foldl_adds (n := 0) (fun sim e => (access_counts c layer sim e).1)
      (row token layer) sim
    have haccesses := foldl_adds (fun sim e => (access_counts c layer sim e).2)
      (row token layer) sim
    rw [row, List.length_ofFn, Nat.mul_one] at haccesses
    exact ⟨hprefetch, haccesses⟩
  have hprefetch := foldl_adds (fun sim layer => (hrow layer sim).1) (List.finRange L) sim
  have haccesses := foldl_adds (fun sim layer => (hrow layer sim).2) (List.finRange L) sim
  rw [List.length_finRange] at haccesses
  exact ⟨hprefetch, haccesses⟩

/-- A stream counts its experts and loads nothing ahead. -/
theorem accessTokens_counts (c : ℕ) (sim : Simulation L) (stream : List (Routing L k)) :
    (stream.foldl (accessToken c) sim).prefetch = sim.prefetch ∧
      (stream.foldl (accessToken c) sim).accesses = sim.accesses + stream.length * (L * k) :=
  ⟨foldl_adds (n := 0) (fun sim token => (accessToken_counts c sim token).1) stream sim,
    foldl_adds (fun sim token => (accessToken_counts c sim token).2) stream sim⟩

/-- With LRU the simulation goes through the whole decode stream. -/
theorem simulate_lru_stream {reqs : List (Req L k)} {profiles : List (Profiles L)}
    {result : ℕ × ℕ × ℕ} (h : simulate reqs profiles c .lru = some result) :
    result.2.1 = 0 ∧ result.2.2 = (decodeStream reqs).length * (L * k) := by
  have hentries : ∀ (entries : List (Req L k × Profiles L)) (sim : Simulation L), ∃ sim',
      entries.foldlM (simulateRequest c .lru) sim = some sim' ∧ sim'.prefetch = sim.prefetch ∧
        sim'.accesses = sim.accesses + (decodeStream (entries.map Prod.fst)).length * (L * k) := by
    intro entries
    induction entries with
    | nil => exact fun sim => ⟨sim, rfl, rfl, by simp [decodeStream]⟩
    | cons entry entries ih =>
      intro sim
      obtain ⟨hprefetch, haccesses⟩ := accessTokens_counts c sim entry.1.decode
      obtain ⟨sim', hfold, hprefetch', haccesses'⟩ := ih (entry.1.decode.foldl (accessToken c) sim)
      refine ⟨sim', hfold, hprefetch'.trans hprefetch, ?_⟩
      rw [haccesses', haccesses, List.map_cons, decodeStream, decodeStream, List.flatMap_cons,
        List.length_append]
      ring
  unfold simulate at h
  split at h
  · cases h
  · rename_i hlengths
    rw [not_or, not_not] at hlengths
    obtain ⟨sim', hfold, hprefetch, haccesses⟩ := hentries (reqs.zip profiles) {}
    rw [hfold] at h
    cases h
    rw [List.map_fst_zip hlengths.2.le] at haccesses
    exact ⟨hprefetch, haccesses.trans (Nat.zero_add _)⟩

end Distances

/-- With LRU the accesses of each layer that miss are those of an expert that was not accessed
before, or since whose last access at least as many others were accessed as there are slots. Nothing
is loaded ahead, every routed expert is one access, and more slots never miss more often. -/
theorem lru_misses_exact (reqs : List (Req L k)) (profiles : List (Profiles L)) (result : ℕ × ℕ × ℕ)
    (h : simulate reqs profiles c .lru = some result) :
    result = (∑ layer, farUses c [] (accesses (decodeStream reqs) layer), 0,
      (decodeStream reqs).length * (L * k)) ∧
      ∀ c' result', c ≤ c' → simulate reqs profiles c' .lru = some result' →
      result'.1 ≤ result.1 := by
  have hmisses {c : ℕ} {result : ℕ × ℕ × ℕ} (h : simulate reqs profiles c .lru = some result) :
      result.1 = ∑ layer, farUses c [] (accesses (decodeStream reqs) layer) := by
    rw [simulate_lru h]
    exact Finset.sum_congr rfl fun layer _ => lruLayer_misses c (decodeStream reqs) layer
  obtain ⟨hprefetch, haccesses⟩ := simulate_lru_stream h
  refine ⟨Prod.ext (hmisses h) (Prod.ext hprefetch haccesses), fun c' result' hle h' => ?_⟩
  rw [hmisses h, hmisses h']
  exact Finset.sum_le_sum fun layer _ => farUses_anti hle [] _

/-- Three tokens behind a prompt of one, with two slots and with three. -/
theorem lru_misses_exact_turns :
    11 = ∑ layer, farUses 2 [] (accesses (decodeStream [turns]) layer) ∧
      ∀ result, simulate [turns] [fun _ => none] 3 .lru = some result → result.1 ≤ 11 := by
  obtain ⟨hexact, hmore⟩ :=
    lru_misses_exact (c := 2) [turns] [fun _ => none] (11, 0, 12) (by decide +kernel)
  exact ⟨congrArg Prod.fst hexact, fun result => hmore 3 result (by decide)⟩

section Loads

variable {sim : Simulation L} {states : Fin L → Cache × ℕ}

/-- The simulation with every load counted as a miss. -/
def loaded (sim : Simulation L) : Simulation L :=
  { caches := sim.caches, misses := sim.misses + sim.prefetch }

/-- An access of a token. -/
theorem access_touches_loaded (c : ℕ) : Touches c loaded (access c (L := L)) where
  caches layer sim e := by
    unfold access loaded
    split <;> rfl
  misses layer sim e := by
    unfold access loaded
    dsimp only
    split <;> dsimp only
    omega

/-- A load ahead. -/
theorem prefetchExpert_touches (c : ℕ) : Touches c loaded (prefetchExpert c (L := L)) where
  caches layer sim e := by
    unfold prefetchExpert access loaded
    split <;> rfl
  misses layer sim e := by
    unfold prefetchExpert access loaded
    dsimp only
    split <;> rfl

/-- The experts that are loaded before a request. -/
def ahead (c : ℕ) (policy : Policy) (profiles : Profiles L) : Option (Fin L → List ℕ) :=
  match policy with
  | .lru => some fun _ => []
  | .prefetch name => (profiles name).map fun p layer =>
    if 0 < ∑ layer, (p layer).sum then ((argsortDescending (p layer)).take c).reverse else []

/-- They are distinct, and there is room for them. -/
theorem ahead_rows {policy : Policy} {profiles : Profiles L} {experts : Fin L → List ℕ}
    (h : ahead c policy profiles = some experts) (layer : Fin L) :
    (experts layer).Nodup ∧ (experts layer).length ≤ c := by
  cases policy with
  | lru =>
    cases h
    exact ⟨List.nodup_nil, Nat.zero_le c⟩
  | prefetch name =>
    obtain ⟨p, _, rfl⟩ := Option.map_eq_some_iff.mp h
    dsimp only
    split
    · refine ⟨List.nodup_reverse.mpr (List.Nodup.sublist (List.take_sublist _ _) ?_), ?_⟩
      · exact (List.nodup_map_iff Fin.val_injective).mpr
          ((List.mergeSort_perm _ _).nodup_iff.mpr (List.nodup_finRange _))
      · rw [List.length_reverse]
        exact List.length_take_le _ _
    · exact ⟨List.nodup_nil, Nat.zero_le c⟩

/-- The loads before a request. -/
theorem prefetchRequest_eq (c : ℕ) (policy : Policy) (profiles : Profiles L) (sim : Simulation L) :
    prefetchRequest c policy profiles sim = (ahead c policy profiles).map fun experts =>
      (List.finRange L).foldl (fun sim layer => (experts layer).foldl (prefetchExpert c layer) sim)
        sim := by
  have hnothing : (List.finRange L).foldl
      (fun sim layer => ([] : List ℕ).foldl (prefetchExpert c layer) sim) sim = sim :=
    List.foldl_fixed _
  cases policy with
  | lru => exact congrArg some hnothing.symm
  | prefetch name =>
    simp only [prefetchRequest, ahead, Option.map_map, Function.comp_def]
    congr 1
    funext p
    split
    · rfl
    · exact hnothing.symm

end Loads

section Eager

/-- The cache of a layer: its experts are distinct, and there is room for them. -/
def Fits (c : ℕ) (state : Cache × ℕ) : Prop := state.1.Nodup ∧ state.1.length ≤ c

/-- It stays so. -/
theorem Fits.row {state : Cache × ℕ} (h : Fits c state) {experts : List ℕ}
    (hexperts : experts.Nodup ∧ experts.length ≤ c) :
    Fits c (lruRow c state experts) := by
  obtain ⟨_, hnodup, hlength, _⟩ := lruRow_serves h.1 h.2 hexperts.1 hexperts.2
  exact ⟨hnodup, hlength⟩

/-- It stays so over the tokens of a request. -/
theorem Fits.layer {state : Cache × ℕ} (h : Fits c state) {rows : List (List ℕ)}
    (hrows : ∀ experts ∈ rows, experts.Nodup ∧ experts.length ≤ c) :
    Fits c (lruLayer c state rows) := by
  induction rows generalizing state with
  | nil => exact h
  | cons experts rows ih =>
    obtain ⟨hexperts, hrest⟩ := List.forall_mem_cons.mp hrows
    exact ih (h.row hexperts) hrest

/-- Loads ahead belong to a schedule. -/
theorem eager_ahead {state : Cache × ℕ} (h : Fits c state) {experts : List ℕ}
    (hexperts : experts.Nodup ∧ experts.length ≤ c) {rest : List (Finset ℕ)} {loads : ℕ}
    (hrest : EagerSchedule c (lruRow c state experts).1.toFinset rest loads) :
    ∃ loads', EagerSchedule c state.1.toFinset rest loads' ∧
      state.2 + loads' ≤ (lruRow c state experts).2 + loads := by
  obtain ⟨hserves, _, _, hmisses⟩ := lruRow_serves h.1 h.2 hexperts.1 hexperts.2
  refine ⟨_, .ahead hrest, ?_⟩
  have hcard : ((lruRow c state experts).1.toFinset \ state.1.toFinset).card ≤
      (experts.toFinset \ state.1.toFinset).card := by
    refine Finset.card_le_card fun x hx => ?_
    obtain ⟨hafter, hfresh⟩ := Finset.mem_sdiff.mp hx
    exact Finset.mem_sdiff.mpr
      ⟨(Finset.mem_union.mp (hserves.demanded hafter)).resolve_left hfresh, hfresh⟩
  omega

/-- The tokens of a request belong to a schedule. -/
theorem eager_rows {state : Cache × ℕ} (h : Fits c state) {rows : List (List ℕ)}
    (hrows : ∀ experts ∈ rows, experts.Nodup ∧ experts.length ≤ c) {rest : List (Finset ℕ)}
    {loads : ℕ} (hrest : EagerSchedule c (lruLayer c state rows).1.toFinset rest loads) :
    ∃ loads', EagerSchedule c state.1.toFinset (rows.map List.toFinset ++ rest) loads' ∧
      state.2 + loads' ≤ (lruLayer c state rows).2 + loads := by
  induction rows generalizing state with
  | nil => exact ⟨loads, hrest, le_rfl⟩
  | cons experts rows ih =>
    obtain ⟨hexperts, hlater⟩ := List.forall_mem_cons.mp hrows
    obtain ⟨hserves, _, _, hmisses⟩ := lruRow_serves h.1 h.2 hexperts.1 hexperts.2
    obtain ⟨loads', hschedule, hloads⟩ := ih (h.row hexperts) hlater hrest
    refine ⟨_, .cons hserves hschedule, ?_⟩
    rw [lruLayer, List.foldl_cons]
    rw [lruLayer] at hloads
    omega

/-- The requests of a simulation belong to a schedule of each layer. -/
theorem entries_eager {policy : Policy} {entries : List (Req L k × Profiles L)}
    (hdistinct : Distinct (decodeStream (entries.map Prod.fst))) (hroom : k ≤ c)
    {sim sim' : Simulation L} {states : Fin L → Cache × ℕ} (h : Tallies (loaded sim) states)
    (hfits : ∀ layer, Fits c (states layer))
    (hfold : entries.foldlM (simulateRequest c policy) sim = some sim') :
    ∃ states', Tallies (loaded sim') states' ∧ ∀ layer, ∃ loads,
      EagerSchedule c (states layer).1.toFinset
        (requests (decodeStream (entries.map Prod.fst)) layer) loads ∧
        (states layer).2 + loads ≤ (states' layer).2 := by
  induction entries generalizing sim states with
  | nil =>
    cases hfold
    exact ⟨states, h, fun layer => ⟨0, .nil _, le_rfl⟩⟩
  | cons entry entries ih =>
    rw [List.foldlM_cons] at hfold
    obtain ⟨sim₁, hrequest, hrest⟩ := Option.bind_eq_some_iff.mp hfold
    rw [simulateRequest, prefetchRequest_eq, Option.map_map] at hrequest
    obtain ⟨experts, hahead, rfl⟩ := Option.map_eq_some_iff.mp hrequest
    have hstream : decodeStream ((entry :: entries).map Prod.fst) =
        entry.1.decode ++ decodeStream (entries.map Prod.fst) := rfl
    rw [hstream] at hdistinct
    have hnow : Distinct entry.1.decode :=
      fun token htoken => hdistinct token (List.mem_append_left _ htoken)
    have hrows (layer : Fin L) (row' : List ℕ)
        (hrow : row' ∈ entry.1.decode.map fun token => row token layer) :
        row'.Nodup ∧ row'.length ≤ c :=
      ⟨(hnow.rows layer row' hrow).1, (hnow.rows layer row' hrow).2.trans_le hroom⟩
    have hfits' (layer : Fin L) := (hfits layer).row (ahead_rows hahead layer)
    obtain ⟨states', htallies, hschedules⟩ :=
      ih (fun token htoken => hdistinct token (List.mem_append_right _ htoken))
      ((access_touches_loaded c).tokens
        ((prefetchExpert_touches c).layers experts h) entry.1.decode)
      (fun layer => (hfits' layer).layer (hrows layer)) hrest
    refine ⟨states', htallies, fun layer => ?_⟩
    obtain ⟨loads, hschedule, hloads⟩ := hschedules layer
    obtain ⟨loads₁, hschedule₁, hloads₁⟩ := eager_rows (hfits' layer) (hrows layer) hschedule
    obtain ⟨loads₂, hschedule₂, hloads₂⟩ :=
      eager_ahead (hfits layer) (ahead_rows hahead layer) hschedule₁
    refine ⟨loads₂, ?_, by omega⟩
    rw [hstream, requests, List.map_append, List.map_append]
    exact hschedule₂

end Eager

/-- Whatever the policy loads ahead, on demand and ahead together it loads no less than the oracle
does, as long as the stream has at most as many tokens as the sentinel of the oracle says. -/
theorem oracle_bounds_policies (orders : SetOrders) (reqs : List (Req L k))
    (profiles : List (Profiles L)) (policy : Policy) (hdistinct : Distinct (decodeStream reqs))
    (hroom : k ≤ c) (hlength : (decodeStream reqs).length ≤ 2 ^ 60) :
    ∀ result, decodeStream reqs ≠ [] → simulate reqs profiles c policy = some result →
      ∃ oracle, belady orders reqs c = some oracle ∧ oracle.1 ≤ result.1 + result.2.1 := by
  intro result hne hresult
  unfold simulate at hresult
  split at hresult
  · cases hresult
  · rename_i hlengths
    rw [not_or, not_not] at hlengths
    obtain ⟨sim', hfold, rfl⟩ := Option.map_eq_some_iff.mp hresult
    have hfirst : (reqs.zip profiles).map Prod.fst = reqs := List.map_fst_zip hlengths.2.le
    have hstart : Tallies (loaded ({} : Simulation L)) fun _ => ([], 0) :=
      ⟨fun _ => rfl, by simp [loaded]⟩
    obtain ⟨states', htallies, hschedules⟩ := entries_eager (by rwa [hfirst]) hroom hstart
      (fun _ => ⟨List.nodup_nil, Nat.zero_le c⟩) hfold
    rw [hfirst] at hschedules
    have hbounds (layer : Fin L) :
        ∃ loads, Schedule c ∅ (requests (decodeStream reqs) layer) loads ∧
          loads ≤ (states' layer).2 := by
      obtain ⟨loads, heager, hloads⟩ := hschedules layer
      obtain ⟨loads', hschedule, hless⟩ := heager.lazy ∅
      refine ⟨loads', hschedule, ?_⟩
      simp only [List.toFinset_nil, Finset.empty_sdiff, Finset.card_empty] at hless
      omega
    obtain ⟨oracle, horacle, hle⟩ := belady_le orders hdistinct hroom hlength hne hbounds
    exact ⟨oracle, horacle, hle.trans_eq htallies.misses.symm⟩

/-- Two experts are loaded ahead and one of them is used, two more are loaded on demand and each
evicts one: the oracle loads no more. -/
theorem oracle_bounds_policies_turns :
    simulate [⟨0, [single 0, single 2, single 1]⟩] [fun _ => some fun _ => [3, 2, 1]] 2
        (.prefetch "node") = some (2, 2, 3) ∧
      ∃ oracle, belady ascendingOrders [⟨0, [single 0, single 2, single 1]⟩] 2 = some oracle ∧
        oracle.1 ≤ 4 := by
  have hsort : argsortDescending [3, 2, 1] = [0, 1, 2] := by
    unfold argsortDescending
    rw [List.mergeSort_of_pairwise (by decide)]
    rfl
  have hresult : simulate [⟨0, [single 0, single 2, single 1]⟩] [fun _ => some fun _ => [3, 2, 1]] 2
      (.prefetch "node") = some (2, 2, 3) := by
    have hahead : prefetchRequest 2 (.prefetch "node") (fun _ => some fun _ => [3, 2, 1])
        ({} : Simulation 1) = some ([1, 0].foldl (prefetchExpert 2 0) {}) := by
      have hpositive : (0 : ℚ) < ∑ _layer : Fin 1, [3, 2, 1].sum := by decide +kernel
      simp only [prefetchRequest, Option.map_some, if_pos hpositive, hsort]
      rfl
    rw [simulate, if_neg (by decide), List.zip_cons_cons, List.foldlM_cons, simulateRequest, hahead]
    decide +kernel
  obtain ⟨oracle, horacle, hle⟩ := oracle_bounds_policies ascendingOrders
    [⟨0, [single 0, single 2, single 1]⟩] _ (.prefetch "node")
    (fun _ _ _ => Function.injective_of_subsingleton _) (by decide) (by decide) _
      (by decide) hresult
  exact ⟨hresult, oracle, horacle, hle⟩

end RadixForge.MoeStudy
