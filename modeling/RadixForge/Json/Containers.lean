import RadixForge.Json.Strings

/-!
# Arrays and objects

The loop that arrays and objects share, over any kind of element: if the parser of an element reads
the elements of a grammar, the loop reads them separated by commas, up to the closing bracket.
-/

namespace RadixForge

open Library

variable {D α σ ι : Type}

/-- Texts separated by commas, from the second one on, and what follows the last one. -/
def separatedTail (r : Bytes) : List Bytes → Bytes
  | [] => r
  | s :: rest => byte ',' :: (s ++ separatedTail r rest)

/-- Texts separated by commas are the first one and the others. -/
theorem separated_append (s : Bytes) (rest : List Bytes) (r : Bytes) :
    separated (s :: rest) ++ r = s ++ separatedTail r rest := by
  induction rest generalizing s with
  | nil => rfl
  | cons t rest ih =>
    rw [separated, separatedTail, List.append_assoc, List.cons_append, ih]

/-- Skipping white space does not get past another byte. -/
theorem length_le_skipWs (t : Bytes) {c : UInt8} (hc : isSpace c = false) (r : Bytes) :
    r.length < (skipWs (t ++ c :: r)).length := by
  induction t with
  | nil =>
    rw [List.nil_append, skipWs_cons hc]
    exact Nat.lt_succ_self _
  | cons d rest ih =>
    rw [List.cons_append]
    cases hd : isSpace d
    · rw [skipWs_cons hd]
      simp
      omega
    · rw [skipWs, List.dropWhile_cons_of_pos hd]
      exact ih

/-- How the elements of a container read: their texts, the values they denote, and which of them are
elements of the grammar. -/
structure Elements (ι α : Type) where
  full : ι → Bytes
  value : ι → α
  ok : ι → Prop

section Soundness

variable {p : Container D α σ} {e : Elements ι α}

/-- A parsed element, with the white space around it, is an element of the grammar. -/
structure Reads (p : Container D α σ) (e : Elements ι α) : Prop where
  element : ∀ s a w r, p.element s = .returned (a, w ++ r) → IsWs w → ∃ i, e.ok i ∧
    e.value i = a ∧ s = e.full i ++ r
  leading : ∀ w i, IsWs w → e.ok i → ∃ i', e.ok i' ∧ e.value i' = e.value i ∧
    e.full i' = w ++ e.full i

/-- The loop reads elements separated by commas. -/
theorem loop_containerRound_returned (h : Reads p e) {fuel : ℕ} {state : σ} {s r : Bytes}
    {v : JsonValue D} (hloop : loop (containerRound p) fuel state s = .returned (v, r)) :
    ∃ i items, (∀ j ∈ i :: items, e.ok j) ∧ s = separated ((i :: items).map e.full) ++ p.last :: r ∧
      v = p.make (((i :: items).map e.value).foldl p.add state) := by
  refine loop_returned (P := fun state s v r => ∃ i items, (∀ j ∈ i :: items, e.ok j) ∧
    s = separated ((i :: items).map e.full) ++ p.last :: r ∧
    v = p.make (((i :: items).map e.value).foldl p.add state))
    (fun state s v r hround => ?_) (fun state s state' s' v r hround hlater => ?_) hloop
  · obtain ⟨⟨a, s'⟩, helement, hrest⟩ := Outcome.andThen_eq_returned.mp hround
    obtain ⟨w, hw, hs'⟩ := exists_skipWs s'
    cases hskip : skipWs s' with
    | nil => simp [hskip] at hrest
    | cons c t =>
      simp only [hskip] at hrest
      split at hrest
      · rename_i hc
        cases hrest
        rw [hs', hskip, hc] at helement
        obtain ⟨i, hi, rfl, rfl⟩ := h.element _ _ _ _ helement hw
        exact ⟨i, [], List.forall_mem_singleton.mpr hi, rfl, rfl⟩
      · split at hrest <;> cases hrest
  · obtain ⟨⟨a, t⟩, helement, hrest⟩ := Outcome.andThen_eq_returned.mp hround
    obtain ⟨w, hw, ht⟩ := exists_skipWs t
    cases hskip : skipWs t with
    | nil => simp [hskip] at hrest
    | cons c t' =>
      simp only [hskip] at hrest
      split at hrest
      · cases hrest
      · split at hrest
        · rename_i hc
          cases hrest
          rw [ht, hskip, hc] at helement
          obtain ⟨i, hi, rfl, rfl⟩ := h.element _ _ _ _ helement hw
          obtain ⟨j, items, hok, rfl, rfl⟩ := hlater
          refine ⟨i, j :: items, List.forall_mem_cons.mpr ⟨hi, hok⟩, ?_, rfl⟩
          simp only [List.map_cons, separated_append, separatedTail]
        · contradiction

/-- A parsed container is empty or has elements separated by commas. -/
theorem parseContainer_returned (h : Reads p e) {start : σ} {s r : Bytes} {v : JsonValue D}
    (hp : parseContainer p start s = .returned (v, r)) :
    ∃ w, IsWs w ∧
      ((∃ space, IsWs space ∧ s = w ++ p.first :: (space ++ p.last :: r) ∧ v = p.make start) ∨
        ∃ i items, (∀ j ∈ i :: items, e.ok j) ∧
          s = w ++ p.first :: (separated ((i :: items).map e.full) ++ p.last :: r) ∧
            v = p.make (((i :: items).map e.value).foldl p.add start)) := by
  obtain ⟨s', hfirst, hrest⟩ := Outcome.andThen_eq_returned.mp hp
  obtain ⟨w, hw, rfl⟩ := expect_returned hfirst
  obtain ⟨space, hspace, hs'⟩ := exists_skipWs s'
  have hitems {fuel : ℕ} (hloop : loop (containerRound p) fuel start (skipWs s') =
      .returned (v, r)) :
      ∃ i items, (∀ j ∈ i :: items, e.ok j) ∧
        w ++ p.first :: s' = w ++ p.first :: (separated ((i :: items).map e.full) ++ p.last :: r) ∧
          v = p.make (((i :: items).map e.value).foldl p.add start) := by
    obtain ⟨i, items, hok, hskip, rfl⟩ := loop_containerRound_returned h hloop
    obtain ⟨i', hi', hvalue, hfull⟩ := h.leading space i hspace (hok i List.mem_cons_self)
    refine ⟨i', items, List.forall_mem_cons.mpr
      ⟨hi', fun j hj => hok j (List.mem_cons_of_mem _ hj)⟩, ?_, by
      rw [List.map_cons, List.map_cons, hvalue]⟩
    rw [hs', hskip, List.map_cons, List.map_cons, separated_append, separated_append,
      hfull, List.append_assoc]
  refine ⟨w, hw, ?_⟩
  cases hskip : skipWs s' with
  | nil =>
    simp only [hskip] at hrest
    exact .inr (hitems (hskip ▸ hrest))
  | cons c t =>
    simp only [hskip] at hrest
    split at hrest
    · rename_i hc
      cases hrest
      exact .inl ⟨space, hspace, by rw [← hc, ← hskip, ← hs'], rfl⟩
    · exact .inr (hitems (hskip ▸ hrest))

end Soundness

section Completeness

variable {p : Container D α σ} {e : Elements ι α}

/-- The elements of the grammar are parsed, wherever white space before them was skipped, and a
closing bracket is none of them. -/
structure Accepts (p : Container D α σ) (e : Elements ι α) (items : List ι) : Prop where
  element : ∀ i ∈ items, ∀ c r s, c = byte ',' ∨ c = p.last →
    skipWs s = skipWs (e.full i ++ c :: r) →
    ∃ w, IsWs w ∧ p.element s = .returned (e.value i, w ++ c :: r)
  closing : ∀ s rest a r, skipWs s = p.last :: rest → p.element s ≠ .returned (a, r)
  first : isSpace p.first = false
  last : isSpace p.last = false ∧ p.last ≠ byte ','

/-- The loop accepts elements separated by commas. -/
theorem loop_containerRound {i : ι} {items : List ι} (h : Accepts p e (i :: items)) (r : Bytes)
    {fuel : ℕ} {s : Bytes}
    (hs : skipWs s = skipWs (separated ((i :: items).map e.full) ++ p.last :: r))
    (hfuel : s.length < fuel) (state : σ) :
    loop (containerRound p) fuel state s =
      .returned (p.make (((i :: items).map e.value).foldl p.add state), r) := by
  -- every element is one round, whose rest are the elements after the comma
  induction items generalizing i fuel s state with
  | nil =>
    obtain ⟨fuel, rfl⟩ := Nat.exists_eq_succ_of_ne_zero (Nat.ne_zero_of_lt hfuel)
    obtain ⟨w, hw, helement⟩ := h.element i List.mem_cons_self p.last r s (.inr rfl) hs
    refine loop_done ?_
    simp only [containerRound, helement, Outcome.returned_andThen, skipWs_append hw,
      skipWs_cons h.last.1, if_true]
    rfl
  | cons j items ih =>
    obtain ⟨fuel, rfl⟩ := Nat.exists_eq_succ_of_ne_zero (Nat.ne_zero_of_lt hfuel)
    rw [List.map_cons, separated_append, List.map_cons, separatedTail] at hs
    obtain ⟨w, hw, helement⟩ := h.element i List.mem_cons_self (byte ',') _ s (.inl rfl) hs
    have hcomma : isSpace (byte ',') = false := by decide
    have hround : containerRound p state s =
        .returned (.inl (p.add state (e.value i)),
          e.full j ++ separatedTail (p.last :: r) (items.map e.full)) := by
      simp only [containerRound, helement, Outcome.returned_andThen, skipWs_append hw,
        skipWs_cons hcomma, if_neg h.last.2.symm, if_true]
    rw [loop_more hround]
    refine ih ⟨fun k hk => h.element k (List.mem_cons_of_mem _ hk), h.closing,
      h.first, h.last⟩ ?_ ?_ _
    · rw [List.map_cons, separated_append]
    · have hshort := length_le_skipWs (e.full i) hcomma
        (e.full j ++ separatedTail (p.last :: r) (items.map e.full))
      rw [← hs] at hshort
      have hle := skipWs_length_le s
      omega

/-- An empty container is parsed. -/
theorem parseContainer_empty {items : List ι} (h : Accepts p e items) {space : Bytes}
    (hspace : IsWs space) (start : σ) (r : Bytes) :
    parseContainer p start (p.first :: (space ++ p.last :: r)) = .returned (p.make start, r) := by
  have hexpect : expect p.first (p.first :: (space ++ p.last :: r)) =
      .returned (space ++ p.last :: r) :=
    expect_append isWs_nil h.first _
  simp only [parseContainer, hexpect, Outcome.returned_andThen, skipWs_append hspace,
    skipWs_cons h.last.1, if_true]

/-- A container with elements is parsed. -/
theorem parseContainer_items {i : ι} {items : List ι} (h : Accepts p e (i :: items)) (start : σ)
    (r : Bytes) :
    parseContainer p start (p.first :: (separated ((i :: items).map e.full) ++ p.last :: r)) =
      .returned (p.make (((i :: items).map e.value).foldl p.add start), r) := by
  have hexpect : expect p.first (p.first :: (separated ((i :: items).map e.full) ++ p.last :: r)) =
      .returned (separated ((i :: items).map e.full) ++ p.last :: r) :=
        expect_append isWs_nil h.first _
  have hidem (s : Bytes) : skipWs (skipWs s) = skipWs s := by
    obtain ⟨w, hw, hs⟩ := exists_skipWs s
    conv_rhs => rw [hs]
    exact (skipWs_append hw _).symm
  rw [parseContainer, hexpect, Outcome.returned_andThen]
  generalize hs : separated ((i :: items).map e.full) ++ p.last :: r = s
  have hloop {fuel : ℕ} (hfuel : (skipWs s).length < fuel) :
      loop (containerRound p) fuel start (skipWs s) =
        .returned (p.make (((i :: items).map e.value).foldl p.add start), r) :=
    loop_containerRound h r (by rw [hidem, hs]) hfuel start
  cases hskip : skipWs s with
  | nil =>
    rw [hskip] at hloop
    exact hloop Nat.one_pos
  | cons c t =>
    dsimp only
    split
    · rename_i hc
      rw [List.map_cons, separated_append] at hs
      have hlater : ∃ c' r', (c' = byte ',' ∨ c' = p.last) ∧
          separatedTail (p.last :: r) (items.map e.full) = c' :: r' := by
        cases items with
        | nil => exact ⟨_, _, .inr rfl, rfl⟩
        | cons j items => exact ⟨_, _, .inl rfl, rfl⟩
      obtain ⟨c', r', hc', hlater⟩ := hlater
      rw [hlater] at hs
      obtain ⟨w, _, helement⟩ := h.element i List.mem_cons_self c' r' s hc' (by rw [hs])
      exact absurd helement (h.closing s t _ _ (by rw [hskip, hc]))
    · rw [hskip] at hloop
      exact hloop (Nat.lt_succ_self _)

/-- A container finishes if its elements do and leave no more than they were given. -/
theorem parseContainer_finishes (helement : ∀ s, p.element s ≠ .unfinished)
    (hle : ∀ s a r, p.element s = .returned (a, r) → r.length ≤ s.length) (start : σ) (s : Bytes) :
    parseContainer p start s ≠ .unfinished := by
  have hround (state : σ) (s : Bytes) : containerRound p state s ≠ .unfinished := by
    refine Outcome.andThen_finishes (helement s) fun as _ => ?_
    obtain ⟨a, s⟩ := as
    dsimp only
    repeat' split
    all_goals simp
  have hconsumes (state : σ) (s : Bytes) (state' : σ) (s' : Bytes)
      (h : containerRound p state s = .returned (.inl state', s')) : s'.length < s.length := by
    obtain ⟨⟨a, t⟩, hread, hrest⟩ := Outcome.andThen_eq_returned.mp h
    have hshort := skipWs_length_le t
    have hbefore := hle _ _ _ hread
    cases hskip : skipWs t with
    | nil => simp [hskip] at hrest
    | cons c t' =>
      simp only [hskip, List.length_cons] at hrest hshort
      split at hrest
      · cases hrest
      · split at hrest
        · cases hrest
          omega
        · contradiction
  refine Outcome.andThen_finishes (expect_finishes _ _) fun s' _ => ?_
  split
  · exact loop_finishes hround hconsumes (Nat.lt_succ_self _)
  · split
    · simp
    · exact loop_finishes hround hconsumes (Nat.lt_succ_self _)

end Completeness

section Rejection

variable {p : Container D α σ} {e : Elements ι α} {items : List ι} {rest : Bytes}

/-- Texts with a comma behind each of them, and what follows. -/
def leading (rest : Bytes) : List Bytes → Bytes
  | [] => rest
  | s :: texts => s ++ byte ',' :: leading rest texts

end Rejection

end RadixForge
