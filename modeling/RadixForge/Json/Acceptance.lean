import RadixForge.Json.Containers
import RadixForge.Json.Nesting
import RadixForge.Json.Numbers

/-!
# What the JSON parser accepts

`json::parse` returns on exactly the documents of the grammar, up to the limit of nesting, and it
returns the values they denote.
-/

namespace RadixForge

open Library

variable {D : Type} {floats : Floats D}

/-- The items of arrays whose containers are nested at most so deep. -/
def itemElements (floats : Floats D) (n : ℕ) : Elements (Item D) (JsonValue D) where
  full := Item.full
  value := Item.value
  ok item := item.Spaced ∧ Value floats n item.text item.value

/-- The members of objects whose containers are nested at most so deep. -/
def memberElements (floats : Floats D) (n : ℕ) : Elements (Member D) (Bytes × JsonValue D) where
  full := Member.full
  value := Member.entry
  ok member := member.Spaced ∧ Value floats n member.item.text member.item.value

/-- Two runs of white space are one. -/
theorem IsWs.append {w w' : Bytes} (h : IsWs w) (h' : IsWs w') : IsWs (w ++ w') :=
  fun c hc => (List.mem_append.mp hc).elim (h c) (h' c)

section Soundness

variable {value : Bytes → Outcome (JsonValue D × Bytes)} {n : ℕ} {s r v : Bytes}

/-- A string that starts with its quotation mark. -/
theorem parseString_quote (h : parseString (quote :: s) = .returned (v, r)) :
    ∃ t, s = t ++ quote :: r ∧ Chars t v := by
  obtain ⟨w, t, hw, hs, ht⟩ := parseString_returned h
  cases w with
  | nil =>
    cases hs
    exact ⟨t, rfl, ht⟩
  | cons c w =>
    have hc := hw c List.mem_cons_self
    cases hs
    contradiction

/-- The parser reads values of the grammar, after white space. -/
def ReadsValues (floats : Floats D) (n : ℕ) (value : Bytes → Outcome (JsonValue D × Bytes)) :
    Prop :=
  ∀ s v r, value s = .returned (v, r) → ∃ before t, IsWs before ∧ s = before ++ (t ++ r) ∧
    Value floats n t v

/-- A value of the grammar that is parsed with so many levels: something in its containers needs a
level. -/
def LeveledValue (floats : Floats D) (levels : ℕ) (t : Bytes) (v : JsonValue D) : Prop :=
  0 < levels ∧ Value floats levels t v ∧ Depths (Filled levels) (outside 0) t

/-- The parser reads leveled values, after white space. -/
def ReadsLeveled (floats : Floats D) (n : ℕ) (value : Bytes → Outcome (JsonValue D × Bytes)) :
    Prop :=
  ∀ s v r, value s = .returned (v, r) → ∃ before t, IsWs before ∧ s = before ++ (t ++ r) ∧
    LeveledValue floats n t v

/-- The items of arrays whose values are leveled. -/
def leveledItems (floats : Floats D) (n : ℕ) : Elements (Item D) (JsonValue D) where
  full := Item.full
  value := Item.value
  ok item := item.Spaced ∧ LeveledValue floats n item.text item.value

/-- The members of objects whose values are leveled. -/
def leveledMembers (floats : Floats D) (n : ℕ) : Elements (Member D) (Bytes × JsonValue D) where
  full := Member.full
  value := Member.entry
  ok member := member.Spaced ∧ LeveledValue floats n member.item.text member.item.value

/-- The items of an array are read with the white space around them. -/
theorem reads_items (h : ReadsLeveled floats n value) :
    Reads (arrayContainer value) (leveledItems floats n) where
  element s a w r hread hw := by
    obtain ⟨before, t, hbefore, rfl, ht⟩ := h s a (w ++ r) hread
    exact ⟨⟨before, t, w, a⟩, ⟨⟨hbefore, hw⟩, ht⟩, rfl, by simp [leveledItems, Item.full]⟩
  leading w item hw hok := by
    refine ⟨{ item with before := w ++ item.before },
      ⟨⟨hw.append hok.1.1, hok.1.2⟩, hok.2⟩, rfl, ?_⟩
    simp [leveledItems, Item.full]

/-- The members of an object are read with the white space around them. -/
theorem reads_members (h : ReadsLeveled floats n value) :
    Reads (objectContainer value) (leveledMembers floats n) where
  element s a w r hread hw := by
    obtain ⟨before, hbefore, hs⟩ := exists_skipWs s
    change parseMember value s = .returned (a, w ++ r) at hread
    unfold parseMember at hread
    cases hskip : skipWs s with
    | nil => simp [hskip] at hread
    | cons c rest =>
      simp only [hskip] at hread
      split at hread
      · contradiction
      · rename_i hquote
        rw [not_not] at hquote
        subst hquote
        obtain ⟨⟨key, s₁⟩, hkey, hmember⟩ := Outcome.andThen_eq_returned.mp hread
        obtain ⟨s₂, hcolon, hitem⟩ := Outcome.andThen_eq_returned.mp hmember
        obtain ⟨⟨v, s₃⟩, hvalue, hlast⟩ := Outcome.andThen_eq_returned.mp hitem
        obtain ⟨keyText, rfl, hchars⟩ := parseString_quote hkey
        obtain ⟨after, hafter, rfl⟩ := expect_returned hcolon
        obtain ⟨inner, t, hinner, rfl, ht⟩ := h _ _ _ hvalue
        cases hlast
        refine ⟨⟨before, keyText, key, after, ⟨inner, t, w, v⟩⟩,
          ⟨⟨hbefore, hchars, hafter, hinner, hw⟩, ht⟩, rfl, ?_⟩
        rw [hs, hskip]
        simp [leveledMembers, Member.full, Item.full]
  leading w member hw hok := by
    obtain ⟨⟨hbefore, hrest⟩, hvalue⟩ := hok
    refine ⟨{ member with before := w ++ member.before },
      ⟨⟨hw.append hbefore, hrest⟩, hvalue⟩, rfl, ?_⟩
    simp [leveledMembers, Member.full]

/-- A container that starts with its bracket is read without white space before it. -/
theorem nil_of_first {c : UInt8} {w x y : Bytes} (hc : isSpace c = false) (hw : IsWs w)
    (h : c :: x = w ++ y) : w = [] := by
  cases w with
  | nil => rfl
  | cons d w =>
    have hd := hw d List.mem_cons_self
    cases h
    rw [hc] at hd
    contradiction

/-- An array is the list of its items. -/
theorem foldl_arrayContainer (xs ys : List (JsonValue D)) :
    xs.foldl (arrayContainer value).add ys = ys ++ xs := by
  induction xs generalizing ys with
  | nil => exact (List.append_nil ys).symm
  | cons x xs ih =>
    rw [List.foldl_cons, ih, arrayContainer, List.append_assoc, List.singleton_append]

/-- A parsed array is one of the grammar. -/
theorem parseArray_returned (h : ReadsLeveled floats n value) {j : JsonValue D}
    (hp : parseArray value (openBracket :: s) = .returned (j, r)) :
    ∃ t, openBracket :: s = t ++ r ∧ LeveledValue floats (n + 1) t j := by
  obtain ⟨w, hw, ⟨space, hspace, hs, rfl⟩ | ⟨i, items, hok, hs, rfl⟩⟩ :=
    parseContainer_returned (reads_items h) hp
  · obtain rfl := nil_of_first (by decide) hw hs
    refine ⟨_, by rw [hs]; simp [arrayContainer], Nat.succ_pos n, .noItems n hspace, ?_⟩
    exact filled_empty (.inr rfl) (.inr rfl) hspace
  · obtain rfl := nil_of_first (by decide) hw hs
    rw [foldl_arrayContainer]
    refine ⟨_, ?_, Nat.succ_pos n,
      .items n (i :: items) (List.cons_ne_nil _ _) (fun j hj => (hok j hj).1) fun j hj =>
        (hok j hj).2.2.1, ?_⟩
    · rw [hs]
      simp [arrayContainer, leveledItems]
    · have hclosed (s : Bytes) (hs : s ∈ (i :: items).map Item.full) :
          Closed s ∧ Depths (Filled n) (outside 0) s := by
        obtain ⟨item, hitem, rfl⟩ := List.mem_map.mp hs
        obtain ⟨hspaced, hlevels, hvalue, hfilled⟩ := hok item hitem
        obtain ⟨hclosed, _, hforth⟩ := Item.depths (p := Filled n) (d := 0) hspaced hvalue.depths.1
        exact ⟨hclosed, hforth (fun _ _ _ => Int.natCast_pos.mpr hlevels) hfilled⟩
      exact (filled_bracketed (.inr rfl) (.inr rfl) _ fun s hs => (hclosed s hs).1).mpr
        ⟨fun s hs => (hclosed s hs).2, fun _ => (hok i List.mem_cons_self).2.1⟩

/-- A parsed object is one of the grammar. -/
theorem parseObject_returned (h : ReadsLeveled floats n value) {j : JsonValue D}
    (hp : parseObject value (openBrace :: s) = .returned (j, r)) :
    ∃ t, openBrace :: s = t ++ r ∧ LeveledValue floats (n + 1) t j := by
  obtain ⟨w, hw, ⟨space, hspace, hs, rfl⟩ | ⟨i, items, hok, hs, rfl⟩⟩ :=
    parseContainer_returned (reads_members h) hp
  · obtain rfl := nil_of_first (by decide) hw hs
    refine ⟨_, by rw [hs]; simp [objectContainer], Nat.succ_pos n, .noMembers n hspace, ?_⟩
    exact filled_empty (.inl rfl) (.inl rfl) hspace
  · obtain rfl := nil_of_first (by decide) hw hs
    obtain ⟨hsorted, hlookup⟩ := lookup_foldl_emplace ((i :: items).map Member.entry)
      (m := ([] : List (Bytes × JsonValue D))) List.Pairwise.nil
    refine ⟨_, ?_, Nat.succ_pos n,
      .members n (i :: items) (List.cons_ne_nil _ _) (fun j hj => (hok j hj).1)
        (fun j hj => (hok j hj).2.2.1)
        ⟨hsorted, fun key => (hlookup key).trans rfl⟩, ?_⟩
    · rw [hs]
      simp [objectContainer, leveledMembers]
    · have hclosed (s : Bytes) (hs : s ∈ (i :: items).map Member.full) :
          Closed s ∧ Depths (Filled n) (outside 0) s := by
        obtain ⟨member, hmember, rfl⟩ := List.mem_map.mp hs
        obtain ⟨hspaced, hlevels, hvalue, hfilled⟩ := hok member hmember
        obtain ⟨hclosed, _, hforth⟩ :=
          Member.depths (p := Filled n) (d := 0) hspaced hvalue.depths.1
        exact ⟨hclosed, hforth (fun _ _ => Int.natCast_pos.mpr hlevels) hfilled⟩
      exact (filled_bracketed (.inl rfl) (.inl rfl) _ fun s hs => (hclosed s hs).1).mpr
        ⟨fun s hs => (hclosed s hs).2, fun _ => (hok i List.mem_cons_self).2.1⟩

/-- `parse_bool` reads a word of the grammar. -/
theorem parseBool_returned {levels : ℕ} {s r : Bytes} {v : JsonValue D}
    (h : parseBool s = .returned (v, r)) :
    ∃ t, s = t ++ r ∧ LeveledValue floats (levels + 1) t v := by
  have hpos := Nat.succ_pos levels
  unfold parseBool at h
  split at h
  · rename_i hprefix
    obtain ⟨r', hr'⟩ := hprefix
    cases h
    exact ⟨ascii "true", by rw [← hr']; rfl, hpos, .true _,
      (flat_of_plain (by decide)).filled hpos⟩
  · split at h
    · rename_i hprefix
      obtain ⟨r', hr'⟩ := hprefix
      cases h
      exact ⟨ascii "false", by rw [← hr']; rfl, hpos, .false _,
        (flat_of_plain (by decide)).filled hpos⟩
    · contradiction

/-- `parse_null` reads the word of the grammar. -/
theorem parseNull_returned {levels : ℕ} {s r : Bytes} {v : JsonValue D}
    (h : parseNull s = .returned (v, r)) :
    ∃ t, s = t ++ r ∧ LeveledValue floats (levels + 1) t v := by
  have hpos := Nat.succ_pos levels
  unfold parseNull at h
  split at h
  · rename_i hprefix
    obtain ⟨r', hr'⟩ := hprefix
    cases h
    exact ⟨ascii "null", by rw [← hr']; rfl, hpos, .null _,
      (flat_of_plain (by decide)).filled hpos⟩
  · contradiction

/-- `parse_number` reads a number of the grammar, which has no container. -/
theorem parseNumber_leveled {levels : ℕ} {s r : Bytes} {v : JsonValue D}
    (h : parseNumber floats s = .returned (v, r)) :
    ∃ t, s = t ++ r ∧ LeveledValue floats (levels + 1) t v := by
  have hpos := Nat.succ_pos levels
  obtain ⟨t, ht, hvalue⟩ := parseNumber_returned h (levels + 1)
  obtain ⟨t', ht', hshallow⟩ := parseNumber_returned h 0
  obtain rfl : t' = t := List.append_cancel_right (ht'.symm.trans ht)
  exact ⟨t', ht, hpos, hvalue, hshallow.filled hpos⟩

/-- `parse_value` reads values of the grammar, with a level for everything in their containers. -/
theorem parseValue_leveled (floats : Floats D) (levels : ℕ) :
    ReadsLeveled floats levels (parseValue floats levels) := by
  induction levels with
  | zero => exact fun s v r h => absurd h (by simp [parseValue])
  | succ levels ih =>
    intro s v r h
    obtain ⟨before, hbefore, hs⟩ := exists_skipWs s
    suffices ∃ t, skipWs s = t ++ r ∧ LeveledValue floats (levels + 1) t v by
      obtain ⟨t, hskip, ht⟩ := this
      exact ⟨before, t, hbefore, by rw [← hskip, ← hs], ht⟩
    have hpos := Nat.succ_pos levels
    unfold parseValue at h
    cases hskip : skipWs s with
    | nil => simp [hskip] at h
    | cons c rest =>
      simp only [hskip] at h
      split at h
      · rename_i hc
        subst hc
        obtain ⟨⟨text, s'⟩, hstring, hrest⟩ := Outcome.andThen_eq_returned.mp h
        obtain ⟨t, rfl, ht⟩ := parseString_quote hstring
        cases hrest
        exact ⟨quote :: (t ++ [quote]), by simp, hpos, .string _ ht, ht.flat.filled hpos⟩
      · split at h
        · rename_i hc
          subst hc
          exact parseObject_returned ih h
        · split at h
          · rename_i hc
            subst hc
            exact parseArray_returned ih h
          · split at h
            · exact parseBool_returned h
            · split at h
              · exact parseNull_returned h
              · split at h
                · exact parseNumber_leveled h
                · contradiction

/-- `parse_value` reads values of the grammar. -/
theorem parseValue_reads (floats : Floats D) (levels : ℕ) :
    ReadsValues floats levels (parseValue floats levels) := by
  intro s v r h
  obtain ⟨before, t, hbefore, hs, _, hvalue, _⟩ := parseValue_leveled floats levels s v r h
  exact ⟨before, t, hbefore, hs, hvalue⟩

end Soundness

section Completeness

variable {n levels : ℕ} {s s' r : Bytes}

/-- `parse_value` starts with skipping white space. -/
theorem parseValue_congr (h : skipWs s = skipWs s') :
    parseValue floats levels s = parseValue floats levels s' := by
  cases levels with
  | zero => rfl
  | succ levels => simp only [parseValue, h]

/-- `parse_value` at a byte that is no white space. -/
theorem parseValue_cons {c : UInt8} (hc : isSpace c = false) (rest : Bytes) :
    parseValue floats (levels + 1) (c :: rest) =
      if c = quote then (parseString (c :: rest)).andThen fun (text, s) =>
        .returned (.string text, s)
      else if c = openBrace then parseObject (parseValue floats levels) (c :: rest)
      else if c = openBracket then parseArray (parseValue floats levels) (c :: rest)
      else if c = byte 't' ∨ c = byte 'f' then parseBool (c :: rest)
      else if c = byte 'n' then parseNull (c :: rest)
      else if c = byte '-' ∨ isDigit c then parseNumber floats (c :: rest)
      else .thrown "invalid JSON value" := by
  rw [parseValue, skipWs_cons hc]

/-- No value starts with a closing bracket. -/
theorem parseValue_closing {rest : Bytes} (h : skipWs s = closeBracket :: rest) {v : JsonValue D} :
    parseValue floats levels s ≠ .returned (v, r) := by
  cases levels with
  | zero => simp [parseValue]
  | succ levels =>
    have hskip : skipWs s = skipWs (closeBracket :: rest) := by rw [h, skipWs_cons (by decide)]
    rw [parseValue_congr hskip, parseValue_cons (by decide), if_neg (by decide), if_neg (by decide),
      if_neg (by decide), if_neg (by decide), if_neg (by decide), if_neg (by decide)]
    simp

/-- Nothing that a number could go on with follows white space at the end. -/
theorem stops_of_isWs {w : Bytes} (hw : IsWs w) : Stops w := by
  have hspace : ∀ d, isSpace d = true → isDigit d = false ∧ d ≠ byte '.' ∧
      d ≠ byte 'e' ∧ d ≠ byte 'E' :=
    forall_byte (by decide +kernel)
  exact fun c hc => hspace c (hw c (List.mem_of_mem_head? hc))

/-- A value may be followed by white space and a comma or a closing bracket. -/
theorem stops_append {w : Bytes} (hw : IsWs w) {c : UInt8}
    (hc : c = byte ',' ∨ c = closeBracket ∨ c = closeBrace) (r : Bytes) : Stops (w ++ c :: r) := by
  intro d hd
  cases w with
  | nil =>
    cases hd
    rcases hc with rfl | rfl | rfl <;> decide
  | cons x w => exact stops_of_isWs hw d hd

/-- The items of an array are accepted. -/
theorem accepts_items (items : List (Item D)) (hspaced : ∀ item ∈ items, item.Spaced)
    (hvalue : ∀ item ∈ items, ∀ r, Stops r →
      parseValue floats levels (item.text ++ r) = .returned (item.value, r)) :
    Accepts (arrayContainer (parseValue floats levels)) (itemElements floats n) items where
  element item hitem c r s hc hs := by
    obtain ⟨hbefore, hafter⟩ := hspaced item hitem
    refine ⟨item.after, hafter, ?_⟩
    have hskip : skipWs s = skipWs (item.text ++ (item.after ++ c :: r)) := by
      have hfull : (itemElements floats n).full item ++ c :: r =
          item.before ++ (item.text ++ (item.after ++ c :: r)) := by
        simp [itemElements, Item.full]
      rw [hs, hfull, skipWs_append hbefore]
    exact (parseValue_congr hskip).trans
      (hvalue item hitem _ (stops_append hafter (hc.imp_right .inl) r))
  closing s rest a r h := parseValue_closing h
  first := show isSpace openBracket = false by decide
  last := show isSpace closeBracket = false ∧ closeBracket ≠ byte ',' by decide

/-- The members of an object are accepted. -/
theorem accepts_members (members : List (Member D)) (hspaced : ∀ member ∈ members, member.Spaced)
    (hvalue : ∀ member ∈ members, ∀ r, Stops r →
      parseValue floats levels (member.item.text ++ r) = .returned (member.item.value, r)) :
    Accepts (objectContainer (parseValue floats levels)) (memberElements floats n) members where
  element member hmember c r s hc hs := by
    obtain ⟨hbefore, hchars, hafter, hinner, houter⟩ := hspaced member hmember
    refine ⟨member.item.after, houter, ?_⟩
    have hskip : skipWs s = quote :: (member.keyText ++ quote ::
        (member.after ++ byte ':' ::
          (member.item.before ++ (member.item.text ++ (member.item.after ++ c :: r))))) := by
      have hfull : (memberElements floats n).full member ++ c :: r =
          member.before ++ (quote :: (member.keyText ++ quote ::
          (member.after ++ byte ':' ::
            (member.item.before ++ (member.item.text ++ (member.item.after ++ c :: r)))))) := by
        simp [memberElements, Member.full, Item.full]
      rw [hs, hfull, skipWs_append hbefore, skipWs_cons (by decide)]
    have hread := hvalue member hmember _ (stops_append houter (hc.imp_right .inr) r)
    rw [← parseValue_congr (skipWs_append hinner _)] at hread
    change parseMember (parseValue floats levels) s = _
    simp only [parseMember, hskip, ne_eq, not_true_eq_false, if_false, parseString_append hchars,
      Outcome.returned_andThen,
      expect_append hafter (by decide : isSpace (byte ':') = false), hread]
    rfl
  closing s rest a r h := by
    change parseMember (parseValue floats levels) s ≠ _
    simp only [parseMember, show skipWs s = closeBrace :: rest from h]
    rw [if_pos (by decide)]
    simp
  first := show isSpace openBrace = false by decide
  last := show isSpace closeBrace = false ∧ closeBrace ≠ byte ',' by decide

/-- The text of a number starts with a digit or a minus sign. -/
theorem NumberText.head {t : Bytes} (h : NumberText t) :
    ∃ c rest, t = c :: rest ∧ (c = byte '-' ∨ isDigit c = true) := by
  obtain ⟨minus, integer, fraction, exponent, rfl | rfl, hinteger, _, _, rfl⟩ := h
  · obtain ⟨c, rest, rfl, hc⟩ := hinteger.head
    exact ⟨c, _, rfl, .inr hc⟩
  · exact ⟨_, _, rfl, .inl rfl⟩

/-- Nothing else starts like a number. -/
theorem number_head (c : UInt8) : (c = byte '-' ∨ isDigit c = true) →
    isSpace c = false ∧ c ≠ quote ∧ c ≠ openBrace ∧ c ≠ openBracket ∧
    ¬ (c = byte 't' ∨ c = byte 'f') ∧ c ≠ byte 'n' :=
  forall_byte (p := fun c => (c = byte '-' ∨ isDigit c = true) →
    isSpace c = false ∧ c ≠ quote ∧ c ≠ openBrace ∧ c ≠ openBracket ∧
    ¬ (c = byte 't' ∨ c = byte 'f') ∧ c ≠ byte 'n')
    (by decide +kernel) c

/-- Something stands where a number starts. -/
theorem number_content (c : UInt8) : (c = byte '-' ∨ isDigit c = true) → isContent c = true :=
  forall_byte (p := fun c => (c = byte '-' ∨ isDigit c = true) → isContent c = true)
    (by decide +kernel) c

/-- `parse_value` accepts `null`. -/
theorem parseValue_null (floats : Floats D) (levels : ℕ) (r : Bytes) :
    parseValue floats (levels + 1) (ascii "null" ++ r) = .returned (.null, r) := by
  rw [show ascii "null" = byte 'n' :: ascii "ull" from rfl, List.cons_append,
    parseValue_cons (by decide), if_neg (by decide), if_neg (by decide), if_neg (by decide),
    if_neg (by decide), if_pos rfl]
  exact if_pos (List.prefix_append (ascii "null") r)

/-- `parse_value` accepts `true`. -/
theorem parseValue_true (floats : Floats D) (levels : ℕ) (r : Bytes) :
    parseValue floats (levels + 1) (ascii "true" ++ r) = .returned (.bool true, r) := by
  rw [show ascii "true" = byte 't' :: ascii "rue" from rfl, List.cons_append,
    parseValue_cons (by decide), if_neg (by decide), if_neg (by decide), if_neg (by decide),
    if_pos (by decide)]
  exact if_pos (List.prefix_append (ascii "true") r)

/-- `parse_value` accepts `false`. -/
theorem parseValue_false (floats : Floats D) (levels : ℕ) (r : Bytes) :
    parseValue floats (levels + 1) (ascii "false" ++ r) = .returned (.bool false, r) := by
  rw [show ascii "false" = byte 'f' :: ascii "alse" from rfl, List.cons_append,
    parseValue_cons (by decide), if_neg (by decide), if_neg (by decide), if_neg (by decide),
    if_pos (by decide)]
  have hnot : ¬ ascii "true" <+: ascii "false" ++ r := fun hprefix => by
    obtain ⟨rest, hrest⟩ := hprefix
    exact absurd (List.cons.inj hrest).1 (by decide)
  exact (if_neg hnot).trans (if_pos (List.prefix_append (ascii "false") r))

/-- `parse_value` accepts the numbers that `std::stod` reads as finite ones. -/
theorem parseValue_number {t : Bytes} {value : D} (ht : NumberText t)
    (hstod : floats.stod t = some value) (hfinite : floats.isFinite value = true) (hr : Stops r) :
    parseValue floats (levels + 1) (t ++ r) = .returned (.number value, r) := by
  obtain ⟨c, rest, rfl, hc⟩ := ht.head
  obtain ⟨hspace, hquote, hbrace, hbracket, hbool, hnull⟩ := number_head c hc
  rw [List.cons_append, parseValue_cons hspace, if_neg hquote, if_neg hbrace, if_neg hbracket,
    if_neg hbool, if_neg hnull, if_pos hc]
  exact parseNumber_append ht hstod hfinite hr

/-- `parse_value` accepts the strings of the grammar. -/
theorem parseValue_string {t v : Bytes} (ht : Chars t v) :
    parseValue floats (levels + 1) (quote :: (t ++ [quote]) ++ r) = .returned (.string v, r) := by
  rw [List.cons_append, List.append_assoc, List.singleton_append, parseValue_cons (by decide),
    if_pos rfl, parseString_append ht]
  rfl

/-- At an opening bracket `parse_value` reads an array. -/
theorem parseValue_openBracket (t : Bytes) :
    parseValue floats (levels + 1) (openBracket :: (t ++ [closeBracket]) ++ r) =
      parseArray (parseValue floats levels) (openBracket :: (t ++ closeBracket :: r)) := by
  rw [List.cons_append, List.append_assoc, List.singleton_append, parseValue_cons (by decide),
    if_neg (by decide), if_neg (by decide), if_pos rfl]

/-- At an opening brace `parse_value` reads an object. -/
theorem parseValue_openBrace (t : Bytes) :
    parseValue floats (levels + 1) (openBrace :: (t ++ [closeBrace]) ++ r) =
      parseObject (parseValue floats levels) (openBrace :: (t ++ closeBrace :: r)) := by
  rw [List.cons_append, List.append_assoc, List.singleton_append, parseValue_cons (by decide),
    if_neg (by decide), if_pos rfl]

/-- The members of an object are collected into the map that their entries describe. -/
theorem foldl_objectContainer {members : List (Member D)} {entries : List (Bytes × JsonValue D)}
    (hmap : IsMapOf entries (members.map Member.entry)) :
    (members.map Member.entry).foldl (fun m entry => emplace entry.1 entry.2 m) [] = entries := by
  obtain ⟨hsorted, hlookup⟩ := lookup_foldl_emplace (members.map Member.entry)
    (m := ([] : List (Bytes × JsonValue D))) List.Pairwise.nil
  exact eq_of_lookup hsorted hmap.1 fun key => (hlookup key).trans (hmap.2 key).symm

/-- The items of an array that is filled up to a level are filled up to the one below. -/
theorem filled_items {items : List (Item D)} (hspaced : ∀ item ∈ items, item.Spaced)
    (hvalues : ∀ item ∈ items, Value floats n item.text item.value)
    (hfilled : Depths (Filled (levels + 1)) (outside 0)
      (openBracket :: (separated (items.map Item.full) ++ [closeBracket]))) :
    ∀ item ∈ items, Depths (Filled levels) (outside 0) item.text := by
  have hinner (item : Item D) (hitem : item ∈ items) :=
    Item.depths (p := Filled levels) (d := 0) (hspaced item hitem) (hvalues item hitem).depths.1
  have hclosed (s : Bytes) (hs : s ∈ items.map Item.full) : Closed s := by
    obtain ⟨item, hitem, rfl⟩ := List.mem_map.mp hs
    exact (hinner item hitem).1
  have hparts := ((filled_bracketed (.inr rfl) (.inr rfl) _ hclosed).mp hfilled).1
  exact fun item hitem => (hinner item hitem).2.1 (hparts _ (List.mem_map_of_mem hitem))

/-- The members of an object that is filled up to a level are filled up to the one below. -/
theorem filled_members {members : List (Member D)} (hspaced : ∀ member ∈ members, member.Spaced)
    (hvalues : ∀ member ∈ members, Value floats n member.item.text member.item.value)
    (hfilled : Depths (Filled (levels + 1)) (outside 0)
      (openBrace :: (separated (members.map Member.full) ++ [closeBrace]))) :
    ∀ member ∈ members, Depths (Filled levels) (outside 0) member.item.text := by
  have hinner (member : Member D) (hmember : member ∈ members) :=
    Member.depths (p := Filled levels) (d := 0)
      (hspaced member hmember) (hvalues member hmember).depths.1
  have hclosed (s : Bytes) (hs : s ∈ members.map Member.full) : Closed s := by
    obtain ⟨member, hmember, rfl⟩ := List.mem_map.mp hs
    exact (hinner member hmember).1
  have hparts := ((filled_bracketed (.inl rfl) (.inl rfl) _ hclosed).mp hfilled).1
  exact fun member hmember => (hinner member hmember).2.1 (hparts _ (List.mem_map_of_mem hmember))

/-- `parse_value` accepts the values of the grammar if there is a level for everything in their
containers. -/
theorem parseValue_filled {t : Bytes} {v : JsonValue D} (h : Value floats n t v)
    (hfilled : Depths (Filled levels) (outside 0) t) (hr : Stops r) :
    parseValue floats levels (t ++ r) = .returned (v, r) := by
  -- a container leaves one level less to its elements
  induction h generalizing levels r with
  | null n =>
    obtain ⟨levels, rfl⟩ := Nat.exists_eq_succ_of_ne_zero (levels_pos hfilled (by decide)).ne'
    exact parseValue_null floats levels r
  | true n =>
    obtain ⟨levels, rfl⟩ := Nat.exists_eq_succ_of_ne_zero (levels_pos hfilled (by decide)).ne'
    exact parseValue_true floats levels r
  | false n =>
    obtain ⟨levels, rfl⟩ := Nat.exists_eq_succ_of_ne_zero (levels_pos hfilled (by decide)).ne'
    exact parseValue_false floats levels r
  | @number n t value ht hstod hfinite =>
    obtain ⟨c, rest, rfl, hc⟩ := ht.head
    obtain ⟨levels, rfl⟩ := Nat.exists_eq_succ_of_ne_zero
      (levels_pos hfilled (number_content c hc)).ne'
    exact parseValue_number ht hstod hfinite hr
  | string n hchars =>
    obtain ⟨levels, rfl⟩ := Nat.exists_eq_succ_of_ne_zero (levels_pos hfilled (by decide)).ne'
    exact parseValue_string hchars
  | noItems n hspace =>
    obtain ⟨levels, rfl⟩ := Nat.exists_eq_succ_of_ne_zero (levels_pos hfilled (by decide)).ne'
    rw [parseValue_openBracket]
    exact parseContainer_empty (accepts_items (n := n) [] (fun _ h => absurd h List.not_mem_nil)
      fun _ h => absurd h List.not_mem_nil) hspace [] r
  | items n items hne hspaced hvalues ih =>
    obtain ⟨levels, rfl⟩ := Nat.exists_eq_succ_of_ne_zero (levels_pos hfilled (by decide)).ne'
    have hitems := filled_items hspaced hvalues hfilled
    obtain ⟨i, rest, rfl⟩ := List.exists_cons_of_ne_nil hne
    have haccepts : Accepts (arrayContainer (parseValue floats levels))
        (itemElements floats n) (i :: rest) :=
      accepts_items _ hspaced fun item hitem r hr => ih item hitem (hitems item hitem) hr
    rw [parseValue_openBracket]
    exact (parseContainer_items haccepts [] r).trans (by rw [foldl_arrayContainer]; rfl)
  | noMembers n hspace =>
    obtain ⟨levels, rfl⟩ := Nat.exists_eq_succ_of_ne_zero (levels_pos hfilled (by decide)).ne'
    rw [parseValue_openBrace]
    exact parseContainer_empty (accepts_members (n := n) [] (fun _ h => absurd h List.not_mem_nil)
      fun _ h => absurd h List.not_mem_nil) hspace [] r
  | @members n members entries hne hspaced hvalues hmap ih =>
    obtain ⟨levels, rfl⟩ := Nat.exists_eq_succ_of_ne_zero (levels_pos hfilled (by decide)).ne'
    have hmembers := filled_members hspaced hvalues hfilled
    obtain ⟨i, rest, rfl⟩ := List.exists_cons_of_ne_nil hne
    have haccepts : Accepts (objectContainer (parseValue floats levels))
        (memberElements floats n) (i :: rest) :=
      accepts_members _ hspaced fun member hmember r hr =>
        ih member hmember (hmembers member hmember) hr
    rw [parseValue_openBrace]
    exact (parseContainer_items haccepts [] r).trans
      (congrArg (fun entries => Outcome.returned (JsonValue.object entries, r))
        (foldl_objectContainer hmap))

end Completeness

section Rejection

variable {n levels : ℕ} {s r : Bytes}

end Rejection

section Termination

/-- Parsing a value leaves at most what it was given. -/
theorem parseValue_length {levels : ℕ} {s r : Bytes} {v : JsonValue D}
    (h : parseValue floats levels s = .returned (v, r)) :
    r.length ≤ s.length := by
  obtain ⟨before, t, _, rfl, _⟩ := parseValue_reads floats levels s v r h
  simp
  omega

/-- `parse_value` finishes. -/
theorem parseValue_finishes (floats : Floats D) (levels : ℕ) (s : Bytes) :
    parseValue floats levels s ≠ .unfinished := by
  induction levels generalizing s with
  | zero => simp [parseValue]
  | succ levels ih =>
    have harray (s : Bytes) : parseArray (parseValue floats levels) s ≠ .unfinished :=
      parseContainer_finishes ih (fun _ _ _ h => parseValue_length h) _ _
    have hmember (s : Bytes) : parseMember (parseValue floats levels) s ≠ .unfinished := by
      unfold parseMember
      split
      · simp
      · split
        · simp
        · refine Outcome.andThen_finishes (parseString_finishes _) fun _ _ => ?_
          refine Outcome.andThen_finishes (expect_finishes _ _) fun _ _ => ?_
          exact Outcome.andThen_finishes (ih _) fun _ _ => by simp
    have hshorter (s : Bytes) (a : Bytes × JsonValue D) (r : Bytes)
        (h : parseMember (parseValue floats levels) s = .returned (a, r)) : r.length ≤
          s.length := by
      obtain ⟨i, _, _, rfl⟩ :=
        (reads_members (parseValue_leveled floats levels)).element s a [] r h isWs_nil
      simp
    have hobject (s : Bytes) : parseObject (parseValue floats levels) s ≠ .unfinished :=
      parseContainer_finishes hmember hshorter _ _
    unfold parseValue
    split
    · simp
    · split
      · exact Outcome.andThen_finishes (parseString_finishes _) fun _ _ => by simp
      · split
        · exact hobject _
        · split
          · exact harray _
          · split
            · unfold parseBool
              repeat' split
              all_goals simp
            · split
              · unfold parseNull
                split <;> simp
              · split
                · exact parseNumber_finishes floats _
                · simp

end Termination

/-- `parse_value` reads an item up to the white space at its end. -/
theorem parseValue_item {item : Item D} (hspaced : item.Spaced) {n levels : ℕ}
    (hvalue : Value floats n item.text item.value)
    (hfilled : Depths (Filled levels) (outside 0) item.text) :
    parseValue floats levels item.full = .returned (item.value, item.after) ∧
      skipWs item.after = [] := by
  have hread := parseValue_filled hvalue hfilled (stops_of_isWs hspaced.2)
  rw [← parseValue_congr (skipWs_append hspaced.1 _)] at hread
  have hend := skipWs_append hspaced.2 []
  rw [List.append_nil] at hend
  exact ⟨hread, hend⟩

/-- `parse_value` reads a document up to the white space at its end. -/
theorem parseValue_document {n levels : ℕ} {s : Bytes} {v : JsonValue D} (h : Document floats n s v)
    (hlevels : n < levels) :
    ∃ after, parseValue floats levels s = .returned (v, after) ∧ skipWs after = [] := by
  obtain ⟨item, hspaced, rfl, hvalue, rfl⟩ := h
  exact ⟨item.after, parseValue_item hspaced hvalue (hvalue.filled hlevels)⟩

/-- What `json::parse` returns is the value of an item. -/
theorem parse_reads {input : Bytes} {v : JsonValue D} (h : parse floats input = .returned v) :
    ∃ item : Item D,
    item.Spaced ∧ item.value = v ∧ LeveledValue floats (maxDepth + 1) item.text v ∧
    input = item.full := by
  obtain ⟨⟨v', r⟩, hread, hrest⟩ := Outcome.andThen_eq_returned.mp h
  obtain ⟨before, t, hbefore, rfl, ht⟩ := parseValue_leveled floats _ _ _ _ hread
  obtain ⟨after, hafter, hr⟩ := exists_skipWs r
  dsimp only at hrest
  split at hrest
  · rename_i hend
    cases hrest
    rw [hend, List.append_nil] at hr
    exact ⟨⟨before, t, r, v⟩, ⟨hbefore, hr ▸ hafter⟩, rfl, ht, rfl⟩
  · contradiction

/-- A document denotes one value. -/
theorem document_unique {n m : ℕ} {s : Bytes} {v v' : JsonValue D} (h : Document floats n s v)
    (h' : Document floats m s v') :
    v = v' := by
  obtain ⟨after, hread, _⟩ := parseValue_document h (Nat.lt_succ_of_le (Nat.le_max_left n m))
  obtain ⟨after', hread', _⟩ := parseValue_document h' (Nat.lt_succ_of_le (Nat.le_max_right n m))
  rw [hread] at hread'
  cases hread'
  rfl

/-- `json::parse` finishes. -/
theorem parse_finishes (floats : Floats D) (input : Bytes) : parse floats input ≠ .unfinished := by
  refine Outcome.andThen_finishes (parseValue_finishes _ _ _) fun _ _ => ?_
  split
  split <;> simp

/-- `json::parse` returns the value of a document whose containers are nested at most 64 deep. -/
theorem parse_document {input : Bytes} {v : JsonValue D} (h : Document floats maxDepth input v) :
    parse floats input = .returned v := by
  obtain ⟨after, hread, hend⟩ := parseValue_document h (Nat.lt_succ_self maxDepth)
  rw [parse, hread, Outcome.returned_andThen]
  exact if_pos hend

/-- `json::parse` finishes on every input, returns the value of every document whose containers are
nested at most 64 deep, and returns nothing but values of documents. -/
theorem parse_accepts (floats : Floats D) (input : Bytes) :
    parse floats input ≠ .unfinished ∧
      (∀ v, Document floats maxDepth input v → parse floats input = .returned v) ∧
      ∀ v, parse floats input = .returned v → ∃ n, Document floats n input v := by
  refine ⟨parse_finishes floats input, fun v hdocument => parse_document hdocument, fun v h => ?_⟩
  obtain ⟨item, hspaced, hvalue, hleveled, rfl⟩ := parse_reads h
  exact ⟨_, item, hspaced, hvalue, hleveled.2.1, rfl⟩

end RadixForge
