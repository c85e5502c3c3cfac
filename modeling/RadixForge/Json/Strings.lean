import Mathlib.Data.List.TakeWhile
import Mathlib.Data.Nat.Bitwise
import RadixForge.Json.Grammar

/-!
# White space and strings

What `skip_ws` and `expect` leave, and that `parse_string` returns the bytes that the inside of a
string denotes: each round of its loop reads one character of the grammar.
-/

namespace RadixForge

open Library

section Space

variable {s r w : Bytes} {c : UInt8}

/-- No bytes are white space. -/
@[simp] theorem isWs_nil : IsWs [] := fun _ h => absurd h List.not_mem_nil

/-- What is skipped is white space. -/
theorem exists_skipWs (s : Bytes) : ∃ w, IsWs w ∧ s = w ++ skipWs s :=
  ⟨s.takeWhile isSpace, fun _ hc => List.mem_takeWhile_imp hc, List.takeWhile_append_dropWhile.symm⟩

/-- White space is skipped. -/
theorem skipWs_append (hw : IsWs w) (s : Bytes) : skipWs (w ++ s) = skipWs s := by
  induction w with
  | nil => rfl
  | cons c rest ih =>
    rw [List.cons_append, skipWs, List.dropWhile_cons_of_pos (hw c List.mem_cons_self)]
    exact ih fun d hd => hw d (List.mem_cons_of_mem _ hd)

/-- Nothing else is skipped. -/
theorem skipWs_cons (hc : isSpace c = false) (s : Bytes) : skipWs (c :: s) = c :: s :=
  List.dropWhile_cons_of_neg (by simp [hc])

/-- White space is not longer than the text that it begins. -/
theorem skipWs_length_le (s : Bytes) : (skipWs s).length ≤ s.length :=
  (List.dropWhile_sublist _).length_le

/-- The expected byte comes after white space. -/
theorem expect_returned (h : expect c s = .returned r) : ∃ w, IsWs w ∧ s = w ++ c :: r := by
  obtain ⟨w, hw, hs⟩ := exists_skipWs s
  unfold expect at h
  cases hskip : skipWs s with
  | nil => simp [hskip] at h
  | cons x rest =>
    rw [hskip] at h hs
    by_cases hx : x = c
    · simp only [hx, if_true, Outcome.returned.injEq] at h
      exact ⟨w, hw, by rw [hs, hx, h]⟩
    · simp [hx] at h

/-- A byte that is no white space is found after white space. -/
theorem expect_append (hw : IsWs w) (hc : isSpace c = false) (s : Bytes) :
    expect c (w ++ c :: s) = .returned s := by
  rw [expect, skipWs_append hw, skipWs_cons hc]
  simp

/-- `expect` finishes. -/
theorem expect_finishes (c : UInt8) (s : Bytes) : expect c s ≠ .unfinished := by
  unfold expect
  cases skipWs s with
  | nil => simp
  | cons x rest => by_cases hx : x = c <;> simp [hx]

end Space

section Escapes

variable {s r h e : Bytes} {unit : ℕ}

/-- The switch of `parse_string` is the table of the grammar. -/
theorem simpleEscape_iff {c e : UInt8} : simpleEscape c = some e ↔ (c, e) ∈ escapes := by
  constructor
  · intro h
    unfold simpleEscape at h
    repeat' split at h
    all_goals first | contradiction | (cases h; subst_vars; decide)
  · intro h
    simp only [escapes, List.mem_cons, List.not_mem_nil, or_false, Prod.mk.injEq] at h
    rcases h with ⟨rfl, rfl⟩ | ⟨rfl, rfl⟩ | ⟨rfl, rfl⟩ | ⟨rfl, rfl⟩ | ⟨rfl, rfl⟩ | ⟨rfl,
      rfl⟩ | ⟨rfl, rfl⟩ | ⟨rfl, rfl⟩ <;> decide

/-- A code unit is its first four bytes. -/
theorem parseUnicodeCodeUnit_returned (hp : parseUnicodeCodeUnit s = .returned (unit, r)) :
    ∃ h, CodeUnit h unit ∧ s = h ++ r := by
  unfold parseUnicodeCodeUnit at hp
  split at hp
  · contradiction
  · rename_i hlength
    split at hp
    · contradiction
    · rename_i unit' hnumber
      cases hp
      exact ⟨s.take 4, ⟨by simp; omega, hnumber⟩, (List.take_append_drop 4 s).symm⟩

/-- Four hexadecimal digits are read as the code unit they stand for. -/
theorem parseUnicodeCodeUnit_append (hh : CodeUnit h unit) (s : Bytes) :
    parseUnicodeCodeUnit (h ++ s) = .returned (unit, s) := by
  obtain ⟨hlength, hnumber⟩ := hh
  have htake : (h ++ s).take 4 = h := List.take_left' hlength
  have hdrop : (h ++ s).drop 4 = s := List.drop_left' hlength
  have hlong : ¬ (h ++ s).length < 4 := by
    rw [List.length_append]
    omega
  simp only [parseUnicodeCodeUnit, if_neg hlong, htake, hdrop, hnumber]

/-- The reading of four hexadecimal digits ends. -/
theorem parseUnicodeCodeUnit_finishes (s : Bytes) : parseUnicodeCodeUnit s ≠ .unfinished := by
  unfold parseUnicodeCodeUnit
  split
  · simp
  · split <;> simp

/-- What holds of the bytes below 256 holds of every byte. -/
theorem forall_byte {p : UInt8 → Prop} (h : ∀ n < 256, p (UInt8.ofNat n)) (c : UInt8) : p c := by
  have hc := h c.toNat c.toNat_lt
  rwa [UInt8.ofNat_toNat] at hc

/-- A hexadecimal digit stands for less than sixteen. -/
theorem hexValue_lt (c : UInt8) : ∀ value ∈ hexValue c, value < 16 :=
  forall_byte (p := fun c => ∀ value ∈ hexValue c, value < 16) (by decide +kernel) c

/-- Four hexadecimal digits stand for less than 65536. -/
theorem CodeUnit.lt (hh : CodeUnit h unit) : unit < 0x10000 := by
  obtain ⟨hlength, hnumber⟩ := hh
  obtain ⟨a, b, c, d, rfl⟩ : ∃ a b c d, h = [a, b, c, d] := List.length_eq_four.mp hlength
  simp only [hexNumber, List.foldlM_cons, List.foldlM_nil, Option.bind_eq_bind,
    Option.bind_eq_some_iff, Option.map_eq_some_iff, Option.pure_def, Option.some.injEq] at hnumber
  obtain ⟨_, ⟨x, hx, rfl⟩, _, ⟨y, hy, rfl⟩, _, ⟨z, hz, rfl⟩, _, ⟨t, ht, rfl⟩, rfl⟩ := hnumber
  have hx := hexValue_lt a x hx
  have hy := hexValue_lt b y hy
  have hz := hexValue_lt c z hz
  have ht := hexValue_lt d t ht
  omega

/-- A disjunction with the low bits is a sum. -/
theorem or_low_bits {i x : ℕ} (a : ℕ) (h : x < 2 ^ i) :
    2 ^ i * a ||| x = x % 2 ^ i + 2 ^ i * a := by
  rw [← Nat.two_pow_add_eq_or_of_lt h, Nat.mod_eq_of_lt h, Nat.add_comm]

/-- The bytes of an encoding after the first. -/
theorem continuation_bits (x : ℕ) : 0x80 ||| (x &&& 0x3F) = x % 64 + 128 := by
  have hmask : x &&& 0x3F = x % 64 := Nat.and_two_pow_sub_one_eq_mod x 6
  have hlow : x % 64 < 2 ^ 6 := Nat.mod_lt x (by decide)
  rw [hmask]
  exact (or_low_bits 2 hlow).trans (congrArg (· + 128) (Nat.mod_eq_of_lt hlow))

/-- `append_utf8` encodes code points that are no surrogates. -/
theorem appendUtf8_eq {n : ℕ} (h : n < 0xD800 ∨ 0xDFFF < n) (hmax : n < 0x110000) :
    appendUtf8 n = utf8 n := by
  have hvalid : n.isValidChar := h.imp_right fun h => ⟨h, hmax⟩
  have hval : (Char.ofNat n).val.toNat = n := by
    rw [Char.ofNat, dif_pos hvalid]
    rfl
  simp only [appendUtf8, utf8, String.utf8EncodeChar, hval, continuation_bits,
    Nat.shiftRight_eq_div_pow]
  split
  · rfl
  · split
    · have hlead : n / 2 ^ 6 < 2 ^ 5 := by omega
      rw [show 0xC0 ||| n / 2 ^ 6 = _ from or_low_bits 6 hlead]
      rfl
    · split
      · have hlead : n / 2 ^ 12 < 2 ^ 4 := by omega
        rw [show 0xE0 ||| n / 2 ^ 12 = _ from or_low_bits 14 hlead]
        rfl
      · have hlead : n / 2 ^ 18 < 2 ^ 3 := by omega
        rw [show 0xF0 ||| n / 2 ^ 18 = _ from or_low_bits 30 hlead]
        rfl

/-- The second half of a surrogate pair makes one code point of both. -/
theorem parseLowSurrogate_returned {high : ℕ} (hhigh : 0xD800 ≤ high) (hmax : high ≤ 0xDBFF)
    (hp : parseLowSurrogate high s = .returned (e, r)) :
    ∃ l low, CodeUnit l low ∧ 0xDC00 ≤ low ∧ low ≤ 0xDFFF ∧ s = backslash :: byte 'u' :: (l ++ r) ∧
      e = utf8 (0x10000 + (high - 0xD800) * 0x400 + (low - 0xDC00)) := by
  unfold parseLowSurrogate at hp
  split at hp
  · rename_i x y t
    split at hp
    · rename_i hmark
      obtain ⟨⟨low, t'⟩, hunit, hrest⟩ := Outcome.andThen_eq_returned.mp hp
      obtain ⟨l, hl, rfl⟩ := parseUnicodeCodeUnit_returned hunit
      dsimp only at hrest
      split at hrest
      · contradiction
      · rename_i hrange
        simp only [Outcome.returned.injEq, Prod.mk.injEq] at hrest
        obtain ⟨hbytes, hrest⟩ := hrest
        subst hrest
        refine ⟨l, low, hl, by omega, by omega, by rw [hmark.1, hmark.2], ?_⟩
        rw [← hbytes, Nat.shiftLeft_eq]
        exact appendUtf8_eq (by omega) (by omega)
    · contradiction
  · contradiction

/-- The second half of a surrogate pair is read as the grammar says. -/
theorem parseLowSurrogate_append {high low : ℕ} (hhigh : 0xD800 ≤ high) (hmax : high ≤ 0xDBFF)
    (hh : CodeUnit h low) (hlow : 0xDC00 ≤ low) (hlast : low ≤ 0xDFFF) (s : Bytes) :
    parseLowSurrogate high (backslash :: byte 'u' :: (h ++ s)) =
      .returned (utf8 (0x10000 + (high - 0xD800) * 0x400 + (low - 0xDC00)), s) := by
  have hrange : ¬ (low < 0xDC00 ∨ 0xDFFF < low) := by omega
  simp only [parseLowSurrogate, and_self, if_true, parseUnicodeCodeUnit_append hh,
    Outcome.returned_andThen, if_neg hrange, Nat.shiftLeft_eq]
  rw [← appendUtf8_eq (by omega) (by omega)]

/-- The reading of a low surrogate ends. -/
theorem parseLowSurrogate_finishes (high : ℕ) (s : Bytes) :
    parseLowSurrogate high s ≠ .unfinished := by
  unfold parseLowSurrogate
  split
  · split
    · refine Outcome.andThen_finishes (parseUnicodeCodeUnit_finishes _) fun _ _ => ?_
      dsimp only
      split <;> simp
    · simp
  · simp

/-- What an escape appends is one character of the grammar. -/
theorem parseEscape_returned (hp : parseEscape s = .returned (e, r)) :
    ∃ piece, s = piece ++ r ∧ ∀ t v, Chars t v → Chars (backslash :: (piece ++ t)) (e ++ v) := by
  unfold parseEscape at hp
  cases s with
  | nil => contradiction
  | cons c t =>
    dsimp only at hp
    split at hp
    · rename_i e' hsimple
      cases hp
      exact ⟨[c], rfl, fun t v h => .escape (simpleEscape_iff.mp hsimple) h⟩
    · split at hp
      · rename_i hu
        subst hu
        obtain ⟨⟨unit, t'⟩, hunit, hrest⟩ := Outcome.andThen_eq_returned.mp hp
        obtain ⟨h, hh, rfl⟩ := parseUnicodeCodeUnit_returned hunit
        dsimp only at hrest
        split at hrest
        · rename_i hhigh
          obtain ⟨l, low, hl, hlow, hlast, hs, hbytes⟩ :=
            parseLowSurrogate_returned hhigh.1 hhigh.2 hrest
          refine ⟨byte 'u' :: (h ++ backslash :: byte 'u' :: l), by simp [hs], fun t v hchars => ?_⟩
          rw [hbytes]
          have hpair := Chars.pair hh hhigh.1 hhigh.2 hl hlow hlast hchars
          simpa using hpair
        · split at hrest
          · contradiction
          · cases hrest
            refine ⟨byte 'u' :: h, rfl, fun t v hchars => ?_⟩
            have hlt := hh.lt
            rw [appendUtf8_eq (by omega) (by omega)]
            exact .unicode hh (by omega) hchars
      · contradiction

/-- The reading of an escape ends. -/
theorem parseEscape_finishes (s : Bytes) : parseEscape s ≠ .unfinished := by
  unfold parseEscape
  split
  · simp
  · split
    · simp
    · split
      · refine Outcome.andThen_finishes (parseUnicodeCodeUnit_finishes _) fun _ _ => ?_
        dsimp only
        split
        · exact parseLowSurrogate_finishes _ _
        · split <;> simp
      · simp

/-- An escape of one byte is read as the grammar says. -/
theorem parseEscape_simple {c b : UInt8} (h : (c, b) ∈ escapes) (s : Bytes) :
    parseEscape (c :: s) = .returned ([b], s) := by
  simp only [parseEscape, simpleEscape_iff.mpr h]

/-- An escaped code unit that is no surrogate is read as the grammar says. -/
theorem parseEscape_unicode (hh : CodeUnit h unit) (hunit : unit < 0xD800 ∨ 0xDFFF < unit)
    (s : Bytes) :
    parseEscape (byte 'u' :: (h ++ s)) = .returned (utf8 unit, s) := by
  have hlt := hh.lt
  have hhigh : ¬ (0xD800 ≤ unit ∧ unit ≤ 0xDBFF) := by omega
  have hlow : ¬ (0xDC00 ≤ unit ∧ unit ≤ 0xDFFF) := by omega
  have hnone : simpleEscape (byte 'u') = none := by decide
  simp only [parseEscape, hnone, if_true, appendUnicodeEscape, parseUnicodeCodeUnit_append hh,
    Outcome.returned_andThen, if_neg hhigh, if_neg hlow, appendUtf8_eq hunit (by omega)]

/-- A surrogate pair is read as the grammar says. -/
theorem parseEscape_pair {l : Bytes} {high low : ℕ} (hh : CodeUnit h high) (hhigh : 0xD800 ≤ high)
    (hmax : high ≤ 0xDBFF) (hl : CodeUnit l low) (hlow : 0xDC00 ≤ low) (hlast : low ≤ 0xDFFF)
    (s : Bytes) :
    parseEscape (byte 'u' :: (h ++ backslash :: byte 'u' :: (l ++ s))) =
      .returned (utf8 (0x10000 + (high - 0xD800) * 0x400 + (low - 0xDC00)), s) := by
  have hnone : simpleEscape (byte 'u') = none := by decide
  simp only [parseEscape, hnone, if_true, appendUnicodeEscape, parseUnicodeCodeUnit_append hh,
    Outcome.returned_andThen, hhigh, hmax, and_self,
    parseLowSurrogate_append hhigh hmax hl hlow hlast]

end Escapes

section Strings

variable {s r t v result : Bytes}

/-- The round that reads the closing quotation mark ends the string. -/
theorem stringRound_done (h : stringRound result s = .returned (.inr v, r)) :
    s = quote :: r ∧ v = result := by
  unfold stringRound at h
  cases s with
  | nil => contradiction
  | cons c t =>
    dsimp only at h
    split at h
    · rename_i hc
      cases h
      exact ⟨by rw [hc], rfl⟩
    · split at h
      · contradiction
      · split at h
        · cases h
        · obtain ⟨⟨e, t'⟩, _, hrest⟩ := Outcome.andThen_eq_returned.mp h
          cases hrest

/-- Any other round reads one character of the grammar. -/
theorem stringRound_more {result' : Bytes}
    (h : stringRound result s = .returned (.inl result', r)) :
    ∃ piece bytes, piece ≠ [] ∧ s = piece ++ r ∧ result' = result ++ bytes ∧
      ∀ t v, Chars t v → Chars (piece ++ t) (bytes ++ v) := by
  unfold stringRound at h
  cases s with
  | nil => contradiction
  | cons c t =>
    dsimp only at h
    split at h
    · cases h
    · rename_i hquote
      split at h
      · contradiction
      · rename_i hcontrol
        split at h
        · rename_i hbackslash
          cases h
          exact ⟨[c], [c], List.cons_ne_nil _ _, rfl, rfl,
            fun _ _ hchars => .raw c (UInt8.not_lt.mp hcontrol) hquote hbackslash hchars⟩
        · rename_i hbackslash
          obtain ⟨⟨e, t'⟩, hescape, hrest⟩ := Outcome.andThen_eq_returned.mp h
          obtain ⟨piece, rfl, hpiece⟩ := parseEscape_returned hescape
          cases hrest
          refine ⟨c :: piece, e, List.cons_ne_nil _ _, rfl, rfl, fun t v hchars => ?_⟩
          rw [not_not.mp hbackslash]
          exact hpiece t v hchars

/-- Each round of the reading of a string ends. -/
theorem stringRound_finishes (result s : Bytes) : stringRound result s ≠ .unfinished := by
  unfold stringRound
  split
  · simp
  · split
    · simp
    · split
      · simp
      · split
        · simp
        · refine Outcome.andThen_finishes (parseEscape_finishes _) fun _ _ => ?_
          simp

/-- A round reads an escape as a whole. -/
theorem stringRound_escape {e : Bytes} (h : parseEscape s = .returned (e, r)) (result : Bytes) :
    stringRound result (backslash :: s) = .returned (.inl (result ++ e), r) := by
  have hquote : backslash ≠ quote := by decide
  have hcontrol : ¬ backslash < 0x20 := by decide
  simp only [stringRound, if_neg hquote, if_neg hcontrol, ne_eq, not_true_eq_false, if_false, h,
    Outcome.returned_andThen]

/-- What `parse_string` returns is what the string denotes. -/
theorem parseString_returned (h : parseString s = .returned (v, r)) :
    ∃ w t, IsWs w ∧ s = w ++ quote :: (t ++ quote :: r) ∧ Chars t v := by
  obtain ⟨s', hquote, hloop⟩ := Outcome.andThen_eq_returned.mp h
  obtain ⟨w, hw, rfl⟩ := expect_returned hquote
  obtain ⟨t, v', rfl, hv, ht⟩ := loop_returned
    (P := fun result s v r => ∃ t v', s = t ++ quote :: r ∧ v = result ++ v' ∧ Chars t v')
    (fun result s v r h => by
      obtain ⟨rfl, rfl⟩ := stringRound_done h
      exact ⟨[], [], rfl, (List.append_nil _).symm, .nil⟩)
    (fun result s result' s' v r h hlater => by
      obtain ⟨piece, bytes, _, rfl, rfl, hpiece⟩ := stringRound_more h
      obtain ⟨t, v', rfl, rfl, ht⟩ := hlater
      exact ⟨piece ++ t, bytes ++ v', by simp, by simp, hpiece t v' ht⟩) hloop
  rw [List.nil_append] at hv
  exact ⟨w, t, hw, rfl, hv ▸ ht⟩

/-- The loop of `parse_string` reads the inside of a string. -/
theorem loop_stringRound (ht : Chars t v) (r : Bytes) {fuel : ℕ}
    (hfuel : (t ++ quote :: r).length < fuel) (result : Bytes) :
    loop stringRound fuel result (t ++ quote :: r) = .returned (result ++ v, r) := by
  have hmore {s s' e v : Bytes} (hlength : s'.length < s.length)
      (hround : ∀ result, stringRound result s = .returned (.inl (result ++ e), s'))
      (ih : ∀ {fuel}, s'.length < fuel →
        ∀ result, loop stringRound fuel result s' = .returned (result ++ v, r))
      {fuel : ℕ} (hfuel : s.length < fuel) (result : Bytes) :
      loop stringRound fuel result s = .returned (result ++ (e ++ v), r) := by
    obtain ⟨fuel, rfl⟩ := Nat.exists_eq_succ_of_ne_zero (Nat.ne_zero_of_lt hfuel)
    rw [loop_more (hround result), ih (by omega), List.append_assoc]
  -- every character of the string is one round, whose rest is the string after it
  induction ht generalizing fuel result with
  | nil =>
    obtain ⟨fuel, rfl⟩ := Nat.exists_eq_succ_of_ne_zero (Nat.ne_zero_of_lt hfuel)
    exact loop_done (by simp [stringRound])
  | raw c hcontrol hquote hbackslash _ ih =>
    refine hmore (e := [c]) (Nat.lt_succ_self _) (fun result => ?_)
      (fun h result => ih h result) hfuel result
    simp only [List.cons_append, stringRound, if_neg hquote, if_neg (UInt8.not_lt.mpr hcontrol),
      if_pos hbackslash]
  | @escape c e t v hescape _ ih =>
    refine hmore (e := [e]) ?_ (stringRound_escape (parseEscape_simple hescape _))
      (fun h result => ih h result) hfuel result
    simp only [List.length_cons]
    omega
  | @unicode h t v unit hh hunit _ ih =>
    rw [List.cons_append, List.cons_append, List.append_assoc] at hfuel ⊢
    refine hmore ?_ (stringRound_escape (parseEscape_unicode hh hunit _))
      (fun h result => ih h result) hfuel result
    simp
    omega
  | @pair h l t v high low hh hhigh hmax hl hlow hlast _ ih =>
    simp only [List.cons_append, List.append_assoc] at hfuel ⊢
    refine hmore ?_ (stringRound_escape (parseEscape_pair hh hhigh hmax hl hlow hlast _))
      (fun h result => ih h result) hfuel
      result
    simp
    omega

/-- `parse_string` returns what a string denotes. -/
theorem parseString_append (ht : Chars t v) (r : Bytes) :
    parseString (quote :: (t ++ quote :: r)) = .returned (v, r) := by
  have hexpect : expect quote (quote :: (t ++ quote :: r)) = .returned (t ++ quote :: r) :=
    expect_append isWs_nil (by decide) _
  rw [parseString, hexpect]
  exact loop_stringRound ht r (Nat.lt_succ_self _) []

/-- The reading of a string ends. -/
theorem parseString_finishes (s : Bytes) : parseString s ≠ .unfinished := by
  refine Outcome.andThen_finishes (expect_finishes _ _) fun s' _ => ?_
  refine loop_finishes stringRound_finishes (fun result s result' s' h => ?_) (Nat.lt_succ_self _)
  obtain ⟨piece, _, hpiece, rfl, _⟩ := stringRound_more h
  have hpos := List.length_pos_iff.mpr hpiece
  simp
  omega

end Strings

end RadixForge
