import Mathlib.Data.List.TakeWhile
import RadixForge.Json.Grammar

/-!
# Numbers

`parse_number` scans exactly the text of a number: each of its parts is what the grammar says, and a
text of the grammar is scanned to its end if no digit, point or exponent follows.
-/

namespace RadixForge

open Library

variable {D : Type} {floats : Floats D} {s t r : Bytes} {message : String}

/-- No digit follows. -/
def NoDigit (r : Bytes) : Prop := ∀ c ∈ r.head?, isDigit c = false

/-- Nothing follows that a number could go on with. -/
def Stops (r : Bytes) : Prop :=
  ∀ c ∈ r.head?, isDigit c = false ∧ c ≠ byte '.' ∧ c ≠ byte 'e' ∧ c ≠ byte 'E'

/-- What stops a number is no digit. -/
theorem Stops.noDigit (h : Stops r) : NoDigit r := fun c hc => (h c hc).1

/-- Digits are dropped up to the first other byte. -/
theorem dropWhile_digits (hs : ∀ c ∈ s, isDigit c = true) (hr : NoDigit r) :
    (s ++ r).dropWhile isDigit = r := by
  induction s with
  | nil =>
    cases r with
    | nil => rfl
    | cons c rest => exact List.dropWhile_cons_of_neg (by simp [hr c rfl])
  | cons c rest ih =>
    rw [List.cons_append, List.dropWhile_cons_of_pos (hs c List.mem_cons_self)]
    exact ih fun d hd => hs d (List.mem_cons_of_mem _ hd)

/-- What is dropped are digits. -/
theorem exists_digits (s : Bytes) :
    ∃ t, (∀ c ∈ t, isDigit c = true) ∧ s = t ++ s.dropWhile isDigit :=
  ⟨s.takeWhile isDigit, fun _ hc => List.mem_takeWhile_imp hc, List.takeWhile_append_dropWhile.symm⟩

/-- The digits that were read are a nonempty run. -/
theorem scanDigits_returned (h : scanDigits message s = .returned r) :
    ∃ t, Digits t ∧ s = t ++ r := by
  unfold scanDigits at h
  split at h
  · rename_i hhead
    cases h
    cases s with
    | nil => contradiction
    | cons c rest =>
      have hc : isDigit c = true := hhead
      obtain ⟨t, ht, hrest⟩ := exists_digits rest
      refine ⟨c :: t, ⟨List.cons_ne_nil _ _, ?_⟩, ?_⟩
      · exact List.forall_mem_cons.mpr ⟨hc, ht⟩
      · rw [List.dropWhile_cons_of_pos hc, List.cons_append, ← hrest]
  · contradiction

/-- A run of digits is read up to what is no digit. -/
theorem scanDigits_append (ht : Digits t) (hr : NoDigit r) :
    scanDigits message (t ++ r) = .returned r := by
  obtain ⟨hne, hdigits⟩ := ht
  obtain ⟨c, rest, rfl⟩ := List.exists_cons_of_ne_nil hne
  have hhead : ((c :: rest ++ r).head?.any isDigit) = true := hdigits c List.mem_cons_self
  rw [scanDigits, if_pos hhead, dropWhile_digits hdigits hr]

/-- The text that was read is an integer. -/
theorem scanInteger_returned (h : scanInteger s = .returned r) :
    ∃ t, IntegerText t ∧ s = t ++ r := by
  unfold scanInteger at h
  cases s with
  | nil => contradiction
  | cons c rest =>
    dsimp only at h
    split at h
    · rename_i hzero
      split at h
      · contradiction
      · cases h
        exact ⟨[byte '0'], .inl rfl, by rw [hzero]; rfl⟩
    · rename_i hzero
      split at h
      · rename_i hrange
        cases h
        obtain ⟨t, ht, hrest⟩ := exists_digits rest
        have hc : isDigit c = true := by
          simp only [Bool.and_eq_true, decide_eq_true_eq] at hrange
          simp only [isDigit, Bool.and_eq_true, decide_eq_true_eq]
          exact ⟨UInt8.le_trans (by decide) hrange.1, hrange.2⟩
        refine ⟨c :: t, .inr ⟨⟨List.cons_ne_nil _ _, List.forall_mem_cons.mpr ⟨hc, ht⟩⟩, ?_⟩,
          by rw [List.cons_append, ← hrest]⟩
        simpa using hzero
      · contradiction

/-- A digit that is not zero is one of the others. -/
theorem digit_range {c : UInt8} (hc : isDigit c = true) (hne : c ≠ byte '0') :
    (byte '1' ≤ c && c ≤ byte '9') = true := by
  simp only [isDigit, Bool.and_eq_true, decide_eq_true_eq, UInt8.le_iff_toNat_le] at hc ⊢
  refine ⟨?_, hc.2⟩
  have hlt : (byte '0').toNat ≠ c.toNat := fun heq => hne (UInt8.toNat_inj.mp heq).symm
  exact lt_of_le_of_ne hc.1 hlt

/-- An integer is read up to what is no digit. -/
theorem scanInteger_append (ht : IntegerText t) (hr : NoDigit r) :
    scanInteger (t ++ r) = .returned r := by
  rcases ht with rfl | ⟨⟨hne, hdigits⟩, hhead⟩
  · have hnone : ¬ r.head?.any isDigit = true := by
      cases r with
      | nil => simp
      | cons c rest => simp [hr c rfl]
    simp only [List.singleton_append, scanInteger, if_true, if_neg hnone]
  · obtain ⟨c, rest, rfl⟩ := List.exists_cons_of_ne_nil hne
    have hzero : c ≠ byte '0' := fun heq => hhead (by rw [heq]; rfl)
    have hrest : ∀ d ∈ rest, isDigit d = true := fun d hd => hdigits d (List.mem_cons_of_mem _ hd)
    simp only [List.cons_append, scanInteger, if_neg hzero,
      if_pos (digit_range (hdigits c List.mem_cons_self) hzero), dropWhile_digits hrest hr]

/-- The text that was read is a fraction, or empty. -/
theorem scanFraction_returned (h : scanFraction s = .returned r) :
    ∃ t, FractionText t ∧ s = t ++ r := by
  unfold scanFraction at h
  cases s with
  | nil =>
    cases h
    exact ⟨[], .inl rfl, rfl⟩
  | cons c rest =>
    dsimp only at h
    split at h
    · rename_i hpoint
      obtain ⟨t, ht, rfl⟩ := scanDigits_returned h
      exact ⟨byte '.' :: t, .inr ⟨t, ht, rfl⟩, by rw [hpoint]; rfl⟩
    · cases h
      exact ⟨[], .inl rfl, rfl⟩

/-- A fraction is read up to what is no digit, and none if there is no point. -/
theorem scanFraction_append (ht : FractionText t) (hr : NoDigit r)
    (hpoint : ∀ c ∈ r.head?, c ≠ byte '.') :
    scanFraction (t ++ r) = .returned r := by
  rcases ht with rfl | ⟨digits, hdigits, rfl⟩
  · cases r with
    | nil => rfl
    | cons c rest => simp only [List.nil_append, scanFraction, if_neg (hpoint c rfl)]
  · simp only [List.cons_append, scanFraction, if_true, scanDigits_append hdigits hr]

/-- A sign is at most one byte. -/
theorem exists_skipSign (s : Bytes) :
    ∃ sign, (sign = [] ∨ sign = [byte '+'] ∨ sign = [byte '-']) ∧ s = sign ++ skipSign s := by
  unfold skipSign
  cases s with
  | nil => exact ⟨[], .inl rfl, rfl⟩
  | cons c rest =>
    dsimp only
    split
    · rename_i hsign
      rcases hsign with rfl | rfl
      · exact ⟨[byte '+'], .inr (.inl rfl), rfl⟩
      · exact ⟨[byte '-'], .inr (.inr rfl), rfl⟩
    · exact ⟨[], .inl rfl, rfl⟩

/-- A sign before digits is skipped, and a digit is not. -/
theorem skipSign_append {sign digits : Bytes}
    (hsign : sign = [] ∨ sign = [byte '+'] ∨ sign = [byte '-']) (hdigits : Digits digits)
    (r : Bytes) : skipSign (sign ++ (digits ++ r)) = digits ++ r := by
  rcases hsign with rfl | rfl | rfl
  · obtain ⟨hne, hall⟩ := hdigits
    obtain ⟨c, rest, rfl⟩ := List.exists_cons_of_ne_nil hne
    have hc := hall c List.mem_cons_self
    have hnot : ¬ (c = byte '+' ∨ c = byte '-') := by
      rintro (rfl | rfl) <;> exact absurd hc (by decide)
    simp only [List.nil_append, List.cons_append, skipSign, if_neg hnot]
  · rfl
  · rfl

/-- The text that was read is an exponent, or empty. -/
theorem scanExponent_returned (h : scanExponent s = .returned r) :
    ∃ t, ExponentText t ∧ s = t ++ r := by
  unfold scanExponent at h
  cases s with
  | nil =>
    cases h
    exact ⟨[], .inl rfl, rfl⟩
  | cons c rest =>
    dsimp only at h
    split at h
    · rename_i hletter
      obtain ⟨digits, hdigits, hrest⟩ := scanDigits_returned h
      obtain ⟨sign, hsign, hs⟩ := exists_skipSign rest
      exact ⟨c :: (sign ++ digits), .inr ⟨c, sign, digits, hletter, hsign, hdigits, rfl⟩,
        by rw [hs, hrest]; simp⟩
    · cases h
      exact ⟨[], .inl rfl, rfl⟩

/-- An exponent is read up to what stops the number. -/
theorem scanExponent_append (ht : ExponentText t) (hr : Stops r) :
    scanExponent (t ++ r) = .returned r := by
  rcases ht with rfl | ⟨letter, sign, digits, hletter, hsign, hdigits, rfl⟩
  · cases r with
    | nil => rfl
    | cons c rest =>
      have hnot : ¬ (c = byte 'e' ∨ c = byte 'E') :=
        fun h => h.elim (hr c rfl).2.2.1 (hr c rfl).2.2.2
      simp only [List.nil_append, scanExponent, if_neg hnot]
  · simp only [List.cons_append, List.append_assoc, scanExponent, if_pos hletter,
      skipSign_append hsign hdigits, scanDigits_append hdigits hr.noDigit]

/-- The scanned text is the text of a number. -/
theorem scanNumber_returned (h : scanNumber s = .returned r) : ∃ t, NumberText t ∧ s = t ++ r := by
  obtain ⟨s₁, hinteger, h⟩ := Outcome.andThen_eq_returned.mp h
  obtain ⟨s₂, hfraction, hexponent⟩ := Outcome.andThen_eq_returned.mp h
  obtain ⟨integer, hi, hs⟩ := scanInteger_returned hinteger
  obtain ⟨fraction, hf, rfl⟩ := scanFraction_returned hfraction
  obtain ⟨exponent, he, rfl⟩ := scanExponent_returned hexponent
  obtain ⟨minus, hm, hsplit⟩ : ∃ minus, (minus = [] ∨ minus = [byte '-']) ∧
    s = minus ++ skipMinus s := by
    unfold skipMinus
    cases s with
    | nil => exact ⟨[], .inl rfl, rfl⟩
    | cons c rest =>
      dsimp only
      split
      · rename_i hminus
        exact ⟨[byte '-'], .inr rfl, by rw [hminus]; rfl⟩
      · exact ⟨[], .inl rfl, rfl⟩
  exact ⟨_, ⟨minus, integer, fraction, exponent, hm, hi, hf, he, rfl⟩, by rw [hsplit, hs]; simp⟩

/-- An integer part starts with a digit. -/
theorem IntegerText.head (h : IntegerText t) : ∃ c rest, t = c :: rest ∧ isDigit c = true := by
  rcases h with rfl | ⟨⟨hne, hdigits⟩, _⟩
  · exact ⟨_, _, rfl, by decide⟩
  · obtain ⟨c, rest, rfl⟩ := List.exists_cons_of_ne_nil hne
    exact ⟨c, rest, rfl, hdigits c List.mem_cons_self⟩

/-- The text of a number is scanned to its end. -/
theorem scanNumber_append (ht : NumberText t) (hr : Stops r) :
    scanNumber (t ++ r) = .returned r := by
  obtain ⟨minus, integer, fraction, exponent, hminus, hinteger, hfraction, hexponent, rfl⟩ := ht
  -- what follows each part cannot continue it
  have hexponentHead : ∀ c ∈ (exponent ++ r).head?, isDigit c = false ∧ c ≠ byte '.' := by
    rcases hexponent with rfl | ⟨letter, sign, digits, hletter, _, _, rfl⟩
    · exact fun c hc => ⟨(hr c hc).1, (hr c hc).2.1⟩
    · intro c hc
      cases hc
      rcases hletter with rfl | rfl <;> decide
  have hfractionHead : NoDigit (fraction ++ (exponent ++ r)) := by
    rcases hfraction with rfl | ⟨digits, _, rfl⟩
    · exact fun c hc => (hexponentHead c hc).1
    · intro c hc
      cases hc
      decide
  have hskip : skipMinus (minus ++ (integer ++ (fraction ++ (exponent ++ r)))) =
      integer ++ (fraction ++ (exponent ++ r)) := by
    rcases hminus with rfl | rfl
    · obtain ⟨c, rest, rfl, hc⟩ := hinteger.head
      have hne : c ≠ byte '-' := by
        rintro rfl
        exact absurd hc (by decide)
      simp only [List.nil_append, List.cons_append, skipMinus, if_neg hne]
    · rfl
  simp only [List.append_assoc, scanNumber, hskip, scanInteger_append hinteger hfractionHead,
    Outcome.returned_andThen, scanFraction_append hfraction (fun c hc => (hexponentHead c hc).1)
      (fun c hc => (hexponentHead c hc).2),
    scanExponent_append hexponent hr]

/-- What `parse_number` returns is the value of the number it read. -/
theorem parseNumber_returned {v : JsonValue D}
    (h : parseNumber floats s = .returned (v, r)) (n : ℕ) :
    ∃ t, s = t ++ r ∧ Value floats n t v := by
  obtain ⟨r', hscan, h⟩ := Outcome.andThen_eq_returned.mp h
  obtain ⟨t, ht, rfl⟩ := scanNumber_returned hscan
  have htake : (t ++ r').take ((t ++ r').length - r'.length) = t := by simp
  rw [htake] at h
  cases hstod : floats.stod t with
  | none => simp [hstod] at h
  | some value =>
    simp only [hstod] at h
    split at h
    · rename_i hfinite
      cases h
      exact ⟨t, rfl, .number n ht hstod hfinite⟩
    · contradiction

/-- `parse_number` returns the value of a number. -/
theorem parseNumber_append {value : D} (ht : NumberText t) (hstod : floats.stod t = some value)
    (hfinite : floats.isFinite value = true) (hr : Stops r) :
    parseNumber floats (t ++ r) = .returned (.number value, r) := by
  have htake : (t ++ r).take ((t ++ r).length - r.length) = t := by simp
  simp only [parseNumber, scanNumber_append ht hr, Outcome.returned_andThen, htake,
    hstod, hfinite, if_true]

/-- The reading of a number ends. -/
theorem parseNumber_finishes (floats : Floats D) (s : Bytes) :
    parseNumber floats s ≠ .unfinished := by
  have hdigits (message : String) (s : Bytes) : scanDigits message s ≠ .unfinished := by
    unfold scanDigits
    split <;> simp
  have hinteger (s : Bytes) : scanInteger s ≠ .unfinished := by
    unfold scanInteger
    repeat' split
    all_goals simp
  have hfraction (s : Bytes) : scanFraction s ≠ .unfinished := by
    unfold scanFraction
    split
    · simp
    · split
      · exact hdigits _ _
      · simp
  have hexponent (s : Bytes) : scanExponent s ≠ .unfinished := by
    unfold scanExponent
    split
    · simp
    · split
      · exact hdigits _ _
      · simp
  refine Outcome.andThen_finishes (Outcome.andThen_finishes (hinteger _) fun _ _ =>
    Outcome.andThen_finishes (hfraction _) fun _ _ => hexponent _) fun r _ => ?_
  split
  · simp
  · split <;> simp

end RadixForge
