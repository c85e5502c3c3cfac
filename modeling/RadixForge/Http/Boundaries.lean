import Mathlib.Data.List.Induction
import RadixForge.Http.OpenAi
import RadixForge.Json.Strings

/-!
# Character boundaries

`complete_utf8_prefix_length` leaves out at most three bytes, and of the beginning of a valid UTF-8
text it leaves out exactly the bytes of a character that is cut off.
-/

namespace RadixForge

open Library

/-- The bytes of a list of characters. -/
def encode (chars : List Char) : Bytes := chars.flatMap String.utf8EncodeChar

/-- A valid UTF-8 text. -/
def ValidUtf8 (s : Bytes) : Prop := ∃ chars, s = encode chars

/-- No characters are no bytes. -/
@[simp] theorem encode_nil : encode [] = [] := rfl

/-- The bytes of the first character come first. -/
theorem encode_cons (c : Char) (chars : List Char) :
    encode (c :: chars) = String.utf8EncodeChar c ++ encode chars := rfl

/-- Texts are encoded character by character. -/
theorem encode_append (chars chars' : List Char) :
    encode (chars ++ chars') = encode chars ++ encode chars' :=
  List.flatMap_append

/-- A leading byte, and as many continuation bytes as it announces. -/
structure Encoded (lead : UInt8) (continuations : Bytes) : Prop where
  starts : isContinuation lead = false
  continues : ∀ c ∈ continuations, isContinuation c = true
  length : expectedLength lead = continuations.length + 1

/-- No byte announces more than three others. -/
theorem expectedLength_le (lead : UInt8) : expectedLength lead ≤ 4 :=
  forall_byte (p := fun lead => expectedLength lead ≤ 4) (by decide +kernel) lead

/-- The encoding of a character is a leading byte and its continuation bytes. -/
theorem utf8EncodeChar_encoded (c : Char) :
    ∃ lead continuations, String.utf8EncodeChar c = lead :: continuations ∧
      Encoded lead continuations := by
  have hcontinuation (n : ℕ) : isContinuation (UInt8.ofNat (n % 64 + 128)) = true := by
    have h : ∀ m < 64, isContinuation (UInt8.ofNat (m + 128)) = true := by decide
    exact h _ (Nat.mod_lt _ (by decide))
  have hlead : ∀ n < 32, (2 ≤ n → expectedLength (UInt8.ofNat (n + 192)) = 2 ∧
      isContinuation (UInt8.ofNat (n + 192)) = false) ∧
      (n < 16 → expectedLength (UInt8.ofNat (n + 224)) = 3 ∧
        isContinuation (UInt8.ofNat (n + 224)) = false) ∧
        (n < 5 → expectedLength (UInt8.ofNat (n + 240)) = 4 ∧
          isContinuation (UInt8.ofNat (n + 240)) = false) := by
    decide
  have hone : ∀ n < 128, expectedLength (UInt8.ofNat n) = 1 ∧
      isContinuation (UInt8.ofNat n) = false := by decide
  have hmax : c.val.toNat < 0x110000 := by
    have hvalid := c.valid
    simp only [UInt32.isValidChar, Nat.isValidChar] at hvalid
    omega
  simp only [String.utf8EncodeChar]
  generalize c.val.toNat = n at hmax
  have hnil : ∀ c ∈ ([] : Bytes), isContinuation c = true := fun _ h => absurd h List.not_mem_nil
  split
  · rename_i h
    obtain ⟨hlength, hnot⟩ := hone n (by omega)
    exact ⟨_, _, rfl, hnot, hnil, hlength⟩
  · split
    · have hsmall : n / 64 % 32 = n / 64 := Nat.mod_eq_of_lt (by omega)
      rw [hsmall]
      obtain ⟨hlength, hnot⟩ := (hlead (n / 64) (by omega)).1 (by omega)
      exact ⟨_, _, rfl, hnot, List.forall_mem_cons.mpr ⟨hcontinuation n, hnil⟩, hlength⟩
    · split
      · obtain ⟨hlength, hnot⟩ := (hlead (n / 4096 % 16) (by omega)).2.1 (by omega)
        exact ⟨_, _, rfl, hnot, List.forall_mem_cons.mpr ⟨hcontinuation _,
          List.forall_mem_cons.mpr ⟨hcontinuation n, hnil⟩⟩, hlength⟩
      · obtain ⟨hlength, hnot⟩ := (hlead (n / 262144 % 8) (by omega)).2.2 (by omega)
        exact ⟨_, _, rfl, hnot, List.forall_mem_cons.mpr ⟨hcontinuation _,
          List.forall_mem_cons.mpr
            ⟨hcontinuation _, List.forall_mem_cons.mpr ⟨hcontinuation n, hnil⟩⟩⟩, hlength⟩

/-- The same leading byte starts the same number of bytes. -/
theorem utf8EncodeChar_append_inj {c d : Char} {s t : Bytes}
    (h : String.utf8EncodeChar c ++ s = String.utf8EncodeChar d ++ t) :
    String.utf8EncodeChar c = String.utf8EncodeChar d ∧ s = t := by
  obtain ⟨lead, rest, hc, hencoded⟩ := utf8EncodeChar_encoded c
  obtain ⟨lead', rest', hd, hencoded'⟩ := utf8EncodeChar_encoded d
  rw [hc, hd] at h ⊢
  have hsame : lead = lead' := (List.cons.inj h).1
  have hlength := hencoded.length
  rw [hsame, hencoded'.length] at hlength
  exact List.append_inj h (by simp only [List.length_cons]; omega)

/-- What follows valid text in valid text is valid. -/
theorem ValidUtf8.of_append (chars : List Char) {s : Bytes} (h : ValidUtf8 (encode chars ++ s)) :
    ValidUtf8 s := by
  obtain ⟨all, hall⟩ := h
  induction chars generalizing all with
  | nil => exact ⟨all, hall⟩
  | cons c chars ih =>
    rw [encode_cons, List.append_assoc] at hall
    cases all with
    | nil =>
      obtain ⟨lead, rest, hc, _⟩ := utf8EncodeChar_encoded c
      rw [hc] at hall
      contradiction
    | cons d all => exact ih all (utf8EncodeChar_append_inj hall).2

/-- The beginning of valid text is characters and the beginning of another one. -/
theorem exists_cut {chars : List Char} {s t : Bytes} (h : s ++ t = encode chars) :
    ∃ before cut, s = encode before ++ cut ∧
      (cut = [] ∨ ∃ lead continuations missing, cut = lead :: continuations ∧ missing ≠ [] ∧
        Encoded lead (continuations ++ missing)) := by
  induction chars generalizing s with
  | nil =>
    obtain ⟨rfl, rfl⟩ := List.append_eq_nil_iff.mp h
    exact ⟨[], [], rfl, .inl rfl⟩
  | cons c chars ih =>
    rw [encode_cons] at h
    rcases List.append_eq_append_iff.mp h with ⟨missing, hc, _⟩ | ⟨s', hs, hrest⟩
    · by_cases hmissing : missing = []
      · rw [hmissing, List.append_nil] at hc
        exact ⟨[c], [], by rw [encode_cons, hc]; simp, .inl rfl⟩
      · cases s with
        | nil => exact ⟨[], [], rfl, .inl rfl⟩
        | cons lead continuations =>
          obtain ⟨lead', rest, henc, hencoded⟩ := utf8EncodeChar_encoded c
          rw [hc] at henc
          obtain ⟨rfl, rfl⟩ := List.cons.inj henc
          exact ⟨[], _, rfl, .inr ⟨lead, continuations, missing, rfl, hmissing, hencoded⟩⟩
    · obtain ⟨before, cut, rfl, hcut⟩ := ih hrest.symm
      exact ⟨c :: before, cut, by rw [hs, encode_cons, List.append_assoc], hcut⟩

section Prefix

variable {text : Bytes}

/-- The last leading byte decides. -/
theorem completeUtf8PrefixLength_lead (before : Bytes) {lead : UInt8} {continuations : Bytes}
    (hlead : isContinuation lead = false)
    (hcontinuations : ∀ c ∈ continuations, isContinuation c = true)
    (hlength : continuations.length ≤ 3) :
    completeUtf8PrefixLength (before ++ lead :: continuations) =
      if continuations.length + 1 < expectedLength lead then before.length
        else (before ++ lead :: continuations).length := by
  have hreverse : (before ++ lead :: continuations).reverse =
      continuations.reverse ++ lead :: before.reverse := by simp
  have htake : ((continuations.reverse ++ lead :: before.reverse).take 3).takeWhile isContinuation =
      continuations.reverse := by
    rw [List.take_append, List.take_of_length_le (by rw [List.length_reverse]; exact hlength),
      List.takeWhile_append_of_pos fun c hc => hcontinuations c (List.mem_reverse.mp hc)]
    cases 3 - continuations.reverse.length with
    | zero => simp
    | succ n => simp [hlead]
  simp only [completeUtf8PrefixLength, hreverse, htake, List.drop_left]
  rw [List.length_reverse, List.length_reverse]

/-- At most three bytes are left out. -/
theorem length_drop_completeUtf8PrefixLength (text : Bytes) :
    (text.drop (completeUtf8PrefixLength text)).length ≤ 3 := by
  rw [List.length_drop]
  unfold completeUtf8PrefixLength
  dsimp only
  split
  · omega
  · rename_i lead before hdrop
    split
    · rename_i hshort
      have hle := expectedLength_le lead
      have hlength := congrArg List.length hdrop
      rw [List.length_drop, List.length_reverse, List.length_cons] at hlength
      omega
    · omega

/-- Of the beginning of valid text the complete characters are kept. -/
theorem take_completeUtf8PrefixLength {rest : Bytes} (h : ValidUtf8 (text ++ rest)) :
    ∃ chars, text.take (completeUtf8PrefixLength text) = encode chars ∧
      ValidUtf8 (text.drop (completeUtf8PrefixLength text) ++ rest) := by
  obtain ⟨chars, hchars⟩ := h
  obtain ⟨before, cut, rfl, hcut⟩ := exists_cut hchars
  have hrest : ValidUtf8 (cut ++ rest) :=
    ValidUtf8.of_append before ⟨chars, by rw [← hchars, List.append_assoc]⟩
  suffices completeUtf8PrefixLength (encode before ++ cut) = (encode before).length by
    rw [this, List.take_left, List.drop_left]
    exact ⟨before, rfl, hrest⟩
  rcases hcut with rfl | ⟨lead, continuations, missing, rfl, hmissing, hencoded⟩
  · rw [List.append_nil]
    induction before using List.reverseRecOn with
    | nil => rfl
    | append_singleton before c _ =>
      obtain ⟨lead, continuations, hc, hencoded⟩ := utf8EncodeChar_encoded c
      have hle := expectedLength_le lead
      have hlength := hencoded.length
      rw [encode_append, show encode [c] =
        lead :: continuations by
          rw [encode_cons, hc, encode_nil, List.append_nil],
            completeUtf8PrefixLength_lead _ hencoded.starts hencoded.continues (by omega),
            if_neg (by omega)]
  · have hle := expectedLength_le lead
    have hlength := hencoded.length
    have hpos := List.length_pos_iff.mpr hmissing
    rw [List.length_append] at hlength
    rw [completeUtf8PrefixLength_lead _ hencoded.starts
      (fun c hc => hencoded.continues c (List.mem_append_left _ hc)) (by omega), if_pos (by omega)]

end Prefix

end RadixForge
