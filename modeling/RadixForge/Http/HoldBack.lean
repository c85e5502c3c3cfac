import RadixForge.Http.Boundaries

/-!
# What is held back

The first bytes of a character are a lead byte and continuation bytes, of which the second byte of
the character is restricted after four of the leads. `complete_utf8_prefix_length` holds back every
beginning of a character, and besides them the sequences whose second byte the lead does not allow.
-/

namespace RadixForge

open Library

variable {lead second third fourth : UInt8} {rest : Bytes}

/-- A second byte that its lead does not allow: it would encode a number in too many bytes, a
surrogate, or a number above the last character. -/
def Barred (lead second : UInt8) : Prop :=
  lead = 0xE0 ∧ second < 0xA0 ∨ lead = 0xED ∧ 0xA0 ≤ second ∨ lead = 0xF0 ∧ second < 0x90 ∨
    lead = 0xF4 ∧ 0x90 ≤ second

instance (lead second : UInt8) : Decidable (Barred lead second) := by
  unfold Barred
  infer_instance

section Encoding

/-- The numbers of the continuation bytes. -/
theorem isContinuation_iff (c : UInt8) :
    isContinuation c = true ↔ 0x80 ≤ c.toNat ∧ c.toNat < 0xC0 :=
  forall_byte (p := fun c => isContinuation c = true ↔
    0x80 ≤ c.toNat ∧ c.toNat < 0xC0) (by decide +kernel) c

/-- The numbers of the lead bytes of longer characters. -/
theorem expectedLength_cases (lead : UInt8) :
    1 < expectedLength lead → isContinuation lead = false ∧
    (0xC2 ≤ lead.toNat ∧ lead.toNat < 0xE0 ∧ expectedLength lead = 2 ∨
      0xE0 ≤ lead.toNat ∧ lead.toNat < 0xF0 ∧ expectedLength lead = 3 ∨
      0xF0 ≤ lead.toNat ∧ lead.toNat ≤ 0xF4 ∧ expectedLength lead = 4) :=
  forall_byte (p := fun lead => 1 < expectedLength lead → isContinuation lead = false ∧
    (0xC2 ≤ lead.toNat ∧ lead.toNat < 0xE0 ∧ expectedLength lead = 2 ∨
      0xE0 ≤ lead.toNat ∧ lead.toNat < 0xF0 ∧ expectedLength lead = 3 ∨
      0xF0 ≤ lead.toNat ∧ lead.toNat ≤ 0xF4 ∧ expectedLength lead = 4)) (by decide +kernel) lead

/-- The restriction of the second byte, in numbers. -/
theorem barred_iff :
    Barred lead second ↔ lead.toNat = 0xE0 ∧ second.toNat < 0xA0 ∨ lead.toNat = 0xED ∧
      0xA0 ≤ second.toNat ∨
    lead.toNat = 0xF0 ∧ second.toNat < 0x90 ∨ lead.toNat = 0xF4 ∧ 0x90 ≤ second.toNat := by
  simp only [Barred, ← UInt8.toNat_inj, UInt8.lt_iff_toNat_lt, UInt8.le_iff_toNat_le]
  rfl

/-- A number that is no surrogate and not too large is a character. -/
theorem exists_char {n : ℕ} (h : n < 0xD800 ∨ 0xDFFF < n ∧ n < 0x110000) :
    ∃ c : Char, c.val.toNat = n := by
  have hvalid : n.isValidChar := h
  exact ⟨Char.ofNat n, by rw [Char.ofNat, dif_pos hvalid]; rfl⟩

/-- A byte is known by its number. -/
theorem ofNat_eq {c : UInt8} {n : ℕ} (h : c.toNat = n) : UInt8.ofNat n = c := by
  rw [← h, UInt8.ofNat_toNat]

/-- Every sequence of two bytes with a lead for two is a character. -/
theorem utf8EncodeChar_two (hlead : 0xC2 ≤ lead.toNat ∧ lead.toNat < 0xE0)
    (hsecond : 0x80 ≤ second.toNat ∧ second.toNat < 0xC0) :
    ∃ c, String.utf8EncodeChar c = [lead, second] := by
  obtain ⟨c, hc⟩ := exists_char (n := (lead.toNat - 0xC0) * 64 + (second.toNat - 0x80)) (by omega)
  refine ⟨c, ?_⟩
  simp only [String.utf8EncodeChar, hc]
  rw [if_neg (by omega), if_pos (by omega), ofNat_eq (c := lead) (by omega),
    ofNat_eq (c := second) (by omega)]

/-- Every sequence of three bytes with a lead for three is a character, if the second is not barred.
-/
theorem utf8EncodeChar_three (hlead : 0xE0 ≤ lead.toNat ∧ lead.toNat < 0xF0)
    (hsecond : 0x80 ≤ second.toNat ∧ second.toNat < 0xC0)
    (hthird : 0x80 ≤ third.toNat ∧ third.toNat < 0xC0) (hbarred : ¬Barred lead second) :
    ∃ c, String.utf8EncodeChar c = [lead, second, third] := by
  rw [barred_iff] at hbarred
  obtain ⟨c, hc⟩ := exists_char
    (n := (lead.toNat - 0xE0) * 4096 + (second.toNat - 0x80) * 64 + (third.toNat - 0x80)) (by omega)
  refine ⟨c, ?_⟩
  simp only [String.utf8EncodeChar, hc]
  rw [if_neg (by omega), if_neg (by omega), if_pos (by omega), ofNat_eq (c := lead) (by omega),
    ofNat_eq (c := second) (by omega), ofNat_eq (c := third) (by omega)]

/-- Every sequence of four bytes with a lead for four is a character, if the second is not barred.
-/
theorem utf8EncodeChar_four (hlead : 0xF0 ≤ lead.toNat ∧ lead.toNat ≤ 0xF4)
    (hsecond : 0x80 ≤ second.toNat ∧ second.toNat < 0xC0)
    (hthird : 0x80 ≤ third.toNat ∧ third.toNat < 0xC0)
    (hfourth : 0x80 ≤ fourth.toNat ∧ fourth.toNat < 0xC0) (hbarred : ¬Barred lead second) :
    ∃ c, String.utf8EncodeChar c = [lead, second, third, fourth] := by
  rw [barred_iff] at hbarred
  obtain ⟨c, hc⟩ := exists_char (n := (lead.toNat - 0xF0) * 262144 + (second.toNat - 0x80) * 4096 +
    (third.toNat - 0x80) * 64 + (fourth.toNat - 0x80)) (by omega)
  refine ⟨c, ?_⟩
  simp only [String.utf8EncodeChar, hc]
  rw [if_neg (by omega), if_neg (by omega), if_neg (by omega), ofNat_eq (c := lead) (by omega),
    ofNat_eq (c := second) (by omega), ofNat_eq (c := third) (by omega),
    ofNat_eq (c := fourth) (by omega)]

/-- A lead byte of a longer character and its continuation bytes are a character, if the second byte
is not barred. -/
theorem Encoded.exists_char (h : Encoded lead rest) (hlead : 1 < expectedLength lead)
    (hbarred : ∀ second ∈ rest.head?, ¬Barred lead second) :
    ∃ c, String.utf8EncodeChar c = lead :: rest := by
  have hlength := h.length
  have hcontinues : ∀ c ∈ rest, 0x80 ≤ c.toNat ∧
      c.toNat < 0xC0 := fun c hc => (isContinuation_iff c).mp (h.continues c hc)
  obtain ⟨_, ⟨hlow, hhigh, htwo⟩ | ⟨hlow, hhigh, hthree⟩ | ⟨hlow, hhigh, hfour⟩⟩ :=
    expectedLength_cases lead hlead
  · obtain ⟨second, rfl⟩ := List.length_eq_one_iff.mp (show rest.length = 1 by omega)
    simp only [List.forall_mem_cons] at hcontinues
    exact utf8EncodeChar_two ⟨hlow, hhigh⟩ hcontinues.1
  · obtain ⟨second, third, rfl⟩ := List.length_eq_two.mp (show rest.length = 2 by omega)
    simp only [List.forall_mem_cons] at hcontinues
    exact utf8EncodeChar_three ⟨hlow, hhigh⟩ hcontinues.1 hcontinues.2.1 (hbarred second rfl)
  · obtain ⟨second, third, fourth, rfl⟩ := List.length_eq_three.mp (show rest.length = 3 by omega)
    simp only [List.forall_mem_cons] at hcontinues
    exact utf8EncodeChar_four ⟨hlow, hhigh⟩ hcontinues.1 hcontinues.2.1 hcontinues.2.2.1
      (hbarred second rfl)

/-- The second byte of a character is not barred. -/
theorem not_barred_of_utf8EncodeChar {c : Char}
    (h : String.utf8EncodeChar c = lead :: second :: rest) : ¬Barred lead second := by
  have hvalid : c.val.toNat < 0xD800 ∨ 0xDFFF < c.val.toNat ∧ c.val.toNat < 0x110000 := c.valid
  rw [barred_iff]
  simp only [String.utf8EncodeChar] at h
  generalize c.val.toNat = n at h hvalid
  split at h
  · cases h
  · split at h
    · cases h
      simp only [UInt8.toNat_ofNat']
      omega
    · split at h
      · cases h
        simp only [UInt8.toNat_ofNat']
        omega
      · cases h
        simp only [UInt8.toNat_ofNat']
        omega

end Encoding

section Held

variable {text : Bytes}

/-- Some first bytes of a character, but not all of them. -/
def CutCharacter (s : Bytes) : Prop :=
  s ≠ [] ∧ ∃ c missing, missing ≠ [] ∧ String.utf8EncodeChar c = s ++ missing

/-- A lead byte, fewer continuation bytes than it announces, and the first of them is not barred. -/
theorem cutCharacter_iff : CutCharacter (lead :: rest) ↔ rest.length + 1 < expectedLength lead ∧
    (∀ c ∈ rest, isContinuation c = true) ∧ ∀ second ∈ rest.head?, ¬Barred lead second := by
  constructor
  · intro ⟨_, c, missing, hmissing, hc⟩
    obtain ⟨lead', rest', henc, hencoded⟩ := utf8EncodeChar_encoded c
    rw [hc, List.cons_append] at henc
    obtain ⟨rfl, rfl⟩ := List.cons.inj henc
    have hpos := List.length_pos_iff.mpr hmissing
    have hlength := hencoded.length
    rw [List.length_append] at hlength
    refine ⟨by omega, fun c hc => hencoded.continues c (List.mem_append_left _ hc), ?_⟩
    intro second hsecond
    obtain ⟨more, rfl⟩ := List.head?_eq_some_iff.mp hsecond
    exact not_barred_of_utf8EncodeChar hc
  · intro ⟨hshort, hcontinues, hbarred⟩
    have hlead : 1 < expectedLength lead := by omega
    obtain ⟨hstarts, _⟩ := expectedLength_cases lead hlead
    -- the missing bytes: one that the lead allows if the second is among them, and the lowest ones
    -- behind it
    obtain ⟨filler, hfiller, hallowed⟩ : ∃ filler, isContinuation filler = true ∧
      ¬Barred lead filler := by
      by_cases h : lead = 0xE0 ∨ lead = 0xF0
      · exact ⟨if lead = 0xE0 then 0xA0 else 0x90, by split <;> decide,
          by rcases h with rfl | rfl <;> decide⟩
      · refine ⟨0x80, by decide, ?_⟩
        rw [not_or] at h
        rintro (⟨hlead, _⟩ | ⟨_, hlow⟩ | ⟨hlead, _⟩ | ⟨_, hlow⟩)
        · exact h.1 hlead
        · exact absurd hlow (by decide)
        · exact h.2 hlead
        · exact absurd hlow (by decide)
    have hencoded : Encoded lead
        (rest ++ List.replicate (expectedLength lead - 1 - rest.length) filler) := by
      refine ⟨hstarts, ?_, ?_⟩
      · intro c hc
        rcases List.mem_append.mp hc with hc | hc
        · exact hcontinues c hc
        · rw [List.eq_of_mem_replicate hc]
          exact hfiller
      · rw [List.length_append, List.length_replicate]
        omega
    obtain ⟨c, hc⟩ := hencoded.exists_char hlead (by
      intro second hsecond
      cases rest with
      | nil =>
        rw [List.nil_append] at hsecond
        rw [List.eq_of_mem_replicate (List.mem_of_head? hsecond)]
        exact hallowed
      | cons first more => exact hbarred second hsecond)
    refine ⟨List.cons_ne_nil _ _, c,
      List.replicate (expectedLength lead - 1 - rest.length) filler, ?_, hc⟩
    exact List.ne_nil_of_length_pos (by rw [List.length_replicate]; omega)

/-- What is held back is nothing, or a lead byte with fewer continuation bytes than it announces. -/
theorem completeUtf8PrefixLength_cases (text : Bytes) :
    completeUtf8PrefixLength text = text.length ∨
    ∃ before lead rest, text = before ++ lead :: rest ∧
    completeUtf8PrefixLength text = before.length ∧
      rest.length + 1 < expectedLength lead ∧ ∀ c ∈ rest, isContinuation c = true := by
  unfold completeUtf8PrefixLength
  dsimp only
  split
  · exact .inl rfl
  · rename_i lead before hdrop
    split
    · rename_i hshort
      right
      have hprefix : (text.reverse.take 3).takeWhile isContinuation <+: text.reverse :=
        (List.takeWhile_prefix _).trans (List.take_prefix 3 text.reverse)
      have hreverse := List.take_append_drop
        ((text.reverse.take 3).takeWhile isContinuation).length text.reverse
      rw [hdrop, ← List.prefix_iff_eq_take.mp hprefix] at hreverse
      have htext := congrArg List.reverse hreverse
      rw [List.reverse_reverse, List.reverse_append, List.reverse_cons, List.append_assoc,
        List.singleton_append] at htext
      refine ⟨before.reverse, lead, _, htext.symm, List.length_reverse.symm, ?_, ?_⟩
      · rw [List.length_reverse]
        exact hshort
      · intro c hc
        exact List.mem_takeWhile_imp (List.mem_reverse.mp hc)
    · exact .inl rfl

/-- What is held back is the beginning of a character, and every beginning of a character at the end
is held back. -/
structure HoldsBackExactly (text : Bytes) : Prop where
  held : text.drop (completeUtf8PrefixLength text) = [] ∨
    CutCharacter (text.drop (completeUtf8PrefixLength text))
  cut : ∀ before s, text = before ++ s → CutCharacter s →
    completeUtf8PrefixLength text = before.length

/-- The text ends with a lead byte of three or four bytes and fewer bytes behind it, of which the
first is barred. -/
def EndsBarred (text : Bytes) : Prop :=
  ∃ before lead second rest, text = before ++ lead :: second :: rest ∧ Barred lead second ∧
    (∀ c ∈ second :: rest, 0x80 ≤ c ∧ c < 0xC0) ∧ rest.length + 2 < if lead < 0xF0 then 3 else 4

/-- The leads that bar second bytes announce two or three continuation bytes. -/
theorem Barred.expectedLength (h : Barred lead second) :
    expectedLength lead = if lead < 0xF0 then 3 else 4 := by
  rcases h with ⟨rfl, _⟩ | ⟨rfl, _⟩ | ⟨rfl, _⟩ | ⟨rfl, _⟩ <;> decide

/-- Every beginning of a character is held back. -/
theorem held_of_cutCharacter {before s : Bytes} (h : CutCharacter s) :
    completeUtf8PrefixLength (before ++ s) = before.length := by
  obtain ⟨lead, rest, rfl⟩ := List.exists_cons_of_ne_nil h.1
  obtain ⟨hshort, hcontinues, _⟩ := cutCharacter_iff.mp h
  have hle := expectedLength_le lead
  obtain ⟨hstarts, _⟩ := expectedLength_cases lead (by omega)
  rw [completeUtf8PrefixLength_lead before hstarts hcontinues (by omega), if_pos hshort]

/-- What is held back of a text is exactly the beginning of a character at its end, unless the text
ends with bytes that only look like one. -/
theorem utf8_held_back_iff (text : Bytes) : HoldsBackExactly text ↔ ¬EndsBarred text := by
  constructor
  · intro ⟨hheld, _⟩ ⟨before, lead, second, rest, htext, hbarred, hbytes, hshort⟩
    have hcontinues : ∀ c ∈ second :: rest, isContinuation c = true :=
      fun c hc => (isContinuation_iff c).mpr (hbytes c hc)
    rw [← hbarred.expectedLength] at hshort
    have hle := expectedLength_le lead
    obtain ⟨hstarts, _⟩ := expectedLength_cases lead (by omega)
    have hlength := completeUtf8PrefixLength_lead before hstarts hcontinues
      (by rw [List.length_cons]; omega)
    rw [if_pos (by rw [List.length_cons]; omega), ← htext] at hlength
    rw [hlength, htext, List.drop_left] at hheld
    have hcut := hheld.resolve_left (List.cons_ne_nil _ _)
    exact (cutCharacter_iff.mp hcut).2.2 second rfl hbarred
  · intro hends
    refine ⟨?_, fun before s htext h => htext ▸ held_of_cutCharacter h⟩
    rcases completeUtf8PrefixLength_cases text with
      hall | ⟨before, lead, rest, htext, hlength, hshort, hcontinues⟩
    · exact .inl (by rw [hall, List.drop_length])
    · right
      rw [hlength, htext, List.drop_left]
      refine cutCharacter_iff.mpr ⟨hshort, hcontinues, fun second hsecond hbarred => hends ?_⟩
      obtain ⟨more, rfl⟩ := List.head?_eq_some_iff.mp hsecond
      rw [hbarred.expectedLength] at hshort
      exact ⟨before, lead, second, more, htext, hbarred,
        fun c hc => (isContinuation_iff c).mp (hcontinues c hc), hshort⟩

/-- Two bytes that no character starts with are held back. -/
theorem overlong_held_back : ¬∀ text, HoldsBackExactly text := by
  intro h
  have hheld := (h [0xE0, 0x80]).held
  have hdrop : ([0xE0, 0x80] : Bytes).drop (completeUtf8PrefixLength [0xE0, 0x80]) =
      [0xE0, 0x80] := by decide
  rw [hdrop] at hheld
  have hcut := hheld.resolve_left (List.cons_ne_nil _ _)
  exact (cutCharacter_iff.mp hcut).2.2 0x80 rfl (by decide)

end Held

end RadixForge
