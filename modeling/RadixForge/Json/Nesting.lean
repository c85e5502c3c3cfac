import Mathlib.Tactic.Ring
import RadixForge.Json.Strings
import RadixForge.Library.Run

/-!
# Open containers

A reader of the bytes of a text that knows strings and brackets only: how many arrays and objects
are open at each point. The texts of the grammar leave no container open, and how deep they go can
be read off their parts.
-/

namespace RadixForge

open Library

/-- Where the reader stands: the number of open containers, and whether it is inside a string and
behind a reverse solidus there. -/
structure Scan where
  depth : ℤ := 0
  quoted : Bool := false
  escaped : Bool := false
deriving DecidableEq

/-- The reader takes the next byte. -/
def Scan.step (st : Scan) (c : UInt8) : Scan :=
  if st.escaped then { st with escaped := false }
  else if st.quoted then
    if c = backslash then { st with escaped := true }
    else if c = quote then { st with quoted := false }
    else st
  else if c = quote then { st with quoted := true }
  else if c = openBrace ∨ c = openBracket then { st with depth := st.depth + 1 }
  else if c = closeBrace ∨ c = closeBracket then { st with depth := st.depth - 1 }
  else st

/-- The number of containers that a text leaves open. -/
def openContainers (s : Bytes) : ℤ := (s.foldl Scan.step {}).depth

/-- No point of the text is enclosed in more open containers. -/
def NestedWithin (n : ℕ) (s : Bytes) : Prop := ∀ u, u <+: s → openContainers u ≤ n

/-- A byte that something stands at: no white space, and no closing bracket. -/
def isContent (c : UInt8) : Bool := !isSpace c && c ≠ closeBrace && c ≠ closeBracket

/-- Nothing stands in a container that is enclosed in so many others; there may be empty ones. -/
def FilledWithin (n : ℕ) (s : Bytes) : Prop :=
  ∀ u c, u ++ [c] <+: s → isContent c = true → openContainers u ≤ n

/-- A property of the depths before and after each byte. -/
def Depths (p : ℤ → ℤ → UInt8 → Prop) : Scan → Bytes → Prop :=
  Along Scan.step fun st c => p st.depth (st.step c).depth c

/-- At most so many containers are open. -/
def AtMost (n : ℕ) (a b : ℤ) (_ : UInt8) : Prop := a ≤ n ∧ b ≤ n

/-- Something stands in fewer open containers only. -/
def Filled (n : ℕ) (a _ : ℤ) (c : UInt8) : Prop := isContent c = true → a < n

/-- The reader outside of strings. -/
def outside (d : ℤ) : Scan := { depth := d }

/-- The text leaves nothing open that it opened. -/
def Closed (s : Bytes) : Prop := s.foldl Scan.step (outside 0) = outside 0

/-- The text opens and closes no container. -/
def Flat (s : Bytes) : Prop := Closed s ∧ Depths (fun a b _ => a = 0 ∧ b = 0) (outside 0) s

section Shifting

variable {p : ℤ → ℤ → UInt8 → Prop} {st : Scan} {s : Bytes}

/-- A property of the depths at the first byte and at those after it. -/
theorem depths_cons {c : UInt8} :
    Depths p st (c :: s) ↔ p st.depth (st.step c).depth c ∧ Depths p (st.step c) s := Iff.rfl

/-- The reader with other containers around it. -/
def Scan.shift (k : ℤ) (st : Scan) : Scan := { st with depth := st.depth + k }

/-- A byte changes the depth by the same amount wherever the scan stands. -/
theorem Scan.shift_step (k : ℤ) (st : Scan) (c : UInt8) :
    (st.shift k).step c = (st.step c).shift k := by
  unfold step
  change (if st.escaped then _ else if st.quoted then _ else _) = _
  split_ifs <;> first | rfl | simp only [shift, Scan.mk.injEq, and_true]; ring

/-- A text changes the depth by the same amount wherever the scan stands. -/
theorem Scan.shift_foldl (k : ℤ) (st : Scan) (s : Bytes) :
    s.foldl step (st.shift k) = (s.foldl step st).shift k := by
  induction s generalizing st with
  | nil => rfl
  | cons c s ih => rw [List.foldl_cons, shift_step, ih, List.foldl_cons]

/-- Containers around a text add to the depths in it. -/
theorem depths_shift (k : ℤ) :
    Depths p (st.shift k) s ↔ Depths (fun a b c => p (a + k) (b + k) c) st s := by
  induction s generalizing st with
  | nil => exact Iff.rfl
  | cons c s ih =>
    refine and_congr ?_ ?_
    · simp only [Scan.shift_step]
      exact Iff.rfl
    · rw [Scan.shift_step]
      exact ih

/-- A scan outside of strings differs from the one at depth zero by its depth only. -/
theorem outside_eq_shift (d : ℤ) : outside d = (outside 0).shift d := by
  simp [outside, Scan.shift]

/-- A closed text leaves the reader as it was. -/
theorem Closed.foldl (h : Closed s) (d : ℤ) : s.foldl Scan.step (outside d) = outside d := by
  rw [outside_eq_shift d, Scan.shift_foldl, h]

/-- Depths are counted from where a text begins. -/
theorem depths_outside {d : ℤ} :
    Depths p (outside d) s ↔ Depths (fun a b c => p (a + d) (b + d) c) (outside 0) s := by
  rw [outside_eq_shift d, depths_shift]

end Shifting

section Texts

variable {p : ℤ → ℤ → UInt8 → Prop} {s s' : Bytes} {d : ℤ}

/-- The empty text leaves nothing open. -/
theorem closed_nil : Closed [] := rfl

/-- Two texts that leave nothing open do so together. -/
theorem Closed.append (h : Closed s) (h' : Closed s') : Closed (s ++ s') := by
  rw [Closed, List.foldl_append, h, h']

/-- A text that leaves nothing open does not matter to the depths behind it. -/
theorem depths_append (h : Closed s) :
    Depths p (outside d) (s ++ s') ↔ Depths p (outside d) s ∧ Depths p (outside d) s' := by
  unfold Depths
  rw [along_append, h.foldl]

/-- The empty text opens nothing. -/
theorem flat_nil : Flat [] := ⟨closed_nil, trivial⟩

/-- Two texts that open and close nothing do so together. -/
theorem Flat.append (h : Flat s) (h' : Flat s') : Flat (s ++ s') :=
  ⟨h.1.append h'.1, (depths_append h.1).mpr ⟨h.2, h'.2⟩⟩

/-- What holds at one depth holds along a flat text. -/
theorem Flat.depths (h : Flat s) (hp : ∀ c ∈ s, p d d c) : Depths p (outside d) s := by
  rw [depths_outside]
  refine Along.imp h.2 fun st c hc hflat => ?_
  simp only at hflat ⊢
  rw [hflat.1, hflat.2, zero_add]
  exact hp c hc

/-- A byte that is no quotation mark and no bracket. -/
def isPlain (c : UInt8) : Bool :=
  c ≠ quote && c ≠ openBrace && c ≠ openBracket && c ≠ closeBrace && c ≠ closeBracket

/-- A plain byte changes nothing outside of strings. -/
theorem outside_step_plain {c : UInt8} (hc : isPlain c = true) :
    (outside d).step c = outside d := by
  simp only [isPlain, ne_eq, Bool.and_eq_true, decide_eq_true_eq] at hc
  simp [outside, Scan.step, hc]

/-- Plain bytes make a flat text. -/
theorem flat_of_plain (h : s.all isPlain = true) : Flat s := by
  induction s with
  | nil => exact flat_nil
  | cons c s ih =>
    rw [List.all_cons, Bool.and_eq_true] at h
    obtain ⟨hc, hs⟩ := h
    have hsingle : Flat [c] := by
      refine ⟨outside_step_plain hc, ?_, trivial⟩
      simp only [outside_step_plain hc]
      exact ⟨rfl, rfl⟩
    exact hsingle.append (ih hs)

/-- White space is flat. -/
theorem IsWs.flat (h : IsWs s) : Flat s := by
  have hplain : ∀ c, isSpace c = true → isPlain c = true := forall_byte (by decide +kernel)
  exact flat_of_plain (List.all_eq_true.mpr fun c hc => hplain c (h c hc))

/-- The bytes of a number are plain. -/
theorem NumberText.flat (h : NumberText s) : Flat s := by
  have hplain : ∀ c, isDigit c = true → isPlain c = true := forall_byte (by decide +kernel)
  have hdigits {digits : Bytes} (hd : Digits digits) : Flat digits :=
    flat_of_plain (List.all_eq_true.mpr fun c hc => hplain c (hd.2 c hc))
  have hsingle {c : UInt8} (hc : isPlain c = true) :
      Flat [c] := flat_of_plain (by rw [List.all_cons, hc]; rfl)
  obtain ⟨minus, integer, fraction, exponent, hminus, hinteger, hfraction, hexponent, rfl⟩ := h
  refine Flat.append ?_ (Flat.append ?_ (Flat.append ?_ ?_))
  · rcases hminus with rfl | rfl
    · exact flat_nil
    · exact hsingle (by decide)
  · rcases hinteger with rfl | ⟨hd, _⟩
    · exact hsingle (by decide)
    · exact hdigits hd
  · rcases hfraction with rfl | ⟨digits, hd, rfl⟩
    · exact flat_nil
    · exact (hsingle (c := byte '.') (by decide)).append (hdigits hd)
  · rcases hexponent with rfl | ⟨letter, sign, digits, hletter, hsign, hd, rfl⟩
    · exact flat_nil
    · have hfirst : isPlain letter = true := by rcases hletter with rfl | rfl <;> decide
      refine (hsingle hfirst).append (Flat.append ?_ (hdigits hd))
      rcases hsign with rfl | rfl | rfl
      · exact flat_nil
      · exact hsingle (by decide)
      · exact hsingle (by decide)

/-- The reader inside a string. -/
def inside : Scan := { quoted := true }

/-- A text that the reader passes inside a string. -/
def Inner (s : Bytes) : Prop :=
  s.foldl Scan.step inside = inside ∧ Depths (fun a b _ => a = 0 ∧ b = 0) inside s

/-- The reader passes two texts inside a string one after the other. -/
theorem Inner.append (h : Inner s) (h' : Inner s') : Inner (s ++ s') :=
  ⟨by rw [List.foldl_append, h.1, h'.1], along_append.mpr ⟨h.2, by rw [h.1]; exact h'.2⟩⟩

/-- The reader passes a byte inside a string that is neither a quote nor a backslash. -/
theorem inner_raw {c : UInt8} (hquote : c ≠ quote) (hbackslash : c ≠ backslash) : Inner [c] := by
  have hstep : inside.step c = inside := by simp [inside, Scan.step, hquote, hbackslash]
  exact ⟨hstep, ⟨rfl, congrArg Scan.depth hstep⟩, trivial⟩

/-- An escape takes the next byte with it. -/
theorem inner_escape (c : UInt8) : Inner [backslash, c] := ⟨rfl, ⟨rfl, rfl⟩, ⟨rfl, rfl⟩, trivial⟩

/-- Hexadecimal digits end no string. -/
theorem CodeUnit.inner {unit : ℕ} (h : CodeUnit s unit) : Inner s := by
  have hdigit : ∀ c, (hexValue c).isSome = true → c ≠ quote ∧
      c ≠ backslash := forall_byte (by decide +kernel)
  have hall (digits : Bytes) (start : ℕ)
      (hsome : (digits.foldlM (fun unit c => (hexValue c).map fun value => unit * 16 + value)
        start).isSome = true) :
      Inner digits := by
    induction digits generalizing start with
    | nil => exact ⟨rfl, trivial⟩
    | cons c digits ih =>
      rw [List.foldlM_cons] at hsome
      cases hvalue : hexValue c with
      | none => simp [hvalue] at hsome
      | some value =>
        obtain ⟨hquote, hbackslash⟩ := hdigit c (by rw [hvalue]; rfl)
        rw [hvalue] at hsome
        exact (inner_raw hquote hbackslash).append (ih _ hsome)
  exact hall s 0 (by rw [← hexNumber, h.2]; rfl)

/-- The inside of a string stays inside it. -/
theorem Chars.inner {v : Bytes} (h : Chars s v) : Inner s := by
  induction h with
  | nil => exact ⟨rfl, trivial⟩
  | raw c _ hquote hbackslash _ ih => exact (inner_raw hquote hbackslash).append ih
  | escape _ _ ih => exact (inner_escape _).append ih
  | unicode hunit _ _ ih => exact (inner_escape _).append (hunit.inner.append ih)
  | pair hhigh _ _ hlow _ _ _ ih =>
    exact (inner_escape _).append
      (hhigh.inner.append ((inner_escape _).append (hlow.inner.append ih)))

/-- A string is flat. -/
theorem Chars.flat {v : Bytes} (h : Chars s v) : Flat (quote :: (s ++ [quote])) := by
  obtain ⟨hfold, hdepths⟩ := h.inner
  have hfirst : (outside 0).step quote = inside := rfl
  have hlast : inside.step quote = outside 0 := rfl
  refine ⟨?_, ⟨rfl, rfl⟩, ?_⟩
  · rw [Closed, List.foldl_cons, hfirst, List.foldl_append, hfold]
    rfl
  · refine along_append.mpr ⟨hdepths, ?_⟩
    rw [hfirst, hfold]
    exact ⟨⟨rfl, rfl⟩, trivial⟩

end Texts

section Containers

variable {p : ℤ → ℤ → UInt8 → Prop} {d : ℤ} {fulls : List Bytes}

/-- Closed texts separated by commas are closed, and a property holds along them if it holds along
each and at the commas. -/
theorem separated_depths (hclosed : ∀ s ∈ fulls, Closed s) : Closed (separated fulls) ∧
    (Depths p (outside d) (separated fulls) ↔
      (∀ s ∈ fulls, Depths p (outside d) s) ∧ (1 < fulls.length → p d d (byte ','))) := by
  have hcomma (d : ℤ) : (outside d).step (byte ',') = outside d := outside_step_plain (by decide)
  induction fulls with
  | nil => exact ⟨closed_nil, iff_of_true trivial ⟨by simp, by simp⟩⟩
  | cons s rest ih =>
    obtain ⟨hs, hrest⟩ := List.forall_mem_cons.mp hclosed
    cases rest with
    | nil => exact ⟨hs, by simp [separated]⟩
    | cons t rest =>
      obtain ⟨hclosed', hdepths'⟩ := ih hrest
      have htail : Closed (byte ',' :: separated (t :: rest)) := by
        rw [Closed, List.foldl_cons, hcomma, hclosed']
      refine ⟨hs.append htail, ?_⟩
      have hlength : 1 < (s :: t :: rest).length := by simp
      rw [separated, depths_append hs, depths_cons, hcomma, hdepths']
      constructor
      · rintro ⟨hfirst, hat, hall, _⟩
        exact ⟨List.forall_mem_cons.mpr ⟨hfirst, hall⟩, fun _ => hat⟩
      · rintro ⟨hall, hat⟩
        obtain ⟨hfirst, hall⟩ := List.forall_mem_cons.mp hall
        exact ⟨hfirst, hat hlength, hall, fun _ => hat hlength⟩

/-- The text of a container is closed, and its parts are one deeper. -/
theorem bracketed_depths {first last : UInt8} (hfirst : first = openBrace ∨ first = openBracket)
    (hlast : last = closeBrace ∨ last = closeBracket) (hclosed : ∀ s ∈ fulls, Closed s) :
    Closed (first :: (separated fulls ++ [last])) ∧
      (Depths p (outside 0) (first :: (separated fulls ++ [last])) ↔
        p 0 1 first ∧ ((∀ s ∈ fulls, Depths p (outside 1) s) ∧
          (1 < fulls.length → p 1 1 (byte ','))) ∧ p 1 0 last) := by
  have hopen : (outside 0).step first = outside 1 := by rcases hfirst with rfl | rfl <;> rfl
  have hclose : (outside 1).step last = outside 0 := by rcases hlast with rfl | rfl <;> rfl
  obtain ⟨hinner, hdepths⟩ := separated_depths (p := p) (d := 1) hclosed
  constructor
  · rw [Closed, List.foldl_cons, hopen, List.foldl_append, hinner.foldl, List.foldl_cons, hclose]
    rfl
  · rw [depths_cons, hopen, depths_append hinner, hdepths, depths_cons, hclose]
    exact and_congr Iff.rfl (and_congr Iff.rfl (and_iff_left trivial))

end Containers

section Values

variable {D : Type} {floats : Floats D} {p : ℤ → ℤ → UInt8 → Prop} {d : ℤ} {n : ℕ} {s : Bytes}
  {v : JsonValue D}

/-- The white space around an item is flat. -/
theorem Item.depths {item : Item D} (hspaced : item.Spaced) (hclosed : Closed item.text) :
    Closed item.full ∧ (Depths p (outside d) item.full → Depths p (outside d) item.text) ∧
      ((∀ c, isSpace c = true → p d d c) → Depths p (outside d) item.text →
        Depths p (outside d) item.full) := by
  obtain ⟨hbefore, hafter⟩ := hspaced
  rw [Item.full, depths_append hbefore.flat.1, depths_append hclosed]
  exact ⟨hbefore.flat.1.append (hclosed.append hafter.flat.1), fun h => h.2.1,
    fun hspace h => ⟨hbefore.flat.depths fun c hc => hspace c (hbefore c hc), h,
      hafter.flat.depths fun c hc => hspace c (hafter c hc)⟩⟩

/-- What stands before the value of a member is flat. -/
theorem Member.depths {member : Member D} (hspaced : member.Spaced)
    (hclosed : Closed member.item.text) :
    Closed member.full ∧ (Depths p (outside d) member.full →
      Depths p (outside d) member.item.text) ∧
      ((∀ c, p d d c) → Depths p (outside d) member.item.text →
        Depths p (outside d) member.full) := by
  obtain ⟨hbefore, hchars, hafter, hitem⟩ := hspaced
  have hheader : Flat (member.before ++
      ((quote :: (member.keyText ++ [quote])) ++ (member.after ++ [byte ':']))) :=
    hbefore.flat.append (hchars.flat.append (hafter.flat.append (flat_of_plain (by decide))))
  have hfull : member.full =
      (member.before ++ ((quote :: (member.keyText ++ [quote])) ++ (member.after ++ [byte ':']))) ++
        member.item.full := by
    simp [Member.full]
  obtain ⟨hinner, hback, hforth⟩ := Item.depths (p := p) (d := d) hitem hclosed
  rw [hfull, depths_append hheader.1]
  exact ⟨hheader.1.append hinner, fun h => hback h.2,
    fun hat h => ⟨hheader.depths fun c _ => hat c, hforth (fun c _ => hat c) h⟩⟩

/-- A value of the grammar is closed and nested as deep as it says. -/
theorem Value.depths (h : Value floats n s v) : Closed s ∧ Depths (AtMost n) (outside 0) s := by
  have hflat {s : Bytes} (hs : Flat s) (n : ℕ) : Closed s ∧ Depths (AtMost n) (outside 0) s :=
    ⟨hs.1, hs.depths fun _ _ => ⟨Int.natCast_nonneg n, Int.natCast_nonneg n⟩⟩
  have hdeeper {s : Bytes} {n : ℕ} (hs : Depths (AtMost n) (outside 0) s) :
      Depths (AtMost (n + 1)) (outside 1) s := by
    rw [depths_outside]
    refine Along.imp hs fun _ _ _ hle => ?_
    simp only [AtMost, Nat.cast_add, Nat.cast_one] at hle ⊢
    omega
  have hpos (n : ℕ) (a b : ℤ) (ha : a ≤ 1) (hb : b ≤ 1) (c : UInt8) : AtMost (n + 1) a b c := by
    simp only [AtMost, Nat.cast_add, Nat.cast_one]
    omega
  have hcontainer {first last : UInt8} (hfirst : first = openBrace ∨ first = openBracket)
      (hlast : last = closeBrace ∨ last = closeBracket) (fulls : List Bytes) (n : ℕ)
      (hfulls : ∀ s ∈ fulls, Closed s ∧ Depths (AtMost (n + 1)) (outside 1) s) :
      Closed (first :: (separated fulls ++ [last])) ∧
        Depths (AtMost (n + 1)) (outside 0) (first :: (separated fulls ++ [last])) := by
    obtain ⟨hclosed, hiff⟩ :=
      bracketed_depths (p := AtMost (n + 1)) hfirst hlast fun s hs => (hfulls s hs).1
    exact ⟨hclosed, hiff.mpr ⟨hpos n _ _ zero_le_one le_rfl _,
      ⟨fun s hs => (hfulls s hs).2, fun _ => hpos n _ _ le_rfl le_rfl _⟩,
      hpos n _ _ le_rfl zero_le_one _⟩⟩
  induction h with
  | null n => exact hflat (flat_of_plain (by decide)) n
  | true n => exact hflat (flat_of_plain (by decide)) n
  | false n => exact hflat (flat_of_plain (by decide)) n
  | number n htext => exact hflat htext.flat n
  | string n hchars => exact hflat hchars.flat n
  | noItems n hspace =>
    refine hcontainer (.inr rfl) (.inr rfl) [_] n
      (List.forall_mem_singleton.mpr ⟨hspace.flat.1, ?_⟩)
    exact hdeeper (hflat hspace.flat n).2
  | items n items _ hspaced _ ih =>
    refine hcontainer (.inr rfl) (.inr rfl) _ n fun s hs => ?_
    obtain ⟨item, hitem, rfl⟩ := List.mem_map.mp hs
    obtain ⟨hclosed, _, hforth⟩ :=
      Item.depths (p := AtMost (n + 1)) (d := 1) (hspaced item hitem) (ih item hitem).1
    exact ⟨hclosed, hforth (fun c _ => hpos n _ _ le_rfl le_rfl c) (hdeeper (ih item hitem).2)⟩
  | noMembers n hspace =>
    refine hcontainer (.inl rfl) (.inl rfl) [_] n
      (List.forall_mem_singleton.mpr ⟨hspace.flat.1, ?_⟩)
    exact hdeeper (hflat hspace.flat n).2
  | members n members _ hspaced _ _ ih =>
    refine hcontainer (.inl rfl) (.inl rfl) _ n fun s hs => ?_
    obtain ⟨member, hmember, rfl⟩ := List.mem_map.mp hs
    obtain ⟨hclosed, _, hforth⟩ :=
      Member.depths (p := AtMost (n + 1)) (d := 1) (hspaced member hmember) (ih member hmember).1
    exact ⟨hclosed, hforth (hpos n _ _ le_rfl le_rfl) (hdeeper (ih member hmember).2)⟩

/-- In a container there is one level less for what stands in it. -/
theorem filled_inner : Depths (Filled (n + 1)) (outside 1) s ↔ Depths (Filled n) (outside 0) s := by
  have hsame : (fun a b c => Filled (n + 1) (a + 1) (b + 1) c) = Filled n := by
    funext a b c
    simp only [Filled, Nat.cast_add, Nat.cast_one, add_lt_add_iff_right]
  rw [depths_outside, hsame]

/-- What stands in a container is filled with one level less; between its parts stand commas. -/
theorem filled_bracketed {first last : UInt8} (hfirst : first = openBrace ∨ first = openBracket)
    (hlast : last = closeBrace ∨ last = closeBracket) (fulls : List Bytes)
    (hclosed : ∀ s ∈ fulls, Closed s) :
    Depths (Filled (n + 1)) (outside 0) (first :: (separated fulls ++ [last])) ↔
      (∀ s ∈ fulls, Depths (Filled n) (outside 0) s) ∧ (1 < fulls.length → 0 < n) := by
  have hopen : Filled (n + 1) 0 1 first := fun _ => by omega
  have hclose : Filled (n + 1) 1 0 last := by
    rcases hlast with rfl | rfl <;> exact fun h => absurd h (by decide)
  have hcomma : Filled (n + 1) 1 1 (byte ',') ↔ 0 < n := by
    simp only [Filled, show isContent (byte ',') = true by decide, forall_const]
    omega
  rw [(bracketed_depths hfirst hlast hclosed).2, and_iff_right hopen, and_iff_left hclose, hcomma]
  simp only [filled_inner]

/-- Nothing stands in an empty container. -/
theorem filled_empty {first last : UInt8} (hfirst : first = openBrace ∨ first = openBracket)
    (hlast : last = closeBrace ∨ last = closeBracket) (hspace : IsWs s) :
    Depths (Filled (n + 1)) (outside 0) (first :: (s ++ [last])) := by
  refine (filled_bracketed hfirst hlast [s] (List.forall_mem_singleton.mpr hspace.flat.1)).mpr
    ⟨List.forall_mem_singleton.mpr (hspace.flat.depths fun c hc hcontent => ?_),
      fun h => absurd h (lt_irrefl 1)⟩
  simp [isContent, hspace c hc] at hcontent

/-- A byte that something stands at needs a level. -/
theorem levels_pos {levels : ℕ} {c : UInt8} (h : Depths (Filled levels) (outside 0) (c :: s))
    (hc : isContent c = true) :
    0 < levels :=
  Int.natCast_pos.mp (h.1 hc)

/-- Flat texts are filled as soon as there is a level. -/
theorem Flat.filled (h : Flat s) {levels : ℕ} (hlevels : 0 < levels) :
    Depths (Filled levels) (outside 0) s :=
  h.depths fun _ _ _ => Int.natCast_pos.mpr hlevels

/-- Something in the containers of a value needs no more levels than they are nested. -/
theorem Value.filled (h : Value floats n s v) {levels : ℕ} (hlevels : n < levels) :
    Depths (Filled levels) (outside 0) s :=
  Along.imp h.depths.2 fun _ _ _ hle _ => lt_of_le_of_lt hle.1 (Int.ofNat_lt.mpr hlevels)

end Values

section Prefixes

variable {n : ℕ} {s : Bytes}

/-- The nesting of a text, byte by byte. -/
theorem nestedWithin_iff : NestedWithin n s ↔ Depths (fun _ b _ => b ≤ n) (outside 0) s := by
  refine Iff.trans ?_ along_iff.symm
  have hafter (u : Bytes) (c : UInt8) :
      ((u.foldl Scan.step (outside 0)).step c).depth = openContainers (u ++ [c]) := by
    rw [openContainers, List.foldl_append]
    rfl
  constructor
  · intro h u c hu
    rw [hafter]
    exact h _ hu
  · intro h u hu
    rcases List.eq_nil_or_concat u with rfl | ⟨u, c, rfl⟩
    · exact Int.natCast_nonneg n
    · rw [List.concat_eq_append] at hu ⊢
      rw [← hafter]
      exact h u c hu

/-- What stands in a text at some depth is a property of the depths before its bytes. -/
theorem filledWithin_iff : FilledWithin n s ↔ Depths (Filled (n + 1)) (outside 0) s := by
  refine Iff.trans ?_ along_iff.symm
  refine forall_congr' fun u => forall_congr' fun c => forall_congr' fun _ =>
    forall_congr' fun _ => ?_
  rw [Nat.cast_add, Nat.cast_one, Int.lt_add_one_iff]
  exact Iff.rfl

end Prefixes

end RadixForge
