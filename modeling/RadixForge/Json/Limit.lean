import RadixForge.Json.Acceptance

/-!
# The limit of nesting

`parse_value` checks the depth before it reads a value, and an empty container has no value to read.
So an empty array or object may be enclosed in `kMaxDepth` others, one more than the limit says.
-/

namespace RadixForge

open Library

variable {D : Type} {floats : Floats D} {input : Bytes} {v : JsonValue D}

/-- `json::parse` returns on the documents where nothing stands deeper than the limit. -/
theorem parse_returned_iff :
    parse floats input = .returned v ↔ (∃ n, Document floats n input v) ∧
      FilledWithin maxDepth input := by
  rw [filledWithin_iff]
  have hspace (c : UInt8) (hc : isSpace c = true) : Filled (maxDepth + 1) 0 0 c :=
    fun hcontent => absurd hcontent (by simp [isContent, hc])
  constructor
  · intro h
    obtain ⟨item, hspaced, rfl, ⟨_, hvalue, hfilled⟩, rfl⟩ := parse_reads h
    exact ⟨⟨_, item, hspaced, rfl, hvalue, rfl⟩,
      (Item.depths hspaced hvalue.depths.1).2.2 hspace hfilled⟩
  · rintro ⟨⟨n, item, hspaced, rfl, hvalue, rfl⟩, hfilled⟩
    obtain ⟨hread, hend⟩ := parseValue_item hspaced hvalue
      ((Item.depths hspaced hvalue.depths.1).2.1 hfilled)
    rw [parse, hread, Outcome.returned_andThen]
    exact if_pos hend

/-- Every input is nested within the limit or rejected, except for the documents that are nested
deeper but have only empty containers there. What is accepted exceeds the limit by one at most. -/
theorem nesting_limited_iff (floats : Floats D) (input : Bytes) :
    ((NestedWithin maxDepth input ∨ ∃ message, parse floats input = .thrown message) ↔
      (∀ n v, ¬ Document floats n input v) ∨ NestedWithin maxDepth input ∨
      ¬ FilledWithin maxDepth input) ∧
      ∀ v, parse floats input = .returned v → NestedWithin (maxDepth + 1) input := by
  have hthrown (hnot : ∀ v, parse floats input ≠ .returned v) :
      ∃ message, parse floats input = .thrown message := by
    cases hparse : parse floats input with
    | returned v => exact absurd hparse (hnot v)
    | thrown message => exact ⟨message, rfl⟩
    | unfinished => exact absurd hparse (parse_finishes floats input)
  constructor
  · constructor
    · rintro (hnested | ⟨message, hmessage⟩)
      · exact .inr (.inl hnested)
      · by_contra hdocument
        push Not at hdocument
        obtain ⟨⟨n, v, hv⟩, _, hfilled⟩ := hdocument
        rw [parse_returned_iff.mpr ⟨⟨n, hv⟩, hfilled⟩] at hmessage
        contradiction
    · rintro (hdocument | hnested | hfilled)
      · refine .inr (hthrown fun v hv => ?_)
        obtain ⟨⟨n, hn⟩, _⟩ := parse_returned_iff.mp hv
        exact hdocument n v hn
      · exact .inl hnested
      · exact .inr (hthrown fun v hv => hfilled (parse_returned_iff.mp hv).2)
  · intro v h
    obtain ⟨item, hspaced, _, ⟨_, hvalue, _⟩, rfl⟩ := parse_reads h
    rw [nestedWithin_iff]
    refine (Item.depths hspaced hvalue.depths.1).2.2 (fun _ _ => Int.natCast_nonneg _) ?_
    exact Along.imp hvalue.depths.2 fun _ _ _ hle => hle.2

/-- Sixty-five nested arrays, the innermost of which is empty. -/
def nestedArrays : Bytes := List.replicate 65 openBracket ++ List.replicate 65 closeBracket

/-- They are accepted, though the limit is 64. -/
theorem empty_array_over_limit : ¬ ∀ (D : Type) (floats : Floats D) (input : Bytes),
    NestedWithin maxDepth input ∨ ∃ message, parse floats input = .thrown message := by
  intro hall
  let floats : Floats Unit :=
    { stod := fun _ => none, isFinite := fun _ => true, isNan := fun _ => false,
      signbit := fun _ => false, millionths := fun _ => 0 }
  have haccepted : (parse floats nestedArrays).andThen (fun _ => Outcome.returned ()) =
      .returned () := by decide +kernel
  rcases hall Unit floats nestedArrays with hnested | ⟨message, hmessage⟩
  · have hopen := hnested (List.replicate 65 openBracket) (List.prefix_append _ _)
    exact absurd hopen (by decide +kernel)
  · rw [hmessage] at haccepted
    cases haccepted

end RadixForge
