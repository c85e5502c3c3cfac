import Mathlib.Data.List.Dedup
import Mathlib.Data.List.Lex
import Mathlib.Data.List.MinMax
import Mathlib.Data.Prod.Lex
import RadixForge.Library.Lists
import RadixForge.Tree.Node

/-!
# Drafts from earlier tokens

The drafts of `scripts/spec_study/simulate.py`: an earlier place where the tokens ended as they do
now is continued. The request's own tokens are a source, and in two modes the tokens of earlier
requests are another one.
-/

namespace RadixForge.SpecStudy

open Library

/-- `MODES`. -/
inductive Mode where
  | localOnly
  | global
  | globalOutputsOnly
deriving DecidableEq

/-- The token streams of a record. -/
structure Record where
  promptTokens : List Token
  outputTokens : List Token

/-- `previous`: all past traffic as one stream. -/
def previousTokens (mode : Mode) (prior : List Record) : List Token :=
  prior.flatMap fun record =>
    if mode = .global then record.promptTokens ++ record.outputTokens else record.outputTokens

/-- `chunks_for_mode`. -/
def chunksForMode (mode : Mode) (prior : List Record) (prompt generated : List Token) :
    List (List Token) :=
  let localChunk := prompt ++ generated
  if mode = .localOnly then [localChunk] else [previousTokens mode prior, localChunk]

/-- A continuation that `candidates` finds. -/
structure Candidate where
  matched : ℕ
  priority : ℕ
  continuationLength : ℕ
  continuation : List Token
deriving DecidableEq

section Candidates

variable (chunks : List (List Token)) (context : List Token) (m maximum : ℕ)

/-- `tuple(context[-m:])`; `context[-0:]` is all of it. -/
def contextSuffix : List Token := context.drop (if m = 0 then 0 else context.length - m)

/-- `index`, in the order in which it is filled. -/
def index : List (List Token × ℕ × ℕ) :=
  chunks.zipIdx.flatMap fun entry =>
    (List.range (entry.1.length - m)).map fun position =>
      ((entry.1.drop position).take m, entry.2, position)

/-- The loop that extends a match to earlier tokens. -/
def extendBack (chunk : List Token) (position : ℕ) : ℕ → ℕ → ℕ
  | 0, before => before
  | rounds + 1, before =>
    if before < context.length - m ∧ before < position ∧
        chunk[position - before - 1]? = context[context.length - m - before - 1]? then
      extendBack chunk position rounds (before + 1)
    else before

/-- The candidate of a place. -/
def candidateAt (sourceIndex position : ℕ) : Option Candidate :=
  let chunk := chunks[sourceIndex]?.getD []
  let before := extendBack context m chunk position (context.length + 1) 0
  let continuation := (chunk.drop (position + m)).take maximum
  if continuation = [] then none
  else some ⟨m + before, if sourceIndex + 1 = chunks.length then 0 else 1,
    continuation.length, continuation⟩

/-- `candidates`. -/
def candidates : List Candidate :=
  if context.length < m then []
  else
    ((index chunks m).filter fun entry => entry.1 = contextSuffix context m).filterMap fun entry =>
      candidateAt chunks context m maximum entry.2.1 entry.2.2

end Candidates

/-- `choose_draft`. The keys of `alternatives` are distinct, so that `max` has no ties. -/
def chooseDraft (chunks : List (List Token)) (context : List Token) (m k : ℕ) : List Token :=
  let found := candidates chunks context m k
  match (found.map Candidate.matched).max? with
  | none => []
  | some bestMatch =>
    let found := found.filter fun item => item.matched = bestMatch
    let found := if found.any fun item => item.priority = 0 then found.filter fun item =>
      item.priority = 0 else found
    let alternatives := found.map Candidate.continuation
    (alternatives.dedup.argmax fun item => toLex (alternatives.count item, item)).getD []

section Proposal

variable (record : Record) (prior : List Record) (mode : Mode) (m k : ℕ) (adaptive : Bool)

/-- `current_k`. -/
def currentK (lastAccepted : ℕ) : ℕ := if adaptive then min 16 (max 1 (2 * lastAccepted + 1)) else k

/-- The draft for the next step. -/
def proposedDraft (generated : List Token) (lastAccepted : ℕ) : List Token :=
  chooseDraft (chunksForMode mode prior record.promptTokens generated)
    (record.promptTokens ++ generated) m
    (currentK k adaptive lastAccepted)

end Proposal

/-- A place in a source stream: the tokens before it and those after it. -/
structure Cut where
  own : Bool
  before : List Token
  after : List Token
deriving DecidableEq

/-- The places of the sources that a token follows; the last source is the stream of the request
itself. -/
def cuts (chunks : List (List Token)) : List Cut :=
  chunks.zipIdx.flatMap fun entry =>
    (List.range entry.1.length).map fun position =>
      ⟨entry.2 + 1 = chunks.length, entry.1.take position, entry.1.drop position⟩

/-- What `candidates` makes of a place. -/
def Cut.candidate (context : List Token) (maximum : ℕ) (cut : Cut) : Candidate :=
  ⟨endMatch cut.before context, if cut.own then 0 else 1, (cut.after.take maximum).length,
    cut.after.take maximum⟩

section Candidates

variable {chunks : List (List Token)} {chunk context : List Token} {m maximum position : ℕ}

/-- The loop extends a match as far as it goes. -/
theorem extendBack_eq (hm : 0 < m) (hposition : position + m ≤ chunk.length) (rounds : ℕ)
    {before : ℕ} (hbefore : m + before ≤ endMatch (chunk.take (position + m)) context)
    (hrounds : endMatch (chunk.take (position + m)) context ≤ m + before + rounds) :
    m + extendBack context m chunk position rounds before =
      endMatch (chunk.take (position + m)) context := by
  induction rounds generalizing before with
  | zero => exact hbefore.antisymm hrounds
  | succ rounds ih =>
    have hlength : (chunk.take (position + m)).length = position + m :=
      List.length_take_of_le hposition
    have hnext := lt_endMatch_iff hbefore
    rw [hlength, List.getElem?_take_of_lt (by omega), show position + m - (m + before) - 1 =
      position - before - 1 by
        omega, show context.length - (m + before) - 1 = context.length - m - before - 1 by
          omega] at hnext
    rw [extendBack]
    split
    · rename_i hcond
      exact ih (hnext.mpr ⟨by omega, by omega, hcond.2.2⟩) (by omega)
    · rename_i hcond
      refine hbefore.antisymm (not_lt.mp fun hlt => hcond ?_)
      obtain ⟨hchunk, hcontext, heq⟩ := hnext.mp hlt
      exact ⟨by omega, by omega, heq⟩

/-- The index finds the places where the source ends like the context. -/
theorem eq_contextSuffix_iff (hm : 0 < m) (hcontext : m ≤ context.length)
    (hposition : position + m ≤ chunk.length) :
    (chunk.drop position).take m = contextSuffix context m ↔
      m ≤ endMatch (chunk.take (position + m)) context := by
  have hlength : (chunk.take (position + m)).length = position + m :=
    List.length_take_of_le hposition
  rw [le_endMatch_iff, hlength, Nat.add_sub_cancel, List.drop_take, Nat.add_sub_cancel_left,
    contextSuffix, if_neg hm.ne']
  exact ⟨fun h => ⟨Nat.le_add_left m position, hcontext, h⟩, fun h => h.2.2⟩

/-- The candidate of a place where the source ends like the context. -/
theorem candidateAt_eq {i : ℕ} (hm : 0 < m) (hi : chunks[i]? = some chunk)
    (hposition : position + m < chunk.length) (hmaximum : 0 < maximum)
    (hmatch : m ≤ endMatch (chunk.take (position + m)) context) :
    candidateAt chunks context m maximum i position =
      some (Cut.candidate context maximum ⟨i + 1 = chunks.length, chunk.take (position + m),
        chunk.drop (position + m)⟩) := by
  have hne : (chunk.drop (position + m)).take maximum ≠ [] := by
    rw [Ne, List.take_eq_nil_iff, List.drop_eq_nil_iff]
    omega
  have hextend : m + extendBack context m chunk position (context.length + 1) 0 =
      endMatch (chunk.take (position + m)) context :=
    extendBack_eq hm hposition.le _ hmatch ((endMatch_le_right _ _).trans (by omega))
  simp only [candidateAt, hi, Option.getD_some, if_neg hne, hextend, Cut.candidate,
    decide_eq_true_eq]

/-- The places of one source. -/
theorem candidates_chunk {i : ℕ} (hm : 0 < m) (hmaximum : 0 < maximum)
    (hcontext : m ≤ context.length) (hi : chunks[i]? = some chunk) :
    ((((List.range (chunk.length - m)).map fun position =>
      ((chunk.drop position).take m, i, position)).filter
        fun entry => entry.1 = contextSuffix context m).filterMap
          fun entry => candidateAt chunks context m maximum entry.2.1 entry.2.2) =
      (((List.range chunk.length).map fun position =>
        Cut.mk (i + 1 = chunks.length) (chunk.take position) (chunk.drop position)).filter
          fun cut => m ≤ endMatch cut.before context).map (Cut.candidate context maximum) := by
  have hearly (n : ℕ) (hn : n ≤ m) : (((List.range n).map fun position =>
      Cut.mk (i + 1 = chunks.length) (chunk.take position) (chunk.drop position)).filter
        fun cut => m ≤ endMatch cut.before context) = [] := by
    refine List.filter_eq_nil_iff.mpr fun cut hcut hmatch => ?_
    obtain ⟨position, hposition, rfl⟩ := List.mem_map.mp hcut
    have hle := (of_decide_eq_true hmatch).trans (endMatch_le_left _ _)
    rw [List.length_take] at hle
    have := List.mem_range.mp hposition
    omega
  rcases le_total chunk.length m with hshort | hlong
  · rw [hearly _ hshort, Nat.sub_eq_zero_of_le hshort]
    rfl
  · obtain ⟨n, hn⟩ := Nat.exists_eq_add_of_le hlong
    rw [hn, Nat.add_sub_cancel_left, List.range_add, List.map_append, List.filter_append,
      hearly m le_rfl, List.nil_append, List.filter_map, List.filterMap_map, List.map_map,
      List.filter_map, List.map_map]
    have hplace (position : ℕ) (hposition : position ∈ List.range n) :
        position + m < chunk.length := by
      have := List.mem_range.mp hposition
      omega
    have hfilter : (List.range n).filter
        ((fun entry : List Token × ℕ × ℕ => decide (entry.1 = contextSuffix context m)) ∘
        fun position => ((chunk.drop position).take m, i, position)) =
        (List.range n).filter ((fun cut : Cut => decide (m ≤ endMatch cut.before context)) ∘
          (fun position => Cut.mk (i + 1 = chunks.length) (chunk.take position)
            (chunk.drop position)) ∘ (m + ·)) := by
      refine List.filter_congr fun position hposition => ?_
      simp only [Function.comp_apply, decide_eq_decide, Nat.add_comm m position]
      exact eq_contextSuffix_iff hm hcontext (hplace position hposition).le
    rw [hfilter]
    refine List.filterMap_eq_map_iff_forall_eq_some.mpr fun position hposition => ?_
    obtain ⟨hposition, hmatch⟩ := List.mem_filter.mp hposition
    simp only [Function.comp_apply, decide_eq_true_eq, Nat.add_comm m position] at hmatch ⊢
    exact candidateAt_eq hm hi (hplace position hposition) hmaximum hmatch

/-- `candidates` finds the places where a source ends like the context in `m` tokens at least, in
their order. -/
theorem candidates_eq (hm : 0 < m) (hmaximum : 0 < maximum) :
    candidates chunks context m maximum =
      ((cuts chunks).filter fun cut => m ≤ endMatch cut.before context).map
        (Cut.candidate context maximum) := by
  unfold candidates
  split
  · rename_i hshort
    rw [List.filter_eq_nil_iff.mpr, List.map_nil]
    intro cut _ hcut
    have := (of_decide_eq_true hcut).trans (endMatch_le_right _ _)
    omega
  · rename_i hlong
    rw [index, cuts, List.filter_flatMap, List.filterMap_flatMap, List.filter_flatMap,
      List.map_flatMap]
    refine List.flatMap_congr fun entry hentry => ?_
    exact candidates_chunk hm hmaximum (not_lt.mp hlong) (List.mem_zipIdx_iff_getElem?.mp hentry)

end Candidates

section Choice

/-- No other place ends further like the context, nor as far in the request's own stream if this one
is in another. -/
def Cut.Leads (chunks : List (List Token)) (context : List Token) (cut : Cut) : Prop :=
  ∀ other ∈ cuts chunks, endMatch other.before context ≤ endMatch cut.before context ∧
    (other.own = true → cut.own = false →
      endMatch other.before context < endMatch cut.before context)

instance (chunks : List (List Token)) (context : List Token) :
    DecidablePred (Cut.Leads chunks context) := fun cut =>
  inferInstanceAs (Decidable (∀ other ∈ cuts chunks, endMatch other.before context ≤
    endMatch cut.before context ∧
    (other.own = true → cut.own = false →
      endMatch other.before context < endMatch cut.before context)))

/-- The continuations of the places that lead. -/
def continuations (chunks : List (List Token)) (context : List Token) (k : ℕ) : List (List Token) :=
  ((cuts chunks).filter fun cut => cut.Leads chunks context).map fun cut => cut.after.take k

variable {chunks : List (List Token)} {context : List Token} {m k best : ℕ}

/-- What leads, by the furthest match. -/
theorem Cut.leads_iff (hbest : ∃ cut ∈ cuts chunks, endMatch cut.before context = best)
    (hle : ∀ cut ∈ cuts chunks, endMatch cut.before context ≤ best) {cut : Cut}
    (hcut : cut ∈ cuts chunks) :
    cut.Leads chunks context ↔ endMatch cut.before context = best ∧
      (cut.own = false → ∀ other ∈ cuts chunks, other.own = true →
        endMatch other.before context ≠ best) := by
  constructor
  · intro h
    obtain ⟨first, hfirst, rfl⟩ := hbest
    have heq := (hle cut hcut).antisymm (h first hfirst).1
    exact ⟨heq, fun hother other hmem hown => heq ▸ ((h other hmem).2 hown hother).ne⟩
  · rintro ⟨rfl, hown⟩ other hmem
    exact ⟨hle other hmem, fun hother hcutOwn =>
      (hle other hmem).lt_of_ne (hown hcutOwn other hmem hother)⟩

/-- The candidates that are left by the longest match and the preference for the request's own
stream. -/
theorem leading_candidates (hbest : ∃ cut ∈ cuts chunks, endMatch cut.before context = best)
    (hle : ∀ cut ∈ cuts chunks, endMatch cut.before context ≤ best) (hm : m ≤ best)
    {found : List Candidate}
    (hfound : found = (((cuts chunks).filter fun cut => m ≤ endMatch cut.before context).map
      (Cut.candidate context k)).filter fun item => item.matched = best) :
    (if found.any fun item => item.priority = 0 then found.filter fun item => item.priority =
      0 else found).map
      Candidate.continuation = continuations chunks context k := by
  have hlongest : found = ((cuts chunks).filter fun cut => endMatch cut.before context = best).map
      (Cut.candidate context k) := by
    rw [hfound, List.filter_map, List.filter_filter]
    refine congrArg _ (List.filter_congr fun cut _ => ?_)
    have hmatched : endMatch cut.before context = best →
        m ≤ endMatch cut.before context := fun h => h ▸ hm
    simpa [Cut.candidate] using hmatched
  have hpriority (cut : Cut) : (cut.candidate context k).priority = 0 ↔ cut.own = true := by
    cases hown : cut.own <;> simp [Cut.candidate, hown]
  have hany : (found.any fun item => item.priority = 0) = true ↔
      ∃ cut ∈ cuts chunks, endMatch cut.before context = best ∧ cut.own = true := by
    simp only [hlongest, List.any_map, List.any_eq_true, List.mem_filter, Function.comp_apply,
      decide_eq_true_eq, hpriority, and_assoc]
  rw [continuations]
  split
  · rename_i h
    obtain ⟨own, hmem, hown, hownBest⟩ := hany.mp h
    rw [hlongest, List.filter_map, List.map_map, List.filter_filter]
    refine congrArg _ (List.filter_congr fun cut hcut => ?_)
    rw [Bool.eq_iff_iff, Bool.and_eq_true, decide_eq_true_eq, decide_eq_true_eq,
      Function.comp_apply, decide_eq_true_eq, hpriority, Cut.leads_iff hbest hle hcut]
    constructor
    · rintro ⟨hcutOwn, heq⟩
      exact ⟨heq, fun hnot => absurd hcutOwn (by simp [hnot])⟩
    · rintro ⟨heq, hprefer⟩
      -- the request's own stream is as far, so it is preferred
      exact ⟨by_contra fun hnot => hprefer (by simpa using hnot) own hmem hownBest hown, heq⟩
  · rename_i h
    rw [hlongest, List.map_map]
    refine congrArg _ (List.filter_congr fun cut hcut => ?_)
    rw [decide_eq_decide, Cut.leads_iff hbest hle hcut]
    exact (and_iff_left fun _ other hmem hown hother =>
      h (hany.mpr ⟨other, hmem, hother, hown⟩)).symm

/-- The draft is a most frequent continuation of the places that lead. -/
theorem chooseDraft_eq (hm : 0 < m) (hk : 0 < k) :
    chooseDraft chunks context m k =
      if ∃ cut ∈ cuts chunks, m ≤ endMatch cut.before context then
        ((continuations chunks context k).dedup.argmax fun item =>
          toLex ((continuations chunks context k).count item, item)).getD []
      else [] := by
  simp only [chooseDraft, candidates_eq hm hk]
  cases hmax :
    ((((cuts chunks).filter fun cut => m ≤ endMatch cut.before context).map
      (Cut.candidate context k)).map
      Candidate.matched).max? with
  | none =>
    rw [List.max?_eq_none_iff, List.map_eq_nil_iff, List.map_eq_nil_iff,
      List.filter_eq_nil_iff] at hmax
    rw [if_neg]
    rintro ⟨cut, hcut, hmatch⟩
    exact hmax cut hcut (decide_eq_true hmatch)
  | some best =>
    obtain ⟨hmem, hall⟩ := List.max?_eq_some_iff.mp hmax
    simp only [List.map_map, List.mem_map, List.mem_filter, Function.comp_apply, Cut.candidate,
      decide_eq_true_eq] at hmem hall
    obtain ⟨cut, ⟨hcut, hmatch⟩, rfl⟩ := hmem
    have hle : ∀ other ∈ cuts chunks, endMatch other.before context ≤
        endMatch cut.before context := by
      intro other hother
      by_cases hfar : m ≤ endMatch other.before context
      · exact hall _ ⟨other, ⟨hother, hfar⟩, rfl⟩
      · exact (not_le.mp hfar).le.trans hmatch
    rw [if_pos ⟨cut, hcut, hmatch⟩]
    simp only [leading_candidates ⟨cut, hcut, rfl⟩ hle hmatch rfl]

/-- Some place leads. -/
theorem exists_leads (context : List Token) {cut : Cut} (hcut : cut ∈ cuts chunks) :
    ∃ first ∈ cuts chunks, first.Leads chunks context ∧
      endMatch cut.before context ≤ endMatch first.before context := by
  cases hfirst : (cuts chunks).argmax fun cut => toLex (endMatch cut.before context, cut.own) with
  | none =>
    rw [List.argmax_eq_none] at hfirst
    exact absurd hcut (hfirst ▸ List.not_mem_nil)
  | some first =>
    have hle (other : Cut) (hother : other ∈ cuts chunks) :
        endMatch other.before context < endMatch first.before context ∨
        endMatch other.before context = endMatch first.before context ∧ other.own ≤ first.own :=
      Prod.Lex.toLex_le_toLex.mp (List.le_of_mem_argmax hother hfirst)
    have hnearer (other : Cut) (hother : other ∈ cuts chunks) :
        endMatch other.before context ≤ endMatch first.before context :=
      (hle other hother).elim le_of_lt fun h => h.1.le
    refine ⟨first, List.argmax_mem hfirst,
      fun other hother => ⟨hnearer other hother, fun hown hfirstOwn => ?_⟩, hnearer cut hcut⟩
    refine (hle other hother).resolve_right fun h => ?_
    rw [hown, hfirstOwn] at h
    exact absurd h.2 (by decide)

/-- A token stands behind a place. -/
theorem after_ne_nil {cut : Cut} (hcut : cut ∈ cuts chunks) : cut.after ≠ [] := by
  obtain ⟨entry, _, hcut⟩ := List.mem_flatMap.mp hcut
  obtain ⟨position, hposition, rfl⟩ := List.mem_map.mp hcut
  rw [Ne, List.drop_eq_nil_iff, not_le]
  exact List.mem_range.mp hposition

/-- No candidate is longer than the limit. -/
theorem length_continuation {maximum : ℕ} {item : Candidate}
    (hitem : item ∈ candidates chunks context m maximum) :
    item.continuation.length ≤ maximum := by
  unfold candidates at hitem
  split at hitem
  · exact absurd hitem List.not_mem_nil
  · obtain ⟨entry, _, hcandidate⟩ := List.mem_filterMap.mp hitem
    rw [candidateAt] at hcandidate
    split at hcandidate
    · cases hcandidate
    · cases hcandidate
      exact List.length_take_le _ _

/-- Nor is the one that is chosen. -/
theorem length_chosen {found : List Candidate}
    (hfound : ∀ item ∈ found, item.continuation.length ≤ k) :
    (((found.map Candidate.continuation).dedup.argmax fun item =>
      toLex ((found.map Candidate.continuation).count item, item)).getD []).length ≤ k := by
  cases hdraft : (found.map Candidate.continuation).dedup.argmax fun item =>
      toLex ((found.map Candidate.continuation).count item, item) with
  | none => exact Nat.zero_le k
  | some draft =>
    obtain ⟨item, hitem, rfl⟩ := List.mem_map.mp (List.mem_dedup.mp (List.argmax_mem hdraft))
    exact hfound item hitem

/-- No draft is longer than the limit. -/
theorem length_chooseDraft (chunks : List (List Token)) (context : List Token) (m k : ℕ) :
    (chooseDraft chunks context m k).length ≤ k := by
  have hle : ∀ item ∈ candidates chunks context m k, item.continuation.length ≤ k :=
    fun _ => length_continuation
  simp only [chooseDraft]
  split
  · exact Nat.zero_le k
  · refine length_chosen fun item hitem => hle item ?_
    split_ifs at hitem
    · exact (List.mem_filter.mp (List.mem_filter.mp hitem).1).1
    · exact (List.mem_filter.mp hitem).1

/-- The draft where some place matches. -/
theorem chooseDraft_of_match (hm : 0 < m) (hk : 0 < k) {cut : Cut} (hcut : cut ∈ cuts chunks)
    (hmatch : m ≤ endMatch cut.before context) :
    chooseDraft chunks context m k ≠ [] ∧
      (∃ cut ∈ cuts chunks, cut.Leads chunks context ∧ m ≤ endMatch cut.before context ∧
        cut.after.take k = chooseDraft chunks context m k) ∧
      ∀ rival, toLex ((continuations chunks context k).count rival, rival) ≤
        toLex ((continuations chunks context k).count (chooseDraft chunks context m k),
          chooseDraft chunks context m k) := by
  obtain ⟨first, hfirst, hleads, hnearer⟩ := exists_leads context hcut
  have hmem : first.after.take k ∈ continuations chunks context k :=
    List.mem_map.mpr ⟨first, List.mem_filter.mpr ⟨hfirst, decide_eq_true hleads⟩, rfl⟩
  rw [chooseDraft_eq hm hk, if_pos ⟨cut, hcut, hmatch⟩]
  cases hdraft : (continuations chunks context k).dedup.argmax fun item =>
      toLex ((continuations chunks context k).count item, item) with
  | none =>
    rw [List.argmax_eq_none] at hdraft
    exact absurd (List.mem_dedup.mpr hmem) (hdraft ▸ List.not_mem_nil)
  | some draft =>
    have hin := List.mem_dedup.mp (List.argmax_mem hdraft)
    obtain ⟨source, hsource, htake⟩ := List.mem_map.mp hin
    obtain ⟨hsource, hsourceLeads⟩ := List.mem_filter.mp hsource
    have hsourceLeads : source.Leads chunks context := of_decide_eq_true hsourceLeads
    rw [Option.getD_some]
    refine ⟨?_, ⟨source, hsource, hsourceLeads,
      hmatch.trans (hnearer.trans (hsourceLeads first hfirst).1), htake⟩, fun rival => ?_⟩
    · rw [← htake, Ne, List.take_eq_nil_iff]
      exact not_or.mpr ⟨hk.ne', after_ne_nil hsource⟩
    · by_cases hrival : rival ∈ continuations chunks context k
      · have hall := (List.argmax_eq_some_iff.mp hdraft).2.1
        exact hall rival (List.mem_dedup.mpr hrival)
      · rw [Prod.Lex.toLex_le_toLex, List.count_eq_zero.mpr hrival]
        exact Or.inl (List.count_pos_iff.mpr hin)

end Choice

/-- There is a draft exactly if some place in the sources, with a token behind it, ends in the last
`m` tokens of the context. It continues a place that ends like the context as far as any does, in
the request's own stream if one of those is there, and among these it is the continuation that
stands at most places, of equally many the largest. -/
theorem draft_best (chunks : List (List Token)) (context : List Token) (m k : ℕ) (hm : 0 < m)
    (hk : 0 < k) :
    (chooseDraft chunks context m k = [] ↔ ∀ cut ∈ cuts chunks, endMatch cut.before context < m) ∧
      (chooseDraft chunks context m k ≠ [] →
        (∃ cut ∈ cuts chunks, cut.Leads chunks context ∧ m ≤ endMatch cut.before context ∧
          cut.after.take k = chooseDraft chunks context m k) ∧
        ∀ rival, toLex ((continuations chunks context k).count rival, rival) ≤
          toLex ((continuations chunks context k).count (chooseDraft chunks context m k),
            chooseDraft chunks context m k)) := by
  by_cases hany : ∃ cut ∈ cuts chunks, m ≤ endMatch cut.before context
  · obtain ⟨cut, hcut, hmatch⟩ := hany
    obtain ⟨hdraft, hbest⟩ := chooseDraft_of_match hm hk hcut hmatch
    exact ⟨iff_of_false hdraft fun h => absurd (h cut hcut) (not_lt.mpr hmatch), fun _ => hbest⟩
  · have hnone : chooseDraft chunks context m k = [] := by
      rw [chooseDraft_eq hm hk, if_neg hany]
    refine ⟨iff_of_true hnone fun cut hcut => not_le.mp fun hmatch => hany ⟨cut, hcut, hmatch⟩,
      fun h => absurd hnone h⟩

/-- Other requests ended the same way, but the request's own stream did as far, too. -/
theorem draft_best_own : ∃ cut ∈ cuts [[1, 2, 3, 1, 2, 3], [1, 2, 4, 1, 2]],
    cut.Leads [[1, 2, 3, 1, 2, 3], [1, 2, 4, 1, 2]] [1, 2, 4, 1, 2] ∧
    2 ≤ endMatch cut.before [1, 2, 4, 1, 2] ∧
      cut.after.take 1 = [4] := by
  have hdraft : chooseDraft [[1, 2, 3, 1, 2, 3], [1, 2, 4, 1, 2]] [1, 2, 4, 1, 2] 2 1 = [4] := by
    decide +kernel
  have hbest :=
    (draft_best [[1, 2, 3, 1, 2, 3], [1, 2, 4, 1, 2]] [1, 2, 4, 1, 2] 2 1 (by decide) (by decide)).2
  rw [hdraft] at hbest
  exact (hbest (by decide)).1

section Modes

variable {previous own context : List Token} {m k : ℕ}

/-- A place of another stream. -/
def Cut.foreign (cut : Cut) : Cut := { cut with own := false }

/-- The places of two streams. -/
theorem cuts_pair (previous own : List Token) :
    cuts [previous, own] = (cuts [previous]).map Cut.foreign ++ cuts [own] := by
  simp [cuts, List.zipIdx, List.map_map, Function.comp_def, Cut.foreign]

/-- The places of a single stream are its own. -/
theorem own_of_single {cut : Cut} (hcut : cut ∈ cuts [own]) : cut.own = true := by
  obtain ⟨entry, hentry, hcut⟩ := List.mem_flatMap.mp hcut
  obtain ⟨position, _, rfl⟩ := List.mem_map.mp hcut
  cases List.mem_singleton.mp hentry
  rfl

/-- What leads in a single stream. -/
theorem Cut.leads_single {cut : Cut} (hcut : cut ∈ cuts [own]) :
    cut.Leads [own] context ↔
      ∀ other ∈ cuts [own], endMatch other.before context ≤ endMatch cut.before context := by
  refine forall₂_congr fun other _ => and_iff_left fun _ hfalse => ?_
  rw [own_of_single hcut] at hfalse
  cases hfalse

/-- What leads in two streams, of the other one. -/
theorem Cut.leads_foreign {cut : Cut} :
    cut.foreign.Leads [previous, own] context ↔
      (∀ other ∈ cuts [previous], endMatch other.before context ≤ endMatch cut.before context) ∧
        ∀ other ∈ cuts [own], endMatch other.before context < endMatch cut.before context := by
  simp only [Leads, cuts_pair, List.forall_mem_append, List.forall_mem_map]
  refine and_congr (forall₂_congr fun other _ => and_iff_left fun hown => ?_)
    (forall₂_congr fun other hother => ?_)
  · cases hown
  · exact ⟨fun h => h.2 (own_of_single hother) rfl, fun h => ⟨h.le, fun _ _ => h⟩⟩

/-- What leads in two streams, of the request's own. -/
theorem Cut.leads_own {cut : Cut} (hcut : cut ∈ cuts [own]) :
    cut.Leads [previous, own] context ↔
      (∀ other ∈ cuts [previous], endMatch other.before context ≤ endMatch cut.before context) ∧
        ∀ other ∈ cuts [own], endMatch other.before context ≤ endMatch cut.before context := by
  have hown := own_of_single hcut
  simp only [Leads, cuts_pair, List.forall_mem_append, List.forall_mem_map]
  refine and_congr (forall₂_congr fun other _ => and_iff_left fun _ hfalse => ?_)
    (forall₂_congr fun other _ => and_iff_left fun _ hfalse => ?_) <;>
  · rw [hown] at hfalse
    cases hfalse

/-- The other stream leads. -/
theorem continuations_foreign (h : ∃ cut ∈ cuts [previous], ∀ other ∈ cuts [own],
    endMatch other.before context < endMatch cut.before context) :
    continuations [previous, own] context k = continuations [previous] context k := by
  obtain ⟨best, hbest, hfar⟩ := h
  have hnone : (cuts [own]).filter (fun cut => cut.Leads [previous, own] context) = [] := by
    refine List.filter_eq_nil_iff.mpr fun cut hcut hleads => ?_
    exact absurd (hfar cut hcut)
      (not_lt.mpr (((Cut.leads_own hcut).mp (of_decide_eq_true hleads)).1 best hbest))
  rw [continuations, cuts_pair, List.filter_append, hnone, List.append_nil, List.filter_map,
    List.map_map, continuations]
  refine congrArg _ (List.filter_congr fun cut hcut => ?_)
  rw [Function.comp_apply, decide_eq_decide, Cut.leads_foreign, Cut.leads_single hcut]
  exact and_iff_left_of_imp fun hle other hother => (hfar other hother).trans_le (hle best hbest)

/-- The request's own stream leads. -/
theorem continuations_own (h : ∃ cut ∈ cuts [own], ∀ other ∈ cuts [previous],
    endMatch other.before context ≤ endMatch cut.before context) :
    continuations [previous, own] context k = continuations [own] context k := by
  obtain ⟨best, hbest, hfar⟩ := h
  have hnone : ((cuts [previous]).map Cut.foreign).filter
      (fun cut => cut.Leads [previous, own] context) = [] := by
    refine List.filter_eq_nil_iff.mpr fun cut hcut hleads => ?_
    obtain ⟨place, hplace, rfl⟩ := List.mem_map.mp hcut
    exact absurd ((Cut.leads_foreign.mp (of_decide_eq_true hleads)).2 best hbest)
      (not_lt.mpr (hfar place hplace))
  rw [continuations, cuts_pair, List.filter_append, hnone, List.nil_append, continuations]
  refine congrArg _ (List.filter_congr fun cut hcut => ?_)
  rw [decide_eq_decide, Cut.leads_own hcut, Cut.leads_single hcut]
  exact and_iff_right_of_imp fun hle other hother => (hfar other hother).trans (hle best hbest)

/-- With earlier traffic, the draft is that of the stream which ends further like the context; the
request's own one wins a tie. -/
theorem chooseDraft_pair (hm : 0 < m) (hk : 0 < k) :
    chooseDraft [previous, own] context m k =
      if ∃ cut ∈ cuts [previous], m ≤ endMatch cut.before context ∧
          ∀ other ∈ cuts [own], endMatch other.before context < endMatch cut.before context then
        chooseDraft [previous] context m k
      else chooseDraft [own] context m k := by
  have hany : (∃ cut ∈ cuts [previous, own], m ≤ endMatch cut.before context) ↔
      (∃ cut ∈ cuts [previous], m ≤ endMatch cut.before context) ∨
      ∃ cut ∈ cuts [own], m ≤ endMatch cut.before context := by
    simp [cuts_pair, Cut.foreign, or_and_right, exists_or]
  split
  · rename_i h
    obtain ⟨cut, hcut, hmatch, hfar⟩ := h
    rw [chooseDraft_eq hm hk, chooseDraft_eq hm hk, if_pos (hany.mpr (.inl ⟨cut, hcut, hmatch⟩)),
      if_pos ⟨cut, hcut, hmatch⟩, continuations_foreign ⟨cut, hcut, hfar⟩]
  · rename_i h
    push Not at h
    have hown : (∃ cut ∈ cuts [previous, own], m ≤ endMatch cut.before context) ↔
        ∃ cut ∈ cuts [own], m ≤ endMatch cut.before context := by
      refine hany.trans (or_iff_right_of_imp ?_)
      rintro ⟨cut, hcut, hmatch⟩
      obtain ⟨other, hother, hle⟩ := h cut hcut hmatch
      exact ⟨other, hother, hmatch.trans hle⟩
    rw [chooseDraft_eq hm hk, chooseDraft_eq hm hk]
    refine if_ctx_congr hown (fun hmatches => ?_) fun _ => rfl
    obtain ⟨cut, hcut, hmatch⟩ := hmatches
    obtain ⟨first, hfirst, hleads, hnearer⟩ := exists_leads context hcut
    rw [continuations_own ⟨first, hfirst, fun other hother => ?_⟩]
    by_cases hfar : m ≤ endMatch other.before context
    · obtain ⟨rival, hrival, hle⟩ := h other hother hfar
      exact hle.trans (hleads rival hrival).1
    · exact (not_le.mp hfar).le.trans (hmatch.trans hnearer)

end Modes

/-- Past traffic changes a draft only where it ends strictly further like the context than the
request's own stream does anywhere; then the draft is that of the past traffic alone, and otherwise
that of the request alone. -/
theorem shared_draft (record : Record) (prior : List Record) (mode : Mode) (m k : ℕ)
    (adaptive : Bool) (generated : List Token) (lastAccepted : ℕ) (hmode : mode ≠ .localOnly)
    (hm : 0 < m) (hk : adaptive = true ∨ 0 < k) :
    proposedDraft record prior mode m k adaptive generated lastAccepted =
      if ∃ cut ∈ cuts [previousTokens mode prior],
      m ≤ endMatch cut.before (record.promptTokens ++ generated) ∧
          ∀ other ∈ cuts [record.promptTokens ++ generated], endMatch other.before
            (record.promptTokens ++ generated) <
            endMatch cut.before (record.promptTokens ++ generated) then
        chooseDraft [previousTokens mode prior] (record.promptTokens ++ generated) m
          (currentK k adaptive lastAccepted)
      else proposedDraft record prior .localOnly m k adaptive generated lastAccepted := by
  have hcurrent : 0 < currentK k adaptive lastAccepted := by
    rw [currentK]
    split
    · omega
    · rename_i hfixed
      exact hk.resolve_left hfixed
  simp only [proposedDraft, chunksForMode, if_neg hmode, if_true]
  exact chooseDraft_pair hm hcurrent

/-- An earlier request is followed, as it ended in more tokens the same way. -/
theorem shared_draft_follows :
    proposedDraft ⟨[1, 2, 4, 7, 1, 2], [9]⟩ [⟨[7, 1, 2, 3], [5]⟩] .global 2 2 false [] 0 = [3, 5] ∧
      proposedDraft ⟨[1, 2, 4, 7, 1, 2], [9]⟩ [⟨[7, 1, 2, 3], [5]⟩] .localOnly 2 2 false [] 0 =
        [4, 7] := by
  have hshared := shared_draft ⟨[1, 2, 4, 7, 1, 2], [9]⟩ [⟨[7, 1, 2, 3], [5]⟩] .global 2 2
    false [] 0 (by decide)
    (by decide) (.inr (by decide))
  rw [if_pos (by decide +kernel)] at hshared
  exact ⟨hshared.trans (by decide +kernel), by decide +kernel⟩

end RadixForge.SpecStudy
