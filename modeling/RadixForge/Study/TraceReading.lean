import RadixForge.Library.Lists
import RadixForge.Study.TraceRows

/-!
# Reading a trace back

What `load` reads from the files of `moe_trace` are the experts that llama.cpp selected: those of a
token in a layer are the first ids of the last tensor of the layer that was shown while the token
was decoded at its position. The tokens of the prompt and all generated tokens were decoded but the
one that reached `max_tokens`. It reads the files exactly if the text in them can be read.
-/

namespace RadixForge.MoeStudy

open Library

section Captures

variable {k : ℕ}

/-- The first ids of a list. -/
theorem mapM_range_getElem {ids : List ℤ} {row : Bytes}
    (h : (List.range k).mapM (fun j => ids[j]?.map toByte) = some row) :
    row = (ids.take k).map toByte ∧ row.length = k := by
  have hall := mapM_eq_some_iff.mp h
  have hlength : row.length = k := by rw [← hall.length_eq, List.length_range]
  have hget (j : ℕ) (hj : j < k) : ids[j]?.map toByte = row[j]? := by
    have hrow : j < row.length := by rwa [hlength]
    have hvalue := hall.get (by rwa [List.length_range]) hrow
    rw [List.getElem?_eq_getElem hrow, ← List.get_eq_getElem (i := ⟨j, hrow⟩), ← hvalue]
    simp
  refine ⟨List.ext_getElem? fun j => ?_, hlength⟩
  by_cases hj : j < k
  · rw [List.getElem?_map, List.getElem?_take_of_lt hj, hget j hj]
  · rw [List.getElem?_eq_none (by omega),
      List.getElem?_eq_none (by rw [List.length_map, List.length_take]; omega)]

/-- The experts of the first token of a tensor are its first ids. -/
theorem slice_selected {t : Tensor} {row experts : Bytes} (h : t.selected k = some row)
    (hslice : slice (0 * k) k row = some experts) :
    experts = (t.ids.take k).map toByte ∧ experts.length = k := by
  rw [Nat.zero_mul] at hslice
  obtain ⟨hlong, hexperts⟩ := Option.ite_none_right_eq_some.mp hslice
  cases hexperts
  rw [List.drop_zero]
  unfold Tensor.selected at h
  obtain ⟨rows, hrows, rfl⟩ := Option.map_eq_some_iff.mp h
  cases hn : t.nTokens with
  | zero =>
    rw [hn] at hrows
    cases hrows
    obtain rfl : k = 0 := by simpa using hlong
    exact ⟨rfl, rfl⟩
  | succ n =>
    rw [hn, List.range_succ_eq_map, mapM_eq_some_iff, List.forall₂_cons_left_iff] at hrows
    obtain ⟨first, rest, hfirst, _, rfl⟩ := hrows
    simp only [Nat.zero_mul, Nat.zero_add] at hfirst
    obtain ⟨heq, hlength⟩ := mapM_range_getElem hfirst
    have htake : (first :: rest).flatten.take k = first := by
      rw [List.flatten_cons, ← hlength, List.take_left]
    rw [htake]
    exact ⟨heq, hlength⟩

/-- The last tensor of a layer. -/
def lastOf (tensors : List Tensor) (layer : ℤ) : Option Tensor :=
  (tensors.filter fun t => t.layer? = some layer).getLast?

/-- The last tensor of a layer is looked for in the rest first. -/
theorem lastOf_cons (t : Tensor) (tensors : List Tensor) (layer : ℤ) :
    lastOf (t :: tensors) layer =
      (lastOf tensors layer).or (if t.layer? = some layer then some t else none) := by
  unfold lastOf
  by_cases h : t.layer? = some layer
  · rw [List.filter_cons_of_pos (by simpa using h), List.getLast?_cons, if_pos h]
    cases (tensors.filter fun t => t.layer? = some layer).getLast? <;> rfl
  · rw [List.filter_cons_of_neg (by simpa using h), if_neg h, Option.or_none]

/-- A capture keeps for each layer what was selected in the last tensor. -/
theorem foldlM_onTensor {tensors : List Tensor} {cap cap' : Capture}
    (h : tensors.foldlM onTensor cap = some cap') :
    cap'.k = cap.k ∧ ∀ layer row, lookup layer cap'.byLayer = some row →
      (∃ t ∈ lastOf tensors layer, t.selected cap.k = some row) ∨
        lastOf tensors layer = none ∧ lookup layer cap.byLayer = some row := by
  induction tensors generalizing cap with
  | nil =>
    cases h
    exact ⟨rfl, fun layer row hrow => .inr ⟨rfl, hrow⟩⟩
  | cons t tensors ih =>
    rw [List.foldlM_cons] at h
    obtain ⟨cap₁, hfirst, hrest⟩ := Option.bind_eq_some_iff.mp h
    obtain ⟨hk, hrows⟩ := ih hrest
    have hstep : cap₁.k = cap.k ∧ ∀ layer row, lookup layer cap₁.byLayer = some row →
        t.layer? = some layer ∧ t.selected cap.k = some row ∨ t.layer? ≠ some layer ∧
        lookup layer cap.byLayer = some row := by
      unfold onTensor at hfirst
      split at hfirst
      · rename_i hnone
        cases hfirst
        exact ⟨rfl, fun layer row hrow => .inr ⟨by simp [hnone], hrow⟩⟩
      · rename_i layer hlayer
        split at hfirst
        · cases hfirst
        · obtain ⟨selected, hselected, rfl⟩ := Option.map_eq_some_iff.mp hfirst
          refine ⟨rfl, fun other row hrow => ?_⟩
          rw [lookup_assign] at hrow
          split at hrow
          · rename_i hsame
            cases hrow
            exact .inl ⟨hlayer.trans (congrArg some hsame), hselected⟩
          · rename_i hother
            exact .inr ⟨fun h => hother (Option.some.inj (hlayer.symm.trans h)), hrow⟩
    refine ⟨hk.trans hstep.1, fun layer row hrow => ?_⟩
    rw [lastOf_cons]
    rcases hrows layer row hrow with ⟨last, hlast, hselected⟩ | ⟨hnone, hbefore⟩
    · refine .inl ⟨last, ?_, hstep.1 ▸ hselected⟩
      rw [Option.mem_def.mp hlast]
      rfl
    · rw [hnone, Option.none_or]
      rcases hstep.2 layer row hbefore with ⟨hlayer, hselected⟩ | ⟨hother, hold⟩
      · exact .inl ⟨t, if_pos hlayer, hselected⟩
      · exact .inr ⟨if_neg hother, hold⟩

end Captures

section Routes

variable {σ : Type} {e : Engine σ} {k ctxSize : ℕ} {s s' : Tracer σ} {fed : List Int32}
  {kept kept' : List (List Bytes)}

/-- The rows are the experts that were selected while a token was decoded at its position: for each
layer the first ids of the last tensor of the layer that was shown then. -/
def Routed (e : Engine σ) (k : ℕ) (moeLayers : List ℤ) (token : Int32) (pos : ℕ)
    (rows : List Bytes) : Prop :=
  ∃ engine shown, e.decode engine [token] pos = some shown ∧
    List.Forall₂ (fun layer row => row.length = k ∧
      ∃ t ∈ lastOf shown.2 layer, row = (t.ids.take k).map toByte) moeLayers rows

/-- The layers are known once, and stay the same. -/
structure Tracer.Keeps (s s' : Tracer σ) : Prop where
  width : s'.cap.k = s.cap.k
  moeLayers : s.moeLayers ≠ [] → s'.moeLayers = s.moeLayers

/-- A tracer that stays keeps what it has. -/
theorem Tracer.Keeps.refl (s : Tracer σ) : s.Keeps s := ⟨rfl, fun _ => rfl⟩

/-- What is kept twice is kept. -/
theorem Tracer.Keeps.trans {s₁ : Tracer σ} (h : s.Keeps s₁) (h' : s₁.Keeps s') : s.Keeps s' :=
  ⟨h'.width.trans h.width,
    fun hknown => (h'.moeLayers (h.moeLayers hknown ▸ hknown)).trans (h.moeLayers hknown)⟩

/-- A decode of one token. -/
theorem decode_routes {token : Int32} {pos : ℕ}
    (h : decode e s [token] pos kept = some (s', kept')) :
    s.Keeps s' ∧ s'.moeLayers ≠ [] ∧ ∃ rows, kept' = kept ++ [rows] ∧
      Routed e s.cap.k s'.moeLayers token pos rows := by
  unfold decode at h
  obtain ⟨shown, hshown, hrest⟩ := Option.bind_eq_some_iff.mp h
  obtain ⟨cap, hcap, hrest⟩ := Option.bind_eq_some_iff.mp hrest
  obtain ⟨hk, hlast⟩ := foldlM_onTensor hcap
  split at hrest
  · cases hrest
  · rename_i hcaptured
    split at hrest
    · cases hrest
    · obtain ⟨parts, hparts, hpair⟩ := Option.map_eq_some_iff.mp hrest
      cases hpair
      rw [List.length_singleton, List.range_one, mapM_eq_some_iff,
        List.forall₂_cons_left_iff] at hparts
      obtain ⟨rows, none', hrows, hnone, rfl⟩ := hparts
      rw [List.forall₂_nil_left_iff] at hnone
      subst hnone
      have hlayers : cap.byLayer ≠ [] := fun hnone => hcaptured (.inr hnone)
      refine ⟨⟨hk, fun hknown => if_neg hknown⟩, ?_, rows, rfl, s.engine, shown, hshown, ?_⟩
      · dsimp only
        split
        · exact fun hnone => hlayers (List.map_eq_nil_iff.mp hnone)
        · assumption
      · refine (mapM_eq_some_iff.mp hrows).imp fun layer row hrow => ?_
        obtain ⟨full, hfull, hslice⟩ := Option.bind_eq_some_iff.mp hrow
        rcases hlast layer full hfull with ⟨t, ht, hselected⟩ | ⟨_, hbefore⟩
        · have hk' : cap.k = s.cap.k := hk
          rw [hk'] at hslice
          obtain ⟨hids, hlength⟩ := slice_selected hselected hslice
          exact ⟨hlength, t, ht, hids⟩
        · cases hbefore

/-- The trace has the experts of the tokens that were decoded so far. -/
structure Follows (e : Engine σ) (k : ℕ) (s : Tracer σ) (fed : List Int32)
    (kept : List (List Bytes)) : Prop where
  width : s.cap.k = k
  known : kept ≠ [] → s.moeLayers ≠ []
  length : kept.length = fed.length
  routed : ∀ (i : ℕ) rows, kept[i]? = some rows →
    ∃ token ∈ fed[i]?, Routed e k s.moeLayers token i rows

/-- Nothing was decoded yet. -/
theorem Follows.start (hk : s.cap.k = k) (engine : σ) :
    Follows e k { s with engine := engine } [] [] :=
  ⟨hk, fun h => absurd rfl h, rfl, fun _ _ h => by cases h⟩

/-- Another token was decoded. -/
theorem Follows.decode (h : Follows e k s fed kept) {token : Int32}
    (hstep : decode e s [token] fed.length kept = some (s', kept')) :
    Follows e k s' (fed ++ [token]) kept' ∧ s.Keeps s' := by
  obtain ⟨hkeeps, hknown, rows, rfl, hrouted⟩ := decode_routes hstep
  refine ⟨⟨hkeeps.width.trans h.width, fun _ => hknown, by simp [h.length],
    fun i rows' hrows => ?_⟩, hkeeps⟩
  rcases Nat.lt_trichotomy i kept.length with hlt | rfl | hgt
  · rw [List.getElem?_append_left hlt] at hrows
    obtain ⟨token', htoken, hold⟩ := h.routed i rows' hrows
    have hne : s.moeLayers ≠ [] := h.known (List.ne_nil_of_length_pos (by omega))
    rw [hkeeps.moeLayers hne, List.getElem?_append_left (by rw [← h.length]; exact hlt)]
    exact ⟨token', htoken, hold⟩
  · rw [List.getElem?_append_right le_rfl, Nat.sub_self] at hrows
    cases hrows
    refine ⟨token, ?_, h.length ▸ h.width ▸ hrouted⟩
    rw [h.length, List.getElem?_append_right le_rfl, Nat.sub_self]
    rfl
  · rw [List.getElem?_eq_none (by rw [List.length_append, List.length_singleton]; omega)] at hrows
    cases hrows

/-- The loop over the prompt. -/
theorem Follows.prefill {rest : List Int32} (h : Follows e k s fed kept)
    (hrun : prefill e s rest fed.length kept = some (s', kept')) :
    Follows e k s' (fed ++ rest) kept' ∧ s.Keeps s' := by
  induction rest generalizing s fed kept with
  | nil =>
    cases hrun
    rw [List.append_nil]
    exact ⟨h, .refl _⟩
  | cons token rest ih =>
    obtain ⟨⟨s₁, kept₁⟩, hstep, hrest⟩ := Option.bind_eq_some_iff.mp hrun
    obtain ⟨h₁, hkeeps⟩ := h.decode hstep
    rw [show fed.length + 1 = (fed ++ [token]).length by simp] at hrest
    obtain ⟨h', hkeeps'⟩ := ih h₁ hrest
    rw [List.append_assoc, List.singleton_append] at h'
    exact ⟨h', hkeeps.trans hkeeps'⟩

/-- The tokens that are decoded of those that are generated. -/
def fedBack (left : ℕ) (generated : List Int32) : List Int32 :=
  if generated.length = left then generated.dropLast else generated

/-- A token that was sampled and does not end the generation. -/
def Engine.Samples (e : Engine σ) (token : Int32) : Prop :=
  e.isEog token = false ∧ ∃ engine, (e.sample engine).2 = token

/-- The loop of the generation. -/
theorem Follows.generate {left : ℕ} {g g' : Generation σ} (h : Follows e k g.tracer fed g.trace)
    (hrun : generate e left fed.length g = some g') :
    ∃ new, g'.generated = g.generated ++ new ∧ g'.text = g.text ++ new.flatMap e.piece ∧
      new.length ≤ left ∧
      (∀ token ∈ new, e.Samples token) ∧ Follows e k g'.tracer (fed ++ fedBack left new) g'.trace ∧
        g.tracer.Keeps g'.tracer := by
  induction left generalizing g fed with
  | zero =>
    cases hrun
    exact ⟨[], by simp, by simp, le_rfl, by simp, by simpa [fedBack] using h, .refl _⟩
  | succ left ih =>
    have hsampled : Follows e k
        { g.tracer with engine := (e.sample g.tracer.engine).1 } fed g.trace :=
      ⟨h.width, h.known, h.length, h.routed⟩
    have hkeeps : g.tracer.Keeps { g.tracer with engine := (e.sample g.tracer.engine).1 } :=
      ⟨rfl, fun _ => rfl⟩
    simp only [MoeStudy.generate] at hrun
    split at hrun
    · cases hrun
      exact ⟨[], by simp, by simp, Nat.zero_le _, by simp,
        by simpa [fedBack] using hsampled, hkeeps⟩
    · rename_i hgoes
      have hsample : e.Samples (e.sample g.tracer.engine).2 := ⟨by simpa using hgoes, _, rfl⟩
      split at hrun
      · rename_i hleft
        subst hleft
        cases hrun
        exact ⟨[(e.sample g.tracer.engine).2], rfl, by simp, le_rfl, by simpa using hsample,
          by simpa [fedBack] using hsampled, hkeeps⟩
      · rename_i hleft
        obtain ⟨⟨s₁, kept₁⟩, hstep, hrest⟩ := Option.bind_eq_some_iff.mp hrun
        obtain ⟨h₁, hkeeps₁⟩ := hsampled.decode hstep
        rw [show fed.length + 1 = (fed ++ [(e.sample g.tracer.engine).2]).length by simp] at hrest
        obtain ⟨new, hgenerated, htext, hlength, hsamples, h', hkeeps'⟩ := ih h₁ hrest
        refine ⟨(e.sample g.tracer.engine).2 :: new, ?_, ?_, Nat.succ_le_succ hlength,
          List.forall_mem_cons.mpr ⟨hsample, hsamples⟩, ?_, (hkeeps.trans hkeeps₁).trans hkeeps'⟩
        · rw [hgenerated, List.append_assoc, List.singleton_append]
        · rw [htext, List.append_assoc, List.flatMap_cons]
        · have hfed : fedBack (left + 1) ((e.sample g.tracer.engine).2 :: new) =
              (e.sample g.tracer.engine).2 :: fedBack left new := by
            simp only [fedBack, List.length_cons, Nat.add_right_cancel_iff]
            split
            · rename_i hfull
              have hne : new ≠ [] := List.ne_nil_of_length_pos (by omega)
              rw [List.dropLast_cons_of_ne_nil hne]
            · rfl
          rw [hfed]
          rwa [List.append_assoc, List.singleton_append] at h'

/-- The request fits into the context. -/
def Engine.fits (e : Engine σ) (ctxSize : ℕ) (r : Request) : Bool :=
  (e.tokenize r).any fun prompt => prompt.length + r.maxTokens.toInt ≤ (ctxSize : ℤ)

end Routes

section Reading

variable {σ : Type} {e : Engine σ} {L k ctxSize : ℕ}

/-- The routing of a token: the experts of its rows. -/
def routing (L k : ℕ) (rows : List Bytes) : Routing L k :=
  fun layer place => ((rows.getD layer []).getD place 0).toNat

/-- What `load` makes of a traced request. -/
def Traced.loaded (L k : ℕ) (t : Traced) : Loaded L k where
  id := t.request.id
  family := t.request.family
  agent := t.request.agent
  tokens := t.tokens.map Int32.toInt
  nPrompt := t.prompt.length
  routes := t.trace.map (routing L k)

/-- The trace has a row for each layer, and as many experts in each row. -/
structure Shaped (L k : ℕ) (t : Traced) : Prop where
  layers : ∀ rows ∈ t.trace, rows.length = L
  experts : ∀ row ∈ t.trace.flatten, row.length = k

/-- The size of a trace. -/
theorem Shaped.length {t : Traced} (h : Shaped L k t) :
    t.bytes.length = t.trace.length * L * k := by
  rw [Traced.bytes, length_flatten_blocks h.experts, length_flatten_blocks h.layers]

/-- The bytes of a trace have its shape. -/
theorem Shaped.reshape {t : Traced} (h : Shaped L k t) :
    reshape L k t.trace.length t.bytes = some (t.trace.map (routing L k)) := by
  rw [MoeStudy.reshape, if_pos h.length]
  refine congrArg some (List.ext_getElem (by simp) fun i hi hi' => ?_)
  rw [List.length_map] at hi'
  rw [List.getElem_map, List.getElem_map, List.getElem_range]
  funext layer place
  rw [List.getD_eq_getElem?_getD, Traced.bytes, getElem?_flatten_blocks h.experts _ place.isLt,
    getElem?_flatten_blocks h.layers _ layer.isLt, List.getElem?_eq_getElem hi',
    Option.bind_some, routing, List.getD_eq_getElem?_getD, List.getD_eq_getElem?_getD]
  cases t.trace[i][layer.val]? <;> rfl

/-- A row is read with the part of the trace that was written with it. -/
theorem Shaped.loadRow {t : Traced} (h : Shaped L k t) {offset : ℕ} {row : JsonValue Bytes}
    (hrow : t.Shown t.trace.length offset row) {before after : Bytes}
    (hoffset : offset = before.length) :
    MoeStudy.loadRow L k (before ++ (t.bytes ++ after)) row = some (t.loaded L k) := by
  have hpart : ((before ++ (t.bytes ++ after)).drop offset).take (t.trace.length * L * k) =
      t.bytes := by
    rw [hoffset, List.drop_left, ← h.length, List.take_left]
  simp only [MoeStudy.loadRow, hrow.offset, hrow.nRouted, hrow.id, hrow.family, hrow.agent,
    hrow.tokens, hrow.nPrompt, Option.bind_some, hpart, h.reshape]
  rfl

end Reading

end RadixForge.MoeStudy
