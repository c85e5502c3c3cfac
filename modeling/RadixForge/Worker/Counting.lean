import RadixForge.Worker.Callbacks

/-!
# The count that a request is told

While a request is in the worker nothing is reported to it, and the counter of its statistics is the
number of tokens delivered. A cancelled delivery makes the counter run ahead, but such a request is
told nothing more. A roll lists the requests with what their callbacks so far satisfy; of every
other request only the reports are known to be right.
-/

namespace RadixForge

open Library

variable {L : Type} {b : Bridge L} {w w' w'' : World} {id : ℕ} {es es' : List Event} {n : ℕ}

/-- The count that a callback reports. -/
def Event.reported? : Event → Option ℕ
  | .onToken _ _ _ stats => stats.map InferenceStats.predictedN
  | _ => none

/-- Every reported count is the number of tokens delivered. -/
def Reported (es : List Event) : Prop := ∀ e ∈ es, ∀ n ∈ e.reported?, n = (delivered es).length

/-- Nothing is reported yet, and so many tokens are delivered. -/
structure Counted (n : ℕ) (es : List Event) : Prop where
  unreported : ∀ e ∈ es, e.reported? = none
  count : (delivered es).length = n

/-- Callbacks that deliver and report nothing. -/
def Silent (es : List Event) : Prop := ∀ e ∈ es, e.token? = none ∧ e.reported? = none

section Events

/-- Silent callbacks deliver no token. -/
theorem Silent.delivered (h : Silent es) : delivered es = [] :=
  List.filterMap_eq_nil_iff.mpr fun e he => (h e he).1

/-- Silent callbacks after silent ones are silent. -/
theorem Silent.append (h : Silent es) (h' : Silent es') : Silent (es ++ es') := by
  intro e he
  rcases List.mem_append.mp he with he | he
  · exact h e he
  · exact h' e he

/-- At the beginning no token is delivered. -/
theorem Counted.nil : Counted 0 [] := ⟨fun _ he => absurd he List.not_mem_nil, rfl⟩

/-- Silent callbacks keep the count. -/
theorem Counted.silent (h : Counted n es) (hsilent : Silent es') : Counted n (es ++ es') where
  unreported e he := by
    rcases List.mem_append.mp he with he | he
    · exact h.unreported e he
    · exact (hsilent e he).2
  count := by rw [delivered_append, hsilent.delivered, List.append_nil, h.count]

/-- A piece that is not the last one. -/
theorem Counted.piece (h : Counted n es) (token : Token) (piece : List UInt8) (isLast : Bool) :
    Counted (n + 1) (es ++ [.onToken (some token) piece isLast none]) where
  unreported e he := by
    rcases List.mem_append.mp he with he | he
    · exact h.unreported e he
    · rw [List.mem_singleton.mp he]
      rfl
  count := by simp [Event.token?, h.count]

/-- While nothing is reported every report is right. -/
theorem Counted.reported (h : Counted n es) : Reported es := by
  intro e he m hm
  rw [h.unreported e he] at hm
  exact absurd hm (Option.not_mem_none m)

/-- A report of the right count. -/
theorem Counted.report (h : Counted n es) {token : Option Token} {stats : InferenceStats}
    (hstats : stats.predictedN = n + token.toList.length) (piece : List UInt8) (isLast : Bool) :
    Reported (es ++ [.onToken token piece isLast (some stats)]) := by
  intro e he m hm
  have hgiven : (delivered (es ++ [.onToken token piece isLast (some stats)])).length =
      n + token.toList.length := by
    simp [Event.token?, h.count]
  rcases List.mem_append.mp he with he | he
  · rw [h.unreported e he] at hm
    exact absurd hm (Option.not_mem_none m)
  · rw [List.mem_singleton.mp he] at hm
    cases hm
    rw [hgiven, hstats]

/-- Silent callbacks keep the reports right. -/
theorem Reported.silent (h : Reported es) (hsilent : Silent es') : Reported (es ++ es') := by
  intro e he m hm
  rw [delivered_append, hsilent.delivered, List.append_nil]
  rcases List.mem_append.mp he with he | he
  · exact h e he m hm
  · rw [(hsilent e he).2] at hm
    exact absurd hm (Option.not_mem_none m)

end Events

namespace World

/-- A step that adds only silent callbacks of one request. -/
def Hushes (w w' : World) (id : ℕ) : Prop := ∃ es, Silent es ∧ w.Adds w' id es

/-- A step of one request: it is kept with what its callbacks satisfy then, or its reports are
right. -/
def Tallies (w w' : World) (id : ℕ) (kept : Option Record) : Prop :=
  ∃ es, w.Adds w' id es ∧
    match kept with
    | some r => r.id = id ∧ r.holds (w.eventsOf id ++ es)
    | none => Reported (w.eventsOf id ++ es)

/-- The requests of the records, with right reports for all others. -/
structure Roll (w : World) (records : List Record) : Prop where
  nodup : (records.map Record.id).Nodup
  known : ∀ r ∈ records, r.holds (w.eventsOf r.id)
  left : ∀ id, id ∉ records.map Record.id → Reported (w.eventsOf id)

/-- A step that adds no callbacks adds silent ones only. -/
theorem hushes_of_adds (h : w.Adds w' id []) : w.Hushes w' id :=
  ⟨[], fun _ he => absurd he List.not_mem_nil, h⟩

/-- A callback without a token and a report is silent. -/
theorem hushes_callback {e : Event} (htoken : e.token? = none) (hreported : e.reported? = none)
    (w : World) (id : ℕ) :
    w.Hushes (w.callback id e) id :=
  ⟨[e], fun _ he => (List.mem_singleton.mp he).symm ▸ ⟨htoken, hreported⟩, adds_callback w id e⟩

/-- Silent steps follow each other. -/
theorem Hushes.trans (h : w.Hushes w' id) (h' : w'.Hushes w'' id) : w.Hushes w'' id := by
  obtain ⟨es, hsilent, hadds⟩ := h
  obtain ⟨es', hsilent', hadds'⟩ := h'
  exact ⟨es ++ es', hsilent.append hsilent', hadds.trans hadds'⟩

/-- A poll delivers and reports nothing. -/
theorem hushes_isCancelled (req : InferenceRequest) (w : World) :
    w.Hushes (isCancelled req w).2.2 req.id := by
  have hpolls := w.isCancelled_polls req
  generalize isCancelled req w = polled at hpolls ⊢
  have hpoll (answer : Bool) :
      Silent [.polled answer] := fun _ he => (List.mem_singleton.mp he).symm ▸ ⟨rfl, rfl⟩
  cases hpolls with
  | running w' _ hadds => exact ⟨_, hpoll false, hadds⟩
  | first w' _ _ hadds =>
    have hcancel : Silent [.onCancel] := fun _ he => (List.mem_singleton.mp he).symm ▸ ⟨rfl, rfl⟩
    exact ⟨_, (hpoll true).append hcancel, hadds⟩
  | again w' _ _ hadds => exact ⟨_, hpoll true, hadds⟩

/-- What holds of the callbacks before a silent step holds after it. -/
theorem Hushes.holds (h : w.Hushes w' id) {P : List Event → Prop}
    (hP : ∀ es es', Silent es' → P es → P (es ++ es')) (hbefore : P (w.eventsOf id)) :
    P (w'.eventsOf id) := by
  obtain ⟨es, hsilent, hadds⟩ := h
  rw [hadds id, if_pos rfl]
  exact hP _ _ hsilent hbefore

/-- A silent step keeps the count. -/
theorem Hushes.counted (h : w.Hushes w' id) (hbefore : Counted n (w.eventsOf id)) :
    Counted n (w'.eventsOf id) :=
  h.holds (fun _ _ hsilent hcounted => hcounted.silent hsilent) hbefore

/-- A silent step keeps the reports right. -/
theorem Hushes.reported (h : w.Hushes w' id) (hbefore : Reported (w.eventsOf id)) :
    Reported (w'.eventsOf id) :=
  h.holds (fun _ _ hsilent hreported => hreported.silent hsilent) hbefore

/-- A silent step before one that tallies. -/
theorem Tallies.after {kept : Option Record} (h : w.Hushes w' id) (h' : w'.Tallies w'' id kept) :
    w.Tallies w'' id kept := by
  obtain ⟨es, _, hadds⟩ := h
  obtain ⟨es', hadds', hkept⟩ := h'
  rw [hadds id, if_pos rfl, List.append_assoc] at hkept
  exact ⟨es ++ es', hadds.trans hadds', hkept⟩

/-- A request is kept through a silent step with what it satisfies then. -/
theorem Hushes.keep (h : w.Hushes w' id) {r : Record} (hid : r.id = id)
    (hr : r.holds (w'.eventsOf id)) :
    w.Tallies w' id (some r) := by
  obtain ⟨es, _, hadds⟩ := h
  rw [hadds id, if_pos rfl] at hr
  exact ⟨es, hadds, hid, hr⟩

/-- A request may leave in a silent step if its reports are right. -/
theorem Hushes.leave (h : w.Hushes w' id) (hreported : Reported (w.eventsOf id)) :
    w.Tallies w' id none := by
  obtain ⟨es, hsilent, hadds⟩ := h
  exact ⟨es, hadds, hreported.silent hsilent⟩

/-- A callback and a silent step after it. -/
theorem tallies_callback {e : Event} (h : (w.callback id e).Hushes w' id)
    (hreported : Reported (w.eventsOf id ++ [e])) :
    w.Tallies w' id none := by
  obtain ⟨es, hsilent, hadds⟩ := h
  refine ⟨[e] ++ es, (adds_callback w id e).trans hadds, ?_⟩
  rw [← List.append_assoc]
  exact hreported.silent hsilent

namespace Roll

variable {r : Record} {records records' : List Record}

/-- The records may be listed in any order. -/
theorem perm (h : w.Roll records) (hperm : records.Perm records') : w.Roll records' where
  nodup := (hperm.map Record.id).nodup_iff.mp h.nodup
  known r hr := h.known r (hperm.mem_iff.mpr hr)
  left id hnot := h.left id fun hmem => hnot ((hperm.map Record.id).mem_iff.mp hmem)

/-- A step without callbacks. -/
theorem silent (h : w.Roll records) (hsame : ∀ i, w'.eventsOf i = w.eventsOf i) :
    w'.Roll records where
  nodup := h.nodup
  known r hr := hsame r.id ▸ h.known r hr
  left id hnot := hsame id ▸ h.left id hnot

/-- A step of one request. -/
theorem settle (h : w.Roll (r :: records)) {kept : Option Record}
    (htallies : w.Tallies w' r.id kept) :
    w'.Roll (kept.toList ++ records) := by
  obtain ⟨es, hadds, hkept⟩ := htallies
  obtain ⟨hnotin, hnodup⟩ := List.nodup_cons.mp h.nodup
  have hother {i : ℕ} (hi : i ≠ r.id) : w'.eventsOf i = w.eventsOf i := by
    rw [hadds i, if_neg (Ne.symm hi)]
  have hself : w'.eventsOf r.id = w.eventsOf r.id ++ es := by rw [hadds r.id, if_pos rfl]
  have hrest : ∀ x ∈ records, x.holds (w'.eventsOf x.id) := by
    intro x hx
    rw [hother fun heq => hnotin (heq ▸ List.mem_map_of_mem hx)]
    exact h.known x (List.mem_cons_of_mem _ hx)
  cases kept with
  | some x =>
    obtain ⟨hid, hx⟩ := hkept
    refine ⟨?_, fun y hy => ?_, fun i hnot => ?_⟩
    · rw [Option.toList_some, List.singleton_append, List.map_cons, hid]
      exact h.nodup
    · rcases List.mem_cons.mp hy with rfl | hy
      · rw [hid, hself]
        exact hx
      · exact hrest y hy
    · rw [Option.toList_some, List.singleton_append, List.map_cons, hid] at hnot
      rw [hother fun heq => hnot (heq ▸ List.mem_cons_self)]
      exact h.left i hnot
  | none =>
    refine ⟨hnodup, hrest, fun i hnot => ?_⟩
    by_cases heq : i = r.id
    · rw [heq, hself]
      exact hkept
    · rw [hother heq]
      refine h.left i fun hmem => ?_
      rcases List.mem_cons.mp hmem with hmem | hmem
      · exact heq hmem
      · exact hnot hmem

end Roll

end World

/-- The rule for passes: each visit tallies the request of its item. -/
theorem pass_roll {α β : Type} {visit : α → World → Option β × World} {before : α → Record}
    {after : β → Record}
    (hvisit : ∀ a (w : World), (before a).holds (w.eventsOf (before a).id) →
      w.Tallies (visit a w).2 (before a).id ((visit a w).1.map after))
    {as : List α} {w : World} {records : List Record} (h : w.Roll (as.map before ++ records)) :
    (pass visit as w).2.Roll ((pass visit as w).1.map after ++ records) := by
  refine (pass_trade (H := fun (w : World) records => w.Roll records) (P := fun _ => True)
    (Q := fun _ => True)
    (fun _ _ _ h hperm => h.perm hperm) (fun a w records _ h => ⟨?_, fun _ _ => trivial⟩)
      (fun _ _ => trivial) h).1
  have hsettled := h.settle (hvisit a w (h.known _ List.mem_cons_self))
  rwa [Option.toList_map] at hsettled

/-- A step that lets every request of a list leave. -/
theorem failAll_roll {α : Type} {fail : α → World → World} {before : α → Record}
    (hfail : ∀ a (w : World), (before a).holds (w.eventsOf (before a).id) →
      w.Tallies (fail a w) (before a).id none)
    {as : List α} {w : World} {records : List Record} (h : w.Roll (as.map before ++ records)) :
    (failAll fail as w).Roll records := by
  induction as generalizing w with
  | nil => exact h
  | cons a rest ih => exact ih (h.settle (hfail a w (h.known _ List.mem_cons_self)))

/-- The callbacks of a prefill: nothing is delivered, and the counter is zero. -/
structure PrefillCtx.Counts (ctx : PrefillCtx) (es : List Event) : Prop where
  zero : ctx.stats.predictedN = 0
  counted : Counted 0 es

/-- The callbacks of an active sequence: the counter is the number of tokens delivered. -/
structure ActiveSeq.Counts (seq : ActiveSeq L) (es : List Event) : Prop where
  unnoticed : seq.notifyOnRetire = false
  counted : Counted seq.stats.predictedN es

/-- The callbacks of a sequence after its token was sampled. -/
inductive ActiveSeq.Told (seq : ActiveSeq L) (es : List Event) : Prop where
  | going (hcounts : seq.Counts es)
  | ended (hdone : seq.done = true) (hcounted : Counted seq.stats.predictedN es)
  | spent (hdone : seq.done = true) (hnotify : seq.notifyOnRetire = false) (hreported : Reported es)

/-- The roll entry of a waiting request. -/
def InferenceRequest.entry (req : InferenceRequest) : Record := ⟨req.id, Counted 0⟩

/-- The roll entry of a prefill. -/
def PrefillCtx.entry (ctx : PrefillCtx) : Record := ⟨ctx.req.id, ctx.Counts⟩

/-- The roll entry of an active sequence. -/
def ActiveSeq.entry (seq : ActiveSeq L) : Record := ⟨seq.req.id, seq.Counts⟩

section Visits

/-- A poll keeps the count of a sequence. -/
theorem pollActive_tallies (seq : ActiveSeq L) (w : World)
    (h : seq.Counts (w.eventsOf seq.req.id)) :
    w.Tallies (pollActive seq w).2 seq.req.id ((pollActive seq w).1.map ActiveSeq.entry) := by
  have hpolled := w.hushes_isCancelled seq.req
  have hid := isCancelled_id seq.req w
  exact hpolled.keep hid ⟨h.unnoticed, hpolled.counted h.counted⟩

/-- A sequence that is not dropped keeps its count. -/
theorem dropCancelled_tallies (seq : ActiveSeq L) (w : World)
    (h : seq.Counts (w.eventsOf seq.req.id)) :
    w.Tallies (dropCancelled seq w).2 seq.req.id ((dropCancelled seq w).1.map ActiveSeq.entry) := by
  unfold dropCancelled
  split
  · exact (World.hushes_of_adds (retire_adds_nothing seq w _)).leave h.counted.reported
  · exact (World.hushes_of_adds (World.adds_nothing (fun _ => rfl) _)).keep rfl h

/-- A prefill that is not dropped keeps its count. -/
theorem dropAbandoned_tallies (ctx : PrefillCtx) (w : World)
    (h : ctx.Counts (w.eventsOf ctx.req.id)) :
    w.Tallies (dropAbandoned ctx w).2 ctx.req.id
      ((dropAbandoned ctx w).1.map PrefillCtx.entry) := by
  have hpolled := w.hushes_isCancelled ctx.req
  have hid := isCancelled_id ctx.req w
  unfold dropAbandoned
  generalize isCancelled ctx.req w = polled at hpolled hid ⊢
  obtain ⟨cancelled, req, w'⟩ := polled
  cases cancelled with
  | true =>
    exact (hpolled.trans
      (World.hushes_of_adds (abandon_adds_nothing _ _ _))).leave h.counted.reported
  | false => exact hpolled.keep hid ⟨h.zero, hpolled.counted h.counted⟩

/-- A failure reports nothing. -/
theorem failActive_tallies (message : String) (status : ℕ) (seq : ActiveSeq L) (w : World)
    (h : seq.Counts (w.eventsOf seq.req.id)) :
    w.Tallies (failActive message status seq w) seq.req.id none := by
  have hleaving := World.hushes_of_adds
    (World.adds_leaving w seq.req.id seq.seqId seq.leafNode seq.cachedTokens false
    seq.req.id)
  have hpolled := World.hushes_isCancelled seq.req
    (w.note (.leaving seq.req.id seq.seqId seq.leafNode seq.cachedTokens false))
  have hid := isCancelled_id seq.req
    (w.note (.leaving seq.req.id seq.seqId seq.leafNode seq.cachedTokens false))
  unfold failActive
  simp only
  generalize isCancelled seq.req
    (w.note (.leaving seq.req.id seq.seqId seq.leafNode seq.cachedTokens false)) = polled
    at hpolled hid ⊢
  obtain ⟨cancelled, req, w'⟩ := polled
  simp only at hpolled hid ⊢
  refine World.Hushes.leave (hleaving.trans (hpolled.trans ?_)) h.counted.reported
  rw [hid]
  cases cancelled with
  | true => exact World.hushes_of_adds (World.adds_giveBack _ _ _ _ _ _)
  | false =>
    exact (World.hushes_callback rfl rfl _ _).trans (World.hushes_of_adds
      (World.adds_giveBack _ _ _ _ _ _))

/-- A prefill that fails has reported nothing wrong. -/
theorem failPrefill_tallies (message : String) (status : ℕ) (ctx : PrefillCtx) (w : World)
    (h : ctx.Counts (w.eventsOf ctx.req.id)) :
    w.Tallies (failPrefill message status ctx w) ctx.req.id none := by
  have hleaving := World.hushes_of_adds
    (World.adds_leaving w ctx.req.id ctx.prep.seqId ctx.prep.leafNode ctx.tokens false
    ctx.req.id)
  have hpolled := World.hushes_isCancelled ctx.req
    (w.note (.leaving ctx.req.id ctx.prep.seqId ctx.prep.leafNode ctx.tokens false))
  have hid := isCancelled_id ctx.req
    (w.note (.leaving ctx.req.id ctx.prep.seqId ctx.prep.leafNode ctx.tokens false))
  unfold failPrefill
  simp only
  generalize isCancelled ctx.req
    (w.note (.leaving ctx.req.id ctx.prep.seqId ctx.prep.leafNode ctx.tokens false)) = polled
    at hpolled hid ⊢
  obtain ⟨cancelled, req, w'⟩ := polled
  simp only at hpolled hid ⊢
  refine World.Hushes.leave (hleaving.trans (hpolled.trans ?_)) h.counted.reported
  rw [hid]
  cases cancelled with
  | true => exact World.hushes_of_adds (World.adds_giveBack _ _ _ _ _ _)
  | false =>
    exact (World.hushes_callback rfl rfl _ _).trans (World.hushes_of_adds
      (World.adds_giveBack _ _ _ _ _ _))

/-- A chunk that is finished keeps the count of its prefill. -/
theorem finishChunk_tallies (p : PrefillCtx × Option PromptSubmission) (w : World)
    (h : p.1.Counts (w.eventsOf p.1.req.id)) :
    w.Tallies (finishChunk p w).2 p.1.req.id ((finishChunk p w).1.map fun q => q.1.entry) := by
  obtain ⟨ctx, submission⟩ := p
  cases submission with
  | none => exact (World.hushes_of_adds (World.adds_nothing (fun _ => rfl) _)).keep rfl h
  | some submission =>
    simp only [finishChunk]
    split
    · have hmarked := World.hushes_of_adds
        (World.adds_call w (.markReady ctx.prep.seqId ctx.prep.leafNode) ctx.req.id)
      exact hmarked.keep rfl ⟨h.zero, hmarked.counted h.counted⟩
    · exact (World.hushes_of_adds (World.adds_nothing (fun _ => rfl) _)).keep rfl
        ⟨h.zero, h.counted⟩

/-- A request that was found cancelled is found cancelled again. -/
theorem isCancelled_again {req : InferenceRequest} (h : (isCancelled req w).1 = true) (w' : World) :
    (isCancelled (isCancelled req w).2.1 w').1 = true := by
  obtain ⟨id, prompt, messages, maxTokens, temperature, topP, cancelAfter, onCancel⟩ := req
  match cancelAfter, onCancel with
  | some 0, true => rfl
  | some 0, false => rfl
  | some (n + 1), onCancel => contradiction
  | none, onCancel => contradiction

/-- The counter follows what is delivered; it runs ahead only for a request that is found cancelled.
-/
theorem advanceSeq_tallies (outputs : List (Option L)) (p : ℕ × ActiveSeq L) (w : World)
    (h : p.2.Counts (w.eventsOf p.2.req.id)) :
    w.Tallies (advanceSeq b outputs p w).2 p.2.req.id
      ((advanceSeq b outputs p w).1.map fun s => ⟨s.req.id, s.Told⟩) := by
  obtain ⟨row, seq⟩ := p
  have hcounts : seq.Counts (w.eventsOf seq.req.id) := h
  have hset := World.hushes_of_adds
    (World.adds_call w (.setCellCount seq.seqId (seq.pos + 1)) seq.req.id)
  have hagain : (isCancelled seq.req (w.call (.setCellCount seq.seqId (seq.pos + 1)))).1 = true →
      ∀ w',
      (isCancelled (isCancelled seq.req (w.call (.setCellCount seq.seqId (seq.pos + 1)))).2.1
        w').1 = true :=
    fun htrue w' => isCancelled_again htrue w'
  have hpolled := hset.trans
    (World.hushes_isCancelled seq.req (w.call (.setCellCount seq.seqId (seq.pos + 1))))
  have hid := isCancelled_id seq.req (w.call (.setCellCount seq.seqId (seq.pos + 1)))
  simp only [advanceSeq]
  split
  · exact hset.keep rfl (.ended rfl (hset.counted hcounts.counted))
  · generalize isCancelled seq.req (w.call (.setCellCount seq.seqId (seq.pos + 1))) =
      polled at hpolled hid hagain ⊢
    obtain ⟨cancelled, req, w₁⟩ := polled
    simp only at hpolled hid hagain ⊢
    have hcounted := hpolled.counted hcounts.counted
    cases cancelled with
    | true =>
      -- nothing is delivered although the counter goes up
      have hpolled' := w₁.hushes_isCancelled req
      have hid' := isCancelled_id req w₁
      have htrue := hagain rfl w₁
      rw [hid] at hpolled'
      by_cases hlast : seq.remaining - 1 = 0
      · simp only [hlast, decide_true, if_true]
        exact hpolled.keep hid (.spent rfl hcounts.unnoticed hcounted.reported)
      · simp only [hlast, htrue, decide_false, Bool.false_eq_true, if_false, if_true]
        exact (hpolled.trans hpolled').keep (hid'.trans hid)
          (.spent rfl hcounts.unnoticed (hpolled'.reported hcounted.reported))
    | false =>
      have hadds (e : Event) : w₁.Adds (w₁.callback req.id e) seq.req.id [e] := by
        rw [← hid]
        exact World.adds_callback w₁ req.id e
      simp only [Bool.false_eq_true, if_false]
      by_cases hlast : seq.remaining - 1 = 0
      · simp only [hlast, decide_true, if_true]
        refine World.Tallies.after hpolled ⟨_, hadds _, hid, ?_⟩
        exact .spent rfl hcounts.unnoticed (hcounted.report rfl _ _)
      · simp only [hlast, decide_false, Bool.false_eq_true, if_false]
        have hdelivered := hadds (.onToken (some (Sampler.sampleRow b seq.sampler outputs row).1)
          (b.tokenToPiece (Sampler.sampleRow b seq.sampler outputs row).1) false none)
        generalize w₁.callback req.id
          (.onToken (some (Sampler.sampleRow b seq.sampler outputs row).1)
          (b.tokenToPiece (Sampler.sampleRow b seq.sampler outputs row).1) false none) =
            w₂ at hdelivered ⊢
        have hpiece : Counted (seq.stats.predictedN + 1) (w₂.eventsOf seq.req.id) := by
          rw [hdelivered, if_pos rfl]
          exact hcounted.piece _ _ _
        have hpolled' := w₂.hushes_isCancelled req
        have hid' := isCancelled_id req w₂
        rw [hid] at hpolled'
        generalize isCancelled req w₂ = polled at hpolled' hid' ⊢
        obtain ⟨cancelled', req', w₃⟩ := polled
        simp only at hpolled' hid' ⊢
        have hkept := hpolled'.counted hpiece
        obtain ⟨es', _, hadds'⟩ := hpolled'
        rw [hadds', if_pos rfl, hdelivered, if_pos rfl, List.append_assoc] at hkept
        refine World.Tallies.after hpolled ?_
        split
        · exact ⟨_, hdelivered.trans hadds', hid'.trans hid, .ended rfl hkept⟩
        · exact ⟨_, hdelivered.trans hadds', hid'.trans hid, .going ⟨hcounts.unnoticed, hkept⟩⟩

/-- A retired sequence is told its counter, if it is told anything. -/
theorem retire_tallies (seq : ActiveSeq L) (notify : Bool) (w : World)
    (h : Counted seq.stats.predictedN (w.eventsOf seq.req.id)) :
    w.Tallies (retire seq notify w) seq.req.id none := by
  cases notify with
  | false => exact (World.hushes_of_adds (retire_adds_nothing seq w _)).leave h.reported
  | true =>
    have hleaving := World.hushes_of_adds
      (World.adds_leaving w seq.req.id seq.seqId seq.leafNode seq.cachedTokens true
      seq.req.id)
    have hpolled := hleaving.trans (World.hushes_isCancelled seq.req
      (w.note (.leaving seq.req.id seq.seqId seq.leafNode seq.cachedTokens true)))
    have hid := isCancelled_id seq.req
      (w.note (.leaving seq.req.id seq.seqId seq.leafNode seq.cachedTokens true))
    unfold retire
    simp only [if_true]
    generalize isCancelled seq.req
      (w.note (.leaving seq.req.id seq.seqId seq.leafNode seq.cachedTokens true)) = polled
      at hpolled hid ⊢
    obtain ⟨cancelled, req, w₁⟩ := polled
    simp only at hpolled hid ⊢
    -- the sequence is extended only if the request is not found cancelled
    generalize hextended : (if cancelled = true then (w₁, seq.leafNode)
      else w₁.extendSequence seq.seqId seq.leafNode seq.cachedTokens) = extended
    obtain ⟨w₂, owner⟩ := extended
    have hquiet : w₁.Hushes w₂ seq.req.id := by
      split at hextended
      · cases hextended
        exact World.hushes_of_adds (World.adds_nothing (fun _ => rfl) _)
      · cases hextended
        exact World.hushes_of_adds (World.adds_call _ _ _)
    have hpolled' := w₂.hushes_isCancelled req
    have hid' := isCancelled_id req w₂
    rw [hid] at hpolled'
    simp only
    generalize isCancelled req w₂ = polled at hpolled' hid' ⊢
    obtain ⟨cancelled', req', w₃⟩ := polled
    simp only at hpolled' hid' ⊢
    have hhushed := (hpolled.trans hquiet).trans hpolled'
    rw [hid', hid]
    cases cancelled' with
    | true =>
      exact (hhushed.trans (World.hushes_of_adds (World.adds_giveBack _ _ _ _ _ _))).leave
        h.reported
    | false =>
      refine World.Tallies.after hhushed
        (World.tallies_callback (World.hushes_of_adds (World.adds_giveBack _ _ _ _ _ _)) ?_)
      exact (hhushed.counted h).report rfl _ _

/-- A sequence retires with a right report, or is kept with its count. -/
theorem retireDone_tallies (seq : ActiveSeq L) (w : World) (h : seq.Told (w.eventsOf seq.req.id)) :
    w.Tallies (retireDone seq w).2 seq.req.id ((retireDone seq w).1.map ActiveSeq.entry) := by
  have hpolled := w.hushes_isCancelled seq.req
  have hid := isCancelled_id seq.req w
  have hretired (hcounted : Counted seq.stats.predictedN (w.eventsOf seq.req.id)) :
      w.Tallies (retire { seq with req := (isCancelled seq.req w).2.1 } seq.notifyOnRetire
        (isCancelled seq.req w).2.2)
        seq.req.id none := by
    refine World.Tallies.after hpolled ?_
    have hafter := retire_tallies { seq with req := (isCancelled seq.req w).2.1 } seq.notifyOnRetire
      (isCancelled seq.req w).2.2 (by simpa only [hid] using hpolled.counted hcounted)
    simpa only [hid] using hafter
  unfold retireDone
  cases h with
  | going hcounts =>
    split
    · exact hretired hcounts.counted
    · exact (World.hushes_of_adds (World.adds_nothing (fun _ => rfl) _)).keep rfl hcounts
  | ended hdone hcounted =>
    rw [if_pos hdone]
    exact hretired hcounted
  | spent hdone hnotify hreported =>
    rw [if_pos hdone, hnotify]
    have hquiet := World.hushes_of_adds
      (retire_adds_nothing { seq with req := (isCancelled seq.req w).2.1 }
      (isCancelled seq.req w).2.2 seq.req.id)
    exact (hpolled.trans hquiet).leave hreported

/-- The first token is reported as one, and an end without a token as none. -/
theorem beginGeneration_tallies (outputs : List (Option L)) (ctx : PrefillCtx) (row : ℕ) (w : World)
    (h : ctx.Counts (w.eventsOf ctx.req.id)) :
    w.Tallies (beginGeneration b outputs ctx row w).2 ctx.req.id
      ((beginGeneration b outputs ctx row w).1.map ActiveSeq.entry) := by
  have hpolled := w.hushes_isCancelled ctx.req
  have hid := isCancelled_id ctx.req w
  unfold beginGeneration
  generalize isCancelled ctx.req w = polled at hpolled hid ⊢
  obtain ⟨cancelled, req, w₁⟩ := polled
  simp only at hpolled hid ⊢
  have hcounted := hpolled.counted h.counted
  have hleave (stats : InferenceStats) (w' : World) :
      w'.Hushes (abandon { ctx with req := req, stats := stats } w') ctx.req.id :=
    World.hushes_of_adds (abandon_adds_nothing _ _ _)
  simp only [hid]
  split
  · exact (hpolled.trans (hleave _ _)).leave h.counted.reported
  · refine World.Tallies.after hpolled ?_
    split
    · exact World.tallies_callback (hleave _ _) (hcounted.report h.zero _ _)
    · by_cases hlast : req.maxTokens ≤ 1
      · simp only [hlast, decide_true, if_true]
        exact World.tallies_callback (hleave _ _) (hcounted.report rfl _ _)
      · simp only [hlast, decide_false, Bool.false_eq_true, if_false]
        exact ⟨_, World.adds_callback _ _ _, hid, rfl, hcounted.piece _ _ _⟩

/-- The roll entry of what becomes of a prefill. -/
def progressEntry : PrefillCtx ⊕ ActiveSeq L → Record := Sum.elim PrefillCtx.entry ActiveSeq.entry

/-- A prefill goes on with its count, becomes a sequence with one, or leaves with a right report. -/
theorem finishPrefill_tallies (outputs : List (Option L)) (q : PrefillCtx × Option ℕ) (w : World)
    (h : q.1.Counts (w.eventsOf q.1.req.id)) :
    w.Tallies (finishPrefill b outputs q w).2 q.1.req.id
      ((finishPrefill b outputs q w).1.map progressEntry) := by
  obtain ⟨ctx, row⟩ := q
  cases row with
  | none => exact (World.hushes_of_adds (World.adds_nothing (fun _ => rfl) _)).keep rfl h
  | some row =>
    have hbegun := beginGeneration_tallies (b := b) outputs ctx row w h
    simp only [finishPrefill]
    generalize beginGeneration b outputs ctx row w = begun at hbegun ⊢
    obtain ⟨seq, w'⟩ := begun
    cases seq <;> exact hbegun

end Visits

end RadixForge
