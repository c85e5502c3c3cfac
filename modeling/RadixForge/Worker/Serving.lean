import RadixForge.Worker.Ledger
import RadixForge.Worker.Decoding

/-!
# The callbacks of a request in the worker

What the callbacks so far satisfy while a request waits, prefills or generates: no terminal
event yet, and what is still to come completes what it generates. Between the sampling of its last
token and its retirement a sequence may be polled again; what that leads to must be allowed by the
terms.
-/

namespace RadixForge

open Library

variable {L : Type} {b : Bridge L} {terms : Terms} {w w' : World} {es : List Event}

/-- The callbacks of a request that goes on. -/
structure InferenceRequest.Open (terms : Terms) (req : InferenceRequest) (es : List Event) :
    Prop where
  installed : req.onCancel = true
  opened : ∀ e ∈ es, e.isTerminal = false
  cancellable : req.cancelAfter ≠ none → terms.allowed .cancelled .quiet

/-- The callbacks of a request whose cancellation was noticed but which is still at hand. -/
structure InferenceRequest.Lingers (terms : Terms) (req : InferenceRequest) (es : List Event) :
    Prop where
  removed : req.onCancel = false
  cancelled : req.cancelAfter = some 0
  departed : ∃ tail, tail ≠ .cancelled ∧ Departed (terms.generated req.id) .cancelled tail es
  late : terms.allowed .cancelled .polled

/-- A request in the queue. -/
structure InferenceRequest.Waits (b : Bridge L) (terms : Terms) (req : InferenceRequest)
    (es : List Event) : Prop
    extends req.Open terms es where
  nothing : delivered es = []
  generates : b.generate req = terms.generated req.id

/-- A request whose prompt is being decoded. -/
structure PrefillCtx.Serves (b : Bridge L) (terms : Terms) (ctx : PrefillCtx) (es : List Event) :
    Prop
    extends ctx.req.Open terms es where
  nothing : delivered es = []
  generates : b.generateLoop (max 1 ctx.req.maxTokens).toNat
    { temperature := ctx.req.temperature, topP := ctx.req.topP }
    ctx.tokens = terms.generated ctx.req.id

/-- A request that generates. -/
structure ActiveSeq.Serves (b : Bridge L) (terms : Terms) (seq : ActiveSeq L) (es : List Event) :
    Prop
    extends seq.req.Open terms es where
  going : seq.done = false
  unnoticed : seq.notifyOnRetire = false
  budget : 1 ≤ seq.remaining
  generates : delivered es ++
    b.generateLoop seq.remaining.toNat seq.sampler seq.decoded.cachedTokens =
    terms.generated seq.req.id

/-- The next token is a piece of text, and it is the last one that the budget allows. -/
def ActiveSeq.Spends (b : Bridge L) (seq : ActiveSeq L) : Prop :=
  b.isEog (seq.sampler.next b seq.decoded.cachedTokens).1 = false ∧ seq.remaining = 1

/-- The terms allow what a poll after the next token is sampled can lead to. -/
structure ActiveSeq.Tolerates (b : Bridge L) (terms : Terms) (seq : ActiveSeq L) : Prop where
  late : seq.req.cancelAfter = some 0 ∨ seq.req.cancelAfter = some 1 →
    terms.allowed .cancelled .polled
  spent : seq.Spends b → terms.allowed .completed .polled
  twice : seq.req.cancelAfter = some 1 → seq.Spends b → terms.allowed .completed .cancelled

/-- A sequence whose request was polled. -/
def ActiveSeq.polled (seq : ActiveSeq L) : ActiveSeq L := { seq with req := seq.req.polled }

/-- The callbacks of a sequence after the first poll of a step, which may or may not decode. -/
def ActiveSeq.Checked (b : Bridge L) (terms : Terms) (decodes : Prop) (seq : ActiveSeq L)
    (es : List Event) : Prop :=
  if seq.done then terms.Left seq.req.id es else seq.Serves b terms es ∧
    (decodes → seq.Tolerates b terms)

/-- The callbacks of a sequence after its token was sampled. -/
inductive ActiveSeq.Advanced (b : Bridge L) (terms : Terms) (seq : ActiveSeq L) (es : List Event) :
    Prop where
  | running (hserves : seq.Serves b terms es)
  | ended (hdone : seq.done = true) (hnotify : seq.notifyOnRetire = true)
      (hopen : seq.req.Open terms es)
      (hall : delivered es = terms.generated seq.req.id)
      (hlate : seq.req.cancelAfter = some 0 ∨ seq.req.cancelAfter = some 1 →
        terms.allowed .cancelled .polled)
  | spent (hdone : seq.done = true) (hnotify : seq.notifyOnRetire = false)
      (hinstalled : seq.req.onCancel = true)
      (hdeparted : Departed (terms.generated seq.req.id) .completed .quiet es)
        (hpolled : terms.allowed .completed .polled)
      (htwice : seq.req.cancelAfter = some 0 → terms.allowed .completed .cancelled)
  | dropped (hdone : seq.done = true) (hnotify : seq.notifyOnRetire = false)
      (hlingers : seq.req.Lingers terms es)

/-- Completions and rejections are allowed. -/
structure Terms.Fair (terms : Terms) : Prop where
  completed : terms.allowed .completed .quiet
  rejected : terms.allowed .rejected .quiet

namespace InferenceRequest

variable {req : InferenceRequest}

/-- A request that still has a cancellation to come after a poll had one before it. -/
theorem polled_cancelAfter_none (h : req.polled.cancelAfter ≠ none) : req.cancelAfter ≠ none := by
  intro hnone
  simp [polled, hnone] at h

/-- A poll answered false brings a coming cancellation one poll nearer. -/
theorem polled_cancelAfter (hopen : req.cancelAfter ≠ some 0) {n : ℕ}
    (h : req.polled.cancelAfter = some n) :
    req.cancelAfter = some (n + 1) := by
  simp only [polled, Option.map_eq_some_iff] at h
  obtain ⟨m, hm, hpred⟩ := h
  have hne : m ≠ 0 := fun hzero => hopen (hzero ▸ hm)
  rw [hm]
  exact congrArg some (by simp only [Nat.pred_eq_sub_one] at hpred; omega)

/-- A poll answered with false, or a piece that is not the last. -/
theorem Open.add (h : req.Open terms es) {e : Event} (he : e.isTerminal = false) :
    req.Open terms (es ++ [e]) where
  installed := h.installed
  opened x hx := by
    rcases List.mem_append.mp hx with hx | hx
    · exact h.opened x hx
    · rw [List.mem_singleton.mp hx]
      exact he
  cancellable := h.cancellable

/-- A request polled false is still open. -/
theorem Open.poll (h : req.Open terms es) : req.polled.Open terms (es ++ [.polled false]) where
  installed := h.installed
  opened := (h.add (e := .polled false) rfl).opened
  cancellable hsome := h.cancellable (polled_cancelAfter_none hsome)

/-- A terminal event closes the callbacks. -/
theorem Open.close (h : req.Open terms es) {closing : Closing} {e : Event}
    (hcloses : Closes (terms.generated req.id) (delivered es) closing e) :
    Departed (terms.generated req.id) closing .quiet (es ++ [e]) :=
  .closed es e [] h.opened hcloses .quiet

/-- A noticed cancellation closes the callbacks. -/
theorem Open.cancel (h : req.Open terms es) (hgiven : delivered es <+: terms.generated req.id) :
    Departed (terms.generated req.id) .cancelled .quiet (es ++ [.polled true, .onCancel]) := by
  have hopen := h.add (e := .polled true) rfl
  have hclosed := hopen.close (.cancelled (by simpa [Event.token?] using hgiven))
  rwa [List.append_assoc] at hclosed

/-- A request that is cancelled at a poll may leave at once. -/
theorem Open.leave (h : req.Open terms es) (hcancelled : req.cancelAfter = some 0)
    (hgiven : delivered es <+: terms.generated req.id) :
    terms.Left req.id (es ++ [.polled true, .onCancel]) :=
  ⟨_, _, h.cancellable (by rw [hcancelled]; exact Option.some_ne_none 0), h.cancel hgiven⟩

/-- A request that is cancelled at a poll may be polled again. -/
theorem Open.linger (h : req.Open terms es) (hcancelled : req.cancelAfter = some 0)
    (hgiven : delivered es <+: terms.generated req.id) (hlate : terms.allowed .cancelled .polled) :
    Lingers terms { req with onCancel := false } (es ++ [.polled true, .onCancel]) where
  removed := rfl
  cancelled := hcancelled
  departed := ⟨.quiet, Tail.noConfusion, h.cancel hgiven⟩
  late := hlate

/-- A request polled true again still lingers. -/
theorem Lingers.poll (h : req.Lingers terms es) : req.Lingers terms (es ++ [.polled true]) where
  removed := h.removed
  cancelled := h.cancelled
  departed := by
    obtain ⟨tail, htail, hdeparted⟩ := h.departed
    exact ⟨.polled, Tail.noConfusion, hdeparted.poll Closing.noConfusion htail true⟩
  late := h.late

/-- A lingering request may leave at the poll that tells of its cancellation. -/
theorem Lingers.leave (h : req.Lingers terms es) : terms.Left req.id (es ++ [.polled true]) := by
  obtain ⟨tail, htail, hdeparted⟩ := h.departed
  exact ⟨_, _, h.late, hdeparted.poll Closing.noConfusion htail true⟩

/-- A lingering request always answers a poll with true and has no callback left. -/
theorem Lingers.polls (h : req.Lingers terms es) (w : World) :
    ∃ w', isCancelled req w = (true, req, w') ∧ w.Adds w' req.id [.polled true] := by
  have hpolls := w.isCancelled_polls req
  generalize isCancelled req w = polled at hpolls ⊢
  cases hpolls with
  | running w' hopen => exact absurd h.cancelled hopen
  | first w' _ hfirst => exact absurd (hfirst.symm.trans h.removed) Bool.noConfusion
  | again w' _ _ hadds => exact ⟨w', rfl, hadds⟩

/-- A poll of a request that goes on. -/
theorem Open.polls (h : req.Open terms es) (w : World) :
    (req.cancelAfter ≠ some 0 ∧ ∃ w', isCancelled req w = (false, req.polled, w') ∧
      w.Adds w' req.id [.polled false]) ∨
      (req.cancelAfter = some 0 ∧
        ∃ w', isCancelled req w = (true, { req with onCancel := false }, w') ∧
        w.Adds w' req.id [.polled true, .onCancel]) := by
  have hpolls := w.isCancelled_polls req
  generalize isCancelled req w = polled at hpolls ⊢
  cases hpolls with
  | running w' hopen hadds => exact Or.inl ⟨hopen, w', rfl, hadds⟩
  | first w' hcancelled _ hadds => exact Or.inr ⟨hcancelled, w', rfl, hadds⟩
  | again w' _ hagain => exact absurd (h.installed.symm.trans hagain) Bool.noConfusion

end InferenceRequest

section Records

/-- The record of a waiting request. -/
def InferenceRequest.record (b : Bridge L) (terms : Terms) (req : InferenceRequest) : Record :=
  ⟨req.id, req.Waits b terms⟩

/-- The record of a prefill. -/
def PrefillCtx.record (b : Bridge L) (terms : Terms) (ctx : PrefillCtx) : Record :=
  ⟨ctx.req.id, ctx.Serves b terms⟩

/-- The record of an active sequence. -/
def ActiveSeq.record (b : Bridge L) (terms : Terms) (seq : ActiveSeq L) : Record :=
  ⟨seq.req.id, seq.Serves b terms⟩

/-- The record of an active sequence in a step that may or may not decode. -/
def ActiveSeq.sampling (b : Bridge L) (terms : Terms) (decodes : Prop) (seq : ActiveSeq L) :
    Record :=
  ⟨seq.req.id, fun es => seq.Serves b terms es ∧ (decodes → seq.Tolerates b terms)⟩

end Records

end RadixForge
