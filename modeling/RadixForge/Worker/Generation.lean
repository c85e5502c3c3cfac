import RadixForge.Worker.FusedStep

/-!
# What a request receives

The text that a request generates is a function of its prompt and its parameters. A departure
closes the callbacks of a request: how it ended, and what was still invoked after that.
-/

namespace RadixForge

open Library

variable {L : Type}

/-- Sample from the logits of a history. -/
def Sampler.next (b : Bridge L) (s : Sampler L) (history : List Token) : Token × Sampler L :=
  let s := { s with given := s.given ++ [some (b.logits (LlamaMemory.tape history))] }
  (b.sample s.temperature s.topP s.given, s)

/-- What the sampler returns for a row holding the logits of a history is its next token after it.
-/
theorem Sampler.sampleRow_eq (b : Bridge L) (s : Sampler L) {outputs : List (Option L)} {row : ℕ}
    {history : List Token} (h : (outputs[row]?).join = some (b.logits (LlamaMemory.tape history))) :
    s.sampleRow b outputs row = s.next b history := by
  simp only [sampleRow, next, h]

namespace Bridge

/-- Generate at most the given number of tokens after a history. -/
def generateLoop (b : Bridge L) : ℕ → Sampler L → List Token → List Token
  | 0, _, _ => []
  | n + 1, s, history =>
    let (token, s) := s.next b history
    if b.isEog token then [] else token :: generateLoop b n s (history ++ [token])

/-- The tokens that a request generates from its prompt alone. -/
def generate (b : Bridge L) (req : InferenceRequest) : List Token :=
  if b.available req ≤ 0 ∨ b.promptTokens req = [] then []
  else b.generateLoop (max 1 (min req.maxTokens (b.available req))).toNat
    { temperature := req.temperature, topP := req.topP } (b.promptTokens req)

/-- One more turn of the reference loop: nothing after an end of generation, else the token and the
rest. -/
theorem generateLoop_succ (b : Bridge L) (n : ℕ) (s : Sampler L) (history : List Token) :
    b.generateLoop (n + 1) s history = if b.isEog (s.next b history).1 then []
      else (s.next b history).1 :: b.generateLoop n (s.next b history).2
        (history ++ [(s.next b history).1]) := rfl

/-- The clamp does not change what is generated. -/
theorem generate_clamp (b : Bridge L) (req : InferenceRequest) :
    b.generate (req.clamp (b.available req)) = b.generate req := by
  have hclamp : min (req.clamp (b.available req)).maxTokens (b.available req) =
      min req.maxTokens (b.available req) := by
    unfold InferenceRequest.clamp
    split
    · rename_i hlt
      rw [min_self, min_eq_right hlt.le]
    · rfl
  have hsame : ∀ {α : Type} (f : InferenceRequest →
      α) (_ : ∀ m, f { req with maxTokens := m } = f req), f (req.clamp (b.available req)) =
        f req := by
    intro α f hf
    unfold InferenceRequest.clamp
    split
    · exact hf _
    · rfl
  simp only [generate, hclamp, hsame b.available fun _ => rfl, hsame b.promptTokens fun _ => rfl,
    hsame InferenceRequest.temperature fun _ => rfl, hsame InferenceRequest.topP fun _ => rfl]

end Bridge

/-- The token that a callback delivers. -/
def Event.token? : Event → Option Token
  | .onToken token _ _ _ => token
  | _ => none

/-- The tokens delivered to a request. -/
def delivered (es : List Event) : List Token := es.filterMap Event.token?

/-- A last piece, an error or a cancellation. -/
def Event.isTerminal : Event → Bool
  | .onToken _ _ isLast _ => isLast
  | .onError _ _ => true
  | .onCancel => true
  | .polled _ => false

/-- A last piece. -/
def Event.isLast : Event → Bool
  | .onToken _ _ isLast _ => isLast
  | _ => false

/-- Nothing is invoked after a terminal event. -/
def Orderly (es : List Event) : Prop :=
  ∀ before e after, es = before ++ e :: after → e.isTerminal = true → after = []

/-- The tokens delivered by two stretches of callbacks are those of each in turn. -/
@[simp] theorem delivered_append (as bs : List Event) :
    delivered (as ++ bs) = delivered as ++ delivered bs :=
  List.filterMap_append

/-- The tokens delivered from a callback on are its own token and those of the rest. -/
@[simp] theorem delivered_cons (e : Event) (es : List Event) :
    delivered (e :: es) = e.token?.toList ++ delivered es := by
  unfold delivered
  rw [List.filterMap_cons]
  cases e.token? <;> rfl

/-- No callback delivers no token. -/
@[simp] theorem delivered_nil : delivered [] = [] := rfl

/-- How a request ended. -/
inductive Closing where
  | completed
  | rejected
  | failed
  | cancelled
  | silent

/-- What was invoked after the end. -/
inductive Tail where
  | quiet
  | polled
  | cancelled

/-- The terminal event of an ending, with the tokens delivered before. -/
inductive Closes (generated given : List Token) : Closing → Event → Prop where
  | completed (token : Option Token) (piece : List UInt8) (stats : Option InferenceStats)
      (h : given ++ token.toList = generated) : Closes generated given .completed
        (.onToken token piece true stats)
  | rejected (message : String) (status : ℕ) (h : given = generated) :
      Closes generated given .rejected (.onError message status)
  | failed (message : String) (status : ℕ) (h : given <+: generated) :
      Closes generated given .failed (.onError message status)
  | cancelled (h : given <+: generated) : Closes generated given .cancelled .onCancel

/-- The callbacks after a terminal event. -/
inductive Trails : Tail → List Event → Prop where
  | quiet : Trails .quiet []
  | polled (after : List Event) (h : ∀ e ∈ after, ∃ answer, e = .polled answer) :
      Trails .polled after
  | cancelled : Trails .cancelled [.polled true, .onCancel]

/-- The callbacks of a request that left the worker. -/
inductive Departed (generated : List Token) : Closing → Tail → List Event → Prop where
  | silent (es : List Event) (hopen : ∀ e ∈ es, e.isTerminal = false)
      (h : delivered es <+: generated) :
      Departed generated .silent .quiet es
  | closed (before : List Event) (e : Event) (after : List Event) {closing : Closing} {tail : Tail}
      (hopen : ∀ e ∈ before, e.isTerminal = false)
        (hcloses : Closes generated (delivered before) closing e)
      (htrails : Trails tail after) : Departed generated closing tail (before ++ e :: after)

/-- A closing callback delivers no more than the reference generation has. -/
theorem Closes.delivered {generated given : List Token} {closing : Closing} {e : Event}
    (h : Closes generated given closing e) : given ++ e.token?.toList <+: generated := by
  cases h with
  | completed token piece stats h => exact h ▸ List.prefix_refl _
  | rejected message status h => exact h ▸ (List.append_nil given).symm ▸ List.prefix_refl _
  | failed message status h => exact (List.append_nil given).symm ▸ h
  | cancelled h => exact (List.append_nil given).symm ▸ h

/-- A closing callback is terminal. -/
theorem Closes.terminal {generated given : List Token} {closing : Closing} {e : Event}
    (h : Closes generated given closing e) : e.isTerminal = true := by
  cases h <;> rfl

/-- What trails the closing callback delivers nothing. -/
theorem Trails.delivered {tail : Tail} {after : List Event} (h : Trails tail after) :
    delivered after = [] := by
  cases h with
  | quiet => rfl
  | polled _ h =>
    refine List.filterMap_eq_nil_iff.mpr fun e he => ?_
    obtain ⟨answer, rfl⟩ := h e he
    rfl
  | cancelled => rfl

namespace Departed

variable {generated : List Token} {closing : Closing} {tail : Tail} {es : List Event}

/-- What is delivered is a prefix of what the request generates. -/
theorem delivered_prefix (h : Departed generated closing tail es) : delivered es <+: generated := by
  cases h with
  | silent _ _ h => exact h
  | closed before e after _ hcloses htrails =>
    rw [delivered_append, delivered_cons, htrails.delivered, List.append_nil]
    exact hcloses.delivered

/-- A completed or rejected request has received all that it generates. -/
theorem delivered_eq (h : Departed generated closing tail es)
    (hclosing : closing = .completed ∨ closing = .rejected) :
    delivered es = generated := by
  cases h with
  | silent => simp at hclosing
  | closed before e after _ hcloses htrails =>
    rw [delivered_append, delivered_cons, htrails.delivered, List.append_nil]
    cases hcloses with
    | completed _ _ _ h => exact h
    | rejected _ _ h => exact (List.append_nil _).trans h
    | failed => simp at hclosing
    | cancelled => simp at hclosing

/-- A request that received a last piece is completed. -/
theorem completed_of_last (h : Departed generated closing tail es) {e : Event} (he : e ∈ es)
    (hlast : e.isLast = true) :
    closing = .completed := by
  have hterminal : e.isTerminal = true := by cases e <;> simp_all [Event.isLast, Event.isTerminal]
  cases h with
  | silent _ hopen _ => exact absurd hterminal (by rw [hopen e he]; exact Bool.false_ne_true)
  | closed before e' after hopen hcloses htrails =>
    rcases List.mem_append.mp he with hbefore | hafter
    · exact absurd hterminal (by rw [hopen e hbefore]; exact Bool.false_ne_true)
    · rcases List.mem_cons.mp hafter with rfl | hafter
      · cases hcloses with
        | completed => rfl
        | _ => simp [Event.isLast] at hlast
      · cases htrails with
        | quiet => exact absurd hafter List.not_mem_nil
        | polled _ h =>
          obtain ⟨answer, rfl⟩ := h e hafter
          simp [Event.isLast] at hlast
        | cancelled =>
          rcases List.mem_pair.mp hafter with rfl | rfl <;> simp [Event.isLast] at hlast

/-- Without a tail nothing follows the terminal event. -/
theorem orderly (h : Departed generated closing .quiet es) : Orderly es := by
  have hopened {before : List Event} (hopen : ∀ e ∈ before, e.isTerminal = false)
      {xs : List Event} {e : Event}
      {ys : List Event} (heq : before = xs ++ e :: ys) : e.isTerminal = false :=
    hopen e (heq ▸ List.mem_append_right _ List.mem_cons_self)
  intro xs e ys heq hterminal
  cases h with
  | silent _ hopen _ => exact absurd hterminal (by rw [hopened hopen heq]; exact Bool.false_ne_true)
  | closed before e' after hopen _ htrails =>
    cases htrails
    rcases List.eq_nil_or_concat ys with rfl | ⟨ys', y, rfl⟩
    · rfl
    · rw [List.concat_eq_append, ← List.cons_append, ← List.append_assoc] at heq
      exact absurd hterminal
        (by rw [hopened hopen (List.append_inj_left' heq rfl)]; exact Bool.false_ne_true)

/-- A request that did not leave silently, and was not cancelled after its end, has one terminal
event. -/
theorem one_terminal (h : Departed generated closing tail es) (hclosing : closing ≠ .silent)
    (htail : tail ≠ .cancelled) :
    es.countP Event.isTerminal = 1 := by
  cases h with
  | silent => exact absurd rfl hclosing
  | closed before e after hopen hcloses htrails =>
    have hbefore : before.countP Event.isTerminal = 0 := List.countP_eq_zero.mpr fun x hx => by
      simp [hopen x hx]
    have hafter : after.countP Event.isTerminal = 0 := by
      refine List.countP_eq_zero.mpr fun x hx => ?_
      cases htrails with
      | quiet => exact absurd hx List.not_mem_nil
      | polled _ h =>
        obtain ⟨answer, rfl⟩ := h x hx
        simp [Event.isTerminal]
      | cancelled => exact absurd rfl htail
    rw [List.countP_append, List.countP_cons, hbefore, hafter, hcloses.terminal]
    rfl

/-- Another poll. -/
theorem poll (h : Departed generated closing tail es) (hclosing : closing ≠ .silent)
    (htail : tail ≠ .cancelled) (answer : Bool) :
    Departed generated closing .polled (es ++ [.polled answer]) := by
  cases h with
  | silent => exact absurd rfl hclosing
  | closed before e after hopen hcloses htrails =>
    rw [List.append_assoc, List.cons_append]
    refine .closed before e _ hopen hcloses (.polled _ fun x hx => ?_)
    rcases List.mem_append.mp hx with hx | hx
    · cases htrails with
      | quiet => exact absurd hx List.not_mem_nil
      | polled _ h => exact h x hx
      | cancelled => exact absurd rfl htail
    · exact ⟨answer, List.mem_singleton.mp hx⟩

end Departed

end RadixForge
