import RadixForge.Worker.Isolation
import RadixForge.Worker.Transparency

/-!
# The load of a worker

A waiting request weighs its prompt and its budget, and the load of a worker is that of its queue
with the work of its two lists. Preparing a batch adds no load. If nothing is in progress it
prepares a request or takes load away, since then nothing is pending that a request could wait for,
and the pool has a sequence to give.
-/

namespace RadixForge

open Library

variable {L : Type} {b : Bridge L} {config : Config} {order : ChildOrder}

/-- What a waiting request asks for: the tokens of its prompt, and its budget. -/
def InferenceRequest.weight (b : Bridge L) (req : InferenceRequest) : ℤ :=
  (b.promptTokens req).length + max 1 req.maxTokens

/-- A request weighs at least one: it is in the queue. -/
theorem InferenceRequest.one_le_weight (req : InferenceRequest) : 1 ≤ req.weight b := by
  have hone := le_max_left 1 req.maxTokens
  unfold weight
  omega

/-- A budget that is clamped to the context window weighs no more. -/
theorem InferenceRequest.clamp_weight (req : InferenceRequest) (available : ℤ) :
    (req.clamp available).weight b ≤ req.weight b := by
  unfold clamp
  split
  · rename_i hless
    exact add_le_add_right (max_le_max_left 1 hless.le) _
  · exact le_rfl

/-- The poll of `cancelled` keeps the weight of a request. -/
theorem isCancelled_weight (req : InferenceRequest) (w : World) :
    (isCancelled req w).2.1.weight b = req.weight b := by
  unfold InferenceRequest.weight
  rw [isCancelled_promptTokens, isCancelled_maxTokens]

/-- What is left to do for a request after its turn. -/
def Preparation.load (b : Bridge L) : Preparation → ℤ
  | .rejected => 0
  | .deferred req => req.weight b
  | .exhausted req => req.weight b
  | .prepared ctx => ctx.work

/-- What is left to do for the requests of a batch. -/
def Batch.load (b : Bridge L) (batch : Batch) : ℤ :=
  (batch.ctxs.map PrefillCtx.work).sum +
    ((batch.queued ++ batch.deferred).map (InferenceRequest.weight b)).sum

/-- The load of a worker. -/
def Worker.load (b : Bridge L) (k : Worker L) : ℤ :=
  k.slots.work + (k.waiting.map (InferenceRequest.weight b)).sum

section Preparing

/-- A turn adds no load. -/
theorem prepareOne_load (req : InferenceRequest) (w : World) :
    (prepareOne b req w).1.load b ≤ req.weight b := by
  have hpositive : 0 ≤ req.weight b := Int.le_of_lt req.one_le_weight
  have hclamped := req.clamp_weight (b := b) (b.available req)
  unfold prepareOne
  simp only
  split
  · exact hpositive
  · split
    · exact hclamped
    · simp only [World.prepareSequence]
      cases hresult : (w.mapper.prepareSequence (b.promptTokens req)).2 with
      | error e => exact hclamped
      | ok prep =>
        have hdelta := KVMapper.prepareSequence_delta hresult
        simp only
        split
        · exact hpositive
        · have hshort : prep.delta.length ≤ (b.promptTokens req).length := by
            rw [hdelta, List.length_drop]
            exact Nat.sub_le _ _
          have hsame : b.promptTokens (req.clamp (b.available req)) = b.promptTokens req := by
            unfold InferenceRequest.clamp
            split <;> rfl
          rw [InferenceRequest.weight, hsame] at hclamped
          show ((prep.delta.length - 0 : ℕ) : ℤ) + max 1 (req.clamp (b.available req)).maxTokens ≤
            req.weight b
          omega

/-- Requests that are put back add no load. -/
theorem keepQueued_load (req : InferenceRequest) (w : World) :
    ((keepQueued req w).1.toList.map (InferenceRequest.weight b)).sum ≤ req.weight b := by
  have hone := req.one_le_weight (b := b)
  have hweight := isCancelled_weight (b := b) req w
  unfold keepQueued
  generalize isCancelled req w = polled at hweight ⊢
  obtain ⟨cancelled, req', w'⟩ := polled
  cases cancelled with
  | true =>
    show 0 ≤ req.weight b
    omega
  | false => simpa using hweight.le

/-- Preparing a batch adds no load. -/
theorem prepareAll_load (reqs : List InferenceRequest) (w : World) :
    (prepareAll b reqs w).1.load b ≤ (reqs.map (InferenceRequest.weight b)).sum := by
  induction reqs generalizing w with
  | nil => exact le_rfl
  | cons req rest ih =>
    have hone := req.one_le_weight (b := b)
    have hweight := isCancelled_weight (b := b) req w
    rw [List.map_cons, List.sum_cons]
    unfold prepareAll
    generalize isCancelled req w = polled at hweight ⊢
    obtain ⟨cancelled, req', w₁⟩ := polled
    simp only at hweight ⊢
    split
    · have hrest := ih w₁
      omega
    · have hturn := prepareOne_load (b := b) req' w₁
      generalize prepareOne b req' w₁ = outcome at hturn ⊢
      obtain ⟨preparation, w₂⟩ := outcome
      have hrest := ih w₂
      cases preparation with
      | rejected =>
        simp only
        omega
      | deferred r =>
        simp only [Preparation.load, Batch.load, List.map_append, List.sum_append,
          List.map_cons, List.sum_cons]
          at hturn hrest ⊢
        omega
      | exhausted r =>
        have hkept := pass_sum_le (P := fun _ => True)
          (fun req w _ => keepQueued_load (b := b) req w) rest
          (fun _ _ => trivial) w₂
        simp only [Preparation.load, Batch.load, List.map_append, List.sum_append,
          List.map_cons, List.sum_cons, List.map_nil, List.sum_nil] at hturn ⊢
        omega
      | prepared ctx =>
        simp only [Preparation.load, Batch.load, List.map_cons, List.sum_cons] at hturn hrest ⊢
        omega

end Preparing

section Quiet

variable {s : Session} {path : NodeId → List Token} {idle : NodeId → Option SeqId}

/-- A pool that cannot be blocked by what is idle: it has two sequences, or nothing is ever idle. -/
def Config.Roomy (config : Config) : Prop :=
  3 ≤ config.maxSequences ∨ config.prefixCacheEnabled = false ∧ 2 ≤ config.maxSequences

instance (config : Config) : Decidable config.Roomy := inferInstanceAs (Decidable (_ ∨ _))

/-- In a quiet session with a roomy pool every preparation succeeds. -/
theorem Books.prepare_of_quiet (h : Books s path idle) (hquiet : s.Quiet)
    (hroomy : s.mapper.config.Roomy) (prompt : List Token) :
    ∃ result, (s.mapper.prepareSequence prompt).2 = .ok result := by
  rcases hroomy with hthree | ⟨hoff, htwo⟩
  · by_cases hused : s.mapper.kvCellsUsed ≤ s.mapper.config.highWatermark
    · by_cases hfree : s.mapper.freeSeqIds = []
      · rw [h.prepare_of_empty hquiet prompt hused hfree]
        -- the two ids are idle, so they are not at one node
        obtain ⟨n, hn⟩ := h.idle_of_usable hquiet hfree (i := 1) le_rfl (by omega)
        obtain ⟨m, hm⟩ := h.idle_of_usable hquiet hfree (i := 2) (by omega) (by omega)
        by_cases hnode : n = (s.mapper.tree.insert prompt).2.node
        · refine ⟨m, 2, hm, ?_⟩
          rintro rfl
          rw [hnode, hm] at hn
          exact absurd (Option.some.inj hn) (by decide)
        · exact ⟨n, 1, hn, hnode⟩
      · exact h.prepare_of_room hquiet prompt fun _ => hfree
    · exact h.prepare_of_room hquiet prompt fun hle => absurd hle hused
  · rw [h.prepare_ok_iff_cold hquiet.2.2 hoff]
    have hlength := h.free_length_cold hoff
    rw [hquiet.1, List.length_nil] at hlength
    exact List.length_pos_iff.mp (by omega)

/-- A worker with nothing in progress can prepare whatever comes next. -/
theorem World.Tracked.prepare_of_quiet {w : World} (h : w.Tracked config order [])
    (hroomy : config.Roomy) (prompt : List Token) :
    ∃ result, (w.mapper.prepareSequence prompt).2 = .ok result := by
  obtain ⟨s, hfollows, hlive, _, hholds, hhand⟩ := h
  obtain ⟨_, _, hbooks⟩ := hfollows.sound
  have hconfig : s.mapper.config = config := Session.run_config hfollows.run
  rw [← hfollows.mapper]
  exact hbooks.prepare_of_quiet ⟨hlive.eq_nil, hholds, hhand⟩ (hconfig ▸ hroomy) prompt

/-- With nothing in progress a request is prepared or rejected at its turn. -/
theorem prepareOne_quiet {w : World} (h : w.Tracked config order []) (hroomy : config.Roomy)
    (req : InferenceRequest) :
    (∃ w', prepareOne b req w = (.rejected, w')) ∨
      ∃ ctx w', prepareOne b req w = (.prepared ctx, w') := by
  obtain ⟨prep, hprep⟩ := h.prepare_of_quiet hroomy (b.promptTokens req)
  simp only [prepareOne, h.goes (b.promptTokens req), World.prepareSequence, hprep,
    Bool.false_eq_true, if_false]
  by_cases hshort : b.available req ≤ 0
  · rw [if_pos hshort]
    exact Or.inl ⟨_, rfl⟩
  · rw [if_neg hshort]
    by_cases hdelta : prep.delta = []
    · rw [if_pos hdelta]
      exact Or.inl ⟨_, rfl⟩
    · rw [if_neg hdelta]
      exact Or.inr ⟨_, _, rfl⟩

/-- With nothing in progress a batch prepares a request or takes load away. -/
theorem prepareAll_quiet {w : World} (h : w.Tracked config order []) (hroomy : config.Roomy)
    {reqs : List InferenceRequest} (hne : reqs ≠ []) :
    (prepareAll b reqs w).1.ctxs ≠ [] ∨
      (prepareAll b reqs w).1.load b < (reqs.map (InferenceRequest.weight b)).sum := by
  obtain ⟨req, rest, rfl⟩ := List.exists_cons_of_ne_nil hne
  have hone := req.one_le_weight (b := b)
  have hpolled := h.isCancelled req
  have hrest (w : World) := prepareAll_load (b := b) rest w
  rw [List.map_cons, List.sum_cons]
  unfold prepareAll
  generalize isCancelled req w = polled at hpolled ⊢
  obtain ⟨cancelled, req', w₁⟩ := polled
  cases cancelled with
  | true =>
    have hload := hrest w₁
    refine Or.inr ?_
    simp only [if_true]
    omega
  | false =>
    simp only [Bool.false_eq_true, if_false] at hpolled ⊢
    rcases prepareOne_quiet (b := b) hpolled hroomy req' with ⟨w', hturn⟩ | ⟨ctx, w', hturn⟩
    · have hload := hrest w'
      refine Or.inr ?_
      simp only [hturn]
      omega
    · refine Or.inl ?_
      simp only [hturn]
      exact List.cons_ne_nil _ _

end Quiet

end RadixForge
