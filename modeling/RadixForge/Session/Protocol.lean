import RadixForge.Library.Run
import RadixForge.Mapper.KVMapper

/-!
# Clients of the mapper

What a request does with the mapper, as a protocol: prepare a sequence, decode its tokens in
order, mark it ready after the whole prompt, optionally extend it to everything decoded, release
it, and give the node's reference back. A session is the mapper together with its clients; a
step of the session is one call that the protocol permits, in any interleaving of clients.
-/

namespace RadixForge

open Library

/-- One call on the mapper, its tree or its memory. -/
inductive Call where
  | prepare (prompt : List Token)
  | decode (seqId : SeqId) (token : Token) (pos : ℕ)
  | markReady (seqId : SeqId) (node : NodeId)
  | setCellCount (seqId : SeqId) (cellCount : ℕ)
  | extend (seqId : SeqId) (node : NodeId) (tokens : List Token)
  | releaseSequence (seqId : SeqId) (node : NodeId)
  | release (node : NodeId)
  | gcIfNeeded
  | evictIdle
  | evictKvPressure
deriving DecidableEq

/-- Add the cell of a decoded row. -/
def KVMapper.decodeToken (m : KVMapper) (seqId : SeqId) (token : Token) (pos : ℕ) : KVMapper :=
  { m with memory := m.memory.append seqId token pos }

/-- The mapper after a call. -/
def Call.apply (m : KVMapper) : Call → KVMapper
  | .prepare prompt => (m.prepareSequence prompt).1
  | .decode seqId token pos => m.decodeToken seqId token pos
  | .markReady seqId node => m.markSequenceReady seqId node
  | .setCellCount seqId cellCount => m.setSequenceCellCount seqId cellCount
  | .extend seqId node tokens => (m.extendSequence seqId node tokens).1
  | .releaseSequence seqId node => m.releaseSequence seqId node
  | .release node => m.releaseNode node
  | .gcIfNeeded => m.gcIfNeeded
  | .evictIdle => m.evictIdleSequence.1
  | .evictKvPressure => m.evictKvPressure

/-- A client between the preparation and the release of its sequence. The owner is the node where
the sequence is registered, the history what its cells hold. -/
structure Client where
  prompt : List Token
  seqId : SeqId
  leaf : NodeId
  owner : NodeId
  history : List Token
  ready : Bool
deriving DecidableEq

/-- The client of a successful preparation. -/
def Client.prepared (prompt : List Token) (result : PrepareResult) : Client where
  prompt := prompt
  seqId := result.seqId
  leaf := result.leafNode
  owner := result.leafNode
  history := prompt.take result.cachedPos
  ready := false

/-- Whether the client may decode this token at this position next. -/
def Client.Next (c : Client) (token : Token) (pos : ℕ) : Prop :=
  pos = c.history.length ∧ (c.prompt.length ≤ pos ∨ c.prompt[pos]? = some token)

instance (c : Client) (token : Token) (pos : ℕ) : Decidable (c.Next token pos) :=
  inferInstanceAs (Decidable (_ ∧ _))

/-- The mapper, its clients, the references still to be given back by released clients, and the
sequence whose extension must be followed by its release. -/
structure Session where
  mapper : KVMapper
  live : List Client
  holds : List NodeId
  hand : Option SeqId

namespace Session

/-- No clients on a fresh mapper. -/
def init (config : Config) (order : ChildOrder) : Session where
  mapper := .init config order
  live := []
  holds := []
  hand := none

/-- The client of a sequence. -/
def client (s : Session) (seqId : SeqId) : Option Client := s.live.find? fun c => c.seqId = seqId

/-- Change the client of a sequence. -/
def change (s : Session) (seqId : SeqId) (f : Client → Client) : Session :=
  { s with live := s.live.map fun c => if c.seqId = seqId then f c else c }

/-- Apply a call to the mapper. -/
def call (s : Session) (c : Call) : Session := { s with mapper := c.apply s.mapper }

/-- The client leaves; its reference is still held. -/
def retire (s : Session) (c : Client) : Session :=
  { s with live := s.live.filter fun d => d.seqId ≠
    c.seqId, holds := c.leaf :: s.holds, hand := none }

/-- One call of a client or of the environment; a call the protocol does not permit is refused. -/
def step (s : Session) (call : Call) : Option Session :=
  match call with
  | .releaseSequence seqId node =>
    (s.client seqId).bind fun c =>
      if node = c.owner ∧ (s.hand = none ∨ s.hand = some seqId) then some ((s.call call).retire c)
        else none
  | _ =>
    if s.hand ≠ none then none
    else
      match call with
      | .prepare prompt =>
        match (s.mapper.prepareSequence prompt).2 with
        | .ok result => some { s.call call with live := .prepared prompt result :: s.live }
        | .error _ => some (s.call call)
      | .decode seqId token pos =>
        (s.client seqId).bind fun c =>
          if c.Next token pos then
            some ((s.call call).change seqId fun c => { c with history := c.history ++ [token] })
          else none
      | .markReady seqId node =>
        (s.client seqId).bind fun c =>
          if node = c.leaf ∧ c.prompt ≠ [] ∧ c.prompt.length ≤ c.history.length then
            some ((s.call call).change seqId fun c => { c with ready := true })
          else none
      | .setCellCount seqId _ => (s.client seqId).map fun _ => s.call call
      | .extend seqId node tokens =>
        (s.client seqId).bind fun c =>
          if node = c.leaf ∧ c.ready ∧ tokens = c.history then
            some { (s.call call).change seqId fun c =>
              { c with owner := (s.mapper.extendSequence seqId node
                tokens).2 } with hand := some seqId }
          else none
      | .release node =>
        if node ∈ s.holds then some { s.call call with holds := s.holds.erase node } else none
      | _ => some (s.call call)

/-- The runs of a session: any number of permitted calls in any order. -/
abbrev Run (s : Session) (calls : List Call) (s' : Session) : Prop := run step s calls = some s'

/-- A client that is found is a live one with that sequence. -/
theorem mem_of_client {s : Session} {seqId : SeqId} {c : Client} (h : s.client seqId = some c) :
    c ∈ s.live ∧ c.seqId = seqId := by
  refine ⟨List.mem_of_find?_eq_some h, ?_⟩
  simpa using List.find?_some h

/-- What a permitted call asks of its client and does to the session. -/
inductive Permitted (s : Session) : Call → Session → Prop where
  | prepare {prompt : List Token} {result : PrepareResult} (hhand : s.hand = none)
      (hprepare : (s.mapper.prepareSequence prompt).2 = .ok result) :
      Permitted s (.prepare prompt)
        { s.call (.prepare prompt) with live := .prepared prompt result :: s.live }
  | exhausted {prompt : List Token} {e : SequenceCapacityExhausted} (hhand : s.hand = none)
      (hprepare : (s.mapper.prepareSequence prompt).2 = .error e) :
      Permitted s (.prepare prompt) (s.call (.prepare prompt))
  | decode {c : Client} {token : Token} {pos : ℕ} (hhand : s.hand = none) (hc : c ∈ s.live)
      (hnext : c.Next token pos) :
      Permitted s (.decode c.seqId token pos)
        ((s.call (.decode c.seqId token pos)).change c.seqId fun c =>
          { c with history := c.history ++ [token] })
  | markReady {c : Client} (hhand : s.hand = none) (hc : c ∈ s.live) (hprompt : c.prompt ≠ [])
      (hlen : c.prompt.length ≤ c.history.length) :
      Permitted s (.markReady c.seqId c.leaf)
        ((s.call (.markReady c.seqId c.leaf)).change c.seqId fun c => { c with ready := true })
  | setCellCount {c : Client} {cellCount : ℕ} (hhand : s.hand = none) (hc : c ∈ s.live) :
      Permitted s (.setCellCount c.seqId cellCount) (s.call (.setCellCount c.seqId cellCount))
  | extend {c : Client} (hhand : s.hand = none) (hc : c ∈ s.live) (hready : c.ready = true) :
      Permitted s (.extend c.seqId c.leaf c.history)
        { (s.call (.extend c.seqId c.leaf c.history)).change c.seqId fun d =>
            { d with owner := (s.mapper.extendSequence c.seqId c.leaf
              c.history).2 } with hand := some c.seqId }
  | releaseSequence {c : Client} (hc : c ∈ s.live) (hhand : s.hand = none ∨ s.hand = some c.seqId) :
      Permitted s (.releaseSequence c.seqId c.owner)
        ((s.call (.releaseSequence c.seqId c.owner)).retire c)
  | release {node : NodeId} (hhand : s.hand = none) (hnode : node ∈ s.holds) :
      Permitted s (.release node) { s.call (.release node) with holds := s.holds.erase node }
  | gcIfNeeded (hhand : s.hand = none) : Permitted s .gcIfNeeded (s.call .gcIfNeeded)
  | evictIdle (hhand : s.hand = none) : Permitted s .evictIdle (s.call .evictIdle)
  | evictKvPressure (hhand : s.hand = none) : Permitted s .evictKvPressure (s.call .evictKvPressure)

/-- A call that the session accepts was permitted. -/
theorem permitted_of_step {s s' : Session} {call : Call} (hstep : s.step call = some s') :
    s.Permitted call s' := by
  have hguarded {seqId : SeqId} {p : Client → Prop} [∀ c, Decidable (p c)] {f : Client → Session}
      (h : ((s.client seqId).bind fun c => if p c then some (f c) else none) = some s') :
      ∃ c ∈ s.live, c.seqId = seqId ∧ p c ∧ f c = s' := by
    obtain ⟨c, hc, hif⟩ := Option.bind_eq_some_iff.mp h
    obtain ⟨hp, hs'⟩ := Option.ite_none_right_eq_some.mp hif
    obtain ⟨hmem, hseq⟩ := mem_of_client hc
    exact ⟨c, hmem, hseq, hp, Option.some.inj hs'⟩
  -- every call but the release of an extended sequence needs an empty hand
  have hidle {x : Option Session} (h : (if s.hand ≠ none then none else x) = some s') :
      s.hand = none ∧ x = some s' := by
    obtain ⟨hnone, hx⟩ := Option.ite_none_left_eq_some.mp h
    exact ⟨not_not.mp hnone, hx⟩
  cases call with
  | prepare prompt =>
    obtain ⟨hhand, hrest⟩ := hidle hstep
    simp only at hrest
    split at hrest
    · rename_i result hprepare
      exact Option.some.inj hrest ▸ .prepare hhand hprepare
    · rename_i e hprepare
      exact Option.some.inj hrest ▸ .exhausted hhand hprepare
  | decode seqId token pos =>
    obtain ⟨hhand, hrest⟩ := hidle hstep
    obtain ⟨c, hc, rfl, hnext, rfl⟩ := hguarded hrest
    exact .decode hhand hc hnext
  | markReady seqId node =>
    obtain ⟨hhand, hrest⟩ := hidle hstep
    obtain ⟨c, hc, rfl, ⟨rfl, hprompt, hlen⟩, rfl⟩ := hguarded hrest
    exact .markReady hhand hc hprompt hlen
  | setCellCount seqId cellCount =>
    obtain ⟨hhand, hrest⟩ := hidle hstep
    obtain ⟨c, hc, rfl⟩ := Option.map_eq_some_iff.mp hrest
    obtain ⟨hmem, rfl⟩ := mem_of_client hc
    exact .setCellCount hhand hmem
  | extend seqId node tokens =>
    obtain ⟨hhand, hrest⟩ := hidle hstep
    obtain ⟨c, hc, rfl, ⟨rfl, hready, rfl⟩, rfl⟩ := hguarded hrest
    exact .extend hhand hc hready
  | releaseSequence seqId node =>
    obtain ⟨c, hc, rfl, ⟨rfl, hhand⟩, rfl⟩ := hguarded hstep
    exact .releaseSequence hc hhand
  | release node =>
    obtain ⟨hhand, hrest⟩ := hidle hstep
    obtain ⟨hnode, hs'⟩ := Option.ite_none_right_eq_some.mp hrest
    exact Option.some.inj hs' ▸ .release hhand hnode
  | gcIfNeeded =>
    obtain ⟨hhand, hrest⟩ := hidle hstep
    exact Option.some.inj hrest ▸ .gcIfNeeded hhand
  | evictIdle =>
    obtain ⟨hhand, hrest⟩ := hidle hstep
    exact Option.some.inj hrest ▸ .evictIdle hhand
  | evictKvPressure =>
    obtain ⟨hhand, hrest⟩ := hidle hstep
    exact Option.some.inj hrest ▸ .evictKvPressure hhand

/-- A permitted call does to the mapper what the call does. -/
theorem step_mapper {s s' : Session} {call : Call} (hstep : s.step call = some s') :
    s'.mapper = call.apply s.mapper := by
  cases permitted_of_step hstep <;> rfl

/-- The mapper after a run is the one after its calls in order. -/
theorem run_mapper {s s' : Session} {calls : List Call} (hrun : s.Run calls s') :
    s'.mapper = calls.foldl Call.apply s.mapper := by
  induction calls generalizing s with
  | nil =>
    cases hrun
    rfl
  | cons call rest ih =>
    obtain ⟨s₁, hstep, hrest⟩ := Option.bind_eq_some_iff.mp hrun
    rw [ih hrest, step_mapper hstep, List.foldl_cons]

end Session

/-- No call changes the configuration. -/
@[simp] theorem Call.apply_config (m : KVMapper) (call : Call) :
    (call.apply m).config = m.config := by
  cases call <;> simp [Call.apply, KVMapper.decodeToken, KVMapper.markSequenceReady,
    KVMapper.releaseNode, KVMapper.evictIdleSequence, KVMapper.gcIfNeeded]
  split <;> simp

/-- Runs leave the configuration. -/
theorem Session.run_config {s s' : Session} {calls : List Call} (hrun : s.Run calls s') :
    s'.mapper.config = s.mapper.config := by
  rw [run_mapper hrun]
  clear hrun
  generalize s.mapper = m
  induction calls generalizing m with
  | nil => rfl
  | cons call rest ih => rw [List.foldl_cons, ih, Call.apply_config]

end RadixForge
