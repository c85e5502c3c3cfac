import RadixForge.Worker.Generation

/-!
# The ledger of requests

A ledger lists the requests that the worker still has, each with what its callbacks so far
satisfy; every other request that arrived has departed, in one of the ways that the terms allow. A
step of one request adds callbacks to that request only, so the ledger is kept entry by entry.
-/

namespace RadixForge

open Library

/-- What each request generates, how many arrived, and which departures are allowed. -/
structure Terms where
  generated : ℕ → List Token
  arrived : ℕ
  allowed : Closing → Tail → Prop

/-- A request has departed in an allowed way. -/
def Terms.Left (terms : Terms) (id : ℕ) (es : List Event) : Prop :=
  ∃ closing tail, terms.allowed closing tail ∧ Departed (terms.generated id) closing tail es

/-- A request with what its callbacks so far satisfy. -/
structure Record where
  id : ℕ
  holds : List Event → Prop

/-- The worker has exactly the requests of the records; all others have departed. -/
structure World.Ledger (w : World) (terms : Terms) (records : List Record) : Prop where
  nodup : (records.map Record.id).Nodup
  known : ∀ r ∈ records, r.id < terms.arrived ∧ r.holds (w.eventsOf r.id)
  left : ∀ id < terms.arrived, id ∉ records.map Record.id → terms.Left id (w.eventsOf id)
  fresh : ∀ id, terms.arrived ≤ id → w.eventsOf id = []

/-- A request after a poll that it answered with false. -/
def InferenceRequest.polled (req : InferenceRequest) : InferenceRequest :=
  { req with cancelAfter := req.cancelAfter.map Nat.pred }

/-- A step adds callbacks to one request. -/
def World.Adds (w w' : World) (id : ℕ) (es : List Event) : Prop :=
  ∀ i, w'.eventsOf i = if id = i then w.eventsOf i ++ es else w.eventsOf i

/-- A step of one request: it is kept with what its callbacks satisfy then, or it departs. -/
def World.Settles (w w' : World) (terms : Terms) (id : ℕ) (kept : Option Record) : Prop :=
  ∃ es, w.Adds w' id es ∧
    match kept with
    | some r => r.id = id ∧ r.holds (w.eventsOf id ++ es)
    | none => terms.Left id (w.eventsOf id ++ es)

namespace World

variable {w w' w'' : World} {terms : Terms} {id : ℕ} {es es' : List Event} {r : Record}
  {records records' : List Record}

section Adds

/-- A callback adds itself to its request's events and nothing to any other's. -/
theorem adds_callback (w : World) (id : ℕ) (e : Event) : w.Adds (w.callback id e) id [e] :=
  fun i => callback_eventsOf w id i e

/-- What changes no request's events adds nothing. -/
theorem adds_nothing (h : ∀ i, w'.eventsOf i = w.eventsOf i) (id : ℕ) : w.Adds w' id [] := by
  intro i
  rw [h i, List.append_nil, ite_self]

/-- A mapper call adds no event. -/
theorem adds_call (w : World) (c : Call) (id : ℕ) : w.Adds (w.call c) id [] :=
  adds_nothing (call_eventsOf w c) id

/-- The note that a sequence is leaving adds no event. -/
theorem adds_leaving (w : World) (id : ℕ) (seqId : SeqId) (leaf : NodeId) (tokens : List Token)
    (extension : Bool) (i : ℕ) :
    w.Adds (w.note (.leaving id seqId leaf tokens extension)) i [] :=
  adds_nothing (fun _ => leaving_eventsOf _ _ _ _ _ _ _) i

/-- Giving a sequence back to the mapper adds no event. -/
theorem adds_giveBack (w : World) (id : ℕ) (seqId : SeqId) (owner leaf : NodeId) (i : ℕ) :
    w.Adds (w.giveBack id seqId owner leaf) i [] :=
  adds_nothing (fun _ => giveBack_eventsOf _ _ _ _ _ _) i

/-- What two stretches add to one request is added in turn. -/
theorem Adds.trans (h : w.Adds w' id es) (h' : w'.Adds w'' id es') : w.Adds w'' id (es ++ es') := by
  intro i
  rw [h' i, h i]
  split
  · rw [List.append_assoc]
  · rfl

/-- Nothing more is added. -/
theorem Adds.quiet (h : w.Adds w' id es) (h' : w'.Adds w'' id []) : w.Adds w'' id es := by
  have hboth := h.trans h'
  rwa [List.append_nil] at hboth

/-- Nothing was added before. -/
theorem Adds.after (h : w.Adds w' id []) (h' : w'.Adds w'' id es) : w.Adds w'' id es := h.trans h'

end Adds

/-- A request that keeps a record over its new events has settled with it. -/
theorem Settles.keep (hadds : w.Adds w' id es) (hid : r.id = id)
    (hr : r.holds (w.eventsOf id ++ es)) :
    w.Settles w' terms id (some r) := ⟨es, hadds, hid, hr⟩

/-- A request that has left by its new events has settled without a record. -/
theorem Settles.leave (hadds : w.Adds w' id es) (hleft : terms.Left id (w.eventsOf id ++ es)) :
    w.Settles w' terms id none := ⟨es, hadds, hleft⟩

/-- A poll: its answer, what it leaves of the request, and the callbacks it adds. -/
inductive Polls (w : World) (req : InferenceRequest) : Bool × InferenceRequest × World → Prop where
  | running (w' : World) (hopen : req.cancelAfter ≠ some 0)
      (hadds : w.Adds w' req.id [.polled false]) :
      Polls w req (false, req.polled, w')
  | first (w' : World) (hcancelled : req.cancelAfter = some 0) (hfirst : req.onCancel = true)
      (hadds : w.Adds w' req.id [.polled true, .onCancel]) : Polls w req
        (true, { req with onCancel := false }, w')
  | again (w' : World) (hcancelled : req.cancelAfter = some 0) (hagain : req.onCancel = false)
      (hadds : w.Adds w' req.id [.polled true]) : Polls w req (true, req, w')

/-- The poll of `cancelled` does what `Polls` says. -/
theorem isCancelled_polls (req : InferenceRequest) (w : World) :
    w.Polls req (isCancelled req w) := by
  have hrunning (hopen : req.cancelAfter ≠ some 0) :
      w.Polls req (false, req.polled, w.callback req.id (.polled false)) :=
        .running _ hopen (adds_callback _ _ _)
  obtain ⟨id, prompt, messages, maxTokens, temperature, topP, cancelAfter, onCancel⟩ := req
  match cancelAfter, onCancel with
  | some 0, true =>
    exact .first _ rfl rfl
      ((adds_callback w id (.polled true)).trans (adds_callback _ id .onCancel))
  | some 0, false => exact .again _ rfl rfl (adds_callback w id (.polled true))
  | some (n + 1), onCancel => exact hrunning (by simp)
  | none, onCancel => exact hrunning (by simp)

namespace Ledger

/-- A ledger does not depend on the order of its records. -/
theorem perm (h : w.Ledger terms records) (hperm : records.Perm records') :
    w.Ledger terms records' where
  nodup := (hperm.map Record.id).nodup_iff.mp h.nodup
  known r hr := h.known r (hperm.mem_iff.mpr hr)
  left id hid hnot := h.left id hid fun hmem => hnot ((hperm.map Record.id).mem_iff.mp hmem)
  fresh := h.fresh

/-- A step without callbacks. -/
theorem silent (h : w.Ledger terms records) (hsame : ∀ i, w'.eventsOf i = w.eventsOf i) :
    w'.Ledger terms records where
  nodup := h.nodup
  known r hr := hsame r.id ▸ h.known r hr
  left id hid hnot := hsame id ▸ h.left id hid hnot
  fresh id hid := hsame id ▸ h.fresh id hid

/-- A step of one request. -/
theorem settle (h : w.Ledger terms (r :: records)) {kept : Option Record}
    (hsettles : w.Settles w' terms r.id kept) :
    w'.Ledger terms (kept.toList ++ records) := by
  obtain ⟨es, hadds, hkept⟩ := hsettles
  obtain ⟨hnotin, hnodup⟩ := List.nodup_cons.mp h.nodup
  have hother {i : ℕ} (hi : i ≠ r.id) : w'.eventsOf i = w.eventsOf i := by
    rw [hadds i, if_neg (Ne.symm hi)]
  have hself : w'.eventsOf r.id = w.eventsOf r.id ++ es := by rw [hadds r.id, if_pos rfl]
  have hbound := (h.known r List.mem_cons_self).1
  have hrest : ∀ x ∈ records, x.id < terms.arrived ∧ x.holds (w'.eventsOf x.id) := by
    intro x hx
    have hne : x.id ≠ r.id := fun heq => hnotin (heq ▸ List.mem_map_of_mem hx)
    rw [hother hne]
    exact h.known x (List.mem_cons_of_mem _ hx)
  have hfresh : ∀ id, terms.arrived ≤ id → w'.eventsOf id = [] := by
    intro id hid
    rw [hother (by omega), h.fresh id hid]
  cases kept with
  | some x =>
    obtain ⟨hid, hx⟩ := hkept
    refine ⟨?_, fun y hy => ?_, fun id hlt hnot => ?_, hfresh⟩
    · rw [Option.toList_some, List.singleton_append, List.map_cons, hid]
      exact h.nodup
    · rcases List.mem_cons.mp hy with rfl | hy
      · rw [hid, hself]
        exact ⟨hbound, hx⟩
      · exact hrest y hy
    · rw [Option.toList_some, List.singleton_append, List.map_cons, hid] at hnot
      rw [hother fun heq => hnot (heq ▸ List.mem_cons_self)]
      exact h.left id hlt hnot
  | none =>
    refine ⟨hnodup, hrest, fun id hlt hnot => ?_, hfresh⟩
    by_cases heq : id = r.id
    · rw [heq, hself]
      exact hkept
    · rw [hother heq]
      refine h.left id hlt fun hmem => ?_
      rcases List.mem_cons.mp hmem with hmem | hmem
      · exact heq hmem
      · exact hnot hmem

/-- Weaken what is known of the records. -/
theorem weaken {α : Type} {before after : α → Record} {as : List α}
    (h : w.Ledger terms (as.map before ++ records)) (hid : ∀ a, (after a).id = (before a).id)
    (himp : ∀ a ∈ as, ∀ es, (before a).holds es → (after a).holds es) :
    w.Ledger terms (as.map after ++ records) := by
  have hids : (as.map after ++ records).map Record.id =
      (as.map before ++ records).map Record.id := by
    rw [List.map_append, List.map_append, List.map_map, List.map_map]
    exact congrArg (· ++ records.map Record.id) (List.map_congr_left fun a _ => hid a)
  refine ⟨hids ▸ h.nodup, fun r hr => ?_, fun i hi hnot => h.left i hi (hids ▸ hnot), h.fresh⟩
  rcases List.mem_append.mp hr with hr | hr
  · obtain ⟨a, ha, rfl⟩ := List.mem_map.mp hr
    obtain ⟨hlt, hholds⟩ := h.known _ (List.mem_append_left _ (List.mem_map_of_mem ha))
    rw [hid]
    exact ⟨hlt, himp a ha _ hholds⟩
  · exact h.known r (List.mem_append_right _ hr)

/-- A new request arrives; what is promised to the others stays. -/
theorem arrive (h : w.Ledger terms records) (terms' : Terms) (r : Record) (records' : List Record)
    (harrived : terms'.arrived = terms.arrived + 1) (hallowed : terms'.allowed = terms.allowed)
    (hgenerated : ∀ id < terms.arrived, terms'.generated id = terms.generated id)
    (hid : r.id = terms.arrived) (hr : r.holds [])
    (hids : records'.map Record.id = records.map Record.id)
    (himp : ∀ r' ∈ records', ∃ r ∈ records, r.id = r'.id ∧ ∀ es, r.id < terms.arrived →
      r.holds es → r'.holds es) :
    w.Ledger terms' (records' ++ [r]) where
  nodup := by
    rw [List.map_append, hids, List.map_singleton, List.nodup_append]
    refine ⟨h.nodup, List.nodup_singleton _, fun i hi j hj => ?_⟩
    obtain ⟨x, hx, rfl⟩ := List.mem_map.mp hi
    have hlt := (h.known x hx).1
    rw [List.mem_singleton.mp hj, hid]
    exact hlt.ne
  known x hx := by
    rcases List.mem_append.mp hx with hx | hx
    · obtain ⟨y, hy, hxy, hholds⟩ := himp x hx
      obtain ⟨hlt, hy⟩ := h.known y hy
      rw [← hxy, harrived]
      exact ⟨by omega, hholds _ hlt hy⟩
    · rw [List.mem_singleton.mp hx, hid, harrived, h.fresh _ le_rfl]
      exact ⟨Nat.lt_succ_self _, hr⟩
  left i hi hnot := by
    rw [List.map_append, hids, List.mem_append, not_or, List.map_singleton,
      List.mem_singleton, hid] at hnot
    have hlt : i < terms.arrived := by omega
    obtain ⟨closing, tail, hclosing, hdeparted⟩ := h.left i hlt hnot.1
    exact ⟨closing, tail, hallowed ▸ hclosing, hgenerated i hlt ▸ hdeparted⟩
  fresh i hi := h.fresh i (by omega)

end Ledger

end World

/-- The rule for passes: each visit settles the request of its item. -/
theorem pass_ledger {α β : Type} {visit : α → World → Option β × World} {before : α → Record}
    {after : β → Record} {terms : Terms} {P : α → Prop}
    (hvisit : ∀ a (w : World), P a → (before a).holds (w.eventsOf (before a).id) →
      w.Settles (visit a w).2 terms (before a).id ((visit a w).1.map after))
    {as : List α} {w : World} {records : List Record} (hP : ∀ a ∈ as, P a)
    (h : w.Ledger terms (as.map before ++ records)) :
    (pass visit as w).2.Ledger terms ((pass visit as w).1.map after ++ records) := by
  refine (pass_trade (H := fun (w : World) records => w.Ledger terms records) (Q := fun _ => True)
    (fun _ _ _ h hperm => h.perm hperm) (fun a w records ha h => ⟨?_, fun _ _ => trivial⟩) hP h).1
  have hsettled := h.settle (hvisit a w ha (h.known _ List.mem_cons_self).2)
  rwa [Option.toList_map] at hsettled

/-- A step that lets every request of a list depart. -/
theorem failAll_ledger {α : Type} {fail : α → World → World} {before : α → Record} {terms : Terms}
    (hfail : ∀ a (w : World), (before a).holds (w.eventsOf (before a).id) →
      w.Settles (fail a w) terms (before a).id none)
    {as : List α} {w : World} {records : List Record}
    (h : w.Ledger terms (as.map before ++ records)) :
    (failAll fail as w).Ledger terms records := by
  induction as generalizing w with
  | nil => exact h
  | cons a rest ih => exact ih (h.settle (hfail a w (h.known _ List.mem_cons_self).2))

end RadixForge
