import RadixForge.Session.Reuse
import RadixForge.Worker.Callbacks

/-!
# The departures in the log

Between the two marks of a departure the log has callbacks of the request, the extension of its
sequence where the first mark announces it and the request is not found cancelled, and the two
releases. At the first mark the request is a client that is ready with what the mark says it
decoded, unless it was cancelled, failed, or has received nothing terminal. Every departure in the
log of a run is of this kind.
-/

namespace RadixForge

open Library

variable {L : Type} {b : Bridge L} {config : Config} {order : ChildOrder}

/-- A departure as its mark announces it, with the log before it. -/
structure Departure where
  earlier : List Entry
  seqId : SeqId
  leaf : NodeId
  tokens : List Token
  extension : Bool

/-- The mark that begins a departure. -/
def Departure.mark (d : Departure) (id : ℕ) : Entry :=
  .leaving id d.seqId d.leaf d.tokens d.extension

/-- The last departure of a request that has begun in the log. -/
def departureOf? (id : ℕ) : List Entry → Option Departure
  | [] => none
  | entry :: rest =>
    match departureOf? id rest with
    | some d => some { d with earlier := entry :: d.earlier }
    | none =>
      match entry with
      | .leaving id' seqId leaf tokens extension =>
        if id' = id then some ⟨[], seqId, leaf, tokens, extension⟩ else none
      | _ => none

/-- The entry is one of the marks of a departure. -/
def Entry.departs : Entry → Bool
  | .leaving .. => true
  | .left _ => true
  | _ => false

/-- What a departure writes between its marks. -/
structure Departure.Wrote (d : Departure) (id : ℕ) (entries : List Entry) : Prop where
  quiet : ∀ entry ∈ entries, entry.departs = false
  calls : ∃ extended owner, (extended = d.extension ∨ .event id (.polled true) ∈ entries) ∧
    callsOf entries = (if extended then [.extend d.seqId d.leaf d.tokens] else []) ++
      [.releaseSequence d.seqId owner, .release d.leaf]

/-- The request is a client of the session when its departure begins. -/
structure Departure.Begins (d : Departure) (config : Config) (order : ChildOrder) (id : ℕ)
    (s : Session) (c : Client) :
    Prop where
  run : (Session.init config order).Run (callsOf d.earlier) s
  hand : s.hand = none
  live : c ∈ s.live
  seqId : c.seqId = d.seqId
  leaf : c.leaf = d.leaf
  admitted : ∃ result, .admitted id c.prompt result ∈ d.earlier ∧ result.seqId = d.seqId

/-- The request was found cancelled before it left, it received an error, or it received nothing
terminal before it left. -/
def Unserved (id : ℕ) (before log : List Entry) : Prop :=
  .event id (.polled true) ∈ before ∨
    (∃ message status, .event id (.onError message status) ∈ log) ∨
    ∀ e, .event id e ∈ before → e.isTerminal = false

/-- The request has left as the departures of a worker do: ready with all that its mark says it
decoded, or unserved. -/
def Returned (config : Config) (order : ChildOrder) (before log : List Entry) (id : ℕ) : Prop :=
  ∃ (d : Departure) (entries : List Entry) (s : Session) (c : Client),
    before = d.earlier ++ d.mark id :: entries ∧ d.Wrote id entries ∧ d.Begins config order id s c ∧
    (c.ready = true ∧ c.history = d.tokens ∨ Unserved id before log)

/-- Every departure in the log. -/
def Journal (config : Config) (order : ChildOrder) (log : List Entry) : Prop :=
  ∀ before id, before ++ [.left id] <+: log → Returned config order before log id

section Log

variable {log log' before entries : List Entry} {id : ℕ} {d : Departure}

/-- An extract without a departure names none. -/
theorem departureOf_eq_none (h : ∀ entry ∈ entries, entry.departs = false) :
    departureOf? id entries = none := by
  induction entries with
  | nil => rfl
  | cons entry rest ih =>
    unfold departureOf?
    simp only [ih fun e he => h e (List.mem_cons_of_mem _ he)]
    have hentry := h entry List.mem_cons_self
    cases entry with
    | leaving => exact absurd hentry Bool.true_eq_false_eq_False
    | _ => rfl

/-- The last departure is the one whose mark no other one follows. -/
theorem departureOf_mark (d : Departure) (h : ∀ entry ∈ entries, entry.departs = false) :
    departureOf? id (d.earlier ++ d.mark id :: entries) = some d := by
  obtain ⟨earlier, seqId, leaf, tokens, extension⟩ := d
  change departureOf? id (earlier ++ .leaving id seqId leaf tokens extension :: entries) = _
  induction earlier with
  | nil => simp only [List.nil_append, departureOf?, departureOf_eq_none h, if_true]
  | cons entry rest ih => simp only [List.cons_append, departureOf?, ih]

/-- A request that left has done so before entries of another kind. -/
theorem left_of_append (h : ∀ i, .left i ∉ entries)
    (hbefore : before ++ [.left id] <+: log ++ entries) :
    before ++ [.left id] <+: log := by
  induction entries using List.reverseRecOn with
  | nil => rwa [List.append_nil] at hbefore
  | append_singleton rest entry ih =>
    rw [← List.append_assoc] at hbefore
    rcases List.prefix_concat_iff.mp hbefore with heq | hprefix
    · have hlast := List.append_inj_right' heq rfl
      exact absurd (List.mem_append_right _ (hlast ▸ List.mem_cons_self)) (h id)
    · exact ih (fun i hi => h i (List.mem_append_left _ hi)) hprefix

/-- An id returned in a journal is returned in every longer one. -/
theorem Returned.mono (h : Returned config order before log id) (hlog : log <+: log') :
    Returned config order before log' id := by
  obtain ⟨d, entries, s, c, heq, hwrote, hbegins, hserved⟩ := h
  refine ⟨d, entries, s, c, heq, hwrote, hbegins, hserved.imp_right (Or.imp_right (Or.imp_left ?_))⟩
  rintro ⟨message, status, hmem⟩
  exact ⟨message, status, hlog.subset hmem⟩

/-- Entries that end no departure. -/
theorem Journal.append (h : Journal config order log) (hentries : ∀ i, .left i ∉ entries) :
    Journal config order (log ++ entries) := fun before id hbefore =>
  (h before id (left_of_append hentries hbefore)).mono (List.prefix_append _ _)

/-- One more departure, with entries after it. -/
theorem Journal.depart (h : Journal config order log) (hentries : ∀ i, .left i ∉ entries)
    {tail : List Entry} (htail : ∀ i, .left i ∉ tail)
    (hreturned : Returned config order (log ++ entries) (log ++ entries ++ [.left id] ++ tail) id) :
    Journal config order (log ++ entries ++ [.left id] ++ tail) := by
  intro before i hbefore
  rcases List.prefix_concat_iff.mp (left_of_append htail hbefore) with heq | hprefix
  · obtain ⟨rfl, hlast⟩ := List.append_inj' heq rfl
    cases hlast
    exact hreturned
  · refine (h before i (left_of_append hentries hprefix)).mono ?_
    rw [List.append_assoc, List.append_assoc]
    exact List.prefix_append _ _

/-- A request that holds a sequence was admitted. -/
theorem admitted_of_held {g : Held} (h : g ∈ heldOf log) :
    ∃ result, .admitted g.id g.prompt result ∈ log ∧ result.seqId = g.seqId := by
  induction log using List.reverseRecOn with
  | nil => exact absurd h List.not_mem_nil
  | append_singleton rest entry ih =>
    rw [heldOf_snoc] at h
    have hrest (hg : g ∈ heldOf rest) :
        ∃ result, .admitted g.id g.prompt result ∈ rest ++ [entry] ∧ result.seqId = g.seqId := by
      obtain ⟨result, hmem, hseq⟩ := ih hg
      exact ⟨result, List.mem_append_left _ hmem, hseq⟩
    cases entry with
    | admitted id prompt result =>
      rcases List.mem_cons.mp h with rfl | hg
      · exact ⟨result, List.mem_append_right _ List.mem_cons_self, rfl⟩
      · exact hrest hg
    | leaving => exact hrest (List.mem_filter.mp h).1
    | _ => exact hrest h

end Log

/-- A step that writes no marks of departures. -/
def World.Quiet (w w' : World) : Prop :=
  ∃ entries, w'.log = w.log ++ entries ∧ ∀ entry ∈ entries, entry.departs = false

/-- A step in which one request departs. -/
structure World.Departs (w w' : World) (id : ℕ) (d : Departure) (entries : List Entry) : Prop where
  earlier : d.earlier = w.log
  log : w'.log = w.log ++ d.mark id :: entries ++ [.left id]
  wrote : d.Wrote id entries

/-- Entries without a departure mention no request that has left. -/
theorem notMem_of_quiet {entries : List Entry} (h : ∀ entry ∈ entries, entry.departs = false)
    (i : ℕ) :
    Entry.left i ∉ entries := fun hmem => Bool.true_eq_false_eq_False (h _ hmem)

/-- Callbacks make no mapper call. -/
theorem callsOf_events (id : ℕ) (es : List Event) : callsOf (es.map (.event id)) = [] := by
  induction es with
  | nil => rfl
  | cons e rest ih => exact ih

/-- Callbacks are no departure. -/
theorem quiet_events (id : ℕ) (es : List Event) :
    ∀ entry ∈ es.map (Entry.event id), entry.departs = false := by
  intro entry hentry
  obtain ⟨e, _, rfl⟩ := List.mem_map.mp hentry
  rfl

namespace World

variable {w w' w'' : World} {t : Ticket} {tickets : List Ticket}

/-- A world is quiet towards itself. -/
theorem Quiet.refl (w : World) : w.Quiet w :=
  ⟨[], (List.append_nil _).symm, fun _ h => absurd h List.not_mem_nil⟩

/-- Quiet stretches compose. -/
theorem Quiet.trans (h : w.Quiet w') (h' : w'.Quiet w'') : w.Quiet w'' := by
  obtain ⟨xs, hlog, hquiet⟩ := h
  obtain ⟨ys, hlog', hquiet'⟩ := h'
  refine ⟨xs ++ ys, by rw [hlog', hlog, List.append_assoc], fun entry hentry => ?_⟩
  exact (List.mem_append.mp hentry).elim (hquiet entry) (hquiet' entry)

/-- An entry that is no departure is quiet. -/
theorem Quiet.note (w : World) {entry : Entry} (hentry : entry.departs = false) :
    w.Quiet (w.note entry) :=
  ⟨[entry], rfl, fun _ h => List.mem_singleton.mp h ▸ hentry⟩

/-- A mapper call alone is quiet. -/
theorem Quiet.call (w : World) (c : Call) : w.Quiet (w.call c) :=
  ⟨[.call c], rfl, fun _ h => List.mem_singleton.mp h ▸ rfl⟩

/-- A callback is quiet. -/
theorem Quiet.callback (w : World) (id : ℕ) (e : Event) : w.Quiet (w.callback id e) :=
  Quiet.note w rfl

/-- The callbacks of a request are those in the log. -/
theorem mem_eventsOf {id : ℕ} {e : Event} : e ∈ w.eventsOf id ↔ .event id e ∈ w.log := by
  rw [eventsOf, List.mem_filterMap]
  constructor
  · rintro ⟨entry, hentry, he⟩
    cases entry with
    | event id' e' =>
      obtain ⟨rfl, heq⟩ := Option.ite_none_right_eq_some.mp he
      cases heq
      exact hentry
    | _ => cases he
  · exact fun he => ⟨_, he, if_pos rfl⟩

/-- A poll adds callbacks of its request, with the answer among them. -/
theorem isCancelled_log (req : InferenceRequest) (w : World) :
    ∃ es : List Event, (isCancelled req w).2.2.log = w.log ++ es.map (.event req.id) ∧
      ((isCancelled req w).1 = true ↔ .polled true ∈ es) := by
  unfold RadixForge.isCancelled
  split
  · simp only
    split
    · exact ⟨[.polled true, .onCancel], by simp [World.callback, World.note], by simp⟩
    · exact ⟨[.polled true], rfl, by simp⟩
  · exact ⟨[.polled false], rfl, by simp⟩
  · exact ⟨[.polled false], rfl, by simp⟩

/-- The poll of `cancelled` is quiet. -/
theorem Quiet.isCancelled (req : InferenceRequest) (w : World) :
    w.Quiet (isCancelled req w).2.2 := by
  obtain ⟨es, hlog, _⟩ := isCancelled_log req w
  exact ⟨_, hlog, quiet_events _ es⟩

/-- A quiet stretch keeps the journal. -/
theorem Quiet.journal (h : w.Quiet w') (hjournal : Journal config order w.log) :
    Journal config order w'.log := by
  obtain ⟨entries, hlog, hquiet⟩ := h
  rw [hlog]
  exact hjournal.append (notMem_of_quiet hquiet)

/-- The departure of a ticket is entered in the journal. -/
theorem Tracked.depart (h : w.Tracked config order (t :: tickets))
    (hjournal : Journal config order w.log) {d : Departure}
    {entries : List Entry} (hdeparts : w.Departs w' t.id d entries) (hquiet : w'.Quiet w'')
    (hseq : d.seqId = t.client.seqId) (hleaf : d.leaf = t.client.leaf)
    (hserved : t.client.ready = true ∧ t.client.history = d.tokens ∨
      Unserved t.id (w.log ++ d.mark t.id :: entries) w''.log) :
    Journal config order w''.log := by
  obtain ⟨s, hfollows, hlive, hheld, _, hhand⟩ := h
  obtain ⟨hearlier, hlog, hwrote⟩ := hdeparts
  obtain ⟨tail, hlog', htail⟩ := hquiet
  have hmem : t.client ∈ s.live := hlive.mem_iff.mpr List.mem_cons_self
  have hadmitted : ∃ result, .admitted t.id t.client.prompt result ∈ w.log ∧
      result.seqId = t.client.seqId :=
    admitted_of_held (g := t.held) (hheld.mem_iff.mpr List.mem_cons_self)
  have hentries (i : ℕ) : Entry.left i ∉ d.mark t.id :: entries := by
    intro hleft
    rcases List.mem_cons.mp hleft with heq | hleft
    · cases heq
    · exact notMem_of_quiet hwrote.quiet i hleft
  rw [hlog', hlog] at hserved ⊢
  refine hjournal.depart hentries (notMem_of_quiet htail)
    ⟨d, entries, s, t.client, ?_, hwrote, ?_, hserved⟩
  · rw [hearlier]
  · refine ⟨?_, hhand, hmem, hseq.symm, hleaf.symm, ?_⟩
    · rw [hearlier]
      exact hfollows.run
    · rw [hearlier, hseq]
      exact hadmitted

end World

section Departures

variable {w w' : World} {id : ℕ} {d : Departure}

/-- A poll and what the client is told unless it cancelled. -/
theorem World.isCancelled_deliver (req : InferenceRequest) (w : World) (e : Event) :
    ∃ es : List Event, (if (isCancelled req w).1 = true then (isCancelled req w).2.2
        else (isCancelled req w).2.2.callback (isCancelled req w).2.1.id e).log =
          w.log ++ es.map (.event req.id) ∧
      (.polled true ∈ es ∨ e ∈ es) := by
  obtain ⟨es, hlog, hanswer⟩ := World.isCancelled_log req w
  rw [isCancelled_id req w]
  generalize isCancelled req w = polled at hlog hanswer ⊢
  obtain ⟨cancelled, req', w'⟩ := polled
  simp only at hlog hanswer ⊢
  split
  · rename_i hcancelled
    exact ⟨es, hlog, Or.inl (hanswer.mp hcancelled)⟩
  · refine ⟨es ++ [e], ?_, Or.inr (List.mem_append_right _ List.mem_cons_self)⟩
    simp [World.callback, World.note, hlog]

/-- The log with the first mark of a departure. -/
theorem World.marked_log (w : World) (d : Departure) (id : ℕ) :
    (w.note (d.mark id)).log = w.log ++ d.mark id :: [] := rfl

/-- A departure ends with the two releases. -/
theorem World.departs_giveBack (entries : List Entry) (extended : Bool) (owner : NodeId)
    (hearlier : d.earlier = w.log) (hlog : w'.log = w.log ++ d.mark id :: entries)
    (hquiet : ∀ entry ∈ entries, entry.departs = false)
    (hcalls : callsOf entries = if extended then [.extend d.seqId d.leaf d.tokens] else [])
    (hextended : extended = d.extension ∨ .event id (.polled true) ∈ entries) :
    w.Departs (w'.giveBack id d.seqId owner d.leaf) id d
      (entries ++ [.call (.releaseSequence d.seqId owner), .call (.release d.leaf)]) := by
  refine ⟨hearlier, ?_, fun entry hentry => ?_, extended, owner, ?_, ?_⟩
  · simp only [World.giveBack, World.note, World.call, hlog, List.append_assoc,
      List.cons_append, List.nil_append]
  · rcases List.mem_append.mp hentry with hentry | hentry
    · exact hquiet entry hentry
    · rcases List.mem_pair.mp hentry with rfl | rfl <;> rfl
  · exact hextended.imp_right (List.mem_append_left _)
  · rw [← hcalls, callsOf, callsOf, List.filterMap_append]
    rfl

/-- The departure of an active sequence. -/
def ActiveSeq.departure (seq : ActiveSeq L) (notifyClient : Bool) (w : World) : Departure :=
  ⟨w.log, seq.seqId, seq.leafNode, seq.cachedTokens, notifyClient⟩

/-- The departure of a prefill. -/
def PrefillCtx.departure (ctx : PrefillCtx) (w : World) : Departure :=
  ⟨w.log, ctx.prep.seqId, ctx.prep.leafNode, ctx.tokens, false⟩

/-- A retirement extends the sequence if it notifies the client and does not find the request
cancelled. -/
theorem retire_departs (seq : ActiveSeq L) (notifyClient : Bool) (w : World) :
    ∃ entries, w.Departs (retire seq notifyClient w) seq.req.id
      (seq.departure notifyClient w) entries := by
  cases notifyClient with
  | false =>
    have hmarked := World.marked_log w (seq.departure false w) seq.req.id
    exact ⟨_, World.departs_giveBack [] false seq.leafNode rfl hmarked
      (fun _ h => absurd h List.not_mem_nil) rfl (Or.inl rfl)⟩
  | true =>
    obtain ⟨es, hlog, hanswer⟩ := World.isCancelled_log seq.req
      (w.note (.leaving seq.req.id seq.seqId seq.leafNode seq.cachedTokens true))
    have hid := isCancelled_id seq.req
      (w.note (.leaving seq.req.id seq.seqId seq.leafNode seq.cachedTokens true))
    simp only [retire, if_true]
    generalize isCancelled seq.req
      (w.note (.leaving seq.req.id seq.seqId seq.leafNode seq.cachedTokens true)) = polled
      at hlog hanswer hid ⊢
    obtain ⟨cancelled, req, w₁⟩ := polled
    simp only at hlog hanswer hid ⊢
    have hmoved : ∃ entries extended, (if cancelled = true then (w₁, seq.leafNode)
          else w₁.extendSequence seq.seqId seq.leafNode seq.cachedTokens).1.log =
            w.log ++ (seq.departure true w).mark seq.req.id :: entries ∧
            (∀ entry ∈ entries, entry.departs = false) ∧
        callsOf entries =
          (if extended then [.extend seq.seqId seq.leafNode seq.cachedTokens] else []) ∧
        (extended = true ∨ .event seq.req.id (.polled true) ∈ entries) := by
      have hmarked : w₁.log = w.log ++ (seq.departure true w).mark seq.req.id ::
          es.map (.event seq.req.id) := by
        rw [hlog]
        simp [World.note, ActiveSeq.departure, Departure.mark]
      cases cancelled with
      | true =>
        exact ⟨_, false, hmarked, quiet_events _ _, callsOf_events _ _,
          Or.inr (List.mem_map_of_mem (hanswer.mp rfl))⟩
      | false =>
        refine ⟨es.map (.event seq.req.id) ++
          [.call (.extend seq.seqId seq.leafNode seq.cachedTokens)], true, ?_, ?_, ?_, Or.inl rfl⟩
        · simp [World.extendSequence, World.call, hmarked]
        · intro entry hentry
          rcases List.mem_append.mp hentry with hentry | hentry
          · exact quiet_events _ _ entry hentry
          · exact List.mem_singleton.mp hentry ▸ rfl
        · rw [callsOf, List.filterMap_append]
          exact congrArg (· ++ _) (callsOf_events seq.req.id es)
    generalize (if cancelled = true then (w₁, seq.leafNode)
      else w₁.extendSequence seq.seqId seq.leafNode seq.cachedTokens) = moved at hmoved ⊢
    obtain ⟨w₂, owner⟩ := moved
    obtain ⟨entries, extended, hlog₂, hquiet, hcalls, hextended⟩ := hmoved
    obtain ⟨es', hlog', _⟩ :=
      World.isCancelled_deliver req w₂ (.onToken none [] true (some seq.stats))
    simp only at hlog₂ ⊢
    generalize (if (isCancelled req w₂).1 = true then (isCancelled req w₂).2.2
      else (isCancelled req w₂).2.2.callback _ _) = w₃ at hlog' ⊢
    rw [hlog₂, hid, List.append_assoc, List.cons_append] at hlog'
    rw [isCancelled_id req w₂, hid]
    refine ⟨_, World.departs_giveBack _ extended owner rfl hlog' (fun entry hentry => ?_) ?_ ?_⟩
    · exact (List.mem_append.mp hentry).elim (hquiet entry) (quiet_events _ _ entry)
    · rw [callsOf, List.filterMap_append, ← callsOf, ← callsOf, hcalls,
        callsOf_events, List.append_nil]
      rfl
    · exact hextended.imp_right (List.mem_append_left _)

/-- A prefill that is abandoned is told nothing. -/
theorem abandon_departs (ctx : PrefillCtx) (w : World) :
    w.Departs (abandon ctx w) ctx.req.id (ctx.departure w)
      [.call (.releaseSequence ctx.prep.seqId ctx.prep.leafNode),
        .call (.release ctx.prep.leafNode)] := by
  have hmarked := World.marked_log w (ctx.departure w) ctx.req.id
  exact World.departs_giveBack [] false ctx.prep.leafNode rfl hmarked
    (fun _ h => absurd h List.not_mem_nil) rfl (Or.inl rfl)

/-- A departure with an error, unless the request is found cancelled. -/
theorem World.departs_error (req : InferenceRequest) (message : String) (status : ℕ)
    (owner : NodeId) (hearlier : d.earlier = w.log) (hstays : d.extension = false) :
    let polled := isCancelled req (w.note (d.mark req.id))
    ∃ entries, w.Departs ((if polled.1 = true then polled.2.2
          else polled.2.2.callback polled.2.1.id (.onError message status)).giveBack polled.2.1.id
            d.seqId owner d.leaf)
        req.id d entries ∧
      (.event req.id (.polled true) ∈ entries ∨
        .event req.id (.onError message status) ∈ entries) := by
  obtain ⟨es, hlog, htold⟩ :=
    World.isCancelled_deliver req (w.note (d.mark req.id)) (.onError message status)
  have hid := isCancelled_id req (w.note (d.mark req.id))
  simp only
  generalize (if (isCancelled req (w.note (d.mark req.id))).1 = true then (isCancelled req
    (w.note (d.mark req.id))).2.2
    else (isCancelled req (w.note (d.mark req.id))).2.2.callback _ _) = w' at hlog ⊢
  rw [hid]
  refine ⟨_, World.departs_giveBack (es.map (.event req.id)) false owner hearlier ?_
    (quiet_events _ _) (callsOf_events _ _) (Or.inl hstays.symm), ?_⟩
  · rw [hlog, World.note, List.append_assoc, List.singleton_append]
  · exact htold.imp (fun h => List.mem_append_left _ (List.mem_map_of_mem h))
      fun h => List.mem_append_left _ (List.mem_map_of_mem h)

/-- Failing a sequence is one departure, its request having been told or having cancelled. -/
theorem failActive_departs (message : String) (status : ℕ) (seq : ActiveSeq L) (w : World) :
    ∃ entries, w.Departs (failActive message status seq w) seq.req.id
      (seq.departure false w) entries ∧
      (.event seq.req.id (.polled true) ∈ entries ∨
        .event seq.req.id (.onError message status) ∈ entries) :=
  World.departs_error (d := seq.departure false w) seq.req message status seq.leafNode rfl rfl

/-- Failing a prefill is one departure, its request having been told or having cancelled. -/
theorem failPrefill_departs (message : String) (status : ℕ) (ctx : PrefillCtx) (w : World) :
    ∃ entries, w.Departs (failPrefill message status ctx w) ctx.req.id (ctx.departure w) entries ∧
      (.event ctx.req.id (.polled true) ∈ entries ∨
        .event ctx.req.id (.onError message status) ∈ entries) :=
  World.departs_error (d := ctx.departure w) ctx.req message status ctx.prep.leafNode rfl rfl

end Departures

section Visits

variable {w : World} {tickets : List Ticket}

/-- An active sequence is ready with what is decoded. -/
theorem retire_journal {seq : ActiveSeq L} (notifyClient : Bool)
    (h : w.Tracked config order (seq.ticket :: tickets)) (hjournal : Journal config order w.log) :
    Journal config order (retire seq notifyClient w).log := by
  obtain ⟨entries, hdeparts⟩ := retire_departs seq notifyClient w
  exact h.depart hjournal hdeparts (.refl _) rfl rfl (Or.inl ⟨rfl, rfl⟩)

/-- A prefill that is abandoned is ready with its whole prompt, or unserved. -/
theorem abandon_journal {ctx : PrefillCtx} (h : w.Tracked config order (ctx.ticket :: tickets))
    (hjournal : Journal config order w.log)
    (hserved : ctx.ticket.client.ready = true ∧ ctx.ticket.client.history = ctx.tokens ∨
      .event ctx.req.id (.polled true) ∈ w.log ∨ ∀ e, .event ctx.req.id e ∈ w.log →
      e.isTerminal = false) :
    Journal config order (abandon ctx w).log := by
  refine h.depart hjournal (abandon_departs ctx w) (.refl _) rfl rfl (hserved.imp_right ?_)
  rintro (hpolled | hopen)
  · exact Or.inl (List.mem_append_left _ hpolled)
  · refine Or.inr (Or.inr fun e he => ?_)
    rcases List.mem_append.mp he with he | he
    · exact hopen e he
    · simp [Departure.mark, PrefillCtx.ticket] at he

/-- Failing a sequence keeps the journal. -/
theorem failActive_journal {seq : ActiveSeq L} (message : String) (status : ℕ)
    (h : w.Tracked config order (seq.ticket :: tickets)) (hjournal : Journal config order w.log) :
    Journal config order (failActive message status seq w).log := by
  obtain ⟨entries, hdeparts, _⟩ := failActive_departs message status seq w
  exact h.depart hjournal hdeparts (.refl _) rfl rfl (Or.inl ⟨rfl, rfl⟩)

/-- Failing a prefill keeps the journal. -/
theorem failPrefill_journal {ctx : PrefillCtx} (message : String) (status : ℕ)
    (h : w.Tracked config order (ctx.ticket :: tickets)) (hjournal : Journal config order w.log) :
    Journal config order (failPrefill message status ctx w).log := by
  obtain ⟨entries, hdeparts, htold⟩ := failPrefill_departs message status ctx w
  refine h.depart hjournal hdeparts (.refl _) rfl rfl (Or.inr ?_)
  rcases htold with hpolled | herror
  · exact Or.inl (List.mem_append_right _ (List.mem_cons_of_mem _ hpolled))
  · refine Or.inr (Or.inl ⟨message, status, ?_⟩)
    rw [hdeparts.log]
    exact List.mem_append_left _ (List.mem_append_right _ (List.mem_cons_of_mem _ herror))

end Visits

end RadixForge
