import RadixForge.Session.Permits
import RadixForge.Worker.FusedStep

/-!
# The worker as a client of the mapper

The calls in the worker's log are a run of the session protocol. A ticket is a request between
the preparation and the departure of its sequence; `Tracked` says that the clients of the session
are those of the tickets, and that at every moment of the log each request that was prepared and has
not begun to depart is still a client at its leaf.
-/

namespace RadixForge

open Library

/-- A request that holds a sequence, as the log shows it. -/
structure Held where
  id : ℕ
  prompt : List Token
  seqId : SeqId
  leaf : NodeId

/-- The requests that hold a sequence after one more entry. -/
def heldAfter (held : List Held) : Entry → List Held
  | .admitted id prompt result => ⟨id, prompt, result.seqId, result.leafNode⟩ :: held
  | .leaving _ seqId _ _ _ => held.filter fun h => h.seqId ≠ seqId
  | _ => held

/-- The requests that were prepared and have not begun to depart. -/
def heldOf (log : List Entry) : List Held := log.foldl heldAfter []

/-- What is held after one more entry. -/
theorem heldOf_snoc (log : List Entry) (entry : Entry) :
    heldOf (log ++ [entry]) = heldAfter (heldOf log) entry := by
  simp [heldOf]

/-- The session has a client for each request that holds a sequence. -/
structure Session.Hosts (s : Session) (held : List Held) : Prop where
  client : ∀ h ∈ held, ∃ c ∈ s.live, c.seqId = h.seqId ∧ c.leaf = h.leaf ∧ c.owner = h.leaf ∧
    c.prompt = h.prompt
  nodup : (held.map Held.seqId).Nodup

/-- The calls of a log. -/
def callsOf (log : List Entry) : List Call := log.filterMap Entry.call?

/-- The session that a world has run so far, with all that the log promises about the past. -/
structure World.Follows (w : World) (config : Config) (order : ChildOrder) (s : Session) :
    Prop where
  run : (Session.init config order).Run w.calls s
  mapper : s.mapper = w.mapper
  hosts : s.Hosts (heldOf w.log)
  past : ∀ before, before <+: w.log → ∃ s', (Session.init config order).Run (callsOf before) s' ∧
    s'.Hosts (heldOf before)

namespace Session.Hosts

variable {s s' : Session} {held : List Held}

/-- A call that neither extends nor releases a held sequence keeps every held node hosting. -/
theorem step (h : s.Hosts held) {call : Call} (hstep : s.step call = some s')
    (hextend : ∀ g ∈ held, ∀ node tokens, call ≠ .extend g.seqId node tokens)
    (hrelease : ∀ g ∈ held, ∀ node, call ≠ .releaseSequence g.seqId node) : s'.Hosts held where
  client g hg := by
    obtain ⟨c, hc, hseq, hleaf, howner, hprompt⟩ := h.client g hg
    obtain ⟨d, hd, hseq', hleaf', howner', hprompt'⟩ := Session.step_keeps_client hstep hc
      (fun node tokens => hseq ▸ hextend g hg node tokens) fun node => hseq ▸ hrelease g hg node
    exact ⟨d, hd, hseq'.trans hseq, hleaf'.trans hleaf, howner'.trans howner,
      hprompt'.trans hprompt⟩
  nodup := h.nodup

/-- The nodes of those that stay still host when one leaves. -/
theorem leave (h : s.Hosts held) (seqId : SeqId) :
    s.Hosts (held.filter fun h => h.seqId ≠ seqId) where
  client g hg := h.client g (List.mem_filter.mp hg).1
  nodup := h.nodup.sublist (List.filter_sublist.map _)

end Session.Hosts

namespace World

variable {config : Config} {order : ChildOrder} {w : World} {s s' : Session}

/-- The session a world follows is sound. -/
theorem Follows.sound (h : w.Follows config order s) : s.Sound := Session.run_sound h.run

/-- The past of a journal grown by one entry is its old past and the whole of it. -/
theorem past_snoc {log : List Entry} {entry : Entry}
    (hpast : ∀ before, before <+: log → ∃ s', (Session.init config order).Run (callsOf before) s' ∧
      s'.Hosts (heldOf before))
    (hlast : ∃ s', (Session.init config order).Run (callsOf (log ++ [entry])) s' ∧
      s'.Hosts (heldOf (log ++ [entry]))) :
    ∀ before, before <+: log ++ [entry] →
      ∃ s', (Session.init config order).Run (callsOf before) s' ∧
      s'.Hosts (heldOf before) := by
  intro before hbefore
  rcases List.prefix_concat_iff.mp hbefore with rfl | hprefix
  · exact hlast
  · exact hpast before hprefix

/-- A mark or a callback. -/
theorem Follows.note (h : w.Follows config order s) {entry : Entry} (hcall : entry.call? = none)
    (hhosts : s.Hosts (heldAfter (heldOf w.log) entry)) :
    (w.note entry).Follows config order s := by
  have hcalls : (w.note entry).calls = w.calls := by rw [note_calls, hcall]; simp
  have hhosts' : s.Hosts (heldOf (w.note entry).log) := by
    rw [World.note, heldOf_snoc]
    exact hhosts
  have hrun : (Session.init config order).Run (w.note entry).calls s := hcalls ▸ h.run
  exact ⟨hrun, h.mapper, hhosts', past_snoc h.past ⟨s, hrun, hhosts'⟩⟩

/-- A callback does not concern the session. -/
theorem Follows.callback (h : w.Follows config order s) (id : ℕ) (e : Event) :
    (w.callback id e).Follows config order s :=
  h.note rfl h.hosts

/-- The poll of `cancelled` does not concern the session. -/
theorem Follows.isCancelled (h : w.Follows config order s) (req : InferenceRequest) :
    (isCancelled req w).2.2.Follows config order s := by
  unfold RadixForge.isCancelled
  split
  · simp only
    split
    · exact (h.callback _ _).callback _ _
    · exact h.callback _ _
  · exact h.callback _ _
  · exact h.callback _ _

/-- A permitted call. -/
theorem Follows.call (h : w.Follows config order s) {call : Call} (hpermitted : s.Permitted call s')
    (hextend : ∀ g ∈ heldOf w.log, ∀ node tokens, call ≠ .extend g.seqId node tokens)
    (hrelease : ∀ g ∈ heldOf w.log, ∀ node, call ≠ .releaseSequence g.seqId node) :
    (w.call call).Follows config order s' := by
  have hstep := Session.step_of_permitted h.sound hpermitted
  have hrun : (Session.init config order).Run (w.call call).calls s' := by
    rw [call_calls]
    exact run_snoc.mpr ⟨s, h.run, hstep⟩
  have hhosts : s'.Hosts (heldOf (w.call call).log) := by
    rw [World.call, heldOf_snoc]
    exact h.hosts.step hstep hextend hrelease
  refine ⟨hrun, ?_, hhosts, past_snoc h.past ⟨s', hrun, hhosts⟩⟩
  rw [Session.step_mapper hstep, h.mapper, call_mapper]

end World

/-- A request with the client it is in the session. -/
structure Ticket where
  id : ℕ
  client : Client

/-- The ticket as the log shows it. -/
def Ticket.held (t : Ticket) : Held := ⟨t.id, t.client.prompt, t.client.seqId, t.client.leaf⟩

/-- The clients of the session and the requests that hold a sequence are those of the tickets, and
the protocol is at rest. -/
def World.Tracked (w : World) (config : Config) (order : ChildOrder) (tickets : List Ticket) :
    Prop :=
  ∃ s, w.Follows config order s ∧ s.live.Perm (tickets.map Ticket.client) ∧
    (heldOf w.log).Perm (tickets.map Ticket.held) ∧ s.holds = [] ∧ s.hand = none

/-- The request of a ticket has begun to depart; its sequence is at the given owner, and in the
given hand after an extension. -/
def World.Departing (w : World) (config : Config) (order : ChildOrder) (t : Ticket) (owner : NodeId)
    (hand : Option SeqId) (tickets : List Ticket) : Prop :=
  ∃ s, w.Follows config order s ∧
    s.live.Perm ({ t.client with owner := owner } :: tickets.map Ticket.client) ∧
    (heldOf w.log).Perm (tickets.map Ticket.held) ∧ s.holds = [] ∧ s.hand = hand

namespace World

variable {config : Config} {order : ChildOrder} {w w' : World} {t : Ticket}
  {tickets tickets' : List Ticket}

/-- Tracking does not depend on the order of the tickets. -/
theorem Tracked.perm (h : w.Tracked config order tickets) (hperm : tickets.Perm tickets') :
    w.Tracked config order tickets' := by
  obtain ⟨s, hfollows, hlive, hheld, hrest⟩ := h
  exact ⟨s, hfollows, hlive.trans (hperm.map _), hheld.trans (hperm.map _), hrest⟩

/-- A callback keeps every ticket. -/
theorem Tracked.callback (h : w.Tracked config order tickets) (id : ℕ) (e : Event) :
    (w.callback id e).Tracked config order tickets := by
  obtain ⟨s, hfollows, hlive, hheld, hrest⟩ := h
  exact ⟨s, hfollows.callback id e, hlive,
    by simpa [World.callback, World.note, heldOf_snoc, heldAfter] using hheld, hrest⟩

/-- The poll of `cancelled` changes nothing that is held. -/
theorem isCancelled_held (req : InferenceRequest) (w : World) :
    heldOf (RadixForge.isCancelled req w).2.2.log = heldOf w.log := by
  unfold RadixForge.isCancelled
  split
  · simp only
    split <;> simp [World.callback, World.note, heldOf, heldAfter]
  all_goals simp [World.callback, World.note, heldOf, heldAfter]

/-- The poll of `cancelled` keeps every ticket. -/
theorem Tracked.isCancelled (h : w.Tracked config order tickets) (req : InferenceRequest) :
    (isCancelled req w).2.2.Tracked config order tickets := by
  obtain ⟨s, hfollows, hlive, hheld, hrest⟩ := h
  exact ⟨s, hfollows.isCancelled req, hlive, isCancelled_held req w ▸ hheld, hrest⟩

/-- A callback in the midst of a departure changes nothing of it. -/
theorem Departing.callback {owner : NodeId} {hand : Option SeqId}
    (h : w.Departing config order t owner hand tickets) (id : ℕ) (e : Event) :
    (w.callback id e).Departing config order t owner hand tickets := by
  obtain ⟨s, hfollows, hlive, hheld, hrest⟩ := h
  exact ⟨s, hfollows.callback id e, hlive,
    by simpa [World.callback, World.note, heldOf_snoc, heldAfter] using hheld, hrest⟩

/-- The poll of `cancelled` in the midst of a departure changes nothing of it. -/
theorem Departing.isCancelled {owner : NodeId} {hand : Option SeqId}
    (h : w.Departing config order t owner hand tickets) (req : InferenceRequest) :
    (isCancelled req w).2.2.Departing config order t owner hand tickets := by
  obtain ⟨s, hfollows, hlive, hheld, hrest⟩ := h
  exact ⟨s, hfollows.isCancelled req, hlive, isCancelled_held req w ▸ hheld, hrest⟩

/-- A call that changes one client and leaves it at its node. -/
theorem Tracked.change (h : w.Tracked config order (t :: tickets)) {call : Call}
    {f : Client → Client}
    (hf : ∀ c, (f c).seqId = c.seqId ∧ (f c).leaf = c.leaf ∧ (f c).prompt = c.prompt)
    (hpermitted : ∀ s : Session, s.hand = none → t.client ∈ s.live →
      s.Permitted call ((s.call call).change t.client.seqId f))
    (hextend : ∀ i node tokens, call ≠ .extend i node tokens)
    (hrelease : ∀ i node, call ≠ .releaseSequence i node) :
    (w.call call).Tracked config order ({ t with client := f t.client } :: tickets) := by
  obtain ⟨s, hfollows, hlive, hheld, hholds, hhand⟩ := h
  rw [List.map_cons] at hlive
  have hmem : t.client ∈ s.live := hlive.mem_iff.mpr List.mem_cons_self
  refine ⟨_, hfollows.call (hpermitted s hhand hmem) (fun _ _ _ _ => hextend _ _ _)
    (fun _ _ _ => hrelease _ _), ?_, ?_, hholds, hhand⟩
  · exact change_perm hfollows.sound.nodup hlive f
  · have hsame : Ticket.held { t with client := f t.client } = t.held := by
      simp only [Ticket.held, (hf t.client).1, (hf t.client).2.1, (hf t.client).2.2]
    rw [List.map_cons, hsame, ← List.map_cons, World.call, heldOf_snoc]
    exact hheld

/-- A call of the environment. -/
theorem Tracked.environment (h : w.Tracked config order tickets) {call : Call}
    (hpermitted : ∀ s : Session, s.hand = none → s.Permitted call (s.call call))
    (hextend : ∀ i node tokens, call ≠ .extend i node tokens)
    (hrelease : ∀ i node, call ≠ .releaseSequence i node) :
    (w.call call).Tracked config order tickets := by
  obtain ⟨s, hfollows, hlive, hheld, hholds, hhand⟩ := h
  refine ⟨_, hfollows.call (hpermitted s hhand) (fun _ _ _ _ => hextend _ _ _)
    (fun _ _ _ => hrelease _ _), hlive, ?_, hholds, hhand⟩
  rw [World.call, heldOf_snoc]
  exact hheld

/-- Evicting an idle sequence keeps every ticket. -/
theorem Tracked.evictIdle (h : w.Tracked config order tickets) :
    (w.call .evictIdle).Tracked config order tickets :=
  h.environment (fun _ hhand => .evictIdle hhand) (fun _ _ _ => Call.noConfusion) fun _ _ =>
    Call.noConfusion

/-- Decoding the next token of a ticket's sequence moves its client on. -/
theorem Tracked.decode (h : w.Tracked config order (t :: tickets)) {token : Token} {pos : ℕ}
    (hnext : t.client.Next token pos) :
    (w.call (.decode t.client.seqId token pos)).Tracked config order
      ({ t with client := { t.client with history := t.client.history ++ [token] } } :: tickets) :=
  h.change (f := fun c => { c with history := c.history ++ [token] }) (fun _ => ⟨rfl, rfl, rfl⟩)
    (fun _ hhand hmem => .decode hhand hmem hnext) (fun _ _ _ => Call.noConfusion) fun _ _ =>
      Call.noConfusion

/-- Marking a ticket's sequence as ready, its prompt decoded, moves its client on. -/
theorem Tracked.markReady (h : w.Tracked config order (t :: tickets))
    (hprompt : t.client.prompt ≠ []) (hlen : t.client.prompt.length ≤ t.client.history.length) :
    (w.call (.markReady t.client.seqId t.client.leaf)).Tracked config order
      ({ t with client := { t.client with ready := true } } :: tickets) :=
  h.change (f := fun c => { c with ready := true }) (fun _ => ⟨rfl, rfl, rfl⟩)
    (fun _ hhand hmem => .markReady hhand hmem hprompt hlen) (fun _ _ _ => Call.noConfusion)
      fun _ _ => Call.noConfusion

/-- Accounting for the cells of a ticket's sequence keeps every ticket. -/
theorem Tracked.setCellCount (h : w.Tracked config order (t :: tickets)) (count : ℕ) :
    (w.call (.setCellCount t.client.seqId count)).Tracked config order (t :: tickets) := by
  obtain ⟨s, hfollows, hlive, hheld, hholds, hhand⟩ := h
  rw [List.map_cons] at hlive
  have hmem : t.client ∈ s.live := hlive.mem_iff.mpr List.mem_cons_self
  refine ⟨_, hfollows.call (.setCellCount hhand hmem) (fun _ _ _ _ => Call.noConfusion)
    (fun _ _ _ => Call.noConfusion), hlive, ?_, hholds, hhand⟩
  rw [World.call, heldOf_snoc]
  exact hheld

/-- A prepared request gets a ticket. -/
theorem Tracked.prepared (h : w.Tracked config order tickets) {prompt : List Token}
    {result : PrepareResult} (id : ℕ)
    (hprepare : (w.mapper.prepareSequence prompt).2 = .ok result) :
    ((w.call (.prepare prompt)).note (.admitted id prompt result)).Tracked config order
      (⟨id, .prepared prompt result⟩ :: tickets) := by
  obtain ⟨s, hfollows, hlive, hheld, hholds, hhand⟩ := h
  have hcalled := hfollows.call (.prepare hhand (hfollows.mapper ▸ hprepare))
    (fun _ _ _ _ => Call.noConfusion)
    (fun _ _ _ => Call.noConfusion)
  have hlog : heldOf (w.call (.prepare prompt)).log = heldOf w.log := by
    rw [World.call, heldOf_snoc]
    rfl
  refine ⟨_, hcalled.note rfl ⟨fun g hg => ?_, ?_⟩, hlive.cons _, ?_, hholds, hhand⟩
  · rcases List.mem_cons.mp hg with rfl | hg
    · exact ⟨_, List.mem_cons_self, rfl, rfl, rfl, rfl⟩
    · exact hcalled.hosts.client g hg
  · have hfresh := hcalled.sound.nodup
    simp only [List.map_cons, List.nodup_cons] at hfresh
    rw [hlog]
    refine List.nodup_cons.mpr ⟨fun hmem => hfresh.1 ?_, hfollows.hosts.nodup⟩
    obtain ⟨g, hg, hseq⟩ := List.mem_map.mp hmem
    obtain ⟨c, hc, hseq', _⟩ := hfollows.hosts.client g hg
    exact List.mem_map.mpr ⟨c, hc, hseq'.trans hseq⟩
  · rw [World.note, heldOf_snoc, hlog]
    exact hheld.cons _

/-- An exhausted pool leaves the tickets as they are. -/
theorem Tracked.exhausted (h : w.Tracked config order tickets) {prompt : List Token}
    {e : SequenceCapacityExhausted} (hprepare : (w.mapper.prepareSequence prompt).2 = .error e) :
    (w.call (.prepare prompt)).Tracked config order tickets := by
  obtain ⟨s, hfollows, hlive, hheld, hholds, hhand⟩ := h
  refine ⟨_, hfollows.call (.exhausted hhand (hfollows.mapper ▸ hprepare))
    (fun _ _ _ _ => Call.noConfusion)
    (fun _ _ _ => Call.noConfusion), hlive, ?_, hholds, hhand⟩
  rw [World.call, heldOf_snoc]
  exact hheld

/-- No other ticket has the sequence of this one. -/
theorem seqId_ne_of_tickets {s : Session} (hs : s.Sound) {c : Client}
    (hlive : s.live.Perm (c :: tickets.map Ticket.client)) {held : List Held}
    (hheld : held.Perm (tickets.map Ticket.held)) : ∀ g ∈ held, g.seqId ≠ c.seqId := by
  intro g hg
  obtain ⟨t, ht, rfl⟩ := List.mem_map.mp (hheld.mem_iff.mp hg)
  exact seqId_ne_of_perm hs.nodup hlive t.client (List.mem_map_of_mem ht)

/-- A request begins to depart. -/
theorem Tracked.leaving (h : w.Tracked config order (t :: tickets)) (id : ℕ) (leaf : NodeId)
    (tokens : List Token) (extension : Bool) :
    (w.note (.leaving id t.client.seqId leaf tokens extension)).Departing config
      order t t.client.leaf
      none tickets := by
  obtain ⟨s, hfollows, hlive, hheld, hholds, hhand⟩ := h
  rw [List.map_cons] at hlive hheld
  have howner : { t.client with owner := t.client.leaf } = t.client := by
    obtain ⟨_, _, hbooks⟩ := hfollows.sound
    have heq := hbooks.owner_eq_leaf hhand (hlive.mem_iff.mpr List.mem_cons_self)
    rw [← heq]
  refine ⟨s, hfollows.note rfl (hfollows.hosts.leave _), howner ▸ hlive, ?_, hholds, hhand⟩
  rw [World.note, heldOf_snoc]
  refine (hheld.filter _).trans ?_
  rw [List.filter_cons_of_neg (by simp [Ticket.held])]
  refine List.Perm.of_eq (List.filter_eq_self.mpr fun g hg => ?_)
  simpa using seqId_ne_of_tickets hfollows.sound hlive (List.Perm.refl _) g hg

/-- A departing request that is ready moves its sequence to the end of its history. -/
theorem Departing.extend (h : w.Departing config order t t.client.leaf none tickets)
    (hready : t.client.ready = true) :
    (w.call (.extend t.client.seqId t.client.leaf t.client.history)).Departing config order t
      (w.mapper.extendSequence t.client.seqId t.client.leaf t.client.history).2
        (some t.client.seqId) tickets := by
  obtain ⟨s, hfollows, hlive, hheld, hholds, hhand⟩ := h
  have hmem : { t.client with owner := t.client.leaf } ∈ s.live :=
    hlive.mem_iff.mpr List.mem_cons_self
  have hothers := seqId_ne_of_tickets hfollows.sound hlive hheld
  refine ⟨_,
    hfollows.call (.extend (c := { t.client with owner := t.client.leaf }) hhand hmem hready)
    (fun g hg _ _ heq => hothers g hg (Call.extend.inj heq).1.symm) (fun _ _ _ => Call.noConfusion),
      ?_, ?_, hholds, rfl⟩
  · rw [← hfollows.mapper]
    exact change_perm hfollows.sound.nodup hlive fun d =>
      { d with owner := (s.mapper.extendSequence t.client.seqId t.client.leaf t.client.history).2 }
  · rw [World.call, heldOf_snoc]
    exact hheld

/-- A departing request gives its sequence and its reference back. -/
theorem Departing.giveBack {owner : NodeId} {hand : Option SeqId}
    (h : w.Departing config order t owner hand tickets)
    (hhand : hand = none ∨ hand = some t.client.seqId) (id : ℕ) :
    (w.giveBack id t.client.seqId owner t.client.leaf).Tracked config order tickets := by
  obtain ⟨s, hfollows, hlive, hheld, hholds, hhand'⟩ := h
  have hmem : { t.client with owner := owner } ∈ s.live := hlive.mem_iff.mpr List.mem_cons_self
  have hothers := seqId_ne_of_tickets hfollows.sound hlive hheld
  have hreleased := hfollows.call (.releaseSequence hmem (hhand' ▸ hhand))
    (fun _ _ _ _ => Call.noConfusion)
    (fun g hg _ heq => hothers g hg (Call.releaseSequence.inj heq).1.symm)
  have hnode : t.client.leaf ∈ t.client.leaf :: s.holds := List.mem_cons_self
  have hgiven := hreleased.call (.release rfl hnode) (fun _ _ _ _ => Call.noConfusion)
    (fun _ _ _ => Call.noConfusion)
  refine ⟨_, hgiven.note rfl hgiven.hosts, filter_perm hfollows.sound.nodup hlive, ?_, ?_, rfl⟩
  · simp only [World.giveBack, World.note, World.call, heldOf_snoc]
    exact hheld
  · exact (List.erase_cons_head _ _).trans hholds

end World

end RadixForge
