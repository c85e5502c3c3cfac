import RadixForge.Worker.Departures
import RadixForge.Worker.Isolation

/-!
# What a completed request leaves in the cache

When a request that received its last piece and was not cancelled has left, its prompt and the
tokens it decoded are found ready as a whole exactly under a condition on the tree at the begin of
its departure. The departure extends the sequence only after a stop token that was sampled while
decoding, not at the end of the budget.
-/

namespace RadixForge

open Library

variable {L : Type} {b : Bridge L} {config : Config} {order : ChildOrder}

deriving instance DecidableEq for Entry

/-- The callbacks of a request in a log. -/
def eventsIn (log : List Entry) (id : ℕ) : List Event := log.filterMap (Entry.eventOf? id)

/-- The request has received its last piece and was not found cancelled. -/
def Completed (log : List Entry) (id : ℕ) : Prop :=
  (∃ e ∈ eventsIn log id, e.isLast = true) ∧ .polled true ∉ eventsIn log id

instance (log : List Entry) (id : ℕ) : Decidable (Completed log id) :=
  inferInstanceAs (Decidable (_ ∧ _))

/-- The events of a request are the entries of the journal that carry its id. -/
theorem mem_eventsIn {log : List Entry} {id : ℕ} {e : Event} :
    e ∈ eventsIn log id ↔ .event id e ∈ log :=
  World.mem_eventsOf (w := ⟨.init ⟨0, 0, false⟩ .stored, log⟩)

/-- The last piece is terminal. -/
theorem Event.isTerminal_of_isLast {e : Event} (h : e.isLast = true) : e.isTerminal = true := by
  cases e with
  | onToken => exact h
  | _ => cases h

/-- A completed request receives no error. -/
theorem Departed.noError_of_last {generated : List Token} {closing : Closing} {tail : Tail}
    {es : List Event} (h : Departed generated closing tail es) {e : Event} (he : e ∈ es)
    (hlast : e.isLast = true) (message : String) (status : ℕ) : .onError message status ∉ es := by
  obtain rfl := h.completed_of_last he hlast
  intro herror
  cases h with
  | closed before last after hopen hcloses htrails =>
    rcases List.mem_append.mp herror with hbefore | hafter
    · exact Bool.true_eq_false_eq_False (hopen _ hbefore)
    · rcases List.mem_cons.mp hafter with heq | hafter
      · cases hcloses
        cases heq
      · cases htrails with
        | quiet => exact List.not_mem_nil hafter
        | polled _ hpolls =>
          obtain ⟨answer, heq⟩ := hpolls _ hafter
          cases heq
        | cancelled =>
          rcases List.mem_pair.mp hafter with heq | heq <;> cases heq

namespace Worker

variable {k : Worker L}

/-- In every run a completed request was served: no error and no cancellation stands against its
last piece. -/
theorem not_unserved {actions : List Action}
    (hrun : (Worker.init config order : Worker L).Run b actions k) {before : List Entry} {id : ℕ}
    (hbefore : before <+: k.world.log) (hcompleted : Completed before id) :
    ¬ Unserved id before k.world.log := by
  obtain ⟨⟨e, he, hlast⟩, hnot⟩ := hcompleted
  have hserves := run_serves_all hrun
  have hmem : e ∈ k.world.eventsOf id :=
    World.mem_eventsOf.mpr (hbefore.subset (mem_eventsIn.mp he))
  rintro (hpolled | ⟨message, status, herror⟩ | hopen)
  · exact hnot (mem_eventsIn.mpr hpolled)
  · by_cases hlt : id < k.arrivals.length
    · by_cases hpresent : id ∈ k.present
      · have hterminal := (hserves.opened hpresent).2.1 e hmem
        rw [Event.isTerminal_of_isLast hlast] at hterminal
        cases hterminal
      · obtain ⟨closing, tail, _, hdeparted⟩ := hserves.departed hlt hpresent
        exact hdeparted.noError_of_last hmem hlast message status (World.mem_eventsOf.mpr herror)
    · rw [hserves.fresh (not_lt.mp hlt)] at hmem
      exact List.not_mem_nil hmem
  · have hterminal := hopen e (mem_eventsIn.mp he)
    rw [Event.isTerminal_of_isLast hlast] at hterminal
    cases hterminal

end Worker

section Completed

variable {actions : List Action} {k : Worker L} {before : List Entry} {id : ℕ}

/-- A client of the session that is ready with what the departure announces holds these tokens, its
prompt first. -/
theorem Departure.Begins.filled {d : Departure} {s : Session} {c : Client}
    (h : d.Begins config order id s c) (hready : c.ready = true) (htokens : c.history = d.tokens) :
    (∃ prompt result, .admitted id prompt result ∈ d.earlier ∧ result.seqId = d.seqId ∧
      prompt <+: d.tokens) ∧
      (mapperAfter config order d.earlier).memory.cells d.seqId = LlamaMemory.tape d.tokens := by
  obtain ⟨path, idle, hbooks⟩ := Session.run_sound h.run
  obtain ⟨hprompt, _, _⟩ := (hbooks.contents.clients c h.live).ready hready
  obtain ⟨result, hadmitted, hseq⟩ := h.admitted
  have hmapper : mapperAfter config order d.earlier = s.mapper := (Session.run_mapper h.run).symm
  refine ⟨⟨_, result, hadmitted, hseq, htokens ▸ hprompt⟩, ?_⟩
  rw [hmapper, ← h.seqId, ← htokens]
  exact (hbooks.contents.clients c h.live).cells

/-- The departure of a completed request is that of a client that is ready with what the departure
announces. -/
theorem Worker.completed_begins (hrun : (Worker.init config order : Worker L).Run b actions k)
    (hleft : before ++ [.left id] <+: k.world.log) (hcompleted : Completed before id) :
    ∃ (d : Departure) (entries : List Entry) (s : Session) (c : Client),
      before = d.earlier ++ d.mark id :: entries ∧ d.Wrote id entries ∧
      d.Begins config order id s c ∧
        c.ready = true ∧ c.history = d.tokens := by
  obtain ⟨d, entries, s, c, hbefore, hwrote, hbegins, hserved⟩ :=
    Worker.run_journal hrun before id hleft
  have hpart : before <+: k.world.log := (List.prefix_append _ _).trans hleft
  obtain ⟨hready, htokens⟩ := hserved.resolve_right (Worker.not_unserved hrun hpart hcompleted)
  exact ⟨d, entries, s, c, hbefore, hwrote, hbegins, hready, htokens⟩

/-- After the departure an inspection finds the tokens ready as a whole exactly if the tree before
it keeps them. -/
theorem Worker.departure_whole_iff (hrun : (Worker.init config order : Worker L).Run b actions k)
    (hcache : config.prefixCacheEnabled = true) (hpart : before <+: k.world.log)
    (huncancelled : .polled true ∉ eventsIn before id) {d : Departure} {entries : List Entry}
    {s : Session} {c : Client} (hbefore : before = d.earlier ++ d.mark id :: entries)
    (hwrote : d.Wrote id entries) (hbegins : d.Begins config order id s c) (hready : c.ready = true)
    (htokens : c.history = d.tokens) :
    ((mapperAfter config order before).inspectPrefix d.tokens).readyTokens = d.tokens.length ↔
      (mapperAfter config order d.earlier).tree.KeepsWhole d.seqId d.tokens d.extension := by
  subst hbefore
  obtain ⟨_, hfollows, _⟩ := (Worker.run_follows hrun).tracked
  obtain ⟨s', hrun', _⟩ := hfollows.past _ hpart
  obtain ⟨extended, owner, hextended, hcalls⟩ := hwrote.calls
  -- without a cancellation the departure extends as announced
  have hannounced : extended = d.extension := by
    refine hextended.resolve_right fun hpolled => huncancelled (mem_eventsIn.mpr ?_)
    exact List.mem_append_right _ (List.mem_cons_of_mem _ hpolled)
  have hsplit : callsOf (d.earlier ++ d.mark id :: entries) =
      callsOf d.earlier ++ callsOf entries := by
    rw [callsOf, List.filterMap_append]
    rfl
  obtain ⟨path, idle, hbooks⟩ := Session.run_sound hbegins.run
  have hmapper : mapperAfter config order d.earlier = s.mapper :=
    (Session.run_mapper hbegins.run).symm
  have hmapper' : mapperAfter config order (d.earlier ++ d.mark id :: entries) = s'.mapper :=
    (Session.run_mapper hrun').symm
  have henabled : s.mapper.config.prefixCacheEnabled = true := by
    rw [Session.run_config hbegins.run]
    exact hcache
  have hwhole : s'.mapper.tree.Whole d.tokens ↔
      s.mapper.tree.KeepsWhole d.seqId d.tokens d.extension := by
    rw [hsplit, hcalls, hannounced, ← hbegins.seqId, ← hbegins.leaf, ← htokens] at hrun'
    obtain ⟨s₁, hrun₁, hrest⟩ := run_append_some hrun'
    obtain rfl : s₁ = s := Option.some.inj (hrun₁.symm.trans hbegins.run)
    rw [← hbegins.seqId, ← htokens]
    exact Session.departure_whole_iff ⟨path, idle, hbooks⟩ hbegins.hand henabled hbegins.live hrest
  obtain ⟨_, _, hbooks'⟩ := Session.run_sound hrun'
  rw [hmapper, hmapper']
  exact (hbooks'.placement.whole_iff (htokens ▸ hbooks.history_ne_nil hbegins.live hready)).trans
    hwhole

end Completed

/-- In every run with the prefix cache, when a completed request has left, an inspection finds its
prompt and the tokens it decoded ready as a whole exactly if, at the begin of its departure, another
ready sequence was listed where they end, or no other one was listed there and its own was extended
to them or listed there ready already. -/
theorem completed_prefix_ready_iff (b : Bridge L) (config : Config) (order : ChildOrder)
    (actions : List Action) (k : Worker L)
    (hrun : (Worker.init config order : Worker L).Run b actions k)
    (hcache : config.prefixCacheEnabled = true) (before : List Entry) (id : ℕ)
    (hleft : before ++ [.left id] <+: k.world.log) (hcompleted : Completed before id) :
    ∃ d, departureOf? id before = some d ∧
      (∃ prompt result, .admitted id prompt result ∈ d.earlier ∧ result.seqId = d.seqId ∧
        prompt <+: d.tokens) ∧
      (mapperAfter config order d.earlier).memory.cells d.seqId = LlamaMemory.tape d.tokens ∧
      (((mapperAfter config order before).inspectPrefix d.tokens).readyTokens = d.tokens.length ↔
        (mapperAfter config order d.earlier).tree.KeepsWhole d.seqId d.tokens d.extension) := by
  obtain ⟨d, entries, s, c, hbefore, hwrote, hbegins, hready, htokens⟩ :=
    Worker.completed_begins hrun hleft hcompleted
  obtain ⟨hadmitted, hcells⟩ := hbegins.filled hready htokens
  refine ⟨d, ?_, hadmitted, hcells, ?_⟩
  · rw [hbefore]
    exact departureOf_mark d hwrote.quiet
  · exact Worker.departure_whole_iff hrun hcache ((List.prefix_append _ _).trans hleft) hcompleted.2
      hbefore hwrote hbegins
      hready htokens

/-- A request that ends with a stop token after one decoded token leaves all it decoded. -/
theorem completed_prefix_ready_stop : ∃ (k : Worker Unit) (before : List Entry) (d : Departure),
    (Worker.init ⟨4, 64, true⟩ .stored).Run (Bridge.counting (fun _ => [5, 6]) 2)
      (.enqueue {} :: Worker.iteration 0 0 ++ Worker.iteration 0 0) k ∧
      before ++ [.left 0] <+: k.world.log ∧ departureOf? 0 before = some d ∧ d.tokens = [5, 6, 1] ∧
      (mapperAfter ⟨4, 64, true⟩ .stored d.earlier).tree.KeepsWhole d.seqId
        d.tokens d.extension := by
  have hrun : (run (Worker.step (Bridge.counting (fun _ => [5, 6]) 2))
      (Worker.init ⟨4, 64, true⟩ .stored)
      (.enqueue {} :: Worker.iteration 0 0 ++ Worker.iteration 0 0)).any
        (fun k => k.world.log.dropLast ++ [.left 0] =
        k.world.log ∧ Completed k.world.log.dropLast 0 ∧
        ∀ d ∈ departureOf? 0 k.world.log.dropLast, d.tokens = [5, 6, 1] ∧
          ((mapperAfter ⟨4, 64, true⟩ .stored k.world.log.dropLast).inspectPrefix
            d.tokens).readyTokens = d.tokens.length) =
      true := by decide +kernel
  obtain ⟨k, hk, hcond⟩ := (Option.any_eq_true _ _).mp hrun
  obtain ⟨hlog, hcompleted, hdeparture⟩ := of_decide_eq_true hcond
  have hleft : k.world.log.dropLast ++ [.left 0] <+: k.world.log := by rw [hlog]
  obtain ⟨d, hd, _, _, hiff⟩ := completed_prefix_ready_iff _ _ _ _ k hk rfl _ 0 hleft hcompleted
  obtain ⟨htokens, hready⟩ := hdeparture d hd
  exact ⟨k, _, d, hk, hleft, hd, htokens, hiff.mp hready⟩

/-- In every run with the prefix cache the departure of a completed request announces its prompt and
the tokens it decoded, and inspections find them ready as a whole after all these departures exactly
if the tree at the begin of each keeps them. -/
theorem completed_prefixes_ready (b : Bridge L) (config : Config) (order : ChildOrder)
    (actions : List Action) (k : Worker L)
    (hrun : (Worker.init config order : Worker L).Run b actions k)
    (hcache : config.prefixCacheEnabled = true) :
    (∀ before id, before ++ [.left id] <+: k.world.log → Completed before id →
      ∃ d ∈ departureOf? id before, (∃ prompt result, .admitted id prompt result ∈ d.earlier ∧
        result.seqId = d.seqId ∧ prompt <+: d.tokens) ∧
        (mapperAfter config order d.earlier).memory.cells d.seqId = LlamaMemory.tape d.tokens) ∧
      ((∀ before id, before ++ [.left id] <+: k.world.log → Completed before id →
        ∀ d ∈ departureOf? id before,
          ((mapperAfter config order before).inspectPrefix d.tokens).readyTokens =
            d.tokens.length) ↔
        ∀ before id, before ++ [.left id] <+: k.world.log → Completed before id →
        ∀ d ∈ departureOf? id before,
          (mapperAfter config order d.earlier).tree.KeepsWhole d.seqId d.tokens d.extension) := by
  constructor
  · intro before id hleft hcompleted
    obtain ⟨d, entries, s, c, hbefore, hwrote, hbegins, hready, htokens⟩ :=
      Worker.completed_begins hrun hleft hcompleted
    exact ⟨d, hbefore ▸ departureOf_mark d hwrote.quiet, hbegins.filled hready htokens⟩
  · refine forall₄_congr fun before id hleft hcompleted => ?_
    obtain ⟨d, entries, s, c, hbefore, hwrote, hbegins, hready, htokens⟩ :=
      Worker.completed_begins hrun hleft hcompleted
    have hdeparture : departureOf? id before = some d := hbefore ▸ departureOf_mark d hwrote.quiet
    have hiff := Worker.departure_whole_iff hrun hcache ((List.prefix_append _ _).trans hleft)
      hcompleted.2 hbefore hwrote
      hbegins hready htokens
    simp only [hdeparture, Option.mem_def, Option.some.injEq, forall_eq']
    exact hiff

/-- A run of one request, which ends with a stop token, meets the condition at its only departure.
-/
theorem completed_prefixes_ready_stop : ∃ k : Worker Unit,
    (Worker.init ⟨4, 64, true⟩ .stored).Run (Bridge.counting (fun _ => [5, 6]) 2)
      (.enqueue {} :: Worker.iteration 0 0 ++ Worker.iteration 0 0) k ∧
      (∃ before id, before ++ [.left id] <+: k.world.log ∧ Completed before id) ∧
      ∀ before id, before ++ [.left id] <+: k.world.log → Completed before id →
      ∀ d ∈ departureOf? id before,
        (mapperAfter ⟨4, 64, true⟩ .stored d.earlier).tree.KeepsWhole d.seqId
          d.tokens d.extension := by
  have hrun : (run (Worker.step (Bridge.counting (fun _ => [5, 6]) 2))
      (Worker.init ⟨4, 64, true⟩ .stored)
      (.enqueue {} :: Worker.iteration 0 0 ++ Worker.iteration 0 0)).any (fun k =>
        k.world.log.dropLast ++ [.left 0] = k.world.log ∧ Completed k.world.log.dropLast 0 ∧
          ∃ d ∈ departureOf? 0 k.world.log.dropLast, k.world.log.dropLast.filter Entry.departs =
            [d.mark 0] ∧
            ((mapperAfter ⟨4, 64, true⟩ .stored k.world.log.dropLast).inspectPrefix
              d.tokens).readyTokens =
              d.tokens.length) = true := by decide +kernel
  obtain ⟨k, hk, hcond⟩ := (Option.any_eq_true _ _).mp hrun
  obtain ⟨hlog, hcompleted, d, hd, hdeparts, hready⟩ := of_decide_eq_true hcond
  refine ⟨k, hk, ⟨_, 0, by rw [hlog], hcompleted⟩,
    (completed_prefixes_ready _ _ _ _ k hk rfl).2.mp fun before id hleft _ d' hd' => ?_⟩
  rw [← hlog, List.prefix_concat_iff] at hleft
  rcases hleft with heq | hearlier
  · -- the request leaves with the last entry
    obtain ⟨rfl, hid⟩ := List.append_inj' heq rfl
    obtain rfl : id = 0 := Entry.left.inj (List.singleton_inj.mp hid)
    obtain rfl : d = d' := Option.some.inj (hd.symm.trans hd')
    exact hready
  · -- and with no other
    have hmem : .left id ∈ k.world.log.dropLast.filter Entry.departs :=
      List.mem_filter.mpr ⟨hearlier.subset List.mem_concat_self, rfl⟩
    rw [hdeparts, List.mem_singleton] at hmem
    cases hmem

/-- A request that reaches its budget while decoding leaves its prompt only. -/
theorem completed_prefix_lost :
    ¬ ∀ (b : Bridge Unit) (config : Config) (order : ChildOrder) (actions : List Action)
    (k : Worker Unit), (Worker.init config order : Worker Unit).Run b actions k →
      config.prefixCacheEnabled = true →
      ∀ before id, before ++ [.left id] <+: k.world.log → Completed before id →
      ∀ d ∈ departureOf? id before,
        ((mapperAfter config order before).inspectPrefix d.tokens).readyTokens =
          d.tokens.length := by
  intro hall
  have hrun : (run (Worker.step (Bridge.counting (fun _ => [5, 6]) 0))
      (Worker.init ⟨4, 64, true⟩ .stored)
      (.enqueue { maxTokens := 2 } :: Worker.iteration 0 0 ++ Worker.iteration 0 0)).any (fun k =>
        k.world.log.dropLast ++ [.left 0] = k.world.log ∧ Completed k.world.log.dropLast 0 ∧
          ∃ d ∈ departureOf? 0 k.world.log.dropLast,
          ((mapperAfter ⟨4, 64, true⟩ .stored k.world.log.dropLast).inspectPrefix
            d.tokens).readyTokens ≠ d.tokens.length) = true := by decide +kernel
  obtain ⟨k, hk, hcond⟩ := (Option.any_eq_true _ _).mp hrun
  obtain ⟨hlog, hcompleted, d, hd, hlost⟩ := of_decide_eq_true hcond
  exact hlost (hall _ _ _ _ k hk rfl _ 0 (by rw [hlog]) hcompleted d hd)

end RadixForge
