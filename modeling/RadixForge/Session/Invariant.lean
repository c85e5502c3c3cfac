import RadixForge.Session.Prepare

/-!
# The books hold in every reachable session

One permitted call keeps the books, so every run of calls from a fresh session does.
-/

namespace RadixForge

open Library

/-- A session whose books are in order for some paths and idle sequences. -/
def Session.Sound (s : Session) : Prop := ∃ path idle, Books s path idle

/-- A fresh session has empty books. -/
theorem Session.init_sound (config : Config) (order : ChildOrder) :
    (Session.init config order).Sound := by
  have hdata (n : NodeId) : (Session.init config order).mapper.tree.data n =
      if n = rootId then { refCount := 1 } else {} := by
    simp only [Session.init, KVMapper.init, RadixTree.init, RadixTree.data, RadixTree.field]
    by_cases hn : n = rootId <;> simp [hn, RadixNode.data]
  have hempty (n : NodeId) : ((Session.init config order).mapper.tree.data n).seqIds = ∅ ∧
      ((Session.init config order).mapper.tree.data n).readySeqIds = ∅ ∧
      ((Session.init config order).mapper.tree.data n).canonicalLen = 0 := by
    rw [hdata]
    split <;> exact ⟨rfl, rfl, rfl⟩
  have hnodes (n : NodeId) : (Session.init config order).mapper.tree.nodes n =
      if n = rootId then some { refCount := 1 } else none := rfl
  refine ⟨fun _ => [], fun _ => none, ⟨?_, ?_, ?_, ?_, ?_, ?_⟩, ⟨?_, ?_, ?_, ?_⟩, ⟨?_, ?_, ?_⟩, ?_⟩
  · refine ⟨⟨{ refCount := 1 }, (hnodes rootId).trans (if_pos rfl), rfl, rfl⟩, rfl, ?_, ?_, ?_⟩
    · intro n x hx hn
      rw [hnodes, if_neg hn] at hx
      contradiction
    · intro p key c hc
      obtain ⟨y, hy, hlookup⟩ := RadixTree.childAt_eq_some.mp hc
      rw [hnodes] at hy
      split at hy
      · cases hy
        simp at hlookup
      · contradiction
    · intro n x hx
      rw [hnodes] at hx
      split at hx
      · rename_i hn
        rw [hn]
        exact Nat.one_pos
      · contradiction
  · intro n
    refine ⟨fun s hs => absurd ((hempty n).2.1 ▸ hs) (OrderedSet.notMem_empty s),
      fun _ => (hempty n).2.2⟩
  · intro n
    rw [hdata]
    simp only [Session.init, List.countP_nil, List.count_nil, Nat.zero_add]
    split <;> rfl
  · constructor
    · intro n i
      rw [(hempty n).1]
      simp [Session.init]
    · intro n i
      rw [(hempty n).2.1]
      simp [Session.init]
  · exact fun n hn => absurd (hempty n).1 hn
  · exact fun n i hi => absurd hi (Option.some_ne_none i).symm
  · exact Leases.init List.nodup_range'
  · intro i
    simp [Session.init, KVMapper.init]
  · intro i
    simp [Session.init, KVMapper.init]
  · exact fun n i hi => absurd hi (Option.some_ne_none i).symm
  · exact fun c hc => absurd hc List.not_mem_nil
  · exact fun n i hi => absurd hi (Option.some_ne_none i).symm
  · exact fun i _ => rfl
  · exact fun c hc => absurd hc List.not_mem_nil

/-- A permitted call keeps the books. -/
theorem Session.step_sound {s s' : Session} {call : Call} (hs : s.Sound)
    (hstep : s.step call = some s') : s'.Sound := by
  obtain ⟨path, idle, h⟩ := hs
  have hidle (hhand : s.hand = none) : ∃ idle', Books (s.call .evictIdle) path idle' := by
    obtain ⟨idle', hbooks, _⟩ := h.evictOne_keep hhand
    exact ⟨idle', hbooks⟩
  cases permitted_of_step hstep with
  | prepare hhand hprepare =>
    rename_i prompt result
    obtain ⟨path', idle', hprepared⟩ := h.prepareSequence hhand prompt
    simp only [Session.call, Call.apply]
    generalize s.mapper.prepareSequence prompt = outcome at hprepare hprepared ⊢
    obtain ⟨m, _⟩ := outcome
    cases hprepare
    exact ⟨path', idle', hprepared⟩
  | exhausted hhand hprepare =>
    rename_i prompt e
    obtain ⟨path', idle', hprepared⟩ := h.prepareSequence hhand prompt
    simp only [Session.call, Call.apply]
    generalize s.mapper.prepareSequence prompt = outcome at hprepare hprepared ⊢
    obtain ⟨m, _⟩ := outcome
    cases hprepare
    exact ⟨path', idle', hprepared⟩
  | decode _ hc hnext => exact ⟨path, idle, h.decode hc hnext⟩
  | markReady hhand hc hprompt hlen => exact ⟨path, idle, h.markReady hhand hc hprompt hlen⟩
  | setCellCount _ _ => exact ⟨path, idle, h.setCellCount _ _⟩
  | extend hhand hc hready =>
    obtain ⟨path', hbooks⟩ := h.extend hhand hc hready
    exact ⟨path', idle, hbooks⟩
  | releaseSequence hc hhand =>
    obtain ⟨idle', hbooks⟩ := h.releaseSequence hc hhand
    exact ⟨path, idle', hbooks⟩
  | release _ hnode => exact ⟨path, idle, (h.release hnode).1⟩
  | gcIfNeeded hhand =>
    simp only [Session.call, Call.apply, KVMapper.gcIfNeeded]
    split
    · exact ⟨path, idle, h⟩
    · exact ⟨path, hidle hhand⟩
  | evictIdle hhand => exact ⟨path, hidle hhand⟩
  | evictKvPressure hhand =>
    obtain ⟨idle', hbooks, _⟩ := h.evictKvPressure hhand
    exact ⟨path, idle', hbooks⟩

/-- The books are in order after every run of a fresh session. -/
theorem Session.run_sound {config : Config} {order : ChildOrder} {calls : List Call} {s : Session}
    (hrun : (Session.init config order).Run calls s) : s.Sound :=
  run_invariant (fun _ _ _ hs hstep => Session.step_sound hs hstep)
    (Session.init_sound config order) hrun

end RadixForge
