import RadixForge.Session.Representation
import RadixForge.Tree.Reading
import RadixForge.Worker.Bounds

/-!
# Pinned requests

A request that was prepared and has not begun to depart keeps its leaf: the node stays in the tree
on the way to its prompt, it is referenced and lists the request's sequence, and no eviction returns
either of them. This holds after every single call and inside the next one. Inside a preparation the
node of the new prompt is kept in the same way, and the cache node above it keeps its place but not
its idle sequences.
-/

namespace RadixForge

open Library

variable {L : Type} {b : Bridge L} {config : Config} {order : ChildOrder}

/-- The number of requests with the given leaf. -/
def leafCount (held : List Held) (n : NodeId) : ℕ := held.countP fun g => g.leaf = n

/-- A node stays in the tree on the way to a prompt, with a reference for each request whose leaf it
is. -/
structure RadixTree.Keeps (t : RadixTree) (held : List Held) (n : NodeId) (prompt : List Token) :
    Prop where
  alive : t.Alive n
  path : t.pathTokens n <+: prompt
  refs : leafCount held n ≤ (t.data n).refCount

/-- A request's leaf stays in the tree and lists its sequence, and no eviction returns either of
them. -/
structure RadixTree.Pins (t : RadixTree) (held : List Held) (g : Held) : Prop where
  keeps : t.Keeps held g.leaf g.prompt
  registered : g.seqId ∈ (t.data g.leaf).seqIds
  passed : ∀ count, g.leaf ∉ t.findEvictionCandidates count
  spared : ∀ n, g.seqId ∉ (t.evict n).2

/-- The node of an insertion stays in the tree and no eviction returns it or its sequences; the
cache node above it stays in the tree. -/
structure RadixTree.Guards (t : RadixTree) (held : List Held) (prompt : List Token)
    (found : PrefixMatch) : Prop where
  node : t.Keeps held found.node prompt
  passed : ∀ count, found.node ∉ t.findEvictionCandidates count
  spared : (t.evict found.node).2 = []
  cacheNode : t.Keeps held found.cacheNode prompt

/-- A referenced node gives nothing to an eviction. -/
theorem RadixTree.evict_referenced {t : RadixTree} {n : NodeId} (h : 0 < (t.data n).refCount) :
    (∀ count, n ∉ t.findEvictionCandidates count) ∧ (t.evict n).2 = [] := by
  refine ⟨fun count hn => h.ne' (evictable_of_candidate hn).2.1, ?_⟩
  unfold evict
  split
  · rfl
  · rename_i x hx
    rw [data_of_nodes hx] at h
    have hcond : x.parent = none ∨ x.refCount ≠ 0 ∨ x.seqIds = ∅ := Or.inr (Or.inl h.ne')
    rw [if_pos hcond]

/-- An eviction returns sequences of the node only. -/
theorem RadixTree.mem_evict {t : RadixTree} {n : NodeId} {i : SeqId} (h : i ∈ (t.evict n).2) :
    i ∈ (t.data n).seqIds ∧ (t.data n).refCount = 0 := by
  unfold evict at h
  split at h
  · exact absurd h List.not_mem_nil
  · rename_i x hx
    split at h
    · exact absurd h List.not_mem_nil
    · rename_i hcond
      push Not at hcond
      rw [data_of_nodes hx]
      exact ⟨h, hcond.2.1⟩

namespace Books

variable {s : Session} {path : NodeId → List Token} {idle : NodeId → Option SeqId}
  {held : List Held}

/-- There are at least as many clients with a leaf as requests that hold a sequence there. -/
theorem leafCount_le (_ : Books s path idle) (hhosts : s.Hosts held) (n : NodeId) :
    leafCount held n ≤ s.live.countP fun c => c.leaf = n := by
  have hsub : (held.filter fun g => g.leaf = n).map Held.seqId ⊆
      (s.live.filter fun c => c.leaf = n).map Client.seqId := by
    intro i hi
    obtain ⟨g, hg, rfl⟩ := List.mem_map.mp hi
    obtain ⟨hmem, hleaf⟩ := List.mem_filter.mp hg
    obtain ⟨c, hc, hseq, hcleaf, _⟩ := hhosts.client g hmem
    refine List.mem_map.mpr ⟨c, List.mem_filter.mpr ⟨hc, ?_⟩, hseq⟩
    rw [hcleaf]
    exact hleaf
  have hnodup : ((held.filter fun g => g.leaf = n).map Held.seqId).Nodup :=
    hhosts.nodup.sublist (List.filter_sublist.map _)
  have hlength := (List.subperm_of_subset hnodup hsub).length_le
  rwa [List.length_map, List.length_map, ← List.countP_eq_length_filter,
    ← List.countP_eq_length_filter] at hlength

/-- The references of a node cover the requests and what is held. -/
theorem refs_ge (h : Books s path idle) (hhosts : s.Hosts held) (n : NodeId) :
    leafCount held n + s.holds.count n ≤ (s.mapper.tree.data n).refCount := by
  have hcount := h.leafCount_le hhosts n
  rw [h.placement.refs]
  omega

/-- The path of a held node is kept by whatever the mapper evicts for a prompt that goes through it.
-/
theorem keeps (h : Books s path idle) (hhosts : s.Hosts held) {n : NodeId}
    (hn : s.mapper.tree.Alive n) {prompt : List Token} (hpath : path n <+: prompt) :
    s.mapper.tree.Keeps held n prompt where
  alive := hn
  path := by
    rw [h.placement.shape.pathTokens_eq hn]
    exact hpath
  refs := (Nat.le_add_right _ _).trans (h.refs_ge hhosts n)

/-- A request that holds a sequence is pinned. -/
theorem pins (h : Books s path idle) (hhosts : s.Hosts held) {g : Held} (hg : g ∈ held) :
    s.mapper.tree.Pins held g := by
  obtain ⟨c, hc, hseq, hleaf, howner, hprompt⟩ := hhosts.client g hg
  have halive := h.placement.leaf_alive (Or.inl ⟨c, hc, hleaf⟩)
  have hrefs : 0 < (s.mapper.tree.data g.leaf).refCount :=
    h.placement.refs_pos (Or.inl ⟨c, hc, hleaf⟩)
  have hregistered : g.seqId ∈ (s.mapper.tree.data g.leaf).seqIds := by
    rw [← hseq, ← howner]
    exact h.placement.mem_owner hc
  refine ⟨h.keeps hhosts halive ?_, hregistered, (RadixTree.evict_referenced hrefs).1,
    fun n hn => ?_⟩
  · rw [← hleaf, ← hprompt]
    exact (h.contents.clients c hc).leafPath
  · obtain ⟨hmem, hzero⟩ := RadixTree.mem_evict hn
    rw [h.registered_once hmem hregistered] at hzero
    exact hrefs.ne' hzero

end Books

/-- The node and the cache node of a preparation are guarded. -/
theorem Preparing.guards {s : Session} {m : KVMapper} {prompt : List Token} {found : PrefixMatch}
    {path : NodeId → List Token} {idle : NodeId → Option SeqId}
    (h : Preparing s m prompt found path idle) {held : List Held} (hhosts : s.Hosts held) :
    m.tree.Guards held prompt found := by
  have hhosts' : Session.Hosts { s with mapper := m, holds := found.node :: s.holds } held :=
    ⟨hhosts.client, hhosts.nodup⟩
  have halive : m.tree.Alive found.node := h.books.placement.leaf_alive (Or.inr List.mem_cons_self)
  have hrefs : 0 < (m.tree.data found.node).refCount :=
    h.books.placement.refs_pos (Or.inr List.mem_cons_self)
  obtain ⟨hpassed, hspared⟩ := RadixTree.evict_referenced hrefs
  refine ⟨h.books.keeps hhosts' halive ?_, hpassed, hspared, h.books.keeps hhosts' h.cacheNode ?_⟩
  · rw [h.node]
  · rw [h.cachePath]
    exact List.take_prefix _ _

/-- In every run of the worker, after every single call and inside the next one, every request that
was prepared and has not begun to depart is pinned; and inside a preparation, before and after the
allocation, the node of the prompt and the cache node are guarded. -/
theorem live_requests_pinned (b : Bridge L) (config : Config) (order : ChildOrder)
    (actions : List Action) (k : Worker L)
    (hrun : (Worker.init config order : Worker L).Run b actions k) :
    (heldOf k.world.log).Perm (k.slots.tickets.map Ticket.held) ∧
      ∀ before, before <+: k.world.log → ∃ s, (Session.init config order).Run (callsOf before) s ∧
        (∀ g ∈ heldOf before, s.mapper.tree.Pins (heldOf before) g) ∧
        (s.hand = none → ∀ m, s.mapper.Within m →
          ∀ g ∈ heldOf before, m.tree.Pins (heldOf before) g) ∧
        (s.hand = none → ∀ prompt,
          ∀ m ∈ [(s.mapper.admitPrompt prompt).1, (s.mapper.admitPrompt prompt).1.allocateSeqId.1],
          m.tree.Guards (heldOf before) prompt (s.mapper.admitPrompt prompt).2) := by
  obtain ⟨_, hfollows, _, hheld, _⟩ := (Worker.run_follows hrun).tracked
  refine ⟨hheld, fun before hbefore => ?_⟩
  obtain ⟨s, hs, hhosts⟩ := hfollows.past before hbefore
  obtain ⟨path, idle, hbooks⟩ := Session.run_sound hs
  refine ⟨s, hs, fun g hg => hbooks.pins hhosts hg, fun hhand m hm g hg => ?_,
    fun hhand prompt m hm => ?_⟩
  · obtain ⟨m', holds, _, _, htree, hwithin⟩ := hbooks.within hhand hm
    have hpins := hwithin.pins ⟨hhosts.client, hhosts.nodup⟩ hg
    rw [← htree]
    exact hpins
  · obtain ⟨_, _, hadmitted⟩ := hbooks.admitPrompt hhand prompt
    rcases List.mem_pair.mp hm with rfl | rfl
    · exact hadmitted.guards hhosts
    · obtain ⟨m', _, hallocated, ⟨_, hnone⟩ | ⟨i, rest, _, hsome⟩⟩ := hadmitted.allocateSeqId hhand
      · rw [hnone]
        exact hallocated.guards hhosts
      · rw [hsome]
        have hguards := hallocated.guards hhosts
        exact hguards

/-- A request in the middle of its generation is pinned. -/
theorem live_requests_pinned_one : ∃ k,
    (Worker.init ⟨4, 64, true⟩ .stored).Run (Bridge.counting (fun _ => [5, 6]) 9)
      (.enqueue {} :: Worker.iteration 0 0) k ∧
      ∃ s : Session, ∃ g ∈ heldOf k.world.log, s.mapper.tree.Pins (heldOf k.world.log) g := by
  have hrun : (run (Worker.step (Bridge.counting (fun _ => [5, 6]) 9))
      (Worker.init ⟨4, 64, true⟩ .stored)
      (.enqueue {} :: Worker.iteration 0 0)).any (fun k => (heldOf k.world.log).length = 1) =
        true := by decide +kernel
  obtain ⟨k, hk, hcond⟩ := (Option.any_eq_true _ _).mp hrun
  obtain ⟨g, hg⟩ := List.length_eq_one_iff.mp (of_decide_eq_true hcond)
  obtain ⟨s, _, hpins, _⟩ := (live_requests_pinned _ _ _ _ k hk).2 k.world.log (List.prefix_refl _)
  exact ⟨k, hk, s, g, hg ▸ List.mem_singleton_self g, hpins g (hg ▸ List.mem_singleton_self g)⟩

/-- A context with so many sequences. -/
def Bridge.withSeqMax (b : Bridge L) (nSeqMax : ℕ) : Bridge L := { b with nSeqMax := nSeqMax }

/-- A continued prompt whose allocation finds the pool empty and takes the idle sequence of its own
cache node. -/
theorem cache_node_evicted :
    ¬ ∀ (L : Type) (b : Bridge L) (config : Config) (order : ChildOrder) (actions : List Action)
    (k : Worker L), (Worker.init config order : Worker L).Run b actions k → ∀ req ∈ k.admitted,
      (k.world.mapper.admitPrompt (b.promptTokens req)).1.freeSeqIds = [] →
        (k.world.mapper.admitPrompt (b.promptTokens req)).2.cacheNode ∉
          (k.world.mapper.admitPrompt (b.promptTokens req)).1.tree.findEvictionCandidates 1 := by
  intro hall
  have hrun : (run
      (Worker.step
        ((Bridge.counting (fun text => if text = "" then [5, 6] else [5, 6, 7]) 1).withSeqMax 2))
      (Worker.init ⟨2, 64, true⟩ .stored)
      (.enqueue {} :: Worker.iteration 0 0 ++ [.enqueue { prompt := "a" }, .check, .pop])).any
        (fun k =>
        ∃ req ∈ k.admitted, (k.world.mapper.admitPrompt
          (((Bridge.counting (fun text => if text = "" then [5, 6] else [5, 6, 7]) 1).withSeqMax
            2).promptTokens
            req)).1.freeSeqIds = [] ∧ (k.world.mapper.admitPrompt
          (((Bridge.counting (fun text => if text = "" then [5, 6] else [5, 6, 7]) 1).withSeqMax
            2).promptTokens
            req)).2.cacheNode ∈ (k.world.mapper.admitPrompt
          (((Bridge.counting (fun text => if text = "" then [5, 6] else [5, 6, 7]) 1).withSeqMax
            2).promptTokens
            req)).1.tree.findEvictionCandidates 1) = true := by decide +kernel
  obtain ⟨k, hk, hcond⟩ := (Option.any_eq_true _ _).mp hrun
  obtain ⟨req, hreq, hempty, hcandidate⟩ := of_decide_eq_true hcond
  exact hall _ _ _ _ _ k hk req hreq hempty hcandidate

end RadixForge
