import Mathlib.Logic.Relation
import Mathlib.Order.OrderDual
import RadixForge.Tree.Operations

/-!
# Which sequence covers a node

The search for a copy source takes the nearest node on the way to the root with a ready sequence
and, if there is none, one below. It finds a source exactly if there is a ready sequence on the way
to the root or below.
-/

namespace RadixForge

open Library

namespace RadixTree

/-- The second node is the first one or one of its ancestors. -/
def Chain (t : RadixTree) (n a : NodeId) : Prop :=
  Relation.ReflTransGen (fun m p => t.parentOf m = some p) n a

/-- The node has a ready sequence. -/
def Ready (t : RadixTree) (n : NodeId) : Prop := (t.data n).readySeqIds ≠ ∅

instance (t : RadixTree) (n : NodeId) : Decidable (t.Ready n) := inferInstanceAs (Decidable (_ ≠ _))

/-- What the sequences of a node cover: its canonical length, up to the end of its path. -/
def coverage (t : RadixTree) (n : NodeId) : ℕ :=
  min (t.data n).canonicalLen (t.cumulativeTokenDepth n)

/-- One of the nodes is on the way from the other to the root. -/
def Related (t : RadixTree) (n a : NodeId) : Prop := t.Chain n a ∨ t.Chain a n

/-- The node is ready itself, or no other node on its way to the root is, or none below it is. -/
def Unhidden (t : RadixTree) (n : NodeId) : Prop :=
  t.Ready n ∨ (∀ a, t.Chain n a → a ≠ n → ¬ t.Ready a) ∨ ∀ a, t.Chain a n → a ≠ n → ¬ t.Ready a

/-- The outcome of the search on the way to the root: the nearest node with a ready sequence. -/
structure Nearest (t : RadixTree) (n : NodeId) (source : SeqId) (len : ℕ) (a : NodeId) : Prop where
  chain : t.Chain n a
  ready : source ∈ (t.data a).readySeqIds
  covers : len = t.coverage a
  nearest : ∀ m, t.Chain n m → t.Ready m → t.Chain a m

/-- The outcomes of the search for a copy source: nothing is ready, the nearest ready node on the
way to the root, or a ready node below if there is none. -/
inductive Searched (t : RadixTree) (n : NodeId) : Option (SeqId × ℕ) → Prop
  | nothing (habove : ∀ a, t.Chain n a → ¬ t.Ready a) (hbelow : ∀ a, t.Chain a n → ¬ t.Ready a) :
      Searched t n none
  | above {source : SeqId} {len : ℕ} {a : NodeId} (hnearest : t.Nearest n source len a) :
      Searched t n (some (source, len))
  | below {source : SeqId} {len : ℕ} {a : NodeId} (habove : ∀ a, t.Chain n a →
      ¬ t.Ready a) (hchain : t.Chain a n)
      (hready : source ∈ (t.data a).readySeqIds) (hcovers : len = t.coverage a) : Searched t n
        (some (source, len))

/-- A node that lists a ready sequence is ready. -/
theorem ready_of_mem {t : RadixTree} {n : NodeId} {i : SeqId} (hi : i ∈ (t.data n).readySeqIds) :
    t.Ready n :=
  fun hempty => OrderedSet.notMem_empty i (hempty ▸ hi)

/-- A ready sequence is listed at a living node. -/
theorem Ready.alive {t : RadixTree} {n : NodeId} (h : t.Ready n) : t.Alive n := by
  cases hn : t.nodes n with
  | none => exact absurd (by rw [data_of_none hn]) h
  | some x => exact ⟨x, hn⟩

/-- A ready node lists sequences. -/
theorem Ready.registered {t : RadixTree} {n : NodeId} (h : t.Ready n) (hcoherent : t.Coherent) :
    (t.data n).seqIds ≠ ∅ := by
  intro hempty
  refine h (OrderedSet.eq_empty_iff.mpr fun i hi => ?_)
  exact OrderedSet.notMem_empty i (hempty ▸ (hcoherent n).1 i hi)

/-- The chain of a node goes on with that of its parent. -/
theorem chain_parent {t : RadixTree} {n p a : NodeId} (hp : t.parentOf n = some p) :
    t.Chain n a ↔ a = n ∨ t.Chain p a := by
  constructor
  · intro h
    rcases h.cases_head with rfl | ⟨q, hq, hrest⟩
    · exact .inl rfl
    · rw [hp] at hq
      exact .inr (Option.some.inj hq ▸ hrest)
  · rintro (rfl | h)
    · exact .refl
    · exact .head hp h

end RadixTree

namespace Shape

variable {t : RadixTree} {path : NodeId → List Token}

/-- Only the root is on the way from the root. -/
theorem chain_root (h : Shape t path) {a : NodeId} (ha : t.Chain rootId a) : a = rootId := by
  obtain ⟨r, hr, _, hparent⟩ := h.root
  rcases ha.cases_head with heq | ⟨q, hq, _⟩
  · exact heq.symm
  · simp [RadixTree.parentOf, hr, hparent] at hq

/-- A parent is in the tree above its child, with a shorter path. -/
theorem parentOf_alive (h : Shape t path) {n p : NodeId} (hp : t.parentOf n = some p) :
    t.Alive n ∧ t.Alive p ∧ path p <+: path n ∧ (path p).length < (path n).length ∧
      ∃ key, t.childAt p key = some n := by
  obtain ⟨x, hx, hparent⟩ := Option.bind_eq_some_iff.mp hp
  have hroot : n ≠ rootId := by
    rintro rfl
    obtain ⟨r, hr, _, hnone⟩ := h.root
    rw [hx] at hr
    cases hr
    rw [hparent] at hnone
    contradiction
  obtain ⟨q, key, rest, hq, htok, hchild, hpath⟩ := h.up hx hroot
  rw [hparent] at hq
  cases hq
  exact ⟨⟨x, hx⟩, RadixTree.alive_of_childAt hchild, hpath ▸ List.prefix_append _ _,
    h.child_lt hchild, key, hchild⟩

/-- A child has its parent as parent. -/
theorem parentOf_of_childAt (h : Shape t path) {n p : NodeId} {key : Token}
    (hchild : t.childAt p key = some n) :
    t.parentOf n = some p := by
  obtain ⟨x, _, hx, hparent, _⟩ := h.down hchild
  simp [RadixTree.parentOf, hx, hparent]

/-- The nodes of a chain are alive and their paths are beginnings. -/
theorem chain_spec (h : Shape t path) {n a : NodeId} (hn : t.Alive n) (ha : t.Chain n a) :
    t.Alive a ∧ path a <+: path n := by
  induction ha with
  | refl => exact ⟨hn, List.prefix_refl _⟩
  | tail _ hp ih =>
    obtain ⟨_, halive, hpath, _⟩ := h.parentOf_alive hp
    exact ⟨halive, hpath.trans ih.2⟩

/-- The chain of a node has every node whose path is a beginning of its own. -/
theorem chain_iff (h : Shape t path) {n a : NodeId} (hn : t.Alive n) (ha : t.Alive a) :
    t.Chain n a ↔ path a <+: path n := by
  refine ⟨fun hchain => (h.chain_spec hn hchain).2, fun hpath => ?_⟩
  induction hlen : (path n).length using Nat.strong_induction_on generalizing n with
  | _ len ih =>
    by_cases hroot : n = rootId
    · subst hroot
      rw [h.rootPath, List.prefix_nil] at hpath
      rw [h.eq_root_of_path_nil ha hpath]
      exact .refl
    · obtain ⟨x, hx⟩ := hn
      obtain ⟨p, key, rest, hp, _, hchild, hnpath⟩ := h.up hx hroot
      have hparent := h.parentOf_of_childAt hchild
      have hpalive := RadixTree.alive_of_childAt hchild
      have hpn : path p <+: path n := hnpath ▸ List.prefix_append _ _
      rcases List.prefix_or_prefix_of_prefix hpath hpn with hap | hpa
      · exact .head hparent (ih _ (hlen ▸ h.child_lt hchild) hpalive hap rfl)
      · rcases h.eq_or_child_toward hpalive ha hpa with rfl | ⟨key', c, hc, hca⟩
        · exact .head hparent .refl
        · -- the node between the parent and the node is the node itself
          obtain rfl := h.child_unique hc hchild (hca.trans hpath) (List.prefix_refl _)
          rw [h.path_injective ⟨x, hx⟩ ha
            ((hca.eq_of_length (le_antisymm hca.length_le hpath.length_le)))]
          exact .refl

/-- The search on the way to the root. -/
theorem readyAncestor_nearest (h : Shape t path) (fuel : ℕ) {n : NodeId} (hn : t.Alive n)
    (hfuel : rank t.nextId (fun m => (path m).length) n < fuel) :
    (t.readyAncestor fuel (some n) = none ∧ ∀ a, t.Chain n a → ¬ t.Ready a) ∨
      ∃ source len a, t.readyAncestor fuel (some n) = some (source, len) ∧
      t.Nearest n source len a := by
  induction fuel generalizing n with
  | zero => exact absurd hfuel (Nat.not_lt_zero _)
  | succ fuel ih =>
    obtain ⟨x, hx⟩ := hn
    have hdata : t.data n = x.data := RadixTree.data_of_nodes hx
    simp only [RadixTree.readyAncestor, hx]
    cases hfirst : x.readySeqIds.first? with
    | some source =>
      have hmem : source ∈ (t.data n).readySeqIds := hdata ▸ OrderedSet.mem_of_first hfirst
      refine .inr ⟨source, _, n, rfl, .refl, hmem, ?_, fun m hm _ => hm⟩
      rw [RadixTree.coverage, hdata]
      rfl
    | none =>
      have hnot : ¬ t.Ready n := by
        intro hready
        rw [RadixTree.Ready, hdata] at hready
        obtain ⟨i, hi, _⟩ := OrderedSet.exists_first hready
        change x.readySeqIds.first? = some i at hi
        rw [hfirst] at hi
        contradiction
      simp only
      by_cases hroot : n = rootId
      · obtain ⟨r, hr, _, hparent⟩ := h.root
        have hnone : x.parent = none := by
          rw [hroot, hr] at hx
          cases hx
          exact hparent
        refine .inl ⟨by rw [hnone]; cases fuel <;> rfl, fun a ha => ?_⟩
        rw [hroot] at ha hnot
        rw [h.chain_root ha]
        exact hnot
      · obtain ⟨p, hp, ⟨y, hy⟩, _, hlt⟩ := h.parent_spec hx hroot
        have hparent : t.parentOf n = some p := by simp [RadixTree.parentOf, hx, hp]
        have hrank : rank t.nextId (fun m => (path m).length) p <
            rank t.nextId (fun m => (path m).length) n :=
          rank_lt_rank (h.fresh hy) hlt
        rw [hp]
        rcases ih ⟨y, hy⟩ (by omega) with ⟨hsearch, hnone⟩ | ⟨source, len, a, hsearch, hnearest⟩
        · refine .inl ⟨hsearch, fun a ha => ?_⟩
          rcases (RadixTree.chain_parent hparent).mp ha with rfl | ha
          · exact hnot
          · exact hnone a ha
        · refine .inr ⟨source, len, a, hsearch,
            (RadixTree.chain_parent hparent).mpr (.inr hnearest.chain), hnearest.ready,
            hnearest.covers, fun m hm hready => ?_⟩
          rcases (RadixTree.chain_parent hparent).mp hm with rfl | hm
          · exact absurd hready hnot
          · exact hnearest.nearest m hm hready

/-- A node with another one on its chain is that node or below one of its children. -/
theorem chain_below (h : Shape t path) {n a : NodeId} (ha : t.Chain a n) (hne : a ≠ n) :
    ∃ c key, t.childAt n key = some c ∧ t.Chain a c := by
  rcases ha.cases_tail with heq | ⟨c, hac, hc⟩
  · exact absurd heq.symm hne
  · obtain ⟨_, _, _, _, key, hchild⟩ := h.parentOf_alive hc
    exact ⟨c, key, hchild, hac⟩

/-- The search from a node that ranks below the fuel among the deeper nodes. -/
theorem findCoveringLoop_searched (h : Shape t path) (fuel : ℕ) {n : NodeId} (hn : t.Alive n)
    (hfuel : rank t.nextId (fun m => OrderDual.toDual (path m).length) n < fuel) :
    t.Searched n (t.findCoveringLoop fuel n) := by
  induction fuel generalizing n with
  | zero => exact absurd hfuel (Nat.not_lt_zero _)
  | succ fuel ih =>
    obtain ⟨x, hx⟩ := hn
    simp only [RadixTree.findCoveringLoop, hx]
    rcases h.readyAncestor_nearest (t.nextId + 1) ⟨x, hx⟩ (Nat.lt_succ_of_le (rank_le _ _ _)) with
      ⟨hsearch, habove⟩ | ⟨source, len, a, hsearch, hnearest⟩
    · rw [hsearch]
      have hchild (c : NodeId) (hc : c ∈ t.childList x) : t.parentOf c = some n ∧
          t.Searched c (t.findCoveringLoop fuel c) := by
        obtain ⟨key, hkey⟩ := RadixTree.mem_childList.mp hc
        have hchild : t.childAt n key = some c := RadixTree.childAt_eq_some.mpr ⟨x, hx, hkey⟩
        have hrank : rank t.nextId (fun m => OrderDual.toDual (path m).length) c <
            rank t.nextId (fun m => OrderDual.toDual (path m).length) n := by
          obtain ⟨y, hy⟩ := h.child_alive hchild
          exact rank_lt_rank (h.fresh hy) (h.child_lt hchild)
        exact ⟨h.parentOf_of_childAt hchild, ih (h.child_alive hchild) (by omega)⟩
      cases hfound : (t.childList x).findSome? fun child => t.findCoveringLoop fuel child with
      | none =>
        refine .nothing habove fun a ha => ?_
        by_cases hself : a = n
        · exact hself ▸ habove n .refl
        · obtain ⟨c, key, hc, hac⟩ := h.chain_below ha hself
          obtain ⟨y, hy, hkey⟩ := RadixTree.childAt_eq_some.mp hc
          rw [hx] at hy
          cases hy
          have hmem : c ∈ t.childList x := RadixTree.mem_childList.mpr ⟨key, hkey⟩
          have hsearched := (hchild c hmem).2
          rw [List.findSome?_eq_none_iff.mp hfound c hmem] at hsearched
          cases hsearched with
          | nothing _ hbelow => exact hbelow a hac
      | some found =>
        obtain ⟨source, len⟩ := found
        obtain ⟨c, hc, hresult⟩ := List.exists_of_findSome?_eq_some hfound
        obtain ⟨hparent, hsearched⟩ := hchild c hc
        rw [hresult] at hsearched
        cases hsearched with
        | above hnearest =>
          -- nothing is ready from the node on, so the nearest ready node is the child
          rcases (RadixTree.chain_parent hparent).mp hnearest.chain with rfl | hup
          · exact .below habove (.single hparent) hnearest.ready hnearest.covers
          · exact absurd (RadixTree.ready_of_mem hnearest.ready) (habove _ hup)
        | below _ hchain hready hcovers => exact .below habove (hchain.tail hparent) hready hcovers
    · rw [hsearch]
      exact .above hnearest

/-- The search for a copy source. -/
theorem findCoveringSeqId_searched (h : Shape t path) {n : NodeId} (hn : t.Alive n) :
    t.Searched n (t.findCoveringSeqId n) :=
  h.findCoveringLoop_searched _ hn (Nat.lt_succ_of_le (rank_le _ _ _))

/-- The search fails exactly if no related node is ready. -/
theorem findCoveringSeqId_none_iff (h : Shape t path) {n : NodeId} (hn : t.Alive n) :
    t.findCoveringSeqId n = none ↔ ∀ a, t.Related n a → ¬ t.Ready a := by
  have hsearched := h.findCoveringSeqId_searched hn
  generalize t.findCoveringSeqId n = outcome at hsearched ⊢
  cases hsearched with
  | nothing habove hbelow => exact iff_of_true rfl fun a ha => ha.elim (habove a) (hbelow a)
  | above hnearest =>
    exact iff_of_false (Option.some_ne_none _) fun hall =>
      hall _ (.inl hnearest.chain) (RadixTree.ready_of_mem hnearest.ready)
  | below _ hchain hready _ =>
    exact iff_of_false (Option.some_ne_none _) fun hall =>
      hall _ (.inr hchain) (RadixTree.ready_of_mem hready)

/-- The search finds a ready sequence of a related node, with what it covers. -/
theorem findCoveringSeqId_related (h : Shape t path) {n : NodeId} (hn : t.Alive n) {source : SeqId}
    {len : ℕ} (hfound : t.findCoveringSeqId n = some (source, len)) :
    ∃ a, t.Related n a ∧ source ∈ (t.data a).readySeqIds ∧ len = t.coverage a := by
  have hsearched := h.findCoveringSeqId_searched hn
  rw [hfound] at hsearched
  cases hsearched with
  | above hnearest => exact ⟨_, .inl hnearest.chain, hnearest.ready, hnearest.covers⟩
  | below _ hchain hready hcovers => exact ⟨_, .inr hchain, hready, hcovers⟩

/-- Where canonical lengths reach the ends of the paths, a ready node covers its path. -/
theorem coverage_eq (h : Shape t path) (hcoherent : t.Coherent)
    (hcanonical : ∀ n, (t.data n).seqIds ≠ ∅ → (path n).length ≤ (t.data n).canonicalLen)
    {n : NodeId} (hn : t.Ready n) :
    t.coverage n = (path n).length := by
  rw [RadixTree.coverage, h.depth_eq hn.alive,
    min_eq_right (hcanonical n (hn.registered hcoherent))]

/-- The source found covers as much as any ready node on the way to the root. -/
theorem longest_above (h : Shape t path) (hcoherent : t.Coherent)
    (hcanonical : ∀ n, (t.data n).seqIds ≠ ∅ → (path n).length ≤ (t.data n).canonicalLen)
    {n : NodeId} (hn : t.Alive n) {source : SeqId} {len : ℕ}
    (hfound : t.findCoveringSeqId n = some (source, len)) {a : NodeId} (ha : t.Chain n a)
    (hready : t.Ready a) : t.coverage a ≤ len := by
  have hsearched := h.findCoveringSeqId_searched hn
  rw [hfound] at hsearched
  cases hsearched with
  | @above _ _ c hnearest =>
    have hc := RadixTree.ready_of_mem hnearest.ready
    rw [hnearest.covers, h.coverage_eq hcoherent hcanonical hready,
      h.coverage_eq hcoherent hcanonical hc]
    exact (h.chain_spec hc.alive (hnearest.nearest a ha hready)).2.length_le
  | below habove => exact absurd hready (habove a ha)

/-- The source found covers the most unless a ready node on the way to the root hides one below. -/
theorem longest_iff (h : Shape t path) (hcoherent : t.Coherent)
    (hcanonical : ∀ n, (t.data n).seqIds ≠ ∅ → (path n).length ≤ (t.data n).canonicalLen)
    {n : NodeId} (hn : t.Alive n) {source : SeqId} {len : ℕ}
    (hfound : t.findCoveringSeqId n = some (source, len)) :
    (∀ a, t.Related n a → t.Ready a → min (t.coverage a) (t.cumulativeTokenDepth n) ≤
        min len (t.cumulativeTokenDepth n)) ↔ t.Unhidden n := by
  have hcovers {a : NodeId} (ha : t.Ready a) := h.coverage_eq hcoherent hcanonical ha
  have hbelow {a : NodeId} (ha : t.Ready a) (hchain : t.Chain a n) :
      (path n).length ≤ (path a).length :=
    (h.chain_spec ha.alive hchain).2.length_le
  have hsearched := h.findCoveringSeqId_searched hn
  rw [hfound] at hsearched
  rw [h.depth_eq hn]
  cases hsearched with
  | @below _ _ c habove hchain hready hlen =>
    refine iff_of_true (fun a _ _ => ?_) (.inr (.inl fun a ha _ => habove a ha))
    have hc := RadixTree.ready_of_mem hready
    rw [hlen, hcovers hc, min_eq_right (hbelow hc hchain)]
    exact min_le_right _ _
  | @above _ _ c hnearest =>
    have hc := RadixTree.ready_of_mem hnearest.ready
    have hshort : (path c).length ≤ (path n).length := (h.chain_spec hn hnearest.chain).2.length_le
    rw [hnearest.covers, hcovers hc, min_eq_left hshort]
    constructor
    · intro hall
      by_contra hnot
      simp only [RadixTree.Unhidden] at hnot
      push Not at hnot
      obtain ⟨hself, _, a, ha, _, haready⟩ := hnot
      -- the node below covers the whole path, the one above does not reach its end
      have hle := hall a (.inr ha) haready
      rw [hcovers haready, min_eq_right (hbelow haready ha)] at hle
      have heq : c = n := h.path_injective hc.alive hn
        ((h.chain_spec hn hnearest.chain).2.eq_of_length (le_antisymm hshort hle))
      exact hself (heq ▸ hc)
    · intro hcases a hrelated haready
      have hup {m : NodeId} (hm : t.Chain n m) (hmready : t.Ready m) :
          (path m).length ≤ (path c).length :=
        (h.chain_spec hc.alive (hnearest.nearest m hm hmready)).2.length_le
      rw [hcovers haready]
      rcases hrelated with hm | hm
      · exact (min_le_left _ _).trans (hup hm haready)
      · by_cases hself : a = n
        · subst hself
          exact (min_le_left _ _).trans (hup .refl haready)
        · refine (min_le_right _ _).trans ?_
          rcases hcases with hready | hnone | hnone
          · exact hup .refl hready
          · by_cases hcn : c = n
            · rw [hcn]
            · exact absurd hc (hnone c hnearest.chain hcn)
          · exact absurd haready (hnone a hm hself)

end Shape

end RadixForge
