import RadixForge.Tree.Insertion

/-!
# What pruning removes

Pruning deletes an unreferenced leaf without sequences and continues at its parent. It never
changes the data of the tree: a deleted node had none. `Dead` names what pruning is meant to
remove; if only the starting node may be dead, nothing is dead afterwards.
-/

namespace RadixForge

open Library

/-- Only the empty map answers no key. -/
theorem entries_eq_nil_iff (children : AList fun _ : Token => NodeId) :
    children.entries = [] ↔ ∀ key, children.lookup key = none := by
  constructor
  · intro h key
    rw [AList.lookup_eq_none, AList.mem_keys, AList.keys, h]
    simp
  · intro h
    cases hentries : children.entries with
    | nil => rfl
    | cons entry rest =>
      have hmem : entry.1 ∈ children := by
        rw [AList.mem_keys, AList.keys, hentries]
        simp
      exact absurd hmem (AList.lookup_eq_none.mp (h entry.1))

namespace RadixTree

/-- A living node below the root without references, sequences and children. -/
def Dead (t : RadixTree) (n : NodeId) : Prop :=
  t.Alive n ∧ n ≠ rootId ∧ (t.data n).Unused ∧ ∀ key, t.childAt n key = none

/-- Delete a node and its entry in the parent's children. -/
def cut (t : RadixTree) (n p : NodeId) (key : Token) : RadixTree :=
  (t.modify p fun y => { y with children := y.children.erase key }).put n none

/-- A cut removes the node and the edge to it. -/
theorem cut_nodes (t : RadixTree) (n p m : NodeId) (key : Token) :
    (t.cut n p key).nodes m = if m = n then none
      else if m = p then (t.nodes m).map fun y => { y with children := y.children.erase key }
        else t.nodes m := rfl

/-- Lookups after cutting a childless node. -/
theorem cut_childAt {t : RadixTree} {n p : NodeId} (key : Token) (hleaf : ∀ c, t.childAt n c = none)
    (hne : p ≠ n) (q : NodeId) (c : Token) :
    (t.cut n p key).childAt q c = if q = p ∧ c = key then none else t.childAt q c := by
  by_cases hq : q = n
  · subst hq
    rw [hleaf c]
    simp [RadixTree.childAt, RadixTree.cut_nodes]
  · by_cases hqp : q = p
    · subst hqp
      cases hn : t.nodes q with
      | none => simp [RadixTree.childAt, RadixTree.cut_nodes, hq, hn]
      | some y =>
        by_cases hc : c = key
        · subst hc
          simp [RadixTree.childAt, RadixTree.cut_nodes, hq, hn, AList.lookup_erase]
        · simp [RadixTree.childAt, RadixTree.cut_nodes, hq, hn, hc, AList.lookup_erase_ne]
    · simp [RadixTree.childAt, RadixTree.cut_nodes, hq, hqp]

end RadixTree

/-- The effect of pruning: the same data on a tree of the same paths with fewer nodes, which keep
their parents. -/
structure Pruned (t : RadixTree) (path : NodeId → List Token) (t' : RadixTree) : Prop where
  shape : Shape t' path
  data : t'.data = t.data
  shrinks : t.Shrinks t'

namespace Shape

variable {t : RadixTree} {path : NodeId → List Token}

/-- Cutting a childless node off its parent keeps the shape. -/
theorem cut (h : Shape t path) {n p : NodeId} {key : Token} (hleaf : ∀ c, t.childAt n c = none)
    (hroot : n ≠ rootId) (hchild : t.childAt p key = some n) : Shape (t.cut n p key) path := by
  have hne : p ≠ n := fun heq => lt_irrefl _ (heq ▸ h.child_lt hchild)
  have hlookup := RadixTree.cut_childAt key hleaf hne
  have hback {m : NodeId} {y : RadixNode} (hy : (t.cut n p key).nodes m = some y) :
      m ≠ n ∧ ∃ x, t.nodes m = some x ∧ x.tokens = y.tokens ∧ x.parent = y.parent := by
    rw [RadixTree.cut_nodes] at hy
    split at hy
    · contradiction
    · rename_i hm
      refine ⟨hm, ?_⟩
      split at hy
      · obtain ⟨x, hx, rfl⟩ := Option.map_eq_some_iff.mp hy
        exact ⟨x, hx, rfl, rfl⟩
      · exact ⟨y, hy, rfl, rfl⟩
  have hkeep {m : NodeId} {x : RadixNode} (hx : t.nodes m = some x) (hm : m ≠ n) :
      ∃ y, (t.cut n p key).nodes m = some y ∧ y.tokens = x.tokens ∧ y.parent = x.parent := by
    rw [RadixTree.cut_nodes, if_neg hm, hx]
    split
    · exact ⟨_, rfl, rfl, rfl⟩
    · exact ⟨x, rfl, rfl, rfl⟩
  constructor
  · obtain ⟨r, hr, htok, hparent⟩ := h.root
    obtain ⟨y, hy, htok', hparent'⟩ := hkeep hr hroot.symm
    exact ⟨y, hy, htok'.trans htok, hparent'.trans hparent⟩
  · exact h.rootPath
  · intro m y hy hm
    obtain ⟨hmn, x, hx, htok, hparent⟩ := hback hy
    obtain ⟨q, c, rest, hq, hctok, hqc, hpath⟩ := h.up hx hm
    refine ⟨q, c, rest, by rw [← hparent, hq], by rw [← htok, hctok], ?_, by rw [← htok, hpath]⟩
    rw [hlookup, if_neg, hqc]
    rintro ⟨rfl, rfl⟩
    rw [hchild] at hqc
    exact hmn (Option.some.inj hqc).symm
  · intro q c m hqc
    rw [hlookup] at hqc
    split at hqc
    · contradiction
    · rename_i hnot
      obtain ⟨x, rest, hx, hparent, htok⟩ := h.down hqc
      have hmn : m ≠ n := by
        rintro rfl
        obtain ⟨x', rest', hx', hparent', htok'⟩ := h.down hchild
        rw [hx] at hx'
        cases hx'
        rw [hparent] at hparent'
        rw [htok] at htok'
        exact hnot ⟨Option.some.inj hparent', (List.cons.inj htok').1⟩
      obtain ⟨y, hy, htok', hparent'⟩ := hkeep hx hmn
      exact ⟨y, rest, hy, hparent'.trans hparent, htok'.trans htok⟩
  · intro m y hy
    obtain ⟨_, x, hx, _⟩ := hback hy
    exact h.fresh hx

/-- Cutting a node without data prunes, and the next candidate is the parent. -/
theorem cut_pruned (h : Shape t path) {n p : NodeId} {key : Token} (hdata : t.data n = {})
    (hleaf : ∀ c, t.childAt n c = none) (hroot : n ≠ rootId) (hchild : t.childAt p key = some n) :
    Pruned t path (t.cut n p key) ∧
      ((∀ m, t.Dead m → m = n) → ∀ m, (t.cut n p key).Dead m → m = p) := by
  have hne : p ≠ n := fun heq => lt_irrefl _ (heq ▸ h.child_lt hchild)
  have halive {m : NodeId} (hm : (t.cut n p key).Alive m) : m ≠ n ∧ t.Alive m := by
    obtain ⟨y, hy⟩ := hm
    rw [RadixTree.cut_nodes] at hy
    split at hy
    · contradiction
    · rename_i hmn
      refine ⟨hmn, ?_⟩
      split at hy
      · obtain ⟨x, hx, _⟩ := Option.map_eq_some_iff.mp hy
        exact ⟨x, hx⟩
      · exact ⟨y, hy⟩
  have hsame : (t.cut n p key).data = t.data := by
    funext m
    by_cases hm : m = n
    · rw [hm, hdata, RadixTree.data_of_none]
      simp [RadixTree.cut_nodes]
    · unfold RadixTree.data RadixTree.field
      rw [RadixTree.cut_nodes, if_neg hm]
      split <;> cases t.nodes m <;> rfl
  have hparent {m : NodeId} (hm : (t.cut n p key).Alive m) :
      (t.cut n p key).parentOf m = t.parentOf m := by
    unfold RadixTree.parentOf
    rw [RadixTree.cut_nodes, if_neg (halive hm).1]
    split
    · cases t.nodes m <;> rfl
    · rfl
  refine ⟨⟨h.cut hleaf hroot hchild, hsame, fun _ hm => ⟨(halive hm).2, hparent hm⟩⟩,
    fun hdead m hm => ?_⟩
  obtain ⟨hm, hmroot, hunused, hmleaf⟩ := hm
  by_contra hmp
  refine (halive hm).1 (hdead m ⟨(halive hm).2, hmroot, hsame ▸ hunused, fun c => ?_⟩)
  rw [← hmleaf c, RadixTree.cut_childAt key hleaf hne, if_neg fun hand => hmp hand.1]

/-- The pruning loop, with fuel for the nodes above the start. -/
theorem pruneLoop_pruned (fuel : ℕ) {t : RadixTree} (h : Shape t path) {n : NodeId}
    (hcoherent : (t.data n).Coherent ∧ ∀ m, (t.data m).Coherent)
    (hfuel : t.Alive n → rank t.nextId (fun m => (path m).length) n < fuel) :
    Pruned t path (t.pruneEmptyLeavesLoop fuel n) ∧
      ((∀ m, t.Dead m → m = n) → ∀ m, ¬ (t.pruneEmptyLeavesLoop fuel n).Dead m) := by
  have hrefl : Pruned t path t := ⟨h, rfl, RadixTree.Shrinks.refl t⟩
  induction fuel generalizing t n with
  | zero =>
    refine ⟨hrefl, fun hdead m hm => ?_⟩
    have heq : m = n := hdead m hm
    exact absurd (hfuel (heq ▸ hm.1)) (Nat.not_lt_zero _)
  | succ fuel ih =>
    unfold RadixTree.pruneEmptyLeavesLoop
    cases hn : t.nodes n with
    | none =>
      refine ⟨hrefl, fun hdead m hm => ?_⟩
      obtain ⟨⟨x, hx⟩, _⟩ := hm
      rw [hdead m ⟨⟨x, hx⟩, by assumption⟩, hn] at hx
      contradiction
    | some x =>
      have hxdata := RadixTree.data_of_nodes hn
      have hxchild := RadixTree.childAt_of_nodes hn
      simp only
      split
      · rename_i hcond
        obtain ⟨hroot, hrefs, hseqs, hentries⟩ := hcond
        obtain ⟨p, key, rest, hparent, htok, hchild, hpath⟩ := h.up hn hroot
        have hleaf (c : Token) : t.childAt n c = none := by
          rw [hxchild]
          exact (entries_eq_nil_iff _).mp hentries c
        have hdata : t.data n = {} := hcoherent.1.eq_default (by rw [hxdata]; exact ⟨hrefs, hseqs⟩)
        obtain ⟨hcut, hcutDead⟩ := h.cut_pruned hdata hleaf hroot hchild
        rw [hparent, htok]
        simp only
        have hrank : rank t.nextId (fun m => (path m).length) p <
            rank t.nextId (fun m => (path m).length) n := by
          obtain ⟨y, hy⟩ := RadixTree.alive_of_childAt hchild
          exact rank_lt_rank (h.fresh hy) (h.child_lt hchild)
        have hcoherent' : ∀ m, ((t.cut n p key).data m).Coherent :=
          fun m => hcut.data ▸ hcoherent.2 m
        obtain ⟨hloop, hloopDead⟩ := ih hcut.shape (n := p) ⟨hcoherent' p, hcoherent'⟩
          (fun _ => lt_of_lt_of_le hrank (Nat.le_of_lt_succ (hfuel ⟨x, hn⟩)))
            ⟨hcut.shape, rfl, RadixTree.Shrinks.refl _⟩
        refine ⟨⟨hloop.shape, hloop.data.trans hcut.data, hcut.shrinks.trans hloop.shrinks⟩, ?_⟩
        exact fun hdead => hloopDead (hcutDead hdead)
      · rename_i hcond
        refine ⟨hrefl, fun hdead m hm => hcond ?_⟩
        have heq : m = n := hdead m hm
        subst heq
        obtain ⟨_, hroot, hunused, hleaf⟩ := hm
        rw [hxdata] at hunused
        exact ⟨hroot, hunused.1, hunused.2,
          (entries_eq_nil_iff _).mpr fun c => by rw [← hxchild, hleaf]⟩

/-- A local change of a node followed by pruning from it: the registry changes there alone, and
nothing is dead that was not dead before. -/
theorem modify_prune (h : Shape t path) (hcoherent : ∀ m, (t.data m).Coherent) {n : NodeId}
    (hn : t.Alive n) {f : RadixNode → RadixNode} {g : NodeData → NodeData} (hf : RadixTree.Local f)
    (hfg : ∀ x, (f x).data = g x.data) (hg : (g (t.data n)).Coherent) :
    Shape ((t.modify n f).pruneEmptyLeaves n) path ∧
      ((t.modify n f).pruneEmptyLeaves n).data = Function.update t.data n (g (t.data n)) ∧
      t.Shrinks ((t.modify n f).pruneEmptyLeaves n) ∧
      ((∀ m, ¬ t.Dead m) → ∀ m, ¬ ((t.modify n f).pruneEmptyLeaves n).Dead m) := by
  have hshape := h.modify n hf
  have hdata := RadixTree.data_modify hfg hn
  have hcoherent' (m : NodeId) : ((t.modify n f).data m).Coherent := by
    rw [hdata]
    by_cases hm : m = n
    · rw [hm, Function.update_self]
      exact hg
    · rw [Function.update_of_ne hm]
      exact hcoherent m
  obtain ⟨hpruned, hdead⟩ :=
    pruneLoop_pruned t.nextId hshape (n := n) ⟨hcoherent' n, hcoherent'⟩ fun _ => by
    obtain ⟨x, hx⟩ := hn
    exact rank_lt_bound (h.fresh hx)
  refine ⟨hpruned.shape, hpruned.data.trans hdata, fun m hm => ?_, ?_⟩
  · obtain ⟨halive, hparent⟩ := hpruned.shrinks m hm
    exact ⟨RadixTree.alive_modify.mp halive, hparent.trans (hf.parentOf t n m)⟩
  intro hnone
  refine hdead fun m hm => ?_
  by_contra hmn
  obtain ⟨halive, hroot, hunused, hleaf⟩ := hm
  rw [hdata, Function.update_of_ne hmn] at hunused
  exact hnone m ⟨RadixTree.alive_modify.mp halive, hroot, hunused,
    fun c => by rw [← hleaf c, hf.childAt]⟩

end Shape

end RadixForge
