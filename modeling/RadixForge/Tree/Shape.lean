import RadixForge.Library.Traversal
import RadixForge.Tree.Sequences

/-!
# The shape of a radix tree

`Shape t path` says that the heap is a tree rooted at the root, with every node stored in its
parent's children under the first token of its run, and that `path` gives each node the tokens
from the root. The path is ghost data: it is what makes depths, prefixes and fuel bounds
available to the proofs, and each structural change says how it changes.
-/

namespace RadixForge

open Library

/-- The heap is a radix tree and `path` names the token sequence of each node. -/
structure Shape (t : RadixTree) (path : NodeId → List Token) : Prop where
  root : ∃ r, t.nodes rootId = some r ∧ r.tokens = [] ∧ r.parent = none
  rootPath : path rootId = []
  up : ∀ {n x}, t.nodes n = some x → n ≠ rootId → ∃ p key rest,
    x.parent = some p ∧ x.tokens = key :: rest ∧ t.childAt p key = some n ∧
    path n = path p ++ x.tokens
  down : ∀ {p key c}, t.childAt p key = some c → ∃ x rest,
    t.nodes c = some x ∧ x.parent = some p ∧ x.tokens = key :: rest
  fresh : ∀ {n x}, t.nodes n = some x → n < t.nextId

/-- An identity that is allocated. -/
def RadixTree.Alive (t : RadixTree) (n : NodeId) : Prop := ∃ x, t.nodes n = some x

namespace RadixTree

/-- The parent link of a node. -/
def parentOf (t : RadixTree) (n : NodeId) : Option NodeId := (t.nodes n).bind RadixNode.parent

/-- The nodes of the second tree are nodes of the first one with the same parents. -/
def Shrinks (t t' : RadixTree) : Prop := ∀ n, t'.Alive n → t.Alive n ∧ t'.parentOf n = t.parentOf n

/-- A tree that stays shrinks by nothing. -/
theorem Shrinks.refl (t : RadixTree) : t.Shrinks t := fun _ hn => ⟨hn, rfl⟩

/-- A tree that shrinks twice shrinks. -/
theorem Shrinks.trans {t₁ t₂ t₃ : RadixTree} (h₁ : t₁.Shrinks t₂) (h₂ : t₂.Shrinks t₃) :
    t₁.Shrinks t₃ :=
  fun n hn => ⟨(h₁ n (h₂ n hn).1).1, (h₂ n hn).2.trans (h₁ n (h₂ n hn).1).2⟩

/-- A child is one that the node stores under the token. -/
theorem childAt_eq_some {t : RadixTree} {p c : NodeId} {key : Token} :
    t.childAt p key = some c ↔ ∃ y, t.nodes p = some y ∧ y.children.lookup key = some c := by
  simp [childAt, Option.bind_eq_some_iff]

/-- The children of a node that there is. -/
theorem childAt_of_nodes {t : RadixTree} {p : NodeId} {y : RadixNode} (h : t.nodes p = some y)
    (key : Token) :
    t.childAt p key = y.children.lookup key := by
  simp [childAt, h]

/-- A node with a child is in the tree. -/
theorem alive_of_childAt {t : RadixTree} {p c : NodeId} {key : Token}
    (h : t.childAt p key = some c) : t.Alive p := by
  obtain ⟨y, hy, _⟩ := childAt_eq_some.mp h
  exact ⟨y, hy⟩

end RadixTree

namespace Shape

variable {t : RadixTree} {path : NodeId → List Token}

/-- The root is in the tree. -/
theorem root_alive (h : Shape t path) : t.Alive rootId := by
  obtain ⟨r, hr, _⟩ := h.root
  exact ⟨r, hr⟩

/-- The root has an identity that was allocated. -/
theorem root_lt (h : Shape t path) : rootId < t.nextId := by
  obtain ⟨r, hr, _⟩ := h.root
  exact h.fresh hr

/-- The next identity is not in the tree yet. -/
theorem nextId_not_alive (h : Shape t path) : t.nodes t.nextId = none := by
  cases hn : t.nodes t.nextId with
  | none => rfl
  | some x => exact absurd (h.fresh hn) (lt_irrefl _)

/-- A node of the tree is not the next one to be allocated. -/
theorem ne_nextId (h : Shape t path) {m : NodeId} (hm : t.Alive m) : m ≠ t.nextId := by
  rintro rfl
  obtain ⟨y, hy⟩ := hm
  rw [h.nextId_not_alive] at hy
  contradiction

/-- The root is no child. -/
theorem child_ne_root (h : Shape t path) {p c : NodeId} {key : Token}
    (hc : t.childAt p key = some c) :
    c ≠ rootId := by
  rintro rfl
  obtain ⟨x, rest, hx, hparent, _⟩ := h.down hc
  obtain ⟨r, hr, _, hnone⟩ := h.root
  rw [hx] at hr
  cases hr
  rw [hparent] at hnone
  contradiction

/-- A child is in the tree. -/
theorem child_alive (h : Shape t path) {p c : NodeId} {key : Token}
    (hc : t.childAt p key = some c) : t.Alive c := by
  obtain ⟨x, _, hx, _⟩ := h.down hc
  exact ⟨x, hx⟩

/-- A child continues the path of its parent by its own tokens. -/
theorem child_path (h : Shape t path) {p c : NodeId} {key : Token} {x : RadixNode}
    (hc : t.childAt p key = some c) (hx : t.nodes c = some x) : path c = path p ++ x.tokens := by
  obtain ⟨x', rest, hx', hparent, _⟩ := h.down hc
  rw [hx] at hx'
  cases hx'
  obtain ⟨q, _, _, hq, _, _, hpath⟩ := h.up hx (h.child_ne_root hc)
  rw [hparent] at hq
  cases hq
  exact hpath

/-- A node other than the root has a living parent with a strictly shorter path. -/
theorem parent_spec (h : Shape t path) {n : NodeId} {x : RadixNode} (hx : t.nodes n = some x)
    (hn : n ≠ rootId) :
    ∃ p, x.parent = some p ∧ t.Alive p ∧ path n = path p ++ x.tokens ∧
      (path p).length < (path n).length := by
  obtain ⟨p, key, rest, hp, htok, hchild, hpath⟩ := h.up hx hn
  exact ⟨p, hp, RadixTree.alive_of_childAt hchild, hpath, by rw [hpath, htok]; simp⟩

/-- A node below the root has a path. -/
theorem path_ne_nil (h : Shape t path) {n : NodeId} (halive : t.Alive n) (hn : n ≠ rootId) :
    path n ≠ [] := by
  obtain ⟨x, hx⟩ := halive
  obtain ⟨p, key, rest, _, htok, _, hpath⟩ := h.up hx hn
  simp [hpath, htok]

/-- Only the root has no path. -/
theorem eq_root_of_path_nil (h : Shape t path) {n : NodeId} (halive : t.Alive n)
    (hn : path n = []) : n = rootId := by
  by_contra hne
  exact h.path_ne_nil halive hne hn

/-- A child has a longer path than its parent. -/
theorem child_lt (h : Shape t path) {p c : NodeId} {key : Token} (hc : t.childAt p key = some c) :
    (path p).length < (path c).length := by
  obtain ⟨x, rest, hx, _, htok⟩ := h.down hc
  rw [h.child_path hc hx, htok]
  simp

/-- The children of one node are told apart by the token after the node's path. -/
theorem child_unique (h : Shape t path) {p c d : NodeId} {key key' : Token} {w : List Token}
    (hc : t.childAt p key = some c) (hd : t.childAt p key' = some d)
    (hcw : path c <+: w) (hdw : path d <+: w) : c = d := by
  obtain ⟨x, rest, hx, _, hxtok⟩ := h.down hc
  obtain ⟨y, rest', hy, _, hytok⟩ := h.down hd
  rw [h.child_path hc hx, hxtok] at hcw
  rw [h.child_path hd hy, hytok] at hdw
  obtain ⟨u, rfl⟩ := hcw
  obtain ⟨v, hv⟩ := hdw
  simp only [List.append_assoc, List.append_cancel_left_eq, List.cons_append, List.cons.injEq] at hv
  rw [hv.1, hc] at hd
  exact Option.some.inj hd

/-- Between two comparable paths lies the child that leads from the shorter to the longer one. -/
theorem toward (h : Shape t path) : ∀ (k : ℕ) {a b : NodeId}, t.Alive a → t.Alive b →
    (path a).length + (path b).length ≤ k → path a <+: path b →
      a = b ∨ ∃ key c, t.childAt a key = some c ∧ path c <+: path b := by
  intro k
  -- the induction is on the lengths of both paths, since the case where the target's parent lies
  -- above `a` turns the pair around
  induction k using Nat.strong_induction_on with
  | _ k ih =>
    intro a b ha hb hk hab
    by_cases hroot : b = rootId
    · subst hroot
      rw [h.rootPath, List.prefix_nil] at hab
      exact Or.inl (h.eq_root_of_path_nil ha hab)
    obtain ⟨x, hx⟩ := hb
    obtain ⟨q, key, rest, hq, htok, hchild, hpath⟩ := h.up hx hroot
    have hqlt := h.child_lt hchild
    have hqalive := RadixTree.alive_of_childAt hchild
    have hqb : path q <+: path b := hpath ▸ List.prefix_append _ _
    rcases List.prefix_or_prefix_of_prefix hab hqb with haq | hqa
    · right
      rcases ih _ (by omega) ha hqalive le_rfl haq with rfl | ⟨key', c, hc, hcq⟩
      · exact ⟨key, b, hchild, List.prefix_refl _⟩
      · exact ⟨key', c, hc, hcq.trans hqb⟩
    · -- the parent of `b` is not below `a`: then `a` lies between them and is `b` itself
      by_cases hshort : (path a).length < (path b).length
      · rcases ih _ (by omega) hqalive ha le_rfl hqa with rfl | ⟨key', c, hc, hca⟩
        · exact Or.inr ⟨key, b, hchild, List.prefix_refl _⟩
        · have hcb : c = b := h.child_unique hc hchild (hca.trans hab) (List.prefix_refl _)
          subst hcb
          have := hca.length_le
          omega
      · have heq : path a = path b := hab.eq_of_length (by have := hab.length_le; omega)
        have hlen : (path a).length = (path b).length := congrArg List.length heq
        have haroot : a ≠ rootId := by
          rintro rfl
          rw [h.rootPath] at heq
          exact h.path_ne_nil ⟨x, hx⟩ hroot heq.symm
        obtain ⟨y, hy⟩ := ha
        obtain ⟨q', key', rest', hq', htok', hchild', hpath'⟩ := h.up hy haroot
        have hqlt' := h.child_lt hchild'
        have hqalive' := RadixTree.alive_of_childAt hchild'
        have hqb' : path q' <+: path b := heq ▸ hpath' ▸ List.prefix_append _ _
        left
        rcases List.prefix_or_prefix_of_prefix hqb hqb' with hqq | hqq
        · rcases ih _ (by omega) hqalive hqalive' le_rfl hqq with rfl | ⟨k₂, c, hc, hcq⟩
          · exact h.child_unique hchild' hchild (heq ▸ List.prefix_refl _) (List.prefix_refl _)
          · have hcb : c = b := h.child_unique hc hchild (hcq.trans hqb') (List.prefix_refl _)
            subst hcb
            have := hcq.length_le
            omega
        · rcases ih _ (by omega) hqalive' hqalive le_rfl hqq with rfl | ⟨k₂, c, hc, hcq⟩
          · exact h.child_unique hchild' hchild (heq ▸ List.prefix_refl _) (List.prefix_refl _)
          · have hca : c = a := h.child_unique hc hchild'
              (hcq.trans (hqb.trans (heq ▸ List.prefix_refl _)))
              (List.prefix_refl _)
            subst hca
            have := hcq.length_le
            omega

/-- A living node is the end of its path or an ancestor lies on the way to it. -/
theorem eq_or_child_toward (h : Shape t path) {a b : NodeId} (ha : t.Alive a) (hb : t.Alive b)
    (hab : path a <+: path b) : a = b ∨ ∃ key c, t.childAt a key = some c ∧ path c <+: path b :=
  h.toward _ ha hb le_rfl hab

/-- Paths identify living nodes. -/
theorem path_injective (h : Shape t path) {a b : NodeId} (ha : t.Alive a) (hb : t.Alive b)
    (hab : path a = path b) : a = b := by
  rcases h.eq_or_child_toward ha hb (hab ▸ List.prefix_refl _) with heq | ⟨key, c, hc, hcb⟩
  · exact heq
  · have := hcb.length_le
    have := h.child_lt hc
    rw [hab] at this
    omega

/-- The upward loop measures the path. -/
theorem depthLoop_eq (h : Shape t path) (fuel : ℕ) {n : NodeId} (hn : t.Alive n)
    (hfuel : rank t.nextId (fun m => (path m).length) n < fuel) :
    t.cumulativeTokenDepthLoop fuel (some n) = (path n).length := by
  induction fuel generalizing n with
  | zero => omega
  | succ fuel ih =>
    obtain ⟨x, hx⟩ := hn
    simp only [RadixTree.cumulativeTokenDepthLoop, hx]
    by_cases hroot : n = rootId
    · obtain ⟨r, hr, htok, hparent⟩ := h.root
      rw [hroot, hr] at hx
      cases hx
      cases fuel <;> simp [hparent, htok, hroot, h.rootPath, RadixTree.cumulativeTokenDepthLoop]
    · obtain ⟨p, hp, hpalive, hpath, hlt⟩ := h.parent_spec hx hroot
      obtain ⟨y, hy⟩ := hpalive
      have hrank : rank t.nextId (fun m => (path m).length) p <
          rank t.nextId (fun m => (path m).length) n :=
        rank_lt_rank (h.fresh hy) hlt
      rw [hp, ih ⟨y, hy⟩ (by omega), hpath, List.length_append]
      omega

/-- `cumulative_token_depth` is the length of the path. -/
theorem depth_eq (h : Shape t path) {n : NodeId} (hn : t.Alive n) :
    t.cumulativeTokenDepth n = (path n).length :=
  h.depthLoop_eq _ hn (Nat.lt_succ_of_le (rank_le _ _ _))

end Shape

end RadixForge
