import RadixForge.Tree.Insertion
import RadixForge.Tree.Reading

/-!
# Where a walk ends

Tokens enter the run of a node when they follow its parent's path and continue with its first
token. The nodes entered lie on one path, so at most one of them is entered and not passed; if
there is one, the mutating walk ends there. Tokens that end in a run return its node, and tokens
that leave a run before its end split it.
-/

namespace RadixForge

open Library

/-- A common beginning adds its length to the match. -/
theorem matchLen_append (u as bs : List Token) :
    matchLen (u ++ as) (u ++ bs) = u.length + matchLen as bs := by
  induction u with
  | nil => simp
  | cons a u ih =>
    simp only [List.cons_append, matchLen, if_true, ih, List.length_cons]
    omega

/-- A beginning is matched as a whole. -/
theorem matchLen_self_append (as bs : List Token) : matchLen as (as ++ bs) = as.length := by
  have h := matchLen_append as [] bs
  simpa [matchLen] using h

/-- A match longer than a common beginning continues behind it. -/
theorem exists_of_lt_matchLen {u as tokens : List Token}
    (h : u.length < matchLen (u ++ as) tokens) :
    ∃ rest, tokens = u ++ rest ∧ matchLen (u ++ as) tokens = u.length + matchLen as rest := by
  have htake : tokens.take u.length = u := by
    have hall := congrArg (List.take u.length) (take_matchLen (u ++ as) tokens)
    rw [List.take_take, List.take_take, min_eq_left h.le, List.take_left] at hall
    exact hall.symm
  have hsplit : tokens = u ++ tokens.drop u.length := by
    have hwhole := List.take_append_drop u.length tokens
    rw [htake] at hwhole
    exact hwhole.symm
  refine ⟨tokens.drop u.length, hsplit, ?_⟩
  rw [hsplit, matchLen_append, List.drop_left]

namespace RadixTree

/-- The depth at which the run of a node starts. -/
def runStart (t : RadixTree) (n : NodeId) : ℕ :=
  (t.pathTokens n).length - t.field n (fun x => x.tokens.length) 0

/-- The tokens reach into the run of a node. -/
def Enters (t : RadixTree) (n : NodeId) (tokens : List Token) : Prop :=
  t.runStart n < matchLen (t.pathTokens n) tokens

/-- The tokens go on behind the end of a node's run. -/
def Passes (t : RadixTree) (n : NodeId) (tokens : List Token) : Prop :=
  t.pathTokens n <+: tokens ∧ (t.pathTokens n).length < tokens.length

/-- The tokens end in the run of a node, possibly at its end. -/
def EndsIn (t : RadixTree) (n : NodeId) (tokens : List Token) : Prop :=
  t.Enters n tokens ∧ matchLen (t.pathTokens n) tokens = tokens.length

/-- The tokens end or leave strictly inside the run of a node. -/
def StopsInside (t : RadixTree) (n : NodeId) (tokens : List Token) : Prop :=
  t.Enters n tokens ∧ matchLen (t.pathTokens n) tokens < (t.pathTokens n).length

instance (t : RadixTree) (n : NodeId) (tokens : List Token) : Decidable (t.EndsIn n tokens) :=
  inferInstanceAs (Decidable (_ < _ ∧ _ = _))

instance (t : RadixTree) (n : NodeId) (tokens : List Token) : Decidable (t.StopsInside n tokens) :=
  inferInstanceAs (Decidable (_ < _ ∧ _ < _))

end RadixTree

namespace Shape

variable {t : RadixTree} {path : NodeId → List Token} {tokens : List Token}

/-- A run begins where the path of the parent ends. -/
theorem runStart_eq (h : Shape t path) {n p : NodeId} {x : RadixNode} (hx : t.nodes n = some x)
    (hpath : path n = path p ++ x.tokens) : t.runStart n = (path p).length := by
  rw [RadixTree.runStart, h.pathTokens_eq ⟨x, hx⟩, RadixTree.field_of_nodes hx, hpath,
    List.length_append]
  omega

/-- An entered node continues its parent's path by a token of its own, as the tokens do. -/
theorem enters_spec (h : Shape t path) {n : NodeId} (henters : t.Enters n tokens) :
    ∃ x p key run rest, t.nodes n = some x ∧ x.parent = some p ∧ x.tokens = key :: run ∧
      t.childAt p key = some n ∧
      path n = path p ++ x.tokens ∧ tokens = path p ++ key :: rest ∧
      matchLen (path n) tokens = (path p).length + matchLen x.tokens (key :: rest) := by
  have halive : t.Alive n := by
    cases hn : t.nodes n with
    | none => simp [RadixTree.Enters, RadixTree.pathTokens_of_none hn, matchLen] at henters
    | some x => exact ⟨x, hn⟩
  rw [RadixTree.Enters, h.pathTokens_eq halive] at henters
  have hroot : n ≠ rootId := by
    rintro rfl
    rw [h.rootPath] at henters
    simp [matchLen] at henters
  obtain ⟨x, hx⟩ := halive
  obtain ⟨p, key, run, hp, hrun, hchild, hpath⟩ := h.up hx hroot
  rw [h.runStart_eq hx hpath, hpath] at henters
  obtain ⟨rest, htokens, hlen⟩ := exists_of_lt_matchLen henters
  have hpos : 0 < matchLen x.tokens rest := by omega
  cases rest with
  | nil =>
    rw [hrun] at hpos
    simp [matchLen] at hpos
  | cons a rest =>
    have hkey : key = a := by
      by_contra hne
      rw [hrun] at hpos
      simp [matchLen, hne] at hpos
    subst hkey
    exact ⟨x, p, key, run, rest, hx, hp, hrun, hchild, hpath, htokens, by rw [hpath, hlen]⟩

/-- A child whose key continues the tokens is the one on the way to any node along the tokens. -/
theorem path_le_of_entered (h : Shape t path) {n p k : NodeId} {key : Token} {rest : List Token}
    (hchild : t.childAt p key = some n) (htokens : tokens = path p ++ key :: rest) (hk : t.Alive k)
    (hkt : path k <+: tokens) (hlt : (path p).length < (path k).length) : path n <+: path k := by
  have hpk : path p <+: path k :=
    List.prefix_of_prefix_length_le (htokens ▸ List.prefix_append _ _) hkt hlt.le
  rcases h.eq_or_child_toward (RadixTree.alive_of_childAt hchild) hk hpk with
    rfl | ⟨key', d, hd, hdk⟩
  · exact absurd hlt (lt_irrefl _)
  · -- the child on the way has the key that the tokens continue with
    obtain ⟨y, yrest, hy, _, hytok⟩ := h.down hd
    have hdt := hdk.trans hkt
    rw [h.child_path hd hy, hytok, htokens, List.prefix_append_right_inj] at hdt
    obtain ⟨u, hu⟩ := hdt
    rw [List.cons_append, List.cons.injEq] at hu
    rw [hu.1, hchild] at hd
    exact Option.some.inj hd ▸ hdk

/-- Tokens pass what they follow to its end and beyond. -/
theorem passes_of_lt (h : Shape t path) {n : NodeId} (hn : t.Alive n) (hpath : path n <+: tokens)
    (hlt : (path n).length < tokens.length) : t.Passes n tokens := by
  rw [RadixTree.Passes, h.pathTokens_eq hn]
  exact ⟨hpath, hlt⟩

/-- At most one node is entered and not passed. -/
theorem entered_unique (h : Shape t path) {n k : NodeId} (hn : t.Enters n tokens)
    (hnp : ¬ t.Passes n tokens) (hk : t.Enters k tokens) (hkp : ¬ t.Passes k tokens) : n = k := by
  obtain ⟨x, p, key, run, rest, hx, _, hrun, hchild, hpath, htokens, _⟩ := h.enters_spec hn
  obtain ⟨y, q, key', run', rest', hy, _, hrun', hchild', hpath', htokens', _⟩ := h.enters_spec hk
  have hpt : path p <+: tokens := htokens ▸ List.prefix_append _ _
  have hqt : path q <+: tokens := htokens' ▸ List.prefix_append _ _
  have hplen : (path p).length < tokens.length := by rw [htokens]; simp
  have hqlen : (path q).length < tokens.length := by rw [htokens']; simp
  have hpalive := RadixTree.alive_of_childAt hchild
  have hqalive := RadixTree.alive_of_childAt hchild'
  rcases Nat.lt_trichotomy (path p).length (path q).length with hlt | heq | hlt
  · have hnq := h.path_le_of_entered hchild htokens hqalive hqt hlt
    exact absurd (h.passes_of_lt ⟨x, hx⟩ (hnq.trans hqt) (lt_of_le_of_lt hnq.length_le hqlen)) hnp
  · have hpq : path p = path q := (List.prefix_of_prefix_length_le hpt hqt heq.le).eq_of_length heq
    have hpq' := h.path_injective hpalive hqalive hpq
    subst hpq'
    rw [htokens, List.append_cancel_left_eq, List.cons.injEq] at htokens'
    rw [htokens'.1, hchild'] at hchild
    exact (Option.some.inj hchild).symm
  · have hkp' := h.path_le_of_entered hchild' htokens' hpalive hpt hlt
    exact absurd (h.passes_of_lt ⟨y, hy⟩ (hkp'.trans hpt) (lt_of_le_of_lt hkp'.length_le hplen)) hkp

/-- The node where a walk splits is entered and not passed. -/
theorem split_stopsInside (h : Shape t path) {n p : NodeId} {x : RadixNode} {k : ℕ}
    {rest : List Token}
    (hx : t.nodes n = some x) (hpos : 0 < k) (hk : k < x.tokens.length)
    (hpath : path n = path p ++ x.tokens)
    (htokens : path p ++ x.tokens.take k ++ rest = tokens)
    (hkey : ∀ key rest' key' rest'', rest = key :: rest' →
      x.tokens.drop k = key' :: rest'' → key' ≠ key) :
    matchLen (path n) tokens = (path p).length + k ∧ t.StopsInside n tokens := by
  have hmatch : matchLen (path n) tokens = (path p).length + k := by
    rw [hpath, ← htokens, List.append_assoc, matchLen_append]
    nth_rewrite 1 [← List.take_append_drop k x.tokens]
    rw [matchLen_append, List.length_take, min_eq_left hk.le]
    cases hrest : rest with
    | nil => cases x.tokens.drop k <;> simp [matchLen]
    | cons key rest' =>
      obtain ⟨key', rest'', hdrop⟩ : ∃ key' rest'', x.tokens.drop k = key' :: rest'' := by
        rw [← List.ne_nil_iff_exists_cons, ne_eq, List.drop_eq_nil_iff]
        omega
      simp [hdrop, matchLen, hkey key rest' key' rest'' hrest hdrop]
  refine ⟨hmatch, ?_, ?_⟩
  · rw [RadixTree.Enters, h.runStart_eq hx hpath, h.pathTokens_eq ⟨x, hx⟩, hmatch]
    omega
  · rw [h.pathTokens_eq ⟨x, hx⟩, hmatch, hpath, List.length_append]
    omega

/-- Tokens that stop inside a node do not pass it. -/
theorem not_passes_of_stopsInside (h : Shape t path) {n : NodeId} (hn : t.StopsInside n tokens) :
    ¬ t.Passes n tokens := by
  obtain ⟨x, _, _, _, _, hx, _⟩ := h.enters_spec hn.1
  intro hpasses
  obtain ⟨rest, hrest⟩ := hpasses.1
  have hfull : matchLen (t.pathTokens n) tokens = (t.pathTokens n).length := by
    rw [← hrest, matchLen_self_append]
  exact hn.2.ne hfull

/-- Tokens that end in a node do not pass it. -/
theorem not_passes_of_endsIn (_ : Shape t path) {n : NodeId} (hn : t.EndsIn n tokens) :
    ¬ t.Passes n tokens := by
  intro hpasses
  have hle := matchLen_le_left (t.pathTokens n) tokens
  rw [hn.2] at hle
  exact absurd hpasses.2 (not_lt.mpr hle)

/-- The walk ends at the node that is entered and not passed. -/
theorem walked_node (h : Shape t path) {n k : NodeId} {t' : RadixTree} {len : ℕ} {rest : List Token}
    (hn : t.Enters n tokens) (hnp : ¬ t.Passes n tokens)
    (hwalked : Walked t path tokens t' k len rest) : k = n := by
  cases hwalked with
  | stop halive hpath hkey =>
    cases hrest : rest with
    | nil =>
      rw [hrest, List.append_nil] at hpath
      have hroot : k ≠ rootId := by
        rintro rfl
        obtain ⟨x, p, key, run, rest', _, _, _, _, _, htokens, _⟩ := h.enters_spec hn
        rw [← hpath, h.rootPath] at htokens
        simp at htokens
      obtain ⟨y, hy⟩ := halive
      obtain ⟨q, key, run, _, hrun, _, hqpath⟩ := h.up hy hroot
      refine h.entered_unique ?_ ?_ hn hnp
      · have hfull := matchLen_self_append (path k) []
        rw [List.append_nil] at hfull
        rw [RadixTree.Enters, h.runStart_eq hy hqpath, h.pathTokens_eq ⟨y, hy⟩, ← hpath,
          hfull, hqpath, hrun]
        simp
      · rw [RadixTree.Passes, h.pathTokens_eq ⟨y, hy⟩, hpath]
        exact fun hpasses => lt_irrefl _ hpasses.2
    | cons a rest' =>
      obtain ⟨x, p, key, run, rest'', hx, _, hrun, hchild, hnpath, htokens, _⟩ := h.enters_spec hn
      rw [hrest] at hpath
      have hkt : path k <+: tokens := hpath ▸ List.prefix_append _ _
      have hklen : (path k).length < tokens.length := by rw [← hpath]; simp
      have hpt : path p <+: tokens := htokens ▸ List.prefix_append _ _
      have hnone := hkey a rest' hrest
      rcases Nat.lt_trichotomy (path p).length (path k).length with hlt | heq | hlt
      · have hnk := h.path_le_of_entered hchild htokens halive hkt hlt
        exact absurd (h.passes_of_lt ⟨x, hx⟩ (hnk.trans hkt) (lt_of_le_of_lt hnk.length_le hklen))
          hnp
      · have hpk : path p = path k :=
          (List.prefix_of_prefix_length_le hpt hkt heq.le).eq_of_length heq
        have hpk' := h.path_injective (RadixTree.alive_of_childAt hchild) halive hpk
        subst hpk'
        rw [← hpath, List.append_cancel_left_eq, List.cons.injEq] at htokens
        rw [htokens.1, hchild] at hnone
        contradiction
      · -- the tokens continue below the node where the walk stopped
        have hkp : path k <+: path p := List.prefix_of_prefix_length_le hkt hpt hlt.le
        rcases h.eq_or_child_toward halive (RadixTree.alive_of_childAt hchild) hkp with
          rfl | ⟨key', d, hd, hdp⟩
        · exact absurd hlt (lt_irrefl _)
        · obtain ⟨y, yrest, hy, _, hytok⟩ := h.down hd
          have hdt := hdp.trans hpt
          rw [h.child_path hd hy, hytok, ← hpath, List.prefix_append_right_inj] at hdt
          obtain ⟨u, hu⟩ := hdt
          rw [List.cons_append, List.cons.injEq] at hu
          rw [← hu.1, hd] at hnone
          contradiction
  | split hx hroot hpos hk hparent hpath htokens hdiffer hkey =>
    have hstops := (h.split_stopsInside hx hpos hk hpath htokens hkey).2
    exact h.entered_unique hstops.1 (h.not_passes_of_stopsInside hstops) hn hnp

end Shape

end RadixForge
