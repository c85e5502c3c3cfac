import RadixForge.Tree.Undoing

/-!
# Which insertions leave no trace

An insertion that is given back leaves no trace in the inspections, unless its tokens leave the run
of a node that owns sequences, or follow a dead node to its end.
-/

namespace RadixForge

open Library

namespace RadixTree

/-- The tokens end or leave strictly inside the run of a node that owns sequences. -/
def CutsOwner (t : RadixTree) (tokens : List Token) : Prop :=
  ∃ n, (t.data n).seqIds ≠ ∅ ∧ t.StopsInside n tokens

/-- The tokens follow a dead node to its end. -/
def FollowsDead (t : RadixTree) (tokens : List Token) : Prop :=
  ∃ n, t.Dead n ∧ t.pathTokens n <+: tokens

/-- The clock does not matter to whether the tokens cut an owner. -/
theorem cutsOwner_advance {t : RadixTree} {tokens : List Token} :
    t.advance.CutsOwner tokens ↔ t.CutsOwner tokens := by
  simp only [CutsOwner, stopsInside_advance]
  rfl

/-- The clock does not matter to whether the tokens follow a dead node. -/
theorem followsDead_advance {t : RadixTree} {tokens : List Token} :
    t.advance.FollowsDead tokens ↔ t.FollowsDead tokens := by
  simp only [FollowsDead, pathTokens_advance]
  rfl

end RadixTree

/-- The inspections of all tokens report the same. -/
def SameInspections (t t' : RadixTree) : Prop :=
  ∀ tokens, t'.inspectPrefix tokens = t.inspectPrefix tokens

namespace Shape

variable {t t' : RadixTree} {path : NodeId → List Token} {tokens : List Token}

/-- Tokens that follow a node to its end enter it. -/
theorem enters_of_prefix (h : Shape t path) {n : NodeId} (hn : t.Alive n) (hroot : n ≠ rootId)
    (hpath : path n <+: tokens) :
    t.Enters n tokens := by
  rw [h.enters_iff hn hroot, matchLen_of_isPrefix hpath]
  intro m hm hmn hne
  refine lt_of_le_of_ne hmn.length_le fun hlen => hne ?_
  exact h.path_injective hm hn (hmn.eq_of_length hlen)

/-- A dead node along the tokens is where they leave the tree, or lies beyond. -/
theorem dead_place (h : Shape t path) {n m : NodeId} {rest : List Token} (hn : t.Alive n)
    (hpath : path n ++ rest = tokens) (hm : t.Dead m) (hmt : path m <+: tokens) :
    m = n ∨ ∃ next rest' c, rest = next :: rest' ∧ t.childAt n next = some c ∧
      path c <+: tokens := by
  obtain ⟨halive, hroot, _, hleaf⟩ := hm
  rcases h.entered_place hn hpath (h.enters_of_prefix halive hroot hmt) with
    hmn | ⟨next, rest', c, hrest, hc, hcase⟩
  · rcases h.eq_or_child_toward halive hn hmn with rfl | ⟨key, d, hd, _⟩
    · exact .inl rfl
    · rw [hleaf key] at hd
      contradiction
  · refine .inr ⟨next, rest', c, hrest, hc, ?_⟩
    rcases hcase with rfl | hct
    · exact hmt
    · exact hct

/-- The loss of a leaf is noticed by the inspection of its path. -/
theorem inspectPrefix_lost (h : Shape t path) (h' : Shape t' path) {n : NodeId} (hn : t.Alive n)
    (hroot : n ≠ rootId) (hleaf : ∀ key, t.childAt n key = none)
    (halive : ∀ m, t'.Alive m → t.Alive m) (hlost : ¬ t'.Alive n) :
    t'.inspectPrefix (path n) ≠ t.inspectPrefix (path n) := by
  intro heq
  have hfull : matchLen (path n) (path n) = (path n).length :=
    matchLen_of_isPrefix (List.prefix_refl _)
  have hbefore : (path n).length ≤ (t'.inspectPrefix (path n)).matchedTokens := by
    rw [heq]
    refine le_trans ?_ ((h.inspectPrefix_spec (path n)).1.2 ⟨n, rfl⟩)
    simp only [h.matchLen_pathTokens hn, hfull, le_refl]
  obtain ⟨m, hm⟩ := (h'.inspectPrefix_spec (path n)).1.1
  simp only at hm
  rw [← hm] at hbefore
  have hm' : t'.Alive m := by
    refine Option.ne_none_iff_exists'.mp fun hnone => ?_
    have hzero : matchLen (t'.pathTokens m) (path n) = 0 := by
      simp [RadixTree.pathTokens_of_none hnone, matchLen]
    rw [hzero, Nat.le_zero, List.length_eq_zero_iff] at hbefore
    exact h.path_ne_nil hn hroot hbefore
  rw [h'.matchLen_pathTokens hm'] at hbefore
  obtain ⟨_, _, htake⟩ := le_matchLen_iff.mp hbefore
  rw [List.take_length] at htake
  have hnm : path n <+: path m := htake ▸ List.take_prefix _ _
  rcases h.eq_or_child_toward hn (halive m hm') hnm with rfl | ⟨key, c, hc, _⟩
  · exact hlost hm'
  · rw [hleaf key] at hc
    contradiction

/-- A split cuts its node in two. -/
theorem splitNode_cutInTwo (h : Shape t path) {n p : NodeId} {x : RadixNode}
    (hx : t.nodes n = some x) (hroot : n ≠ rootId) {k : ℕ} (hpos : 0 < k) (hk : k < x.tokens.length)
    (hparent : x.parent = some p) (hpath : path n = path p ++ x.tokens)
    (h' : Shape t' (splitPath t path n (x.tokens.length - k))) (hdata : t'.data = t.data)
    (halive : ∀ m, t'.Alive m ↔ (t.splitNode n k).Alive m) :
    CutInTwo t path t' (splitPath t path n (x.tokens.length - k)) n t.nextId := by
  obtain ⟨key, rest, hdrop⟩ : ∃ key rest, x.tokens.drop k = key :: rest := by
    rw [← List.ne_nil_iff_exists_cons, ne_eq, List.drop_eq_nil_iff]
    omega
  have hcut := h.splitPath_self hx hk hpath
  refine ⟨h, h', hdata, fun m => ?_, h.nextId_not_alive, ⟨x, hx⟩, if_pos rfl, ?_, ?_,
    fun m hm hne => ?_, fun m hm hmn => ?_⟩
  · rw [halive]
    unfold RadixTree.Alive
    rw [h.splitNode_nodes hx hdrop]
    by_cases hmn : m = n
    · subst hmn
      simp [hx]
    · rw [if_neg hmn]
      by_cases hms : m = t.nextId
      · simp [hms]
      · rw [if_neg hms]
        split <;> simp [hms]
  · rw [hcut, hpath, List.prefix_append_right_inj]
    exact List.take_prefix _ _
  · rw [hcut, hpath, List.length_append, List.length_append, List.length_take]
    omega
  · exact splitPath_of_ne hne (h.ne_nextId hm) _
  · rw [hcut] at hmn
    obtain ⟨_, fkey, frest, hp, htok, hchild, _⟩ := h.up hx hroot
    rw [hparent] at hp
    obtain rfl := Option.some.inj hp
    rcases h.eq_or_child_toward (RadixTree.alive_of_childAt hchild) hm
      ((List.prefix_append _ _).trans hmn) with
      rfl | ⟨key', d, hd, hdm⟩
    · have hlen := hmn.length_le
      rw [List.length_append, List.length_take] at hlen
      omega
    · -- the run of the node starts with the key of the child on the way
      obtain ⟨y, yrest, hy, _, hytok⟩ := h.down hd
      obtain ⟨u, hu⟩ := hmn
      obtain ⟨v, hv⟩ := hdm
      rw [← hv, h.child_path hd hy, hytok, htok, List.append_assoc, List.append_assoc,
        List.append_cancel_left_eq, ← Nat.sub_add_cancel hpos, List.take_succ_cons,
        List.cons_append, List.cons_append, List.cons.injEq] at hu
      rw [hu.1, hd] at hchild
      obtain rfl := Option.some.inj hchild
      exact ⟨v, hv⟩

/-- An insertion that is given back, where the walk ends at a node. -/
theorem withdrawn_stop (h : Shape t path) (hcoherent : t.Coherent) {k : NodeId} {rest : List Token}
    (hk : t.Alive k) (hpath : path k ++ rest = tokens)
    (hkey : ∀ key rest', rest = key :: rest' → t.childAt k key = none)
    (hwithdrawn : Withdrawn t path k t') :
    SameInspections t t' ↔ ¬ t.CutsOwner tokens ∧ ¬ t.FollowsDead tokens := by
  have hcuts : ¬ t.CutsOwner tokens := by
    rintro ⟨n, _, hstops⟩
    obtain rfl := h.walked_node hstops.1 (h.not_passes_of_stopsInside hstops) (.stop hk hpath hkey)
    have hfull := matchLen_of_isPrefix (hpath ▸ List.prefix_append (path k) rest)
    rw [← h.pathTokens_eq hk] at hfull
    exact hstops.2.ne hfull
  have hfollows : t.FollowsDead tokens ↔ t.Dead k := by
    constructor
    · rintro ⟨m, hdead, hmt⟩
      rw [h.pathTokens_eq hdead.1] at hmt
      rcases h.dead_place hk hpath hdead hmt with rfl | ⟨next, rest', c, hrest, hc, _⟩
      · exact hdead
      · rw [hkey next rest' hrest] at hc
        contradiction
    · intro hdead
      refine ⟨k, hdead, ?_⟩
      rw [h.pathTokens_eq hk, ← hpath]
      exact List.prefix_append _ _
  rw [hfollows]
  constructor
  · refine fun hsame => ⟨hcuts, fun hdead => ?_⟩
    exact h.inspectPrefix_lost hwithdrawn.shape hk hdead.2.1 hdead.2.2.2 hwithdrawn.alive
      (hwithdrawn.removes hdead)
      (hsame (path k))
  · rintro ⟨_, hdead⟩
    exact h.inspectPrefix_same hwithdrawn.shape hcoherent hwithdrawn.data
      fun n => ⟨hwithdrawn.alive n, hwithdrawn.keeps hdead n⟩

/-- An insertion that is given back, where the walk splits a node. -/
theorem withdrawn_split (h : Shape t path) (hcoherent : t.Coherent)
    (hcanonical : ∀ n, (t.data n).seqIds ≠ ∅ → (path n).length ≤ (t.data n).canonicalLen)
    {n p : NodeId} {x : RadixNode} {k : ℕ} {rest : List Token} (hx : t.nodes n = some x)
    (hroot : n ≠ rootId) (hpos : 0 < k) (hk : k < x.tokens.length) (hparent : x.parent = some p)
    (hpath : path n = path p ++ x.tokens) (htokens : path p ++ x.tokens.take k ++ rest = tokens)
    (hkey : ∀ key rest' key' rest'', rest = key :: rest' →
      x.tokens.drop k = key' :: rest'' → key' ≠ key)
    (hwithdrawn : Withdrawn (t.splitNode n k) (splitPath t path n (x.tokens.length - k)) n t') :
    SameInspections t t' ↔ ¬ t.CutsOwner tokens ∧ ¬ t.FollowsDead tokens := by
  obtain ⟨hmatch, hstops⟩ := h.split_stopsInside hx hpos hk hpath htokens hkey
  have hgrow := Growth.splitNode h hx hroot hpos hk
  obtain ⟨key, rest', hdrop⟩ : ∃ key rest, x.tokens.drop k = key :: rest := by
    rw [← List.ne_nil_iff_exists_cons, ne_eq, List.drop_eq_nil_iff]
    omega
  have hnotDead : ¬ (t.splitNode n k).Dead n := by
    intro hdead
    have hsuffix := hdead.2.2.2 key
    rw [h.splitNode_childAt hx hdrop, if_pos rfl, if_pos rfl] at hsuffix
    contradiction
  have hcut : CutInTwo t path t' _ n t.nextId :=
    h.splitNode_cutInTwo hx hroot hpos hk hparent hpath hwithdrawn.shape
      (hwithdrawn.data.trans hgrow.data)
      fun m => ⟨hwithdrawn.alive m, hwithdrawn.keeps hnotDead m⟩
  have hnot : ¬ path n <+: tokens := by
    intro hprefix
    rw [matchLen_of_isPrefix hprefix, hpath, List.length_append] at hmatch
    omega
  have hcuts : t.CutsOwner tokens ↔ (t.data n).seqIds ≠ ∅ := by
    constructor
    · rintro ⟨m, howns, hm⟩
      obtain rfl := h.entered_unique hm.1 (h.not_passes_of_stopsInside hm) hstops.1
        (h.not_passes_of_stopsInside hstops)
      exact howns
    · exact fun howns => ⟨n, howns, hstops⟩
  have hfollows : ¬ t.FollowsDead tokens := by
    rintro ⟨m, hdead, hmt⟩
    rw [h.pathTokens_eq hdead.1] at hmt
    obtain ⟨_, fkey, frest, hp, htok, hchild, _⟩ := h.up hx hroot
    rw [hparent] at hp
    obtain rfl := Option.some.inj hp
    rw [List.append_assoc] at htokens
    rcases h.dead_place (RadixTree.alive_of_childAt hchild) htokens hdead hmt with
      rfl | ⟨next, more, c, hnext, hc, hct⟩
    · rw [hdead.2.2.2 fkey] at hchild
      contradiction
    · rw [htok, ← Nat.sub_add_cancel hpos, List.take_succ_cons, List.cons_append,
        List.cons.injEq] at hnext
      rw [← hnext.1, hchild] at hc
      obtain rfl := Option.some.inj hc
      exact hnot hct
  rw [hcuts]
  constructor
  · exact fun hsame => ⟨fun howns => hcut.inspectPrefix_ne howns (hcanonical n howns) hroot
      (hsame (path n)), hfollows⟩
  · rintro ⟨hempty, _⟩
    exact hcut.inspectPrefix_eq hcoherent (not_not.mp hempty)

/-- An insertion that is given back keeps the data and all inspections, unless its tokens leave the
run of a node that owns sequences, or follow a dead node to its end. -/
theorem withdraw_spec (h : Shape t path) (hcoherent : t.Coherent)
    (hcanonical : ∀ n, (t.data n).seqIds ≠ ∅ → (path n).length ≤ (t.data n).canonicalLen)
    (prompt : List Token) :
    (t.withdraw prompt).data = t.data ∧
      (SameInspections t (t.withdraw prompt) ↔ ¬ t.CutsOwner prompt ∧ ¬ t.FollowsDead prompt) := by
  have hadvanced : Shape t.advance path := h.congr rfl rfl
  have hsame : SameInspections t t.advance :=
    h.inspectPrefix_same hadvanced hcoherent rfl fun _ => Iff.rfl
  have hiff {t' : RadixTree} : SameInspections t t' ↔ SameInspections t.advance t' := by
    unfold SameInspections
    simp only [hsame _]
  obtain ⟨t₁, k, len, rest, hfind, hwalked⟩ := hadvanced.findPrefix_walked prompt
  obtain ⟨path₁, hgrow, hk, _, _, hkey⟩ := hwalked.growth hadvanced
  have hcoherent₁ : t₁.Coherent := fun n => hgrow.data ▸ hcoherent n
  rw [hiff, ← RadixTree.cutsOwner_advance, ← RadixTree.followsDead_advance]
  simp only [RadixTree.withdraw, RadixTree.insert, hfind]
  cases hwalked with
  | stop hk hpath hkey =>
    have hwithdrawn := hadvanced.hang_release hcoherent₁ hk hkey (path k).length t.advance.tick
      (t.advance.addLeaf ⟨k, k, (path k).length, rest⟩ t.advance.tick).1.tick
    exact ⟨hwithdrawn.data, hadvanced.withdrawn_stop hcoherent₁ hk hpath hkey hwithdrawn⟩
  | @split _ p x len' rest hx hroot hpos hlen hparent hpath htokens hdiffer hkey' =>
    have hsplit := Growth.splitNode hadvanced hx hroot hpos hlen
    have hwithdrawn := hsplit.shape.hang_release hcoherent₁ (hsplit.alive hk) hkey
      ((path p).length + len')
      (t.advance.splitNode k len').tick
      ((t.advance.splitNode k len').addLeaf ⟨k, k, (path p).length + len', rest⟩
        (t.advance.splitNode k len').tick).1.tick
    exact ⟨hwithdrawn.data.trans hsplit.data,
      hadvanced.withdrawn_split hcoherent hcanonical hx hroot hpos hlen hparent hpath
        htokens hkey' hwithdrawn⟩

end Shape

end RadixForge
