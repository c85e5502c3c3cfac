import RadixForge.Tree.Restoring

/-!
# What a tree represents

A tree represents the beginnings of the paths of its nodes. An insertion matches the longest
beginning of its tokens that is represented, adds the beginnings of its tokens and nothing else, and
leaves every node in place with its data; at most one path gets shorter, to the matched beginning.
-/

namespace RadixForge

open Library

/-- Some path from the root begins with the tokens. -/
def RadixTree.Represents (t : RadixTree) (tokens : List Token) : Prop :=
  ∃ n, tokens <+: t.pathTokens n

/-- The longest match with a path is the longest beginning that is represented. -/
theorem RadixTree.represented_greatest {t : RadixTree} {tokens : List Token} {k : ℕ}
    (hk : IsGreatest (Set.range fun n => matchLen (t.pathTokens n) tokens) k) :
    IsGreatest {k | k ≤ tokens.length ∧ t.Represents (tokens.take k)} k := by
  obtain ⟨⟨n, rfl⟩, hgreatest⟩ := hk
  constructor
  · obtain ⟨_, hlen, htake⟩ := le_matchLen_iff.mp (le_refl (matchLen (t.pathTokens n) tokens))
    exact ⟨hlen, n, htake ▸ List.take_prefix _ _⟩
  · rintro k ⟨hlen, m, hm⟩
    refine le_trans (le_matchLen_iff.mpr ⟨?_, hlen, ?_⟩) (hgreatest ⟨m, rfl⟩)
    · have hle := hm.length_le
      rwa [List.length_take, min_eq_left hlen] at hle
    · obtain ⟨rest, hrest⟩ := hm
      rw [← hrest, List.take_append_of_le_length (by rw [List.length_take, min_eq_left hlen]),
        List.take_take, min_self]

/-- What an insertion of the tokens returns and does to the tree. -/
structure InsertsExactly (t : RadixTree) (tokens : List Token) (t' : RadixTree)
    (found : PrefixMatch) : Prop where
  matched : IsGreatest {k | k ≤ tokens.length ∧ t.Represents (tokens.take k)} found.matchedTokens
  inspected : (t.inspectPrefix tokens).matchedTokens = found.matchedTokens
  remaining : found.remaining = tokens.drop found.matchedTokens
  node : t'.Alive found.node ∧ t'.pathTokens found.node = tokens
  represents : ∀ w, t'.Represents w ↔ t.Represents w ∨ w <+: tokens
  alive : ∀ n, t.Alive n → t'.Alive n
  data : ∀ n, t.Alive n → t'.data n = if n = found.node then (t.data n).hold else t.data n
  paths : ∃ cut, ∀ n, t.Alive n → t'.pathTokens n = t.pathTokens n ∨
    n = cut ∧ t'.pathTokens n = tokens.take found.matchedTokens ∧ t'.pathTokens n <+: t.pathTokens n

/-- The paths after a walk or an insertion of the tokens: no path is lost, a new one is the matched
beginning of the tokens or one of the given extra paths, and only a node that the tokens stop inside
changes its path. -/
structure Respelled (t : RadixTree) (path : NodeId → List Token) (t' : RadixTree)
    (path' : NodeId → List Token) (extra : List Token → Prop) (cut : NodeId) (tokens : List Token)
    (matched : ℕ) : Prop where
  kept : ∀ m, t.Alive m → ∃ m', t'.Alive m' ∧ path' m' = path m
  only : ∀ m, t'.Alive m →
    (∃ m', t.Alive m' ∧ path' m = path m') ∨ path' m = tokens.take matched ∨ extra (path' m)
  same : ∀ m, t.Alive m → path' m = path m ∧ ¬ t.StopsInside m tokens ∨
    m = cut ∧ path' m = tokens.take matched ∧ t.StopsInside m tokens

namespace Shape

variable {t : RadixTree} {path : NodeId → List Token} {tokens : List Token}

/-- The prefixes that a tree represents are those of its paths. -/
theorem represents_iff (h : Shape t path) (w : List Token) :
    t.Represents w ↔ ∃ n, t.Alive n ∧ w <+: path n := by
  constructor
  · rintro ⟨n, hn⟩
    cases hnode : t.nodes n with
    | none =>
      rw [RadixTree.pathTokens_of_none hnode, List.prefix_nil] at hn
      exact ⟨rootId, h.root_alive, hn ▸ List.nil_prefix⟩
    | some x => exact ⟨n, ⟨x, hnode⟩, h.pathTokens_eq ⟨x, hnode⟩ ▸ hn⟩
  · rintro ⟨n, halive, hn⟩
    exact ⟨n, (h.pathTokens_eq halive).symm ▸ hn⟩

/-- The walk matches the longest match with a path. -/
theorem walked_greatest (h : Shape t path) {t' : RadixTree} {n : NodeId} {k : ℕ} {rest : List Token}
    (hwalked : Walked t path tokens t' n k rest) :
    IsGreatest (Set.range fun n => matchLen (t.pathTokens n) tokens) k := by
  have hupper {bound : ℕ} (hbound : ∀ m, t.Alive m → matchLen (path m) tokens ≤ bound) :
      bound ∈ upperBounds (Set.range fun n => matchLen (t.pathTokens n) tokens) := by
    rintro _ ⟨m, rfl⟩
    cases hnode : t.nodes m with
    | none => simp [RadixTree.pathTokens_of_none hnode, matchLen]
    | some x => simpa only [h.pathTokens_eq ⟨x, hnode⟩] using hbound m ⟨x, hnode⟩
  cases hwalked with
  | stop halive hpath hkey =>
    refine ⟨⟨n, ?_⟩, hupper fun m hm => ?_⟩
    · simp only [h.pathTokens_eq halive]
      exact matchLen_of_isPrefix (hpath ▸ List.prefix_append _ _)
    · by_contra hlt
      obtain ⟨next, rest', c, hrest, hc, _⟩ := h.matched_place halive hm hpath (not_le.mp hlt)
      rw [hkey next rest' hrest] at hc
      contradiction
  | @split _ p x k rest hx hroot hpos hk hparent hpath htokens hdiffer hkey =>
    obtain ⟨hmatch, hstops⟩ := h.split_stopsInside hx hpos hk hpath htokens hkey
    refine ⟨⟨n, ?_⟩, hupper fun m hm => ?_⟩
    · simp only [h.pathTokens_eq ⟨x, hx⟩]
      exact hmatch
    · by_contra hlt
      rw [not_le, ← hmatch] at hlt
      -- a longer match goes on below the parent, through the node itself
      obtain ⟨q, fkey, frest, hq, htok, hchild, _⟩ := h.up hx hroot
      rw [hparent] at hq
      obtain rfl := Option.some.inj hq
      rw [List.append_assoc] at htokens
      obtain ⟨next, more, d, hnext, hd, hdm⟩ :=
        h.matched_place (RadixTree.alive_of_childAt hchild) hm htokens (by omega)
      rw [htok, ← Nat.sub_add_cancel hpos, List.take_succ_cons, List.cons_append,
        List.cons.injEq] at hnext
      rw [← hnext.1, hchild] at hd
      obtain rfl := Option.some.inj hd
      have hpartial : matchLen (path n) tokens < (path n).length := by
        rw [hmatch, hpath, List.length_append]
        omega
      exact hlt.ne (matchLen_of_beginning hdm hpartial).symm

/-- The paths after the walk. -/
theorem walked_respelled (h : Shape t path) {t' : RadixTree} {n : NodeId} {k : ℕ}
    {rest : List Token} (hwalked : Walked t path tokens t' n k rest) :
    ∃ path', Growth t path t' path' ∧ path' n ++ rest = tokens ∧ (path' n).length = k ∧
      Respelled t path t' path' (fun _ => False) n tokens k := by
  have honly {m : NodeId} (hm : t.StopsInside m tokens) : n = m :=
    h.walked_node hm.1 (h.not_passes_of_stopsInside hm) hwalked
  cases hwalked with
  | stop halive hpath hkey =>
    have hnone (m : NodeId) : ¬ t.StopsInside m tokens := by
      intro hm
      have hshort := hm.2
      rw [← honly hm, h.pathTokens_eq halive,
        matchLen_of_isPrefix (hpath ▸ List.prefix_append _ _)] at hshort
      exact lt_irrefl _ hshort
    exact ⟨path, Growth.refl h, hpath, rfl, fun m hm => ⟨m, hm, rfl⟩, fun m hm => .inl ⟨m, hm, rfl⟩,
      fun m _ => .inl ⟨rfl, hnone m⟩⟩
  | @split _ p x k rest hx hroot hpos hk hparent hpath htokens hdiffer hkey =>
    have hgrow := Growth.splitNode h hx hroot hpos hk
    have hself := h.splitPath_self hx hk hpath
    have hlen : (path p ++ x.tokens.take k).length = (path p).length + k := by
      rw [List.length_append, List.length_take, min_eq_left hk.le]
    have hcut := h.splitNode_cutInTwo hx hroot hpos hk hparent hpath hgrow.shape hgrow.data fun _ =>
      Iff.rfl
    have htake : tokens.take ((path p).length + k) = path p ++ x.tokens.take k := by
      rw [← htokens, ← hlen, List.take_left]
    refine ⟨_, hgrow, hself ▸ htokens, hself ▸ hlen, fun m hm => ?_, fun m hm => ?_, fun m hm => ?_⟩
    · by_cases hmn : m = n
      · exact ⟨t.nextId, (hcut.alive _).mpr (.inr rfl), hmn ▸ hcut.suffix⟩
      · exact ⟨m, (hcut.alive m).mpr (.inl hm), hcut.other m hm hmn⟩
    · rcases (hcut.alive m).mp hm with hm | rfl
      · by_cases hmn : m = n
        · exact .inr (.inl (by rw [hmn, hself, htake]))
        · exact .inl ⟨m, hm, hcut.other m hm hmn⟩
      · exact .inl ⟨n, hcut.node, hcut.suffix⟩
    · by_cases hmn : m = n
      · refine .inr ⟨hmn, ?_, ?_⟩
        · rw [hmn, hself, htake]
        · rw [hmn]
          exact (h.split_stopsInside hx hpos hk hpath htokens hkey).2
      · exact .inl ⟨hcut.other m hm hmn, fun hstops => hmn (honly hstops).symm⟩

/-- Only the leaf for the unmatched tokens is new. -/
theorem addLeaf_alive {t : RadixTree} (found : PrefixMatch) (tick : ℕ) {m : NodeId}
    (hm : (t.addLeaf found tick).1.Alive m) : t.Alive m ∨ m = (t.addLeaf found tick).2.node := by
  unfold RadixTree.addLeaf at hm ⊢
  split at hm
  · exact .inl hm
  · rw [RadixTree.alive_modify] at hm
    obtain ⟨y, hy⟩ := hm
    rw [RadixTree.alloc_nodes] at hy
    split at hy
    · rename_i heq
      exact .inr heq
    · exact .inl ⟨y, hy⟩

/-- A new leaf takes nothing from what was left over. -/
theorem addLeaf_remaining (t : RadixTree) (found : PrefixMatch) (tick : ℕ) :
    (t.addLeaf found tick).2.remaining = found.remaining := by
  unfold RadixTree.addLeaf
  split <;> rfl

/-- The paths after an insertion. -/
theorem insert_respelled (h : Shape t path) (tokens : List Token) :
    ∃ path' cut, Shape (t.insert tokens).1 path' ∧ (∀ m, t.Alive m → path' m <+: path m) ∧
      path' (t.insert tokens).2.node = tokens ∧ (t.insert tokens).1.Alive (t.insert tokens).2.node ∧
      (t.insert tokens).2.remaining = tokens.drop (t.insert tokens).2.matchedTokens ∧
      IsGreatest (Set.range fun n => matchLen (t.pathTokens n) tokens)
        (t.insert tokens).2.matchedTokens ∧
      Respelled t path (t.insert tokens).1 path' (· = tokens) cut tokens
        (t.insert tokens).2.matchedTokens := by
  have hadvanced : Shape t.advance path := h.congr rfl rfl
  obtain ⟨t₁, n, k, rest, hfind, hwalked⟩ := hadvanced.findPrefix_walked tokens
  obtain ⟨_, _, hn, _, _, hkey⟩ := hwalked.growth hadvanced
  obtain ⟨path₁, hgrow₁, hpath₁, hlen, hspelled⟩ := hadvanced.walked_respelled hwalked
  have hgreatest := hadvanced.walked_greatest hwalked
  simp only [RadixTree.pathTokens_advance] at hgreatest
  obtain ⟨path₂, hgrow₂, halive₂, hpath₂, hsame₂, _, hmatched, _⟩ :=
    addLeaf_growth hgrow₁.shape ⟨n, n, k, rest⟩ (hgrow₁.alive hn) hkey t₁.tick
  have hold := fun m (hm : (t₁.addLeaf ⟨n, n, k, rest⟩ t₁.tick).1.Alive m) =>
    addLeaf_alive ⟨n, n, k, rest⟩ t₁.tick hm
  have hremaining := addLeaf_remaining t₁ ⟨n, n, k, rest⟩ t₁.tick
  simp only [RadixTree.insert, hfind]
  generalize t₁.addLeaf ⟨n, n, k, rest⟩ t₁.tick = leaf at *
  obtain ⟨t₂, found⟩ := leaf
  simp only at *
  subst hmatched hremaining
  rw [hpath₁] at hpath₂
  refine ⟨path₂, n, hgrow₂.shape.modify _ fun _ => ⟨rfl, rfl, rfl⟩, fun m hm => ?_, hpath₂,
    RadixTree.alive_modify.mpr halive₂, ?_, hgreatest, fun m hm => ?_, fun m hm =>
      ?_, fun m hm => ?_⟩
  · exact hsame₂ m (hgrow₁.alive hm) ▸ hgrow₁.shorter hm
  · rw [← hpath₁, ← hlen, List.drop_left]
  · obtain ⟨m', hm', hpath⟩ := hspelled.kept m hm
    exact ⟨m', RadixTree.alive_modify.mpr (hgrow₂.alive hm'), (hsame₂ m' hm').trans hpath⟩
  · rcases hold m (RadixTree.alive_modify.mp hm) with hm | rfl
    · rcases hspelled.only m hm with ⟨m', hm', hpath⟩ | htake | hnone
      · exact .inl ⟨m', hm', hsame₂ m hm ▸ hpath⟩
      · exact .inr (.inl (hsame₂ m hm ▸ htake))
      · exact hnone.elim
    · exact .inr (.inr hpath₂)
  · rw [hsame₂ m (hgrow₁.alive hm)]
    simpa only [RadixTree.stopsInside_advance] using hspelled.same m hm

/-- What an insertion does. -/
theorem insert_exactly (h : Shape t path) (tokens : List Token) :
    InsertsExactly t tokens (t.insert tokens).1 (t.insert tokens).2 := by
  obtain ⟨_, hinserted⟩ := insert_spec h tokens
  obtain ⟨path', cut, hshape, hshorter, hnode, halive, hremaining, hgreatest, hspelled⟩ :=
    h.insert_respelled tokens
  refine ⟨RadixTree.represented_greatest hgreatest, ?_, hremaining, ⟨halive, ?_⟩, fun w => ?_,
    hinserted.alive, fun n _ => ?_, cut, fun n hn => ?_⟩
  · exact (h.inspectPrefix_spec tokens).1.unique hgreatest
  · rw [hshape.pathTokens_eq halive, hnode]
  · rw [hshape.represents_iff, h.represents_iff]
    constructor
    · rintro ⟨m, hm, hw⟩
      rcases hspelled.only m hm with ⟨m', hm', hpath⟩ | htake | heq
      · exact .inl ⟨m', hm', hpath ▸ hw⟩
      · exact .inr ((htake ▸ hw).trans (List.take_prefix _ _))
      · exact .inr (heq ▸ hw)
    · rintro (⟨m, hm, hw⟩ | hw)
      · obtain ⟨m', hm', hpath⟩ := hspelled.kept m hm
        exact ⟨m', hm', hpath ▸ hw⟩
      · exact ⟨_, halive, by rwa [hnode]⟩
  · rw [hinserted.data, Function.update_apply]
    split
    · rename_i heq
      rw [heq]
    · rfl
  · rw [hshape.pathTokens_eq (hinserted.alive n hn), h.pathTokens_eq hn]
    exact (hspelled.same n hn).imp (fun hsame => hsame.1) fun hcut =>
      ⟨hcut.1, hcut.2.1, hshorter n hn⟩

end Shape

end RadixForge
