import RadixForge.Tree.Split

/-!
# What an insertion does

The mutating walk stops at a living node or splits the node inside whose tokens the prompt
ends; `Walked` has one case for each. Either way the tree grows: living nodes keep their
identity and data, paths only get shorter, and the walk returns the node whose path is the
matched part of the prompt.
-/

namespace RadixForge

open Library

/-- A match is not longer than the first list. -/
theorem matchLen_le_left (as bs : List Token) : matchLen as bs ≤ as.length := by
  induction as generalizing bs with
  | nil => simp [matchLen]
  | cons a as ih =>
    cases bs with
    | nil => simp [matchLen]
    | cons b bs =>
      have := ih bs
      simp only [matchLen, List.length_cons]
      split <;> omega

/-- A match is not longer than the second list. -/
theorem matchLen_le_right (as bs : List Token) : matchLen as bs ≤ bs.length := by
  induction as generalizing bs with
  | nil => simp [matchLen]
  | cons a as ih =>
    cases bs with
    | nil => simp [matchLen]
    | cons b bs =>
      have := ih bs
      simp only [matchLen, List.length_cons]
      split <;> omega

/-- The matched tokens are the same on both sides. -/
theorem take_matchLen (as bs : List Token) :
    as.take (matchLen as bs) = bs.take (matchLen as bs) := by
  induction as generalizing bs with
  | nil => simp [matchLen]
  | cons a as ih =>
    cases bs with
    | nil => simp [matchLen]
    | cons b bs =>
      simp only [matchLen]
      split
      · rename_i hab
        simp [hab, ih bs]
      · simp

/-- Behind the matched tokens one side ends or the next tokens differ. -/
theorem matchLen_differ {as bs as' bs' : List Token} {a b : Token}
    (has : as.drop (matchLen as bs) = a :: as') (hbs : bs.drop (matchLen as bs) = b :: bs') :
    a ≠ b := by
  induction as generalizing bs with
  | nil => simp at has
  | cons c as ih =>
    cases bs with
    | nil => simp at hbs
    | cons d bs =>
      simp only [matchLen] at has hbs
      split at has
      · rename_i hcd
        simp only [hcd, if_true, List.drop_succ_cons] at has hbs
        exact ih has hbs
      · rename_i hcd
        simp only [hcd, if_false, List.drop_zero, List.cons.injEq] at has hbs
        rw [← has.1, ← hbs.1]
        exact hcd

/-- The outcomes of the mutating walk over the given tokens: tree, node, matched length and rest. -/
inductive Walked (t : RadixTree) (path : NodeId → List Token) (tokens : List Token) :
    RadixTree → NodeId → ℕ → List Token → Prop
  | stop {n : NodeId} {rest : List Token} (halive : t.Alive n) (hpath : path n ++ rest = tokens)
      (hkey : ∀ key rest', rest = key :: rest' → t.childAt n key = none) :
      Walked t path tokens t n (path n).length rest
  | split {n p : NodeId} {x : RadixNode} {k : ℕ} {rest : List Token} (hx : t.nodes n = some x)
      (hroot : n ≠ rootId)
      (hpos : 0 < k) (hk : k < x.tokens.length) (hparent : x.parent = some p)
        (hpath : path n = path p ++ x.tokens)
      (htokens : path p ++ x.tokens.take k ++ rest = tokens)
      (hdiffer : ∀ key rest', rest = key :: rest' → ¬ path n <+: tokens)
      (hkey : ∀ key rest' key' rest'', rest = key :: rest' →
        x.tokens.drop k = key' :: rest'' → key' ≠ key) :
      Walked t path tokens (t.splitNode n k) n ((path p).length + k) rest

namespace Shape

variable {t : RadixTree} {path : NodeId → List Token}

/-- The loop of the walk, started anywhere on the way. -/
theorem findPrefixLoop_walked (h : Shape t path) (tokens : List Token) (fuel : ℕ) {n : NodeId}
    {rest : List Token} (hn : t.Alive n) (hpath : path n ++ rest = tokens)
    (hfuel : rest.length ≤ fuel) :
    ∃ t' n' k rest', t.findPrefixLoop fuel n (path n).length rest = (t', n', k, rest') ∧
      Walked t path tokens t' n' k rest' := by
  induction fuel generalizing n rest with
  | zero =>
    obtain rfl : rest = [] := List.length_eq_zero_iff.mp (by omega)
    exact ⟨t, n, _, [], rfl, Walked.stop hn hpath (by simp)⟩
  | succ fuel ih =>
    cases rest with
    | nil => exact ⟨t, n, _, [], rfl, Walked.stop hn hpath (by simp)⟩
    | cons next rest =>
      simp only [RadixTree.findPrefixLoop]
      cases hchild : t.childAt n next with
      | none =>
        refine ⟨t, n, _, next :: rest, rfl, Walked.stop hn hpath fun key rest' heq => ?_⟩
        rw [← (List.cons.inj heq).1]
        exact hchild
      | some c =>
        obtain ⟨x, xrest, hx, hparent, htok⟩ := h.down hchild
        have hcpath := h.child_path hchild hx
        have hpos : 0 < matchLen x.tokens (next :: rest) := by simp [htok, matchLen]
        have htake := take_matchLen x.tokens (next :: rest)
        have hle := matchLen_le_left x.tokens (next :: rest)
        simp only [hx, Option.map_some, Option.getD_some]
        split
        · rename_i hlt
          refine ⟨_, _, _, _, rfl,
            Walked.split hx (h.child_ne_root hchild) hpos hlt hparent hcpath ?_ ?_ ?_⟩
          · rw [htake, List.append_assoc, List.take_append_drop, hpath]
          · intro key rest' hrest hprefix
            rw [← hpath, hcpath, List.prefix_append_right_inj] at hprefix
            obtain ⟨u, hu⟩ := hprefix
            obtain ⟨a, as, ha⟩ : ∃ a as, x.tokens.drop (matchLen x.tokens (next :: rest)) =
              a :: as := by
              rw [← List.ne_nil_iff_exists_cons, ne_eq, List.drop_eq_nil_iff]
              omega
            have hdrop := congrArg (List.drop (matchLen x.tokens (next :: rest))) hu
            rw [List.drop_append_of_le_length hle, ha, hrest, List.cons_append] at hdrop
            exact matchLen_differ ha hrest (List.cons.inj hdrop).1
          · intro key rest' key' rest'' hrest hdrop
            exact matchLen_differ hdrop hrest
        · rename_i hnlt
          -- the whole node matches, and the walk goes on below it
          have hfull : matchLen x.tokens (next :: rest) = x.tokens.length := by omega
          rw [hfull, List.take_length] at htake
          have hnext : path c ++ (next :: rest).drop x.tokens.length = tokens := by
            rw [hcpath, List.append_assoc]
            nth_rewrite 1 [htake]
            rw [List.take_append_drop, hpath]
          have hlen : (path n).length + x.tokens.length = (path c).length := by
            rw [hcpath, List.length_append]
          rw [hlen]
          refine ih ⟨x, hx⟩ hnext ?_
          rw [List.length_drop, htok]
          simp only [List.length_cons] at hfuel ⊢
          omega

/-- The walk from the root. -/
theorem findPrefix_walked (h : Shape t path) (tokens : List Token) :
    ∃ t' n k rest, t.findPrefix tokens =
      (t', { node := n, cacheNode := n, matchedTokens := k, remaining := rest }) ∧
      Walked t path tokens t' n k rest := by
  have hstart : path rootId ++ tokens = tokens := by rw [h.rootPath, List.nil_append]
  obtain ⟨t', n, k, rest, hloop, hwalked⟩ :=
    h.findPrefixLoop_walked tokens tokens.length h.root_alive hstart le_rfl
  rw [h.rootPath, List.length_nil] at hloop
  exact ⟨t', n, k, rest, by simp [RadixTree.findPrefix, hloop], hwalked⟩

end Shape

/-- The tree gained nodes: what was alive stays alive with its data, and paths only get shorter. -/
structure Growth (t : RadixTree) (path : NodeId → List Token) (t' : RadixTree)
    (path' : NodeId → List Token) : Prop where
  shape : Shape t' path'
  data : t'.data = t.data
  alive : ∀ {n}, t.Alive n → t'.Alive n
  shorter : ∀ {n}, t.Alive n → path' n <+: path n

namespace Growth

variable {t : RadixTree} {path : NodeId → List Token}

/-- A tree that stays has grown. -/
theorem refl (h : Shape t path) : Growth t path t path := ⟨h, rfl, id, fun _ => List.prefix_refl _⟩

/-- A tree that grew twice has grown. -/
theorem trans {t₁ t₂ : RadixTree} {path₁ path₂ : NodeId → List Token} (h₁ : Growth t path t₁ path₁)
    (h₂ : Growth t₁ path₁ t₂ path₂) : Growth t path t₂ path₂ :=
  ⟨h₂.shape, h₂.data.trans h₁.data, fun hn => h₂.alive (h₁.alive hn),
    fun hn => (h₂.shorter (h₁.alive hn)).trans (h₁.shorter hn)⟩

/-- Advancing the clock changes nothing here. -/
theorem advance (h : Shape t path) : Growth t path t.advance path :=
  ⟨h.congr rfl rfl, rfl, id, fun _ => List.prefix_refl _⟩

/-- A tree with the same nodes has grown as well. -/
theorem congr {t₁ t₂ : RadixTree} {path₁ : NodeId → List Token} (h : Growth t path t₁ path₁)
    (hnodes : t₂.nodes = t₁.nodes) (hnext : t₂.nextId = t₁.nextId) : Growth t path t₂ path₁ where
  shape := h.shape.congr hnodes hnext
  data := by
    rw [← h.data]
    funext m
    simp only [RadixTree.data, RadixTree.field, hnodes]
  alive hn := by
    obtain ⟨y, hy⟩ := h.alive hn
    exact ⟨y, by rw [hnodes, hy]⟩
  shorter := h.shorter

/-- A split is a growth. -/
theorem splitNode (h : Shape t path) {n : NodeId} {x : RadixNode} (hx : t.nodes n = some x)
    (hroot : n ≠ rootId) {k : ℕ} (hpos : 0 < k) (hk : k < x.tokens.length) :
    Growth t path (t.splitNode n k) (splitPath t path n (x.tokens.length - k)) := by
  obtain ⟨key, rest, hdrop⟩ : ∃ key rest, x.tokens.drop k = key :: rest := by
    rw [← List.ne_nil_iff_exists_cons, ne_eq, List.drop_eq_nil_iff]
    omega
  have hnodes := h.splitNode_nodes hx hdrop
  refine ⟨h.splitNode hx hroot hpos hk, ?_, ?_, ?_⟩
  · funext m
    simp only [RadixTree.data, RadixTree.field, hnodes]
    by_cases hm : m = n
    · subst hm
      simp [hx, prefixNode, RadixNode.data]
    · by_cases hs : m = t.nextId
      · subst hs
        simp [hm, suffixNode, RadixNode.data, h.nextId_not_alive]
      · simp only [hm, hs, if_false]
        split <;> cases t.nodes m <;> rfl
  · intro m hm
    obtain ⟨y, hy⟩ := hm
    unfold RadixTree.Alive
    rw [hnodes, hy]
    split_ifs <;> simp
  · intro m hm
    simp only [splitPath, if_neg (h.ne_nextId hm)]
    split
    · rename_i heq
      rw [heq]
      exact List.take_prefix _ _
    · exact List.prefix_refl _

/-- Hanging a new leaf without data below a node is a growth. -/
theorem addLeaf (h : Shape t path) {n : NodeId} (hn : t.Alive n) {x : RadixNode} {key : Token}
    {rest : List Token} (hkey : t.childAt n key = none) (hparent : x.parent = some n)
    (htok : x.tokens = key :: rest) (hleaf : x.children = ∅) (hdata : x.data = {}) :
    Growth t path
      ((t.alloc x).modify n fun y => { y with children := y.children.insert key t.nextId })
      (fun m => if m = t.nextId then path n ++ x.tokens else path m) := by
  have hne {m : NodeId} (hm : t.Alive m) : m ≠ t.nextId := h.ne_nextId hm
  refine ⟨h.addLeaf hn hkey hparent htok hleaf, ?_, ?_, ?_⟩
  · funext m
    simp only [RadixTree.data, RadixTree.field, RadixTree.modify_nodes, RadixTree.alloc_nodes]
    by_cases hs : m = t.nextId
    · subst hs
      simp [(hne hn).symm, h.nextId_not_alive, hdata]
    · by_cases hm : m = n
      · subst hm
        cases t.nodes m <;> simp [hs, RadixNode.data]
      · simp [hm, hs]
  · intro m hm
    rw [RadixTree.alive_modify]
    obtain ⟨y, hy⟩ := hm
    exact ⟨y, by simp [hne ⟨y, hy⟩, hy]⟩
  · intro m hm
    simp [hne hm]

end Growth

/-- The walk grows the tree and ends at the node whose path is the matched part. -/
theorem Walked.growth {t t' : RadixTree} {path : NodeId → List Token} {tokens rest : List Token}
    {n : NodeId} {k : ℕ} (hw : Walked t path tokens t' n k rest) (h : Shape t path) :
    ∃ path', Growth t path t' path' ∧ t.Alive n ∧ path' n ++ rest = tokens ∧ (path' n).length = k ∧
      ∀ key rest', rest = key :: rest' → t'.childAt n key = none := by
  cases hw with
  | stop halive hpath hkey => exact ⟨path, Growth.refl h, halive, hpath, rfl, hkey⟩
  | @split n p x k rest hx hroot hpos hk hparent hpath htokens hdiffer hkey =>
    have hgrow := Growth.splitNode h hx hroot hpos hk
    have hpath' := h.splitPath_self hx hk hpath
    refine ⟨_, hgrow, ⟨x, hx⟩, ?_, ?_, ?_⟩
    · rw [hpath', htokens]
    · rw [hpath', List.length_append, List.length_take]
      omega
    · intro key rest' hrest
      obtain ⟨key', rest'', hdrop⟩ : ∃ key rest, x.tokens.drop k = key :: rest := by
        rw [← List.ne_nil_iff_exists_cons, ne_eq, List.drop_eq_nil_iff]
        omega
      have hnode : (t.splitNode n k).nodes n = some (prefixNode x k key' t.nextId) := by
        rw [h.splitNode_nodes hx hdrop, if_pos rfl]
      rw [RadixTree.childAt_of_nodes hnode]
      simp [prefixNode, lookup_singleton, (hkey key rest' key' rest'' hrest hdrop).symm]

/-- The leaf added for the unmatched tokens, if there are any, ends the whole prompt. -/
theorem addLeaf_growth {t : RadixTree} {path : NodeId → List Token} (h : Shape t path)
    (found : PrefixMatch) (hn : t.Alive found.node)
    (hkey : ∀ key rest', found.remaining = key :: rest' → t.childAt found.node key = none)
    (tick : ℕ) :
    ∃ path', Growth t path (t.addLeaf found tick).1 path' ∧
      (t.addLeaf found tick).1.Alive (t.addLeaf found tick).2.node ∧
      path' (t.addLeaf found tick).2.node = path found.node ++ found.remaining ∧
      (∀ m, t.Alive m → path' m = path m) ∧
      (t.addLeaf found tick).2.cacheNode = found.cacheNode ∧
      (t.addLeaf found tick).2.matchedTokens = found.matchedTokens ∧
      ((t.addLeaf found tick).2.node = found.node ∨
        (t.addLeaf found tick).1.parentOf (t.addLeaf found tick).2.node = some found.node) := by
  unfold RadixTree.addLeaf
  split
  · rename_i hrem
    exact ⟨path, Growth.refl h, hn, by rw [hrem, List.append_nil],
      fun _ _ => rfl, rfl, rfl, Or.inl rfl⟩
  · rename_i key rest hrem
    let leaf : RadixNode :=
      { tokens := found.remaining, parent := some found.node, lastAccessTick := tick }
    have hgrow : Growth t path _ _ := Growth.addLeaf h hn (x := leaf)
      (hkey key rest hrem) rfl hrem rfl rfl
    refine ⟨_, hgrow, ?_, if_pos rfl, fun m hm => if_neg (h.ne_nextId hm), rfl, rfl, Or.inr ?_⟩
    · rw [RadixTree.alive_modify]
      exact ⟨leaf, if_pos rfl⟩
    · simp [RadixTree.parentOf, (h.ne_nextId hn).symm]

/-- The effect of an insertion: the tree grows by the prompt and its last node gets one reference;
the cache node ends the part of the prompt that was there before. -/
structure Inserted (t : RadixTree) (path : NodeId → List Token) (prompt : List Token)
    (t' : RadixTree) (found : PrefixMatch) (path' : NodeId → List Token) : Prop where
  shape : Shape t' path'
  alive : ∀ n, t.Alive n → t'.Alive n
  shorter : ∀ n, t.Alive n → path' n <+: path n
  node : path' found.node = prompt
  cacheNode : t.Alive found.cacheNode
  cachePath : path' found.cacheNode = prompt.take found.matchedTokens
  matched_le : found.matchedTokens ≤ prompt.length
  data : t'.data = Function.update t.data found.node (t.data found.node).hold
  parent : found.node = found.cacheNode ∨ t'.parentOf found.node = some found.cacheNode

/-- What `insert` does. -/
theorem insert_spec {t : RadixTree} {path : NodeId → List Token} (h : Shape t path)
    (prompt : List Token) :
    ∃ path', Inserted t path prompt (t.insert prompt).1 (t.insert prompt).2 path' := by
  obtain ⟨t₁, n, k, rest, hfind, hwalked⟩ := (Growth.advance h).shape.findPrefix_walked prompt
  obtain ⟨path₁, hgrow₁, hn, hpath₁, hlen, hkey⟩ := hwalked.growth (Growth.advance h).shape
  obtain ⟨path₂, hgrow₂, halive₂, hpath₂, hsame₂, hcache, hmatched, hparent⟩ :=
    addLeaf_growth hgrow₁.shape ⟨n, n, k, rest⟩ (hgrow₁.alive hn) hkey t₁.tick
  have hgrow := ((Growth.advance h).trans hgrow₁).trans hgrow₂
  simp only [RadixTree.insert, hfind]
  generalize t₁.addLeaf ⟨n, n, k, rest⟩ t₁.tick = leaf at *
  obtain ⟨t₂, found⟩ := leaf
  simp only at *
  subst hcache hmatched
  refine ⟨path₂, ?_, ?_, ?_, ?_, hn, ?_, ?_, ?_, ?_⟩
  · exact hgrow.shape.modify _ fun x => ⟨rfl, rfl, rfl⟩
  · exact fun m hm => RadixTree.alive_modify.mpr (hgrow.alive hm)
  · exact fun m hm => hgrow.shorter hm
  · rw [hpath₂, hpath₁]
  · rw [hsame₂ _ (hgrow₁.alive hn), ← hpath₁, List.take_append_of_le_length (by omega),
      ← hlen, List.take_length]
  · rw [← hpath₁, List.length_append]
    omega
  · rw [RadixTree.data_modify (g := NodeData.hold) (fun x => rfl) halive₂, hgrow.data]
  · have hkept := RadixTree.Local.parentOf
      (f := fun x => { x with lastAccessTick := t₂.tick, refCount := x.refCount + 1 })
      (fun _ => ⟨rfl, rfl, rfl⟩) t₂ found.node found.node
    exact hparent.imp_right fun h => hkept.trans h

end RadixForge
