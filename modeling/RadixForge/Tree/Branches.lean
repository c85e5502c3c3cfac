import RadixForge.Tree.Entering
import RadixForge.Tree.Operations

/-!
# Dead branches

A split of a childless node creates a childless suffix without data, and pruning, which starts at
released and evicted nodes, never reaches it. Insertions and extensions that do not stop strictly
inside the run of a childless node leave no dead node behind.
-/

namespace RadixForge

open Library

namespace RadixTree

/-- The tokens end or leave strictly inside the run of a childless node. -/
def StopsInLeaf (t : RadixTree) (tokens : List Token) : Prop :=
  ∃ n, (∀ key, t.childAt n key = none) ∧ t.StopsInside n tokens

/-- Nothing is left for pruning to remove. -/
def NoDead (t : RadixTree) : Prop := ∀ n, ¬ t.Dead n

/-- The clock does not matter to the way from a node to the root. -/
theorem pathTokensLoop_advance (fuel : ℕ) (t : RadixTree) (n : Option NodeId) :
    pathTokensLoop fuel t.advance n = pathTokensLoop fuel t n := by
  induction fuel generalizing n with
  | zero => cases n <;> rfl
  | succ fuel ih =>
    cases n with
    | none => rfl
    | some n =>
      simp only [pathTokensLoop, advance_nodes]
      cases t.nodes n with
      | none => rfl
      | some x => simp only [ih]

/-- The clock does not matter to paths. -/
@[simp] theorem pathTokens_advance (t : RadixTree) (n : NodeId) :
    t.advance.pathTokens n = t.pathTokens n :=
  pathTokensLoop_advance _ t _

/-- The clock does not matter to where tokens stop. -/
theorem stopsInside_advance {t : RadixTree} {n : NodeId} {tokens : List Token} :
    t.advance.StopsInside n tokens ↔ t.StopsInside n tokens := by
  simp only [StopsInside, Enters, runStart, pathTokens_advance]
  rfl

/-- The clock does not matter to where tokens end. -/
theorem endsIn_advance {t : RadixTree} {n : NodeId} {tokens : List Token} :
    t.advance.EndsIn n tokens ↔ t.EndsIn n tokens := by
  simp only [EndsIn, Enters, runStart, pathTokens_advance]
  rfl

/-- The clock does not matter to whether tokens stop in a childless node. -/
theorem stopsInLeaf_advance {t : RadixTree} {tokens : List Token} :
    t.advance.StopsInLeaf tokens ↔ t.StopsInLeaf tokens := by
  simp only [StopsInLeaf, stopsInside_advance]
  rfl

end RadixTree

/-- A change of another node does not matter to a dead one. -/
theorem RadixTree.dead_modify {t : RadixTree} {n m : NodeId} {f : RadixNode → RadixNode}
    (hf : RadixTree.Local f) (hm : m ≠ n) : (t.modify n f).Dead m ↔ t.Dead m := by
  have hdata : (t.modify n f).data m = t.data m := by
    simp [RadixTree.data, RadixTree.field, hm]
  simp only [RadixTree.Dead, RadixTree.alive_modify, hdata, hf.childAt]

/-- Pruning does not reach a dead node it does not start from. -/
theorem Shape.pruneLoop_dead {path : NodeId → List Token} (fuel : ℕ) {t : RadixTree}
    (h : Shape t path) {n m : NodeId} (hm : t.Dead m) (hne : m ≠ n) :
    (t.pruneEmptyLeavesLoop fuel n).Dead m := by
  induction fuel generalizing t n with
  | zero => exact hm
  | succ fuel ih =>
    unfold RadixTree.pruneEmptyLeavesLoop
    cases hn : t.nodes n with
    | none => exact hm
    | some x =>
      simp only
      split
      · rename_i hcond
        obtain ⟨hroot, _, _, hentries⟩ := hcond
        obtain ⟨p, key, rest, hparent, htok, hchild, _⟩ := h.up hn hroot
        have hleaf (c : Token) : t.childAt n c = none := by
          rw [RadixTree.childAt_of_nodes hn]
          exact (entries_eq_nil_iff _).mp hentries c
        have hpn : p ≠ n := fun heq => lt_irrefl _ (heq ▸ h.child_lt hchild)
        rw [hparent, htok]
        simp only
        -- the parent has a child, so it is not the dead node
        have hmp : m ≠ p := by
          rintro rfl
          rw [hm.2.2.2 key] at hchild
          contradiction
        refine ih (h.cut hleaf hroot hchild) ⟨?_, hm.2.1, ?_, fun c => ?_⟩ hmp
        · obtain ⟨y, hy⟩ := hm.1
          exact ⟨y, by rw [RadixTree.cut_nodes, if_neg hne, if_neg hmp, hy]⟩
        · have hdata : (t.cut n p key).data m = t.data m := by
            unfold RadixTree.data RadixTree.field
            rw [RadixTree.cut_nodes, if_neg hne, if_neg hmp]
          exact hdata ▸ hm.2.2.1
        · rw [RadixTree.cut_childAt key hleaf hpn, hm.2.2.2 c]
          split <;> rfl
      · exact hm

/-- What the structural half of an insertion or extension means for childless nodes and for the node
it returns. -/
structure Grown (t : RadixTree) (tokens : List Token) (t' : RadixTree) (node : NodeId) : Prop where
  fresh : t.NoDead → ¬ t.StopsInLeaf tokens → ∀ m, t'.Dead m → m = node
  stranded : t.StopsInLeaf tokens → ∃ m, m ≠ node ∧ t'.Dead m
  node_iff : ∀ n, t.Alive n → (node = n ↔ n = rootId ∧ tokens = [] ∨ t.EndsIn n tokens)

namespace Shape

variable {t : RadixTree} {path : NodeId → List Token} {tokens : List Token}

/-- A split leaves a dead suffix exactly if the node was childless. -/
theorem splitNode_dead (h : Shape t path) {n : NodeId} {x : RadixNode} (hx : t.nodes n = some x)
    (hroot : n ≠ rootId) {k : ℕ} (hpos : 0 < k) (hk : k < x.tokens.length) :
    (t.NoDead → (∃ key, t.childAt n key ≠ none) → (t.splitNode n k).NoDead) ∧
      ((∀ key, t.childAt n key = none) → (t.splitNode n k).Dead t.nextId) := by
  obtain ⟨key, rest, hdrop⟩ : ∃ key rest, x.tokens.drop k = key :: rest := by
    rw [← List.ne_nil_iff_exists_cons, ne_eq, List.drop_eq_nil_iff]
    omega
  have hchild := h.splitNode_childAt hx hdrop
  have hnodes := h.splitNode_nodes hx hdrop
  have hdata := (Growth.splitNode h hx hroot hpos hk).data
  have hn : n ≠ t.nextId := h.ne_nextId ⟨x, hx⟩
  constructor
  · rintro hnone ⟨c, hc⟩ m ⟨⟨y, hy⟩, hmroot, hunused, hleaf⟩
    by_cases hmn : m = n
    · have hsuffix := hleaf key
      rw [hchild, if_pos hmn, if_pos rfl] at hsuffix
      contradiction
    · by_cases hms : m = t.nextId
      · have hsame := hleaf c
        rw [hchild, if_neg hmn, if_pos hms] at hsame
        exact hc hsame
      · refine hnone m ⟨?_, hmroot, hdata ▸ hunused, fun key => ?_⟩
        · rw [hnodes, if_neg hmn, if_neg hms] at hy
          split at hy
          · obtain ⟨z, hz, _⟩ := Option.map_eq_some_iff.mp hy
            exact ⟨z, hz⟩
          · exact ⟨y, hy⟩
        · have hsame := hleaf key
          rwa [hchild, if_neg hmn, if_neg hms] at hsame
  · intro hleaf
    refine ⟨⟨suffixNode x n k, ?_⟩, ?_, ?_, fun key => ?_⟩
    · rw [hnodes, if_neg hn.symm, if_pos rfl]
    · rintro heq
      have halive := h.root_lt
      rw [← heq] at halive
      exact lt_irrefl _ halive
    · rw [hdata, RadixTree.data_of_none h.nextId_not_alive]
      exact ⟨rfl, rfl⟩
    · rw [hchild, if_neg hn.symm, if_pos rfl, hleaf]

/-- A new leaf is the only node that may be dead after hanging it below a node. -/
theorem addLeaf_dead (h : Shape t path) (found : PrefixMatch) (hn : t.Alive found.node)
    (hkey : ∀ key rest', found.remaining = key :: rest' → t.childAt found.node key = none)
    (tick : ℕ) :
    (∀ m, (t.addLeaf found tick).1.Dead m → m = (t.addLeaf found tick).2.node ∨ t.Dead m) ∧
      (∀ m, t.Dead m → m ≠ found.node →
        (t.addLeaf found tick).1.Dead m ∧ m ≠ (t.addLeaf found tick).2.node) := by
  obtain ⟨path', hgrow, _⟩ := addLeaf_growth h found hn hkey tick
  have hgrow' := hgrow.data
  unfold RadixTree.addLeaf at hgrow' ⊢
  split
  · exact ⟨fun m hm => Or.inr hm, fun m hm hne => ⟨hm, hne⟩⟩
  · rename_i key rest hrem
    simp only [hrem] at hgrow' ⊢
    have hfresh {m : NodeId} (hm : t.Alive m) : m ≠ t.nextId := h.ne_nextId hm
    let leaf : RadixNode :=
      { tokens := found.remaining, parent := some found.node, lastAccessTick := tick }
    have hchild := h.addLeaf_childAt hn (x := leaf) key rfl
    have halive (m : NodeId) (hm : m ≠ t.nextId) :
        ((t.alloc leaf).modify found.node
          fun x => { x with children := x.children.insert key t.nextId }).Alive m ↔
          t.Alive m := by
      rw [RadixTree.alive_modify]
      simp [RadixTree.Alive, hm]
    simp only [hrem, leaf] at hchild halive
    constructor
    · rintro m ⟨hmalive, hroot, hunused, hleaf⟩
      by_cases hm : m = t.nextId
      · exact Or.inl hm
      · refine Or.inr ⟨(halive m hm).mp hmalive, hroot, hgrow' ▸ hunused, fun c => ?_⟩
        have hnone := hleaf c
        rw [hchild, if_neg hm] at hnone
        split at hnone
        · contradiction
        · exact hnone
    · rintro m ⟨hmalive, hroot, hunused, hleaf⟩ hne
      refine ⟨⟨(halive m (hfresh hmalive)).mpr hmalive, hroot, hgrow' ▸ hunused,
        fun c => ?_⟩, hfresh hmalive⟩
      rw [hchild, if_neg fun hand => hne hand.1, if_neg (hfresh hmalive)]
      exact hleaf c

section Walks

variable {t₁ : RadixTree} {k : NodeId} {len : ℕ} {rest : List Token}

/-- A walk that does not stop in a childless node leaves no dead node. -/
theorem walked_noDead (h : Shape t path) (hwalked : Walked t path tokens t₁ k len rest)
    (hnone : t.NoDead) (hstops : ¬ t.StopsInLeaf tokens) : t₁.NoDead := by
  cases hwalked with
  | stop => exact hnone
  | split hx hroot hpos hk hparent hpath htokens hdiffer hkey =>
    refine (h.splitNode_dead hx hroot hpos hk).1 hnone ?_
    by_contra hleaf
    exact hstops ⟨_, fun key => not_not.mp fun hne => hleaf ⟨key, hne⟩,
      (h.split_stopsInside hx hpos hk hpath htokens hkey).2⟩

/-- A walk that stops in a childless node leaves a dead one, which is not the node that it returns.
-/
theorem walked_stranded (h : Shape t path) (hwalked : Walked t path tokens t₁ k len rest)
    (hstops : t.StopsInLeaf tokens) : ∃ m, m ≠ k ∧ t₁.Dead m := by
  obtain ⟨n, hleaf, hstops⟩ := hstops
  have hkn := h.walked_node hstops.1 (h.not_passes_of_stopsInside hstops) hwalked
  cases hwalked with
  | stop halive hpath hkey =>
    -- stopping at the node would mean that its whole path was matched
    exfalso
    refine hstops.2.ne ?_
    rw [← hkn, h.pathTokens_eq halive, ← hpath, matchLen_self_append]
  | split hx hroot hpos hk hparent hpath htokens hdiffer hkey =>
    exact ⟨t.nextId, (h.ne_nextId ⟨_, hx⟩).symm,
      (h.splitNode_dead hx hroot hpos hk).2 (hkn ▸ hleaf)⟩

/-- The path of a node ends in it, unless it is the root. -/
theorem endsIn_of_path (h : Shape t path) {n : NodeId} (hn : t.Alive n) (hpath : path n = tokens) :
    n = rootId ∧ tokens = [] ∨ t.EndsIn n tokens := by
  by_cases hroot : n = rootId
  · exact Or.inl ⟨hroot, by rw [← hpath, hroot, h.rootPath]⟩
  · right
    obtain ⟨y, hy⟩ := hn
    obtain ⟨q, key, run, _, hrun, _, hqpath⟩ := h.up hy hroot
    have hfull := matchLen_self_append (path n) []
    rw [List.append_nil] at hfull
    refine ⟨?_, by rw [h.pathTokens_eq ⟨y, hy⟩, ← hpath, hfull]⟩
    rw [RadixTree.Enters, h.runStart_eq hy hqpath, h.pathTokens_eq ⟨y, hy⟩, ← hpath,
      hfull, hqpath, hrun]
    simp

/-- A walk that leaves nothing over ends in the node that it returns. -/
theorem walked_endsIn (h : Shape t path) (hwalked : Walked t path tokens t₁ k len []) :
    k = rootId ∧ tokens = [] ∨ t.EndsIn k tokens := by
  cases hwalked with
  | stop halive hpath hkey =>
    rw [List.append_nil] at hpath
    exact h.endsIn_of_path halive hpath
  | split hx hroot hpos hk hparent hpath htokens hdiffer hkey =>
    obtain ⟨hmatch, hstops⟩ := h.split_stopsInside hx hpos hk hpath htokens hkey
    refine Or.inr ⟨hstops.1, ?_⟩
    rw [h.pathTokens_eq ⟨_, hx⟩, hmatch, ← htokens, List.append_nil,
      List.length_append, List.length_take, min_eq_left hk.le]

/-- A walk without tokens stays at the root. -/
theorem walked_root (h : Shape t path) (hwalked : Walked t path [] t₁ k len rest) : k = rootId := by
  cases hwalked with
  | stop halive hpath hkey => exact h.eq_root_of_path_nil halive (List.append_eq_nil_iff.mp hpath).1
  | split hx hnroot hpos hk hparent hpath htokens hdiffer hkey =>
    simp only [List.append_eq_nil_iff, List.take_eq_nil_iff] at htokens
    rcases htokens.1.2 with hzero | hnil
    · omega
    · rw [hnil] at hk
      exact absurd hk (Nat.not_lt_zero _)

/-- A walk that leaves something over ends in no node. -/
theorem walked_not_endsIn (h : Shape t path) {key : Token} {rest' : List Token}
    (hwalked : Walked t path tokens t₁ k len (key :: rest')) {n : NodeId} (hn : t.Alive n) :
    ¬ t.EndsIn n tokens := by
  intro hends
  have hkn := h.walked_node hends.1 (h.not_passes_of_endsIn hends) hwalked
  have hfull := hends.2
  rw [h.pathTokens_eq hn] at hfull
  subst hkn
  have hle := matchLen_le_left (path k) tokens
  cases hwalked with
  | stop halive hpath hkey =>
    rw [← hpath, matchLen_self_append] at hfull
    simp at hfull
  | split hx hroot hpos hk hparent hpath htokens hdiffer hkey =>
    obtain ⟨hmatch, _⟩ := h.split_stopsInside hx hpos hk hpath htokens hkey
    rw [hmatch, ← htokens] at hfull
    simp only [List.length_append, List.length_take, min_eq_left hk.le, List.length_cons] at hfull
    omega

/-- The walk and the new leaf together. -/
theorem walked_grown (h : Shape t path) {t₂ : RadixTree}
    (hwalked : Walked t path tokens t₁ k len rest) (hnodes : t₂.nodes = t₁.nodes)
    (hnext : t₂.nextId = t₁.nextId) (tick : ℕ) :
    Grown t tokens (t₂.addLeaf ⟨k, k, len, rest⟩ tick).1
      (t₂.addLeaf ⟨k, k, len, rest⟩ tick).2.node := by
  obtain ⟨path₁, hgrow, hk, hpath₁, _, hkey⟩ := hwalked.growth h
  have hshape₂ : Shape t₂ path₁ := hgrow.shape.congr hnodes hnext
  have hchild₂ (n : NodeId) (key : Token) : t₂.childAt n key = t₁.childAt n key := by
    simp [RadixTree.childAt, hnodes]
  have hdead₂ (m : NodeId) : t₂.Dead m ↔ t₁.Dead m := by
    simp only [RadixTree.Dead, RadixTree.Alive, RadixTree.data, RadixTree.field, hchild₂, hnodes]
  have hk₂ : t₂.Alive k := by
    obtain ⟨y, hy⟩ := hgrow.alive hk
    exact ⟨y, by rw [hnodes, hy]⟩
  have hkey₂ (key : Token) (rest' : List Token) (hrest : rest = key :: rest') :
      t₂.childAt k key = none := by
    rw [hchild₂]
    exact hkey key rest' hrest
  obtain ⟨hnew, hold⟩ := hshape₂.addLeaf_dead ⟨k, k, len, rest⟩ hk₂ hkey₂ tick
  refine ⟨fun hnone hstops m hm => ?_, fun hstops => ?_, fun n hn => ?_⟩
  · exact (hnew m hm).resolve_right fun hdead =>
      h.walked_noDead hwalked hnone hstops m ((hdead₂ m).mp hdead)
  · obtain ⟨m, hne, hdead⟩ := h.walked_stranded hwalked hstops
    obtain ⟨hdead', hnode⟩ := hold m ((hdead₂ m).mpr hdead) hne
    exact ⟨m, hnode, hdead'⟩
  · unfold RadixTree.addLeaf
    cases rest with
    | nil =>
      simp only
      constructor
      · rintro rfl
        exact h.walked_endsIn hwalked
      · rintro (⟨hroot, rfl⟩ | hends)
        · rw [hroot, h.walked_root hwalked]
        · exact h.walked_node hends.1 (h.not_passes_of_endsIn hends) hwalked
    | cons key rest' =>
      simp only
      have hn₁ : n ≠ t₂.nextId := by
        rw [hnext]
        exact hgrow.shape.ne_nextId (hgrow.alive hn)
      refine iff_of_false hn₁.symm ?_
      rintro (⟨_, htokens⟩ | hends)
      · rw [htokens] at hpath₁
        simp at hpath₁
      · exact h.walked_not_endsIn hwalked hn hends

end Walks

/-- An insertion leaves a dead node behind exactly if its prompt stops in the run of a childless
node, and returns a node of the old tree exactly if the prompt ends in its run. -/
theorem insert_branches (h : Shape t path) (prompt : List Token) :
    (t.NoDead → ¬ t.StopsInLeaf prompt → (t.insert prompt).1.NoDead) ∧
      (t.StopsInLeaf prompt → ∃ m, m ≠ (t.insert prompt).2.node ∧ (t.insert prompt).1.Dead m) ∧
      ∀ n, t.Alive n → ((t.insert prompt).2.node = n ↔ n = rootId ∧ prompt = [] ∨
        t.EndsIn n prompt) := by
  have hadvanced : Shape t.advance path := h.congr rfl rfl
  obtain ⟨t₁, k, len, rest, hfind, hwalked⟩ := hadvanced.findPrefix_walked prompt
  have hgrown := hadvanced.walked_grown hwalked (show t₁.nodes = t₁.nodes from rfl) rfl t₁.tick
  obtain ⟨path₁, hgrow, hk, _, _, hkey⟩ := hwalked.growth hadvanced
  obtain ⟨path₂, _, halive, _⟩ :=
    addLeaf_growth hgrow.shape ⟨k, k, len, rest⟩ (hgrow.alive hk) hkey t₁.tick
  simp only [RadixTree.insert, hfind]
  generalize t₁.addLeaf ⟨k, k, len, rest⟩ t₁.tick = leaf at hgrown halive ⊢
  obtain ⟨t₂, found⟩ := leaf
  simp only at hgrown halive ⊢
  have hlocal : RadixTree.Local fun x =>
      { x with lastAccessTick := t₂.tick, refCount := x.refCount + 1 } :=
    fun _ => ⟨rfl, rfl, rfl⟩
  refine ⟨fun hnone hstops m hm => ?_, fun hstops => ?_, fun n hn => ?_⟩
  · by_cases hmn : m = found.node
    · subst hmn
      obtain ⟨_, _, hunused, _⟩ := hm
      rw [RadixTree.data_modify (g := NodeData.hold) (fun _ => rfl) halive,
        Function.update_self] at hunused
      exact Nat.succ_ne_zero _ hunused.1
    · rw [RadixTree.dead_modify hlocal hmn] at hm
      exact hmn (hgrown.fresh hnone (RadixTree.stopsInLeaf_advance.not.mpr hstops) m hm)
  · obtain ⟨m, hne, hdead⟩ := hgrown.stranded (RadixTree.stopsInLeaf_advance.mpr hstops)
    exact ⟨m, hne, (RadixTree.dead_modify hlocal hne).mpr hdead⟩
  · rw [← RadixTree.endsIn_advance]
    exact hgrown.node_iff n hn

/-- The move of a sequence to another node leaves the same nodes dead, but at its ends. -/
theorem settleSeqId_dead (_ : Shape t path) {n target m : NodeId} (s : SeqId) (len : ℕ) (hn : m ≠ n)
    (hm : m ≠ target) :
    (t.settleSeqId n target s len).1.Dead m ↔ t.Dead m := by
  unfold RadixTree.settleSeqId
  split
  · exact RadixTree.dead_modify (fun _ => ⟨rfl, rfl, rfl⟩) hn
  · refine Iff.trans (RadixTree.dead_modify ?_ hm) (RadixTree.dead_modify (dropSeqId_local s) hn)
    exact fun _ => ⟨rfl, rfl, rfl⟩

/-- An extension from a referenced node leaves a dead node behind exactly if its tokens stop in the
run of a childless node. -/
theorem extendSeqId_branches (h : Shape t path) {n : NodeId} {s : SeqId}
    (hs : s ∈ (t.data n).seqIds) (hready : s ∈ (t.data n).readySeqIds) (htokens : tokens ≠ [])
    (hrefs : 0 < (t.data n).refCount) :
    (t.NoDead → ¬ t.StopsInLeaf tokens → (t.extendSeqId n s tokens tokens.length).1.NoDead) ∧
      (t.StopsInLeaf tokens → ¬ (t.extendSeqId n s tokens tokens.length).1.NoDead) := by
  obtain ⟨t₁, t₂, k, len, rest, hwalked, hnodes, hnext, hextended⟩ :=
    h.extendSeqId_walked hs hready htokens
  obtain ⟨path', hgrow, halive, _⟩ := h.walked_addLeaf_growth hwalked hnodes hnext t₂.tick
  have hgrown := h.walked_grown hwalked hnodes hnext t₂.tick
  rw [hextended]
  generalize t₂.addLeaf ⟨k, k, len, rest⟩ t₂.tick = leaf at hgrow halive hgrown ⊢
  rw [← hgrow.data] at hs hready hrefs
  obtain ⟨_, _, hdata⟩ := hgrow.shape.settleSeqId_spec hs hready halive tokens.length
  -- the referenced node and the one that has the sequence are in use
  have hend : ¬ (leaf.1.settleSeqId n leaf.2.node s tokens.length).1.Dead leaf.2.node := by
    rintro ⟨_, _, hunused, _⟩
    rw [hdata, Function.update_self] at hunused
    exact OrderedSet.eq_empty_iff.mp hunused.2 s (OrderedSet.mem_insert.mpr (Or.inl rfl))
  have hbegin : ¬ (leaf.1.settleSeqId n leaf.2.node s tokens.length).1.Dead n := by
    rintro ⟨_, _, hunused, _⟩
    rw [hdata, Function.update_apply] at hunused
    split at hunused
    · exact OrderedSet.eq_empty_iff.mp hunused.2 s (OrderedSet.mem_insert.mpr (Or.inl rfl))
    · rw [Function.update_self] at hunused
      exact hrefs.ne' hunused.1
  refine ⟨fun hnone hstops m hm => ?_, fun hstops hnone => ?_⟩
  · have hmn : m ≠ n := fun heq => hbegin (heq ▸ hm)
    have hmt : m ≠ leaf.2.node := fun heq => hend (heq ▸ hm)
    exact hmt (hgrown.fresh hnone hstops m ((hgrow.shape.settleSeqId_dead s _ hmn hmt).mp hm))
  · obtain ⟨m, hmt, hdead⟩ := hgrown.stranded hstops
    have hmn : m ≠ n := by
      rintro rfl
      exact hrefs.ne' hdead.2.2.1.1
    exact hnone m ((hgrow.shape.settleSeqId_dead s _ hmn hmt).mpr hdead)

/-- An eviction keeps what was dead before. -/
theorem evict_dead (h : Shape t path) {n m : NodeId} (hn : t.Evictable n) (hm : t.Dead m) :
    (t.evict n).1.Dead m := by
  have hne : m ≠ n := by
    rintro rfl
    exact hn.2.2 hm.2.2.1.2
  unfold RadixTree.evict
  split
  · exact hm
  · split
    · exact hm
    · have hlocal : RadixTree.Local fun x =>
          { x with seqIds := ∅, readySeqIds := ∅, canonicalLen := 0 } :=
        fun _ => ⟨rfl, rfl, rfl⟩
      exact (h.modify n hlocal).pruneLoop_dead _ ((RadixTree.dead_modify hlocal hne).mpr hm) hne

/-- A release keeps what was dead elsewhere. -/
theorem release_dead (h : Shape t path) {n m : NodeId} (hne : m ≠ n) (hm : t.Dead m) :
    (t.release n).Dead m := by
  unfold RadixTree.release
  split
  · exact hm
  · split
    · have hlocal : RadixTree.Local fun x => { x with refCount := x.refCount - 1 } :=
        fun _ => ⟨rfl, rfl, rfl⟩
      exact (h.modify n hlocal).pruneLoop_dead _ ((RadixTree.dead_modify hlocal hne).mpr hm) hne
    · exact hm

/-- Registering at a living node leaves nothing dead there and changes nothing elsewhere. -/
theorem registerSeqId_dead (_ : Shape t path) {n : NodeId} (hn : t.Alive n) (s : SeqId) (len : ℕ)
    (m : NodeId) :
    (t.registerSeqId n s len).Dead m ↔ m ≠ n ∧ t.Dead m := by
  have hlocal : RadixTree.Local fun x =>
      { x with seqIds := x.seqIds.insert s
               canonicalLen := if x.canonicalLen = 0 then len else x.canonicalLen } :=
                 fun _ => ⟨rfl, rfl, rfl⟩
  by_cases hm : m = n
  · subst hm
    refine iff_of_false ?_ fun hand => hand.1 rfl
    rintro ⟨_, _, hunused, _⟩
    have hdata : (t.registerSeqId m s len).data m = (t.data m).register s len := by
      have hmodify : (t.registerSeqId m s len).data = _ :=
        RadixTree.data_modify (g := NodeData.register s len) (fun _ => rfl) hn
      rw [hmodify, Function.update_self]
    rw [hdata] at hunused
    exact OrderedSet.eq_empty_iff.mp hunused.2 s (OrderedSet.mem_insert.mpr (Or.inl rfl))
  · rw [and_iff_right hm]
    exact RadixTree.dead_modify hlocal hm

end Shape

end RadixForge
