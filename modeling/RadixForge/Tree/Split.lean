import RadixForge.Tree.Registry
import RadixForge.Tree.Shape

/-!
# Splitting a node and adding a leaf

The two structural changes an insertion makes. Both keep every living node and its data
(references, sequences, canonical length); a split shortens one path and gives the old one to
the new suffix node, a new leaf extends the path of its parent.
-/

namespace RadixForge

open Library

/-- A map with one entry. -/
theorem lookup_singleton (key c : Token) (n : NodeId) :
    (AList.singleton key n : AList fun _ : Token => NodeId).lookup c =
      if c = key then some n else none := by
  rw [← AList.insert_empty]
  by_cases hc : c = key
  · rw [hc, AList.lookup_insert, if_pos rfl]
  · rw [AList.lookup_insert_ne hc, AList.lookup_empty, if_neg hc]

namespace RadixTree

/-- The listed nodes get the new parent, and nothing else changes. -/
theorem reparent_nodes (t : RadixTree) (children : List NodeId) (parent m : NodeId) :
    (t.reparent children parent).nodes m =
      if m ∈ children then (t.nodes m).map fun x => { x with parent := some parent }
        else t.nodes m := by
  unfold reparent
  induction children generalizing t with
  | nil => simp
  | cons c rest ih =>
    rw [List.foldl_cons, ih, modify_nodes]
    by_cases hm : m = c <;> by_cases hrest : m ∈ rest <;> cases t.nodes m <;> simp [hm, hrest]

/-- Giving nodes a new parent allocates nothing. -/
theorem reparent_nextId (t : RadixTree) (children : List NodeId) (parent : NodeId) :
    (t.reparent children parent).nextId = t.nextId := by
  unfold reparent
  induction children generalizing t with
  | nil => rfl
  | cons c rest ih => rw [List.foldl_cons, ih, modify_nextId]

end RadixTree

/-- The node created by a split. -/
def suffixNode (x : RadixNode) (node : NodeId) (splitPos : ℕ) : RadixNode :=
  { tokens := x.tokens.drop splitPos, lastAccessTick := x.lastAccessTick, children := x.children,
    parent := some node }

/-- The node kept by a split. -/
def prefixNode (x : RadixNode) (splitPos : ℕ) (suffixKey : Token) (suffix : NodeId) : RadixNode :=
  { x with tokens := x.tokens.take splitPos, children := (∅ : AList fun _ : Token =>
    NodeId).insert suffixKey suffix }

/-- Paths after a split: the suffix inherits the old path, the node keeps its first part. -/
def splitPath (t : RadixTree) (path : NodeId → List Token) (node : NodeId) (dropped : ℕ) :
    NodeId → List Token :=
  fun m => if m = t.nextId then path node
    else if m = node then (path node).take ((path node).length - dropped) else path m

namespace Shape

variable {t : RadixTree} {path : NodeId → List Token}

/-- The node that is split keeps the part of its path up to the cut. -/
theorem splitPath_self (h : Shape t path) {n p : NodeId} {x : RadixNode} (hx : t.nodes n = some x)
    {k : ℕ} (hk : k < x.tokens.length) (hpath : path n = path p ++ x.tokens) :
    splitPath t path n (x.tokens.length - k) n = path p ++ x.tokens.take k := by
  have hn : n ≠ t.nextId := h.ne_nextId ⟨x, hx⟩
  simp only [splitPath, if_neg hn, if_true, hpath, List.length_append]
  rw [List.take_append, List.take_of_length_le (by omega)]
  congr 2
  omega

/-- The child identities of a node are those that a token leads to. -/
theorem mem_childIds_iff (_ : Shape t path) {n m : NodeId} {x : RadixNode}
    (hx : t.nodes n = some x) :
    m ∈ x.childIds ↔ ∃ key, t.childAt n key = some m := by
  rw [RadixNode.mem_childIds]
  simp only [RadixTree.childAt_of_nodes hx]

/-- What a split stores at each identity. -/
theorem splitNode_nodes (h : Shape t path) {n : NodeId} {x : RadixNode} (hx : t.nodes n = some x)
    {k : ℕ} {key : Token} {rest : List Token} (hdrop : x.tokens.drop k = key :: rest) (m : NodeId) :
    (t.splitNode n k).nodes m =
      if m = n then some (prefixNode x k key t.nextId)
      else if m = t.nextId then some (suffixNode x n k)
      else if m ∈ x.childIds then (t.nodes m).map fun y => { y with parent := some t.nextId }
      else t.nodes m := by
  have hn : n ≠ t.nextId := h.ne_nextId ⟨x, hx⟩
  have hself : n ∉ x.childIds := fun hmem => by
    obtain ⟨key', hchild⟩ := (h.mem_childIds_iff hx).mp hmem
    exact lt_irrefl _ (h.child_lt hchild)
  have hfresh : t.nextId ∉ x.childIds := fun hmem => by
    obtain ⟨key', hchild⟩ := (h.mem_childIds_iff hx).mp hmem
    exact h.ne_nextId (h.child_alive hchild) rfl
  simp only [RadixTree.splitNode, hx, hdrop, RadixTree.modify_nodes, RadixTree.reparent_nodes,
    RadixTree.alloc_nodes]
  by_cases hmn : m = n
  · subst hmn
    simp [hn, hself, hx, prefixNode]
  · by_cases hms : m = t.nextId
    · subst hms
      simp [hmn, hfresh, suffixNode, hdrop]
    · simp [hmn, hms]

/-- Child lookups change only at the split node and at the suffix. -/
theorem splitNode_childAt (h : Shape t path) {n : NodeId} {x : RadixNode} (hx : t.nodes n = some x)
    {k : ℕ} {key : Token} {rest : List Token} (hdrop : x.tokens.drop k = key :: rest) (q : NodeId)
    (c : Token) :
    (t.splitNode n k).childAt q c =
      if q = n then (if c = key then some t.nextId else none)
      else if q = t.nextId then t.childAt n c else t.childAt q c := by
  unfold RadixTree.childAt
  rw [h.splitNode_nodes hx hdrop]
  by_cases hqn : q = n
  · subst hqn
    simp [prefixNode, lookup_singleton]
  · by_cases hqs : q = t.nextId
    · subst hqs
      simp [hqn, suffixNode, hx]
    · simp only [hqn, hqs, if_false]
      split
      · cases t.nodes q <;> rfl
      · rfl

/-- A node hangs below its parent under the first token of its run, and its path goes through it. -/
def Hangs (t : RadixTree) (path : NodeId → List Token) (m : NodeId) (y : RadixNode) : Prop :=
  ∃ p key rest, y.parent = some p ∧ y.tokens = key :: rest ∧ t.childAt p key = some m ∧
    path m = path p ++ y.tokens

/-- A child is not its parent. -/
theorem ne_of_childAt (h : Shape t path) {p m : NodeId} {c : Token} (hc : t.childAt p c = some m) :
    m ≠ p := by
  rintro rfl
  exact lt_irrefl _ (h.child_lt hc)

/-- Paths of the other nodes stay as they are. -/
theorem splitPath_of_ne {n m : NodeId} (hn : m ≠ n) (hm : m ≠ t.nextId) (dropped : ℕ) :
    splitPath t path n dropped m = path m := by
  rw [splitPath, if_neg hm, if_neg hn]

/-- The suffix has the path that the node had. -/
theorem splitPath_nextId (n : NodeId) (dropped : ℕ) :
    splitPath t path n dropped t.nextId = path n := by
  rw [splitPath, if_pos rfl]

section Split

variable {n : NodeId} {x : RadixNode} {k : ℕ} {key : Token} {rest : List Token}

/-- The prefix hangs where the node hung. -/
theorem splitNode_hangs_self (h : Shape t path) (hx : t.nodes n = some x) (hroot : n ≠ rootId)
    (hpos : 0 < k) (hk : k < x.tokens.length) (hdrop : x.tokens.drop k = key :: rest) :
    Hangs (t.splitNode n k) (splitPath t path n (x.tokens.length - k))
      n (prefixNode x k key t.nextId) := by
  obtain ⟨p, fkey, frest, hp, hxtok, hpchild, hpath⟩ := h.up hx hroot
  have hpn : p ≠ n := (h.ne_of_childAt hpchild).symm
  have hpnext : p ≠ t.nextId := h.ne_nextId (RadixTree.alive_of_childAt hpchild)
  refine ⟨p, fkey, frest.take (k - 1), hp, ?_, ?_, ?_⟩
  · simp only [prefixNode, hxtok]
    rw [← List.take_succ_cons, Nat.sub_add_cancel hpos]
  · rw [h.splitNode_childAt hx hdrop, if_neg hpn, if_neg hpnext, hpchild]
  · rw [h.splitPath_self hx hk hpath, splitPath_of_ne hpn hpnext, prefixNode]

/-- The suffix hangs below the prefix. -/
theorem splitNode_hangs_suffix (h : Shape t path) (hx : t.nodes n = some x) (hroot : n ≠ rootId)
    (hk : k < x.tokens.length) (hdrop : x.tokens.drop k = key :: rest) :
    Hangs (t.splitNode n k) (splitPath t path n (x.tokens.length - k)) t.nextId
      (suffixNode x n k) := by
  obtain ⟨p, fkey, frest, hp, hxtok, hpchild, hpath⟩ := h.up hx hroot
  refine ⟨n, key, rest, rfl, hdrop, ?_, ?_⟩
  · rw [h.splitNode_childAt hx hdrop, if_pos rfl, if_pos rfl]
  · rw [splitPath_nextId, h.splitPath_self hx hk hpath, hpath, suffixNode, List.append_assoc,
      List.take_append_drop]

/-- A child of the node hangs below the suffix. -/
theorem splitNode_hangs_child (h : Shape t path) (hx : t.nodes n = some x)
    (hdrop : x.tokens.drop k = key :: rest) {m : NodeId} {y : RadixNode} (hy : t.nodes m = some y)
    (hmem : m ∈ x.childIds) :
    Hangs (t.splitNode n k) (splitPath t path n (x.tokens.length - k)) m
      { y with parent := some t.nextId } := by
  have hn : n ≠ t.nextId := h.ne_nextId ⟨x, hx⟩
  obtain ⟨c, hc⟩ := (h.mem_childIds_iff hx).mp hmem
  obtain ⟨y', yrest, hy', _, hytok⟩ := h.down hc
  rw [hy] at hy'
  cases hy'
  refine ⟨t.nextId, c, yrest, rfl, hytok, ?_, ?_⟩
  · rw [h.splitNode_childAt hx hdrop, if_neg hn.symm, if_pos rfl, hc]
  · rw [splitPath_of_ne (h.ne_of_childAt hc) (h.ne_nextId ⟨y, hy⟩), splitPath_nextId,
      h.child_path hc hy]

/-- Every other node hangs where it hung. -/
theorem splitNode_hangs_other (h : Shape t path) (hx : t.nodes n = some x)
    (hdrop : x.tokens.drop k = key :: rest) {m : NodeId} {y : RadixNode} (hy : t.nodes m = some y)
    (hm : m ≠ rootId) (hmn : m ≠ n) (hmem : m ∉ x.childIds) :
    Hangs (t.splitNode n k) (splitPath t path n (x.tokens.length - k)) m y := by
  obtain ⟨q, c, crest, hq, htok, hqc, hqpath⟩ := h.up hy hm
  have hqn : q ≠ n := fun heq => hmem ((h.mem_childIds_iff hx).mpr ⟨c, heq ▸ hqc⟩)
  have hqs : q ≠ t.nextId := h.ne_nextId (RadixTree.alive_of_childAt hqc)
  refine ⟨q, c, crest, hq, htok, ?_, ?_⟩
  · rw [h.splitNode_childAt hx hdrop, if_neg hqn, if_neg hqs, hqc]
  · rw [splitPath_of_ne hmn (h.ne_nextId ⟨y, hy⟩), splitPath_of_ne hqn hqs, hqpath]

/-- After a split every node below the root hangs below its parent. -/
theorem splitNode_up (h : Shape t path) (hx : t.nodes n = some x) (hroot : n ≠ rootId)
    (hpos : 0 < k) (hk : k < x.tokens.length) (hdrop : x.tokens.drop k = key :: rest) {m : NodeId}
    {y : RadixNode} (hy : (t.splitNode n k).nodes m = some y) (hm : m ≠ rootId) :
    Hangs (t.splitNode n k) (splitPath t path n (x.tokens.length - k)) m y := by
  rw [h.splitNode_nodes hx hdrop] at hy
  split at hy
  · rename_i heq
    subst heq
    obtain rfl := Option.some.inj hy
    exact h.splitNode_hangs_self hx hroot hpos hk hdrop
  · rename_i hmn
    split at hy
    · rename_i heq
      subst heq
      obtain rfl := Option.some.inj hy
      exact h.splitNode_hangs_suffix hx hroot hk hdrop
    · split at hy
      · rename_i hmem
        obtain ⟨z, hz, rfl⟩ := Option.map_eq_some_iff.mp hy
        exact h.splitNode_hangs_child hx hdrop hz hmem
      · rename_i hmem
        exact h.splitNode_hangs_other hx hdrop hy hm hmn hmem

/-- The suffix's children are the nodes that the node had as children, with the suffix as their
parent. -/
theorem splitNode_down_suffix (h : Shape t path) (hx : t.nodes n = some x)
    (hdrop : x.tokens.drop k = key :: rest) {m : NodeId} {c : Token} (hc : t.childAt n c = some m) :
    ∃ y yrest, (t.splitNode n k).nodes m = some y ∧ y.parent = some t.nextId ∧
      y.tokens = c :: yrest := by
  obtain ⟨y, yrest, hy, _, hytok⟩ := h.down hc
  refine ⟨{ y with parent := some t.nextId }, yrest, ?_, rfl, hytok⟩
  rw [h.splitNode_nodes hx hdrop, if_neg (h.ne_of_childAt hc), if_neg (h.ne_nextId ⟨y, hy⟩),
    if_pos ((h.mem_childIds_iff hx).mpr ⟨c, hc⟩), hy]
  rfl

/-- The children of every other node stay, with the prefix in the place of the node. -/
theorem splitNode_down_other (h : Shape t path) (hx : t.nodes n = some x) (hpos : 0 < k)
    (hdrop : x.tokens.drop k = key :: rest) {q m : NodeId} {c : Token} (hq : q ≠ n)
    (hc : t.childAt q c = some m) :
    ∃ y yrest, (t.splitNode n k).nodes m = some y ∧ y.parent = some q ∧ y.tokens = c :: yrest := by
  obtain ⟨y, yrest, hy, hyp, hytok⟩ := h.down hc
  by_cases hmn : m = n
  · subst hmn
    rw [hx] at hy
    cases hy
    refine ⟨prefixNode x k key t.nextId, yrest.take (k - 1), ?_, hyp, ?_⟩
    · rw [h.splitNode_nodes hx hdrop, if_pos rfl]
    · simp only [prefixNode, hytok]
      rw [← List.take_succ_cons, Nat.sub_add_cancel hpos]
  · have hmem : m ∉ x.childIds := fun hmem => by
      obtain ⟨c', hc'⟩ := (h.mem_childIds_iff hx).mp hmem
      obtain ⟨y', _, hy', hyp', _⟩ := h.down hc'
      rw [hy] at hy'
      cases hy'
      rw [hyp] at hyp'
      exact hq (Option.some.inj hyp')
    refine ⟨y, yrest, ?_, hyp, hytok⟩
    rw [h.splitNode_nodes hx hdrop, if_neg hmn, if_neg (h.ne_nextId ⟨y, hy⟩), if_neg hmem, hy]

/-- After a split every child is stored under its first token, with its parent. -/
theorem splitNode_down (h : Shape t path) (hx : t.nodes n = some x) (hpos : 0 < k)
    (hdrop : x.tokens.drop k = key :: rest) {q m : NodeId} {c : Token}
    (hc : (t.splitNode n k).childAt q c = some m) :
    ∃ y yrest, (t.splitNode n k).nodes m = some y ∧ y.parent = some q ∧ y.tokens = c :: yrest := by
  rw [h.splitNode_childAt hx hdrop] at hc
  split at hc
  · rename_i heq
    obtain ⟨rfl, hnext⟩ := Option.ite_none_right_eq_some.mp hc
    obtain rfl := Option.some.inj hnext
    refine ⟨suffixNode x n k, rest, ?_, heq ▸ rfl, hdrop⟩
    rw [h.splitNode_nodes hx hdrop, if_neg (h.ne_nextId ⟨x, hx⟩).symm, if_pos rfl]
  · rename_i hq
    split at hc
    · rename_i heq
      exact heq ▸ h.splitNode_down_suffix hx hdrop hc
    · exact h.splitNode_down_other hx hpos hdrop hq hc

/-- A split allocates one node. -/
theorem splitNode_fresh (h : Shape t path) (hx : t.nodes n = some x)
    (hdrop : x.tokens.drop k = key :: rest) {m : NodeId} {y : RadixNode}
    (hy : (t.splitNode n k).nodes m = some y) : m < (t.splitNode n k).nextId := by
  have hnext : (t.splitNode n k).nextId = t.nextId + 1 := by
    simp [RadixTree.splitNode, hx, hdrop, RadixTree.reparent_nextId]
  rw [hnext]
  rw [h.splitNode_nodes hx hdrop] at hy
  split at hy
  · rename_i heq
    exact heq ▸ Nat.lt_succ_of_lt (h.fresh hx)
  · split at hy
    · rename_i heq
      exact heq ▸ Nat.lt_succ_self _
    · split at hy
      · obtain ⟨z, hz, _⟩ := Option.map_eq_some_iff.mp hy
        exact Nat.lt_succ_of_lt (h.fresh hz)
      · exact Nat.lt_succ_of_lt (h.fresh hy)

/-- A split below a nonempty proper prefix of a node's tokens keeps the shape. -/
theorem splitNode (h : Shape t path) (hx : t.nodes n = some x) (hroot : n ≠ rootId) (hpos : 0 < k)
    (hk : k < x.tokens.length) :
    Shape (t.splitNode n k) (splitPath t path n (x.tokens.length - k)) := by
  obtain ⟨key, rest, hdrop⟩ : ∃ key rest, x.tokens.drop k = key :: rest := by
    rw [← List.ne_nil_iff_exists_cons, ne_eq, List.drop_eq_nil_iff]
    omega
  have hrn : rootId ≠ t.nextId := h.ne_nextId h.root_alive
  have hchildroot : rootId ∉ x.childIds := fun hmem => by
    obtain ⟨_, hc⟩ := (h.mem_childIds_iff hx).mp hmem
    exact h.child_ne_root hc rfl
  refine ⟨?_, ?_, h.splitNode_up hx hroot hpos hk hdrop, h.splitNode_down hx hpos hdrop,
    h.splitNode_fresh hx hdrop⟩
  · obtain ⟨r, hr, htok, hparent⟩ := h.root
    refine ⟨r, ?_, htok, hparent⟩
    rw [h.splitNode_nodes hx hdrop, if_neg hroot.symm, if_neg hrn, if_neg hchildroot, hr]
  · rw [splitPath_of_ne hroot.symm hrn, h.rootPath]

end Split

/-- Child lookups after hanging a new leaf below a node. -/
theorem addLeaf_childAt (h : Shape t path) {n : NodeId} (hn : t.Alive n) {x : RadixNode}
    (key : Token) (hleaf : x.children = ∅) (q : NodeId) (c : Token) :
    ((t.alloc x).modify n fun y => { y with children := y.children.insert key t.nextId }).childAt
      q c =
      if q = n ∧ c = key then some t.nextId else if q = t.nextId then none else t.childAt q c := by
  obtain ⟨y, hy⟩ := hn
  have hne : n ≠ t.nextId := h.ne_nextId ⟨y, hy⟩
  simp only [RadixTree.childAt, RadixTree.modify_nodes, RadixTree.alloc_nodes]
  by_cases hq : q = n
  · subst hq
    by_cases hc : c = key
    · subst hc
      simp [hne, hy, AList.lookup_insert]
    · simp [hne, hy, hc, AList.lookup_insert_ne hc]
  · by_cases hqs : q = t.nextId
    · subst hqs; simp [hq, hleaf]
    · simp [hq, hqs]

/-- Hanging a new leaf keeps the nodes, with their parents and tokens. -/
theorem addLeaf_kept (h : Shape t path) (n : NodeId) (x : RadixNode) (key : Token) {m : NodeId}
    {w : RadixNode} (hw : t.nodes m = some w) :
    ∃ z, ((t.alloc x).modify n fun y =>
        { y with children := y.children.insert key t.nextId }).nodes m = some z ∧
      z.parent = w.parent ∧ z.tokens = w.tokens := by
  have hms : m ≠ t.nextId := h.ne_nextId ⟨w, hw⟩
  by_cases hmn : m = n
  · subst hmn
    exact ⟨{ w with children := w.children.insert key t.nextId }, by simp [hms, hw], rfl, rfl⟩
  · exact ⟨w, by simp [hmn, hms, hw], rfl, rfl⟩

/-- After hanging a new leaf there are this leaf and the nodes of before. -/
theorem addLeaf_stored (h : Shape t path) {n : NodeId} (hn : t.Alive n) {x : RadixNode}
    {key : Token} {m : NodeId} {z : RadixNode}
    (hz : ((t.alloc x).modify n fun y =>
      { y with children := y.children.insert key t.nextId }).nodes m = some z) :
    m = t.nextId ∧ z = x ∨ m ≠ t.nextId ∧
      ∃ w, t.nodes m = some w ∧ w.parent = z.parent ∧ w.tokens = z.tokens := by
  have hne : n ≠ t.nextId := h.ne_nextId hn
  obtain ⟨y, hy⟩ := hn
  simp only [RadixTree.modify_nodes, RadixTree.alloc_nodes] at hz
  by_cases hms : m = t.nextId
  · subst hms
    simp only [if_neg hne.symm, if_true, Option.some.injEq] at hz
    exact .inl ⟨rfl, hz.symm⟩
  · refine .inr ⟨hms, ?_⟩
    by_cases hmn : m = n
    · subst hmn
      simp only [if_true, if_neg hms, hy, Option.map_some, Option.some.injEq] at hz
      exact ⟨y, hy, by rw [← hz]; exact ⟨rfl, rfl⟩⟩
    · simp only [if_neg hmn, if_neg hms] at hz
      exact ⟨z, hz, rfl, rfl⟩

/-- Hanging a new leaf below a node without a child under its key keeps the shape. -/
theorem addLeaf (h : Shape t path) {n : NodeId} (hn : t.Alive n) {x : RadixNode} {key : Token}
    {rest : List Token} (hkey : t.childAt n key = none) (hparent : x.parent = some n)
    (htok : x.tokens = key :: rest) (hleaf : x.children = ∅) :
    Shape ((t.alloc x).modify n fun y => { y with children := y.children.insert key t.nextId })
      (fun m => if m = t.nextId then path n ++ x.tokens else path m) := by
  have hne : n ≠ t.nextId := h.ne_nextId hn
  have hchild := h.addLeaf_childAt hn key hleaf
  refine ⟨?_, ?_, ?_, ?_, ?_⟩
  · obtain ⟨r, hr, hrtok, hrparent⟩ := h.root
    obtain ⟨z, hz, hzparent, hztok⟩ := h.addLeaf_kept n x key hr
    exact ⟨z, hz, hztok.trans hrtok, hzparent.trans hrparent⟩
  · obtain ⟨r, hr, _⟩ := h.root
    rw [if_neg (h.ne_nextId ⟨r, hr⟩), h.rootPath]
  · intro m z hz hm
    rcases h.addLeaf_stored hn hz with ⟨rfl, rfl⟩ | ⟨hms, w, hw, hwparent, hwtok⟩
    · exact ⟨n, key, rest, hparent, htok, by rw [hchild]; simp, by simp [hne]⟩
    · obtain ⟨p, c, crest, hp, hctok, hpc, hppath⟩ := h.up hw hm
      have hps : p ≠ t.nextId := h.ne_nextId (RadixTree.alive_of_childAt hpc)
      refine ⟨p, c, crest, by rw [← hwparent, hp], by rw [← hwtok, hctok], ?_, ?_⟩
      · rw [hchild, if_neg, if_neg hps, hpc]
        rintro ⟨rfl, rfl⟩
        rw [hkey] at hpc
        contradiction
      · rw [if_neg hms, if_neg hps, ← hwtok, hppath]
  · intro q c m hqc
    rw [hchild] at hqc
    split at hqc
    · rename_i heq
      obtain ⟨rfl, rfl⟩ := heq
      cases hqc
      exact ⟨x, rest, by simp [hne.symm], hparent, htok⟩
    · split at hqc
      · contradiction
      · obtain ⟨w, wrest, hw, hwparent, hwtok⟩ := h.down hqc
        obtain ⟨z, hz, hzparent, hztok⟩ := h.addLeaf_kept n x key hw
        exact ⟨z, wrest, hz, hzparent.trans hwparent, hztok.trans hwtok⟩
  · intro m z hz
    simp only [RadixTree.modify_nextId, RadixTree.alloc_nextId]
    rcases h.addLeaf_stored hn hz with ⟨rfl, _⟩ | ⟨_, w, hw, _, _⟩
    · exact Nat.lt_succ_self _
    · exact Nat.lt_succ_of_lt (h.fresh hw)

end Shape

end RadixForge
