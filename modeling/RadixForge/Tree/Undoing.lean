import RadixForge.Tree.Inspecting

/-!
# An insertion that is given back

The release after an insertion removes the new leaf again. A split stays, and a dead node where the
walk ended is removed with it. The inspections of other tokens notice a split of a node that owns
sequences, and the loss of a node; otherwise they report what they reported before.
-/

namespace RadixForge

open Library

namespace RadixTree

/-- Insert a prompt and give its reference back. -/
def withdraw (t : RadixTree) (prompt : List Token) : RadixTree :=
  (t.insert prompt).1.release (t.insert prompt).2.node

/-- Pruning adds no node. -/
theorem pruneLoop_alive (fuel : ℕ) {t : RadixTree} {n m : NodeId}
    (hm : (t.pruneEmptyLeavesLoop fuel n).Alive m) :
    t.Alive m := by
  induction fuel generalizing t n with
  | zero => exact hm
  | succ fuel ih =>
    unfold pruneEmptyLeavesLoop at hm
    split at hm
    · exact hm
    · split at hm
      · split at hm
        · rename_i p key _ _ _
          obtain ⟨x, hx⟩ := ih hm
          change (t.cut n p key).nodes m = some x at hx
          rw [cut_nodes] at hx
          split at hx
          · contradiction
          · split at hx
            · obtain ⟨y, hy, _⟩ := Option.map_eq_some_iff.mp hx
              exact ⟨y, hy⟩
            · exact ⟨x, hx⟩
        · exact hm
      · exact hm

end RadixTree

namespace Shape

variable {t : RadixTree} {path : NodeId → List Token}

/-- The shape mentions the paths of living nodes only. -/
theorem congr_path (h : Shape t path) {path' : NodeId → List Token}
    (hpath : ∀ n, t.Alive n → path' n = path n) :
    Shape t path' := by
  refine ⟨h.root, (hpath _ h.root_alive).trans h.rootPath, fun hx hn => ?_, h.down, h.fresh⟩
  obtain ⟨p, key, rest, hp, htok, hchild, hpx⟩ := h.up hx hn
  exact ⟨p, key, rest, hp, htok, hchild,
    by rw [hpath _ ⟨_, hx⟩, hpath _ (RadixTree.alive_of_childAt hchild), hpx]⟩

/-- Pruning removes a dead node and goes on at its parent. -/
theorem pruneLoop_dead_step (h : Shape t path) {n : NodeId} (hn : t.Dead n) :
    ∃ p key, t.childAt p key = some n ∧
      ∀ fuel, t.pruneEmptyLeavesLoop (fuel + 1) n =
        (t.cut n p key).pruneEmptyLeavesLoop fuel p := by
  obtain ⟨⟨x, hx⟩, hroot, hunused, hleaf⟩ := hn
  obtain ⟨p, key, rest, hparent, htok, hchild, _⟩ := h.up hx hroot
  rw [RadixTree.data_of_nodes hx] at hunused
  have hentries : x.children.entries = [] :=
    (entries_eq_nil_iff _).mpr fun c => by rw [← RadixTree.childAt_of_nodes hx, hleaf]
  refine ⟨p, key, hchild, fun fuel => ?_⟩
  rw [RadixTree.pruneEmptyLeavesLoop]
  simp only [hx]
  rw [if_pos ⟨hroot, hunused.1, hunused.2, hentries⟩, hparent, htok]
  rfl

/-- A dead node does not survive pruning from it. -/
theorem pruneLoop_removes (h : Shape t path) {n : NodeId} (hn : t.Dead n) (fuel : ℕ) :
    ¬ (t.pruneEmptyLeavesLoop (fuel + 1) n).Alive n := by
  obtain ⟨p, key, _, hstep⟩ := h.pruneLoop_dead_step hn
  rw [hstep]
  intro halive
  obtain ⟨x, hx⟩ := RadixTree.pruneLoop_alive fuel halive
  rw [RadixTree.cut_nodes, if_pos rfl] at hx
  contradiction

/-- Pruning keeps every node on the way to one that is in use or not on the way to where it starts.
-/
theorem pruneLoop_keeps (fuel : ℕ) {t : RadixTree} (h : Shape t path) {n m w : NodeId}
    (hm : t.Alive m) (hw : t.Alive w) (hmw : path m <+: path w)
    (hkeep : w = rootId ∨ ¬ (t.data w).Unused ∨ ¬ path w <+: path n) :
    (t.pruneEmptyLeavesLoop fuel n).Alive m := by
  induction fuel generalizing t n with
  | zero => exact hm
  | succ fuel ih =>
    by_cases hn : t.Dead n
    · obtain ⟨p, key, hchild, hstep⟩ := h.pruneLoop_dead_step hn
      rw [hstep]
      obtain ⟨hnalive, hroot, hunused, hleaf⟩ := hn
      have hwn : w ≠ n := by
        rintro rfl
        rcases hkeep with hroot' | hused | hnot
        · exact hroot hroot'
        · exact hused hunused
        · exact hnot (List.prefix_refl _)
      have hmn : m ≠ n := by
        rintro rfl
        rcases h.eq_or_child_toward hm hw hmw with rfl | ⟨key', c, hc, _⟩
        · exact hwn rfl
        · rw [hleaf key'] at hc
          contradiction
      have hkept {k : NodeId} (hk : t.Alive k) (hkn : k ≠ n) : (t.cut n p key).Alive k := by
        obtain ⟨y, hy⟩ := hk
        unfold RadixTree.Alive
        rw [RadixTree.cut_nodes, if_neg hkn, hy]
        split <;> simp
      refine ih (h.cut hleaf hroot hchild) (hkept hm hmn) (hkept hw hwn) ?_
      have hdata : (t.cut n p key).data w = t.data w := by
        obtain ⟨y, hy⟩ := hw
        unfold RadixTree.data RadixTree.field
        rw [RadixTree.cut_nodes, if_neg hwn]
        split <;> simp [hy, RadixNode.data]
      obtain ⟨z, hz⟩ := hnalive
      rw [hdata]
      refine hkeep.imp_right (Or.imp_right fun hnot hbelow => hnot (hbelow.trans ?_))
      exact h.child_path hchild hz ▸ List.prefix_append _ _
    · -- a node that is not dead stops the pruning
      suffices t.pruneEmptyLeavesLoop (fuel + 1) n = t by rwa [this]
      rw [RadixTree.pruneEmptyLeavesLoop]
      cases hx : t.nodes n with
      | none => rfl
      | some x =>
        refine if_neg fun hcond => hn ⟨⟨x, hx⟩, hcond.1, ?_, fun key => ?_⟩
        · rw [RadixTree.data_of_nodes hx]
          exact ⟨hcond.2.1, hcond.2.2.1⟩
        · rw [RadixTree.childAt_of_nodes hx]
          exact (entries_eq_nil_iff _).mp hcond.2.2.2 key

end Shape

/-- What is left of an insertion that was given back: the nodes and the data that the walk left, but
for a dead node where it ended. -/
structure Withdrawn (t : RadixTree) (path : NodeId → List Token) (k : NodeId) (t' : RadixTree) :
    Prop where
  shape : Shape t' path
  data : t'.data = t.data
  alive : ∀ m, t'.Alive m → t.Alive m
  keeps : ¬ t.Dead k → ∀ m, t.Alive m → t'.Alive m
  removes : t.Dead k → ¬ t'.Alive k

namespace Shape

variable {t : RadixTree} {path : NodeId → List Token}

/-- A reference that is taken and given back leaves a node as it was, and pruning starts from it. -/
theorem hold_release (h : Shape t path) {n : NodeId} (hn : t.Alive n) (tick : ℕ) :
    ∃ t',
      (t.modify n fun x => { x with lastAccessTick := tick, refCount := x.refCount + 1 }).release
        n =
        t'.pruneEmptyLeavesLoop t.nextId n ∧ Shape t' path ∧ t'.data = t.data ∧
        t'.nextId = t.nextId ∧
          (∀ m, t'.Alive m ↔ t.Alive m) ∧ ∀ m key, t'.childAt m key = t.childAt m key := by
  obtain ⟨x, hx⟩ := hn
  have hhold : RadixTree.Local fun x =>
      { x with lastAccessTick := tick, refCount := x.refCount + 1 } :=
    fun _ => ⟨rfl, rfl, rfl⟩
  have hletGo : RadixTree.Local fun x => { x with refCount := x.refCount - 1 } :=
    fun _ => ⟨rfl, rfl, rfl⟩
  refine ⟨(t.modify n fun x =>
    { x with lastAccessTick := tick, refCount := x.refCount + 1 }).modify n
    fun x => { x with refCount := x.refCount - 1 }, ?_, (h.modify n hhold).modify n hletGo,
      ?_, rfl, fun m => ?_,
      fun m key => (hletGo.childAt _ n m key).trans (hhold.childAt t n m key)⟩
  · simp only [RadixTree.release, RadixTree.modify_nodes, hx, if_true, Option.map_some]
    rw [if_pos (Nat.succ_pos _)]
    rfl
  · rw [RadixTree.data_modify (g := NodeData.letGo) (fun _ => rfl)
      (RadixTree.alive_modify.mpr ⟨x, hx⟩), RadixTree.data_modify (g := NodeData.hold)
        (fun _ => rfl) ⟨x, hx⟩, Function.update_self, Function.update_idem]
    exact Function.update_eq_self n t.data
  · rw [RadixTree.alive_modify, RadixTree.alive_modify]

/-- A leaf that was hung is dead but for its reference, and hides whether its parent was dead. -/
theorem hang_dead (h : Shape t path) {k : NodeId} {key : Token} {rest : List Token} (hk : t.Alive k)
    (hkey : t.childAt k key = none) (len tick : ℕ) {t' : RadixTree}
    (hdata : t'.data = (t.addLeaf ⟨k, k, len, key :: rest⟩ tick).1.data)
    (halive : ∀ m, t'.Alive m ↔ (t.addLeaf ⟨k, k, len, key :: rest⟩ tick).1.Alive m)
    (hchild : ∀ m c, t'.childAt m c = (t.addLeaf ⟨k, k, len, key :: rest⟩ tick).1.childAt m c) :
    t'.Dead t.nextId ∧ t'.childAt k key = some t.nextId ∧
      (t.Dead k → (t'.cut t.nextId k key).Dead k) := by
  let leaf : RadixNode := { tokens := key :: rest, parent := some k, lastAccessTick := tick }
  have hgrow : Growth t path _ _ := Growth.addLeaf h hk (x := leaf) hkey rfl rfl rfl rfl
  have hlookup := h.addLeaf_childAt hk (x := leaf) key rfl
  have hkne : k ≠ t.nextId := h.ne_nextId hk
  have hdata' : t'.data = t.data := hdata.trans hgrow.data
  have hchild' (m : NodeId) (c : Token) : t'.childAt m c =
      if m = k ∧ c = key then some t.nextId else if m = t.nextId then none else t.childAt m c :=
    (hchild m c).trans (hlookup m c)
  have hleafAlive : t'.Alive t.nextId := by
    rw [halive, RadixTree.addLeaf, RadixTree.alive_modify]
    exact ⟨leaf, if_pos rfl⟩
  have hleafChild (c : Token) : t'.childAt t.nextId c = none := by
    rw [hchild', if_neg fun hand => hkne hand.1.symm, if_pos rfl]
  refine ⟨⟨hleafAlive, ?_, ?_, hleafChild⟩, ?_, ?_⟩
  · exact fun heq => lt_irrefl _ (heq ▸ h.root_lt)
  · rw [hdata', RadixTree.data_of_none h.nextId_not_alive]
    exact ⟨rfl, rfl⟩
  · rw [hchild', if_pos ⟨rfl, rfl⟩]
  · rintro ⟨_, hroot, hunused, hleaf⟩
    have hkAlive : t'.Alive k := by
      rw [halive, RadixTree.addLeaf, RadixTree.alive_modify]
      obtain ⟨y, hy⟩ := hk
      exact ⟨y, (if_neg hkne).trans hy⟩
    obtain ⟨y, hy⟩ := hkAlive
    refine ⟨?_, hroot, ?_, fun c => ?_⟩
    · unfold RadixTree.Alive
      rw [RadixTree.cut_nodes, if_neg hkne, if_pos rfl, hy]
      exact ⟨_, rfl⟩
    · have hsame : (t'.cut t.nextId k key).data k = t'.data k := by
        unfold RadixTree.data RadixTree.field
        rw [RadixTree.cut_nodes, if_neg hkne, if_pos rfl, hy]
        rfl
      rw [hsame, hdata']
      exact hunused
    · rw [RadixTree.cut_childAt key hleafChild hkne]
      by_cases hc : c = key
      · rw [if_pos ⟨rfl, hc⟩]
      · rw [if_neg fun hand => hc hand.2, hchild', if_neg fun hand => hc hand.2, if_neg hkne, hleaf]

/-- A node that is not dead is the root, is in use, or has a child. -/
theorem exists_keeper (h : Shape t path) {k : NodeId} {rest : List Token} (hk : t.Alive k)
    (hdead : ¬ t.Dead k) (hkey : ∀ key rest', rest = key :: rest' → t.childAt k key = none) :
    ∃ w, t.Alive w ∧ path k <+: path w ∧
      (w = rootId ∨ ¬ (t.data w).Unused ∨ ¬ path w <+: path k ++ rest) := by
  by_cases hroot : k = rootId
  · exact ⟨k, hk, List.prefix_refl _, .inl hroot⟩
  · by_cases hunused : (t.data k).Unused
    · obtain ⟨key, hchild⟩ : ∃ key, t.childAt k key ≠ none := by
        by_contra hnone
        exact hdead ⟨hk, hroot, hunused, fun key => not_not.mp fun hne => hnone ⟨key, hne⟩⟩
      obtain ⟨c, hc⟩ := Option.ne_none_iff_exists'.mp hchild
      obtain ⟨x, run, hx, _, htok⟩ := h.down hc
      have hcpath := h.child_path hc hx
      refine ⟨c, ⟨x, hx⟩, hcpath ▸ List.prefix_append _ _, .inr (.inr fun hprefix => ?_)⟩
      rw [hcpath, htok, List.prefix_append_right_inj] at hprefix
      obtain ⟨u, hu⟩ := hprefix
      rw [hkey key (run ++ u) hu.symm] at hc
      contradiction
    · exact ⟨k, hk, List.prefix_refl _, .inr (.inl hunused)⟩

end Shape

/-- The tree after an insertion whose reference was given back, before pruning: what was left of the
tokens hangs as a dead leaf below the node where the walk ended, or pruning starts from that node
itself. -/
structure Hung (t : RadixTree) (path : NodeId → List Token) (k : NodeId) (rest : List Token)
    (t' : RadixTree) (path' : NodeId → List Token) (node : NodeId) : Prop where
  shape : Shape t' path'
  data : t'.data = t.data
  same : ∀ m, t.Alive m → path' m = path m
  path_node : path' node = path k ++ rest
  alive : ∀ m, t.Alive m → t'.Alive m
  old : ∀ m, t'.Alive m → t.Alive m ∨ rest ≠ [] ∧ m = node
  stays : rest = [] → node = k ∧ ∀ key, t'.childAt k key = t.childAt k key
  leaf : ∀ key rest', rest = key :: rest' → t'.Dead node ∧ t'.childAt k key = some node ∧
    (t.Dead k → (t'.cut node k key).Dead k)

namespace Hung

variable {t t' : RadixTree} {path path' : NodeId → List Token} {k node m : NodeId}
  {rest : List Token}

/-- Pruning removes the leaf, so only old nodes are left. -/
theorem alive_of_pruned (hhung : Hung t path k rest t' path' node) (fuel : ℕ)
    (hm : (t'.pruneEmptyLeavesLoop (fuel + 1) node).Alive m) : t.Alive m := by
  refine (hhung.old m (RadixTree.pruneLoop_alive _ hm)).resolve_right ?_
  rintro ⟨hrest, rfl⟩
  obtain ⟨key, rest', hcons⟩ := List.exists_cons_of_ne_nil hrest
  exact hhung.shape.pruneLoop_removes (hhung.leaf key rest' hcons).1 fuel hm

/-- If the node where the walk ended is not dead, pruning keeps every old node. -/
theorem keeps (hhung : Hung t path k rest t' path' node) (h : Shape t path) (hk : t.Alive k)
    (hkey : ∀ key rest', rest = key :: rest' → t.childAt k key = none) (hdead : ¬ t.Dead k)
    (fuel : ℕ) (hm : t.Alive m) :
    (t'.pruneEmptyLeavesLoop fuel node).Alive m := by
  obtain ⟨w, hw, hkw, hkeep⟩ := h.exists_keeper hk hdead hkey
  by_cases hmk : path m <+: path k
  · refine hhung.shape.pruneLoop_keeps _ (hhung.alive m hm) (hhung.alive w hw) ?_ ?_
    · rw [hhung.same m hm, hhung.same w hw]
      exact hmk.trans hkw
    · rw [hhung.data, hhung.same w hw, hhung.path_node]
      exact hkeep
  · refine hhung.shape.pruneLoop_keeps _ (hhung.alive m hm) (hhung.alive m hm)
      (List.prefix_refl _) (.inr (.inr ?_))
    intro hbelow
    rw [hhung.same m hm, hhung.path_node] at hbelow
    -- a path beyond the node would go on as the tokens do
    have hkm : path k <+: path m :=
      (List.prefix_or_prefix_of_prefix hbelow (List.prefix_append _ _)).resolve_left hmk
    rcases h.eq_or_child_toward hk hm hkm with rfl | ⟨key, c, hc, hcm⟩
    · exact hmk (List.prefix_refl _)
    · obtain ⟨x, run, hx, _, htok⟩ := h.down hc
      have hcrest := hcm.trans hbelow
      rw [h.child_path hc hx, htok, List.prefix_append_right_inj] at hcrest
      obtain ⟨u, hu⟩ := hcrest
      rw [hkey key (run ++ u) hu.symm] at hc
      contradiction

/-- If that node is dead, pruning removes it, after the leaf if there is one. -/
theorem removes (hhung : Hung t path k rest t' path' node) (hdead : t.Dead k) (fuel : ℕ) :
    ¬ (t'.pruneEmptyLeavesLoop (fuel + 2) node).Alive k := by
  cases hrest : rest with
  | nil =>
    obtain ⟨rfl, hchild⟩ := hhung.stays hrest
    have hdead' : t'.Dead node := by
      refine ⟨hhung.alive _ hdead.1, hdead.2.1, hhung.data ▸ hdead.2.2.1, fun key => ?_⟩
      rw [hchild, hdead.2.2.2]
    exact hhung.shape.pruneLoop_removes hdead' (fuel + 1)
  | cons key rest' =>
    obtain ⟨hleaf, hedge, hparent⟩ := hhung.leaf key rest' hrest
    obtain ⟨p, key', hchild, hstep⟩ := hhung.shape.pruneLoop_dead_step hleaf
    -- the leaf hangs below the node under its key
    obtain ⟨x, _, hx, hp, htok⟩ := hhung.shape.down hedge
    obtain ⟨x', _, hx', hp', htok'⟩ := hhung.shape.down hchild
    rw [hx] at hx'
    cases hx'
    rw [hp] at hp'
    rw [htok] at htok'
    obtain rfl := Option.some.inj hp'
    obtain ⟨rfl, _⟩ := List.cons.inj htok'
    rw [hstep]
    exact (hhung.shape.cut hleaf.2.2.2 hleaf.2.1 hchild).pruneLoop_removes (hparent hdead) fuel

end Hung

namespace Shape

variable {t : RadixTree} {path : NodeId → List Token} {k : NodeId} {rest : List Token}

/-- A leaf that is hung is the only new node. -/
theorem addLeaf_old (_ : Shape t path) {len tick : ℕ} {m : NodeId}
    (hm : (t.addLeaf ⟨k, k, len, rest⟩ tick).1.Alive m) :
    t.Alive m ∨ rest ≠ [] ∧ m = (t.addLeaf ⟨k, k, len, rest⟩ tick).2.node := by
  cases rest with
  | nil => exact Or.inl hm
  | cons key rest' =>
    by_cases hne : m = t.nextId
    · exact Or.inr ⟨List.cons_ne_nil _ _, hne⟩
    · left
      obtain ⟨x, hx⟩ := RadixTree.alive_modify.mp hm
      rw [RadixTree.alloc_nodes, if_neg hne] at hx
      exact ⟨x, hx⟩

/-- A leaf is hung if tokens are left, its node is held, the reference is given back, and pruning
starts. -/
theorem hang_hung (h : Shape t path) (hk : t.Alive k)
    (hkey : ∀ key rest', rest = key :: rest' → t.childAt k key = none) (len tick tick' : ℕ) :
    ∃ t' path',
      ((t.addLeaf ⟨k, k, len, rest⟩ tick).1.modify (t.addLeaf ⟨k, k, len, rest⟩ tick).2.node
        fun x => { x with lastAccessTick := tick', refCount := x.refCount + 1 }).release
          (t.addLeaf ⟨k, k, len, rest⟩ tick).2.node =
        t'.pruneEmptyLeavesLoop t'.nextId (t.addLeaf ⟨k, k, len, rest⟩ tick).2.node ∧
      t.nextId ≤ t'.nextId ∧ Hung t path k rest t' path'
        (t.addLeaf ⟨k, k, len, rest⟩ tick).2.node := by
  obtain ⟨path₁, hgrow, halive₁, hpath₁, hsame, _⟩ :=
    addLeaf_growth h ⟨k, k, len, rest⟩ hk hkey tick
  obtain ⟨t', ht', hshape', hdata', hnext', halive', hchild'⟩ :=
    hgrow.shape.hold_release halive₁ tick'
  have hnext : t.nextId ≤ t'.nextId := by
    rw [hnext']
    cases rest with
    | nil => exact le_rfl
    | cons key rest' => exact Nat.le_succ _
  refine ⟨t', path₁, hnext' ▸ ht', hnext, hshape', hdata'.trans hgrow.data, hsame, hpath₁,
    fun m hm => (halive' m).mpr (hgrow.alive hm), fun m hm =>
      h.addLeaf_old ((halive' m).mp hm), ?_, ?_⟩
  · rintro rfl
    exact ⟨rfl, hchild' k⟩
  · rintro key rest' rfl
    exact h.hang_dead hk (hkey key rest' rfl) len tick hdata' halive' hchild'

/-- A leaf is hung if tokens are left, its node is held, and the reference is given back. -/
theorem hang_release (h : Shape t path) (hcoherent : t.Coherent) (hk : t.Alive k)
    (hkey : ∀ key rest', rest = key :: rest' → t.childAt k key = none) (len tick tick' : ℕ) :
    Withdrawn t path k
      (((t.addLeaf ⟨k, k, len, rest⟩ tick).1.modify (t.addLeaf ⟨k, k, len, rest⟩ tick).2.node
      fun x => { x with lastAccessTick := tick', refCount := x.refCount + 1 }).release
        (t.addLeaf ⟨k, k, len, rest⟩ tick).2.node) := by
  obtain ⟨t', path', ht', hnext, hhung⟩ := h.hang_hung hk hkey len tick tick'
  rw [ht']
  generalize (t.addLeaf ⟨k, k, len, rest⟩ tick).2.node = node at hhung ⊢
  have hcoherent' (m : NodeId) : (t'.data m).Coherent := hhung.data ▸ hcoherent m
  obtain ⟨hpruned, _⟩ := pruneLoop_pruned t'.nextId hhung.shape (n := node)
    ⟨hcoherent' _, hcoherent'⟩ fun hn => by
    obtain ⟨x, hx⟩ := hn
    exact rank_lt_bound (hhung.shape.fresh hx)
  obtain ⟨fuel, hfuel⟩ := Nat.exists_eq_succ_of_ne_zero (Nat.ne_zero_of_lt hhung.shape.root_lt)
  have hback (m : NodeId) (hm : (t'.pruneEmptyLeavesLoop t'.nextId node).Alive m) : t.Alive m := by
    rw [hfuel] at hm
    exact hhung.alive_of_pruned fuel hm
  refine ⟨?_, hpruned.data.trans hhung.data, hback,
    fun hdead m hm => hhung.keeps h hk hkey hdead _ hm, fun hdead => ?_⟩
  · exact hpruned.shape.congr_path fun n hn => (hhung.same n (hback n hn)).symm
  · -- a dead node is not the root, so there is fuel for the leaf and for the node
    obtain ⟨x, hx⟩ := hk
    have hfresh : k < fuel + 1 := ((h.fresh hx).trans_le hnext).trans_eq hfuel
    obtain ⟨fuel', rfl⟩ : ∃ fuel', fuel = fuel' + 1 := Nat.exists_eq_succ_of_ne_zero fun hzero => by
      rw [hzero] at hfresh
      exact hdead.2.1 (Nat.lt_one_iff.mp hfresh)
    rw [hfuel]
    exact hhung.removes hdead fuel'

/-- A node is entered if the tokens follow its path beyond every node above it. -/
theorem enters_iff (h : Shape t path) {n : NodeId} (hn : t.Alive n) (hroot : n ≠ rootId)
    {tokens : List Token} :
    t.Enters n tokens ↔ ∀ m, t.Alive m → path m <+: path n → m ≠ n →
      (path m).length < matchLen (path n) tokens := by
  obtain ⟨x, hx⟩ := hn
  obtain ⟨p, key, run, _, htok, hchild, hpath⟩ := h.up hx hroot
  rw [RadixTree.Enters, h.runStart_eq hx hpath, h.pathTokens_eq ⟨x, hx⟩]
  constructor
  · intro henters m hm hmn hne
    refine lt_of_le_of_lt (not_lt.mp fun hlt => hne ?_) henters
    have hpm : path p <+: path m :=
      List.prefix_of_prefix_length_le (hpath ▸ List.prefix_append _ _) hmn hlt.le
    rcases h.eq_or_child_toward (RadixTree.alive_of_childAt hchild) hm hpm with
      rfl | ⟨key', d, hd, hdm⟩
    · exact absurd hlt (lt_irrefl _)
    · obtain rfl := h.child_unique hd hchild (hdm.trans hmn) (List.prefix_refl _)
      exact h.path_injective hm ⟨x, hx⟩ (hmn.eq_of_length (le_antisymm hmn.length_le hdm.length_le))
  · intro hall
    refine hall p (RadixTree.alive_of_childAt hchild) (hpath ▸ List.prefix_append _ _) ?_
    rintro rfl
    exact lt_irrefl _ (h.child_lt hchild)

/-- The root is never entered. -/
theorem not_enters_root (h : Shape t path) (tokens : List Token) : ¬ t.Enters rootId tokens := by
  rw [RadixTree.Enters, h.pathTokens_eq h.root_alive, h.rootPath]
  exact Nat.not_lt_zero _

/-- An entered node is alive. -/
theorem alive_of_enters (h : Shape t path) {n : NodeId} {tokens : List Token}
    (henters : t.Enters n tokens) : t.Alive n := by
  obtain ⟨x, _, _, _, _, hx, _⟩ := h.enters_spec henters
  exact ⟨x, hx⟩

end Shape

namespace NodeData

/-- A node with a ready sequence owns sequences. -/
theorem HasReady.owns {d : NodeData} (hd : d.Coherent) (h : d.HasReady) : d.seqIds ≠ ∅ := by
  intro hempty
  refine h (OrderedSet.eq_empty_iff.mpr fun i hi => ?_)
  exact OrderedSet.notMem_empty i (hempty ▸ hd.1 i hi)

/-- A node with a pending sequence owns sequences. -/
theorem HasPending.owns {d : NodeData} (_ : d.Coherent) (h : d.HasPending) : d.seqIds ≠ ∅ := by
  intro hempty
  rw [HasPending, hempty] at h
  exact Nat.not_lt_zero _ h

/-- A node that owns sequences has ready or pending ones. -/
theorem kind_of_owns {d : NodeData} (h : d.seqIds ≠ ∅) : d.HasReady ∨ d.HasPending := by
  by_cases hready : d.readySeqIds = ∅
  · right
    obtain ⟨i, hi⟩ : ∃ i, i ∈ d.seqIds := by
      by_contra hnone
      exact h (OrderedSet.eq_empty_iff.mpr fun i hi => hnone ⟨i, hi⟩)
    rw [HasPending, hready]
    exact OrderedSet.size_pos_of_mem hi
  · exact .inl hready

end NodeData

namespace Shape

variable {t t' : RadixTree} {path path' : NodeId → List Token} {tokens : List Token}

/-- Tokens match the path that the tree spells out as they match the path of the node. -/
theorem matchLen_pathTokens (h : Shape t path) {n : NodeId} (hn : t.Alive n) (tokens : List Token) :
    matchLen (t.pathTokens n) tokens = matchLen (path n) tokens := by
  rw [h.pathTokens_eq hn]

/-- What a living node covers. -/
theorem share_eq (h : Shape t path) (kind : NodeData → Prop) [DecidablePred kind] {n : NodeId}
    (hn : t.Alive n) (tokens : List Token) : t.share kind tokens n =
      if t.Enters n tokens ∧ kind (t.data n) then min (matchLen (path n) tokens)
        (t.data n).canonicalLen else 0 := by
  rw [RadixTree.share, h.matchLen_pathTokens hn]

/-- What covers something is alive. -/
theorem alive_of_share (h : Shape t path) {kind : NodeData → Prop} [DecidablePred kind] {n : NodeId}
    {tokens : List Token} (hpos : 0 < t.share kind tokens n) :
    t.Enters n tokens ∧ kind (t.data n) ∧ t.Alive n := by
  rw [RadixTree.share] at hpos
  split at hpos
  · rename_i hand
    exact ⟨hand.1, hand.2, h.alive_of_enters hand.1⟩
  · exact absurd hpos (lt_irrefl _)

/-- Trees that reach each other's matches and coverage report the same. -/
theorem inspectPrefix_eq (h : Shape t path) (h' : Shape t' path') (hcoherent : t.Coherent)
    (hdata : t'.data = t.data)
    (hmatched : ∀ n, t.Alive n → ∃ m, t'.Alive m ∧
      matchLen (path n) tokens ≤ matchLen (path' m) tokens)
    (hmatched' : ∀ n, t'.Alive n → ∃ m, t.Alive m ∧
      matchLen (path' n) tokens ≤ matchLen (path m) tokens)
    (hshare : ∀ (kind : NodeData → Prop) [DecidablePred kind] n, (t.data n).seqIds ≠ ∅ →
      t'.share kind tokens n = t.share kind tokens n) : t'.inspectPrefix tokens =
        t.inspectPrefix tokens := by
  have hle {f g : NodeId → ℕ} {a b : ℕ} (ha : IsGreatest (Set.range f) a)
      (hb : IsGreatest (Set.range g) b)
      (hfg : ∀ n, ∃ m, f n ≤ g m) : a ≤ b := by
    obtain ⟨⟨n, rfl⟩, _⟩ := ha
    obtain ⟨m, hm⟩ := hfg n
    exact hm.trans (hb.2 ⟨m, rfl⟩)
  have hwalk {u u' : RadixTree} {q q' : NodeId → List Token} (hu : Shape u q) (hu' : Shape u' q')
      (hreach : ∀ n, u.Alive n → ∃ m, u'.Alive m ∧
        matchLen (q n) tokens ≤ matchLen (q' m) tokens) (n : NodeId) :
      ∃ m, matchLen (u.pathTokens n) tokens ≤ matchLen (u'.pathTokens m) tokens := by
    cases hn : u.nodes n with
    | none => exact ⟨n, by simp [RadixTree.pathTokens_of_none hn, matchLen]⟩
    | some x =>
      obtain ⟨m, hm, hle⟩ := hreach n ⟨x, hn⟩
      exact ⟨m, by rwa [hu.matchLen_pathTokens ⟨x, hn⟩, hu'.matchLen_pathTokens hm]⟩
  -- only nodes that own sequences cover anything
  have hsame {kind : NodeData → Prop} [DecidablePred kind] (howns : ∀ d : NodeData, d.Coherent →
      kind d → d.seqIds ≠ ∅)
      (n : NodeId) : t'.share kind tokens n = t.share kind tokens n := by
    by_cases hkind : kind (t.data n)
    · exact hshare kind n (howns _ (hcoherent n) hkind)
    · rw [RadixTree.share, RadixTree.share, hdata, if_neg fun hand => hkind hand.2,
        if_neg fun hand => hkind hand.2]
  obtain ⟨hmatched₁, hready₁, hpending₁⟩ := h.inspectPrefix_spec tokens
  obtain ⟨hmatched₂, hready₂, hpending₂⟩ := h'.inspectPrefix_spec tokens
  rw [funext (hsame fun _ hd => NodeData.HasReady.owns hd)] at hready₂
  rw [funext (hsame fun _ hd => NodeData.HasPending.owns hd)] at hpending₂
  generalize t.inspectPrefix tokens = a at hmatched₁ hready₁ hpending₁ ⊢
  generalize t'.inspectPrefix tokens = b at hmatched₂ hready₂ hpending₂ ⊢
  obtain ⟨_, _, _⟩ := a
  obtain ⟨_, _, _⟩ := b
  congr 1
  · exact le_antisymm (hle hmatched₂ hmatched₁ (hwalk h' h hmatched'))
      (hle hmatched₁ hmatched₂ (hwalk h h' hmatched))
  · exact hready₂.unique hready₁
  · exact hpending₂.unique hpending₁

/-- Trees with the same nodes, paths and data report the same. -/
theorem inspectPrefix_same (h : Shape t path) (h' : Shape t' path) (hcoherent : t.Coherent)
    (hdata : t'.data = t.data) (halive : ∀ n, t'.Alive n ↔ t.Alive n) (tokens : List Token) :
    t'.inspectPrefix tokens = t.inspectPrefix tokens := by
  refine h.inspectPrefix_eq h' hcoherent hdata (fun n hn => ⟨n, (halive n).mpr hn, le_rfl⟩)
    (fun n hn => ⟨n, (halive n).mp hn, le_rfl⟩) fun kind _ n howns => ?_
  have hn : t.Alive n := RadixTree.alive_of_data fun hunused => howns hunused.2
  have henters : t'.Enters n tokens ↔ t.Enters n tokens := by
    by_cases hroot : n = rootId
    · subst hroot
      exact iff_of_false (h'.not_enters_root tokens) (h.not_enters_root tokens)
    · rw [h.enters_iff hn hroot, h'.enters_iff ((halive n).mpr hn) hroot]
      simp only [halive]
  rw [h.share_eq kind hn, h'.share_eq kind ((halive n).mpr hn), hdata]
  simp only [henters]

end Shape

/-- One node was cut in two: it keeps a beginning of its path, and a new node without data has the
whole path. -/
structure CutInTwo (t : RadixTree) (path : NodeId → List Token) (t' : RadixTree)
    (path' : NodeId → List Token) (n s : NodeId) : Prop where
  shape : Shape t path
  shape' : Shape t' path'
  data : t'.data = t.data
  alive : ∀ m, t'.Alive m ↔ t.Alive m ∨ m = s
  fresh : t.nodes s = none
  node : t.Alive n
  suffix : path' s = path n
  cut : path' n <+: path n
  shorter : (path' n).length < (path n).length
  other : ∀ m, t.Alive m → m ≠ n → path' m = path m
  beyond : ∀ m, t.Alive m → path' n <+: path m → path n <+: path m

namespace CutInTwo

variable {t t' : RadixTree} {path path' : NodeId → List Token} {n s : NodeId}

/-- Other nodes are entered as before. -/
theorem enters_iff (h : CutInTwo t path t' path' n s) {m : NodeId} (hm : t.Alive m) (hne : m ≠ n)
    (tokens : List Token) :
    t'.Enters m tokens ↔ t.Enters m tokens := by
  by_cases hroot : m = rootId
  · subst hroot
    exact iff_of_false (h.shape'.not_enters_root tokens) (h.shape.not_enters_root tokens)
  · have hms : m ≠ s := by
      rintro rfl
      obtain ⟨x, hx⟩ := hm
      rw [h.fresh] at hx
      contradiction
    rw [h.shape.enters_iff hm hroot, h.shape'.enters_iff ((h.alive m).mpr (.inl hm)) hroot,
      h.other m hm hne]
    constructor
    · intro hall a ha ham hame
      by_cases han : a = n
      · subst han
        rw [← h.suffix]
        exact hall s ((h.alive s).mpr (.inr rfl)) (h.suffix ▸ ham) hms.symm
      · rw [← h.other a ha han]
        exact hall a ((h.alive a).mpr (.inl ha)) (by rwa [h.other a ha han]) hame
    · intro hall a ha ham hame
      rcases (h.alive a).mp ha with ha | rfl
      · by_cases han : a = n
        · subst han
          exact h.shorter.trans (hall a ha (h.beyond m hm ham) hame)
        · rw [h.other a ha han] at ham ⊢
          exact hall a ha ham hame
      · rw [h.suffix] at ham ⊢
        exact hall n h.node ham hne.symm

/-- A match with a beginning of a path is one with the path. -/
theorem matchLen_cut (h : CutInTwo t path t' path' n s) (tokens : List Token) :
    matchLen (path' n) tokens ≤ matchLen (path n) tokens := by
  obtain ⟨hle, hlen, htake⟩ := le_matchLen_iff.mp (le_refl (matchLen (path' n) tokens))
  obtain ⟨v, hv⟩ := h.cut
  refine le_matchLen_iff.mpr ⟨?_, hlen, ?_⟩
  · rw [← hv, List.length_append]
    omega
  · rw [← hv, List.take_append_of_le_length hle, htake]

/-- If the node owns no sequences, every inspection reports what it did. -/
theorem inspectPrefix_eq (h : CutInTwo t path t' path' n s) (hcoherent : t.Coherent)
    (hempty : (t.data n).seqIds = ∅) (tokens : List Token) :
    t'.inspectPrefix tokens = t.inspectPrefix tokens := by
  refine h.shape.inspectPrefix_eq h.shape' hcoherent h.data (fun m hm => ?_)
    (fun m hm => ?_) fun kind _ m howns => ?_
  · by_cases hmn : m = n
    · subst hmn
      exact ⟨s, (h.alive s).mpr (.inr rfl), h.suffix ▸ le_rfl⟩
    · exact ⟨m, (h.alive m).mpr (.inl hm), h.other m hm hmn ▸ le_rfl⟩
  · rcases (h.alive m).mp hm with hm | rfl
    · by_cases hmn : m = n
      · subst hmn
        exact ⟨m, hm, h.matchLen_cut tokens⟩
      · exact ⟨m, hm, h.other m hm hmn ▸ le_rfl⟩
    · exact ⟨n, h.node, h.suffix ▸ le_rfl⟩
  · have hm : t.Alive m := RadixTree.alive_of_data fun hunused => howns hunused.2
    have hne : m ≠ n := by
      rintro rfl
      exact howns hempty
    rw [h.shape.share_eq kind hm, h.shape'.share_eq kind ((h.alive m).mpr (.inl hm)),
      h.data, h.other m hm hne]
    simp only [h.enters_iff hm hne]

/-- If the node owns sequences, the inspection of its old path reports less. -/
theorem inspectPrefix_ne (h : CutInTwo t path t' path' n s) (howns : (t.data n).seqIds ≠ ∅)
    (hcanonical : (path n).length ≤ (t.data n).canonicalLen) (hroot : n ≠ rootId) :
    t'.inspectPrefix (path n) ≠ t.inspectPrefix (path n) := by
  have hfull : matchLen (path n) (path n) = (path n).length :=
    matchLen_of_isPrefix (List.prefix_refl _)
  have henters : t.Enters n (path n) := by
    rw [h.shape.enters_iff h.node hroot, hfull]
    intro m hm hmn hne
    refine lt_of_le_of_ne hmn.length_le fun hlen => hne ?_
    exact h.shape.path_injective hm h.node (hmn.eq_of_length hlen)
  have hdifferent {kind : NodeData → Prop} [DecidablePred kind] (hkind : kind (t.data n))
      (hnone : ¬ kind {}) {a b : ℕ}
      (ha : IsGreatest (Set.range (t.share kind (path n))) a)
        (hb : IsGreatest (Set.range (t'.share kind (path n))) b) :
      b ≠ a := by
    have hbefore : (path n).length ≤ a := by
      refine le_trans ?_ (ha.2 ⟨n, rfl⟩)
      rw [h.shape.share_eq kind h.node, if_pos ⟨henters, hkind⟩, hfull, min_eq_left hcanonical]
    have hpos : 0 < (path n).length := lt_of_le_of_lt (Nat.zero_le _) h.shorter
    rintro rfl
    obtain ⟨m, hm⟩ := hb.1
    obtain ⟨henters', hkind', hm'⟩ := h.shape'.alive_of_share (hm ▸ hpos.trans_le hbefore)
    rw [h.shape'.share_eq kind hm', if_pos ⟨henters', hkind'⟩] at hm
    have hmatch : (path n).length ≤ matchLen (path' m) (path n) := by
      refine hbefore.trans (hm ▸ ?_)
      exact min_le_left _ _
    obtain ⟨hlen, _, htake⟩ := le_matchLen_iff.mp hmatch
    rw [List.take_length] at htake
    rcases (h.alive m).mp hm' with hmt | rfl
    · by_cases hmn : m = n
      · subst hmn
        exact absurd h.shorter (not_lt.mpr hlen)
      · rw [h.enters_iff hmt hmn] at henters'
        have hmroot : m ≠ rootId := by
          rintro rfl
          exact h.shape.not_enters_root _ henters'
        rw [h.other m hmt hmn] at htake
        have hnm : path n <+: path m := htake ▸ List.take_prefix _ _
        have hlt := (h.shape.enters_iff hmt hmroot).mp henters' n h.node hnm (Ne.symm hmn)
        exact absurd (matchLen_le_right (path m) (path n)) (not_le.mpr hlt)
    · rw [h.data, RadixTree.data_of_none h.fresh] at hkind'
      exact hnone hkind'
  obtain ⟨_, hready, hpending⟩ := h.shape.inspectPrefix_spec (path n)
  obtain ⟨_, hready', hpending'⟩ := h.shape'.inspectPrefix_spec (path n)
  intro heq
  rcases NodeData.kind_of_owns howns with hkind | hkind
  · exact hdifferent hkind (by decide) hready hready' (congrArg PrefixAvailability.readyTokens heq)
  · exact hdifferent hkind (by decide) hpending hpending'
      (congrArg PrefixAvailability.pendingTokens heq)

end CutInTwo

end RadixForge
