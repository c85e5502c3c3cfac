import RadixForge.Tree.Undoing

/-!
# Tokens that the cache covers as a whole

An inspection finds all tokens ready exactly if a ready sequence is listed at the node where they
end. The releases of a departing request keep that node as long as it lists sequences, and an
extension moves the sequence there.
-/

namespace RadixForge

open Library

/-- A ready sequence is listed at the node where the tokens end. -/
def RadixTree.Whole (t : RadixTree) (tokens : List Token) : Prop :=
  ∃ n, t.EndsIn n tokens ∧ (t.data n).HasReady

/-- The node stays ready without a sequence: another ready one is listed, or the sequence is a ready
one that is alone and will be retained. -/
def NodeData.StaysReady (d : NodeData) (i : SeqId) : Prop :=
  (∃ j ∈ d.readySeqIds, j ≠ i) ∨ i ∈ d.readySeqIds ∧ ∀ j ∈ d.seqIds, j = i

/-- The condition under which a departing sequence leaves the tokens covered: another ready sequence
is listed where they end, or no other one is listed there and the sequence is extended to them or
ready there already. -/
def RadixTree.KeepsWhole (t : RadixTree) (i : SeqId) (tokens : List Token) (extension : Bool) :
    Prop :=
  (∃ n, t.EndsIn n tokens ∧ ∃ j ∈ (t.data n).readySeqIds, j ≠ i) ∨
    (∀ n, t.EndsIn n tokens → ∀ j ∈ (t.data n).seqIds, j = i) ∧
      (extension = true ∨ ∃ n, t.EndsIn n tokens ∧ i ∈ (t.data n).readySeqIds)

/-- A node with a ready sequence has one to show. -/
theorem NodeData.hasReady_iff {d : NodeData} : d.HasReady ↔ ∃ i, i ∈ d.readySeqIds := by
  constructor
  · intro h
    obtain ⟨i, _, hi⟩ := OrderedSet.exists_first h
    exact ⟨i, hi⟩
  · intro ⟨i, hi⟩ hempty
    exact OrderedSet.notMem_empty i (hempty ▸ hi)

/-- Ready sequences are listed, so a node that has one is in the tree. -/
theorem RadixTree.Coherent.alive_of_hasReady {t : RadixTree} (h : t.Coherent) {n : NodeId}
    (hn : (t.data n).HasReady) :
    t.Alive n := by
  obtain ⟨i, hi⟩ := NodeData.hasReady_iff.mp hn
  exact RadixTree.alive_of_data fun hunused => OrderedSet.notMem_empty i (hunused.2 ▸ (h n).1 i hi)

namespace Shape

variable {t t' : RadixTree} {path : NodeId → List Token} {tokens : List Token} {n : NodeId}
  {i : SeqId}

/-- Tokens end in one node only. -/
theorem endsIn_unique (h : Shape t path) {m : NodeId} (hn : t.EndsIn n tokens)
    (hm : t.EndsIn m tokens) : n = m :=
  h.entered_unique hn.1 (h.not_passes_of_endsIn hn) hm.1 (h.not_passes_of_endsIn hm)

/-- The path of a node below the root ends in it. -/
theorem endsIn_self (h : Shape t path) (hn : t.Alive n) (hne : path n ≠ []) : t.EndsIn n (path n) :=
  (h.endsIn_of_path hn rfl).resolve_left fun hroot => hne hroot.2

/-- In a tree with fewer nodes tokens end where they ended, if that node is left. -/
theorem endsIn_of_shrinks (h : Shape t path) (h' : Shape t' path) (hshrinks : t.Shrinks t')
    (hn : t'.Alive n) :
    t'.EndsIn n tokens ↔ t.EndsIn n tokens := by
  obtain ⟨halive, hparent⟩ := hshrinks n hn
  have htokens : t'.pathTokens n = t.pathTokens n := by
    rw [h.pathTokens_eq halive, h'.pathTokens_eq hn]
  have henters : t'.Enters n tokens ↔ t.Enters n tokens := by
    by_cases hroot : n = rootId
    · subst hroot
      exact iff_of_false (h'.not_enters_root tokens) (h.not_enters_root tokens)
    · obtain ⟨x, hx⟩ := halive
      obtain ⟨y, hy⟩ := hn
      obtain ⟨p, _, _, hp, _, _, hpath⟩ := h.up hx hroot
      obtain ⟨q, _, _, hq, _, _, hpath'⟩ := h'.up hy hroot
      have hpq : q = p := by
        simp only [RadixTree.parentOf, hx, hy, Option.bind_some, hp, hq,
          Option.some.injEq] at hparent
        exact hparent
      rw [RadixTree.Enters, RadixTree.Enters, htokens, h.runStart_eq hx hpath,
        h'.runStart_eq hy hpath', hpq]
  rw [RadixTree.EndsIn, RadixTree.EndsIn, henters, htokens]

/-- In a tree with fewer nodes the tokens are covered by the ready sequences that are left. -/
theorem whole_of_shrinks (h : Shape t path) (h' : Shape t' path) (hshrinks : t.Shrinks t')
    (hcoherent : t'.Coherent) :
    t'.Whole tokens ↔ ∃ n, t.EndsIn n tokens ∧ (t'.data n).HasReady := by
  constructor
  · rintro ⟨n, hends, hready⟩
    exact ⟨n, (h.endsIn_of_shrinks h' hshrinks (hcoherent.alive_of_hasReady hready)).mp hends,
      hready⟩
  · rintro ⟨n, hends, hready⟩
    exact ⟨n, (h.endsIn_of_shrinks h' hshrinks (hcoherent.alive_of_hasReady hready)).mpr hends,
      hready⟩

/-- The release of a sequence changes no path. -/
theorem releaseSeqId_shrinks (_ : Shape t path) (n : NodeId) (i : SeqId) (retain : Bool) :
    t.Shrinks (t.releaseSeqId n i retain).1 := by
  unfold RadixTree.releaseSeqId
  split
  · exact RadixTree.Shrinks.refl t
  · split
    · exact RadixTree.Shrinks.refl t
    · split
      · exact RadixTree.Shrinks.refl t
      · exact fun m hm => ⟨RadixTree.alive_modify.mp hm, (dropSeqId_local i).parentOf t n m⟩

/-- An extension moves its sequence to the node where the tokens end, if there is one. -/
theorem extendSeqId_target (h : Shape t path) (hi : i ∈ (t.data n).seqIds)
    (hready : i ∈ (t.data n).readySeqIds) (htokens : tokens ≠ []) {m : NodeId} (hm : t.Alive m) :
    (t.extendSeqId n i tokens tokens.length).2 = m ↔ t.EndsIn m tokens := by
  obtain ⟨t₁, t₂, k, len, rest, hwalked, hnodes, hnext, hextended⟩ :=
    h.extendSeqId_walked hi hready htokens
  rw [hextended, RadixTree.settleSeqId_node]
  exact ((h.walked_grown hwalked hnodes hnext t₂.tick).node_iff m hm).trans
    (or_iff_right fun hnil => htokens hnil.2)

/-- An extended sequence stays ready where its tokens end, unless a pending one is listed there and
no other ready one. -/
theorem extendSeqId_staysReady (h : Shape t path) (hi : i ∈ (t.data n).seqIds)
    (hready : i ∈ (t.data n).readySeqIds) (htokens : tokens ≠ []) :
    (∃ m, (t.extendSeqId n i tokens tokens.length).1.EndsIn m tokens ∧
        ((t.extendSeqId n i tokens tokens.length).1.data m).StaysReady i) ↔
          t.KeepsWhole i tokens true := by
  obtain ⟨path', hshape, _, hpath, hdata⟩ := h.extendSeqId_spec hi hready htokens
  have htarget (m : NodeId) (hm : t.Alive m) := h.extendSeqId_target hi hready htokens hm
  generalize t.extendSeqId n i tokens tokens.length = extended at hshape hpath hdata htarget ⊢
  obtain ⟨t', target⟩ := extended
  simp only at hshape hpath hdata htarget ⊢
  generalize hbefore : Function.update t.data n ((t.data n).drop i) = before at hdata
  have hnew : t'.data target = (before target).takeOver i tokens.length := by
    rw [hdata, Function.update_self]
  -- the move changes nothing about the other sequences of the target
  have hother (j : SeqId) (hj : j ≠ i) :
      (j ∈ (t'.data target).readySeqIds ↔ j ∈ (t.data target).readySeqIds) ∧
      (j ∈ (t'.data target).seqIds ↔ j ∈ (t.data target).seqIds) := by
    rw [hnew, ← hbefore]
    simp only [NodeData.takeOver, OrderedSet.mem_insert, hj, false_or, Function.update_apply]
    split
    · rename_i heq
      simp only [heq, NodeData.drop, OrderedSet.mem_erase, ne_eq, hj, not_false_eq_true,
        true_and, and_self]
    · exact ⟨Iff.rfl, Iff.rfl⟩
  have hmoved : i ∈ (t'.data target).readySeqIds := by
    rw [hnew]
    exact OrderedSet.mem_insert.mpr (Or.inl rfl)
  have hstays : (t'.data target).StaysReady i ↔
      (∃ j ∈ (t.data target).readySeqIds, j ≠ i) ∨ ∀ j ∈ (t.data target).seqIds, j = i := by
    rw [NodeData.StaysReady, and_iff_right hmoved]
    refine or_congr (exists_congr fun j => and_congr_left fun hj => (hother j hj).1)
      (forall_congr' fun j => ?_)
    constructor
    · intro hall hj
      by_contra hne
      exact hne (hall ((hother j hne).2.mpr hj))
    · intro hall hj
      by_contra hne
      exact hne (hall ((hother j hne).2.mp hj))
  have hends : t'.EndsIn target tokens := by
    have halive : t'.Alive target := RadixTree.alive_of_data fun hunused => by
      rw [hnew] at hunused
      exact OrderedSet.notMem_empty i (hunused.2 ▸ OrderedSet.mem_insert.mpr (Or.inl rfl))
    have hself := hshape.endsIn_self halive (by rw [hpath]; exact htokens)
    rwa [hpath] at hself
  have hleft : (∃ m, t'.EndsIn m tokens ∧ (t'.data m).StaysReady i) ↔
      (t'.data target).StaysReady i := by
    constructor
    · rintro ⟨m, hm, hstay⟩
      rwa [hshape.endsIn_unique hends hm]
    · exact fun hstay => ⟨target, hends, hstay⟩
  rw [hleft, hstays, RadixTree.KeepsWhole, and_iff_left (Or.inl rfl)]
  by_cases halive : t.Alive target
  · have hold : t.EndsIn target tokens := (htarget target halive).mp rfl
    refine or_congr ⟨fun hready => ⟨target, hold, hready⟩, ?_⟩ ⟨?_, fun hall => hall target hold⟩
    · rintro ⟨m, hm, hready⟩
      rwa [h.endsIn_unique hold hm]
    · intro halone m hm
      rwa [← h.endsIn_unique hold hm]
  · -- the extension made a new node for its tokens
    have hnone (m : NodeId) (hm : t.EndsIn m tokens) : False := by
      have hmalive := h.alive_of_enters hm.1
      exact halive ((htarget m hmalive).mpr hm ▸ hmalive)
    have hempty : (t.data target).seqIds = ∅ := by
      by_contra hsome
      exact halive (RadixTree.alive_of_data fun hunused => hsome hunused.2)
    refine iff_of_true (Or.inr fun j hj => ?_) (Or.inr fun m hm => (hnone m hm).elim)
    exact absurd (hempty ▸ hj) (OrderedSet.notMem_empty j)

/-- A sequence that is not extended leaves the node where the tokens end ready if another one is
ready there, or if it is alone and ready there itself. -/
theorem keepsWhole_iff (h : Shape t path) :
    t.KeepsWhole i tokens false ↔ ∃ m, t.EndsIn m tokens ∧ (t.data m).StaysReady i := by
  rw [RadixTree.KeepsWhole, or_iff_right (Bool.false_ne_true)]
  constructor
  · rintro (⟨m, hends, hother⟩ | ⟨halone, m, hends, hmem⟩)
    · exact ⟨m, hends, Or.inl hother⟩
    · exact ⟨m, hends, Or.inr ⟨hmem, halone m hends⟩⟩
  · rintro ⟨m, hends, hother | ⟨hmem, halone⟩⟩
    · exact Or.inl ⟨m, hends, hother⟩
    · exact Or.inr ⟨fun k hk => h.endsIn_unique hends hk ▸ halone, m, hends, hmem⟩

end Shape

end RadixForge
