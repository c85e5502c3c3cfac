import RadixForge.Tree.Agreement

/-!
# What pending prompts keep from others

A prompt is clear in a tree if ready sequences cover whatever pending ones cover of it. Enrolling a
clear prompt, that is inserting it with a pending sequence at its node, leaves another prompt clear
exactly if the two share nothing of the part that is the new prompt's own, or a ready node covers
what they share. After several prompts this is a condition on the tree before them all and on the
common beginnings of the prompts.
-/

namespace RadixForge

open Library

/-- A common beginning is common to both. -/
theorem matchLen_comm (as bs : List Token) : matchLen as bs = matchLen bs as := by
  refine le_antisymm ?_ ?_
  · obtain ⟨has, hbs, htake⟩ := le_matchLen_iff.mp (le_refl (matchLen as bs))
    exact le_matchLen_iff.mpr ⟨hbs, has, htake.symm⟩
  · obtain ⟨hbs, has, htake⟩ := le_matchLen_iff.mp (le_refl (matchLen bs as))
    exact le_matchLen_iff.mpr ⟨has, hbs, htake.symm⟩

/-- What two runs have in common with a third one they have in common. -/
theorem le_matchLen_trans {as bs cs : List Token} {k : ℕ} (h : k ≤ matchLen as bs)
    (h' : k ≤ matchLen bs cs) : k ≤ matchLen as cs := by
  obtain ⟨has, _, htake⟩ := le_matchLen_iff.mp h
  obtain ⟨_, hcs, htake'⟩ := le_matchLen_iff.mp h'
  exact le_matchLen_iff.mpr ⟨has, hcs, htake.trans htake'⟩

/-- A match with a beginning of a run. -/
theorem le_matchLen_take_iff {as bs : List Token} {k len : ℕ} :
    k ≤ matchLen (as.take len) bs ↔ k ≤ len ∧ k ≤ matchLen as bs := by
  rw [le_matchLen_iff, le_matchLen_iff, List.length_take, le_min_iff, List.take_take]
  constructor
  · rintro ⟨⟨hlen, has⟩, hbs, htake⟩
    rw [min_eq_left hlen] at htake
    exact ⟨hlen, has, hbs, htake⟩
  · rintro ⟨hlen, has, hbs, htake⟩
    rw [min_eq_left hlen]
    exact ⟨⟨hlen, has⟩, hbs, htake⟩

/-- A sequence that is not ready makes its node pending. -/
theorem NodeData.hasPending_of_mem {d : NodeData} (h : d.Coherent) {i : SeqId} (hi : i ∈ d.seqIds)
    (hready : i ∉ d.readySeqIds) : d.HasPending := by
  have hnodup : (i :: d.readySeqIds.toList).Nodup :=
    List.nodup_cons.mpr ⟨hready, d.readySeqIds.nodup⟩
  have hsubset : i :: d.readySeqIds.toList ⊆ d.seqIds.toList := by
    intro j hj
    rcases List.mem_cons.mp hj with rfl | hj
    · exact hi
    · exact h.1 j hj
  exact (hnodup.subperm hsubset).length_le

namespace RadixTree

/-- A node of a kind that the tokens enter has the given number of them in common with them. -/
def Covers (t : RadixTree) (kind : NodeData → Prop) (tokens : List Token) (c : ℕ) : Prop :=
  ∃ n, t.Enters n tokens ∧ kind (t.data n) ∧ c ≤ matchLen (t.pathTokens n) tokens

/-- Ready sequences cover whatever pending ones do. -/
def Clear (t : RadixTree) (tokens : List Token) : Prop :=
  ∀ c, 0 < c → t.Covers NodeData.HasPending tokens c → t.Covers NodeData.HasReady tokens c

/-- A depth at which a node ends on the way of the tokens, or at which they leave the tree. -/
def Ends (t : RadixTree) (tokens : List Token) (d : ℕ) : Prop :=
  (∃ n < t.nextId, t.pathTokens n = tokens.take d) ∨ (t.inspectPrefix tokens).matchedTokens = d

/-- A depth lies in the part of a prompt that is its own once earlier ones are enrolled: behind the
nodes that end on its way, behind where it leaves the tree, and behind where it parts from them. -/
def Reaches (t : RadixTree) (earlier : List (List Token)) (prompt : List Token) (c : ℕ) : Prop :=
  (∀ d < prompt.length, t.Ends prompt d → d < c) ∧
    ∀ p ∈ earlier, matchLen p prompt < prompt.length → matchLen p prompt < c

/-- A ready node covers the beginning of the tokens, and earlier prompts that enter it follow it as
far. -/
def ReadyBeside (t : RadixTree) (earlier : List (List Token)) (tokens : List Token) (c : ℕ) :
    Prop :=
  ∃ n < t.nextId, t.Enters n tokens ∧ (t.data n).HasReady ∧ c ≤ matchLen (t.pathTokens n) tokens ∧
    ∀ p ∈ earlier, t.Enters n p → c ≤ matchLen (t.pathTokens n) p

/-- A prompt is clear in the tree, and whatever it has in common with the own part of an earlier one
is ready. -/
def ClearBeside (t : RadixTree) (earlier : List (List Token)) (tokens : List Token) : Prop :=
  (t.inspectPrefix tokens).pendingTokens ≤ (t.inspectPrefix tokens).readyTokens ∧
    ∀ i (hi : i < earlier.length),
    t.Reaches (earlier.take i) earlier[i] (matchLen earlier[i] tokens) →
      t.ReadyBeside (earlier.take i) tokens (matchLen earlier[i] tokens)

instance (t : RadixTree) (tokens : List Token) (d : ℕ) : Decidable (t.Ends tokens d) :=
  inferInstanceAs (Decidable (_ ∨ _))

instance (t : RadixTree) (earlier : List (List Token)) (prompt : List Token) (c : ℕ) :
    Decidable (t.Reaches earlier prompt c) := inferInstanceAs (Decidable (_ ∧ _))

instance (t : RadixTree) (earlier : List (List Token)) (tokens : List Token) (c : ℕ) :
    Decidable (t.ReadyBeside earlier tokens c) := inferInstanceAs (Decidable (∃ n < t.nextId, _))

instance (t : RadixTree) (earlier : List (List Token)) (tokens : List Token) :
    Decidable (t.ClearBeside earlier tokens) := inferInstanceAs (Decidable (_ ∧ _))

end RadixTree

namespace Shape

variable {t : RadixTree} {path : NodeId → List Token} {tokens : List Token}

/-- The nodes that tokens enter lie on one way. -/
theorem entered_comparable (h : Shape t path) {n m : NodeId} (hn : t.Enters n tokens)
    (hm : t.Enters m tokens) : n = m ∨ path n <+: path m ∨ path m <+: path n := by
  obtain ⟨_, p, key, _, rest, _, _, _, hchild, hpath, htokens, _⟩ := h.enters_spec hn
  obtain ⟨_, q, key', _, rest', _, _, _, hchild', hpath', htokens', _⟩ := h.enters_spec hm
  have hpalive := RadixTree.alive_of_childAt hchild
  have hqalive := RadixTree.alive_of_childAt hchild'
  have hpt : path p <+: tokens := htokens ▸ List.prefix_append _ _
  have hqt : path q <+: tokens := htokens' ▸ List.prefix_append _ _
  rcases Nat.lt_trichotomy (path p).length (path q).length with hlt | heq | hlt
  · have hnq := h.path_le_of_entered hchild htokens hqalive hqt hlt
    exact .inr (.inl (hnq.trans (hpath' ▸ List.prefix_append _ _)))
  · have hpq : path p = path q := (List.prefix_of_prefix_length_le hpt hqt heq.le).eq_of_length heq
    obtain rfl := h.path_injective hpalive hqalive hpq
    rw [htokens, List.append_cancel_left_eq, List.cons.injEq] at htokens'
    rw [htokens'.1, hchild'] at hchild
    exact .inl (Option.some.inj hchild).symm
  · have hmp := h.path_le_of_entered hchild' htokens' hpalive hpt hlt
    exact .inr (.inr (hmp.trans (hpath ▸ List.prefix_append _ _)))

/-- An entered node has tokens in common, beyond every node above it. -/
theorem above_lt_of_enters (h : Shape t path) {n m : NodeId} (hn : t.Enters n tokens)
    (hm : t.Alive m) (hmn : path m <+: path n) (hne : m ≠ n) :
    (path m).length < matchLen (path n) tokens := by
  have hroot : n ≠ rootId := by
    rintro rfl
    exact h.not_enters_root tokens hn
  exact (h.enters_iff (h.alive_of_enters hn) hroot).mp hn m hm hmn hne

/-- Where two paths part, a node ends. -/
theorem exists_branch (h : Shape t path) {a b : NodeId} (ha : t.Alive a) (hb : t.Alive b)
    (hlta : matchLen (path a) (path b) < (path a).length)
    (hltb : matchLen (path a) (path b) < (path b).length) :
    ∃ n, t.Alive n ∧ path n = (path a).take (matchLen (path a) (path b)) := by
  set len := matchLen (path a) (path b)
  obtain ⟨hle, _, htake⟩ := le_matchLen_iff.mp (le_refl len)
  -- the induction is on the depth that is left below an ancestor of both
  have hdescend (k : ℕ) : ∀ n, t.Alive n → path n <+: path a → (path n).length ≤ len →
      len - (path n).length ≤ k → ∃ n, t.Alive n ∧ path n = (path a).take len := by
    induction k with
    | zero =>
      intro n hn hna hlen hleft
      have heq : (path n).length = len := by omega
      exact ⟨n, hn, heq ▸ List.prefix_iff_eq_take.mp hna⟩
    | succ k ih =>
      intro n hn hna hlen hleft
      rcases hlen.lt_or_eq with hlt | heq
      · have hnb : path n <+: path b := by
          have hshort : path n <+: (path b).take len :=
            htake ▸ List.prefix_take_iff.mpr ⟨hna, hlen⟩
          exact hshort.trans (List.take_prefix _ _)
        rcases h.eq_or_child_toward hn ha hna with rfl | ⟨key, c, hc, hca⟩
        · omega
        · rcases h.eq_or_child_toward hn hb hnb with rfl | ⟨key', c', hc', hcb⟩
          · omega
          · have hdeeper := h.child_lt hc
            by_cases hover : (path c).length ≤ len
            · exact ih c (h.child_alive hc) hca hover (by omega)
            · -- both children follow the common beginning beyond its end, so they are one
              have hone : (path n).length + 1 ≤ len := hlt
              obtain ⟨y, yrest, hy, _, hytok⟩ := h.down hc
              obtain ⟨z, zrest, hz, _, hztok⟩ := h.down hc'
              have hnext := congrArg (List.take ((path n).length + 1)) htake
              rw [List.take_take, List.take_take, min_eq_left hone] at hnext
              have hkey : ∀ {d : NodeId} {x : RadixNode} {k : Token} {rest : List Token}
                  {w : List Token}, path d = path n ++ x.tokens → x.tokens = k :: rest →
                  path d <+: w → w.take ((path n).length + 1) = path n ++ [k] := by
                intro d x k rest w hd hx hw
                obtain ⟨v, rfl⟩ := hw
                rw [hd, hx, List.append_assoc, List.take_append]
                simp
              rw [hkey (h.child_path hc hy) hytok hca, hkey (h.child_path hc' hz) hztok hcb,
                List.append_cancel_left_eq] at hnext
              obtain rfl := List.head_eq_of_cons_eq hnext
              rw [hc] at hc'
              obtain rfl := Option.some.inj hc'
              have hmore : (path c).length ≤ len := by
                refine le_matchLen_iff.mpr ⟨hca.length_le, hcb.length_le, ?_⟩
                rw [← List.prefix_iff_eq_take.mp hca, ← List.prefix_iff_eq_take.mp hcb]
              exact absurd hmore hover
      · exact ⟨n, hn, heq ▸ List.prefix_iff_eq_take.mp hna⟩
  exact hdescend len rootId h.root_alive (h.rootPath ▸ List.nil_prefix)
    (by rw [h.rootPath]; exact Nat.zero_le _)
    (Nat.sub_le _ _)

/-- The inspection compares the coverages. -/
theorem clear_iff (h : Shape t path) (hcoherent : t.Coherent)
    (hcanonical : ∀ n, (t.data n).seqIds ≠ ∅ → (path n).length ≤ (t.data n).canonicalLen)
    (tokens : List Token) :
    t.Clear tokens ↔ (t.inspectPrefix tokens).pendingTokens ≤
      (t.inspectPrefix tokens).readyTokens := by
  obtain ⟨_, hready, hpending⟩ := h.inspectPrefix_spec tokens
  -- a node that owns sequences covers all that it has in common with the tokens
  have hcovers {kind : NodeData → Prop} [DecidablePred kind]
      (howns : ∀ d : NodeData, d.Coherent → kind d → d.seqIds ≠ ∅) {value : ℕ}
      (hvalue : IsGreatest (Set.range (t.share kind tokens)) value) {c : ℕ} (hc : 0 < c) :
      t.Covers kind tokens c ↔ c ≤ value := by
    constructor
    · rintro ⟨n, henters, hkind, hle⟩
      refine le_trans ?_ (hvalue.2 ⟨n, rfl⟩)
      have hn := h.alive_of_enters henters
      rw [h.pathTokens_eq hn] at hle
      rw [h.share_eq kind hn, if_pos ⟨henters, hkind⟩]
      exact le_min hle ((hle.trans (matchLen_le_left _ _)).trans
        (hcanonical n (howns _ (hcoherent n) hkind)))
    · intro hle
      obtain ⟨n, rfl⟩ := hvalue.1
      obtain ⟨henters, hkind, hn⟩ := h.alive_of_share (lt_of_lt_of_le hc hle)
      rw [h.share_eq kind hn, if_pos ⟨henters, hkind⟩] at hle
      exact ⟨n, henters, hkind, h.pathTokens_eq hn ▸ hle.trans (min_le_left _ _)⟩
  have hpending' {c : ℕ} (hc : 0 < c) :=
    hcovers (fun _ hd => NodeData.HasPending.owns hd) hpending hc
  have hready' {c : ℕ} (hc : 0 < c) := hcovers (fun _ hd => NodeData.HasReady.owns hd) hready hc
  constructor
  · intro hclear
    rcases Nat.eq_zero_or_pos (t.inspectPrefix tokens).pendingTokens with hzero | hpos
    · exact hzero ▸ Nat.zero_le _
    · exact (hready' hpos).mp (hclear _ hpos ((hpending' hpos).mpr le_rfl))
  · intro hle c hc hcovered
    exact (hready' hc).mpr (((hpending' hc).mp hcovered).trans hle)

end Shape

end RadixForge
