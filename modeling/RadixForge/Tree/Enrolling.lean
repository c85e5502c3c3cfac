import RadixForge.Tree.Sharing

/-!
# Enrolling prompts one after the other

Enrolling inserts a prompt and registers a pending sequence at its node. It cuts the nodes that the
prompt enters, moves no ready sequence, and adds one node end to the way of every other prompt:
where the two part. From these three facts a run of enrollments is described by the tree before it.
-/

namespace RadixForge

open Library

/-- The tree after a prompt was inserted and a pending sequence was registered at its node. -/
structure Enrolled (t : RadixTree) (prompt : List Token) (t' : RadixTree) (node : NodeId) :
    Prop where
  shape : Shape t t.pathTokens
  shape' : Shape t' t'.pathTokens
  alive : ∀ n, t.Alive n → t'.Alive n
  ends : t'.Alive node ∧ t'.pathTokens node = prompt
  kept : ∀ n, t.Alive n → ∃ n', t'.Alive n' ∧ t'.pathTokens n' = t.pathTokens n
  matched : ∃ n, t'.Alive n ∧ t'.pathTokens n = prompt.take (t.inspectPrefix prompt).matchedTokens
  only : ∀ n, t'.Alive n → (∃ n', t.Alive n' ∧ t'.pathTokens n = t.pathTokens n') ∨
    t'.pathTokens n = prompt.take (t.inspectPrefix prompt).matchedTokens ∨ t'.pathTokens n = prompt
  shorter : ∀ n, t.Alive n → t'.pathTokens n <+: t.pathTokens n
  same : ∀ n, t.Alive n → t'.pathTokens n = t.pathTokens n ∧ ¬ t.StopsInside n prompt ∨
    t'.pathTokens n = prompt.take (t.inspectPrefix prompt).matchedTokens ∧ t.StopsInside n prompt
  ready : ∀ n, (t'.data n).HasReady ↔ (t.data n).HasReady
  pending : ∀ n, (t'.data n).HasPending ↔ n = node ∨ (t.data n).HasPending

/-- Trees that differ in nothing that an inspection sees. -/
structure Alike (t t' : RadixTree) : Prop where
  shape : Shape t t.pathTokens
  shape' : Shape t' t'.pathTokens
  alive : ∀ n, t'.Alive n ↔ t.Alive n
  paths : ∀ n, t.Alive n → t'.pathTokens n = t.pathTokens n
  ready : ∀ n, n ≠ rootId → ((t'.data n).HasReady ↔ (t.data n).HasReady)
  pending : ∀ n, n ≠ rootId → ((t'.data n).HasPending ↔ (t.data n).HasPending)

/-- Nodes that have sequences are in the tree. -/
theorem NodeData.HasReady.alive {t : RadixTree} {n : NodeId} (h : (t.data n).HasReady) :
    t.Alive n := by
  refine Option.ne_none_iff_exists'.mp fun hnone => ?_
  rw [RadixTree.data_of_none hnone] at h
  exact h rfl

/-- Nodes that have pending sequences are in the tree. -/
theorem NodeData.HasPending.alive {t : RadixTree} {n : NodeId} (h : (t.data n).HasPending) :
    t.Alive n := by
  refine Option.ne_none_iff_exists'.mp fun hnone => ?_
  rw [RadixTree.data_of_none hnone] at h
  exact Nat.not_lt_zero _ h

/-- The paths that the tree itself spells out are as good as any. -/
theorem Shape.spelled {t : RadixTree} {path : NodeId → List Token} (h : Shape t path) :
    Shape t t.pathTokens := h.congr_path fun _ hn => h.pathTokens_eq hn

/-- Tokens match no path further than an inspection reports. -/
theorem Shape.matchLen_le_matched {t : RadixTree} {path : NodeId → List Token} (h : Shape t path)
    (n : NodeId) (tokens : List Token) :
    matchLen (t.pathTokens n) tokens ≤ (t.inspectPrefix tokens).matchedTokens :=
  (h.inspectPrefix_spec tokens).1.2 ⟨n, rfl⟩

/-- Some path is matched as far as an inspection reports. -/
theorem Shape.exists_matched {t : RadixTree} {path : NodeId → List Token} (h : Shape t path)
    (tokens : List Token) : ∃ n, t.Alive n ∧
      matchLen (t.pathTokens n) tokens = (t.inspectPrefix tokens).matchedTokens := by
  obtain ⟨⟨n, hn⟩, _⟩ := (h.inspectPrefix_spec tokens).1
  cases hnode : t.nodes n with
  | some x => exact ⟨n, ⟨x, hnode⟩, hn⟩
  | none =>
    refine ⟨rootId, h.root_alive, ?_⟩
    simp only [RadixTree.pathTokens_of_none hnode] at hn
    rw [h.pathTokens_eq h.root_alive, h.rootPath, hn]

/-- An inspection matches no more than there is. -/
theorem Shape.matched_le {t : RadixTree} {path : NodeId → List Token} (h : Shape t path)
    (tokens : List Token) : (t.inspectPrefix tokens).matchedTokens ≤ tokens.length := by
  obtain ⟨n, _, hn⟩ := h.exists_matched tokens
  exact hn ▸ matchLen_le_right _ _

/-- Tokens that part from a prompt behind everything the tree has of it match as much of the tree.
-/
theorem Shape.matched_eq {t : RadixTree} {path : NodeId → List Token} (h : Shape t path)
    {prompt tokens : List Token}
    (hlt : (t.inspectPrefix prompt).matchedTokens < matchLen prompt tokens) :
    (t.inspectPrefix tokens).matchedTokens = (t.inspectPrefix prompt).matchedTokens := by
  refine le_antisymm (not_lt.mp fun hmore => ?_) ?_
  · obtain ⟨n, _, hn⟩ := h.exists_matched tokens
    have hboth : (t.inspectPrefix prompt).matchedTokens + 1 ≤ matchLen (t.pathTokens n) prompt :=
      le_matchLen_trans (hn ▸ hmore) (matchLen_comm prompt tokens ▸ hlt)
    exact absurd (hboth.trans (h.matchLen_le_matched n prompt)) (Nat.not_succ_le_self _)
  · obtain ⟨n, _, hn⟩ := h.exists_matched prompt
    exact (le_matchLen_trans hn.ge hlt.le).trans (h.matchLen_le_matched n tokens)

/-- A depth at which a living node ends on the way of the tokens. -/
theorem Shape.exists_ends {t : RadixTree} (h : Shape t t.pathTokens) {tokens : List Token} {d : ℕ} :
    t.Ends tokens d ↔ (∃ n, t.Alive n ∧ t.pathTokens n = tokens.take d) ∨
      (t.inspectPrefix tokens).matchedTokens = d := by
  refine or_congr_left ⟨?_, ?_⟩
  · rintro ⟨n, _, hn⟩
    cases hnode : t.nodes n with
    | some x => exact ⟨n, ⟨x, hnode⟩, hn⟩
    | none =>
      refine ⟨rootId, h.root_alive, ?_⟩
      rw [h.rootPath, ← hn, RadixTree.pathTokens_of_none hnode]
  · rintro ⟨n, ⟨x, hx⟩, hn⟩
    exact ⟨n, h.fresh hx, hn⟩

/-- Inserting a prompt and registering a sequence that no node has enrolls the prompt. -/
theorem Shape.enrolled {t : RadixTree} {path : NodeId → List Token} (h : Shape t path)
    (hcoherent : t.Coherent) (prompt : List Token) {i : SeqId} (hi : ∀ n, i ∉ (t.data n).seqIds)
    (len : ℕ) :
    Enrolled t prompt ((t.insert prompt).1.registerSeqId (t.insert prompt).2.node i len)
      (t.insert prompt).2.node := by
  obtain ⟨path₁, hinserted⟩ := insert_spec h.spelled prompt
  obtain ⟨path', cut, hshape, hshorter, hpath, hnode, _, hgreatest, hspelled⟩ :=
    h.spelled.insert_respelled prompt
  have hmatched : (t.insert prompt).2.matchedTokens = (t.inspectPrefix prompt).matchedTokens :=
    hgreatest.unique (h.inspectPrefix_spec prompt).1
  have hcache := hinserted.alive _ hinserted.cacheNode
  have hcachePath := hinserted.cachePath
  rw [← hinserted.shape.pathTokens_eq hcache, hshape.pathTokens_eq hcache] at hcachePath
  rw [hmatched] at hcachePath hspelled
  obtain ⟨hregistered, hdata⟩ := hshape.registerSeqId_spec hnode i len
  rw [hinserted.data, Function.update_idem, Function.update_self] at hdata
  have halive (n : NodeId) :
      ((t.insert prompt).1.registerSeqId (t.insert prompt).2.node i len).Alive n ↔
      (t.insert prompt).1.Alive n := RadixTree.alive_modify
  have hpaths {n : NodeId} (hn : (t.insert prompt).1.Alive n) :
      ((t.insert prompt).1.registerSeqId (t.insert prompt).2.node i len).pathTokens n = path' n :=
    hregistered.pathTokens_eq ((halive n).mpr hn)
  refine ⟨h.spelled, hregistered.spelled, fun n hn => (halive n).mpr (hinserted.alive n hn),
    ⟨(halive _).mpr hnode, (hpaths hnode).trans hpath⟩, fun n hn => ?_,
    ⟨_, (halive _).mpr hcache, ?_⟩,
    fun n hn => ?_, fun n hn => ?_, fun n hn => ?_, fun n => ?_, fun n => ?_⟩
  · obtain ⟨n', hn', hkept⟩ := hspelled.kept n hn
    exact ⟨n', (halive n').mpr hn', (hpaths hn').trans hkept⟩
  · exact (hpaths hcache).trans hcachePath
  · rw [hpaths ((halive n).mp hn)]
    exact hspelled.only n ((halive n).mp hn)
  · exact hpaths (hinserted.alive n hn) ▸ hshorter n hn
  · rw [hpaths (hinserted.alive n hn)]
    exact (hspelled.same n hn).imp_right And.right
  · rw [hdata, Function.update_apply]
    split
    · rename_i heq
      exact heq ▸ Iff.rfl
    · exact Iff.rfl
  · rw [hdata, Function.update_apply]
    split
    · rename_i heq
      refine iff_of_true (NodeData.hasPending_of_mem (i := i) ?_ ?_ ?_) (.inl heq)
      · exact (hcoherent _).hold.register i len
      · exact OrderedSet.mem_insert.mpr (.inl rfl)
      · exact fun hready => hi _ ((hcoherent _).1 i hready)
    · rename_i hne
      exact (or_iff_right hne).symm

namespace Enrolled

variable {t t' : RadixTree} {prompt tokens : List Token} {node n : NodeId}

/-- An entered node keeps what it has in common with the prompt. -/
theorem path_of_enters (h : Enrolled t prompt t' node) (hn : t.Enters n prompt) :
    t'.pathTokens n = (t.pathTokens n).take (matchLen (t.pathTokens n) prompt) := by
  have halive := h.shape.alive_of_enters hn
  rcases h.same n halive with ⟨hsame, hnot⟩ | ⟨hcut, _⟩
  · have hfull : matchLen (t.pathTokens n) prompt = (t.pathTokens n).length :=
      le_antisymm (matchLen_le_left _ _) (not_lt.mp fun hlt => hnot ⟨hn, hlt⟩)
    rw [hsame, hfull, List.take_length]
  · have hlen : (prompt.take (t.inspectPrefix prompt).matchedTokens).length =
        (t.inspectPrefix prompt).matchedTokens := by
      rw [List.length_take, min_eq_left (h.shape.matched_le prompt)]
    have hshorter := h.shorter n halive
    rw [hcut] at hshorter ⊢
    have hmatched : matchLen (t.pathTokens n) prompt = (t.inspectPrefix prompt).matchedTokens := by
      refine le_antisymm (h.shape.matchLen_le_matched n prompt) (le_matchLen_iff.mpr ⟨?_, ?_, ?_⟩)
      · exact hlen ▸ hshorter.length_le
      · exact h.shape.matched_le prompt
      · conv_rhs => rw [List.prefix_iff_eq_take.mp hshorter, hlen]
    rw [hmatched]
    conv_lhs => rw [List.prefix_iff_eq_take.mp hshorter, hlen]

/-- A node that is not entered keeps its path. -/
theorem path_of_not_enters (h : Enrolled t prompt t' node) (hn : t.Alive n)
    (hnot : ¬ t.Enters n prompt) :
    t'.pathTokens n = t.pathTokens n := by
  rcases h.same n hn with hsame | hcut
  · exact hsame.1
  · exact absurd hcut.2.1 hnot

/-- What other tokens have in common with a node afterwards. -/
theorem le_match_iff (h : Enrolled t prompt t' node) (hn : t.Alive n) (c : ℕ) :
    c ≤ matchLen (t'.pathTokens n) tokens ↔ c ≤ matchLen (t.pathTokens n) tokens ∧
      (t.Enters n prompt → c ≤ matchLen (t.pathTokens n) prompt) := by
  by_cases henters : t.Enters n prompt
  · rw [h.path_of_enters henters, le_matchLen_take_iff, and_comm]
    exact and_congr_right fun _ => ⟨fun hle _ => hle, fun hle => hle henters⟩
  · rw [h.path_of_not_enters hn henters]
    exact ⟨fun hle => ⟨hle, fun hin => absurd hin henters⟩, fun hand => hand.1⟩

/-- A node that ends as deep as the prompt matched the tree is above another one only if a node of
the tree was there before. -/
theorem matched_above (h : Enrolled t prompt t' node) (hn : t.Alive n) {m : NodeId}
    (hm : t'.Alive m) (hpath : t'.pathTokens m = prompt.take (t.inspectPrefix prompt).matchedTokens)
    (hmn : t'.pathTokens m <+: t'.pathTokens n) (hne : m ≠ n) (henters : t.Enters n tokens) :
    (t'.pathTokens m).length < matchLen (t'.pathTokens n) tokens := by
  have hlen : (t'.pathTokens m).length = (t.inspectPrefix prompt).matchedTokens := by
    rw [hpath, List.length_take, min_eq_left (h.shape.matched_le prompt)]
  have hnt := h.shorter n hn
  have hmatched : matchLen (t.pathTokens n) prompt = (t.inspectPrefix prompt).matchedTokens := by
    refine le_antisymm (h.shape.matchLen_le_matched n prompt) (le_matchLen_iff.mpr ⟨?_, ?_, ?_⟩)
    · exact hlen ▸ (hmn.trans hnt).length_le
    · exact h.shape.matched_le prompt
    · rw [← hpath]
      conv_rhs => rw [List.prefix_iff_eq_take.mp (hmn.trans hnt), hlen]
  by_cases hin : t.Enters n prompt
  · -- an entered node ends there itself
    have hself := h.path_of_enters hin
    rw [hmatched, ← hlen, ← List.prefix_iff_eq_take.mp (hmn.trans hnt)] at hself
    exact absurd (h.shape'.path_injective hm (h.alive n hn) hself.symm) hne
  · have hroot : n ≠ rootId := by
      rintro rfl
      exact h.shape.not_enters_root tokens henters
    rw [h.shape.enters_iff hn hroot] at hin
    push Not at hin
    obtain ⟨a, ha, han, hane, hle⟩ := hin
    rw [h.path_of_not_enters hn (fun hin' => ?_)]
    · rw [hlen, ← hmatched]
      exact lt_of_le_of_lt hle (h.shape.above_lt_of_enters henters ha han hane)
    · exact absurd (h.shape.above_lt_of_enters hin' ha han hane) (not_lt.mpr hle)

/-- The same tokens enter a node afterwards. -/
theorem enters_iff (h : Enrolled t prompt t' node) (hn : t.Alive n) (tokens : List Token) :
    t'.Enters n tokens ↔ t.Enters n tokens := by
  by_cases hroot : n = rootId
  · subst hroot
    exact iff_of_false (h.shape'.not_enters_root tokens) (h.shape.not_enters_root tokens)
  constructor
  · intro henters
    rw [h.shape.enters_iff hn hroot]
    intro m hm hmn hne
    obtain ⟨m', hm', hpath⟩ := h.kept m hm
    have hbefore : matchLen (t'.pathTokens n) tokens ≤ matchLen (t.pathTokens n) tokens :=
      ((h.le_match_iff hn _).mp le_rfl).1
    have habove : t.pathTokens m <+: t'.pathTokens n ∧
        (t.pathTokens m).length < (t.pathTokens n).length := by
      have hstrict : (t.pathTokens m).length < (t.pathTokens n).length :=
        lt_of_le_of_ne hmn.length_le fun heq =>
          hne (h.shape.path_injective hm hn (hmn.eq_of_length heq))
      refine ⟨?_, hstrict⟩
      by_cases hin : t.Enters n prompt
      · rw [h.path_of_enters hin]
        exact List.prefix_take_iff.mpr ⟨hmn, (h.shape.above_lt_of_enters hin hm hmn hne).le⟩
      · rw [h.path_of_not_enters hn hin]
        exact hmn
    rw [← hpath] at habove ⊢
    refine lt_of_lt_of_le (h.shape'.above_lt_of_enters henters hm' habove.1 ?_) hbefore
    rintro rfl
    rw [hpath] at habove
    by_cases hin : t.Enters m' prompt
    · have hlt := h.shape.above_lt_of_enters hin hm hmn hne
      rw [← hpath, h.path_of_enters hin, List.length_take,
        min_eq_left (matchLen_le_left _ _)] at hlt
      exact lt_irrefl _ hlt
    · rw [h.path_of_not_enters hn hin] at hpath
      exact habove.2.ne (congrArg List.length hpath).symm
  · intro henters
    rw [h.shape'.enters_iff (h.alive n hn) hroot]
    intro m hm hmn hne
    rcases h.only m hm with ⟨m₀, hm₀, hpath⟩ | hpath | hpath
    · have hnt := h.shorter n hn
      have hne₀ : m₀ ≠ n := by
        rintro rfl
        have hsame : t'.pathTokens m = t'.pathTokens m₀ :=
          hmn.eq_of_length (le_antisymm hmn.length_le (hpath ▸ hnt.length_le))
        exact hne (h.shape'.path_injective hm (h.alive _ hn) hsame)
      have hup : t.pathTokens m₀ <+: t.pathTokens n := hpath ▸ hmn.trans hnt
      rw [hpath]
      refine (h.le_match_iff hn _).mpr
        ⟨h.shape.above_lt_of_enters henters hm₀ hup hne₀, fun hin => ?_⟩
      exact h.shape.above_lt_of_enters hin hm₀ hup hne₀
    · exact h.matched_above hn hm hpath hmn hne henters
    · refine h.matched_above hn hm ?_ hmn hne henters
      -- a prompt that is the beginning of a path is matched as a whole
      have hwhole : prompt <+: t.pathTokens n := hpath ▸ hmn.trans (h.shorter n hn)
      have hall : prompt.length ≤ matchLen (t.pathTokens n) prompt := by
        rw [matchLen_comm, matchLen_of_isPrefix hwhole]
      rw [hpath, List.take_of_length_le (hall.trans (h.shape.matchLen_le_matched n prompt))]

/-- Tokens enter the node of the prompt if they reach into the prompt's own part. -/
theorem enters_node_iff (h : Enrolled t prompt t' node) (hne : prompt ≠ []) (tokens : List Token) :
    t'.Enters node tokens ↔ t.Reaches [] prompt (matchLen prompt tokens) := by
  obtain ⟨hnode, hpath⟩ := h.ends
  have hroot : node ≠ rootId := by
    rintro rfl
    exact hne (hpath.symm.trans h.shape'.rootPath)
  have hmatched : (prompt.take (t.inspectPrefix prompt).matchedTokens).length =
      (t.inspectPrefix prompt).matchedTokens := by
    rw [List.length_take, min_eq_left (h.shape.matched_le prompt)]
  rw [h.shape'.enters_iff hnode hroot, hpath]
  constructor
  · refine fun hall => ⟨fun d hd hends => ?_, fun p hp => absurd hp List.not_mem_nil⟩
    have hstop {m : NodeId} (hm : t'.Alive m) (hmpath : t'.pathTokens m = prompt.take d) :
        d < matchLen prompt tokens := by
      have hlen : (t'.pathTokens m).length = d := by
        rw [hmpath, List.length_take, min_eq_left hd.le]
      refine hlen ▸ hall m hm (hmpath ▸ List.take_prefix _ _) ?_
      rintro rfl
      rw [hpath] at hlen
      exact hd.ne hlen.symm
    rcases h.shape.exists_ends.mp hends with ⟨n, hn, hnpath⟩ | rfl
    · obtain ⟨n', hn', hkept⟩ := h.kept n hn
      exact hstop hn' (hkept.trans hnpath)
    · obtain ⟨m, hm, hmpath⟩ := h.matched
      exact hstop hm hmpath
  · rintro ⟨hall, _⟩ m hm hmp hmne
    have hshort : (t'.pathTokens m).length < prompt.length := by
      refine lt_of_le_of_ne hmp.length_le fun heq => hmne ?_
      exact h.shape'.path_injective hm hnode ((hmp.eq_of_length heq).trans hpath.symm)
    refine hall _ hshort (h.shape.exists_ends.mpr ?_)
    rcases h.only m hm with ⟨m₀, hm₀, hpath₀⟩ | hpath₀ | hpath₀
    · exact .inl ⟨m₀, hm₀, hpath₀ ▸ List.prefix_iff_eq_take.mp hmp⟩
    · exact .inr (by rw [hpath₀, hmatched])
    · exact absurd (congrArg List.length hpath₀) hshort.ne

/-- Enrolling leaves a ready node that covers a common beginning with the prompt its coverage. -/
theorem covers_shared (h : Enrolled t prompt t' node) {c : ℕ} (hc : c ≤ matchLen prompt tokens)
    (hcovers : t.Covers NodeData.HasReady tokens (matchLen prompt tokens)) :
    t'.Covers NodeData.HasReady tokens c := by
  obtain ⟨r, henters, hready, hle⟩ := hcovers
  have hr := h.shape.alive_of_enters henters
  refine ⟨r, (h.enters_iff hr tokens).mpr henters, (h.ready r).mpr hready,
    (h.le_match_iff hr c).mpr ⟨hc.trans hle, fun _ => ?_⟩⟩
  exact le_matchLen_trans (hc.trans hle) (matchLen_comm prompt tokens ▸ hc)

/-- A clear prompt that stops inside a pending node finds that node ready. -/
theorem ready_of_cut (h : Enrolled t prompt t' node) (hclear : t.Clear prompt)
    (hpending : (t.data n).HasPending) (henters : t.Enters n prompt)
    (hstops : matchLen (t.pathTokens n) prompt < (t.pathTokens n).length) :
    (t.data n).HasReady := by
  have hpos : 0 < matchLen (t.pathTokens n) prompt := Nat.zero_lt_of_lt henters
  obtain ⟨r, hr, hready, hle⟩ := hclear _ hpos ⟨n, henters, hpending, le_rfl⟩
  rcases h.shape.entered_comparable hr henters with rfl | hrn | hnr
  · exact hready
  · by_cases hne : r = n
    · exact hne ▸ hready
    · have habove := h.shape.above_lt_of_enters henters (h.shape.alive_of_enters hr) hrn hne
      exact absurd (hle.trans (matchLen_le_left _ _)) (not_le.mpr habove)
  · by_cases hne : n = r
    · exact hne ▸ hready
    · have habove := h.shape.above_lt_of_enters hr (h.shape.alive_of_enters henters) hnr hne
      -- a match with the longer path would go on in the shorter one
      have hboth : (t.pathTokens n).length ≤ matchLen (t.pathTokens n) prompt := by
        obtain ⟨_, hlen, htake⟩ := le_matchLen_iff.mp habove.le
        refine le_matchLen_iff.mpr ⟨le_rfl, hlen, ?_⟩
        rw [List.take_length, ← htake]
        exact List.prefix_iff_eq_take.mp hnr
      exact absurd hboth (not_le.mpr hstops)

/-- After a clear prompt was enrolled, tokens are clear if they were and what they share with the
prompt's own part is ready. -/
theorem clear_iff (h : Enrolled t prompt t' node) (hne : prompt ≠ []) (hclear : t.Clear prompt)
    (tokens : List Token) : t'.Clear tokens ↔ t.Clear tokens ∧
      (t.Reaches [] prompt (matchLen prompt tokens) →
        t.Covers NodeData.HasReady tokens (matchLen prompt tokens)) := by
  -- what is ready afterwards was ready before
  have hbefore {c : ℕ} (hcovers : t'.Covers NodeData.HasReady tokens c) :
      t.Covers NodeData.HasReady tokens c := by
    obtain ⟨r, henters, hready, hle⟩ := hcovers
    have hr := ((h.ready r).mp hready).alive
    exact ⟨r, (h.enters_iff hr tokens).mp henters, (h.ready r).mp hready,
      ((h.le_match_iff hr c).mp hle).1⟩
  constructor
  · refine fun hafter => ⟨fun c hc hcovers => ?_, fun hreaches => hbefore ?_⟩
    · obtain ⟨n, henters, hpending, hle⟩ := hcovers
      have hn := h.shape.alive_of_enters henters
      by_cases hcut : t.Enters n prompt ∧ matchLen (t.pathTokens n) prompt < c
      · obtain ⟨hin, hlt⟩ := hcut
        have hready := h.ready_of_cut hclear hpending hin
          (hlt.trans_le (hle.trans (matchLen_le_left _ _)))
        exact ⟨n, henters, hready, hle⟩
      · push Not at hcut
        exact hbefore (hafter c hc ⟨n, (h.enters_iff hn tokens).mpr henters,
          (h.pending n).mpr (.inr hpending), (h.le_match_iff hn c).mpr ⟨hle, hcut⟩⟩)
    · have hpos : 0 < matchLen prompt tokens := by
        refine hreaches.1 0 (List.length_pos_iff.mpr hne) (h.shape.exists_ends.mpr (.inl ?_))
        exact ⟨rootId, h.shape.root_alive, by rw [h.shape.rootPath, List.take_zero]⟩
      exact hafter _ hpos ⟨node, (h.enters_node_iff hne tokens).mpr hreaches,
        (h.pending node).mpr (.inl rfl), h.ends.2 ▸ le_rfl⟩
  · rintro ⟨hwas, hshared⟩ c hc ⟨n, henters, hpending, hle⟩
    by_cases hnode : n = node
    · subst hnode
      rw [h.ends.2] at hle
      exact h.covers_shared hle (hshared ((h.enters_node_iff hne tokens).mp henters))
    · have hwasPending := ((h.pending n).mp hpending).resolve_left hnode
      have hn := hwasPending.alive
      have henters' := (h.enters_iff hn tokens).mp henters
      -- the ready node that covers all of the match is not cut, or it is the pending one itself
      obtain ⟨r, hr, hready, hrle⟩ :=
        hwas _ (Nat.zero_lt_of_lt henters') ⟨n, henters', hwasPending, le_rfl⟩
      have hralive := h.shape.alive_of_enters hr
      refine ⟨r, (h.enters_iff hralive tokens).mpr hr, (h.ready r).mpr hready, ?_⟩
      obtain ⟨hmatch, hcut⟩ := (h.le_match_iff hn c).mp hle
      refine (h.le_match_iff hralive c).mpr ⟨hmatch.trans hrle, fun hin => ?_⟩
      by_cases hrn : r = n
      · exact hrn ▸ hcut (hrn ▸ hin)
      rcases h.shape.entered_comparable hr henters' with heq | habove | hbelow
      · exact absurd heq hrn
      · have hlt := h.shape.above_lt_of_enters henters' hralive habove hrn
        exact absurd (hrle.trans (matchLen_le_left _ _)) (not_le.mpr hlt)
      · have hlt := h.shape.above_lt_of_enters hin hn hbelow (Ne.symm hrn)
        exact (hmatch.trans (matchLen_le_left _ _)).trans hlt.le

/-- The prompt is in the tree, so no tokens match less of it than they share with the prompt. -/
theorem matchLen_le_matched' (h : Enrolled t prompt t' node) (tokens : List Token) :
    matchLen prompt tokens ≤ (t'.inspectPrefix tokens).matchedTokens := by
  have hmatched := h.shape'.matchLen_le_matched node tokens
  rwa [h.ends.2] at hmatched

/-- What is matched of tokens does not get less. -/
theorem matched_mono (h : Enrolled t prompt t' node) (tokens : List Token) :
    (t.inspectPrefix tokens).matchedTokens ≤ (t'.inspectPrefix tokens).matchedTokens := by
  obtain ⟨n, hn, hreached⟩ := h.shape.exists_matched tokens
  obtain ⟨n', _, hkept⟩ := h.kept n hn
  rw [← hreached, ← hkept]
  exact h.shape'.matchLen_le_matched n' tokens

/-- Where a node ended on the way of the tokens, one ends still. -/
theorem ends_kept (h : Enrolled t prompt t' node) {tokens : List Token} {d : ℕ}
    (hends : t.Ends tokens d) :
    t'.Ends tokens d := by
  rcases h.shape.exists_ends.mp hends with ⟨n, hn, hnpath⟩ | hmatched
  · obtain ⟨n', hn', hkept⟩ := h.kept n hn
    exact h.shape'.exists_ends.mpr (.inl ⟨n', hn', hkept.trans hnpath⟩)
  · by_cases hbeyond : d < matchLen prompt tokens
    · -- the prompt leaves the old tree there too, and a node ends there now
      have hsame : (t.inspectPrefix prompt).matchedTokens = d := by
        rw [← hmatched] at hbeyond ⊢
        exact h.shape.matched_eq (matchLen_comm prompt tokens ▸ hbeyond)
      obtain ⟨m, hm, hmpath⟩ := h.matched
      refine h.shape'.exists_ends.mpr (.inl ⟨m, hm, ?_⟩)
      rw [hmpath, hsame]
      exact (le_matchLen_iff.mp hbeyond.le).2.2
    · refine h.shape'.exists_ends.mpr (.inr (le_antisymm ?_ (hmatched ▸ h.matched_mono tokens)))
      obtain ⟨n, hn, hreached⟩ := h.shape'.exists_matched tokens
      rw [← hreached]
      rcases h.only n hn with ⟨n₀, _, hpath₀⟩ | hpath₀ | hpath₀
      · exact hpath₀ ▸ hmatched ▸ h.shape.matchLen_le_matched n₀ tokens
      · rw [hpath₀]
        exact (le_matchLen_take_iff.mp le_rfl).2.trans (not_lt.mp hbeyond)
      · exact hpath₀ ▸ not_lt.mp hbeyond

/-- A node ends where the tokens part from the prompt. -/
theorem ends_parting (h : Enrolled t prompt t' node) {tokens : List Token} :
    t'.Ends tokens (matchLen prompt tokens) := by
  obtain ⟨hnode, hpath⟩ := h.ends
  rcases (h.matchLen_le_matched' tokens).eq_or_lt with heq | hlt
  · exact h.shape'.exists_ends.mpr (.inr heq.symm)
  · refine h.shape'.exists_ends.mpr (.inl ?_)
    -- the tree goes on with the tokens, so the two paths part at a node
    obtain ⟨n, hn, hreached⟩ := h.shape'.exists_matched tokens
    rw [← hreached] at hlt
    have hpart : matchLen (t'.pathTokens n) prompt = matchLen prompt tokens := by
      refine le_antisymm (not_lt.mp fun hmore => ?_) ?_
      · have hboth := le_matchLen_trans
          (matchLen_comm _ prompt ▸ hmore : matchLen prompt tokens + 1 ≤ _) hlt
        exact absurd hboth (Nat.not_succ_le_self _)
      · exact le_matchLen_trans hlt.le (matchLen_comm prompt tokens ▸ le_rfl)
    have htake := (le_matchLen_iff.mp hlt.le).2.2
    rcases (matchLen_le_left prompt tokens).lt_or_eq with hends | hends
    · obtain ⟨m, hm, hmpath⟩ := h.shape'.exists_branch hn hnode (by
        rw [hpath, hpart]
        exact hlt.trans_le (matchLen_le_left _ _)) (by rwa [hpath, hpart])
      refine ⟨m, hm, ?_⟩
      rw [hmpath, hpath, hpart, htake]
    · refine ⟨node, hnode, ?_⟩
      rw [hpath, hends]
      exact List.prefix_iff_eq_take.mp (isPrefix_of_matchLen hends)

/-- A node ends on the way of the tokens only where one ended, or where they part from the prompt.
-/
theorem ends_only (h : Enrolled t prompt t' node) {tokens : List Token} {d : ℕ}
    (hd : d < tokens.length) (hends : t'.Ends tokens d) :
    t.Ends tokens d ∨ matchLen prompt tokens = d := by
  rcases h.shape'.exists_ends.mp hends with ⟨n, hn, hnpath⟩ | hmatched
  · have hlen : (t'.pathTokens n).length = d := by rw [hnpath, List.length_take, min_eq_left hd.le]
    rcases h.only n hn with ⟨n₀, hn₀, hpath₀⟩ | hpath₀ | hpath₀
    · exact Or.inl (h.shape.exists_ends.mpr (.inl ⟨n₀, hn₀, hpath₀ ▸ hnpath⟩))
    · have hdepth : (t.inspectPrefix prompt).matchedTokens = d := by
        rw [← hlen, hpath₀, List.length_take, min_eq_left (h.shape.matched_le prompt)]
      have hle : d ≤ matchLen prompt tokens := by
        refine le_matchLen_iff.mpr ⟨hdepth ▸ h.shape.matched_le prompt, hd.le, ?_⟩
        rw [← hnpath, hpath₀, hdepth]
      rcases hle.lt_or_eq with hbeyond | heq
      · refine Or.inl (h.shape.exists_ends.mpr (.inr ?_))
        rw [← hdepth] at hbeyond ⊢
        exact h.shape.matched_eq hbeyond
      · exact Or.inr heq.symm
    · right
      rw [← hlen, hpath₀]
      refine matchLen_of_isPrefix ?_
      rw [← hpath₀, hnpath]
      exact List.take_prefix _ _
  · obtain ⟨n, hn, hreached⟩ := h.shape'.exists_matched tokens
    rcases h.only n hn with ⟨n₀, hn₀, hpath₀⟩ | hpath₀ | hpath₀
    · refine Or.inl
        (h.shape.exists_ends.mpr (.inr (le_antisymm (hmatched ▸ h.matched_mono tokens) ?_)))
      rw [← hmatched, ← hreached, hpath₀]
      exact h.shape.matchLen_le_matched n₀ tokens
    · refine Or.inr (le_antisymm (hmatched ▸ h.matchLen_le_matched' tokens) ?_)
      rw [← hmatched, ← hreached, hpath₀]
      exact (le_matchLen_take_iff.mp le_rfl).2
    · exact Or.inr (by rw [← hmatched, ← hreached, hpath₀])

/-- Enrolling a prompt adds to the way of other tokens the depth at which the two part. -/
theorem reaches_iff (h : Enrolled t prompt t' node) (tokens : List Token) (c : ℕ) :
    t'.Reaches [] tokens c ↔ t.Reaches [] tokens c ∧
      (matchLen prompt tokens < tokens.length → matchLen prompt tokens < c) := by
  have hnone (u : RadixTree) : u.Reaches [] tokens c ↔
      ∀ d < tokens.length, u.Ends tokens d → d < c :=
    and_iff_left fun p hp => absurd hp List.not_mem_nil
  rw [hnone, hnone]
  constructor
  · exact fun hall => ⟨fun d hd hends => hall d hd (h.ends_kept hends),
      fun hlt => hall _ hlt h.ends_parting⟩
  · rintro ⟨hold, hnew⟩ d hd hends
    rcases h.ends_only hd hends with hends | rfl
    · exact hold d hd hends
    · exact hnew hd

end Enrolled

namespace Alike

variable {t t' : RadixTree}

/-- A tree is like itself. -/
theorem refl (h : Shape t t.pathTokens) : Alike t t :=
  ⟨h, h, fun _ => Iff.rfl, fun _ _ => rfl, fun _ _ => Iff.rfl, fun _ _ => Iff.rfl⟩

/-- The root is no node that an inspection visits. -/
theorem modify_root (h : Alike t t') {f : RadixNode → RadixNode} (hf : RadixTree.Local f) :
    Alike t (t'.modify rootId f) := by
  have hshape := h.shape'.modify rootId hf
  have hpaths {n : NodeId} (hn : t'.Alive n) :
      (t'.modify rootId f).pathTokens n = t'.pathTokens n :=
    hshape.pathTokens_eq (RadixTree.alive_modify.mpr hn)
  have hdata {n : NodeId} (hn : n ≠ rootId) : (t'.modify rootId f).data n = t'.data n := by
    simp only [RadixTree.data, RadixTree.field, RadixTree.modify_nodes, if_neg hn]
  exact ⟨h.shape, hshape.spelled, fun n => RadixTree.alive_modify.trans (h.alive n),
    fun n hn => (hpaths ((h.alive n).mpr hn)).trans (h.paths n hn),
    fun n hn => hdata hn ▸ h.ready n hn, fun n hn => hdata hn ▸ h.pending n hn⟩

/-- The clock is nothing that an inspection reads. -/
theorem advance (h : Alike t t') : Alike t t'.advance := by
  have hshape : Shape t'.advance t'.pathTokens := h.shape'.congr rfl rfl
  have hpaths (n : NodeId) :
      t'.advance.pathTokens n = t'.pathTokens n := RadixTree.pathTokens_advance t' n
  exact ⟨h.shape, hshape.spelled, h.alive, fun n hn => (hpaths n).trans (h.paths n hn),
    h.ready, h.pending⟩

/-- Releasing a sequence of the root. -/
theorem releaseSeqId_root (h : Alike t t') (i : SeqId) (retain : Bool) :
    Alike t (t'.releaseSeqId rootId i retain).1 := by
  unfold RadixTree.releaseSeqId
  split
  · exact h
  · split
    · exact h
    · split
      · exact h
      · exact h.modify_root (Shape.dropSeqId_local i)

/-- Releasing a reference to the root, which is never pruned. -/
theorem release_root (h : Alike t t') : Alike t (t'.release rootId) := by
  have hprune (u : RadixTree) : u.pruneEmptyLeaves rootId = u := by
    unfold RadixTree.pruneEmptyLeaves RadixTree.pruneEmptyLeavesLoop
    split
    · rfl
    · split
      · rfl
      · rw [if_neg fun hdead => hdead.1 rfl]
  unfold RadixTree.release
  split
  · exact h
  · split
    · rw [hprune]
      exact h.modify_root fun _ => ⟨rfl, rfl, rfl⟩
    · exact h

/-- An empty prompt ends at the root, and giving its sequence back leaves an alike tree. -/
theorem nothing (h : Shape t t.pathTokens) (i : SeqId) (len : ℕ) (retain : Bool) :
    Alike t
      ((((t.insert []).1.registerSeqId (t.insert []).2.node i len).releaseSeqId
        (t.insert []).2.node i
      retain).1.release (t.insert []).2.node) := by
  have hinserted : Alike t (t.insert []).1 := (refl h).advance.modify_root fun _ => ⟨rfl, rfl, rfl⟩
  have hregistered : Alike t ((t.insert []).1.registerSeqId rootId i len) :=
    hinserted.modify_root fun _ => ⟨rfl, rfl, rfl⟩
  exact (hregistered.releaseSeqId_root i retain).release_root

/-- Alike trees spell out the same paths, also where no node is. -/
theorem pathTokens_eq (h : Alike t t') (n : NodeId) : t'.pathTokens n = t.pathTokens n := by
  by_cases hn : t.Alive n
  · exact h.paths n hn
  · have hnone {u : RadixTree} (hu : ¬ u.Alive n) : u.pathTokens n = [] :=
      RadixTree.pathTokens_of_none (Option.eq_none_iff_forall_ne_some.mpr fun x hx => hu ⟨x, hx⟩)
    rw [hnone hn, hnone (mt (h.alive n).mp hn)]

/-- The same tokens enter a node of alike trees. -/
theorem enters_iff (h : Alike t t') (n : NodeId) (tokens : List Token) :
    t'.Enters n tokens ↔ t.Enters n tokens := by
  by_cases hn : t.Alive n
  · by_cases hroot : n = rootId
    · subst hroot
      exact iff_of_false (h.shape'.not_enters_root tokens) (h.shape.not_enters_root tokens)
    · rw [h.shape.enters_iff hn hroot, h.shape'.enters_iff ((h.alive n).mpr hn) hroot]
      simp only [h.alive, h.pathTokens_eq]
  · exact iff_of_false (fun henters => hn ((h.alive n).mp (h.shape'.alive_of_enters henters)))
      fun henters => hn (h.shape.alive_of_enters henters)

/-- The same is covered in alike trees. -/
theorem covers_iff (h : Alike t t') {kind : NodeData → Prop}
    (hkind : ∀ n, n ≠ rootId → (kind (t'.data n) ↔ kind (t.data n))) (tokens : List Token) (c : ℕ) :
    t'.Covers kind tokens c ↔ t.Covers kind tokens c := by
  refine exists_congr fun n => ?_
  rw [h.enters_iff, h.pathTokens_eq]
  refine and_congr_right fun henters => and_congr_left fun _ => hkind n ?_
  rintro rfl
  exact h.shape.not_enters_root tokens henters

/-- The same tokens are clear in alike trees. -/
theorem clear_iff (h : Alike t t') (tokens : List Token) : t'.Clear tokens ↔ t.Clear tokens := by
  simp only [RadixTree.Clear, h.covers_iff h.ready, h.covers_iff h.pending]

/-- The same depths are in the own part of a prompt in alike trees. -/
theorem reaches_iff (h : Alike t t') (prompt : List Token) (c : ℕ) :
    t'.Reaches [] prompt c ↔ t.Reaches [] prompt c := by
  have hmatched : (t'.inspectPrefix prompt).matchedTokens =
      (t.inspectPrefix prompt).matchedTokens := by
    have hgreatest := (h.shape'.inspectPrefix_spec prompt).1
    simp only [h.pathTokens_eq] at hgreatest
    exact hgreatest.unique (h.shape.inspectPrefix_spec prompt).1
  refine and_congr_left fun _ => forall_congr' fun d => forall_congr' fun _ => ?_
  rw [h.shape.exists_ends, h.shape'.exists_ends, hmatched]
  simp only [h.alive, h.pathTokens_eq]

end Alike

/-- The tree after clear prompts were enrolled, as the tree before them tells it. -/
structure Enrollments (t : RadixTree) (prompts : List (List Token)) (u : RadixTree) : Prop where
  shape : Shape t t.pathTokens
  shape' : Shape u u.pathTokens
  alive : ∀ n, t.Alive n → u.Alive n
  ready : ∀ n, n ≠ rootId → ((u.data n).HasReady ↔ (t.data n).HasReady)
  enters : ∀ n, t.Alive n → ∀ tokens, u.Enters n tokens ↔ t.Enters n tokens
  matching : ∀ n, t.Alive n → ∀ tokens c, c ≤ matchLen (u.pathTokens n) tokens ↔
    c ≤ matchLen (t.pathTokens n) tokens ∧
      ∀ p ∈ prompts, t.Enters n p → c ≤ matchLen (t.pathTokens n) p
  reaches : ∀ tokens c, u.Reaches [] tokens c ↔ t.Reaches prompts tokens c
  clear : ∀ tokens, u.Clear tokens ↔ t.Clear tokens ∧ ∀ i (hi : i < prompts.length),
    t.Reaches (prompts.take i) prompts[i] (matchLen prompts[i] tokens) →
      t.ReadyBeside (prompts.take i) tokens (matchLen prompts[i] tokens)

namespace Enrollments

variable {t u u' : RadixTree} {prompts : List (List Token)} {prompt : List Token} {node : NodeId}

/-- Nothing was enrolled yet. -/
theorem start (h : Shape t t.pathTokens) : Enrollments t [] t where
  shape := h
  shape' := h
  alive _ hn := hn
  ready _ _ := Iff.rfl
  enters _ _ _ := Iff.rfl
  matching _ _ _ _ := (and_iff_left fun _ hp => absurd hp List.not_mem_nil).symm
  reaches _ _ := Iff.rfl
  clear _ := (and_iff_left fun _ hi => absurd hi (Nat.not_lt_zero _)).symm

/-- What ready nodes cover. -/
theorem covers_iff (h : Enrollments t prompts u) (tokens : List Token) (c : ℕ) :
    u.Covers NodeData.HasReady tokens c ↔ t.ReadyBeside prompts tokens c := by
  constructor
  · rintro ⟨n, henters, hready, hle⟩
    have hroot : n ≠ rootId := by
      rintro rfl
      exact h.shape'.not_enters_root tokens henters
    have hwas := (h.ready n hroot).mp hready
    have hn := hwas.alive
    obtain ⟨x, hx⟩ := id hn
    obtain ⟨hmatch, hall⟩ := (h.matching n hn tokens c).mp hle
    exact ⟨n, h.shape.fresh hx, (h.enters n hn tokens).mp henters, hwas, hmatch, hall⟩
  · rintro ⟨n, _, henters, hready, hmatch, hall⟩
    have hn := h.shape.alive_of_enters henters
    have hroot : n ≠ rootId := by
      rintro rfl
      exact h.shape.not_enters_root tokens henters
    exact ⟨n, (h.enters n hn tokens).mpr henters, (h.ready n hroot).mpr hready,
      (h.matching n hn tokens c).mpr ⟨hmatch, hall⟩⟩

/-- One more clear prompt is enrolled. -/
theorem enroll (h : Enrollments t prompts u) (hne : prompt ≠ []) (hclear : u.Clear prompt)
    (henrolled : Enrolled u prompt u' node) : Enrollments t (prompts ++ [prompt]) u' where
  shape := h.shape
  shape' := henrolled.shape'
  alive n hn := henrolled.alive n (h.alive n hn)
  ready n hn := (henrolled.ready n).trans (h.ready n hn)
  enters n hn tokens := (henrolled.enters_iff (h.alive n hn) tokens).trans (h.enters n hn tokens)
  matching n hn tokens c := by
    rw [henrolled.le_match_iff (h.alive n hn), h.matching n hn, h.matching n hn, h.enters n hn]
    simp only [List.mem_append, List.mem_singleton, or_imp, forall_and, forall_eq]
    constructor
    · rintro ⟨⟨hmatch, hall⟩, hlast⟩
      exact ⟨hmatch, hall, hlast.1⟩
    · rintro ⟨hmatch, hall, hlast⟩
      exact ⟨⟨hmatch, hall⟩, hlast, fun _ => hall⟩
  reaches tokens c := by
    rw [henrolled.reaches_iff, h.reaches, RadixTree.Reaches, RadixTree.Reaches, and_assoc]
    refine and_congr_right fun _ => ?_
    simp only [List.mem_append, List.mem_singleton, or_imp, forall_and, forall_eq]
  clear tokens := by
    rw [henrolled.clear_iff hne hclear, h.clear, h.reaches, h.covers_iff, and_assoc]
    refine and_congr_right fun _ => ?_
    constructor
    · rintro ⟨hall, hlast⟩ i hi
      rw [List.length_append, List.length_singleton] at hi
      rcases Nat.lt_succ_iff_lt_or_eq.mp hi with hlt | rfl
      · rw [List.getElem_append_left hlt, List.take_append_of_le_length hlt.le]
        exact hall i hlt
      · rw [List.getElem_concat_length rfl, List.take_append_of_le_length le_rfl, List.take_length]
        exact hlast
    · refine fun hall => ⟨fun i hi => ?_, ?_⟩
      · have hone := hall i (by rw [List.length_append]; omega)
        rwa [List.getElem_append_left hi, List.take_append_of_le_length hi.le] at hone
      · have hone := hall prompts.length (by simp)
        rwa [List.getElem_concat_length rfl, List.take_append_of_le_length le_rfl,
          List.take_length] at hone

/-- What an inspection does not see makes no difference. -/
theorem alike (h : Enrollments t prompts u) (halike : Alike u u') : Enrollments t prompts u' where
  shape := h.shape
  shape' := halike.shape'
  alive n hn := (halike.alive n).mpr (h.alive n hn)
  ready n hn := (halike.ready n hn).trans (h.ready n hn)
  enters n hn tokens := (halike.enters_iff n tokens).trans (h.enters n hn tokens)
  matching n hn tokens c := by rw [halike.pathTokens_eq, h.matching n hn]
  reaches tokens c := (halike.reaches_iff tokens c).trans (h.reaches tokens c)
  clear tokens := (halike.clear_iff tokens).trans (h.clear tokens)

end Enrollments

end RadixForge
