import Mathlib.Order.Bounds.Basic
import RadixForge.Tree.Branches

/-!
# What an inspection reports

The matched tokens are the longest match with the path of a node. The ready and pending tokens are
the most that the sequences of one entered node cover: the match with its path, up to its canonical
length.
-/

namespace RadixForge

open Library

/-- A match is a common beginning. -/
theorem le_matchLen_iff {as bs : List Token} {k : ℕ} :
    k ≤ matchLen as bs ↔ k ≤ as.length ∧ k ≤ bs.length ∧ as.take k = bs.take k := by
  constructor
  · intro h
    refine ⟨h.trans (matchLen_le_left as bs), h.trans (matchLen_le_right as bs), ?_⟩
    have htake := congrArg (List.take k) (take_matchLen as bs)
    rwa [List.take_take, List.take_take, min_eq_left h] at htake
  · rintro ⟨has, hbs, htake⟩
    have h := matchLen_append (as.take k) (as.drop k) (bs.drop k)
    rw [List.take_append_drop, List.length_take, min_eq_left has] at h
    nth_rewrite 1 [htake] at h
    rw [List.take_append_drop] at h
    omega

/-- A longer run is matched at least as far. -/
theorem matchLen_le_of_beginning {u w : List Token} (hpath : u <+: w) (tokens : List Token) :
    matchLen u tokens ≤ matchLen w tokens := by
  obtain ⟨v, rfl⟩ := hpath
  obtain ⟨hle, hlen, htake⟩ := le_matchLen_iff.mp (le_refl (matchLen u tokens))
  refine le_matchLen_iff.mpr ⟨?_, hlen, ?_⟩
  · rw [List.length_append]
    omega
  · rw [List.take_append_of_le_length hle, htake]

/-- What a longer run adds behind a mismatch does not matter. -/
theorem matchLen_of_beginning {u w tokens : List Token} (hpath : u <+: w)
    (hlt : matchLen u tokens < u.length) :
    matchLen w tokens = matchLen u tokens := by
  refine le_antisymm ?_ (matchLen_le_of_beginning hpath tokens)
  obtain ⟨v, rfl⟩ := hpath
  by_contra hmore
  obtain ⟨_, hlen, htake⟩ := le_matchLen_iff.mp (Nat.succ_le_of_lt (not_le.mp hmore))
  have hle : matchLen u tokens + 1 ≤ u.length := hlt
  rw [List.take_append_of_le_length hle] at htake
  exact absurd (le_matchLen_iff.mpr ⟨hle, hlen, htake⟩) (Nat.not_succ_le_self _)

/-- A run that the tokens follow to its end is matched. -/
theorem matchLen_of_isPrefix {u tokens : List Token} (h : u <+: tokens) :
    matchLen u tokens = u.length := by
  obtain ⟨rest, rfl⟩ := h
  exact matchLen_self_append u rest

/-- A run that is matched to its end is followed by the tokens. -/
theorem isPrefix_of_matchLen {u tokens : List Token} (h : matchLen u tokens = u.length) :
    u <+: tokens := by
  obtain ⟨_, _, htake⟩ := le_matchLen_iff.mp h.ge
  rw [List.take_length] at htake
  rw [htake]
  exact List.take_prefix _ _

namespace NodeData

/-- Some sequence can be copied from. -/
def HasReady (d : NodeData) : Prop := d.readySeqIds ≠ ∅

/-- Some sequence is not ready yet. -/
def HasPending (d : NodeData) : Prop := d.readySeqIds.size < d.seqIds.size

instance : DecidablePred HasReady := fun d => inferInstanceAs (Decidable (d.readySeqIds ≠ ∅))

instance : DecidablePred HasPending :=
  fun d => inferInstanceAs (Decidable (d.readySeqIds.size < d.seqIds.size))

end NodeData

namespace RadixTree

instance (t : RadixTree) (n : NodeId) (tokens : List Token) : Decidable (t.Enters n tokens) :=
  inferInstanceAs (Decidable (_ < _))

/-- What the sequences of an entered node cover of the tokens, if it has sequences of a kind. -/
def share (t : RadixTree) (kind : NodeData → Prop) [DecidablePred kind] (tokens : List Token)
    (n : NodeId) : ℕ :=
  if t.Enters n tokens ∧ kind (t.data n) then min (matchLen (t.pathTokens n) tokens)
    (t.data n).canonicalLen else 0

/-- The value is the most that the nodes on the way to a node cover. -/
def Accounted (t : RadixTree) (path : NodeId → List Token) (kind : NodeData → Prop)
    [DecidablePred kind] (tokens : List Token) (n : NodeId) (value : ℕ) : Prop :=
  (∀ m, t.Alive m → path m <+: path n → t.share kind tokens m ≤ value) ∧
    ∃ m, t.share kind tokens m = value

end RadixTree

/-- The outcomes of an inspection: the tokens leave the tree at a node, or inside the run of a
child. -/
inductive Inspected (t : RadixTree) (path : NodeId → List Token) (tokens : List Token) :
    PrefixAvailability → Prop
  | stop {n : NodeId} {rest : List Token} {a : PrefixAvailability} (hn : t.Alive n)
      (hpath : path n ++ rest = tokens)
      (hkey : ∀ next rest', rest = next :: rest' → t.childAt n next = none)
      (hready : t.Accounted path NodeData.HasReady tokens n a.readyTokens)
      (hpending : t.Accounted path NodeData.HasPending tokens n a.pendingTokens) :
      Inspected t path tokens { a with matchedTokens := (path n).length }
  | inside {n c : NodeId} {next : Token} {rest : List Token} {a : PrefixAvailability}
      (hchild : t.childAt n next = some c)
      (hpath : path n ++ next :: rest = tokens) (hnot : ¬ path c <+: tokens)
      (hready : t.Accounted path NodeData.HasReady tokens c a.readyTokens)
      (hpending : t.Accounted path NodeData.HasPending tokens c a.pendingTokens) :
      Inspected t path tokens { a with matchedTokens := matchLen (path c) tokens }

/-- Accounting for a node takes the larger coverage for each kind. -/
theorem considerAvailability_tokens (x : RadixNode) (covered : ℕ) (a : PrefixAvailability) :
    (RadixTree.considerAvailability x covered a).readyTokens =
        max a.readyTokens (if x.data.HasReady then min covered x.data.canonicalLen else 0) ∧
      (RadixTree.considerAvailability x covered a).pendingTokens =
        max a.pendingTokens (if x.data.HasPending then min covered x.data.canonicalLen else 0) := by
  unfold RadixTree.considerAvailability NodeData.HasReady NodeData.HasPending RadixNode.data
  by_cases hzero : min covered x.canonicalLen = 0
  · simp [hzero]
  · by_cases hready : x.readySeqIds ≠ ∅ <;> by_cases hpending : x.readySeqIds.size <
      x.seqIds.size <;>
      simp [hzero, hready, hpending]

namespace Shape

variable {t : RadixTree} {path : NodeId → List Token} {tokens : List Token}

/-- A node that is entered is on the way to any node along the tokens, or the tokens go on through a
child. -/
theorem entered_place (h : Shape t path) {n m : NodeId} {rest : List Token} (hn : t.Alive n)
    (hpath : path n ++ rest = tokens) (henters : t.Enters m tokens) :
    path m <+: path n ∨ ∃ next rest' c, rest = next :: rest' ∧
      t.childAt n next = some c ∧ (m = c ∨ path c <+: tokens) := by
  obtain ⟨x, p, key, run, rest', hx, _, hrun, hchild, hmpath, htokens, _⟩ := h.enters_spec henters
  have hp := RadixTree.alive_of_childAt hchild
  have hnt : path n <+: tokens := hpath ▸ List.prefix_append _ _
  have hpt : path p <+: tokens := htokens ▸ List.prefix_append _ _
  rcases Nat.lt_trichotomy (path p).length (path n).length with hlt | heq | hlt
  · exact .inl (h.path_le_of_entered hchild htokens hn hnt hlt)
  · have hpn : path p = path n := (List.prefix_of_prefix_length_le hpt hnt heq.le).eq_of_length heq
    obtain rfl := h.path_injective hp hn hpn
    rw [htokens, List.append_cancel_left_eq] at hpath
    exact .inr ⟨key, rest', m, hpath, hchild, .inl rfl⟩
  · have hnp : path n <+: path p := List.prefix_of_prefix_length_le hnt hpt hlt.le
    rcases h.eq_or_child_toward hn hp hnp with rfl | ⟨key', d, hd, hdp⟩
    · exact absurd hlt (lt_irrefl _)
    · obtain ⟨y, yrest, hy, _, hytok⟩ := h.down hd
      have hdt := hdp.trans hpt
      have hkeys := hdt
      rw [h.child_path hd hy, hytok, ← hpath, List.prefix_append_right_inj] at hkeys
      obtain ⟨u, hu⟩ := hkeys
      exact .inr ⟨key', yrest ++ u, d, hu.symm, hd, .inr hdt⟩

/-- A path with a longer match goes on through the child that the tokens go on through. -/
theorem matched_place (h : Shape t path) {n m : NodeId} {rest : List Token} (hn : t.Alive n)
    (hm : t.Alive m) (hpath : path n ++ rest = tokens)
    (hlt : (path n).length < matchLen (path m) tokens) :
    ∃ next rest' c, rest = next :: rest' ∧ t.childAt n next = some c ∧ path c <+: path m := by
  obtain ⟨hmlen, htlen, htake⟩ := le_matchLen_iff.mp (Nat.succ_le_of_lt hlt)
  have hprefix : path n <+: path m := by
    have hshort := congrArg (List.take (path n).length) htake
    rw [List.take_take, List.take_take, min_eq_left (Nat.le_succ _), ← hpath,
      List.take_left] at hshort
    rw [← hshort]
    exact List.take_prefix _ _
  rcases h.eq_or_child_toward hn hm hprefix with rfl | ⟨key, c, hc, hcm⟩
  · exact absurd hmlen (Nat.not_succ_le_self _)
  · obtain ⟨y, run, hy, _, hytok⟩ := h.down hc
    have hcpath := h.child_path hc hy
    obtain ⟨v, hv⟩ := hcm
    cases rest with
    | nil =>
      rw [List.append_nil] at hpath
      rw [← hpath] at htlen
      exact absurd htlen (Nat.not_succ_le_self _)
    | cons next rest' =>
      have hnth := congrArg (fun l => l[(path n).length]?) htake
      simp only [List.getElem?_take_of_succ, ← hv, hcpath, hytok, ← hpath,
        List.append_assoc] at hnth
      simp only [List.cons_append, List.getElem?_append_right (le_refl _), Nat.sub_self,
        List.getElem?_cons_zero, Option.some.injEq] at hnth
      exact ⟨key, rest', c, by rw [hnth], hc, ⟨v, hv⟩⟩

/-- Accounting for the child on the way. -/
theorem accounted_child (h : Shape t path) {kind : NodeData → Prop} [DecidablePred kind]
    {n c : NodeId} {next : Token} {rest : List Token} {x : RadixNode} {value : ℕ}
    (hvalue : t.Accounted path kind tokens n value) (hchild : t.childAt n next = some c)
    (hx : t.nodes c = some x) (hpath : path n ++ next :: rest = tokens) :
    t.Accounted path kind tokens c
      (max value (if kind x.data then min ((path n).length + matchLen x.tokens (next :: rest))
        x.data.canonicalLen else 0)) := by
  obtain ⟨y, run, hy, _, htok⟩ := h.down hchild
  rw [hx] at hy
  cases hy
  have hcpath := h.child_path hchild hx
  have hmatch : matchLen (path c) tokens = (path n).length + matchLen x.tokens (next :: rest) := by
    rw [hcpath, ← hpath, matchLen_append]
  have henters : t.Enters c tokens := by
    rw [RadixTree.Enters, h.runStart_eq hx hcpath, h.pathTokens_eq ⟨x, hx⟩, hmatch, htok]
    simp [matchLen]
  have hshare : t.share kind tokens c =
      if kind x.data then min ((path n).length + matchLen x.tokens (next :: rest))
        x.data.canonicalLen else 0 := by
    rw [RadixTree.share, h.pathTokens_eq ⟨x, hx⟩, hmatch, RadixTree.data_of_nodes hx]
    simp [henters]
  rw [← hshare]
  obtain ⟨hbelow, m, hm⟩ := hvalue
  constructor
  · intro k hk hkc
    rcases Nat.lt_or_ge (path n).length (path k).length with hlt | hle
    · -- the path goes beyond the node, so it is the child itself
      have hnk : path n <+: path k :=
        List.prefix_of_prefix_length_le (hcpath ▸ List.prefix_append _ _) hkc hlt.le
      rcases h.eq_or_child_toward (RadixTree.alive_of_childAt hchild) hk hnk with
        rfl | ⟨key, d, hd, hdk⟩
      · exact absurd hlt (lt_irrefl _)
      · obtain rfl := h.child_unique hd hchild (hdk.trans hkc) (List.prefix_refl _)
        obtain rfl := h.path_injective hk ⟨x, hx⟩
          (hkc.eq_of_length (le_antisymm hkc.length_le hdk.length_le))
        exact le_max_right _ _
    · have hkn : path k <+: path n :=
        List.prefix_of_prefix_length_le hkc (hcpath ▸ List.prefix_append _ _) hle
      exact (hbelow k hk hkn).trans (le_max_left _ _)
  · rcases le_total value (t.share kind tokens c) with hle | hle
    · exact ⟨c, (max_eq_right hle).symm⟩
    · exact ⟨m, hm.trans (max_eq_left hle).symm⟩

/-- The loop of the inspection, started anywhere on the way. -/
theorem inspectPrefixLoop_inspected (h : Shape t path) (fuel : ℕ) {n : NodeId} {rest : List Token}
    {a : PrefixAvailability} (hn : t.Alive n) (hpath : path n ++ rest = tokens)
    (hfuel : rest.length ≤ fuel)
    (hready : t.Accounted path NodeData.HasReady tokens n a.readyTokens)
    (hpending : t.Accounted path NodeData.HasPending tokens n a.pendingTokens) :
    Inspected t path tokens (t.inspectPrefixLoop fuel n (path n).length a rest) := by
  induction fuel generalizing n rest a with
  | zero =>
    obtain rfl : rest = [] := List.length_eq_zero_iff.mp (by omega)
    exact .stop hn hpath (by simp) hready hpending
  | succ fuel ih =>
    cases rest with
    | nil => exact .stop hn hpath (by simp) hready hpending
    | cons next rest =>
      simp only [RadixTree.inspectPrefixLoop]
      cases hchild : t.childAt n next with
      | none =>
        refine .stop hn hpath (fun key rest' heq => ?_) hready hpending
        rw [← (List.cons.inj heq).1]
        exact hchild
      | some c =>
        obtain ⟨x, run, hx, _, htok⟩ := h.down hchild
        have hcpath := h.child_path hchild hx
        have hpos : matchLen x.tokens (next :: rest) ≠ 0 := by simp [htok, matchLen]
        have hmatch : matchLen (path c) tokens =
            (path n).length + matchLen x.tokens (next :: rest) := by
          rw [hcpath, ← hpath, matchLen_append]
        obtain ⟨hready', hpending'⟩ :=
          considerAvailability_tokens x ((path n).length + matchLen x.tokens (next :: rest)) a
        have hreadyc := h.accounted_child hready hchild hx hpath
        have hpendingc := h.accounted_child hpending hchild hx hpath
        rw [← hready'] at hreadyc
        rw [← hpending'] at hpendingc
        simp only [hx, Option.getD_some, if_neg hpos]
        split
        · rename_i hlt
          rw [← hmatch] at hreadyc hpendingc ⊢
          refine .inside hchild hpath (fun hprefix => ?_) hreadyc hpendingc
          rw [matchLen_of_isPrefix hprefix, hcpath, List.length_append] at hmatch
          omega
        · rename_i hnlt
          have hle := matchLen_le_left x.tokens (next :: rest)
          have hfull : matchLen x.tokens (next :: rest) = x.tokens.length := by omega
          have hlen : (path n).length + matchLen x.tokens (next :: rest) = (path c).length := by
            rw [hcpath, List.length_append, hfull]
          have htake := take_matchLen x.tokens (next :: rest)
          rw [hfull, List.take_length] at htake
          have hnext : path c ++ (next :: rest).drop (matchLen x.tokens (next :: rest)) =
              tokens := by
            rw [hfull, hcpath, List.append_assoc]
            nth_rewrite 1 [htake]
            rw [List.take_append_drop, hpath]
          rw [hlen] at hreadyc hpendingc ⊢
          refine ih ⟨x, hx⟩ hnext ?_ hreadyc hpendingc
          rw [List.length_drop]
          simp only [List.length_cons] at hfuel ⊢
          omega

/-- The inspection from the root. -/
theorem inspectPrefix_inspected (h : Shape t path) (tokens : List Token) :
    Inspected t path tokens (t.inspectPrefix tokens) := by
  have hroot (kind : NodeData → Prop) [DecidablePred kind] :
      t.Accounted path kind tokens rootId 0 := by
    have hzero (m : NodeId) (hm : t.Alive m) (hpath : path m <+: path rootId) :
        t.share kind tokens m = 0 := by
      rw [h.rootPath] at hpath
      refine if_neg fun hand => ?_
      have henters := hand.1
      rw [RadixTree.Enters, h.pathTokens_eq hm, List.prefix_nil.mp hpath] at henters
      exact absurd henters (Nat.not_lt_zero _)
    exact ⟨fun m hm hpath => (hzero m hm hpath).le, rootId,
      hzero rootId h.root_alive (List.prefix_refl _)⟩
  have hloop := h.inspectPrefixLoop_inspected tokens.length (a := {}) h.root_alive
    (show path rootId ++ tokens = tokens by rw [h.rootPath, List.nil_append]) le_rfl
      (hroot _) (hroot _)
  rwa [h.rootPath] at hloop

/-- No token of a node that is not there is matched. -/
theorem matchLen_pathTokens_of_not_alive {m : NodeId} (hm : ¬ t.Alive m) (tokens : List Token) :
    matchLen (t.pathTokens m) tokens = 0 := by
  have hnone : t.nodes m = none := by
    cases hnodes : t.nodes m with
    | none => rfl
    | some x => exact absurd ⟨x, hnodes⟩ hm
  simp [RadixTree.pathTokens_of_none hnone, matchLen]

/-- The node that is matched best gives the greatest match. -/
theorem matched_greatest (h : Shape t path) {n : NodeId} (hn : t.Alive n) {tokens : List Token}
    (hbest : ∀ m, t.Alive m → matchLen (path m) tokens ≤ matchLen (path n) tokens) :
    IsGreatest (Set.range fun n => matchLen (t.pathTokens n) tokens)
      (matchLen (path n) tokens) := by
  refine ⟨⟨n, by simp only [h.pathTokens_eq hn]⟩, ?_⟩
  rintro _ ⟨m, rfl⟩
  by_cases hm : t.Alive m
  · simp only [h.pathTokens_eq hm]
    exact hbest m hm
  · simp only [matchLen_pathTokens_of_not_alive hm]
    exact Nat.zero_le _

/-- What is accounted for at a node that every entered node leads to is the greatest share. -/
theorem share_greatest (h : Shape t path) {kind : NodeData → Prop} [DecidablePred kind]
    {tokens : List Token} {n : NodeId} {value : ℕ} (hvalue : t.Accounted path kind tokens n value)
    (hall : ∀ m, t.Enters m tokens → path m <+: path n) :
    IsGreatest (Set.range (t.share kind tokens)) value := by
  obtain ⟨hbelow, hmem⟩ := hvalue
  refine ⟨hmem, ?_⟩
  rintro _ ⟨m, rfl⟩
  by_cases henters : t.Enters m tokens
  · obtain ⟨x, _, _, _, _, hx, _⟩ := h.enters_spec henters
    exact hbelow m ⟨x, hx⟩ (hall m henters)
  · rw [RadixTree.share, if_neg fun hand => henters hand.1]
    exact Nat.zero_le _

/-- Where no child goes on, every entered node leads to the node of the walk, and none is matched
further. -/
theorem stop_spec (h : Shape t path) {n : NodeId} {rest tokens : List Token} (hn : t.Alive n)
    (hpath : path n ++ rest = tokens)
    (hkey : ∀ next rest', rest = next :: rest' → t.childAt n next = none) :
    (∀ m, t.Enters m tokens → path m <+: path n) ∧
      ∀ m, t.Alive m → matchLen (path m) tokens ≤ (path n).length := by
  constructor
  · intro m henters
    rcases h.entered_place hn hpath henters with hm | ⟨next, rest', c, hrest, hc, _⟩
    · exact hm
    · rw [hkey next rest' hrest] at hc
      contradiction
  · intro m hm
    by_contra hlt
    obtain ⟨next, rest', c, hrest, hc, _⟩ := h.matched_place hn hm hpath (not_le.mp hlt)
    rw [hkey next rest' hrest] at hc
    contradiction

/-- Where the tokens leave a child inside, every entered node leads to this child, and none is
matched further. -/
theorem inside_spec (h : Shape t path) {n c : NodeId} {next : Token} {rest tokens : List Token}
    (hchild : t.childAt n next = some c) (hpath : path n ++ next :: rest = tokens)
    (hnot : ¬ path c <+: tokens) :
    (∀ m, t.Enters m tokens → path m <+: path c) ∧
      ∀ m, t.Alive m → matchLen (path m) tokens ≤ matchLen (path c) tokens := by
  have hn := RadixTree.alive_of_childAt hchild
  obtain ⟨x, hx⟩ := h.child_alive hchild
  have hnc : path n <+: path c := h.child_path hchild hx ▸ List.prefix_append _ _
  have honly {next' : Token} {rest' : List Token} {d : NodeId}
      (hrest : next :: rest = next' :: rest') (hd : t.childAt n next' = some d) : d = c := by
    rw [← (List.cons.inj hrest).1, hchild] at hd
    exact (Option.some.inj hd).symm
  constructor
  · intro m henters
    rcases h.entered_place hn hpath henters with hm | ⟨next', rest', d, hrest, hd, hcase⟩
    · exact hm.trans hnc
    · obtain rfl := honly hrest hd
      rcases hcase with rfl | hprefix
      · exact List.prefix_refl _
      · exact absurd hprefix hnot
  · intro m hm
    by_contra hlt
    have hshort : (path n).length ≤ matchLen (path c) tokens := by
      rw [← matchLen_of_isPrefix (hpath ▸ List.prefix_append (path n) (next :: rest))]
      exact matchLen_le_of_beginning hnc tokens
    obtain ⟨next', rest', d, hrest, hd, hdm⟩ :=
      h.matched_place hn hm hpath (hshort.trans_lt (not_le.mp hlt))
    obtain rfl := honly hrest hd
    have hpartial : matchLen (path d) tokens < (path d).length :=
      lt_of_le_of_ne (matchLen_le_left _ _) fun hfull => hnot (isPrefix_of_matchLen hfull)
    exact hlt (matchLen_of_beginning hdm hpartial).le

/-- What an inspection reports. -/
theorem inspectPrefix_spec (h : Shape t path) (tokens : List Token) :
    IsGreatest (Set.range fun n => matchLen (t.pathTokens n) tokens)
      (t.inspectPrefix tokens).matchedTokens ∧
      IsGreatest (Set.range (t.share NodeData.HasReady tokens))
        (t.inspectPrefix tokens).readyTokens ∧
      IsGreatest (Set.range (t.share NodeData.HasPending tokens))
        (t.inspectPrefix tokens).pendingTokens := by
  have hinspected := h.inspectPrefix_inspected tokens
  generalize t.inspectPrefix tokens = availability at hinspected ⊢
  cases hinspected with
  | @stop n rest a hn hpath hkey hready hpending =>
    obtain ⟨hall, hbest⟩ := h.stop_spec hn hpath hkey
    have hwhole : matchLen (path n) tokens = (path n).length :=
      matchLen_of_isPrefix (hpath ▸ List.prefix_append _ _)
    refine ⟨?_, h.share_greatest hready hall, h.share_greatest hpending hall⟩
    exact hwhole ▸ h.matched_greatest hn (hwhole ▸ hbest)
  | @inside n c next rest a hchild hpath hnot hready hpending =>
    obtain ⟨hall, hbest⟩ := h.inside_spec hchild hpath hnot
    exact ⟨h.matched_greatest (h.child_alive hchild) hbest, h.share_greatest hready hall,
      h.share_greatest hpending hall⟩

end Shape

end RadixForge
