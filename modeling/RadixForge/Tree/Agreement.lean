import RadixForge.Tree.Covering
import RadixForge.Tree.Represented

/-!
# Inspection and search agree

The nodes that tokens enter are, once the tokens are inserted, the nodes on the way to the cache
node, and what the tokens matched of their paths is all that is left of them. So the nearest ready
node from the cache node on covers what the inspection reported.
-/

namespace RadixForge

open Library

namespace Shape

variable {t : RadixTree} {path path' : NodeId → List Token} {tokens : List Token}

/-- Entered nodes are on the way to the cache node, with the matched part of their paths. -/
theorem insert_entered (h : Shape t path)
    (hinserted : Inserted t path tokens (t.insert tokens).1 (t.insert tokens).2 path') {m : NodeId}
    (hm : t.Alive m) (hroot : m ≠ rootId) :
    (path' m <+: path' (t.insert tokens).2.cacheNode ↔ t.Enters m tokens) ∧
      (t.Enters m tokens → (path' m).length = matchLen (path m) tokens) := by
  obtain ⟨path₁, cut, hshape₁, hshorter, _, _, _, hgreatest, hspelled⟩ := h.insert_respelled tokens
  have heq : path₁ m = path' m := by
    rw [← hshape₁.pathTokens_eq (hinserted.alive m hm),
      hinserted.shape.pathTokens_eq (hinserted.alive m hm)]
  have hle : matchLen (path m) tokens ≤ (t.insert tokens).2.matchedTokens :=
    h.pathTokens_eq hm ▸ hgreatest.2 ⟨m, rfl⟩
  have hsame := hspelled.same m hm
  rw [heq] at hsame
  rw [hinserted.cachePath]
  rcases hsame with ⟨hsame, hnot⟩ | ⟨_, hcut, hstops⟩
  · rw [hsame]
    have hfull (henters : t.Enters m tokens) : path m <+: tokens := by
      refine isPrefix_of_matchLen
        (le_antisymm (matchLen_le_left _ _) (not_lt.mp fun hlt => hnot ⟨henters, ?_⟩))
      rwa [h.pathTokens_eq hm]
    refine ⟨⟨fun hpath => h.enters_of_prefix hm hroot (hpath.trans (List.take_prefix _ _)),
      fun henters => ?_⟩,
      fun henters => (matchLen_of_isPrefix (hfull henters)).symm⟩
    rw [List.prefix_take_iff]
    exact ⟨hfull henters, matchLen_of_isPrefix (hfull henters) ▸ hle⟩
  · rw [hcut]
    refine ⟨iff_of_true (List.prefix_refl _) hstops.1, fun _ => ?_⟩
    have hpath : tokens.take (t.insert tokens).2.matchedTokens <+: path m :=
      hcut ▸ hinserted.shorter m hm
    have hlen : (tokens.take (t.insert tokens).2.matchedTokens).length =
        (t.insert tokens).2.matchedTokens := by
      rw [List.length_take, min_eq_left hinserted.matched_le]
    rw [hlen]
    refine le_antisymm (le_matchLen_iff.mpr ⟨?_, hinserted.matched_le, ?_⟩) hle
    · exact hlen ▸ hpath.length_le
    · obtain ⟨rest, hrest⟩ := hpath
      rw [← hrest, List.take_append_of_le_length hlen.ge, List.take_take, min_self]

/-- The search from the cache node of inserted tokens finds what the inspection reported. -/
theorem insert_covers (h : Shape t path) (hcoherent : t.Coherent)
    (hcanonical : ∀ n, (t.data n).seqIds ≠ ∅ → (path n).length ≤ (t.data n).canonicalLen)
    (hroot : ¬ t.Ready rootId) (tokens : List Token)
    (hready : 0 < (t.inspectPrefix tokens).readyTokens) :
    (t.inspectPrefix tokens).readyTokens ≤ (t.insert tokens).2.matchedTokens ∧
      ∃ source, (t.insert tokens).1.findCoveringSeqId (t.insert tokens).2.cacheNode =
        some (source, (t.inspectPrefix tokens).readyTokens) := by
  obtain ⟨path', hinserted⟩ := insert_spec h tokens
  obtain ⟨hmatched, ⟨⟨m₀, hm₀⟩, hmost⟩, _⟩ := h.inspectPrefix_spec tokens
  have hexactly := h.insert_exactly tokens
  generalize (t.inspectPrefix tokens).readyTokens = r at *
  obtain ⟨henters₀, hready₀, halive₀⟩ := h.alive_of_share (hm₀ ▸ hready)
  rw [h.share_eq _ halive₀, if_pos ⟨henters₀, hready₀⟩] at hm₀
  have hr : r ≤ matchLen (path m₀) tokens := hm₀ ▸ min_le_left _ _
  refine ⟨?_, ?_⟩
  · rw [← hexactly.inspected]
    exact hr.trans (h.pathTokens_eq halive₀ ▸ hmatched.2 ⟨m₀, rfl⟩)
  · have hcache := hinserted.alive _ hinserted.cacheNode
    have hready_iff (m : NodeId) : (t.insert tokens).1.Ready m ↔ t.Ready m := by
      rw [RadixTree.Ready, RadixTree.Ready, hinserted.data, Function.update_apply]
      split
      · rename_i heq
        rw [heq]
        rfl
      · rfl
    -- a ready node is entered exactly if it is on the way, and then covers its share
    have hplace {m : NodeId} (hm : t.Ready m) :
        ((t.insert tokens).1.Chain (t.insert tokens).2.cacheNode m ↔ t.Enters m tokens) ∧
          (t.Enters m tokens → (path' m).length = matchLen (path m) tokens) := by
      rw [hinserted.shape.chain_iff hcache (hinserted.alive m hm.alive)]
      exact h.insert_entered hinserted hm.alive fun heq => hroot (heq ▸ hm)
    have hchain₀ := (hplace hready₀).1.mpr henters₀
    have hsearched := hinserted.shape.findCoveringSeqId_searched hcache
    generalize hsearch : (t.insert tokens).1.findCoveringSeqId (t.insert tokens).2.cacheNode =
      outcome at hsearched ⊢
    cases hsearched with
    | nothing habove => exact absurd ((hready_iff m₀).mpr hready₀) (habove m₀ hchain₀)
    | below habove => exact absurd ((hready_iff m₀).mpr hready₀) (habove m₀ hchain₀)
    | @above source len a hnearest =>
      refine ⟨source, ?_⟩
      have ha := RadixTree.ready_of_mem hnearest.ready
      have haold := (hready_iff a).mp ha
      have hcovers : len = (path' a).length := by
        rw [hnearest.covers]
        refine hinserted.shape.coverage_eq (hcoherent.update (hcoherent _).hold hinserted.data)
          (fun n hn => ?_) ha
        have hdata : ((t.insert tokens).1.data n).seqIds = (t.data n).seqIds ∧
            ((t.insert tokens).1.data n).canonicalLen = (t.data n).canonicalLen := by
          rw [hinserted.data, Function.update_apply]
          split
          · rename_i heq
            rw [heq]
            exact ⟨rfl, rfl⟩
          · exact ⟨rfl, rfl⟩
        rw [hdata.1] at hn
        rw [hdata.2]
        exact (hinserted.shorter n
          (RadixTree.alive_of_data fun hunused => hn hunused.2)).length_le.trans (hcanonical n hn)
      obtain ⟨hchain, hlen⟩ := hplace haold
      have haenters := hchain.mp hnearest.chain
      have hshort : (path' a).length ≤ r := by
        refine le_trans ?_ (hmost ⟨a, rfl⟩)
        rw [h.share_eq _ haold.alive, if_pos ⟨haenters, haold⟩, hlen haenters, min_eq_left]
        exact (matchLen_le_left _ _).trans (hcanonical a (haold.registered hcoherent))
      have hlong : r ≤ (path' a).length := by
        have hup := hnearest.nearest m₀ hchain₀ ((hready_iff m₀).mpr hready₀)
        refine hr.trans ((hplace hready₀).2 henters₀ ▸ ?_)
        exact ((hinserted.shape.chain_iff ha.alive (hinserted.alive m₀ halive₀)).mp hup).length_le
      rw [hcovers, le_antisymm hshort hlong]

end Shape

end RadixForge
