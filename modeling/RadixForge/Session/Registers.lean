import Mathlib.Data.List.Perm.Basic
import RadixForge.Session.Protocol
import RadixForge.Tree.Registry

/-!
# Registrations of clients and idle sequences

`Registers` says that the ids a registry lists at each node are those of the clients that own a
sequence there and of the idle sequence parked there, if any. Each change of the registry has a
matching change of clients or idle sequences.
-/

namespace RadixForge

open Library

section Clients

variable {live : List Client}

/-- Clients are told apart by their sequences. -/
theorem client_unique (hnodup : (live.map Client.seqId).Nodup) {c d : Client} (hc : c ∈ live)
    (hd : d ∈ live) (h : c.seqId = d.seqId) : c = d :=
  List.inj_on_of_nodup_map hnodup hc hd h

/-- A client and the others. -/
theorem perm_client_filter (hnodup : (live.map Client.seqId).Nodup) {c : Client} (hc : c ∈ live) :
    live.Perm (c :: live.filter fun d => d.seqId ≠ c.seqId) := by
  induction live with
  | nil => exact absurd hc List.not_mem_nil
  | cons d rest ih =>
    rw [List.map_cons, List.nodup_cons] at hnodup
    rcases List.mem_cons.mp hc with rfl | hc'
    · have hkeep : rest.filter (fun d => d.seqId ≠ c.seqId) = rest := by
        rw [List.filter_eq_self]
        intro e he
        have hne : e.seqId ≠ c.seqId := fun heq => hnodup.1 (heq ▸ List.mem_map_of_mem he)
        simpa using hne
      rw [List.filter_cons_of_neg (by simp), hkeep]
    · have hne : d.seqId ≠ c.seqId := fun heq => hnodup.1 (heq ▸ List.mem_map_of_mem hc')
      rw [List.filter_cons_of_pos (by simpa using hne)]
      exact ((ih hnodup.2 hc').cons d).trans (List.Perm.swap c d _)

/-- Removing a client removes its sequence from theirs. -/
theorem map_seqId_filter (i : SeqId) :
    (live.filter fun d => d.seqId ≠ i).map Client.seqId =
      (live.map Client.seqId).filter (· ≠ i) := by
  rw [List.filter_map]
  rfl

/-- A change of a client leaves the sequences. -/
theorem map_seqId_change {i : SeqId} {f : Client → Client} (hf : ∀ c, (f c).seqId = c.seqId) :
    (live.map fun c => if c.seqId = i then f c else c).map Client.seqId =
      live.map Client.seqId := by
  rw [List.map_map]
  refine List.map_congr_left fun c _ => ?_
  simp only [Function.comp_apply]
  split
  · exact hf c
  · rfl

/-- A change of a client leaves the leaves that they hold. -/
theorem countP_leaf_change {i : SeqId} {f : Client → Client} (hf : ∀ c, (f c).leaf = c.leaf)
    (n : NodeId) :
    (live.map fun c => if c.seqId = i then f c else c).countP (fun c => c.leaf = n) =
      live.countP fun c => c.leaf = n := by
  rw [List.countP_map]
  refine List.countP_congr fun c _ => ?_
  simp only [Function.comp_apply]
  split
  · rw [hf c]
  · rfl

/-- The clients after a change of one of them. -/
theorem mem_change (hnodup : (live.map Client.seqId).Nodup) {c : Client} (hc : c ∈ live)
    {f : Client → Client} (d : Client) :
    (d ∈ live.map fun e => if e.seqId = c.seqId then f e else e) ↔
      (d ∈ live ∧ d.seqId ≠ c.seqId) ∨ d = f c := by
  rw [List.mem_map]
  constructor
  · rintro ⟨e, he, rfl⟩
    split
    · rename_i heq
      exact Or.inr (client_unique hnodup he hc heq ▸ rfl)
    · rename_i hne
      exact Or.inl ⟨he, hne⟩
  · rintro (⟨hd, hne⟩ | rfl)
    · exact ⟨d, hd, if_neg hne⟩
    · exact ⟨c, hc, if_pos rfl⟩

end Clients

/-- The registered and the ready ids of each node. -/
structure Registers (data : NodeId → NodeData) (live : List Client) (idle : NodeId → Option SeqId) :
    Prop where
  registered : ∀ n i, i ∈ (data n).seqIds ↔
    (∃ c ∈ live, c.owner = n ∧ c.seqId = i) ∨ idle n = some i
  readied : ∀ n i, i ∈ (data n).readySeqIds ↔
    (∃ c ∈ live, c.owner = n ∧ c.seqId = i ∧ c.ready = true) ∨ idle n = some i

namespace Registers

variable {data : NodeId → NodeData} {live : List Client} {idle : NodeId → Option SeqId}

/-- References and canonical lengths do not matter. -/
theorem congr (h : Registers data live idle) {data' : NodeId → NodeData}
    (hsame : ∀ n, (data' n).seqIds = (data n).seqIds ∧
      (data' n).readySeqIds = (data n).readySeqIds) :
    Registers data' live idle where
  registered n i := by rw [(hsame n).1, h.registered]
  readied n i := by rw [(hsame n).2, h.readied]

/-- Clearing a node without clients removes its idle sequence. -/
theorem clear (h : Registers data live idle) {n : NodeId} (hlive : ∀ c ∈ live, c.owner ≠ n) :
    Registers (Function.update data n (data n).clear) live (Function.update idle n none) where
  registered m i := by
    rw [Function.update_apply, Function.update_apply]
    split
    · rename_i heq
      subst heq
      simp only [NodeData.clear, OrderedSet.notMem_empty, reduceCtorEq, or_false, false_iff]
      rintro ⟨c, hc, howner, _⟩
      exact hlive c hc howner
    · exact h.registered m i
  readied m i := by
    rw [Function.update_apply, Function.update_apply]
    split
    · rename_i heq
      subst heq
      simp only [NodeData.clear, OrderedSet.notMem_empty, reduceCtorEq, or_false, false_iff]
      rintro ⟨c, hc, howner, _⟩
      exact hlive c hc howner
    · exact h.readied m i

/-- Registering adds a pending client. -/
theorem register (h : Registers data live idle) {c : Client}
    (hpending : c.ready = false) (len : ℕ) :
    Registers (Function.update data c.owner ((data c.owner).register c.seqId len))
      (c :: live) idle where
  registered m i := by
    have hold := h.registered m i
    rw [Function.update_apply]
    by_cases hm : m = c.owner
    · subst hm
      simp only [if_true, NodeData.register, OrderedSet.mem_insert, hold, List.mem_cons,
        exists_eq_or_imp, true_and]
      rw [or_assoc, eq_comm]
    · simp only [if_neg hm, hold, List.mem_cons, exists_eq_or_imp, Ne.symm hm, false_and, false_or]
  readied m i := by
    have hsame :
        (Function.update data c.owner ((data c.owner).register c.seqId len) m).readySeqIds =
        (data m).readySeqIds := by
      rw [Function.update_apply]
      split
      · rename_i heq
        rw [heq]
        rfl
      · rfl
    rw [hsame, h.readied m i]
    simp [hpending]

/-- A change of a client that keeps owner, id and readiness. -/
theorem change (h : Registers data live idle) {i : SeqId} {f : Client → Client}
    (hf : ∀ c, (f c).owner = c.owner ∧ (f c).seqId = c.seqId ∧ (f c).ready = c.ready) :
    Registers data (live.map fun c => if c.seqId = i then f c else c) idle := by
  have hsame (p : NodeId → SeqId → Bool → Prop) :
      (∃ c ∈ live.map fun c => if c.seqId = i then f c else c, p c.owner c.seqId c.ready) ↔
        ∃ c ∈ live, p c.owner c.seqId c.ready := by
    simp only [List.mem_map, exists_exists_and_eq_and]
    refine exists_congr fun c => and_congr_right fun _ => ?_
    split
    · rw [(hf c).1, (hf c).2.1, (hf c).2.2]
    · rfl
  constructor
  · intro n j
    rw [h.registered, hsame fun owner seqId _ => owner = n ∧ seqId = j]
  · intro n j
    rw [h.readied, hsame fun owner seqId ready => owner = n ∧ seqId = j ∧ ready = true]

/-- Marking makes the client's sequence ready. -/
theorem markReady (h : Registers data live idle) (hnodup : (live.map Client.seqId).Nodup)
    {c : Client} (hc : c ∈ live) :
    Registers (Function.update data c.owner ((data c.owner).markReady c.seqId))
      (live.map fun d => if d.seqId = c.seqId then { d with ready := true } else d) idle := by
  have hmem : c.seqId ∈ (data c.owner).seqIds := (h.registered _ _).mpr (Or.inl ⟨c, hc, rfl, rfl⟩)
  have hmark : (data c.owner).markReady c.seqId =
      { data c.owner with readySeqIds := (data c.owner).readySeqIds.insert c.seqId } := if_pos hmem
  have hchange := mem_change hnodup hc (f := fun d => { d with ready := true })
  rw [hmark]
  constructor
  · intro m i
    have hsame : (Function.update data c.owner
        { data c.owner with readySeqIds := (data c.owner).readySeqIds.insert c.seqId } m).seqIds =
          (data m).seqIds := by
      rw [Function.update_apply]
      split
      · rename_i heq
        rw [heq]
      · rfl
    rw [hsame, h.registered m i]
    simp only [hchange]
    refine or_congr_left ⟨?_, ?_⟩
    · rintro ⟨d, hd, howner, hseq⟩
      by_cases heq : d.seqId = c.seqId
      · have hdc := client_unique hnodup hd hc heq
        subst hdc
        exact ⟨_, Or.inr rfl, howner, hseq⟩
      · exact ⟨d, Or.inl ⟨hd, heq⟩, howner, hseq⟩
    · rintro ⟨d, ⟨hd, _⟩ | rfl, howner, hseq⟩
      · exact ⟨d, hd, howner, hseq⟩
      · exact ⟨c, hc, howner, hseq⟩
  · intro m i
    have hold := h.readied m i
    simp only [hchange]
    rw [Function.update_apply]
    by_cases hm : m = c.owner
    · subst hm
      simp only [if_true, OrderedSet.mem_insert, hold]
      constructor
      · rintro (rfl | ⟨d, hd, hrest⟩ | hidle)
        · exact Or.inl ⟨_, Or.inr rfl, rfl, rfl, rfl⟩
        · by_cases heq : d.seqId = c.seqId
          · exact Or.inl ⟨_, Or.inr rfl, rfl, heq ▸ hrest.2.1, rfl⟩
          · exact Or.inl ⟨d, Or.inl ⟨hd, heq⟩, hrest⟩
        · exact Or.inr hidle
      · rintro (⟨d, ⟨hd, _⟩ | rfl, hrest⟩ | hidle)
        · exact Or.inr (Or.inl ⟨d, hd, hrest⟩)
        · exact Or.inl hrest.2.1.symm
        · exact Or.inr (Or.inr hidle)
    · simp only [if_neg hm, hold]
      refine or_congr_left ⟨?_, ?_⟩
      · rintro ⟨d, hd, hrest⟩
        refine ⟨d, Or.inl ⟨hd, fun heq => hm ?_⟩, hrest⟩
        rw [← hrest.1, client_unique hnodup hd hc heq]
      · rintro ⟨d, ⟨hd, _⟩ | rfl, hrest⟩
        · exact ⟨d, hd, hrest⟩
        · exact absurd hrest.1.symm hm

/-- Dropping a client's sequence. -/
theorem drop (h : Registers data live idle) (hnodup : (live.map Client.seqId).Nodup) {c : Client}
    (hc : c ∈ live) (hheld : ∀ n, idle n ≠ some c.seqId) :
    Registers (Function.update data c.owner ((data c.owner).drop c.seqId))
      (live.filter fun d => d.seqId ≠ c.seqId) idle := by
  constructor
  · intro m i
    have hold := h.registered m i
    simp only [List.mem_filter, decide_not, Bool.not_eq_eq_eq_not, Bool.not_true,
      decide_eq_false_iff_not]
    rw [Function.update_apply]
    by_cases hm : m = c.owner
    · subst hm
      simp only [if_true, NodeData.drop, OrderedSet.mem_erase, hold]
      constructor
      · rintro ⟨hne, ⟨d, hd, howner, hseq⟩ | hidle⟩
        · exact Or.inl ⟨d, ⟨hd, hseq ▸ hne⟩, howner, hseq⟩
        · exact Or.inr hidle
      · rintro (⟨d, ⟨hd, hne⟩, howner, hseq⟩ | hidle)
        · exact ⟨hseq ▸ hne, Or.inl ⟨d, hd, howner, hseq⟩⟩
        · exact ⟨fun heq => hheld _ (heq ▸ hidle), Or.inr hidle⟩
    · simp only [if_neg hm, hold]
      refine or_congr_left ⟨?_, ?_⟩
      · rintro ⟨d, hd, howner, hseq⟩
        refine ⟨d, ⟨hd, fun heq => hm ?_⟩, howner, hseq⟩
        rw [← howner, client_unique hnodup hd hc heq]
      · rintro ⟨d, ⟨hd, _⟩, howner, hseq⟩
        exact ⟨d, hd, howner, hseq⟩
  · intro m i
    have hold := h.readied m i
    simp only [List.mem_filter, decide_not, Bool.not_eq_eq_eq_not, Bool.not_true,
      decide_eq_false_iff_not]
    rw [Function.update_apply]
    by_cases hm : m = c.owner
    · subst hm
      simp only [if_true, NodeData.drop, OrderedSet.mem_erase, hold]
      constructor
      · rintro ⟨hne, ⟨d, hd, howner, hseq, hready⟩ | hidle⟩
        · exact Or.inl ⟨d, ⟨hd, hseq ▸ hne⟩, howner, hseq, hready⟩
        · exact Or.inr hidle
      · rintro (⟨d, ⟨hd, hne⟩, howner, hseq, hready⟩ | hidle)
        · exact ⟨hseq ▸ hne, Or.inl ⟨d, hd, howner, hseq, hready⟩⟩
        · exact ⟨fun heq => hheld _ (heq ▸ hidle), Or.inr hidle⟩
    · simp only [if_neg hm, hold]
      refine or_congr_left ⟨?_, ?_⟩
      · rintro ⟨d, hd, howner, hseq⟩
        refine ⟨d, ⟨hd, fun heq => hm ?_⟩, howner, hseq⟩
        rw [← howner, client_unique hnodup hd hc heq]
      · rintro ⟨d, ⟨hd, _⟩, howner, hseq⟩
        exact ⟨d, hd, howner, hseq⟩

/-- A dropped ready sequence arrives at another node with its client. -/
theorem takeOver (hnodup : (live.map Client.seqId).Nodup) {c : Client} (hc : c ∈ live)
    (h : Registers data (live.filter fun d => d.seqId ≠ c.seqId) idle) (hready : c.ready = true)
    (n : NodeId) (len : ℕ) :
    Registers (Function.update data n ((data n).takeOver c.seqId len))
      (live.map fun d => if d.seqId = c.seqId then { d with owner := n } else d) idle := by
  have hchange := mem_change hnodup hc (f := fun d => { d with owner := n })
  have hreg := h.registered
  have hrdy := h.readied
  simp only [List.mem_filter, decide_not, Bool.not_eq_eq_eq_not, Bool.not_true,
    decide_eq_false_iff_not] at hreg hrdy
  constructor
  · intro m i
    simp only [hchange]
    rw [Function.update_apply]
    by_cases hm : m = n
    · subst hm
      simp only [if_true, NodeData.takeOver, OrderedSet.mem_insert, hreg]
      constructor
      · rintro (rfl | ⟨d, hd, hrest⟩ | hidle)
        · exact Or.inl ⟨_, Or.inr rfl, rfl, rfl⟩
        · exact Or.inl ⟨d, Or.inl hd, hrest⟩
        · exact Or.inr hidle
      · rintro (⟨d, hd | rfl, hrest⟩ | hidle)
        · exact Or.inr (Or.inl ⟨d, hd, hrest⟩)
        · exact Or.inl hrest.2.symm
        · exact Or.inr (Or.inr hidle)
    · simp only [if_neg hm, hreg]
      refine or_congr_left ⟨?_, ?_⟩
      · rintro ⟨d, hd, hrest⟩
        exact ⟨d, Or.inl hd, hrest⟩
      · rintro ⟨d, hd | rfl, hrest⟩
        · exact ⟨d, hd, hrest⟩
        · exact absurd hrest.1.symm hm
  · intro m i
    simp only [hchange]
    rw [Function.update_apply]
    by_cases hm : m = n
    · subst hm
      simp only [if_true, NodeData.takeOver, OrderedSet.mem_insert, hrdy]
      constructor
      · rintro (rfl | ⟨d, hd, hrest⟩ | hidle)
        · exact Or.inl ⟨_, Or.inr rfl, rfl, rfl, hready⟩
        · exact Or.inl ⟨d, Or.inl hd, hrest⟩
        · exact Or.inr hidle
      · rintro (⟨d, hd | rfl, hrest⟩ | hidle)
        · exact Or.inr (Or.inl ⟨d, hd, hrest⟩)
        · exact Or.inl hrest.2.1.symm
        · exact Or.inr (Or.inr hidle)
    · simp only [if_neg hm, hrdy]
      refine or_congr_left ⟨?_, ?_⟩
      · rintro ⟨d, hd, hrest⟩
        exact ⟨d, Or.inl hd, hrest⟩
      · rintro ⟨d, hd | rfl, hrest⟩
        · exact ⟨d, hd, hrest⟩
        · exact absurd hrest.1.symm hm

/-- The sole ready sequence of a node stays there without its client. -/
theorem park (h : Registers data live idle) (hnodup : (live.map Client.seqId).Nodup) {c : Client}
    (hc : c ∈ live) (hready : c.ready = true) (hsole : ∀ i ∈ (data c.owner).seqIds, i = c.seqId) :
    Registers data (live.filter fun d => d.seqId ≠ c.seqId)
      (Function.update idle c.owner (some c.seqId)) := by
  have hnone : ∀ i, idle c.owner = some i →
      i = c.seqId := fun i hi => hsole i ((h.registered _ _).mpr (Or.inr hi))
  constructor
  · intro m i
    have hold := h.registered m i
    simp only [List.mem_filter, decide_not, Bool.not_eq_eq_eq_not, Bool.not_true,
      decide_eq_false_iff_not]
    rw [Function.update_apply]
    by_cases hm : m = c.owner
    · subst hm
      simp only [if_true, Option.some.injEq]
      constructor
      · exact fun hi => Or.inr (hsole i hi).symm
      · rintro (⟨d, ⟨hd, _⟩, hrest⟩ | rfl)
        · exact hold.mpr (Or.inl ⟨d, hd, hrest⟩)
        · exact hold.mpr (Or.inl ⟨c, hc, rfl, rfl⟩)
    · simp only [if_neg hm, hold]
      refine or_congr_left ⟨?_, ?_⟩
      · rintro ⟨d, hd, hrest⟩
        refine ⟨d, ⟨hd, fun heq => hm ?_⟩, hrest⟩
        rw [← hrest.1, client_unique hnodup hd hc heq]
      · rintro ⟨d, ⟨hd, _⟩, hrest⟩
        exact ⟨d, hd, hrest⟩
  · intro m i
    have hold := h.readied m i
    simp only [List.mem_filter, decide_not, Bool.not_eq_eq_eq_not, Bool.not_true,
      decide_eq_false_iff_not]
    rw [Function.update_apply]
    by_cases hm : m = c.owner
    · subst hm
      simp only [if_true, Option.some.injEq]
      constructor
      · rintro hi
        rcases hold.mp hi with ⟨d, hd, howner, hseq, _⟩ | hidle
        · exact Or.inr (hsole i ((h.registered _ _).mpr (Or.inl ⟨d, hd, howner, hseq⟩))).symm
        · exact Or.inr (hnone i hidle).symm
      · rintro (⟨d, ⟨hd, _⟩, hrest⟩ | rfl)
        · exact hold.mpr (Or.inl ⟨d, hd, hrest⟩)
        · exact hold.mpr (Or.inl ⟨c, hc, rfl, rfl, hready⟩)
    · simp only [if_neg hm, hold]
      refine or_congr_left ⟨?_, ?_⟩
      · rintro ⟨d, hd, hrest⟩
        refine ⟨d, ⟨hd, fun heq => hm ?_⟩, hrest⟩
        rw [← hrest.1, client_unique hnodup hd hc heq]
      · rintro ⟨d, ⟨hd, _⟩, hrest⟩
        exact ⟨d, hd, hrest⟩

end Registers

end RadixForge
