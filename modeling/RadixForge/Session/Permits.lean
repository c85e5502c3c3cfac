import RadixForge.Session.Invariant

/-!
# What the protocol permits

The converse of the case analysis of a step: a client may always make the calls that its state
allows. With it goes the view of a session as a list of clients up to order, where the client that
moves comes first.
-/

namespace RadixForge

open Library

namespace Session

variable {s s' : Session}

/-- The clients of a session have different sequences. -/
theorem Sound.nodup (h : s.Sound) : (s.live.map Client.seqId).Nodup := by
  obtain ⟨_, _, hbooks⟩ := h
  exact hbooks.accounts.nodup

/-- A client is found by its sequence. -/
theorem client_of_mem (h : s.Sound) {c : Client} (hc : c ∈ s.live) : s.client c.seqId = some c := by
  have hsome : (s.client c.seqId).isSome = true := List.find?_isSome.mpr ⟨c, hc, by simp⟩
  obtain ⟨d, hd⟩ := Option.isSome_iff_exists.mp hsome
  obtain ⟨hmem, hseq⟩ := mem_of_client hd
  rw [hd, client_unique h.nodup hmem hc hseq]

/-- What is permitted is a step. -/
theorem step_of_permitted (h : s.Sound) {call : Call} (hpermitted : s.Permitted call s') :
    s.step call = some s' := by
  cases hpermitted with
  | prepare hhand hprepare => simp [step, hhand, hprepare]
  | exhausted hhand hprepare => simp [step, hhand, hprepare]
  | decode hhand hc hnext => simp [step, hhand, client_of_mem h hc, hnext]
  | markReady hhand hc hprompt hlen => simp [step, hhand, client_of_mem h hc, hprompt, hlen]
  | setCellCount hhand hc => simp [step, hhand, client_of_mem h hc]
  | extend hhand hc hready => simp [step, hhand, client_of_mem h hc, hready]
  | releaseSequence hc hhand => simp [step, client_of_mem h hc, hhand]
  | release hhand hnode => simp [step, hhand, hnode]
  | gcIfNeeded hhand => simp [step, hhand]
  | evictIdle hhand => simp [step, hhand]
  | evictKvPressure hhand => simp [step, hhand]

end Session

section Order

variable {live rest : List Client} {c : Client}

/-- The other clients have other sequences. -/
theorem seqId_ne_of_perm (hnodup : (live.map Client.seqId).Nodup) (hperm : live.Perm (c :: rest)) :
    ∀ d ∈ rest, d.seqId ≠ c.seqId := by
  have hids := (hperm.map Client.seqId).nodup_iff.mp hnodup
  rw [List.map_cons, List.nodup_cons] at hids
  exact fun d hd heq => hids.1 (heq ▸ List.mem_map_of_mem hd)

/-- A change of one client changes the first one. -/
theorem change_perm (hnodup : (live.map Client.seqId).Nodup) (hperm : live.Perm (c :: rest))
    (f : Client → Client) :
    (live.map fun d => if d.seqId = c.seqId then f d else d).Perm (f c :: rest) := by
  refine (hperm.map _).trans ?_
  rw [List.map_cons, if_pos rfl]
  refine List.Perm.of_eq (congrArg _ ?_)
  refine (List.map_congr_left fun d hd => ?_).trans (List.map_id _)
  exact if_neg (seqId_ne_of_perm hnodup hperm d hd)

/-- Without its client, a session has the others. -/
theorem filter_perm (hnodup : (live.map Client.seqId).Nodup) (hperm : live.Perm (c :: rest)) :
    (live.filter fun d => d.seqId ≠ c.seqId).Perm rest := by
  refine (hperm.filter _).trans ?_
  rw [List.filter_cons_of_neg (by simp)]
  refine List.Perm.of_eq (List.filter_eq_self.mpr fun d hd => ?_)
  simpa using seqId_ne_of_perm hnodup hperm d hd

end Order

/-- No call but its own extension or release takes a client away from its node. -/
theorem Session.step_keeps_client {s s' : Session} {call : Call} (hstep : s.step call = some s')
    {c : Client} (hc : c ∈ s.live) (hextend : ∀ node tokens, call ≠ .extend c.seqId node tokens)
    (hrelease : ∀ node, call ≠ .releaseSequence c.seqId node) :
    ∃ d ∈ s'.live, d.seqId = c.seqId ∧ d.leaf = c.leaf ∧ d.owner = c.owner ∧
      d.prompt = c.prompt := by
  have hsame : ∃ d ∈ s.live, d.seqId = c.seqId ∧ d.leaf = c.leaf ∧ d.owner = c.owner ∧
      d.prompt = c.prompt :=
    ⟨c, hc, rfl, rfl, rfl, rfl⟩
  have hchange {i : SeqId} {f : Client → Client}
      (hf : ∀ d, (f d).seqId = d.seqId ∧ (f d).leaf = d.leaf ∧ (f d).owner = d.owner ∧
        (f d).prompt = d.prompt) :
      ∃ d ∈ s.live.map fun e => if e.seqId = i then f e else e,
        d.seqId = c.seqId ∧ d.leaf = c.leaf ∧ d.owner = c.owner ∧ d.prompt = c.prompt := by
    refine ⟨_, List.mem_map_of_mem hc, ?_⟩
    split
    · exact hf c
    · exact ⟨rfl, rfl, rfl, rfl⟩
  cases permitted_of_step hstep with
  | prepare => exact ⟨c, List.mem_cons_of_mem _ hc, rfl, rfl, rfl, rfl⟩
  | decode => exact hchange fun _ => ⟨rfl, rfl, rfl, rfl⟩
  | markReady => exact hchange fun _ => ⟨rfl, rfl, rfl, rfl⟩
  | extend =>
    rename_i d _ _ _
    refine ⟨_, List.mem_map_of_mem hc, ?_⟩
    rw [if_neg fun heq => hextend d.leaf d.history (by rw [heq])]
    exact ⟨rfl, rfl, rfl, rfl⟩
  | releaseSequence =>
    rename_i d _ _
    refine ⟨c, List.mem_filter.mpr ⟨hc, ?_⟩, rfl, rfl, rfl, rfl⟩
    simpa using fun heq => hrelease d.owner (by rw [heq])
  | _ => exact hsame

end RadixForge
