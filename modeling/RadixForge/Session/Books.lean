import RadixForge.Library.Lease
import RadixForge.Session.Placement

/-!
# The books of a session

The invariant of the mapper and its clients. The abstract account of a session is the list of
its clients, the references still held, and for each node at most one idle sequence; the books
say how tree, pool, counters and memory follow from it. `path` is the ghost path of each node.
-/

namespace RadixForge

open Library

/-- Pool, cell counts and retained ids follow from the clients and the idle sequences. -/
structure Accounts (m : KVMapper) (live : List Client) (idle : NodeId → Option SeqId) : Prop where
  leases : Leases (· ∈ List.range' 1 (m.config.maxSequences - 1)) m.freeSeqIds
    (live.map Client.seqId) idle
  counts : ∀ i, i ∈ m.seqCellCounts ↔ i ∈ live.map Client.seqId ∨ ∃ n, idle n = some i
  retained : ∀ i, i ∈ m.retainedSeqIds ↔ ∃ n, idle n = some i
  cached : ∀ n i, idle n = some i → m.config.prefixCacheEnabled = true

/-- What holds of one client: its leaf is on the way to its prompt, its cells are its history, and a
ready sequence covers the path of its owner. -/
structure Client.Sound (c : Client) (path : NodeId → List Token) (memory : LlamaMemory) : Prop where
  leafPath : path c.leaf <+: c.prompt
  leafRoot : c.leaf = rootId → c.prompt = []
  order : c.history <+: c.prompt ∨ c.prompt <+: c.history
  ready : c.ready = true → c.prompt <+: c.history ∧ c.owner ≠ rootId ∧ path c.owner <+: c.history
  cells : memory.cells c.seqId = LlamaMemory.tape c.history

/-- The memory holds what the clients decoded and what the idle sequences cover, and nothing in free
sequences. -/
structure Contents (memory : LlamaMemory) (path : NodeId → List Token) (live : List Client)
    (free : List SeqId) (idle : NodeId → Option SeqId) : Prop where
  clients : ∀ c ∈ live, c.Sound path memory
  parked : ∀ n i, idle n = some i → ∃ w, memory.cells i = LlamaMemory.tape w ∧ path n <+: w
  free : ∀ i ∈ free, memory.cells i = []

/-- The invariant of a session. -/
structure Books (s : Session) (path : NodeId → List Token) (idle : NodeId → Option SeqId) :
    Prop where
  placement : Placement s.mapper.tree path s.live s.holds idle
  accounts : Accounts s.mapper s.live idle
  contents : Contents s.mapper.memory path s.live s.mapper.freeSeqIds idle
  owners : ∀ c ∈ s.live, c.owner = c.leaf ∨
    s.hand = some c.seqId ∧ c.ready = true ∧ s.mapper.config.prefixCacheEnabled = true

/-- A free sequence is filled for a new client. -/
theorem Contents.take {memory memory' : LlamaMemory} {path : NodeId → List Token}
    {live : List Client} {i : SeqId} {rest : List SeqId} {idle : NodeId → Option SeqId}
    {usable : SeqId → Prop} (h : Contents memory path live (i :: rest) idle)
    (hleases : Leases usable (i :: rest) (live.map Client.seqId) idle) {c : Client}
    (hseqId : c.seqId = i) (hsound : c.Sound path memory')
    (hcells : ∀ j, j ≠ i → memory'.cells j = memory.cells j) :
    Contents memory' path (c :: live) rest idle where
  clients d hd := by
    rcases List.mem_cons.mp hd with rfl | hd
    · exact hsound
    · obtain ⟨hleafPath, hleafRoot, horder, hready, hd'⟩ := h.clients d hd
      have hne : d.seqId ≠ i := fun heq =>
        hleases.free_held i List.mem_cons_self (heq ▸ List.mem_map_of_mem hd)
      exact ⟨hleafPath, hleafRoot, horder, hready, (hcells _ hne).trans hd'⟩
  parked n j hj := by
    rw [hcells j]
    · exact h.parked n j hj
    · rintro rfl
      exact hleases.free_idle _ List.mem_cons_self n hj
  free j hj := by
    rw [hcells j]
    · exact h.free j (List.mem_cons_of_mem _ hj)
    · rintro rfl
      exact (List.nodup_cons.mp hleases.free_nodup).1 hj

namespace Accounts

variable {m m' : KVMapper} {live : List Client} {idle : NodeId → Option SeqId}

/-- The accounts mention neither the tree nor the memory, and of the clients only the ids. -/
theorem congr (h : Accounts m live idle) {live' : List Client}
    (hids : live'.map Client.seqId = live.map Client.seqId) (hconfig : m'.config = m.config)
    (hfree : m'.freeSeqIds = m.freeSeqIds)
    (hcounts : ∀ i, i ∈ m'.seqCellCounts ↔ i ∈ m.seqCellCounts)
    (hretained : m'.retainedSeqIds = m.retainedSeqIds) :
    Accounts m' live' idle where
  leases := by rw [hids, hconfig, hfree]; exact h.leases
  counts i := by rw [hids, hcounts, h.counts]
  retained i := by rw [hretained, h.retained]
  cached n i hi := by rw [hconfig]; exact h.cached n i hi

/-- The clients have different sequences. -/
theorem nodup (h : Accounts m live idle) : (live.map Client.seqId).Nodup := h.leases.held_nodup

/-- The sequence of a client is not idle anywhere. -/
theorem not_idle (h : Accounts m live idle) {c : Client} (hc : c ∈ live) (n : NodeId) :
    idle n ≠ some c.seqId :=
  h.leases.held_idle _ (List.mem_map_of_mem hc) n

/-- A live sequence is freed. -/
theorem giveBack (h : Accounts m live idle) {c : Client} (hc : c ∈ live)
    (hconfig : m'.config = m.config) (hfree : m'.freeSeqIds = m.freeSeqIds ++ [c.seqId])
    (hcounts : m'.seqCellCounts = m.seqCellCounts.erase c.seqId)
    (hretained : m'.retainedSeqIds = m.retainedSeqIds.erase c.seqId) :
    Accounts m' (live.filter fun d => d.seqId ≠ c.seqId) idle where
  leases := by
    rw [map_seqId_filter, hconfig, hfree]
    exact h.leases.giveBack (List.mem_map_of_mem hc)
  counts i := by
    rw [hcounts, AList.mem_erase, h.counts, map_seqId_filter, List.mem_filter]
    by_cases hi : i = c.seqId
    · have hnone : ¬ ∃ n, idle n = some c.seqId := fun ⟨n, hn⟩ => h.not_idle hc n hn
      simp [hi, hnone]
    · simp [hi]
  retained i := by
    rw [hretained, Finset.mem_erase, h.retained]
    refine ⟨And.right, fun ⟨n, hn⟩ => ⟨?_, n, hn⟩⟩
    rintro rfl
    exact h.not_idle hc n hn
  cached n i hi := by rw [hconfig]; exact h.cached n i hi

/-- A live sequence is retained at a node without an idle one. -/
theorem park (h : Accounts m live idle) {c : Client} (hc : c ∈ live) {n : NodeId}
    (hn : idle n = none) (hcached : m.config.prefixCacheEnabled = true)
    (hconfig : m'.config = m.config) (hfree : m'.freeSeqIds = m.freeSeqIds) {count : ℕ}
    (hcounts : m'.seqCellCounts = m.seqCellCounts.insert c.seqId count)
    (hretained : m'.retainedSeqIds = insert c.seqId m.retainedSeqIds) :
    Accounts m' (live.filter fun d => d.seqId ≠ c.seqId)
      (Function.update idle n (some c.seqId)) where
  leases := by
    rw [map_seqId_filter, hconfig, hfree]
    exact h.leases.park (List.mem_map_of_mem hc) hn
  counts i := by
    rw [hcounts, AList.mem_insert, h.counts, map_seqId_filter, List.mem_filter,
      Leases.exists_update_some hn]
    by_cases hi : i = c.seqId
    · simp [hi]
    · simp [hi]
  retained i := by
    rw [hretained, Finset.mem_insert, h.retained, Leases.exists_update_some hn]
  cached k i hk := by
    rw [hconfig]
    exact hcached

/-- An idle sequence is freed. -/
theorem reclaim (h : Accounts m live idle) {n : NodeId} {i : SeqId} (hn : idle n = some i)
    (hconfig : m'.config = m.config) (hfree : m'.freeSeqIds = m.freeSeqIds ++ [i])
    (hcounts : m'.seqCellCounts = m.seqCellCounts.erase i)
    (hretained : m'.retainedSeqIds = m.retainedSeqIds.erase i) :
    Accounts m' live (Function.update idle n none) := by
  constructor
  · rw [hconfig, hfree]
    exact h.leases.reclaim hn
  · intro j
    rw [hcounts, AList.mem_erase, h.counts, h.leases.exists_update_none hn]
    by_cases hj : j = i
    · have hlive : i ∉ live.map Client.seqId := fun hmem => h.leases.held_idle i hmem n hn
      simp [hj, hlive]
    · simp [hj]
  · intro j
    rw [hretained, Finset.mem_erase, h.retained, h.leases.exists_update_none hn]
  · intro k j hk
    rw [hconfig]
    rw [Function.update_apply] at hk
    split at hk
    · contradiction
    · exact h.cached k j hk

/-- The first free id goes to a new client. -/
theorem take (h : Accounts m live idle) {c : Client} {rest : List SeqId}
    (hfirst : m.freeSeqIds = c.seqId :: rest) (hconfig : m'.config = m.config)
    (hfree : m'.freeSeqIds = rest) {count : ℕ}
    (hcounts : m'.seqCellCounts = m.seqCellCounts.insert c.seqId count)
    (hretained : m'.retainedSeqIds = m.retainedSeqIds.erase c.seqId) :
    Accounts m' (c :: live) idle where
  leases := by
    rw [List.map_cons, hconfig, hfree]
    have hleases := h.leases
    rw [hfirst] at hleases
    exact hleases.take
  counts i := by
    rw [hcounts, AList.mem_insert, h.counts, List.map_cons, List.mem_cons, or_assoc]
  retained i := by
    rw [hretained, Finset.mem_erase, h.retained]
    refine ⟨And.right, fun ⟨n, hn⟩ => ⟨?_, n, hn⟩⟩
    rintro rfl
    exact h.leases.free_idle c.seqId (hfirst ▸ List.mem_cons_self) n hn
  cached n i hi := by rw [hconfig]; exact h.cached n i hi

end Accounts

end RadixForge
