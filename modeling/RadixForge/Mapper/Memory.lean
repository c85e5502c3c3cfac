import Mathlib.Data.List.Induction
import RadixForge.Tree.Node

/-!
# The KV memory of llama.cpp

The memory is what the project relies on of `llama_memory_*`: for each sequence the cells it
holds, a cell being a token with its position. `seq_cp` tags the source's cells in a range with
the destination, `seq_rm` removes a range, and a negative upper bound means no bound. The calls
are recorded in order, as the recording `KvOps` of the unit tests does.
-/

namespace RadixForge

/-- A cached token and the position at which it was decoded. -/
abbrev Cell := Token × ℕ

/-- One call through the `KvOps` interface. -/
inductive KvCall where
  | seqCp (src dst : SeqId) (p0 p1 : ℤ)
  | seqRm (seqId : SeqId) (p0 p1 : ℤ)
deriving DecidableEq

/-- The cells of every sequence, and the calls made so far. -/
structure LlamaMemory where
  cells : SeqId → List Cell
  calls : List KvCall

/-- The half-open range `[p0, p1)` of the llama API, unbounded above for a negative `p1`. -/
def inRange (p0 p1 : ℤ) (c : Cell) : Bool := decide (p0 ≤ c.2 ∧ (p1 < 0 ∨ c.2 < p1))

namespace LlamaMemory

/-- The memory of a fresh context. -/
def init : LlamaMemory where
  cells _ := []
  calls := []

/-- Replace the cells of one sequence. -/
def setCells (m : LlamaMemory) (seqId : SeqId) (cells : List Cell) : LlamaMemory :=
  { m with cells := fun s => if s = seqId then cells else m.cells s }

/-- `llama_memory_seq_cp`. -/
def seqCp (m : LlamaMemory) (src dst : SeqId) (p0 p1 : ℤ) : LlamaMemory :=
  { m.setCells dst (m.cells dst ++ (m.cells src).filter (inRange p0 p1)) with
    calls := m.calls ++ [.seqCp src dst p0 p1] }

/-- `llama_memory_seq_rm`. -/
def seqRm (m : LlamaMemory) (seqId : SeqId) (p0 p1 : ℤ) : LlamaMemory :=
  { m.setCells seqId ((m.cells seqId).filter fun c => !inRange p0 p1 c) with
    calls := m.calls ++ [.seqRm seqId p0 p1] }

/-- A successfully decoded row adds its cell to its sequence. -/
def append (m : LlamaMemory) (seqId : SeqId) (token : Token) (pos : ℕ) : LlamaMemory :=
  m.setCells seqId (m.cells seqId ++ [(token, pos)])

/-- The cells of a sequence that holds exactly the given tokens from position zero on. -/
def tape (tokens : List Token) : List Cell := tokens.zipIdx

/-- Only the cells of the sequence are replaced. -/
@[simp] theorem setCells_cells (m : LlamaMemory) (seqId s : SeqId) (cells : List Cell) :
    (m.setCells seqId cells).cells s = if s = seqId then cells else m.cells s := rfl

/-- The copy goes behind the cells that its target has, and touches no other sequence. -/
@[simp] theorem seqCp_cells (m : LlamaMemory) (src dst s : SeqId) (p0 p1 : ℤ) :
    (m.seqCp src dst p0 p1).cells s =
      if s = dst then m.cells dst ++ (m.cells src).filter (inRange p0 p1) else m.cells s := rfl

/-- The cells in the range are taken from the sequence, and from no other. -/
@[simp] theorem seqRm_cells (m : LlamaMemory) (seqId s : SeqId) (p0 p1 : ℤ) :
    (m.seqRm seqId p0 p1).cells s =
      if s = seqId then (m.cells seqId).filter (fun c => !inRange p0 p1 c) else m.cells s := rfl

/-- The cell goes behind those of the sequence, and touches no other. -/
@[simp] theorem append_cells (m : LlamaMemory) (seqId s : SeqId) (token : Token) (pos : ℕ) :
    (m.append seqId token pos).cells s = if s = seqId then m.cells seqId ++ [(token, pos)]
      else m.cells s := rfl

/-- No tokens lie on no cells. -/
@[simp] theorem tape_nil : tape [] = [] := rfl

/-- There is one cell for each token. -/
@[simp] theorem tape_length (tokens : List Token) : (tape tokens).length = tokens.length :=
  List.length_zipIdx

/-- Decoding a token at the next position continues the tape. -/
theorem tape_snoc (tokens : List Token) (token : Token) :
    tape (tokens ++ [token]) = tape tokens ++ [(token, tokens.length)] := by
  simp [tape, List.zipIdx_append]

/-- Keeping the positions below a bound cuts the tape there. -/
theorem tape_filter_lt (tokens : List Token) (k : ℕ) :
    (tape tokens).filter (fun c => decide (c.2 < k)) = tape (tokens.take k) := by
  induction tokens using List.reverseRecOn with
  | nil => simp
  | append_singleton tokens token ih =>
    rw [tape_snoc, List.filter_append, ih]
    by_cases hk : tokens.length < k
    · have hwhole : (tokens ++ [token]).length ≤
          k := by rw [List.length_append, List.length_singleton]; omega
      rw [List.take_of_length_le hwhole, List.take_of_length_le (by omega), tape_snoc]
      simp [hk]
    · rw [List.take_append_of_le_length (by omega)]
      simp [hk]

/-- Copying `[0, k)` copies the first `k` positions of a tape. -/
theorem tape_filter_inRange (tokens : List Token) (k : ℕ) :
    (tape tokens).filter (inRange 0 k) = tape (tokens.take k) := by
  rw [← tape_filter_lt]
  congr 1
  funext c
  simp only [inRange, decide_eq_decide]
  omega

/-- Removing everything from `k` on leaves the first `k` positions of a tape. -/
theorem tape_filter_not_inRange (tokens : List Token) (k : ℕ) :
    (tape tokens).filter (fun c => !inRange k (-1) c) = tape (tokens.take k) := by
  rw [← tape_filter_lt]
  congr 1
  funext c
  rw [inRange, ← decide_not, decide_eq_decide]
  omega

/-- Removing the whole range empties a sequence. -/
theorem filter_not_inRange_zero (cells : List Cell) :
    cells.filter (fun c => !inRange 0 (-1) c) = [] := by
  simp only [List.filter_eq_nil_iff]
  intro c _
  simp [inRange]

end LlamaMemory

end RadixForge
