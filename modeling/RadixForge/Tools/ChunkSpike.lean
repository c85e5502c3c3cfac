import Mathlib.Algebra.Group.Int.Defs
import Mathlib.Data.List.FinRange
import Mathlib.Data.List.Sort
import RadixForge.Json.Value
import RadixForge.Mapper.Memory

/-!
# The chunk spike

The tool of `tools/chunk_spike.cpp`: documents are decoded once into blobs, and a prompt is put
together from the cells of the blobs, shifted to their place, and from tokens that are decoded anew.
The memory holds for each sequence its cells; a snapshot is a copy of the cells of a sequence. Every
`llama_decode` is recorded with the cells that its sequence holds before it.
-/

namespace RadixForge

open Library

/-- A cell of the range is shifted, and dropped if it would be below zero. -/
def shiftCell (p0 p1 delta : ℤ) (c : Cell) : Option Cell :=
  if inRange p0 p1 c then if c.2 + delta < 0 then none
    else some (c.1, (c.2 + delta).toNat) else some c

/-- `llama_memory_seq_add`. -/
def LlamaMemory.seqAdd (m : LlamaMemory) (seqId : SeqId) (p0 p1 delta : ℤ) : LlamaMemory :=
  m.setCells seqId ((m.cells seqId).filterMap (shiftCell p0 p1 delta))

namespace ChunkSpike

/-- `kPrefixSeq`. -/
def kPrefixSeq : SeqId := 0

/-- `kTargetSeq`. -/
def kTargetSeq : SeqId := 1

/-- `kTemporarySeq`. -/
def kTemporarySeq : SeqId := 2

/-- `kScratchSeq`. -/
def kScratchSeq : SeqId := 3

/-- A call of `llama_decode`: where it starts, and what the sequence holds before it. -/
structure DecodeCall where
  sequence : SeqId
  position : ℕ
  tokens : List Token
  held : List Cell

/-- The memory of the context, and the decodes so far. -/
structure Context where
  memory : LlamaMemory
  decodes : List DecodeCall

/-- `Blob`. -/
structure Blob where
  data : List Cell
  tokenCount : ℕ

/-- The blobs of `ItemCache`. -/
structure ItemCache where
  naive : List Blob := []
  prefixed : List Blob := []

namespace Context

/-- A fresh context. -/
def init : Context := ⟨.init, []⟩

/-- The cells of a sequence. -/
def cells (c : Context) (sequence : SeqId) : List Cell := c.memory.cells sequence

/-- `decode`. -/
def decode (c : Context) (tokens : List Token) (sequence : SeqId) (position : ℕ) : Context :=
  if tokens = [] then c
  else
    { memory := c.memory.setCells sequence (c.cells sequence ++ tokens.zipIdx position)
      decodes := c.decodes ++ [⟨sequence, position, tokens, c.cells sequence⟩] }

/-- `llama_memory_seq_cp` of a whole sequence. -/
def copySequence (c : Context) (src dst : SeqId) : Context :=
  { c with memory := c.memory.seqCp src dst (-1) (-1) }

/-- `llama_memory_seq_rm`. -/
def removeRange (c : Context) (sequence : SeqId) (p0 p1 : ℤ) : Context :=
  { c with memory := c.memory.seqRm sequence p0 p1 }

/-- `llama_memory_seq_add`. -/
def shiftRange (c : Context) (sequence : SeqId) (p0 p1 delta : ℤ) : Context :=
  { c with memory := c.memory.seqAdd sequence p0 p1 delta }

/-- `remove_sequence`. -/
def removeSequence (c : Context) (sequence : SeqId) : Context := c.removeRange sequence (-1) (-1)

/-- `snapshot`. -/
def snapshot (c : Context) (sequence : SeqId) (tokenCount : ℕ) : Blob :=
  ⟨c.cells sequence, tokenCount⟩

/-- `restore`. -/
def restore (c : Context) (blob : Blob) (sequence : SeqId) : Context :=
  let c := c.removeSequence sequence
  { c with memory := c.memory.setCells sequence blob.data }

/-- The first half of `attach_tail`: the blob is restored without its recomputed head and without
the prefix. -/
def importTail (c : Context) (blob : Blob) (blobHasPrefix : Bool)
    (prefixTokens recomputed blobStart : ℕ) : Context :=
  let c := c.restore blob kTemporarySeq
  let c := if 0 < recomputed then c.removeRange kTemporarySeq blobStart
    (blobStart + recomputed) else c
  if blobHasPrefix then c.removeRange kTemporarySeq 0 prefixTokens else c

/-- `attach_tail`. -/
def attachTail (c : Context) (blob : Blob) (blobHasPrefix : Bool)
    (prefixTokens recomputed finalPosition : ℕ) : Context :=
  let blobStart := if blobHasPrefix then prefixTokens else 0
  let c := c.importTail blob blobHasPrefix prefixTokens recomputed blobStart
  let tailStart := blobStart + recomputed
  let c :=
    if tailStart < blobStart + blob.tokenCount then
      let c := c.shiftRange kTemporarySeq tailStart (-1) (finalPosition + recomputed - tailStart)
      c.copySequence kTemporarySeq kTargetSeq
    else c
  c.removeSequence kTemporarySeq

end Context

/-- The loop body of `precompute_chunks`: the chunk alone, and behind the prefix. -/
def precomputeChunk (prefixTokens : List Token) (state : Context × ItemCache) (chunk : List Token) :
    Context × ItemCache :=
  let c := state.1.decode chunk kScratchSeq 0
  let naive := c.snapshot kScratchSeq chunk.length
  let c := (c.removeSequence kScratchSeq).copySequence kPrefixSeq kScratchSeq
  let c := c.decode chunk kScratchSeq prefixTokens.length
  let prefixed := c.snapshot kScratchSeq chunk.length
  (c.removeSequence kScratchSeq,
    { naive := state.2.naive ++ [naive], prefixed := state.2.prefixed ++ [prefixed] })

/-- `precompute_chunks`. -/
def precomputeChunks (c : Context) (prefixTokens : List Token) (chunks : List (List Token)) :
    Context × ItemCache :=
  chunks.foldl (precomputeChunk prefixTokens) (c, {})

/-- `probe_blob`. -/
def probeBlob (c : Context) (blob : Blob) (nextPosition : ℕ) (probeToken : Token) : Context :=
  ((c.restore blob kTemporarySeq).decode [probeToken] kTemporarySeq nextPosition).removeSequence
    kTemporarySeq

/-- The check of `main` that attaching leaves the blob as it is: it is probed before and after. -/
def checkIndependence (c : Context) (prefixTokens chunk : List Token) (blob : Blob)
    (probe : Token) : Context :=
  let c := probeBlob c blob (prefixTokens.length + chunk.length) probe
  let c := c.copySequence kPrefixSeq kTargetSeq
  let c := c.attachTail blob true prefixTokens.length 0 (prefixTokens.length + 7)
  let c := c.removeSequence kTargetSeq
  probeBlob c blob (prefixTokens.length + chunk.length) probe

/-- `VariantSpec`. Its amounts are not negative. -/
structure VariantSpec where
  full : Bool := false
  prefixed : Bool := false
  head : ℕ := 0
  all : Bool := false
  topK : ℕ := 0
  gold : Bool := false
deriving DecidableEq

section Variants

/-- `std::stoi`: white space, a sign, digits; it throws without a digit and outside of `int`. -/
def stoi (text : Bytes) : Option ℤ :=
  let rest := text.dropWhile fun c => c = 0x20 ∨ 0x09 ≤ c ∧ c ≤ 0x0D
  let signed := rest.head? = some (byte '-') ∨ rest.head? = some (byte '+')
  let digits := (if signed then rest.drop 1 else rest).takeWhile fun c => byte '0' ≤ c ∧
    c ≤ byte '9'
  let magnitude : ℤ := digits.foldl (fun n c => 10 * n + (c.toNat - (byte '0').toNat : ℤ)) 0
  let value := if rest.head? = some (byte '-') then -magnitude else magnitude
  if digits = [] then none else if -2 ^ 31 ≤ value ∧ value < 2 ^ 31 then some value else none

/-- An amount of a variant, which is not negative. -/
def amount (text : Bytes) : Option ℕ :=
  (stoi text).bind fun value => if 0 ≤ value then some value.toNat else none

/-- `split`: the parts between the separators that are not empty. -/
def split (value : Bytes) (separator : UInt8) : List Bytes :=
  (value.splitOn separator).filter (· ≠ [])

/-- The loop body of `parse_variant`. -/
def parsePart (spec : VariantSpec) (part : Bytes) : Option VariantSpec :=
  if part = ascii "rALL" then some { spec with all := true }
  else if part = ascii "gold" then some { spec with gold := true }
  else if 1 < part.length ∧ part.head? = some (byte 'r') then
    (amount (part.drop 1)).map fun head => { spec with head := head }
  else if 3 < part.length ∧ ascii "top" <+: part then
    (amount (part.drop 3)).map fun topK => { spec with topK := topK }
  else none

/-- `parse_variant`. -/
def parseVariant (variant : Bytes) : Option VariantSpec :=
  if variant = ascii "full" then some { full := true }
  else
    match split variant (byte '+') with
    | [] => none
    | first :: parts =>
      if first = ascii "naive" ∨ first = ascii "prefixed" then
        parts.foldlM parsePart { prefixed := first = ascii "prefixed" }
      else none

example : parseVariant (ascii "prefixed+r16+gold") =
  some { prefixed := true, head := 16, gold := true } := by decide +kernel

example : parseVariant (ascii "naive+r-1") = none := by decide +kernel

/-- What `selected_chunks` uses of an `Item`: it has a gold mark and a score for each chunk. -/
structure Item (B : Type) where
  chunks : List Bytes
  gold : List Bool
  bm25 : List B
  gold_length : gold.length = chunks.length
  bm25_length : bm25.length = chunks.length

/-- `selected_chunks`. -/
def selectedChunks {B : Type} [LinearOrder B] (item : Item B) (spec : VariantSpec) : List Bool :=
  let selected := if spec.gold then item.gold else List.replicate item.chunks.length false
  let order := (List.finRange item.bm25.length).mergeSort fun a b => item.bm25.get b ≤
    item.bm25.get a
  (order.take spec.topK).foldl
    (fun selected (index : Fin item.bm25.length) => selected.set index true) selected

/-- Every chunk is selected or not. -/
theorem selectedChunks_length {B : Type} [LinearOrder B] (item : Item B) (spec : VariantSpec) :
    (selectedChunks item spec).length = item.chunks.length := by
  have hset (order : List (Fin item.bm25.length)) (selected : List Bool) :
      (order.foldl (fun selected (index : Fin item.bm25.length) => selected.set index true)
        selected).length = selected.length := by
    induction order generalizing selected with
    | nil => rfl
    | cons index order ih => rw [List.foldl_cons, ih, List.length_set]
  unfold selectedChunks
  dsimp only
  rw [hset]
  split
  · exact item.gold_length
  · rw [List.length_replicate]

end Variants

/-- The local variables of `run_variant`: where the next chunk starts, the count of the tokens
computed, and the tokens that wait to be decoded. -/
structure Assembly where
  context : Context
  position : ℕ
  computed : ℕ
  pending : List Token
  pendingPosition : ℕ
  decodeCalls : ℕ

namespace Assembly

/-- `flush`. -/
def flush (a : Assembly) : Assembly :=
  if a.pending = [] then a
  else
    { a with
      context := a.context.decode a.pending kTargetSeq a.pendingPosition
      decodeCalls := a.decodeCalls + 1
      pending := [] }

/-- `queue`. -/
def queue (a : Assembly) (tokens : List Token) (position : ℕ) : Assembly :=
  { a with
    pendingPosition := if a.pending = [] then position else a.pendingPosition
    pending := a.pending ++ tokens }

/-- How many tokens of a chunk are decoded anew. -/
def recomputed (spec : VariantSpec) (selected : List Bool) (chunk : List Token) (index : ℕ) : ℕ :=
  if spec.full || spec.all || selected.getD index false then chunk.length
  else if index ≠ 0 then min spec.head chunk.length
  else 0

/-- The head of a chunk is queued. -/
def queueHead (a : Assembly) (chunk : List Token) (recomputed : ℕ) : Assembly :=
  if 0 < recomputed then
    { a.queue (chunk.take recomputed) a.position with computed := a.computed + recomputed }
  else a

/-- The tail of a chunk is attached. -/
def attach (a : Assembly) (chunk : List Token) (blob : Blob) (prefixed : Bool)
    (prefixTokens recomputed : ℕ) : Assembly :=
  if recomputed < chunk.length then
    { a.flush with
      context := a.flush.context.attachTail blob prefixed prefixTokens recomputed a.position }
  else a

/-- The loop body of `run_variant`. -/
def addChunk (spec : VariantSpec) (selected : List Bool) (blobs : List Blob) (prefixTokens : ℕ)
    (a : Assembly) (entry : List Token × ℕ) : Assembly :=
  let (chunk, index) := entry
  let recomputed := recomputed spec selected chunk index
  let a := (a.queueHead chunk recomputed).attach chunk (blobs.getD index ⟨[], 0⟩) spec.prefixed
    prefixTokens recomputed
  { a with position := a.position + chunk.length }

/-- What `run_variant` starts with. -/
def start (c : Context) (prefixTokens suffix : List Token) : Assembly where
  context := (c.removeSequence kTargetSeq).copySequence kPrefixSeq kTargetSeq
  position := prefixTokens.length
  computed := suffix.length
  pending := []
  pendingPosition := prefixTokens.length
  decodeCalls := 0

/-- The suffix is decoded with what is still queued. -/
def finish (a : Assembly) (suffix : List Token) : Assembly :=
  let a := a.queue suffix a.position
  { a with
    context := a.context.decode a.pending kTargetSeq a.pendingPosition
    decodeCalls := a.decodeCalls + 1
    pending := [] }

end Assembly

/-- `run_variant` up to the greedy decoding. -/
def assemble (c : Context) (prefixTokens : List Token) (chunks : List (List Token))
    (suffix : List Token) (cache : ItemCache) (spec : VariantSpec) (selected : List Bool) :
    Assembly :=
  let blobs := if spec.prefixed then cache.prefixed else cache.naive
  (chunks.zipIdx.foldl (Assembly.addChunk spec selected blobs prefixTokens.length)
    (Assembly.start c prefixTokens suffix)).finish suffix

/-- The decodes of `greedy_answer`, of which the tokens are given. -/
def greedyAnswer (c : Context) (sequence : SeqId) (nextPosition : ℕ) : List Token → Context
  | [] => c
  | token :: rest => greedyAnswer (c.decode [token] sequence nextPosition) sequence
    (nextPosition + 1) rest

/-- What `Result` counts. -/
structure Result where
  tokensComputed : ℕ
  decodeCalls : ℕ

/-- `run_variant` with a parsed variant; the answer is what the model generates. -/
def runSpec (c : Context) (prefixTokens : List Token) (chunks : List (List Token))
    (suffix : List Token) (cache : ItemCache) (spec : VariantSpec) (selected : List Bool)
    (answer : List Token) : Context × Result :=
  let a := assemble c prefixTokens chunks suffix cache spec selected
  ((greedyAnswer a.context kTargetSeq (a.position + suffix.length) answer).removeSequence
    kTargetSeq, ⟨a.computed, a.decodeCalls⟩)

/-- `run_variant`. It fails for an unknown variant. -/
def runVariant {B : Type} [LinearOrder B] (c : Context) (item : Item B) (prefixTokens : List Token)
    (chunks : List (List Token)) (suffix : List Token) (cache : ItemCache) (variant : Bytes)
    (answer : List Token) :
    Option (Context × Result) :=
  (parseVariant variant).map fun spec =>
    runSpec c prefixTokens chunks suffix cache spec (selectedChunks item spec) answer

end ChunkSpike

end RadixForge
