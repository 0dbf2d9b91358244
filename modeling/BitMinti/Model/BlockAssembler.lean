import BitMinti.Model.FeeFrac
import BitMinti.Model.LockTime

/-!
# Filling a block

`BlockAssembler` takes chunks from the mempool's `BlockBuilder` and adds the transactions of those
that fit.  The builder goes through the mempool's chunks in their order; where a chunk is skipped,
the later chunks of its cluster are left out, unless the chunk is known to be the last one.

Weights and sigop costs are natural numbers: the sums that are formed stay below the limits of the
block plus one chunk, which the source's 64-bit integers hold.  Logging is left out.

SOURCE: src/src/node/miner.cpp:79-118, 196-291, src/src/txgraph.cpp:3054-3146,
src/src/txmempool.h:749-765, src/src/policy/policy.h:31, 194
-/

set_option autoImplicit false

namespace BitMinti.Model

/-! ## The mempool's builder -/

/-- What a block takes from a `CTxMemPoolEntry`. -/
structure CTxMemPoolEntry where
  tx : CTransaction
  nFee : ℤ
  nTxWeight : ℕ
  sigOpCost : ℕ
  deriving DecidableEq

/-- A chunk of the mempool: its transactions, the feerate the graph has for it, the number of its
cluster and whether `GetCurrentChunk` notices that it is the last chunk of the cluster. -/
structure BuilderChunk where
  entries : List CTxMemPoolEntry
  feerate : FeeFrac
  cluster : ℕ
  endOfCluster : Bool
  deriving DecidableEq

/-- `BlockBuilderImpl`: the chunks from `m_cur_iter` on, and `m_excluded_clusters`. -/
structure BlockBuilder where
  chunks : List BuilderChunk
  excluded : List ℕ := []

namespace BlockBuilder

def next (b : BlockBuilder) : BlockBuilder :=
  { b with chunks := b.chunks.tail.dropWhile fun chunk => chunk.cluster ∈ b.excluded }

def getCurrentChunk (b : BlockBuilder) : Option BuilderChunk := b.chunks.head?

/-- `Include`. -/
def includeChunk (b : BlockBuilder) : BlockBuilder := b.next

def skip (b : BlockBuilder) : BlockBuilder :=
  match b.getCurrentChunk with
  | none => b.next
  | some chunk =>
    if chunk.endOfCluster then b.next
    else { b with excluded := chunk.cluster :: b.excluded }.next

theorem length_next_lt {b : BlockBuilder} {chunk : BuilderChunk}
    (h : b.getCurrentChunk = some chunk) : b.next.chunks.length < b.chunks.length := by
  obtain ⟨rest, hrest⟩ := List.head?_eq_some_iff.mp h
  rw [next, hrest, List.tail_cons]
  exact Nat.lt_succ_of_le (List.dropWhile_sublist _).length_le

theorem length_skip_lt {b : BlockBuilder} {chunk : BuilderChunk}
    (h : b.getCurrentChunk = some chunk) : b.skip.chunks.length < b.chunks.length := by
  rw [skip, h]
  dsimp only
  split
  · exact length_next_lt h
  · exact length_next_lt (b := { b with excluded := chunk.cluster :: b.excluded }) h

end BlockBuilder

/-! ## The options -/

def MINIMUM_BLOCK_RESERVED_WEIGHT : ℕ := 2000

/-- The options that limit a block. -/
structure AssemblerOptions where
  block_reserved_weight : ℕ
  coinbase_output_max_additional_sigops : ℕ
  nBlockMaxWeight : ℕ
  blockMinFeeRate : FeeFrac

def clamp (v lo hi : ℕ) : ℕ := if v < lo then lo else if hi < v then hi else v

def clampOptions (options : AssemblerOptions) : AssemblerOptions :=
  let block_reserved_weight :=
    clamp options.block_reserved_weight MINIMUM_BLOCK_RESERVED_WEIGHT MAX_BLOCK_WEIGHT
  { options with
    block_reserved_weight := block_reserved_weight
    coinbase_output_max_additional_sigops :=
      clamp options.coinbase_output_max_additional_sigops 0 MAX_BLOCK_SIGOPS_COST.toNat
    nBlockMaxWeight := clamp options.nBlockMaxWeight block_reserved_weight MAX_BLOCK_WEIGHT }

/-! ## The assembler -/

/-- The status of the block and the template.  The first transaction is the place of the coinbase
transaction, which is made later. -/
structure BlockAssembler where
  nBlockWeight : ℕ
  nBlockTx : ℕ
  nBlockSigOpsCost : ℕ
  nFees : ℤ
  vtx : List (Option CTransaction)
  vTxFees : List ℤ
  vTxSigOpsCost : List ℕ
  m_package_feerates : List FeeFrac

/-- `resetBlock`, and the new template with the dummy coinbase transaction. -/
def resetBlock (m_options : AssemblerOptions) : BlockAssembler where
  nBlockWeight := m_options.block_reserved_weight
  nBlockTx := 0
  nBlockSigOpsCost := m_options.coinbase_output_max_additional_sigops
  nFees := 0
  vtx := [none]
  vTxFees := []
  vTxSigOpsCost := []
  m_package_feerates := []

def toFeePerVSize (feerate : FeeFrac) : FeeFrac :=
  ⟨feerate.fee, (feerate.size + WITNESS_SCALE_FACTOR - 1).tdiv WITNESS_SCALE_FACTOR⟩

section AddChunks

variable (m_options : AssemblerOptions) (nHeight m_lock_time_cutoff : ℤ)

def testChunkBlockLimits (s : BlockAssembler) (chunk_feerate : FeeFrac) (chunk_sigops_cost : ℕ) :
    Bool :=
  if s.nBlockWeight + chunk_feerate.size ≥ m_options.nBlockMaxWeight then false
  else if (s.nBlockSigOpsCost + chunk_sigops_cost : ℤ) ≥ MAX_BLOCK_SIGOPS_COST then false
  else true

def testChunkTransactions (txs : List CTxMemPoolEntry) : Bool :=
  txs.all fun entry => isFinalTx entry.tx nHeight m_lock_time_cutoff

def addToBlock (s : BlockAssembler) (entry : CTxMemPoolEntry) : BlockAssembler :=
  { s with
    vtx := s.vtx ++ [some entry.tx]
    vTxFees := s.vTxFees ++ [entry.nFee]
    vTxSigOpsCost := s.vTxSigOpsCost ++ [entry.sigOpCost]
    nBlockWeight := s.nBlockWeight + entry.nTxWeight
    nBlockTx := s.nBlockTx + 1
    nBlockSigOpsCost := s.nBlockSigOpsCost + entry.sigOpCost
    nFees := s.nFees + entry.nFee }

def MAX_CONSECUTIVE_FAILURES : ℕ := 1000

def BLOCK_FULL_ENOUGH_WEIGHT_DELTA : ℕ := 4000

/-- The sigop cost of a chunk. -/
def chunkSigOps (entries : List CTxMemPoolEntry) : ℕ :=
  entries.foldl (fun chunk_sig_ops entry => chunk_sig_ops + entry.sigOpCost) 0

/-- The loop of `addChunks`. -/
def addChunksLoop (b : BlockBuilder) (nConsecutiveFailed : ℕ) (s : BlockAssembler) :
    BlockAssembler :=
  match h : b.getCurrentChunk with
  | none => s
  | some chunk =>
    if chunk.entries = [] then s
    else if (toFeePerVSize chunk.feerate).lower m_options.blockMinFeeRate then s
    else if !testChunkBlockLimits m_options s chunk.feerate (chunkSigOps chunk.entries) ||
        !testChunkTransactions nHeight m_lock_time_cutoff chunk.entries then
      if nConsecutiveFailed + 1 > MAX_CONSECUTIVE_FAILURES ∧
          s.nBlockWeight + BLOCK_FULL_ENOUGH_WEIGHT_DELTA > m_options.nBlockMaxWeight then s
      else addChunksLoop b.skip (nConsecutiveFailed + 1) s
    else
      let s := chunk.entries.foldl addToBlock s
      addChunksLoop b.includeChunk 0
        { s with m_package_feerates := s.m_package_feerates ++ [toFeePerVSize chunk.feerate] }
  termination_by b.chunks.length
  decreasing_by
    · exact BlockBuilder.length_skip_lt h
    · exact BlockBuilder.length_next_lt h

/-- `addChunks`, over a builder that starts at the first chunk. -/
def addChunks (chunks : List BuilderChunk) : BlockAssembler :=
  addChunksLoop m_options nHeight m_lock_time_cutoff ⟨chunks, []⟩ 0 (resetBlock m_options)

end AddChunks

end BitMinti.Model
