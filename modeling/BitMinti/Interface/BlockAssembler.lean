import BitMinti.Model.BlockAssembler

/-!
# What a filled block is

A block filled with some entries of the mempool: its lists and totals are those of the entries, the
entries are final, and the block is within its limits.  What is reserved may already be all that is
allowed; with a transaction the block stays below the limits.
-/

set_option autoImplicit false

namespace BitMinti.Interface

open Model

/-- The weight of some entries. -/
def totalWeight (entries : List CTxMemPoolEntry) : ℕ := (entries.map (·.nTxWeight)).sum

/-- The sigop cost of some entries. -/
def totalSigOps (entries : List CTxMemPoolEntry) : ℕ := (entries.map (·.sigOpCost)).sum

/-- The lists and the totals of a block are those of the selected entries. -/
structure Accounts (m_options : AssemblerOptions) (selected : List CTxMemPoolEntry)
    (s : BlockAssembler) : Prop where
  vtx : s.vtx = none :: selected.map fun entry => some entry.tx
  vTxFees : s.vTxFees = selected.map (·.nFee)
  vTxSigOpsCost : s.vTxSigOpsCost = selected.map (·.sigOpCost)
  nBlockTx : s.nBlockTx = selected.length
  nFees : s.nFees = (selected.map (·.nFee)).sum
  nBlockWeight : s.nBlockWeight = m_options.block_reserved_weight + totalWeight selected
  nBlockSigOpsCost : s.nBlockSigOpsCost =
    m_options.coinbase_output_max_additional_sigops + totalSigOps selected

/-- A block is within its limits, and below them when a transaction has been selected. -/
structure WithinLimits (m_options : AssemblerOptions) (selected : List CTxMemPoolEntry)
    (s : BlockAssembler) : Prop where
  weight_le : s.nBlockWeight ≤ m_options.nBlockMaxWeight
  weight_lt : selected ≠ [] → s.nBlockWeight < m_options.nBlockMaxWeight
  sigOps_le : (s.nBlockSigOpsCost : ℤ) ≤ MAX_BLOCK_SIGOPS_COST
  sigOps_lt : selected ≠ [] → (s.nBlockSigOpsCost : ℤ) < MAX_BLOCK_SIGOPS_COST

/-- A block filled with the selected entries. -/
structure FilledWith (m_options : AssemblerOptions) (nHeight m_lock_time_cutoff : ℤ)
    (selected : List CTxMemPoolEntry) (s : BlockAssembler) : Prop where
  accounts : Accounts m_options selected s
  limits : WithinLimits m_options selected s
  final : ∀ entry ∈ selected, isFinalTx entry.tx nHeight m_lock_time_cutoff = true

/-- The size reported for each chunk is at least the weight of its transactions. -/
def ReportsWeights (chunks : List BuilderChunk) : Prop :=
  ∀ chunk ∈ chunks, (totalWeight chunk.entries : ℤ) ≤ chunk.feerate.size

/-- Each chunk is in the selection entirely or not at all. -/
def WholeChunks (chunks : List BuilderChunk) (selected : List CTxMemPoolEntry) : Prop :=
  ∀ chunk ∈ chunks, (∀ entry ∈ chunk.entries, entry ∈ selected) ∨
    ∀ entry ∈ chunk.entries, entry ∉ selected

end BitMinti.Interface
