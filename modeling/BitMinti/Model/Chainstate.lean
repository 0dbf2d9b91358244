import BitMinti.Model.HeaderValidation

/-!
# The chainstate

`Chainstate` and the part of `ChainstateManager` that decides which chain is active: the block
index with its failure flags, `setBlockIndexCandidates`, `m_blocks_unlinked` and the tip.  A
`CBlockIndex *` is the hash of the entry.  `CChain` is the path from the genesis block to its
tip, so it is represented by the tip: `m_chain[h]` is the tip's ancestor of height `h`.

`setBlockIndexCandidates` is the list of its elements.  `addr` gives the addresses the entries
are stored at, the last thing the comparator looks at.

SOURCE: src/src/validation.cpp:122-140, 2286-2324, 4300-4455, 5156-5272, 7406-7415,
src/src/chain.h:370-440, src/src/node/blockstorage.cpp:166-190
-/

set_option autoImplicit false

namespace BitMinti.Model

/-! ## The state -/

/-- Why an operation stops short: a fault of the code, or the bound on its rounds. -/
inductive Stop where
  | fault (f : Fault)
  | outOfFuel
  deriving DecidableEq, Repr

/-- The part of `Chainstate`, `ChainstateManager` and `BlockManager` that is modelled.  `hashes`
lists the keys of `m_block_index` in the order of iteration. -/
structure Chainstate extends BlockManager where
  hashes : List Uint256 := []
  m_tip : Option Uint256 := none
  setBlockIndexCandidates : List Uint256 := []
  m_blocks_unlinked : List (Uint256 × Uint256) := []
  m_dirty_blockindex : List Uint256 := []
  m_best_invalid : Option Uint256 := none
  nBlockSequenceId : ℤ := SEQ_ID_INIT_FROM_DISK + 1
  nBlockReverseSequenceId : ℤ := -1
  nLastPreciousChainwork : ArithUint256 := .ofUInt64 0

/-- The chainstate before anything is loaded. -/
def Chainstate.empty : Chainstate := { toBlockManager := .empty }

/-- Code that runs on a chainstate. -/
abbrev ChainM (α : Type) : Type := StateT Chainstate (Except Stop) α

namespace Chainstate

/-! ## Following pointers -/

/-- `pindex->nStatus`. -/
def nStatus (s : Chainstate) (p : Uint256) : BlockStatus :=
  ((s.m_block_index p).map (·.nStatus)).getD {}

/-- `pindex->nStatus & BLOCK_FAILED_MASK`. -/
def failed (s : Chainstate) (p : Uint256) : Bool := (s.nStatus p).failed

/-- `pindex->nChainWork`. -/
def nChainWork (s : Chainstate) (p : Uint256) : ArithUint256 :=
  ((s.m_block_index p).map (·.nChainWork)).getD (.ofUInt64 0)

/-- `pindex->nSequenceId`. -/
def nSequenceId (s : Chainstate) (p : Uint256) : ℤ :=
  ((s.m_block_index p).map (·.nSequenceId)).getD 0

/-- `pindex->nHeight`. -/
def nHeight (s : Chainstate) (p : Uint256) : ℕ := s.m_block_index.height p

/-- `pindex->pprev`. -/
def pprev (s : Chainstate) (p : Uint256) : Option Uint256 := s.m_block_index.prev p

/-- `pindex->nTx`. -/
def nTx (s : Chainstate) (p : Uint256) : ℕ := ((s.m_block_index p).map (·.nTx)).getD 0

/-- `pindex->m_chain_tx_count`. -/
def m_chain_tx_count (s : Chainstate) (p : Uint256) : ℕ :=
  ((s.m_block_index p).map (·.m_chain_tx_count)).getD 0

/-- `pindex->HaveNumChainTxs()`. -/
def haveNumChainTxs (s : Chainstate) (p : Uint256) : Bool := s.m_chain_tx_count p != 0

/-- `pindex->IsValid(nUpTo)`. -/
def isValid (s : Chainstate) (p : Uint256) (nUpTo : BlockValidity) : Bool :=
  !s.failed p && decide (nUpTo.toNat ≤ (s.nStatus p).valid.toNat)

/-- `pindex->GetAncestor(height)`. -/
def getAncestor (s : Chainstate) (p : Uint256) (height : ℤ) : Option Uint256 :=
  (s.m_block_index p).bind fun e => (Model.getAncestor s.m_block_index e height).map (·.phashBlock)

/-- `pindex->GetAncestor(ancestor->nHeight) == ancestor`. -/
def descendsFrom (s : Chainstate) (p ancestor : Uint256) : Bool :=
  s.getAncestor p (s.nHeight ancestor) == some ancestor

/-! ## Writing -/

/-- Writing through every pointer at once. -/
def mapEntries (s : Chainstate) (f : Uint256 → CBlockIndex → CBlockIndex) : Chainstate :=
  { s with m_block_index := fun h => (s.m_block_index h).map (f h) }

/-- Writing through a pointer. -/
def modifyEntry (s : Chainstate) (p : Uint256) (f : CBlockIndex → CBlockIndex) : Chainstate :=
  s.mapEntries fun h e => if h = p then f e else e

/-- Writing `nStatus` of an entry and marking it dirty. -/
def modifyStatus (s : Chainstate) (p : Uint256) (f : BlockStatus → BlockStatus) : Chainstate :=
  { s.modifyEntry p fun e => { e with nStatus := f e.nStatus } with
    m_dirty_blockindex := s.m_dirty_blockindex.insert p }

/-- `setBlockIndexCandidates.insert`. -/
def insertCandidate (s : Chainstate) (p : Uint256) : Chainstate :=
  { s with setBlockIndexCandidates := s.setBlockIndexCandidates.insert p }

/-- `setBlockIndexCandidates.erase`. -/
def eraseCandidate (s : Chainstate) (p : Uint256) : Chainstate :=
  { s with setBlockIndexCandidates := s.setBlockIndexCandidates.filter (· != p) }

/-! ## The active chain -/

/-- `m_chain.Contains`. -/
def contains (s : Chainstate) (p : Uint256) : Bool :=
  s.m_tip.any fun tip => s.descendsFrom tip p

/-- Going up from `p` until `stop` holds; `fuel` bounds the blocks looked at. -/
def climb (s : Chainstate) (stop : Uint256 → Bool) : ℕ → Option Uint256 → Option Uint256
  | 0, _ => none
  | _ + 1, none => none
  | fuel + 1, some p => if stop p then some p else climb s stop fuel (s.pprev p)

/-- `m_chain.FindFork`. -/
def findFork (s : Chainstate) (p : Uint256) : Option Uint256 :=
  match s.m_tip with
  | none => none
  | some tip =>
    let pindex := if s.nHeight tip < s.nHeight p then s.getAncestor p (s.nHeight tip) else some p
    s.climb s.contains (s.nHeight p + 1) pindex

/-- `m_chain.Height()`. -/
def chainHeight (s : Chainstate) : ℤ := s.m_tip.elim (-1) fun tip => s.nHeight tip

/-- `m_chain.Genesis()`. -/
def chainGenesis (s : Chainstate) : Option Uint256 := s.m_tip.bind fun tip => s.getAncestor tip 0

/-- `FindForkInGlobalIndex`, for the hashes of a locator. -/
def findForkInGlobalIndex (s : Chainstate) : List Uint256 → Option Uint256
  | [] => s.chainGenesis
  | hash :: rest =>
    if (s.lookupBlockIndex hash).isSome then
      if s.contains hash then some hash
      else if s.getAncestor hash s.chainHeight == s.m_tip then s.m_tip
      else findForkInGlobalIndex s rest
    else findForkInGlobalIndex s rest

end Chainstate

section Comparator

variable (addr : Uint256 → ℕ)

/-- `CBlockIndexWorkComparator`. -/
def workComparator (s : Chainstate) (pa pb : Uint256) : Bool :=
  if (s.nChainWork pb).blt (s.nChainWork pa) then false
  else if (s.nChainWork pa).blt (s.nChainWork pb) then true
  else if s.nSequenceId pa < s.nSequenceId pb then false
  else if s.nSequenceId pb < s.nSequenceId pa then true
  else if addr pa < addr pb then false
  else if addr pb < addr pa then true
  else false

/-- The later one of two candidates. -/
def laterCandidate (s : Chainstate) (best : Option Uint256) (p : Uint256) : Option Uint256 :=
  match best with
  | none => some p
  | some q => if workComparator addr s q p then some p else some q

/-- `*setBlockIndexCandidates.rbegin()`. -/
def rbegin (s : Chainstate) : Option Uint256 :=
  s.setBlockIndexCandidates.foldl (laterCandidate addr s) none

end Comparator

/-! ## Failure flags -/

/-- `nStatus |= BLOCK_FAILED_VALID`. -/
def BlockStatus.setFailedValid (st : BlockStatus) : BlockStatus := { st with failedValid := true }

/-- `nStatus |= BLOCK_FAILED_CHILD`. -/
def BlockStatus.setFailedChild (st : BlockStatus) : BlockStatus := { st with failedChild := true }

/-- `(nStatus & ~BLOCK_FAILED_VALID) | BLOCK_FAILED_CHILD`. -/
def BlockStatus.toFailedChild (st : BlockStatus) : BlockStatus :=
  { st with failedValid := false, failedChild := true }

/-- `nStatus & ~BLOCK_FAILED_MASK`. -/
def BlockStatus.clearFailed (st : BlockStatus) : BlockStatus :=
  { st with failedValid := false, failedChild := false }

/-- The blocks `SetBlockFailureFlags` marks. -/
def Chainstate.properDescendant (s : Chainstate) (invalid_block p : Uint256) : Bool :=
  p != invalid_block && s.descendsFrom p invalid_block

def setBlockFailureFlags (invalid_block : Uint256) (s : Chainstate) : Chainstate :=
  { s.mapEntries fun p e =>
      if s.properDescendant invalid_block p then { e with nStatus := e.nStatus.toFailedChild }
      else e with
    m_dirty_blockindex :=
      s.hashes.filter (s.properDescendant invalid_block) ∪ s.m_dirty_blockindex }

/-- One round of `RecalculateBestHeader`. -/
def betterHeader (s : Chainstate) (best : Option Uint256) (p : Uint256) :
    ChainM (Option Uint256) :=
  if s.failed p then pure best
  else
    match best with
    | none => throw (.fault .nullDereference)
    | some q => pure (some (if (s.nChainWork q).blt (s.nChainWork p) then p else q))

def recalculateBestHeader : ChainM Unit := do
  let s ← get
  let best ← s.hashes.foldlM (betterHeader s) s.m_tip
  set { s with best_header := best }

/-- What `m_best_invalid` becomes when an invalid chain that ends in `p` is found. -/
def worstInvalid (s : Chainstate) (p : Uint256) : Option Uint256 :=
  match s.m_best_invalid with
  | none => some p
  | some q => if (s.nChainWork q).blt (s.nChainWork p) then some p else some q

def invalidChainFound (pindexNew : Uint256) : ChainM Unit := do
  modify fun s => { s with m_best_invalid := worstInvalid s pindexNew }
  modify (setBlockFailureFlags pindexNew)
  let s ← get
  if s.best_header.any fun best => s.descendsFrom best pindexNew then recalculateBestHeader
  if s.m_tip.isNone then throw (.fault .assertion)

def invalidBlockFound (pindex : Uint256) (result : BlockValidationResult) : ChainM Unit := do
  if result ≠ .mutated then
    modify fun s => (s.modifyStatus pindex .setFailedValid).eraseCandidate pindex
    invalidChainFound pindex

/-! ## Receiving blocks -/

section Receiving

variable (addr : Uint256 → ℕ)

/-- `TryAddBlockIndexCandidate`, with no snapshot and no target block. -/
def tryAddBlockIndexCandidate (pindex : Uint256) (s : Chainstate) : Chainstate :=
  if s.m_tip.any fun tip => workComparator addr s pindex tip then s else s.insertCandidate pindex

def prevTxSum (s : Chainstate) (p : Uint256) : ℕ :=
  s.nTx p + ((s.pprev p).map s.m_chain_tx_count).getD 0

/-- One round of the queue of `ReceivedBlockTransactions`. -/
def linkBlock (pindex : Uint256) (s : Chainstate) : Chainstate :=
  let sum := prevTxSum s pindex
  let s := { s.modifyEntry pindex fun e =>
      { e with m_chain_tx_count := sum, nSequenceId := s.nBlockSequenceId } with
    nBlockSequenceId := s.nBlockSequenceId + 1 }
  tryAddBlockIndexCandidate addr pindex s

/-- The queue of `ReceivedBlockTransactions`: each round takes the blocks waiting for the one at
the front out of `m_blocks_unlinked`. -/
def linkQueue : ℕ → List Uint256 → ChainM Unit
  | _, [] => pure ()
  | 0, _ :: _ => throw .outOfFuel
  | fuel + 1, pindex :: queue => do
      modify (linkBlock addr pindex)
      let s ← get
      let (waiting, rest) := s.m_blocks_unlinked.partition fun entry => entry.1 == pindex
      set { s with m_blocks_unlinked := rest }
      linkQueue fuel (queue ++ waiting.map (·.2))

structure FlatFilePos where
  nFile : ℕ
  nPos : ℕ
  deriving DecidableEq, Repr

/-- The entry `ReceivedBlockTransactions` writes before it looks at the parent. -/
def receiveEntry (params : ConsensusParams) (size : ℕ) (pos : FlatFilePos) (prevChainTx : ℕ)
    (e : CBlockIndex) : CBlockIndex :=
  let e := { e with nTx := size }
  let e :=
    if e.m_chain_tx_count = 0 ∨ e.m_chain_tx_count = size + prevChainTx then e
    else { e with m_chain_tx_count := 0 }
  { e with
    nFile := pos.nFile
    nDataPos := pos.nPos
    nUndoPos := 0
    nStatus := { e.nStatus with
      haveData := true
      optWitness := e.nStatus.optWitness ||
        decide (params.deploymentHeight .segwit ≤ e.nHeight) } }.raiseValidity .transactions

/-- `ReceivedBlockTransactions` for a block with `size` transactions. -/
def receivedBlockTransactions (params : ConsensusParams) (size : ℕ) (pindexNew : Uint256)
    (pos : FlatFilePos) : ChainM Unit := do
  modify fun s =>
    { s.modifyEntry pindexNew
        (receiveEntry params size pos (((s.pprev pindexNew).map s.m_chain_tx_count).getD 0)) with
      m_dirty_blockindex := s.m_dirty_blockindex.insert pindexNew }
  let s ← get
  match s.pprev pindexNew with
  | none => linkQueue addr (s.m_blocks_unlinked.length + 1) [pindexNew]
  | some pprev =>
    if s.haveNumChainTxs pprev then
      linkQueue addr (s.m_blocks_unlinked.length + 1) [pindexNew]
    else if s.isValid pprev .tree then
      set { s with m_blocks_unlinked := s.m_blocks_unlinked ++ [(pprev, pindexNew)] }

/-! ## `AcceptBlock` -/

/-- What stays fixed while a chainstate runs. -/
structure ChainContext (σ : Type) where
  getPoWHash : PoWHash σ
  params : ConsensusParams
  getHash : CBlockHeader → Uint256
  minimumChainWork : ArithUint256

/-- The arguments of `AcceptBlockHeader`, with the clock and the state of the RandomX caches it
finds. -/
structure HeaderCall (σ : Type) where
  block : CBlockHeader
  min_pow_checked : Bool
  now : ℤ
  pow : σ

/-- `AcceptBlockHeader` on a chainstate: a new entry is marked dirty. -/
def acceptHeader {σ : Type} (ctx : ChainContext σ) (call : HeaderCall σ) :
    ChainM (Except Invalid Uint256) := do
  let s ← get
  let (accepted, bm, _) := acceptBlockHeader ctx.getPoWHash ctx.params ctx.getHash call.now
    call.min_pow_checked call.block s.toBlockManager call.pow
  match accepted with
  | .error f => throw (.fault f)
  | .ok accepted =>
    let hash := ctx.getHash call.block
    if (s.m_block_index hash).isNone && (bm.m_block_index hash).isSome then
      set { s with
        toBlockManager := bm
        hashes := s.hashes ++ [hash]
        m_dirty_blockindex := s.m_dirty_blockindex.insert hash }
    pure accepted

/-- A block handed to `AcceptBlock`: its header, the number of its transactions, and what
`CheckBlock` and `ContextualCheckBlock` say of it.  `CheckBlock` refuses a block without
transactions. -/
structure BlockCall (σ : Type) extends HeaderCall σ where
  size : ℕ
  verdict : Except Invalid Unit
  fRequested : Bool
  pos : FlatFilePos
  nonempty : verdict = .ok () → 0 < size

def MIN_BLOCKS_TO_KEEP : ℕ := 288

/-- Whether `AcceptBlock` leaves a block alone that was not asked for. -/
def skipsUnrequested {σ : Type} (ctx : ChainContext σ) (s : Chainstate) (pindex : Uint256) : Bool :=
  let fHasMoreOrSameWork :=
    s.m_tip.all fun tip => !(s.nChainWork pindex).blt (s.nChainWork tip)
  let activeHeight : ℤ := s.m_tip.elim (-1) fun tip => s.nHeight tip
  let fTooFarAhead := decide ((s.nHeight pindex : ℤ) > activeHeight + MIN_BLOCKS_TO_KEEP)
  s.nTx pindex != 0 || !fHasMoreOrSameWork || fTooFarAhead ||
    (s.nChainWork pindex).blt ctx.minimumChainWork

def acceptBlock {σ : Type} (ctx : ChainContext σ) (call : BlockCall σ) : ChainM Bool := do
  match ← acceptHeader ctx call.toHeaderCall with
  | .error _ => pure false
  | .ok pindex =>
    let s ← get
    if (s.nStatus pindex).haveData then pure true
    else if !call.fRequested && skipsUnrequested ctx s pindex then pure true
    else
      match call.verdict with
      | .error invalid => do
          invalidBlockFound pindex invalid.result
          pure false
      | .ok () => do
          receivedBlockTransactions addr ctx.params call.size pindex call.pos
          pure true

end Receiving

end BitMinti.Model
