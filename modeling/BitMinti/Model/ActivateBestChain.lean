import BitMinti.Model.Chainstate
import Mathlib.Data.List.Sort

/-!
# Choosing the active chain

`ActivateBestChain` with its three loops, and the operations that change what it may choose:
`PreciousBlock`, `InvalidateBlock` and `ReconsiderBlock`.

What connecting a block does to the coins is left to `ConnectBlock`, whose outcome per block is
a parameter.  A block that turns out mutated there is a system error and not an outcome.
Interrupts, system errors, the mempool and the notifications are left out.  `fuel` bounds the
rounds of the two outer loops of `ActivateBestChain`; every other loop is bounded by the heights
of the blocks or the number of candidates.

SOURCE: src/src/validation.cpp:3396-3812, 3856-4298, 4317-4341, src/src/rpc/blockchain.cpp:1712-1730
-/

set_option autoImplicit false

namespace BitMinti.Model

/-- What `ConnectBlock` makes of a block: connected, with the place of its undo data, or against
a consensus rule. -/
inductive ConnectOutcome where
  | connected (nUndoPos : ℕ)
  | invalid
  deriving DecidableEq, Repr

/-! ## Moving the tip -/

def disconnectTip : ChainM Unit := do
  let s ← get
  match s.m_tip with
  | none => throw (.fault .assertion)
  | some pindexDelete =>
    match s.pprev pindexDelete with
    | none => throw (.fault .assertion)
    | some pprev => set { s with m_tip := some pprev }

/-- The entry a connected block is left with: its undo data are written once.  The genesis block
has none. -/
def connectEntry (nUndoPos : ℕ) (e : CBlockIndex) : CBlockIndex :=
  if e.pprev.isNone then e
  else
    let e :=
      if e.nStatus.haveUndo then e
      else { e with nUndoPos := nUndoPos, nStatus := { e.nStatus with haveUndo := true } }
    if e.isValid .scripts then e else e.raiseValidity .scripts

/-- Whether connecting a block changes its entry. -/
def connectWrites (e : CBlockIndex) : Bool :=
  e.pprev.isSome && (!e.nStatus.haveUndo || !e.isValid .scripts)

/-- `ConnectTip`: whether the block was connected. -/
def connectTip (connectBlock : Uint256 → ConnectOutcome) (pindexNew : Uint256) : ChainM Bool := do
  let s ← get
  if s.pprev pindexNew ≠ s.m_tip then throw (.fault .assertion)
  match connectBlock pindexNew with
  | .invalid => do
      invalidBlockFound pindexNew .consensus
      pure false
  | .connected nUndoPos => do
      set { s.modifyEntry pindexNew (connectEntry nUndoPos) with
        m_dirty_blockindex :=
          if (s.m_block_index pindexNew).any connectWrites then s.m_dirty_blockindex.insert pindexNew
          else s.m_dirty_blockindex
        m_tip := some pindexNew }
      pure true

section Choice

variable (addr : Uint256 → ℕ)

/-! ## `FindMostWorkChain` -/

/-- The walk of `FindMostWorkChain` to the active chain: the first block that cannot be used, and
whether that is because it is marked failed. -/
def findUnusable (s : Chainstate) : ℕ → Option Uint256 → Except Stop (Option (Uint256 × Bool))
  | _, none => .ok none
  | 0, some _ => .error .outOfFuel
  | fuel + 1, some pindexTest =>
    if s.contains pindexTest then .ok none
    else if !s.haveNumChainTxs pindexTest && s.nHeight pindexTest != 0 then
      .error (.fault .assertion)
    else if s.failed pindexTest || !(s.nStatus pindexTest).haveData then
      .ok (some (pindexTest, s.failed pindexTest))
    else findUnusable s fuel (s.pprev pindexTest)

/-- The loop of `FindMostWorkChain` that takes the chain from `pindexFailed` down to `pindexTest`
out of the set. -/
def removeChain (pindexTest : Uint256) (fFailedChain : Bool) (fuel : ℕ) (pindexFailed : Uint256)
    (s : Chainstate) : Except Stop Chainstate :=
  if pindexTest = pindexFailed then .ok s
  else
    match fuel, s.pprev pindexFailed with
    | 0, _ => .error .outOfFuel
    | _ + 1, none => .error (.fault .nullDereference)
    | fuel + 1, some pprev =>
      let s :=
        if fFailedChain then s.modifyStatus pindexFailed .setFailedChild
        else { s with m_blocks_unlinked := s.m_blocks_unlinked ++ [(pprev, pindexFailed)] }
      removeChain pindexTest fFailedChain fuel pprev (s.eraseCandidate pindexFailed)

/-- Taking the unusable chain that ends in `pindexNew` out of the set. -/
def dropChain (pindexNew pindexTest : Uint256) (fFailedChain : Bool) (s : Chainstate) :
    Except Stop Chainstate :=
  let marked := if fFailedChain then { s with m_best_invalid := worstInvalid s pindexNew } else s
  (removeChain pindexTest fFailedChain (s.nHeight pindexNew + 1) pindexNew marked).map
    (·.eraseCandidate pindexTest)

/-- The rounds of `FindMostWorkChain`. -/
def findMostWorkChainLoop (fuel : ℕ) (s : Chainstate) :
    Except Stop (Option Uint256 × Chainstate) :=
  match rbegin addr s with
  | none => .ok (none, s)
  | some pindexNew =>
    match findUnusable s (s.nHeight pindexNew + 1) (some pindexNew) with
    | .error e => .error e
    | .ok none => .ok (some pindexNew, s)
    | .ok (some (pindexTest, fFailedChain)) =>
      match fuel, dropChain pindexNew pindexTest fFailedChain s with
      | 0, _ => .error .outOfFuel
      | _ + 1, .error e => .error e
      | fuel + 1, .ok s => findMostWorkChainLoop fuel s

/-- `FindMostWorkChain`: each round takes a candidate out of the set. -/
def findMostWorkChain : ChainM (Option Uint256) := fun s =>
  findMostWorkChainLoop addr s.setBlockIndexCandidates.length s

def pruneBlockIndexCandidates : ChainM Unit := do
  let s ← get
  match s.m_tip with
  | none => throw (.fault .nullDereference)
  | some tip =>
    let left := s.setBlockIndexCandidates.filter fun p => !workComparator addr s p tip
    if left.isEmpty then throw (.fault .assertion)
    set { s with setBlockIndexCandidates := left }

/-! ## `ActivateBestChain` -/

variable (connectBlock : Uint256 → ConnectOutcome)

/-- The loop of `ActivateBestChainStep` that disconnects blocks. -/
def disconnectTo (pindexFork : Option Uint256) (fuel : ℕ) : ChainM Unit := do
  let s ← get
  if s.m_tip.isNone || s.m_tip == pindexFork then pure ()
  else
    match fuel with
    | 0 => throw .outOfFuel
    | fuel + 1 => do
        disconnectTip
        disconnectTo pindexFork fuel

/-- `vpindexToConnect`: the blocks from `pindexIter` down to the height above `nHeight`. -/
def blocksToConnect (s : Chainstate) (nHeight : ℤ) : ℕ → Option Uint256 → List Uint256
  | 0, _ => []
  | _ + 1, none => []
  | fuel + 1, some pindexIter =>
    if (s.nHeight pindexIter : ℤ) = nHeight then []
    else pindexIter :: blocksToConnect s nHeight fuel (s.pprev pindexIter)

/-- How a batch of blocks ends: all connected, ahead of the old tip, or at an invalid block. -/
inductive BatchEnd where
  | through
  | improved
  | invalidFound
  deriving DecidableEq, Repr

/-- Whether the tip has more work than the old one. -/
def improvesOn (pindexOldTip : Option Uint256) (s : Chainstate) : Bool :=
  pindexOldTip.all fun old =>
    s.m_tip.any fun tip => (s.nChainWork old).blt (s.nChainWork tip)

/-- The loop of `ActivateBestChainStep` that connects a batch; `front` is its highest block. -/
def connectBatch (pindexOldTip : Option Uint256) (front : Uint256) : List Uint256 → ChainM BatchEnd
  | [] => pure .through
  | pindexConnect :: rest => do
      if ← connectTip connectBlock pindexConnect then
        pruneBlockIndexCandidates addr
        let s ← get
        if improvesOn pindexOldTip s then pure .improved
        else connectBatch pindexOldTip front rest
      else
        invalidChainFound front
        pure .invalidFound

/-- The loop of `ActivateBestChainStep` over batches of 32 blocks: whether an invalid block was
found. -/
def connectBatches (pindexMostWork : Uint256) (pindexOldTip : Option Uint256) (fuel : ℕ)
    (nHeight : ℤ) : ChainM Bool := do
  let s ← get
  if nHeight = s.nHeight pindexMostWork then pure false
  else
    match fuel with
    | 0 => throw .outOfFuel
    | fuel + 1 => do
        let nTargetHeight := min (nHeight + 32) (s.nHeight pindexMostWork)
        match blocksToConnect s nHeight (s.nHeight pindexMostWork + 1)
            (s.getAncestor pindexMostWork nTargetHeight) with
        | [] => connectBatches pindexMostWork pindexOldTip fuel nTargetHeight
        | front :: rest => do
            match ← connectBatch addr connectBlock pindexOldTip front (front :: rest).reverse with
            | .through => connectBatches pindexMostWork pindexOldTip fuel nTargetHeight
            | .improved => pure false
            | .invalidFound => pure true

/-- `ActivateBestChainStep`: whether an invalid block was found. -/
def activateBestChainStep (pindexMostWork : Uint256) : ChainM Bool := do
  let s ← get
  let pindexFork := s.findFork pindexMostWork
  disconnectTo pindexFork (s.m_tip.elim 0 fun tip => s.nHeight tip + 1)
  let nHeight : ℤ := pindexFork.elim (-1) fun fork => s.nHeight fork
  connectBatches addr connectBlock pindexMostWork s.m_tip (s.nHeight pindexMostWork + 1) nHeight

/-- The chain to work towards: the one from the round before, or a new one. -/
def chooseChain (pindexMostWork : Option Uint256) : ChainM (Option Uint256) :=
  match pindexMostWork with
  | some best => pure (some best)
  | none => findMostWorkChain addr

/-- Whether the inner loop of `ActivateBestChain` goes on. -/
def tipBehind (starting_tip : Option Uint256) (s : Chainstate) : Bool :=
  s.m_tip.isNone || starting_tip.any fun start =>
    s.m_tip.any fun tip => workComparator addr s tip start

/-- The inner loop of `ActivateBestChain`: the chain it works towards at the end, and whether
`ActivateBestChainStep` ran. -/
def activateInner (starting_tip : Option Uint256) (fuel : ℕ) (pindexMostWork : Option Uint256)
    (blocks_connected : Bool) : ChainM (Option Uint256 × Bool) := do
  match fuel with
  | 0 => throw .outOfFuel
  | fuel + 1 => do
      let pindexMostWork ← chooseChain addr pindexMostWork
      let s ← get
      match pindexMostWork with
      | none => pure (none, blocks_connected)
      | some best =>
        if s.m_tip = some best then pure (some best, blocks_connected)
        else do
          let fInvalidFound ← activateBestChainStep addr connectBlock best
          let s ← get
          let pindexMostWork := if fInvalidFound then none else some best
          if tipBehind addr starting_tip s then
            activateInner starting_tip fuel pindexMostWork true
          else pure (pindexMostWork, true)

/-- The outer loop of `ActivateBestChain`; `rounds` bounds the inner one. -/
def activateOuter (rounds fuel : ℕ) (pindexMostWork : Option Uint256) : ChainM Unit := do
  match fuel with
  | 0 => throw .outOfFuel
  | fuel + 1 => do
      let s ← get
      let (pindexMostWork, blocks_connected) ←
        activateInner addr connectBlock s.m_tip rounds pindexMostWork false
      if blocks_connected then
        let s ← get
        if s.m_tip ≠ pindexMostWork then activateOuter rounds fuel pindexMostWork

def activateBestChain (fuel : ℕ) : ChainM Unit := activateOuter addr connectBlock fuel fuel none

/-! ## `PreciousBlock` -/

/-- The sequence id `PreciousBlock` gives out. -/
def preciousId (s : Chainstate) (tip : Uint256) : ℤ :=
  if s.nLastPreciousChainwork.blt (s.nChainWork tip) then -1 else s.nBlockReverseSequenceId

/-- The smallest value of an `int32_t`. -/
def INT32_MIN : ℤ := -2 ^ 31

def preciousBlock (fuel : ℕ) (pindex : Uint256) : ChainM Unit := do
  let s ← get
  match s.m_tip with
  | none => throw (.fault .nullDereference)
  | some tip =>
    if (s.nChainWork pindex).blt (s.nChainWork tip) then pure ()
    else do
      let id := preciousId s tip
      set { (s.eraseCandidate pindex).modifyEntry pindex (fun e => { e with nSequenceId := id }) with
        nLastPreciousChainwork := s.nChainWork tip
        nBlockReverseSequenceId := if INT32_MIN < id then id - 1 else id }
      let s ← get
      if s.isValid pindex .transactions && s.haveNumChainTxs pindex then
        set (s.insertCandidate pindex)
        pruneBlockIndexCandidates addr
      activateBestChain addr connectBlock fuel

/-! ## `InvalidateBlock` -/

/-- `highpow_outofchain_headers`, in the order of the multimap. -/
def highpowOutofchainHeaders (s : Chainstate) (pprev : Uint256) : List Uint256 :=
  (s.hashes.filter fun candidate =>
      !s.contains candidate && !workComparator addr s candidate pprev &&
        !s.failed candidate).insertionSort
    fun a b => ¬ (s.nChainWork b).blt (s.nChainWork a)

/-- What `InvalidateBlock` does with a candidate that stays valid when the tip is walked back to
`pprev`. -/
def considerCandidate (pprev : Uint256) (best_header_needs_update : Bool) (candidate : Uint256)
    (s : Chainstate) : Chainstate :=
  let s :=
    if !workComparator addr s candidate pprev && s.isValid candidate .transactions &&
        s.haveNumChainTxs candidate then s.insertCandidate candidate
    else s
  if best_header_needs_update &&
      s.best_header.any fun best => (s.nChainWork best).blt (s.nChainWork candidate) then
    { s with best_header := some candidate }
  else s

/-- The loop of `InvalidateBlock` over the candidates: it marks those that descend from
`invalid_walk_tip` and takes them off the list. -/
def considerCandidates (invalid_walk_tip pprev : Uint256) (best_header_needs_update : Bool) :
    List Uint256 → Chainstate → List Uint256 × Chainstate
  | [], s => ([], s)
  | candidate :: rest, s =>
    if (s.nChainWork candidate).blt (s.nChainWork pprev) then
      let (left, s) := considerCandidates invalid_walk_tip pprev best_header_needs_update rest s
      (candidate :: left, s)
    else if s.descendsFrom candidate invalid_walk_tip then
      considerCandidates invalid_walk_tip pprev best_header_needs_update rest
        (s.modifyStatus candidate .toFailedChild)
    else
      let (left, s) := considerCandidates invalid_walk_tip pprev best_header_needs_update rest
        (considerCandidate addr pprev best_header_needs_update candidate s)
      (candidate :: left, s)

/-- The flags `InvalidateBlock` sets on the block it disconnected and on the one before. -/
def markWalkTip (invalid_walk_tip pprev to_mark_failed : Uint256) (s : Chainstate) : Chainstate :=
  let s := s.modifyStatus invalid_walk_tip .setFailedValid
  let s := (s.eraseCandidate invalid_walk_tip).insertCandidate pprev
  if s.pprev to_mark_failed = some invalid_walk_tip && (s.nStatus to_mark_failed).failedValid then
    s.modifyStatus to_mark_failed .toFailedChild
  else s

/-- One round of the loop of `InvalidateBlock` after the tip `invalid_walk_tip` is disconnected:
the candidates that are left. -/
def walkBack (invalid_walk_tip pprev to_mark_failed : Uint256) (highpow : List Uint256)
    (s : Chainstate) : List Uint256 × Chainstate :=
  let s := markWalkTip invalid_walk_tip pprev to_mark_failed s
  let best_header_needs_update := s.best_header.any fun best => s.descendsFrom best invalid_walk_tip
  let s := if best_header_needs_update then { s with best_header := some pprev } else s
  considerCandidates addr invalid_walk_tip pprev best_header_needs_update highpow s

/-- The loop of `InvalidateBlock` that disconnects `pindex`: the last block disconnected. -/
def invalidateLoop (pindex : Uint256) (fuel : ℕ) (to_mark_failed : Uint256)
    (highpow : List Uint256) : ChainM Uint256 := do
  let s ← get
  if s.contains pindex then
    match fuel with
    | 0 => throw .outOfFuel
    | fuel + 1 =>
      match s.m_tip with
      | none => throw (.fault .assertion)
      | some invalid_walk_tip => do
          disconnectTip
          let s ← get
          match s.m_tip with
          | none => throw (.fault .assertion)
          | some pprev => do
              let (highpow, s) := walkBack addr invalid_walk_tip pprev to_mark_failed highpow s
              set s
              invalidateLoop pindex fuel invalid_walk_tip highpow
  else pure to_mark_failed

/-- The loop of `InvalidateBlock` over all entries. -/
def addMissingCandidates (tip : Uint256) (s : Chainstate) : Chainstate :=
  { s with setBlockIndexCandidates :=
      s.hashes.filter (fun p => s.isValid p .transactions && s.haveNumChainTxs p &&
        !workComparator addr s p tip) ∪ s.setBlockIndexCandidates }

def invalidateBlock (pindex : Uint256) : ChainM Bool := do
  let s ← get
  match s.nHeight pindex, s.pprev pindex with
  | 0, _ => pure false
  | _ + 1, none => throw (.fault .nullDereference)
  | _ + 1, some pprev => do
      let pindex_was_in_chain := s.contains pindex
      let to_mark_failed ← invalidateLoop addr pindex (s.m_tip.elim 0 fun tip => s.nHeight tip + 1)
        pindex (highpowOutofchainHeaders addr s pprev)
      let s ← get
      if s.contains to_mark_failed then pure false
      else do
        if !pindex_was_in_chain && !s.failed pindex then
          set ((s.modifyStatus pindex .setFailedValid).eraseCandidate pindex)
        let s ← get
        match s.m_tip with
        | none => throw (.fault .nullDereference)
        | some tip => do
            set (addMissingCandidates addr tip s)
            invalidChainFound to_mark_failed
            pure true

/-! ## `ReconsiderBlock` -/

/-- The blocks `ResetBlockFailureFlags` clears. -/
def Chainstate.cleared (s : Chainstate) (pindex p : Uint256) : Bool :=
  s.failed p && (s.descendsFrom p pindex || s.descendsFrom pindex p)

/-- The blocks `ResetBlockFailureFlags` puts back into the set if they sort after the tip. -/
def Chainstate.restored (s : Chainstate) (pindex p : Uint256) : Bool :=
  s.cleared pindex p && decide (BlockValidity.transactions.toNat ≤ (s.nStatus p).valid.toNat) &&
    s.haveNumChainTxs p

def resetBlockFailureFlags (pindex : Uint256) : ChainM Unit := do
  let s ← get
  if s.m_tip.isNone && s.hashes.any (s.restored pindex) then throw (.fault .nullDereference)
  set { s.mapEntries fun p e =>
      if s.cleared pindex p then { e with nStatus := e.nStatus.clearFailed } else e with
    m_dirty_blockindex := s.hashes.filter (s.cleared pindex) ∪ s.m_dirty_blockindex
    setBlockIndexCandidates :=
      s.hashes.filter (fun p => s.restored pindex p &&
        s.m_tip.any fun tip => workComparator addr s tip p) ∪ s.setBlockIndexCandidates
    m_best_invalid := s.m_best_invalid.filter fun p => !s.cleared pindex p }

/-- `ReconsiderBlock` of a block that is in the index. -/
def reconsiderBlock (fuel : ℕ) (pindex : Uint256) : ChainM Unit := do
  resetBlockFailureFlags addr pindex
  recalculateBestHeader
  activateBestChain addr connectBlock fuel

end Choice

end BitMinti.Model
