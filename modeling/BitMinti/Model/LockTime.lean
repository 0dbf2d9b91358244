import BitMinti.Model.Chainstate
import BitMinti.Model.ConnectBlock

/-!
# Lock times

When a transaction may go into the next block: `IsFinalTx` for `nLockTime` and `SequenceLocks`
for the relative locks of the inputs, and the `LockPoints` that a mempool entry keeps so that the
relative locks need not be computed again.

The block that is being evaluated is a `CBlockIndex` on the stack whose `pprev` is the tip.
Heights and times are integers here; the source's `int` and `int64_t` hold them with room to
spare.  A failed `Assert` is a fault.  `coins` is `GetCoin` of the view the code is given.

SOURCE: src/src/consensus/tx_verify.cpp:17-110, src/src/validation.cpp:150-267,
src/src/txmempool.cpp:40-55, src/src/kernel/mempool_entry.h:27-37
-/

set_option autoImplicit false

namespace BitMinti.Model

/-! ## `nLockTime` -/

def LOCKTIME_THRESHOLD : ℤ := 500000000

def SEQUENCE_FINAL : BitVec 32 := 0xffffffff#32

def isFinalTx (tx : CTransaction) (nBlockHeight nBlockTime : ℤ) : Bool :=
  let nLockTime : ℤ := tx.nLockTime.toNat
  if tx.nLockTime = 0#32 then true
  else if nLockTime < (if nLockTime < LOCKTIME_THRESHOLD then nBlockHeight else nBlockTime) then true
  else tx.vin.all fun txin => txin.nSequence == SEQUENCE_FINAL

def checkFinalTxAtTip (m : BlockMap) (active_chain_tip : CBlockIndex) (tx : CTransaction) : Bool :=
  isFinalTx tx (active_chain_tip.nHeight + 1) (getMedianTimePast m active_chain_tip)

/-! ## Relative locks -/

def SEQUENCE_LOCKTIME_MASK : BitVec 32 := 0x0000ffff#32

def SEQUENCE_LOCKTIME_GRANULARITY : ℕ := 9

/-- `nSequence & SEQUENCE_LOCKTIME_DISABLE_FLAG`. -/
def CTxIn.lockDisabled (txin : CTxIn) : Bool := txin.nSequence &&& 0x80000000#32 != 0#32

/-- `nSequence & SEQUENCE_LOCKTIME_TYPE_FLAG`. -/
def CTxIn.lockIsTime (txin : CTxIn) : Bool := txin.nSequence &&& 0x00400000#32 != 0#32

/-- `nSequence & SEQUENCE_LOCKTIME_MASK`. -/
def CTxIn.lockValue (txin : CTxIn) : BitVec 32 := txin.nSequence &&& SEQUENCE_LOCKTIME_MASK

/-- `fEnforceBIP68`. -/
def enforcesBip68 (tx : CTransaction) (flags : ℕ) : Bool :=
  decide (2 ≤ tx.version.toNat) && flags &&& LOCKTIME_VERIFY_SEQUENCE != 0

/-- The loop of `CalculateSequenceLocks` over the inputs and their heights. -/
def sequenceLocksLoop (m : BlockMap) (block : CBlockIndex) :
    List (CTxIn × ℤ) → ℤ × ℤ → Except Fault (ℤ × ℤ)
  | [], lockPair => .ok lockPair
  | (txin, nCoinHeight) :: rest, (nMinHeight, nMinTime) =>
    if txin.lockDisabled then sequenceLocksLoop m block rest (nMinHeight, nMinTime)
    else if txin.lockIsTime then
      match getAncestor m block (max (nCoinHeight - 1) 0) with
      | none => .error .assertion
      | some ancestor =>
        let nCoinTime := getMedianTimePast m ancestor
        let lock : ℤ := (txin.lockValue <<< SEQUENCE_LOCKTIME_GRANULARITY).toNat
        sequenceLocksLoop m block rest (nMinHeight, max nMinTime (nCoinTime + lock - 1))
    else
      sequenceLocksLoop m block rest
        (max nMinHeight (nCoinHeight + txin.lockValue.toNat - 1), nMinTime)

/-- What `CalculateSequenceLocks` leaves in `prevHeights`. -/
def relevantHeights (vin : List CTxIn) (prevHeights : List ℤ) : List ℤ :=
  List.zipWith (fun txin height => if txin.lockDisabled then 0 else height) vin prevHeights

/-- `CalculateSequenceLocks`: the last height and time at which the transaction is not valid yet,
and `prevHeights` after the call. -/
def calculateSequenceLocks (m : BlockMap) (tx : CTransaction) (flags : ℕ)
    (prevHeights : List ℤ) (block : CBlockIndex) : Except Fault ((ℤ × ℤ) × List ℤ) :=
  if prevHeights.length ≠ tx.vin.length then .error .assertion
  else if enforcesBip68 tx flags then do
    let lockPair ← sequenceLocksLoop m block (tx.vin.zip prevHeights) (-1, -1)
    .ok (lockPair, relevantHeights tx.vin prevHeights)
  else .ok ((-1, -1), prevHeights)

def evaluateSequenceLocks (m : BlockMap) (block : CBlockIndex) (lockPair : ℤ × ℤ) :
    Except Fault Bool :=
  match m.pprev block with
  | none => .error .assertion
  | some pprev =>
    let nBlockTime := getMedianTimePast m pprev
    .ok (!(decide (lockPair.1 ≥ block.nHeight) || decide (lockPair.2 ≥ nBlockTime)))

def sequenceLocks (m : BlockMap) (tx : CTransaction) (flags : ℕ) (prevHeights : List ℤ)
    (block : CBlockIndex) : Except Fault Bool := do
  let (lockPair, _) ← calculateSequenceLocks m tx flags prevHeights block
  evaluateSequenceLocks m block lockPair

/-- The block on the stack that stands for the next one: `pprev` and `nHeight` are set. -/
def nextBlock (tip : CBlockIndex) : CBlockIndex where
  phashBlock := 0#256
  pprev := some tip.phashBlock
  nHeight := tip.nHeight + 1
  nVersion := 0
  hashMerkleRoot := 0#256
  nTime := 0
  nBits := 0
  nNonce := 0

/-! ## Lock points -/

def MEMPOOL_HEIGHT : BitVec 31 := 0x7FFFFFFF#31

/-- The height `CalculatePrevHeights` takes for an input. -/
def prevHeight (tip : CBlockIndex) (coin : Coin) : ℤ :=
  if coin.nHeight = MEMPOOL_HEIGHT then tip.nHeight + 1 else coin.nHeight.toNat

end BitMinti.Model
