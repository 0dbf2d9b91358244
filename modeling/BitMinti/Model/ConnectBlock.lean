import BitMinti.Model.TxVerify
import BitMinti.Model.HeaderValidation

/-!
# Connecting blocks

`CheckBlock`, `UpdateCoins` and `ConnectBlock`.  What they call outside the amounts and the coins
(the merkle root, signature operations, sequence locks, scripts, the undo files) is a parameter,
collected in `ConnectContext`; so is the hash of a transaction.  `fChecked` and
`m_checked_merkle_root`, which remember that a check has passed, are left out, and so is the
signature of signet blocks.

SOURCE: src/src/validation.cpp:2326-2339, 2501-2612, 2661-3100, 4565-4643, 7327-7336,
src/src/coins.cpp:118-128, 355-364
-/

set_option autoImplicit false

namespace BitMinti.Model

structure CBlock extends CBlockHeader where
  vtx : List CTransaction
  deriving DecidableEq, Repr

structure CTxUndo where
  vprevout : List Coin := []
  deriving DecidableEq, Repr

structure CBlockUndo where
  vtxundo : List CTxUndo := []
  deriving DecidableEq, Repr

def LOCKTIME_VERIFY_SEQUENCE : ℕ := 1

def MAX_BLOCK_SIGOPS_COST : ℤ := 80000

/-- What block validation reads besides the block and the coins.  `checkInputScripts` is the
verdict on the scripts of a transaction; with `hasThreads` it is only asked for after the last
transaction. -/
structure ConnectContext where
  getHash : CBlockHeader → Uint256
  getTxHash : CTransaction → Uint256
  params : ConsensusParams
  m_block_index : BlockMap
  checkMerkleRoot : CBlock → Except Invalid Unit
  getLegacySigOpCount : CTransaction → ℕ
  getTransactionSigOpCost : CTransaction → List Coin → CBlockIndex → ℤ
  sequenceLocks : CTransaction → ℕ → List (BitVec 31) → CBlockIndex → Bool
  fScriptChecks : CBlockIndex → Bool
  hasThreads : Bool
  checkInputScripts : CTransaction → List Coin → CBlockIndex → Except TxInvalid Unit
  completeScripts : CBlock → CBlockIndex → Except Invalid Unit
  writeBlockUndo : CBlockUndo → CBlockIndex → Except String Unit

/-! ## `CheckBlock` -/

/-- `GetSerializeSize(TX_NO_WITNESS(block))`. -/
def CBlock.serializeSize (block : CBlock) : ℕ :=
  80 + getSizeOfCompactSize block.vtx.length + (block.vtx.map CTransaction.serializeSize).sum

/-- The loop of `CheckBlock` over the transactions. -/
def checkTransactions (ctx : ConnectContext) :
    List CTransaction → Except ValidationFault (Except Invalid Unit)
  | [] => .ok (.ok ())
  | tx :: rest => do
      match ← checkTransaction tx with
      | .error i =>
        .ok (.error ⟨.consensus, i.reject_reason, "Transaction check failed (tx hash " ++
          (ctx.getTxHash tx).toString ++ ") " ++ i.debug_message⟩)
      | .ok () => checkTransactions ctx rest

def checkBlock (ctx : ConnectContext) (block : CBlock) (fCheckMerkleRoot : Bool) :
    Except ValidationFault (Except Invalid Unit) :=
  match checkBlockHeader block.toCBlockHeader,
      (if fCheckMerkleRoot then ctx.checkMerkleRoot block else .ok ()) with
  | .error i, _ => .ok (.error i)
  | .ok (), .error i => .ok (.error i)
  | .ok (), .ok () =>
    if block.vtx.isEmpty ∨ block.vtx.length * WITNESS_SCALE_FACTOR > MAX_BLOCK_WEIGHT ∨
        block.serializeSize * WITNESS_SCALE_FACTOR > MAX_BLOCK_WEIGHT then
      .ok (.error ⟨.consensus, "bad-blk-length", "size limits failed"⟩)
    else if !(block.vtx.head?.any (·.isCoinBase)) then
      .ok (.error ⟨.consensus, "bad-cb-missing", "first tx is not coinbase"⟩)
    else if block.vtx.tail.any (·.isCoinBase) then
      .ok (.error ⟨.consensus, "bad-cb-multiple", "more than one coinbase"⟩)
    else do
      match ← checkTransactions ctx block.vtx with
      | .error i => .ok (.error i)
      | .ok () =>
        let nSigOps := (block.vtx.map ctx.getLegacySigOpCount).sum
        if (nSigOps * WITNESS_SCALE_FACTOR : ℤ) > MAX_BLOCK_SIGOPS_COST then
          .ok (.error ⟨.consensus, "bad-blk-sigops", "out-of-bounds SigOpCount"⟩)
        else .ok (.ok ())

/-! ## `UpdateCoins` -/

section Views

variable {V : Type} (ops : CoinsViewOps V) (ctx : ConnectContext)

/-- The loop of `AddCoins` from output `i` on, with `check_for_overwrite` off. -/
def addCoinsLoop (txid : Uint256) (nHeight : ℕ) (fCoinbase : Bool) :
    ℕ → List CTxOut → ViewM V Unit
  | _, [] => pure ()
  | i, txout :: rest => do
      ViewM.addCoin ops ⟨txid, BitVec.ofNat 32 i⟩
        { out := txout, fCoinBase := fCoinbase, nHeight := BitVec.ofNat 31 nHeight } fCoinbase
      addCoinsLoop txid nHeight fCoinbase (i + 1) rest

def addCoins (tx : CTransaction) (nHeight : ℕ) : ViewM V Unit :=
  addCoinsLoop ops (ctx.getTxHash tx) nHeight tx.isCoinBase 0 tx.vout

/-- The loop of `UpdateCoins` over the inputs. -/
def spendInputs : List CTxIn → ViewM V (List Coin)
  | [] => pure []
  | txin :: rest => do
      match ← ViewM.spendCoin ops txin.prevout with
      | none => throw .assertion
      | some coin => do
          let coins ← spendInputs rest
          pure (coin :: coins)

/-- The inputs marked spent by `UpdateCoins`. -/
def spendTxInputs (tx : CTransaction) : ViewM V (List Coin) :=
  if tx.isCoinBase then pure [] else spendInputs ops tx.vin

def updateCoins (tx : CTransaction) (nHeight : ℕ) : ViewM V CTxUndo := do
  let vprevout ← spendTxInputs ops tx
  addCoins ops ctx tx nHeight
  pure ⟨vprevout⟩

/-! ## `ConnectBlock` -/

/-- The variables of `ConnectBlock` that its loop changes.  `state` is set once the block is
known to be invalid. -/
structure ConnectState where
  state : Option Invalid := none
  nFees : CAmount := 0
  nSigOpsCost : ℤ := 0
  vtxundo : List CTxUndo := []

/-- `state.Invalid`. -/
def ConnectState.invalid (st : ConnectState) (i : Invalid) : ConnectState :=
  { st with state := some i }

/-- `view.AccessCoin` for some inputs. -/
def accessInputs : List CTxIn → ViewM V (List Coin)
  | [] => pure []
  | txin :: rest => do
      let coin ← ViewM.accessCoin ops txin.prevout
      let coins ← accessInputs rest
      pure (coin :: coins)

/-- The coins `GetTransactionSigOpCost` and `CheckInputScripts` read. -/
def accessTxInputs (tx : CTransaction) : ViewM V (List Coin) :=
  if tx.isCoinBase then pure [] else accessInputs ops tx.vin

/-- `DeploymentActiveAt` for a buried deployment. -/
def deploymentActiveAt (params : ConsensusParams) (pindex : CBlockIndex) (dep : BuriedDeployment) :
    Bool :=
  decide ((pindex.nHeight : ℤ) ≥ params.deploymentHeight dep)

/-- `nLockTimeFlags`. -/
def lockTimeFlags (pindex : CBlockIndex) : ℕ :=
  if deploymentActiveAt ctx.params pindex .csv then LOCKTIME_VERIFY_SEQUENCE else 0

/-- The part of `ConnectBlock`'s loop that only other transactions than the coinbase go
through: the fee and the sequence locks. -/
def connectInputs (pindex : CBlockIndex) (tx : CTransaction) (st : ConnectState) :
    ViewM V ConnectState := do
  match ← checkTxInputs ops tx pindex.nHeight with
  | .error i =>
    pure (st.invalid ⟨.consensus, i.reject_reason,
      i.debug_message ++ " in transaction " ++ (ctx.getTxHash tx).toString⟩)
  | .ok txfee => do
      let nFees ← ViewM.ofExcept (toAmount (st.nFees + txfee))
      let st := { st with nFees := nFees }
      if !moneyRange nFees then
        pure (st.invalid ⟨.consensus, "bad-txns-accumulated-fee-outofrange",
          "accumulated fee in the block out of range"⟩)
      else do
        let coins ← accessInputs ops tx.vin
        if !ctx.sequenceLocks tx (lockTimeFlags ctx pindex) (coins.map (·.nHeight)) pindex then
          pure (st.invalid ⟨.consensus, "bad-txns-nonfinal",
            "contains a non-BIP68-final transaction " ++ (ctx.getTxHash tx).toString⟩)
        else pure st

/-- The same for any transaction. -/
def connectTxInputs (pindex : CBlockIndex) (tx : CTransaction) (st : ConnectState) :
    ViewM V ConnectState :=
  if tx.isCoinBase then pure st else connectInputs ops ctx pindex tx st

/-- The scripts of a transaction, where `ConnectBlock` runs them in its loop. -/
def inlineScripts (pindex : CBlockIndex) (tx : CTransaction) (coins : List Coin) :
    Except TxInvalid Unit :=
  if !tx.isCoinBase && ctx.fScriptChecks pindex && !ctx.hasThreads then
    ctx.checkInputScripts tx coins pindex
  else .ok ()

/-- One pass of `ConnectBlock`'s loop, for the transaction with index `i`. -/
def connectTx (pindex : CBlockIndex) (i : ℕ) (tx : CTransaction) (st : ConnectState) :
    ViewM V ConnectState := do
  let st ← connectTxInputs ops ctx pindex tx st
  if st.state.isSome then pure st
  else do
    let coins ← accessTxInputs ops tx
    let st := { st with
      nSigOpsCost := st.nSigOpsCost + ctx.getTransactionSigOpCost tx coins pindex }
    if st.nSigOpsCost > MAX_BLOCK_SIGOPS_COST then
      pure (st.invalid ⟨.consensus, "bad-blk-sigops", "too many sigops"⟩)
    else
      match inlineScripts ctx pindex tx coins with
      | .error e => pure (st.invalid ⟨.consensus, e.reject_reason, e.debug_message⟩)
      | .ok () => do
          let txundo ← updateCoins ops ctx tx pindex.nHeight
          pure (if i > 0 then { st with vtxundo := st.vtxundo ++ [txundo] } else st)

/-- The loop of `ConnectBlock`, from index `i` on. -/
def connectTxs (pindex : CBlockIndex) : ℕ → List CTransaction → ConnectState → ViewM V ConnectState
  | _, [], st => pure st
  | i, tx :: rest, st =>
    if st.state.isSome then pure st
    else do
      let st ← connectTx ops ctx pindex i tx st
      connectTxs pindex (i + 1) rest st

def isBIP30Repeat (block_index : CBlockIndex) : Bool :=
  (block_index.nHeight == 91842 && block_index.getBlockHash ==
      0x00000000000a4d0a398161ffc163c503763b1f4360639393e0e4c8e300e0caec#256) ||
    (block_index.nHeight == 91880 && block_index.getBlockHash ==
      0x00000000000743f190a18c5577a3c2d2a1f610ae9601ac046a38084ccb7cd721#256)

def BIP34_IMPLIES_BIP30_LIMIT : ℕ := 1983702

/-- Whether `ConnectBlock` looks for outputs that would overwrite unspent ones, in a block on
top of `pprev`. -/
def enforcesBIP30 (pindex pprev : CBlockIndex) : Bool :=
  let pindexBIP34height := getAncestor ctx.m_block_index pprev ctx.params.BIP34Height
  (!isBIP30Repeat pindex &&
      pindexBIP34height.all fun p => p.getBlockHash != ctx.params.BIP34Hash) ||
    decide (pindex.nHeight ≥ BIP34_IMPLIES_BIP30_LIMIT)

/-- The outpoints of the outputs of a transaction. -/
def outPoints (tx : CTransaction) : List COutPoint :=
  (List.range tx.vout.length).map fun o => ⟨ctx.getTxHash tx, BitVec.ofNat 32 o⟩

/-- The BIP30 check of `ConnectBlock` over some outpoints: it goes on after a hit. -/
def checkBIP30 : List COutPoint → ConnectState → ViewM V ConnectState
  | [], st => pure st
  | out :: rest, st => do
      if ← ViewM.haveCoin ops out then
        checkBIP30 rest (st.invalid ⟨.consensus, "bad-txns-BIP30", "tried to overwrite transaction"⟩)
      else checkBIP30 rest st

/-- The state of `ConnectBlock` before its loop. -/
def startConnect (block : CBlock) (pindex pprev : CBlockIndex) : ViewM V ConnectState :=
  if enforcesBIP30 ctx pindex pprev then checkBIP30 ops (block.vtx.flatMap (outPoints ctx)) {}
  else pure {}

/-- How `ConnectBlock` ends: with the undo data and the index entry it leaves, or with the
reason why it returned false. -/
inductive ConnectResult where
  | connected (blockundo : CBlockUndo) (pindex : CBlockIndex)
  | invalid (i : Invalid)
  | error (message : String)

/-- The check of what the coinbase pays out. -/
def ConnectState.checkReward (st : ConnectState) (coinbase blockReward : CAmount) : ConnectState :=
  if coinbase > blockReward ∧ st.state = none then
    st.invalid ⟨.consensus, "bad-cb-amount", "coinbase pays too much (actual=" ++
      toString coinbase ++ " vs limit=" ++ toString blockReward ++ ")"⟩
  else st

/-- `control->Complete()`, where other threads have checked the scripts. -/
def ConnectState.completeScripts (st : ConnectState) (ctx : ConnectContext) (block : CBlock)
    (pindex : CBlockIndex) : ConnectState :=
  if ctx.hasThreads && ctx.fScriptChecks pindex && st.state.isNone then
    match ctx.completeScripts block pindex with
    | .error i => st.invalid i
    | .ok () => st
  else st

/-- `ConnectBlock` after its loop: the reward of the coinbase, the scripts that other threads
have checked, the undo data and the best block. -/
def finishConnect (block : CBlock) (pindex : CBlockIndex) (fJustCheck : Bool) (st : ConnectState) :
    ViewM V ConnectResult := do
  let blockReward ← ViewM.ofExcept
    (toAmount (st.nFees + getBlockSubsidy pindex.nHeight ctx.params))
  let coinbase ← ViewM.ofExcept (block.vtx.head?.elim (.error .assertion) (·.getValueOut))
  let st := (st.checkReward coinbase blockReward).completeScripts ctx block pindex
  match st.state with
  | some i => pure (.invalid i)
  | none =>
    if fJustCheck then pure (.connected ⟨st.vtxundo⟩ pindex)
    else
      match ctx.writeBlockUndo ⟨st.vtxundo⟩ pindex with
      | .error message => pure (.error message)
      | .ok () => do
          ViewM.setBestBlock ops pindex.getBlockHash
          pure (.connected ⟨st.vtxundo⟩
            (if pindex.isValid .scripts then pindex else pindex.raiseValidity .scripts))

/-- `ConnectBlock` for a block that is not the genesis block. -/
def connectTransactions (block : CBlock) (pindex : CBlockIndex) (fJustCheck : Bool) :
    ViewM V ConnectResult := do
  match ctx.m_block_index.pprev pindex with
  | none => throw .assertion
  | some pprev => do
      let st ← startConnect ops ctx block pindex pprev
      let st ← connectTxs ops ctx pindex 0 block.vtx st
      finishConnect ops ctx block pindex fJustCheck st

def connectBlock (block : CBlock) (pindex : CBlockIndex) (fJustCheck : Bool) :
    ViewM V ConnectResult := do
  let block_hash := ctx.getHash block.toCBlockHeader
  ViewM.assert (pindex.phashBlock == block_hash)
  match ← ViewM.ofExcept (checkBlock ctx block (!fJustCheck)) with
  | .error i =>
    if i.result = .mutated then
      pure (.error "Corrupt block found indicating potential hardware failure.")
    else pure (.invalid i)
  | .ok () => do
      let hashPrevBlock := (ctx.m_block_index.pprev pindex).elim 0#256 (·.getBlockHash)
      let best ← ViewM.getBestBlock ops
      ViewM.assert (hashPrevBlock == best)
      if block_hash = ctx.params.hashGenesisBlock then
        if fJustCheck then pure (.connected {} pindex)
        else do
          ViewM.setBestBlock ops pindex.getBlockHash
          pure (.connected {} pindex)
      else connectTransactions ops ctx block pindex fJustCheck

end Views

end BitMinti.Model
