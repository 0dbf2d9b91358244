import BitMinti.Model.Coins
import BitMinti.Model.ConsensusParams

/-!
# Checking transactions

`CheckTransaction`, `Consensus::CheckTxInputs` and the block subsidy.  Amounts are integers,
and every addition or subtraction of amounts that the code makes on an `int64_t` is a checked
one here: an overflow is a fault of the model.

Code that works on a coins view is written against `CoinsViewOps`, the calls it makes on a
`CCoinsViewCache`, so that it runs on a stack of caches as well as on a plain map.

SOURCE: src/src/consensus/amount.h, src/src/consensus/tx_check.cpp:11-60,
src/src/consensus/tx_verify.cpp:164-214, src/src/primitives/transaction.cpp:98-108,
src/src/validation.cpp:2141-2152, src/src/util/moneystr.cpp:19-42
-/

set_option autoImplicit false

namespace BitMinti.Model

/-! ## Amounts -/

def COIN : CAmount := 100000000

def MAX_MONEY : CAmount := 21000000 * COIN

def moneyRange (nValue : CAmount) : Bool := decide (0 ≤ nValue) && decide (nValue ≤ MAX_MONEY)

/-- How validation can end without a verdict: an exception, a failed assertion, or an addition
of amounts that an `int64_t` does not hold. -/
inductive ValidationFault where
  | coins (e : CoinsError)
  | runtimeError (message : String)
  | assertion
  | overflow
  deriving DecidableEq, Repr

/-- An amount as an `int64_t`. -/
def toAmount (n : ℤ) : Except ValidationFault CAmount :=
  if -2 ^ 63 ≤ n ∧ n < 2 ^ 63 then .ok n else .error .overflow

def getBlockSubsidy (nHeight : ℕ) (params : ConsensusParams) : CAmount :=
  let halvings := nHeight / params.nSubsidyHalvingInterval
  if halvings ≥ 64 then 0 else (50 * COIN) >>> halvings

/-- The sum of `GetValueOut`. -/
def valueOutLoop : List CTxOut → CAmount → Except ValidationFault CAmount
  | [], nValueOut => .ok nValueOut
  | tx_out :: rest, nValueOut =>
    if !moneyRange tx_out.nValue then
      .error (.runtimeError "GetValueOut: value out of range")
    else do
      let sum ← toAmount (nValueOut + tx_out.nValue)
      if !moneyRange sum then .error (.runtimeError "GetValueOut: value out of range")
      else valueOutLoop rest sum

def CTransaction.getValueOut (tx : CTransaction) : Except ValidationFault CAmount := do
  let nValueOut ← valueOutLoop tx.vout 0
  if moneyRange nValueOut then .ok nValueOut else .error .assertion

/-- The last digits of `FormatMoney`: zeros at the end go, but two digits stay. -/
def trimFraction (digits : List Char) : List Char :=
  digits.take 2 ++ ((digits.drop 2).reverse.dropWhile (· == '0')).reverse

def formatMoney (n : CAmount) : String :=
  let quotient := n.natAbs / COIN.natAbs
  let remainder := (Nat.toDigits 10 (n.natAbs % COIN.natAbs)).leftpad 8 '0'
  let str := toString quotient ++ "." ++ String.ofList (trimFraction remainder)
  if n < 0 then "-" ++ str else str

/-! ## `CheckTransaction` -/

/-- The values of `TxValidationResult` that block validation meets. -/
inductive TxValidationResult where
  | consensus
  | missingInputs
  | prematureSpend
  deriving DecidableEq, Repr

/-- What `state.Invalid` records about a transaction. -/
structure TxInvalid where
  result : TxValidationResult
  reject_reason : String
  debug_message : String := ""
  deriving DecidableEq, Repr

def WITNESS_SCALE_FACTOR : ℕ := 4

def MAX_BLOCK_WEIGHT : ℕ := 4000000

def getSizeOfCompactSize (nSize : ℕ) : ℕ :=
  if nSize < 253 then 1 else if nSize ≤ 0xffff then 3 else if nSize ≤ 0xffffffff then 5 else 9

/-- The serialized size of a script with its length. -/
def CScript.serializeSize (script : CScript) : ℕ := getSizeOfCompactSize script.length + script.length

/-- `GetSerializeSize(TX_NO_WITNESS(tx))`. -/
def CTransaction.serializeSize (tx : CTransaction) : ℕ :=
  4 + getSizeOfCompactSize tx.vin.length +
    (tx.vin.map fun txin => 36 + CScript.serializeSize txin.scriptSig + 4).sum +
    getSizeOfCompactSize tx.vout.length +
    (tx.vout.map fun txout => 8 + CScript.serializeSize txout.scriptPubKey).sum + 4

/-- The loop of `CheckTransaction` over the outputs. -/
def checkOutputs : List CTxOut → CAmount → Except ValidationFault (Except TxInvalid Unit)
  | [], _ => .ok (.ok ())
  | txout :: rest, nValueOut =>
    if txout.nValue < 0 then .ok (.error ⟨.consensus, "bad-txns-vout-negative", ""⟩)
    else if txout.nValue > MAX_MONEY then
      .ok (.error ⟨.consensus, "bad-txns-vout-toolarge", ""⟩)
    else do
      let nValueOut ← toAmount (nValueOut + txout.nValue)
      if !moneyRange nValueOut then
        .ok (.error ⟨.consensus, "bad-txns-txouttotal-toolarge", ""⟩)
      else checkOutputs rest nValueOut

/-- `CheckTransaction` after the outputs. -/
def checkInputs (tx : CTransaction) : Except TxInvalid Unit :=
  if ¬ (tx.vin.map (·.prevout)).Nodup then .error ⟨.consensus, "bad-txns-inputs-duplicate", ""⟩
  else if tx.isCoinBase then
    let size := (tx.vin.head?.elim [] (·.scriptSig)).length
    if size < 2 ∨ size > 100 then .error ⟨.consensus, "bad-cb-length", ""⟩ else .ok ()
  else if tx.vin.any (·.prevout.isNull) then .error ⟨.consensus, "bad-txns-prevout-null", ""⟩
  else .ok ()

def checkTransaction (tx : CTransaction) : Except ValidationFault (Except TxInvalid Unit) :=
  if tx.vin.isEmpty then .ok (.error ⟨.consensus, "bad-txns-vin-empty", ""⟩)
  else if tx.vout.isEmpty then .ok (.error ⟨.consensus, "bad-txns-vout-empty", ""⟩)
  else if tx.serializeSize * WITNESS_SCALE_FACTOR > MAX_BLOCK_WEIGHT then
    .ok (.error ⟨.consensus, "bad-txns-oversize", ""⟩)
  else do
    match ← checkOutputs tx.vout 0 with
    | .error i => .ok (.error i)
    | .ok () => .ok (checkInputs tx)

/-! ## Coins views -/

/-- The calls validation makes on a `CCoinsViewCache`. -/
structure CoinsViewOps (V : Type) where
  haveCoin : COutPoint → V → Bool × V
  accessCoin : COutPoint → V → Coin × V
  addCoin : COutPoint → Coin → Bool → V → Except CoinsError V
  spendCoin : COutPoint → V → Option Coin × V
  getBestBlock : V → Uint256 × V
  setBestBlock : Uint256 → V → V

/-- Computations on a coins view. -/
abbrev ViewM (V : Type) : Type → Type := StateT V (Except ValidationFault)

namespace ViewM

variable {V α : Type} (ops : CoinsViewOps V)

/-- `view.HaveCoin`. -/
def haveCoin (outpoint : COutPoint) : ViewM V Bool := fun v => .ok (ops.haveCoin outpoint v)

/-- `view.AccessCoin`. -/
def accessCoin (outpoint : COutPoint) : ViewM V Coin := fun v => .ok (ops.accessCoin outpoint v)

/-- `view.AddCoin`. -/
def addCoin (outpoint : COutPoint) (coin : Coin) (possible_overwrite : Bool) : ViewM V Unit :=
  fun v =>
    match ops.addCoin outpoint coin possible_overwrite v with
    | .ok v => .ok ((), v)
    | .error e => .error (.coins e)

/-- `view.SpendCoin`. -/
def spendCoin (outpoint : COutPoint) : ViewM V (Option Coin) :=
  fun v => .ok (ops.spendCoin outpoint v)

/-- `view.GetBestBlock`. -/
def getBestBlock : ViewM V Uint256 := fun v => .ok (ops.getBestBlock v)

/-- `view.SetBestBlock`. -/
def setBestBlock (hash : Uint256) : ViewM V Unit := fun v => .ok ((), ops.setBestBlock hash v)

/-- A computation that does not touch the view. -/
def ofExcept (x : Except ValidationFault α) : ViewM V α := fun v => x.map fun a => (a, v)

def assert (b : Bool) : ViewM V Unit := fun v => if b then .ok ((), v) else .error .assertion

end ViewM

section CheckTxInputs

variable {V : Type} (ops : CoinsViewOps V)

/-- The loop of `HaveInputs`. -/
def haveInputsLoop : List CTxIn → ViewM V Bool
  | [] => pure true
  | txin :: rest => do
      if ← ViewM.haveCoin ops txin.prevout then haveInputsLoop rest else pure false

def haveInputs (tx : CTransaction) : ViewM V Bool :=
  if tx.isCoinBase then pure true else haveInputsLoop ops tx.vin

def COINBASE_MATURITY : ℤ := 100

/-- The loop of `CheckTxInputs` over the inputs: the value they bring in. -/
def valueInLoop (nSpendHeight : ℕ) : List CTxIn → CAmount → ViewM V (Except TxInvalid CAmount)
  | [], nValueIn => pure (.ok nValueIn)
  | txin :: rest, nValueIn => do
      let coin ← ViewM.accessCoin ops txin.prevout
      ViewM.assert (!coin.isSpent)
      let depth : ℤ := nSpendHeight - coin.nHeight.toNat
      if coin.fCoinBase && decide (depth < COINBASE_MATURITY) then
        pure (.error ⟨.prematureSpend, "bad-txns-premature-spend-of-coinbase",
          "tried to spend coinbase at depth " ++ toString depth⟩)
      else do
        let nValueIn ← ViewM.ofExcept (toAmount (nValueIn + coin.out.nValue))
        if !moneyRange coin.out.nValue || !moneyRange nValueIn then
          pure (.error ⟨.consensus, "bad-txns-inputvalues-outofrange", ""⟩)
        else valueInLoop nSpendHeight rest nValueIn

/-- `Consensus::CheckTxInputs`: the fee, or why the transaction is invalid. -/
def checkTxInputs (tx : CTransaction) (nSpendHeight : ℕ) : ViewM V (Except TxInvalid CAmount) := do
  if ← haveInputs ops tx then
    match ← valueInLoop ops nSpendHeight tx.vin 0 with
    | .error i => pure (.error i)
    | .ok nValueIn => do
        let value_out ← ViewM.ofExcept tx.getValueOut
        if nValueIn < value_out then
          pure (.error ⟨.consensus, "bad-txns-in-belowout",
            "value in (" ++ formatMoney nValueIn ++ ") < value out (" ++ formatMoney value_out ++
              ")"⟩)
        else do
          let txfee_aux ← ViewM.ofExcept (toAmount (nValueIn - value_out))
          if !moneyRange txfee_aux then
            pure (.error ⟨.consensus, "bad-txns-fee-outofrange", ""⟩)
          else pure (.ok txfee_aux)
  else
    pure (.error ⟨.missingInputs, "bad-txns-inputs-missingorspent",
      "CheckTxInputs: inputs missing/spent"⟩)

end CheckTxInputs

end BitMinti.Model
