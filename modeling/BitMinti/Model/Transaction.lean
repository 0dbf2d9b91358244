import BitMinti.Model.BlockIndex

/-!
# Transactions and coins

SOURCE: src/src/primitives/transaction.h, src/src/script/script.h:563-571, src/src/coins.h:30-90
-/

set_option autoImplicit false

namespace BitMinti.Model

/-- `CAmount`, in the range of an `int64_t` wherever the code keeps it there. -/
abbrev CAmount : Type := ℤ

/-- `CScript`: its bytes. -/
abbrev CScript : Type := List (BitVec 8)

def OP_RETURN : BitVec 8 := 0x6a#8

def MAX_SCRIPT_SIZE : ℕ := 10000

def CScript.isUnspendable (script : CScript) : Bool :=
  script.head? == some OP_RETURN || decide (MAX_SCRIPT_SIZE < script.length)

structure COutPoint where
  hash : Uint256
  n : BitVec 32
  deriving DecidableEq, Repr

def COutPoint.isNull (outpoint : COutPoint) : Bool :=
  outpoint.hash.isNull && outpoint.n == BitVec.allOnes 32

structure CTxOut where
  nValue : CAmount := -1
  scriptPubKey : CScript := []
  deriving DecidableEq, Repr

def CTxOut.isNull (out : CTxOut) : Bool := out.nValue == -1

structure CTxIn where
  prevout : COutPoint
  scriptSig : CScript := []
  nSequence : BitVec 32 := BitVec.allOnes 32
  scriptWitness : List (List (BitVec 8)) := []
  deriving DecidableEq, Repr

structure CTransaction where
  vin : List CTxIn
  vout : List CTxOut
  version : BitVec 32
  nLockTime : BitVec 32
  deriving DecidableEq, Repr

def CTransaction.isCoinBase (tx : CTransaction) : Bool :=
  match tx.vin with
  | [txin] => txin.prevout.isNull
  | _ => false

/-! ## Coins -/

structure Coin where
  out : CTxOut := {}
  fCoinBase : Bool := false
  nHeight : BitVec 31 := 0#31
  deriving DecidableEq, Repr

/-- `Coin()`, and what `Clear` leaves. -/
def coinEmpty : Coin := {}

def Coin.isSpent (coin : Coin) : Bool := coin.out.isNull

/-- What a coin shows: nothing once it is spent. -/
def Coin.unspent (coin : Coin) : Option Coin := if coin.isSpent then none else some coin

@[simp] theorem isSpent_coinEmpty : coinEmpty.isSpent = true := rfl

theorem Coin.unspent_of_not_spent {coin : Coin} (h : coin.isSpent = false) :
    coin.unspent = some coin := by
  simp [unspent, h]

theorem Coin.unspent_of_spent {coin : Coin} (h : coin.isSpent = true) : coin.unspent = none := by
  simp [unspent, h]

end BitMinti.Model
