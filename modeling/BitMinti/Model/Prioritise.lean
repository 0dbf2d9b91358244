import BitMinti.Model.Transaction

/-!
# Prioritised transactions

A delta is recorded for a transaction whether or not it is in the mempool.  An entry of the mempool
has its base fee and a modified fee, which the transaction graph has too.  Sums of fees and deltas
are saturated at the limits of `int64_t`.

SOURCE: src/src/txmempool.cpp:613-648, 988-1010, src/src/kernel/mempool_entry.h:126-130,
src/src/util/overflow.h:33-50
-/

set_option autoImplicit false

namespace BitMinti.Model

def INT64_MAX : ℤ := 9223372036854775807

def INT64_MIN : ℤ := -9223372036854775808

def saturatingAdd (i j : ℤ) : ℤ :=
  if i > 0 ∧ j > INT64_MAX - i then INT64_MAX
  else if i < 0 ∧ j < INT64_MIN - i then INT64_MIN
  else i + j

/-- The fees of a `CTxMemPoolEntry`. -/
structure FeeEntry where
  nFee : CAmount
  m_modified_fee : CAmount
  deriving DecidableEq, Repr

def FeeEntry.updateModifiedFee (e : FeeEntry) (feeDiff : CAmount) : FeeEntry :=
  { e with m_modified_fee := saturatingAdd e.m_modified_fee feeDiff }

/-- `mapDeltas`, `mapTx`, and the fees in `m_txgraph`. -/
structure FeePool where
  mapDeltas : Uint256 → Option CAmount := fun _ => none
  mapTx : Uint256 → Option FeeEntry := fun _ => none
  graphFee : Uint256 → Option CAmount := fun _ => none

namespace FeePool

/-- Writing an entry and, with `SetTransactionFee`, its fee in the graph. -/
def setEntry (s : FeePool) (hash : Uint256) (e : FeeEntry) : FeePool :=
  { s with
    mapTx := fun h => if h = hash then some e else s.mapTx h
    graphFee := fun h => if h = hash then some e.m_modified_fee else s.graphFee h }

/-- The delta that `ApplyDelta` adds to nothing. -/
def applyDelta (s : FeePool) (hash : Uint256) : CAmount := (s.mapDeltas hash).getD 0

def prioritiseTransaction (s : FeePool) (hash : Uint256) (nFeeDelta : CAmount) : FeePool :=
  let delta := saturatingAdd (s.applyDelta hash) nFeeDelta
  let s := match s.mapTx hash with
    | none => s
    | some e => s.setEntry hash (e.updateModifiedFee nFeeDelta)
  { s with mapDeltas := fun h =>
      if h = hash then if delta = 0 then none else some delta else s.mapDeltas h }

/-- `StageAddition` and `Apply` for a transaction that is not in the mempool. -/
def addTransaction (s : FeePool) (hash : Uint256) (fee : CAmount) : FeePool :=
  if (s.mapTx hash).isSome then s
  else
    let delta := s.applyDelta hash
    let e : FeeEntry := ⟨fee, fee⟩
    s.setEntry hash (if delta ≠ 0 then e.updateModifiedFee delta else e)

end FeePool

/-- A call that changes fees. -/
inductive FeeCall where
  | prioritise (hash : Uint256) (nFeeDelta : CAmount)
  | add (hash : Uint256) (fee : CAmount)

/-- The amount that a call is given. -/
def FeeCall.amount : FeeCall → CAmount
  | prioritise _ nFeeDelta => nFeeDelta
  | add _ fee => fee

def FeePool.call (s : FeePool) : FeeCall → FeePool
  | .prioritise hash nFeeDelta => s.prioritiseTransaction hash nFeeDelta
  | .add hash fee => s.addTransaction hash fee

/-- The state after calls on an empty mempool. -/
def FeePool.run (calls : List FeeCall) : FeePool := calls.foldl FeePool.call {}

end BitMinti.Model
