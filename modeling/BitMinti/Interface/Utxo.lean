import BitMinti.Model.ConnectBlock

/-!
# The UTXO set

The coins view as what it stands for: a finite map from outpoints to unspent coins, and the
block it belongs to.  A cache notices an unannounced overwrite only when it holds an entry for
the coin; `cached` says when it does, and nothing proved here depends on it.
-/

set_option autoImplicit false

namespace BitMinti.Interface

open Model Computation.AssocList

/-- The UTXO set at a block. -/
structure UtxoSet where
  coins : AList fun _ : COutPoint => Coin := ∅
  bestBlock : Uint256 := 0#256

namespace UtxoSet

/-- The coin at an outpoint. -/
def coin (u : UtxoSet) (outpoint : COutPoint) : Option Coin := u.coins.lookup outpoint

/-- The coins, put into circulation and not yet spent, add up to this. -/
def totalValue (u : UtxoSet) : CAmount := total (fun coin : Coin => coin.out.nValue) u.coins

/-- A coin put into the set. -/
def insert (u : UtxoSet) (outpoint : COutPoint) (coin : Coin) : UtxoSet :=
  { u with coins := u.coins.insert outpoint coin }

/-- A coin taken out of the set. -/
def erase (u : UtxoSet) (outpoint : COutPoint) : UtxoSet :=
  { u with coins := u.coins.erase outpoint }

/-- `AddCoin` on the set. -/
def addCoin (cached : UtxoSet → COutPoint → Bool) (outpoint : COutPoint) (coin : Coin)
    (possible_overwrite : Bool) (u : UtxoSet) : Except CoinsError UtxoSet :=
  if coin.isSpent then .error .assertion
  else if coin.out.scriptPubKey.isUnspendable then .ok u
  else if !possible_overwrite && (u.coin outpoint).isSome && cached u outpoint then
    .error (.logicError
      "Attempted to overwrite an unspent coin (when possible_overwrite is false)")
  else .ok (u.insert outpoint coin)

/-- The set as a coins view. -/
def ops (cached : UtxoSet → COutPoint → Bool) : CoinsViewOps UtxoSet where
  haveCoin outpoint u := ((u.coin outpoint).isSome, u)
  accessCoin outpoint u := ((u.coin outpoint).getD coinEmpty, u)
  addCoin := addCoin cached
  spendCoin outpoint u := (u.coin outpoint, u.erase outpoint)
  getBestBlock u := (u.bestBlock, u)
  setBestBlock hash u := { u with bestBlock := hash }

end UtxoSet

/-- The UTXO sets reached from the empty one by connecting the blocks of a chain one after the
other, from the genesis block up to the index entry given. -/
inductive Connected (ctx : ConnectContext) (cached : UtxoSet → COutPoint → Bool) :
    CBlockIndex → UtxoSet → Prop
  | genesis {block : CBlock} {pindex entry : CBlockIndex} {undo : CBlockUndo} {u : UtxoSet}
      (hmem : ctx.m_block_index pindex.phashBlock = some pindex) (hroot : pindex.pprev = none)
      (hconnect : connectBlock (UtxoSet.ops cached) ctx block pindex false {} =
        .ok (.connected undo entry, u)) : Connected ctx cached pindex u
  | next {tip : CBlockIndex} {v u : UtxoSet} {block : CBlock} {pindex entry : CBlockIndex}
      {undo : CBlockUndo} (hv : Connected ctx cached tip v)
      (hmem : ctx.m_block_index pindex.phashBlock = some pindex)
      (hprev : pindex.pprev = some tip.phashBlock)
      (hconnect : connectBlock (UtxoSet.ops cached) ctx block pindex false v =
        .ok (.connected undo entry, u)) : Connected ctx cached pindex u

end BitMinti.Interface
