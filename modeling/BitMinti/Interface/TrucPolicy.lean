import BitMinti.Model.TrucPolicy

/-!
# Mempools under the rules for version 3 transactions

What may happen to a mempool while no block is disconnected, and what its version 3 transactions
look like then.

SOURCE: src/src/policy/truc_policy.h:38-75
-/

set_option autoImplicit false

namespace BitMinti.Interface

open Model

/-- A transaction can enter: it is new, and nothing in the pool spends from it.  Only a
reorganisation brings back a transaction that an entry spends from. -/
structure Enters (pool : List PolicyTx) (tx : PolicyTx) : Prop where
  new : ∀ e ∈ pool, e.txid ≠ tx.txid
  unspent : ∀ e ∈ pool, e.spends tx = false
  irreflexive : tx.spends tx = false

/-- The transactions of a package can enter one after the other.  So the package is free of
duplicates, and sorted: none spends from a later one. -/
def EntersAll : List PolicyTx → List PolicyTx → Prop
  | _, [] => True
  | pool, tx :: txs => Enters pool tx ∧ EntersAll (pool ++ [tx]) txs

/-- One change of the mempool.  A removal may take any entries, so that what is removed may be
closed under descendants, or be what a block confirms. -/
inductive TrucStep : List PolicyTx → List PolicyTx → Prop
  | single (pool : List PolicyTx) (tx : PolicyTx) (directConflicts : List Uint256)
      (enters : Enters (removeConflicts pool directConflicts) tx)
      (passes : singleTRUCChecks pool tx (getParents pool tx) directConflicts = none) :
      TrucStep pool (removeConflicts pool directConflicts ++ [tx])
  | package (pool txs : List PolicyTx) (enters : EntersAll pool txs)
      (passes : ∀ before tx after, txs = before ++ tx :: after →
        packageTRUCChecks pool txs before.length tx (getParents pool tx) = none) :
      TrucStep pool (pool ++ txs)
  | remove (pool kept : List PolicyTx) (sub : kept.Sublist pool) : TrucStep pool kept

/-- The mempools of the runs without reorganisations. -/
def TrucReachable (pool : List PolicyTx) : Prop := Relation.ReflTransGen TrucStep [] pool

/-- A parent and its child, both in the pool. -/
def ParentOf (pool : List PolicyTx) (parent child : PolicyTx) : Prop :=
  parent ∈ pool ∧ child ∈ pool ∧ child.spends parent = true

/-- **The topology of version 3 transactions.** -/
structure TrucTopology (pool : List PolicyTx) : Prop where
  versions : ∀ parent child, ParentOf pool parent child →
    (parent.version = TRUC_VERSION ↔ child.version = TRUC_VERSION)
  ancestors : ∀ tx ∈ pool, tx.version = TRUC_VERSION →
    {a | Relation.TransGen (ParentOf pool) a tx}.Subsingleton
  descendants : ∀ tx ∈ pool, tx.version = TRUC_VERSION →
    {d | Relation.TransGen (ParentOf pool) tx d}.Subsingleton
  size : ∀ tx ∈ pool, tx.version = TRUC_VERSION → tx.vsize ≤ TRUC_MAX_VSIZE
  childSize : ∀ parent tx, ParentOf pool parent tx → tx.version = TRUC_VERSION →
    tx.vsize ≤ TRUC_CHILD_MAX_VSIZE

end BitMinti.Interface
