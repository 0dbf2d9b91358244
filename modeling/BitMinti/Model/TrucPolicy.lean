import BitMinti.Computation.Spread
import BitMinti.Model.HeaderValidation

/-!
# The rules for version 3 transactions

A transaction of version 3 may have one unconfirmed parent or one unconfirmed child, and only of
version 3.  `SingleTRUCChecks` looks at a transaction and the mempool, `PackageTRUCChecks` also at
the package in which the transaction arrives.  The mempool is the list of its entries.  The
package's own transactions are told apart by their places, as the source tells them apart by
their addresses.

SOURCE: src/src/policy/truc_policy.cpp:17-262, src/src/policy/truc_policy.h:18-34,
src/src/txmempool.cpp:71-86, 296-308
-/

set_option autoImplicit false

namespace BitMinti.Model

open BitMinti.Computation (reached)

def TRUC_VERSION : ℕ := 3

def TRUC_DESCENDANT_LIMIT : ℕ := 2

def TRUC_ANCESTOR_LIMIT : ℕ := 2

def TRUC_MAX_VSIZE : ℤ := 10000

def TRUC_CHILD_MAX_VSIZE : ℤ := 1000

/-- A transaction as the policy sees it: its hashes, version and sigop-adjusted virtual size, and
the transactions whose outputs it spends. -/
structure PolicyTx where
  txid : Uint256
  wtxid : Uint256
  version : ℕ
  vsize : ℤ
  prevouts : List Uint256
  deriving DecidableEq

def PolicyTx.spends (child parent : PolicyTx) : Bool := decide (parent.txid ∈ child.prevouts)

/-- The hashes of a transaction as the messages give them. -/
def PolicyTx.name (tx : PolicyTx) : String :=
  tx.txid.toString ++ " (wtxid=" ++ tx.wtxid.toString ++ ")"

/-! ## The mempool's graph -/

def getParents (pool : List PolicyTx) (tx : PolicyTx) : List PolicyTx :=
  pool.filter fun e => tx.spends e

/-- `TxGraph::GetAncestors`, the transaction included. -/
def getAncestors (pool : List PolicyTx) (tx : PolicyTx) : List PolicyTx :=
  reached (fun child parent => child.spends parent) pool [tx]

/-- `TxGraph::GetDescendants` of a group of transactions, which are included. -/
def getDescendants (pool txs : List PolicyTx) : List PolicyTx :=
  reached (fun parent child => child.spends parent) pool txs

def getAncestorCount (pool : List PolicyTx) (tx : PolicyTx) : ℕ := (getAncestors pool tx).length

def getDescendantCount (pool : List PolicyTx) (tx : PolicyTx) : ℕ :=
  (getDescendants pool [tx]).length

/-! ## The messages -/

def tooBig (kind : String) (tx : PolicyTx) (limit : ℤ) : String :=
  kind ++ tx.name ++ " is too big: " ++ toString tx.vsize ++ " > " ++ toString limit ++
    " virtual bytes"

def tooManyAncestors (tx : PolicyTx) : String :=
  "tx " ++ tx.name ++ " would have too many ancestors"

def exceedsDescendants (tx : PolicyTx) : String :=
  "tx " ++ tx.name ++ " would exceed descendant count limit"

def trucSpendsOther (tx parent : PolicyTx) : String :=
  "version=3 tx " ++ tx.name ++ " cannot spend from non-version=3 tx " ++ parent.name

def otherSpendsTruc (tx parent : PolicyTx) : String :=
  "non-version=3 tx " ++ tx.name ++ " cannot spend from version=3 tx " ++ parent.name

/-! ## `PackageTRUCChecks` -/

/-- `FindInPackageParents` for the transaction at place `i`: the parents themselves, where the
source has their indices. -/
def findInPackageParents (package : List PolicyTx) (i : ℕ) (ptx : PolicyTx) : List PolicyTx :=
  (package.take i).filter fun tx => ptx.spends tx

/-- The loop over the package's other transactions: none may have the same parent, and none may
be a child of `ptx`. -/
def checkPackageRelatives (others : List PolicyTx) (ptx parent : PolicyTx) : Option String :=
  others.findSome? fun other => other.prevouts.findSome? fun hash =>
    if hash = parent.txid then some (exceedsDescendants parent)
    else if hash = ptx.txid then some (tooManyAncestors other)
    else none

/-- `PackageTRUCChecks` for the transaction `ptx` at place `i` of the package.
SOURCE: src/src/policy/truc_policy.cpp:58-170 -/
def packageTRUCChecks (pool : List PolicyTx) (package : List PolicyTx) (i : ℕ) (ptx : PolicyTx)
    (mempoolParents : List PolicyTx) : Option String :=
  let inPackageParents := findInPackageParents package i ptx
  if ptx.version = TRUC_VERSION then
    if ptx.vsize > TRUC_MAX_VSIZE then some (tooBig "version=3 tx " ptx TRUC_MAX_VSIZE)
    else if mempoolParents.length + inPackageParents.length + 1 > TRUC_ANCESTOR_LIMIT then
      some (tooManyAncestors ptx)
    else
      match mempoolParents, inPackageParents with
      | [], [] => none
      | parent :: _, _ =>
        if getAncestorCount pool parent + inPackageParents.length + 1 > TRUC_ANCESTOR_LIMIT then
          some (tooManyAncestors ptx)
        else if ptx.vsize > TRUC_CHILD_MAX_VSIZE then
          some (tooBig "version=3 child tx " ptx TRUC_CHILD_MAX_VSIZE)
        else if parent.version ≠ TRUC_VERSION then some (trucSpendsOther ptx parent)
        else
          match checkPackageRelatives (package.eraseIdx i) ptx parent with
          | some message => some message
          | none =>
            if getDescendantCount pool parent > 1 then some (exceedsDescendants parent) else none
      | [], parent :: _ =>
        if ptx.vsize > TRUC_CHILD_MAX_VSIZE then
          some (tooBig "version=3 child tx " ptx TRUC_CHILD_MAX_VSIZE)
        else if parent.version ≠ TRUC_VERSION then some (trucSpendsOther ptx parent)
        else checkPackageRelatives (package.eraseIdx i) ptx parent
  else
    (mempoolParents ++ inPackageParents).findSome? fun parent =>
      if parent.version = TRUC_VERSION then some (otherSpendsTruc ptx parent) else none

/-! ## `SingleTRUCChecks` -/

/-- The first parent of the wrong version. -/
def checkInheritance (ptx : PolicyTx) (mempoolParents : List PolicyTx) : Option String :=
  mempoolParents.findSome? fun entry =>
    if ptx.version ≠ TRUC_VERSION ∧ entry.version = TRUC_VERSION then
      some (otherSpendsTruc ptx entry)
    else if ptx.version = TRUC_VERSION ∧ entry.version ≠ TRUC_VERSION then
      some (trucSpendsOther ptx entry)
    else none

/-- `SingleTRUCChecks`.  An error may come with a sibling whose eviction can be considered.
SOURCE: src/src/policy/truc_policy.cpp:172-262 -/
def singleTRUCChecks (pool : List PolicyTx) (ptx : PolicyTx) (mempoolParents : List PolicyTx)
    (directConflicts : List Uint256) : Option (String × Option PolicyTx) :=
  match checkInheritance ptx mempoolParents with
  | some message => some (message, none)
  | none =>
    if ptx.version ≠ TRUC_VERSION then none
    else if ptx.vsize > TRUC_MAX_VSIZE then
      some (tooBig "version=3 tx " ptx TRUC_MAX_VSIZE, none)
    else if mempoolParents.length + 1 > TRUC_ANCESTOR_LIMIT then
      some (tooManyAncestors ptx, none)
    else
      match mempoolParents with
      | [] => none
      | parent :: _ =>
        if getAncestorCount pool parent + 1 > TRUC_ANCESTOR_LIMIT then
          some (tooManyAncestors ptx, none)
        else if ptx.vsize > TRUC_CHILD_MAX_VSIZE then
          some (tooBig "version=3 child tx " ptx TRUC_CHILD_MAX_VSIZE, none)
        else
          let descendants := (getDescendants pool [parent]).filter (· ≠ parent)
          let childWillBeReplaced := descendants.any fun child =>
            decide (child.txid ∈ directConflicts)
          if getDescendantCount pool parent + 1 > TRUC_DESCENDANT_LIMIT ∧
              ¬childWillBeReplaced = true then
            let considerSiblingEviction := getDescendantCount pool parent = 2 ∧
              (descendants.head?.map (getAncestorCount pool)) = some 2
            some (exceedsDescendants parent,
              if considerSiblingEviction then descendants.head? else none)
          else none

/-- The pool without the direct conflicts and their descendants. -/
def removeConflicts (pool : List PolicyTx) (directConflicts : List Uint256) : List PolicyTx :=
  let conflicts := pool.filter fun e => decide (e.txid ∈ directConflicts)
  pool.filter fun e => decide (e ∉ getDescendants pool conflicts)

end BitMinti.Model
