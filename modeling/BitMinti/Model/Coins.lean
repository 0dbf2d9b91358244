import BitMinti.Model.Transaction
import BitMinti.Computation.AssocList
import BitMinti.Computation.IntrusiveList
import Mathlib.Data.BitVec

/-!
# The coins caches

A stack of `CCoinsViewCache` layers over a base view that is a map.  Each layer keeps its
entries in an association list, the links of the list of flagged entries, and the 64-bit
count of the memory its coins use.

What a coin allocates depends on how its script got where it is (moved or copied, into which
vector), so every entry carries its own figure, and what a copy allocates is a parameter.
The links of an entry without flags are never read, so the null pointers it holds are left
out.  Only what reading and spending a coin do is modelled.

SOURCE: src/src/coins.h:92-304, src/src/coins.cpp:48-70, 133-178
-/

set_option autoImplicit false

namespace BitMinti.Model

open Computation.IntrusiveList

/-- What can go wrong in the coins code: `throw std::logic_error`, or an `assert`. -/
inductive CoinsError where
  | logicError (message : String)
  | assertion
  /-- A walk along the flagged entries that does not come back to the sentinel. -/
  | lostEntry
  deriving DecidableEq, Repr

/-- `CCoinsCacheEntry`, with the memory the coin uses. -/
structure CCoinsCacheEntry where
  coin : Coin := coinEmpty
  usage : BitVec 64 := 0#64
  dirty : Bool := false
  fresh : Bool := false
  deriving DecidableEq, Repr

/-- `m_flags`, as a truth value. -/
def CCoinsCacheEntry.flagged (entry : CCoinsCacheEntry) : Bool := entry.dirty || entry.fresh

abbrev CCoinsMap : Type := AList fun _ : COutPoint => CCoinsCacheEntry

structure CCoinsViewCache where
  cacheCoins : CCoinsMap := ∅
  links : Links COutPoint := .empty
  cachedCoinsUsage : BitVec 64 := 0#64
  hashBlock : Uint256 := 0#256

/-- What copies allocate: a coin handed out by a view, and a coin assigned to an entry whose
script vector already holds some memory. -/
structure CoinMemory where
  fetched : Coin → BitVec 64
  assigned : BitVec 64 → Coin → BitVec 64

namespace CCoinsViewCache

/-- `cacheCoins.find`. -/
def find (c : CCoinsViewCache) (outpoint : COutPoint) : Option CCoinsCacheEntry :=
  c.cacheCoins.lookup outpoint

/-- Storing an entry. -/
def store (c : CCoinsViewCache) (outpoint : COutPoint) (entry : CCoinsCacheEntry) :
    CCoinsViewCache :=
  { c with cacheCoins := c.cacheCoins.insert outpoint entry }

/-! ## The list of flagged entries -/

def addFlags (c : CCoinsViewCache) (outpoint : COutPoint) (dirty fresh : Bool) :
    CCoinsViewCache :=
  match c.find outpoint with
  | none => c
  | some entry =>
    let c := if entry.flagged then c else { c with links := c.links.pushBack outpoint }
    c.store outpoint
      { entry with dirty := entry.dirty || dirty, fresh := entry.fresh || fresh }

def setDirty (c : CCoinsViewCache) (outpoint : COutPoint) : CCoinsViewCache :=
  c.addFlags outpoint true false

def setFresh (c : CCoinsViewCache) (outpoint : COutPoint) : CCoinsViewCache :=
  c.addFlags outpoint false true

def setClean (c : CCoinsViewCache) (outpoint : COutPoint) : CCoinsViewCache :=
  match c.find outpoint with
  | none => c
  | some entry =>
    if entry.flagged then
      { c with links := c.links.unlink outpoint }.store outpoint
        { entry with dirty := false, fresh := false }
    else c

/-- `cacheCoins.erase`: the destructor of the entry calls `SetClean`. -/
def erase (c : CCoinsViewCache) (outpoint : COutPoint) : CCoinsViewCache :=
  let c := c.setClean outpoint
  { c with cacheCoins := c.cacheCoins.erase outpoint }

/-! ## Changing a layer -/

/-- Accounting for memory. -/
def addUsage (c : CCoinsViewCache) (usage : BitVec 64) : CCoinsViewCache :=
  { c with cachedCoinsUsage := c.cachedCoinsUsage + usage }

/-- Giving memory back. -/
def subUsage (c : CCoinsViewCache) (usage : BitVec 64) : CCoinsViewCache :=
  { c with cachedCoinsUsage := c.cachedCoinsUsage - usage }

/-- `FetchCoin` when the base has the coin and the cache no entry. -/
def insertFetched (mem : CoinMemory) (c : CCoinsViewCache) (outpoint : COutPoint) (coin : Coin) :
    CCoinsViewCache :=
  let c := (c.store outpoint { coin := coin, usage := mem.fetched coin }).addUsage
    (mem.fetched coin)
  if coin.isSpent then c.setFresh outpoint else c

/-- `SpendCoin` once the entry has been fetched. -/
def spendEntry (c : CCoinsViewCache) (outpoint : COutPoint) (entry : CCoinsCacheEntry) :
    CCoinsViewCache :=
  let c := c.subUsage entry.usage
  if entry.fresh then c.erase outpoint
  else
    (c.store outpoint { entry with coin := coinEmpty, usage := 0#64 }).setDirty outpoint

end CCoinsViewCache

/-! ## Stacks of layers -/

/-- The base view: a map from outpoints to coins, and the block it stands at. -/
structure CoinsBase where
  coins : COutPoint → Option Coin
  hashBlock : Uint256 := 0#256

/-- The layers over a base view, the topmost first. -/
structure CoinsStack where
  base : CoinsBase
  layers : List CCoinsViewCache

namespace CoinsStack

/-- `n` new caches over a base view. -/
def fresh (base : CoinsBase) (n : ℕ) : CoinsStack := ⟨base, List.replicate n {}⟩

/-- What `GetCoin` of the topmost view returns once the entry has been fetched. -/
def shown (s : CoinsStack) (outpoint : COutPoint) : Option Coin :=
  match s.layers with
  | [] => s.base.coins outpoint
  | c :: _ => (c.find outpoint).bind (·.coin.unspent)

/-- `FetchCoin` of the topmost layer, with what it makes the layers below fetch. -/
def fetchLayers (mem : CoinMemory) (base : CoinsBase) (outpoint : COutPoint) :
    List CCoinsViewCache → List CCoinsViewCache
  | [] => []
  | c :: below =>
    match c.find outpoint with
    | some _ => c :: below
    | none =>
      let below := fetchLayers mem base outpoint below
      match (CoinsStack.mk base below).shown outpoint with
      | some coin => c.insertFetched mem outpoint coin :: below
      | none => c :: below

def fetchCoin (mem : CoinMemory) (s : CoinsStack) (outpoint : COutPoint) : CoinsStack :=
  { s with layers := fetchLayers mem s.base outpoint s.layers }

def getCoin (mem : CoinMemory) (s : CoinsStack) (outpoint : COutPoint) :
    Option Coin × CoinsStack :=
  let s := s.fetchCoin mem outpoint
  (s.shown outpoint, s)

def haveCoin (mem : CoinMemory) (s : CoinsStack) (outpoint : COutPoint) : Bool × CoinsStack :=
  let s := s.fetchCoin mem outpoint
  ((s.shown outpoint).isSome, s)

/-- `SpendCoin` on the topmost layer: the coin moved out, if it returns true. -/
def spendCoin (mem : CoinMemory) (s : CoinsStack) (outpoint : COutPoint) :
    Option Coin × CoinsStack :=
  let s := s.fetchCoin mem outpoint
  match s.layers with
  | [] => (none, s)
  | c :: below =>
    match c.find outpoint with
    | none => (none, s)
    | some entry => (some entry.coin, { s with layers := c.spendEntry outpoint entry :: below })

end CoinsStack

end BitMinti.Model
