import BitMinti.Model.FeeFrac
import Mathlib.Data.Finset.Lattice.Fold
import Mathlib.Data.Finset.Max
import Mathlib.Data.Finset.Union
import Mathlib.Data.List.DropRight
import Mathlib.Order.Lattice.Nat

/-!
# Dependency graphs of a cluster

A `DepGraph` has for each of its transactions the feerate and the sets of all its ancestors and
descendants, itself included.  Positions may be unused; `m_used` has those in use.

Positions are natural numbers and sets of positions are finite sets, without the capacity of the
source's bit sets.  `Assume`d conditions on arguments are not checked.

SOURCE: src/src/cluster_linearize.h:22-358
-/

set_option autoImplicit false

namespace BitMinti.Model

structure DepGraph.Entry where
  feerate : FeeFrac := FeeFrac.empty
  ancestors : Finset ℕ := ∅
  descendants : Finset ℕ := ∅
  deriving DecidableEq

/-- `DepGraph`: its `entries` and `m_used`. -/
structure DepGraph where
  entries : List DepGraph.Entry := []
  used : Finset ℕ := ∅
  deriving DecidableEq

namespace DepGraph

/-! ## Reading a graph -/

/-- The entry at a position. -/
def entry (g : DepGraph) (i : ℕ) : Entry := g.entries.getD i {}

def positions (g : DepGraph) : Finset ℕ := g.used

def positionRange (g : DepGraph) : ℕ := g.entries.length

/-- `FeeRate`, of one transaction. -/
def feeRate (g : DepGraph) (i : ℕ) : FeeFrac := (g.entry i).feerate

def ancestors (g : DepGraph) (i : ℕ) : Finset ℕ := (g.entry i).ancestors

def descendants (g : DepGraph) (i : ℕ) : Finset ℕ := (g.entry i).descendants

/-- The positions of a set in the order of `BitSet`'s iterator. -/
def elements (s : Finset ℕ) : List ℕ := (List.range (s.sup Nat.succ)).filter fun i => i ∈ s

/-- `GetReducedParents` and `GetReducedChildren`: those related to `i`, other than `i`, without
those related to another one.  The loop goes through the set it starts with. -/
def getReduced (related : ℕ → Finset ℕ) (i : ℕ) : Finset ℕ :=
  let start := (related i).erase i
  (elements start).foldl
    (fun ret j => if j ∈ ret then insert j (ret \ related j) else ret) start

def getReducedParents (g : DepGraph) (i : ℕ) : Finset ℕ := getReduced g.ancestors i

/-- The do-while loop of `GetConnectedComponent`.  Every round but the last adds to `ret`, which
stays within `todo`, so that `fuel` counts the rounds. -/
def componentLoop (g : DepGraph) (todo : Finset ℕ) : ℕ → Finset ℕ → Finset ℕ → Finset ℕ
  | 0, ret, _ => ret
  | fuel + 1, ret, toAdd =>
    let ret' := (ret ∪ toAdd.biUnion fun add => g.descendants add ∪ g.ancestors add) ∩ todo
    let toAdd' := ret' \ ret
    if toAdd'.Nonempty then componentLoop g todo fuel ret' toAdd' else ret'

def getConnectedComponent (g : DepGraph) (todo : Finset ℕ) (tx : ℕ) : Finset ℕ :=
  g.componentLoop todo (todo.card + 1) ∅ {tx}

def first (s : Finset ℕ) : ℕ := s.min.untopD 0

def findConnectedComponent (g : DepGraph) (todo : Finset ℕ) : Finset ℕ :=
  if todo = ∅ then todo else g.getConnectedComponent todo (first todo)

def isConnected (g : DepGraph) (subset : Finset ℕ) : Bool :=
  decide (g.findConnectedComponent subset = subset)

def isAcyclic (g : DepGraph) : Bool :=
  decide (∀ i ∈ g.positions, g.ancestors i ∩ g.descendants i = {i})

/-! ## Building a graph -/

/-- The first position that is not in use. -/
def firstFree (g : DepGraph) : ℕ :=
  ((List.range (g.used.card + 1)).find? fun i => i ∉ g.used).getD 0

def addTransaction (g : DepGraph) (feefrac : FeeFrac) : ℕ × DepGraph :=
  let newIdx := g.firstFree
  let entry : Entry := ⟨feefrac, {newIdx}, {newIdx}⟩
  let entries :=
    if newIdx = g.entries.length then g.entries ++ [entry] else g.entries.set newIdx entry
  (newIdx, { entries := entries, used := insert newIdx g.used })

/-- The loop of `RemoveTransactions` that removes unused entries at the end. -/
def popUnused (used : Finset ℕ) (entries : List Entry) : List Entry :=
  (entries.zipIdx.rdropWhile fun p => p.2 ∉ used).map Prod.fst

def removeTransactions (g : DepGraph) (del : Finset ℕ) : DepGraph :=
  let used := g.used \ del
  { entries := (popUnused used g.entries).map fun entry =>
      { entry with
        ancestors := entry.ancestors ∩ used
        descendants := entry.descendants ∩ used }
    used := used }

/-- Change the entries at the given positions. -/
def modifyEntries (g : DepGraph) (s : Finset ℕ) (f : Entry → Entry) : DepGraph :=
  { g with entries := g.entries.mapIdx fun i entry => if i ∈ s then f entry else entry }

def addDependencies (g : DepGraph) (parents : Finset ℕ) (child : ℕ) : DepGraph :=
  let parAnc := ((parents \ g.ancestors child).biUnion g.ancestors) \ g.ancestors child
  if parAnc = ∅ then g
  else
    let chlDes := g.descendants child
    let g' := g.modifyEntries parAnc fun entry =>
      { entry with descendants := entry.descendants ∪ chlDes }
    g'.modifyEntries (g'.descendants child) fun entry =>
      { entry with ancestors := entry.ancestors ∪ parAnc }

end DepGraph

end BitMinti.Model
