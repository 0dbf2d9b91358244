import BitMinti.Model.DepGraph

/-!
# Chunking and postlinearizing a linearization

`ChunkLinearizationInfo` groups a linearization into chunks.  `PostLinearize` improves a
linearization in two passes, the first from back to front and the second from front to back.  Each
pass keeps its groups of transactions in linked lists that run from back to front, within one
array of entries; information about transaction `t` is at index `t + 1` and index 0 is a sentinel.

The source's loops have a count of rounds here, and give nothing where it does not suffice.
`Assume`d conditions are not checked.

SOURCE: src/src/cluster_linearize.h:360-462, 1375-1574
-/

set_option autoImplicit false

namespace BitMinti.Model

/-! ## Chunks -/

structure SetInfo where
  transactions : Finset ℕ
  feerate : FeeFrac
  deriving DecidableEq

namespace SetInfo

/-- The constructor for one transaction of a graph. -/
def ofTx (depgraph : DepGraph) (pos : ℕ) : SetInfo := ⟨{pos}, depgraph.feeRate pos⟩

/-- `operator|=`. -/
def union (a b : SetInfo) : SetInfo :=
  ⟨a.transactions ∪ b.transactions, a.feerate.add b.feerate⟩

end SetInfo

/-- The inner loop of `ChunkLinearizationInfo`; `ret` has its back first. -/
def absorbChunks (newChunk : SetInfo) : List SetInfo → List SetInfo
  | [] => [newChunk]
  | back :: ret =>
    if newChunk.feerate.higher back.feerate then absorbChunks (newChunk.union back) ret
    else newChunk :: back :: ret

def chunkLinearizationInfo (depgraph : DepGraph) (linearization : List ℕ) : List SetInfo :=
  (linearization.foldl (fun ret i => absorbChunks (SetInfo.ofTx depgraph i) ret) []).reverse

/-- The inner loop of `ChunkLinearization`. -/
def absorbFeerates (newChunk : FeeFrac) : List FeeFrac → List FeeFrac
  | [] => [newChunk]
  | back :: ret =>
    if newChunk.higher back then absorbFeerates (newChunk.add back) ret
    else newChunk :: back :: ret

def chunkLinearization (depgraph : DepGraph) (linearization : List ℕ) : List FeeFrac :=
  (linearization.foldl (fun ret i => absorbFeerates (depgraph.feeRate i) ret) []).reverse

/-! ## The entries of `PostLinearize` -/

namespace PostLinearize

/-- `SENTINEL`: the index of the sentinel. -/
def SENTINEL : ℕ := 0

/-- `NO_PREV_TX`: the transaction is the first of its group. -/
def NO_PREV_TX : ℕ := 0

structure TxEntry where
  prevTx : ℕ := 0
  firstTx : ℕ := 0
  prevGroup : ℕ := 0
  group : Finset ℕ := ∅
  deps : Finset ℕ := ∅
  feerate : FeeFrac := FeeFrac.empty

/-- `entries`. -/
abbrev TxEntries := List TxEntry

/-- The entry at an index. -/
def TxEntries.at (entries : TxEntries) (i : ℕ) : TxEntry := entries.getD i {}

/-- Change the entry at an index. -/
def TxEntries.modify (entries : TxEntries) (i : ℕ) (f : TxEntry → TxEntry) : TxEntries :=
  List.modify entries i f

/-- Merge `prevGroup` into `curGroup`; gives the group before them too. -/
def mergeGroups (entries : TxEntries) (curGroup prevGroup : ℕ) : TxEntries × ℕ :=
  let entries := entries.modify curGroup fun cur =>
    { cur with
      group := cur.group ∪ (entries.at prevGroup).group
      deps := cur.deps ∪ (entries.at prevGroup).deps
      feerate := cur.feerate.add (entries.at prevGroup).feerate }
  let entries := entries.modify (entries.at curGroup).firstTx fun first =>
    { first with prevTx := prevGroup }
  let entries := entries.modify curGroup fun cur =>
    { cur with firstTx := (entries.at prevGroup).firstTx }
  let preprevGroup := (entries.at prevGroup).prevGroup
  (entries.modify curGroup fun cur => { cur with prevGroup := preprevGroup }, preprevGroup)

/-- Swap `curGroup` with `prevGroup`, between `nextGroup` and `preprevGroup`. -/
def swapGroups (entries : TxEntries) (nextGroup curGroup prevGroup preprevGroup : ℕ) :
    TxEntries :=
  let entries := entries.modify nextGroup fun next => { next with prevGroup := prevGroup }
  let entries := entries.modify prevGroup fun prev => { prev with prevGroup := curGroup }
  entries.modify curGroup fun cur => { cur with prevGroup := preprevGroup }

/-- The merge/swap cycle. -/
def mergeSwap : ℕ → TxEntries → ℕ → ℕ → ℕ → Option TxEntries
  | 0, _, _, _, _ => none
  | fuel + 1, entries, nextGroup, curGroup, prevGroup =>
    if (entries.at curGroup).feerate.higher (entries.at prevGroup).feerate then
      if ((entries.at curGroup).deps ∩ (entries.at prevGroup).group).Nonempty then
        let (entries, preprevGroup) := mergeGroups entries curGroup prevGroup
        mergeSwap fuel entries nextGroup curGroup preprevGroup
      else
        let preprevGroup := (entries.at prevGroup).prevGroup
        mergeSwap fuel (swapGroups entries nextGroup curGroup prevGroup preprevGroup)
          prevGroup curGroup preprevGroup
    else some entries

/-- The entry of a group of one transaction; even passes (`rev`) swap the meanings of parent and
child, and of high and low feerates. -/
def singleGroup (depgraph : DepGraph) (rev : Bool) (idx lastGroup : ℕ) : TxEntry :=
  { group := {idx}
    deps := if rev then depgraph.descendants idx else depgraph.ancestors idx
    feerate :=
      if rev then ⟨-(depgraph.feeRate idx).fee, (depgraph.feeRate idx).size⟩
      else depgraph.feeRate idx
    prevTx := NO_PREV_TX
    firstTx := idx + 1
    prevGroup := lastGroup }

/-- One round of the loop over the existing linearization. -/
def insertTx (depgraph : DepGraph) (rev : Bool) (fuel : ℕ) (entries : TxEntries) (idx : ℕ) :
    Option TxEntries :=
  let curGroup := idx + 1
  let entries := entries.modify curGroup fun _ =>
    singleGroup depgraph rev idx (entries.at SENTINEL).prevGroup
  let entries := entries.modify SENTINEL fun sentinel => { sentinel with prevGroup := curGroup }
  mergeSwap fuel entries SENTINEL curGroup (entries.at curGroup).prevGroup

/-! ## Reading the groups back -/

/-- The transactions of a group, from back to front. -/
def groupTxs : ℕ → TxEntries → ℕ → Option (List ℕ)
  | 0, _, _ => none
  | fuel + 1, entries, curTx =>
    if (entries.at curTx).prevTx ≠ NO_PREV_TX then
      (groupTxs fuel entries (entries.at curTx).prevTx).map fun txs => (curTx - 1) :: txs
    else some [curTx - 1]

/-- The transactions of all groups, from back to front. -/
def allTxs (perGroup : ℕ) : ℕ → TxEntries → ℕ → Option (List ℕ)
  | 0, _, _ => none
  | fuel + 1, entries, curGroup =>
    if curGroup ≠ SENTINEL then do
      let txs ← groupTxs perGroup entries curGroup
      let rest ← allTxs perGroup fuel entries (entries.at curGroup).prevGroup
      pure (txs ++ rest)
    else some []

/-- Write the transactions over the linearization: from its front in even passes, from its back
in odd ones. -/
def writeBack (rev : Bool) (linearization txs : List ℕ) : List ℕ :=
  if rev then txs ++ linearization.drop txs.length
  else linearization.take (linearization.length - txs.length) ++ txs.reverse

/-- One pass. -/
def onePass (depgraph : DepGraph) (rev : Bool) (entries : TxEntries) (linearization : List ℕ) :
    Option (TxEntries × List ℕ) := do
  let rounds := linearization.length + 1
  let entries := entries.modify SENTINEL fun sentinel => { sentinel with prevGroup := SENTINEL }
  let entries ← (if rev then linearization.reverse else linearization).foldlM
    (insertTx depgraph rev rounds) entries
  let txs ← allTxs rounds rounds entries (entries.at SENTINEL).prevGroup
  pure (entries, writeBack rev linearization txs)

end PostLinearize

def postLinearize (depgraph : DepGraph) (linearization : List ℕ) : Option (List ℕ) := do
  let (entries, linearization) ← PostLinearize.onePass depgraph true
    (List.replicate (depgraph.positionRange + 1) {}) linearization
  let (_, linearization) ← PostLinearize.onePass depgraph false entries linearization
  pure linearization

end BitMinti.Model
