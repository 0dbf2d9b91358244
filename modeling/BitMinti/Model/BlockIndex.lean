import BitMinti.Model.ArithUint256

/-!
# The block index

`CBlockHeader`, `CBlockIndex` and the `BlockMap` of the block manager.  A
`CBlockIndex *` is the hash it is stored under, so a pointer is followed by looking
the hash up.  `GetAncestor` walks the skip list; `AddToBlockIndex` links a new header
to its parent and builds its skip pointer.

`GetHash`, the double SHA-256 of the serialized header, is a section variable: nothing
here depends on how it is computed.

SOURCE: src/src/chain.h:40-330, src/src/chain.cpp:69-135,
src/src/node/blockstorage.cpp:208-262
-/

set_option autoImplicit false

namespace BitMinti.Model

/-- How a call can end without a result: the exceptions and the failed assertions of the
modelled code. -/
inductive Fault where
  | uintError (e : UintError)
  | nullDereference
  | assertion
  deriving DecidableEq, Repr

/-! ## Headers and index entries -/

structure CBlockHeader where
  nVersion : ℤ
  hashPrevBlock : Uint256
  hashMerkleRoot : Uint256
  nTime : BitVec 32
  nBits : BitVec 32
  nNonce : BitVec 32
  deriving DecidableEq, Repr

def CBlockHeader.getBlockTime (block : CBlockHeader) : ℤ := block.nTime.toNat

/-- The validity levels of `BlockStatus`, in increasing order. -/
inductive BlockValidity where
  | unknown
  | reserved
  | tree
  | transactions
  | chain
  | scripts
  deriving DecidableEq, Repr

/-- The numeric value of a validity level. -/
def BlockValidity.toNat : BlockValidity → ℕ
  | unknown => 0
  | reserved => 1
  | tree => 2
  | transactions => 3
  | chain => 4
  | scripts => 5

/-- The bits of `nStatus`: the validity level and the flags. -/
structure BlockStatus where
  valid : BlockValidity := .unknown
  haveData : Bool := false
  haveUndo : Bool := false
  failedValid : Bool := false
  failedChild : Bool := false
  optWitness : Bool := false
  deriving DecidableEq, Repr

/-- `nStatus & BLOCK_FAILED_MASK`. -/
def BlockStatus.failed (s : BlockStatus) : Bool := s.failedValid || s.failedChild

def SEQ_ID_INIT_FROM_DISK : ℤ := 1

/-- `CBlockIndex`.  `phashBlock` is the key the entry is stored under. -/
structure CBlockIndex where
  phashBlock : Uint256
  pprev : Option Uint256 := none
  pskip : Option Uint256 := none
  nHeight : ℕ := 0
  nFile : ℕ := 0
  nDataPos : ℕ := 0
  nUndoPos : ℕ := 0
  nChainWork : ArithUint256 := .ofUInt64 0
  nTx : ℕ := 0
  m_chain_tx_count : ℕ := 0
  nStatus : BlockStatus := {}
  nVersion : ℤ
  hashMerkleRoot : Uint256
  nTime : BitVec 32
  nBits : BitVec 32
  nNonce : BitVec 32
  nSequenceId : ℤ := SEQ_ID_INIT_FROM_DISK
  nTimeMax : BitVec 32 := 0

namespace CBlockIndex

/-- `CBlockIndex(const CBlockHeader&)`, stored under `hash`. -/
def ofHeader (hash : Uint256) (block : CBlockHeader) : CBlockIndex where
  phashBlock := hash
  nVersion := block.nVersion
  hashMerkleRoot := block.hashMerkleRoot
  nTime := block.nTime
  nBits := block.nBits
  nNonce := block.nNonce

def getBlockHash (pindex : CBlockIndex) : Uint256 := pindex.phashBlock

def getBlockTime (pindex : CBlockIndex) : ℤ := pindex.nTime.toNat

def haveNumChainTxs (pindex : CBlockIndex) : Bool := pindex.m_chain_tx_count != 0

def isValid (pindex : CBlockIndex) (nUpTo : BlockValidity) : Bool :=
  !pindex.nStatus.failed && decide (nUpTo.toNat ≤ pindex.nStatus.valid.toNat)

def raiseValidity (pindex : CBlockIndex) (nUpTo : BlockValidity) : CBlockIndex :=
  if pindex.nStatus.failed then pindex
  else if pindex.nStatus.valid.toNat < nUpTo.toNat then
    { pindex with nStatus := { pindex.nStatus with valid := nUpTo } }
  else pindex

end CBlockIndex

/-- `BlockMap`: the entries under their hashes. -/
abbrev BlockMap : Type := Uint256 → Option CBlockIndex

namespace BlockMap

/-- The pointer `pprev` of the entry under a hash. -/
def prev (m : BlockMap) (hash : Uint256) : Option Uint256 := (m hash).bind (·.pprev)

/-- The height of the entry under a hash. -/
def height (m : BlockMap) (hash : Uint256) : ℕ := ((m hash).map (·.nHeight)).getD 0

/-- Following `pindex->pprev`. -/
def pprev (m : BlockMap) (pindex : CBlockIndex) : Option CBlockIndex := pindex.pprev.bind m

/-- Writing an entry. -/
def insert (m : BlockMap) (hash : Uint256) (pindex : CBlockIndex) : BlockMap :=
  Function.update m hash (some pindex)

end BlockMap

/-! ## The skip list -/

def invertLowestOne (n : ℕ) : ℕ := n &&& (n - 1)

def getSkipHeight (height : ℕ) : ℕ :=
  if height < 2 then 0
  else if height &&& 1 ≠ 0 then invertLowestOne (invertLowestOne (height - 1)) + 1
  else invertLowestOne height

/-- Whether `GetAncestor` follows `pskip` from `heightWalk` towards `height`. -/
def followSkip (height heightWalk : ℕ) : Bool :=
  let heightSkip := getSkipHeight heightWalk
  let heightSkipPrev := getSkipHeight (heightWalk - 1)
  decide (heightSkip = height) ||
    (decide (heightSkip > height) &&
      !(decide (heightSkipPrev + 2 < heightSkip) && decide (heightSkipPrev ≥ height)))

/-- The loop of `GetAncestor`, with at most `fuel` passes left.  Every pass lowers
`heightWalk`, so the starting height is fuel enough. -/
def getAncestorLoop (m : BlockMap) (height : ℕ) :
    ℕ → CBlockIndex → ℕ → Except Fault CBlockIndex
  | fuel, pindexWalk, heightWalk =>
    if heightWalk > height then
      match fuel with
      | 0 => .error .assertion
      | fuel + 1 =>
        if pindexWalk.pskip ≠ none ∧ followSkip height heightWalk then
          match pindexWalk.pskip.bind m with
          | some pskip => getAncestorLoop m height fuel pskip (getSkipHeight heightWalk)
          | none => .error .nullDereference
        else
          match m.pprev pindexWalk with
          | some pprev => getAncestorLoop m height fuel pprev (heightWalk - 1)
          | none => .error .assertion
    else .ok pindexWalk

/-- `CBlockIndex::GetAncestor`.  A walk that faults yields no entry; on the trees the node
builds no walk does. -/
def getAncestor (m : BlockMap) (pindex : CBlockIndex) (height : ℤ) : Option CBlockIndex :=
  if height > pindex.nHeight ∨ height < 0 then none
  else (getAncestorLoop m height.toNat pindex.nHeight pindex pindex.nHeight).toOption

/-! ## Times and work -/

/-- The times `GetMedianTimePast` gathers, newest first: `n` entries at most. -/
def medianTimes (m : BlockMap) : ℕ → Option CBlockIndex → List ℤ
  | 0, _ => []
  | _ + 1, none => []
  | n + 1, some pindex => pindex.getBlockTime :: medianTimes m n (m.pprev pindex)

def nMedianTimeSpan : ℕ := 11

def getMedianTimePast (m : BlockMap) (pindex : CBlockIndex) : ℤ :=
  let times := (medianTimes m nMedianTimeSpan (some pindex)).mergeSort
  times.getD (times.length / 2) 0

def getBlockProof (nBits : BitVec 32) : Except UintError ArithUint256 :=
  let (bnTarget, fNegative, fOverflow) := ArithUint256.setCompact nBits
  if fNegative || fOverflow || bnTarget.isZero then .ok (.ofUInt64 0)
  else
    match bnTarget.compl.div (bnTarget + .ofUInt64 1) with
    | .ok q => .ok (q + .ofUInt64 1)
    | .error e => .error e

/-! ## The block manager -/

/-- The part of `BlockManager` and `ChainstateManager` the header code reads and writes. -/
structure BlockManager where
  m_block_index : BlockMap
  best_header : Option Uint256

def BlockManager.lookupBlockIndex (bm : BlockManager) (hash : Uint256) : Option CBlockIndex :=
  bm.m_block_index hash

/-- The manager before anything is loaded. -/
def BlockManager.empty : BlockManager := ⟨fun _ => none, none⟩

/-- `BuildSkip`: the pointer that `pskip` is set to. -/
def buildSkip (m : BlockMap) (pprev : CBlockIndex) (nHeight : ℕ) : Option Uint256 :=
  (getAncestor m pprev (getSkipHeight nHeight)).map (·.getBlockHash)

/-- Whether `AddToBlockIndex` moves `best_header` to an entry with this work. -/
def improvesBestHeader (bm : BlockManager) (nChainWork : ArithUint256) : Bool :=
  match bm.best_header.bind bm.m_block_index with
  | none => true
  | some best => best.nChainWork.blt nChainWork

section AddToBlockIndex

variable (getHash : CBlockHeader → Uint256)

/-- The entry `AddToBlockIndex` completes: linked to its parent if that is known, with its
skip pointer, the running maximum of the times and the accumulated work. -/
def linkIndex (m : BlockMap) (block : CBlockHeader) (work : ArithUint256) : CBlockIndex :=
  let pindexNew := CBlockIndex.ofHeader (getHash block) block
  match m block.hashPrevBlock with
  | some pprev =>
    { pindexNew with
      pprev := some block.hashPrevBlock
      nHeight := pprev.nHeight + 1
      pskip := buildSkip m pprev (pprev.nHeight + 1)
      nTimeMax := if pprev.nTimeMax < block.nTime then block.nTime else pprev.nTimeMax
      nChainWork := pprev.nChainWork + work }.raiseValidity .tree
  | none =>
    { pindexNew with
      nTimeMax := block.nTime
      nChainWork := ArithUint256.ofUInt64 0 + work }.raiseValidity .tree

/-- `AddToBlockIndex`.  The parent is looked up after the new entry has been emplaced. -/
def addToBlockIndex (block : CBlockHeader) (bm : BlockManager) : Except Fault BlockManager :=
  let hash := getHash block
  match bm.m_block_index hash with
  | some _ => .ok bm
  | none =>
    let emplaced := bm.m_block_index.insert hash (.ofHeader hash block)
    match getBlockProof block.nBits with
    | .error e => .error (.uintError e)
    | .ok work =>
      let pindexNew := linkIndex getHash emplaced block work
      .ok {
        m_block_index := bm.m_block_index.insert hash pindexNew
        best_header :=
          if improvesBestHeader bm pindexNew.nChainWork then some hash else bm.best_header }

/-- The block managers that `AddToBlockIndex` builds from a genesis header: first the
genesis, then headers whose parent is already in the index (`AcceptBlockHeader` looks the
parent up before it calls `AddToBlockIndex`). -/
inductive Built (genesis : CBlockHeader) : BlockManager → Prop
  | genesis {bm : BlockManager} (hhash : getHash genesis ≠ genesis.hashPrevBlock)
      (hadd : addToBlockIndex getHash genesis .empty = .ok bm) : Built genesis bm
  | add {bm bm' : BlockManager} {block : CBlockHeader} (hbm : Built genesis bm)
      (hparent : (bm.lookupBlockIndex block.hashPrevBlock).isSome)
      (hadd : addToBlockIndex getHash block bm = .ok bm') : Built genesis bm'

/-- Adding headers one after the other. -/
def addHeaders (headers : List CBlockHeader) (bm : BlockManager) : Except Fault BlockManager :=
  headers.foldlM (fun bm block => addToBlockIndex getHash block bm) bm

/-- A chain of headers on top of the block `prevHash`: each names the hash of the one
before it. -/
def HashLinked : Uint256 → List CBlockHeader → Prop
  | _, [] => True
  | prevHash, block :: rest => block.hashPrevBlock = prevHash ∧ HashLinked (getHash block) rest

/-- Headers the index does not hold, all with different hashes. -/
structure NewHeaders (m : BlockMap) (headers : List CBlockHeader) : Prop where
  fresh : ∀ block ∈ headers, m (getHash block) = none
  nodup : (headers.map getHash).Nodup

end AddToBlockIndex

end BitMinti.Model
