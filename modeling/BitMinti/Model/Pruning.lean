import BitMinti.Model.BlockStorage

/-!
# Pruning

What `FlushStateToDisk` deletes in prune mode.  The prune locks limit the height that may be
pruned, `GetPruneRange` limits it further, and one of two loops goes through the block files:
`FindFilesToPruneManual` for a height that the user gave, `FindFilesToPrune` for the space that the
files take.

What is read of the other parts of the node is an argument (`PruneContext`).  Writing to the disk
and logging are left out.

SOURCE: src/src/validation.cpp:3129-3193, 7484-7510, src/src/node/blockstorage.cpp:258-405, 819-828,
src/src/node/blockstorage.h:114-116, 141-143, src/src/validation.h:76-87, src/src/validation.cpp:115
-/

set_option autoImplicit false

namespace BitMinti.Model

def PRUNE_LOCK_BUFFER : ℤ := 10

def MIN_DISK_SPACE_FOR_BLOCK_FILES : ℕ := 550 * 1024 * 1024

def BLOCKFILE_CHUNK_SIZE : ℕ := 0x1000000

def UNDOFILE_CHUNK_SIZE : ℕ := 0x100000

/-- `std::numeric_limits<int>::max()`. -/
def INT_MAX : ℤ := 2147483647

/-- The block index with the active chain, and the block files. -/
structure PruneState where
  chain : Chainstate
  files : BlockStorage
  m_have_pruned : Bool := false

/-- What pruning reads of the node: the height of the snapshot block if the chainstate is from a
snapshot that has not been validated, the `height_first` of the prune locks, whether there is a
historical chainstate, the options and parameters, and how far the headers are. -/
structure PruneContext where
  unvalidatedSnapshotBase : Option ℕ := none
  m_prune_locks : List ℤ := []
  m_blockfiles_indexed : Bool := true
  historicalChainstate : Bool := false
  pruneTarget : ℕ := 0
  pruneAfterHeight : ℕ := 0
  bestHeaderHeight : ℕ := 0
  isInitialBlockDownload : Bool := false

/-- Code that prunes. -/
abbrev PruneM (α : Type) : Type := StateT PruneState (Except Stop) α

/-! ## One file -/

/-- What is left of the entry of a block that is pruned. -/
def pruneEntry (e : CBlockIndex) : CBlockIndex :=
  { e with
    nStatus := { e.nStatus with haveData := false, haveUndo := false }
    nFile := 0
    nDataPos := 0
    nUndoPos := 0 }

/-- Whether an entry is in a file. -/
def Chainstate.inFile (s : Chainstate) (fileNumber : ℕ) (p : Uint256) : Bool :=
  (s.m_block_index p).any fun e => e.nFile == fileNumber

/-- The block index without the blocks of a file. -/
def pruneEntries (s : Chainstate) (fileNumber : ℕ) : Chainstate :=
  { s.mapEntries fun _ e => if e.nFile = fileNumber then pruneEntry e else e with
    m_dirty_blockindex :=
      (s.hashes.filter (s.inFile fileNumber)).foldl (fun dirty p => dirty.insert p)
        s.m_dirty_blockindex
    m_blocks_unlinked := s.m_blocks_unlinked.filter fun entry =>
      !(s.inFile fileNumber entry.2 && s.pprev entry.2 == some entry.1) }

def pruneOneBlockFile (fileNumber : ℕ) : PruneM Unit := do
  let st ← get
  if fileNumber < st.files.m_blockfile_info.length then
    set { st with
      chain := pruneEntries st.chain fileNumber
      files := (st.files.modifyInfo fileNumber fun _ => {}).markDirty fileNumber }
  else throw (.fault .assertion)

/-! ## The range -/

def getPruneRange (ctx : PruneContext) (s : Chainstate) (last_height_can_prune : ℤ) : ℤ × ℤ :=
  if s.chainHeight ≤ 0 then (0, 0)
  else
    let prune_start : ℤ :=
      match ctx.unvalidatedSnapshotBase with
      | none => 0
      | some nHeight => nHeight + 1
    let max_prune := max 0 (s.chainHeight - MIN_BLOCKS_TO_KEEP)
    (prune_start, min last_height_can_prune max_prune)

/-- The test both loops make: whether a file may hold a block outside of the range.  The limits
are converted to `unsigned`. -/
def outOfRange (fileinfo : CBlockFileInfo) (range : ℤ × ℤ) : Bool :=
  decide ((fileinfo.nHeightLast : ℤ) > range.2 % 2 ^ 32 ∨
    (fileinfo.nHeightFirst : ℤ) < range.1 % 2 ^ 32)

/-! ## The loops -/

/-- The loop of `FindFilesToPruneManual`. -/
def pruneManualLoop (range : ℤ × ℤ) : List ℕ → List ℕ → PruneM (List ℕ)
  | [], setFilesToPrune => pure setFilesToPrune
  | fileNumber :: rest, setFilesToPrune => do
      let st ← get
      let fileinfo := st.files.fileInfo fileNumber
      if fileinfo.nSize = 0 ∨ outOfRange fileinfo range = true then
        pruneManualLoop range rest setFilesToPrune
      else do
        pruneOneBlockFile fileNumber
        pruneManualLoop range rest (setFilesToPrune.insert fileNumber)

def findFilesToPruneManual (ctx : PruneContext) (nManualPruneHeight : ℤ) : PruneM (List ℕ) := do
  let st ← get
  if st.files.m_prune_mode = true ∧ nManualPruneHeight > 0 then
    if st.chain.chainHeight < 0 then pure []
    else
      pruneManualLoop (getPruneRange ctx st.chain nManualPruneHeight)
        (List.range st.files.maxBlockfileNum) []
  else throw (.fault .assertion)

/-- `CalculateCurrentUsage`.  The two sizes of a file are added as 32-bit numbers. -/
def calculateCurrentUsage (s : BlockStorage) : ℕ :=
  s.m_blockfile_info.foldl (fun retval file => retval + (file.nSize + file.nUndoSize) % 2 ^ 32) 0

/-- The loop of `FindFilesToPrune`. -/
def pruneTargetLoop (range : ℤ × ℤ) (target nBuffer : ℕ) :
    List ℕ → ℕ → List ℕ → PruneM (List ℕ)
  | [], _, setFilesToPrune => pure setFilesToPrune
  | fileNumber :: rest, nCurrentUsage, setFilesToPrune => do
      let st ← get
      let fileinfo := st.files.fileInfo fileNumber
      let nBytesToPrune := (fileinfo.nSize + fileinfo.nUndoSize) % 2 ^ 32
      if fileinfo.nSize = 0 then
        pruneTargetLoop range target nBuffer rest nCurrentUsage setFilesToPrune
      else if nCurrentUsage + nBuffer < target then pure setFilesToPrune
      else if outOfRange fileinfo range = true then
        pruneTargetLoop range target nBuffer rest nCurrentUsage setFilesToPrune
      else do
        pruneOneBlockFile fileNumber
        pruneTargetLoop range target nBuffer rest (nCurrentUsage - nBytesToPrune)
          (setFilesToPrune.insert fileNumber)

/-- `nBuffer`, which is larger while the node is far behind the best header. -/
def pruneBuffer (ctx : PruneContext) (s : Chainstate) : ℕ :=
  let nBuffer := BLOCKFILE_CHUNK_SIZE + UNDOFILE_CHUNK_SIZE
  if ctx.isInitialBlockDownload = true ∧ (ctx.bestHeaderHeight : ℤ) > s.chainHeight then
    nBuffer + 1000000 * (ctx.bestHeaderHeight - s.chainHeight).toNat
  else nBuffer

def findFilesToPrune (ctx : PruneContext) (last_prune : ℤ) : PruneM (List ℕ) := do
  let st ← get
  let num_chainstates := if ctx.historicalChainstate then 2 else 1
  let target := max MIN_DISK_SPACE_FOR_BLOCK_FILES (ctx.pruneTarget / num_chainstates)
  if st.chain.chainHeight < 0 ∨ target = 0 then pure []
  else if st.chain.chainHeight ≤ ctx.pruneAfterHeight then pure []
  else
    let nCurrentUsage := calculateCurrentUsage st.files
    if nCurrentUsage + (BLOCKFILE_CHUNK_SIZE + UNDOFILE_CHUNK_SIZE) ≥ target then
      pruneTargetLoop (getPruneRange ctx st.chain last_prune) target (pruneBuffer ctx st.chain)
        (List.range st.files.maxBlockfileNum) nCurrentUsage []
    else pure []

/-! ## `FlushStateToDisk` -/

/-- The last height that the prune locks allow. -/
def lastPrune (height : ℤ) (m_prune_locks : List ℤ) : ℤ :=
  m_prune_locks.foldl (fun last_prune height_first =>
    if height_first = INT_MAX then last_prune
    else max 1 (min last_prune (height_first - PRUNE_LOCK_BUFFER - 1))) height

/-- The part of `FlushStateToDisk` that prunes; the result is the files that are deleted.
`nManualPruneHeight` is not positive when no height was given. -/
def flushStateToDisk (ctx : PruneContext) (nManualPruneHeight : ℤ) : PruneM (List ℕ) := do
  let st ← get
  if st.files.m_prune_mode = true ∧
      (st.files.m_check_for_pruning = true ∨ nManualPruneHeight > 0) ∧
      ctx.m_blockfiles_indexed = true then do
    let last_prune := lastPrune st.chain.chainHeight ctx.m_prune_locks
    let setFilesToPrune ←
      if nManualPruneHeight > 0 then
        findFilesToPruneManual ctx (min last_prune nManualPruneHeight)
      else do
        let setFilesToPrune ← findFilesToPrune ctx last_prune
        modify fun st => { st with files := { st.files with m_check_for_pruning := false } }
        pure setFilesToPrune
    if setFilesToPrune ≠ [] then modify fun st => { st with m_have_pruned := true }
    pure setFilesToPrune
  else pure []

end BitMinti.Model
