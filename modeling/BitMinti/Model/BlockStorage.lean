import BitMinti.Model.Serialize
import BitMinti.Model.ActivateBestChain

/-!
# Block files

What `BlockManager` knows about the numbered files of blocks and undo data: an info for each, and
two cursors, one for blocks below the height of a snapshot and one for those from it on.

Heights and times are natural numbers.

SOURCE: src/src/node/blockstorage.h:51-90, 118-124, 145-170, 262-273
-/

set_option autoImplicit false

namespace BitMinti.Model

structure CBlockFileInfo where
  nBlocks : ℕ := 0
  nSize : ℕ := 0
  nUndoSize : ℕ := 0
  nHeightFirst : ℕ := 0
  nHeightLast : ℕ := 0
  nTimeFirst : ℕ := 0
  nTimeLast : ℕ := 0
  deriving DecidableEq, Repr

structure BlockfileCursor where
  file_num : ℕ := 0
  undo_height : ℕ := 0
  deriving DecidableEq, Repr

/-- The part of `BlockManager` that knows about files, with the options that it reads. -/
structure BlockStorage where
  m_snapshot_height : Option ℕ := none
  fast_prune : Bool := false
  m_prune_mode : Bool := false
  m_blockfile_info : List CBlockFileInfo := []
  normal_cursor : Option BlockfileCursor := some {}
  assumed_cursor : Option BlockfileCursor := none
  m_dirty_fileinfo : List ℕ := []
  m_check_for_pruning : Bool := false
  deriving DecidableEq, Repr

namespace BlockStorage

def maxBlockfileNum (s : BlockStorage) : ℕ :=
  max (s.normal_cursor.getD {}).file_num (s.assumed_cursor.getD {}).file_num

/-- `m_blockfile_info[nFile]`. -/
def fileInfo (s : BlockStorage) (nFile : ℕ) : CBlockFileInfo := s.m_blockfile_info.getD nFile {}

/-- Writing `m_blockfile_info[nFile]`. -/
def modifyInfo (s : BlockStorage) (nFile : ℕ) (f : CBlockFileInfo → CBlockFileInfo) :
    BlockStorage :=
  { s with m_blockfile_info := s.m_blockfile_info.modify nFile f }

/-- `m_dirty_fileinfo.insert(nFile)`. -/
def markDirty (s : BlockStorage) (nFile : ℕ) : BlockStorage :=
  { s with m_dirty_fileinfo := s.m_dirty_fileinfo.insert nFile }

end BlockStorage

end BitMinti.Model
