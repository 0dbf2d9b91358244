import BitMinti.Model.Pruning

/-!
# Pruning keeps what has to be kept

A file is chosen by either loop only when the heights recorded for it are within the range, which
is within what the prune locks allow.  The heights of the other files do not change while one is
pruned, so the recorded heights are those from before the call.

SOURCE: src/src/validation.cpp:3129-3193, 7484-7510, src/src/node/blockstorage.cpp:258-405
-/

set_option autoImplicit false

namespace BitMinti.Analysis

open Model Computation.StateExcept

theorem fileInfo_modifyInfo {s : BlockStorage} {f : ℕ}
    (hf : f < s.m_blockfile_info.length)
    (F : CBlockFileInfo → CBlockFileInfo) (g : ℕ) :
    (s.modifyInfo f F).fileInfo g = if g = f then F (s.fileInfo f) else s.fileInfo g := by
  rw [BlockStorage.modifyInfo, BlockStorage.fileInfo, BlockStorage.fileInfo,
    List.getD_eq_getElem?_getD, List.getD_eq_getElem?_getD]
  by_cases hg : g = f
  · subst hg
    rw [if_pos rfl, List.getElem?_modify_eq, List.getElem?_eq_getElem hf]
    rfl
  · rw [if_neg hg, List.getElem?_modify_ne _ _ (fun h => hg h.symm), BlockStorage.fileInfo,
      List.getD_eq_getElem?_getD]

/-! ## The prune locks -/

theorem lastPrune_cons (height lock : ℤ) (locks : List ℤ) :
    lastPrune height (lock :: locks) =
      lastPrune (if lock = INT_MAX then height
        else max 1 (min height (lock - PRUNE_LOCK_BUFFER - 1))) locks := rfl

theorem lastPrune_le_max (height : ℤ) (locks : List ℤ) :
    lastPrune height locks ≤ max 1 height := by
  induction locks generalizing height with
  | nil => exact le_max_right _ _
  | cons lock locks ih =>
    rw [lastPrune_cons]
    split
    · exact ih height
    · have := ih (max 1 (min height (lock - PRUNE_LOCK_BUFFER - 1)))
      omega

theorem lastPrune_nonneg {height : ℤ} (h : 0 ≤ height) (locks : List ℤ) :
    0 ≤ lastPrune height locks := by
  induction locks generalizing height with
  | nil => exact h
  | cons lock locks ih =>
    rw [lastPrune_cons]
    split
    · exact ih h
    · exact ih (by omega)

/-- **Every lock that is set limits the height.** -/
theorem lastPrune_le_lock (height : ℤ) {locks : List ℤ} {lock : ℤ} (hmem : lock ∈ locks)
    (hset : lock ≠ INT_MAX) :
    lastPrune height locks ≤ max 1 (lock - PRUNE_LOCK_BUFFER - 1) := by
  induction locks generalizing height with
  | nil => cases hmem
  | cons first locks ih =>
    rw [lastPrune_cons]
    rcases List.mem_cons.mp hmem with rfl | hmem
    · rw [if_neg hset]
      have := lastPrune_le_max (max 1 (min height (lock - PRUNE_LOCK_BUFFER - 1))) locks
      omega
    · exact ih _ hmem

/-! ## The loops -/

theorem pruneOneBlockFile_wp (fileNumber : ℕ) (st : PruneState) :
    wp (fun _ => True) (pruneOneBlockFile fileNumber)
      (fun _ st' => ∀ f, f ≠ fileNumber → st'.files.fileInfo f = st.files.fileInfo f) st := by
  rw [pruneOneBlockFile, wp_bind, wp_get]
  split
  · rename_i hlt
    rw [wp_set]
    intro f hf
    refine (fileInfo_modifyInfo hlt _ f).trans ?_
    rw [if_neg hf]
  · trivial

theorem pruned_cases {range : ℤ × ℤ} {fileNumber f : ℕ} {chosen : List ℕ} {st st' : PruneState}
    (hin : outOfRange (st.files.fileInfo fileNumber) range = false)
    (hsame : ∀ f, f ≠ fileNumber → st'.files.fileInfo f = st.files.fileInfo f)
    (h : f ∈ chosen.insert fileNumber ∨ outOfRange (st'.files.fileInfo f) range = false) :
    f ∈ chosen ∨ outOfRange (st.files.fileInfo f) range = false := by
  by_cases hf : f = fileNumber
  · subst hf
    exact .inr hin
  · rcases h with hmem | hout
    · exact .inl ((List.mem_insert_iff.mp hmem).resolve_left hf)
    · rw [hsame f hf] at hout
      exact .inr hout

/-- **The loop for a height chooses files within the range only.** -/
theorem pruneManualLoop_wp (range : ℤ × ℤ) (files chosen : List ℕ) (st : PruneState) :
    wp (fun _ => True) (pruneManualLoop range files chosen)
      (fun result _ => ∀ f ∈ result,
        f ∈ chosen ∨ outOfRange (st.files.fileInfo f) range = false) st := by
  induction files generalizing chosen st with
  | nil => exact fun f hf => .inl hf
  | cons fileNumber rest ih =>
    rw [pruneManualLoop, wp_bind, wp_get]
    dsimp only
    split
    · exact ih chosen st
    · rename_i hkeep
      have hin := Bool.eq_false_of_not_eq_true (not_or.mp hkeep).2
      rw [wp_bind]
      refine wp_mono (pruneOneBlockFile_wp fileNumber st) fun _ st' hsame => ?_
      exact wp_mono (ih (chosen.insert fileNumber) st') fun result _ h f hf =>
        pruned_cases hin hsame (h f hf)

/-- **So does the loop for a target.** -/
theorem pruneTargetLoop_wp (range : ℤ × ℤ) (target nBuffer : ℕ) (files : List ℕ)
    (nCurrentUsage : ℕ) (chosen : List ℕ) (st : PruneState) :
    wp (fun _ => True) (pruneTargetLoop range target nBuffer files nCurrentUsage chosen)
      (fun result _ => ∀ f ∈ result,
        f ∈ chosen ∨ outOfRange (st.files.fileInfo f) range = false) st := by
  induction files generalizing nCurrentUsage chosen st with
  | nil => exact fun f hf => .inl hf
  | cons fileNumber rest ih =>
    rw [pruneTargetLoop, wp_bind, wp_get]
    dsimp only
    split
    · exact ih nCurrentUsage chosen st
    split
    · exact fun f hf => .inl hf
    split
    · exact ih nCurrentUsage chosen st
    · rename_i hkeep
      have hin := Bool.eq_false_of_not_eq_true hkeep
      rw [wp_bind]
      refine wp_mono (pruneOneBlockFile_wp fileNumber st) fun _ st' hsame => ?_
      exact wp_mono (ih _ (chosen.insert fileNumber) st') fun result _ h f hf =>
        pruned_cases hin hsame (h f hf)

/-! ## The range -/

/-- The height up to which a file may be pruned: at most what the prune locks allow. -/
def ChosenBelow (ctx : PruneContext) (st : PruneState) (last : ℤ) (result : List ℕ) : Prop :=
  0 ≤ st.chain.chainHeight ∧ ∀ f ∈ result,
    outOfRange (st.files.fileInfo f) (getPruneRange ctx st.chain last) = false

variable (ctx : PruneContext)

theorem findFilesToPruneManual_wp (last : ℤ) (st : PruneState) :
    wp (fun _ => True) (findFilesToPruneManual ctx last)
      (fun result _ => result = [] ∨ ChosenBelow ctx st last result) st := by
  rw [findFilesToPruneManual, wp_bind, wp_get]
  split
  · split
    · exact .inl rfl
    · rename_i hheight
      refine wp_mono (pruneManualLoop_wp _ _ [] st) fun result _ h =>
        .inr ⟨not_lt.mp hheight, fun f hf => (h f hf).resolve_left List.not_mem_nil⟩
  · trivial

theorem findFilesToPrune_wp (last : ℤ) (st : PruneState) :
    wp (fun _ => True) (findFilesToPrune ctx last)
      (fun result _ => result = [] ∨ ChosenBelow ctx st last result) st := by
  rw [findFilesToPrune, wp_bind, wp_get]
  dsimp only
  generalize (max MIN_DISK_SPACE_FOR_BLOCK_FILES
    (ctx.pruneTarget / if ctx.historicalChainstate = true then 2 else 1)) = target
  split
  · exact .inl rfl
  · rename_i hheight
    split
    · exact .inl rfl
    split
    · refine wp_mono (pruneTargetLoop_wp _ _ _ _ _ [] st) fun result _ h =>
        .inr ⟨not_lt.mp (not_or.mp hheight).1,
          fun f hf => (h f hf).resolve_left List.not_mem_nil⟩
    · exact .inl rfl

/-- The files are chosen within a range below what the locks allow. -/
def ChosenBelowLocks (ctx : PruneContext) (st : PruneState) (result : List ℕ) : Prop :=
  ∃ last, last ≤ lastPrune st.chain.chainHeight ctx.m_prune_locks ∧
    (0 ≤ st.chain.chainHeight → 0 ≤ last) ∧ ChosenBelow ctx st last result

/-- **What `FlushStateToDisk` chooses is within a range below what the locks allow.** -/
theorem flushStateToDisk_wp (nManualPruneHeight : ℤ) (st : PruneState) :
    wp (fun _ => True) (flushStateToDisk ctx nManualPruneHeight)
      (fun result _ => result = [] ∨ ChosenBelowLocks ctx st result) st := by
  rw [flushStateToDisk, wp_bind, wp_get]
  dsimp only
  have hfinish (result : List ℕ) (st' : PruneState)
      (h : result = [] ∨ ChosenBelowLocks ctx st result) :
      wp (fun _ => True) (if result ≠ [] then do
          modify fun st => { st with m_have_pruned := true }
          pure result
        else pure result : PruneM (List ℕ))
        (fun result _ => result = [] ∨ ChosenBelowLocks ctx st result) st' := by
    split
    · exact h
    · exact h
  split
  · split
    · rename_i hmanual
      rw [wp_bind]
      refine wp_mono (findFilesToPruneManual_wp ctx _ st) fun result st' h =>
        hfinish result st' (h.imp_right fun hchosen =>
          ⟨_, min_le_left _ _, fun hheight => ?_, hchosen⟩)
      exact le_min (lastPrune_nonneg hheight _) hmanual.le
    · rw [wp_bind]
      refine wp_mono (findFilesToPrune_wp ctx _ st) fun result st' h => ?_
      rw [wp_bind, wp_modify]
      exact hfinish result _ (h.imp_right fun hchosen =>
        ⟨_, le_rfl, fun hheight => lastPrune_nonneg hheight _, hchosen⟩)
  · exact .inl rfl

/-! ## The blocks of the files -/

/-- The heights recorded for a file bound those of the blocks stored in it. -/
def StoredHeights (st : PruneState) : Prop :=
  ∀ p e, st.chain.m_block_index p = some e → e.nStatus.haveData = true →
    (st.files.fileInfo e.nFile).nHeightFirst ≤ e.nHeight ∧
      e.nHeight ≤ (st.files.fileInfo e.nFile).nHeightLast

/-- The heights are those that an `int` holds. -/
structure IntHeights (ctx : PruneContext) (st : PruneState) : Prop where
  chain : st.chain.chainHeight ≤ INT_MAX
  base : ∀ nHeight, ctx.unvalidatedSnapshotBase = some nHeight → (nHeight : ℤ) < INT_MAX

/-- A block that pruning may delete. -/
structure Prunable (ctx : PruneContext) (s : Chainstate) (nHeight : ℕ) : Prop where
  below_tip : (nHeight : ℤ) ≤ max (s.chainHeight - MIN_BLOCKS_TO_KEEP) 0
  below_locks : ∀ height_first ∈ ctx.m_prune_locks,
    (nHeight : ℤ) ≤ max 1 (height_first - PRUNE_LOCK_BUFFER - 1)
  from_start : ∀ last, (getPruneRange ctx s last).1 ≤ nHeight

theorem getPruneRange_spec {ctx : PruneContext} {st : PruneState} (hint : IntHeights ctx st)
    {last : ℤ} (hlast : 0 ≤ last) :
    (0 ≤ (getPruneRange ctx st.chain last).2 ∧
      (getPruneRange ctx st.chain last).2 ≤ max 0 last ∧
      (getPruneRange ctx st.chain last).2 ≤ max (st.chain.chainHeight - MIN_BLOCKS_TO_KEEP) 0 ∧
      (getPruneRange ctx st.chain last).2 ≤ INT_MAX - MIN_BLOCKS_TO_KEEP) ∧
    0 ≤ (getPruneRange ctx st.chain last).1 ∧ (getPruneRange ctx st.chain last).1 ≤ INT_MAX := by
  have hchain := hint.chain
  have hmax : (0 : ℤ) ≤ INT_MAX - MIN_BLOCKS_TO_KEEP := by decide
  rw [getPruneRange]
  split
  · dsimp only
    omega
  · dsimp only
    refine ⟨by omega, ?_⟩
    cases hbase : ctx.unvalidatedSnapshotBase with
    | none =>
      dsimp only
      omega
    | some nHeight =>
      have := hint.base nHeight hbase
      dsimp only
      omega

theorem getPruneRange_fst (s : Chainstate) (last last' : ℤ) :
    (getPruneRange ctx s last).1 = (getPruneRange ctx s last').1 := by
  rw [getPruneRange, getPruneRange]
  split <;> rfl

/-- **No file that `FlushStateToDisk` prunes has a block too close to the tip, above what a prune
lock allows, or below the start of the range.**
SOURCE: src/src/validation.cpp:3129-3193 -/
theorem flushStateToDisk_prunable (ctx : PruneContext) (nManualPruneHeight : ℤ) (st : PruneState)
    (hstored : StoredHeights st) (hint : IntHeights ctx st) (files : List ℕ) (st' : PruneState)
    (hrun : flushStateToDisk ctx nManualPruneHeight st = .ok (files, st')) :
    ∀ p e, st.chain.m_block_index p = some e → e.nStatus.haveData = true → e.nFile ∈ files →
      Prunable ctx st.chain e.nHeight := by
  intro p e he hdata hfile
  rcases wp_ok (flushStateToDisk_wp ctx nManualPruneHeight st) hrun with rfl | hchosen
  · cases hfile
  obtain ⟨last, hlast, hnonneg, hheight, hin⟩ := hchosen
  obtain ⟨⟨hend, hendlast, hendtip, hendmax⟩, hstart, hstartmax⟩ :=
    getPruneRange_spec hint (hnonneg hheight)
  obtain ⟨hfirst, hlastHeight⟩ := hstored p e he hdata
  have hrange := of_decide_eq_false (hin e.nFile hfile)
  have hmax : INT_MAX = 2147483647 := rfl
  have hkeep : (MIN_BLOCKS_TO_KEEP : ℤ) = 288 := rfl
  have hbuffer : PRUNE_LOCK_BUFFER = 10 := rfl
  rw [not_or, not_lt, not_lt, Int.emod_eq_of_lt hend (by omega),
    Int.emod_eq_of_lt hstart (by omega)] at hrange
  refine ⟨by omega, fun lock hlock => ?_, fun last' => ?_⟩
  · by_cases hset : lock = INT_MAX
    · omega
    · have hbelow := lastPrune_le_lock st.chain.chainHeight hlock hset
      omega
  · rw [getPruneRange_fst ctx st.chain last' last]
    omega

/-- The entry of a stored block of a height in a file. -/
def storedEntry (nHeight nFile : ℕ) : CBlockIndex where
  phashBlock := 1#256
  nHeight := nHeight
  nFile := nFile
  nStatus := { valid := .transactions, haveData := true }
  nVersion := 1
  hashMerkleRoot := 0#256
  nTime := 0#32
  nBits := 0#32
  nNonce := 0#32

/-- A block of height 5 in the first file and the tip, of height 1000, in the second. -/
def twoFiles : PruneState where
  chain := {
    m_block_index := fun p =>
      if p = 1#256 then some (storedEntry 5 0)
      else if p = 2#256 then some (storedEntry 1000 1)
      else none
    best_header := some 2#256
    m_tip := some 2#256 }
  files := {
    m_prune_mode := true
    m_blockfile_info := [
      { nBlocks := 1, nSize := 300, nHeightFirst := 5, nHeightLast := 5 },
      { nBlocks := 1, nSize := 300, nHeightFirst := 1000, nHeightLast := 1000 }]
    normal_cursor := some { file_num := 1 } }

theorem storedHeights_twoFiles : StoredHeights twoFiles := by
  intro p e he _
  simp only [twoFiles] at he
  split at he
  · cases he
    exact ⟨le_rfl, le_rfl⟩
  · split at he
    · cases he
      exact ⟨le_rfl, le_rfl⟩
    · cases he

theorem flushStateToDisk_prunable_twoFiles :
    ∃ st', flushStateToDisk { m_prune_locks := [50] } 100 twoFiles = .ok ([0], st') ∧
      Prunable { m_prune_locks := [50] } twoFiles.chain 5 := by
  have hrun : ∃ st', flushStateToDisk { m_prune_locks := [50] } 100 twoFiles = .ok ([0], st') :=
    ⟨_, rfl⟩
  obtain ⟨st', hrun⟩ := hrun
  exact ⟨st', hrun, flushStateToDisk_prunable _ 100 twoFiles storedHeights_twoFiles
    ⟨by decide, fun _ h => by cases h⟩ [0] st' hrun 1#256 (storedEntry 5 0) rfl rfl (by decide)⟩

end BitMinti.Analysis
