import BitMinti.Interface.BlockAssembler

/-!
# Blocks are filled with whole chunks within the limits

Adding an entry keeps the account of the block, so adding a chunk does.  A chunk is added when the
size that is reported for it fits, which is at least what its entries weigh.  The chunks that are
taken are, in their order, some of those the builder had left.

SOURCE: src/src/node/miner.cpp:79-118, 196-291
-/

set_option autoImplicit false

namespace BitMinti.Analysis

open Model Interface

/-! ## The builder -/

theorem sublist_next (b : BlockBuilder) : b.next.chunks.Sublist b.chunks.tail :=
  List.dropWhile_sublist _

theorem sublist_skip (b : BlockBuilder) : b.skip.chunks.Sublist b.chunks.tail := by
  rw [BlockBuilder.skip]
  split
  · exact sublist_next b
  · split
    · exact sublist_next b
    · exact sublist_next { b with excluded := _ }

/-! ## The options -/

theorem le_clamp {v lo hi : ℕ} (h : lo ≤ hi) : lo ≤ Model.clamp v lo hi := by
  rw [Model.clamp]
  split_ifs <;> omega

theorem clamp_le {v lo hi : ℕ} (h : lo ≤ hi) : Model.clamp v lo hi ≤ hi := by
  rw [Model.clamp]
  split_ifs <;> omega

theorem clampOptions_spec (options : AssemblerOptions) :
    (clampOptions options).block_reserved_weight ≤ (clampOptions options).nBlockMaxWeight ∧
      (clampOptions options).nBlockMaxWeight ≤ MAX_BLOCK_WEIGHT ∧
      ((clampOptions options).coinbase_output_max_additional_sigops : ℤ) ≤
        MAX_BLOCK_SIGOPS_COST := by
  have hreserved : Model.clamp options.block_reserved_weight MINIMUM_BLOCK_RESERVED_WEIGHT
      MAX_BLOCK_WEIGHT ≤ MAX_BLOCK_WEIGHT := clamp_le (by decide)
  refine ⟨le_clamp hreserved, clamp_le hreserved, ?_⟩
  have hsigops : Model.clamp options.coinbase_output_max_additional_sigops 0
      MAX_BLOCK_SIGOPS_COST.toNat ≤ MAX_BLOCK_SIGOPS_COST.toNat := clamp_le (Nat.zero_le _)
  exact Int.le_toNat (by decide) |>.mp hsigops

/-! ## The account -/

section Accounts

variable {m_options : AssemblerOptions} {selected : List CTxMemPoolEntry} {s : BlockAssembler}

theorem accounts_resetBlock (m_options : AssemblerOptions) :
    Accounts m_options [] (resetBlock m_options) where
  vtx := rfl
  vTxFees := rfl
  vTxSigOpsCost := rfl
  nBlockTx := rfl
  nFees := rfl
  nBlockWeight := rfl
  nBlockSigOpsCost := rfl

theorem accounts_addToBlock (h : Accounts m_options selected s) (entry : CTxMemPoolEntry) :
    Accounts m_options (selected ++ [entry]) (addToBlock s entry) where
  vtx := by
    rw [addToBlock, List.map_append, h.vtx]
    rfl
  vTxFees := by
    rw [addToBlock, List.map_append, h.vTxFees]
    rfl
  vTxSigOpsCost := by
    rw [addToBlock, List.map_append, h.vTxSigOpsCost]
    rfl
  nBlockTx := by
    rw [addToBlock, List.length_append, h.nBlockTx]
    rfl
  nFees := by
    rw [addToBlock, List.map_append, List.sum_append, h.nFees]
    simp
  nBlockWeight := by
    rw [addToBlock, totalWeight, List.map_append, List.sum_append, h.nBlockWeight, totalWeight]
    simp [Nat.add_assoc]
  nBlockSigOpsCost := by
    rw [addToBlock, totalSigOps, List.map_append, List.sum_append, h.nBlockSigOpsCost, totalSigOps]
    simp [Nat.add_assoc]

theorem accounts_foldl_addToBlock (entries : List CTxMemPoolEntry)
    (h : Accounts m_options selected s) :
    Accounts m_options (selected ++ entries) (entries.foldl addToBlock s) := by
  induction entries generalizing selected s with
  | nil =>
    rw [List.append_nil]
    exact h
  | cons entry entries ih =>
    have hnext := ih (accounts_addToBlock h entry)
    rw [List.append_assoc] at hnext
    exact hnext

theorem totalWeight_append (l l' : List CTxMemPoolEntry) :
    totalWeight (l ++ l') = totalWeight l + totalWeight l' := by
  rw [totalWeight, List.map_append, List.sum_append]
  rfl

theorem totalSigOps_append (l l' : List CTxMemPoolEntry) :
    totalSigOps (l ++ l') = totalSigOps l + totalSigOps l' := by
  rw [totalSigOps, List.map_append, List.sum_append]
  rfl

theorem chunkSigOps_eq (entries : List CTxMemPoolEntry) :
    chunkSigOps entries = totalSigOps entries := by
  rw [chunkSigOps, totalSigOps, List.sum_eq_foldl, List.foldl_map]

end Accounts

/-! ## The loop -/

section Loop

variable {m_options : AssemblerOptions} {nHeight m_lock_time_cutoff : ℤ}

variable {s : BlockAssembler}

theorem testChunkBlockLimits_iff {feerate : FeeFrac} {sigops : ℕ} :
    testChunkBlockLimits m_options s feerate sigops = true ↔
      s.nBlockWeight + feerate.size < m_options.nBlockMaxWeight ∧
        (s.nBlockSigOpsCost + sigops : ℤ) < MAX_BLOCK_SIGOPS_COST := by
  rw [testChunkBlockLimits]
  split_ifs with hweight hsigops
  · simp only [false_iff]
    omega
  · simp only [false_iff]
    omega
  · simp only [true_iff]
    omega

/-- **A chunk that passes the tests may be added.** -/
theorem filledWith_addChunk {selected entries : List CTxMemPoolEntry}
    {feerate : FeeFrac} (hs : FilledWith m_options nHeight m_lock_time_cutoff selected s)
    (hweights : (totalWeight entries : ℤ) ≤ feerate.size)
    (hlimits : testChunkBlockLimits m_options s feerate (chunkSigOps entries) = true)
    (hfinal : testChunkTransactions nHeight m_lock_time_cutoff entries = true)
    (feerates : List FeeFrac) :
    FilledWith m_options nHeight m_lock_time_cutoff (selected ++ entries)
      { entries.foldl addToBlock s with m_package_feerates := feerates } := by
  obtain ⟨hweight, hsigops⟩ := testChunkBlockLimits_iff.mp hlimits
  have hadded := accounts_foldl_addToBlock entries hs.accounts
  have hw := hadded.nBlockWeight
  have ho := hadded.nBlockSigOpsCost
  rw [totalWeight_append, ← Nat.add_assoc, ← hs.accounts.nBlockWeight] at hw
  rw [totalSigOps_append, ← Nat.add_assoc, ← hs.accounts.nBlockSigOpsCost, ← chunkSigOps_eq] at ho
  have hlt : (entries.foldl addToBlock s).nBlockWeight < m_options.nBlockMaxWeight := by
    omega
  have hlt' : ((entries.foldl addToBlock s).nBlockSigOpsCost : ℤ) < MAX_BLOCK_SIGOPS_COST := by
    omega
  refine ⟨⟨hadded.vtx, hadded.vTxFees, hadded.vTxSigOpsCost, hadded.nBlockTx, hadded.nFees,
    hadded.nBlockWeight, hadded.nBlockSigOpsCost⟩, ⟨hlt.le, fun _ => hlt, hlt'.le, fun _ => hlt'⟩,
    fun entry hentry => ?_⟩
  rcases List.mem_append.mp hentry with hold | hnew
  · exact hs.final entry hold
  · exact List.all_eq_true.mp hfinal entry hnew

variable (m_options nHeight m_lock_time_cutoff) in
/-- The block is filled with what was selected before and some chunks of a list, in their order. -/
def FilledFrom (chunks : List BuilderChunk) (selected : List CTxMemPoolEntry)
    (s : BlockAssembler) : Prop :=
  ∃ taken : List BuilderChunk, taken.Sublist chunks ∧
    FilledWith m_options nHeight m_lock_time_cutoff (selected ++ taken.flatMap (·.entries)) s

variable {selected : List CTxMemPoolEntry}

theorem FilledFrom.stop {chunks : List BuilderChunk}
    (hs : FilledWith m_options nHeight m_lock_time_cutoff selected s) :
    FilledFrom m_options nHeight m_lock_time_cutoff chunks selected s :=
  ⟨[], List.nil_sublist _, by rwa [List.flatMap_nil, List.append_nil]⟩

theorem FilledFrom.skip {chunks chunks' : List BuilderChunk} (hsub : chunks.Sublist chunks')
    (h : FilledFrom m_options nHeight m_lock_time_cutoff chunks selected s) :
    FilledFrom m_options nHeight m_lock_time_cutoff chunks' selected s := by
  obtain ⟨taken, htaken, hs⟩ := h
  exact ⟨taken, htaken.trans hsub, hs⟩

theorem FilledFrom.take {chunk : BuilderChunk} {chunks rest : List BuilderChunk}
    (hsub : chunks.Sublist rest)
    (h : FilledFrom m_options nHeight m_lock_time_cutoff chunks (selected ++ chunk.entries) s) :
    FilledFrom m_options nHeight m_lock_time_cutoff (chunk :: rest) selected s := by
  obtain ⟨taken, htaken, hs⟩ := h
  refine ⟨chunk :: taken, (htaken.trans hsub).cons_cons chunk, ?_⟩
  rw [List.flatMap_cons, ← List.append_assoc]
  exact hs

/-- **The loop takes some of the chunks that are left, in their order.** -/
theorem addChunksLoop_filledFrom (b : BlockBuilder) (nConsecutiveFailed : ℕ) (s : BlockAssembler)
    (selected : List CTxMemPoolEntry) (hweights : ReportsWeights b.chunks)
    (hs : FilledWith m_options nHeight m_lock_time_cutoff selected s) :
    FilledFrom m_options nHeight m_lock_time_cutoff b.chunks selected
      (addChunksLoop m_options nHeight m_lock_time_cutoff b nConsecutiveFailed s) := by
  induction hn : b.chunks.length using Nat.strong_induction_on
    generalizing b nConsecutiveFailed s selected with
  | _ n ih =>
    subst hn
    rw [addChunksLoop]
    split
    · exact .stop hs
    · rename_i chunk hchunk
      obtain ⟨rest, hrest⟩ := List.head?_eq_some_iff.mp hchunk
      have htail : b.chunks.tail = rest := by rw [hrest, List.tail_cons]
      have hnext := sublist_next b
      have hskip := sublist_skip b
      rw [htail] at hnext hskip
      have hsub : rest.Sublist b.chunks := hrest ▸ List.sublist_cons_self chunk rest
      split
      · exact .stop hs
      split
      · exact .stop hs
      split
      · split
        · exact .stop hs
        · exact .skip (hskip.trans hsub) (ih _ (BlockBuilder.length_skip_lt hchunk) b.skip _ s
            selected (fun c hc => hweights c ((hskip.trans hsub).subset hc)) hs rfl)
      · rename_i htests
        rw [Bool.or_eq_true, Bool.not_eq_true', Bool.not_eq_true', not_or,
          Bool.not_eq_false, Bool.not_eq_false] at htests
        have hmem : chunk ∈ b.chunks := hrest ▸ List.mem_cons_self
        have hadded := filledWith_addChunk hs (hweights chunk hmem) htests.1 htests.2
        rw [hrest]
        exact .take hnext (ih _ (BlockBuilder.length_next_lt hchunk) b.includeChunk 0 _ _
          (fun c hc => hweights c ((hnext.trans hsub).subset hc)) (hadded _) rfl)

end Loop

/-! ## The block -/

theorem wholeChunks_of_sublist {chunks taken : List BuilderChunk} (hsub : taken.Sublist chunks)
    (hdisjoint : chunks.Pairwise fun c d => c.entries.Disjoint d.entries) :
    WholeChunks chunks (taken.flatMap (·.entries)) := by
  intro chunk hchunk
  by_cases htaken : chunk ∈ taken
  · exact .inl fun entry hentry => List.mem_flatMap.mpr ⟨chunk, htaken, hentry⟩
  · refine .inr fun entry hentry hmem => ?_
    obtain ⟨other, hother, hin⟩ := List.mem_flatMap.mp hmem
    have hne : chunk ≠ other := fun h => htaken (h ▸ hother)
    have : Std.Symm fun c d : BuilderChunk => c.entries.Disjoint d.entries := ⟨fun _ _ h => h.symm⟩
    exact hdisjoint.forall hchunk (hsub.subset hother) hne hentry hin

/-- **`addChunks` ends with a block that consists of whole chunks, has their totals and is within
its limits, and below them when a transaction has been selected.**
SOURCE: src/src/node/miner.cpp:79-118, 196-291 -/
theorem addChunks_filledWith (options : AssemblerOptions) (nHeight m_lock_time_cutoff : ℤ)
    (chunks : List BuilderChunk) (hweights : ReportsWeights chunks) :
    ∃ taken : List BuilderChunk, taken.Sublist chunks ∧
      FilledWith (clampOptions options) nHeight m_lock_time_cutoff (taken.flatMap (·.entries))
        (addChunks (clampOptions options) nHeight m_lock_time_cutoff chunks) ∧
      (clampOptions options).nBlockMaxWeight ≤ MAX_BLOCK_WEIGHT ∧
      ((chunks.Pairwise fun c d => c.entries.Disjoint d.entries) →
        WholeChunks chunks (taken.flatMap (·.entries))) := by
  obtain ⟨hreserved, hmax, hsigops⟩ := clampOptions_spec options
  have hstart : FilledWith (clampOptions options) nHeight m_lock_time_cutoff []
      (resetBlock (clampOptions options)) :=
    ⟨accounts_resetBlock _, ⟨hreserved, fun h => absurd rfl h, hsigops, fun h => absurd rfl h⟩,
      fun _ h => absurd h List.not_mem_nil⟩
  obtain ⟨taken, hsub, hfilled⟩ := addChunksLoop_filledFrom ⟨chunks, []⟩ 0 _ [] hweights hstart
  exact ⟨taken, hsub, hfilled, hmax, wholeChunks_of_sublist hsub⟩

/-- A transaction that is always final. -/
def sampleEntry (nTxWeight : ℕ) : CTxMemPoolEntry where
  tx := { version := 2, vin := [], vout := [], nLockTime := 0#32 }
  nFee := 1000
  nTxWeight := nTxWeight
  sigOpCost := 4

/-- A chunk of one transaction and a chunk of two. -/
def sampleChunks : List BuilderChunk :=
  [⟨[sampleEntry 400], ⟨1000, 400⟩, 0, true⟩,
    ⟨[sampleEntry 600, sampleEntry 800], ⟨2000, 1400⟩, 1, true⟩]

theorem addChunks_filledWith_sampleChunks :
    ∃ taken : List BuilderChunk, taken.Sublist sampleChunks ∧
      FilledWith (clampOptions ⟨8000, 400, 4000000, ⟨1, 1000⟩⟩) 200 0 (taken.flatMap (·.entries))
        (addChunks (clampOptions ⟨8000, 400, 4000000, ⟨1, 1000⟩⟩) 200 0 sampleChunks) ∧
      (clampOptions ⟨8000, 400, 4000000, ⟨1, 1000⟩⟩).nBlockMaxWeight ≤ MAX_BLOCK_WEIGHT ∧
      ((sampleChunks.Pairwise fun c d => c.entries.Disjoint d.entries) →
        WholeChunks sampleChunks (taken.flatMap (·.entries))) :=
  addChunks_filledWith _ _ _ _ (by simp [ReportsWeights, sampleChunks, totalWeight, sampleEntry])

theorem addChunks_not_below_limits :
    (addChunks (clampOptions ⟨4000000, 80000, 4000000, ⟨1, 1000⟩⟩) 200 0 []).nBlockWeight =
        (clampOptions ⟨4000000, 80000, 4000000, ⟨1, 1000⟩⟩).nBlockMaxWeight ∧
      ((addChunks (clampOptions ⟨4000000, 80000, 4000000, ⟨1, 1000⟩⟩) 200 0 []).nBlockSigOpsCost :
        ℤ) = MAX_BLOCK_SIGOPS_COST := by
  rw [addChunks, addChunksLoop]
  exact ⟨by decide, by decide⟩

end BitMinti.Analysis
