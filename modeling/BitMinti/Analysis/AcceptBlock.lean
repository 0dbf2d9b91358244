import BitMinti.Analysis.Chainstate

/-!
# Headers and blocks that come in

`AcceptBlockHeader` adds a leaf that is not marked to the tree; `AcceptBlock` marks a block or
stores it, and `ReceivedBlockTransactions` then links it with all the blocks that waited for it.
Each keeps `ChainInv`.

SOURCE: src/src/validation.cpp:4373-4455, 5083-5272
-/

set_option autoImplicit false

namespace BitMinti.Analysis

open Model Interface Computation.Ancestry Computation.StateExcept

/-! ## A new header -/

section Header

variable {σ : Type} {getPoWHash : PoWHash σ} {params : ConsensusParams}
  {getHash : CBlockHeader → Uint256} {now : ℤ} {min_pow_checked : Bool} {block : CBlockHeader}
  {bm : BlockManager} {pow : σ}

theorem checkNewHeader_unflagged
    (h : (checkNewHeader getPoWHash params bm now block pow).1 = .ok (.ok ())) :
    ∃ e, bm.m_block_index block.hashPrevBlock = some e ∧ e.nStatus.failed = false := by
  unfold checkNewHeader at h
  simp only [checkBlockHeader] at h
  split at h
  · cases h
  · rename_i e he
    split at h
    · cases h
    · rename_i hfailed
      exact ⟨e, he, Bool.not_eq_true _ ▸ hfailed⟩

/-- **What `AcceptBlockHeader` does to the index**: nothing, or it adds the header.
SOURCE: src/src/validation.cpp:5083-5154 -/
theorem acceptBlockHeader_cases {r : Except Fault (Except Invalid Uint256) × BlockManager × σ}
    (h : acceptBlockHeader getPoWHash params getHash now min_pow_checked block bm pow = r) :
    (r.2.1 = bm ∧ ∀ hash, r.1 = .ok (.ok hash) → ∃ e, bm.m_block_index hash = some e ∧
        (e.nStatus.failed = false ∨ hash = params.hashGenesisBlock)) ∨
      (bm.m_block_index (getHash block) = none ∧ addToBlockIndex getHash block bm = .ok r.2.1 ∧
        (∀ hash, r.1 = .ok (.ok hash) → hash = getHash block) ∧
        (getHash block = params.hashGenesisBlock ∨ ∃ e,
          bm.m_block_index block.hashPrevBlock = some e ∧ e.nStatus.failed = false)) := by
  subst h
  unfold acceptBlockHeader
  simp only
  split
  · -- the header is known
    rename_i e he
    left
    split
    · exact ⟨rfl, by simp⟩
    · rename_i hfailed
      refine ⟨rfl, fun hash hhash => ?_⟩
      cases hhash
      split at he
      · exact ⟨e, he, .inl (Bool.not_eq_true _ ▸ hfailed)⟩
      · cases he
  · rename_i hunknown
    split
    · exact .inl ⟨rfl, by simp⟩
    · exact .inl ⟨rfl, by simp⟩
    · rename_i hchecked
      split
      · exact .inl ⟨rfl, by simp⟩
      · obtain ⟨bm', hadd⟩ := addToBlockIndex_ok getHash block bm
        rw [hadd]
        rcases addToBlockIndex_cases hadd with ⟨hsome, rfl⟩ | ⟨hfresh, -⟩
        · -- the genesis block again
          obtain ⟨e, he⟩ := Option.isSome_iff_exists.mp hsome
          refine .inl ⟨rfl, fun hash hhash => ⟨e, ?_, .inr ?_⟩⟩
          · cases hhash
            exact he
          · cases hhash
            by_contra hne
            rw [if_pos hne, he] at hunknown
            cases hunknown
        · refine .inr ⟨hfresh, rfl, fun hash hhash => by cases hhash; rfl, ?_⟩
          by_cases hgenesis : getHash block = params.hashGenesisBlock
          · exact .inl hgenesis
          · rw [if_pos hgenesis] at hchecked
            exact .inr (@checkNewHeader_unflagged _ getPoWHash _ now _ _ _ hchecked)

end Header

/-! ## A leaf on the tree -/

/-- A new entry without flags and transactions, whose parent is not marked. -/
structure AddsLeaf {σ : Type} (n : Node σ) (s s' : Chainstate) (hash : Uint256) (e : CBlockIndex) :
    Prop where
  fresh : s.m_block_index hash = none
  index : s'.m_block_index = s.m_block_index.insert hash e
  hashes : s'.hashes = s.hashes ++ [hash]
  tree : TreeInv s'.m_block_index
  parent : ∀ p, e.pprev = some p → (s.m_block_index p).isSome ∧ s.failed p = false
  root : e.pprev = none → hash = n.params.hashGenesisBlock
  nStatus : e.nStatus = { valid := .tree }
  nTx : e.nTx = 0
  count : e.m_chain_tx_count = 0
  tip : s'.m_tip = s.m_tip
  candidates : s'.setBlockIndexCandidates = s.setBlockIndexCandidates
  unlinked : s'.m_blocks_unlinked = s.m_blocks_unlinked

namespace AddsLeaf

variable {σ : Type} {n : Node σ} {s s' : Chainstate} {hash h a : Uint256} {e : CBlockIndex}

section

variable (L : AddsLeaf n s s' hash e)

include L

theorem entry_self : s'.m_block_index hash = some e := by
  rw [L.index, BlockMap.insert_self]

theorem entry_of_ne (hne : h ≠ hash) :
    s'.m_block_index h = s.m_block_index h := by
  rw [L.index, BlockMap.insert_of_ne _ _ hne]

theorem ne_of_isSome (hh : (s.m_block_index h).isSome) : h ≠ hash := by
  rintro rfl
  rw [L.fresh] at hh
  cases hh

theorem isSome_iff : (s'.m_block_index h).isSome ↔ (s.m_block_index h).isSome ∨ h = hash := by
  by_cases hne : h = hash
  · subst hne
    simp [L.entry_self]
  · simp [L.entry_of_ne hne, hne]

/-- A field whose value for the leaf is the one for unknown blocks is the same
everywhere. -/
theorem field {α : Type} (f : CBlockIndex → α) {d : α} (hd : f e = d) (h : Uint256) :
    ((s'.m_block_index h).map f).getD d = ((s.m_block_index h).map f).getD d := by
  by_cases hne : h = hash
  · subst hne
    rw [L.entry_self, L.fresh, Option.map_some, Option.getD_some, hd]
    rfl
  · rw [L.entry_of_ne hne]

theorem nStatus_of_ne (hne : h ≠ hash) :
    s'.nStatus h = s.nStatus h := by
  rw [Chainstate.nStatus, Chainstate.nStatus, L.entry_of_ne hne]

theorem nStatus_self : s'.nStatus hash = { valid := .tree } := by
  rw [Chainstate.nStatus, L.entry_self, Option.map_some, Option.getD_some, L.nStatus]

theorem nStatus_fresh : s.nStatus hash = {} := by
  rw [Chainstate.nStatus, L.fresh]
  rfl

theorem flag {α : Type} (f : BlockStatus → α)
    (hf : f { valid := .tree } = f {}) (h : Uint256) : f (s'.nStatus h) = f (s.nStatus h) := by
  by_cases hne : h = hash
  · subst hne
    rw [L.nStatus_self, L.nStatus_fresh, hf]
  · rw [L.nStatus_of_ne hne]

theorem failed : s'.failed = s.failed :=
  funext fun h => L.flag BlockStatus.failed rfl h

theorem haveNumChainTxs : s'.haveNumChainTxs = s.haveNumChainTxs := by
  funext h
  rw [Chainstate.haveNumChainTxs, Chainstate.haveNumChainTxs, Chainstate.m_chain_tx_count,
    Chainstate.m_chain_tx_count, L.field (·.m_chain_tx_count) L.count h]

theorem nTx_eq : s'.nTx = s.nTx :=
  funext fun h => L.field (·.nTx) L.nTx h

theorem pprev_of_ne (hne : h ≠ hash) : s'.pprev h = s.pprev h := by
  rw [Chainstate.pprev, Chainstate.pprev, BlockMap.prev, BlockMap.prev, L.entry_of_ne hne]

theorem pprev_self : s'.pprev hash = e.pprev := by
  rw [Chainstate.pprev, BlockMap.prev_of L.entry_self]

theorem sortKey_of_ne (hne : h ≠ hash) :
    sortKey n.addr s' h = sortKey n.addr s h := by
  simp only [sortKey, Chainstate.nChainWork, Chainstate.nSequenceId, L.entry_of_ne hne]

theorem ancestor_iff (T : TreeInv s.m_block_index)
    (hh : (s.m_block_index h).isSome) : AncestorOf s'.pprev a h ↔ AncestorOf s.pprev a h := by
  have hup : ∀ k, up s'.pprev k h = up s.pprev k h := by
    intro k
    refine T.up_mono (fun j e' hj => ?_) hh k
    rw [L.entry_of_ne (L.ne_of_isSome (by rw [hj]; rfl)), hj]
  simp only [AncestorOf, hup]

theorem ancestor_self (T : TreeInv s.m_block_index) (ha : AncestorOf s'.pprev a hash) :
    a = hash ∨ ∃ p, e.pprev = some p ∧ AncestorOf s.pprev a p := by
  rcases ha.eq_or_parent with rfl | ⟨p, hp, hap⟩
  · exact .inl rfl
  · rw [L.pprev_self] at hp
    exact .inr ⟨p, hp, (L.ancestor_iff T (L.parent p hp).1).mp hap⟩

theorem blocksInv (I : BlocksInv n s) : BlocksInv n s' where
  tree := L.tree
  keys h := by
    rw [L.hashes, List.mem_append, List.mem_singleton, L.isSome_iff, I.keys]
  genesis h hh hroot := by
    by_cases hne : h = hash
    · subst hne
      exact L.root (by rwa [L.pprev_self] at hroot)
    · rw [L.pprev_of_ne hne] at hroot
      rw [L.entry_of_ne hne] at hh
      exact I.genesis h hh hroot
  level h hh := by
    by_cases hne : h = hash
    · subst hne
      rw [L.nStatus_self]
    · rw [L.nStatus_of_ne hne]
      exact I.level h (by rwa [L.entry_of_ne hne] at hh)
  counted h := by
    rw [L.flag (·.haveData) rfl h, L.nTx_eq]
    exact I.counted h
  data h := by
    rw [L.haveNumChainTxs, L.flag (·.haveData) rfl h]
    exact I.data h
  valid h hdata := by
    have hne : h ≠ hash := by
      rintro rfl
      rw [L.nStatus_self] at hdata
      cases hdata
    rw [L.nStatus_of_ne hne] at hdata ⊢
    exact I.valid h hdata
  linked h p htx hp := by
    rw [L.haveNumChainTxs] at htx ⊢
    rw [L.pprev_of_ne (L.ne_of_isSome (isSome_of_haveNumChainTxs htx))] at hp
    exact I.linked h p htx hp
  parked p h hmem := by
    rw [L.unlinked] at hmem
    obtain ⟨hp, hdata, hnotx⟩ := I.parked p h hmem
    refine ⟨?_, by rw [L.flag (·.haveData) rfl h, hdata], by rw [L.haveNumChainTxs, hnotx]⟩
    rw [L.pprev_of_ne (L.ne_of_isSome (isSome_of_pprev hp)), hp]
  waiting h := by
    rw [L.flag (·.haveData) rfl h, L.haveNumChainTxs, L.unlinked]
    exact I.waiting h
  nodup := by
    rw [L.unlinked]
    exact I.nodup

theorem flagsInv (T : TreeInv s.m_block_index) (F : FlagsInv s) :
    FlagsInv s' where
  closed a h hah ha := by
    rw [L.failed] at ha ⊢
    by_cases hh : h = hash
    · subst hh
      rcases L.ancestor_self T hah with rfl | ⟨p, hp, hap⟩
      · exact ha
      · have hparent := (L.parent p hp).2
        rw [F.closed a p hap ha] at hparent
        cases hparent
    · by_cases hmem : (s.m_block_index h).isSome
      · exact F.closed a h ((L.ancestor_iff T hmem).mp hah) ha
      · rcases hah.eq_or_parent with rfl | ⟨p, hp, -⟩
        · exact ha
        · rw [L.pprev_of_ne hh] at hp
          exact absurd (isSome_of_pprev hp) hmem
  root h hh := by
    rw [L.failed]
    by_cases hne : h = hash
    · subst hne
      rw [Chainstate.failed, L.nStatus_fresh]
      rfl
    · rw [L.pprev_of_ne hne] at hh
      exact F.root h hh

/-- **A new header keeps the invariant.** -/
theorem chainInv (I : ChainInv n s) : ChainInv n s' where
  blocks := L.blocksInv I.blocks
  flags := L.flagsInv I.blocks.tree I.flags
  tip t ht := by
    rw [L.tip] at ht
    obtain ⟨htx, hfailed, hconnects⟩ := I.tip t ht
    rw [L.haveNumChainTxs, L.failed]
    refine ⟨htx, hfailed, fun a ha => hconnects a ?_⟩
    exact (L.ancestor_iff I.blocks.tree (isSome_of_haveNumChainTxs htx)).mp ha
  candidates c hc := by
    rw [L.candidates] at hc
    rw [L.haveNumChainTxs]
    exact I.candidates c hc
  complete h htx hfailed hlast := by
    rw [L.haveNumChainTxs] at htx
    rw [L.failed] at hfailed
    rw [L.candidates]
    refine I.complete h htx hfailed fun t ht => ?_
    have hkey := hlast t (by rw [L.tip, ht])
    rwa [L.sortKey_of_ne (L.ne_of_isSome (isSome_of_haveNumChainTxs htx)), L.sortKey_of_ne
      (L.ne_of_isSome (isSome_of_haveNumChainTxs (I.tip t ht).1))] at hkey

theorem flagsJustified (T : TreeInv s.m_block_index)
    (J : FlagsJustified s) : FlagsJustified s' := by
  intro h hh
  rw [L.failed] at hh
  obtain ⟨a, hah, ha⟩ := J h hh
  exact ⟨a, (L.ancestor_iff T (isSome_of_failed hh)).mpr hah,
    by rw [L.flag (·.failedValid) rfl a, ha]⟩

end

end AddsLeaf

section Accept

variable {σ : Type} {n : Node σ} {s : Chainstate} {block : CBlockHeader} {bm : BlockManager}

theorem linkIndex_bare (getHash : CBlockHeader → Uint256) (m : BlockMap) (block : CBlockHeader)
    (work : ArithUint256) :
    (linkIndex getHash m block work).nStatus = { valid := .tree } ∧
      (linkIndex getHash m block work).nTx = 0 ∧
      (linkIndex getHash m block work).m_chain_tx_count = 0 := by
  unfold linkIndex
  split
  · simp [CBlockIndex.raiseValidity, CBlockIndex.ofHeader, BlockStatus.failed, BlockValidity.toNat]
  · simp [CBlockIndex.raiseValidity, CBlockIndex.ofHeader, BlockStatus.failed, BlockValidity.toNat]

theorem BlocksInv.empty_of_genesis (I : BlocksInv n s)
    (h : s.m_block_index n.params.hashGenesisBlock = none) : s.m_block_index = fun _ => none := by
  funext k
  by_contra hk
  have hmem := Option.isSome_iff_ne_none.mpr hk
  have hgenesis := (isSome_of_ancestor I.tree hmem (I.genesis_above hmem).1).1
  rw [h] at hgenesis
  cases hgenesis

theorem BlocksInv.addToBlockIndex (I : BlocksInv n s)
    (hfresh : s.m_block_index (n.getHash block) = none)
    (hparent : n.getHash block = n.params.hashGenesisBlock ∨
      ∃ e, s.m_block_index block.hashPrevBlock = some e ∧ e.nStatus.failed = false)
    (hadd : addToBlockIndex n.getHash block s.toBlockManager = .ok bm) :
    ∃ e work, bm.m_block_index = s.m_block_index.insert (n.getHash block) e ∧
      e = linkIndex n.getHash (s.m_block_index.insert (n.getHash block)
        (.ofHeader (n.getHash block) block)) block work ∧ TreeInv bm.m_block_index ∧
      (∀ p, e.pprev = some p → (s.m_block_index p).isSome ∧ s.failed p = false) ∧
      (e.pprev = none → n.getHash block = n.params.hashGenesisBlock) := by
  rcases addToBlockIndex_cases hadd with ⟨hsome, -⟩ | ⟨-, work, hbm⟩
  · change (s.m_block_index _).isSome at hsome
    rw [hfresh] at hsome
    cases hsome
  · refine ⟨_, work, hbm, rfl, ?_⟩
    by_cases hgenesis : n.getHash block = n.params.hashGenesisBlock
    · have hempty := I.empty_of_genesis (hgenesis ▸ hfresh)
      have hnoparent : s.m_block_index.insert (n.getHash block) (.ofHeader (n.getHash block) block)
          block.hashPrevBlock = none := by
        rw [BlockMap.insert_of_ne _ _ (hgenesis ▸ n.genesis_root block hgenesis), hempty]
      have hroot := @linkIndex_root n.getHash block _ hnoparent work
      refine ⟨?_, ?_, fun _ => hgenesis⟩
      · rw [hbm]
        exact I.tree.insert hfresh (linkIndex_fromHeader _ _ _ work).phashBlock (.inl hroot)
      · intro p hp
        rw [hroot.1] at hp
        cases hp
    · obtain ⟨ep, hep, hunflagged⟩ := hparent.resolve_left hgenesis
      obtain ⟨e, hbm', -, hprev, -, T⟩ := I.tree.addToBlockIndex_new hfresh hep hadd
      have heq := congrFun (hbm.symm.trans hbm') (n.getHash block)
      rw [BlockMap.insert_self, BlockMap.insert_self, Option.some_inj] at heq
      rw [heq]
      refine ⟨T, ?_, ?_⟩
      · intro p hp
        rw [hprev, Option.some_inj] at hp
        subst hp
        refine ⟨by rw [hep]; rfl, ?_⟩
        rw [Chainstate.failed, Chainstate.nStatus, hep]
        exact hunflagged
      · intro hnone
        rw [hprev] at hnone
        cases hnone

/-- **`AcceptBlockHeader` on a chainstate** leaves it as it is or adds a leaf; the block
it returns is in the index and not marked.
SOURCE: src/src/validation.cpp:5083-5154 -/
theorem acceptHeader_wp (I : ChainInv n s) (call : HeaderCall σ) :
    wp (fun _ => True) (acceptHeader n.toChainContext call)
      (fun r s' => (s' = s ∨ ∃ hash e, AddsLeaf n s s' hash e) ∧ ∀ hash, r = .ok hash →
        (s'.m_block_index hash).isSome ∧ s'.failed hash = false) s := by
  simp only [acceptHeader, wp_bind, wp_get]
  rcases hr : acceptBlockHeader n.getPoWHash n.params n.getHash call.now call.min_pow_checked
    call.block s.toBlockManager call.pow with ⟨accepted, bm, pow⟩
  have hcases := acceptBlockHeader_cases hr
  cases accepted with
  | error f => trivial
  | ok accepted =>
    rcases hcases with ⟨hbm, hhash⟩ | ⟨hfresh, hadd, hhash, hparent⟩
    · obtain rfl : bm = s.toBlockManager := hbm
      have hsame : ((s.m_block_index (n.getHash call.block)).isNone &&
          (s.m_block_index (n.getHash call.block)).isSome) = false := by
        cases s.m_block_index (n.getHash call.block) <;> rfl
      simp only [hsame, Bool.false_eq_true, if_false]
      refine ⟨.inl rfl, fun hash haccepted => ?_⟩
      subst haccepted
      obtain ⟨e, he, hunflagged⟩ := hhash hash rfl
      have hmem : (s.m_block_index hash).isSome := by rw [he]; rfl
      refine ⟨hmem, ?_⟩
      rcases hunflagged with hunflagged | rfl
      · rw [Chainstate.failed, Chainstate.nStatus, he]
        exact hunflagged
      · exact I.flags.root _ (I.blocks.genesis_above hmem).2
    · change s.m_block_index (n.getHash call.block) = none at hfresh
      obtain ⟨e, work, hindex, he, T, hprev, hroot⟩ := I.blocks.addToBlockIndex hfresh hparent hadd
      obtain ⟨hstatus, hnTx, hcount⟩ := linkIndex_bare n.getHash
        (s.m_block_index.insert (n.getHash call.block) (.ofHeader (n.getHash call.block) call.block))
        call.block work
      rw [← he] at hstatus hnTx hcount
      dsimp only at hindex T
      have hnew : ((s.m_block_index (n.getHash call.block)).isNone &&
          (bm.m_block_index (n.getHash call.block)).isSome) = true := by
        rw [hfresh, hindex, BlockMap.insert_self]
        rfl
      simp only [hnew, if_true, wp_bind, wp_set, wp_pure]
      have L : AddsLeaf n s { s with
          toBlockManager := bm
          hashes := s.hashes ++ [n.getHash call.block]
          m_dirty_blockindex := s.m_dirty_blockindex.insert (n.getHash call.block) }
          (n.getHash call.block) e :=
        ⟨hfresh, hindex, rfl, T, hprev, hroot, hstatus, hnTx, hcount, rfl, rfl, rfl⟩
      refine ⟨.inr ⟨_, e, L⟩, fun hash haccepted => ?_⟩
      subst haccepted
      obtain rfl := hhash hash rfl
      refine ⟨by rw [L.entry_self]; rfl, ?_⟩
      rw [L.failed, Chainstate.failed, L.nStatus_fresh]
      rfl

end Accept

/-! ## A block that is refused -/

section Refused

variable {σ : Type} {n : Node σ} {s s' : Chainstate} {p : Uint256}

/-- **Marking a block off the active chain keeps the invariant.** -/
theorem ChainInv.reflag (I : ChainInv n s) (R : Reflags (· = p) s s') (hroot : s.pprev p ≠ none)
    (hbelow : ∀ h, AncestorOf s.pprev p h → s'.failed h = true) (htip : s'.m_tip = s.m_tip)
    (hout : ∀ t, s.m_tip = some t → ¬ AncestorOf s.pprev p t)
    (hcands : ∀ c, c ∈ s'.setBlockIndexCandidates ↔ c ∈ s.setBlockIndexCandidates ∧ c ≠ p) :
    ChainInv n s' where
  blocks := I.blocks.same R.toSameBlocks
  flags := I.flags.below R hroot hbelow
  tip t ht := by
    rw [htip] at ht
    obtain ⟨htx, hfailed, hconnects⟩ := I.tip t ht
    have hkept : s'.failed t = s.failed t := by
      apply R.failed_of_good
      rintro q hqt rfl
      exact hout t ht hqt
    rw [R.haveNumChainTxs, hkept]
    exact ⟨htx, hfailed, R.chainConnects hconnects⟩
  candidates c hc := by
    rw [R.haveNumChainTxs]
    exact I.candidates c ((hcands c).mp hc).1
  complete h htx hfailed hlast := by
    rw [R.haveNumChainTxs] at htx
    rw [htip, R.sortKey] at hlast
    refine (hcands h).mpr ⟨I.complete h htx (R.unflagged hfailed) hlast, ?_⟩
    rintro rfl
    rw [hbelow h (.refl h)] at hfailed
    cases hfailed

theorem StateInv.not_active (I : StateInv n s) (hdata : (s.nStatus p).haveData = false) (t : Uint256)
    (ht : s.m_tip = some t) : ¬ AncestorOf s.pprev p t := by
  intro hpt
  rw [I.blocks.data p (I.blocks.linked_of_ancestor hpt (I.tip t ht).1)] at hdata
  cases hdata

/-- **`InvalidBlockFound` for a block that comes in** keeps the invariant.
SOURCE: src/src/validation.cpp:2312-2324 -/
theorem invalidBlockFound_received (I : ChainInv n s) (hmem : (s.m_block_index p).isSome)
    (hdata : (s.nStatus p).haveData = false) (result : BlockValidationResult) :
    wp (fun _ => True) (invalidBlockFound p result)
      (fun _ s' => ChainInv n s' ∧ (FlagsJustified s → FlagsJustified s')) s := by
  have hout := I.toStateInv.not_active hdata
  apply wp_mono (wp_weaken (invalidBlockFound_wp p result) fun _ _ => trivial)
  rintro - _ (⟨-, rfl⟩ | ⟨-, htip, best, worst, rfl⟩)
  · exact ⟨I, id⟩
  · have T := I.blocks.tree
    have R : Reflags (· = p) s
        { markInvalid p s with best_header := best, m_best_invalid := worst } :=
      (Reflags.markInvalid T hmem).trans (.of_index rfl rfl rfl)
    -- the root has data once there is a tip
    have hroot : s.pprev p ≠ none := by
      intro hnone
      obtain ⟨t, ht⟩ := Option.ne_none_iff_exists'.mp htip
      apply hout t ht
      rw [I.blocks.genesis p hmem hnone]
      exact (I.blocks.genesis_above (isSome_of_haveNumChainTxs (I.tip t ht).1)).1
    refine ⟨I.reflag R hroot ?_ rfl hout ?_, R.justified⟩
    · exact fun h hph => failed_markInvalid T hmem hph
    · exact fun c => List.mem_filter.trans (and_congr_right fun _ => bne_iff_ne)

end Refused

/-! ## Linking blocks -/

/-- The flags and the tree are the same. -/
structure SameFlags (s s' : Chainstate) : Prop where
  pprev : s'.pprev = s.pprev
  failed : s'.failed = s.failed
  failedValid : ∀ h, (s'.nStatus h).failedValid = (s.nStatus h).failedValid

namespace SameFlags

variable {s s' s'' : Chainstate}

theorem trans (S : SameFlags s s') (S' : SameFlags s' s'') : SameFlags s s'' :=
  ⟨S'.pprev.trans S.pprev, S'.failed.trans S.failed,
    fun h => (S'.failedValid h).trans (S.failedValid h)⟩

theorem of_nStatus (S : SameTree s s') (h : s'.nStatus = s.nStatus) : SameFlags s s' :=
  ⟨S.pprev, funext fun p => by rw [Chainstate.failed, Chainstate.failed, h], fun p => by rw [h]⟩

theorem justified (S : SameFlags s s') (J : FlagsJustified s) : FlagsJustified s' := by
  intro h hh
  rw [S.failed] at hh
  obtain ⟨a, hah, ha⟩ := J h hh
  exact ⟨a, by rwa [S.pprev], by rw [S.failedValid, ha]⟩

end SameFlags

section Linking

variable {σ : Type} (n : Node σ)

/-- What holds while the blocks in `queue` are about to be linked. -/
structure Linking (s : Chainstate) (queue : List Uint256) : Prop where
  stored : StoredInv n s
  waiting : ∀ h, (s.nStatus h).haveData = true → s.haveNumChainTxs h = false →
    (∃ p, (p, h) ∈ s.m_blocks_unlinked) ∨ h ∈ queue
  nodup : queue.Nodup
  queued : ∀ q ∈ queue, (s.nStatus q).haveData = true ∧ s.haveNumChainTxs q = false ∧
    ∀ p, s.pprev q = some p → s.haveNumChainTxs p = true
  flags : FlagsInv s
  tip : ∀ t, s.m_tip = some t →
    s.haveNumChainTxs t = true ∧ s.failed t = false ∧ ChainConnects n s t
  candidates : ∀ c ∈ s.setBlockIndexCandidates, s.haveNumChainTxs c = true
  complete : ∀ h, s.haveNumChainTxs h = true → s.failed h = false →
    (∀ t, s.m_tip = some t → sortKey n.addr s t ≤ sortKey n.addr s h) →
    h ∈ s.setBlockIndexCandidates

variable {n} {s s' : Chainstate} {p : Uint256}

theorem Linking.chainInv (L : Linking n s []) : ChainInv n s where
  blocks := ⟨L.stored, fun h hdata hnotx => by simpa using L.waiting h hdata hnotx⟩
  flags := L.flags
  tip := L.tip
  candidates := L.candidates
  complete := L.complete

/-- The blocks with data wait for a parent that counts its transactions. -/
abbrev BlocksWait (s : Chainstate) (queue : List Uint256) : Prop :=
  Computation.Waits s.pprev (fun h => (s.nStatus h).haveData = true)
    (fun h => s.haveNumChainTxs h = true) s.m_blocks_unlinked queue

theorem Linking.waits {queue : List Uint256} (L : Linking n s queue) : BlocksWait s queue :=
  ⟨L.stored.linked, by simpa only [Bool.not_eq_true] using L.stored.parked, L.stored.nodup,
    by simpa only [Bool.not_eq_true] using L.waiting, L.nodup,
    by simpa only [Bool.not_eq_true] using L.queued⟩

/-- What linking a block changes: the block counts its transactions and has a new sequence id, and
the blocks that waited for it leave `m_blocks_unlinked`. -/
structure Links (s s' : Chainstate) (p : Uint256) : Prop where
  tree : SameTree s s'
  nStatus : s'.nStatus = s.nStatus
  nTx : s'.nTx = s.nTx
  count : ∀ h, s'.haveNumChainTxs h = if h = p then true else s.haveNumChainTxs h
  sortKey : ∀ (addr : Uint256 → ℕ) h, h ≠ p → sortKey addr s' h = sortKey addr s h
  tip : s'.m_tip = s.m_tip
  unlinked : s'.m_blocks_unlinked = s.m_blocks_unlinked.filter fun entry => !entry.1 == p

theorem Writes.links {sum : ℕ} {seq : ℤ} (W : Writes s s' p fun e =>
      { e with m_chain_tx_count := sum, nSequenceId := seq })
    (hmem : (s.m_block_index p).isSome) (hsum : sum ≠ 0) (htip : s'.m_tip = s.m_tip)
    (hunlinked : s'.m_blocks_unlinked = s.m_blocks_unlinked.filter fun entry => !entry.1 == p) :
    Links s s' p where
  tree := W.sameTree fun _ _ => rfl
  nStatus := W.nStatus fun _ _ => rfl
  nTx := W.nTx fun _ _ => rfl
  count h := by
    split
    next heq =>
      subst heq
      obtain ⟨e, he⟩ := Option.isSome_iff_exists.mp hmem
      rw [Chainstate.haveNumChainTxs, Chainstate.m_chain_tx_count, W.entry_self he]
      exact bne_iff_ne.mpr hsum
    next hne => exact haveNumChainTxs_of_count (W.m_chain_tx_count_of_ne hne)
  sortKey addr _ := W.sortKey_of_ne addr
  tip := htip
  unlinked := hunlinked

theorem Links.sameFlags (K : Links s s' p) : SameFlags s s' := .of_nStatus K.tree K.nStatus

theorem Links.haveNumChainTxs (K : Links s s' p) {h : Uint256} (hh : s.haveNumChainTxs h = true) :
    s'.haveNumChainTxs h = true := by
  rw [K.count, hh, ite_self]

theorem Links.storedInv (K : Links s s' p) (I : StoredInv n s)
    (hdata : (s.nStatus p).haveData = true) {queue : List Uint256} (W : BlocksWait s' queue) :
    StoredInv n s' where
  tree := K.tree.tree I.tree
  keys h := by rw [K.tree.hashes, K.tree.isSome, I.keys]
  genesis h := by
    rw [K.tree.isSome, K.tree.pprev]
    exact I.genesis h
  level h := by
    rw [K.tree.isSome, K.nStatus]
    exact I.level h
  counted h := by
    rw [K.nStatus, K.nTx]
    exact I.counted h
  data h htx := by
    rw [K.nStatus]
    rw [K.count] at htx
    split at htx
    · rename_i heq
      rw [heq, hdata]
    · exact I.data h htx
  valid h := by
    rw [K.nStatus]
    exact I.valid h
  linked := W.closed
  parked := by simpa only [Bool.not_eq_true] using W.parked
  nodup := W.nodup

/-- **A round of the queue** links its first block. -/
theorem Linking.round {rest : List Uint256} (L : Linking n s (p :: rest)) (K : Links s s' p)
    (hcands : ∀ c, c ∈ s'.setBlockIndexCandidates ↔ c ∈ s.setBlockIndexCandidates ∨
      (c = p ∧ ∀ t, s.m_tip = some t → sortKey n.addr s' t ≤ sortKey n.addr s' p)) :
    Linking n s' (rest ++ ((s.m_blocks_unlinked.filter fun entry => entry.1 == p).map (·.2))) := by
  obtain ⟨hdata, hnotx, -⟩ := L.queued p List.mem_cons_self
  have W : BlocksWait s'
      (rest ++ ((s.m_blocks_unlinked.filter fun entry => entry.1 == p).map (·.2))) := by
    rw [BlocksWait, K.tree.pprev, K.nStatus, K.unlinked]
    refine L.waits.link fun h => ?_
    rw [K.count]
    split_ifs with heq <;> simp [heq]
  refine ⟨K.storedInv L.stored hdata W, by simpa only [Bool.not_eq_true] using W.missing,
    W.queue_nodup, by simpa only [Bool.not_eq_true] using W.queued,
    L.flags.of_flags K.tree.pprev K.sameFlags.failed, ?_, ?_, ?_⟩
  · intro t ht
    rw [K.tip] at ht
    obtain ⟨htx, hfailed, hconnects⟩ := L.tip t ht
    refine ⟨K.haveNumChainTxs htx, by rw [K.sameFlags.failed, hfailed], fun a ha => hconnects a ?_⟩
    rwa [K.tree.pprev] at ha
  · intro c hc
    rcases (hcands c).mp hc with hc | ⟨rfl, -⟩
    · exact K.haveNumChainTxs (L.candidates c hc)
    · rw [K.count, if_pos rfl]
  · intro h htx hfailed hlast
    rw [K.tip] at hlast
    rw [hcands]
    by_cases hne : h = p
    · exact .inr ⟨hne, hne ▸ hlast⟩
    · left
      rw [K.count, if_neg hne] at htx
      rw [K.sameFlags.failed] at hfailed
      refine L.complete h htx hfailed fun t ht => ?_
      have htne : t ≠ p := by
        rintro rfl
        rw [(L.tip t ht).1] at hnotx
        cases hnotx
      have hkey := hlast t ht
      rwa [K.sortKey _ t htne, K.sortKey _ h hne] at hkey

/-- **`TryAddBlockIndexCandidate` adds a block that does not sort before the tip.**
SOURCE: src/src/validation.cpp:4373-4397 -/
theorem tryAddBlockIndexCandidate_eq (addr : Uint256 → ℕ) (p : Uint256) (s : Chainstate) :
    ∃ cands, tryAddBlockIndexCandidate addr p s = { s with setBlockIndexCandidates := cands } ∧
      ∀ c, c ∈ cands ↔ c ∈ s.setBlockIndexCandidates ∨
        (c = p ∧ ∀ t, s.m_tip = some t → sortKey addr s t ≤ sortKey addr s p) := by
  unfold tryAddBlockIndexCandidate
  split
  · rename_i hbefore
    obtain ⟨t, ht, hlt⟩ := (Option.any_eq_true _ _).mp hbefore
    refine ⟨_, rfl, fun c => ⟨.inl, ?_⟩⟩
    rintro (hc | ⟨-, hle⟩)
    · exact hc
    · exact absurd ((workComparator_iff addr s p t).mp hlt) (hle t ht).not_gt
  · rename_i hnot
    refine ⟨_, rfl, fun c => ?_⟩
    have hle : ∀ t, s.m_tip = some t → sortKey addr s t ≤ sortKey addr s p := by
      intro t ht
      rw [ht, Option.any_some, Bool.not_eq_true] at hnot
      exact (workComparator_false_iff addr s p t).mp hnot
    rw [List.mem_insert_iff, or_comm, and_iff_left hle]

/-- What linking a block writes besides the candidates. -/
theorem linkBlock_writes (addr : Uint256 → ℕ) (p : Uint256) (s : Chainstate) :
    Writes s (linkBlock addr p s) p (fun e =>
        { e with m_chain_tx_count := prevTxSum s p, nSequenceId := s.nBlockSequenceId }) ∧
      (linkBlock addr p s).m_tip = s.m_tip ∧
      (linkBlock addr p s).m_blocks_unlinked = s.m_blocks_unlinked ∧
      ∀ c, c ∈ (linkBlock addr p s).setBlockIndexCandidates ↔ c ∈ s.setBlockIndexCandidates ∨
        (c = p ∧ ∀ t, s.m_tip = some t →
          sortKey addr (linkBlock addr p s) t ≤ sortKey addr (linkBlock addr p s) p) := by
  obtain ⟨cands, heq, hcands⟩ := tryAddBlockIndexCandidate_eq addr p
    { s.modifyEntry p fun e => { e with
        m_chain_tx_count := prevTxSum s p, nSequenceId := s.nBlockSequenceId } with
      nBlockSequenceId := s.nBlockSequenceId + 1 }
  have hlink : linkBlock addr p s = _ := heq
  rw [hlink]
  exact ⟨⟨rfl, fun _ => rfl⟩, rfl, rfl, hcands⟩

/-- **The queue of `ReceivedBlockTransactions` empties**, and keeps what every round keeps. -/
theorem linkQueue_rule (addr : Uint256 → ℕ) {I : Chainstate → List Uint256 → Prop}
    (hround : ∀ s p rest, I s (p :: rest) → I
      { linkBlock addr p s with
        m_blocks_unlinked := s.m_blocks_unlinked.filter fun entry => !entry.1 == p }
      (rest ++ (s.m_blocks_unlinked.filter fun entry => entry.1 == p).map (·.2)))
    (fuel : ℕ) {queue : List Uint256} {s : Chainstate} (h : I s queue)
    (hfuel : queue.length + s.m_blocks_unlinked.length ≤ fuel) :
    wp (fun _ => False) (linkQueue addr fuel queue) (fun _ s' => I s' []) s := by
  induction fuel generalizing queue s with
  | zero =>
    obtain rfl : queue = [] := List.length_eq_zero_iff.mp (by omega)
    rw [linkQueue]
    exact h
  | succ fuel ih =>
    cases queue with
    | nil =>
      rw [linkQueue]
      exact h
    | cons p rest =>
      simp only [linkQueue, wp_bind, wp_modify, wp_get, List.partition_eq_filter_filter, wp_set,
        (linkBlock_writes addr p s).2.2.1, Function.comp_def]
      refine ih (hround s p rest h) ?_
      have hlen : s.m_blocks_unlinked.length = _ :=
        List.length_eq_length_filter_add fun entry => entry.1 == p
      rw [List.length_cons] at hfuel
      simp only [List.length_append, List.length_map]
      omega

/-- **The queue links every block that waited.**
SOURCE: src/src/validation.cpp:4415-4451 -/
theorem linkQueue_wp (fuel : ℕ) {queue : List Uint256} (L : Linking n s queue)
    (hfuel : queue.length + s.m_blocks_unlinked.length ≤ fuel) :
    wp (fun _ => False) (linkQueue n.addr fuel queue)
      (fun _ s' => ChainInv n s' ∧ SameFlags s s') s := by
  refine wp_mono (linkQueue_rule n.addr (I := fun s' queue => Linking n s' queue ∧ SameFlags s s')
    ?_ fuel ⟨L, rfl, rfl, fun _ => rfl⟩ hfuel) fun _ s' hs' => ⟨hs'.1.chainInv, hs'.2⟩
  rintro s₁ p rest ⟨L, S⟩
  obtain ⟨hdata, -, -⟩ := L.queued p List.mem_cons_self
  obtain ⟨W, htip, -, hcands⟩ := linkBlock_writes n.addr p s₁
  have hsum : prevTxSum s₁ p ≠ 0 := by
    have := L.stored.counted p hdata
    rw [prevTxSum]
    omega
  have K : Links s₁
      { linkBlock n.addr p s₁ with
        m_blocks_unlinked := s₁.m_blocks_unlinked.filter fun entry => !entry.1 == p } p :=
    Writes.links ⟨W.hashes, W.entry⟩ (isSome_of_haveData hdata) hsum htip rfl
  exact ⟨L.round K hcands, S.trans K.sameFlags⟩

end Linking

/-! ## A block that is stored -/

/-- What writing the data of a block changes. -/
structure Stores (s s' : Chainstate) (p : Uint256) : Prop where
  tree : SameTree s s'
  nStatus_of_ne : ∀ h, h ≠ p → s'.nStatus h = s.nStatus h
  haveData : (s'.nStatus p).haveData = true
  valid : BlockValidity.transactions.toNat ≤ (s'.nStatus p).valid.toNat
  flags : SameFlags s s'
  nTx_of_ne : ∀ h, h ≠ p → s'.nTx h = s.nTx h
  nTx : 0 < s'.nTx p
  count : s'.haveNumChainTxs = s.haveNumChainTxs
  sortKey : ∀ addr : Uint256 → ℕ, sortKey addr s' = sortKey addr s
  tip : s'.m_tip = s.m_tip
  candidates : s'.setBlockIndexCandidates = s.setBlockIndexCandidates

section Storing

variable {σ : Type} {n : Node σ} {s s' : Chainstate} {p : Uint256} {size : ℕ}

theorem receiveEntry_eq (params : ConsensusParams) (size : ℕ) (pos : FlatFilePos)
    (prevChainTx : ℕ) {e : CBlockIndex} (hcount : e.m_chain_tx_count = 0) :
    ∃ st : BlockStatus, receiveEntry params size pos prevChainTx e =
        { e with
          nTx := size, nFile := pos.nFile, nDataPos := pos.nPos, nUndoPos := 0, nStatus := st } ∧
      st.haveData = true ∧ e.nStatus.valid.toNat ≤ st.valid.toNat ∧
      (e.nStatus.failed = false → BlockValidity.transactions.toNat ≤ st.valid.toNat) ∧
      st.failedValid = e.nStatus.failedValid ∧ st.failedChild = e.nStatus.failedChild := by
  unfold receiveEntry CBlockIndex.raiseValidity
  simp only [hcount, true_or, if_true]
  split
  next hfailed =>
    exact ⟨_, rfl, rfl, le_rfl, fun h => absurd (h.symm.trans hfailed) Bool.false_ne_true, rfl, rfl⟩
  next =>
    split
    next hlt => exact ⟨_, rfl, rfl, hlt.le, fun _ => le_rfl, rfl, rfl⟩
    next hvalid => exact ⟨_, rfl, rfl, le_rfl, fun _ => not_lt.mp hvalid, rfl, rfl⟩

/-- What `ReceivedBlockTransactions` writes first. -/
structure Receives (s s' : Chainstate) (p : Uint256) (size : ℕ) : Prop where
  tree : SameTree s s'
  nStatus_of_ne : ∀ h, h ≠ p → s'.nStatus h = s.nStatus h
  haveData : (s'.nStatus p).haveData = true
  valid_le : (s.nStatus p).valid.toNat ≤ (s'.nStatus p).valid.toNat
  valid : s.failed p = false → BlockValidity.transactions.toNat ≤ (s'.nStatus p).valid.toNat
  flags : SameFlags s s'
  nTx_of_ne : ∀ h, h ≠ p → s'.nTx h = s.nTx h
  nTx : s'.nTx p = size
  count : s'.m_chain_tx_count = s.m_chain_tx_count
  sortKey : ∀ addr : Uint256 → ℕ, sortKey addr s' = sortKey addr s

theorem Writes.receives {params : ConsensusParams} {pos : FlatFilePos} {prevChainTx : ℕ}
    (W : Writes s s' p (receiveEntry params size pos prevChainTx))
    (hmem : (s.m_block_index p).isSome) (hcount : s.m_chain_tx_count p = 0) :
    Receives s s' p size := by
  obtain ⟨e, he⟩ := Option.isSome_iff_exists.mp hmem
  rw [Chainstate.m_chain_tx_count, he] at hcount
  obtain ⟨st, hentry, hdata, hle, hvalid, hfv, hfc⟩ :=
    receiveEntry_eq params size pos prevChainTx hcount
  have hkept {α : Type} (g : CBlockIndex → α) (hg : g { e with
      nTx := size, nFile := pos.nFile, nDataPos := pos.nPos, nUndoPos := 0, nStatus := st } = g e) :
      ∀ e', s.m_block_index p = some e' →
        g (receiveEntry params size pos prevChainTx e') = g e' := by
    intro e' he'
    rw [← Option.some_inj.mp (he.symm.trans he'), hentry, hg]
  have T := W.sameTree (hkept treeEntry rfl)
  have hself := W.entry_self he
  rw [hentry] at hself
  have hnew : s'.nStatus p = st := by rw [Chainstate.nStatus, hself]; rfl
  have hold : s.nStatus p = e.nStatus := by rw [Chainstate.nStatus, he]; rfl
  have hst : ∀ h, h ≠ p → s'.nStatus h = s.nStatus h := fun h hne => by
    rw [Chainstate.nStatus, Chainstate.nStatus, W.entry_of_ne hne]
  refine ⟨T, hst, hnew ▸ hdata, hnew ▸ hold ▸ hle, ?_, ⟨T.pprev, ?_, ?_⟩, fun h hne => ?_, ?_,
    W.m_chain_tx_count (hkept (·.m_chain_tx_count) rfl), fun addr => ?_⟩
  · rw [hnew, Chainstate.failed, hold]
    exact hvalid
  · funext h
    by_cases hne : h = p
    · rw [hne, Chainstate.failed, Chainstate.failed, hnew, hold, BlockStatus.failed,
        BlockStatus.failed, hfv, hfc]
    · rw [Chainstate.failed, Chainstate.failed, hst h hne]
  · intro h
    by_cases hne : h = p
    · rw [hne, hnew, hold, hfv]
    · rw [hst h hne]
  · rw [Chainstate.nTx, Chainstate.nTx, W.entry_of_ne hne]
  · rw [Chainstate.nTx, hself]
    rfl
  · funext h
    simp only [Analysis.sortKey, T.nChainWork, Chainstate.nSequenceId]
    rw [W.field (·.nSequenceId) (hkept _ rfl) h]

theorem Receives.stores (R : Receives s s' p size) (hfailed : s.failed p = false)
    (hsize : 0 < size) (htip : s'.m_tip = s.m_tip)
    (hcands : s'.setBlockIndexCandidates = s.setBlockIndexCandidates) : Stores s s' p :=
  ⟨R.tree, R.nStatus_of_ne, R.haveData, R.valid hfailed, R.flags, R.nTx_of_ne, R.nTx ▸ hsize,
    funext fun _ => haveNumChainTxs_of_count (congrFun R.count _), R.sortKey, htip, hcands⟩

/-- What an arrival changes besides the counts: the block has data, and its number of
transactions. -/
structure ArrivesAt (s s' : Chainstate) (p : Uint256) (size : ℕ) : Prop where
  tree : SameTree s s'
  failed : s'.failed = s.failed
  valid : ∀ h, (s.nStatus h).valid.toNat ≤ (s'.nStatus h).valid.toNat
  haveData : ∀ h, (s'.nStatus h).haveData = true ↔ h = p ∨ (s.nStatus h).haveData = true
  nTx_self : s'.nTx p = size
  nTx_of_ne : ∀ h, h ≠ p → s'.nTx h = s.nTx h

theorem ArrivesAt.isValid (A : ArrivesAt s s' p size) {q : Uint256}
    (hq : s.isValid q .tree = true) : s'.isValid q .tree = true := by
  rw [Chainstate.isValid, Bool.and_eq_true, decide_eq_true_eq] at hq ⊢
  rw [A.failed]
  exact ⟨hq.1, hq.2.trans (A.valid q)⟩

theorem Receives.arrivesAt (R : Receives s s' p size) : ArrivesAt s s' p size where
  tree := R.tree
  failed := R.flags.failed
  valid h := by
    by_cases hne : h = p
    · exact hne ▸ R.valid_le
    · rw [R.nStatus_of_ne h hne]
  haveData h := by
    by_cases hne : h = p
    · exact iff_of_true (hne ▸ R.haveData) (.inl hne)
    · rw [R.nStatus_of_ne h hne, or_iff_right hne]
  nTx_self := R.nTx
  nTx_of_ne := R.nTx_of_ne

/-- **`ReceivedBlockTransactions` writes the data of the block**, and then links the block or
lets it wait for its parent.
SOURCE: src/src/validation.cpp:4399-4455 -/
theorem receivedBlockTransactions_rule (addr : Uint256 → ℕ) (params : ConsensusParams)
    (pos : FlatFilePos) {Q : Unit → Chainstate → Prop} (hmem : (s.m_block_index p).isSome)
    (hcount : s.m_chain_tx_count p = 0)
    (hvalid : ∀ q, s.pprev p = some q → s.isValid q .tree = true)
    (hnext : ∀ s₁, Receives s s₁ p size → s₁.m_tip = s.m_tip →
      s₁.setBlockIndexCandidates = s.setBlockIndexCandidates →
      (s₁.m_blocks_unlinked = s.m_blocks_unlinked →
        (∀ q, s.pprev p = some q → s.haveNumChainTxs q = true) →
        wp (fun _ => False) (linkQueue addr (s₁.m_blocks_unlinked.length + 1) [p]) Q s₁) ∧
      ∀ q, s.pprev p = some q → s.haveNumChainTxs q = false →
        s₁.m_blocks_unlinked = s.m_blocks_unlinked ++ [(q, p)] → Q () s₁) :
    wp (fun _ => False) (receivedBlockTransactions addr params size p pos) Q s := by
  rw [receivedBlockTransactions, wp_bind, wp_modify]
  generalize hs₁ : ({ s.modifyEntry p (receiveEntry params size pos
      (((s.pprev p).map s.m_chain_tx_count).getD 0)) with
      m_dirty_blockindex := s.m_dirty_blockindex.insert p } : Chainstate) = s₁
  have hunlinked : s₁.m_blocks_unlinked = s.m_blocks_unlinked := by rw [← hs₁]; rfl
  have htip : s₁.m_tip = s.m_tip := by rw [← hs₁]; rfl
  have hcands : s₁.setBlockIndexCandidates = s.setBlockIndexCandidates := by rw [← hs₁]; rfl
  have W : Writes s s₁ p _ := ⟨by rw [← hs₁]; rfl, fun h => by rw [← hs₁]; rfl⟩
  have R := W.receives hmem hcount
  have hlink := (hnext s₁ R htip hcands).1 hunlinked
  simp only [wp_bind, wp_get, R.tree.pprev]
  cases hprev : s.pprev p with
  | none => exact hlink fun q hq => by rw [hprev] at hq; cases hq
  | some q =>
    simp only [haveNumChainTxs_of_count (congrFun R.count q)]
    split
    · rename_i hqtx
      apply hlink
      intro r hr
      rw [hprev, Option.some_inj] at hr
      rw [← hr, hqtx]
    · rename_i hqnotx
      rw [if_pos (R.arrivesAt.isValid (hvalid q hprev)), wp_set]
      have R' : Receives s { s₁ with m_blocks_unlinked := s₁.m_blocks_unlinked ++ [(q, p)] } p
          size :=
        ⟨⟨R.tree.hashes, R.tree.entries⟩, R.nStatus_of_ne, R.haveData, R.valid_le, R.valid,
          ⟨R.flags.pprev, R.flags.failed, R.flags.failedValid⟩, R.nTx_of_ne, R.nTx, R.count,
          R.sortKey⟩
      refine (hnext _ R' htip hcands).2 q hprev (Bool.not_eq_true _ ▸ hqnotx) ?_
      rw [← hunlinked]

theorem Stores.storedInv (K : Stores s s' p) (I : StoredInv n s) {queue : List Uint256}
    (W : BlocksWait s' queue) : StoredInv n s' where
  tree := K.tree.tree I.tree
  keys h := by rw [K.tree.hashes, K.tree.isSome, I.keys]
  genesis h := by
    rw [K.tree.isSome, K.tree.pprev]
    exact I.genesis h
  level h hh := by
    by_cases hne : h = p
    · subst hne
      exact le_trans (by decide) K.valid
    · rw [K.nStatus_of_ne h hne]
      exact I.level h (by rwa [K.tree.isSome] at hh)
  counted h hdata := by
    by_cases hne : h = p
    · subst hne
      exact K.nTx
    · rw [K.nTx_of_ne h hne]
      exact I.counted h (by rwa [K.nStatus_of_ne h hne] at hdata)
  data h htx := by
    by_cases hne : h = p
    · rw [hne, K.haveData]
    · rw [K.nStatus_of_ne h hne]
      exact I.data h (by rwa [K.count] at htx)
  valid h hdata := by
    by_cases hne : h = p
    · subst hne
      exact K.valid
    · rw [K.nStatus_of_ne h hne] at hdata ⊢
      exact I.valid h hdata
  linked := W.closed
  parked := by simpa only [Bool.not_eq_true] using W.parked
  nodup := W.nodup

theorem Stores.linking (K : Stores s s' p) (I : ChainInv n s) {queue : List Uint256}
    (W : BlocksWait s' queue) : Linking n s' queue where
  stored := K.storedInv I.blocks.toStoredInv W
  waiting := by simpa only [Bool.not_eq_true] using W.missing
  nodup := W.queue_nodup
  queued := by simpa only [Bool.not_eq_true] using W.queued
  flags := I.flags.of_flags K.flags.pprev K.flags.failed
  tip t ht := by
    rw [K.tip] at ht
    obtain ⟨htx, hfailed, hconnects⟩ := I.tip t ht
    rw [K.count, K.flags.failed]
    refine ⟨htx, hfailed, fun a ha => hconnects a ?_⟩
    rwa [K.tree.pprev] at ha
  candidates c hc := by
    rw [K.candidates] at hc
    rw [K.count]
    exact I.candidates c hc
  complete := by
    rw [K.count, K.flags.failed, K.tip, K.sortKey, K.candidates]
    exact I.complete

/-- **`ReceivedBlockTransactions` keeps the invariant** and ends.
SOURCE: src/src/validation.cpp:4399-4455 -/
theorem receivedBlockTransactions_wp (I : ChainInv n s) (pos : FlatFilePos)
    (hmem : (s.m_block_index p).isSome) (hfailed : s.failed p = false)
    (hdata : (s.nStatus p).haveData = false) (hsize : 0 < size) :
    wp (fun _ => False) (receivedBlockTransactions n.addr n.params size p pos)
      (fun _ s' => ChainInv n s' ∧ SameFlags s s') s := by
  have hnew : ¬ (s.nStatus p).haveData = true := by rw [hdata]; exact Bool.false_ne_true
  have hnotx : ¬ s.haveNumChainTxs p = true := fun htx => hnew (I.blocks.data p htx)
  have hcount : s.m_chain_tx_count p = 0 := by simpa [Chainstate.haveNumChainTxs] using hnotx
  have hwaits : BlocksWait s [] := Linking.waits ⟨I.blocks.toStoredInv,
    fun h hhdata hhnotx => .inl (I.blocks.waiting h hhdata hhnotx), List.nodup_nil,
    fun _ hq => absurd hq List.not_mem_nil, I.flags, I.tip, I.candidates, I.complete⟩
  -- the parent is valid as a header
  have hvalid : ∀ q, s.pprev p = some q → s.isValid q .tree = true := by
    intro q hprev
    have hlevel := I.blocks.level q (I.blocks.tree.graded.parent p q hmem hprev).1
    rw [Chainstate.isValid, I.flags.unflagged_of_ancestor (.parent hprev) hfailed,
      decide_eq_true hlevel]
    rfl
  refine receivedBlockTransactions_rule n.addr n.params pos hmem hcount hvalid
    fun s₁ R htip hcands => ?_
  have K := R.stores hfailed hsize htip hcands
  refine ⟨fun hunlinked hparent => ?_, fun q hprev hqnotx hunlinked => ?_⟩
  · have W : BlocksWait s₁ [p] := by
      rw [BlocksWait, K.tree.pprev, K.count, hunlinked]
      exact hwaits.arrive_linked R.arrivesAt.haveData hnotx hparent
    apply wp_mono (linkQueue_wp _ (K.linking I W) (by simp [Nat.add_comm]))
    exact fun _ s' hs' => ⟨hs'.1, K.flags.trans hs'.2⟩
  · have W : BlocksWait s₁ [] := by
      rw [BlocksWait, K.tree.pprev, K.count, hunlinked]
      exact hwaits.arrive_waiting hnew R.arrivesAt.haveData hprev (Bool.not_eq_true _ ▸ hqnotx)
    exact ⟨(K.linking I W).chainInv, K.flags⟩

/-- **`AcceptBlockHeader` keeps the invariant.** -/
theorem acceptHeader_chainInv (I : ChainInv n s) (call : HeaderCall σ) :
    wp (fun _ => True) (acceptHeader n.toChainContext call)
      (fun _ s' => ChainInv n s' ∧ (FlagsJustified s → FlagsJustified s')) s := by
  apply wp_mono (acceptHeader_wp I call)
  rintro - s' ⟨rfl | ⟨hash, e, L⟩, -⟩
  · exact ⟨I, id⟩
  · exact ⟨L.chainInv I, L.flagsJustified I.blocks.tree⟩

/-- **`AcceptBlock` keeps the invariant.**
SOURCE: src/src/validation.cpp:5156-5272 -/
theorem acceptBlock_chainInv (I : ChainInv n s) (call : BlockCall σ) :
    wp (fun _ => True) (acceptBlock n.addr n.toChainContext call)
      (fun _ s' => ChainInv n s' ∧ (FlagsJustified s → FlagsJustified s')) s := by
  simp only [acceptBlock, wp_bind]
  apply wp_mono (acceptHeader_wp I call.toHeaderCall)
  rintro r s₁ ⟨hs₁, hknown⟩
  have I₁ : ChainInv n s₁ ∧ (FlagsJustified s → FlagsJustified s₁) := by
    rcases hs₁ with rfl | ⟨hash, e, L⟩
    · exact ⟨I, id⟩
    · exact ⟨L.chainInv I, L.flagsJustified I.blocks.tree⟩
  cases r with
  | error invalid => exact I₁
  | ok p =>
    obtain ⟨hmem, hfailed⟩ := hknown p rfl
    cases hverdict : call.verdict with
    | error invalid =>
      simp only [wp_bind, wp_get]
      split
      · exact I₁
      · rename_i hdata
        split
        · exact I₁
        · simp only [wp_bind]
          apply wp_mono (invalidBlockFound_received I₁.1 hmem (Bool.not_eq_true _ ▸ hdata)
            invalid.result)
          exact fun _ s' hs' => ⟨hs'.1, hs'.2 ∘ I₁.2⟩
    | ok u =>
      simp only [wp_bind, wp_get]
      split
      · exact I₁
      · rename_i hdata
        split
        · exact I₁
        · simp only [wp_bind]
          apply wp_mono (wp_weaken (receivedBlockTransactions_wp I₁.1 call.pos hmem hfailed
            (Bool.not_eq_true _ ▸ hdata) (call.nonempty hverdict)) fun _ => False.elim)
          exact fun _ s' hs' => ⟨hs'.1, fun J => hs'.2.justified (I₁.2 J)⟩

end Storing

end BitMinti.Analysis
