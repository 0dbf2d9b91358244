import BitMinti.Analysis.ChainRuns

/-!
# Blocks whose data arrives in any order

`ReceivedBlockTransactions` links a block when its parent is linked and lets it wait in
`m_blocks_unlinked` otherwise; the queue then links the blocks that waited.  Whatever the order of
arrival, a block counts its transactions as soon as it and all its ancestors have data, and
`m_blocks_unlinked` lists the others.

SOURCE: src/src/validation.cpp:4399-4455, 6394-6442
-/

set_option autoImplicit false

namespace BitMinti.Analysis

open Model Interface BitMinti.Computation Computation.Ancestry Computation.StateExcept

/-! ## Linking -/

/-- What holds while the blocks in `queue` are about to be linked. -/
abbrev LinksUp (s : Chainstate) (queue : List Uint256) : Prop :=
  LinkUp s.pprev (fun h => (s.nStatus h).haveData = true) s.nTx s.m_chain_tx_count
    s.m_blocks_unlinked queue

/-- Nothing is written but counts and sequence ids. -/
structure Relinks (s s' : Chainstate) : Prop where
  tree : SameTree s s'
  nStatus : s'.nStatus = s.nStatus
  nTx : s'.nTx = s.nTx

theorem Relinks.refl (s : Chainstate) : Relinks s s := ⟨⟨rfl, fun _ => rfl⟩, rfl, rfl⟩

theorem Relinks.trans {s s' s'' : Chainstate} (R : Relinks s s') (R' : Relinks s' s'') :
    Relinks s s'' :=
  ⟨R.tree.trans R'.tree, R'.nStatus.trans R.nStatus, R'.nTx.trans R.nTx⟩

variable {s : Chainstate}

theorem prevTxSum_eq (s : Chainstate) (p : Uint256) :
    prevTxSum s p = s.nTx p + (s.pprev p).elim 0 s.m_chain_tx_count := by
  rw [prevTxSum]
  cases s.pprev p <;> rfl

variable (addr : Uint256 → ℕ)

/-- **The queue links every block that waited.**
SOURCE: src/src/validation.cpp:4415-4451 -/
theorem linkQueue_linked (fuel : ℕ) {queue : List Uint256} (L : LinksUp s queue)
    (hfuel : queue.length + s.m_blocks_unlinked.length ≤ fuel) :
    wp (fun _ => False) (linkQueue addr fuel queue)
      (fun _ s' => LinksUp s' [] ∧ Relinks s s') s := by
  refine linkQueue_rule addr (I := fun s' queue => LinksUp s' queue ∧ Relinks s s') ?_ fuel
    ⟨L, .refl s⟩ hfuel
  rintro s₁ p rest ⟨L, R⟩
  obtain ⟨hdata, -, -⟩ := L.queued p List.mem_cons_self
  obtain ⟨e, he⟩ := Option.isSome_iff_exists.mp (isSome_of_haveData hdata)
  obtain ⟨W, -⟩ := linkBlock_writes addr p s₁
  have R' : Relinks s₁
      { linkBlock addr p s₁ with
        m_blocks_unlinked := s₁.m_blocks_unlinked.filter fun entry => !entry.1 == p } :=
    ⟨⟨W.hashes, W.field treeEntry fun _ _ => rfl⟩, W.nStatus fun _ _ => rfl, W.nTx fun _ _ => rfl⟩
  have hself : (linkBlock addr p s₁).m_chain_tx_count p = prevTxSum s₁ p := by
    rw [Chainstate.m_chain_tx_count, W.entry_self he]
    rfl
  refine ⟨?_, R.trans R'⟩
  rw [LinksUp, R'.tree.pprev, R'.nStatus, R'.nTx]
  exact L.link (hself.trans (prevTxSum_eq s₁ p)) fun _ => W.m_chain_tx_count_of_ne

/-! ## Arrivals -/

section Arrivals

variable {s s' : Chainstate} {p : Uint256} {size : ℕ}

theorem ArrivesAt.relinks {s'' : Chainstate} (R : ArrivesAt s s' p size) (L : Relinks s' s'') :
    ArrivesAt s s'' p size where
  tree := R.tree.trans L.tree
  failed := by
    funext h
    rw [← R.failed, Chainstate.failed, Chainstate.failed, L.nStatus]
  valid := by
    rw [L.nStatus]
    exact R.valid
  haveData := by
    rw [L.nStatus]
    exact R.haveData
  nTx_self := by rw [L.nTx, R.nTx_self]
  nTx_of_ne := by
    rw [L.nTx]
    exact R.nTx_of_ne

/-- **`ReceivedBlockTransactions` links the block, or lets it wait for its parent.**
SOURCE: src/src/validation.cpp:4399-4455 -/
theorem receivedBlockTransactions_linked (addr : Uint256 → ℕ) (params : ConsensusParams)
    (pos : FlatFilePos) (L : LinksUp s []) (hmem : (s.m_block_index p).isSome)
    (hnew : (s.nStatus p).haveData = false) (hsize : 0 < size)
    (hvalid : ∀ q, s.pprev p = some q → s.isValid q .tree = true) :
    wp (fun _ => False) (receivedBlockTransactions addr params size p pos)
      (fun _ s' => LinksUp s' [] ∧ ArrivesAt s s' p size) s := by
  have hnew' : ¬ (s.nStatus p).haveData = true := by rw [hnew]; exact Bool.false_ne_true
  refine receivedBlockTransactions_rule addr params pos hmem (L.count_of_new hnew') hvalid
    fun s₁ R _ _ => ?_
  have A := R.arrivesAt
  have hpos : 0 < s₁.nTx p := by rw [A.nTx_self]; exact hsize
  refine ⟨fun hunlinked hparent => ?_, fun q hprev hq hunlinked => ⟨?_, A⟩⟩
  · have L₁ : LinksUp s₁ [p] := by
      rw [LinksUp, A.tree.pprev, R.count, hunlinked]
      exact L.arrive_linked hnew' A.haveData A.nTx_of_ne hpos fun q hq =>
        bne_iff_ne.mp (hparent q hq)
    apply wp_mono (linkQueue_linked addr _ L₁ (by simp [Nat.add_comm]))
    exact fun _ s' hs' => ⟨hs'.1, A.relinks hs'.2⟩
  · have hzero : s.m_chain_tx_count q = 0 := by simpa [Chainstate.haveNumChainTxs] using hq
    rw [LinksUp, A.tree.pprev, R.count, hunlinked]
    exact L.arrive_waiting hnew' A.haveData A.nTx_of_ne hpos hprev hzero

/-- **The data of blocks arriving one after the other** leaves every block linked that
can be. -/
theorem receiveAll_wp (addr : Uint256 → ℕ) (params : ConsensusParams) (arrivals : List Arrival)
    (L : LinksUp s []) (hnodup : (arrivals.map (·.hash)).Nodup)
    (hmem : ∀ a ∈ arrivals, (s.m_block_index a.hash).isSome)
    (hnew : ∀ a ∈ arrivals, (s.nStatus a.hash).haveData = false)
    (hvalid : ∀ a ∈ arrivals, ∀ q, s.pprev a.hash = some q → s.isValid q .tree = true) :
    wp (fun _ => False) (receiveAll addr params arrivals) (fun _ s' => LinksUp s' [] ∧
      SameTree s s' ∧ (∀ h, (s'.nStatus h).haveData = true ↔
        h ∈ arrivals.map (·.hash) ∨ (s.nStatus h).haveData = true) ∧
      (∀ a ∈ arrivals, s'.nTx a.hash = a.size) ∧
      ∀ h, h ∉ arrivals.map (·.hash) → s'.nTx h = s.nTx h) s := by
  induction arrivals generalizing s with
  | nil =>
    refine ⟨L, ⟨rfl, fun _ => rfl⟩, fun h => ?_, fun a ha => absurd ha List.not_mem_nil,
      fun _ _ => rfl⟩
    exact (or_iff_right List.not_mem_nil).symm
  | cons a rest ih =>
    rw [List.map_cons, List.nodup_cons] at hnodup
    rw [receiveAll, List.forM_eq_forM, List.forM_cons, wp_bind]
    apply wp_mono (receivedBlockTransactions_linked addr params a.pos L
      (hmem a List.mem_cons_self) (hnew a List.mem_cons_self) a.nonempty
      (hvalid a List.mem_cons_self))
    rintro - s₁ ⟨L₁, A⟩
    have hne : ∀ b ∈ rest, b.hash ≠ a.hash := fun b hb heq =>
      hnodup.1 (heq ▸ List.mem_map_of_mem hb)
    refine wp_mono (ih L₁ hnodup.2 (fun b hb => ?_) (fun b hb => ?_) (fun b hb q hq => ?_)) ?_
    · rw [A.tree.isSome]
      exact hmem b (List.mem_cons_of_mem a hb)
    · rw [← Bool.not_eq_true, A.haveData, not_or, Bool.not_eq_true]
      exact ⟨hne b hb, hnew b (List.mem_cons_of_mem a hb)⟩
    · rw [A.tree.pprev] at hq
      exact A.isValid (hvalid b (List.mem_cons_of_mem a hb) q hq)
    · rintro - s₂ ⟨L₂, T, hdata, hnTx, hother⟩
      refine ⟨L₂, A.tree.trans T, fun h => ?_, List.forall_mem_cons.mpr ⟨?_, hnTx⟩, fun h hh => ?_⟩
      · rw [hdata, A.haveData, List.map_cons, List.mem_cons]
        tauto
      · rw [hother _ hnodup.1, A.nTx_self]
      · rw [List.map_cons, List.mem_cons, not_or] at hh
        rw [hother h hh.2, A.nTx_of_ne h hh.1]

/-- A block tree no data of which has arrived, as `AddToBlockIndex` leaves it. -/
structure HeadersOnly (s : Chainstate) : Prop where
  tree : Graded s.pprev (fun h => (s.m_block_index h).isSome) s.nHeight
  level : ∀ h, (s.m_block_index h).isSome → BlockValidity.tree.toNat ≤ (s.nStatus h).valid.toNat
  noData : ∀ h, (s.nStatus h).haveData = false
  uncounted : ∀ h, s.m_chain_tx_count h = 0
  unlinked : s.m_blocks_unlinked = []

theorem HeadersOnly.linksUp (H : HeadersOnly s) : LinksUp s [] := by
  rw [LinksUp, H.unlinked]
  refine LinkUp.start (fun h => ?_) H.uncounted
  rw [H.noData]
  exact Bool.false_ne_true

theorem LinksUp.linkedAsArrived (L : LinksUp s [])
    (G : Graded s.pprev (fun h => (s.m_block_index h).isSome) s.nHeight) {arrivals : List Arrival}
    (hdata : ∀ h, (s.nStatus h).haveData = true ↔ h ∈ arrivals.map (·.hash))
    (hnTx : ∀ a ∈ arrivals, s.nTx a.hash = a.size) : LinkedAsArrived arrivals s := by
  have hcounted : ∀ h, s.m_chain_tx_count h ≠ 0 ↔ ChainHasData s h := by
    intro h
    constructor
    · intro hcount
      have hsome := isSome_of_haveData (L.counted h hcount).1
      exact ⟨hsome, (L.count_ne_zero_iff G hsome).mp hcount⟩
    · rintro ⟨hsome, hall⟩
      exact (L.count_ne_zero_iff G hsome).mpr hall
  refine ⟨hdata, hnTx, hcounted, fun h hh => ?_, fun p h => ?_, L.nodup⟩
  · exact L.count_eq_chainSum G hh.1 ((hcounted h).mpr hh)
  · rw [L.mem_waiting_iff G fun k hk => isSome_of_haveData hk]
    simp only [Bool.not_eq_true]

end Arrivals

/-- **Whatever the order in which the data of blocks arrives**, in the end a block counts its
transactions exactly when it and all its ancestors have data, the count is the sum over its chain,
and `m_blocks_unlinked` lists exactly the blocks with data below an ancestor without, each with its
parent.  No data arrives for a child of a block that is marked failed: `AcceptBlockHeader` refuses
blocks that are marked, and the mark reaches all descendants (`FlagsInv.closed`). -/
theorem receiveAll_linkedAsArrived (addr : Uint256 → ℕ) (params : ConsensusParams) {s : Chainstate}
    (H : HeadersOnly s) (arrivals : List Arrival) (hnodup : (arrivals.map (·.hash)).Nodup)
    (hmem : ∀ a ∈ arrivals, (s.m_block_index a.hash).isSome)
    (hparent : ∀ a ∈ arrivals, ∀ p, s.pprev a.hash = some p → s.failed p = false) :
    ∃ s', receiveAll addr params arrivals s = .ok ((), s') ∧ s'.pprev = s.pprev ∧
      LinkedAsArrived arrivals s' := by
  have hvalid : ∀ a ∈ arrivals, ∀ q, s.pprev a.hash = some q → s.isValid q .tree = true := by
    intro a ha q hq
    have hlevel := H.level q (H.tree.parent a.hash q (hmem a ha) hq).1
    rw [Chainstate.isValid, hparent a ha q hq, decide_eq_true hlevel]
    rfl
  obtain ⟨⟨⟩, s', hrun, L, T, hdata, hnTx, -⟩ := exists_of_wp
    (receiveAll_wp addr params arrivals H.linksUp hnodup hmem (fun a _ => H.noData a.hash) hvalid)
  have G : Graded s'.pprev (fun h => (s'.m_block_index h).isSome) s'.nHeight := by
    simp only [T.pprev, T.nHeight, T.isSome]
    exact H.tree
  refine ⟨s', hrun, T.pprev, L.linkedAsArrived G (fun h => ?_) hnTx⟩
  rw [hdata, H.noData]
  simp only [Bool.false_eq_true, or_false]

/-- A chain of three headers. -/
def threeHeaders : Chainstate where
  m_block_index := fun h =>
    if h = 1#256 then some { CBlockIndex.ofHeader h (smallHeader 0#256 0 0) with
      nStatus := { valid := .tree } }
    else if h = 2#256 then some { CBlockIndex.ofHeader h (smallHeader 1#256 0 600) with
      nHeight := 1, pprev := some 1#256, nStatus := { valid := .tree } }
    else if h = 3#256 then some { CBlockIndex.ofHeader h (smallHeader 2#256 0 1200) with
      nHeight := 2, pprev := some 2#256, nStatus := { valid := .tree } }
    else none
  best_header := some 3#256

theorem threeHeaders_cases {h : Uint256} (hh : (threeHeaders.m_block_index h).isSome) :
    h = 1#256 ∨ h = 2#256 ∨ h = 3#256 := by
  by_contra hnot
  simp only [not_or] at hnot
  simp [threeHeaders, hnot.1, hnot.2.1, hnot.2.2] at hh

theorem headersOnly_three : HeadersOnly threeHeaders where
  tree := by
    refine ⟨fun k p hk hp => ?_, fun k hk hp => ?_⟩
    · rcases threeHeaders_cases hk with rfl | rfl | rfl
      · cases hp
      · obtain rfl : 1#256 = p := Option.some_inj.mp hp
        decide
      · obtain rfl : 2#256 = p := Option.some_inj.mp hp
        decide
    · rcases threeHeaders_cases hk with rfl | rfl | rfl
      · rfl
      · cases hp
      · cases hp
  level h hh := by
    rcases threeHeaders_cases hh with rfl | rfl | rfl <;> decide
  noData h := by
    by_cases hh : (threeHeaders.m_block_index h).isSome
    · rcases threeHeaders_cases hh with rfl | rfl | rfl <;> rfl
    · rw [Chainstate.nStatus, Option.not_isSome_iff_eq_none.mp hh]
      rfl
  uncounted h := by
    by_cases hh : (threeHeaders.m_block_index h).isSome
    · rcases threeHeaders_cases hh with rfl | rfl | rfl <;> rfl
    · rw [Chainstate.m_chain_tx_count, Option.not_isSome_iff_eq_none.mp hh]
      rfl
  unlinked := rfl

/-- The last block and the first arrive: the first counts its transactions, and the last waits for
the second. -/
theorem receiveAll_linkedAsArrived_three :
    ∃ s', receiveAll BitVec.toNat mainParams [⟨3#256, 2, ⟨0, 8⟩, by decide⟩,
        ⟨1#256, 5, ⟨0, 300⟩, by decide⟩] threeHeaders = .ok ((), s') ∧
      s'.m_chain_tx_count 1#256 ≠ 0 ∧ (2#256, 3#256) ∈ s'.m_blocks_unlinked := by
  obtain ⟨s', hrun, hprev, A⟩ := receiveAll_linkedAsArrived BitVec.toNat mainParams
    headersOnly_three [⟨3#256, 2, ⟨0, 8⟩, by decide⟩, ⟨1#256, 5, ⟨0, 300⟩, by decide⟩]
    (by decide) (by decide) (by
      intro a ha p hp
      simp only [List.mem_cons, List.not_mem_nil, or_false] at ha
      rcases ha with rfl | rfl
      · obtain rfl : 2#256 = p := Option.some_inj.mp hp
        rfl
      · cases hp)
  have hroot : s'.pprev 1#256 = none := by
    rw [hprev]
    rfl
  have hlast : s'.pprev 3#256 = some 2#256 := by
    rw [hprev]
    rfl
  refine ⟨s', hrun, (A.counted 1#256).mpr ⟨?_, fun a ha => ?_⟩, (A.unlinked _ _).mpr ⟨hlast, ?_,
    2#256, .parent hlast, ?_⟩⟩
  · exact isSome_of_haveData ((A.haveData 1#256).mpr (by decide))
  · obtain rfl := ha.eq_of_root hroot
    exact (A.haveData 1#256).mpr (by decide)
  · exact (A.haveData 3#256).mpr (by decide)
  · rw [← Bool.not_eq_true, A.haveData]
    decide

end BitMinti.Analysis
