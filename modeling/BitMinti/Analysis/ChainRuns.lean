import BitMinti.Analysis.AcceptBlock
import BitMinti.Analysis.InvalidateBlock

/-!
# Whole runs of a chainstate

Every operation keeps `ChainInv`, so it holds in every state of a run; what `CheckBlockIndex`
expects of the candidates and of the marks follows.  Both expectations fail in general: a
`PreciousBlock` of the tip can put it back behind a block that is no candidate, and a
`ReconsiderBlock` can clear the mark that is the reason of another one.

SOURCE: src/src/validation.cpp:3856-4455, 5083-5272, 6299-6393
-/

set_option autoImplicit false

namespace BitMinti.Analysis

open Model Interface Computation.StateExcept

variable {σ : Type} {n : Node σ} {s s' : Chainstate}

/-! ## One operation -/

theorem wp_onBlock {E : Stop → Prop} {Q : Chainstate → Prop} {hash : Uint256} {x : ChainM Unit}
    (hrefuse : Q s) (h : (s.m_block_index hash).isSome → wp E x (fun _ s' => Q s') s) :
    wp E (onBlock hash x) (fun _ s' => Q s') s := by
  rw [onBlock, wp_bind, wp_get]
  split
  · rename_i hmem
    exact h hmem
  · exact hrefuse

/-- **Every operation keeps the invariant** when `PreciousBlock` does not put the tip back, and
leaves marks with a reason only when blocks are reconsidered whole. -/
theorem perform_wp (I : ChainInv n s) (fuel : ℕ) (op : ChainOp σ)
    (hkeeps : PreciousKeepsTip s op) :
    wp (fun _ => True) (n.perform fuel op) (fun _ s' => ChainInv n s' ∧
      (ReconsidersWhole s op → FlagsJustified s → FlagsJustified s')) s := by
  cases op with
  | acceptBlockHeader call =>
    apply wp_discard
    exact wp_mono (acceptHeader_chainInv I call) fun _ _ h => ⟨h.1, fun _ => h.2⟩
  | acceptBlock call =>
    apply wp_discard
    exact wp_mono (acceptBlock_chainInv I call) fun _ _ h => ⟨h.1, fun _ => h.2⟩
  | activateBestChain =>
    exact wp_mono (activateBestChain_best fuel I.working) fun _ _ best =>
      ⟨best.chainInv, fun _ => best.progress.reflags.justified⟩
  | invalidateBlock hash =>
    refine wp_onBlock ⟨I, fun _ => id⟩ fun hmem => wp_discard ?_
    exact wp_mono (wp_weaken (invalidateBlock_wp I hmem) fun _ _ => trivial) fun _ _ h =>
      ⟨h.1, fun _ => h.2⟩
  | reconsiderBlock hash =>
    refine wp_onBlock ⟨I, fun _ => id⟩ fun hmem => ?_
    exact wp_mono (reconsiderBlock_wp I hmem fuel) fun _ _ h => ⟨h.1, fun hwhole _ => h.2 hwhole⟩
  | preciousBlock hash =>
    refine wp_onBlock ⟨I, fun _ => id⟩ fun _ => ?_
    exact wp_mono (preciousBlock_wp I fuel hkeeps) fun _ _ h => ⟨h, False.elim⟩

/-! ## Runs -/

theorem BlocksInv.empty : BlocksInv n .empty where
  tree := {
    key := fun h e he => by cases he
    graded := { parent := fun k p hk => by cases hk
                root := fun k hk => by cases hk }
    skip := fun h e he => by cases he }
  keys h := iff_of_false List.not_mem_nil Bool.false_ne_true
  genesis h hh := by cases hh
  level h hh := by cases hh
  counted h hh := by cases hh
  data h hh := by cases hh
  valid h hh := by cases hh
  linked h p hh := by cases hh
  parked p h hh := by cases hh
  waiting h hh := by cases hh
  nodup := List.nodup_nil

theorem ChainInv.empty : ChainInv n .empty where
  blocks := .empty
  flags := {
    closed := fun a h _ ha => by cases ha
    root := fun _ _ => rfl }
  tip t ht := by cases ht
  candidates c hc := by cases hc
  complete h hh := by cases hh

/-- **The invariant holds all along a run.** -/
theorem chainInv_of_reaches {Meets : Chainstate → ChainOp σ → Prop}
    (hmeets : ∀ s op, Meets s op → PreciousKeepsTip s op) (h : Reaches n Meets s) :
    ChainInv n s := by
  induction h with
  | start => exact .empty
  | step hs hop hrun ih => exact (wp_ok (perform_wp ih _ _ (hmeets _ _ hop)) hrun).1

theorem reaches_of_run {Meets : Chainstate → ChainOp σ → Prop} {fuel : ℕ} (ops : List (ChainOp σ))
    (hmeets : ∀ op ∈ ops, ∀ s, Meets s op) (hs : Reaches n Meets s)
    (hrun : ops.forM (n.perform fuel) s = .ok ((), s')) : Reaches n Meets s' := by
  induction ops generalizing s with
  | nil =>
    cases hrun
    exact hs
  | cons op ops ih =>
    obtain ⟨hop, hops⟩ := List.forall_mem_cons.mp hmeets
    change (n.perform fuel op >>= fun _ => ops.forM (n.perform fuel)) s = .ok ((), s') at hrun
    have hbind : wp (fun _ => False) (n.perform fuel op >>= fun _ => ops.forM (n.perform fuel))
        (fun _ t => t = s') s := by
      unfold wp
      rw [hrun]
    rw [wp_bind] at hbind
    obtain ⟨⟨⟩, s₁, hstep, hrest⟩ := exists_of_wp hbind
    refine ih hops (.step hs (hop s) hstep) ?_
    obtain ⟨⟨⟩, t, ht, rfl⟩ := exists_of_wp hrest
    exact ht

theorem ChainInv.candidatesComplete (I : ChainInv n s) : CandidatesComplete n s := by
  intro t ht
  obtain ⟨httx, htfailed, -⟩ := I.tip t ht
  constructor
  · apply I.complete t httx htfailed
    intro u hu
    rw [Option.some_inj.mp (ht.symm.trans hu)]
  · intro h hunflagged hcount hafter
    apply I.complete h (bne_iff_ne.mpr hcount) (hunflagged h (.refl h))
    intro u hu
    rw [← Option.some_inj.mp (ht.symm.trans hu)]
    exact (workComparator_false_iff n.addr s h t).mp hafter

theorem ReconsidersWhole.preciousKeepsTip {op : ChainOp σ} (h : ReconsidersWhole s op) :
    PreciousKeepsTip s op := by
  cases op with
  | preciousBlock hash => exact h.elim
  | _ => trivial

/-! ## A small node -/

/-- A header for a small tree; `delay` is its time, in seconds after the genesis block. -/
def smallHeader (hashPrevBlock : Uint256) (nonce delay : ℕ) : CBlockHeader where
  nVersion := 4
  hashPrevBlock := hashPrevBlock
  hashMerkleRoot := 0#256
  nTime := BitVec.ofNat 32 (1766971600 + delay)
  nBits := 0x1f0fffff#32
  nNonce := BitVec.ofNat 32 nonce

/-- The genesis block hashes to 1, all other blocks to their nonce and two. -/
def smallHash (block : CBlockHeader) : Uint256 :=
  if block.hashPrevBlock = 0#256 then 1#256 else BitVec.ofNat 256 (block.nNonce.toNat + 2)

/-- A node for which every block connects. -/
def smallNode : Node Unit where
  getPoWHash := fun _ _ pow => (0#256, pow)
  params := { mainParams with hashGenesisBlock := 1#256 }
  getHash := smallHash
  minimumChainWork := .ofUInt64 0
  addr := BitVec.toNat
  addr_injective := fun _ _ => BitVec.eq_of_toNat_eq
  connectBlock := fun _ => .connected 9
  genesis_connects := by simp
  genesis_root := by
    intro block hhash hprev
    rw [smallHash, hprev, if_neg (by decide)] at hhash
    have hnat := congrArg BitVec.toNat hhash
    have hlt := block.nNonce.isLt
    rw [BitVec.toNat_ofNat, Nat.mod_eq_of_lt (by omega)] at hnat
    change block.nNonce.toNat + 2 = 1 at hnat
    omega

/-- A header that comes in at the small node. -/
def smallCall (block : CBlockHeader) : HeaderCall Unit :=
  ⟨block, true, 1766972200 * clockTicks, ()⟩

/-- A block that comes in at the small node. -/
def smallBlock (block : CBlockHeader) : BlockCall Unit where
  toHeaderCall := smallCall block
  size := 1
  verdict := .ok ()
  fRequested := true
  pos := ⟨0, 8⟩
  nonempty := fun _ => Nat.one_pos

/-- The state after some operations. -/
def smallRun (ops : List (ChainOp Unit)) : Option Chainstate :=
  match ops.forM (smallNode.perform 5) .empty with
  | .ok (_, s) => some s
  | .error _ => none

theorem reaches_smallRun {Meets : Chainstate → ChainOp Unit → Prop} {s : Chainstate}
    (ops : List (ChainOp Unit)) (hmeets : ∀ op ∈ ops, ∀ s, Meets s op)
    (h : smallRun ops = some s) : Reaches smallNode Meets s := by
  unfold smallRun at h
  split at h
  · rename_i u s₁ hrun
    rw [Option.some_inj] at h
    exact reaches_of_run ops hmeets .start (h ▸ hrun)
  · cases h

/-- The genesis block is connected and a second block is stored. -/
def storedOps : List (ChainOp Unit) :=
  [.acceptBlock (smallBlock (smallHeader 0#256 0 0)), .activateBestChain,
    .acceptBlock (smallBlock (smallHeader 1#256 0 600))]

/-! ## `ActivateBestChain` -/

theorem exists_storedRun :
    ∃ s, smallRun storedOps = some s ∧ Reaches smallNode ReconsidersWhole s ∧
      Reaches smallNode PreciousKeepsTip s ∧ s.m_tip = some 1#256 ∧
      s.haveNumChainTxs 2#256 = true ∧ s.failed 2#256 = false := by
  have hrun : (smallRun storedOps).any (fun s => s.m_tip == some 1#256 && s.haveNumChainTxs 2#256 &&
      !s.failed 2#256) = true := by decide +kernel
  obtain ⟨s, hs, hcheck⟩ := (Option.any_eq_true _ _).mp hrun
  simp only [Bool.and_eq_true, beq_iff_eq, Bool.not_eq_true'] at hcheck
  obtain ⟨⟨htip, htx⟩, hfailed⟩ := hcheck
  have hmeets : ∀ op ∈ storedOps, ∀ t, ReconsidersWhole t op := by
    intro op hop t
    simp only [storedOps, List.mem_cons, List.not_mem_nil, or_false] at hop
    rcases hop with rfl | rfl | rfl <;> trivial
  refine ⟨s, hs, reaches_smallRun storedOps hmeets hs, ?_, htip, htx, hfailed⟩
  exact reaches_smallRun storedOps
    (fun op hop t => ReconsidersWhole.preciousKeepsTip (hmeets op hop t)) hs

/-- **No block is missing from `setBlockIndexCandidates`** in a run whose `PreciousBlock` calls do
not give the tip a higher sequence id than it has. -/
theorem candidatesComplete_of_reaches (h : Reaches n PreciousKeepsTip s) :
    CandidatesComplete n s :=
  (chainInv_of_reaches (fun _ _ => id) h).candidatesComplete

theorem candidatesComplete_small :
    ∃ s, smallRun storedOps = some s ∧ CandidatesComplete smallNode s := by
  obtain ⟨s, hs, -, hreaches, -⟩ := exists_storedRun
  exact ⟨s, hs, candidatesComplete_of_reaches hreaches⟩

/-- Two blocks on the genesis block take turns as precious, with the genesis block as tip in
between; the last call finds the first of them as tip and gives it a higher sequence id. -/
def preciousOps : List (ChainOp Unit) :=
  [.acceptBlock (smallBlock (smallHeader 0#256 0 0)), .activateBestChain,
    .acceptBlock (smallBlock (smallHeader 1#256 0 600)),
    .acceptBlock (smallBlock (smallHeader 1#256 1 600)),
    .preciousBlock 1#256, .invalidateBlock 2#256, .preciousBlock 3#256, .invalidateBlock 3#256,
    .preciousBlock 2#256, .reconsiderBlock 2#256, .reconsiderBlock 3#256, .preciousBlock 2#256]

/-- **`PreciousBlock` can put the tip behind a block that is no candidate.** -/
theorem preciousBlock_loses_candidate :
    ∃ s, Reaches smallNode (fun _ _ => True) s ∧ ¬ CandidatesComplete smallNode s := by
  have hrun : (smallRun preciousOps).any (fun s => s.m_tip == some 2#256 &&
      s.pprev 3#256 == some 1#256 && s.pprev 1#256 == none && !s.failed 3#256 && !s.failed 1#256 &&
      s.haveNumChainTxs 3#256 && !workComparator smallNode.addr s 3#256 2#256 &&
      !s.setBlockIndexCandidates.contains 3#256) = true := by decide +kernel
  obtain ⟨s, hs, hcheck⟩ := (Option.any_eq_true _ _).mp hrun
  simp only [Bool.and_eq_true, beq_iff_eq, Bool.not_eq_true'] at hcheck
  obtain ⟨⟨⟨⟨⟨⟨⟨htip, hprev⟩, hroot⟩, hfailed⟩, hfailed₁⟩, htx⟩, hafter⟩, hnot⟩ := hcheck
  refine ⟨s, reaches_smallRun preciousOps (fun _ _ _ => trivial) hs, fun hcomplete => ?_⟩
  have hmem := (hcomplete 2#256 htip).2 3#256 ?_ (bne_iff_ne.mp htx) hafter
  · rw [← Bool.not_eq_true, List.contains_iff_mem] at hnot
    exact hnot hmem
  · intro a ha
    rcases ha.eq_or_parent with rfl | ⟨p, hp, ha⟩
    · exact hfailed
    · obtain rfl : 1#256 = p := Option.some_inj.mp (hprev.symm.trans hp)
      obtain rfl := ha.eq_of_root hroot
      exact hfailed₁

/-! ## The blocks and the marks -/

/-- **The active chain is whole and unmarked** along such a run, exactly the blocks that miss data of
an ancestor wait for it, and marks reach all descendants.
SOURCE: src/src/validation.cpp:6304-6308, 6394-6415 -/
theorem blocksAndMarks_of_reaches (h : Reaches n PreciousKeepsTip s) :
    (∀ t, s.m_tip = some t → ChainHasData s t ∧ Unflagged s t ∧ ChainConnects n s t) ∧
    (∀ b, (∃ p, (p, b) ∈ s.m_blocks_unlinked) ↔
      (s.nStatus b).haveData = true ∧ ¬ ChainHasData s b) ∧
    ∀ b, s.failed b = false → Unflagged s b := by
  have I := chainInv_of_reaches (fun _ _ => id) h
  have hcounts := I.blocks.haveNumChainTxs_iff
  have hunflagged : ∀ b, s.failed b = false → Unflagged s b :=
    fun b hb a ha => I.flags.unflagged_of_ancestor ha hb
  refine ⟨?_, fun b => ⟨?_, ?_⟩, hunflagged⟩
  · intro t ht
    obtain ⟨htx, hfailed, hconnects⟩ := I.tip t ht
    exact ⟨(hcounts t).mp htx, hunflagged t hfailed, hconnects⟩
  · rintro ⟨p, hp⟩
    obtain ⟨hprev, hdata, hparent⟩ := I.blocks.parked p b hp
    refine ⟨hdata, fun hall => ?_⟩
    rw [I.blocks.linked b p ((hcounts b).mpr hall) hprev] at hparent
    cases hparent
  · rintro ⟨hdata, hmisses⟩
    rw [← hcounts, Bool.not_eq_true] at hmisses
    exact I.blocks.waiting b hdata hmisses

theorem blocksAndMarks_small : ∃ s, smallRun storedOps = some s ∧ ChainHasData s 1#256 := by
  obtain ⟨s, hs, -, hreaches, htip, -⟩ := exists_storedRun
  exact ⟨s, hs, ((blocksAndMarks_of_reaches hreaches).1 1#256 htip).1⟩


/-- **Every mark has a reason** in a run that reconsiders blocks whole. -/
theorem flagsJustified_of_reaches (h : Reaches n ReconsidersWhole s) : FlagsJustified s := by
  induction h with
  | start =>
    intro h hh
    cases hh
  | step hs hop hrun ih =>
    have I := chainInv_of_reaches (fun _ _ => ReconsidersWhole.preciousKeepsTip) hs
    exact (wp_ok (perform_wp I _ _ (ReconsidersWhole.preciousKeepsTip hop)) hrun).2 hop ih

theorem flagsJustified_small :
    ∃ s, smallRun storedOps = some s ∧ FlagsJustified s := by
  obtain ⟨s, hs, hreaches, -⟩ := exists_storedRun
  exact ⟨s, hs, flagsJustified_of_reaches hreaches⟩

/-- Two headers hang off one that is invalidated; then the first of them is reconsidered. -/
def reconsiderOps : List (ChainOp Unit) :=
  [.acceptBlock (smallBlock (smallHeader 0#256 0 0)), .activateBestChain,
    .acceptBlockHeader (smallCall (smallHeader 1#256 0 600)),
    .acceptBlockHeader (smallCall (smallHeader 2#256 1 900)),
    .acceptBlockHeader (smallCall (smallHeader 2#256 2 900)),
    .invalidateBlock 2#256, .reconsiderBlock 3#256]

theorem getMedianTimePast_insertionSort : getMedianTimePast = fun m pindex =>
    let times := (medianTimes m nMedianTimeSpan (some pindex)).insertionSort (· ≤ ·)
    times.getD (times.length / 2) 0 := by
  funext m pindex
  simp only [getMedianTimePast]
  rw [List.mergeSort_eq_insertionSort]

/-- **`ReconsiderBlock` can leave a mark without a reason.** -/
theorem reconsiderBlock_leaves_mark :
    ∃ s, Reaches smallNode (fun _ op => ∀ hash, op ≠ .preciousBlock hash) s ∧
      ¬ FlagsJustified s := by
  have hrun : (smallRun reconsiderOps).any (fun s => s.pprev 4#256 == some 2#256 &&
      s.pprev 2#256 == some 1#256 && s.pprev 1#256 == none && s.failed 4#256 &&
      !(s.nStatus 4#256).failedValid && !(s.nStatus 2#256).failedValid &&
      !(s.nStatus 1#256).failedValid) = true := by
    simp only [smallRun, reconsiderOps, List.forM, Node.perform, acceptBlock, acceptHeader,
      acceptBlockHeader, checkNewHeader, contextualCheckBlockHeader, contextualTimeAndVersion,
      getMedianTimePast_insertionSort]
    decide +kernel
  obtain ⟨s, hs, hcheck⟩ := (Option.any_eq_true _ _).mp hrun
  simp only [Bool.and_eq_true, beq_iff_eq, Bool.not_eq_true'] at hcheck
  obtain ⟨⟨⟨⟨⟨⟨hprev, hprev₂⟩, hroot⟩, hfailed⟩, hvalid⟩, hvalid₂⟩, hvalid₁⟩ := hcheck
  refine ⟨s, reaches_smallRun reconsiderOps (fun op hop t hash => ?_) hs, fun hjustified => ?_⟩
  · simp only [reconsiderOps, List.mem_cons, List.not_mem_nil, or_false] at hop
    rcases hop with rfl | rfl | rfl | rfl | rfl | rfl | rfl <;> simp
  · obtain ⟨a, ha, hreason⟩ := hjustified 4#256 hfailed
    rcases ha.eq_or_parent with rfl | ⟨p, hp, ha⟩
    · rw [hvalid] at hreason
      cases hreason
    · obtain rfl : 2#256 = p := Option.some_inj.mp (hprev.symm.trans hp)
      rcases ha.eq_or_parent with rfl | ⟨q, hq, ha⟩
      · rw [hvalid₂] at hreason
        cases hreason
      · obtain rfl : 1#256 = q := Option.some_inj.mp (hprev₂.symm.trans hq)
        obtain rfl := ha.eq_of_root hroot
        rw [hvalid₁] at hreason
        cases hreason

end BitMinti.Analysis
