import BitMinti.Analysis.Chain
import BitMinti.Analysis.RandomX
import BitMinti.Computation.OrderStatistic
import BitMinti.Model.LockTime

/-!
# Lock times stay satisfied

Block times may go back, the median of the last eleven does not: each block is later than the
median before it, so the window drops one entry and gains one that is not below its median.
With the median every lock that counts from the chain below stays satisfied as the chain grows.

A mempool entry keeps the locks as they were computed when it came in.  For an unconfirmed input
they are counted from the block after the tip of that time, and the check that the cached values
are still good does not look at such inputs; `CachedAgree` says when that does no harm.
-/

set_option autoImplicit false

namespace BitMinti.Analysis

open Model Computation.Ancestry Computation.OrderStatistic

section Median

variable {m : BlockMap}

/-! ## The median time -/

/-- The chain that ends in `h` follows the rule that a block is later than the median time of its
parent. -/
def TimesFollow (m : BlockMap) (h : Uint256) : Prop :=
  ∀ k e ep, AncestorOf m.prev k h → m k = some e → m.pprev e = some ep →
    getMedianTimePast m ep < e.getBlockTime

theorem TimesFollow.ancestor {h p : Uint256} (H : TimesFollow m h) (hp : AncestorOf m.prev p h) :
    TimesFollow m p :=
  fun k e ep hk => H k e ep (hk.trans hp)

theorem medianTimes_initial (m : BlockMap) (n : ℕ) (pindex : Option CBlockIndex) :
    medianTimes m n pindex <+: medianTimes m (n + 1) pindex := by
  induction n generalizing pindex with
  | zero => exact List.nil_prefix
  | succ n ih =>
    cases pindex with
    | none => exact List.nil_prefix
    | some e =>
      rw [medianTimes, medianTimes, List.prefix_cons_inj]
      exact ih _

theorem length_medianTimes_succ_le (m : BlockMap) (n : ℕ) (pindex : Option CBlockIndex) :
    (medianTimes m (n + 1) pindex).length ≤ (medianTimes m n pindex).length + 1 := by
  induction n generalizing pindex with
  | zero =>
    cases pindex with
    | none => exact Nat.zero_le _
    | some e => simp [medianTimes]
  | succ n ih =>
    cases pindex with
    | none => exact Nat.zero_le _
    | some e =>
      rw [medianTimes, medianTimes, List.length_cons, List.length_cons]
      exact Nat.succ_le_succ (ih _)

/-- **The median time does not decrease from a block to a child that is later than it.**
SOURCE: src/src/chain.h:232-246 -/
theorem getMedianTimePast_le_child {e ep : CBlockIndex} (hp : m.pprev e = some ep)
    (htime : getMedianTimePast m ep < e.getBlockTime) :
    getMedianTimePast m ep ≤ getMedianTimePast m e := by
  have hne : medianTimes m nMedianTimeSpan (some ep) ≠ [] := by
    rw [show nMedianTimeSpan = 10 + 1 from rfl, medianTimes]
    exact List.cons_ne_nil _ _
  have hchild : medianTimes m nMedianTimeSpan (some e) =
      e.getBlockTime :: medianTimes m 10 (some ep) := by
    rw [show nMedianTimeSpan = 10 + 1 from rfl, medianTimes, hp]
  simp only [getMedianTimePast, List.length_mergeSort] at htime ⊢
  rw [hchild]
  exact median_le_median_cons hne (medianTimes_initial m 10 (some ep))
    (length_medianTimes_succ_le m 10 (some ep)) htime.le

theorem TimesFollow.getMedianTimePast_le (T : TreeInv m) {h a : Uint256} {e ea : CBlockIndex}
    (H : TimesFollow m h) (hh : m h = some e) (ha : m a = some ea)
    (hanc : AncestorOf m.prev a h) : getMedianTimePast m ea ≤ getMedianTimePast m e := by
  obtain ⟨n, hn⟩ := hanc
  induction n generalizing h e with
  | zero =>
    rw [up_zero, Option.some_inj] at hn
    subst hn
    rw [ha, Option.some_inj] at hh
    rw [hh]
  | succ n ih =>
    rw [up_succ] at hn
    obtain ⟨p, hp, hup⟩ := Option.bind_eq_some_iff.mp hn
    have hpe := hp
    rw [BlockMap.prev_of hh] at hpe
    obtain ⟨ep, hep, -⟩ := T.parent hh hpe
    have hparent : m.pprev e = some ep := by rw [BlockMap.pprev, hpe, Option.bind_some, hep]
    exact (ih (H.ancestor (.parent hp)) hep hup).trans
      (getMedianTimePast_le_child hparent (H h e ep (.refl h) hh hparent))

/-! ## The next block -/

section

variable {b d : Uint256} {eb ed : CBlockIndex} (T : TreeInv m) (hb : m b = some eb)

include T hb

theorem pprev_nextBlock : m.pprev (nextBlock eb) = some eb := by
  rw [BlockMap.pprev, nextBlock, Option.bind_some, T.key b eb hb, hb]

/-- Seen from the next block, the chain below is the tip's.
SOURCE: src/src/chain.cpp:83-106 -/
theorem getAncestor_nextBlock {height : ℕ} (hle : height ≤ eb.nHeight) :
    getAncestor m (nextBlock eb) height = getAncestor m eb height := by
  have hskip : ¬ ((nextBlock eb).pskip ≠ none ∧ followSkip height (eb.nHeight + 1) = true) :=
    fun h => h.1 rfl
  have hheight : (nextBlock eb).nHeight = eb.nHeight + 1 := rfl
  rw [getAncestor, getAncestor, hheight, if_neg (by omega), if_neg (by omega), Int.toNat_natCast,
    getAncestorLoop, if_pos (by omega), if_neg hskip, pprev_nextBlock T hb]
  rfl

/-- The block that a time lock on an input at `height` counts from. -/
theorem exists_getAncestor_nextBlock {height : ℤ} (hle : height ≤ eb.nHeight + 1) :
    ∃ ea, getAncestor m (nextBlock eb) (max (height - 1) 0) = some ea ∧
      ∃ a, m a = some ea ∧ AncestorOf m.prev a b := by
  have hlow : (height - 1).toNat ≤ eb.nHeight := by omega
  obtain ⟨a, ea, hup, hea, -, hget⟩ := T.getAncestor_eq hb hlow
  rw [show max (height - 1) 0 = ((height - 1).toNat : ℤ) by omega,
    getAncestor_nextBlock T hb hlow]
  exact ⟨ea, hget, a, hea, _, hup⟩

variable (hd : m d = some ed) (hanc : AncestorOf m.prev b d)

include hd hanc

theorem getAncestor_descendant {height : ℕ} (hle : height ≤ eb.nHeight) :
    getAncestor m ed height = getAncestor m eb height := by
  obtain ⟨a, ea, hup, hea, hheight, hget⟩ := T.getAncestor_eq hb hle
  rw [hget, ← hheight]
  exact T.getAncestor_of_ancestor hd hea (AncestorOf.trans ⟨_, hup⟩ hanc)

theorem getAncestor_nextBlock_descendant {height : ℤ} (hle : height ≤ eb.nHeight + 1) :
    getAncestor m (nextBlock ed) (max (height - 1) 0) =
      getAncestor m (nextBlock eb) (max (height - 1) 0) := by
  have hheights := T.nHeight_le_of_ancestor hb hd hanc
  rw [show max (height - 1) 0 = ((height - 1).toNat : ℤ) by omega,
    getAncestor_nextBlock T hd (by omega), getAncestor_nextBlock T hb (by omega),
    getAncestor_descendant T hb hd hanc (by omega)]

/-- The locks of inputs from the chain below are the same on top of every descendant.
The induction is on the inputs. -/
theorem sequenceLocksLoop_descendant (inputs : List (CTxIn × ℤ))
    (hinputs : ∀ x ∈ inputs, x.2 ≤ eb.nHeight + 1) (lockPair : ℤ × ℤ) :
    sequenceLocksLoop m (nextBlock ed) inputs lockPair =
      sequenceLocksLoop m (nextBlock eb) inputs lockPair := by
  induction inputs generalizing lockPair with
  | nil => rfl
  | cons x rest ih =>
    obtain ⟨txin, nCoinHeight⟩ := x
    obtain ⟨nMinHeight, nMinTime⟩ := lockPair
    obtain ⟨hx, hrest⟩ := List.forall_mem_cons.1 hinputs
    have hsame := getAncestor_nextBlock_descendant T hb hd hanc hx
    simp only [sequenceLocksLoop, hsame, ih hrest]

end

/-! ## Growing chains -/

variable {b d : Uint256} {eb ed : CBlockIndex}

theorem isFinalTx_iff (tx : CTransaction) (height time : ℤ) :
    isFinalTx tx height time = true ↔ tx.nLockTime = 0#32 ∨
      (tx.nLockTime.toNat : ℤ) <
        (if (tx.nLockTime.toNat : ℤ) < LOCKTIME_THRESHOLD then height else time) ∨
      tx.vin.all (fun txin => txin.nSequence == SEQUENCE_FINAL) = true := by
  rw [isFinalTx]
  generalize (if (tx.nLockTime.toNat : ℤ) < LOCKTIME_THRESHOLD then height else time) = bound
  split_ifs with hzero hpast
  · exact iff_of_true rfl (.inl hzero)
  · exact iff_of_true rfl (.inr (.inl hpast))
  · rw [or_iff_right hzero, or_iff_right hpast]

/-- A transaction that is final stays final at a greater height and time.
SOURCE: src/src/consensus/tx_verify.cpp:17-37 -/
theorem isFinalTx_mono {tx : CTransaction} {height time height' time' : ℤ}
    (hheight : height ≤ height') (htime : time ≤ time') (h : isFinalTx tx height time = true) :
    isFinalTx tx height' time' = true := by
  rw [isFinalTx_iff] at h ⊢
  refine h.imp_right (Or.imp_left fun hpast => lt_of_lt_of_le hpast ?_)
  split
  · exact hheight
  · exact htime

/-- What `EvaluateSequenceLocks` decides on top of a block.
SOURCE: src/src/consensus/tx_verify.cpp:96-105 -/
theorem evaluateSequenceLocks_nextBlock (T : TreeInv m) (hb : m b = some eb) (lockPair : ℤ × ℤ) :
    evaluateSequenceLocks m (nextBlock eb) lockPair =
      .ok (decide (lockPair.1 < eb.nHeight + 1 ∧ lockPair.2 < getMedianTimePast m eb)) := by
  rw [evaluateSequenceLocks, pprev_nextBlock T hb]
  refine congrArg Except.ok ?_
  rw [Bool.eq_iff_iff, Bool.not_eq_true', Bool.or_eq_false_iff, decide_eq_true_eq,
    decide_eq_false_iff_not, decide_eq_false_iff_not, not_le, not_le]
  rfl

theorem TimesFollow.evaluateSequenceLocks (T : TreeInv m) (H : TimesFollow m d)
    (hb : m b = some eb) (hd : m d = some ed) (hanc : AncestorOf m.prev b d) {lockPair : ℤ × ℤ}
    (h : evaluateSequenceLocks m (nextBlock eb) lockPair = .ok true) :
    Model.evaluateSequenceLocks m (nextBlock ed) lockPair = .ok true := by
  have hheights := T.nHeight_le_of_ancestor hb hd hanc
  have hmedian := H.getMedianTimePast_le T hd hb hanc
  rw [evaluateSequenceLocks_nextBlock T hb, Except.ok.injEq, decide_eq_true_eq] at h
  rw [evaluateSequenceLocks_nextBlock T hd, Except.ok.injEq, decide_eq_true_eq]
  omega

/-- **Locks stay satisfied as the chain grows.**  On every chain in which each block is
later than the median time of its parent, the median time does not decrease from a block to its
child, and what `CheckFinalTxAtTip` or `EvaluateSequenceLocks` accepts on top of some block of the
chain it accepts on top of the chain: for locks that are given, and for those computed afresh
from the same input heights, none of them above the block to come.
SOURCE: src/src/chain.h:232-246, src/src/consensus/tx_verify.cpp:17-105 -/
theorem locks_stay_satisfied (T : TreeInv m) (H : TimesFollow m d) (hb : m b = some eb)
    (hd : m d = some ed) (hanc : AncestorOf m.prev b d) :
    (∀ k e ep, AncestorOf m.prev k d → m k = some e → m.pprev e = some ep →
      getMedianTimePast m ep ≤ getMedianTimePast m e) ∧
    (∀ tx, checkFinalTxAtTip m eb tx = true → checkFinalTxAtTip m ed tx = true) ∧
    (∀ lockPair, evaluateSequenceLocks m (nextBlock eb) lockPair = .ok true →
      evaluateSequenceLocks m (nextBlock ed) lockPair = .ok true) ∧
    ∀ tx flags prevHeights, (∀ height ∈ prevHeights, height ≤ (eb.nHeight : ℤ) + 1) →
      sequenceLocks m tx flags prevHeights (nextBlock eb) = .ok true →
      sequenceLocks m tx flags prevHeights (nextBlock ed) = .ok true := by
  have hheights := T.nHeight_le_of_ancestor hb hd hanc
  have hmedian := H.getMedianTimePast_le T hd hb hanc
  refine ⟨fun k e ep hk he hp => ?_, fun tx htx => ?_, fun lockPair hpair => ?_,
    fun tx flags prevHeights hbound hlocks => ?_⟩
  · exact getMedianTimePast_le_child hp (H k e ep hk he hp)
  · exact isFinalTx_mono (by omega) hmedian htx
  · exact H.evaluateSequenceLocks T hb hd hanc hpair
  · have hsame : calculateSequenceLocks m tx flags prevHeights (nextBlock ed) =
        calculateSequenceLocks m tx flags prevHeights (nextBlock eb) := by
      unfold calculateSequenceLocks
      rw [sequenceLocksLoop_descendant T hb hd hanc _ fun x hx =>
        hbound x.2 (List.of_mem_zip hx).2]
    rw [sequenceLocks, hsame]
    rw [sequenceLocks] at hlocks
    cases hcalc : calculateSequenceLocks m tx flags prevHeights (nextBlock eb) with
    | error f =>
      rw [hcalc] at hlocks
      cases hlocks
    | ok r =>
      rw [hcalc] at hlocks
      exact H.evaluateSequenceLocks T hb hd hanc hlocks

end Median

/-! ## What a pair of locks stands for -/

section Pair

variable {m : BlockMap} {block : CBlockIndex}

/-- The relative lock of one input, at the height `x.2`, lets the transaction into a block at
`height` on a parent with median time `time`. -/
def InputHolds (m : BlockMap) (block : CBlockIndex) (height time : ℤ) (x : CTxIn × ℤ) : Prop :=
  x.1.lockDisabled = true ∨
    if x.1.lockIsTime = true then
      ∃ a, getAncestor m block (max (x.2 - 1) 0) = some a ∧
        getMedianTimePast m a +
          ((x.1.lockValue <<< SEQUENCE_LOCKTIME_GRANULARITY).toNat : ℤ) - 1 < time
    else x.2 + (x.1.lockValue.toNat : ℤ) - 1 < height

end Pair

/-! ## Lock points -/

section LockPoints

variable {m : BlockMap} {tx : CTransaction}

/-- The height that an input counts from at a tip. -/
def inputHeight (tip : CBlockIndex) (coins : COutPoint → Option Coin) (txin : CTxIn) : ℤ :=
  ((coins txin.prevout).map (prevHeight tip)).getD 0

variable {coins : COutPoint → Option Coin}

variable {e : CBlockIndex}

/-- The input is an output of a transaction in the mempool. -/
def Unconfirmed (coins : COutPoint → Option Coin) (txin : CTxIn) : Prop :=
  ∃ coin, coins txin.prevout = some coin ∧ coin.nHeight = MEMPOOL_HEIGHT

/-- The view has the input as a coin of the block `b`. -/
def ConfirmedIn (m : BlockMap) (coins : COutPoint → Option Coin) (b : Uint256) (txin : CTxIn) :
    Prop :=
  ∃ coin, coins txin.prevout = some coin ∧ coin.nHeight ≠ MEMPOOL_HEIGHT ∧
    coin.nHeight.toNat = m.height b

/-- The coins and the mempool are consistent with the chain that ends in `tip`, as far as the
inputs of `tx` go: each is unconfirmed or a coin of a block of the chain that creates it, and
what a block of the chain creates is a coin of that block. -/
structure CoinsMatch (m : BlockMap) (creates : Uint256 → COutPoint → Prop) (tip : Uint256)
    (coins : COutPoint → Option Coin) (tx : CTransaction) : Prop where
  known : ∀ txin ∈ tx.vin, Unconfirmed coins txin ∨
    ∃ b, AncestorOf m.prev b tip ∧ creates b txin.prevout ∧ ConfirmedIn m coins b txin
  created : ∀ txin ∈ tx.vin, ∀ b, AncestorOf m.prev b tip → creates b txin.prevout →
    ConfirmedIn m coins b txin

theorem Unconfirmed.inputHeight {txin : CTxIn}
    (h : Unconfirmed coins txin) (e : CBlockIndex) : inputHeight e coins txin = e.nHeight + 1 := by
  obtain ⟨coin, hcoin, hheight⟩ := h
  simp [Analysis.inputHeight, hcoin, prevHeight, hheight]

theorem ConfirmedIn.inputHeight {b : Uint256} {txin : CTxIn}
    (h : ConfirmedIn m coins b txin) (e : CBlockIndex) :
    inputHeight e coins txin = m.height b := by
  obtain ⟨coin, hcoin, hne, hheight⟩ := h
  simp [Analysis.inputHeight, hcoin, prevHeight, hne, hheight]

theorem CoinsMatch.isSome {creates : Uint256 → COutPoint → Prop} {tip : Uint256}
    (C : CoinsMatch m creates tip coins tx) :
    ∀ txin ∈ tx.vin, (coins txin.prevout).isSome := by
  intro txin hmem
  rcases C.known txin hmem with ⟨coin, hcoin, -⟩ | ⟨b, -, -, coin, hcoin, -⟩
  · rw [hcoin]
    rfl
  · rw [hcoin]
    rfl

/-- The relative lock of the input is zero. -/
def ZeroLock (txin : CTxIn) : Prop :=
  if txin.lockIsTime = true then (txin.lockValue <<< SEQUENCE_LOCKTIME_GRANULARITY).toNat = 0
  else txin.lockValue.toNat = 0

section Cached

variable {t₀ t₁ : Uint256} {e₀ e₁ : CBlockIndex} {txin : CTxIn}

theorem ZeroLock.holds (Z : ZeroLock txin) (T : TreeInv m) (H : TimesFollow m t₁)
    (h₁ : m t₁ = some e₁) {height : ℤ} (hle : height ≤ (e₁.nHeight : ℤ) + 1) :
    InputHolds m (nextBlock e₁) (e₁.nHeight + 1) (getMedianTimePast m e₁) (txin, height) := by
  refine .inr ?_
  rw [ZeroLock] at Z
  by_cases htime : txin.lockIsTime = true
  · rw [if_pos htime] at Z ⊢
    obtain ⟨ea, hget, a, hea, hanc⟩ := exists_getAncestor_nextBlock T h₁ hle
    have := H.getMedianTimePast_le T h₁ hea hanc
    refine ⟨ea, hget, ?_⟩
    dsimp only
    omega
  · rw [if_neg htime] at Z ⊢
    dsimp only
    omega

variable (T : TreeInv m) (h₀ : m t₀ = some e₀) (h₁ : m t₁ = some e₁) (H : TimesFollow m t₁)
  {creates : Uint256 → COutPoint → Prop} {coins₀ coins₁ : COutPoint → Option Coin}
  (C₀ : CoinsMatch m creates t₀ coins₀ tx) (C₁ : CoinsMatch m creates t₁ coins₁ tx) {a : Uint256}
  (ha₀ : AncestorOf m.prev a t₀) (ha₁ : AncestorOf m.prev a t₁)

include T h₀ h₁ H C₀ C₁ ha₀ ha₁

end Cached

end LockPoints

/-! ## The first two blocks -/

/-- A transaction with one input whose relative lock is zero. -/
def zeroLockTx (nLockTime : BitVec 32) : CTransaction where
  vin := [{ prevout := ⟨1#256, 0#32⟩, nSequence := 0#32 }]
  vout := []
  version := 2#32
  nLockTime := nLockTime

theorem exists_two_blocks :
    ∃ (bm : BlockManager) (g e : CBlockIndex), Built Model.nonceHash mainGenesis bm ∧
      bm.m_block_index (launchHash 0) = some g ∧ bm.m_block_index (launchHash 1) = some e ∧
      g.nHeight = 0 ∧ e.nHeight = 1 ∧ e.pprev = some (launchHash 0) ∧
      AncestorOf bm.m_block_index.prev (launchHash 0) (launchHash 1) ∧
      getMedianTimePast bm.m_block_index g = 1766971600 ∧
      TimesFollow bm.m_block_index (launchHash 1) := by
  obtain ⟨bm, m₀, g, hbuilt, hm₀, hfrom, E⟩ := exists_launch 0x1f0fffff#32 1 (by norm_num)
  have T := hbuilt.treeInv
  obtain ⟨e, he, hfrome, hprev, hheight⟩ := E.entry 0 _ (launchChain_getElem _ (by norm_num))
  rw [Model.nonceHash_launchBlock (by norm_num) (by norm_num)] at he
  have hg : bm.m_block_index (launchHash 0) = some g :=
    E.keeps _ _ (by rw [hm₀]; exact BlockMap.insert_self _ _ _)
  have hparent : e.pprev = some (launchHash 0) := hprev
  obtain ⟨ep, hep, hlow⟩ := T.parent he hparent
  rw [hg, Option.some_inj] at hep
  subst hep
  have hroot : g.nHeight = 0 := by omega
  have hmedian : getMedianTimePast bm.m_block_index g = 1766971600 := by
    rw [T.getMedianTimePast_root hg hroot, CBlockIndex.getBlockTime, hfrom.nTime]
    rfl
  refine ⟨bm, g, e, hbuilt, hg, he, hroot, by omega, hparent,
    .parent (by rw [BlockMap.prev_of he, hparent]), hmedian, ?_⟩
  intro k ek ek' hk hek hpk
  -- a block with a parent is the one at height one
  obtain ⟨q, hq, hek'⟩ := Option.bind_eq_some_iff.mp hpk
  obtain ⟨eq, -, hup⟩ := T.parent hek hq
  have hmem : (bm.m_block_index (launchHash 1)).isSome := Option.isSome_of_eq_some he
  have hrank : bm.m_block_index.height (launchHash 1) ≤ bm.m_block_index.height k := by
    rw [BlockMap.height_of he, BlockMap.height_of hek]
    omega
  obtain rfl := T.graded.eq_of_ancestor hmem hk hrank
  rw [he, Option.some_inj] at hek
  subst hek
  rw [BlockMap.pprev, hparent, Option.bind_some, hg, Option.some_inj] at hpk
  subst hpk
  rw [hmedian, CBlockIndex.getBlockTime, hfrome.nTime]
  decide

/-- A transaction locked until a time that the genesis block has passed stays final on the next
block, and the lock of an output of the genesis block stays satisfied. -/
theorem locks_stay_satisfied_launch :
    ∃ bm g e, Built Model.nonceHash mainGenesis bm ∧ bm.m_block_index (launchHash 0) = some g ∧
      bm.m_block_index (launchHash 1) = some e ∧
      getMedianTimePast bm.m_block_index g ≤ getMedianTimePast bm.m_block_index e ∧
      checkFinalTxAtTip bm.m_block_index e (zeroLockTx 500000000#32) = true ∧
      evaluateSequenceLocks bm.m_block_index (nextBlock e) (0, 1766971599) = .ok true := by
  obtain ⟨bm, g, e, hbuilt, hg, he, hroot, -, hparent, hanc, hmedian, H⟩ := exists_two_blocks
  have T := hbuilt.treeInv
  obtain ⟨hmono, hfinal, heval, -⟩ := locks_stay_satisfied T H hg he hanc
  refine ⟨bm, g, e, hbuilt, hg, he, ?_, hfinal _ ?_, heval _ ?_⟩
  · exact hmono _ e g (.refl _) he (by rw [BlockMap.pprev, hparent, Option.bind_some, hg])
  · rw [checkFinalTxAtTip, hmedian, hroot]
    decide
  · rw [evaluateSequenceLocks_nextBlock T hg, hmedian, hroot]
    rfl

end BitMinti.Analysis
