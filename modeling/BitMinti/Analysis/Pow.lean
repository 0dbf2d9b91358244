import BitMinti.Model.Pow
import BitMinti.Analysis.BlockIndex
import Mathlib.Data.Nat.ModEq
import Mathlib.Algebra.BigOperators.Ring.Finset
import Mathlib.Algebra.Order.BigOperators.Group.Finset

/-!
# The difficulty adjustment against its rule

`chainView` reads a chain of the block index as the abstract rule sees it.
`lwmaLoop_eq` says what the loop of `GetNextWorkRequired` adds up and
`getNextWorkRequired_eq` what the whole computation returns: the rule with every
256-bit operation taken modulo `2 ^ 256` (`wrappedTarget`).  When the product of the
average target and the weighted solvetimes fits 256 bits this is the rule itself.
-/

set_option autoImplicit false

namespace BitMinti.Model

open Computation.Ancestry Interface
open ArithUint256 (ofUInt64 ofUint256 setCompact)

/-! ## Reading a chain -/

/-- The entry `d` below the block stored under `h`. -/
def blockAt (m : BlockMap) (h : Uint256) (d : ℕ) : Option CBlockIndex := (up m.prev d h).bind m

/-- The chain that ends in the block stored under `h`. -/
def chainView (m : BlockMap) (h : Uint256) : ChainView where
  height := m.height h
  target d := ((blockAt m h d).map fun e => expandCompact e.nBits.toNat).getD 0
  time d := ((blockAt m h d).map CBlockIndex.getBlockTime).getD 0

section Chain

variable {m : BlockMap} {h : Uint256} {e : CBlockIndex}

variable {ed : CBlockIndex}

/-- Following `pprev` from the block `d` below the tip reaches the block
`d + 1` below it. -/
theorem pprev_blockAt {d : ℕ} (hd : blockAt m h d = some ed) :
    m.pprev ed = blockAt m h (d + 1) := by
  obtain ⟨a, ha, hma⟩ := Option.bind_eq_some_iff.mp hd
  rw [blockAt, up_succ_right, ha, Option.bind_some, BlockMap.prev_of hma]
  rfl

theorem TreeInv.exists_blockAt (T : TreeInv m) (he : m h = some e) {d : ℕ} (hd : d ≤ e.nHeight) :
    ∃ ed, blockAt m h d = some ed ∧ e.nHeight = ed.nHeight + d := by
  obtain ⟨a, ea, ha, hma, hheight⟩ := T.exists_up he hd
  exact ⟨ea, by rw [blockAt, ha, Option.bind_some, hma], hheight⟩

theorem chainView_target {d : ℕ} (hd : blockAt m h d = some ed) :
    (chainView m h).target d = expandCompact ed.nBits.toNat := by
  simp [chainView, hd]

theorem chainView_time {d : ℕ} (hd : blockAt m h d = some ed) :
    (chainView m h).time d = ed.getBlockTime := by
  simp [chainView, hd]

theorem chainView_height (he : m h = some e) : (chainView m h).height = e.nHeight :=
  BlockMap.height_of he

/-! ## The loop -/

variable {params : ConsensusParams} {spacing : ℕ}

/-- The solvetime of one pass is the rule's solvetime.
SOURCE: src/src/pow.cpp:45-66 -/
theorem TreeInv.lwmaSolvetime_eq (T : TreeInv m) (he : m h = some e)
    (hspacing : params.nPowTargetSpacing = spacing) {d : ℕ}
    (hd : blockAt m h d = some ed) (hlt : d < e.nHeight) :
    lwmaSolvetime m params ed = (chainView m h).solvetime lwmaWindow spacing d := by
  obtain ⟨ep, hep, -⟩ := T.exists_blockAt he (show d + 1 ≤ e.nHeight by omega)
  obtain ⟨ed', hd', hheight⟩ := T.exists_blockAt he hlt.le
  rw [hd] at hd'
  cases hd'
  have hfour : (spacing : ℤ).tdiv 4 = (spacing : ℤ) / 4 := Int.tdiv_eq_ediv_of_nonneg (by omega)
  have hsub : e.nHeight - d = ed.nHeight := by omega
  simp only [lwmaSolvetime, pprev_blockAt hd, hep, hspacing, hfour, ChainView.solvetime,
    chainView_height he, chainView_time hd, chainView_time hep, hsub]
  by_cases hgrace : ed.nHeight < lwmaWindow
  · simp only [if_pos hgrace]
    rw [if_neg (by omega)]
  · simp only [if_neg hgrace]
    rw [← clampSolvetime_eq_ite, Int.toNat_of_nonneg]
    unfold clampSolvetime
    omega

theorem ofInt64_toNat {x : ℕ} (hx : x < 2 ^ 64) : (ofInt64 x).toNat = x := by
  rw [ofInt64, ArithUint256.toNat_ofUInt64, BitVec.ofInt_natCast, BitVec.toNat_ofNat,
    Nat.mod_eq_of_lt hx]

/-- One pass adds the weighted target, modulo `2 ^ 256`.
SOURCE: src/src/pow.cpp:38-43 -/
theorem lwmaTarget_modEq (sumTarget : ArithUint256) (nBits : BitVec 32) {i : ℕ}
    (hi : i < 2 ^ 64) :
    (sumTarget + (setCompact nBits).1 * ofInt64 i).toNat ≡
      sumTarget.toNat + expandCompact nBits.toNat * i [MOD 2 ^ 256] := by
  rw [ArithUint256.toNat_add, ArithUint256.toNat_mul, ArithUint256.setCompact_toNat,
    ofInt64_toNat hi]
  refine (Nat.mod_modEq _ _).trans (Nat.ModEq.add_left _ ?_)
  exact (Nat.mod_modEq _ _).trans ((Nat.mod_modEq _ _).mul_right _)

/-- **The loop adds up the rule's sums**, the targets modulo `2 ^ 256`.  The
induction is on the weights left; `d` counts the blocks already passed.
SOURCE: src/src/pow.cpp:36-72 -/
theorem TreeInv.lwmaLoop_eq (T : TreeInv m) (he : m h = some e)
    (hspacing : params.nPowTargetSpacing = spacing) (i d : ℕ) (hle : i + d ≤ e.nHeight)
    (hi : i < 2 ^ 64) (sums : LwmaSums) :
    ∃ sums', lwmaLoop m params i (blockAt m h d) sums = .ok sums' ∧
      sums'.sumTarget.toNat ≡ sums.sumTarget.toNat +
        ∑ j ∈ Finset.Icc 1 i, (chainView m h).target (d + i - j) * j [MOD 2 ^ 256] ∧
      sums'.nWeightedSolvetimes = sums.nWeightedSolvetimes +
        (∑ j ∈ Finset.Icc 1 i,
          (chainView m h).solvetime lwmaWindow spacing (d + i - j) * j : ℕ) ∧
      sums'.nWeightSum = sums.nWeightSum + (∑ j ∈ Finset.Icc 1 i, j : ℕ) := by
  induction i generalizing d sums with
  | zero => exact ⟨sums, by rw [lwmaLoop], Nat.ModEq.rfl, by simp, by simp⟩
  | succ i ih =>
    obtain ⟨ed, hd, -⟩ := T.exists_blockAt he (show d ≤ e.nHeight by omega)
    obtain ⟨sums', hloop, htarget, hsolve, hweight⟩ := ih (d + 1) (by omega) (by omega) {
      sumTarget := sums.sumTarget + (setCompact ed.nBits).1 * ofInt64 (i + 1)
      nWeightedSolvetimes :=
        sums.nWeightedSolvetimes + lwmaSolvetime m params ed * (i + 1)
      nWeightSum := sums.nWeightSum + (i + 1) }
    have hidx : ∀ j, d + 1 + i - j = d + (i + 1) - j := fun j => by omega
    have hlast : d + (i + 1) - (i + 1) = d := by omega
    refine ⟨sums', ?_, ?_, ?_, ?_⟩
    · rw [hd, lwmaLoop, pprev_blockAt hd, hloop]
    · have hpass := lwmaTarget_modEq sums.sumTarget ed.nBits hi
      push_cast at hpass
      refine htarget.trans ((hpass.add_right _).trans ?_)
      rw [Finset.sum_Icc_succ_top (by omega), hlast, chainView_target hd]
      simp only [hidx]
      rw [Nat.add_assoc, Nat.add_comm (expandCompact _ * _)]
    · rw [hsolve, Finset.sum_Icc_succ_top (by omega), hlast,
        T.lwmaSolvetime_eq he hspacing hd (by omega)]
      simp only [hidx]
      push_cast
      ring
    · rw [hweight, Finset.sum_Icc_succ_top (by omega)]
      push_cast
      ring

end Chain

/-! ## The whole computation -/

/-- The rule with every 256-bit operation reduced modulo `2 ^ 256`. -/
def wrappedTarget (c : ChainView) (spacing powLimit : ℕ) : ℕ :=
  let sum := weightedTargets lwmaWindow (c.targetAt lwmaWindow) % 2 ^ 256
  let product := sum / weightSum lwmaWindow *
    weightedSolvetimes lwmaWindow (c.solvetimeAt lwmaWindow spacing) % 2 ^ 256
  let prev := c.target 0 % 2 ^ 256
  min (min (max (product / (weightSum lwmaWindow * spacing)) (prev * 90 % 2 ^ 256 / 100))
    (prev * 110 % 2 ^ 256 / 100)) powLimit

@[simp] theorem weightSum_lwmaWindow : weightSum lwmaWindow = 4095 := by decide

theorem weightedSolvetimes_le (c : ChainView) (spacing : ℕ) :
    weightedSolvetimes lwmaWindow (c.solvetimeAt lwmaWindow spacing) ≤ 4095 * (6 * spacing) := by
  calc weightedSolvetimes lwmaWindow (c.solvetimeAt lwmaWindow spacing)
      ≤ ∑ i ∈ Finset.Icc 1 lwmaWindow, 6 * spacing * i :=
        Finset.sum_le_sum fun i _ => Nat.mul_le_mul_right i (c.solvetime_le _ _ _)
    _ = 6 * spacing * weightSum lwmaWindow := by rw [weightSum, Finset.mul_sum]
    _ = 4095 * (6 * spacing) := by rw [weightSum_lwmaWindow, Nat.mul_comm]

theorem divOrThrow_ok (a b : ArithUint256) (hb : b.toNat ≠ 0) :
    ∃ q, divOrThrow a b = .ok q ∧ q.toNat = a.toNat / b.toNat := by
  obtain ⟨q, hq, hv⟩ := ArithUint256.div_eq a b hb
  exact ⟨q, by rw [divOrThrow, hq], hv⟩

/-- The three comparisons are a maximum and two minima.
SOURCE: src/src/pow.cpp:95-102 -/
theorem clampWork_toNat (powLimit maxUp maxDown bnNew : ArithUint256) :
    (clampWork powLimit maxUp maxDown bnNew).toNat =
      min (min (max bnNew.toNat maxUp.toNat) maxDown.toNat) powLimit.toNat := by
  simp only [clampWork, ArithUint256.blt_eq, decide_eq_true_eq]
  have hmax : (if bnNew.toNat < maxUp.toNat then maxUp else bnNew).toNat =
      max bnNew.toNat maxUp.toNat := by
    split <;> omega
  generalize (if bnNew.toNat < maxUp.toNat then maxUp else bnNew) = a at hmax ⊢
  have hmin : (if maxDown.toNat < a.toNat then maxDown else a).toNat =
      min a.toNat maxDown.toNat := by
    split <;> omega
  generalize (if maxDown.toNat < a.toNat then maxDown else a) = b at hmin ⊢
  rw [← hmax, ← hmin]
  split <;> omega

/-- **What `GetNextWorkRequired` returns**, for every chain of more than ninety
blocks, whatever its targets and times.
SOURCE: src/src/pow.cpp:14-105 -/
theorem TreeInv.getNextWorkRequired_eq {m : BlockMap} (T : TreeInv m) {h : Uint256}
    {e : CBlockIndex} (he : m h = some e) (hlen : lwmaWindow ≤ e.nHeight)
    {params : ConsensusParams} {spacing : ℕ} (hspacing : params.nPowTargetSpacing = spacing)
    (hpos : 0 < spacing) (hsmall : spacing < 2 ^ 32) :
    ∃ nBits, getNextWorkRequired m params e = .ok nBits ∧
      nBits.toNat = compactNat (wrappedTarget (chainView m h) spacing params.powLimit.toNat) := by
  have hb : blockAt m h 0 = some e := he
  obtain ⟨sums, hloop, htarget, hsolve, hweight⟩ :=
    T.lwmaLoop_eq he hspacing lwmaWindow 0 (by omega) (by norm_num [lwmaWindow]) ⟨ofUInt64 0, 0, 0⟩
  rw [hb] at hloop
  have hsum : sums.sumTarget.toNat =
      weightedTargets lwmaWindow ((chainView m h).targetAt lwmaWindow) % 2 ^ 256 := by
    have hzero : (ofUInt64 0).toNat = 0 := ArithUint256.toNat_ofUInt64 0
    simp only [hzero, Nat.zero_add, Nat.ModEq] at htarget
    rw [← Nat.mod_eq_of_lt sums.sumTarget.toNat_lt, htarget]
    simp only [weightedTargets, ChainView.targetAt]
  have hws : sums.nWeightedSolvetimes =
      (weightedSolvetimes lwmaWindow ((chainView m h).solvetimeAt lwmaWindow spacing) : ℕ) := by
    rw [hsolve]
    simp only [weightedSolvetimes, ChainView.solvetimeAt, zero_add]
  have hW : sums.nWeightSum = (4095 : ℕ) := by
    rw [hweight, ← weightSum_lwmaWindow]
    simp [weightSum]
  have hbound := weightedSolvetimes_le (chainView m h) spacing
  have h90 : (ofUInt64 90).toNat = 90 := ArithUint256.toNat_ofUInt64 90
  have h100 : (ofUInt64 100).toNat = 100 := ArithUint256.toNat_ofUInt64 100
  have h110 : (ofUInt64 110).toNat = 110 := ArithUint256.toNat_ofUInt64 110
  have hden : (4095 : ℕ) * (spacing : ℤ) = (4095 * spacing : ℕ) := by push_cast; ring
  -- the four quotients, none by zero
  obtain ⟨avg, havg, havgv⟩ := divOrThrow_ok sums.sumTarget (ofInt64 sums.nWeightSum)
    (by rw [hW, ofInt64_toNat (by norm_num)]; norm_num)
  obtain ⟨bnNew, hbn, hbnv⟩ := divOrThrow_ok (avg * ofInt64 sums.nWeightedSolvetimes)
    (ofInt64 (sums.nWeightSum * params.nPowTargetSpacing))
    (by rw [hW, hspacing, hden, ofInt64_toNat (by omega)]; omega)
  obtain ⟨up90, hup, hupv⟩ := divOrThrow_ok ((setCompact e.nBits).1 * ofUInt64 90)
    (ofUInt64 100) (by omega)
  obtain ⟨down110, hdown, hdownv⟩ := divOrThrow_ok ((setCompact e.nBits).1 * ofUInt64 110)
    (ofUInt64 100) (by omega)
  refine ⟨(clampWork (ofUint256 params.powLimit) up90 down110 bnNew).getCompact, ?_, ?_⟩
  · simp only [getNextWorkRequired, if_neg (Nat.not_lt.mpr hlen), hloop, havg, hbn, hup, hdown,
      bind, Except.bind]
  · rw [ArithUint256.getCompact_eq, clampWork_toNat, hbnv, hupv, hdownv]
    simp only [ArithUint256.toNat_mul, havgv, hsum, hW, hws, hspacing, hden, h90, h100, h110,
      ArithUint256.toNat_ofUint256, ArithUint256.setCompact_toNat, wrappedTarget,
      chainView_target hb, weightSum_lwmaWindow]
    rw [ofInt64_toNat (show 4095 < 2 ^ 64 by norm_num), ofInt64_toNat (by omega),
      ofInt64_toNat (by omega)]

/-! ## When the computation is the rule -/

/-- What `DeriveTarget` lets through is the unbounded number its argument spells,
and lies in the range it checks.
SOURCE: src/src/pow.cpp:134-148 -/
theorem deriveTarget_spec {nBits : BitVec 32} {pow_limit : Uint256} {t : ArithUint256}
    (h : deriveTarget nBits pow_limit = some t) :
    t.toNat = expandCompact nBits.toNat ∧ 0 < t.toNat ∧ t.toNat ≤ pow_limit.toNat := by
  have hoverflow := ArithUint256.setCompact_overflow nBits
  have hvalue := ArithUint256.setCompact_toNat nBits
  unfold deriveTarget at h
  generalize setCompact nBits = c at h hoverflow hvalue
  obtain ⟨bnTarget, fNegative, fOverflow⟩ := c
  simp only [Option.ite_none_left_eq_some, Option.some.injEq, Bool.or_eq_true,
    ArithUint256.isZero_eq, ArithUint256.blt_eq, decide_eq_true_eq,
    ArithUint256.toNat_ofUint256] at h
  obtain ⟨hnot, rfl⟩ := h
  simp only [not_or] at hnot
  obtain ⟨⟨⟨-, hzero⟩, hover⟩, hlimit⟩ := hnot
  rw [hoverflow] at hover
  dsimp only at hvalue
  rw [Nat.mod_eq_of_lt (by omega)] at hvalue
  exact ⟨hvalue, by omega, by omega⟩

/-- None of the sums and products of the computation leaves 256 bits. -/
def NoOverflow (c : ChainView) (spacing : ℕ) : Prop :=
  weightedTargets lwmaWindow (c.targetAt lwmaWindow) < 2 ^ 256 ∧
    weightedTargets lwmaWindow (c.targetAt lwmaWindow) / weightSum lwmaWindow *
      weightedSolvetimes lwmaWindow (c.solvetimeAt lwmaWindow spacing) < 2 ^ 256 ∧
    c.target 0 * 110 < 2 ^ 256

theorem NoOverflow.wrappedTarget_eq {c : ChainView} {spacing powLimit : ℕ}
    (h : NoOverflow c spacing) :
    wrappedTarget c spacing powLimit = c.nextTarget lwmaWindow spacing powLimit := by
  obtain ⟨hsum, hproduct, hprev⟩ := h
  have h0 : c.target 0 % 2 ^ 256 = c.target 0 := Nat.mod_eq_of_lt (by omega)
  have h90 : c.target 0 * 90 % 2 ^ 256 = c.target 0 * 90 := Nat.mod_eq_of_lt (by omega)
  simp only [wrappedTarget, ChainView.nextTarget, lwma, lwmaRaw, clampTarget,
    Nat.mod_eq_of_lt hsum, Nat.mod_eq_of_lt hproduct, h0, h90, Nat.mod_eq_of_lt hprev]

/-- Targets of at most `2 ^ 244` keep the weighted sum and the clamp inside
256 bits, so only the product can leave them. -/
theorem noOverflow_iff_of_le {c : ChainView} {spacing : ℕ} (hspacing : 4 ≤ spacing)
    (hle : ∀ d < lwmaWindow, c.target d ≤ 2 ^ 244) :
    NoOverflow c spacing ↔
      weightedTargets lwmaWindow (c.targetAt lwmaWindow) / weightSum lwmaWindow ≤
        (2 ^ 256 - 1) / weightedSolvetimes lwmaWindow (c.solvetimeAt lwmaWindow spacing) := by
  have hsum : weightedTargets lwmaWindow (c.targetAt lwmaWindow) ≤ 2 ^ 244 * 4095 := by
    calc weightedTargets lwmaWindow (c.targetAt lwmaWindow)
        ≤ ∑ i ∈ Finset.Icc 1 lwmaWindow, 2 ^ 244 * i := by
          refine Finset.sum_le_sum fun i hi => Nat.mul_le_mul_right i (hle _ ?_)
          have := (Finset.mem_Icc.mp hi).1
          unfold lwmaWindow
          omega
      _ = 2 ^ 244 * 4095 := by rw [← Finset.mul_sum, ← weightSum_lwmaWindow, weightSum]
  have hprev := hle 0 (by decide)
  have hpos : 0 < weightedSolvetimes lwmaWindow (c.solvetimeAt lwmaWindow spacing) := by
    refine Finset.sum_pos (fun i hi => ?_) ⟨1, by decide⟩
    have := (Finset.mem_Icc.mp hi).1
    exact Nat.mul_pos (c.solvetime_pos _ _ hspacing _) (by omega)
  rw [Nat.le_div_iff_mul_le hpos, NoOverflow]
  constructor
  · rintro ⟨-, hproduct, -⟩
    omega
  · intro hproduct
    exact ⟨by omega, by omega, by omega⟩

theorem mainParams_spacing : mainParams.nPowTargetSpacing = (600 : ℕ) := rfl

/-- **The mainnet difficulty is the rule's exactly while the average target
leaves room for the weighted solvetimes.**  For every chain of more than ninety blocks whose
window decodes to targets in range, the node returns the compact value of the unbounded rule
with no sum or product leaving 256 bits if and only if the weighted average target is at most
`(2 ^ 256 - 1)` divided by the weighted solvetimes.
SOURCE: src/src/pow.cpp:14-105 -/
theorem getNextWorkRequired_exact_iff {getHash : CBlockHeader → Uint256} {genesis : CBlockHeader}
    {bm : BlockManager} (hbm : Built getHash genesis bm) {h : Uint256} {e : CBlockIndex}
    (he : bm.m_block_index h = some e) (hlen : lwmaWindow ≤ e.nHeight)
    (hbits : ∀ d < lwmaWindow, ∀ ed, blockAt bm.m_block_index h d = some ed →
      (deriveTarget ed.nBits mainParams.powLimit).isSome) :
    ((∃ nBits, getNextWorkRequired bm.m_block_index mainParams e = .ok nBits ∧
        nBits.toNat = compactNat ((chainView bm.m_block_index h).nextTarget lwmaWindow 600
          mainParams.powLimit.toNat)) ∧
      NoOverflow (chainView bm.m_block_index h) 600) ↔
    weightedTargets lwmaWindow ((chainView bm.m_block_index h).targetAt lwmaWindow) /
        weightSum lwmaWindow ≤
      (2 ^ 256 - 1) / weightedSolvetimes lwmaWindow
        ((chainView bm.m_block_index h).solvetimeAt lwmaWindow 600) := by
  have T := hbm.treeInv
  have hle : ∀ d < lwmaWindow, (chainView bm.m_block_index h).target d ≤ 2 ^ 244 := by
    intro d hd
    obtain ⟨ed, hed, -⟩ := T.exists_blockAt he (show d ≤ e.nHeight from hd.le.trans hlen)
    obtain ⟨t, ht⟩ := Option.isSome_iff_exists.mp (hbits d hd ed hed)
    obtain ⟨hvalue, -, hlimit⟩ := deriveTarget_spec ht
    have hpow : mainParams.powLimit.toNat ≤ 2 ^ 244 := by decide
    rw [chainView_target hed]
    omega
  have hiff := noOverflow_iff_of_le (show 4 ≤ 600 by norm_num) hle
  rw [← hiff]
  constructor
  · exact And.right
  · intro hno
    refine ⟨?_, hno⟩
    obtain ⟨nBits, hok, hvalue⟩ := T.getNextWorkRequired_eq he hlen mainParams_spacing
      (by norm_num) (by norm_num)
    exact ⟨nBits, hok, by rw [hvalue, hno.wrappedTarget_eq]⟩

/-! ## The first blocks of mainnet

A concrete chain on which the rule and the computation part, and one on which they agree. -/

/-- The mainnet genesis header.
SOURCE: src/src/kernel/chainparams.cpp:157-168 -/
def mainGenesis : CBlockHeader where
  nVersion := 1
  hashPrevBlock := 0#256
  hashMerkleRoot := 0xd086f74285d50bb21873d47b675d88a5886c1535f7650b1803bb5ad3b0abbe67#256
  nTime := 1766971600#32
  nBits := 0x1f00ffff#32
  nNonce := 805306957#32

/-- A hash that tells headers apart by their nonce. -/
def nonceHash (block : CBlockHeader) : Uint256 := BitVec.ofNat 256 (block.nNonce.toNat + 1)

/-- The hash of the block of height `k` of the launch chain. -/
def launchHash : ℕ → Uint256
  | 0 => nonceHash mainGenesis
  | k + 1 => BitVec.ofNat 256 (k + 2)

/-- The block of height `k > 0`: on schedule, at the difficulty `nBits`.  The first ninety
blocks are asked for the proof-of-work limit, `0x1f0fffff`. -/
def launchBlock (nBits : BitVec 32) (k : ℕ) : CBlockHeader where
  nVersion := 4
  hashPrevBlock := launchHash (k - 1)
  hashMerkleRoot := 0#256
  nTime := BitVec.ofNat 32 (1766971600 + 600 * k)
  nBits := nBits
  nNonce := BitVec.ofNat 32 k

/-- The blocks of heights `1, …, n`. -/
def launchChain (nBits : BitVec 32) (n : ℕ) : List CBlockHeader :=
  (List.range' 1 n).map (launchBlock nBits)

section Launch

variable {nBits : BitVec 32} {n : ℕ}

theorem nonceHash_launchBlock {k : ℕ} (hpos : 0 < k) (hk : k < 2 ^ 32) :
    nonceHash (launchBlock nBits k) = launchHash k := by
  cases k with
  | zero => omega
  | succ k => simp only [nonceHash, launchBlock, BitVec.toNat_ofNat, launchHash,
      Nat.mod_eq_of_lt hk]

theorem launchHash_toNat {k : ℕ} (hk : k < 2 ^ 29) :
    (launchHash k).toNat = if k = 0 then 805306958 else k + 1 := by
  cases k with
  | zero => decide
  | succ k =>
    rw [if_neg (Nat.succ_ne_zero k), launchHash, BitVec.toNat_ofNat]
    exact Nat.mod_eq_of_lt (by omega)

theorem hashLinked_launch {s : ℕ} (hpos : 0 < s) (hn : s + n < 2 ^ 32) :
    HashLinked nonceHash (launchHash (s - 1)) ((List.range' s n).map (launchBlock nBits)) := by
  induction n generalizing s with
  | zero => trivial
  | succ n ih =>
    refine ⟨rfl, ?_⟩
    rw [nonceHash_launchBlock hpos (by omega)]
    exact ih (s := s + 1) (by omega) (by omega)

theorem launch_hashes (nBits : BitVec 32) (hn : n < 2 ^ 28) :
    ((launchChain nBits n).map nonceHash).Nodup ∧
      ∀ block ∈ launchChain nBits n, nonceHash block ≠ nonceHash mainGenesis := by
  have hmap : (launchChain nBits n).map nonceHash = (List.range' 1 n).map launchHash := by
    rw [launchChain, List.map_map]
    apply List.map_congr_left
    intro k hk
    have := List.mem_range'_1.mp hk
    exact nonceHash_launchBlock (by omega) (by omega)
  constructor
  · rw [hmap]
    refine List.Nodup.map_on ?_ List.nodup_range'
    intro a ha b hb hab
    have ha' := List.mem_range'_1.mp ha
    have hb' := List.mem_range'_1.mp hb
    have := congrArg BitVec.toNat hab
    rw [launchHash_toNat (by omega), launchHash_toNat (by omega), if_neg (by omega),
      if_neg (by omega)] at this
    omega
  · intro block hblock heq
    obtain ⟨k, hk, rfl⟩ := List.mem_map.mp hblock
    have hk' := List.mem_range'_1.mp hk
    rw [nonceHash_launchBlock (by omega) (by omega)] at heq
    have := congrArg BitVec.toNat heq
    rw [launchHash_toNat (by omega), if_neg (by omega)] at this
    have hgen : (nonceHash mainGenesis).toNat = 805306958 := by decide
    omega

theorem Built.exists_launch {bm₀ : BlockManager} {e₀ : CBlockIndex}
    (hbuilt : Built nonceHash mainGenesis bm₀)
    (hm₀ : bm₀.m_block_index = BlockMap.insert (fun _ => none) (nonceHash mainGenesis) e₀)
    (hheight : e₀.nHeight = 0) (nBits : BitVec 32) (hn : n < 2 ^ 28) :
    ∃ bm, Built nonceHash mainGenesis bm ∧
      Extends nonceHash (launchChain nBits n) 0 bm₀.m_block_index bm.m_block_index := by
  obtain ⟨hnodup, hne⟩ := launch_hashes nBits hn
  have hp : bm₀.m_block_index (nonceHash mainGenesis) = some e₀ := by
    rw [hm₀, BlockMap.insert_self]
  obtain ⟨bm, -, E, hbuilt'⟩ := hbuilt.treeInv.addHeaders_linked hp
    (hashLinked_launch (s := 1) (n := n) (by omega) (by omega))
    ⟨fun block hblock => by rw [hm₀, BlockMap.insert_of_ne _ _ (hne block hblock)], hnodup⟩
  rw [hheight] at E
  exact ⟨bm, hbuilt' _ hbuilt, E⟩

theorem exists_launch (nBits : BitVec 32) (n : ℕ) (hn : n < 2 ^ 28) :
    ∃ (bm : BlockManager) (m₀ : BlockMap) (e₀ : CBlockIndex),
      Built nonceHash mainGenesis bm ∧
      m₀ = BlockMap.insert (fun _ => none) (nonceHash mainGenesis) e₀ ∧
      FromHeader nonceHash mainGenesis e₀ ∧
      Extends nonceHash (launchChain nBits n) 0 m₀ bm.m_block_index := by
  obtain ⟨bm₀, e₀, hbuilt₀, hm₀, hfrom, hheight⟩ :=
    exists_built_genesis nonceHash mainGenesis (by decide)
  obtain ⟨bm, hbuilt, E⟩ := hbuilt₀.exists_launch hm₀ hheight nBits hn
  exact ⟨bm, bm₀.m_block_index, e₀, hbuilt, hm₀, hfrom, E⟩

theorem launchChain_getElem (nBits : BitVec 32) {i : ℕ} (hi : i < n) :
    (launchChain nBits n)[i]? = some (launchBlock nBits (i + 1)) := by
  rw [launchChain, List.getElem?_map, List.getElem?_range' (by omega)]
  simp [Nat.add_comm]

variable {m₀ m : BlockMap} {e₀ : CBlockIndex}

theorem Extends.launch_blockAt (E : Extends nonceHash (launchChain nBits n) 0 m₀ m) (hn : n < 2 ^ 28)
    {d : ℕ} (hd : d < n) :
    ∃ e, blockAt m (launchHash n) d = some e ∧
      FromHeader nonceHash (launchBlock nBits (n - d)) e ∧ e.nHeight = n - d := by
  have htip := launchChain_getElem nBits (show n - 1 < n by omega)
  have hat := launchChain_getElem nBits (show n - 1 - d < n by omega)
  rw [show n - 1 + 1 = n by omega] at htip
  rw [show n - 1 - d + 1 = n - d by omega] at hat
  obtain ⟨e, he, hfrom, -, hheight⟩ := E.entry _ _ hat
  have hup := (hashLinked_launch (s := 1) (n := n) (by omega) (by omega)).up_header
    (fun _ _ _ h => E.carries.prev h) htip hat (by omega)
  rw [nonceHash_launchBlock (by omega) (by omega)] at hup
  exact ⟨e, by rw [blockAt, hup, Option.bind_some, he], hfrom, by omega⟩

theorem Extends.launch_tip (E : Extends nonceHash (launchChain nBits n) 0 m₀ m) (hn : n < 2 ^ 28)
    (hpos : 0 < n) : ∃ e, m (launchHash n) = some e ∧
      FromHeader nonceHash (launchBlock nBits n) e ∧ e.nHeight = n :=
  E.launch_blockAt hn hpos

theorem Extends.launch_decodes (E : Extends nonceHash (launchChain nBits n) 0 m₀ m)
    (hm₀ : m₀ = BlockMap.insert (fun _ => none) (nonceHash mainGenesis) e₀)
    (hfrom : FromHeader nonceHash mainGenesis e₀)
    (hdec : (deriveTarget nBits mainParams.powLimit).isSome) {k : Uint256} {e : CBlockIndex}
    (he : m k = some e) : (deriveTarget e.nBits mainParams.powLimit).isSome := by
  have hbits : e.nBits = 0x1f00ffff#32 ∨ e.nBits = nBits := by
    rcases E.only k (by simp [he]) with hk | hk
    · obtain ⟨e', he'⟩ := Option.isSome_iff_exists.mp hk
      have hself := E.keeps k e' he'
      rw [he] at hself
      cases hself
      by_cases hgen : k = nonceHash mainGenesis
      · rw [hm₀, hgen, BlockMap.insert_self] at he'
        cases he'
        exact .inl hfrom.nBits
      · rw [hm₀, BlockMap.insert_of_ne _ _ hgen] at he'
        cases he'
    · obtain ⟨block, hblock, rfl⟩ := List.mem_map.mp hk
      obtain ⟨i, hi⟩ := List.mem_iff_getElem?.mp hblock
      obtain ⟨e', he', hfrom', -⟩ := E.entry i block hi
      rw [he] at he'
      cases he'
      obtain ⟨j, -, rfl⟩ := List.mem_map.mp hblock
      exact .inr hfrom'.nBits
  rcases hbits with h | h
  · rw [h]
    decide +kernel
  · rwa [h]

theorem Extends.launch_sums (E : Extends nonceHash (launchChain nBits 90) 0 m₀ m) :
    (∀ d < 90, (chainView m (launchHash 90)).target d = expandCompact nBits.toNat) ∧
      ∀ d < 90, (chainView m (launchHash 90)).solvetime 90 600 d = 600 := by
  constructor
  · intro d hd
    obtain ⟨e, he, hfrom, -⟩ := E.launch_blockAt (by norm_num) hd
    rw [chainView_target he, hfrom.nBits]
    rfl
  · intro d hd
    obtain ⟨e, he, hfrom, hheight⟩ := E.launch_blockAt (by norm_num) (show 0 < 90 by norm_num)
    have hm : m (launchHash 90) = some e := he
    rw [ChainView.solvetime, chainView_height hm, hheight]
    -- below the tip the grace period counts as perfect; the tip really took 600 seconds
    by_cases hzero : d = 0
    · obtain ⟨e₁, he₁, hfrom₁, -⟩ := E.launch_blockAt (by norm_num) (show 1 < 90 by norm_num)
      have htime : ∀ k, (launchBlock nBits k).nTime = BitVec.ofNat 32 (1766971600 + 600 * k) :=
        fun _ => rfl
      rw [hzero, if_neg (by omega), chainView_time he, chainView_time he₁,
        CBlockIndex.getBlockTime, CBlockIndex.getBlockTime, hfrom.nTime, hfrom₁.nTime,
        htime, htime]
      decide
    · rw [if_pos (by omega)]

theorem Extends.launch_weighted (E : Extends nonceHash (launchChain nBits 90) 0 m₀ m) :
    weightedTargets lwmaWindow ((chainView m (launchHash 90)).targetAt lwmaWindow) =
        expandCompact nBits.toNat * 4095 ∧
      weightedSolvetimes lwmaWindow ((chainView m (launchHash 90)).solvetimeAt lwmaWindow 600) =
        600 * 4095 := by
  obtain ⟨htarget, hsolve⟩ := E.launch_sums
  have hlt : ∀ i ∈ Finset.Icc 1 90, 90 - i < 90 := fun i hi => by
    have := (Finset.mem_Icc.mp hi).1
    omega
  constructor
  · rw [← weightSum_lwmaWindow, weightSum, Finset.mul_sum]
    exact Finset.sum_congr rfl fun i hi => congrArg (· * i) (htarget _ (hlt i hi))
  · rw [← weightSum_lwmaWindow, weightSum, Finset.mul_sum]
    exact Finset.sum_congr rfl fun i hi => congrArg (· * i) (hsolve _ (hlt i hi))

end Launch

/-- **The first retarget of mainnet wraps.**  After ninety blocks that are exactly
on schedule at the proof-of-work limit the rule keeps the target, but `GetNextWorkRequired`
returns nine tenths of it: the product wrapped to almost nothing and the clamp hid it.
SOURCE: src/src/pow.cpp:14-105 -/
theorem getNextWorkRequired_wraps_at_launch :
    ∃ bm e, Built nonceHash mainGenesis bm ∧
      bm.m_block_index (launchHash 90) = some e ∧ e.nHeight = 90 ∧
      (∀ k ek, bm.m_block_index k = some ek →
        (deriveTarget ek.nBits mainParams.powLimit).isSome) ∧
      getNextWorkRequired bm.m_block_index mainParams e = .ok 0x1f0e6665#32 ∧
      compactNat ((chainView bm.m_block_index (launchHash 90)).nextTarget lwmaWindow 600
        mainParams.powLimit.toNat) = 0x1f0fffff ∧
      ¬ NoOverflow (chainView bm.m_block_index (launchHash 90)) 600 := by
  obtain ⟨bm, m₀, e₀, hbuilt, hm₀, hfrom, E⟩ := exists_launch 0x1f0fffff#32 90 (by norm_num)
  obtain ⟨e, hm, -, hheight⟩ := E.launch_tip (by norm_num) (by norm_num)
  obtain ⟨htarget, -⟩ := E.launch_sums
  obtain ⟨hT, hS⟩ := E.launch_weighted
  set c := chainView bm.m_block_index (launchHash 90) with hc
  have h0 := htarget 0 (by norm_num)
  have hpow : mainParams.powLimit.toNat = 2 ^ 244 - 1 := by decide
  refine ⟨bm, e, hbuilt, hm, hheight,
    fun k ek hk => E.launch_decodes hm₀ hfrom (by decide +kernel) hk, ?_, ?_, ?_⟩
  · obtain ⟨nBits, hok, hvalue⟩ := hbuilt.treeInv.getNextWorkRequired_eq hm hheight.ge
      mainParams_spacing (by norm_num) (by norm_num)
    rw [hok]
    refine congrArg Except.ok (BitVec.eq_of_toNat_eq ?_)
    rw [hvalue, wrappedTarget, ← hc, hT, hS, h0, hpow, weightSum_lwmaWindow]
    decide +kernel
  · rw [ChainView.nextTarget, lwma, lwmaRaw, hT, hS, h0, hpow, weightSum_lwmaWindow]
    decide +kernel
  · rintro ⟨-, hproduct, -⟩
    rw [← hc, hT, hS, weightSum_lwmaWindow] at hproduct
    exact absurd hproduct (by decide +kernel)

/-- At the difficulty `0x1d00ffff` the same window leaves room for the product, and
the node follows the rule. -/
theorem getNextWorkRequired_exact_at_1d00ffff :
    ∃ bm e, Built nonceHash mainGenesis bm ∧ bm.m_block_index (launchHash 90) = some e ∧
      ∃ nBits, getNextWorkRequired bm.m_block_index mainParams e = .ok nBits ∧
        nBits.toNat = compactNat ((chainView bm.m_block_index (launchHash 90)).nextTarget
          lwmaWindow 600 mainParams.powLimit.toNat) := by
  obtain ⟨bm, m₀, e₀, hbuilt, hm₀, hfrom, E⟩ := exists_launch 0x1d00ffff#32 90 (by norm_num)
  obtain ⟨e, hm, -, hheight⟩ := E.launch_tip (by norm_num) (by norm_num)
  obtain ⟨hT, hS⟩ := E.launch_weighted
  have hexact := (getNextWorkRequired_exact_iff hbuilt hm hheight.ge (by
    intro d _ ed hd
    obtain ⟨a, -, ha⟩ := Option.bind_eq_some_iff.mp hd
    exact E.launch_decodes hm₀ hfrom (by decide +kernel) ha)).mpr
      (by rw [hT, hS, weightSum_lwmaWindow]; decide +kernel)
  exact ⟨bm, e, hbuilt, hm, hexact.1⟩

end BitMinti.Model
