import BitMinti.Analysis.Pow

/-!
# How far one difficulty adjustment goes

Whatever the moving average came to, wrapped or not, the clamps of `GetNextWorkRequired` leave
a target between nine and eleven tenths of the previous one, and the compact encoding only
rounds it down.  At targets near `2 ^ 256` the clamps wrap too: on a chain at the minimum
difficulty of regtest the first full window makes the difficulty leap.
-/

set_option autoImplicit false

namespace BitMinti.Model

open Computation.Ancestry Interface
open ArithUint256 (ofUInt64 ofUint256 setCompact)

/-! ## Decoding an encoded target -/

theorem setCompact_not_negative {nBits : BitVec 32} (h : nBits.toNat % 2 ^ 24 < 2 ^ 23) :
    (setCompact nBits).2.1 = false := by
  have hbit : nBits &&& 0x00800000#32 = 0#32 := by
    apply BitVec.eq_of_toNat_eq
    rw [BitVec.toNat_and, show (0x00800000#32).toNat = 2 ^ 23 from rfl, Nat.and_two_pow]
    rw [Nat.testBit_eq_decide_div_mod_eq, show nBits.toNat / 2 ^ 23 % 2 = 0 by omega]
    rfl
  simp [setCompact, hbit]

/-- **An encoding decodes to its number rounded down, without a flag.**
SOURCE: src/src/arith_uint256.cpp:175-216 -/
theorem setCompact_compactNat {nBits : BitVec 32} {n : ℕ} (hbits : nBits.toNat = compactNat n)
    (hn : n < 2 ^ 256) :
    (setCompact nBits).1.toNat = compactRound n ∧ (setCompact nBits).2.1 = false ∧
      (setCompact nBits).2.2 = false := by
  have hle := compactRound_le n
  have hexpand : expandCompact nBits.toNat = compactRound n := by rw [hbits, compactRound]
  refine ⟨?_, setCompact_not_negative (by rw [hbits]; exact compactNat_mantissa n), ?_⟩
  · rw [ArithUint256.setCompact_toNat, hexpand, Nat.mod_eq_of_lt (by omega)]
  · rw [Bool.eq_false_iff, ne_eq, ArithUint256.setCompact_overflow, hexpand]
    omega

/-! ## The clamps -/

/-- The clamps hold whatever the average came to, as long as eleven tenths of the
previous target fit 256 bits. -/
theorem wrappedTarget_bounds {c : ChainView} (spacing : ℕ) {powLimit T : ℕ}
    (hT : c.target 0 % 2 ^ 256 = T) (hsmall : T * 110 < 2 ^ 256) (hlimit : T ≤ powLimit) :
    T * 9 / 10 ≤ wrappedTarget c spacing powLimit ∧
      wrappedTarget c spacing powLimit ≤ T * 11 / 10 ∧
      wrappedTarget c spacing powLimit ≤ powLimit := by
  have h90 : T * 90 % 2 ^ 256 = T * 90 := Nat.mod_eq_of_lt (by omega)
  have h110 : T * 110 % 2 ^ 256 = T * 110 := Nat.mod_eq_of_lt hsmall
  simp only [wrappedTarget, hT, h90, h110]
  omega

/-- **The clamps leave one adjustment**, on every chain with a tip of height ninety or
more whose last `nBits` decode to at most the limit.
SOURCE: src/src/pow.cpp:86-105 -/
theorem TreeInv.getNextWorkRequired_adjusts {m : BlockMap} (T : TreeInv m) {h : Uint256}
    {e : CBlockIndex} (he : m h = some e) (hlen : lwmaWindow ≤ e.nHeight)
    (hlimit : (setCompact e.nBits).1.toNat ≤ mainParams.powLimit.toNat) :
    ∃ nBits, getNextWorkRequired m mainParams e = .ok nBits ∧
      (setCompact nBits).2.1 = false ∧ (setCompact nBits).2.2 = false ∧
      OneAdjustment mainParams.powLimit.toNat (setCompact e.nBits).1.toNat
        (setCompact nBits).1.toNat ∧
      (2 ≤ (setCompact e.nBits).1.toNat → (setCompact nBits).1.toNat ≠ 0) := by
  obtain ⟨nBits, hok, hbits⟩ := T.getNextWorkRequired_eq he hlen mainParams_spacing
    (by norm_num) (by norm_num)
  have hb : blockAt m h 0 = some e := he
  have hT : (chainView m h).target 0 % 2 ^ 256 = (setCompact e.nBits).1.toNat := by
    rw [chainView_target hb, ArithUint256.setCompact_toNat]
  have hpow : mainParams.powLimit.toNat = 2 ^ 244 - 1 := by decide
  obtain ⟨hlow, hhigh, hmax⟩ := wrappedTarget_bounds 600 hT (by omega) hlimit
  generalize (setCompact e.nBits).1.toNat = t at *
  generalize wrappedTarget (chainView m h) 600 mainParams.powLimit.toNat = n at *
  obtain ⟨hvalue, hneg, hover⟩ := setCompact_compactNat hbits (by omega)
  have hround := compactRound_le n
  refine ⟨nBits, hok, hneg, hover, ⟨by omega, by omega, ?_⟩, ?_⟩
  · rw [hvalue]
    exact compactRound_mono hlow
  · intro htwo
    rw [hvalue]
    exact (compactRound_pos (show 0 < n by omega)).ne'

/-- **One adjustment on mainnet.**  On every chain with a tip of height ninety or
more whose last `nBits` decode to a target `T` of at most the limit, the returned
`nBits` decode without a flag to a target that is at most the limit, at most `1.1 * T`, at least
`0.9 * T` as the encoding rounds it, and not zero if `T` is two or more.
SOURCE: src/src/pow.cpp:14-105 -/
theorem getNextWorkRequired_clamped {getHash : CBlockHeader → Uint256} {genesis : CBlockHeader}
    {bm : BlockManager} (hbm : Built getHash genesis bm) {h : Uint256} {e : CBlockIndex}
    (he : bm.m_block_index h = some e) (hlen : lwmaWindow ≤ e.nHeight)
    (hlimit : (setCompact e.nBits).1.toNat ≤ mainParams.powLimit.toNat) :
    ∃ nBits, getNextWorkRequired bm.m_block_index mainParams e = .ok nBits ∧
      (setCompact nBits).2.1 = false ∧ (setCompact nBits).2.2 = false ∧
      (setCompact nBits).1.toNat ≤ mainParams.powLimit.toNat ∧
      10 * (setCompact nBits).1.toNat ≤ 11 * (setCompact e.nBits).1.toNat ∧
      compactRound ((setCompact e.nBits).1.toNat * 9 / 10) ≤ (setCompact nBits).1.toNat ∧
      (2 ≤ (setCompact e.nBits).1.toNat → (setCompact nBits).1.toNat ≠ 0) := by
  obtain ⟨nBits, hok, hneg, hover, A, hne⟩ :=
    hbm.treeInv.getNextWorkRequired_adjusts he hlen hlimit
  exact ⟨nBits, hok, hneg, hover, A.limit, A.easier, A.harder, hne⟩

theorem getNextWorkRequired_clamped_launch :
    ∃ bm e nBits, Built nonceHash mainGenesis bm ∧ bm.m_block_index (launchHash 90) = some e ∧
      e.nBits = 0x1f0fffff#32 ∧ getNextWorkRequired bm.m_block_index mainParams e = .ok nBits ∧
      10 * (setCompact nBits).1.toNat ≤ 11 * (setCompact 0x1f0fffff#32).1.toNat ∧
      compactRound ((setCompact 0x1f0fffff#32).1.toNat * 9 / 10) ≤ (setCompact nBits).1.toNat := by
  obtain ⟨bm, m₀, e₀, hbuilt, -, -, E⟩ := exists_launch 0x1f0fffff#32 90 (by norm_num)
  obtain ⟨e, hm, hfrom, hheight⟩ := E.launch_tip (by norm_num) (by norm_num)
  have hbits : e.nBits = 0x1f0fffff#32 := hfrom.nBits
  obtain ⟨nBits, hok, -, -, -, hhigh, hlow, -⟩ :=
    getNextWorkRequired_clamped hbuilt hm hheight.ge (by rw [hbits]; decide +kernel)
  rw [hbits] at hhigh hlow
  exact ⟨bm, e, nBits, hbuilt, hm, hbits, hok, hhigh, hlow⟩

/-! ## Regtest

`fPowNoRetargeting` is set there and read nowhere in the computation. -/

/-- The regtest genesis header; its coinbase is that of the mainnet genesis block.
SOURCE: src/src/kernel/chainparams.cpp:43-92 and 718 -/
def regTestGenesis : CBlockHeader where
  nVersion := 1
  hashPrevBlock := 0#256
  hashMerkleRoot := mainGenesis.hashMerkleRoot
  nTime := 1296688602#32
  nBits := 0x207fffff#32
  nNonce := 2#32

/-- The upper clamp is a hundredth of a 256-bit product, so once the window is full
no target is as large as the one of the regtest genesis block. -/
theorem TreeInv.getNextWorkRequired_ne {m : BlockMap} (T : TreeInv m) {h : Uint256}
    {e : CBlockIndex} (he : m h = some e) (hlen : lwmaWindow ≤ e.nHeight)
    {params : ConsensusParams} (hspacing : params.nPowTargetSpacing = (600 : ℕ)) :
    getNextWorkRequired m params e ≠ .ok regTestGenesis.nBits := by
  obtain ⟨nBits, hok, hbits⟩ := T.getNextWorkRequired_eq he hlen hspacing (by norm_num)
    (by norm_num)
  have hsmall : wrappedTarget (chainView m h) 600 params.powLimit.toNat ≤ (2 ^ 256 - 1) / 100 := by
    have hmod := Nat.mod_lt ((chainView m h).target 0 % 2 ^ 256 * 110) (show 2 ^ 256 > 0 by norm_num)
    unfold wrappedTarget
    refine (min_le_left _ _).trans ((min_le_right _ _).trans ?_)
    omega
  have hround := compactRound_le (wrappedTarget (chainView m h) 600 params.powLimit.toNat)
  intro heq
  rw [hok, Except.ok.injEq] at heq
  rw [compactRound, ← hbits, heq] at hround
  have hexpand : expandCompact regTestGenesis.nBits.toNat = 0x7fffff * 2 ^ 232 := by decide
  omega

/-- **When regtest keeps the difficulty of its genesis block.**  With the regtest
parameters and any proof-of-work limit in place of theirs, on every chain built on the regtest
genesis block, the next `nBits` are those of the genesis block exactly when the limit encodes to
them and the tip is below height ninety.
SOURCE: src/src/pow.cpp:14-105, src/src/kernel/chainparams.cpp:638-652 -/
theorem getNextWorkRequired_regTest_iff {getHash : CBlockHeader → Uint256} {bm : BlockManager}
    (hbm : Built getHash regTestGenesis bm) {h : Uint256} {e : CBlockIndex}
    (he : bm.m_block_index h = some e) (hashGenesisBlock : Uint256) (enforce_bip94 : Bool)
    (powLimit : Uint256) :
    getNextWorkRequired bm.m_block_index
        { regTestParams hashGenesisBlock enforce_bip94 with powLimit := powLimit } e =
        .ok regTestGenesis.nBits ↔
      (ofUint256 powLimit).getCompact = regTestGenesis.nBits ∧ e.nHeight < lwmaWindow := by
  by_cases hlen : e.nHeight < lwmaWindow
  · rw [getNextWorkRequired, if_pos hlen, Except.ok.injEq]
    exact (and_iff_left hlen).symm
  · constructor
    · intro heq
      exact absurd heq (hbm.treeInv.getNextWorkRequired_ne he (Nat.not_lt.mp hlen) rfl)
    · intro hboth
      exact absurd hboth.2 hlen

/-- Regtest chains of any length below `2 ^ 31` whose blocks all carry the `nBits` of
the genesis block. -/
theorem exists_flat_chain (n : ℕ) (hn : n < 2 ^ 31) :
    ∃ bm e, Built nonceHash regTestGenesis bm ∧
      bm.m_block_index (BitVec.ofNat 256 (n + 3)) = some e ∧ e.nHeight = n ∧
      ∀ k ek, bm.m_block_index k = some ek →
        k.toNat ≤ n + 3 ∧ ek.nHeight ≤ n ∧ ek.nBits = regTestGenesis.nBits := by
  induction n with
  | zero =>
    obtain ⟨bm, e, hbuilt, hm, hfrom, hheight⟩ :=
      exists_built_genesis nonceHash regTestGenesis (by decide)
    have hhash : nonceHash regTestGenesis = BitVec.ofNat 256 3 := by decide
    rw [hhash] at hm
    refine ⟨bm, e, hbuilt, by rw [hm, BlockMap.insert_self], hheight, fun k ek hk => ?_⟩
    rw [hm] at hk
    rcases eq_or_ne k (BitVec.ofNat 256 3) with rfl | hne
    · rw [BlockMap.insert_self, Option.some_inj] at hk
      subst hk
      exact ⟨by decide, hheight.le, hfrom.nBits⟩
    · rw [BlockMap.insert_of_ne _ _ hne] at hk
      cases hk
  | succ n ih =>
    obtain ⟨bm, ep, hbuilt, hp, hheight, hall⟩ := ih (by omega)
    set block : CBlockHeader := { regTestGenesis with
      hashPrevBlock := BitVec.ofNat 256 (n + 3), nNonce := BitVec.ofNat 32 (n + 3) } with hblock
    have hhash : nonceHash block = BitVec.ofNat 256 (n + 1 + 3) := by
      rw [nonceHash, hblock, BitVec.toNat_ofNat, Nat.mod_eq_of_lt (by omega)]
    have hkey : (BitVec.ofNat 256 (n + 1 + 3)).toNat = n + 1 + 3 := by
      rw [BitVec.toNat_ofNat, Nat.mod_eq_of_lt (by omega)]
    have hfresh : bm.m_block_index (nonceHash block) = none := by
      by_contra hsome
      obtain ⟨ek, hk⟩ := Option.ne_none_iff_exists'.mp hsome
      have := (hall _ _ hk).1
      rw [hhash, hkey] at this
      omega
    obtain ⟨bm', hadd⟩ := addToBlockIndex_ok nonceHash block bm
    obtain ⟨e, hm, hfrom, -, hnext, -⟩ := hbuilt.treeInv.addToBlockIndex_new hfresh hp hadd
    rw [hhash] at hm
    have hparent : (bm.lookupBlockIndex block.hashPrevBlock).isSome :=
      Option.isSome_of_eq_some hp
    refine ⟨bm', e, .add hbuilt hparent hadd,
      by rw [hm, BlockMap.insert_self], by omega, fun k ek hk => ?_⟩
    rw [hm] at hk
    rcases eq_or_ne k (BitVec.ofNat 256 (n + 1 + 3)) with rfl | hne
    · rw [BlockMap.insert_self, Option.some_inj] at hk
      subst hk
      exact ⟨hkey.le, by omega, hfrom.nBits⟩
    · rw [BlockMap.insert_of_ne _ _ hne] at hk
      obtain ⟨hle, hlow, hbits⟩ := hall k ek hk
      exact ⟨by omega, by omega, hbits⟩

/-- The regtest parameters with the limit `7fff…` in place of theirs. -/
def highLimitParams : ConsensusParams :=
  { regTestParams (nonceHash regTestGenesis) false with powLimit := BitVec.ofNat 256 (2 ^ 255 - 1) }

theorem getNextWorkRequired_regTest_at_genesis :
    ∃ bm e, Built nonceHash regTestGenesis bm ∧
      bm.m_block_index (nonceHash regTestGenesis) = some e ∧
      getNextWorkRequired bm.m_block_index highLimitParams e = .ok regTestGenesis.nBits := by
  obtain ⟨bm, e, hbuilt, hm, hheight, -⟩ := exists_flat_chain 0 (by norm_num)
  refine ⟨bm, e, hbuilt, hm, ?_⟩
  refine (getNextWorkRequired_regTest_iff hbuilt hm _ _ _).mpr ⟨by decide +kernel, ?_⟩
  rw [hheight]
  decide

/-- At the target of the regtest genesis block both clamps wrap, the lower one above
the upper one, so the times do not matter. -/
theorem wrappedTarget_at_regTestGenesis {c : ChainView} (spacing : ℕ)
    (hT : c.target 0 = 0x7fffff * 2 ^ 232) :
    wrappedTarget c spacing (2 ^ 255 - 1) = 16777106 * 2 ^ 232 / 100 := by
  simp only [wrappedTarget, hT]
  omega

/-- **Regtest does not keep the difficulty of its genesis block.**  Its own limit is
below the genesis target, so already the first block must be harder.  With the limit `7fff…`
ninety blocks keep the `nBits` `207fffff`, as the computation asks of each; the next must have
`20028f5b`, because eleven tenths of the target wrap.
SOURCE: src/src/pow.cpp:14-105, src/src/kernel/chainparams.cpp:638-652 -/
theorem regTest_difficulty_changes :
    (∃ bm e, Built nonceHash regTestGenesis bm ∧
      bm.m_block_index (nonceHash regTestGenesis) = some e ∧
      getNextWorkRequired bm.m_block_index (regTestParams (nonceHash regTestGenesis) false) e =
        .ok 0x1f0fffff#32) ∧
    ∃ bm e, Built nonceHash regTestGenesis bm ∧
      bm.m_block_index (BitVec.ofNat 256 93) = some e ∧ e.nHeight = 90 ∧
      (∀ k ek ep, bm.m_block_index k = some ek → bm.m_block_index.pprev ek = some ep →
        getNextWorkRequired bm.m_block_index highLimitParams ep = .ok ek.nBits) ∧
      getNextWorkRequired bm.m_block_index highLimitParams e = .ok 0x20028f5b#32 := by
  constructor
  · obtain ⟨bm, e, hbuilt, hm, hheight, -⟩ := exists_flat_chain 0 (by norm_num)
    refine ⟨bm, e, hbuilt, hm, ?_⟩
    rw [getNextWorkRequired, if_pos (by rw [hheight]; decide)]
    decide +kernel
  · obtain ⟨bm, e, hbuilt, hm, hheight, hall⟩ := exists_flat_chain 90 (by norm_num)
    have T := hbuilt.treeInv
    refine ⟨bm, e, hbuilt, hm, hheight, fun k ek ep hk hpprev => ?_, ?_⟩
    · obtain ⟨p, hp, hep⟩ := Option.bind_eq_some_iff.mp hpprev
      obtain ⟨ep', hep', hlow⟩ := T.parent hk hp
      rw [hep] at hep'
      cases hep'
      obtain ⟨-, hle, hbits⟩ := hall k ek hk
      have hgrace : ep.nHeight < lwmaWindow := by
        unfold lwmaWindow
        omega
      rw [getNextWorkRequired, if_pos hgrace, hbits]
      decide +kernel
    · obtain ⟨nBits, hok, hvalue⟩ := T.getNextWorkRequired_eq hm hheight.ge
        (show highLimitParams.nPowTargetSpacing = (600 : ℕ) from rfl) (by norm_num) (by norm_num)
      have hb : blockAt bm.m_block_index (BitVec.ofNat 256 93) 0 = some e := hm
      have hT : (chainView bm.m_block_index (BitVec.ofNat 256 93)).target 0 =
          0x7fffff * 2 ^ 232 := by
        rw [chainView_target hb, (hall _ _ hm).2.2]
        decide
      have hlimit : highLimitParams.powLimit.toNat = 2 ^ 255 - 1 := by decide
      rw [hlimit, wrappedTarget_at_regTestGenesis 600 hT] at hvalue
      rw [hok]
      refine congrArg Except.ok (BitVec.eq_of_toNat_eq ?_)
      rw [hvalue]
      decide +kernel

end BitMinti.Model
