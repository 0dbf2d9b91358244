import BitMinti.Model.HeaderValidation
import BitMinti.Analysis.Pow

/-!
# Seeds and header acceptance

The three seed lookups of the node against the one rule `epochSeed`.
`contextualSeed_eq` says that `ContextualCheckBlockHeader` follows the rule with the
blocks below the header; at the first height of an epoch the rule asks for the header's
own block, which is not below it, and the check can only reject
(`contextual_stuck_at_boundary`).
-/

set_option autoImplicit false

namespace BitMinti.Model

open Computation.Ancestry Interface

/-- The identifier of the block of height `k` on the chain that ends in `h`. -/
def ancestorId (m : BlockMap) (h : Uint256) (k : ℕ) : Option Uint256 :=
  if k ≤ m.height h then up m.prev (m.height h - k) h else none

section Contextual

variable {m : BlockMap} {h : Uint256} {e : CBlockIndex}

/-- `GetAncestor` read through `GetBlockHash` is `ancestorId`.
SOURCE: src/src/chain.cpp:83-106 -/
theorem TreeInv.getAncestor_hash (T : TreeInv m) (he : m h = some e) (k : ℕ) :
    (getAncestor m e k).map (·.getBlockHash) = ancestorId m h k := by
  rw [ancestorId, BlockMap.height_of he]
  by_cases hk : k ≤ e.nHeight
  · obtain ⟨a, ea, ha, hma, -, hget⟩ := T.getAncestor_eq he hk
    rw [hget, if_pos hk, ha, Option.map_some, CBlockIndex.getBlockHash, T.key a ea hma]
  · rw [if_neg hk, TreeInv.getAncestor_none m e (by omega)]
    rfl

theorem TreeInv.ancestorId_isSome (T : TreeInv m) (he : m h = some e) (k : ℕ) :
    (ancestorId m h k).isSome ↔ k ≤ e.nHeight := by
  rw [ancestorId, BlockMap.height_of he]
  by_cases hk : k ≤ e.nHeight
  · obtain ⟨a, ea, ha, -⟩ := T.exists_up he (show e.nHeight - k ≤ e.nHeight by omega)
    simp [hk, ha]
  · simp [hk]

/-- **`ContextualCheckBlockHeader` follows the seed rule**, with the blocks below
the header.
SOURCE: src/src/validation.cpp:4863-4876 -/
theorem TreeInv.contextualSeed_eq (T : TreeInv m) (he : m h = some e) :
    contextualSeed m e = epochSeed randomXEpoch 0#256 (ancestorId m h) (e.nHeight + 1) := by
  unfold contextualSeed epochSeed
  rw [← T.getAncestor_hash he]

/-- **The rule finds no block exactly at the first height of an epoch.** -/
theorem TreeInv.contextualSeed_eq_none_iff (T : TreeInv m) (he : m h = some e) :
    contextualSeed m e = none ↔ randomXEpoch ∣ e.nHeight + 1 := by
  rw [T.contextualSeed_eq he, epochSeed]
  have hid := T.ancestorId_isSome he ((e.nHeight + 1) / randomXEpoch * randomXEpoch)
  have hdvd : randomXEpoch ∣ e.nHeight + 1 ↔
      (e.nHeight + 1) / randomXEpoch * randomXEpoch = e.nHeight + 1 :=
    ⟨Nat.div_mul_cancel, fun heq => heq ▸ Nat.dvd_mul_left _ _⟩
  have hle := Nat.div_mul_le_self (e.nHeight + 1) randomXEpoch
  rw [hdvd]
  split
  case isTrue hzero => simp [hzero]
  case isFalse hzero =>
    rw [← Option.not_isSome_iff_eq_none, hid]
    omega

/-- A proof of work that is accepted is at most the decoded target.
SOURCE: src/src/pow.cpp:150-161 -/
theorem checkProofOfWork_iff (hash : Uint256) (nBits : BitVec 32) (params : ConsensusParams) :
    checkProofOfWork hash nBits params = true ↔
      ∃ t, deriveTarget nBits params.powLimit = some t ∧ hash.toNat ≤ t.toNat := by
  unfold checkProofOfWork
  cases h : deriveTarget nBits params.powLimit with
  | none => simp
  | some t => simp [ArithUint256.blt_eq]

/-- On an index the node built the difficulty can always be computed.
SOURCE: src/src/pow.cpp:14-105 -/
theorem TreeInv.getNextWorkRequired_ok (T : TreeInv m) (he : m h = some e)
    {params : ConsensusParams} {spacing : ℕ} (hspacing : params.nPowTargetSpacing = spacing)
    (hpos : 0 < spacing) (hsmall : spacing < 2 ^ 32) :
    ∃ nBits, getNextWorkRequired m params e = .ok nBits := by
  by_cases hlen : e.nHeight < lwmaWindow
  · exact ⟨(ArithUint256.ofUint256 params.powLimit).getCompact,
      by rw [getNextWorkRequired, if_pos hlen]⟩
  · obtain ⟨nBits, hok, -⟩ :=
      T.getNextWorkRequired_eq he (Nat.not_lt.mp hlen) hspacing hpos hsmall
    exact ⟨nBits, hok⟩

/-! ## What a header must meet -/

variable {σ : Type} (getPoWHash : PoWHash σ) (params : ConsensusParams)

/-- The rules for a child of the block `e` stored under `h`, in the state `s`: the difficulty
asked for, a proof of work that meets it under the seed of the rule, a time after the median
and not too far ahead, and a version that is not outdated. -/
structure GoodHeader (m : BlockMap) (h : Uint256) (e : CBlockIndex) (now : ℤ)
    (block : CBlockHeader) (s : σ) : Prop where
  nBits : getNextWorkRequired m params e = .ok block.nBits
  pow : ∀ seed, epochSeed randomXEpoch 0#256 (ancestorId m h) (e.nHeight + 1) = some seed →
    ∃ t, deriveTarget block.nBits params.powLimit = some t ∧
      (getPoWHash block seed s).1.toNat ≤ t.toNat
  afterMedian : getMedianTimePast m e < block.getBlockTime
  notTooNew : block.getBlockTime * clockTicks ≤ now + MAX_FUTURE_BLOCK_TIME * clockTicks
  version : outdatedVersion params block e = false
  timewarp : timewarpAttack params block e = false

/-- The rejection "randomx-seed-unknown". -/
def SeedUnknown (r : Except Fault (Except Invalid Unit) × σ) : Prop :=
  ∃ i : Invalid, r.1 = .ok (.error i) ∧ i.reject_reason = "randomx-seed-unknown"

/-- With a seed, a good header passes.
SOURCE: src/src/validation.cpp:4847-4928 -/
theorem GoodHeader.accepted {now : ℤ} {block : CBlockHeader} {s : σ}
    (G : GoodHeader getPoWHash params m h e now block s) (T : TreeInv m) (he : m h = some e)
    {seed : Uint256} (hseed : contextualSeed m e = some seed) (fCheckPoW : Bool) :
    (contextualCheckBlockHeader getPoWHash params m now block e fCheckPoW s).1 = .ok (.ok ()) := by
  have hpow : (checkHeaderPoW getPoWHash params block seed s).1 = true :=
    (checkProofOfWork_iff _ _ _).mpr (G.pow seed (T.contextualSeed_eq he ▸ hseed))
  have htime : contextualTimeAndVersion params m now block e = .ok () := by
    unfold contextualTimeAndVersion
    rw [if_neg (not_le.mpr G.afterMedian), if_neg (by simp [G.timewarp]),
      if_neg (not_lt.mpr G.notTooNew), if_neg (by simp [G.version])]
  simp only [contextualCheckBlockHeader, G.nBits, hseed, ne_eq, not_true_eq_false, if_false]
  cases fCheckPoW with
  | false => simp [htime]
  | true => simp [hpow, htime]

/-- Every way `ContextualCheckBlockHeader` can end, with what led there.
SOURCE: src/src/validation.cpp:4847-4928 -/
theorem contextualCheckBlockHeader_cases (m : BlockMap) (now : ℤ) (block : CBlockHeader)
    (e : CBlockIndex) (fCheckPoW : Bool) (s : σ) :
    let r := contextualCheckBlockHeader getPoWHash params m now block e fCheckPoW s
    (∃ f, getNextWorkRequired m params e = .error f ∧ r = (.error f, s)) ∨
    (∃ nBits, getNextWorkRequired m params e = .ok nBits ∧ block.nBits ≠ nBits ∧
      r = (.ok (.error ⟨.invalidHeader, "bad-diffbits", "incorrect proof of work"⟩), s)) ∨
    (getNextWorkRequired m params e = .ok block.nBits ∧ contextualSeed m e = none ∧
      r = (.ok (.error ⟨.invalidHeader, "randomx-seed-unknown", ""⟩), s)) ∨
    (∃ seed s', contextualSeed m e = some seed ∧
      checkHeaderPoW getPoWHash params block seed s = (false, s') ∧
      r = (.ok (.error ⟨.invalidHeader, "high-hash", "proof of work failed"⟩), s')) ∨
    (∃ seed s', contextualSeed m e = some seed ∧
      (fCheckPoW = true → checkHeaderPoW getPoWHash params block seed s = (true, s')) ∧
      r = (.ok (contextualTimeAndVersion params m now block e), s')) := by
  intro r
  have hr : r = contextualCheckBlockHeader getPoWHash params m now block e fCheckPoW s := rfl
  unfold contextualCheckBlockHeader at hr
  split at hr
  case h_1 f hf => exact .inl ⟨f, hf, hr⟩
  case h_2 nBits hn =>
    split at hr
    case isTrue hne => exact .inr (.inl ⟨nBits, hn, hne, hr⟩)
    case isFalse heq =>
      rw [not_not] at heq
      rw [← heq] at hn
      split at hr
      case h_1 hseed => exact .inr (.inr (.inl ⟨hn, hseed, hr⟩))
      case h_2 seed hseed =>
        right; right; right
        cases fCheckPoW with
        | false => exact .inr ⟨seed, s, hseed, by simp, by simpa using hr⟩
        | true =>
          obtain ⟨⟨ok, s'⟩, hpow⟩ : ∃ p, checkHeaderPoW getPoWHash params block seed s = p :=
            ⟨_, rfl⟩
          rw [if_pos rfl, hpow] at hr
          cases ok with
          | false => exact .inl ⟨seed, s', hseed, hpow, by simpa using hr⟩
          | true => exact .inr ⟨seed, s', hseed, fun _ => hpow, by simpa using hr⟩

theorem contextualTimeAndVersion_reason {now : ℤ} {block : CBlockHeader} {i : Invalid}
    (hi : contextualTimeAndVersion params m now block e = .error i) :
    i.reject_reason ≠ "randomx-seed-unknown" := by
  unfold contextualTimeAndVersion at hi
  split at hi
  · cases hi; decide
  · split at hi
    · cases hi; decide
    · split at hi
      · cases hi; decide
      · split at hi
        · cases hi
          intro heq
          have := congrArg String.toList heq
          simp at this
        · cases hi

/-- With a seed, no header is turned away for the lack of one.
SOURCE: src/src/validation.cpp:4847-4928 -/
theorem not_seedUnknown_of_seed {seed : Uint256} (hseed : contextualSeed m e = some seed)
    (now : ℤ) (block : CBlockHeader) (fCheckPoW : Bool) (s : σ) :
    ¬ SeedUnknown
      (contextualCheckBlockHeader getPoWHash params m now block e fCheckPoW s) := by
  rintro ⟨i, hi, hreason⟩
  rcases contextualCheckBlockHeader_cases getPoWHash params m now block e fCheckPoW s with
    ⟨f, -, hr⟩ | ⟨nBits, -, -, hr⟩ | ⟨-, hnone, -⟩ | ⟨seed', s', -, -, hr⟩ | ⟨seed', s', -, -, hr⟩
  · rw [hr] at hi; cases hi
  · rw [hr] at hi; cases hi; exact absurd hreason (by decide)
  · rw [hseed] at hnone; cases hnone
  · rw [hr] at hi; cases hi; exact absurd hreason (by decide)
  · rw [hr] at hi
    exact contextualTimeAndVersion_reason params (Except.ok.inj hi) hreason

/-- **At the first height of an epoch every header is rejected**: for the wrong
difficulty, or else for want of a seed.
SOURCE: src/src/validation.cpp:4858-4876 -/
theorem TreeInv.contextual_stuck_at_boundary (T : TreeInv m) (he : m h = some e) {spacing : ℕ}
    (hspacing : params.nPowTargetSpacing = spacing) (hpos : 0 < spacing) (hsmall : spacing < 2 ^ 32)
    (hdvd : randomXEpoch ∣ e.nHeight + 1) (now : ℤ) (block : CBlockHeader) (fCheckPoW : Bool)
    (s : σ) :
    (contextualCheckBlockHeader getPoWHash params m now block e fCheckPoW s).1 =
      .ok (.error (if getNextWorkRequired m params e = .ok block.nBits then
          ⟨.invalidHeader, "randomx-seed-unknown", ""⟩
        else ⟨.invalidHeader, "bad-diffbits", "incorrect proof of work"⟩)) := by
  obtain ⟨nBits, hn⟩ := T.getNextWorkRequired_ok he hspacing hpos hsmall
  have hseed := (T.contextualSeed_eq_none_iff he).mpr hdvd
  by_cases heq : block.nBits = nBits
  · simp [contextualCheckBlockHeader, hn, heq, hseed]
  · simp [contextualCheckBlockHeader, hn, heq, Ne.symm heq]

/-- **A block can be extended exactly when its child does not open an epoch.**  For
every index the node builds and every block in it, `ContextualCheckBlockHeader` never rejects a
child for an unknown seed and accepts every child that meets the rules, if and only if the
child's height is no multiple of 2048.
SOURCE: src/src/validation.cpp:4847-4928 -/
theorem contextual_extends_iff {getHash : CBlockHeader → Uint256} {genesis : CBlockHeader}
    {bm : BlockManager} (hbm : Built getHash genesis bm) (he : bm.m_block_index h = some e)
    {spacing : ℕ} (hspacing : params.nPowTargetSpacing = spacing) (hpos : 0 < spacing)
    (hsmall : spacing < 2 ^ 32) (s : σ) :
    ((∀ now block fCheckPoW, ¬ SeedUnknown (contextualCheckBlockHeader getPoWHash params
        bm.m_block_index now block e fCheckPoW s)) ∧
      ∀ now block, GoodHeader getPoWHash params bm.m_block_index h e now block s →
        (contextualCheckBlockHeader getPoWHash params bm.m_block_index now block e true s).1 =
          .ok (.ok ())) ↔
    ¬ 2048 ∣ e.nHeight + 1 := by
  have T := hbm.treeInv
  constructor
  · rintro ⟨hfind, -⟩ hdvd
    obtain ⟨nBits, hn⟩ := T.getNextWorkRequired_ok he hspacing hpos hsmall
    -- any header with the right difficulty will do
    refine hfind 0 ⟨0, 0#256, 0#256, 0#32, nBits, 0#32⟩ true
      ⟨⟨.invalidHeader, "randomx-seed-unknown", ""⟩, ?_, rfl⟩
    rw [T.contextual_stuck_at_boundary getPoWHash params he hspacing hpos hsmall hdvd, if_pos hn]
  · intro hdvd
    obtain ⟨seed, hseed⟩ : ∃ seed, contextualSeed bm.m_block_index e = some seed := by
      rw [← Option.ne_none_iff_exists', ne_eq, T.contextualSeed_eq_none_iff he]
      exact hdvd
    exact ⟨fun now block fCheckPoW =>
        not_seedUnknown_of_seed getPoWHash params hseed now block fCheckPoW s,
      fun now block G => G.accepted getPoWHash params T he hseed true⟩

end Contextual

/-- **Mainnet stops at height 2048.**  On the launch chain of 2047 blocks no header
whatsoever is accepted, whatever the clock, the hash and the state; the ones with the right
difficulty are turned away for an unknown seed.
SOURCE: src/src/validation.cpp:4863-4876 -/
theorem launch_stops_at_2048 :
    ∃ bm e, Built nonceHash mainGenesis bm ∧ bm.m_block_index (launchHash 2047) = some e ∧
      e.nHeight = 2047 ∧
      ∀ (σ : Type) (getPoWHash : PoWHash σ) (now : ℤ) (block : CBlockHeader) (fCheckPoW : Bool)
        (s : σ),
        (contextualCheckBlockHeader getPoWHash mainParams bm.m_block_index now block e
            fCheckPoW s).1 ≠ .ok (.ok ()) ∧
        (getNextWorkRequired bm.m_block_index mainParams e = .ok block.nBits →
          SeedUnknown (contextualCheckBlockHeader getPoWHash mainParams bm.m_block_index now
            block e fCheckPoW s)) := by
  obtain ⟨bm, m₀, e₀, hbuilt, -, -, E⟩ := exists_launch 0x1f0fffff#32 2047 (by norm_num)
  obtain ⟨e, hm, -, hheight⟩ := E.launch_tip (by norm_num) (by norm_num)
  refine ⟨bm, e, hbuilt, hm, hheight, ?_⟩
  intro σ getPoWHash now block fCheckPoW s
  have hstuck := hbuilt.treeInv.contextual_stuck_at_boundary getPoWHash mainParams hm
    mainParams_spacing (by norm_num) (by norm_num)
    (by rw [hheight]; decide) now block fCheckPoW s
  rw [hstuck]
  refine ⟨by simp, fun hbits => ⟨_, hstuck, ?_⟩⟩
  rw [if_pos hbits]

theorem launch_extends_at_2 :
    ∃ bm e, Built nonceHash mainGenesis bm ∧ bm.m_block_index (launchHash 1) = some e ∧
      ∀ now block, GoodHeader (fun _ _ _ => (0#256, ())) mainParams bm.m_block_index
          (launchHash 1) e now block () →
        (contextualCheckBlockHeader (fun _ _ _ => (0#256, ())) mainParams bm.m_block_index now
          block e true ()).1 = .ok (.ok ()) := by
  obtain ⟨bm, m₀, e₀, hbuilt, -, -, E⟩ := exists_launch 0x1f0fffff#32 1 (by norm_num)
  obtain ⟨e, hm, -, hheight⟩ := E.launch_tip (by norm_num) (by norm_num)
  have hext := (contextual_extends_iff (fun _ _ _ => (0#256, ())) mainParams hbuilt hm
    mainParams_spacing (by norm_num) (by norm_num) ()).mpr
    (by rw [hheight]; decide)
  exact ⟨bm, e, hbuilt, hm, hext.2⟩

/-! ## The batch check -/

/-- The seed of the batch rule for a header whose parent is in the index: the block that
opened the epoch of the *parent's* height. -/
def parentSeed (m : BlockMap) (header : CBlockHeader) : Option Uint256 :=
  epochSeed randomXEpoch 0#256 (ancestorId m header.hashPrevBlock)
    (m.height header.hashPrevBlock)

section Batch

variable {σ : Type} (getPoWHash : PoWHash σ) (params : ConsensusParams)
variable {getHash : CBlockHeader → Uint256} {m m' : BlockMap} {bm : BlockManager}

variable {e : CBlockIndex}

theorem TreeInv.ancestorId_mono (T : TreeInv m) (hsub : ∀ k e, m k = some e → m' k = some e)
    {h : Uint256} (he : m h = some e) :
    ancestorId m' h = ancestorId m h ∧ m'.height h = m.height h := by
  have hheight : m'.height h = m.height h := by
    rw [BlockMap.height_of he, BlockMap.height_of (hsub h e he)]
  refine ⟨?_, hheight⟩
  funext k
  rw [ancestorId, ancestorId, hheight, T.up_mono hsub (by simp [he])]

variable {header : CBlockHeader}

theorem TreeInv.parentSeed_mono (T : TreeInv m) (hsub : ∀ k e, m k = some e → m' k = some e)
    (he : m header.hashPrevBlock = some e) :
    parentSeed m' header = parentSeed m header := by
  obtain ⟨hid, hheight⟩ := T.ancestorId_mono hsub he
  rw [parentSeed, parentSeed, hid, hheight]

variable {headers : List CBlockHeader} {p : Uint256} {ep : CBlockIndex}

section

variable (E : Carries getHash headers ep.nHeight m m')

include E

/-- In an added chain the parent of the `i`-th header is an entry `i` above the
block the chain was added to. -/
theorem Carries.parent_entry (hp : m p = some ep) (hlink : HashLinked getHash p headers) {i : ℕ}
    (hi : headers[i]? = some header) :
    ∃ e, m' header.hashPrevBlock = some e ∧ e.nHeight = ep.nHeight + i := by
  cases i with
  | zero => exact ⟨ep, by rw [hlink.head hi]; exact E.keeps p ep hp, rfl⟩
  | succ i =>
    obtain ⟨c, hc, hprev⟩ := hlink.link_succ hi
    obtain ⟨e, he, -, hheight⟩ := E.entry i c hc
    exact ⟨e, by rw [hprev, he], by omega⟩

/-- The ancestors of the parent of the `i`-th header at heights the index already
had are those of the block the chain was added to. -/
theorem Carries.ancestorId_low (T : TreeInv m)
    (hp : m p = some ep) (hlink : HashLinked getHash p headers) {i k : ℕ}
    (hi : headers[i]? = some header) (hk : k ≤ ep.nHeight) :
    ancestorId m' header.hashPrevBlock k = ancestorId m p k := by
  obtain ⟨e, he, hheight⟩ := E.parent_entry hp hlink hi
  rw [ancestorId, ancestorId, BlockMap.height_of he, BlockMap.height_of hp, if_pos (by omega),
    if_pos hk]
  cases i with
  | zero =>
    rw [hlink.head hi, show e.nHeight = ep.nHeight by omega]
    exact T.up_mono E.keeps (by simp [hp]) _
  | succ i =>
    obtain ⟨c, hc, hprev⟩ := hlink.link_succ hi
    rw [hprev, show e.nHeight - k = i + 1 + (ep.nHeight - k) by omega]
    exact E.up_base T (by simp [hp]) hlink hc _

theorem Carries.ancestorId_high
    (hp : m p = some ep) (hlink : HashLinked getHash p headers) {i k : ℕ}
    {header seedHeader : CBlockHeader} (hi : headers[i]? = some header) (hk : ep.nHeight < k)
    (hki : k ≤ ep.nHeight + i) (hseed : headers[k - ep.nHeight - 1]? = some seedHeader) :
    ancestorId m' header.hashPrevBlock k = some (getHash seedHeader) := by
  obtain ⟨e, he, hheight⟩ := E.parent_entry hp hlink hi
  rw [ancestorId, BlockMap.height_of he, if_pos (by omega)]
  cases i with
  | zero => omega
  | succ i =>
    obtain ⟨c, hc, hprev⟩ := hlink.link_succ hi
    rw [hprev]
    refine hlink.up_header (fun _ _ _ h => E.prev h) hc ?_ (by omega)
    rw [show i - (e.nHeight - k) = k - ep.nHeight - 1 by omega]
    exact hseed

/-- **The index arithmetic of the batch check finds the block of the rule**, in the
history of the batch or inside the batch.
SOURCE: src/src/validation.cpp:4722-4776 -/
theorem Carries.batchSeed_eq (T : TreeInv m)
    (hp : m p = some ep) (hlink : HashLinked getHash p headers) {i : ℕ}
    (hi : headers[i]? = some header) :
    batchSeed getHash m headers (some ep) (ep.nHeight + 1 + i) i = parentSeed m' header := by
  obtain ⟨e, he, hheight⟩ := E.parent_entry hp hlink hi
  have hlt := (List.getElem?_eq_some_iff.mp hi).1
  set k := (ep.nHeight + i) / randomXEpoch * randomXEpoch with hk
  have hkle : k ≤ ep.nHeight + i := Nat.div_mul_le_self _ _
  have hseedHeight : ((ep.nHeight : ℤ) + 1 + i - 1).tdiv randomXEpoch * randomXEpoch = (k : ℕ) := by
    rw [show (ep.nHeight : ℤ) + 1 + i - 1 = ((ep.nHeight + i : ℕ) : ℤ) by omega,
      ← Int.ofNat_tdiv, hk]
    push_cast
    rfl
  rw [parentSeed, epochSeed, BlockMap.height_of he, hheight, ← hk, batchSeed]
  simp only [hseedHeight, Option.filter_some]
  by_cases hzero : k = 0
  · simp [hzero]
  · rw [if_neg (by exact_mod_cast hzero), if_neg hzero]
    by_cases hlow : k ≤ ep.nHeight
    · -- the seed block is in the history of the batch
      rw [if_pos (by simpa using hlow)]
      dsimp only
      rw [T.getAncestor_hash hp, E.ancestorId_low T hp hlink hi hlow]
    · -- the seed block is one of the headers before this one
      rw [if_neg (by simpa using hlow)]
      dsimp only
      obtain ⟨c, hc⟩ : ∃ c, headers[k - ep.nHeight - 1]? = some c :=
        ⟨_, List.getElem?_eq_getElem (by omega)⟩
      rw [if_neg (by omega),
        show i - ((ep.nHeight : ℤ) + 1 + i - k).toNat = k - ep.nHeight - 1 by omega, hc,
        E.ancestorId_high hp hlink hi (by omega) hkle hc]
      rfl

end

/-- Checking headers one at a time, each under its own seed, until one fails. -/
def checkEach (seedOf : CBlockHeader → Option Uint256) : List CBlockHeader → σ → Bool × σ
  | [], s => (true, s)
  | header :: rest, s =>
    match seedOf header with
    | none => (false, s)
    | some seed =>
      let (powOk, s) := checkHeaderPoW getPoWHash params header seed s
      if powOk then checkEach seedOf rest s else (false, s)

variable {f : CBlockHeader → Option Uint256}

theorem checkEach_cons_some
    {seed : Uint256} (hseed : f header = some seed) (rest : List CBlockHeader) (s : σ) :
    checkEach getPoWHash params f (header :: rest) s =
      if (checkHeaderPoW getPoWHash params header seed s).1 then
        checkEach getPoWHash params f rest (checkHeaderPoW getPoWHash params header seed s).2
      else (false, (checkHeaderPoW getPoWHash params header seed s).2) := by
  rw [checkEach, hseed]

theorem checkEach_cons_none (hseed : f header = none) (rest : List CBlockHeader) (s : σ) :
    checkEach getPoWHash params f (header :: rest) s = (false, s) := by
  rw [checkEach, hseed]

theorem checkEach_congr {f g : CBlockHeader → Option Uint256}
    (hfg : ∀ header ∈ headers, f header = g header) (s : σ) :
    checkEach getPoWHash params f headers s = checkEach getPoWHash params g headers s := by
  induction headers generalizing s with
  | nil => rfl
  | cons header rest ih =>
    have hrest := ih (fun header hm => hfg header (List.mem_cons_of_mem _ hm))
    cases hseed : g header with
    | none =>
      rw [checkEach_cons_none getPoWHash params hseed,
        checkEach_cons_none getPoWHash params ((hfg header (by simp)).trans hseed)]
    | some seed =>
      rw [checkEach_cons_some getPoWHash params hseed,
        checkEach_cons_some getPoWHash params ((hfg header (by simp)).trans hseed), hrest]

theorem checkEach_append (f : CBlockHeader → Option Uint256) (rest : List CBlockHeader) (s : σ) :
    checkEach getPoWHash params f (headers ++ rest) s =
      if (checkEach getPoWHash params f headers s).1 then
        checkEach getPoWHash params f rest (checkEach getPoWHash params f headers s).2
      else (false, (checkEach getPoWHash params f headers s).2) := by
  induction headers generalizing s with
  | nil => rfl
  | cons header tail ih =>
    rw [List.cons_append]
    cases hseed : f header with
    | none =>
      simp only [checkEach_cons_none getPoWHash params hseed, Bool.false_eq_true, if_false]
    | some seed =>
      simp only [checkEach_cons_some getPoWHash params hseed]
      split
      · exact ih _
      · rfl

/-- The loop from the `i`-th header on, when its index arithmetic follows a seed
rule.  The headers still to come hang off `prevHash`, so no gap opens.
SOURCE: src/src/validation.cpp:4711-4789 -/
theorem hasValidProofOfWorkLoop_eq {pindexPrev : Option CBlockIndex} {start : ℤ}
    (hseed : ∀ (i : ℕ) (header : CBlockHeader), headers[i]? = some header →
      batchSeed getHash bm.m_block_index headers pindexPrev (start + i) i = f header)
    (rest : List CBlockHeader) (i : ℕ) (hrest : headers.drop i = rest) (prevHash : Uint256)
    (hprev : HashLinked getHash prevHash rest) (s : σ) :
    hasValidProofOfWorkLoop getPoWHash params getHash bm headers rest i pindexPrev prevHash
      (start + i) s = checkEach getPoWHash params f rest s := by
  induction rest generalizing i prevHash s with
  | nil => rfl
  | cons header rest ih =>
    have hi : headers[i]? = some header := by
      rw [← List.head?_drop, hrest, List.head?_cons]
    have hdrop : headers.drop (i + 1) = rest := by
      rw [← List.tail_drop, hrest, List.tail_cons]
    unfold hasValidProofOfWorkLoop checkEach
    rw [batchContext, if_neg (not_not.mpr hprev.1)]
    dsimp only
    rw [hseed i header hi]
    cases f header with
    | none => rfl
    | some seed =>
      dsimp only
      have hnext := ih (i + 1) hdrop (getHash header) hprev.2
      push_cast at hnext
      simp only [← hnext, add_assoc]

/-- **`HasValidProofOfWork` on a chain that connects is the check of each header
under the seed of its parent's epoch.**
SOURCE: src/src/validation.cpp:4686-4790 -/
theorem Carries.hasValidProofOfWork_eq
    (E : Carries getHash headers ep.nHeight bm.m_block_index m')
    (T : TreeInv bm.m_block_index) (hp : bm.m_block_index p = some ep)
    (hlink : HashLinked getHash p headers) (s : σ) :
    hasValidProofOfWork getPoWHash params getHash bm headers s =
      checkEach getPoWHash params (parentSeed m') headers s := by
  cases headers with
  | nil => rfl
  | cons first rest =>
    have hfirst : bm.lookupBlockIndex p = some ep := hp
    have hloop := hasValidProofOfWorkLoop_eq getPoWHash params
      (fun i header hi => E.batchSeed_eq T hp hlink hi) (first :: rest) 0 rfl p hlink s
    unfold hasValidProofOfWork
    simp only [hfirst, Option.isNone_some, Bool.false_and, Bool.false_eq_true, if_false,
      Option.elim_some, hlink.1]
    simpa using hloop

/-! ## Splitting a chain into batches -/

/-- Passing batches to `HasValidProofOfWork` one after the other, each added to the index
before the next. -/
def checkBatches (getHash : CBlockHeader → Uint256) :
    BlockManager → List (List CBlockHeader) → σ → Bool × σ
  | _, [], s => (true, s)
  | bm, batch :: rest, s =>
    let (ok, s) := hasValidProofOfWork getPoWHash params getHash bm batch s
    if ok then
      match addHeaders getHash batch bm with
      | .ok bm => checkBatches getHash bm rest s
      | .error _ => (false, s)
    else (false, s)

/-- **How a chain is split into batches does not matter**: the node makes the same
calls to `GetPoWHash`, header by header, and stops at the same one.  The induction is on the
batches; each is checked against the index that holds all earlier ones.
SOURCE: src/src/validation.cpp:4686-4790 -/
theorem TreeInv.checkBatches_eq {batches : List (List CBlockHeader)} {bm' : BlockManager}
    (T : TreeInv bm.m_block_index) (hp : bm.m_block_index p = some ep)
    (hlink : HashLinked getHash p batches.flatten)
    (hnew : NewHeaders getHash bm.m_block_index batches.flatten)
    (hadd : addHeaders getHash batches.flatten bm = .ok bm') (s : σ) :
    checkBatches getPoWHash params getHash bm batches s =
      checkEach getPoWHash params (parentSeed bm'.m_block_index) batches.flatten s := by
  induction batches generalizing bm p ep s with
  | nil => rfl
  | cons batch rest ih =>
    rw [List.flatten_cons] at hlink hnew hadd ⊢
    obtain ⟨hlink₁, hlink₂⟩ := hashLinked_append.mp hlink
    obtain ⟨bm₁, hadd₁, E₁, -⟩ := T.addHeaders_linked hp hlink₁ hnew.left
    obtain ⟨e₁, he₁, -⟩ := E₁.tip hp
    have hnew₂ := hnew.right E₁
    rw [addHeaders_append, hadd₁] at hadd
    obtain ⟨bm₂, hadd₂, E₂, -⟩ := E₁.tree.addHeaders_linked he₁ hlink₂ hnew₂
    have hbm : bm₂ = bm' := Except.ok.inj (hadd₂.symm.trans hadd)
    subst hbm
    -- the later batches leave the seeds of this one alone
    have hseeds : ∀ header ∈ batch,
        parentSeed bm₁.m_block_index header = parentSeed bm₂.m_block_index header := by
      intro header hheader
      obtain ⟨i, hi⟩ := List.mem_iff_getElem?.mp hheader
      obtain ⟨e, he, -⟩ := E₁.carries.parent_entry hp hlink₁ hi
      exact (E₁.tree.parentSeed_mono E₂.keeps he).symm
    rw [checkEach_append, checkBatches]
    simp only [E₁.carries.hasValidProofOfWork_eq getPoWHash params T hp hlink₁,
      checkEach_congr getPoWHash params hseeds, hadd₁,
      ih E₁.tree he₁ hlink₂ hnew₂ hadd₂]

/-- The index just before the `i`-th header of a chain is added holds its parent,
and everything it holds is still there at the end. -/
theorem TreeInv.addHeaders_take {bm' : BlockManager} (T : TreeInv bm.m_block_index)
    (hp : bm.m_block_index p = some ep) (hlink : HashLinked getHash p headers)
    (hnew : NewHeaders getHash bm.m_block_index headers)
    (hadd : addHeaders getHash headers bm = .ok bm') {i : ℕ}
    (hi : headers[i]? = some header) :
    ∃ bmᵢ e, addHeaders getHash (headers.take i) bm = .ok bmᵢ ∧ TreeInv bmᵢ.m_block_index ∧
      bmᵢ.m_block_index header.hashPrevBlock = some e ∧
      bmᵢ.m_block_index (getHash header) = none ∧
      ∀ k e, bmᵢ.m_block_index k = some e → bm'.m_block_index k = some e := by
  have hdrop : headers.drop i = header :: headers.drop (i + 1) := by
    obtain ⟨hlt, rfl⟩ := List.getElem?_eq_some_iff.mp hi
    exact List.drop_eq_getElem_cons hlt
  have hsplit : headers = headers.take i ++ headers.drop i := (List.take_append_drop i headers).symm
  rw [hsplit] at hlink hnew hadd
  obtain ⟨hlink₁, hlink₂⟩ := hashLinked_append.mp hlink
  obtain ⟨bmᵢ, hadd₁, E₁, -⟩ := T.addHeaders_linked hp hlink₁ hnew.left
  obtain ⟨e, he, -⟩ := E₁.tip hp
  have hnew₂ := hnew.right E₁
  rw [addHeaders_append, hadd₁] at hadd
  obtain ⟨bm₂, hadd₂, E₂, -⟩ := E₁.tree.addHeaders_linked he hlink₂ hnew₂
  cases Except.ok.inj (hadd₂.symm.trans hadd)
  rw [hdrop] at hlink₂ hnew₂
  exact ⟨bmᵢ, e, hadd₁, E₁.tree, by rw [hlink₂.1]; exact he, hnew₂.fresh header (by simp), E₂.keeps⟩

/-- Where the contextual check finds a seed, the batch check and the miner use it.
SOURCE: src/src/validation.cpp:4863-4876, src/src/rpc/mining.cpp:158-174 -/
theorem TreeInv.parentSeed_of_contextualSeed (T : TreeInv bm.m_block_index)
    (he : bm.m_block_index header.hashPrevBlock = some e) {seed : Uint256}
    (hseed : contextualSeed bm.m_block_index e = some seed) :
    parentSeed bm.m_block_index header = some seed ∧ generateBlockSeed bm header = seed := by
  have hdvd : ¬ randomXEpoch ∣ e.nHeight + 1 := by
    rw [← T.contextualSeed_eq_none_iff he, hseed]
    simp
  constructor
  · rw [← hseed, T.contextualSeed_eq he, parentSeed, epochSeed, epochSeed, BlockMap.height_of he,
      ← pred_div_mul_eq (show 0 < e.nHeight + 1 by omega) hdvd, Nat.add_sub_cancel]
  · have hget : generateBlockSeed bm header = (contextualSeed bm.m_block_index e).getD 0#256 := by
      unfold generateBlockSeed contextualSeed
      rw [BlockManager.lookupBlockIndex, he]
      dsimp only
      split
      · rfl
      · cases getAncestor bm.m_block_index e _ <;> rfl
    rw [hget, hseed, Option.getD_some]

theorem checkEach_pure_iff (powHash : CBlockHeader → Uint256 → Uint256)
    (f : CBlockHeader → Option Uint256) :
    (checkEach (pureHash powHash) params f headers ()).1 = true ↔
      ∀ header ∈ headers, ∃ seed, f header = some seed ∧
        checkProofOfWork (powHash header seed) header.nBits params = true := by
  induction headers with
  | nil => simp [checkEach]
  | cons header rest ih =>
    rw [List.forall_mem_cons, ← ih]
    cases hseed : f header with
    | none => simp [checkEach_cons_none _ params hseed]
    | some seed =>
      rw [checkEach_cons_some _ params hseed]
      cases hpow : checkProofOfWork (powHash header seed) header.nBits params with
      | false => simp [checkHeaderPoW, pureHash, hpow]
      | true => simp [checkHeaderPoW, pureHash, hpow]

/-- Checking one header on its own, with its parent in the index.
SOURCE: src/src/validation.cpp:4686-4790 -/
theorem TreeInv.hasValidProofOfWork_singleton (T : TreeInv bm.m_block_index)
    (he : bm.m_block_index header.hashPrevBlock = some e)
    (hfresh : bm.m_block_index (getHash header) = none) (s : σ) :
    hasValidProofOfWork getPoWHash params getHash bm [header] s =
      checkEach getPoWHash params (parentSeed bm.m_block_index) [header] s := by
  have hlink : HashLinked getHash header.hashPrevBlock [header] := ⟨rfl, trivial⟩
  obtain ⟨bm', -, E, -⟩ := T.addHeaders_linked he hlink
    ⟨fun b hb => by rw [List.mem_singleton.mp hb]; exact hfresh, by simp⟩
  rw [E.carries.hasValidProofOfWork_eq getPoWHash params T he hlink]
  refine checkEach_congr getPoWHash params (fun b hb => ?_) s
  rw [List.mem_singleton.mp hb]
  exact T.parentSeed_mono E.keeps he

/-- **The batch check agrees with the contextual check, the miner and itself.**  For
every index the node builds and every chain of new headers on one of its blocks there is one
seed per header such that, however the chain is split into batches, the batch check hashes
exactly these headers under exactly these seeds; each is the seed of
`ContextualCheckBlockHeader` and of `GenerateBlock` whenever the former finds one; and the
batches pass if and only if every header passes on its own.
SOURCE: src/src/validation.cpp:4686-4790 -/
theorem batch_check_agrees {genesis : CBlockHeader} (hbm : Built getHash genesis bm)
    (hp : bm.m_block_index p = some ep) (hlink : HashLinked getHash p headers)
    (hnew : NewHeaders getHash bm.m_block_index headers)
    (powHash : CBlockHeader → Uint256 → Uint256) :
    ∃ seedOf : CBlockHeader → Option Uint256,
      (∀ batches : List (List CBlockHeader), batches.flatten = headers →
        ∀ (σ : Type) (getPoWHash : PoWHash σ) (s : σ),
          checkBatches getPoWHash params getHash bm batches s =
            checkEach getPoWHash params seedOf headers s) ∧
      (∀ i header, headers[i]? = some header →
        ∃ bmᵢ e, addHeaders getHash (headers.take i) bm = .ok bmᵢ ∧
          bmᵢ.m_block_index header.hashPrevBlock = some e ∧
          ∀ seed, contextualSeed bmᵢ.m_block_index e = some seed →
            seedOf header = some seed ∧ generateBlockSeed bmᵢ header = seed) ∧
      ∀ batches : List (List CBlockHeader), batches.flatten = headers →
        ((checkBatches (pureHash powHash) params getHash bm batches ()).1 = true ↔
          ∀ i header, headers[i]? = some header →
            ∃ bmᵢ, addHeaders getHash (headers.take i) bm = .ok bmᵢ ∧
              (hasValidProofOfWork (pureHash powHash) params getHash bmᵢ [header] ()).1 =
                true) := by
  have T := hbm.treeInv
  obtain ⟨bm', hadd, E, -⟩ := T.addHeaders_linked hp hlink hnew
  have hrun : ∀ batches : List (List CBlockHeader), batches.flatten = headers →
      ∀ (σ : Type) (getPoWHash : PoWHash σ) (s : σ),
        checkBatches getPoWHash params getHash bm batches s =
          checkEach getPoWHash params (parentSeed bm'.m_block_index) headers s := by
    rintro batches rfl σ getPoWHash s
    exact T.checkBatches_eq getPoWHash params hp hlink hnew hadd s
  refine ⟨parentSeed bm'.m_block_index, hrun, ?_, ?_⟩
  · intro i header hi
    obtain ⟨bmᵢ, e, haddᵢ, Tᵢ, he, -, hsub⟩ := T.addHeaders_take hp hlink hnew hadd hi
    refine ⟨bmᵢ, e, haddᵢ, he, fun seed hseed => ?_⟩
    rw [Tᵢ.parentSeed_mono hsub he]
    exact Tᵢ.parentSeed_of_contextualSeed he hseed
  · intro batches hflat
    rw [hrun batches hflat, checkEach_pure_iff]
    -- one header at a time, in the index that is about to receive it
    have hone : ∀ i header, headers[i]? = some header →
        ((∃ seed, parentSeed bm'.m_block_index header = some seed ∧
            checkProofOfWork (powHash header seed) header.nBits params = true) ↔
          ∃ bmᵢ, addHeaders getHash (headers.take i) bm = .ok bmᵢ ∧
            (hasValidProofOfWork (pureHash powHash) params getHash bmᵢ [header] ()).1 = true) := by
      intro i header hi
      obtain ⟨bmᵢ, e, haddᵢ, Tᵢ, he, hfresh, hsub⟩ := T.addHeaders_take hp hlink hnew hadd hi
      rw [haddᵢ, Tᵢ.parentSeed_mono hsub he]
      simp only [Except.ok.injEq, exists_eq_left']
      rw [Tᵢ.hasValidProofOfWork_singleton _ params he hfresh, checkEach_pure_iff]
      simp
    constructor
    · intro h i header hi
      exact (hone i header hi).mp (h header (List.mem_of_getElem? hi))
    · intro h header hheader
      obtain ⟨i, hi⟩ := List.mem_iff_getElem?.mp hheader
      exact (hone i header hi).mpr (h i header hi)

end Batch

theorem batch_check_agrees_launch :
    ∃ bm, Built nonceHash mainGenesis bm ∧
      ((checkBatches (pureHash fun _ _ => 0#256) mainParams nonceHash bm
          [[launchBlock 0x1f0fffff#32 1, launchBlock 0x1f0fffff#32 2]] ()).1 = true ↔
        (checkBatches (pureHash fun _ _ => 0#256) mainParams nonceHash bm
          [[launchBlock 0x1f0fffff#32 1], [launchBlock 0x1f0fffff#32 2]] ()).1 = true) := by
  obtain ⟨bm, e, hbuilt, hm, -⟩ := exists_built_genesis nonceHash mainGenesis (by decide)
  obtain ⟨hnodup, hne⟩ := launch_hashes 0x1f0fffff#32 (show 2 < 2 ^ 28 by norm_num)
  obtain ⟨seedOf, hrun, -⟩ := batch_check_agrees mainParams hbuilt
    (show bm.m_block_index (launchHash 0) = some e by rw [hm]; exact BlockMap.insert_self _ _ _)
    (hashLinked_launch (s := 1) (n := 2) (by norm_num) (by norm_num))
    ⟨fun b hb => by rw [hm]; exact BlockMap.insert_of_ne _ _ (hne b hb), hnodup⟩
    (fun _ _ => 0#256)
  refine ⟨bm, hbuilt, ?_⟩
  rw [hrun _ rfl, hrun _ rfl]

end BitMinti.Model
