import BitMinti.Model.BlockIndex
import BitMinti.Computation.Ancestry
import BitMinti.Analysis.ArithUint256

/-!
# Block trees and the skip list

`TreeInv` is what every block index built by `AddToBlockIndex` satisfies: entries know
their own hash, the parent pointers form a graded forest, and every skip pointer is the
ancestor at the skip height.  `TreeInv.insert` is the step, `Built.treeInv` the run.
On such an index `getAncestor_eq` says that the skip-list walk returns the entry that
following `pprev` reaches.
-/

set_option autoImplicit false

namespace BitMinti.Model

open Computation.Ancestry

/-! ## Skip heights -/

theorem invertLowestOne_le (n : ℕ) : invertLowestOne n ≤ n - 1 := Nat.and_le_right

/-- The skip pointer leads strictly down.
SOURCE: src/src/chain.cpp:72-80 -/
theorem getSkipHeight_lt {height : ℕ} (h : 0 < height) : getSkipHeight height < height := by
  unfold getSkipHeight
  have h₁ := invertLowestOne_le (height - 1)
  have h₂ := invertLowestOne_le (invertLowestOne (height - 1))
  have h₃ := invertLowestOne_le height
  split
  · exact h
  · split <;> omega

theorem followSkip_ge {height heightWalk : ℕ} (h : followSkip height heightWalk = true) :
    height ≤ getSkipHeight heightWalk := by
  simp only [followSkip, Bool.or_eq_true, Bool.and_eq_true, decide_eq_true_eq] at h
  omega

/-! ## The invariant of the index -/

/-- What `AddToBlockIndex` maintains. -/
structure TreeInv (m : BlockMap) : Prop where
  key : ∀ h e, m h = some e → e.phashBlock = h
  graded : Graded m.prev (fun h => (m h).isSome) m.height
  skip : ∀ h e, m h = some e →
    e.pskip = e.pprev.bind fun _ => up m.prev (e.nHeight - getSkipHeight e.nHeight) h

namespace BlockMap

theorem height_of {m : BlockMap} {h : Uint256} {e : CBlockIndex} (he : m h = some e) :
    m.height h = e.nHeight := by
  simp [height, he]

theorem prev_of {m : BlockMap} {h : Uint256} {e : CBlockIndex} (he : m h = some e) :
    m.prev h = e.pprev := by
  simp [prev, he]

@[simp] theorem insert_self (m : BlockMap) (h : Uint256) (e : CBlockIndex) :
    m.insert h e h = some e := by
  simp [insert]

theorem insert_of_ne (m : BlockMap) {h k : Uint256} (e : CBlockIndex) (hk : k ≠ h) :
    m.insert h e k = m k := by
  simp [insert, hk]

theorem insert_of_mem {m : BlockMap} {h k : Uint256} {e e' : CBlockIndex} (hfresh : m h = none)
    (hk : m k = some e') : m.insert h e k = some e' := by
  rw [insert_of_ne m e (by rintro rfl; rw [hfresh] at hk; cases hk), hk]

end BlockMap

namespace TreeInv

variable {m : BlockMap}

theorem empty : TreeInv (fun _ => none) where
  key := by intro h e he; cases he
  graded := ⟨fun _ _ hk => absurd hk (by simp), fun _ hk => absurd hk (by simp)⟩
  skip := by intro h e he; cases he

variable {e : CBlockIndex}

theorem parent (T : TreeInv m) {h p : Uint256} (he : m h = some e)
    (hp : e.pprev = some p) : ∃ ep, m p = some ep ∧ e.nHeight = ep.nHeight + 1 := by
  obtain ⟨hmem, hr⟩ := T.graded.parent h p (by simp [he]) (by rw [BlockMap.prev_of he, hp])
  obtain ⟨ep, hep⟩ := Option.isSome_iff_exists.mp hmem
  rw [BlockMap.height_of he, BlockMap.height_of hep] at hr
  exact ⟨ep, hep, hr⟩

variable {h : Uint256}

theorem root (T : TreeInv m) (he : m h = some e) (hp : e.pprev = none) : e.nHeight = 0 := by
  have := T.graded.root h (by simp [he]) (by rw [BlockMap.prev_of he, hp])
  rwa [BlockMap.height_of he] at this

theorem height_le_of_ancestor (T : TreeInv m) (he : m h = some e) {a : Uint256}
    (ha : AncestorOf m.prev a h) : m.height a ≤ e.nHeight := by
  have hle := (T.graded.up_of_ancestor (by simp [he]) ha).2.1
  rwa [BlockMap.height_of he] at hle

theorem nHeight_le_of_ancestor (T : TreeInv m) {a : Uint256} {ea : CBlockIndex}
    (hea : m a = some ea) (he : m h = some e) (ha : AncestorOf m.prev a h) : ea.nHeight ≤ e.nHeight :=
  BlockMap.height_of hea ▸ T.height_le_of_ancestor he ha

theorem exists_up (T : TreeInv m) (he : m h = some e) {n : ℕ} (hn : n ≤ e.nHeight) :
    ∃ a ea, up m.prev n h = some a ∧ m a = some ea ∧ e.nHeight = ea.nHeight + n := by
  have hmem : (m h).isSome := by simp [he]
  obtain ⟨a, ha⟩ := T.graded.exists_up (n := n) hmem (by rwa [BlockMap.height_of he])
  obtain ⟨hda, hr⟩ := T.graded.of_up hmem ha
  obtain ⟨ea, hea⟩ := Option.isSome_iff_exists.mp hda
  rw [BlockMap.height_of he, BlockMap.height_of hea] at hr
  exact ⟨a, ea, ha, hea, hr⟩

theorem up_mono (T : TreeInv m) {m' : BlockMap} (hsub : ∀ k e, m k = some e → m' k = some e)
    (hh : (m h).isSome) (n : ℕ) : up m'.prev n h = up m.prev n h := by
  apply T.graded.up_congr _ n hh
  intro k hk
  obtain ⟨e, he⟩ := Option.isSome_iff_exists.mp hk
  rw [BlockMap.prev_of he, BlockMap.prev_of (hsub k e he)]

/-! ## Adding an entry -/

/-- The links a new entry must come with: none for a root; otherwise a parent in the index,
the next height and the skip pointer counted from the parent. -/
def Linked (m : BlockMap) (e : CBlockIndex) : Prop :=
  (e.pprev = none ∧ e.pskip = none ∧ e.nHeight = 0) ∨
    ∃ p ep, e.pprev = some p ∧ m p = some ep ∧ e.nHeight = ep.nHeight + 1 ∧
      e.pskip = up m.prev (ep.nHeight - getSkipHeight e.nHeight) p

/-- **The step**: a linked entry under a fresh hash keeps the invariant. -/
theorem insert (T : TreeInv m) (hfresh : m h = none)
    (hkey : e.phashBlock = h) (hlink : Linked m e) : TreeInv (m.insert h e) := by
  have hsub : ∀ k e', m k = some e' → m.insert h e k = some e' :=
    fun k e' hk => BlockMap.insert_of_mem hfresh hk
  have hself : m.insert h e h = some e := BlockMap.insert_self m h e
  -- an entry of the new index is the new one or an old one
  have hcases : ∀ k e', m.insert h e k = some e' → (k = h ∧ e' = e) ∨ m k = some e' := by
    intro k e' hk
    by_cases hkh : k = h
    · rw [hkh, hself] at hk
      exact .inl ⟨hkh, (Option.some.inj hk).symm⟩
    · rw [BlockMap.insert_of_ne m e hkh] at hk
      exact .inr hk
  refine ⟨?_, ⟨?_, ?_⟩, ?_⟩
  · intro k e' hk
    rcases hcases k e' hk with ⟨rfl, rfl⟩ | hk'
    · exact hkey
    · exact T.key k e' hk'
  · intro k p hk hp
    obtain ⟨e', he'⟩ := Option.isSome_iff_exists.mp hk
    rw [BlockMap.prev_of he'] at hp
    have hgoal : ∃ ep, m p = some ep ∧ e'.nHeight = ep.nHeight + 1 := by
      rcases hcases k e' he' with ⟨rfl, rfl⟩ | hk'
      · rcases hlink with ⟨hnone, -, -⟩ | ⟨q, eq, hq, hmq, hheight, -⟩
        · rw [hnone] at hp; cases hp
        · rw [hq] at hp
          cases hp
          exact ⟨eq, hmq, hheight⟩
      · exact T.parent hk' hp
    obtain ⟨ep, hmp, hheight⟩ := hgoal
    refine ⟨by simp [hsub p ep hmp], ?_⟩
    rw [BlockMap.height_of he', BlockMap.height_of (hsub p ep hmp), hheight]
  · intro k hk hp
    obtain ⟨e', he'⟩ := Option.isSome_iff_exists.mp hk
    rw [BlockMap.prev_of he'] at hp
    rw [BlockMap.height_of he']
    rcases hcases k e' he' with ⟨rfl, rfl⟩ | hk'
    · rcases hlink with ⟨-, -, hzero⟩ | ⟨q, eq, hq, -⟩
      · exact hzero
      · rw [hq] at hp; cases hp
    · exact T.root hk' hp
  · intro k e' hk
    rcases hcases k e' hk with ⟨rfl, rfl⟩ | hk'
    · rcases hlink with ⟨hnone, hskip, -⟩ | ⟨q, eq, hq, hmq, hheight, hskip⟩
      · rw [hnone, hskip]; rfl
      · have hlt := getSkipHeight_lt (show 0 < e'.nHeight by omega)
        rw [hskip, hq, Option.bind_some,
          show e'.nHeight - getSkipHeight e'.nHeight
            = (eq.nHeight - getSkipHeight e'.nHeight) + 1 by omega,
          up_succ, BlockMap.prev_of hself, hq, Option.bind_some]
        exact (T.up_mono hsub (by simp [hmq]) _).symm
    · rw [T.skip k e' hk', T.up_mono hsub (by simp [hk'])]

/-! ## `GetAncestor` -/

/-- **The skip-list walk reaches the ancestor at the requested height**, never
fails its assertion and never runs out of passes.
SOURCE: src/src/chain.cpp:83-106 -/
theorem getAncestorLoop_eq (T : TreeInv m) (height fuel : ℕ)
    (he : m h = some e) (hle : height ≤ e.nHeight) (hfuel : e.nHeight - height ≤ fuel) :
    ∃ a ea, up m.prev (e.nHeight - height) h = some a ∧ m a = some ea ∧
      getAncestorLoop m height fuel e e.nHeight = .ok ea := by
  induction fuel generalizing h e with
  | zero =>
    have heq : e.nHeight = height := by omega
    refine ⟨h, e, by simp [heq], he, ?_⟩
    rw [getAncestorLoop, if_neg (by omega)]
  | succ fuel ih =>
    by_cases hgt : e.nHeight > height
    · have hskip := T.skip h e he
      rw [getAncestorLoop, if_pos hgt]
      by_cases hfollow : e.pskip ≠ none ∧ followSkip height e.nHeight
      · -- a jump: the skip pointer is the ancestor at the skip height
        have hge := followSkip_ge hfollow.2
        have hlt := getSkipHeight_lt (show 0 < e.nHeight by omega)
        obtain ⟨s, es, hs, hms, hheight⟩ :=
          T.exists_up he (n := e.nHeight - getSkipHeight e.nHeight) (by omega)
        have hps : e.pskip = some s := by
          cases hp : e.pprev with
          | none => rw [hp, Option.bind_none] at hskip; exact absurd hskip hfollow.1
          | some p => rw [hskip, hp, Option.bind_some, hs]
        have hes : getSkipHeight e.nHeight = es.nHeight := by omega
        obtain ⟨a, ea, ha, hma, hloop⟩ := ih hms (by omega) (by omega)
        refine ⟨a, ea, ?_, hma, ?_⟩
        · have := up_trans m.prev hs ha
          rwa [show e.nHeight - getSkipHeight e.nHeight + (es.nHeight - height)
            = e.nHeight - height by omega] at this
        · rw [if_pos hfollow, hps, Option.bind_some, hms]
          dsimp only
          rw [hes]
          exact hloop
      · -- one step along `pprev`
        obtain ⟨p, ep, hp, hmp, hheight⟩ := T.exists_up he (n := 1) (by omega)
        rw [up_one, BlockMap.prev_of he] at hp
        obtain ⟨a, ea, ha, hma, hloop⟩ := ih hmp (by omega) (by omega)
        refine ⟨a, ea, ?_, hma, ?_⟩
        · rw [show e.nHeight - height = (ep.nHeight - height) + 1 by omega, up_succ,
            BlockMap.prev_of he, hp, Option.bind_some, ha]
        · rw [if_neg hfollow, BlockMap.pprev, hp, Option.bind_some, hmp]
          dsimp only
          rw [show e.nHeight - 1 = ep.nHeight by omega]
          exact hloop
    · have heq : e.nHeight = height := by omega
      refine ⟨h, e, by simp [heq], he, ?_⟩
      rw [getAncestorLoop, if_neg hgt]

/-- **`GetAncestor(height)` is the entry `nHeight - height` parents up.**
SOURCE: src/src/chain.cpp:83-106 -/
theorem getAncestor_eq (T : TreeInv m) (he : m h = some e) {height : ℕ} (hle : height ≤ e.nHeight) :
    ∃ a ea, up m.prev (e.nHeight - height) h = some a ∧ m a = some ea ∧
      ea.nHeight = height ∧ getAncestor m e height = some ea := by
  obtain ⟨a, ea, ha, hma, hloop⟩ := T.getAncestorLoop_eq height e.nHeight he hle (by omega)
  obtain ⟨a', ea', ha', hma', hheight⟩ := T.exists_up he (n := e.nHeight - height) (by omega)
  rw [ha] at ha'
  cases ha'
  rw [hma] at hma'
  cases hma'
  refine ⟨a, ea, ha, hma, by omega, ?_⟩
  rw [getAncestor, if_neg (by omega), Int.toNat_natCast, hloop]
  rfl

/-- Above its own height a block has no ancestor.
SOURCE: src/src/chain.cpp:85-87 -/
theorem getAncestor_none (m : BlockMap) (e : CBlockIndex) {height : ℤ} (hgt : e.nHeight < height) :
    getAncestor m e height = none := by
  rw [getAncestor, if_pos (Or.inl hgt)]

end TreeInv

/-! ## `AddToBlockIndex` -/

/-- A decoded target is never `2 ^ 256 - 1`: with more than three bytes its last
byte is zero.
SOURCE: src/src/arith_uint256.cpp:175-187 -/
theorem setCompact_toNat_lt (c : BitVec 32) : (ArithUint256.setCompact c).1.toNat + 1 < 2 ^ 256 := by
  have hlt := (ArithUint256.setCompact c).1.toNat_lt
  have h := ArithUint256.setCompact_toNat c
  unfold BitMinti.Interface.expandCompact at h
  by_cases hsize : c.toNat / 2 ^ 24 ≤ 3
  · rw [if_pos hsize] at h
    have hle := Nat.div_le_self (c.toNat % 2 ^ 23) (256 ^ (3 - c.toNat / 2 ^ 24))
    have hmod := Nat.mod_lt c.toNat (show 2 ^ 23 > 0 by omega)
    rw [Nat.mod_eq_of_lt (by omega)] at h
    omega
  · rw [if_neg hsize, show c.toNat / 2 ^ 24 - 3 = (c.toNat / 2 ^ 24 - 4) + 1 by omega,
      Nat.pow_succ 256, ← Nat.mul_assoc] at h
    omega

/-- **`GetBlockProof` is the work of the target**, and never divides by zero.
SOURCE: src/src/chain.cpp:121-135 -/
theorem getBlockProof_eq (nBits : BitVec 32) : ∃ work, getBlockProof nBits = .ok work ∧
    work.toNat = if (ArithUint256.setCompact nBits).2.1 || (ArithUint256.setCompact nBits).2.2 ||
        (ArithUint256.setCompact nBits).1.isZero then 0
      else Interface.targetWork (ArithUint256.setCompact nBits).1.toNat := by
  have hlt := setCompact_toNat_lt nBits
  unfold getBlockProof
  generalize ArithUint256.setCompact nBits = d at hlt ⊢
  obtain ⟨bnTarget, fNegative, fOverflow⟩ := d
  dsimp only at hlt ⊢
  have hone : (ArithUint256.ofUInt64 1).toNat = 1 := ArithUint256.toNat_ofUInt64 1
  by_cases hzero : (fNegative || fOverflow || bnTarget.isZero) = true
  · simp only [if_pos hzero]
    exact ⟨_, rfl, ArithUint256.toNat_ofUInt64 0⟩
  · simp only [if_neg hzero]
    have hpos : bnTarget.toNat ≠ 0 := by
      simp only [Bool.or_eq_true, not_or, ArithUint256.isZero_eq, decide_eq_true_eq] at hzero
      exact hzero.2
    have hnext : (bnTarget + ArithUint256.ofUInt64 1).toNat = bnTarget.toNat + 1 := by
      rw [ArithUint256.toNat_add, hone, Nat.mod_eq_of_lt (by omega)]
    have hcompl : bnTarget.compl.toNat = 2 ^ 256 - (bnTarget.toNat + 1) := by
      have h := BaseUint.compl_value bnTarget.pn
      rw [bnTarget.length_pn] at h
      exact Nat.eq_sub_of_add_eq h
    obtain ⟨q, hq, hvalue⟩ := ArithUint256.div_eq bnTarget.compl _
      (show (bnTarget + ArithUint256.ofUInt64 1).toNat ≠ 0 by omega)
    rw [hnext, hcompl] at hvalue
    have hdiv : 2 ^ 256 / (bnTarget.toNat + 1) =
        (2 ^ 256 - (bnTarget.toNat + 1)) / (bnTarget.toNat + 1) + 1 :=
      Nat.div_eq_sub_div (by omega) (by omega)
    have hhalf : 2 ^ 256 / (bnTarget.toNat + 1) ≤ 2 ^ 256 / 2 :=
      Nat.div_le_div_left (by omega) Nat.two_pos
    rw [hq]
    refine ⟨_, rfl, ?_⟩
    rw [ArithUint256.toNat_add, hone, Interface.targetWork, hvalue, ← hdiv]
    exact Nat.mod_eq_of_lt (by omega)

/-- The compact `nBits` decode to the target `T`, without a flag. -/
def DecodesTo (nBits : BitVec 32) (T : ℕ) : Prop :=
  (ArithUint256.setCompact nBits).1.toNat = T ∧ (ArithUint256.setCompact nBits).2 = (false, false)

theorem DecodesTo.getBlockProof {nBits : BitVec 32} {T : ℕ} (h : DecodesTo nBits T)
    (hT : T ≠ 0) : ∃ work, getBlockProof nBits = .ok work ∧ work.toNat = 2 ^ 256 / (T + 1) := by
  obtain ⟨work, hwork, hvalue⟩ := getBlockProof_eq nBits
  rw [ArithUint256.isZero_eq, h.1, h.2, decide_eq_false hT] at hvalue
  exact ⟨work, hwork, hvalue⟩

/-- **The operators of `base_uint<256>` are arithmetic modulo `2 ^ 256`**, and the proof of a block
with the target `T` is `2 ^ 256 / (T + 1)` rounded down.
SOURCE: src/src/arith_uint256.cpp:13-111, src/src/arith_uint256.h:117-133,
src/src/chain.cpp:121-135 -/
theorem base_uint_arithmetic :
    (∀ a b : ArithUint256,
      (a + b).toNat = (a.toNat + b.toNat) % 2 ^ 256 ∧
      ((a - b).toNat : ℤ) = ((a.toNat : ℤ) - b.toNat) % 2 ^ 256 ∧
      (a * b).toNat = a.toNat * b.toNat % 2 ^ 256 ∧
      (∀ shift, (a.shiftLeft shift).toNat = a.toNat * 2 ^ shift % 2 ^ 256 ∧
        (a.shiftRight shift).toNat = a.toNat / 2 ^ shift) ∧
      a.compare b = compare a.toNat b.toNat ∧
      (b.toNat ≠ 0 → ∃ q, a.div b = .ok q ∧ q.toNat = a.toNat / b.toNat)) ∧
    ∀ nBits T, DecodesTo nBits T → T ≠ 0 → ∃ work, getBlockProof nBits = .ok work ∧
      work.toNat = 2 ^ 256 / (T + 1) ∧ 1 ≤ work.toNat ∧
      ∀ nBits' T', DecodesTo nBits' T' → T ≤ T' → ∀ work', getBlockProof nBits' = .ok work' →
        work'.toNat ≤ work.toNat := by
  refine ⟨fun a b => ⟨a.toNat_add b, a.toNat_sub b, a.toNat_mul b,
    fun n => ⟨a.toNat_shiftLeft n, a.toNat_shiftRight n⟩, a.compare_eq b, a.div_eq b⟩, ?_⟩
  intro nBits T h hT
  obtain ⟨work, hwork, hvalue⟩ := h.getBlockProof hT
  refine ⟨work, hwork, hvalue, ?_, ?_⟩
  · have hlt := setCompact_toNat_lt nBits
    rw [h.1] at hlt
    rw [hvalue]
    exact Nat.div_pos hlt.le (Nat.succ_pos T)
  · intro nBits' T' h' hle work' hwork'
    obtain ⟨w, hw, hvalue'⟩ := h'.getBlockProof (by omega)
    rw [hwork'] at hw
    cases hw
    rw [hvalue, hvalue']
    exact Nat.div_le_div_left (by omega) (Nat.succ_pos T)

section RaiseValidity

variable (pindex : CBlockIndex) (nUpTo : BlockValidity)

theorem raiseValidity_eq :
    ∃ status, pindex.raiseValidity nUpTo = { pindex with nStatus := status } := by
  unfold CBlockIndex.raiseValidity
  split
  · exact ⟨pindex.nStatus, rfl⟩
  · split
    · exact ⟨_, rfl⟩
    · exact ⟨pindex.nStatus, rfl⟩

end RaiseValidity

section Add

variable {getHash : CBlockHeader → Uint256} {block : CBlockHeader} {bm bm' : BlockManager}

/-- What `AddToBlockIndex` does to the index: nothing for a known hash, one
completed entry for a new one.
SOURCE: src/src/node/blockstorage.cpp:220-257 -/
theorem addToBlockIndex_cases (h : addToBlockIndex getHash block bm = .ok bm') :
    ((bm.m_block_index (getHash block)).isSome ∧ bm' = bm) ∨
      (bm.m_block_index (getHash block) = none ∧ ∃ work,
        bm'.m_block_index = bm.m_block_index.insert (getHash block)
          (linkIndex getHash (bm.m_block_index.insert (getHash block)
            (.ofHeader (getHash block) block)) block work)) := by
  simp only [addToBlockIndex] at h
  split at h
  case h_1 e he =>
    cases h
    exact .inl ⟨by simp [he], rfl⟩
  case h_2 hnone =>
    split at h
    · cases h
    · cases h
      exact .inr ⟨hnone, _, rfl⟩

/-- `AddToBlockIndex` always returns.
SOURCE: src/src/node/blockstorage.cpp:220-257 -/
theorem addToBlockIndex_ok (getHash : CBlockHeader → Uint256) (block : CBlockHeader)
    (bm : BlockManager) : ∃ bm', addToBlockIndex getHash block bm = .ok bm' := by
  obtain ⟨work, hwork, -⟩ := getBlockProof_eq block.nBits
  simp only [addToBlockIndex, hwork]
  split
  · exact ⟨_, rfl⟩
  · exact ⟨_, rfl⟩

/-- The fields of an entry that come from its header. -/
structure FromHeader (getHash : CBlockHeader → Uint256) (block : CBlockHeader) (e : CBlockIndex) :
    Prop where
  phashBlock : e.phashBlock = getHash block
  nVersion : e.nVersion = block.nVersion
  nTime : e.nTime = block.nTime
  nBits : e.nBits = block.nBits

variable {m : BlockMap}

theorem linkIndex_fromHeader (getHash : CBlockHeader → Uint256) (block : CBlockHeader)
    (m : BlockMap) (work : ArithUint256) :
    FromHeader getHash block (linkIndex getHash m block work) := by
  unfold linkIndex
  split
  case h_1 p hp =>
    obtain ⟨st, hst⟩ := raiseValidity_eq _ .tree
    rw [hst]
    exact ⟨rfl, rfl, rfl, rfl⟩
  case h_2 hp =>
    obtain ⟨st, hst⟩ := raiseValidity_eq _ .tree
    rw [hst]
    exact ⟨rfl, rfl, rfl, rfl⟩

/-- An entry completed without a parent is a root.
SOURCE: src/src/node/blockstorage.cpp:236-248 -/
theorem linkIndex_root (hp : m block.hashPrevBlock = none) (work : ArithUint256) :
    (linkIndex getHash m block work).pprev = none ∧
      (linkIndex getHash m block work).pskip = none ∧
      (linkIndex getHash m block work).nHeight = 0 := by
  simp only [linkIndex, hp]
  obtain ⟨st, hst⟩ := raiseValidity_eq _ .tree
  rw [hst]
  exact ⟨rfl, rfl, rfl⟩

variable {ep : CBlockIndex}

/-- An entry completed under a parent hangs one above it, with the skip pointer
`BuildSkip` finds.
SOURCE: src/src/node/blockstorage.cpp:236-241 -/
theorem linkIndex_child (getHash : CBlockHeader → Uint256)
    (hp : m block.hashPrevBlock = some ep) (work : ArithUint256) :
    (linkIndex getHash m block work).pprev = some block.hashPrevBlock ∧
      (linkIndex getHash m block work).nHeight = ep.nHeight + 1 ∧
      (linkIndex getHash m block work).pskip = buildSkip m ep (ep.nHeight + 1) := by
  simp only [linkIndex, hp]
  obtain ⟨st, hst⟩ := raiseValidity_eq _ .tree
  rw [hst]
  exact ⟨rfl, rfl, rfl⟩

variable {p : Uint256}

/-- `BuildSkip` finds the parent's ancestor at the skip height.
SOURCE: src/src/chain.cpp:115-119 -/
theorem TreeInv.buildSkip_eq (T : TreeInv m) (hp : m p = some ep) :
    buildSkip m ep (ep.nHeight + 1) =
      up m.prev (ep.nHeight - getSkipHeight (ep.nHeight + 1)) p := by
  have hlt := getSkipHeight_lt (show 0 < ep.nHeight + 1 by omega)
  obtain ⟨a, ea, ha, hma, -, hget⟩ :=
    T.getAncestor_eq hp (show getSkipHeight (ep.nHeight + 1) ≤ ep.nHeight by omega)
  rw [buildSkip, hget, ha, Option.map_some, CBlockIndex.getBlockHash, T.key a ea hma]

/-- **Adding a header whose parent is known and whose hash is new** puts one entry
into the index, one above its parent, and keeps the invariant.
SOURCE: src/src/node/blockstorage.cpp:220-257 -/
theorem TreeInv.addToBlockIndex_new (T : TreeInv bm.m_block_index)
    (hfresh : bm.m_block_index (getHash block) = none)
    (hp : bm.m_block_index block.hashPrevBlock = some ep)
    (hadd : addToBlockIndex getHash block bm = .ok bm') :
    ∃ e, bm'.m_block_index = bm.m_block_index.insert (getHash block) e ∧
      FromHeader getHash block e ∧ e.pprev = some block.hashPrevBlock ∧
      e.nHeight = ep.nHeight + 1 ∧ TreeInv bm'.m_block_index := by
  rcases addToBlockIndex_cases hadd with ⟨hsome, -⟩ | ⟨-, work, hbm'⟩
  · rw [hfresh] at hsome
    cases hsome
  · have Te := T.insert (e := .ofHeader (getHash block) block) hfresh rfl
      (.inl ⟨rfl, rfl, rfl⟩)
    have hpe := BlockMap.insert_of_mem (e := .ofHeader (getHash block) block) hfresh hp
    obtain ⟨hprev, hheight, hskip⟩ := linkIndex_child getHash hpe work
    have hfrom := linkIndex_fromHeader getHash block
      (bm.m_block_index.insert (getHash block) (.ofHeader (getHash block) block)) work
    refine ⟨_, hbm', hfrom, hprev, hheight, ?_⟩
    rw [hbm']
    refine T.insert hfresh hfrom.phashBlock (.inr ⟨_, ep, hprev, hp, hheight, ?_⟩)
    rw [hskip, Te.buildSkip_eq hpe, hheight]
    exact T.up_mono (fun k e' hk => BlockMap.insert_of_mem hfresh hk) (by simp [hp]) _

/-- **Every index the node builds satisfies the invariant.**
SOURCE: src/src/node/blockstorage.cpp:220-257 -/
theorem Built.treeInv {genesis : CBlockHeader} (h : Built getHash genesis bm) :
    TreeInv bm.m_block_index := by
  induction h with
  | genesis hhash hadd =>
    rcases addToBlockIndex_cases hadd with ⟨hsome, -⟩ | ⟨hfresh, work, hbm⟩
    · cases hsome
    · rw [hbm]
      refine TreeInv.empty.insert rfl (linkIndex_fromHeader _ _ _ work).phashBlock (.inl ?_)
      apply linkIndex_root
      rw [BlockMap.insert_of_ne _ _ hhash.symm]
      rfl
  | add hbm hparent hadd ih =>
    rcases addToBlockIndex_cases hadd with ⟨-, rfl⟩ | ⟨hfresh, -⟩
    · exact ih
    · obtain ⟨ep, hp⟩ := Option.isSome_iff_exists.mp hparent
      obtain ⟨e, -, -, -, -, T⟩ := ih.addToBlockIndex_new hfresh hp hadd
      exact T

/-! ## Adding a chain of headers -/

theorem addHeaders_cons (getHash : CBlockHeader → Uint256) (block : CBlockHeader)
    (rest : List CBlockHeader) (bm : BlockManager) :
    addHeaders getHash (block :: rest) bm =
      (addToBlockIndex getHash block bm).bind (addHeaders getHash rest) := rfl

/-- What adding the chain `headers` on top of an entry of height `base` leaves in the
index. -/
structure Extends (getHash : CBlockHeader → Uint256) (headers : List CBlockHeader) (base : ℕ)
    (m m' : BlockMap) : Prop where
  tree : TreeInv m'
  keeps : ∀ k e, m k = some e → m' k = some e
  entry : ∀ i block, headers[i]? = some block → ∃ e, m' (getHash block) = some e ∧
    FromHeader getHash block e ∧ e.pprev = some block.hashPrevBlock ∧ e.nHeight = base + 1 + i
  only : ∀ k, (m' k).isSome → (m k).isSome ∨ k ∈ headers.map getHash

variable {headers : List CBlockHeader}

/-- **A chain of new headers on a known block is added whole.**  The induction is
on the headers; the parent of each is the entry added just before.
SOURCE: src/src/node/blockstorage.cpp:220-257 -/
theorem TreeInv.addHeaders_linked (T : TreeInv bm.m_block_index) (hp : bm.m_block_index p = some ep)
    (hlink : HashLinked getHash p headers) (hnew : NewHeaders getHash bm.m_block_index headers) :
    ∃ bm', addHeaders getHash headers bm = .ok bm' ∧
      Extends getHash headers ep.nHeight bm.m_block_index bm'.m_block_index ∧
      ∀ genesis, Built getHash genesis bm → Built getHash genesis bm' := by
  induction headers generalizing bm p ep with
  | nil =>
    exact ⟨bm, rfl, ⟨T, fun _ _ he => he, fun i block hi => by simp at hi,
      fun _ hk => .inl hk⟩, fun _ hbm => hbm⟩
  | cons block rest ih =>
    obtain ⟨hprev, hrest⟩ := hlink
    obtain ⟨bm₁, hadd⟩ := addToBlockIndex_ok getHash block bm
    have hfresh := hnew.fresh block (by simp)
    obtain ⟨e, hm₁, hfrom, hpprev, hheight, T₁⟩ :=
      T.addToBlockIndex_new hfresh (hprev ▸ hp) hadd
    have hself : bm₁.m_block_index (getHash block) = some e := by
      rw [hm₁, BlockMap.insert_self]
    have hkeep₁ : ∀ k e', bm.m_block_index k = some e' → bm₁.m_block_index k = some e' := by
      intro k e' hk
      rw [hm₁]
      exact BlockMap.insert_of_mem hfresh hk
    have hnodup := hnew.nodup
    rw [List.map_cons, List.nodup_cons] at hnodup
    have hnew₁ : NewHeaders getHash bm₁.m_block_index rest := by
      refine ⟨fun b hb => ?_, hnodup.2⟩
      have hne : getHash b ≠ getHash block := by
        intro heq
        exact hnodup.1 (heq ▸ List.mem_map_of_mem hb)
      rw [hm₁, BlockMap.insert_of_ne _ _ hne]
      exact hnew.fresh b (List.mem_cons_of_mem _ hb)
    obtain ⟨bm', hadd', E, hbuilt⟩ := ih T₁ hself hrest hnew₁
    refine ⟨bm', ?_, ⟨E.tree, fun k e' hk => E.keeps k e' (hkeep₁ k e' hk), ?_, ?_⟩, ?_⟩
    · rw [addHeaders_cons, hadd]
      exact hadd'
    · intro i b hi
      cases i with
      | zero =>
        cases hi
        exact ⟨e, E.keeps _ _ hself, hfrom, hpprev, hheight⟩
      | succ i =>
        obtain ⟨e', he', hfrom', hprev', hheight'⟩ := E.entry i b (by simpa using hi)
        exact ⟨e', he', hfrom', hprev', by omega⟩
    · intro k hk
      rcases E.only k hk with hk₁ | hk₁
      · by_cases hkb : k = getHash block
        · exact .inr (by simp [hkb])
        · rw [hm₁, BlockMap.insert_of_ne _ _ hkb] at hk₁
          exact .inl hk₁
      · exact .inr (List.mem_cons_of_mem _ hk₁)
    · intro genesis hbm
      exact hbuilt genesis (hbm.add (by simp [BlockManager.lookupBlockIndex, hprev, hp]) hadd)

theorem addHeaders_append (getHash : CBlockHeader → Uint256) (xs ys : List CBlockHeader)
    (bm : BlockManager) :
    addHeaders getHash (xs ++ ys) bm =
      (addHeaders getHash xs bm).bind (addHeaders getHash ys) := by
  unfold addHeaders
  rw [List.foldlM_append]
  rfl

/-- The hash of the last header of a chain on top of `p`. -/
def tipHash (getHash : CBlockHeader → Uint256) (p : Uint256) (headers : List CBlockHeader) :
    Uint256 :=
  headers.foldl (fun _ block => getHash block) p

variable {xs ys : List CBlockHeader}

theorem hashLinked_append :
    HashLinked getHash p (xs ++ ys) ↔
      HashLinked getHash p xs ∧ HashLinked getHash (tipHash getHash p xs) ys := by
  induction xs generalizing p with
  | nil => simp [HashLinked, tipHash]
  | cons block rest ih =>
    simp only [List.cons_append, HashLinked, ih, tipHash, List.foldl_cons, and_assoc]

variable {m m' : BlockMap}

theorem Extends.tip (E : Extends getHash headers ep.nHeight m m') (hp : m p = some ep) :
    ∃ e, m' (tipHash getHash p headers) = some e ∧ e.nHeight = ep.nHeight + headers.length := by
  rcases List.eq_nil_or_concat headers with rfl | ⟨init, block, rfl⟩
  · exact ⟨ep, E.keeps p ep hp, rfl⟩
  · obtain ⟨e, he, -, -, hheight⟩ := E.entry init.length block (by simp)
    refine ⟨e, ?_, by rw [hheight, List.length_concat]; omega⟩
    rw [tipHash, List.concat_eq_append, List.foldl_append]
    exact he

theorem NewHeaders.left {m : BlockMap}
    (hnew : NewHeaders getHash m (xs ++ ys)) : NewHeaders getHash m xs := by
  refine ⟨fun b hb => hnew.fresh b (List.mem_append_left _ hb), ?_⟩
  have hnodup := hnew.nodup
  rw [List.map_append, List.nodup_append] at hnodup
  exact hnodup.1

theorem NewHeaders.right {base : ℕ}
    (hnew : NewHeaders getHash m (xs ++ ys)) (E : Extends getHash xs base m m') :
    NewHeaders getHash m' ys := by
  obtain ⟨hfresh, hnodup⟩ := hnew
  rw [List.map_append, List.nodup_append] at hnodup
  refine ⟨fun b hb => ?_, hnodup.2.1⟩
  rw [← Option.not_isSome_iff_eq_none]
  intro hsome
  rcases E.only _ hsome with hold | hin
  · rw [hfresh b (List.mem_append_right _ hb)] at hold
    cases hold
  · exact hnodup.2.2 _ hin _ (List.mem_map_of_mem hb) rfl

theorem HashLinked.head (h : HashLinked getHash p headers)
    {b : CBlockHeader} (hb : headers[0]? = some b) : b.hashPrevBlock = p := by
  cases headers with
  | nil => cases hb
  | cons c rest =>
    cases hb
    exact h.1

theorem HashLinked.link
    (h : HashLinked getHash p headers) {i : ℕ} {b b' : CBlockHeader} (hb : headers[i]? = some b)
    (hb' : headers[i + 1]? = some b') : b'.hashPrevBlock = getHash b := by
  induction headers generalizing p i with
  | nil => cases hb
  | cons c rest ih =>
    cases i with
    | zero =>
      cases hb
      exact h.2.head (by simpa using hb')
    | succ i => exact ih h.2 (by simpa using hb) (by simpa using hb')

theorem HashLinked.link_succ (h : HashLinked getHash p headers) {i : ℕ} {b : CBlockHeader}
    (hb : headers[i + 1]? = some b) : ∃ c, headers[i]? = some c ∧ b.hashPrevBlock = getHash c := by
  have hlt := (List.getElem?_eq_some_iff.mp hb).1
  exact ⟨_, List.getElem?_eq_getElem (by omega), h.link (List.getElem?_eq_getElem (by omega)) hb⟩

/-- `d` above the `i`-th header of a linked chain sits the `(i - d)`-th, in every
index that knows their parents.  The induction is on `d`. -/
theorem HashLinked.up_header (hlink : HashLinked getHash p headers) {m : BlockMap}
    (hprev : ∀ i b, 0 < i → headers[i]? = some b → m.prev (getHash b) = some b.hashPrevBlock)
    {i d : ℕ} {b b' : CBlockHeader} (hb : headers[i]? = some b) (hb' : headers[i - d]? = some b')
    (hd : d ≤ i) : up m.prev d (getHash b) = some (getHash b') := by
  induction d generalizing b' with
  | zero =>
    rw [Nat.sub_zero, hb] at hb'
    cases hb'
    rfl
  | succ d ih =>
    have hlt : i - d < headers.length := by
      have := (List.getElem?_eq_some_iff.mp hb).1
      omega
    obtain ⟨c, hc⟩ : ∃ c, headers[i - d]? = some c := ⟨_, List.getElem?_eq_getElem hlt⟩
    rw [up_succ_right, ih hc (by omega), Option.bind_some, hprev (i - d) c (by omega) hc]
    have hnext : headers[i - (d + 1) + 1]? = some c := by
      rw [show i - (d + 1) + 1 = i - d by omega, hc]
    rw [hlink.link hb' hnext]

/-- `m'` keeps `m` and holds the chain `headers` on top of an entry of height `base`. -/
structure Carries (getHash : CBlockHeader → Uint256) (headers : List CBlockHeader) (base : ℕ)
    (m m' : BlockMap) : Prop where
  keeps : ∀ k e, m k = some e → m' k = some e
  entry : ∀ i block, headers[i]? = some block → ∃ e, m' (getHash block) = some e ∧
    e.pprev = some block.hashPrevBlock ∧ e.nHeight = base + 1 + i

theorem Extends.carries {base : ℕ}
    (E : Extends getHash headers base m m') : Carries getHash headers base m m' where
  keeps := E.keeps
  entry i block hi := by
    obtain ⟨e, he, -, hprev, hheight⟩ := E.entry i block hi
    exact ⟨e, he, hprev, hheight⟩

namespace Carries

variable {headers : List CBlockHeader} {base : ℕ} {m m' : BlockMap}

theorem prev (E : Carries getHash headers base m m') {i : ℕ} {b : CBlockHeader}
    (hb : headers[i]? = some b) : m'.prev (getHash b) = some b.hashPrevBlock := by
  obtain ⟨e, he, hprev, -⟩ := E.entry i b hb
  rw [BlockMap.prev_of he, hprev]

theorem up_base (E : Carries getHash headers base m m') (T : TreeInv m) {p : Uint256}
    (hp : (m p).isSome) (hlink : HashLinked getHash p headers) {i : ℕ} {b : CBlockHeader}
    (hb : headers[i]? = some b) (n : ℕ) :
    up m'.prev (i + 1 + n) (getHash b) = up m.prev n p := by
  have hlt := (List.getElem?_eq_some_iff.mp hb).1
  obtain ⟨c, hc⟩ : ∃ c, headers[0]? = some c := ⟨_, List.getElem?_eq_getElem (by omega)⟩
  have htop := hlink.up_header (fun _ _ _ h => E.prev h) hb (by rw [Nat.sub_self]; exact hc)
    (le_refl i)
  rw [up_add, up_succ_right, htop, Option.bind_some, E.prev hc, Option.bind_some, hlink.head hc]
  exact T.up_mono E.keeps hp n

end Carries

/-- The index that holds the genesis block alone.
SOURCE: src/src/node/blockstorage.cpp:220-257 -/
theorem exists_built_genesis (getHash : CBlockHeader → Uint256) (genesis : CBlockHeader)
    (hhash : getHash genesis ≠ genesis.hashPrevBlock) :
    ∃ bm e, Built getHash genesis bm ∧
      bm.m_block_index = BlockMap.insert (fun _ => none) (getHash genesis) e ∧
      FromHeader getHash genesis e ∧ e.nHeight = 0 := by
  obtain ⟨bm, hadd⟩ := addToBlockIndex_ok getHash genesis .empty
  rcases addToBlockIndex_cases hadd with ⟨hsome, -⟩ | ⟨-, work, hbm⟩
  · cases hsome
  · refine ⟨bm, _, .genesis hhash hadd, hbm, linkIndex_fromHeader _ _ _ work, ?_⟩
    refine (linkIndex_root ?_ work).2.2
    rw [BlockMap.insert_of_ne _ _ hhash.symm]
    rfl

end Add

end BitMinti.Model
