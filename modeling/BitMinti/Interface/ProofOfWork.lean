import Mathlib.Data.Nat.Size
import Mathlib.Algebra.BigOperators.Intervals

/-!
# The proof-of-work rules

What the proof-of-work code is for, stated with no word size and no pointer in sight:
`expandCompact` is the number a compact `nBits` spells, `compactNat` the compact
encoding of a number, `lwma` the linearly weighted moving average of a window of `N`
blocks, given by the weight-indexed targets and solvetimes of the window, and `epochSeed`
the RandomX seed of a height.  `BitMinti.Analysis.Pow` compares the 256-bit computation
of the node with the first rule, `BitMinti.Analysis.HeaderValidation` the three seed
lookups with the second.
-/

set_option autoImplicit false

namespace BitMinti.Interface

/-! ## Compact numbers -/

/-- The number a compact encoding spells: a 23-bit mantissa times a power of 256. -/
def expandCompact (c : ℕ) : ℕ :=
  if c / 2 ^ 24 ≤ 3 then c % 2 ^ 23 / 256 ^ (3 - c / 2 ^ 24)
  else c % 2 ^ 23 * 256 ^ (c / 2 ^ 24 - 3)

/-- The number of base-256 digits. -/
def digits256 (n : ℕ) : ℕ := (Nat.size n + 7) / 8

/-- The three leading base-256 digits. -/
def leading24 (n : ℕ) : ℕ :=
  if digits256 n ≤ 3 then n * 256 ^ (3 - digits256 n) else n / 256 ^ (digits256 n - 3)

/-- The compact encoding of a number: a mantissa whose top bit is set gives up its last
digit, because that bit is the sign. -/
def compactNat (n : ℕ) : ℕ :=
  if leading24 n < 2 ^ 23 then leading24 n + digits256 n * 2 ^ 24
  else leading24 n / 256 + (digits256 n + 1) * 2 ^ 24

theorem pow_256 (k : ℕ) : 256 ^ k = 2 ^ (8 * k) := by rw [Nat.pow_mul]

theorem leading24_lt (n : ℕ) : leading24 n < 2 ^ 24 := by
  have hsize : Nat.size n ≤ 8 * digits256 n := by
    unfold digits256
    omega
  have hn : n < 2 ^ (8 * digits256 n) :=
    (Nat.lt_size_self n).trans_le (Nat.pow_le_pow_right (by omega) hsize)
  unfold leading24
  by_cases h : digits256 n ≤ 3
  · rw [if_pos h]
    calc n * 256 ^ (3 - digits256 n)
        < 2 ^ (8 * digits256 n) * 2 ^ (8 * (3 - digits256 n)) := by
          rw [pow_256]
          exact Nat.mul_lt_mul_of_pos_right hn (Nat.two_pow_pos _)
      _ = 2 ^ 24 := by rw [← Nat.pow_add]; congr 1; omega
  · rw [if_neg h]
    apply Nat.div_lt_of_lt_mul
    rw [pow_256, ← Nat.pow_add]
    exact hn.trans_le (Nat.pow_le_pow_right (by omega) (by omega))

/-- The number that is left of a number when it is encoded and decoded. -/
def compactRound (n : ℕ) : ℕ := expandCompact (compactNat n)

/-- The base-256 digits that the encoding of a number drops. -/
def droppedDigits (n : ℕ) : ℕ := Nat.size n / 8 - 2

theorem leading24_lt_iff {n : ℕ} (hn : 0 < n) : leading24 n < 2 ^ 23 ↔ Nat.size n % 8 ≠ 0 := by
  have hpos : 0 < Nat.size n := Nat.size_pos.mpr hn
  have hlt : n < 2 ^ Nat.size n := Nat.lt_size_self n
  have hge : 2 ^ (Nat.size n - 1) ≤ n := Nat.lt_size.mp (by omega)
  have hdigits : 8 * digits256 n = Nat.size n + 7 - (Nat.size n + 7) % 8 := by
    unfold digits256
    omega
  unfold leading24
  constructor
  · intro hsmall hfull
    by_cases h : digits256 n ≤ 3
    · rw [if_pos h, pow_256] at hsmall
      have hmul := Nat.mul_le_mul_right (2 ^ (8 * (3 - digits256 n))) hge
      rw [← Nat.pow_add, show Nat.size n - 1 + 8 * (3 - digits256 n) = 23 by omega] at hmul
      omega
    · rw [if_neg h, pow_256, Nat.div_lt_iff_lt_mul (Nat.two_pow_pos _), ← Nat.pow_add] at hsmall
      rw [show 23 + 8 * (digits256 n - 3) = Nat.size n - 1 by omega] at hsmall
      omega
  · intro hfull
    by_cases h : digits256 n ≤ 3
    · rw [if_pos h, pow_256]
      calc n * 2 ^ (8 * (3 - digits256 n))
          < 2 ^ Nat.size n * 2 ^ (8 * (3 - digits256 n)) :=
            Nat.mul_lt_mul_of_pos_right hlt (Nat.two_pow_pos _)
        _ ≤ 2 ^ 23 := by
            rw [← Nat.pow_add]
            exact Nat.pow_le_pow_right (by omega) (by omega)
    · rw [if_neg h, pow_256, Nat.div_lt_iff_lt_mul (Nat.two_pow_pos _), ← Nat.pow_add]
      exact hlt.trans_le (Nat.pow_le_pow_right (by omega) (by omega))

theorem compactNat_mantissa (n : ℕ) : compactNat n % 2 ^ 24 < 2 ^ 23 := by
  have hlead := leading24_lt n
  unfold compactNat
  by_cases h : leading24 n < 2 ^ 23
  · rw [if_pos h]
    omega
  · rw [if_neg h]
    omega

/-- **Encoding and decoding drops the last digits.** -/
theorem compactRound_eq (n : ℕ) :
    compactRound n = n / 256 ^ droppedDigits n * 256 ^ droppedDigits n := by
  rcases Nat.eq_zero_or_pos n with rfl | hn
  · decide
  have hlead := leading24_lt n
  have hiff := leading24_lt_iff hn
  have hpos : 0 < Nat.size n := Nat.size_pos.mpr hn
  unfold compactRound expandCompact compactNat droppedDigits
  by_cases hfull : Nat.size n % 8 = 0
  · -- the mantissa gives up a digit
    have hge : ¬ leading24 n < 2 ^ 23 := fun h => hiff.mp h hfull
    have hdigits : digits256 n = Nat.size n / 8 := by
      unfold digits256
      omega
    rw [if_neg hge]
    have hexp : (leading24 n / 256 + (digits256 n + 1) * 2 ^ 24) / 2 ^ 24 = digits256 n + 1 := by
      omega
    have hman : (leading24 n / 256 + (digits256 n + 1) * 2 ^ 24) % 2 ^ 23 = leading24 n / 256 := by
      omega
    rw [hexp, hman, hdigits]
    unfold leading24
    rw [hdigits]
    by_cases h2 : Nat.size n / 8 + 1 ≤ 3
    · rw [if_pos h2, if_pos (by omega), show Nat.size n / 8 - 2 = 0 by omega, Nat.div_div_eq_div_mul,
        ← Nat.pow_succ', show (3 - (Nat.size n / 8 + 1)).succ = 3 - Nat.size n / 8 by omega,
        Nat.mul_div_cancel _ (Nat.pow_pos (by omega))]
      simp
    · rw [if_neg h2, show Nat.size n / 8 + 1 - 3 = Nat.size n / 8 - 2 by omega]
      by_cases h3 : Nat.size n / 8 ≤ 3
      · rw [if_pos h3, show Nat.size n / 8 = 3 by omega]
        simp
      · rw [if_neg h3, Nat.div_div_eq_div_mul, ← Nat.pow_succ,
          show (Nat.size n / 8 - 3).succ = Nat.size n / 8 - 2 by omega]
  · have hlt : leading24 n < 2 ^ 23 := hiff.mpr hfull
    have hdigits : digits256 n = Nat.size n / 8 + 1 := by
      unfold digits256
      omega
    rw [if_pos hlt]
    have hexp : (leading24 n + digits256 n * 2 ^ 24) / 2 ^ 24 = digits256 n := by omega
    have hman : (leading24 n + digits256 n * 2 ^ 24) % 2 ^ 23 = leading24 n := by omega
    rw [hexp, hman, hdigits]
    unfold leading24
    rw [hdigits]
    by_cases h3 : Nat.size n / 8 + 1 ≤ 3
    · rw [if_pos h3, if_pos h3, show Nat.size n / 8 - 2 = 0 by omega,
        Nat.mul_div_cancel _ (Nat.pow_pos (by omega))]
      simp
    · rw [if_neg h3, if_neg h3, show Nat.size n / 8 + 1 - 3 = Nat.size n / 8 - 2 by omega]

theorem compactRound_le (n : ℕ) : compactRound n ≤ n := by
  rw [compactRound_eq]
  exact Nat.div_mul_le_self n _

theorem pow_le_compactRound {n : ℕ} (hn : 0 < n) : 2 ^ (Nat.size n - 1) ≤ compactRound n := by
  have hpos : 0 < Nat.size n := Nat.size_pos.mpr hn
  have hge : 2 ^ (Nat.size n - 1) ≤ n := Nat.lt_size.mp (by omega)
  have hle : 8 * droppedDigits n ≤ Nat.size n - 1 := by
    unfold droppedDigits
    omega
  rw [compactRound_eq, show 256 ^ droppedDigits n = 2 ^ (8 * droppedDigits n) by rw [Nat.pow_mul]]
  calc 2 ^ (Nat.size n - 1)
      = 2 ^ (Nat.size n - 1) / 2 ^ (8 * droppedDigits n) * 2 ^ (8 * droppedDigits n) :=
        (Nat.div_mul_cancel (Nat.pow_dvd_pow 2 hle)).symm
    _ ≤ n / 2 ^ (8 * droppedDigits n) * 2 ^ (8 * droppedDigits n) :=
        Nat.mul_le_mul_right _ (Nat.div_le_div_right hge)

theorem compactRound_pos {n : ℕ} (hn : 0 < n) : 0 < compactRound n :=
  (Nat.two_pow_pos _).trans_le (pow_le_compactRound hn)

/-- **A larger number is not rounded to a smaller one.** -/
theorem compactRound_mono {a b : ℕ} (hab : a ≤ b) : compactRound a ≤ compactRound b := by
  rcases Nat.eq_zero_or_pos a with rfl | ha
  · exact (compactRound_le 0).trans (Nat.zero_le _)
  have hb : 0 < b := ha.trans_le hab
  rcases (Nat.size_le_size hab).eq_or_lt with hsize | hsize
  · rw [compactRound_eq, compactRound_eq, droppedDigits, droppedDigits, hsize]
    exact Nat.mul_le_mul_right _ (Nat.div_le_div_right hab)
  · calc compactRound a ≤ a := compactRound_le a
      _ ≤ 2 ^ Nat.size a := (Nat.lt_size_self a).le
      _ ≤ 2 ^ (Nat.size b - 1) := Nat.pow_le_pow_right (by omega) (by omega)
      _ ≤ compactRound b := pow_le_compactRound hb

/-- What one adjustment may make of the target `prev`: at most eleven tenths of it, at least nine
tenths as the encoding rounds them, and at most the limit. -/
structure OneAdjustment (powLimit prev next : ℕ) : Prop where
  limit : next ≤ powLimit
  easier : 10 * next ≤ 11 * prev
  harder : compactRound (prev * 9 / 10) ≤ next

/-- The work of a block: the number of hashes its target takes on average. -/
def targetWork (target : ℕ) : ℕ := 2 ^ 256 / (target + 1)

section Lwma

variable (N : ℕ) (target solvetime : ℕ → ℕ)

/-- The weights `1, …, N` added up. -/
def weightSum : ℕ := ∑ i ∈ Finset.Icc 1 N, i

/-- The targets of the window, each times its weight. -/
def weightedTargets : ℕ := ∑ i ∈ Finset.Icc 1 N, target i * i

/-- The solvetimes of the window, each times its weight. -/
def weightedSolvetimes : ℕ := ∑ i ∈ Finset.Icc 1 N, solvetime i * i

/-- The average target, scaled by how the average solvetime compares with `spacing`. -/
def lwmaRaw (spacing : ℕ) : ℕ :=
  weightedTargets N target / weightSum N * weightedSolvetimes N solvetime /
    (weightSum N * spacing)

/-- One step's clamp: at least nine tenths and at most eleven tenths of the previous
target, and at most `powLimit`. -/
def clampTarget (powLimit prev bnNew : ℕ) : ℕ :=
  min (min (max bnNew (prev * 90 / 100)) (prev * 110 / 100)) powLimit

/-- The next target of the rule. -/
def lwma (spacing powLimit prev : ℕ) : ℕ :=
  clampTarget powLimit prev (lwmaRaw N target solvetime spacing)

end Lwma

/-- What a raw solvetime counts as: at least a quarter of the spacing, at most six times
the spacing. -/
def clampSolvetime (spacing raw : ℤ) : ℤ := min (max raw (spacing / 4)) (6 * spacing)

theorem clampSolvetime_eq_ite (spacing raw : ℤ) :
    clampSolvetime spacing raw =
      if (if raw < spacing / 4 then spacing / 4 else raw) > 6 * spacing then 6 * spacing
      else if raw < spacing / 4 then spacing / 4 else raw := by
  unfold clampSolvetime
  by_cases hlow : raw < spacing / 4
  · simp only [if_pos hlow]
    split <;> omega
  · simp only [if_neg hlow]
    split <;> omega

/-- A chain as the rule sees it from its tip: how high the tip is, and the target and the
time of the block `d` below it. -/
structure ChainView where
  height : ℕ
  target : ℕ → ℕ
  time : ℕ → ℤ

namespace ChainView

variable (c : ChainView) (N : ℕ) (spacing : ℕ)

/-- The solvetime of the block `d` below the tip.  The first `N` blocks count as perfectly
timed. -/
def solvetime (d : ℕ) : ℕ :=
  if c.height - d < N then spacing
  else (clampSolvetime spacing (c.time d - c.time (d + 1))).toNat

theorem solvetime_le (d : ℕ) : c.solvetime N spacing d ≤ 6 * spacing := by
  unfold solvetime clampSolvetime
  split <;> omega

theorem solvetime_pos (hspacing : 4 ≤ spacing) (d : ℕ) : 0 < c.solvetime N spacing d := by
  unfold solvetime clampSolvetime
  split <;> omega

/-- Targets by weight: the tip weighs `N`, the oldest block of the window weighs one. -/
def targetAt (i : ℕ) : ℕ := c.target (N - i)

/-- Solvetimes by weight. -/
def solvetimeAt (i : ℕ) : ℕ := c.solvetime N spacing (N - i)

/-- The next target after this chain. -/
def nextTarget (powLimit : ℕ) : ℕ :=
  lwma N (c.targetAt N) (c.solvetimeAt N spacing) spacing powLimit (c.target 0)

end ChainView

/-! ## The seed -/

/-- The seed of height `H` on a chain whose block of height `k` has the identifier
`blockId k`: the block that opened the epoch of `H`, and `zero` in the first epoch.
SOURCE: src/consensus.md:57-68 -/
def epochSeed {Id : Type} (epoch : ℕ) (zero : Id) (blockId : ℕ → Option Id) (H : ℕ) : Option Id :=
  if H / epoch * epoch = 0 then some zero else blockId (H / epoch * epoch)

/-- Within an epoch, past its first height, the height and the one before it open
with the same block. -/
theorem pred_div_mul_eq {epoch H : ℕ} (hpos : 0 < H) (hH : ¬ epoch ∣ H) :
    (H - 1) / epoch * epoch = H / epoch * epoch := by
  obtain ⟨k, rfl⟩ : ∃ k, H = k + 1 := ⟨H - 1, by omega⟩
  rw [Nat.add_sub_cancel, Nat.succ_div_of_not_dvd hH]

end BitMinti.Interface
