import BitMinti.Interface.FeerateDiagram
import BitMinti.Model.FeeFracArith
import Mathlib.Data.Int.ConditionallyCompleteOrder
import Mathlib.Data.Prod.Lex
import Mathlib.Data.Rat.Floor
import Mathlib.Order.Compare

/-!
# The arithmetic of feerates is exact

Both versions divide by truncation and then correct the quotient by the sign of the remainder.  The
fallback divides the upper part first, so that its second division is of a number below
`2 ^ 32 * d`.

SOURCE: src/src/util/feefrac.h:41-101,180-222
-/

set_option autoImplicit false

namespace BitMinti.Analysis

open Model Model.FeeFrac Interface

/-! ## What it is for -/

/-- The number that a pair of the fallback stands for. -/
def pairValue (n : ℤ × ℤ) : ℤ := n.1 * 2 ^ 32 + n.2

/-- The first number is an `int64_t`, the second a `uint32_t`. -/
def IsPair (n : ℤ × ℤ) : Prop := FitsInt 63 n.1 ∧ 0 ≤ n.2 ∧ n.2 < 2 ^ 32

/-- The quotient, rounded down or up. -/
def rounded (n d : ℤ) (round_down : Bool) : ℤ :=
  if round_down then ⌊(n : ℚ) / d⌋ else ⌈(n : ℚ) / d⌉

/-- Where a FeeFrac stands: by its feerate, then by decreasing size, and the empty one last. -/
def place (f : FeeFrac) : WithTop (ℚ ×ₗ ℤᵒᵈ) :=
  if f.size = 0 then ⊤ else ↑(toLex ((f.fee : ℚ) / f.size, OrderDual.toDual f.size))

/-- A positive size, or the empty one. -/
def Proper (f : FeeFrac) : Prop := Fits f ∧ (0 < f.size ∨ f = .empty)

/-! ## Division -/

section Division

variable {n d x m : ℤ} {k : ℕ} (round_down : Bool)

theorem signed_of_fits (h : FitsInt k x) : signed k x = some x := if_pos h

/-- Truncation leaves a remainder with the sign of the dividend. -/
theorem truncated (hd : 0 < d) (n : ℤ) :
    d * n.tdiv d + n.tmod d = n ∧ -d < n.tmod d ∧ n.tmod d < d ∧
      (0 ≤ n → 0 ≤ n.tdiv d ∧ 0 ≤ n.tmod d ∧ n.tdiv d + n.tmod d ≤ n) ∧
      (n ≤ 0 → n.tdiv d ≤ 0 ∧ n.tmod d ≤ 0 ∧ n ≤ n.tdiv d + n.tmod d) := by
  have hneg : n.tdiv d = -(-n).tdiv d ∧ n.tmod d = -(-n).tmod d := by
    rw [Int.neg_tdiv, Int.neg_tmod, neg_neg, neg_neg]
    exact ⟨rfl, rfl⟩
  have heq := Int.mul_tdiv_add_tmod n d
  have hlow := Int.tmod_lt_of_pos (-n) hd
  refine ⟨heq, by omega, Int.tmod_lt_of_pos n hd, fun h => ?_, fun h => ?_⟩
  · have hq := Int.tdiv_nonneg h hd.le
    exact ⟨hq, Int.tmod_nonneg d h, by nlinarith⟩
  · have hq := Int.tdiv_nonneg (Int.neg_nonneg_of_nonpos h) hd.le
    have hr := Int.tmod_nonneg d (Int.neg_nonneg_of_nonpos h)
    exact ⟨by omega, by omega, by nlinarith⟩

/-- **The correction is right.** -/
theorem rounded_eq (hlow : -d < m) (hhigh : m < d) :
    rounded (d * x + m) d round_down = x + correction m round_down := by
  have hd : (0 : ℚ) < d := by exact_mod_cast (by omega : 0 < d)
  cases round_down with
  | true =>
    refine Int.floor_eq_iff.2 ⟨(le_div_iff₀ hd).2 ?_, (div_lt_iff₀ hd).2 ?_⟩
    all_goals
      norm_cast
      grind [correction]
  | false =>
    refine Int.ceil_eq_iff.2 ⟨(lt_div_iff₀ hd).2 ?_, (div_le_iff₀ hd).2 ?_⟩
    all_goals
      norm_cast
      grind [correction]

theorem ediv_eq_rounded (hd : 0 < d) (n : ℤ) :
    n / d = rounded n d true ∧ (n + d - 1) / d = rounded n d false := by
  have hdown := Int.mul_ediv_add_emod n d
  have hup := Int.mul_ediv_add_emod (n + d - 1) d
  have hmod := And.intro (Int.emod_nonneg n hd.ne') (Int.emod_lt_of_pos n hd)
  have hmod' := And.intro (Int.emod_nonneg (n + d - 1) hd.ne') (Int.emod_lt_of_pos (n + d - 1) hd)
  have h := rounded_eq (d := d) (x := n / d) (m := n % d) true (by omega) (by omega)
  have h' := rounded_eq (d := d) (x := (n + d - 1) / d) (m := n - d * ((n + d - 1) / d)) false
    (by omega) (by omega)
  rw [hdown] at h
  rw [add_sub_cancel] at h'
  grind [correction]

theorem correction_bounds (m : ℤ) :
    (0 ≤ m → 0 ≤ correction m round_down ∧ correction m round_down ≤ m) ∧
      (m ≤ 0 → m ≤ correction m round_down ∧ correction m round_down ≤ 0) := by
  grind [correction]

variable (hd : 0 < d) (hsize : FitsInt 31 d)

include hd hsize

/-- **The division of an `__int128` is exact** where the quotient fits. -/
theorem div_eq (n : ℤ) (hfit : FitsInt 63 (rounded n d round_down)) :
    div n d round_down = some (rounded n d round_down) := by
  obtain ⟨heq, hlow, hhigh, hpos, hneg⟩ := truncated hd n
  have hround := rounded_eq (x := n.tdiv d) round_down hlow hhigh
  have hcorrection := correction_bounds round_down (n.tmod d)
  rw [heq] at hround
  rw [hround] at hfit ⊢
  have hquot : FitsInt 63 (n.tdiv d) := by
    unfold FitsInt at hfit ⊢
    omega
  have hmod : FitsInt 31 (n.tmod d) := by
    unfold FitsInt at hsize ⊢
    omega
  simp only [div, signed_of_fits, hquot, hmod, hfit, Option.bind_eq_bind, Option.bind_some]

/-- **The division of a pair is exact** where the quotient fits, without an overflow on
the way. -/
theorem divFallback_eq {n : ℤ × ℤ} (hn : IsPair n)
    (hfit : FitsInt 63 (rounded (pairValue n) d round_down)) :
    divFallback n d round_down = some (rounded (pairValue n) d round_down) := by
  obtain ⟨heq, hlow, hhigh, hpos, hneg⟩ := truncated hd n.1
  set left := n.1.tmod d * 2 ^ 32 + n.2 with hleft
  obtain ⟨heq', hlow', hhigh', hpos', hneg'⟩ := truncated hd left
  have hround := rounded_eq (x := n.1.tdiv d * 2 ^ 32 + left.tdiv d) round_down hlow' hhigh'
  have hvalue : d * (n.1.tdiv d * 2 ^ 32 + left.tdiv d) + left.tmod d = pairValue n := by
    rw [pairValue, mul_add, add_assoc, heq']
    linear_combination (2 ^ 32 : ℤ) * heq
  have hcorrection := correction_bounds round_down (left.tmod d)
  rw [hvalue] at hround
  rw [hround, add_assoc] at hfit ⊢
  -- what the upper part leaves has its sign, so the two parts of the result do not cancel
  unfold IsPair FitsInt at *
  have hsteps : FitsInt 63 (n.1.tdiv d) ∧ FitsInt 63 (n.1.tmod d * 2 ^ 32) ∧ FitsInt 63 left ∧
      FitsInt 63 (left.tdiv d) ∧ FitsInt 31 (left.tmod d) ∧
      FitsInt 63 (left.tdiv d + correction (left.tmod d) round_down) ∧
      FitsInt 63 (n.1.tdiv d * 2 ^ 32) := by
    unfold FitsInt
    omega
  obtain ⟨h1, h2, h3, h4, h5, h6, h7⟩ := hsteps
  simp only [divFallback, signed_of_fits, h1, h2, ← hleft, h3, h4, h5, h6, h7,
    Option.bind_eq_bind, Option.bind_some]
  exact signed_of_fits hfit

end Division

/-! ## Products -/

section Products

variable {a b : ℤ} {m n : ℤ × ℤ}

/-- **The pair of a product is exact**, without an overflow on the way. -/
theorem mulFallback_eq (ha : FitsInt 63 a) (hb : FitsInt 31 b) :
    ∃ n, mulFallback a b = some n ∧ IsPair n ∧ pairValue n = a * b := by
  have hsplit : a = a / 2 ^ 32 * 2 ^ 32 + a % 2 ^ 32 := by omega
  obtain ⟨hhigh, hhigh'⟩ : -2 ^ 31 ≤ a / 2 ^ 32 ∧ a / 2 ^ 32 < 2 ^ 31 := by
    unfold FitsInt at ha
    omega
  obtain ⟨hlow, hlow'⟩ : 0 ≤ a % 2 ^ 32 ∧ a % 2 ^ 32 < 2 ^ 32 := by omega
  have hshift : ∀ x : ℤ, x >>> (32 : ℕ) = x / 2 ^ 32 := fun x => Int.shiftRight_eq_div_pow x 32
  simp only [mulFallback, toUint32, hshift]
  generalize a / 2 ^ 32 = high at *
  generalize a % 2 ^ 32 = low at *
  obtain ⟨hb, hb'⟩ := hb
  have h1 : FitsInt 63 (low * b) := ⟨by nlinarith, by nlinarith⟩
  have h2 : -2 ^ 62 ≤ high * b ∧ high * b ≤ 2 ^ 62 := ⟨by nlinarith, by nlinarith⟩
  have h3 : FitsInt 63 (high * b) := by
    unfold FitsInt
    omega
  have h4 : FitsInt 63 (high * b + low * b / 2 ^ 32) := by
    unfold FitsInt at h1 ⊢
    omega
  refine ⟨(high * b + low * b / 2 ^ 32, low * b % 2 ^ 32), ?_, ⟨h4, by omega, by omega⟩, ?_⟩
  · simp only [signed_of_fits, h1, h3, h4, Option.bind_eq_bind, Option.bind_some, Option.pure_def]
  · have hvalue : a * b = high * b * 2 ^ 32 + low * b := by
      rw [hsplit]
      ring
    rw [hvalue, pairValue]
    omega

theorem mul_eq (ha : FitsInt 63 a) (hb : FitsInt 31 b) : mul a b = some (a * b) := by
  obtain ⟨n, -, hn, hvalue⟩ := mulFallback_eq ha hb
  refine signed_of_fits ?_
  rw [← hvalue]
  unfold IsPair pairValue FitsInt at *
  omega

/-- **Pairs compare as what they stand for.** -/
theorem comparePairs_eq (hm : IsPair m) (hn : IsPair n) :
    comparePairs m n = compare (pairValue m) (pairValue n) := by
  unfold IsPair at hm hn
  rcases lt_trichotomy m.1 n.1 with h | h | h
  · have hlt : pairValue m < pairValue n := by
      unfold pairValue
      omega
    rw [comparePairs, compare_lt_iff_lt.2 h, compare_lt_iff_lt.2 hlt]
    rfl
  · rw [comparePairs, pairValue, pairValue, h, compare_eq_iff_eq.2 rfl, ← cmp_eq_compare,
      ← cmp_eq_compare, cmp_add_left]
    rfl
  · have hlt : pairValue n < pairValue m := by
      unfold pairValue
      omega
    rw [comparePairs, compare_gt_iff_gt.2 h, compare_gt_iff_gt.2 hlt]
    rfl

end Products

/-! ## The order -/

section Order

variable {x y : FeeFrac}

theorem fitsInt_of_fits (h : Fits x) : FitsInt 63 x.fee ∧ FitsInt 31 x.size :=
  ⟨⟨h.fee_lower, h.fee_upper⟩, h.size_lower, h.size_upper⟩

/-- Both versions compare the products. -/
theorem spaceship_eq (int128 : Bool) (hx : Fits x) (hy : Fits y) :
    spaceship int128 x y = some
      (if x.fee * y.size = y.fee * x.size then compare y.size x.size
        else compare (x.fee * y.size) (y.fee * x.size)) := by
  obtain ⟨hxfee, hxsize⟩ := fitsInt_of_fits hx
  obtain ⟨hyfee, hysize⟩ := fitsInt_of_fits hy
  cases int128 with
  | true =>
    rw [spaceship, if_pos rfl, threeWay, mul_eq hxfee hysize, mul_eq hyfee hxsize]
    rfl
  | false =>
    obtain ⟨m, hm, hmpair, hmvalue⟩ := mulFallback_eq hxfee hysize
    obtain ⟨n, hn, hnpair, hnvalue⟩ := mulFallback_eq hyfee hxsize
    have heq : m = n ↔ x.fee * y.size = y.fee * x.size := by
      rw [← hmvalue, ← hnvalue, Prod.ext_iff]
      unfold IsPair pairValue at *
      omega
    simp only [spaceship, threeWay, hm, hn, Option.bind_eq_bind, Option.bind_some, heq,
      Option.pure_def, comparePairs_eq hmpair hnpair, hmvalue, hnvalue, Bool.false_eq_true,
      if_false]

/-- `x` comes before `y`. -/
def Before (x y : FeeFrac) : Prop :=
  x.fee * y.size < y.fee * x.size ∨ x.fee * y.size = y.fee * x.size ∧ y.size < x.size

theorem place_lt (hx : Proper x) (hy : Proper y) (h : Before x y) : place x < place y := by
  rcases hx.2 with hx | rfl
  · rw [place, if_neg hx.ne']
    rcases hy.2 with hy | rfl
    · rw [place, if_neg hy.ne', WithTop.coe_lt_coe, Prod.Lex.toLex_lt_toLex,
        div_lt_div_iff₀ (by exact_mod_cast hx) (by exact_mod_cast hy),
        div_eq_div_iff (by exact_mod_cast hx.ne') (by exact_mod_cast hy.ne')]
      exact_mod_cast h
    · exact WithTop.coe_lt_top _
  · simp only [Before, FeeFrac.empty, zero_mul, mul_zero, lt_irrefl, false_or, true_and] at h
    rcases hy.2 with hy | rfl
    · omega
    · exact absurd h (lt_irrefl _)

theorem before_trichotomy (hx : Proper x) (hy : Proper y) : Before x y ∨ x = y ∨ Before y x := by
  by_cases hcross : x.fee * y.size = y.fee * x.size
  · rcases lt_trichotomy y.size x.size with h | h | h
    · exact .inl (.inr ⟨hcross, h⟩)
    · refine .inr (.inl ?_)
      obtain ⟨fee, size⟩ := x
      obtain ⟨fee', size'⟩ := y
      obtain rfl : size' = size := h
      rcases hx.2 with hpos | hx
      · obtain rfl : fee = fee' := Int.eq_of_mul_eq_mul_right hpos.ne' hcross
        rfl
      · cases hx
        exact (hy.2.resolve_left (lt_irrefl 0)).symm
    · exact .inr (.inr (.inr ⟨hcross.symm, h⟩))
  · rcases lt_or_gt_of_ne hcross with h | h
    · exact .inl (.inl h)
    · exact .inr (.inr (.inl h))

/-- **The comparison is that of the places.** -/
theorem spaceship_compares (int128 : Bool) (hx : Proper x) (hy : Proper y) :
    ∃ r, spaceship int128 x y = some r ∧ r.Compares (place x) (place y) := by
  rw [spaceship_eq int128 hx.1 hy.1]
  rcases before_trichotomy hx hy with h | rfl | h
  · refine ⟨.lt, congrArg some ?_, place_lt hx hy h⟩
    rcases h with h | ⟨heq, h⟩
    · rw [if_neg h.ne, compare_lt_iff_lt.2 h]
    · rw [if_pos heq, compare_lt_iff_lt.2 h]
  · exact ⟨.eq, by rw [if_pos rfl, compare_eq_iff_eq.2 rfl], rfl⟩
  · refine ⟨.gt, congrArg some ?_, place_lt hy hx h⟩
    rcases h with h | ⟨heq, h⟩
    · rw [if_neg h.ne', compare_gt_iff_gt.2 h]
    · rw [if_pos heq.symm, compare_gt_iff_gt.2 h]

theorem place_injOn : Set.InjOn place {f | Proper f} := by
  intro x hx y hy h
  rcases before_trichotomy hx hy with h' | h' | h'
  · exact absurd h (place_lt hx hy h').ne
  · exact h'
  · exact absurd h (place_lt hy hx h').ne'

end Order

/-! ## Evaluation -/

/-- **Evaluation is exact** on both paths.
SOURCE: src/src/util/feefrac.h:187-215 -/
theorem evaluateFee_eq (int128 round_down : Bool) {f : FeeFrac} {at_size : ℤ} (hf : Fits f)
    (hsize : 0 < f.size) (hat : 0 ≤ at_size ∧ at_size < 2 ^ 31)
    (hfit : FitsInt 63 (rounded (f.fee * at_size) f.size round_down)) :
    evaluateFee int128 round_down f at_size =
      some (rounded (f.fee * at_size) f.size round_down) := by
  obtain ⟨hfee, hsize'⟩ := fitsInt_of_fits hf
  have hat' : FitsInt 31 at_size := ⟨by omega, hat.2⟩
  by_cases hfast : 0 ≤ f.fee ∧ f.fee < 0x200000000
  · -- neither the product nor what is added to round up leaves 64 bits
    have hprod : 0 ≤ f.fee * at_size ∧ f.fee * at_size ≤ (2 ^ 33 - 1) * (2 ^ 31 - 1) :=
      ⟨mul_nonneg hfast.1 hat.1, mul_le_mul (by omega) (by omega) hat.1 (by omega)⟩
    have hwrap : ∀ x : ℤ, 0 ≤ x → x < 2 ^ 64 → toUint64 x = x := fun x => Int.emod_eq_of_lt
    have hupper := hf.size_upper
    obtain ⟨hdown, hup⟩ := ediv_eq_rounded hsize (f.fee * at_size)
    rw [evaluateFee, if_pos hfast, hwrap f.fee (by omega) (by omega),
      hwrap at_size (by omega) (by omega), hwrap f.size (by omega) (by omega),
      hwrap _ hprod.1 (by omega), toUint32, Int.emod_eq_of_lt (by omega) (by omega)]
    cases round_down with
    | true =>
      rw [← hdown] at hfit ⊢
      exact signed_of_fits hfit
    | false =>
      rw [← hup] at hfit ⊢
      dsimp only
      rw [hwrap (_ + f.size) (by omega) (by omega), hwrap _ (by omega) (by omega)]
      exact signed_of_fits hfit
  · rw [evaluateFee, if_neg hfast]
    cases int128 with
    | true =>
      rw [if_pos rfl, mul_eq hfee hat']
      exact div_eq round_down hsize hsize' _ hfit
    | false =>
      obtain ⟨n, hn, hpair, hvalue⟩ := mulFallback_eq hfee hat'
      rw [if_neg Bool.false_ne_true, hn]
      rw [← hvalue] at hfit ⊢
      exact divFallback_eq round_down hsize hsize' hpair hfit

/-- **The arithmetic of feerates is exact.**  Products of the fallback stand for the products and
compare as they do, its divisions round as asked for wherever the quotient fits, evaluation
returns the rounded fee on all paths, and `operator<=>` is a total order: that of the places.
SOURCE: src/src/util/feefrac.h:41-101,180-222 -/
theorem feeFrac_arithmetic_exact :
    (∀ a b a' b', FitsInt 63 a → FitsInt 31 b → FitsInt 63 a' → FitsInt 31 b' →
      ∃ m n, mulFallback a b = some m ∧ mulFallback a' b' = some n ∧ IsPair m ∧ IsPair n ∧
        pairValue m = a * b ∧ pairValue n = a' * b' ∧
        comparePairs m n = compare (a * b) (a' * b')) ∧
    (∀ n d round_down, IsPair n → 0 < d → FitsInt 31 d →
      FitsInt 63 (rounded (pairValue n) d round_down) →
      divFallback n d round_down = some (rounded (pairValue n) d round_down)) ∧
    (∀ int128 round_down f at_size, Fits f → 0 < f.size → 0 ≤ at_size ∧ at_size < 2 ^ 31 →
      FitsInt 63 (rounded (f.fee * at_size) f.size round_down) →
      evaluateFee int128 round_down f at_size =
        some (rounded (f.fee * at_size) f.size round_down)) ∧
    Set.InjOn place {f | Proper f} ∧
    ∀ int128 x y, Proper x → Proper y →
      ∃ r, spaceship int128 x y = some r ∧ r.Compares (place x) (place y) := by
  refine ⟨fun a b a' b' ha hb ha' hb' => ?_,
    fun n d round_down hn hd hsize hfit => divFallback_eq round_down hd hsize hn hfit,
    fun int128 round_down f at_size hf hsize hat hfit =>
      evaluateFee_eq int128 round_down hf hsize hat hfit,
    place_injOn, fun int128 x y hx hy => spaceship_compares int128 hx hy⟩
  obtain ⟨m, hm, hmpair, hmvalue⟩ := mulFallback_eq ha hb
  obtain ⟨n, hn, hnpair, hnvalue⟩ := mulFallback_eq ha' hb'
  refine ⟨m, n, hm, hn, hmpair, hnpair, hmvalue, hnvalue, ?_⟩
  rw [comparePairs_eq hmpair hnpair, hmvalue, hnvalue]

theorem feeFrac_arithmetic_exact_negative :
    evaluateFee false true ⟨-5, 2⟩ 1 = some (-3) := by
  have hrounded : rounded (-5 * 1) 2 true = -3 := by
    norm_num [rounded, Int.floor_eq_iff]
  have h := feeFrac_arithmetic_exact.2.2.1 false true ⟨-5, 2⟩ 1
    ⟨by decide, by decide, by decide, by decide⟩ (by decide) (by decide)
  rw [hrounded] at h
  exact h (by decide)

end BitMinti.Analysis
