import BitMinti.Model.ArithUint256
import BitMinti.Interface.ProofOfWork

/-!
# What the limb loops of `arith_uint256` compute

Each operator of `BitMinti.Model.ArithUint256` is read back as an operation on
natural numbers modulo `2 ^ 256`.  There is one lemma per operator; the rest of the
development rewrites through them and never opens a limb loop again.

* `toNat_add`, `toNat_mul`: by carries, from the row lemmas of
  `BitMinti.Computation.Limbs`.
* `toNat_shiftLeft`, `toNat_shiftRight`: by bits, since the source scatters each limb
  over two targets with `|=`.
* `div_eq`: the shift-subtract loop.  With `shift` passes left the divisor holds
  `b * 2 ^ (shift - 1)` exactly, the remainder is below twice that, and what is still to
  be added to the quotient is `num / b` (`divLoop_value`).
* `getCompact_eq`: the encoder depends on the number only.

SOURCE: src/src/arith_uint256.cpp:13-230
-/

set_option autoImplicit false

namespace BitMinti.Model

open Computation.Limbs

namespace BaseUint

/-! ## Addition, negation, subtraction -/

/-- `+=` adds modulo the width.
SOURCE: src/src/arith_uint256.h:117-127 -/
theorem add_value (a b : List Limb) (h : a.length = b.length) :
    value (add a b) = (value a + value b) % 2 ^ (32 * a.length) := by
  simpa [add] using addLoop_value a b 0 h (by simp)

variable (a : List Limb)

/-- A number and its complement add up to all ones.
SOURCE: src/src/arith_uint256.h:50-56 -/
theorem compl_value : value (compl a) + value a + 1 = 2 ^ (32 * a.length) := by
  induction a with
  | nil => simp [compl]
  | cons x xs ih =>
    have hx := x.isLt
    have hn : (~~~x).toNat = 2 ^ 32 - 1 - x.toNat := BitVec.toNat_not
    simp only [compl] at ih
    rw [compl, List.map_cons, value_cons, value_cons, List.length_cons, Nat.mul_succ,
      Nat.pow_add, ← ih, hn]
    omega

/-- `++` adds one modulo the width.
SOURCE: src/src/arith_uint256.h:149-156 -/
theorem inc_value : value (inc a) = (value a + 1) % 2 ^ (32 * a.length) := by
  induction a with
  | nil => simp [inc]
  | cons x xs ih =>
    have hinc : (x + 1).toNat = (x.toNat + 1) % 2 ^ 32 := by simp [BitVec.toNat_add]
    have hlen : 32 * (x :: xs).length = 32 + 32 * xs.length := by rw [List.length_cons]; ring
    rw [hlen, value_cons]
    unfold inc
    split
    case isTrue hz =>
      -- the limb wraps, so the carry goes on into the tail
      have hz' : (x + 1).toNat = 0 := by rw [hz]; rfl
      rw [value_cons, ih, low_add_mod (x + 1).isLt, hz']
      congr 1
      omega
    case isFalse hz =>
      have hz' : (x + 1).toNat ≠ 0 := fun h => hz (BitVec.eq_of_toNat_eq (by simpa using h))
      rw [value_cons, ← Nat.mod_eq_of_lt (value_lt xs), low_add_mod (x + 1).isLt,
        Nat.mod_eq_of_lt (value_lt xs)]
      congr 1
      omega

/-- Unary minus is the complement to `2 ^ width`.
SOURCE: src/src/arith_uint256.h:58-65 -/
theorem neg_value (b : List Limb) :
    value (neg b) = (2 ^ (32 * b.length) - value b) % 2 ^ (32 * b.length) := by
  have h := compl_value b
  have hlen : (compl b).length = b.length := by simp [compl]
  rw [neg, inc_value, hlen]
  congr 1
  omega

/-- `-=` subtracts modulo the width.
SOURCE: src/src/arith_uint256.h:129-133 -/
theorem sub_value (a b : List Limb) (h : a.length = b.length) :
    (value (sub a b) : ℤ) = (value a - value b) % ((2 ^ (32 * a.length) : ℕ) : ℤ) := by
  have hb := value_lt b
  rw [← h] at hb
  have hsum : ((value a + (2 ^ (32 * a.length) - value b) : ℕ) : ℤ) =
      value a - value b + (2 ^ (32 * a.length) : ℕ) := by omega
  rw [sub, add_value a _ (by simp [h]), neg_value, ← h, Nat.add_mod_mod, Int.natCast_mod, hsum,
    Int.add_emod_right]

/-! ## Multiplication -/

/-- After the first `j` rows the accumulator holds the product of the first `j`
limbs with `b`.
SOURCE: src/src/arith_uint256.cpp:60-73 -/
theorem mul_rows_value (x b : List Limb) (h : x.length = b.length) (j : ℕ)
    (hj : j ≤ x.length) :
    value ((List.range j).foldl
      (fun a j => a.take j ++ mulRow (x.getD j 0#32) (a.drop j) b 0)
      (List.replicate x.length 0#32)) =
      (value (x.take j) * value b) % 2 ^ (32 * x.length) := by
  induction j with
  | zero => simp
  | succ j ih =>
    have ih := ih (by omega)
    rw [List.range_succ, List.foldl_append, List.foldl_cons, List.foldl_nil]
    set a := (List.range j).foldl
      (fun a j => a.take j ++ mulRow (x.getD j 0#32) (a.drop j) b 0)
      (List.replicate x.length 0#32) with ha
    have hlen : a.length = x.length := by
      rw [ha, foldl_length, List.length_replicate]
      intro l i
      simp only [List.length_append, List.length_take, mulRow_length, List.length_drop]
      omega
    have hsplit := value_take_add_drop a j (by omega)
    have hrow := mulRow_value (x.getD j 0#32) (a.drop j) b 0
      (by rw [List.length_drop]; omega) (by simp)
    have hw : 32 * x.length = 32 * j + 32 * (x.length - j) := by omega
    have htake : value (x.take (j + 1)) =
        value (x.take j) + 2 ^ (32 * j) * (x.getD j 0#32).toNat := by
      rw [List.take_succ_eq_append_getElem (by omega), value_append, List.length_take,
        Nat.min_eq_left (by omega), List.getD_eq_getElem _ _ (by omega)]
      simp
    rw [value_append, hrow, List.length_take, List.length_drop, hlen,
      Nat.min_eq_left (by omega)]
    simp only [BitVec.ofNat_eq_ofNat, BitVec.toNat_ofNat, Nat.zero_mod, Nat.add_zero]
    -- the low `j` limbs are untouched and the row is exact modulo the remaining width
    have hlow : value (a.take j) < 2 ^ (32 * j) := by
      have := value_lt (a.take j)
      rwa [List.length_take, Nat.min_eq_left (by omega)] at this
    calc value (a.take j) + 2 ^ (32 * j) *
          ((value (a.drop j) + (x.getD j 0#32).toNat * value b) % 2 ^ (32 * (x.length - j)))
        = (value (a.take j) + 2 ^ (32 * j) *
            (value (a.drop j) + (x.getD j 0#32).toNat * value b)) % 2 ^ (32 * x.length) := by
          rw [hw, low_add_mod hlow]
      _ = (value a + 2 ^ (32 * j) * ((x.getD j 0#32).toNat * value b)) %
            2 ^ (32 * x.length) := by
          rw [← hsplit]
          congr 1
          ring
      _ = (value (x.take (j + 1)) * value b) % 2 ^ (32 * x.length) := by
          rw [ih, Nat.mod_add_mod, htake]
          congr 1
          ring

/-- **`*=` multiplies modulo the width.**
SOURCE: src/src/arith_uint256.cpp:60-73 -/
theorem mul_value (x b : List Limb) (h : x.length = b.length) :
    value (mul x b) = (value x * value b) % 2 ^ (32 * x.length) := by
  have := mul_rows_value x b h x.length le_rfl
  rwa [List.take_length] at this

/-! ## Shifts -/

/-- **`<<=` multiplies by a power of two modulo the width.**
SOURCE: src/src/arith_uint256.cpp:13-28 -/
theorem shiftLeft_value (n : ℕ) :
    value (shiftLeft a n) = (value a * 2 ^ n) % 2 ^ (32 * a.length) := by
  apply eq_of_testBit_value
  · rw [shiftLeft_length]
    exact Nat.mod_lt _ (by positivity)
  intro m r hm hr
  rw [shiftLeft_length] at hm
  rw [Nat.testBit_mod_two_pow, Nat.mul_comm (value a), Nat.testBit_two_pow_mul, testBit_value,
    Bool.eq_iff_iff]
  have hdm := Nat.div_add_mod n 32
  have hs32 : n % 32 < 32 := Nat.mod_lt _ (by omega)
  unfold shiftLeft shiftLeftStep
  rw [foldl_orAt_getLsbD a.length (fun i => decide (i + n / 32 + 1 < a.length ∧ n % 32 ≠ 0))
    (fun i => decide (i + n / 32 < a.length)) (fun i => i + n / 32 + 1) (fun i => i + n / 32)
    (fun i => a.getD i 0#32 >>> (32 - n % 32)) (fun i => a.getD i 0#32 <<< (n % 32)) _ m r hm]
  simp only [decide_eq_true_eq, BitVec.getLsbD_ushiftRight, BitVec.getLsbD_shiftLeft,
    Bool.and_eq_true, Bool.not_eq_true', decide_eq_false_iff_not]
  constructor
  · -- a set bit was put there by limb `(32 m + r - n) / 32`
    rintro ⟨i, hi, ⟨⟨_, hs⟩, rfl, hbit⟩ | ⟨_, rfl, ⟨_, hrs⟩, hbit⟩⟩
    · have hlt := BitVec.lt_of_getLsbD hbit
      have hd : (32 * (i + n / 32 + 1) + r - n) / 32 = i := by omega
      have hmod : (32 * (i + n / 32 + 1) + r - n) % 32 = 32 - n % 32 + r := by omega
      exact ⟨by omega, by omega, by rw [hd, hmod]; exact hbit⟩
    · have hd : (32 * (i + n / 32) + r - n) / 32 = i := by omega
      have hmod : (32 * (i + n / 32) + r - n) % 32 = r - n % 32 := by omega
      exact ⟨by omega, by omega, by rw [hd, hmod]; exact hbit⟩
  · rintro ⟨_, hle, hbit⟩
    refine ⟨(32 * m + r - n) / 32, by omega, ?_⟩
    by_cases hrs : n % 32 ≤ r
    · have hmod : (32 * m + r - n) % 32 = r - n % 32 := by omega
      rw [hmod] at hbit
      exact Or.inr ⟨by omega, by omega, ⟨by omega, by omega⟩, hbit⟩
    · have hmod : (32 * m + r - n) % 32 = 32 - n % 32 + r := by omega
      rw [hmod] at hbit
      exact Or.inl ⟨⟨by omega, by omega⟩, by omega, hbit⟩

/-- **`>>=` divides by a power of two.**
SOURCE: src/src/arith_uint256.cpp:30-45 -/
theorem shiftRight_value (n : ℕ) :
    value (shiftRight a n) = value a / 2 ^ n := by
  apply eq_of_testBit_value
  · rw [shiftRight_length]
    exact (Nat.div_le_self _ _).trans_lt (value_lt a)
  intro m r hm hr
  rw [shiftRight_length] at hm
  rw [Nat.testBit_div_two_pow, testBit_value, Bool.eq_iff_iff]
  have hdm := Nat.div_add_mod n 32
  have hs32 : n % 32 < 32 := Nat.mod_lt _ (by omega)
  unfold shiftRight shiftRightStep
  rw [foldl_orAt_getLsbD a.length (fun i => decide (n / 32 + 1 ≤ i ∧ n % 32 ≠ 0))
    (fun i => decide (n / 32 ≤ i)) (fun i => i - n / 32 - 1) (fun i => i - n / 32)
    (fun i => a.getD i 0#32 <<< (32 - n % 32)) (fun i => a.getD i 0#32 >>> (n % 32)) _ m r hm]
  simp only [decide_eq_true_eq, BitVec.getLsbD_ushiftRight, BitVec.getLsbD_shiftLeft,
    Bool.and_eq_true, Bool.not_eq_true', decide_eq_false_iff_not]
  constructor
  · rintro ⟨i, hi, ⟨⟨_, hs⟩, rfl, ⟨_, hrs⟩, hbit⟩ | ⟨_, rfl, hbit⟩⟩
    · have hd : (32 * (i - n / 32 - 1) + r + n) / 32 = i := by omega
      have hmod : (32 * (i - n / 32 - 1) + r + n) % 32 = r - (32 - n % 32) := by omega
      rw [hd, hmod]
      exact hbit
    · have hlt := BitVec.lt_of_getLsbD hbit
      have hd : (32 * (i - n / 32) + r + n) / 32 = i := by omega
      have hmod : (32 * (i - n / 32) + r + n) % 32 = n % 32 + r := by omega
      rw [hd, hmod]
      exact hbit
  · intro hbit
    -- limbs past the end read as zero, so the source limb is inside the vector
    have hin : (32 * m + r + n) / 32 < a.length := by
      by_contra hout
      rw [List.getD_eq_default _ _ (by omega)] at hbit
      simp at hbit
    refine ⟨(32 * m + r + n) / 32, hin, ?_⟩
    by_cases hrs : 32 - n % 32 ≤ r
    · have hmod : (32 * m + r + n) % 32 = r - (32 - n % 32) := by omega
      rw [hmod] at hbit
      exact Or.inl ⟨⟨by omega, by omega⟩, by omega, ⟨by omega, by omega⟩, hbit⟩
    · have hmod : (32 * m + r + n) % 32 = n % 32 + r := by omega
      rw [hmod] at hbit
      exact Or.inr ⟨by omega, by omega, hbit⟩

/-! ## Comparison and bit length -/

/-- Comparing limb by limb from the top compares the numbers: a lower limb
matters only when all higher ones agree.
SOURCE: src/src/arith_uint256.cpp:101-111 -/
theorem compareLoop_value (a b : List Limb) (h : a.length = b.length) :
    compareLoop a b = compare (value a.reverse) (value b.reverse) := by
  induction a generalizing b with
  | nil =>
    cases b with
    | nil => rfl
    | cons y ys => simp at h
  | cons x xs ih =>
    cases b with
    | nil => simp at h
    | cons y ys =>
      simp only [List.length_cons, Nat.add_right_cancel_iff] at h
      have hx := value_lt xs.reverse
      have hy := value_lt ys.reverse
      rw [List.length_reverse] at hx hy
      rw [h] at hx
      simp only [List.reverse_cons, value_append, List.length_reverse, value_cons,
        value_nil, Nat.mul_zero, Nat.add_zero, h]
      unfold compareLoop
      have hstep : ∀ p q : ℕ, p < q →
          2 ^ (32 * ys.length) * p + 2 ^ (32 * ys.length) ≤ 2 ^ (32 * ys.length) * q := by
        intro p q hpq
        rw [← Nat.mul_succ]
        exact Nat.mul_le_mul_left _ hpq
      by_cases hlt : x < y
      · have := hstep x.toNat y.toNat hlt
        rw [if_pos hlt]
        exact (Nat.compare_eq_lt.mpr (by omega)).symm
      · rw [if_neg hlt]
        by_cases hgt : y < x
        · have := hstep y.toNat x.toNat hgt
          rw [if_pos hgt]
          exact (Nat.compare_eq_gt.mpr (by omega)).symm
        · have hxy : x.toNat = y.toNat := by
            simp only [BitVec.lt_def] at hlt hgt
            omega
          rw [if_neg hgt, ih ys h, hxy]
          simp only [Nat.compare_eq_ite_lt, Nat.add_lt_add_iff_right]

/-- **`CompareTo` is the numeric order.**
SOURCE: src/src/arith_uint256.cpp:101-111 -/
theorem compareTo_value (a b : List Limb) (h : a.length = b.length) :
    compareTo a b = compare (value a) (value b) := by
  rw [compareTo, compareLoop_value _ _ (by simpa using h), List.reverse_reverse,
    List.reverse_reverse]

/-- The inner loop of `bits()` finds the bit length of a nonzero limb.
SOURCE: src/src/arith_uint256.cpp:152-164 -/
theorem limbBits_eq (x : Limb) (n : ℕ) (hx : x.toNat ≠ 0) (hn : x.toNat < 2 ^ (n + 1)) :
    limbBits x n = Nat.size x.toNat := by
  induction n with
  | zero =>
    have : x.toNat = 1 := by omega
    rw [limbBits, this]
    rfl
  | succ n ih =>
    unfold limbBits
    rw [← BitVec.testBit_toNat]
    split
    case isTrue hb =>
      have hge := Nat.ge_two_pow_of_testBit hb
      apply le_antisymm
      · exact Nat.lt_size.mpr hge
      · exact Nat.size_le.mpr hn
    case isFalse hb =>
      apply ih
      apply Nat.lt_pow_two_of_testBit
      intro i hi
      rcases Nat.lt_or_ge (n + 1) i with hgt | hle
      · exact Nat.testBit_lt_two_pow (hn.trans_le (Nat.pow_le_pow_right (by omega) (by omega)))
      · have : i = n + 1 := by omega
        rw [this]
        simpa using hb

/-- The outer loop of `bits()`.
SOURCE: src/src/arith_uint256.cpp:152-164 -/
theorem bitsLoop_value : bitsLoop a = Nat.size (value a.reverse) := by
  induction a with
  | nil => simp [bitsLoop]
  | cons x xs ih =>
    have hlt := value_lt xs.reverse
    rw [List.length_reverse] at hlt
    simp only [bitsLoop, List.reverse_cons, value_append, List.length_reverse, value_cons,
      value_nil, Nat.mul_zero, Nat.add_zero]
    split
    case isTrue hx =>
      have hx0 : x.toNat ≠ 0 := fun h => hx (BitVec.eq_of_toNat_eq (by simpa using h))
      rw [limbBits_eq x 31 hx0 x.isLt]
      have hlo := Nat.lt_size_self x.toNat
      have hpos : 0 < Nat.size x.toNat := Nat.size_pos.mpr (Nat.pos_of_ne_zero hx0)
      have hhi : 2 ^ (Nat.size x.toNat - 1) ≤ x.toNat :=
        Nat.lt_size.mp (by omega)
      apply le_antisymm
      · have h1 : 2 ^ (32 * xs.length + (Nat.size x.toNat - 1)) ≤
            value xs.reverse + 2 ^ (32 * xs.length) * x.toNat := by
          rw [Nat.pow_add]
          exact (Nat.mul_le_mul_left _ hhi).trans (Nat.le_add_left _ _)
        have := Nat.lt_size.mpr h1
        omega
      · apply Nat.size_le.mpr
        rw [Nat.pow_add]
        calc value xs.reverse + 2 ^ (32 * xs.length) * x.toNat
            < 2 ^ (32 * xs.length) * (x.toNat + 1) := by rw [Nat.mul_succ]; omega
          _ ≤ 2 ^ (32 * xs.length) * 2 ^ Nat.size x.toNat := Nat.mul_le_mul_left _ hlo
    case isFalse hx =>
      have hx0 : x = 0 := not_not.mp hx
      rw [ih, hx0]
      simp

/-- **`bits()` is the bit length.**
SOURCE: src/src/arith_uint256.cpp:152-164 -/
theorem bits_value : bits a = Nat.size (value a) := by
  rw [bits, bitsLoop_value, List.reverse_reverse]

/-! ## Division -/

/-- Setting bit `n` of a vector whose low `n + 1` bits are clear adds `2 ^ n`.
SOURCE: src/src/arith_uint256.cpp:91 -/
theorem setBit_value (q : List Limb) (n : ℕ) (hn : n < 32 * q.length)
    (hq : 2 ^ (n + 1) ∣ value q) :
    value (orAt true (n / 32) (1#32 <<< (n % 32)) q) = value q + 2 ^ n := by
  obtain ⟨c, hc⟩ := hq
  have hv := value_lt q
  have hsum : value q + 2 ^ n = value q ||| 2 ^ n := by
    rw [hc, Nat.two_pow_add_eq_or_of_lt (Nat.pow_lt_pow_right (by omega) (by omega))]
  have hlt : value q ||| 2 ^ n < 2 ^ (32 * q.length) :=
    Nat.or_lt_two_pow hv (Nat.pow_lt_pow_right (by omega) hn)
  rw [hsum]
  apply eq_of_testBit_value
  · simpa using hlt
  intro m r hm hr
  rw [orAt_length] at hm
  rw [orAt_getLsbD _ _ _ _ _ _ hm, Nat.testBit_or, testBit_value, Nat.testBit_two_pow]
  have hd : (32 * m + r) / 32 = m := by omega
  have hmod : (32 * m + r) % 32 = r := by omega
  rw [hd, hmod]
  congr 1
  rw [Bool.eq_iff_iff]
  simp only [Bool.true_and, BitVec.getLsbD_shiftLeft, BitVec.getLsbD_one,
    Bool.and_eq_true, decide_eq_true_eq, Bool.not_eq_true', decide_eq_false_iff_not]
  omega

/-- **The shift-subtract loop.**  With `n` passes left the shifted divisor is
`b * 2 ^ (n - 1)`, the running remainder is below `b * 2 ^ n`, the quotient's low `n` bits
are clear, and the loop adds `num / b` to the quotient.
SOURCE: src/src/arith_uint256.cpp:87-96 -/
theorem divLoop_value (b : ℕ) (n : ℕ) (num dv quot : List Limb) (hb : 0 < b)
    (hlen : num.length = dv.length) (hn : n ≤ 32 * quot.length)
    (hdv : 0 < n → value dv = b * 2 ^ (n - 1)) (hnum : value num < b * 2 ^ n)
    (hq : 2 ^ n ∣ value quot) :
    value (divLoop n num dv quot) = value quot + value num / b := by
  induction n generalizing num dv quot with
  | zero =>
    have : value num / b = 0 := Nat.div_eq_of_lt (by simpa using hnum)
    rw [divLoop, this, Nat.add_zero]
  | succ n ih =>
    have hdv' : value dv = b * 2 ^ n := by simpa using hdv (by omega)
    have hshift : 0 < n → value (shiftRight dv 1) = b * 2 ^ (n - 1) := by
      intro hpos
      rw [shiftRight_value, hdv', show b * 2 ^ n = b * 2 ^ (n - 1) * 2 ^ 1 by
        rw [Nat.mul_assoc, ← Nat.pow_add, Nat.sub_add_cancel hpos]]
      exact Nat.mul_div_cancel _ (by positivity)
    have hqn : 2 ^ n ∣ value quot := (Nat.pow_dvd_pow 2 (Nat.le_succ n)).trans hq
    unfold divLoop
    rw [compareTo_value _ _ hlen]
    split
    case isTrue hge =>
      have hle : value dv ≤ value num := by
        rw [ne_eq, Nat.compare_eq_lt] at hge
        omega
      have hsub : value (sub num dv) = value num - value dv := by
        have hlt := value_lt num
        have hmod := sub_value num dv hlen
        rw [Int.emod_eq_of_lt (by omega) (by omega)] at hmod
        omega
      have hset := setBit_value quot n (by omega) hq
      have hpow : b * 2 ^ (n + 1) = b * 2 ^ n + b * 2 ^ n := by ring
      rw [ih (sub num dv) (shiftRight dv 1) _ (by simp [hlen]) (by simpa using by omega) hshift
        (by rw [hsub, hdv']; omega) (by rw [hset]; exact (Nat.dvd_add_iff_left dvd_rfl).mp hqn),
        hset, hsub, hdv']
      have hdiv : value num / b = (value num - b * 2 ^ n) / b + 2 ^ n := by
        have hsplit : value num = value num - b * 2 ^ n + b * 2 ^ n := by omega
        conv_lhs => rw [hsplit, Nat.add_mul_div_left _ _ hb]
      omega
    case isFalse hlt =>
      have hlt' : value num < value dv := by
        rw [ne_eq, not_not, Nat.compare_eq_lt] at hlt
        exact hlt
      rw [hdv'] at hlt'
      exact ih num (shiftRight dv 1) quot (by simp [hlen]) (by omega) hshift hlt' hqn

/-- **`/=` is floor division, and throws only on zero.**
SOURCE: src/src/arith_uint256.cpp:75-99 -/
theorem div_value (num b : List Limb) (h : num.length = b.length) :
    (value b = 0 → div num b = .error .divisionByZero) ∧
    (value b ≠ 0 → ∃ q, div num b = .ok q ∧ value q = value num / value b) := by
  simp only [div, bits_value]
  constructor
  · intro hz
    simp [hz]
  · intro hb
    have hbpos := Nat.pos_of_ne_zero hb
    rw [if_neg (by rw [Nat.size_eq_zero]; exact hb)]
    split
    case isTrue hgt =>
      refine ⟨_, rfl, ?_⟩
      rw [value_replicate_zero, Nat.div_eq_of_lt]
      by_contra hle
      have := Nat.size_le_size (not_lt.mp hle)
      omega
    case isFalse hle =>
      refine ⟨_, rfl, ?_⟩
      set shift := Nat.size (value num) - Nat.size (value b) with hshift
      have hnlt := Nat.lt_size_self (value num)
      have hblt := Nat.lt_size_self (value b)
      have hwidth : Nat.size (value num) ≤ 32 * num.length := Nat.size_le.mpr (value_lt num)
      have hbsize : 0 < Nat.size (value b) := Nat.size_pos.mpr hbpos
      have hbge : 2 ^ (Nat.size (value b) - 1) ≤ value b := Nat.lt_size.mp (by omega)
      -- the aligned divisor still fits the width
      have hfit : value b * 2 ^ shift < 2 ^ (32 * b.length) := by
        calc value b * 2 ^ shift < 2 ^ Nat.size (value b) * 2 ^ shift :=
              Nat.mul_lt_mul_of_pos_right hblt (by positivity)
          _ = 2 ^ Nat.size (value num) := by rw [← Nat.pow_add]; congr 1; omega
          _ ≤ 2 ^ (32 * b.length) := Nat.pow_le_pow_right (by omega) (by omega)
      have hnum : value num < value b * 2 ^ (shift + 1) := by
        calc value num < 2 ^ Nat.size (value num) := hnlt
          _ = 2 ^ (Nat.size (value b) - 1) * 2 ^ (shift + 1) := by
              rw [← Nat.pow_add]; congr 1; omega
          _ ≤ value b * 2 ^ (shift + 1) := Nat.mul_le_mul_right _ hbge
      rw [divLoop_value (value b) (shift + 1) num (shiftLeft b shift) _ hbpos (by simp [h])
        (by rw [List.length_replicate]; omega)
        (fun _ => by rw [shiftLeft_value, Nat.mod_eq_of_lt hfit, Nat.add_sub_cancel]) hnum
        (by simp)]
      simp

end BaseUint

namespace ArithUint256

/-! ## The operators as arithmetic modulo `2 ^ 256` -/

/-- The number an `arith_uint256` holds. -/
def toNat (a : ArithUint256) : ℕ := value a.pn

variable (a : ArithUint256)

theorem toNat_lt : a.toNat < 2 ^ 256 := by
  have h := value_lt a.pn
  rw [a.length_pn] at h
  exact h

/-- `+` is addition modulo `2 ^ 256`.
SOURCE: src/src/arith_uint256.h:117-127 -/
theorem toNat_add (a b : ArithUint256) : (a + b).toNat = (a.toNat + b.toNat) % 2 ^ 256 := by
  have h := BaseUint.add_value a.pn b.pn (a.length_pn.trans b.length_pn.symm)
  rw [a.length_pn] at h
  exact h

/-- `-` is subtraction modulo `2 ^ 256`.
SOURCE: src/src/arith_uint256.h:129-133 -/
theorem toNat_sub (a b : ArithUint256) :
    ((a - b).toNat : ℤ) = ((a.toNat : ℤ) - b.toNat) % 2 ^ 256 := by
  have h := BaseUint.sub_value a.pn b.pn (a.length_pn.trans b.length_pn.symm)
  rw [a.length_pn] at h
  exact h

/-- `*` is multiplication modulo `2 ^ 256`.
SOURCE: src/src/arith_uint256.cpp:59-73 -/
theorem toNat_mul (a b : ArithUint256) : (a * b).toNat = a.toNat * b.toNat % 2 ^ 256 := by
  have h := BaseUint.mul_value a.pn b.pn (a.length_pn.trans b.length_pn.symm)
  rw [a.length_pn] at h
  exact h

/-- `<<` multiplies by a power of two, modulo `2 ^ 256`.
SOURCE: src/src/arith_uint256.cpp:14-30 -/
theorem toNat_shiftLeft (n : ℕ) : (a.shiftLeft n).toNat = a.toNat * 2 ^ n % 2 ^ 256 := by
  have h := BaseUint.shiftLeft_value a.pn n
  rw [a.length_pn] at h
  exact h

/-- `>>` divides by a power of two.
SOURCE: src/src/arith_uint256.cpp:32-46 -/
theorem toNat_shiftRight (n : ℕ) : (a.shiftRight n).toNat = a.toNat / 2 ^ n :=
  BaseUint.shiftRight_value a.pn n

/-- **`/` by a nonzero number is floor division.**
SOURCE: src/src/arith_uint256.cpp:75-99 -/
theorem div_eq (a b : ArithUint256) (hb : b.toNat ≠ 0) :
    ∃ q, a.div b = .ok q ∧ q.toNat = a.toNat / b.toNat := by
  obtain ⟨q, hq, hv⟩ :=
    (BaseUint.div_value a.pn b.pn (a.length_pn.trans b.length_pn.symm)).2 hb
  have hlen : q.length = WIDTH := by rw [BaseUint.div_length hq, a.length_pn]
  refine ⟨⟨q, hlen⟩, ?_, hv⟩
  unfold div
  split
  case h_1 e he => rw [hq] at he; cases he
  case h_2 q' hq' =>
    rw [hq] at hq'
    cases hq'
    rfl

theorem compare_eq (a b : ArithUint256) : a.compare b = Ord.compare a.toNat b.toNat :=
  BaseUint.compareTo_value a.pn b.pn (a.length_pn.trans b.length_pn.symm)

/-- `<` is the numeric order.
SOURCE: src/src/arith_uint256.h:204 -/
theorem blt_eq (a b : ArithUint256) : a.blt b = decide (a.toNat < b.toNat) := by
  rw [blt, compare_eq, Bool.eq_iff_iff, beq_iff_eq, Nat.compare_eq_lt, decide_eq_true_eq]

theorem isZero_eq : a.isZero = decide (a.toNat = 0) := by
  have key : ∀ l : List Limb, l.all (· == 0#32) = decide (value l = 0) := by
    intro l
    induction l with
    | nil => rfl
    | cons x xs ih =>
      have hx : (x == 0#32) = decide (x.toNat = 0) := by
        rw [Bool.eq_iff_iff, beq_iff_eq, decide_eq_true_eq, ← BitVec.toNat_inj]
        rfl
      rw [List.all_cons, ih, hx, value_cons, ← Bool.decide_and]
      congr 1
      rw [eq_iff_iff]
      omega
  exact key a.pn

@[simp] theorem toNat_ofUInt64 (b : BitVec 64) : (ofUInt64 b).toNat = b.toNat := by
  have h := b.isLt
  simp only [toNat, ofUInt64, value_cons, value_replicate_zero, low, BitVec.toNat_setWidth,
    BitVec.toNat_ushiftRight, Nat.shiftRight_eq_div_pow]
  omega

/-- `UintToArith256` keeps the number.
SOURCE: src/src/arith_uint256.cpp:225-231 -/
@[simp] theorem toNat_ofUint256 (a : Uint256) : (ofUint256 a).toNat = a.toNat := by
  apply eq_of_testBit_value
  · rw [(ofUint256 a).length_pn]
    exact a.isLt
  intro m r hm hr
  rw [(ofUint256 a).length_pn] at hm
  rw [List.getD_eq_getElem _ _ (by rw [(ofUint256 a).length_pn]; exact hm)]
  simp only [ofUint256, List.getElem_map, List.getElem_range, BitVec.getLsbD_setWidth,
    BitVec.getLsbD_ushiftRight, BitVec.testBit_toNat]
  simp [hr]

/-! ## The compact encoding -/

open Interface (expandCompact digits256 leading24 leading24_lt compactNat pow_256)

/-- `GetLow64` is the number modulo `2 ^ 64`.
SOURCE: src/src/arith_uint256.h:239-243 -/
theorem getLow64_toNat : (BaseUint.getLow64 a.pn).toNat = a.toNat % 2 ^ 64 := by
  apply Nat.eq_of_testBit_eq
  intro i
  rw [Nat.testBit_mod_two_pow, toNat, testBit_value, BitVec.testBit_toNat]
  simp only [BaseUint.getLow64, BitVec.getLsbD_or, BitVec.getLsbD_setWidth,
    BitVec.getLsbD_shiftLeft]
  rcases Nat.lt_or_ge i 32 with h | h
  · have hi : i < 64 := by omega
    simp [h, hi, Nat.div_eq_of_lt h, Nat.mod_eq_of_lt h]
  · rcases Nat.lt_or_ge i 64 with h' | h'
    · have hd : i / 32 = 1 := by omega
      have hm : i % 32 = i - 32 := by omega
      have hlt : i - 32 < 64 := by omega
      simp [h', hd, hm, hlt, Nat.not_lt.mpr h, BitVec.getLsbD_of_ge _ i h]
    · simp [Nat.not_lt.mpr h']

theorem compact_fields (c : BitVec 32) :
    (c >>> 24).toNat = c.toNat / 2 ^ 24 ∧ (c &&& 0x007fffff#32).toNat = c.toNat % 2 ^ 23 := by
  refine ⟨by rw [BitVec.toNat_ushiftRight, Nat.shiftRight_eq_div_pow], ?_⟩
  rw [BitVec.toNat_and, ← Nat.and_two_pow_sub_one_eq_mod]
  rfl

/-- **`SetCompact` decodes the unbounded number modulo `2 ^ 256`.**
SOURCE: src/src/arith_uint256.cpp:175-194 -/
theorem setCompact_toNat (c : BitVec 32) :
    (setCompact c).1.toNat = expandCompact c.toNat % 2 ^ 256 := by
  obtain ⟨hsize, hword⟩ := compact_fields c
  simp only [setCompact, expandCompact, hsize]
  by_cases h : c.toNat / 2 ^ 24 ≤ 3
  · simp only [if_pos h, toNat_ofUInt64, BitVec.toNat_setWidth, BitVec.toNat_ushiftRight, hword,
      Nat.shiftRight_eq_div_pow, pow_256]
    have hle := Nat.div_le_self (c.toNat % 2 ^ 23) (2 ^ (8 * (3 - c.toNat / 2 ^ 24)))
    have hlt := Nat.mod_lt c.toNat (show 2 ^ 23 > 0 by omega)
    generalize c.toNat % 2 ^ 23 / 2 ^ (8 * (3 - c.toNat / 2 ^ 24)) = w at hle ⊢
    omega
  · simp only [if_neg h, toNat_shiftLeft, toNat_ofUInt64, BitVec.toNat_setWidth, hword, pow_256]
    have hlt := Nat.mod_lt c.toNat (show 2 ^ 23 > 0 by omega)
    rw [Nat.mod_eq_of_lt (show c.toNat % 2 ^ 23 < 2 ^ 64 by omega)]

/-- **`SetCompact` raises its overflow flag exactly when the unbounded number
does not fit 256 bits.**
SOURCE: src/src/arith_uint256.cpp:190-192 -/
theorem setCompact_overflow (c : BitVec 32) :
    (setCompact c).2.2 = true ↔ 2 ^ 256 ≤ expandCompact c.toNat := by
  obtain ⟨hsize, hword⟩ := compact_fields c
  have hlt := Nat.mod_lt c.toNat (show 2 ^ 23 > 0 by omega)
  simp only [setCompact, expandCompact, hsize]
  by_cases h : c.toNat / 2 ^ 24 ≤ 3
  · have hle := Nat.div_le_self (c.toNat % 2 ^ 23) (256 ^ (3 - c.toNat / 2 ^ 24))
    have h34 : ¬ 34 < c.toNat / 2 ^ 24 := by omega
    have h33 : ¬ 33 < c.toNat / 2 ^ 24 := by omega
    have h32 : ¬ 32 < c.toNat / 2 ^ 24 := by omega
    simp only [if_pos h, gt_iff_lt, h34, h33, h32, decide_false, Bool.and_false, Bool.or_false,
      Bool.false_eq_true, false_iff, not_le]
    exact (hle.trans_lt hlt).trans (by norm_num)
  · simp only [if_neg h, Bool.and_eq_true, bne_iff_ne, ne_eq, Bool.or_eq_true, decide_eq_true_eq,
      gt_iff_lt, BitVec.lt_def, ← BitVec.toNat_inj, hword]
    simp only [BitVec.toNat_ofNat]
    -- the three exponents at which the answer depends on the mantissa, and the two tails
    rcases Nat.lt_or_ge 34 (c.toNat / 2 ^ 24) with h34 | h34
    · have hp : 256 ^ 32 ≤ 256 ^ (c.toNat / 2 ^ 24 - 3) :=
        Nat.pow_le_pow_right (by omega) (by omega)
      constructor
      · rintro ⟨h0, -⟩
        calc 2 ^ 256 = 1 * 256 ^ 32 := by norm_num
          _ ≤ _ := Nat.mul_le_mul (by omega) hp
      · intro hge
        refine ⟨?_, Or.inl (Or.inl h34)⟩
        intro h0
        rw [h0, Nat.zero_mod, Nat.zero_mul] at hge
        exact absurd hge (by norm_num)
    · rcases (by omega : c.toNat / 2 ^ 24 = 34 ∨ c.toNat / 2 ^ 24 = 33 ∨
        c.toNat / 2 ^ 24 ≤ 32) with h' | h' | h'
      · rw [h']
        norm_num
        omega
      · rw [h']
        norm_num
        omega
      · have hp : 256 ^ (c.toNat / 2 ^ 24 - 3) ≤ 256 ^ 29 :=
          Nat.pow_le_pow_right (by omega) (by omega)
        have hsmall : c.toNat % 2 ^ 23 * 256 ^ (c.toNat / 2 ^ 24 - 3) < 2 ^ 256 :=
          calc c.toNat % 2 ^ 23 * 256 ^ (c.toNat / 2 ^ 24 - 3)
              ≤ 2 ^ 23 * 256 ^ 29 := Nat.mul_le_mul hlt.le hp
            _ < 2 ^ 256 := by norm_num
        constructor
        · rintro ⟨-, (h₁ | h₁) | h₁⟩ <;> omega
        · intro hge
          omega

theorem or_exponent (m : BitVec 32) (k : ℕ) (hm : m.toNat < 2 ^ 24) (hk : k < 256) :
    (m ||| (BitVec.ofNat 32 k <<< 24)).toNat = m.toNat + k * 2 ^ 24 := by
  rw [BitVec.toNat_or, BitVec.toNat_shiftLeft, BitVec.toNat_ofNat, Nat.shiftLeft_eq,
    Nat.mod_eq_of_lt (show k < 2 ^ 32 by omega), Nat.mod_eq_of_lt (by omega), Nat.or_comm,
    Nat.mul_comm, ← Nat.two_pow_add_eq_or_of_lt hm, Nat.add_comm]

/-- The mantissa of `GetCompact` before the sign-bit correction.
SOURCE: src/src/arith_uint256.cpp:198-205 -/
theorem getCompact_mantissa : (if digits256 a.toNat ≤ 3 then
        (BaseUint.getLow64 a.pn <<< (8 * (3 - digits256 a.toNat))).setWidth 32
      else (BaseUint.getLow64 (a.shiftRight (8 * (digits256 a.toNat - 3))).pn).setWidth 32 :
      BitVec 32).toNat = leading24 a.toNat := by
  have hlead := leading24_lt a.toNat
  unfold leading24 at hlead ⊢
  by_cases h : digits256 a.toNat ≤ 3
  · simp only [if_pos h, pow_256] at hlead ⊢
    have hsmall : a.toNat < 2 ^ 64 := by
      have hpos : 1 ≤ 2 ^ (8 * (3 - digits256 a.toNat)) := Nat.one_le_two_pow
      have := Nat.mul_le_mul_left a.toNat hpos
      omega
    rw [BitVec.toNat_setWidth, BitVec.toNat_shiftLeft, getLow64_toNat, Nat.shiftLeft_eq,
      Nat.mod_eq_of_lt hsmall, Nat.mod_eq_of_lt (by omega), Nat.mod_eq_of_lt (by omega)]
  · simp only [if_neg h, pow_256] at hlead ⊢
    rw [BitVec.toNat_setWidth, getLow64_toNat, toNat_shiftRight]
    generalize a.toNat / 2 ^ (8 * (digits256 a.toNat - 3)) = w at hlead ⊢
    omega

/-- **`GetCompact` is the compact encoding of the number.**
SOURCE: src/src/arith_uint256.cpp:196-216 -/
theorem getCompact_eq : a.getCompact.toNat = compactNat a.toNat := by
  have hbits : (BaseUint.bits a.pn + 7) / 8 = digits256 a.toNat := by
    rw [BaseUint.bits_value]
    rfl
  have hdig : digits256 a.toNat ≤ 32 := by
    have : Nat.size a.toNat ≤ 256 := Nat.size_le.mpr a.toNat_lt
    unfold digits256
    omega
  have hman := getCompact_mantissa a
  have hlead := leading24_lt a.toNat
  simp only [getCompact, hbits, compactNat]
  generalize hm : (if digits256 a.toNat ≤ 3 then
        (BaseUint.getLow64 a.pn <<< (8 * (3 - digits256 a.toNat))).setWidth 32
      else (BaseUint.getLow64 (a.shiftRight (8 * (digits256 a.toNat - 3))).pn).setWidth 32 :
      BitVec 32) = m at hman ⊢
  have hsign : (m &&& 0x00800000#32 != 0#32) = decide (2 ^ 23 ≤ m.toNat) := by
    have hpow : (0x00800000#32).toNat = 2 ^ 23 := rfl
    rw [Bool.eq_iff_iff, bne_iff_ne, decide_eq_true_eq, ne_eq, ← BitVec.toNat_inj,
      BitVec.toNat_and, hpow, Nat.and_two_pow]
    have hbit : m.toNat.testBit 23 = decide (2 ^ 23 ≤ m.toNat) := by
      rw [Nat.testBit_eq_decide_div_mod_eq]
      congr 1
      rw [eq_iff_iff]
      omega
    rw [hbit]
    simp
  rw [hsign, ← hman]
  rw [← hman] at hlead
  by_cases hge : 2 ^ 23 ≤ m.toNat
  · have hshift : (m >>> 8).toNat = m.toNat / 256 := by
      rw [BitVec.toNat_ushiftRight, Nat.shiftRight_eq_div_pow]
    simp only [hge, decide_true, if_true]
    rw [if_neg (by omega), or_exponent _ _ (by omega) (by omega), hshift]
  · simp only [hge, decide_false, Bool.false_eq_true, if_false]
    rw [if_pos (by omega), or_exponent _ _ hlead (by omega)]

end ArithUint256

end BitMinti.Model
