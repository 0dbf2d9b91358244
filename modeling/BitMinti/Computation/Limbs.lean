import Mathlib.Data.Nat.Bitwise
import Mathlib.Data.Nat.Size
import Mathlib.Data.List.GetD
import Mathlib.Tactic.Ring
import Mathlib.Tactic.Linarith

/-!
# Little-endian vectors of 32-bit limbs

A number of fixed width is stored as a list of `BitVec 32` limbs, least
significant first; `value` reads it back.  Two ways of reasoning about a limb
loop are provided, and every loop is read by exactly one of them:

* **by carries** (`addLoop_value`, `mulRow_value`): the limbs written so far plus
  the weighted carry are conserved, so after the last limb the value is the exact
  result modulo `2 ^ (32 * length)`;
* **by bits** (`testBit_value`, `eq_of_testBit_value`): bit `n` of the value is bit
  `n % 32` of limb `n / 32`, which is how shifts and single-bit updates are read.

The uint64 intermediate of a carry step never wraps: `addStep_toNat` and
`mulStep_toNat` say so once, and the loops use nothing else about it.
-/

set_option autoImplicit false

namespace BitMinti.Computation.Limbs

/-- One machine word of the representation. -/
abbrev Limb : Type := BitVec 32

/-- The number a limb vector spells, least significant limb first. -/
def value : List Limb → ℕ
  | [] => 0
  | x :: xs => x.toNat + 2 ^ 32 * value xs

@[simp] theorem value_nil : value [] = 0 := rfl

@[simp] theorem value_cons (x : Limb) (xs : List Limb) :
    value (x :: xs) = x.toNat + 2 ^ 32 * value xs := rfl

variable (xs : List Limb)

theorem value_lt : value xs < 2 ^ (32 * xs.length) := by
  induction xs with
  | nil => simp
  | cons x xs ih =>
    have hx := x.isLt
    rw [List.length_cons, Nat.mul_succ, Nat.pow_add, value_cons]
    omega

theorem value_append (xs ys : List Limb) :
    value (xs ++ ys) = value xs + 2 ^ (32 * xs.length) * value ys := by
  induction xs with
  | nil => simp
  | cons x xs ih =>
    rw [List.cons_append, value_cons, ih, value_cons, List.length_cons, Nat.mul_succ,
      Nat.pow_add]
    ring

theorem value_take_add_drop (j : ℕ) (hj : j ≤ xs.length) :
    value (xs.take j) + 2 ^ (32 * j) * value (xs.drop j) = value xs := by
  have h := value_append (xs.take j) (xs.drop j)
  rw [List.take_append_drop, List.length_take, Nat.min_eq_left hj] at h
  exact h.symm

@[simp] theorem value_replicate_zero (n : ℕ) : value (List.replicate n 0#32) = 0 := by
  induction n with
  | zero => rfl
  | succ n ih => simp [List.replicate_succ, ih]

/-! ## Reading a vector bit by bit -/

/-- Bit `n` of the value is bit `n % 32` of limb `n / 32`; limbs past the end
read as zero. -/
theorem testBit_value (n : ℕ) :
    (value xs).testBit n = (xs.getD (n / 32) 0#32).getLsbD (n % 32) := by
  induction xs generalizing n with
  | nil => simp
  | cons x xs ih =>
    rw [value_cons, Nat.add_comm, Nat.testBit_two_pow_mul_add _ x.isLt]
    by_cases hn : n < 32
    · rw [if_pos hn, Nat.div_eq_of_lt hn, Nat.mod_eq_of_lt hn]
      rfl
    · have hd : n / 32 = (n - 32) / 32 + 1 := by omega
      have hm : n % 32 = (n - 32) % 32 := by omega
      rw [if_neg hn, ih, hd, hm, List.getD_cons_succ]

theorem eq_of_testBit_value (v : ℕ) (hv : v < 2 ^ (32 * xs.length))
    (h : ∀ m r, m < xs.length → r < 32 →
      (xs.getD m 0#32).getLsbD r = v.testBit (32 * m + r)) :
    value xs = v := by
  apply Nat.eq_of_testBit_eq
  intro n
  by_cases hn : n < 32 * xs.length
  · have := h (n / 32) (n % 32) (by omega) (by omega)
    rw [testBit_value, this, Nat.div_add_mod]
  · have hle : 2 ^ (32 * xs.length) ≤ 2 ^ n := Nat.pow_le_pow_right (by omega) (by omega)
    rw [Nat.testBit_lt_two_pow ((value_lt xs).trans_le hle),
      Nat.testBit_lt_two_pow (hv.trans_le hle)]

/-! ## Carry steps -/

/-- The low word a carry step writes: `n & 0xffffffff`. -/
def low (n : BitVec 64) : Limb := n.setWidth 32

theorem low_add_carry (n : BitVec 64) :
    (low n).toNat + 2 ^ 32 * (n >>> 32).toNat = n.toNat := by
  simp only [low, BitVec.toNat_setWidth, BitVec.toNat_ushiftRight, Nat.shiftRight_eq_div_pow]
  exact Nat.mod_add_div _ _

theorem carry_lt (n : BitVec 64) : (n >>> 32).toNat < 2 ^ 32 := by
  have hn := n.isLt
  rw [BitVec.toNat_ushiftRight, Nat.shiftRight_eq_div_pow]
  omega

theorem addStep_toNat (c : BitVec 64) (x y : Limb) (hc : c.toNat < 2 ^ 32) :
    (c + x.setWidth 64 + y.setWidth 64).toNat = c.toNat + x.toNat + y.toNat := by
  have hx := x.isLt
  have hy := y.isLt
  simp only [BitVec.toNat_add, BitVec.toNat_setWidth]
  omega

/-- `carry + old + p * b` does not wrap in 64 bits: the largest value is exactly
`2 ^ 64 - 1`. -/
theorem mulStep_toNat (c : BitVec 64) (old p b : Limb) (hc : c.toNat < 2 ^ 32) :
    (c + old.setWidth 64 + p.setWidth 64 * b.setWidth 64).toNat =
      c.toNat + old.toNat + p.toNat * b.toNat := by
  have ho := old.isLt
  have hp := p.isLt
  have hb := b.isLt
  have hmul : p.toNat * b.toNat ≤ (2 ^ 32 - 1) * (2 ^ 32 - 1) :=
    Nat.mul_le_mul (by omega) (by omega)
  simp only [BitVec.toNat_add, BitVec.toNat_mul, BitVec.toNat_setWidth]
  rw [Nat.mod_eq_of_lt (show old.toNat < 2 ^ 64 by omega),
    Nat.mod_eq_of_lt (show p.toNat < 2 ^ 64 by omega),
    Nat.mod_eq_of_lt (show b.toNat < 2 ^ 64 by omega),
    Nat.mod_eq_of_lt (show p.toNat * b.toNat < 2 ^ 64 by omega),
    Nat.mod_eq_of_lt (show c.toNat + old.toNat < 2 ^ 64 by omega)]
  exact Nat.mod_eq_of_lt (by omega)

/-- What is added above the low bits is reduced with them. -/
theorem low_add_mod {x a : ℕ} (hx : x < 2 ^ a) (v b : ℕ) :
    x + 2 ^ a * (v % 2 ^ b) = (x + 2 ^ a * v) % 2 ^ (a + b) := by
  rw [Nat.pow_add, Nat.mod_mul, Nat.add_mul_mod_self_left, Nat.mod_eq_of_lt hx,
    Nat.add_mul_div_left _ _ (Nat.two_pow_pos a), Nat.div_eq_of_lt hx, Nat.zero_add]

/-- **A carry step**: what is written and what is carried on add up. -/
theorem carry_add_mod (n : BitVec 64) (v k : ℕ) :
    (low n).toNat + 2 ^ 32 * ((v + (n >>> 32).toNat) % 2 ^ (32 * k)) =
      (n.toNat + 2 ^ 32 * v) % 2 ^ (32 * (k + 1)) := by
  have hsplit := low_add_carry n
  rw [low_add_mod (low n).isLt, Nat.mul_succ, Nat.add_comm 32]
  congr 1
  omega

/-! ## Addition and one row of a multiplication -/

/-- Ripple addition: each limb is overwritten with the low word of `carry + x + y`. -/
def addLoop : List Limb → List Limb → BitVec 64 → List Limb
  | x :: xs, y :: ys, carry =>
    let n := carry + x.setWidth 64 + y.setWidth 64
    low n :: addLoop xs ys (n >>> 32)
  | _, _, _ => []

@[simp] theorem addLoop_length (xs ys : List Limb) (c : BitVec 64)
    (h : xs.length = ys.length) : (addLoop xs ys c).length = xs.length := by
  induction xs generalizing ys c with
  | nil => cases ys <;> rfl
  | cons x xs ih =>
    cases ys with
    | nil => simp at h
    | cons y ys => simp [addLoop, ih ys _ (by simpa using h)]

/-- **Ripple addition is addition modulo the width.** -/
theorem addLoop_value (xs ys : List Limb) (c : BitVec 64) (h : xs.length = ys.length)
    (hc : c.toNat < 2 ^ 32) :
    value (addLoop xs ys c) = (value xs + value ys + c.toNat) % 2 ^ (32 * xs.length) := by
  induction xs generalizing ys c with
  | nil =>
    cases ys with
    | nil => simp [addLoop, Nat.mod_one]
    | cons y ys => simp at h
  | cons x xs ih =>
    cases ys with
    | nil => simp at h
    | cons y ys =>
      simp only [List.length_cons, Nat.add_right_cancel_iff] at h
      simp only [addLoop, value_cons]
      rw [ih ys _ h (carry_lt _), carry_add_mod, addStep_toNat c x y hc, List.length_cons]
      congr 1
      ring

/-- One row of the schoolbook product: adds `p * bs` to the limbs `as`, dropping what
leaves the width. -/
def mulRow (p : Limb) : List Limb → List Limb → BitVec 64 → List Limb
  | a :: as, b :: bs, carry =>
    let n := carry + a.setWidth 64 + p.setWidth 64 * b.setWidth 64
    low n :: mulRow p as bs (n >>> 32)
  | as, _, _ => as

@[simp] theorem mulRow_length (p : Limb) (as bs : List Limb) (c : BitVec 64) :
    (mulRow p as bs c).length = as.length := by
  induction as generalizing bs c with
  | nil => cases bs <;> rfl
  | cons a as ih =>
    cases bs with
    | nil => rfl
    | cons b bs => simp [mulRow, ih]

/-- **A row adds `p * bs` modulo the width of the limbs it touches.** -/
theorem mulRow_value (p : Limb) (as bs : List Limb) (c : BitVec 64)
    (h : as.length ≤ bs.length) (hc : c.toNat < 2 ^ 32) :
    value (mulRow p as bs c) =
      (value as + p.toNat * value bs + c.toNat) % 2 ^ (32 * as.length) := by
  induction as generalizing bs c with
  | nil => cases bs <;> simp [mulRow, Nat.mod_one]
  | cons a as ih =>
    cases bs with
    | nil => simp at h
    | cons b bs =>
      simp only [List.length_cons, Nat.add_le_add_iff_right] at h
      simp only [mulRow, value_cons]
      rw [ih bs _ h (carry_lt _), carry_add_mod, mulStep_toNat c a p b hc, List.length_cons]
      congr 1
      ring

/-! ## Scattering limbs with `|=` -/

/-- `pn[t] |= v`, guarded by `c`. -/
def orAt (c : Bool) (t : ℕ) (v : Limb) (pn : List Limb) : List Limb :=
  if c then pn.modify t (· ||| v) else pn

@[simp] theorem orAt_length (c : Bool) (t : ℕ) (v : Limb) (pn : List Limb) :
    (orAt c t v pn).length = pn.length := by
  unfold orAt
  split <;> simp

theorem orAt_getLsbD (c : Bool) (t : ℕ) (v : Limb) (pn : List Limb) (m r : ℕ)
    (hm : m < pn.length) :
    ((orAt c t v pn).getD m 0#32).getLsbD r =
      ((pn.getD m 0#32).getLsbD r || (c && decide (t = m) && v.getLsbD r)) := by
  unfold orAt
  split
  case isTrue hc =>
    simp only [List.getD_eq_getElem?_getD, List.getElem?_modify, List.getElem?_eq_getElem hm]
    by_cases ht : t = m <;> simp [hc, ht]
  case isFalse hc => simp [hc]

/-- **A loop of two guarded `|=` per pass, started from zero:** bit `r` of limb `m`
is set exactly when some pass put it there. -/
theorem foldl_orAt_getLsbD (W : ℕ) (c d : ℕ → Bool) (t u : ℕ → ℕ) (v w : ℕ → Limb)
    (n m r : ℕ) (hm : m < W) :
    (((List.range n).foldl (fun pn i => orAt (d i) (u i) (w i) (orAt (c i) (t i) (v i) pn))
      (List.replicate W 0#32)).getD m 0#32).getLsbD r = true ↔
      ∃ i < n, (c i = true ∧ t i = m ∧ (v i).getLsbD r = true) ∨
        (d i = true ∧ u i = m ∧ (w i).getLsbD r = true) := by
  have hlen : ∀ n, ((List.range n).foldl
      (fun pn i => orAt (d i) (u i) (w i) (orAt (c i) (t i) (v i) pn))
      (List.replicate W 0#32)).length = W := by
    intro n
    induction n with
    | zero => simp
    | succ n ih => simp [List.range_succ, ih]
  induction n with
  | zero => simp [hm]
  | succ n ih =>
    rw [List.range_succ, List.foldl_append, List.foldl_cons, List.foldl_nil,
      orAt_getLsbD _ _ _ _ _ _ (by simp [hlen, hm]), orAt_getLsbD _ _ _ _ _ _ (by simp [hlen, hm])]
    simp only [Bool.or_eq_true, ih, Bool.and_eq_true, decide_eq_true_eq, Nat.lt_succ_iff_lt_or_eq]
    constructor
    · rintro ((⟨i, hi, h⟩ | ⟨⟨h1, h2⟩, h3⟩) | ⟨⟨h1, h2⟩, h3⟩)
      · exact ⟨i, Or.inl hi, h⟩
      · exact ⟨n, Or.inr rfl, Or.inl ⟨h1, h2, h3⟩⟩
      · exact ⟨n, Or.inr rfl, Or.inr ⟨h1, h2, h3⟩⟩
    · rintro ⟨i, hi | rfl, h⟩
      · exact Or.inl (Or.inl ⟨i, hi, h⟩)
      · rcases h with ⟨h1, h2, h3⟩ | ⟨h1, h2, h3⟩
        · exact Or.inl (Or.inr ⟨⟨h1, h2⟩, h3⟩)
        · exact Or.inr ⟨⟨h1, h2⟩, h3⟩

end BitMinti.Computation.Limbs
