import BitMinti.Model.FeeFrac
import Mathlib.Algebra.Order.Ring.Int

/-!
# Products and quotients of fees and sizes

`Mul` and `Div` rely on `__int128` where the compiler has it.  The fallback keeps a product as an
`int64_t` and a `uint32_t`, the upper and the lower part of 96 bits.

A value that a signed type does not hold is none, whether it comes from an operation, a shift or a
conversion; unsigned operations wrap around.

SOURCE: src/src/util/feefrac.h:41-101,180-222
-/

set_option autoImplicit false

namespace BitMinti.Model.FeeFrac

/-- The range of a signed type with `k` bits besides the sign. -/
def FitsInt (k : ℕ) (x : ℤ) : Prop := -2 ^ k ≤ x ∧ x < 2 ^ k

instance (k : ℕ) (x : ℤ) : Decidable (FitsInt k x) := inferInstanceAs (Decidable (_ ∧ _))

/-- A value of such a type. -/
def signed (k : ℕ) (x : ℤ) : Option ℤ := if FitsInt k x then some x else none

def toUint32 (x : ℤ) : ℤ := x % 2 ^ 32

def toUint64 (x : ℤ) : ℤ := x % 2 ^ 64

/-- `MulFallback` -/
def mulFallback (a b : ℤ) : Option (ℤ × ℤ) := do
  let low ← signed 63 (toUint32 a * b)
  let high ← signed 63 ((a >>> (32 : ℕ)) * b)
  let first ← signed 63 (high + low >>> (32 : ℕ))
  return (first, toUint32 low)

/-- `(mod > 0) - (mod && round_down)` -/
def correction (mod : ℤ) (round_down : Bool) : ℤ :=
  (if 0 < mod then 1 else 0) - if mod ≠ 0 ∧ round_down = true then 1 else 0

/-- `DivFallback` -/
def divFallback (n : ℤ × ℤ) (d : ℤ) (round_down : Bool) : Option ℤ := do
  let quot_high ← signed 63 (n.1.tdiv d)
  let mod_high ← signed 63 (n.1.tmod d * 2 ^ 32)
  let n_low ← signed 63 (mod_high + n.2)
  let quot_low ← signed 63 (n_low.tdiv d)
  let mod_low ← signed 31 (n_low.tmod d)
  let quot_low ← signed 63 (quot_low + correction mod_low round_down)
  let quot_high ← signed 63 (quot_high * 2 ^ 32)
  signed 63 (quot_high + quot_low)

def mul (a b : ℤ) : Option ℤ := signed 127 (a * b)

def div (n d : ℤ) (round_down : Bool) : Option ℤ := do
  let quot ← signed 63 (n.tdiv d)
  let mod ← signed 31 (n.tmod d)
  signed 63 (quot + correction mod round_down)

/-- `std::pair`'s comparison. -/
def comparePairs (m n : ℤ × ℤ) : Ordering := (compare m.1 n.1).then (compare m.2 n.2)

/-- `operator<=>`, over the products of either version. -/
def threeWay {μ : Type} [DecidableEq μ] (mul : ℤ → ℤ → Option μ) (cmp : μ → μ → Ordering)
    (a b : FeeFrac) : Option Ordering := do
  let cross_a ← mul a.fee b.size
  let cross_b ← mul b.fee a.size
  return if cross_a = cross_b then compare b.size a.size else cmp cross_a cross_b

/-- `operator<=>`; `int128` says whether the compiler has the type. -/
def spaceship (int128 : Bool) (a b : FeeFrac) : Option Ordering :=
  if int128 then threeWay mul compare a b else threeWay mulFallback comparePairs a b

/-- `EvaluateFee`: `EvaluateFeeDown` if `round_down`, `EvaluateFeeUp` if not. -/
def evaluateFee (int128 round_down : Bool) (f : FeeFrac) (at_size : ℤ) : Option ℤ :=
  if 0 ≤ f.fee ∧ f.fee < 0x200000000 then
    let product := toUint64 (toUint64 f.fee * toUint64 at_size)
    let dividend :=
      if round_down then product else toUint64 (toUint64 (product + toUint64 f.size) - 1)
    signed 63 (dividend / toUint32 f.size)
  else if int128 then do
    div (← mul f.fee at_size) f.size round_down
  else do
    divFallback (← mulFallback f.fee at_size) f.size round_down

end BitMinti.Model.FeeFrac
