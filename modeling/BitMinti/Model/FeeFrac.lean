import Mathlib.Data.Int.Notation

/-!
# Feerates

A `FeeFrac` is a fee and a size.  Feerates are compared by cross products, without a division.

Fees and sizes are integers here; the source's `int64_t` and `int32_t` hold the sums that are
formed.

SOURCE: src/src/util/feefrac.h:20-210
-/

set_option autoImplicit false

namespace BitMinti.Model

/-- `FeeFrac`, and its tagged forms `FeePerWeight` and `FeePerVSize`. -/
structure FeeFrac where
  fee : ℤ
  size : ℤ
  deriving DecidableEq, Repr

namespace FeeFrac

/-- `operator<<`: a strictly lower feerate. -/
def lower (a b : FeeFrac) : Bool := decide (a.fee * b.size < b.fee * a.size)

/-- `operator>>`: a strictly higher feerate. -/
def higher (a b : FeeFrac) : Bool := decide (a.fee * b.size > b.fee * a.size)

/-- The `IsEmpty` one of the default constructor. -/
def empty : FeeFrac := ⟨0, 0⟩

/-- `operator+`, which `operator+=` agrees with. -/
def add (a b : FeeFrac) : FeeFrac := ⟨a.fee + b.fee, a.size + b.size⟩

end FeeFrac

end BitMinti.Model
