import BitMinti.Interface.ClusterLinearize
import BitMinti.Model.CompareChunks

/-!
# How feerate diagrams compare

Two diagrams are compared at every size: the better one is at least as high everywhere and higher
somewhere; they are equivalent if they are the same, and unordered if each is higher somewhere.

SOURCE: src/src/util/feefrac.h:226-240
-/

set_option autoImplicit false

namespace BitMinti.Interface

open Model

/-- What a comparison of two functions at all sizes comes to. -/
def PointwiseOutcome (f g : ℚ → ℚ) : PartialOrdering → Prop
  | .equivalent => ∀ size, 0 ≤ size → f size = g size
  | .greater => (∀ size, 0 ≤ size → g size ≤ f size) ∧ ∃ size, 0 ≤ size ∧ g size < f size
  | .less => (∀ size, 0 ≤ size → f size ≤ g size) ∧ ∃ size, 0 ≤ size ∧ f size < g size
  | .unordered => (∃ size, 0 ≤ size ∧ f size < g size) ∧ ∃ size, 0 ≤ size ∧ g size < f size

/-- What a comparison of two diagrams at all sizes comes to. -/
def DiagramOutcome (chunks0 chunks1 : List FeeFrac) : PartialOrdering → Prop :=
  PointwiseOutcome (feerateDiagram chunks0) (feerateDiagram chunks1)

/-- The fee is an `int64_t` and the size an `int32_t`. -/
structure Fits (f : FeeFrac) : Prop where
  fee_lower : -2 ^ 63 ≤ f.fee
  fee_upper : f.fee < 2 ^ 63
  size_lower : -2 ^ 31 ≤ f.size
  size_upper : f.size < 2 ^ 31

/-- The sum of the chunks. -/
def sumOf (chunks : List FeeFrac) : FeeFrac := chunks.foldr FeeFrac.add .empty

/-- Chunks of positive sizes whose sums do not overflow. -/
structure DiagramChunks (chunks : List FeeFrac) : Prop where
  sizes_pos : ∀ c ∈ chunks, 0 < c.size
  fits : ∀ c ∈ chunks, Fits c
  sums_fit : ∀ n, Fits (sumOf (chunks.take n))

/-- The fees of the two diagrams differ by less than `int64_t` holds, whichever of
their vertices are taken. -/
def FeesApart (chunks0 chunks1 : List FeeFrac) : Prop :=
  ∀ m n, |(sumOf (chunks0.take m)).fee - (sumOf (chunks1.take n)).fee| < 2 ^ 63

/-- Chunks of positive sizes and no negative fees, whose sum does not overflow. -/
structure PayingChunks (chunks : List FeeFrac) : Prop where
  sizes_pos : ∀ c ∈ chunks, 0 < c.size
  fees_nonneg : ∀ c ∈ chunks, 0 ≤ c.fee
  fee_fits : (sumOf chunks).fee < 2 ^ 63
  size_fits : (sumOf chunks).size < 2 ^ 31

/-- In decreasing order of feerates, those of the same feerate in any order. -/
def SortedByFeerate (chunks : List FeeFrac) : Prop := chunks.Pairwise fun a b => ¬a.lower b

/-- The answer to the comparison the other way round. -/
def reversed : PartialOrdering → PartialOrdering
  | .less => .greater
  | .greater => .less
  | r => r

/-- The answers for "not better". -/
def notBetter (r : PartialOrdering) : Prop := r = .less ∨ r = .equivalent

end BitMinti.Interface
