import BitMinti.Model.FeeFrac
import Mathlib.Data.Int.Bitwise

/-!
# Comparing feerate diagrams

`CompareChunks` walks through two lists of chunks and compares the diagrams they imply at every
vertex of either.  The sums and differences it forms are `int64_t` fees and `int32_t` sizes; one
that does not fit wraps around.

SOURCE: src/src/util/feefrac.cpp:10-73, src/src/util/feefrac.h:135-163,226-240
-/

set_option autoImplicit false

namespace BitMinti.Model

inductive PartialOrdering where
  | less
  | equivalent
  | greater
  | unordered
  deriving DecidableEq, Repr

namespace FeeFrac

/-- What an `int64_t` fee and an `int32_t` size hold of a result. -/
def fixed (f : FeeFrac) : FeeFrac := ⟨f.fee.bmod (2 ^ 64), f.size.bmod (2 ^ 32)⟩

/-- `operator-`. -/
def sub (a b : FeeFrac) : FeeFrac := ⟨a.fee - b.fee, a.size - b.size⟩

def feeRateCompare (a b : FeeFrac) : Ordering := compare (a.fee * b.size) (b.fee * a.size)

end FeeFrac

/-- One of the two diagrams: `chunk[dia]` from `next_index[dia]` on, `accum[dia]` and
`better_somewhere[dia]`. -/
structure DiagramSide where
  rest : List FeeFrac
  accum : FeeFrac := .empty
  betterSomewhere : Bool := false
  deriving DecidableEq, Repr

namespace DiagramSide

/-- `next_index[dia] == chunk[dia].size()` -/
def done (d : DiagramSide) : Bool := d.rest.isEmpty

/-- `next_point`.  It is not read when the side is done. -/
def nextPoint (d : DiagramSide) : FeeFrac :=
  match d.rest with
  | [] => d.accum
  | c :: _ => (c.add d.accum).fixed

/-- `advance`.  It is not called when the side is done. -/
def advance (d : DiagramSide) : DiagramSide :=
  match d.rest with
  | [] => d
  | c :: rest => { d with rest := rest, accum := (d.accum.add c).fixed }

/-- `better_somewhere[dia] = true`, if so. -/
def mark (d : DiagramSide) (better : Bool) : DiagramSide :=
  { d with betterSomewhere := d.betterSomewhere || better }

end DiagramSide

/-- One round of the loop: `unproc` is the side of the first unprocessed point, and `tail` says
whether one of the sides is done. -/
def compareAt (tail : Bool) (unproc other : DiagramSide) : DiagramSide × DiagramSide :=
  let pointP := unproc.nextPoint
  let pointA := other.accum
  let slopeAP := (pointP.sub pointA).fixed
  let pointB := other.nextPoint
  let slopeAB := if tail then ⟨0, 1⟩ else (pointB.sub pointA).fixed
  let cmp := slopeAP.feeRateCompare slopeAB
  -- B is processed with P where both have the same size
  let other' := if !tail && pointB.size == pointP.size then other.advance else other
  ((unproc.mark (cmp == .gt)).advance, other'.mark (cmp == .lt))

/-- `better_somewhere[0] <=> better_somewhere[1]` -/
def compareBetter (better0 better1 : Bool) : PartialOrdering :=
  match better0, better1 with
  | true, false => .greater
  | false, true => .less
  | _, _ => .equivalent

/-- The `do`-`while` loop, with `none` for a loop cut short. -/
def compareLoop : ℕ → DiagramSide → DiagramSide → Option PartialOrdering
  | 0, _, _ => none
  | fuel + 1, side0, side1 =>
    if side0.done && side1.done then
      some (compareBetter side0.betterSomewhere side1.betterSomewhere)
    else
      let tail := side0.done || side1.done
      let unprocSide := if tail then side0.done
        else decide (side0.nextPoint.size > side1.nextPoint.size)
      let (side0, side1) :=
        if unprocSide then (compareAt tail side1 side0).swap else compareAt tail side0 side1
      if side0.betterSomewhere && side1.betterSomewhere then some .unordered
      else compareLoop fuel side0 side1

/-- `CompareChunks`.  Every round processes a chunk. -/
def compareChunks (chunks0 chunks1 : List FeeFrac) : Option PartialOrdering :=
  compareLoop (chunks0.length + chunks1.length + 1) { rest := chunks0 } { rest := chunks1 }

end BitMinti.Model
