import BitMinti.Model.BlockIndex
import BitMinti.Model.ConsensusParams

/-!
# Difficulty and proof of work

`GetNextWorkRequired`, the linearly weighted moving average over the last ninety blocks,
in 256-bit limb arithmetic; `DeriveTarget` and `CheckProofOfWork`.

The solvetime sums are `int64_t` in the source and integers here: with the mainnet
spacing they stay below `2 ^ 24`.  `EnableFuzzDeterminism` is false outside fuzz builds
and its branch is left out.

SOURCE: src/src/pow.cpp:14-161
-/

set_option autoImplicit false

namespace BitMinti.Model

open ArithUint256 (ofUInt64 ofUint256 setCompact)

/-- The window length `N` of `GetNextWorkRequired`. -/
def lwmaWindow : ℕ := 90

/-- `operator/`, with the exception as a fault. -/
def divOrThrow (a b : ArithUint256) : Except Fault ArithUint256 :=
  match a.div b with
  | .ok q => .ok q
  | .error e => .error (.uintError e)

/-- `arith_uint256((uint64_t)x)` for an `int64_t` `x`. -/
def ofInt64 (x : ℤ) : ArithUint256 := ofUInt64 (BitVec.ofInt 64 x)

/-- The clamped solvetime of one block of the window. -/
def lwmaSolvetime (m : BlockMap) (params : ConsensusParams) (pindex : CBlockIndex) : ℤ :=
  let solvetime :=
    match m.pprev pindex with
    | some pprev => pindex.getBlockTime - pprev.getBlockTime
    | none => 1
  let minSolve := params.nPowTargetSpacing.tdiv 4
  let solvetime :=
    -- the grace period counts as perfectly timed
    if pindex.nHeight < lwmaWindow then params.nPowTargetSpacing
    else if solvetime < minSolve then minSolve
    else solvetime
  if solvetime > 6 * params.nPowTargetSpacing then 6 * params.nPowTargetSpacing else solvetime

/-- The three sums the loop of `GetNextWorkRequired` carries. -/
structure LwmaSums where
  sumTarget : ArithUint256
  nWeightedSolvetimes : ℤ
  nWeightSum : ℤ

/-- The loop of `GetNextWorkRequired`, from weight `i` down to one. -/
def lwmaLoop (m : BlockMap) (params : ConsensusParams) :
    ℕ → Option CBlockIndex → LwmaSums → Except Fault LwmaSums
  | 0, _, sums => .ok sums
  | _ + 1, none, _ => .error .nullDereference
  | i + 1, some pindex, sums =>
    let target := (setCompact pindex.nBits).1
    lwmaLoop m params i (m.pprev pindex) {
      sumTarget := sums.sumTarget + target * ofInt64 (i + 1)
      nWeightedSolvetimes :=
        sums.nWeightedSolvetimes + lwmaSolvetime m params pindex * (i + 1)
      nWeightSum := sums.nWeightSum + (i + 1) }

/-- The clamps at the end of `GetNextWorkRequired`. -/
def clampWork (powLimit maxUp maxDown bnNew : ArithUint256) : ArithUint256 :=
  let bnNew := if bnNew.blt maxUp then maxUp else bnNew
  let bnNew := if maxDown.blt bnNew then maxDown else bnNew
  if powLimit.blt bnNew then powLimit else bnNew

def getNextWorkRequired (m : BlockMap) (params : ConsensusParams) (pindexLast : CBlockIndex) :
    Except Fault (BitVec 32) :=
  let powLimit := ofUint256 params.powLimit
  if pindexLast.nHeight < lwmaWindow then .ok powLimit.getCompact
  else do
    let sums ← lwmaLoop m params lwmaWindow (some pindexLast) ⟨ofUInt64 0, 0, 0⟩
    let avgTarget ← divOrThrow sums.sumTarget (ofInt64 sums.nWeightSum)
    let bnNew ← divOrThrow (avgTarget * ofInt64 sums.nWeightedSolvetimes)
      (ofInt64 (sums.nWeightSum * params.nPowTargetSpacing))
    let prev := (setCompact pindexLast.nBits).1
    let maxUp ← divOrThrow (prev * ofUInt64 90) (ofUInt64 100)
    let maxDown ← divOrThrow (prev * ofUInt64 110) (ofUInt64 100)
    .ok (clampWork powLimit maxUp maxDown bnNew).getCompact

/-- `PermittedDifficultyTransition`: the moving average may change the target at every block. -/
def permittedDifficultyTransition (_params : ConsensusParams) (_height : ℤ)
    (_old_nbits _new_nbits : BitVec 32) : Bool := true

def deriveTarget (nBits : BitVec 32) (pow_limit : Uint256) : Option ArithUint256 :=
  let (bnTarget, fNegative, fOverflow) := setCompact nBits
  if fNegative || bnTarget.isZero || fOverflow || (ofUint256 pow_limit).blt bnTarget then none
  else some bnTarget

/-- `CheckProofOfWork`, that is `CheckProofOfWorkImpl`. -/
def checkProofOfWork (hash : Uint256) (nBits : BitVec 32) (params : ConsensusParams) : Bool :=
  match deriveTarget nBits params.powLimit with
  | none => false
  | some bnTarget => !bnTarget.blt (ofUint256 hash)

end BitMinti.Model
