import BitMinti.Model.Mining
import Mathlib.Logic.Relation
import Mathlib.Order.Interval.Finset.Nat

/-!
# What mining is for

The workers of one `GenerateBlock` call share out the nonces from the starting nonce on: they are
not to hash a nonce twice, nor one below the starting nonce.  `generateBlocks` is to go on with a
new template until it has made its blocks or used up its tries, and to submit what it finds.

SOURCE: src/src/rpc/mining.cpp:151-303
-/

set_option autoImplicit false

namespace BitMinti.Interface

open Model

section Workers

variable {ι : Type} [DecidableEq ι] (powOk : BitVec 32 → Bool) (max_tries : ℕ) (nNonce : BitVec 32)

/-- The states that the workers get to. -/
def MiningReaches (s : MiningSystem ι) : Prop :=
  Relation.ReflTransGen (MiningStep powOk max_tries) (.init ι nNonce) s

/-- The nonces hashed so far are different and none is below the starting nonce. -/
structure FreshNonces (hashed : List (BitVec 32)) : Prop where
  nodup : hashed.Nodup
  from_start : ∀ nonce ∈ hashed, nNonce ≤ nonce

/-- The number of solutions from a nonce on, without the last nonce. -/
def solutionsFrom (nonce : ℕ) : ℕ :=
  ((Finset.Ico nonce (2 ^ 32 - 1)).filter fun x => powOk (BitVec.ofNat 32 x) = true).card

/-- When the workers cannot wrap the counter: there are no tries, the tries and the workers do not
reach the end of the nonces, or the solutions stop all workers but one. -/
def CannotWrap (powOk : BitVec 32 → Bool) (max_tries nthreads : ℕ) (start : BitVec 32) : Prop :=
  max_tries = 0 ∨ max_tries + nthreads < 2 ^ 32 - start.toNat + 2 ∨
    nthreads < 2 + solutionsFrom powOk start.toNat

/-- The number of nonces the workers hash before each of them has drawn the last nonce. -/
def searchSpace (nthreads : ℕ) (nNonce : BitVec 32) : ℕ := nthreads * (2 ^ 32 - 1) - nNonce.toNat

/-- What the workers of a call may leave behind once all of them have ended, and whether the node
was interrupted meanwhile. -/
def WorkersLeave (nthreads : ℕ) (result : WorkersResult) (m_interrupt : Bool) : Prop :=
  ∃ s : MiningSystem (Fin nthreads), MiningReaches powOk max_tries nNonce s ∧
    (∀ i, ∃ nonce, s.workers i = .ended nonce) ∧
    result = ⟨s.shared.found, s.shared.winning_nonce, s.shared.tries_done⟩ ∧
    m_interrupt = s.shared.m_interrupt

/-- The tries of a call outlast the nonces of its template: there is no solution before the last
nonce, and a try is left after that or the last nonce is a solution. -/
def Outlasts (nthreads : ℕ) : Prop :=
  if nthreads ≤ 1 then
    (∀ x, nNonce.toNat ≤ x.toNat → x ≠ lastNonce → powOk x = false) ∧
      (2 ^ 32 - 1 - nNonce.toNat < max_tries ∨
        2 ^ 32 - 1 - nNonce.toNat = max_tries ∧ powOk lastNonce = true)
  else (∀ x, x ≠ lastNonce → powOk x = false) ∧ searchSpace nthreads nNonce < max_tries

end Workers

/-! ## `generateBlocks` -/

section Generate

variable (powHash : CBlockHeader → Uint256 → Uint256) (params : ConsensusParams)
  (hash2 : Uint256 → Uint256 → Uint256) (getTxHash : CTransaction → Uint256)
  (getHash : CBlockHeader → Uint256) (nthreads : ℕ)

/-- What `CheckProofOfWork` answers for a nonce of the template. -/
def powOkIn (r : MiningRound) (nonce : BitVec 32) : Bool :=
  let block := (r.rooted hash2 getTxHash).toCBlockHeader
  nonceMeets powHash params (generateBlockSeed r.bm block) block nonce

/-- The node is interrupted in a round. -/
def InterruptedIn (r : MiningRound) : Prop :=
  r.m_interrupt = true ∨ r.interrupted = true ∨ ∃ n, r.interrupt n = true

/-- What a round says of the workers is what they may leave behind; a signal that they could see
is there when they have joined. -/
def PossibleIn (r : MiningRound) (s : GenerateState) : Prop :=
  1 < nthreads → ∃ m_interrupt,
    WorkersLeave (powOkIn powHash params hash2 getTxHash r) s.nMaxTries r.block.nNonce nthreads
      r.workers m_interrupt ∧ (m_interrupt = true → r.interrupted = true)

/-- The solution that the search of a round finds. -/
def solutionIn (r : MiningRound) (s : GenerateState) : Option (BitVec 32) :=
  if nthreads ≤ 1 then
    let block := (r.rooted hash2 getTxHash).toCBlockHeader
    let nonce := (mineLoop (pureHash powHash) params (generateBlockSeed r.bm block) r.interrupt
      s.nMaxTries block ()).1.nNonce
    if powOkIn powHash params hash2 getTxHash r nonce then some nonce else none
  else if r.workers.found then some r.workers.winning_nonce else none

/-- **What a turn of `generateBlocks` is to keep to**: it ends the loop only when all blocks are
made or no try is left, and it submits the solution it finds. -/
structure TurnKept (r : MiningRound) (s s' : GenerateState) : Prop where
  stops : s'.ended.isSome = true →
    s'.nGenerate ≤ 0 ∨ s'.ended = some .gaveUp ∧ s'.nMaxTries = 0
  submits : 0 < s.nGenerate → ∀ nonce,
    solutionIn powHash params hash2 getTxHash nthreads r s = some nonce →
      ∃ block : CBlock, s'.submitted = s.submitted ++ [block] ∧ block.nNonce = nonce

/-- The tries do not outlast the nonces of the template, and a block that is found is accepted. -/
structure TurnFine (r : MiningRound) (s : GenerateState) : Prop where
  tries : ¬ Outlasts (powOkIn powHash params hash2 getTxHash r) s.nMaxTries r.block.nNonce nthreads
  accepted : ∀ header,
    (r.search powHash params hash2 getTxHash nthreads s.nMaxTries).1 = some header →
      r.processNewBlock { r.rooted hash2 getTxHash with toCBlockHeader := header } = true

/-- `Q` holds at every turn that `generateBlocks` takes. -/
def EveryTurn (Q : MiningRound → GenerateState → Prop) : List MiningRound → GenerateState → Prop
  | [], _ => True
  | r :: rounds, s => s.ended = none →
      Q r s ∧ EveryTurn Q rounds (generateTurn powHash params hash2 getTxHash getHash nthreads r s)

end Generate

end BitMinti.Interface
