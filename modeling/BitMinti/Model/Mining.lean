import BitMinti.Model.Merkle

/-!
# Mining

The workers of `GenerateBlock` when it is called with several threads, with one turn for each
access to what they share, and the loop of `generateBlocks` over the templates of the node.

`tries_done` does not wrap: fewer than `2 ^ 32` workers hash fewer than `2 ^ 32` nonces each.  The
performance reports are left out.

SOURCE: src/src/rpc/mining.cpp:151-303
-/

set_option autoImplicit false

namespace BitMinti.Model

/-! ## The workers of `GenerateBlock` -/

/-- What the workers share.  `hashed` records the nonces that `GetPoWHash` was called with. -/
structure MiningShared where
  found : Bool := false
  next_nonce : BitVec 32
  tries_done : ℕ := 0
  winning_nonce : BitVec 32 := 0#32
  m_interrupt : Bool := false
  hashed : List (BitVec 32) := []
  deriving DecidableEq, Repr

/-- Where a worker is: at one of the three loads of the loop's condition, at one of the steps of
the loop's body with the nonce it has drawn, or out of the loop, by a `break` if it has a nonce. -/
inductive Worker where
  | loadFound
  | loadInterrupt
  | loadTries
  | fetchAdd
  | test (nonce : BitVec 32)
  | publish (nonce : BitVec 32)
  | count (nonce : BitVec 32)
  | ended (nonce : Option (BitVec 32))
  deriving DecidableEq, Repr

/-- The nonce a worker holds. -/
def Worker.nonce : Worker → Option (BitVec 32)
  | .loadFound => none
  | .loadInterrupt => none
  | .loadTries => none
  | .fetchAdd => none
  | .test nonce => some nonce
  | .publish nonce => some nonce
  | .count nonce => some nonce
  | .ended nonce => nonce

/-- `std::numeric_limits<uint32_t>::max()`. -/
def lastNonce : BitVec 32 := 0xffffffff#32

/-- A turn of a worker.  `powOk nonce` is what `CheckProofOfWork` answers for the header with that
nonce. -/
def Worker.turn (powOk : BitVec 32 → Bool) (max_tries : ℕ) (g : MiningShared) :
    Worker → Worker × MiningShared
  | .loadFound => (if g.found then .ended none else .loadInterrupt, g)
  | .loadInterrupt => (if g.m_interrupt then .ended none else .loadTries, g)
  | .loadTries => (if g.tries_done < max_tries then .fetchAdd else .ended none, g)
  | .fetchAdd => (.test g.next_nonce, { g with next_nonce := g.next_nonce + 1 })
  | .test nonce =>
    if nonce = lastNonce then (.ended (some nonce), g)
    else
      let g := { g with hashed := g.hashed ++ [nonce] }
      if powOk nonce then (.publish nonce, g) else (.count nonce, g)
  | .publish nonce =>
    (.ended (some nonce),
      if !g.found then { g with winning_nonce := nonce, found := true } else g)
  | .count _ => (.loadFound, { g with tries_done := g.tries_done + 1 })
  | .ended nonce => (.ended nonce, g)

/-- The workers with what they share. -/
structure MiningSystem (ι : Type) where
  shared : MiningShared
  workers : ι → Worker

/-- The workers as `GenerateBlock` starts them. -/
def MiningSystem.init (ι : Type) (nNonce : BitVec 32) : MiningSystem ι where
  shared := { next_nonce := nNonce }
  workers _ := .loadFound

section Workers

variable {ι : Type} [DecidableEq ι] (powOk : BitVec 32 → Bool) (max_tries : ℕ)

/-- A turn of one of the workers. -/
def MiningSystem.turn (s : MiningSystem ι) (i : ι) : MiningSystem ι where
  shared := ((s.workers i).turn powOk max_tries s.shared).2
  workers := Function.update s.workers i ((s.workers i).turn powOk max_tries s.shared).1

/-- **The steps of the workers**: a turn of one of them, or the node is interrupted. -/
inductive MiningStep : MiningSystem ι → MiningSystem ι → Prop
  | turn (s : MiningSystem ι) (i : ι) : MiningStep s (s.turn powOk max_tries i)
  | interrupt (s : MiningSystem ι) :
      MiningStep s { s with shared := { s.shared with m_interrupt := true } }

end Workers

/-! ## `GenerateBlock` and `generateBlocks` -/

/-- What `CheckProofOfWork` answers for a header with another nonce. -/
def nonceMeets (powHash : CBlockHeader → Uint256 → Uint256) (params : ConsensusParams)
    (seed : Uint256) (block : CBlockHeader) (nonce : BitVec 32) : Bool :=
  checkProofOfWork (powHash { block with nNonce := nonce } seed) block.nBits params

/-- What the node gives to one turn of `generateBlocks`: `m_interrupt` as the loop's condition
reads it, the block index and the block of the new template, what the workers leave, `m_interrupt`
as `GenerateBlock` polls it during and after the search, and the answer of `ProcessNewBlock`. -/
structure MiningRound where
  m_interrupt : Bool
  bm : BlockManager
  block : CBlock
  workers : WorkersResult
  interrupt : ℕ → Bool
  interrupted : Bool
  processNewBlock : CBlock → Bool

/-- How the loop of `generateBlocks` ends: its condition is false, `GenerateBlock` returns false,
or `GenerateBlock` throws. -/
inductive LoopEnd where
  | finished
  | gaveUp
  | threw (message : String)
  deriving DecidableEq, Repr

/-- The variables of `generateBlocks`.  `submitted` has the blocks given to `ProcessNewBlock`. -/
structure GenerateState where
  nGenerate : ℤ
  nMaxTries : ℕ
  submitted : List CBlock := []
  blockHashes : List Uint256 := []
  ended : Option LoopEnd := none
  deriving DecidableEq, Repr

section Generate

variable (powHash : CBlockHeader → Uint256 → Uint256) (params : ConsensusParams)
  (hash2 : Uint256 → Uint256 → Uint256) (getTxHash : CTransaction → Uint256)
  (getHash : CBlockHeader → Uint256) (nthreads : ℕ)

/-- The block of a template once `GenerateBlock` has set its Merkle root. -/
def MiningRound.rooted (r : MiningRound) : CBlock :=
  { r.block with hashMerkleRoot := (blockMerkleRoot hash2 getTxHash r.block).1 }

/-- `GenerateBlock` in a round: the header to hand on, and whether the call succeeds. -/
def MiningRound.search (r : MiningRound) (max_tries : ℕ) : Option CBlockHeader × Bool :=
  let out := generateBlock (pureHash powHash) params r.bm nthreads (fun _ _ s => (r.workers, s))
    r.interrupt r.interrupted max_tries (r.rooted hash2 getTxHash).toCBlockHeader ()
  (out.1, out.2.1)

/-- What `GenerateBlock` leaves of `max_tries`. -/
def MiningRound.triesLeft (r : MiningRound) (max_tries : ℕ) : ℕ :=
  if nthreads ≤ 1 then
    let block := (r.rooted hash2 getTxHash).toCBlockHeader
    let seed := generateBlockSeed r.bm block
    (mineLoop (pureHash powHash) params seed r.interrupt max_tries block ()).2.1
  else max_tries - min max_tries r.workers.tries_done

/-- A turn of the loop of `generateBlocks`. -/
def generateTurn (r : MiningRound) (s : GenerateState) : GenerateState :=
  if 0 < s.nGenerate ∧ r.m_interrupt = false then
    let (block_out, ok) := r.search powHash params hash2 getTxHash nthreads s.nMaxTries
    let s := { s with nMaxTries := r.triesLeft powHash params hash2 getTxHash nthreads s.nMaxTries }
    match block_out with
    | some header =>
      let block := { r.rooted hash2 getTxHash with toCBlockHeader := header }
      let s := { s with submitted := s.submitted ++ [block] }
      if !r.processNewBlock block then
        { s with ended := some (.threw "ProcessNewBlock, block not accepted") }
      else
        { s with
          nGenerate := s.nGenerate - 1
          blockHashes := s.blockHashes ++ [getHash header] }
    | none => if ok then s else { s with ended := some .gaveUp }
  else { s with ended := some .finished }

/-- `generateBlocks` over a sequence of templates. -/
def generateBlocks : List MiningRound → GenerateState → GenerateState
  | [], s => s
  | r :: rounds, s =>
    if s.ended.isSome then s
    else generateBlocks rounds (generateTurn powHash params hash2 getTxHash getHash nthreads r s)

end Generate

end BitMinti.Model
