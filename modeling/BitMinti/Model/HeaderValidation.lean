import BitMinti.Model.Pow

/-!
# Header validation

`ContextualCheckBlockHeader`, the batch check `HasValidProofOfWork` and the nonce search of
`GenerateBlock`: the three callers of `GetPoWHash`, each with its own copy of the rule for
the RandomX seed.  `GetPoWHash` is a parameter that reads and writes a state `σ` (the
RandomX caches and VMs): the callers thread that state through their calls in the order
the source makes them.

SOURCE: src/src/validation.cpp:4686-4790, 4847-4928, src/src/rpc/mining.cpp:151-255
-/

set_option autoImplicit false

namespace BitMinti.Model

/-- `GetPoWHash`: the hash of a header under a seed, computed in a state. -/
abbrev PoWHash (σ : Type) : Type := CBlockHeader → Uint256 → σ → Uint256 × σ

/-- A proof-of-work hash that is a function of the header and the seed alone. -/
def pureHash (powHash : CBlockHeader → Uint256 → Uint256) : PoWHash Unit :=
  fun block seed s => (powHash block seed, s)

/-- `CheckProofOfWork(header.GetPoWHash(seed), header.nBits, params)`. -/
def checkHeaderPoW {σ : Type} (getPoWHash : PoWHash σ) (params : ConsensusParams)
    (block : CBlockHeader) (seed : Uint256) (s : σ) : Bool × σ :=
  let (hash, s) := getPoWHash block seed s
  (checkProofOfWork hash block.nBits params, s)

/-- The length of a RandomX epoch, the constant `2048` of all three seed rules. -/
def randomXEpoch : ℕ := 2048

/-! ## `ContextualCheckBlockHeader` -/

inductive BlockValidationResult where
  | unset
  | consensus
  | cachedInvalid
  | invalidHeader
  | mutated
  | missingPrev
  | invalidPrev
  | timeFuture
  | headerLowWork
  deriving DecidableEq, Repr

/-- What `state.Invalid` records. -/
structure Invalid where
  result : BlockValidationResult
  reject_reason : String
  debug_message : String := ""
  deriving DecidableEq, Repr

/-- `MAX_FUTURE_BLOCK_TIME`, in seconds. -/
def MAX_FUTURE_BLOCK_TIME : ℤ := 2 * 60 * 60

/-- `MAX_TIMEWARP`, in seconds. -/
def MAX_TIMEWARP : ℤ := 600

/-- The ticks of `NodeClock` in a second. -/
def clockTicks : ℤ := 1000000000

/-- The seed of `ContextualCheckBlockHeader` for a child of `pindexPrev`. -/
def contextualSeed (m : BlockMap) (pindexPrev : CBlockIndex) : Option Uint256 :=
  let nHeight := pindexPrev.nHeight + 1
  let nSeedHeight := nHeight / randomXEpoch * randomXEpoch
  if nSeedHeight = 0 then some 0#256
  else (getAncestor m pindexPrev nSeedHeight).map (·.getBlockHash)

/-- `DeploymentActiveAfter` for a buried deployment. -/
def deploymentActiveAfter (params : ConsensusParams) (pindexPrev : CBlockIndex)
    (dep : BuriedDeployment) : Bool :=
  decide ((pindexPrev.nHeight + 1 : ℤ) ≥ params.deploymentHeight dep)

/-- Whether the version of a child of `pindexPrev` is outdated. -/
def outdatedVersion (params : ConsensusParams) (block : CBlockHeader) (pindexPrev : CBlockIndex) :
    Bool :=
  (decide (block.nVersion < 2) && deploymentActiveAfter params pindexPrev .heightInCB) ||
    (decide (block.nVersion < 3) && deploymentActiveAfter params pindexPrev .dersig) ||
    (decide (block.nVersion < 4) && deploymentActiveAfter params pindexPrev .cltv)

/-- Whether the timewarp rule rejects a child of `pindexPrev`. -/
def timewarpAttack (params : ConsensusParams) (block : CBlockHeader) (pindexPrev : CBlockIndex) :
    Bool :=
  params.enforce_BIP94 &&
    ((pindexPrev.nHeight + 1 : ℤ).tmod params.difficultyAdjustmentInterval == 0) &&
    decide (block.getBlockTime < pindexPrev.getBlockTime - MAX_TIMEWARP)

/-- `strprintf("0x%08x", nVersion)`. -/
def versionHex (nVersion : ℤ) : String := "0x" ++ (BitVec.ofInt 32 nVersion).toHex

/-- The checks of `ContextualCheckBlockHeader` after the proof of work.  `now` is
`NodeClock::now()` in clock ticks. -/
def contextualTimeAndVersion (params : ConsensusParams) (m : BlockMap) (now : ℤ)
    (block : CBlockHeader) (pindexPrev : CBlockIndex) : Except Invalid Unit :=
  if block.getBlockTime ≤ getMedianTimePast m pindexPrev then
    .error ⟨.invalidHeader, "time-too-old", "block's timestamp is too early"⟩
  else if timewarpAttack params block pindexPrev then
    .error ⟨.invalidHeader, "time-timewarp-attack",
      "block's timestamp is too early on diff adjustment block"⟩
  else if block.getBlockTime * clockTicks > now + MAX_FUTURE_BLOCK_TIME * clockTicks then
    .error ⟨.timeFuture, "time-too-new", "block timestamp too far in the future"⟩
  else if outdatedVersion params block pindexPrev then
    .error ⟨.invalidHeader, "bad-version(" ++ versionHex block.nVersion ++ ")",
      "rejected nVersion=" ++ versionHex block.nVersion ++ " block"⟩
  else .ok ()

section Callers

variable {σ : Type} (getPoWHash : PoWHash σ) (params : ConsensusParams)

/-- `ContextualCheckBlockHeader`: a fault, a rejection or acceptance, and the state after. -/
def contextualCheckBlockHeader (m : BlockMap) (now : ℤ) (block : CBlockHeader)
    (pindexPrev : CBlockIndex) (fCheckPoW : Bool) (s : σ) :
    Except Fault (Except Invalid Unit) × σ :=
  match getNextWorkRequired m params pindexPrev with
  | .error f => (.error f, s)
  | .ok nBits =>
    if block.nBits ≠ nBits then
      (.ok (.error ⟨.invalidHeader, "bad-diffbits", "incorrect proof of work"⟩), s)
    else
      match contextualSeed m pindexPrev with
      | none => (.ok (.error ⟨.invalidHeader, "randomx-seed-unknown", ""⟩), s)
      | some seed =>
        -- the hash is computed only when the proof of work is to be checked
        let (powOk, s) :=
          if fCheckPoW then checkHeaderPoW getPoWHash params block seed s else (true, s)
        if powOk then (.ok (contextualTimeAndVersion params m now block pindexPrev), s)
        else (.ok (.error ⟨.invalidHeader, "high-hash", "proof of work failed"⟩), s)

/-! ## `HasValidProofOfWork` -/

variable (getHash : CBlockHeader → Uint256)

/-- The seed of `HasValidProofOfWork` for `headers[i]`, at height `currentHeight` in a segment
that hangs off `pindexPrev`; `none` where the source returns false. -/
def batchSeed (m : BlockMap) (headers : List CBlockHeader) (pindexPrev : Option CBlockIndex)
    (currentHeight : ℤ) (i : ℕ) : Option Uint256 :=
  let prevHeight := currentHeight - 1
  let nSeedHeight := prevHeight.tdiv randomXEpoch * randomXEpoch
  if nSeedHeight = 0 then some 0#256
  else
    let inHistory := pindexPrev.filter fun pindexPrev => nSeedHeight ≤ pindexPrev.nHeight
    match inHistory with
    | some pindexPrev => (getAncestor m pindexPrev nSeedHeight).map (·.getBlockHash)
    | none =>
      let offset := currentHeight - nSeedHeight
      if offset ≤ 0 ∨ offset > i then none
      else headers[i - offset.toNat]?.map getHash

/-- The gap rule: a header that does not follow its predecessor gets its context looked up
again; `none` where the source returns false. -/
def batchContext (bm : BlockManager) (header : CBlockHeader) (prevHash : Uint256)
    (pindexPrev : Option CBlockIndex) (currentHeight : ℤ) : Option (Option CBlockIndex × ℤ) :=
  if header.hashPrevBlock ≠ prevHash then
    match bm.lookupBlockIndex header.hashPrevBlock with
    | some pindexPrev => some (some pindexPrev, pindexPrev.nHeight + 1)
    | none => if header.hashPrevBlock ≠ params.hashGenesisBlock then none else some (none, 0)
  else some (pindexPrev, currentHeight)

/-- The loop of `HasValidProofOfWork` from `headers[i]` on. -/
def hasValidProofOfWorkLoop (bm : BlockManager) (headers : List CBlockHeader) :
    List CBlockHeader → ℕ → Option CBlockIndex → Uint256 → ℤ → σ → Bool × σ
  | [], _, _, _, _, s => (true, s)
  | header :: rest, i, pindexPrev, prevHash, currentHeight, s =>
    match batchContext params bm header prevHash pindexPrev currentHeight with
    | none => (false, s)
    | some (pindexPrev, currentHeight) =>
      match batchSeed getHash bm.m_block_index headers pindexPrev currentHeight i with
      | none => (false, s)
      | some seed =>
        let (powOk, s) := checkHeaderPoW getPoWHash params header seed s
        if powOk then
          hasValidProofOfWorkLoop bm headers rest (i + 1) pindexPrev (getHash header)
            (currentHeight + 1) s
        else (false, s)

def hasValidProofOfWork (bm : BlockManager) (headers : List CBlockHeader) (s : σ) : Bool × σ :=
  match headers with
  | [] => (true, s)
  | first :: _ =>
    let pindexPrev := bm.lookupBlockIndex first.hashPrevBlock
    if pindexPrev.isNone && !first.hashPrevBlock.isNull &&
        first.hashPrevBlock != params.hashGenesisBlock then (false, s)
    else
      let currentHeight : ℤ := pindexPrev.elim 0 fun p => p.nHeight + 1
      hasValidProofOfWorkLoop getPoWHash params getHash bm headers headers 0 pindexPrev
        first.hashPrevBlock currentHeight s

/-! ## `GenerateBlock` -/

/-- The seed `GenerateBlock` mines with. -/
def generateBlockSeed (bm : BlockManager) (block : CBlockHeader) : Uint256 :=
  match bm.lookupBlockIndex block.hashPrevBlock with
  | some pindexPrev =>
    let nHeight := pindexPrev.nHeight + 1
    let nSeedHeight := nHeight / randomXEpoch * randomXEpoch
    if nSeedHeight = 0 then 0#256
    else
      match getAncestor bm.m_block_index pindexPrev nSeedHeight with
      | some pindexSeed => pindexSeed.getBlockHash
      | none => 0#256
  | none => 0#256

/-- The nonce search of `GenerateBlock` with one thread: `max_tries` tries at most, ended
early by the last nonce, a solution or an interrupt.  `interrupt n` is what the poll with
`n` tries left reads. -/
def mineLoop (seed : Uint256) (interrupt : ℕ → Bool) :
    ℕ → CBlockHeader → σ → CBlockHeader × ℕ × σ
  | 0, block, s => (block, 0, s)
  | max_tries + 1, block, s =>
    if block.nNonce.toNat < 2 ^ 32 - 1 then
      let (powOk, s) := checkHeaderPoW getPoWHash params block seed s
      if !powOk && !interrupt (max_tries + 1) then
        mineLoop seed interrupt max_tries { block with nNonce := block.nNonce + 1 } s
      else (block, max_tries + 1, s)
    else (block, max_tries + 1, s)

/-- What the workers of a search with several threads leave behind. -/
structure WorkersResult where
  found : Bool
  winning_nonce : BitVec 32
  tries_done : ℕ
  deriving DecidableEq, Repr

/-- The check of `GenerateBlock` after the search: the mined header if it is to be handed on,
whether the call reports success, and the state after. -/
def checkMined (seed : Uint256) (nthreads : ℕ) (interrupted : Bool) (block : CBlockHeader)
    (s : σ) : Option CBlockHeader × Bool × σ :=
  if interrupted then (none, false, s)
  else
    let (found_pow, s) := checkHeaderPoW getPoWHash params block seed s
    if !found_pow then (none, false, s)
    else if block.nNonce.toNat = 2 ^ 32 - 1 ∧ nthreads ≤ 1 then (none, true, s)
    else (some block, true, s)

/-- `GenerateBlock` up to the point where the block is handed on.  `workers` is what the
workers do when there is more than one thread, with the state this thread finds once they
have joined; `interrupted` is what the poll after the search reads. -/
def generateBlock (bm : BlockManager) (nthreads : ℕ)
    (workers : CBlockHeader → Uint256 → σ → WorkersResult × σ) (interrupt : ℕ → Bool)
    (interrupted : Bool) (max_tries : ℕ) (block : CBlockHeader) (s : σ) :
    Option CBlockHeader × Bool × σ :=
  let seed := generateBlockSeed bm block
  if nthreads ≤ 1 then
    let (block, _, s) := mineLoop getPoWHash params seed interrupt max_tries block s
    checkMined getPoWHash params seed nthreads interrupted block s
  else
    let (result, s) := workers block seed s
    let block := { block with nNonce := result.winning_nonce }
    let max_tries := max_tries - min max_tries result.tries_done
    if !result.found && decide (max_tries ≤ result.tries_done) && !interrupt max_tries then
      (none, false, s)
    else checkMined getPoWHash params seed nthreads interrupted block s

/-! ## `AcceptBlockHeader` -/

/-- `hash.ToString()`. -/
def Uint256.toString (hash : Uint256) : String := hash.toHex

/-- `CheckBlockHeader`: the check of the proof of work has moved to
`ContextualCheckBlockHeader`. -/
def checkBlockHeader (_block : CBlockHeader) : Except Invalid Unit := .ok ()

/-- The checks of `AcceptBlockHeader` on a header that is neither the genesis nor known. -/
def checkNewHeader (bm : BlockManager) (now : ℤ) (block : CBlockHeader) (s : σ) :
    Except Fault (Except Invalid Unit) × σ :=
  match checkBlockHeader block with
  | .error i => (.ok (.error i), s)
  | .ok () =>
    match bm.m_block_index block.hashPrevBlock with
    | none => (.ok (.error ⟨.missingPrev, "prev-blk-not-found", ""⟩), s)
    | some pindexPrev =>
      if pindexPrev.nStatus.failed then
        (.ok (.error ⟨.invalidPrev, "bad-prevblk", ""⟩), s)
      else
        contextualCheckBlockHeader getPoWHash params bm.m_block_index now block pindexPrev
          true s

/-- `AcceptBlockHeader`: a fault, a rejection, or the hash of the entry it ends with; the
manager and the state after. -/
def acceptBlockHeader (now : ℤ) (min_pow_checked : Bool) (block : CBlockHeader)
    (bm : BlockManager) (s : σ) : Except Fault (Except Invalid Uint256) × BlockManager × σ :=
  let hash := getHash block
  let known := if hash ≠ params.hashGenesisBlock then bm.m_block_index hash else none
  match known with
  | some pindex =>
    if pindex.nStatus.failed then
      (.ok (.error ⟨.cachedInvalid, "duplicate-invalid",
        "block " ++ hash.toString ++ " was previously marked invalid"⟩), bm, s)
    else (.ok (.ok hash), bm, s)
  | none =>
    let (checked, s) :=
      if hash ≠ params.hashGenesisBlock then checkNewHeader getPoWHash params bm now block s
      else (.ok (.ok ()), s)
    match checked with
    | .error f => (.error f, bm, s)
    | .ok (.error i) => (.ok (.error i), bm, s)
    | .ok (.ok ()) =>
      if !min_pow_checked then
        (.ok (.error ⟨.headerLowWork, "too-little-chainwork", ""⟩), bm, s)
      else
        match addToBlockIndex getHash block bm with
        | .error f => (.error f, bm, s)
        | .ok bm => (.ok (.ok hash), bm, s)

/-- `ProcessNewBlockHeaders`: the last entry accepted, and how it ended. -/
def processNewBlockHeaders (now : ℤ) (min_pow_checked : Bool) :
    List CBlockHeader → Option Uint256 → BlockManager → σ →
      Except Fault (Except Invalid Unit) × Option Uint256 × BlockManager × σ
  | [], ppindex, bm, s => (.ok (.ok ()), ppindex, bm, s)
  | header :: rest, ppindex, bm, s =>
    let (accepted, bm, s) :=
      acceptBlockHeader getPoWHash params getHash now min_pow_checked header bm s
    match accepted with
    | .error f => (.error f, ppindex, bm, s)
    | .ok (.error i) => (.ok (.error i), ppindex, bm, s)
    | .ok (.ok pindex) =>
      processNewBlockHeaders now min_pow_checked rest (some pindex) bm s

end Callers

end BitMinti.Model
