import BitMinti.Analysis.ArithUint256
import BitMinti.Computation.HashChain
import BitMinti.Model.HeadersSync

/-!
# What a low-work headers sync is for

A chain on top of `chain_start` is downloaded twice.  A header leaves the sync only if the
second download has shown enough work, or if enough headers lie on top of it and the second
download agrees with the first at every commitment height.  A peer that serves one and the same
chain both times gets it through whole.

The first and the second download are told apart by the phase the sync was in when a message
arrived.
-/

set_option autoImplicit false

namespace BitMinti.Interface

open Model Computation.HashChain

/-- The arguments of one call of `ProcessNextHeaders`. -/
structure HeadersMessage where
  headers : List CBlockHeader
  full : Bool
  deriving DecidableEq, Repr

section Release

variable (getHash : CBlockHeader → Uint256) (c : HeadersSyncSetup)

/-! ## Chains -/

/-- The headers are a hash-linked chain on top of `chain_start`. -/
def ChainFromStart (headers : List CBlockHeader) : Prop :=
  Linked getHash (·.hashPrevBlock) c.m_chain_start.getBlockHash headers

/-- The work of the chain that ends in these headers, as a natural number. -/
def totalWork (headers : List CBlockHeader) : ℕ :=
  c.m_chain_start.nChainWork.toNat + (headers.map fun header => (headerProof header).toNat).sum

/-- The same work as `nChainWork` holds it, modulo `2 ^ 256`. -/
def chainWork (headers : List CBlockHeader) : ArithUint256 :=
  headers.foldl (fun work header => work + headerProof header) c.m_chain_start.nChainWork

/-- Whether `nChainWork` reaches the required work at some header of the chain. -/
def reachesWork (headers : List CBlockHeader) : Bool :=
  headers.inits.any fun front =>
    !front.isEmpty && !(chainWork c front).blt c.m_minimum_required_work

/-- The commitment heights. -/
def IsCommitmentHeight (height : ℕ) : Prop :=
  height % c.m_params.commitment_period = c.m_commit_offset

instance (height : ℕ) : Decidable (IsCommitmentHeight c height) :=
  inferInstanceAs (Decidable (_ = _))

/-- At every commitment height of the second chain the salted bit is the one stored for that
height in the first download. -/
def CommitmentsMatch (presynced redownloaded : List CBlockHeader) : Prop :=
  ∀ i header, redownloaded[i]? = some header →
    IsCommitmentHeight c (c.m_chain_start.nHeight + 1 + i) →
    ∃ first, presynced[i]? = some first ∧
      commitmentBit getHash c header = commitmentBit getHash c first

/-- When a header may leave the sync: it is on a chain from `chain_start`, and that chain has the
work, or it is buried and the chain is the one downloaded before, as far as was sampled. -/
structure SafelyReleased (presynced redownloaded : List CBlockHeader) (header : CBlockHeader) :
    Prop where
  chain : ChainFromStart getHash c redownloaded
  buried : ∃ before after, redownloaded = before ++ header :: after ∧
    (c.m_minimum_required_work.toNat ≤ totalWork c redownloaded ∨
      c.m_params.redownload_buffer_size ≤ after.length ∧
        CommitmentsMatch getHash c presynced redownloaded)

/-! ## Runs -/

/-- The state after a sequence of calls. -/
def processMessages : HeadersSyncState → List HeadersMessage → HeadersSyncState
  | s, [] => s
  | s, msg :: rest =>
    processMessages (processNextHeaders getHash c msg.headers msg.full s).2 rest

/-- The headers of the calls made while the sync was in `phase`. -/
def receivedIn (phase : HeadersSyncPhase) : HeadersSyncState → List HeadersMessage →
    List CBlockHeader
  | _, [] => []
  | s, msg :: rest =>
    (if s.m_download_state = phase then msg.headers else []) ++
      receivedIn phase (processNextHeaders getHash c msg.headers msg.full s).2 rest

/-- Every call made in the first download keeps the height within an `int`. -/
def HeightsFitInt : HeadersSyncState → List HeadersMessage → Prop
  | _, [] => True
  | s, msg :: rest =>
    (s.m_download_state = .presync → s.m_current_height + msg.headers.length < 2 ^ 31) ∧
      HeightsFitInt (processNextHeaders getHash c msg.headers msg.full s).2 rest

/-! ## What a run holds in memory -/

/-- The states of a loop over the headers of a message: the one it starts in, and the one after
each header, a refused one included. -/
def loopStates (f : CBlockHeader → HeadersSyncState → Bool × HeadersSyncState) :
    List CBlockHeader → HeadersSyncState → List HeadersSyncState
  | [], s => [s]
  | hdr :: rest, s =>
    s :: match f hdr s with
      | (true, s') => loopStates f rest s'
      | (false, s') => [s']

/-- The states of one call: those of its loop over the headers, and the one it leaves. -/
def callStates (msg : HeadersMessage) (s : HeadersSyncState) : List HeadersSyncState :=
  (match s.m_download_state with
    | .final => [s]
    | .presync =>
      match msg.headers.head? with
      | none => [s]
      | some first =>
        if first.hashPrevBlock ≠ getHash s.m_last_header_received then [s]
        else loopStates (validateAndProcessSingleHeader getHash c) msg.headers s
    | .redownload =>
      loopStates (validateAndStoreRedownloadedHeader getHash c) msg.headers s) ++
  [(processNextHeaders getHash c msg.headers msg.full s).2]

/-- The states of a run, those within its calls included. -/
def runStates : HeadersSyncState → List HeadersMessage → List HeadersSyncState
  | s, [] => [s]
  | s, msg :: rest =>
    callStates getHash c msg s ++
      runStates (processNextHeaders getHash c msg.headers msg.full s).2 rest

/-! ## What a run credits -/

/-- The headers of a loop that were accepted. -/
def acceptedBy (f : CBlockHeader → HeadersSyncState → Bool × HeadersSyncState) :
    List CBlockHeader → HeadersSyncState → List CBlockHeader
  | [], _ => []
  | hdr :: rest, s =>
    match f hdr s with
    | (true, s') => hdr :: acceptedBy f rest s'
    | (false, _) => []

/-- The headers that one call accepts in the first download. -/
def presyncAccepted (msg : HeadersMessage) (s : HeadersSyncState) : List CBlockHeader :=
  match s.m_download_state, msg.headers.head? with
  | .presync, some first =>
    if first.hashPrevBlock ≠ getHash s.m_last_header_received then []
    else acceptedBy (validateAndProcessSingleHeader getHash c) msg.headers s
  | _, _ => []

/-- Whether the chain that ends in these headers has the required work. -/
def hasWork (headers : List CBlockHeader) : Bool :=
  !(chainWork c headers).blt c.m_minimum_required_work

/-- Messages that come after `seen`: none is empty, and only one that ends with the required work
may be less than full. -/
def Answers : List CBlockHeader → List HeadersMessage → Prop
  | _, [] => True
  | seen, msg :: rest =>
    msg.headers ≠ [] ∧ (msg.full = false → hasWork c (seen ++ msg.headers) = true) ∧
      Answers (seen ++ msg.headers) rest

/-- The messages in which a peer serves its chain. -/
structure ServesChain (chain : List CBlockHeader) (msgs : List HeadersMessage) : Prop where
  whole : msgs.flatMap (·.headers) = chain
  answers : Answers c [] msgs

/-- The headers up to the end of the first message after which `stop` holds. -/
def throughMessage (stop : List CBlockHeader → Bool) : List CBlockHeader → List HeadersMessage →
    List CBlockHeader
  | seen, [] => seen
  | seen, msg :: rest =>
    if stop (seen ++ msg.headers) then seen ++ msg.headers
    else throughMessage stop (seen ++ msg.headers) rest

/-- The commitment heights among the first `n` heights after `chain_start`. -/
def commitmentHeights (n : ℕ) : List ℕ :=
  (List.range' (c.m_chain_start.nHeight + 1) n).filter fun height => IsCommitmentHeight c height

/-- A request, its answer, and what `ProcessNextHeaders` returned. -/
structure Exchange where
  request : CBlockLocator
  answer : HeadersMessage
  result : ProcessingResult

/-- The exchanges of one phase: the peer answers with the given messages in turn as long as the
sync is in that phase. -/
def serve (m : BlockMap) (phase : HeadersSyncPhase) :
    HeadersSyncState → List HeadersMessage → List Exchange × HeadersSyncState
  | s, [] => ([], s)
  | s, msg :: rest =>
    if s.m_download_state = phase then
      let (result, s') := processNextHeaders getHash c msg.headers msg.full s
      let (exchanges, s'') := serve m phase s' rest
      (⟨nextHeadersRequestLocator getHash c m s, msg, result⟩ :: exchanges, s'')
    else ([], s)

/-- Each request names the last header of the chain served so far, `hash` being that of the last
one before. -/
def AsksForNext : Uint256 → List Exchange → Prop
  | _, [] => True
  | hash, x :: rest =>
    x.request.head? = some hash ∧ AsksForNext (lastHash getHash hash x.answer.headers) rest

/-- A whole sync with a peer that serves its chain in the messages `first` and then, from the
start, in the messages `second`. -/
def syncExchanges (m : BlockMap) (first second : List HeadersMessage) :
    List Exchange × List Exchange :=
  let (presync, s) := serve getHash c m .presync (.create c) first
  (presync, (serve getHash c m .redownload s second).1)

/-- What the sync makes of such a peer: no call fails, each request asks for the next headers,
and what is returned is the chain up to the end of the message in which it reaches the work. -/
structure GetsThrough (m : BlockMap) (first second : List HeadersMessage) : Prop where
  success : ∀ x ∈ (syncExchanges getHash c m first second).1 ++
    (syncExchanges getHash c m first second).2, x.result.success = true
  asksFirst : AsksForNext getHash c.m_chain_start.getBlockHash
    (syncExchanges getHash c m first second).1
  asksSecond : AsksForNext getHash c.m_chain_start.getBlockHash
    (syncExchanges getHash c m first second).2
  returned : ((syncExchanges getHash c m first second).1 ++
      (syncExchanges getHash c m first second).2).flatMap (·.result.pow_validated_headers) =
    throughMessage (reachesWork c) [] second

end Release

end BitMinti.Interface
