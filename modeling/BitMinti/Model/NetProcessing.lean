import BitMinti.Model.HeaderValidation

/-!
# Headers messages

`ProcessHeadersMessage` and the functions it calls, up to the point where the headers are in
the index.  What a message makes the node do is a list of events: messages sent to the peer,
`Misbehaving`, and the calls that leave this part of the code.  `HeadersSyncState` is a
parameter, so that what is proved holds for every phase of a low-work sync.

SOURCE: src/src/net_processing.cpp:2848-3078, 3216-3390
-/

set_option autoImplicit false

namespace BitMinti.Model

/-! ## Locators -/

abbrev CBlockLocator : Type := List Uint256

/-- The loop of `LocatorEntries`: exponentially larger steps back, plus the genesis block. -/
def locatorLoop (m : BlockMap) : ℕ → Option CBlockIndex → ℤ → CBlockLocator → CBlockLocator
  | 0, _, _, entries => entries
  | _ + 1, none, _, entries => entries
  | fuel + 1, some index, step, entries =>
    let entries := entries ++ [index.getBlockHash]
    if index.nHeight = 0 then entries
    else
      let height := max ((index.nHeight : ℤ) - step) 0
      locatorLoop m fuel (getAncestor m index height)
        (if 10 < entries.length then step * 2 else step) entries

/-- `GetLocator`: each round goes at least one block back. -/
def getLocator (m : BlockMap) (index : Option CBlockIndex) : CBlockLocator :=
  locatorLoop m (index.elim 0 fun index => index.nHeight + 1) index 1 []

/-! ## The peer -/

structure ProcessingResult where
  pow_validated_headers : List CBlockHeader := []
  success : Bool := false
  request_more : Bool := false
  deriving DecidableEq, Repr

/-- The operations of `HeadersSyncState`, on states of a type `τ`. -/
structure HeadersSyncOps (τ : Type) where
  create : CBlockIndex → ArithUint256 → τ
  processNextHeaders : τ → List CBlockHeader → Bool → ProcessingResult × τ
  nextHeadersRequestLocator : τ → CBlockLocator
  isFinal : τ → Bool

/-- The part of `Peer`, `CNode` and `CNodeState` the headers code reads and writes. -/
structure Peer (τ : Type) where
  m_headers_sync : Option τ := none
  m_last_getheaders_timestamp : ℤ := 0
  m_is_inbound : Bool := false
  noBan : Bool := false
  pindexBestKnownBlock : Option Uint256 := none
  hashLastUnknownBlock : Uint256 := 0#256

/-- What a headers message makes the node do. -/
inductive HeadersEvent where
  /-- `Misbehaving`. -/
  | misbehaving (message : String)
  /-- A call of `HeadersSyncState::ProcessNextHeaders`. -/
  | processNextHeaders (headers : List CBlockHeader) (full_headers_message : Bool)
  /-- A `getheaders` message to the peer. -/
  | getHeaders (locator : CBlockLocator)
  /-- A call of `HandleUnconnectingHeaders`. -/
  | unconnectingHeaders (headers : List CBlockHeader)
  /-- Calls of `UpdatePeerStateForReceivedHeaders` and `HeadersDirectFetchBlocks`. -/
  | receivedHeaders (pindexLast : Uint256) (received_new_header may_have_more_headers : Bool)
  deriving DecidableEq, Repr

/-- What stays fixed while a message is processed.  `activeChain` lists the hashes of
`ActiveChain()` by height. -/
structure HeadersContext (σ τ : Type) where
  getPoWHash : PoWHash σ
  params : ConsensusParams
  getHash : CBlockHeader → Uint256
  sync : HeadersSyncOps τ
  now : ℤ
  max_headers_result : ℕ
  minimumChainWork : ArithUint256
  activeChain : List Uint256

/-- What processing a message reads and writes. -/
structure HeadersNode (σ τ : Type) where
  bm : BlockManager
  pow : σ
  peer : Peer τ
  events : List HeadersEvent := []

/-- Recording an event. -/
def HeadersNode.emit {σ τ : Type} (n : HeadersNode σ τ) (e : HeadersEvent) : HeadersNode σ τ :=
  { n with events := n.events ++ [e] }

/-- Changing the peer. -/
def HeadersNode.mapPeer {σ τ : Type} (n : HeadersNode σ τ) (f : Peer τ → Peer τ) :
    HeadersNode σ τ :=
  { n with peer := f n.peer }

/-- `HEADERS_RESPONSE_TIME`, two minutes in clock ticks. -/
def HEADERS_RESPONSE_TIME : ℤ := 2 * 60 * clockTicks

section Messages

variable {σ τ : Type} (ctx : HeadersContext σ τ)

/-! ## Checks -/

/-- The loop of `CheckHeadersAreContinuous`. -/
def headersContinueFrom (getHash : CBlockHeader → Uint256) : Uint256 → List CBlockHeader → Bool
  | _, [] => true
  | hashLastBlock, header :: rest =>
    if !hashLastBlock.isNull && header.hashPrevBlock != hashLastBlock then false
    else headersContinueFrom getHash (getHash header) rest

def checkHeadersAreContinuous (headers : List CBlockHeader) : Bool :=
  headersContinueFrom ctx.getHash 0#256 headers

def checkHeadersPoW (headers : List CBlockHeader) (n : HeadersNode σ τ) :
    Bool × HeadersNode σ τ :=
  let (valid, pow) :=
    hasValidProofOfWork ctx.getPoWHash ctx.params ctx.getHash n.bm headers n.pow
  let n := { n with pow := pow }
  if !valid then (false, n.emit (.misbehaving "header with invalid proof of work"))
  else if !checkHeadersAreContinuous ctx headers then
    (false, n.emit (.misbehaving "non-continuous headers sequence"))
  else (true, n)

/-! ## Asking for headers -/

def maybeSendGetHeaders (locator : CBlockLocator) (n : HeadersNode σ τ) :
    Bool × HeadersNode σ τ :=
  if ctx.now - n.peer.m_last_getheaders_timestamp > HEADERS_RESPONSE_TIME then
    (true, (n.emit (.getHeaders locator)).mapPeer fun peer =>
      { peer with m_last_getheaders_timestamp := ctx.now })
  else (false, n)

/-- Whether the peer's announcement of `pindex` beats its best known block. -/
def improvesBestKnown (m : BlockMap) (peer : Peer τ) (pindex : CBlockIndex) : Bool :=
  match peer.pindexBestKnownBlock.bind m with
  | none => true
  | some best => !pindex.nChainWork.blt best.nChainWork

/-- The entry of a hash, if it is known and has work. -/
def workIndex (m : BlockMap) (hash : Uint256) : Option CBlockIndex :=
  (m hash).filter fun pindex => (ArithUint256.ofUInt64 0).blt pindex.nChainWork

def processBlockAvailability (m : BlockMap) (peer : Peer τ) : Peer τ :=
  if peer.hashLastUnknownBlock.isNull then peer
  else
    match workIndex m peer.hashLastUnknownBlock with
    | none => peer
    | some pindex =>
      { peer with
        pindexBestKnownBlock :=
          if improvesBestKnown m peer pindex then some pindex.getBlockHash
          else peer.pindexBestKnownBlock
        hashLastUnknownBlock := 0#256 }

def updateBlockAvailability (m : BlockMap) (hash : Uint256) (peer : Peer τ) : Peer τ :=
  let peer := processBlockAvailability m peer
  match workIndex m hash with
  | some pindex =>
    if improvesBestKnown m peer pindex then
      { peer with pindexBestKnownBlock := some pindex.getBlockHash }
    else peer
  | none => { peer with hashLastUnknownBlock := hash }

def handleUnconnectingHeaders (headers : List CBlockHeader) (n : HeadersNode σ τ) :
    HeadersNode σ τ :=
  let n := n.emit (.unconnectingHeaders headers)
  let best_header := n.bm.best_header.bind n.bm.m_block_index
  let (_, n) := maybeSendGetHeaders ctx (getLocator n.bm.m_block_index best_header) n
  match headers.getLast? with
  | none => n
  | some last => n.mapPeer (updateBlockAvailability n.bm.m_block_index (ctx.getHash last))

/-! ## Low-work syncs -/

/-- What `IsContinuationOfLowWorkHeadersSync` does once `ProcessNextHeaders` has returned.  The
presync statistics are left out. -/
def afterProcessNextHeaders (result : ProcessingResult) (sync : τ) (n : HeadersNode σ τ) :
    HeadersNode σ τ :=
  let n :=
    if result.success then n.mapPeer fun peer => { peer with m_last_getheaders_timestamp := 0 }
    else n
  let locator := ctx.sync.nextHeadersRequestLocator sync
  let n :=
    if result.request_more && !locator.isEmpty then (maybeSendGetHeaders ctx locator n).2 else n
  n.mapPeer fun peer =>
    { peer with m_headers_sync := if ctx.sync.isFinal sync then none else some sync }

/-- `IsContinuationOfLowWorkHeadersSync`: whether the sync took the headers, the headers left
to process, and the node after. -/
def isContinuationOfLowWorkHeadersSync (headers : List CBlockHeader) (n : HeadersNode σ τ) :
    Bool × List CBlockHeader × HeadersNode σ τ :=
  match n.peer.m_headers_sync with
  | none => (false, headers, n)
  | some sync =>
    let full := headers.length == ctx.max_headers_result
    let (result, sync) := ctx.sync.processNextHeaders sync headers full
    (result.success, if result.success then result.pow_validated_headers else headers,
      afterProcessNextHeaders ctx result sync (n.emit (.processNextHeaders headers full)))

def calculateClaimedHeadersWork (headers : List CBlockHeader) : Except Fault ArithUint256 :=
  headers.foldlM (fun total header =>
    match getBlockProof header.nBits with
    | .error e => .error (.uintError e)
    | .ok work => .ok (total + work)) (ArithUint256.ofUInt64 0)

/-- `GetAntiDoSWorkThreshold`: the work of the tip less a buffer of 144 blocks, and at least
the minimum chain work. -/
def getAntiDoSWorkThreshold (m : BlockMap) : Except Fault ArithUint256 :=
  let atLeast (work : ArithUint256) :=
    if work.blt ctx.minimumChainWork then ctx.minimumChainWork else work
  match ctx.activeChain.getLast?.bind m with
  | none => .ok (atLeast (ArithUint256.ofUInt64 0))
  | some tip =>
    match getBlockProof tip.nBits with
    | .error e => .error (.uintError e)
    | .ok proof =>
      let buffer := ArithUint256.ofUInt64 144 * proof
      .ok (atLeast (tip.nChainWork -
        if tip.nChainWork.blt buffer then tip.nChainWork else buffer))

/-- `TryLowWorkHeadersSync`: whether the headers are not to be processed further. -/
def tryLowWorkHeadersSync (chain_start_header : CBlockIndex) (headers : List CBlockHeader)
    (n : HeadersNode σ τ) : Except Fault Bool × HeadersNode σ τ :=
  match calculateClaimedHeadersWork headers, getAntiDoSWorkThreshold ctx n.bm.m_block_index with
  | .error f, _ => (.error f, n)
  | _, .error f => (.error f, n)
  | .ok work, .ok minimum_chain_work =>
    if (chain_start_header.nChainWork + work).blt minimum_chain_work then
      if headers.length = ctx.max_headers_result then
        let sync := ctx.sync.create chain_start_header minimum_chain_work
        let n := n.mapPeer fun peer => { peer with m_headers_sync := some sync }
        (.ok true, (isContinuationOfLowWorkHeadersSync ctx headers n).2.2)
      else (.ok true, n)
    else (.ok false, n)

def isAncestorOfBestHeaderOrTip (bm : BlockManager) (header : Option CBlockIndex) : Bool :=
  match header with
  | none => false
  | some header =>
    let onBest :=
      match bm.best_header.bind bm.m_block_index with
      | none => false
      | some best =>
        (getAncestor bm.m_block_index best header.nHeight).map (·.getBlockHash) ==
          some header.getBlockHash
    onBest || ctx.activeChain[header.nHeight]? == some header.getBlockHash

/-! ## `ProcessHeadersMessage` -/

/-- Whether `MaybePunishNodeForBlock` calls `Misbehaving`. -/
def punishes (peer : Peer τ) (via_compact_block : Bool) : BlockValidationResult → Bool
  | .unset => false
  | .headerLowWork => false
  | .consensus => !via_compact_block
  | .mutated => !via_compact_block
  | .cachedInvalid => !via_compact_block && !peer.m_is_inbound
  | .invalidHeader => true
  | .invalidPrev => true
  | .missingPrev => true
  | .timeFuture => false

/-- The end of `ProcessHeadersMessage`: the headers go into the index. -/
def processConnectedHeaders (nCount : ℕ) (via_compact_block have_headers_sync : Bool)
    (received_new_header : Bool) (headers : List CBlockHeader) (n : HeadersNode σ τ) :
    Except Fault Unit × HeadersNode σ τ :=
  let (processed, pindexLast, bm, pow) :=
    processNewBlockHeaders ctx.getPoWHash ctx.params ctx.getHash ctx.now true headers none n.bm
      n.pow
  let n := { n with bm := bm, pow := pow }
  match processed with
  | .error f => (.error f, n)
  | .ok (.error i) =>
    (.ok (),
      if punishes n.peer via_compact_block i.result then
        n.emit (.misbehaving "invalid header received")
      else n)
  | .ok (.ok ()) =>
    match pindexLast with
    | none => (.error .assertion, n)
    | some last =>
      let full := nCount == ctx.max_headers_result
      let n :=
        if full && !have_headers_sync then
          (maybeSendGetHeaders ctx
            (getLocator n.bm.m_block_index (n.bm.m_block_index last)) n).2
        else n
      (.ok (), n.emit (.receivedHeaders last received_new_header full))

/-- `ProcessHeadersMessage` on the headers the sync has left, if any. -/
def processRemainingHeaders (nCount : ℕ) (via_compact_block already_validated_work : Bool)
    (headers : List CBlockHeader) (n : HeadersNode σ τ) : Except Fault Unit × HeadersNode σ τ :=
  match headers.head?, headers.getLast? with
  | some first, some last =>
    let have_headers_sync := n.peer.m_headers_sync.isSome
    match n.bm.lookupBlockIndex first.hashPrevBlock with
    | none => (.ok (), handleUnconnectingHeaders ctx headers n)
    | some chain_start_header =>
      let n := n.mapPeer fun peer => { peer with m_last_getheaders_timestamp := 0 }
      let last_received_header := n.bm.lookupBlockIndex (ctx.getHash last)
      let validated :=
        already_validated_work || isAncestorOfBestHeaderOrTip ctx n.bm last_received_header ||
          n.peer.noBan
      let (stop, n) :=
        if validated then (.ok false, n)
        else tryLowWorkHeadersSync ctx chain_start_header headers n
      match stop with
      | .error f => (.error f, n)
      | .ok true => (.ok (), n)
      | .ok false =>
        processConnectedHeaders ctx nCount via_compact_block have_headers_sync
          last_received_header.isNone headers n
  | _, _ => (.ok (), n)

def processHeadersMessage (headers : List CBlockHeader) (via_compact_block : Bool)
    (n : HeadersNode σ τ) : Except Fault Unit × HeadersNode σ τ :=
  if headers.isEmpty then
    (.ok (), n.mapPeer fun peer =>
      { peer with m_headers_sync := none, m_last_getheaders_timestamp := 0 })
  else
    let (checked, n) := checkHeadersPoW ctx headers n
    if !checked then (.ok (), n)
    else
      let (already_validated_work, rest, n) := isContinuationOfLowWorkHeadersSync ctx headers n
      processRemainingHeaders ctx headers.length via_compact_block already_validated_work rest n

end Messages

end BitMinti.Model
