import BitMinti.Model.NetProcessing

/-!
# Low-work headers sync

`HeadersSyncState`: a chain of headers is downloaded twice.  The first download only adds up
the work and keeps one bit for every `commitment_period` headers; once the work suffices the
headers are asked for again, checked against those bits, and released from a buffer.

Heights are `int64_t` in the source and integers here, except that `next_height` is an `int` in
the first phase; `% m_params.commitment_period` converts to `size_t`.  The members that the
constructor sets once and for all are in `HeadersSyncSetup`.

SOURCE: src/src/headerssync.cpp:15-314, src/src/headerssync.h:21-253
-/

set_option autoImplicit false

namespace BitMinti.Model

/-! ## The state -/

/-- `CompressedHeader`: a header without `hashPrevBlock`. -/
structure CompressedHeader where
  nVersion : ℤ
  hashMerkleRoot : Uint256
  nTime : BitVec 32
  nBits : BitVec 32
  nNonce : BitVec 32
  deriving DecidableEq, Repr

/-- `CompressedHeader(const CBlockHeader&)`. -/
def CompressedHeader.ofHeader (header : CBlockHeader) : CompressedHeader :=
  ⟨header.nVersion, header.hashMerkleRoot, header.nTime, header.nBits, header.nNonce⟩

def CompressedHeader.getFullHeader (header : CompressedHeader) (hash_prev_block : Uint256) :
    CBlockHeader :=
  ⟨header.nVersion, hash_prev_block, header.hashMerkleRoot, header.nTime, header.nBits,
    header.nNonce⟩

def CBlockIndex.getBlockHeader (pindex : CBlockIndex) : CBlockHeader :=
  ⟨pindex.nVersion, pindex.pprev.getD 0#256, pindex.hashMerkleRoot, pindex.nTime, pindex.nBits,
    pindex.nNonce⟩

/-- The header `SetNull` leaves. -/
def CBlockHeader.null : CBlockHeader := ⟨0, 0#256, 0#256, 0, 0, 0⟩

structure HeadersSyncParams where
  commitment_period : ℕ
  redownload_buffer_size : ℕ
  deriving DecidableEq, Repr

/-- `HeadersSyncState::State`. -/
inductive HeadersSyncPhase where
  | presync
  | redownload
  | final
  deriving DecidableEq, Repr

/-- The members of `HeadersSyncState` that never change.  `m_hasher` is the salted hasher. -/
structure HeadersSyncSetup where
  m_commit_offset : ℕ
  m_consensus_params : ConsensusParams
  m_params : HeadersSyncParams
  m_chain_start : CBlockIndex
  m_minimum_required_work : ArithUint256
  m_hasher : Uint256 → BitVec 64
  m_max_commitments : ℕ

/-- The members of `HeadersSyncState` that the sync writes. -/
structure HeadersSyncState where
  m_current_chain_work : ArithUint256
  m_header_commitments : List Bool := []
  m_last_header_received : CBlockHeader
  m_current_height : ℤ
  m_redownloaded_headers : List CompressedHeader := []
  m_redownload_buffer_last_height : ℤ := 0
  m_redownload_buffer_last_hash : Uint256 := 0#256
  m_redownload_buffer_first_prev_hash : Uint256 := 0#256
  m_redownload_chain_work : ArithUint256 := .ofUInt64 0
  m_process_all_remaining_headers : Bool := false
  m_download_state : HeadersSyncPhase := .presync

/-- The bound the constructor puts on the number of commitments: six blocks a second since the
median time of `chain_start`, in `uint64_t`. -/
def maxCommitments (m : BlockMap) (params : HeadersSyncParams) (now : ℤ)
    (chain_start : CBlockIndex) : ℕ :=
  let max_seconds_since_start := now - getMedianTimePast m chain_start + MAX_FUTURE_BLOCK_TIME
  (6 * max_seconds_since_start % 2 ^ 64).toNat / params.commitment_period

/-- The constructor's part that never changes; `offset` is what `randrange` drew, `now` the
clock in seconds. -/
def HeadersSyncSetup.create (m : BlockMap) (consensus_params : ConsensusParams)
    (params : HeadersSyncParams) (chain_start : CBlockIndex)
    (minimum_required_work : ArithUint256) (offset : ℕ) (hasher : Uint256 → BitVec 64) (now : ℤ) :
    HeadersSyncSetup :=
  ⟨offset, consensus_params, params, chain_start, minimum_required_work, hasher,
    maxCommitments m params now chain_start⟩

/-- The state the constructor leaves. -/
def HeadersSyncState.create (c : HeadersSyncSetup) : HeadersSyncState where
  m_current_chain_work := c.m_chain_start.nChainWork
  m_last_header_received := c.m_chain_start.getBlockHeader
  m_current_height := c.m_chain_start.nHeight

/-! ## Heights and work -/

/-- The value of an `int` that an `int64_t` is narrowed to. -/
def toInt32 (x : ℤ) : ℤ := x.bmod (2 ^ 32)

/-- The value of a `size_t` that an `int` or `int64_t` is converted to. -/
def toSizeT (x : ℤ) : ℕ := if 0 ≤ x then x.toNat else (x + 2 ^ 64).toNat

/-- `next_height % m_params.commitment_period == m_commit_offset`. -/
def HeadersSyncSetup.commitsAt (c : HeadersSyncSetup) (next_height : ℤ) : Bool :=
  toSizeT next_height % c.m_params.commitment_period == c.m_commit_offset

/-- `GetBlockProof(CBlockIndex(header))`; no header makes it throw. -/
def headerProof (header : CBlockHeader) : ArithUint256 :=
  match getBlockProof header.nBits with
  | .ok work => work
  | .error _ => .ofUInt64 0

section Sync

variable (getHash : CBlockHeader → Uint256) (c : HeadersSyncSetup)

/-- `m_hasher(header.GetHash()) & 1`. -/
def commitmentBit (header : CBlockHeader) : Bool := (c.m_hasher (getHash header)).getLsbD 0

/-- A loop over the headers of a message that ends at the first one `f` refuses. -/
def whileAccepted (f : CBlockHeader → HeadersSyncState → Bool × HeadersSyncState) :
    List CBlockHeader → HeadersSyncState → Bool × HeadersSyncState
  | [], s => (true, s)
  | hdr :: rest, s =>
    match f hdr s with
    | (true, s) => whileAccepted f rest s
    | (false, s) => (false, s)

/-! ## The first download -/

/-- The end of `ValidateAndProcessSingleHeader`. -/
def advancePresync (current : CBlockHeader) (next_height : ℤ) (s : HeadersSyncState) :
    HeadersSyncState :=
  { s with
    m_current_chain_work := s.m_current_chain_work + headerProof current
    m_last_header_received := current
    m_current_height := next_height }

def validateAndProcessSingleHeader (current : CBlockHeader) (s : HeadersSyncState) :
    Bool × HeadersSyncState :=
  let next_height := toInt32 (s.m_current_height + 1)
  if s.m_download_state ≠ .presync then (false, s)
  else if !permittedDifficultyTransition c.m_consensus_params next_height
      s.m_last_header_received.nBits current.nBits then (false, s)
  else if c.commitsAt next_height then
    let s := { s with
      m_header_commitments := s.m_header_commitments ++ [commitmentBit getHash c current] }
    if c.m_max_commitments < s.m_header_commitments.length then (false, s)
    else (true, advancePresync current next_height s)
  else (true, advancePresync current next_height s)

/-- The switch to the second download. -/
def startRedownload (s : HeadersSyncState) : HeadersSyncState :=
  { s with
    m_redownloaded_headers := []
    m_redownload_buffer_last_height := c.m_chain_start.nHeight
    m_redownload_buffer_first_prev_hash := c.m_chain_start.getBlockHash
    m_redownload_buffer_last_hash := c.m_chain_start.getBlockHash
    m_redownload_chain_work := c.m_chain_start.nChainWork
    m_download_state := .redownload }

def validateAndStoreHeadersCommitments (headers : List CBlockHeader) (s : HeadersSyncState) :
    Bool × HeadersSyncState :=
  match headers with
  | [] => (true, s)
  | first :: _ =>
    if s.m_download_state ≠ .presync then (false, s)
    else if first.hashPrevBlock ≠ getHash s.m_last_header_received then (false, s)
    else
      match whileAccepted (validateAndProcessSingleHeader getHash c) headers s with
      | (false, s) => (false, s)
      | (true, s) =>
        if s.m_current_chain_work.blt c.m_minimum_required_work then (true, s)
        else (true, startRedownload c s)

/-! ## The second download -/

/-- `previous_nBits` of `ValidateAndStoreRedownloadedHeader`. -/
def previousBits (s : HeadersSyncState) : BitVec 32 :=
  match s.m_redownloaded_headers.getLast? with
  | some last => last.nBits
  | none => c.m_chain_start.nBits

/-- The end of `ValidateAndStoreRedownloadedHeader`. -/
def storeRedownloaded (header : CBlockHeader) (next_height : ℤ) (s : HeadersSyncState) :
    HeadersSyncState :=
  { s with
    m_redownloaded_headers := s.m_redownloaded_headers ++ [.ofHeader header]
    m_redownload_buffer_last_height := next_height
    m_redownload_buffer_last_hash := getHash header }

def validateAndStoreRedownloadedHeader (header : CBlockHeader) (s : HeadersSyncState) :
    Bool × HeadersSyncState :=
  let next_height := s.m_redownload_buffer_last_height + 1
  if s.m_download_state ≠ .redownload then (false, s)
  else if header.hashPrevBlock ≠ s.m_redownload_buffer_last_hash then (false, s)
  else if !permittedDifficultyTransition c.m_consensus_params next_height (previousBits c s)
      header.nBits then (false, s)
  else
    let work := s.m_redownload_chain_work + headerProof header
    let s := { s with
      m_redownload_chain_work := work
      m_process_all_remaining_headers :=
        s.m_process_all_remaining_headers || !work.blt c.m_minimum_required_work }
    if !s.m_process_all_remaining_headers && c.commitsAt next_height then
      match s.m_header_commitments with
      | [] => (false, s)
      | expected_commitment :: rest =>
        let s := { s with m_header_commitments := rest }
        if commitmentBit getHash c header ≠ expected_commitment then (false, s)
        else (true, storeRedownloaded getHash header next_height s)
    else (true, storeRedownloaded getHash header next_height s)

/-- The loop of `PopHeadersReadyForAcceptance`: the headers released, the hash the next one
follows and the buffer left. -/
def popHeadersLoop (buffer_size : ℕ) (all : Bool) :
    Uint256 → List CompressedHeader → List CBlockHeader × Uint256 × List CompressedHeader
  | prev, [] => ([], prev, [])
  | prev, header :: rest =>
    if buffer_size < (header :: rest).length || all then
      let full := header.getFullHeader prev
      let (ret, prev, left) := popHeadersLoop buffer_size all (getHash full) rest
      (full :: ret, prev, left)
    else ([], prev, header :: rest)

def popHeadersReadyForAcceptance (s : HeadersSyncState) : List CBlockHeader × HeadersSyncState :=
  if s.m_download_state ≠ .redownload then ([], s)
  else
    let (ret, prev, left) :=
      popHeadersLoop getHash c.m_params.redownload_buffer_size s.m_process_all_remaining_headers
        s.m_redownload_buffer_first_prev_hash s.m_redownloaded_headers
    (ret, { s with m_redownloaded_headers := left, m_redownload_buffer_first_prev_hash := prev })

/-! ## Messages -/

def finalize (s : HeadersSyncState) : HeadersSyncState :=
  { s with
    m_header_commitments := []
    m_last_header_received := .null
    m_redownloaded_headers := []
    m_redownload_buffer_last_hash := 0#256
    m_redownload_buffer_first_prev_hash := 0#256
    m_process_all_remaining_headers := false
    m_current_height := 0
    m_download_state := .final }

/-- The branch of `ProcessNextHeaders` for `PRESYNC`. -/
def processPresync (received_headers : List CBlockHeader) (full_headers_message : Bool)
    (s : HeadersSyncState) : ProcessingResult × HeadersSyncState :=
  let (success, s) := validateAndStoreHeadersCommitments getHash c received_headers s
  ({ success := success
     request_more :=
       success && (full_headers_message || s.m_download_state == .redownload) }, s)

/-- The branch of `ProcessNextHeaders` for `REDOWNLOAD`. -/
def processRedownload (received_headers : List CBlockHeader) (full_headers_message : Bool)
    (s : HeadersSyncState) : ProcessingResult × HeadersSyncState :=
  match whileAccepted (validateAndStoreRedownloadedHeader getHash c) received_headers s with
  | (false, s) => ({}, s)
  | (true, s) =>
    let (ret, s) := popHeadersReadyForAcceptance getHash c s
    ({ pow_validated_headers := ret
       success := true
       request_more :=
         if s.m_redownloaded_headers.isEmpty && s.m_process_all_remaining_headers then false
         else full_headers_message }, s)

def processNextHeaders (received_headers : List CBlockHeader) (full_headers_message : Bool)
    (s : HeadersSyncState) : ProcessingResult × HeadersSyncState :=
  let finish (r : ProcessingResult × HeadersSyncState) : ProcessingResult × HeadersSyncState :=
    if r.1.success && r.1.request_more then r else (r.1, finalize r.2)
  if received_headers.isEmpty then ({}, s)
  else
    match s.m_download_state with
    | .final => ({}, s)
    | .presync => finish (processPresync getHash c received_headers full_headers_message s)
    | .redownload => finish (processRedownload getHash c received_headers full_headers_message s)

def nextHeadersRequestLocator (m : BlockMap) (s : HeadersSyncState) : CBlockLocator :=
  let chain_start_locator := getLocator m (some c.m_chain_start)
  match s.m_download_state with
  | .final => []
  | .presync => getHash s.m_last_header_received :: chain_start_locator
  | .redownload => s.m_redownload_buffer_last_hash :: chain_start_locator

end Sync

end BitMinti.Model
