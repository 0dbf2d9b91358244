import BitMinti.Model.NetProcessing
import BitMinti.Analysis.AcceptBlock
import BitMinti.Analysis.RandomX

/-!
# Headers messages and the peers that send them

A peer serves headers of its own block tree, of which the node's index is a part
(`PeerChain`).  Whether the node takes an honest message for misbehaviour depends on the
index alone: `CheckHeadersPoW` lets the message through exactly when the parent of its first
header is known (`honest_headers_handled_iff`).

Whatever peers send, the index stays one that `AddToBlockIndex` builds from genesis
(`processHeadersMessage_built`).
-/

set_option autoImplicit false

namespace BitMinti.Model

open Interface

/-! ## Honest messages -/

/-- The block tree `m'` of a peer, which contains the index `m` of the node and the headers of
a message with their ancestors.  The null hash is no block: it stands for the parent of a
genesis block. -/
structure PeerChain (getHash : CBlockHeader → Uint256) (m m' : BlockMap)
    (headers : List CBlockHeader) : Prop where
  tree : TreeInv m'
  keeps : ∀ k e, m k = some e → m' k = some e
  null : m' 0#256 = none
  entry : ∀ header ∈ headers, ∃ e, m' (getHash header) = some e ∧
    e.pprev = if header.hashPrevBlock = 0#256 then none else some header.hashPrevBlock

/-- Every header of a message meets its target under the seed of its own chain. -/
def MeetsOwnPow (rx : Uint256 → CBlockHeader → Uint256) (params : ConsensusParams) (m' : BlockMap)
    (headers : List CBlockHeader) : Prop :=
  ∀ header ∈ headers, ∃ seed, parentSeed m' header = some seed ∧ PowMet rx params seed header

section Honest

variable {getHash : CBlockHeader → Uint256} {m m' : BlockMap} {headers : List CBlockHeader}

variable {header : CBlockHeader}

section

variable (P : PeerChain getHash m m' headers)

include P

theorem PeerChain.child
    (hmem : header ∈ headers) {ep : CBlockIndex} (hp : m' header.hashPrevBlock = some ep) :
    ∃ e, m' (getHash header) = some e ∧ e.pprev = some header.hashPrevBlock ∧
      e.nHeight = ep.nHeight + 1 := by
  obtain ⟨e, he, hprev⟩ := P.entry header hmem
  have hne : header.hashPrevBlock ≠ 0#256 := by
    intro hnull
    rw [hnull, P.null] at hp
    cases hp
  rw [if_neg hne] at hprev
  obtain ⟨ep', hep', hheight⟩ := P.tree.parent he hprev
  rw [hp] at hep'
  cases hep'
  exact ⟨e, he, hprev, hheight⟩

/-- Along a linked message the heights go up by one.  The induction is on the
position. -/
theorem PeerChain.heights {p : Uint256} (hlink : HashLinked getHash p headers) (start : ℕ)
    (hstart : ∀ first, headers[0]? = some first →
      ∃ e, m' (getHash first) = some e ∧ e.nHeight = start) {i : ℕ}
    (hi : headers[i]? = some header) :
    ∃ e, m' (getHash header) = some e ∧ e.nHeight = start + i ∧
      (0 < i → e.pprev = some header.hashPrevBlock) := by
  induction i generalizing header with
  | zero =>
    obtain ⟨e, he, hheight⟩ := hstart header hi
    exact ⟨e, he, hheight, fun h => absurd h (lt_irrefl 0)⟩
  | succ i ih =>
    obtain ⟨c, hc, hparent⟩ := hlink.link_succ hi
    obtain ⟨ep, hep, hheight, -⟩ := ih hc
    rw [← hparent] at hep
    obtain ⟨e, he, hprev, hnext⟩ := P.child (List.mem_of_getElem? hi) hep
    exact ⟨e, he, by omega, fun _ => hprev⟩

theorem PeerChain.carries {p : Uint256} {ep : CBlockIndex}
    (hp : m p = some ep) (hlink : HashLinked getHash p headers) :
    Carries getHash headers ep.nHeight m m' where
  keeps := P.keeps
  entry i header hi := by
    have hfirst : ∀ first, headers[0]? = some first →
        ∃ e, m' (getHash first) = some e ∧ e.pprev = some first.hashPrevBlock ∧
          e.nHeight = ep.nHeight + 1 := by
      intro first h0
      exact P.child (List.mem_of_getElem? h0) (by rw [hlink.head h0]; exact P.keeps p ep hp)
    cases i with
    | zero => exact hfirst header hi
    | succ i =>
      obtain ⟨e, he, hheight, hprev⟩ := P.heights hlink (ep.nHeight + 1) (fun first h0 => by
        obtain ⟨e, he, -, hheight⟩ := hfirst first h0
        exact ⟨e, he, hheight⟩) hi
      exact ⟨e, he, hprev (by omega), hheight⟩

/-- A message that starts with a genesis block is hashed under the seeds of its own
chain, all of them inside the message.
SOURCE: src/src/validation.cpp:4722-4776 -/
theorem PeerChain.batchSeed_root (hlink : HashLinked getHash 0#256 headers) {i : ℕ}
    (hi : headers[i]? = some header) :
    batchSeed getHash m headers none (0 + i) i = parentSeed m' header := by
  have hfirst : ∀ first, headers[0]? = some first →
      ∃ e, m' (getHash first) = some e ∧ e.nHeight = 0 := by
    intro first h0
    obtain ⟨e, he, hprev⟩ := P.entry first (List.mem_of_getElem? h0)
    rw [hlink.head h0, if_pos rfl] at hprev
    exact ⟨e, he, P.tree.root he hprev⟩
  cases i with
  | zero =>
    rw [parentSeed, hlink.head hi, BlockMap.height, P.null]
    rfl
  | succ i =>
    obtain ⟨c, hc, hparent⟩ := hlink.link_succ hi
    have hlt := (List.getElem?_eq_some_iff.mp hc).1
    obtain ⟨e, he, hheight, -⟩ := P.heights hlink 0 hfirst hc
    rw [Nat.zero_add] at hheight
    set k := i / randomXEpoch * randomXEpoch with hk
    have hkle : k ≤ i := Nat.div_mul_le_self _ _
    have hseedHeight : ((0 : ℤ) + ((i + 1 : ℕ) : ℤ) - 1).tdiv randomXEpoch * randomXEpoch =
        (k : ℕ) := by
      rw [show (0 : ℤ) + ((i + 1 : ℕ) : ℤ) - 1 = ((i : ℕ) : ℤ) by omega, ← Int.ofNat_tdiv, hk]
      push_cast
      rfl
    rw [parentSeed, hparent, epochSeed, BlockMap.height_of he, hheight, ← hk, batchSeed]
    simp only [hseedHeight, Option.filter_none]
    by_cases hzero : k = 0
    · simp [hzero]
    · obtain ⟨b, hb⟩ : ∃ b, headers[k]? = some b := ⟨_, List.getElem?_eq_getElem (by omega)⟩
      have hup := hlink.up_header (m := m') (fun j b hj hb => by
        obtain ⟨e, he, -, hprev⟩ := P.heights hlink 0 hfirst hb
        rw [BlockMap.prev_of he, hprev hj]) hc (d := i - k)
        (by rw [show i - (i - k) = k by omega]; exact hb) (by omega)
      rw [if_neg (by exact_mod_cast hzero), if_neg hzero, if_neg (by omega),
        show i + 1 - (0 + ((i + 1 : ℕ) : ℤ) - k).toNat = k by omega, hb, ancestorId,
        BlockMap.height_of he, hheight, if_pos hkle, hup]
      rfl

end

variable {σ : Type} {getPoWHash : PoWHash σ} {I : σ → Prop}
  {rx : Uint256 → CBlockHeader → Uint256} {params : ConsensusParams}

theorem HashesAs.powOk (H : HashesAs getPoWHash I rx) {block : CBlockHeader} {seed : Uint256}
    {s : σ} (hs : I s) (hmet : PowMet rx params seed block) :
    (checkHeaderPoW getPoWHash params block seed s).1 = true := by
  refine (checkProofOfWork_iff _ _ _).mpr ?_
  rw [H.hash block seed s hs]
  exact hmet

theorem HashesAs.checkEach_ok (H : HashesAs getPoWHash I rx) {f : CBlockHeader → Option Uint256}
    (hmet : ∀ header ∈ headers, ∃ seed, f header = some seed ∧ PowMet rx params seed header)
    {s : σ} (hs : I s) : (checkEach getPoWHash params f headers s).1 = true := by
  induction headers generalizing s with
  | nil => rfl
  | cons header rest ih =>
    rw [List.forall_mem_cons] at hmet
    obtain ⟨⟨seed, hseed, hpow⟩, hrest⟩ := hmet
    rw [checkEach_cons_some _ _ hseed, if_pos (H.powOk hs hpow)]
    exact ih hrest (H.keeps header seed s hs)

/-- **An honest message whose first parent is known, or that starts with a genesis
block, passes the batch check.**
SOURCE: src/src/validation.cpp:4686-4790 -/
theorem PeerChain.hasValidProofOfWork_ok {bm : BlockManager} (T : TreeInv bm.m_block_index)
    {first : CBlockHeader} {rest : List CBlockHeader}
    (P : PeerChain getHash bm.m_block_index m' (first :: rest))
    (hlink : HashLinked getHash first.hashPrevBlock (first :: rest))
    (hpow : MeetsOwnPow rx params m' (first :: rest)) (H : HashesAs getPoWHash I rx) {s : σ}
    (hs : I s)
    (hparent : (bm.m_block_index first.hashPrevBlock).isSome ∨ first.hashPrevBlock = 0#256) :
    (hasValidProofOfWork getPoWHash params getHash bm (first :: rest) s).1 = true := by
  cases hp : bm.m_block_index first.hashPrevBlock with
  | some ep =>
    rw [(P.carries hp hlink).hasValidProofOfWork_eq getPoWHash params T hp hlink]
    exact H.checkEach_ok hpow hs
  | none =>
    have hnull : first.hashPrevBlock = 0#256 := by
      rcases hparent with hsome | hnull
      · rw [hp] at hsome
        cases hsome
      · exact hnull
    rw [hnull] at hlink hp
    have hloop := hasValidProofOfWorkLoop_eq getPoWHash params
      (fun i header hi => P.batchSeed_root hlink hi) (first :: rest) 0 rfl 0#256 hlink s
    have hlookup : bm.lookupBlockIndex 0#256 = none := hp
    have hisNull : Uint256.isNull 0#256 = true := rfl
    simp only [hasValidProofOfWork, hnull, hlookup, hisNull, Bool.not_true, Bool.and_false,
      Bool.false_and, Bool.false_eq_true, if_false, Option.elim_none]
    rw [Nat.cast_zero, add_zero] at hloop
    rw [hloop]
    exact H.checkEach_ok hpow hs

theorem HashLinked.continuous {p : Uint256} (hlink : HashLinked getHash p headers) :
    headersContinueFrom getHash p headers = true := by
  induction headers generalizing p with
  | nil => rfl
  | cons header rest ih =>
    rw [headersContinueFrom, hlink.1]
    simpa using ih hlink.2

end Honest

/-! ## The events of a message -/

/-- The two verdicts of `CheckHeadersPoW`. -/
def powVerdict (e : HeadersEvent) : Prop :=
  e = .misbehaving "header with invalid proof of work" ∨
    e = .misbehaving "non-continuous headers sequence"

/-! ## The index -/

section Index

variable {σ : Type} (getPoWHash : PoWHash σ) {params : ConsensusParams}
  {getHash : CBlockHeader → Uint256} {genesis : CBlockHeader} {bm : BlockManager}

theorem Built.genesis_mem (hbm : Built getHash genesis bm) :
    (bm.m_block_index (getHash genesis)).isSome := by
  induction hbm with
  | genesis hhash hadd =>
    rcases addToBlockIndex_cases hadd with ⟨hsome, -⟩ | ⟨-, work, hm⟩
    · cases hsome
    · rw [hm, BlockMap.insert_self]
      rfl
  | add hbm hparent hadd ih =>
    rcases addToBlockIndex_cases hadd with ⟨-, rfl⟩ | ⟨hfresh, work, hm⟩
    · exact ih
    · obtain ⟨e, he⟩ := Option.isSome_iff_exists.mp ih
      rw [hm, BlockMap.insert_of_mem hfresh he]
      rfl

/-- **`AcceptBlockHeader` leaves an index that `AddToBlockIndex` builds.**
SOURCE: src/src/validation.cpp:5010-5080 -/
theorem acceptBlockHeader_built (hgenesis : params.hashGenesisBlock = getHash genesis)
    (hbm : Built getHash genesis bm) (now : ℤ) (min_pow_checked : Bool) (block : CBlockHeader)
    (s : σ) :
    Built getHash genesis
      (acceptBlockHeader getPoWHash params getHash now min_pow_checked block bm s).2.1 := by
  rcases hr : acceptBlockHeader getPoWHash params getHash now min_pow_checked block bm s with
    ⟨r, bm', s'⟩
  rcases Analysis.acceptBlockHeader_cases hr with
    ⟨hsame, -⟩ | ⟨hfresh, hadd, -, hnew | ⟨e, he, -⟩⟩
  · obtain rfl : bm' = bm := hsame
    exact hbm
  · -- the genesis block is known
    have hmem := hbm.genesis_mem
    rw [← hgenesis, ← hnew, hfresh] at hmem
    cases hmem
  · exact hbm.add (Option.isSome_of_eq_some he) hadd

theorem processNewBlockHeaders_built (hgenesis : params.hashGenesisBlock = getHash genesis)
    (hbm : Built getHash genesis bm) (now : ℤ) (min_pow_checked : Bool)
    (headers : List CBlockHeader) (ppindex : Option Uint256) (s : σ) :
    Built getHash genesis
      (processNewBlockHeaders getPoWHash params getHash now min_pow_checked headers ppindex bm
        s).2.2.1 := by
  induction headers generalizing ppindex bm s with
  | nil => exact hbm
  | cons header rest ih =>
    have hstep := acceptBlockHeader_built getPoWHash hgenesis hbm now min_pow_checked header s
    unfold processNewBlockHeaders
    dsimp only
    split
    · exact hstep
    · exact hstep
    · exact ih hstep _ _

end Index

section Events

variable {σ τ : Type} (ctx : HeadersContext σ τ) (genesis : CBlockHeader)

/-- `n'` comes after `n`: more events, none of them a verdict of `CheckHeadersPoW`, and an
index built from the same genesis. -/
structure Follows (n n' : HeadersNode σ τ) : Prop where
  events : ∃ new, n'.events = n.events ++ new ∧ ∀ e ∈ new, ¬ powVerdict e
  built : Built ctx.getHash genesis n.bm → Built ctx.getHash genesis n'.bm

variable {ctx genesis} {n n' n'' : HeadersNode σ τ}

theorem Follows.of_eq (hevents : n'.events = n.events) (hbm : n'.bm = n.bm) :
    Follows ctx genesis n n' :=
  ⟨⟨[], by rw [hevents, List.append_nil], by simp⟩, fun h => by rwa [hbm]⟩

theorem Follows.trans (h : Follows ctx genesis n n') (h' : Follows ctx genesis n' n'') :
    Follows ctx genesis n n'' := by
  obtain ⟨⟨new, hnew, hq⟩, hbm⟩ := h
  obtain ⟨⟨new', hnew', hq'⟩, hbm'⟩ := h'
  exact ⟨⟨new ++ new', by rw [hnew', hnew, List.append_assoc], List.forall_mem_append.2 ⟨hq, hq'⟩⟩,
    fun h => hbm' (hbm h)⟩

theorem Follows.emit {e : HeadersEvent} (he : ¬ powVerdict e) :
    Follows ctx genesis n (n.emit e) :=
  ⟨⟨[e], rfl, by simpa using he⟩, fun h => h⟩

theorem Follows.ite {c : Prop} [Decidable c] (h : Follows ctx genesis n n')
    (h' : Follows ctx genesis n n'') : Follows ctx genesis n (if c then n' else n'') := by
  split
  · exact h
  · exact h'

theorem Follows.mem (h : Follows ctx genesis n n') {e : HeadersEvent} (he : e ∈ n.events) :
    e ∈ n'.events := by
  obtain ⟨⟨new, hnew, -⟩, -⟩ := h
  rw [hnew]
  exact List.mem_append_left _ he

variable (ctx genesis)

theorem maybeSendGetHeaders_follows (locator : CBlockLocator) (n : HeadersNode σ τ) :
    Follows ctx genesis n (maybeSendGetHeaders ctx locator n).2 := by
  unfold maybeSendGetHeaders
  split
  · exact (Follows.emit (by simp [powVerdict])).trans (.of_eq rfl rfl)
  · exact .of_eq rfl rfl

/-- A request goes out unless one went out in the last two minutes.
SOURCE: src/src/net_processing.cpp:3063-3078 -/
theorem maybeSendGetHeaders_sends (locator : CBlockLocator)
    (hlate : ctx.now - n.peer.m_last_getheaders_timestamp > HEADERS_RESPONSE_TIME) :
    .getHeaders locator ∈ (maybeSendGetHeaders ctx locator n).2.events := by
  rw [maybeSendGetHeaders, if_pos hlate]
  exact List.mem_append_right _ (List.mem_singleton_self _)

theorem handleUnconnectingHeaders_follows (headers : List CBlockHeader) (n : HeadersNode σ τ) :
    Follows ctx genesis n (handleUnconnectingHeaders ctx headers n) := by
  have hcall : Follows ctx genesis n (n.emit (.unconnectingHeaders headers)) :=
    .emit (by simp [powVerdict])
  have hsend := hcall.trans (maybeSendGetHeaders_follows ctx genesis
    (getLocator n.bm.m_block_index (n.bm.best_header.bind n.bm.m_block_index)) _)
  unfold handleUnconnectingHeaders
  cases headers.getLast? with
  | none => exact hsend
  | some last => exact hsend.trans (.of_eq rfl rfl)

theorem afterProcessNextHeaders_follows (result : ProcessingResult) (sync : τ)
    (n : HeadersNode σ τ) :
    Follows ctx genesis n (afterProcessNextHeaders ctx result sync n) := by
  have hfirst : Follows ctx genesis n (if result.success then
      n.mapPeer fun peer => { peer with m_last_getheaders_timestamp := 0 } else n) :=
    .ite (.of_eq rfl rfl) (.of_eq rfl rfl)
  unfold afterProcessNextHeaders
  dsimp only
  generalize (if result.success then
      n.mapPeer fun peer => { peer with m_last_getheaders_timestamp := 0 } else n) = n₁ at hfirst ⊢
  refine (hfirst.trans (.ite ?_ (.of_eq rfl rfl))).trans (.of_eq rfl rfl)
  exact maybeSendGetHeaders_follows ctx genesis _ n₁

theorem isContinuation_follows (headers : List CBlockHeader) (n : HeadersNode σ τ) :
    Follows ctx genesis n (isContinuationOfLowWorkHeadersSync ctx headers n).2.2 := by
  unfold isContinuationOfLowWorkHeadersSync
  cases n.peer.m_headers_sync with
  | none => exact .of_eq rfl rfl
  | some sync =>
    exact (Follows.emit (by simp [powVerdict])).trans
      (afterProcessNextHeaders_follows ctx genesis _ _ _)

variable {headers : List CBlockHeader}

/-- A sync in progress is handed the headers.
SOURCE: src/src/net_processing.cpp:2918-2922 -/
theorem isContinuation_calls (hsync : n.peer.m_headers_sync.isSome) :
    .processNextHeaders headers (headers.length == ctx.max_headers_result) ∈
      (isContinuationOfLowWorkHeadersSync ctx headers n).2.2.events := by
  obtain ⟨sync, hsync⟩ := Option.isSome_iff_exists.mp hsync
  unfold isContinuationOfLowWorkHeadersSync
  rw [hsync]
  apply (afterProcessNextHeaders_follows ctx mainGenesis _ _ _).mem
  exact List.mem_append_right _ (List.mem_singleton_self _)

theorem tryLowWorkHeadersSync_follows (start : CBlockIndex) (headers : List CBlockHeader)
    (n : HeadersNode σ τ) :
    Follows ctx genesis n (tryLowWorkHeadersSync ctx start headers n).2 := by
  unfold tryLowWorkHeadersSync
  split
  · exact .of_eq rfl rfl
  · exact .of_eq rfl rfl
  · split
    · split
      · dsimp only
        refine Follows.trans ?_ (isContinuation_follows ctx genesis headers _)
        exact .of_eq rfl rfl
      · exact .of_eq rfl rfl
    · exact .of_eq rfl rfl

variable {genesis}

/-- Putting the headers into the index.
SOURCE: src/src/net_processing.cpp:3336-3390 -/
theorem processConnectedHeaders_follows
    (hgenesis : ctx.params.hashGenesisBlock = ctx.getHash genesis) (nCount : ℕ)
    (via_compact_block have_headers_sync received_new_header : Bool)
    (headers : List CBlockHeader) (n : HeadersNode σ τ) :
    Follows ctx genesis n (processConnectedHeaders ctx nCount via_compact_block have_headers_sync
      received_new_header headers n).2 := by
  obtain ⟨⟨processed, pindexLast, bm, pow⟩, hrun⟩ : ∃ r, processNewBlockHeaders ctx.getPoWHash
    ctx.params ctx.getHash ctx.now true headers none n.bm n.pow = r := ⟨_, rfl⟩
  have hbase : Follows ctx genesis n { n with bm := bm, pow := pow } := by
    refine ⟨⟨[], by simp, by simp⟩, fun hbm => ?_⟩
    have hbuilt := processNewBlockHeaders_built ctx.getPoWHash hgenesis hbm ctx.now true headers
      none n.pow
    rwa [hrun] at hbuilt
  unfold processConnectedHeaders
  rw [hrun]
  dsimp only
  cases processed with
  | error f => exact hbase
  | ok result =>
    cases result with
    | error i =>
      refine hbase.trans (.ite (.emit ?_) (.of_eq rfl rfl))
      simp [powVerdict]
    | ok _ =>
      cases pindexLast with
      | none => exact hbase
      | some last =>
        refine (hbase.trans (.ite (maybeSendGetHeaders_follows ctx genesis _ _)
          (.of_eq rfl rfl))).trans (.emit ?_)
        simp [powVerdict]

theorem processRemainingHeaders_follows
    (hgenesis : ctx.params.hashGenesisBlock = ctx.getHash genesis) (nCount : ℕ)
    (via_compact_block already_validated_work : Bool) (headers : List CBlockHeader)
    (n : HeadersNode σ τ) :
    Follows ctx genesis n (processRemainingHeaders ctx nCount via_compact_block
      already_validated_work headers n).2 := by
  unfold processRemainingHeaders
  cases headers.head? with
  | none => exact .of_eq rfl rfl
  | some first =>
    cases headers.getLast? with
    | none => exact .of_eq rfl rfl
    | some last =>
      dsimp only
      cases n.bm.lookupBlockIndex first.hashPrevBlock with
      | none => exact handleUnconnectingHeaders_follows ctx genesis headers n
      | some start =>
        dsimp only
        have hmap : Follows ctx genesis n
            (n.mapPeer fun peer => { peer with m_last_getheaders_timestamp := 0 }) :=
          .of_eq rfl rfl
        generalize (n.mapPeer fun peer => { peer with m_last_getheaders_timestamp := 0 }) =
          n₁ at hmap ⊢
        have hstop : ∀ validated : Bool, Follows ctx genesis n
            (if validated then ((.ok false : Except Fault Bool), n₁)
              else tryLowWorkHeadersSync ctx start headers n₁).2 := by
          intro validated
          split
          · exact hmap
          · exact hmap.trans (tryLowWorkHeadersSync_follows ctx genesis start headers n₁)
        split
        · exact hstop _
        · exact hstop _
        · exact (hstop _).trans (processConnectedHeaders_follows ctx hgenesis _ _ _ _ _ _)

/-- `CheckHeadersPoW` when the batch check passes, and when it fails.
SOURCE: src/src/net_processing.cpp:2848-2863 -/
theorem checkHeadersPoW_valid
    (hvalid : (hasValidProofOfWork ctx.getPoWHash ctx.params ctx.getHash n.bm headers n.pow).1 = true)
    (hcont : checkHeadersAreContinuous ctx headers = true) :
    (checkHeadersPoW ctx headers n).1 = true ∧ (checkHeadersPoW ctx headers n).2.bm = n.bm ∧
      (checkHeadersPoW ctx headers n).2.peer = n.peer ∧
      (checkHeadersPoW ctx headers n).2.events = n.events := by
  simp [checkHeadersPoW, hvalid, hcont]

theorem checkHeadersPoW_invalid (hinvalid :
      (hasValidProofOfWork ctx.getPoWHash ctx.params ctx.getHash n.bm headers n.pow).1 = false) :
    (checkHeadersPoW ctx headers n).1 = false ∧
      .misbehaving "header with invalid proof of work" ∈ (checkHeadersPoW ctx headers n).2.events := by
  simp [checkHeadersPoW, hinvalid, HeadersNode.emit]

end Events

/-! ## Honest messages and the verdict -/

section Verdict

variable {σ τ : Type} (ctx : HeadersContext σ τ)

/-- Whether the sync of the peer, if there is one, takes the headers. -/
def syncTakes (peer : Peer τ) (headers : List CBlockHeader) : Bool :=
  peer.m_headers_sync.elim false fun sync =>
    (ctx.sync.processNextHeaders sync headers
      (headers.length == ctx.max_headers_result)).1.success

/-- A message is handled as the headers sync expects: `CheckHeadersPoW` does not punish the
peer, a sync in progress is handed the headers, and headers that connect to nothing reach
`HandleUnconnectingHeaders`, which asks for the missing ones unless a request went out in the
last two minutes. -/
structure HeadersHandled (headers : List CBlockHeader) (n n' : HeadersNode σ τ) : Prop where
  notPunished : ∀ e ∈ n'.events, ¬ powVerdict e
  sync : headers ≠ [] → n.peer.m_headers_sync.isSome →
    .processNextHeaders headers (headers.length == ctx.max_headers_result) ∈ n'.events
  unconnecting : ∀ first, headers.head? = some first →
    n.bm.m_block_index first.hashPrevBlock = none → syncTakes ctx n.peer headers = false →
      .unconnectingHeaders headers ∈ n'.events ∧
        (ctx.now - n.peer.m_last_getheaders_timestamp > HEADERS_RESPONSE_TIME →
          ∃ locator, .getHeaders locator ∈ n'.events)

variable {ctx} {n : HeadersNode σ τ} {headers : List CBlockHeader}

/-- A sync that does not take the headers leaves them as they are, and the time of
the last request too unless it makes one itself.
SOURCE: src/src/net_processing.cpp:2918-2944, 2990-2997 -/
theorem isContinuation_untaken (hno : syncTakes ctx n.peer headers = false) :
    ∃ n', isContinuationOfLowWorkHeadersSync ctx headers n = (false, headers, n') ∧
      n'.bm = n.bm ∧
      (n'.peer.m_last_getheaders_timestamp = n.peer.m_last_getheaders_timestamp ∨
        ∃ locator, .getHeaders locator ∈ n'.events) := by
  unfold syncTakes at hno
  unfold isContinuationOfLowWorkHeadersSync
  cases hsync : n.peer.m_headers_sync with
  | none => exact ⟨n, rfl, rfl, .inl rfl⟩
  | some sync =>
    rw [hsync, Option.elim_some] at hno
    simp only [hno, Bool.false_eq_true, if_false]
    refine ⟨_, rfl, ?_⟩
    simp only [afterProcessNextHeaders, hno, Bool.false_eq_true, if_false]
    split
    · unfold maybeSendGetHeaders
      split
      · exact ⟨rfl, .inr ⟨_, List.mem_append_right _ (List.mem_singleton_self _)⟩⟩
      · exact ⟨rfl, .inl rfl⟩
    · exact ⟨rfl, .inl rfl⟩

/-- Headers that connect to nothing are followed up with a request.
SOURCE: src/src/net_processing.cpp:2879-2904 -/
theorem handleUnconnectingHeaders_asks (ctx : HeadersContext σ τ) (headers : List CBlockHeader)
    (n : HeadersNode σ τ) :
    .unconnectingHeaders headers ∈ (handleUnconnectingHeaders ctx headers n).events ∧
      (ctx.now - n.peer.m_last_getheaders_timestamp > HEADERS_RESPONSE_TIME →
        ∃ locator, .getHeaders locator ∈ (handleUnconnectingHeaders ctx headers n).events) := by
  have hcall : .unconnectingHeaders headers ∈ (n.emit (.unconnectingHeaders headers)).events :=
    List.mem_append_right _ (List.mem_singleton_self _)
  unfold handleUnconnectingHeaders
  dsimp only
  generalize getLocator _ _ = locator
  have hkeep := (maybeSendGetHeaders_follows ctx mainGenesis locator
    (n.emit (.unconnectingHeaders headers))).mem hcall
  cases headers.getLast? with
  | none | some _ =>
    exact ⟨hkeep, fun hlate => ⟨locator, maybeSendGetHeaders_sends ctx locator hlate⟩⟩

variable {first : CBlockHeader}

/-- An unknown parent, other than the null hash, makes the batch check fail at once.
SOURCE: src/src/validation.cpp:4695-4704 -/
theorem hasValidProofOfWork_unknown {getPoWHash : PoWHash σ} {params : ConsensusParams}
    {getHash : CBlockHeader → Uint256} {genesis : CBlockHeader} {bm : BlockManager}
    (hgenesis : params.hashGenesisBlock = getHash genesis) (hbm : Built getHash genesis bm)
    (rest : List CBlockHeader)
    (hunknown : bm.m_block_index first.hashPrevBlock = none)
    (hnull : first.hashPrevBlock ≠ 0#256) (s : σ) :
    hasValidProofOfWork getPoWHash params getHash bm (first :: rest) s = (false, s) := by
  have hne : first.hashPrevBlock ≠ params.hashGenesisBlock := by
    intro heq
    have hmem := hbm.genesis_mem
    rw [← hgenesis, ← heq, hunknown] at hmem
    cases hmem
  have hnot : first.hashPrevBlock.isNull = false := by
    simpa [Uint256.isNull] using hnull
  have hlookup : bm.lookupBlockIndex first.hashPrevBlock = none := hunknown
  simp [hasValidProofOfWork, hlookup, hnot, hne]

theorem processHeadersMessage_cons (first : CBlockHeader) (rest : List CBlockHeader)
    (via_compact_block : Bool) (n : HeadersNode σ τ) :
    processHeadersMessage ctx (first :: rest) via_compact_block n =
      if !(checkHeadersPoW ctx (first :: rest) n).1 then
        (.ok (), (checkHeadersPoW ctx (first :: rest) n).2)
      else
        let r := isContinuationOfLowWorkHeadersSync ctx (first :: rest)
          (checkHeadersPoW ctx (first :: rest) n).2
        processRemainingHeaders ctx (first :: rest).length via_compact_block r.1 r.2.1 r.2.2 := by
  rfl

/-- A message that the batch check fails is punished.
SOURCE: src/src/net_processing.cpp:2851-2855, 3242-3248 -/
theorem processHeadersMessage_punished {rest : List CBlockHeader}
    (hinvalid : (hasValidProofOfWork ctx.getPoWHash ctx.params ctx.getHash n.bm (first :: rest)
      n.pow).1 = false) (via_compact_block : Bool) :
    .misbehaving "header with invalid proof of work" ∈
      (processHeadersMessage ctx (first :: rest) via_compact_block n).2.events := by
  obtain ⟨hfalse, hmem⟩ := checkHeadersPoW_invalid ctx hinvalid
  rw [processHeadersMessage_cons, hfalse, Bool.not_false, if_pos rfl]
  exact hmem

/-- A message that passes `CheckHeadersPoW` is handled as it should be.
SOURCE: src/src/net_processing.cpp:3250-3334 -/
theorem processHeadersMessage_handled {genesis : CBlockHeader}
    (hgenesis : ctx.params.hashGenesisBlock = ctx.getHash genesis) (hlog : n.events = [])
    {rest : List CBlockHeader}
    (hvalid : (hasValidProofOfWork ctx.getPoWHash ctx.params ctx.getHash n.bm (first :: rest)
      n.pow).1 = true)
    (hcont : checkHeadersAreContinuous ctx (first :: rest) = true) (via_compact_block : Bool) :
    HeadersHandled ctx (first :: rest) n
      (processHeadersMessage ctx (first :: rest) via_compact_block n).2 := by
  obtain ⟨hok, hbm₁, hpeer₁, hevents₁⟩ := checkHeadersPoW_valid ctx hvalid hcont
  rw [processHeadersMessage_cons, hok, Bool.not_true, if_neg (by simp)]
  generalize (checkHeadersPoW ctx (first :: rest) n).2 = n₁ at hbm₁ hpeer₁ hevents₁ ⊢
  dsimp only
  refine ⟨?_, ?_, ?_⟩
  · obtain ⟨⟨new, hnew, hq⟩, -⟩ := (isContinuation_follows ctx genesis (first :: rest) n₁).trans
      (processRemainingHeaders_follows ctx hgenesis (first :: rest).length via_compact_block _ _ _)
    rw [hnew, hevents₁, hlog, List.nil_append]
    exact hq
  · intro _ hsync
    rw [← hpeer₁] at hsync
    exact (processRemainingHeaders_follows ctx hgenesis _ _ _ _ _).mem
      (isContinuation_calls ctx hsync)
  · intro first' hfirst hunknown hno
    cases hfirst
    rw [← hpeer₁] at hno
    obtain ⟨n₂, hrun, hbm₂, htime⟩ := isContinuation_untaken hno
    have hlookup : n₂.bm.lookupBlockIndex first.hashPrevBlock = none := by
      rw [hbm₂, hbm₁]
      exact hunknown
    obtain ⟨last, hlast⟩ : ∃ last, (first :: rest).getLast? = some last :=
      ⟨_, List.getLast?_eq_some_getLast (List.cons_ne_nil _ _)⟩
    rw [hrun]
    simp only [processRemainingHeaders, List.head?_cons, hlast, hlookup]
    obtain ⟨hcall, hasks⟩ := handleUnconnectingHeaders_asks ctx (first :: rest) n₂
    refine ⟨hcall, fun hlate => ?_⟩
    rcases htime with htime | ⟨locator, hsent⟩
    · exact hasks (by rw [htime, hpeer₁]; exact hlate)
    · exact ⟨locator, (handleUnconnectingHeaders_follows ctx genesis _ n₂).mem hsent⟩

/-- **An honest message is handled exactly when the parent of its first header is in
the index** (or it starts with a genesis block).  Otherwise the peer is punished, also in the
middle of a low-work sync, whose headers are kept out of the index.
SOURCE: src/src/net_processing.cpp:2848-2863, 3216-3334, src/src/validation.cpp:4686-4704 -/
theorem honest_headers_handled_iff {genesis : CBlockHeader}
    (hgenesis : ctx.params.hashGenesisBlock = ctx.getHash genesis)
    (hbm : Built ctx.getHash genesis n.bm) (hlog : n.events = []) {I : σ → Prop}
    {rx : Uint256 → CBlockHeader → Uint256} (H : HashesAs ctx.getPoWHash I rx) (hs : I n.pow)
    {m' : BlockMap} (P : PeerChain ctx.getHash n.bm.m_block_index m' headers)
    (hlink : ∀ first, headers.head? = some first →
      HashLinked ctx.getHash first.hashPrevBlock headers)
    (hpow : MeetsOwnPow rx ctx.params m' headers) (via_compact_block : Bool) :
    HeadersHandled ctx headers n (processHeadersMessage ctx headers via_compact_block n).2 ↔
      ∀ first, headers.head? = some first →
        (n.bm.m_block_index first.hashPrevBlock).isSome ∨ first.hashPrevBlock = 0#256 := by
  cases headers with
  | nil =>
    refine iff_of_true ⟨?_, fun h => absurd rfl h, fun first h => by cases h⟩
      (fun first h => by cases h)
    intro e he
    rw [processHeadersMessage, List.isEmpty_nil, if_pos rfl] at he
    change e ∈ n.events at he
    rw [hlog] at he
    cases he
  | cons first rest =>
    have hlinked := hlink first rfl
    constructor
    · intro hhandled first' hfirst
      cases hfirst
      by_contra hno
      rw [not_or, Bool.not_eq_true, Option.isSome_eq_false_iff, Option.isNone_iff_eq_none] at hno
      refine hhandled.notPunished _ (processHeadersMessage_punished ?_ via_compact_block)
        (.inl rfl)
      rw [hasValidProofOfWork_unknown hgenesis hbm rest hno.1 hno.2]
    · intro hknown
      apply processHeadersMessage_handled hgenesis hlog
      · exact P.hasValidProofOfWork_ok hbm.treeInv hlinked hpow H hs (hknown first rfl)
      · rw [checkHeadersAreContinuous, headersContinueFrom]
        simpa [Uint256.isNull] using hlinked.2.continuous

end Verdict

/-! ## The launch chain -/

/-- A node at the launch of mainnet, with a sync that takes whatever it is given and asks for
more. -/
def launchContext : HeadersContext Unit Unit where
  getPoWHash := pureHash fun _ _ => 0#256
  params := { mainParams with hashGenesisBlock := nonceHash mainGenesis }
  getHash := nonceHash
  sync :=
    { create := fun _ _ => ()
      processNextHeaders := fun _ _ _ => (⟨[], true, true⟩, ())
      nextHeadersRequestLocator := fun _ => [nonceHash mainGenesis]
      isFinal := fun _ => false }
  now := 1767000000 * clockTicks
  max_headers_result := 2000
  minimumChainWork := .ofUInt64 0
  activeChain := [nonceHash mainGenesis]

theorem hashesAs_pure (rx : Uint256 → CBlockHeader → Uint256) :
    HashesAs (pureHash fun block seed => rx seed block) (fun _ => True) rx where
  keeps _ _ _ _ := trivial
  hash _ _ _ _ := rfl

theorem nonceHash_ne_null (block : CBlockHeader) : nonceHash block ≠ 0#256 := by
  intro heq
  have hlt := block.nNonce.isLt
  have hnat := congrArg BitVec.toNat heq
  rw [nonceHash, BitVec.toNat_ofNat, Nat.mod_eq_of_lt (by omega)] at hnat
  simp at hnat

theorem Extends.launch_peerChain {nBits : BitVec 32} {k : ℕ} {m₀ m : BlockMap} {e₀ : CBlockIndex}
    (E : Extends nonceHash (launchChain nBits k) 0 m₀ m)
    (hm₀ : m₀ = BlockMap.insert (fun _ => none) (nonceHash mainGenesis) e₀) (hk : k < 2 ^ 28)
    {headers : List CBlockHeader} (hsub : ∀ header ∈ headers, header ∈ launchChain nBits k) :
    PeerChain nonceHash m₀ m headers where
  tree := E.tree
  keeps := E.keeps
  null := by
    rw [← Option.not_isSome_iff_eq_none]
    intro hsome
    rcases E.only _ hsome with hold | hnew
    · rw [hm₀, BlockMap.insert_of_ne _ _ (nonceHash_ne_null _).symm] at hold
      cases hold
    · obtain ⟨b, -, hb⟩ := List.mem_map.mp hnew
      exact nonceHash_ne_null b hb
  entry header hmem := by
    obtain ⟨i, hi⟩ := List.mem_iff_getElem?.mp (hsub header hmem)
    obtain ⟨e, he, -, hprev, -⟩ := E.entry i header hi
    have hlt := (List.getElem?_eq_some_iff.mp hi).1
    rw [launchChain, List.length_map, List.length_range'] at hlt
    rw [launchChain_getElem nBits hlt] at hi
    cases hi
    have hne : (launchBlock nBits (i + 1)).hashPrevBlock ≠ 0#256 := by
      intro hnull
      have hnat := congrArg BitVec.toNat hnull
      change (launchHash i).toNat = 0 at hnat
      rw [launchHash_toNat (by omega)] at hnat
      split at hnat <;> omega
    exact ⟨e, he, by rw [if_neg hne]; exact hprev⟩

/-- The first blocks of the launch chain need no seed block, and the null hash meets
every target. -/
theorem Extends.launch_meetsOwnPow {k : ℕ} {m₀ m : BlockMap} {e₀ : CBlockIndex}
    (E : Extends nonceHash (launchChain 0x1f0fffff#32 k) 0 m₀ m) (hp : m₀ (launchHash 0) = some e₀)
    (hheight : e₀.nHeight = 0) (hk : k < 2048) {headers : List CBlockHeader}
    (hsub : ∀ header ∈ headers, header ∈ launchChain 0x1f0fffff#32 k) :
    MeetsOwnPow (fun _ _ => 0#256) launchContext.params m headers := by
  intro header hmem
  obtain ⟨i, hi⟩ := List.mem_iff_getElem?.mp (hsub header hmem)
  have hlt := (List.getElem?_eq_some_iff.mp hi).1
  rw [launchChain, List.length_map, List.length_range'] at hlt
  rw [← hheight] at E
  obtain ⟨e, he, hparent⟩ := E.carries.parent_entry hp
    (hashLinked_launch (s := 1) (n := k) (by omega) (by omega)) hi
  rw [launchChain_getElem _ hlt] at hi
  cases hi
  obtain ⟨t, ht⟩ : ∃ t, deriveTarget 0x1f0fffff#32 launchContext.params.powLimit = some t :=
    Option.isSome_iff_exists.mp (by decide +kernel)
  refine ⟨0#256, ?_, t, ht, Nat.zero_le _⟩
  rw [parentSeed, BlockMap.height_of he, epochSeed, if_pos]
  rw [Nat.div_eq_of_lt (by rw [hparent, hheight, randomXEpoch]; omega), Nat.zero_mul]

/-- **The second message of a low-work sync is punished.**  The node knows the
genesis block alone and is in the middle of a sync, which keeps block 1 out of the index; the
peer goes on with block 2, which meets its target; `CheckHeadersPoW` punishes the peer and the
sync never sees the header.
SOURCE: src/src/net_processing.cpp:2848-2863, src/src/validation.cpp:4695-4704 -/
theorem second_sync_message_punished :
    ∃ (bm : BlockManager) (m' : BlockMap), Built nonceHash mainGenesis bm ∧
      PeerChain nonceHash bm.m_block_index m' [launchBlock 0x1f0fffff#32 2] ∧
      MeetsOwnPow (fun _ _ => 0#256) launchContext.params m' [launchBlock 0x1f0fffff#32 2] ∧
      (processHeadersMessage launchContext [launchBlock 0x1f0fffff#32 2] false
        ⟨bm, (), { m_headers_sync := some () }, []⟩).2.events =
          [.misbehaving "header with invalid proof of work"] := by
  obtain ⟨bm, e₀, hbuilt, hm₀, -, hheight⟩ :=
    exists_built_genesis nonceHash mainGenesis (by decide)
  obtain ⟨bm', -, E⟩ := hbuilt.exists_launch hm₀ hheight 0x1f0fffff#32 (show 2 < 2 ^ 28 by norm_num)
  have hsub : ∀ header ∈ [launchBlock 0x1f0fffff#32 2], header ∈ launchChain 0x1f0fffff#32 2 := by
    simp [launchChain, List.range']
  have hp : bm.m_block_index (launchHash 0) = some e₀ := by
    rw [hm₀]
    exact BlockMap.insert_self _ _ _
  have hunknown : bm.m_block_index (launchBlock 0x1f0fffff#32 2).hashPrevBlock = none := by
    rw [hm₀, BlockMap.insert_of_ne _ _ (by decide)]
  refine ⟨bm, bm'.m_block_index, hbuilt, E.launch_peerChain hm₀ (by norm_num) hsub,
    E.launch_meetsOwnPow hp hheight (by norm_num) hsub, ?_⟩
  have hinvalid : hasValidProofOfWork launchContext.getPoWHash launchContext.params
      launchContext.getHash bm [launchBlock 0x1f0fffff#32 2] () = (false, ()) :=
    hasValidProofOfWork_unknown rfl hbuilt [] hunknown (by decide) ()
  rw [processHeadersMessage_cons]
  simp [checkHeadersPoW, hinvalid, HeadersNode.emit]

theorem first_sync_message_handled :
    ∃ bm : BlockManager, Built nonceHash mainGenesis bm ∧
      HeadersHandled launchContext [launchBlock 0x1f0fffff#32 1]
        ⟨bm, (), { m_headers_sync := some () }, []⟩
        (processHeadersMessage launchContext [launchBlock 0x1f0fffff#32 1] false
          ⟨bm, (), { m_headers_sync := some () }, []⟩).2 := by
  obtain ⟨bm, e₀, hbuilt, hm₀, -, hheight⟩ :=
    exists_built_genesis nonceHash mainGenesis (by decide)
  obtain ⟨bm', -, E⟩ := hbuilt.exists_launch hm₀ hheight 0x1f0fffff#32 (show 1 < 2 ^ 28 by norm_num)
  have hsub : ∀ header ∈ [launchBlock 0x1f0fffff#32 1], header ∈ launchChain 0x1f0fffff#32 1 := by
    simp [launchChain, List.range']
  have hp : bm.m_block_index (launchHash 0) = some e₀ := by
    rw [hm₀]
    exact BlockMap.insert_self _ _ _
  refine ⟨bm, hbuilt, (honest_headers_handled_iff (n := ⟨bm, (), { m_headers_sync := some () }, []⟩)
    rfl hbuilt rfl (hashesAs_pure fun _ _ => 0#256) trivial
    (E.launch_peerChain hm₀ (by norm_num) hsub) ?_
    (E.launch_meetsOwnPow hp hheight (by norm_num) hsub) false).mpr ?_⟩
  · rintro first ⟨⟩
    exact ⟨rfl, trivial⟩
  · rintro first ⟨⟩
    exact .inl (by
      change (bm.m_block_index (launchHash 0)).isSome = true
      rw [hp]
      rfl)

end BitMinti.Model
