import BitMinti.Analysis.HeadersSync

/-!
# An honest peer gets its chain through

A peer serves the same chain in both downloads, cut into messages in any way.  The first
download ends with the first message that reaches the work.  In the second one every bit that is
looked at was stored: the chain received so far is shorter than the one of the first download,
or has the work already.
-/

set_option autoImplicit false

namespace BitMinti.Analysis

open Model Interface BitMinti.Computation Computation.HashChain

variable {getHash : CBlockHeader → Uint256} {c : HeadersSyncSetup}
  {s s' : HeadersSyncState} {seen chain presynced released buffered : List CBlockHeader}

/-! ## Work and bits of parts of the chain -/

theorem reachesWork_of_start {front headers : List CBlockHeader} (hne : front ≠ [])
    (hwork : hasWork c front = true) (h : front <+: headers) : reachesWork c headers = true := by
  rw [reachesWork, List.any_eq_true]
  refine ⟨front, (List.mem_inits _ _).mpr h, ?_⟩
  rw [Bool.and_eq_true]
  exact ⟨by simpa using hne, hwork⟩

theorem commitmentBits_of_start {front headers : List CBlockHeader} (h : front <+: headers) :
    commitmentBits getHash c front <+: commitmentBits getHash c headers := by
  obtain ⟨rest, rfl⟩ := h
  rw [commitmentBits, commitmentBits, samples_append]
  exact List.prefix_append _ _

theorem length_commitmentBits (headers : List CBlockHeader) :
    (commitmentBits getHash c headers).length = (commitmentHeights c headers.length).length := by
  induction headers using List.reverseRecOn with
  | nil => rfl
  | append_singleton headers header ih =>
    rw [commitmentBits_append_singleton, List.length_append, ih, List.length_append,
      commitmentHeights, commitmentHeights, List.length_singleton, List.range'_concat,
      List.filter_append, List.length_append]
    have hheight : c.m_chain_start.nHeight + 1 + 1 * headers.length =
        c.m_chain_start.nHeight + headers.length + 1 := by omega
    rw [hheight, List.filter_singleton]
    by_cases hcommit :
        IsCommitmentHeight c (c.m_chain_start.nHeight + headers.length + 1)
    · rw [if_pos ((commitsAt_natCast c _).mpr hcommit), decide_eq_true hcommit]
      rfl
    · rw [if_neg (fun h => hcommit ((commitsAt_natCast c _).mp h)), decide_eq_false hcommit]
      rfl

/-! ## The first download -/

variable (getHash c) in
/-- The first download of a chain whose last header so far is the end of `seen`. -/
structure Following (seen : List CBlockHeader) (s : HeadersSyncState) : Prop extends
    Presyncing getHash c seen s where
  last : getHash s.m_last_header_received =
    lastHash getHash c.m_chain_start.getBlockHash seen

theorem Following.single (F : Following getHash c seen s) (hdr : CBlockHeader)
    (hfit : c.m_chain_start.nHeight + (seen ++ [hdr]).length < 2 ^ 31)
    (hmax : (commitmentBits getHash c (seen ++ [hdr])).length ≤ c.m_max_commitments) :
    ∃ s', validateAndProcessSingleHeader getHash c hdr s = (true, s') ∧
      Following getHash c (seen ++ [hdr]) s' := by
  rw [List.length_append] at hfit
  obtain ⟨s', hs'⟩ := F.toPresyncing.single_complete hfit hdr hmax
  obtain ⟨P', hlast⟩ := F.toPresyncing.single_sound hfit hdr hs'
  refine ⟨s', hs', P', ?_⟩
  rw [hlast, lastHash_append]
  rfl

variable {headers : List CBlockHeader}

/-- **A message of an honest chain in the first download** is taken; the work decides
which phase comes next.
SOURCE: src/src/headerssync.cpp:136-172 -/
theorem Following.message (F : Following getHash c seen s)
    (hne : headers ≠ []) (hchain : ChainFromStart getHash c (seen ++ headers))
    (hfit : c.m_chain_start.nHeight + (seen ++ headers).length < 2 ^ 31)
    (hmax : (commitmentBits getHash c (seen ++ headers)).length ≤ c.m_max_commitments) :
    ∃ s', validateAndStoreHeadersCommitments getHash c headers s = (true, s') ∧
      if hasWork c (seen ++ headers) = true
      then Redownloading getHash c (seen ++ headers) [] [] s'
      else Following getHash c (seen ++ headers) s' := by
  have hloop : ∃ s', whileAccepted (validateAndProcessSingleHeader getHash c) headers s =
      (true, s') ∧ Following getHash c (seen ++ headers) s' := by
    apply whileAccepted_complete _ headers seen s F rfl
    intro done hdr rest s₁ F₁ hall
    have hfront : done ++ [hdr] <+: seen ++ headers := ⟨rest, by simpa using hall⟩
    apply F₁.single hdr
    · exact Nat.lt_of_le_of_lt (Nat.add_le_add_left hfront.length_le _) hfit
    · exact Nat.le_trans (commitmentBits_of_start hfront).length_le hmax
  obtain ⟨s₁, hrun, F₁⟩ := hloop
  cases headers with
  | nil => exact absurd rfl hne
  | cons first rest =>
    have hfirst : first.hashPrevBlock = getHash s.m_last_header_received := by
      rw [F.last]
      exact ((linked_append _ _ _ _ _).mp hchain).2.1
    rw [validateAndStoreHeadersCommitments, if_neg (not_not.mpr F.phase),
      if_neg (not_not.mpr hfirst), hrun]
    dsimp only
    rw [F₁.work]
    cases hwork : hasWork c (seen ++ first :: rest) with
    | true =>
      refine ⟨startRedownload c s₁, ?_, ?_⟩
      · rw [if_neg (by simpa [hasWork] using hwork)]
      · rw [if_pos rfl]
        exact F₁.toPresyncing.startRedownload
    | false =>
      refine ⟨s₁, ?_, ?_⟩
      · rw [if_pos (by simpa [hasWork] using hwork)]
      · rw [if_neg Bool.false_ne_true]
        exact F₁

theorem Following.processNextHeaders (F : Following getHash c seen s) (msg : HeadersMessage)
    (hne : msg.headers ≠ []) (hchain : ChainFromStart getHash c (seen ++ msg.headers))
    (hfit : c.m_chain_start.nHeight + (seen ++ msg.headers).length < 2 ^ 31)
    (hmax : (commitmentBits getHash c (seen ++ msg.headers)).length ≤ c.m_max_commitments)
    (hfull : msg.full = false → hasWork c (seen ++ msg.headers) = true) :
    ∃ s', processNextHeaders getHash c msg.headers msg.full s =
        ({ success := true, request_more := true }, s') ∧
      if hasWork c (seen ++ msg.headers) = true
      then Redownloading getHash c (seen ++ msg.headers) [] [] s'
      else Following getHash c (seen ++ msg.headers) s' := by
  obtain ⟨s', hrun, hnext⟩ := F.message hne hchain hfit hmax
  refine ⟨s', ?_, hnext⟩
  have hmore : (msg.full || s'.m_download_state == .redownload) = true := by
    cases hf : msg.full with
    | true => rfl
    | false =>
      rw [if_pos (hfull hf)] at hnext
      rw [hnext.phase]
      rfl
  rw [processNextHeaders_presync hne msg.full F.phase]
  simp only [processPresync, hrun, hmore, Bool.and_self, if_true]

theorem serve_of_ne (m : BlockMap) {phase : HeadersSyncPhase} (h : s.m_download_state ≠ phase)
    (msgs : List HeadersMessage) : serve getHash c m phase s msgs = ([], s) := by
  cases msgs with
  | nil => rfl
  | cons msg rest => rw [serve, if_neg h]

variable (stop : List CBlockHeader → Bool)

theorem prefix_throughMessage (msgs : List HeadersMessage)
    (seen : List CBlockHeader) : seen <+: throughMessage stop seen msgs := by
  induction msgs generalizing seen with
  | nil => exact List.prefix_refl seen
  | cons msg rest ih =>
    rw [throughMessage]
    split
    · exact List.prefix_append _ _
    · exact (List.prefix_append _ _).trans (ih _)

theorem append_prefix_throughMessage (msg : HeadersMessage)
    (rest : List HeadersMessage) (seen : List CBlockHeader) :
    seen ++ msg.headers <+: throughMessage stop seen (msg :: rest) := by
  rw [throughMessage]
  split
  · exact List.prefix_refl _
  · exact prefix_throughMessage _ _ _

theorem throughMessage_prefix (msgs : List HeadersMessage) (seen : List CBlockHeader) :
    throughMessage stop seen msgs <+: seen ++ msgs.flatMap (·.headers) := by
  induction msgs generalizing seen with
  | nil => simp [throughMessage]
  | cons msg rest ih =>
    rw [throughMessage, List.flatMap_cons, ← List.append_assoc]
    split
    · exact List.prefix_append _ _
    · exact ih _

theorem hasWork_throughMessage (msgs : List HeadersMessage) (seen : List CBlockHeader)
    (hwork : hasWork c (seen ++ msgs.flatMap (·.headers)) = true) :
    hasWork c (throughMessage (hasWork c) seen msgs) = true := by
  induction msgs generalizing seen with
  | nil => simpa [throughMessage] using hwork
  | cons msg rest ih =>
    rw [throughMessage]
    split
    case isTrue h => exact h
    case isFalse h => exact ih _ (by simpa using hwork)

/-- **The first download of an honest chain** ends at the start of the second, with the
bits of everything received.  The induction is on the messages; the next one is there as long as
the work is missing.
SOURCE: src/src/headerssync.cpp:77-97, 136-172 -/
theorem Following.serve (m : BlockMap) (msgs : List HeadersMessage) (hmsgs : msgs ≠ [])
    (F : Following getHash c seen s) (hans : Answers c seen msgs)
    (hchain : ChainFromStart getHash c (seen ++ msgs.flatMap (·.headers)))
    (hwork : hasWork c (seen ++ msgs.flatMap (·.headers)) = true)
    (hfit : c.m_chain_start.nHeight + (throughMessage (hasWork c) seen msgs).length < 2 ^ 31)
    (hmax : (commitmentBits getHash c (throughMessage (hasWork c) seen msgs)).length ≤
      c.m_max_commitments) :
    ∃ xs s', serve getHash c m .presync s msgs = (xs, s') ∧
      Redownloading getHash c (throughMessage (hasWork c) seen msgs) [] [] s' ∧
      (∀ x ∈ xs, x.result = { success := true, request_more := true }) ∧
      AsksForNext getHash (lastHash getHash c.m_chain_start.getBlockHash seen) xs := by
  induction msgs generalizing seen s with
  | nil => exact absurd rfl hmsgs
  | cons msg rest ih =>
    obtain ⟨hne, hfull, hrest⟩ := hans
    rw [List.flatMap_cons, ← List.append_assoc] at hchain hwork
    have hfront := append_prefix_throughMessage (hasWork c) msg rest seen
    obtain ⟨s₁, hcall, hnext⟩ := F.processNextHeaders msg hne
      ((linked_append _ _ _ _ _).mp hchain).1
      (Nat.lt_of_le_of_lt (Nat.add_le_add_left hfront.length_le _) hfit)
      (Nat.le_trans (commitmentBits_of_start hfront).length_le hmax) hfull
    have hrequest : (nextHeadersRequestLocator getHash c m s).head? =
        some (lastHash getHash c.m_chain_start.getBlockHash seen) := by
      simp [nextHeadersRequestLocator, F.phase, F.last]
    rw [serve, if_pos F.phase, hcall]
    dsimp only
    by_cases hnow : hasWork c (seen ++ msg.headers) = true
    · rw [if_pos hnow] at hnext
      rw [serve_of_ne m (by rw [hnext.phase]; decide) rest, throughMessage, if_pos hnow]
      refine ⟨_, s₁, rfl, hnext, ?_, hrequest, trivial⟩
      simp
    · rw [if_neg hnow] at hnext
      rw [throughMessage, if_neg hnow] at hfit hmax ⊢
      have hmore : rest ≠ [] := by
        rintro rfl
        simp only [List.flatMap_nil, List.append_nil] at hwork
        exact hnow hwork
      obtain ⟨xs, s', hserve, R, hxs, hasks⟩ := ih hmore hnext hrest hchain hwork hfit hmax
      rw [hserve]
      refine ⟨_, s', rfl, R, List.forall_mem_cons.mpr ⟨rfl, hxs⟩, hrequest, ?_⟩
      rw [lastHash_append] at hasks
      exact hasks

/-! ## The second download -/

section

variable (hpre : presynced <+: chain) (hne : presynced ≠ []) (hwork : hasWork c presynced = true)

include hpre hne hwork

/-- **Every bit the second download looks at was stored**: of two parts of one chain,
the one with the work is not the shorter one. -/
theorem commitmentBits_of_start_of_not_reached
    (hheaders : headers <+: chain) (hreach : reachesWork c headers = false) :
    commitmentBits getHash c headers <+: commitmentBits getHash c presynced := by
  rcases List.prefix_or_prefix_of_prefix hheaders hpre with h | h
  · exact commitmentBits_of_start h
  · rw [reachesWork_of_start hne hwork h] at hreach
    cases hreach

variable (hchain : ChainFromStart getHash c chain)

include hchain

/-- **A message of the chain in the second download** is stored whole. -/
theorem Redownloading.message_complete
    (R : Redownloading getHash c presynced released buffered s)
    (hheaders : released ++ (buffered ++ headers) <+: chain) :
    ∃ s', whileAccepted (validateAndStoreRedownloadedHeader getHash c) headers s = (true, s') ∧
      Redownloading getHash c presynced released (buffered ++ headers) s' := by
  apply whileAccepted_complete _ headers buffered s R rfl
  intro done hdr rest s₁ R₁ hall
  have hfront : released ++ (done ++ [hdr]) <+: chain := by
    refine List.IsPrefix.trans ⟨rest, ?_⟩ hheaders
    rw [← hall]
    simp
  have hprev : hdr.hashPrevBlock = s₁.m_redownload_buffer_last_hash := by
    obtain ⟨after, hafter⟩ := hfront
    rw [R₁.lastHash]
    rw [← hafter, ← List.append_assoc, List.append_assoc] at hchain
    exact ((linked_append _ _ _ _ _).mp hchain).2.1
  obtain ⟨s₂, hs₂⟩ := R₁.single_complete hdr hprev
    (commitmentBits_of_start_of_not_reached hpre hne hwork hfront)
  exact ⟨s₂, hs₂, R₁.single_sound hdr hs₂⟩

/-- What the second download returns for such a message: everything once the work is
reached, before that the front of the buffer.
SOURCE: src/src/headerssync.cpp:98-130 -/
theorem Redownloading.processRedownload_complete
    (R : Redownloading getHash c presynced released buffered s) (msg : HeadersMessage)
    (hheaders : released ++ (buffered ++ msg.headers) <+: chain) :
    ∃ s' out left, Model.processRedownload getHash c msg.headers msg.full s =
        ({ pow_validated_headers := out
           success := true
           request_more := if reachesWork c (released ++ (buffered ++ msg.headers)) then false
             else msg.full }, s') ∧
      buffered ++ msg.headers = out ++ left ∧
      (reachesWork c (released ++ (buffered ++ msg.headers)) = true → left = []) ∧
      Redownloading getHash c presynced (released ++ out) left s' := by
  obtain ⟨s₁, hrun, R₁⟩ := R.message_complete hpre hne hwork hchain hheaders
  obtain ⟨out, left, hcut, hout, R₂, hall, -⟩ := R₁.pop
  rw [R₁.all] at hall
  refine ⟨_, out, left, ?_, hcut, hall, R₂⟩
  have hflag : (popHeadersReadyForAcceptance getHash c s₁).2.m_process_all_remaining_headers =
      reachesWork c (released ++ (buffered ++ msg.headers)) := by
    rw [R₂.all, List.append_assoc, ← hcut]
  simp only [Model.processRedownload, hrun, hout, hflag, R₂.buffer]
  cases hreach : reachesWork c (released ++ (buffered ++ msg.headers)) with
  | true => simp [hall hreach]
  | false => simp

/-- **The second download of an honest chain** returns it up to the end of the message
in which it reaches the work.  The induction is on the messages; what was released before is
carried along. -/
theorem Redownloading.serve (m : BlockMap) (msgs : List HeadersMessage) (hmsgs : msgs ≠ [])
    (R : Redownloading getHash c presynced released buffered s)
    (hans : Answers c (released ++ buffered) msgs)
    (hall : released ++ buffered ++ msgs.flatMap (·.headers) = chain) :
    ∃ ys s', serve getHash c m .redownload s msgs = (ys, s') ∧
      (∀ y ∈ ys, y.result.success = true) ∧
      AsksForNext getHash (HashChain.lastHash getHash c.m_chain_start.getBlockHash
        (released ++ buffered)) ys ∧
      released ++ ys.flatMap (·.result.pow_validated_headers) =
        throughMessage (reachesWork c) (released ++ buffered) msgs := by
  induction msgs generalizing released buffered s with
  | nil => exact absurd rfl hmsgs
  | cons msg rest ih =>
    obtain ⟨hmsg, hfull, hrest⟩ := hans
    have hheaders : released ++ (buffered ++ msg.headers) <+: chain :=
      ⟨rest.flatMap (·.headers), by rw [← hall]; simp⟩
    obtain ⟨s₁, out, left, hcall, hcut, hleft, R₁⟩ :=
      R.processRedownload_complete hpre hne hwork hchain msg hheaders
    have hrequest : (nextHeadersRequestLocator getHash c m s).head? =
        some (HashChain.lastHash getHash c.m_chain_start.getBlockHash (released ++ buffered)) := by
      simp [nextHeadersRequestLocator, R.phase, R.lastHash]
    have hsplit : released ++ out ++ left = released ++ buffered ++ msg.headers := by
      rw [List.append_assoc, ← hcut, List.append_assoc]
    rw [Interface.serve, if_pos R.phase,
      processNextHeaders_redownload hmsg msg.full R.phase, hcall, throughMessage]
    dsimp only
    cases hreach : reachesWork c (released ++ (buffered ++ msg.headers)) with
    | true =>
      -- the sync is over: the messages that are left are not asked for
      rw [if_neg (by simp)]
      dsimp only
      rw [serve_of_ne m (by simp [finalize]) rest, List.append_assoc released, hreach,
        if_pos rfl]
      refine ⟨_, _, rfl, by simp, ⟨hrequest, trivial⟩, ?_⟩
      rw [hleft hreach, List.append_nil] at hcut
      simp [hcut]
    | false =>
      have hfullTrue : msg.full = true := by
        by_contra hshort
        have hreached := reachesWork_of_start (by simp [hmsg])
          (hfull (by simpa using hshort)) (List.prefix_refl _)
        rw [List.append_assoc, hreach] at hreached
        cases hreached
      have hmore : rest ≠ [] := by
        rintro rfl
        rw [List.flatMap_cons, List.flatMap_nil, List.append_nil, List.append_assoc] at hall
        rw [hall, reachesWork_of_start hne hwork hpre] at hreach
        cases hreach
      obtain ⟨ys, s', hserve, hys, hasks, hreturned⟩ := ih hmore R₁
        (by rw [hsplit]; exact hrest)
        (by rw [hsplit, ← hall, List.flatMap_cons, ← List.append_assoc])
      rw [hfullTrue, if_pos (by simp)]
      dsimp only
      rw [hserve, List.append_assoc released, hreach, if_neg Bool.false_ne_true]
      refine ⟨_, s', rfl, List.forall_mem_cons.mpr ⟨rfl, hys⟩, ⟨hrequest, ?_⟩, ?_⟩
      · rw [hsplit, lastHash_append] at hasks
        exact hasks
      · rw [hsplit, List.append_assoc released buffered] at hreturned
        rw [← hreturned]
        simp

end

/-! ## The whole sync -/

theorem Following.create (hstart : getHash c.m_chain_start.getBlockHeader =
    c.m_chain_start.getBlockHash) : Following getHash c [] (.create c) :=
  ⟨Presyncing.create, hstart⟩

/-- A peer with a header to serve has a message to serve it in, and the other way
round. -/
theorem answers_eq_nil_iff {msgs : List HeadersMessage} (h : Answers c seen msgs) :
    msgs = [] ↔ msgs.flatMap (·.headers) = [] := by
  cases msgs with
  | nil => simp
  | cons msg rest => simp [h.1]

/-- **Honest-peer completeness.**  A peer that serves one chain from `chain_start` in both
downloads, cut into messages as it likes, gets it through: if the chain reaches the required work
within the bound on commitments, and at a height that fits an `int`, no call fails and what the
calls return is the chain, header for header, up to the end of the message in which the second
download reaches the work.
SOURCE: src/src/headerssync.cpp:65-314 -/
theorem honest_peer_gets_through (getHash : CBlockHeader → Uint256) (c : HeadersSyncSetup)
    (m : BlockMap)
    (hstart : getHash c.m_chain_start.getBlockHeader = c.m_chain_start.getBlockHash)
    (chain : List CBlockHeader) (hchain : ChainFromStart getHash c chain)
    (hwork : hasWork c chain = true) (first second : List HeadersMessage)
    (hfirst : ServesChain c chain first) (hsecond : ServesChain c chain second)
    (hmax : (commitmentHeights c (throughMessage (hasWork c) [] first).length).length ≤
      c.m_max_commitments)
    (hfit : c.m_chain_start.nHeight + (throughMessage (hasWork c) [] first).length < 2 ^ 31) :
    GetsThrough getHash c m first second := by
  by_cases hempty : chain = []
  · have hnone : first = [] ∧ second = [] := by
      rw [answers_eq_nil_iff hfirst.answers, answers_eq_nil_iff hsecond.answers, hfirst.whole,
        hsecond.whole]
      exact ⟨hempty, hempty⟩
    rw [hnone.1, hnone.2]
    exact ⟨by simp [syncExchanges, serve], trivial, trivial, rfl⟩
  have hone : first ≠ [] := by
    rw [Ne, answers_eq_nil_iff hfirst.answers, hfirst.whole]
    exact hempty
  have htwo : second ≠ [] := by
    rw [Ne, answers_eq_nil_iff hsecond.answers, hsecond.whole]
    exact hempty
  have hreached : hasWork c ([] ++ first.flatMap (·.headers)) = true := by
    rw [List.nil_append, hfirst.whole]
    exact hwork
  have hpre : throughMessage (hasWork c) [] first <+: chain := by
    have h := throughMessage_prefix (hasWork c) first []
    rwa [List.nil_append, hfirst.whole] at h
  obtain ⟨xs, s₁, hserve₁, R, hxs, hasks₁⟩ := (Following.create hstart).serve m first hone
    hfirst.answers (by rwa [List.nil_append, hfirst.whole]) hreached hfit
    (by rwa [length_commitmentBits])
  have hnonempty : throughMessage (hasWork c) [] first ≠ [] := by
    cases first with
    | nil => exact absurd rfl hone
    | cons msg rest =>
      intro hnil
      have hfront := append_prefix_throughMessage (hasWork c) msg rest []
      rw [hnil, List.prefix_nil, List.nil_append] at hfront
      exact hfirst.answers.1 hfront
  obtain ⟨ys, s₂, hserve₂, hys, hasks₂, hreturned⟩ := R.serve hpre hnonempty
    (hasWork_throughMessage first [] hreached) hchain m second htwo hsecond.answers
    (by rw [List.append_nil, List.nil_append, hsecond.whole])
  have hexchanges : syncExchanges getHash c m first second = (xs, ys) := by
    simp only [syncExchanges, hserve₁, hserve₂]
  constructor
  case success =>
    rw [hexchanges]
    exact List.forall_mem_append.2 ⟨fun x hx => by rw [hxs x hx], hys⟩
  case asksFirst => rw [hexchanges]; exact hasks₁
  case asksSecond => rw [hexchanges]; exact hasks₂
  case returned =>
    have hnothing : xs.flatMap (·.result.pow_validated_headers) = [] := by
      rw [List.flatMap_eq_nil_iff]
      intro x hx
      rw [hxs x hx]
    rw [hexchanges, List.flatMap_append, hnothing]
    exact hreturned

theorem honest_peer_gets_through_sample :
    GetsThrough nonceHash (sampleSetup 0 1 1) (fun _ => none)
      [⟨sampleChain.take 2, true⟩, ⟨sampleChain.drop 2, false⟩]
      [⟨sampleChain.take 1, true⟩, ⟨sampleChain.drop 1, false⟩] :=
  honest_peer_gets_through nonceHash (sampleSetup 0 1 1) (fun _ => none) (by decide +kernel)
    sampleChain ⟨rfl, rfl, rfl, trivial⟩ (by decide +kernel) _ _
    ⟨rfl, by decide +kernel, nofun, by decide +kernel, fun _ => by decide +kernel, trivial⟩
    ⟨rfl, by decide +kernel, nofun, by decide +kernel, fun _ => by decide +kernel, trivial⟩
    (by decide +kernel) (by decide +kernel)

/-- From a block of height `INT_MAX` the same chain fails in the second download: its first
header is compared with the bit of its third. -/
theorem honest_peer_fails :
    nonceHash (sampleSetup (2 ^ 31 - 1) 0 2).m_chain_start.getBlockHeader =
        (sampleSetup (2 ^ 31 - 1) 0 2).m_chain_start.getBlockHash ∧
      ChainFromStart nonceHash (sampleSetup (2 ^ 31 - 1) 0 2) sampleChain ∧
      hasWork (sampleSetup (2 ^ 31 - 1) 0 2) sampleChain = true ∧
      ServesChain (sampleSetup (2 ^ 31 - 1) 0 2) sampleChain [⟨sampleChain, true⟩] ∧
      (commitmentHeights (sampleSetup (2 ^ 31 - 1) 0 2) sampleChain.length).length ≤
        (sampleSetup (2 ^ 31 - 1) 0 2).m_max_commitments ∧
      ¬ GetsThrough nonceHash (sampleSetup (2 ^ 31 - 1) 0 2) (fun _ => none)
        [⟨sampleChain, true⟩] [⟨sampleChain, true⟩] := by
  refine ⟨by decide +kernel, ⟨rfl, rfl, rfl, trivial⟩, by decide +kernel,
    ⟨rfl, by decide +kernel, nofun, trivial⟩, by decide +kernel, fun h => ?_⟩
  have hfails : ((syncExchanges nonceHash (sampleSetup (2 ^ 31 - 1) 0 2) (fun _ => none)
      [⟨sampleChain, true⟩] [⟨sampleChain, true⟩]).2.map (·.result.success)) = [false] := by
    decide +kernel
  obtain ⟨x, hx, hfalse⟩ := List.mem_map.mp (hfails ▸ List.mem_singleton_self false)
  rw [h.success x (List.mem_append_right _ hx)] at hfalse
  cases hfalse

end BitMinti.Analysis
