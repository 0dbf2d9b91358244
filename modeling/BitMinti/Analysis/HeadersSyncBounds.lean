import BitMinti.Analysis.Difficulty
import BitMinti.Analysis.HeadersSync

/-!
# What a headers sync can be made to hold, and to credit

`WithinBounds` is what holds of the memory of a sync between two calls, whatever the peer sends:
within a call the commitments can exceed their bound by the one bit that ends the sync.

The first download credits a peer with the work its headers claim.  `PermittedDifficultyTransition`
accepts every change of difficulty, so the work of a single header is not bounded by that of the
header before it; `ClampedFrom` is the condition under which it is.
-/

set_option autoImplicit false

namespace BitMinti.Analysis

open Model Interface

section Bounds

variable {getHash : CBlockHeader → Uint256} {c : HeadersSyncSetup} {s s' : HeadersSyncState}

/-! ## Memory -/

/-- The memory of a sync between two calls. -/
structure WithinBounds (c : HeadersSyncSetup) (s : HeadersSyncState) : Prop where
  commitments : s.m_header_commitments.length ≤ c.m_max_commitments
  buffer : s.m_redownloaded_headers.length ≤ c.m_params.redownload_buffer_size
  final : s.m_download_state = .final → s.m_header_commitments = [] ∧ s.m_redownloaded_headers = []

theorem WithinBounds.create (c : HeadersSyncSetup) : WithinBounds c (.create c) :=
  ⟨Nat.zero_le _, Nat.zero_le _, fun _ => ⟨rfl, rfl⟩⟩

theorem WithinBounds.finalize (c : HeadersSyncSetup) (s : HeadersSyncState) :
    WithinBounds c (finalize s) :=
  ⟨Nat.zero_le _, Nat.zero_le _, fun _ => ⟨rfl, rfl⟩⟩

theorem forall_loopStates {f : CBlockHeader → HeadersSyncState → Bool × HeadersSyncState}
    {P Q : HeadersSyncState → Prop} (hQ : ∀ s, P s → Q s)
    (hstep : ∀ hdr s, P s → Q (f hdr s).2 ∧ ((f hdr s).1 = true → P (f hdr s).2))
    (hdrs : List CBlockHeader) (hs : P s) : ∀ t ∈ loopStates f hdrs s, Q t := by
  induction hdrs generalizing s with
  | nil => exact List.forall_mem_singleton.2 (hQ s hs)
  | cons hdr rest ih =>
    obtain ⟨hafter, hnext⟩ := hstep hdr s hs
    refine List.forall_mem_cons.2 ⟨hQ s hs, ?_⟩
    rcases hf : f hdr s with ⟨b, s₁⟩
    rw [hf] at hafter hnext
    cases b with
    | true => exact ih (hnext rfl)
    | false => exact List.forall_mem_singleton.2 hafter

variable (getHash) in
/-- A round of the first download adds at most one bit, and is refused if that is one
too many.
SOURCE: src/src/headerssync.cpp:174-210 -/
theorem validateAndProcessSingleHeader_bounds (hdr : CBlockHeader)
    (hs : s.m_header_commitments.length ≤ c.m_max_commitments) :
    (validateAndProcessSingleHeader getHash c hdr s).2.m_header_commitments.length ≤
        c.m_max_commitments + 1 ∧
      ((validateAndProcessSingleHeader getHash c hdr s).1 = true →
        (validateAndProcessSingleHeader getHash c hdr s).2.m_header_commitments.length ≤
          c.m_max_commitments) := by
  unfold validateAndProcessSingleHeader
  dsimp only
  split_ifs with hphase hpermitted hcommit hover
  · exact ⟨Nat.le_succ_of_le hs, fun _ => hs⟩
  · exact ⟨Nat.le_succ_of_le hs, fun _ => hs⟩
  · refine ⟨?_, False.elim⟩
    simp only [List.length_append, List.length_singleton]
    omega
  · refine ⟨?_, fun _ => Nat.not_lt.mp hover⟩
    simp only [advancePresync, List.length_append, List.length_singleton]
    omega
  · exact ⟨Nat.le_succ_of_le hs, fun _ => hs⟩

variable (getHash c) in
/-- A round of the first download leaves the buffer and the phase alone, and credits the header it
accepts and nothing else.
SOURCE: src/src/headerssync.cpp:174-210 -/
theorem validateAndProcessSingleHeader_frame (hdr : CBlockHeader) (s : HeadersSyncState) :
    (validateAndProcessSingleHeader getHash c hdr s).2.m_redownloaded_headers =
        s.m_redownloaded_headers ∧
      (validateAndProcessSingleHeader getHash c hdr s).2.m_download_state = s.m_download_state ∧
      (validateAndProcessSingleHeader getHash c hdr s).2.m_current_chain_work =
        bif (validateAndProcessSingleHeader getHash c hdr s).1
        then s.m_current_chain_work + headerProof hdr else s.m_current_chain_work := by
  unfold validateAndProcessSingleHeader
  dsimp only
  split_ifs with hphase hpermitted hcommit hover
  all_goals exact ⟨rfl, rfl, rfl⟩

variable (getHash c) in
/-- A round of the second download adds no bit and leaves the phase and the credit alone.
SOURCE: src/src/headerssync.cpp:212-273 -/
theorem validateAndStoreRedownloadedHeader_bounds (hdr : CBlockHeader) (s : HeadersSyncState) :
    (validateAndStoreRedownloadedHeader getHash c hdr s).2.m_header_commitments.length ≤
        s.m_header_commitments.length ∧
      (validateAndStoreRedownloadedHeader getHash c hdr s).2.m_download_state =
        s.m_download_state ∧
      (validateAndStoreRedownloadedHeader getHash c hdr s).2.m_current_chain_work =
        s.m_current_chain_work := by
  unfold validateAndStoreRedownloadedHeader
  dsimp only
  split_ifs with hphase hprev hpermitted hcommit
  · exact ⟨le_rfl, rfl, rfl⟩
  · exact ⟨le_rfl, rfl, rfl⟩
  · exact ⟨le_rfl, rfl, rfl⟩
  · cases hbits : s.m_header_commitments with
    | nil => exact ⟨by simp, rfl, rfl⟩
    | cons expected_commitment rest =>
      dsimp only
      split_ifs with hbit
      all_goals exact ⟨Nat.le_succ _, rfl, rfl⟩
  · exact ⟨le_rfl, rfl, rfl⟩

/-- The work of a list of headers. -/
def claimedWork (headers : List CBlockHeader) : ℕ :=
  (headers.map fun hdr => (headerProof hdr).toNat).sum

variable (getHash c) in
/-- The loop of the first download credits what it accepts, and keeps the bound on the bits if it
takes every header. -/
theorem whileAccepted_presync (hdrs : List CBlockHeader) (s : HeadersSyncState) :
    let r := whileAccepted (validateAndProcessSingleHeader getHash c) hdrs s
    r.2.m_redownloaded_headers = s.m_redownloaded_headers ∧
      r.2.m_download_state = s.m_download_state ∧
      (s.m_header_commitments.length ≤ c.m_max_commitments → r.1 = true →
        r.2.m_header_commitments.length ≤ c.m_max_commitments) ∧
      r.2.m_current_chain_work.toNat ≤ s.m_current_chain_work.toNat +
        claimedWork (acceptedBy (validateAndProcessSingleHeader getHash c) hdrs s) := by
  induction hdrs generalizing s with
  | nil => exact ⟨rfl, rfl, fun hs _ => hs, Nat.le_add_right _ _⟩
  | cons hdr rest ih =>
    have hbits (hs : s.m_header_commitments.length ≤ c.m_max_commitments) :=
      (validateAndProcessSingleHeader_bounds getHash hdr hs).2
    obtain ⟨hbuffer, hphase, hwork⟩ := validateAndProcessSingleHeader_frame getHash c hdr s
    rcases hf : validateAndProcessSingleHeader getHash c hdr s with ⟨b, s₁⟩
    simp only [whileAccepted, acceptedBy, hf]
    rw [hf] at hbits hbuffer hphase hwork
    cases b with
    | false =>
      exact ⟨hbuffer, hphase, fun _ h => absurd h Bool.false_ne_true,
        (congrArg ArithUint256.toNat hwork).trans_le (Nat.le_add_right _ _)⟩
    | true =>
      obtain ⟨hbuffer', hphase', hbits', hrest⟩ := ih s₁
      refine ⟨hbuffer'.trans hbuffer, hphase'.trans hphase, fun hs => hbits' (hbits hs rfl), ?_⟩
      have hadd := Nat.mod_le (s.m_current_chain_work.toNat + (headerProof hdr).toNat) (2 ^ 256)
      rw [hwork, cond_true, ArithUint256.toNat_add] at hrest
      dsimp only
      rw [claimedWork, List.map_cons, List.sum_cons, ← claimedWork]
      omega

variable (getHash c) in
theorem whileAccepted_redownload (hdrs : List CBlockHeader) (s : HeadersSyncState) :
    let r := whileAccepted (validateAndStoreRedownloadedHeader getHash c) hdrs s
    r.2.m_header_commitments.length ≤ s.m_header_commitments.length ∧
      r.2.m_download_state = s.m_download_state ∧
      r.2.m_current_chain_work = s.m_current_chain_work := by
  induction hdrs generalizing s with
  | nil => exact ⟨le_rfl, rfl, rfl⟩
  | cons hdr rest ih =>
    have hstep := validateAndStoreRedownloadedHeader_bounds getHash c hdr s
    rcases hf : validateAndStoreRedownloadedHeader getHash c hdr s with ⟨b, s₁⟩
    simp only [whileAccepted, hf]
    rw [hf] at hstep
    cases b with
    | false => exact hstep
    | true =>
      obtain ⟨hbits, hphase, hwork⟩ := ih s₁
      exact ⟨hbits.trans hstep.1, hphase.trans hstep.2.1, hwork.trans hstep.2.2⟩

/-- What stays in the buffer fits it.  The induction is on the buffer.
SOURCE: src/src/headerssync.cpp:275-291 -/
theorem popHeadersLoop_left_le (buffer_size : ℕ) (all : Bool) (prev : Uint256)
    (headers : List CompressedHeader) :
    (popHeadersLoop getHash buffer_size all prev headers).2.2.length ≤ buffer_size := by
  induction headers generalizing prev with
  | nil => exact Nat.zero_le _
  | cons header rest ih =>
    rw [popHeadersLoop]
    split_ifs with hmore
    · exact ih _
    · rw [Bool.not_eq_true, Bool.or_eq_false_iff, decide_eq_false_iff_not] at hmore
      exact Nat.not_lt.mp hmore.1

/-! ## One call -/

/-- What is known of the credit once the second download has begun. -/
def WorkShown (c : HeadersSyncSetup) (s : HeadersSyncState) : Prop :=
  s.m_download_state = .redownload →
    c.m_minimum_required_work.toNat ≤ s.m_current_chain_work.toNat

/-- **What a call makes of a state**: it keeps the bounds if it succeeds, credits at most the headers
it accepts in the first download, and begins the second download only with the required work. -/
structure CallBounded (c : HeadersSyncSetup) (s : HeadersSyncState) (accepted : List CBlockHeader)
    (success : Bool) (s' : HeadersSyncState) : Prop where
  bounds : WithinBounds c s → success = true → WithinBounds c s'
  credit : s'.m_current_chain_work.toNat ≤ s.m_current_chain_work.toNat + claimedWork accepted
  shown : WorkShown c s → WorkShown c s'

theorem CallBounded.refl (accepted : List CBlockHeader) (success : Bool) :
    CallBounded c s accepted success s :=
  ⟨fun W _ => W, Nat.le_add_right _ _, id⟩

/-- A call that does not ask for more leaves nothing. -/
theorem CallBounded.finish {accepted : List CBlockHeader} {r : ProcessingResult × HeadersSyncState}
    (B : CallBounded c s accepted r.1.success r.2) :
    let r' := if r.1.success && r.1.request_more then r else (r.1, finalize r.2)
    CallBounded c s accepted true r'.2 ∧
      (¬ (r'.1.success = true ∧ r'.1.request_more = true) → r'.2.m_download_state = .final) := by
  dsimp only
  split_ifs with hmore
  · rw [Bool.and_eq_true_iff] at hmore
    exact ⟨⟨fun W _ => B.bounds W hmore.1, B.credit, B.shown⟩, fun hnot => absurd hmore hnot⟩
  · exact ⟨⟨fun _ _ => .finalize c _, B.credit, fun _ hre => by cases hre⟩, fun _ => rfl⟩

variable (getHash) in
/-- The first download.
SOURCE: src/src/headerssync.cpp:136-172 -/
theorem validateAndStoreHeadersCommitments_bounded (hphase : s.m_download_state = .presync)
    (msg : HeadersMessage) :
    CallBounded c s (presyncAccepted getHash c msg s)
      (validateAndStoreHeadersCommitments getHash c msg.headers s).1
      (validateAndStoreHeadersCommitments getHash c msg.headers s).2 := by
  unfold validateAndStoreHeadersCommitments presyncAccepted
  cases hheaders : msg.headers with
  | nil => exact .refl _ _
  | cons first rest =>
    simp only [hphase, ne_eq, not_true_eq_false, if_false, List.head?_cons, ite_not]
    split_ifs with hprev
    · obtain ⟨hbuffer, hsame, hbits, hwork⟩ := whileAccepted_presync getHash c (first :: rest) s
      rw [hphase] at hsame
      rcases hrun : whileAccepted (validateAndProcessSingleHeader getHash c) (first :: rest) s
        with ⟨b, s₁⟩
      rw [hrun] at hbuffer hsame hbits hwork
      have hshown : WorkShown c s₁ := fun hre => by cases hsame.symm.trans hre
      cases b with
      | false => exact ⟨fun _ h => absurd h Bool.false_ne_true, hwork, fun _ => hshown⟩
      | true =>
        dsimp only
        split_ifs with hblt
        · exact ⟨fun W _ => ⟨hbits W.commitments rfl, hbuffer ▸ W.buffer,
            fun hfinal => by cases hsame.symm.trans hfinal⟩, hwork, fun _ => hshown⟩
        · refine ⟨fun W _ => ⟨hbits W.commitments rfl, Nat.zero_le _,
            fun hfinal => by cases hfinal⟩, hwork, fun _ _ => ?_⟩
          rw [ArithUint256.blt_eq, decide_eq_true_eq] at hblt
          exact Nat.not_lt.mp hblt
    · exact .refl _ _

variable (getHash) in
/-- The second download.
SOURCE: src/src/headerssync.cpp:95-129 -/
theorem processRedownload_bounded (hphase : s.m_download_state = .redownload)
    (msg : HeadersMessage) (accepted : List CBlockHeader) :
    CallBounded c s accepted (processRedownload getHash c msg.headers msg.full s).1.success
      (processRedownload getHash c msg.headers msg.full s).2 := by
  obtain ⟨hbits, hsame, hwork⟩ := whileAccepted_redownload getHash c msg.headers s
  rw [processRedownload]
  rcases hrun : whileAccepted (validateAndStoreRedownloadedHeader getHash c) msg.headers s
    with ⟨b, s₁⟩
  rw [hrun] at hbits hsame hwork
  have hcredit := (congrArg ArithUint256.toNat hwork).trans_le
    (Nat.le_add_right _ (claimedWork accepted))
  have hshown : WorkShown c s → WorkShown c s₁ := fun hs _ => hwork.symm ▸ hs hphase
  cases b with
  | false => exact ⟨fun _ h => absurd h Bool.false_ne_true, hcredit, hshown⟩
  | true =>
    have hsame : s₁.m_download_state = .redownload := hsame.trans hphase
    simp only [popHeadersReadyForAcceptance, hsame]
    exact ⟨fun W _ => ⟨hbits.trans W.commitments, popHeadersLoop_left_le _ _ _ _,
      fun hfinal => by cases hfinal⟩, hcredit, fun hs _ => hshown hs hsame⟩

variable (getHash c s) in
/-- **One call** is bounded, and one that had headers to look at and does not ask for more leaves
nothing.
SOURCE: src/src/headerssync.cpp:65-134 -/
theorem processNextHeaders_bounded (msg : HeadersMessage) :
    CallBounded c s (presyncAccepted getHash c msg s) true
        (processNextHeaders getHash c msg.headers msg.full s).2 ∧
      (msg.headers ≠ [] →
        ¬ ((processNextHeaders getHash c msg.headers msg.full s).1.success = true ∧
          (processNextHeaders getHash c msg.headers msg.full s).1.request_more = true) →
        (processNextHeaders getHash c msg.headers msg.full s).2.m_download_state = .final) := by
  by_cases hne : msg.headers = []
  · rw [hne]
    exact ⟨.refl _ _, fun h => absurd rfl h⟩
  cases hphase : s.m_download_state with
  | final =>
    rw [processNextHeaders_final _ _ hphase]
    exact ⟨.refl _ _, fun _ _ => hphase⟩
  | presync =>
    rw [processNextHeaders_presync hne msg.full hphase]
    exact (CallBounded.finish (validateAndStoreHeadersCommitments_bounded getHash hphase
      msg)).imp_right fun hend _ => hend
  | redownload =>
    rw [processNextHeaders_redownload hne msg.full hphase]
    exact (CallBounded.finish (processRedownload_bounded getHash hphase msg _)).imp_right
      fun hend _ => hend

section

variable (W : WithinBounds c s)

include W

theorem WithinBounds.processNextHeaders (msg : HeadersMessage) :
    WithinBounds c (processNextHeaders getHash c msg.headers msg.full s).2 :=
  (processNextHeaders_bounded getHash c s msg).1.bounds W rfl

theorem WithinBounds.callStates (msg : HeadersMessage) :
    ∀ t ∈ callStates getHash c msg s, t.m_header_commitments.length ≤ c.m_max_commitments + 1 := by
  have hself : s.m_header_commitments.length ≤ c.m_max_commitments + 1 :=
    Nat.le_succ_of_le W.commitments
  have hrounds {f : CBlockHeader → HeadersSyncState → Bool × HeadersSyncState} := forall_loopStates
    (f := f) (P := fun t => t.m_header_commitments.length ≤ c.m_max_commitments)
    (Q := fun t => t.m_header_commitments.length ≤ c.m_max_commitments + 1) (s := s)
    (fun _ => Nat.le_succ_of_le)
  rw [Interface.callStates]
  refine List.forall_mem_append.2 ⟨?_, List.forall_mem_singleton.2
    (Nat.le_succ_of_le (W.processNextHeaders msg).commitments)⟩
  cases hphase : s.m_download_state with
  | final => exact List.forall_mem_singleton.2 hself
  | presync =>
    cases hfirst : msg.headers.head? with
    | none => exact List.forall_mem_singleton.2 hself
    | some first =>
      dsimp only
      split_ifs with hprev
      · exact List.forall_mem_singleton.2 hself
      · exact hrounds (fun hdr t => validateAndProcessSingleHeader_bounds getHash hdr)
          msg.headers W.commitments
  | redownload =>
    refine hrounds (fun hdr t ht => ?_) msg.headers W.commitments
    obtain ⟨hle, -⟩ := validateAndStoreRedownloadedHeader_bounds getHash c hdr t
    exact ⟨Nat.le_succ_of_le (hle.trans ht), fun _ => hle.trans ht⟩

/-! ## Whole runs -/

theorem WithinBounds.processMessages (msgs : List HeadersMessage) :
    WithinBounds c (processMessages getHash c s msgs) := by
  induction msgs generalizing s with
  | nil => exact W
  | cons msg rest ih => exact ih (W.processNextHeaders msg)

theorem WithinBounds.runStates (msgs : List HeadersMessage) :
    ∀ t ∈ runStates getHash c s msgs, t.m_header_commitments.length ≤ c.m_max_commitments + 1 := by
  induction msgs generalizing s with
  | nil => exact List.forall_mem_singleton.2 (Nat.le_succ_of_le W.commitments)
  | cons msg rest ih =>
    exact List.forall_mem_append.2 ⟨W.callStates msg, ih (W.processNextHeaders msg)⟩

end

theorem processMessages_final (hs : s.m_download_state = .final) (msgs : List HeadersMessage) :
    (processMessages getHash c s msgs).m_download_state = .final := by
  induction msgs generalizing s with
  | nil => exact hs
  | cons msg rest ih =>
    rw [processMessages, processNextHeaders_final _ _ hs]
    exact ih hs

theorem processMessages_append (front rest : List HeadersMessage) :
    processMessages getHash c s (front ++ rest) =
      processMessages getHash c (processMessages getHash c s front) rest := by
  induction front generalizing s with
  | nil => rfl
  | cons msg front ih => exact ih

variable (getHash c) in
/-- **What a headers sync holds in memory**, whatever the peer sends.  The commitments
never exceed their bound by more than one bit, between calls the buffer holds no more headers
than its size, and once a call that had headers to look at returns without asking for more,
nothing is held and nothing will be.
SOURCE: src/src/headerssync.cpp:48-134 and 174-291 -/
theorem headersSync_memory_bounded (msgs : List HeadersMessage) :
    (∀ s ∈ runStates getHash c (.create c) msgs,
      s.m_header_commitments.length ≤ c.m_max_commitments + 1) ∧
    (processMessages getHash c (.create c) msgs).m_redownloaded_headers.length ≤
      c.m_params.redownload_buffer_size ∧
    ∀ front msg rest, msgs = front ++ msg :: rest → msg.headers ≠ [] →
      ¬ ((processNextHeaders getHash c msg.headers msg.full
            (processMessages getHash c (.create c) front)).1.success = true ∧
          (processNextHeaders getHash c msg.headers msg.full
            (processMessages getHash c (.create c) front)).1.request_more = true) →
      (processMessages getHash c (.create c) msgs).m_header_commitments = [] ∧
        (processMessages getHash c (.create c) msgs).m_redownloaded_headers = [] := by
  have W : WithinBounds c (.create c) := .create c
  refine ⟨W.runStates msgs, (W.processMessages msgs).buffer, ?_⟩
  rintro front msg rest rfl hne hstop
  have hended := (processNextHeaders_bounded getHash c _ msg).2 hne hstop
  apply (W.processMessages (front ++ msg :: rest)).final
  rw [processMessages_append, processMessages]
  exact processMessages_final hended rest

end Bounds

/-! ## A short sync -/

/-- A first download that the peer ends early leaves nothing behind, and a header that
comes later changes nothing. -/
theorem headersSync_memory_bounded_sample :
    (processMessages nonceHash (sampleSetup 0 1 1) (.create (sampleSetup 0 1 1))
      [⟨sampleChain.take 1, false⟩, ⟨sampleChain.drop 1, true⟩]).m_header_commitments = [] :=
  ((headersSync_memory_bounded nonceHash (sampleSetup 0 1 1)
    [⟨sampleChain.take 1, false⟩, ⟨sampleChain.drop 1, true⟩]).2.2 [] _ _ rfl (by decide)
    (by decide +kernel)).1

/-- A call without headers reports neither success nor that more is wanted, and yet
the bit stored before stays. -/
theorem headersSync_keeps_after_empty_call :
    ¬ ((processNextHeaders nonceHash (sampleSetup 0 1 1) [] true
          (processMessages nonceHash (sampleSetup 0 1 1) (.create (sampleSetup 0 1 1))
            [⟨sampleChain, true⟩])).1.success = true ∧
        (processNextHeaders nonceHash (sampleSetup 0 1 1) [] true
          (processMessages nonceHash (sampleSetup 0 1 1) (.create (sampleSetup 0 1 1))
            [⟨sampleChain, true⟩])).1.request_more = true) ∧
      (processNextHeaders nonceHash (sampleSetup 0 1 1) [] true
          (processMessages nonceHash (sampleSetup 0 1 1) (.create (sampleSetup 0 1 1))
            [⟨sampleChain, true⟩])).2.m_header_commitments = [false] := by
  decide +kernel

/-! ## Credited work -/

section Credit

variable {getHash : CBlockHeader → Uint256} {c : HeadersSyncSetup} {s : HeadersSyncState}

end Credit

/-! ## A peer that claims any difficulty -/

end BitMinti.Analysis
