import BitMinti.Analysis.BlockIndex
import BitMinti.Interface.HeadersSync

/-!
# The headers sync releases only what it may

`Presyncing` and `Redownloading` say what the state is after given headers were received in the
two downloads.  The bits in the queue are the samples of the first download that the second one
has not come to yet, so the bit in front always belongs to the height it is compared at.
-/

set_option autoImplicit false

namespace BitMinti.Analysis

open Model Interface BitMinti.Computation Computation.HashChain

/-! ## Loops over a message -/

section WhileAccepted

variable {f : CBlockHeader → HeadersSyncState → Bool × HeadersSyncState}
  {I : List CBlockHeader → HeadersSyncState → Prop} {all : List CBlockHeader}

theorem whileAccepted_sound
    (hstep : ∀ done hdr rest s s', I done s → done ++ hdr :: rest = all → f hdr s = (true, s') →
      I (done ++ [hdr]) s')
    (hdrs done : List CBlockHeader) (s s' : HeadersSyncState) (h : I done s)
    (hall : done ++ hdrs = all) (hrun : whileAccepted f hdrs s = (true, s')) : I all s' := by
  induction hdrs generalizing done s with
  | nil =>
    obtain rfl : s = s' := congrArg Prod.snd hrun
    rwa [← hall, List.append_nil]
  | cons hdr rest ih =>
    rcases hf : f hdr s with ⟨b, s₁⟩
    simp only [whileAccepted, hf] at hrun
    cases b with
    | false => cases congrArg Prod.fst hrun
    | true =>
      exact ih _ s₁ (hstep done hdr rest s s₁ h hall hf) (by simpa using hall) hrun

theorem whileAccepted_complete
    (hstep : ∀ done hdr rest s, I done s → done ++ hdr :: rest = all →
      ∃ s', f hdr s = (true, s') ∧ I (done ++ [hdr]) s')
    (hdrs done : List CBlockHeader) (s : HeadersSyncState) (h : I done s)
    (hall : done ++ hdrs = all) :
    ∃ s', whileAccepted f hdrs s = (true, s') ∧ I all s' := by
  induction hdrs generalizing done s with
  | nil => exact ⟨s, rfl, by rwa [← hall, List.append_nil]⟩
  | cons hdr rest ih =>
    obtain ⟨s₁, hf, h₁⟩ := hstep done hdr rest s h hall
    obtain ⟨s', hrun, h'⟩ := ih _ s₁ h₁ (by simpa using hall)
    exact ⟨s', by simp only [whileAccepted, hf, hrun], h'⟩

end WhileAccepted

/-! ## Heights and work -/

theorem toInt32_of_lt {x : ℤ} (hpos : 0 ≤ x) (hlt : x < 2 ^ 31) : toInt32 x = x := by
  apply Int.bmod_eq_of_le_mul_two
  · simp only [Nat.reducePow, Nat.cast_ofNat]
    omega
  · simp only [Nat.reducePow, Nat.cast_ofNat]
    omega

theorem toSizeT_natCast (n : ℕ) : toSizeT n = n := by
  simp [toSizeT]

theorem commitsAt_natCast (c : HeadersSyncSetup) (height : ℕ) :
    c.commitsAt height = true ↔ IsCommitmentHeight c height := by
  rw [HeadersSyncSetup.commitsAt, toSizeT_natCast, beq_iff_eq, IsCommitmentHeight]

section Work

variable (c : HeadersSyncSetup)

theorem chainWork_append_singleton (headers : List CBlockHeader) (header : CBlockHeader) :
    chainWork c (headers ++ [header]) = chainWork c headers + headerProof header := by
  simp [chainWork]

theorem reachesWork_nil : reachesWork c [] = false := by
  simp [reachesWork]

theorem reachesWork_append_singleton (headers : List CBlockHeader) (header : CBlockHeader) :
    reachesWork c (headers ++ [header]) =
      (reachesWork c headers ||
        !(chainWork c (headers ++ [header])).blt c.m_minimum_required_work) := by
  have hne : (headers ++ [header]).isEmpty = false := by simp
  simp [reachesWork, List.inits_append, hne]

theorem totalWork_append_singleton (headers : List CBlockHeader) (header : CBlockHeader) :
    totalWork c (headers ++ [header]) = totalWork c headers + (headerProof header).toNat := by
  simp [totalWork, Nat.add_assoc]

theorem toNat_chainWork_le (headers : List CBlockHeader) :
    (chainWork c headers).toNat ≤ totalWork c headers := by
  induction headers using List.reverseRecOn with
  | nil => simp [chainWork, totalWork]
  | append_singleton headers header ih =>
    rw [chainWork_append_singleton, ArithUint256.toNat_add]
    have hmod := Nat.mod_le ((chainWork c headers).toNat + (headerProof header).toNat) (2 ^ 256)
    have htotal := totalWork_append_singleton c headers header
    omega

theorem le_totalWork_of_reachesWork {headers : List CBlockHeader}
    (h : reachesWork c headers = true) :
    c.m_minimum_required_work.toNat ≤ totalWork c headers := by
  induction headers using List.reverseRecOn with
  | nil => simp [reachesWork_nil] at h
  | append_singleton headers header ih =>
    have htotal := totalWork_append_singleton c headers header
    rw [reachesWork_append_singleton, Bool.or_eq_true] at h
    rcases h with h | h
    · have := ih h
      omega
    · have hle := toNat_chainWork_le c (headers ++ [header])
      rw [ArithUint256.blt_eq, Bool.not_eq_true', decide_eq_false_iff_not] at h
      omega

end Work

section Phases

variable (getHash : CBlockHeader → Uint256) (c : HeadersSyncSetup)

/-! ## The first download -/

/-- The bits of a chain on top of `chain_start`, at its commitment heights. -/
def commitmentBits (headers : List CBlockHeader) : List Bool :=
  samples (fun height => c.commitsAt height) (commitmentBit getHash c)
    (c.m_chain_start.nHeight + 1) headers

/-- The state in the first download, after `presynced` was received. -/
structure Presyncing (presynced : List CBlockHeader) (s : HeadersSyncState) : Prop where
  phase : s.m_download_state = .presync
  height : s.m_current_height = c.m_chain_start.nHeight + presynced.length
  work : s.m_current_chain_work = chainWork c presynced
  commitments : s.m_header_commitments = commitmentBits getHash c presynced
  undecided : s.m_process_all_remaining_headers = false

variable {getHash c}

theorem commitmentBits_append_singleton (headers : List CBlockHeader) (header : CBlockHeader) :
    commitmentBits getHash c (headers ++ [header]) = commitmentBits getHash c headers ++
      if c.commitsAt ((c.m_chain_start.nHeight + headers.length + 1 : ℕ) : ℤ)
      then [commitmentBit getHash c header] else [] := by
  rw [commitmentBits, samples_append, samples_singleton, Nat.add_right_comm]
  rfl

theorem Presyncing.create : Presyncing getHash c [] (.create c) :=
  ⟨rfl, by simp [HeadersSyncState.create], rfl, rfl, rfl⟩

variable {presynced : List CBlockHeader} {s s' : HeadersSyncState}

section

variable (P : Presyncing getHash c presynced s)

include P

variable (hfit : c.m_chain_start.nHeight + presynced.length + 1 < 2 ^ 31)

include hfit

theorem Presyncing.next_height : toInt32 (s.m_current_height + 1) =
      ((c.m_chain_start.nHeight + presynced.length + 1 : ℕ) : ℤ) := by
  rw [P.height]
  have hcast : ((c.m_chain_start.nHeight : ℤ) + presynced.length + 1) =
      ((c.m_chain_start.nHeight + presynced.length + 1 : ℕ) : ℤ) := by
    push_cast
    ring
  rw [hcast]
  apply toInt32_of_lt
  · exact Int.natCast_nonneg _
  · exact_mod_cast hfit

theorem Presyncing.single_eq (hdr : CBlockHeader) :
    validateAndProcessSingleHeader getHash c hdr s =
      let next_height := ((c.m_chain_start.nHeight + presynced.length + 1 : ℕ) : ℤ)
      let s := { s with m_header_commitments := commitmentBits getHash c (presynced ++ [hdr]) }
      if c.commitsAt next_height = true ∧ c.m_max_commitments < s.m_header_commitments.length
      then (false, s) else (true, advancePresync hdr next_height s) := by
  unfold validateAndProcessSingleHeader
  rw [P.next_height hfit, if_neg (not_not.mpr P.phase),
    if_neg (by simp [permittedDifficultyTransition]), commitmentBits_append_singleton,
    ← P.commitments]
  by_cases hcommit : c.commitsAt ((c.m_chain_start.nHeight + presynced.length + 1 : ℕ) : ℤ) = true
  · simp only [hcommit, if_true, true_and]
  · simp only [hcommit, Bool.false_eq_true, if_false, false_and, List.append_nil]

/-- **A header that the first download takes** adds its work, and its bit at a
commitment height.
SOURCE: src/src/headerssync.cpp:174-210 -/
theorem Presyncing.single_sound (hdr : CBlockHeader)
    (h : validateAndProcessSingleHeader getHash c hdr s = (true, s')) :
    Presyncing getHash c (presynced ++ [hdr]) s' ∧ s'.m_last_header_received = hdr := by
  have hheight : ((c.m_chain_start.nHeight + presynced.length + 1 : ℕ) : ℤ) =
      c.m_chain_start.nHeight + (presynced ++ [hdr]).length := by
    simp [Int.add_assoc]
  rw [P.single_eq hfit] at h
  dsimp only at h
  split_ifs at h with hmax
  · cases congrArg Prod.fst h
  · obtain rfl : advancePresync _ _ _ = s' := congrArg Prod.snd h
    refine ⟨⟨P.phase, hheight, ?_, rfl, P.undecided⟩, rfl⟩
    rw [chainWork_append_singleton, ← P.work]
    rfl

/-- The first download takes every header within the bound on commitments.
SOURCE: src/src/headerssync.cpp:192-203 -/
theorem Presyncing.single_complete (hdr : CBlockHeader)
    (hmax : (commitmentBits getHash c (presynced ++ [hdr])).length ≤ c.m_max_commitments) :
    ∃ s', validateAndProcessSingleHeader getHash c hdr s = (true, s') := by
  rw [P.single_eq hfit]
  dsimp only
  rw [if_neg fun hover => Nat.not_lt.mpr hmax hover.2]
  exact ⟨_, rfl⟩

end

/-! ## The second download -/

variable (getHash c) in
/-- The state in the second download, after `presynced` was received in the first and
`released ++ buffered` in the second, of which `buffered` is still held back. -/
structure Redownloading (presynced released buffered : List CBlockHeader) (s : HeadersSyncState) :
    Prop where
  phase : s.m_download_state = .redownload
  chain : ChainFromStart getHash c (released ++ buffered)
  height : s.m_redownload_buffer_last_height =
    c.m_chain_start.nHeight + (released ++ buffered).length
  lastHash : s.m_redownload_buffer_last_hash =
    HashChain.lastHash getHash c.m_chain_start.getBlockHash (released ++ buffered)
  firstPrev : s.m_redownload_buffer_first_prev_hash =
    HashChain.lastHash getHash c.m_chain_start.getBlockHash released
  buffer : s.m_redownloaded_headers = buffered.map .ofHeader
  work : s.m_redownload_chain_work = chainWork c (released ++ buffered)
  all : s.m_process_all_remaining_headers = reachesWork c (released ++ buffered)
  commitments : s.m_process_all_remaining_headers = false →
    commitmentBits getHash c presynced =
      commitmentBits getHash c (released ++ buffered) ++ s.m_header_commitments

theorem Presyncing.startRedownload (P : Presyncing getHash c presynced s) :
    Redownloading getHash c presynced [] [] (startRedownload c s) where
  phase := rfl
  chain := trivial
  height := by simp [Model.startRedownload]
  lastHash := rfl
  firstPrev := rfl
  buffer := rfl
  work := rfl
  all := by rw [List.append_nil, reachesWork_nil]; exact P.undecided
  commitments := fun _ => P.commitments.symm

variable {released buffered : List CBlockHeader}

section

variable (R : Redownloading getHash c presynced released buffered s)

include R

theorem Redownloading.store
    (hdr : CBlockHeader) (hprev : hdr.hashPrevBlock = s.m_redownload_buffer_last_hash)
    (left : List Bool)
    (hleft : reachesWork c (released ++ (buffered ++ [hdr])) = false →
      commitmentBits getHash c presynced =
        commitmentBits getHash c (released ++ (buffered ++ [hdr])) ++ left) :
    Redownloading getHash c presynced released (buffered ++ [hdr])
      (storeRedownloaded getHash hdr (s.m_redownload_buffer_last_height + 1) { s with
        m_redownload_chain_work := s.m_redownload_chain_work + headerProof hdr
        m_process_all_remaining_headers := reachesWork c (released ++ (buffered ++ [hdr]))
        m_header_commitments := left }) where
  phase := R.phase
  chain := by
    rw [← List.append_assoc]
    exact (linked_append _ _ _ _ _).mpr ⟨R.chain, hprev.trans R.lastHash, trivial⟩
  height := by
    simp only [storeRedownloaded, R.height, List.length_append, List.length_singleton]
    push_cast
    ring
  lastHash := by
    rw [← List.append_assoc, lastHash_append]
    rfl
  firstPrev := R.firstPrev
  buffer := by
    simp [storeRedownloaded, R.buffer]
  work := by
    rw [← List.append_assoc, chainWork_append_singleton, ← R.work]
    rfl
  all := rfl
  commitments := hleft

/-- **When the second download takes a header**: it follows the last one, and where
its height has a bit that is still looked at, that bit is the next of the queue.
SOURCE: src/src/headerssync.cpp:212-273 -/
theorem Redownloading.single_iff (hdr : CBlockHeader) :
    validateAndStoreRedownloadedHeader getHash c hdr s = (true, s') ↔
      hdr.hashPrevBlock = s.m_redownload_buffer_last_hash ∧
      ∃ left, s' = storeRedownloaded getHash hdr (s.m_redownload_buffer_last_height + 1) { s with
          m_redownload_chain_work := s.m_redownload_chain_work + headerProof hdr
          m_process_all_remaining_headers := reachesWork c (released ++ (buffered ++ [hdr]))
          m_header_commitments := left } ∧
        s.m_header_commitments =
          (if !reachesWork c (released ++ (buffered ++ [hdr])) &&
              c.commitsAt (s.m_redownload_buffer_last_height + 1)
            then [commitmentBit getHash c hdr] else []) ++ left := by
  have hreach : (s.m_process_all_remaining_headers ||
      !(s.m_redownload_chain_work + headerProof hdr).blt c.m_minimum_required_work) =
      reachesWork c (released ++ (buffered ++ [hdr])) := by
    rw [← List.append_assoc, reachesWork_append_singleton, chainWork_append_singleton, R.all,
      R.work]
  unfold validateAndStoreRedownloadedHeader
  rw [if_neg (not_not.mpr R.phase)]
  by_cases hprev : hdr.hashPrevBlock = s.m_redownload_buffer_last_hash
  · rw [if_neg (not_not.mpr hprev), if_neg (by simp [permittedDifficultyTransition])]
    simp only [hreach, hprev, true_and]
    by_cases hlook : (!reachesWork c (released ++ (buffered ++ [hdr])) &&
        c.commitsAt (s.m_redownload_buffer_last_height + 1)) = true
    · rw [if_pos hlook, if_pos hlook]
      cases hqueue : s.m_header_commitments with
      | nil => simp
      | cons expected rest =>
        by_cases hbit : commitmentBit getHash c hdr = expected
        · simp [hbit, eq_comm]
        · simp [hbit, Ne.symm hbit]
    · rw [if_neg hlook, if_neg hlook]
      simp [eq_comm]
  · rw [if_pos hprev]
    simp [hprev]

theorem Redownloading.next_height :
    s.m_redownload_buffer_last_height + 1 =
      ((c.m_chain_start.nHeight + (released ++ buffered).length + 1 : ℕ) : ℤ) := by
  rw [R.height]
  push_cast
  ring

theorem Redownloading.commitmentBits_snoc
    (hdr : CBlockHeader)
    (hreach : reachesWork c (released ++ (buffered ++ [hdr])) = false) :
    commitmentBits getHash c (released ++ (buffered ++ [hdr])) =
      commitmentBits getHash c (released ++ buffered) ++
        if !reachesWork c (released ++ (buffered ++ [hdr])) &&
          c.commitsAt (s.m_redownload_buffer_last_height + 1)
        then [commitmentBit getHash c hdr] else [] := by
  rw [hreach, ← List.append_assoc, commitmentBits_append_singleton, R.next_height]
  rfl

theorem Redownloading.queue
    (hdr : CBlockHeader) (hreach : reachesWork c (released ++ (buffered ++ [hdr])) = false) :
    commitmentBits getHash c presynced =
      commitmentBits getHash c (released ++ buffered) ++ s.m_header_commitments := by
  apply R.commitments
  rw [R.all]
  rw [← List.append_assoc, reachesWork_append_singleton, Bool.or_eq_false_iff] at hreach
  exact hreach.1

theorem Redownloading.single_sound
    (hdr : CBlockHeader) (h : validateAndStoreRedownloadedHeader getHash c hdr s = (true, s')) :
    Redownloading getHash c presynced released (buffered ++ [hdr]) s' := by
  obtain ⟨hprev, left, rfl, hqueue⟩ := (R.single_iff hdr).mp h
  apply R.store hdr hprev left
  intro hreach
  rw [R.queue hdr hreach, hqueue, R.commitmentBits_snoc hdr hreach, List.append_assoc]

/-- The second download takes a header that follows the last one, when its bits are
those of the first download as long as they are looked at. -/
theorem Redownloading.single_complete
    (hdr : CBlockHeader) (hprev : hdr.hashPrevBlock = s.m_redownload_buffer_last_hash)
    (hbits : reachesWork c (released ++ (buffered ++ [hdr])) = false →
      commitmentBits getHash c (released ++ (buffered ++ [hdr])) <+:
        commitmentBits getHash c presynced) :
    ∃ s', validateAndStoreRedownloadedHeader getHash c hdr s = (true, s') := by
  cases hreach : reachesWork c (released ++ (buffered ++ [hdr])) with
  | true => exact ⟨_, (R.single_iff hdr).mpr ⟨hprev, s.m_header_commitments, rfl, by simp [hreach]⟩⟩
  | false =>
    obtain ⟨left, hleft⟩ := hbits hreach
    refine ⟨_, (R.single_iff hdr).mpr ⟨hprev, left, rfl, ?_⟩⟩
    rw [R.queue hdr hreach, R.commitmentBits_snoc hdr hreach, List.append_assoc,
      List.append_cancel_left_eq] at hleft
    exact hleft.symm

end

/-! ## Releasing headers -/

theorem getFullHeader_ofHeader (header : CBlockHeader) :
    (CompressedHeader.ofHeader header).getFullHeader header.hashPrevBlock = header := rfl

/-- **The buffer is rebuilt header by header as it is released.**  The induction is on
the headers that were stored.
SOURCE: src/src/headerssync.cpp:275-291 -/
theorem popHeadersLoop_eq (buffer_size : ℕ) (all : Bool) (prev : Uint256)
    (headers : List CBlockHeader) (hlink : Linked getHash (·.hashPrevBlock) prev headers) :
    popHeadersLoop getHash buffer_size all prev (headers.map .ofHeader) =
      let n := if all then headers.length else headers.length - buffer_size
      (headers.take n, HashChain.lastHash getHash prev (headers.take n),
        (headers.drop n).map .ofHeader) := by
  induction headers generalizing prev with
  | nil => simp [popHeadersLoop]
  | cons header rest ih =>
    obtain ⟨rfl, hrest⟩ := hlink
    have hrec := ih _ hrest
    dsimp only at hrec ⊢
    rw [List.map_cons, popHeadersLoop]
    split
    case isTrue hcond =>
      have hn : (if all = true then (header :: rest).length
          else (header :: rest).length - buffer_size) =
          (if all = true then rest.length else rest.length - buffer_size) + 1 := by
        simp only [List.length_cons, List.length_map, Bool.or_eq_true, decide_eq_true_eq]
          at hcond ⊢
        rcases hcond with hlt | rfl
        · split
          · rfl
          · omega
        · rfl
      rw [hn]
      simp only [getFullHeader_ofHeader, hrec, List.take_succ_cons, List.drop_succ_cons,
        lastHash_cons]
    case isFalse hcond =>
      simp only [List.length_cons, List.length_map, Bool.or_eq_true, decide_eq_true_eq,
        not_or, Bool.not_eq_true] at hcond
      have hn : rest.length + 1 - buffer_size = 0 := by omega
      simp [hcond.2, hn]

section

variable (R : Redownloading getHash c presynced released buffered s)

include R

/-- **Releasing** cuts the buffer in two and hands out the front: everything once the
work is reached, else what lies under a full buffer. -/
theorem Redownloading.pop :
    ∃ out left, buffered = out ++ left ∧
      (popHeadersReadyForAcceptance getHash c s).1 = out ∧
      Redownloading getHash c presynced (released ++ out) left
        (popHeadersReadyForAcceptance getHash c s).2 ∧
      (s.m_process_all_remaining_headers = true → left = []) ∧
      (s.m_process_all_remaining_headers = false → out ≠ [] →
        left.length = c.m_params.redownload_buffer_size) := by
  have hlink := ((linked_append _ _ _ _ _).mp R.chain).2
  have hloop := popHeadersLoop_eq c.m_params.redownload_buffer_size
    s.m_process_all_remaining_headers _ buffered hlink
  rw [← R.firstPrev, ← R.buffer] at hloop
  unfold popHeadersReadyForAcceptance
  rw [if_neg (not_not.mpr R.phase), hloop]
  dsimp only
  generalize hn : (if s.m_process_all_remaining_headers = true then buffered.length
    else buffered.length - c.m_params.redownload_buffer_size) = n
  have hcut : released ++ buffered.take n ++ buffered.drop n = released ++ buffered := by
    rw [List.append_assoc, List.take_append_drop]
  refine ⟨buffered.take n, buffered.drop n, (List.take_append_drop n buffered).symm, rfl, ?_, ?_, ?_⟩
  · constructor
    case phase => exact R.phase
    case chain => rw [hcut]; exact R.chain
    case height => rw [hcut]; exact R.height
    case lastHash => rw [hcut]; exact R.lastHash
    case firstPrev => rw [lastHash_append, ← R.firstPrev]
    case buffer => rfl
    case work => rw [hcut]; exact R.work
    case all => rw [hcut]; exact R.all
    case commitments => rw [hcut]; exact R.commitments
  · intro hall
    rw [if_pos hall] at hn
    rw [← hn, List.drop_length]
  · intro hall hout
    rw [if_neg (by simp [hall])] at hn
    have hpos : n ≠ 0 := by
      rintro rfl
      exact hout (List.take_zero)
    rw [List.length_drop]
    omega

/-- As long as the work is not reached, the bits looked at are those of the first
download. -/
theorem Redownloading.commitmentsMatch
    (hall : s.m_process_all_remaining_headers = false) :
    CommitmentsMatch getHash c presynced (released ++ buffered) := by
  intro i header hi hheight
  apply agree_of_samples _ _ _ _ _ _ (R.commitments hall) i header hi
  exact (commitsAt_natCast c _).mpr hheight

/-- **What is released is released safely.** -/
theorem Redownloading.safelyReleased
    (header : CBlockHeader) (h : header ∈ (popHeadersReadyForAcceptance getHash c s).1) :
    SafelyReleased getHash c presynced (released ++ buffered) header := by
  obtain ⟨out, left, hcut, hout, -, -, hleft⟩ := R.pop
  rw [hout] at h
  refine ⟨R.chain, ?_⟩
  obtain ⟨front, back, rfl⟩ := List.append_of_mem h
  refine ⟨released ++ front, back ++ left, by simp [hcut], ?_⟩
  cases hall : s.m_process_all_remaining_headers with
  | true =>
    rw [R.all] at hall
    exact .inl (le_totalWork_of_reachesWork c hall)
  | false =>
    refine .inr ⟨?_, R.commitmentsMatch hall⟩
    have := hleft hall (by simp)
    rw [List.length_append]
    omega

end

/-! ## Messages -/

/-- **A message that the first download takes** leaves it in the first download below
the required work, and at the start of the second from there on.
SOURCE: src/src/headerssync.cpp:136-172 -/
theorem Presyncing.message_sound (P : Presyncing getHash c presynced s)
    (headers : List CBlockHeader)
    (hfit : c.m_chain_start.nHeight + (presynced ++ headers).length < 2 ^ 31)
    (h : validateAndStoreHeadersCommitments getHash c headers s = (true, s')) :
    Presyncing getHash c (presynced ++ headers) s' ∨
      Redownloading getHash c (presynced ++ headers) [] [] s' := by
  cases headers with
  | nil =>
    obtain rfl : s = s' := congrArg Prod.snd h
    rw [List.append_nil]
    exact .inl P
  | cons first rest =>
    rw [validateAndStoreHeadersCommitments, if_neg (not_not.mpr P.phase)] at h
    split_ifs at h with hprev
    · cases congrArg Prod.fst h
    · split at h
      case h_1 s₁ hrun => cases congrArg Prod.fst h
      case h_2 s₁ hrun =>
        have P₁ : Presyncing getHash c (presynced ++ first :: rest) s₁ := by
          apply whileAccepted_sound _ _ presynced s s₁ P rfl hrun
          intro done hdr rest' s₂ s₃ P₂ hall hstep
          refine (P₂.single_sound ?_ hdr hstep).1
          rw [← hall, List.length_append, List.length_cons] at hfit
          omega
        split_ifs at h with hwork
        · obtain rfl : s₁ = s' := congrArg Prod.snd h
          exact .inl P₁
        · obtain rfl : Model.startRedownload c s₁ = s' := congrArg Prod.snd h
          exact .inr P₁.startRedownload

variable (getHash c) in
/-- The state after `presynced` was received in the first download and `redownloaded` in the
second. -/
inductive Synced (presynced redownloaded : List CBlockHeader) (s : HeadersSyncState) : Prop where
  | presync (P : Presyncing getHash c presynced s) (h : redownloaded = [])
  | redownload (released buffered : List CBlockHeader) (h : redownloaded = released ++ buffered)
      (R : Redownloading getHash c presynced released buffered s)
  | final (h : s.m_download_state = .final)

variable {redownloaded : List CBlockHeader}

theorem Synced.finish {r : ProcessingResult × HeadersSyncState}
    (h : r.1.success = true → Synced getHash c presynced redownloaded r.2) :
    Synced getHash c presynced redownloaded
      (if r.1.success && r.1.request_more then r else (r.1, finalize r.2)).2 := by
  split
  case isTrue hcond => exact h (Bool.and_eq_true_iff.mp hcond).1
  case isFalse hcond => exact .final rfl

/-- A message in the first download.
SOURCE: src/src/headerssync.cpp:77-97 -/
theorem Presyncing.processPresync (P : Presyncing getHash c presynced s)
    (msg : HeadersMessage)
    (hfit : c.m_chain_start.nHeight + (presynced ++ msg.headers).length < 2 ^ 31)
    (h : (processPresync getHash c msg.headers msg.full s).1.success = true) :
    Synced getHash c (presynced ++ msg.headers) []
      (Model.processPresync getHash c msg.headers msg.full s).2 := by
  unfold Model.processPresync at h ⊢
  rcases hrun : validateAndStoreHeadersCommitments getHash c msg.headers s with ⟨success, s₁⟩
  rw [hrun] at h
  obtain rfl : success = true := h
  rcases P.message_sound msg.headers hfit hrun with P₁ | R₁
  · exact .presync P₁ rfl
  · exact .redownload [] [] rfl R₁

/-- A message in the second download.
SOURCE: src/src/headerssync.cpp:98-130 -/
theorem Redownloading.processRedownload
    (R : Redownloading getHash c presynced released buffered s) (msg : HeadersMessage) :
    ((processRedownload getHash c msg.headers msg.full s).1.success = true →
      Synced getHash c presynced (released ++ buffered ++ msg.headers)
        (Model.processRedownload getHash c msg.headers msg.full s).2) ∧
    ∀ header ∈ (Model.processRedownload getHash c msg.headers msg.full s).1.pow_validated_headers,
      SafelyReleased getHash c presynced (released ++ buffered ++ msg.headers) header := by
  unfold Model.processRedownload
  split
  case h_1 s₁ hrun => simp
  case h_2 s₁ hrun =>
    have R₁ : Redownloading getHash c presynced released (buffered ++ msg.headers) s₁ := by
      apply whileAccepted_sound _ _ buffered s s₁ R rfl hrun
      intro done hdr rest s₂ s₃ R₂ _ hstep
      exact R₂.single_sound hdr hstep
    obtain ⟨out, left, hcut, -, R₂, -, -⟩ := R₁.pop
    rw [List.append_assoc]
    refine ⟨fun _ => .redownload (released ++ out) left ?_ R₂, fun header hmem => ?_⟩
    · rw [hcut, List.append_assoc]
    · exact R₁.safelyReleased header hmem

theorem processNextHeaders_presync {headers : List CBlockHeader} (hne : headers ≠ []) (full : Bool)
    (hphase : s.m_download_state = .presync) :
    processNextHeaders getHash c headers full s =
      let r := processPresync getHash c headers full s
      if r.1.success && r.1.request_more then r else (r.1, finalize r.2) := by
  simp only [processNextHeaders, List.isEmpty_eq_false_iff.mpr hne, hphase, Bool.false_eq_true,
    if_false]

theorem processNextHeaders_redownload {headers : List CBlockHeader} (hne : headers ≠ [])
    (full : Bool) (hphase : s.m_download_state = .redownload) :
    processNextHeaders getHash c headers full s =
      let r := processRedownload getHash c headers full s
      if r.1.success && r.1.request_more then r else (r.1, finalize r.2) := by
  simp only [processNextHeaders, List.isEmpty_eq_false_iff.mpr hne, hphase, Bool.false_eq_true,
    if_false]

theorem processNextHeaders_final (headers : List CBlockHeader) (full : Bool)
    (hs : s.m_download_state = .final) :
    processNextHeaders getHash c headers full s = ({}, s) := by
  simp [processNextHeaders, hs]

theorem finish_fst (r : ProcessingResult × HeadersSyncState) :
    (if r.1.success && r.1.request_more then r else (r.1, finalize r.2)).1 = r.1 := by
  split
  · rfl
  · rfl

/-- The headers of a message, where it arrives in the given phase. -/
def headersIn (phase : HeadersSyncPhase) (s : HeadersSyncState) (msg : HeadersMessage) :
    List CBlockHeader :=
  if s.m_download_state = phase then msg.headers else []

/-- **One call.**  Whatever the message, the state stays the one of the headers
received, and what is released is released safely.
SOURCE: src/src/headerssync.cpp:65-134 -/
theorem Synced.processNextHeaders
    (S : Synced getHash c presynced redownloaded s) (msg : HeadersMessage)
    (hfit : s.m_download_state = .presync → s.m_current_height + msg.headers.length < 2 ^ 31) :
    Synced getHash c (presynced ++ headersIn .presync s msg)
        (redownloaded ++ headersIn .redownload s msg)
        (processNextHeaders getHash c msg.headers msg.full s).2 ∧
      ∀ header ∈ (Model.processNextHeaders getHash c msg.headers msg.full
          s).1.pow_validated_headers,
        SafelyReleased getHash c (presynced ++ headersIn .presync s msg)
          (redownloaded ++ headersIn .redownload s msg) header := by
  by_cases hne : msg.headers = []
  · simp only [headersIn, hne, ite_self, List.append_nil]
    exact ⟨S, by simp [Model.processNextHeaders]⟩
  cases S with
  | presync P h =>
    have hlen : c.m_chain_start.nHeight + (presynced ++ msg.headers).length < 2 ^ 31 := by
      have := hfit P.phase
      rw [P.height] at this
      rw [List.length_append]
      omega
    simp only [headersIn, P.phase, reduceCtorEq, if_true, if_false, h, List.append_nil,
      processNextHeaders_presync hne msg.full P.phase]
    refine ⟨Synced.finish (P.processPresync msg hlen), ?_⟩
    rw [finish_fst]
    simp [Model.processPresync]
  | redownload released buffered h R =>
    obtain ⟨hsynced, hsafe⟩ := R.processRedownload msg
    simp only [headersIn, R.phase, reduceCtorEq, if_true, if_false, h, List.append_nil,
      processNextHeaders_redownload hne msg.full R.phase]
    refine ⟨Synced.finish hsynced, ?_⟩
    rw [finish_fst]
    exact hsafe
  | final h =>
    rw [processNextHeaders_final _ _ h]
    exact ⟨.final h, by simp⟩

/-! ## Runs -/

/-- **Every run.**  The induction is on the calls; the last call is looked at once the
ones before it are done. -/
theorem Synced.processMessages
    (S : Synced getHash c presynced redownloaded s) (msgs : List HeadersMessage)
    (hfit : HeightsFitInt getHash c s msgs) :
    Synced getHash c (presynced ++ receivedIn getHash c .presync s msgs)
      (redownloaded ++ receivedIn getHash c .redownload s msgs)
      (processMessages getHash c s msgs) := by
  induction msgs generalizing presynced redownloaded s with
  | nil =>
    simp only [receivedIn, List.append_nil]
    exact S
  | cons msg rest ih =>
    obtain ⟨hhere, hrest⟩ := hfit
    have S₁ := (S.processNextHeaders msg hhere).1
    have S₂ := ih S₁ hrest
    simp only [List.append_assoc] at S₂
    exact S₂

theorem heightsFitInt_append (msgs : List HeadersMessage) (msg : HeadersMessage)
    (h : HeightsFitInt getHash c s (msgs ++ [msg])) :
    HeightsFitInt getHash c s msgs ∧
      ((processMessages getHash c s msgs).m_download_state = .presync →
        (processMessages getHash c s msgs).m_current_height + msg.headers.length < 2 ^ 31) := by
  induction msgs generalizing s with
  | nil => exact ⟨trivial, h.1⟩
  | cons msg' rest ih =>
    obtain ⟨hrest, hlast⟩ := ih h.2
    exact ⟨⟨h.1, hrest⟩, hlast⟩

theorem receivedIn_append (phase : HeadersSyncPhase) (msgs : List HeadersMessage)
    (msg : HeadersMessage) :
    receivedIn getHash c phase s (msgs ++ [msg]) = receivedIn getHash c phase s msgs ++
      headersIn phase (processMessages getHash c s msgs) msg := by
  induction msgs generalizing s with
  | nil => exact List.append_nil _
  | cons msg' rest ih => simp only [List.cons_append, receivedIn, ih, processMessages,
      List.append_assoc]

variable (getHash c)

/-- **Release safety.**  In every sequence of calls whose first-download heights fit an `int`,
whatever the headers, every header a call returns is on a hash-linked chain from `chain_start`,
and the redownloaded chain has the required work, or at least `redownload_buffer_size` later
headers lie on top and the chain agrees with the first download at every commitment height.
SOURCE: src/src/headerssync.cpp:65-291 -/
theorem released_headers_are_safe (msgs : List HeadersMessage) (msg : HeadersMessage)
    (hfit : HeightsFitInt getHash c (.create c) (msgs ++ [msg])) (header : CBlockHeader)
    (h : header ∈ (processNextHeaders getHash c msg.headers msg.full
      (processMessages getHash c (.create c) msgs)).1.pow_validated_headers) :
    SafelyReleased getHash c (receivedIn getHash c .presync (.create c) (msgs ++ [msg]))
      (receivedIn getHash c .redownload (.create c) (msgs ++ [msg])) header := by
  obtain ⟨hbefore, hlast⟩ := heightsFitInt_append msgs msg hfit
  have S := Synced.processMessages (.presync Presyncing.create rfl) msgs hbefore
  simp only [List.nil_append] at S
  rw [receivedIn_append, receivedIn_append]
  exact (S.processNextHeaders msg hlast).2 header h

end Phases

/-! ## A sync at the edge of `int` -/

section Sample

/-- A hash that tells headers apart by their nonce. -/
def nonceHash (header : CBlockHeader) : Uint256 := header.nNonce.setWidth 256

/-- A header of the sample chains, with work two. -/
def sampleHeader (hashPrevBlock : Uint256) (nNonce : BitVec 32) : CBlockHeader :=
  ⟨1, hashPrevBlock, 0#256, 0, 0x207fffff#32, nNonce⟩

/-- The sample chain: three headers on the block with hash 100. -/
def sampleChain : List CBlockHeader :=
  [sampleHeader 100#256 2#32, sampleHeader 2#256 4#32, sampleHeader 4#256 5#32]

/-- A sync from a block of the given height that wants three headers' work and keeps one bit for
every seven headers. -/
def sampleSetup (nHeight buffer_size offset : ℕ) : HeadersSyncSetup :=
  .create (fun _ => none) mainParams ⟨7, buffer_size⟩
    { phashBlock := 100#256, nHeight := nHeight, nVersion := 1, hashMerkleRoot := 0#256,
      nTime := 0, nBits := 0x207fffff#32, nNonce := 100#32 }
    (.ofUInt64 6) offset (fun hash => hash.setWidth 64) 0

/-- The two messages of the sample runs: the chain, then what is served the second time. -/
def sampleCalls (again : List CBlockHeader) : List HeadersMessage :=
  [⟨sampleChain, true⟩, ⟨again, true⟩]

theorem released_headers_are_safe_sample :
    SafelyReleased nonceHash (sampleSetup 0 1 1) sampleChain (sampleChain.take 2)
      (sampleHeader 100#256 2#32) := by
  have hpre : receivedIn nonceHash (sampleSetup 0 1 1) .presync (.create (sampleSetup 0 1 1))
      (sampleCalls (sampleChain.take 2)) = sampleChain := by decide +kernel
  have hre : receivedIn nonceHash (sampleSetup 0 1 1) .redownload (.create (sampleSetup 0 1 1))
      (sampleCalls (sampleChain.take 2)) = sampleChain.take 2 := by decide +kernel
  have hsafe := released_headers_are_safe nonceHash (sampleSetup 0 1 1) [⟨sampleChain, true⟩]
    ⟨sampleChain.take 2, true⟩
    ⟨fun _ => by decide +kernel, fun h => absurd h (by decide +kernel), trivial⟩
    (sampleHeader 100#256 2#32) (by decide +kernel)
  rw [List.singleton_append, ← sampleCalls, hpre, hre] at hsafe
  exact hsafe

/-- From a block of height `INT_MAX` the first download stores the bit of the third header, and
the second download compares its first header with it. -/
theorem released_header_not_safe :
    ∃ header ∈ (processNextHeaders nonceHash (sampleSetup (2 ^ 31 - 1) 0 2)
        [sampleHeader 100#256 7#32] true
        (processMessages nonceHash (sampleSetup (2 ^ 31 - 1) 0 2)
          (.create (sampleSetup (2 ^ 31 - 1) 0 2)) [⟨sampleChain, true⟩])).1.pow_validated_headers,
      ¬ SafelyReleased nonceHash (sampleSetup (2 ^ 31 - 1) 0 2)
        (receivedIn nonceHash (sampleSetup (2 ^ 31 - 1) 0 2) .presync
          (.create (sampleSetup (2 ^ 31 - 1) 0 2)) (sampleCalls [sampleHeader 100#256 7#32]))
        (receivedIn nonceHash (sampleSetup (2 ^ 31 - 1) 0 2) .redownload
          (.create (sampleSetup (2 ^ 31 - 1) 0 2)) (sampleCalls [sampleHeader 100#256 7#32]))
        header := by
  refine ⟨sampleHeader 100#256 7#32, by decide +kernel, ?_⟩
  have hpre : receivedIn nonceHash (sampleSetup (2 ^ 31 - 1) 0 2) .presync
      (.create (sampleSetup (2 ^ 31 - 1) 0 2)) (sampleCalls [sampleHeader 100#256 7#32]) =
        sampleChain := by decide +kernel
  have hre : receivedIn nonceHash (sampleSetup (2 ^ 31 - 1) 0 2) .redownload
      (.create (sampleSetup (2 ^ 31 - 1) 0 2)) (sampleCalls [sampleHeader 100#256 7#32]) =
        [sampleHeader 100#256 7#32] := by decide +kernel
  rw [hpre, hre]
  rintro ⟨-, before, after, -, hwork | ⟨-, hbits⟩⟩
  · exact absurd hwork (by decide +kernel)
  · obtain ⟨first, hfirst, hbit⟩ := hbits 0 _ rfl (by decide +kernel)
    obtain rfl : sampleHeader 100#256 2#32 = first := Option.some.inj hfirst
    exact absurd hbit (by decide +kernel)

end Sample

end BitMinti.Analysis
