import BitMinti.Model.RandomX
import BitMinti.Analysis.HeaderValidation

/-!
# What `GetPoWHash` returns

On one thread `RxInv` ties the label of the VM to the seed it computes under, and a call
returns the RandomX hash under its seed, or the null hash when `randomx_create_vm` gave no
VM.  The callers compare the null hash with the target like any other, so they fail closed
exactly when no VM is ever refused (`powFailsClosed_iff`).

With several threads the cache can be replaced between the section that builds it and the
section that reads it back.  `RxSystemInv` is the invariant that a run keeps as long as no
cache is replaced under another thread's feet (`threads_hash_correct`).
-/

set_option autoImplicit false

namespace BitMinti.Model

/-! ## One thread -/

/-- The globals describe the cache they hold. -/
structure RxGlobalInv (g : RxGlobal) : Prop where
  cache : ∀ c, g.rx_cache = some c → c.seed = g.rx_current_seed
  dataset : ∀ d, g.rx_dataset = some d → d.seed = g.rx_current_seed

/-- A VM of the current version computes under the seed it is labelled with. -/
structure RxInv (s : RxState) : Prop where
  global : RxGlobalInv s.global
  version : s.thread.rx_vm_cache_version ≤ s.global.rx_cache_version
  vm : ∀ vm, s.thread.rx_vm = some vm →
    s.thread.rx_vm_cache_version = s.global.rx_cache_version → vm.seed = s.thread.rx_vm_seed

theorem RxInv.init : RxInv {} where
  global :=
    { cache := by intro c hc; cases hc
      dataset := by intro d hd; cases hd }
  version := le_refl _
  vm := by intro vm hvm; cases hvm

section Call

variable (rx : Uint256 → CBlockHeader → Uint256) {createVm : ℕ → Bool} {miningfastmode : Bool}
variable {seed : Uint256}

variable {g : RxGlobal}

/-- After the exclusive section there is a cache, it was initialised with the
caller's seed, and the version is new when it was replaced.
SOURCE: src/src/primitives/block.cpp:52-77 -/
theorem RxGlobalInv.after_update (G : RxGlobalInv g) (miningfastmode : Bool) (seed : Uint256) :
    RxGlobalInv (updateCache miningfastmode seed g) ∧
      (∃ c, (updateCache miningfastmode seed g).rx_cache = some c) ∧
      (updateCache miningfastmode seed g).rx_current_seed = seed ∧
      (replacesCache g seed = true →
        (updateCache miningfastmode seed g).rx_cache_version = g.rx_cache_version + 1) ∧
      (replacesCache g seed = false → updateCache miningfastmode seed g = g) := by
  unfold updateCache
  by_cases hrep : replacesCache g seed = true
  · simp only [if_pos hrep]
    refine ⟨⟨?_, ?_⟩, ⟨_, rfl⟩, trivial, fun _ => trivial,
      fun hnot => absurd hrep (by simp [hnot])⟩
    · intro c hc
      cases hc
      rfl
    · intro d hd
      cases miningfastmode with
      | false => cases hd
      | true => cases hd; rfl
  · simp only [if_neg hrep]
    have hkept := hrep
    simp only [replacesCache, Bool.or_eq_true, bne_iff_ne, ne_eq, not_or, not_not,
      Option.isNone_iff_eq_none] at hkept
    exact ⟨G, Option.ne_none_iff_exists'.mp hkept.1, hkept.2.symm, fun h => absurd h hrep,
      fun _ => trivial⟩

theorem RxGlobalInv.vm_seed (G : RxGlobalInv g) {c : RandomXCache}
    (hc : g.rx_cache = some c) : (RandomXVm.mk c g.rx_dataset).seed = g.rx_current_seed := by
  unfold RandomXVm.seed
  cases hd : g.rx_dataset with
  | none => exact G.cache c hc
  | some d => exact G.dataset d hd

theorem needsVm_eq_false {t : RxThread} {version : ℕ} :
    needsVm t seed version = false ↔
      (∃ vm, t.rx_vm = some vm) ∧ t.rx_vm_seed = seed ∧ t.rx_vm_cache_version = version := by
  simp [needsVm, Option.isSome_iff_exists, and_assoc]

/-- The VM update from a fresh snapshot: a VM that needs no update is left alone.
SOURCE: src/src/primitives/block.cpp:90-110 -/
theorem rebuildVm_takeSnapshot {c : RandomXCache} (hc : g.rx_cache = some c)
    (seed : Uint256) (created : Bool) (t : RxThread) :
    rebuildVm seed (takeSnapshot g) created t =
      if needsVm t seed g.rx_cache_version then
        ⟨if created then some ⟨c, g.rx_dataset⟩ else none, seed, g.rx_cache_version⟩
      else t := by
  simp only [rebuildVm, takeSnapshot, hc]

section

variable {s : RxState} (I : RxInv s)

include I

/-- **The slow path** asks for a VM on a cache for the caller's seed, and labels the
thread with it.  The version only grows, so the second test finds what the first one found.
SOURCE: src/src/primitives/block.cpp:57-110 -/
theorem RxInv.slow (createVm : ℕ → Bool) (miningfastmode : Bool)
    (hneeds : needsVm s.thread seed s.global.rx_cache_version = true) :
    RxGlobalInv (updateCache miningfastmode seed s.global) ∧
      ∃ vm : RandomXVm, vm.seed = seed ∧ ensureVm createVm miningfastmode seed s =
        { global := updateCache miningfastmode seed s.global
          thread := ⟨if createVm s.created then some vm else none, seed,
            (updateCache miningfastmode seed s.global).rx_cache_version⟩
          created := s.created + 1 } := by
  obtain ⟨G, ⟨c, hc⟩, hcur, hnew, hkept⟩ := I.global.after_update miningfastmode seed
  have hneeds' : needsVm s.thread seed
      (updateCache miningfastmode seed s.global).rx_cache_version = true := by
    cases hrep : replacesCache s.global seed with
    | false => rwa [hkept hrep]
    | true =>
      by_contra hnot
      have hversion := (needsVm_eq_false.mp (Bool.eq_false_iff.mpr hnot)).2.2
      have hnext := hnew hrep
      have hle := I.version
      omega
  refine ⟨G, _, (G.vm_seed hc).trans hcur, ?_⟩
  simp only [ensureVm, hneeds, if_true, rebuildVm_takeSnapshot hc]
  simp only [takeSnapshot, hneeds', if_true]

/-- **One call on one thread**: it keeps the invariant, and any VM it ends with
computes under the caller's seed.
SOURCE: src/src/primitives/block.cpp:43-117 -/
theorem RxInv.after_call (createVm : ℕ → Bool) (miningfastmode : Bool) (seed : Uint256) :
    RxInv (ensureVm createVm miningfastmode seed s) ∧
      (∀ vm, (ensureVm createVm miningfastmode seed s).thread.rx_vm = some vm → vm.seed = seed) ∧
      (createVm s.created = true →
        ∃ vm, (ensureVm createVm miningfastmode seed s).thread.rx_vm = some vm) := by
  cases hfast : needsVm s.thread seed s.global.rx_cache_version with
  | false =>
    -- the fast path: the VM is of the current version and labelled with this seed
    obtain ⟨⟨vm, hvm⟩, hlabel, hversion⟩ := needsVm_eq_false.mp hfast
    simp only [ensureVm, hfast, Bool.false_eq_true, if_false]
    exact ⟨I, fun vm hvm => by rw [I.vm vm hvm hversion, hlabel], fun _ => ⟨vm, hvm⟩⟩
  | true =>
    obtain ⟨G, vm, hseed, hslow⟩ := I.slow createVm miningfastmode hfast
    have hvm : ∀ vm', (if createVm s.created then some vm else none) = some vm' →
        vm'.seed = seed := by
      intro vm' h
      split at h
      · cases h
        exact hseed
      · cases h
    rw [hslow]
    exact ⟨⟨G, le_refl _, fun vm' h _ => hvm vm' h⟩, hvm, fun hcreate => ⟨vm, if_pos hcreate⟩⟩

/-- A call on another thread leaves this thread's VM alone or makes its version
old.
SOURCE: src/src/primitives/block.cpp:57-77 -/
theorem RxInv.after_other (miningfastmode : Bool) (seed : Uint256) :
    RxInv { s with global := updateCache miningfastmode seed s.global } := by
  obtain ⟨G, -, -, hnew, hkept⟩ := I.global.after_update miningfastmode seed
  cases hrep : replacesCache s.global seed with
  | false =>
    rw [hkept hrep]
    exact I
  | true =>
    have hversion := I.version
    have hnext := hnew hrep
    refine ⟨G, ?_, ?_⟩
    · dsimp only
      omega
    · intro vm _ hsame
      dsimp only at hsame
      omega

end

theorem RxReachable.inv {s : RxState} (h : RxReachable createVm miningfastmode s) : RxInv s := by
  induction h with
  | refl => exact RxInv.init
  | tail _ hmove ih =>
    cases hmove with
    | own seed => exact (ih.after_call createVm miningfastmode seed).1
    | other seed => exact ih.after_other miningfastmode seed

end Call

/-! ## The callers -/

/-- The RandomX hash of a header under a seed meets the header's target. -/
def PowMet (rx : Uint256 → CBlockHeader → Uint256) (params : ConsensusParams) (seed : Uint256)
    (block : CBlockHeader) : Prop :=
  ∃ t, deriveTarget block.nBits params.powLimit = some t ∧ (rx seed block).toNat ≤ t.toNat

/-- From the states in `I` on, `getPoWHash` computes `rx`. -/
structure HashesAs {σ : Type} (getPoWHash : PoWHash σ) (I : σ → Prop)
    (rx : Uint256 → CBlockHeader → Uint256) : Prop where
  keeps : ∀ block seed s, I s → I (getPoWHash block seed s).2
  hash : ∀ block seed s, I s → (getPoWHash block seed s).1 = rx seed block

/-- `getPoWHash`, keeping a list of the headers and seeds it is called with. -/
def recordCalls {σ : Type} (getPoWHash : PoWHash σ) :
    PoWHash (σ × List (CBlockHeader × Uint256)) :=
  fun block seed s =>
    let (hash, s') := getPoWHash block seed s.1
    (hash, s', s.2 ++ [(block, seed)])

section Callers

variable {σ : Type} {getPoWHash : PoWHash σ} {I : σ → Prop}
  {rx : Uint256 → CBlockHeader → Uint256} (params : ConsensusParams)

section

variable (H : HashesAs getPoWHash I rx)

include H

variable {s : σ}

theorem HashesAs.powMet {block : CBlockHeader} {seed : Uint256}
    (hs : I s) (hok : (checkHeaderPoW getPoWHash params block seed s).1 = true) :
    PowMet rx params seed block := by
  have h := (checkProofOfWork_iff _ _ _).mp hok
  rwa [H.hash block seed s hs] at h

/-- A header that `ContextualCheckBlockHeader` accepts meets its target.
SOURCE: src/src/validation.cpp:4863-4881 -/
theorem HashesAs.contextual (hs : I s) {m : BlockMap}
    {now : ℤ} {block : CBlockHeader} {e : CBlockIndex}
    (hok : (contextualCheckBlockHeader getPoWHash params m now block e true s).1 = .ok (.ok ())) :
    ∃ seed, contextualSeed m e = some seed ∧ PowMet rx params seed block := by
  rcases contextualCheckBlockHeader_cases getPoWHash params m now block e true s with
    ⟨f, -, hr⟩ | ⟨nBits, -, -, hr⟩ | ⟨-, -, hr⟩ | ⟨seed, s', -, -, hr⟩ | ⟨seed, s', hseed, hpow, -⟩
  · rw [hr] at hok; cases hok
  · rw [hr] at hok; cases hok
  · rw [hr] at hok; cases hok
  · rw [hr] at hok; cases hok
  · exact ⟨seed, hseed, H.powMet params hs (by rw [hpow rfl])⟩

/-- The loop of the batch check, recorded: if it passes, it hashed every header left,
in order, and each meets its target under the seed it was hashed with.
SOURCE: src/src/validation.cpp:4711-4789 -/
theorem HashesAs.hasValidLoop (getHash : CBlockHeader → Uint256)
    (bm : BlockManager) (headers rest : List CBlockHeader) (i : ℕ)
    (pindexPrev : Option CBlockIndex) (prevHash : Uint256) (currentHeight : ℤ) (s : σ)
    (log : List (CBlockHeader × Uint256)) (hs : I s)
    (hok : (hasValidProofOfWorkLoop getPoWHash params getHash bm headers rest i pindexPrev prevHash
      currentHeight s).1 = true) :
    ∃ calls, (hasValidProofOfWorkLoop (recordCalls getPoWHash) params getHash bm headers rest i
        pindexPrev prevHash currentHeight (s, log)).2.2 = log ++ calls ∧
      calls.map Prod.fst = rest ∧ ∀ call ∈ calls, PowMet rx params call.2 call.1 := by
  induction rest generalizing i pindexPrev prevHash currentHeight s log with
  | nil => exact ⟨[], by simp [hasValidProofOfWorkLoop], rfl, by simp⟩
  | cons header rest ih =>
    cases hctx : batchContext params bm header prevHash pindexPrev currentHeight with
    | none => simp [hasValidProofOfWorkLoop, hctx] at hok
    | some ctx =>
      cases hseed : batchSeed getHash bm.m_block_index headers ctx.1 ctx.2 i with
      | none => simp [hasValidProofOfWorkLoop, hctx, hseed] at hok
      | some seed =>
        simp only [hasValidProofOfWorkLoop, hctx, hseed] at hok ⊢
        split at hok
        case isFalse => cases hok
        case isTrue hpow =>
          have hrec : checkHeaderPoW (recordCalls getPoWHash) params header seed (s, log) =
              ((checkHeaderPoW getPoWHash params header seed s).1,
                (checkHeaderPoW getPoWHash params header seed s).2,
                log ++ [(header, seed)]) := rfl
          obtain ⟨calls, hcalls, hfst, hmet⟩ := ih (i + 1) ctx.1 (getHash header) (ctx.2 + 1)
            _ (log ++ [(header, seed)]) (H.keeps header seed s hs) hok
          refine ⟨(header, seed) :: calls, ?_, by rw [List.map_cons, hfst], ?_⟩
          · rw [hrec, if_pos hpow]
            exact hcalls.trans (List.append_cons log (header, seed) calls).symm
          · rw [List.forall_mem_cons]
            exact ⟨H.powMet params hs hpow, hmet⟩

/-- A batch that `HasValidProofOfWork` passes meets its targets, header by header.
SOURCE: src/src/validation.cpp:4686-4790 -/
theorem HashesAs.hasValid (hs : I s)
    {getHash : CBlockHeader → Uint256} {bm : BlockManager} {headers : List CBlockHeader}
    (hok : (hasValidProofOfWork getPoWHash params getHash bm headers s).1 = true) :
    let calls := (hasValidProofOfWork (recordCalls getPoWHash) params getHash bm headers
      (s, [])).2.2
    calls.map Prod.fst = headers ∧ ∀ call ∈ calls, PowMet rx params call.2 call.1 := by
  cases headers with
  | nil => simp [hasValidProofOfWork]
  | cons first rest =>
    simp only [hasValidProofOfWork] at hok ⊢
    split at hok
    case isTrue => cases hok
    case isFalse hknown =>
      obtain ⟨calls, hcalls, hfst, hmet⟩ :=
        H.hasValidLoop params getHash bm _ _ _ _ _ _ s [] hs hok
      rw [if_neg hknown, hcalls]
      exact ⟨hfst, hmet⟩

theorem HashesAs.mineLoop_keeps (seed : Uint256)
    (interrupt : ℕ → Bool) (max_tries : ℕ) (block : CBlockHeader) (s : σ) (hs : I s) :
    I (mineLoop getPoWHash params seed interrupt max_tries block s).2.2 := by
  induction max_tries generalizing block s with
  | zero => exact hs
  | succ n ih =>
    unfold mineLoop
    split
    · dsimp only
      split
      · exact ih _ _ (H.keeps block seed s hs)
      · exact H.keeps block seed s hs
    · exact hs

theorem HashesAs.checkMined_met (hs : I s)
    {seed : Uint256} {nthreads : ℕ} {interrupted : Bool} {block mined : CBlockHeader}
    (hok : (checkMined getPoWHash params seed nthreads interrupted block s).1 = some mined) :
    PowMet rx params seed mined := by
  unfold checkMined at hok
  split at hok
  · cases hok
  · dsimp only at hok
    split at hok
    · cases hok
    · split at hok
      · cases hok
      · rename_i hfound _
        cases hok
        exact H.powMet params hs (by simpa using hfound)

/-- A block that `GenerateBlock` hands out meets its target under the seed it was
mined with, whatever the workers report.
SOURCE: src/src/rpc/mining.cpp:151-255 -/
theorem HashesAs.generateBlock_met (hs : I s) {bm : BlockManager} {nthreads : ℕ}
    {workers : CBlockHeader → Uint256 → σ → WorkersResult × σ}
    (hworkers : ∀ block seed s, I s → I (workers block seed s).2) {interrupt : ℕ → Bool}
    {interrupted : Bool} {max_tries : ℕ} {block mined : CBlockHeader}
    (hok : (generateBlock getPoWHash params bm nthreads workers interrupt interrupted max_tries
      block s).1 = some mined) :
    PowMet rx params (generateBlockSeed bm block) mined := by
  unfold generateBlock at hok
  dsimp only at hok
  split at hok
  · exact H.checkMined_met params (H.mineLoop_keeps params _ _ _ _ s hs) hok
  · split at hok
    · cases hok
    · exact H.checkMined_met params (hworkers block _ s hs) hok

end

end Callers

/-! ## A VM that is refused -/

section Refused

variable (createVm : ℕ → Bool) (miningfastmode : Bool)

/-- Proof of work fails closed: in every state a thread can find itself in, whatever one of
the three callers accepts meets its target under the seed the caller used. -/
def PowFailsClosed : Prop :=
  ∀ (params : ConsensusParams) (rx : Uint256 → CBlockHeader → Uint256) (s : RxState),
    RxReachable createVm miningfastmode s →
    (∀ (m : BlockMap) (now : ℤ) (block : CBlockHeader) (e : CBlockIndex),
      (contextualCheckBlockHeader (getPoWHash rx createVm miningfastmode) params m now block e
        true s).1 = .ok (.ok ()) →
      ∃ seed, contextualSeed m e = some seed ∧ PowMet rx params seed block) ∧
    (∀ (getHash : CBlockHeader → Uint256) (bm : BlockManager) (headers : List CBlockHeader),
      (hasValidProofOfWork (getPoWHash rx createVm miningfastmode) params getHash bm headers
        s).1 = true →
      let calls := (hasValidProofOfWork (recordCalls (getPoWHash rx createVm miningfastmode))
        params getHash bm headers (s, [])).2.2
      calls.map Prod.fst = headers ∧ ∀ call ∈ calls, PowMet rx params call.2 call.1) ∧
    ∀ (bm : BlockManager) (nthreads : ℕ)
      (workers : CBlockHeader → Uint256 → RxState → WorkersResult × RxState),
      (∀ block seed s, RxReachable createVm miningfastmode s →
        RxReachable createVm miningfastmode (workers block seed s).2) →
      ∀ (interrupt : ℕ → Bool) (interrupted : Bool) (max_tries : ℕ) (block mined : CBlockHeader),
        (generateBlock (getPoWHash rx createVm miningfastmode) params bm nthreads workers
          interrupt interrupted max_tries block s).1 = some mined →
        PowMet rx params (generateBlockSeed bm block) mined

variable {createVm miningfastmode}

theorem hashesAs_of_created (rx : Uint256 → CBlockHeader → Uint256) (miningfastmode : Bool)
    (hcreate : ∀ n, createVm n = true) :
    HashesAs (getPoWHash rx createVm miningfastmode) (RxReachable createVm miningfastmode) rx where
  keeps block seed s hs := hs.tail (.own seed)
  hash block seed s hs := by
    obtain ⟨-, hseed, hvm⟩ := hs.inv.after_call createVm miningfastmode seed
    obtain ⟨vm, hvm⟩ := hvm (hcreate _)
    simp only [getPoWHash, vmHash, hvm, hseed vm hvm]

/-- Every number of requests is reached, by alternating between two seeds, in a
state where a call under the null seed makes the next request. -/
theorem exists_reachable_created (createVm : ℕ → Bool) (miningfastmode : Bool) (n : ℕ) :
    ∃ s, RxReachable createVm miningfastmode s ∧ s.created = n ∧
      ∀ version, needsVm s.thread 0#256 version = true := by
  suffices h : ∃ s, RxReachable createVm miningfastmode s ∧ s.created = n ∧
      (s.thread.rx_vm = none ∨ s.thread.rx_vm_seed ≠ 0#256) by
    obtain ⟨s, hs, hn, hvm⟩ := h
    refine ⟨s, hs, hn, fun version => ?_⟩
    rcases hvm with hvm | hvm
    · simp [needsVm, hvm]
    · simp [needsVm, hvm]
  induction n with
  | zero => exact ⟨{}, .refl, rfl, .inl rfl⟩
  | succ n ih =>
    obtain ⟨s, hs, hn, -⟩ := ih
    obtain ⟨seed, hseed, hother⟩ : ∃ seed : Uint256, seed ≠ 0#256 ∧ s.thread.rx_vm_seed ≠ seed := by
      by_cases h1 : s.thread.rx_vm_seed = 1#256
      · exact ⟨2#256, by decide, by rw [h1]; decide⟩
      · exact ⟨1#256, by decide, h1⟩
    obtain ⟨-, vm, -, hslow⟩ := hs.inv.slow createVm miningfastmode
      (show needsVm s.thread seed _ = true by simp [needsVm, hother])
    exact ⟨_, hs.tail (.own seed), by rw [hslow, hn], .inr (by rw [hslow]; exact hseed)⟩

/-- A call that needs a VM and gets none returns the null hash.
SOURCE: src/src/primitives/block.cpp:103-116 -/
theorem RxInv.refused {s : RxState} (I : RxInv s) (rx : Uint256 → CBlockHeader → Uint256)
    (miningfastmode : Bool) (hrefused : createVm s.created = false) {seed : Uint256}
    (hneeds : needsVm s.thread seed s.global.rx_cache_version = true) (block : CBlockHeader) :
    (getPoWHash rx createVm miningfastmode block seed s).1 = 0#256 ∧
      (ensureVm createVm miningfastmode seed s).thread.rx_vm = none := by
  obtain ⟨-, vm, -, hslow⟩ := I.slow createVm miningfastmode hneeds
  simp [getPoWHash, hslow, hrefused, vmHash]

theorem hasValidProofOfWork_root {σ : Type} (hash : PoWHash σ) (params : ConsensusParams)
    (getHash : CBlockHeader → Uint256) {header : CBlockHeader} (hprev : header.hashPrevBlock = 0#256)
    (s : σ) :
    (hasValidProofOfWork hash params getHash .empty [header] s).1 =
      (checkHeaderPoW hash params header 0#256 s).1 := by
  have hnull : header.hashPrevBlock.isNull = true := by rw [hprev]; rfl
  have hnone : BlockManager.empty.lookupBlockIndex header.hashPrevBlock = none := rfl
  simp only [hasValidProofOfWork, hnone, hnull, Bool.not_true, Bool.and_false, Bool.false_and,
    Bool.false_eq_true, if_false, hasValidProofOfWorkLoop, batchContext, ne_eq, not_true_eq_false]
  have hseed : batchSeed getHash BlockManager.empty.m_block_index [header] none
      (Option.elim none 0 fun p : CBlockIndex => (p.nHeight : ℤ) + 1) 0 = some 0#256 := rfl
  simp only [hseed]
  cases (checkHeaderPoW hash params header 0#256 s).1 with
  | false => rfl
  | true => rfl

theorem checkHeaderPoW_null {σ : Type} {hash : PoWHash σ} {params : ConsensusParams}
    {block : CBlockHeader} {seed : Uint256} {s : σ} (hnull : (hash block seed s).1 = 0#256)
    {t : ArithUint256} (ht : deriveTarget block.nBits params.powLimit = some t) :
    (checkHeaderPoW hash params block seed s).1 = true := by
  refine (checkProofOfWork_iff _ _ _).mpr ⟨t, ht, ?_⟩
  rw [hnull]
  exact Nat.zero_le _

theorem not_powMet_allOnes {params : ConsensusParams} (hlimit : params.powLimit ≠ BitVec.allOnes 256)
    (seed : Uint256) (block : CBlockHeader) :
    ¬ PowMet (fun _ _ => BitVec.allOnes 256) params seed block := by
  rintro ⟨t, ht, hle⟩
  obtain ⟨-, -, hpow⟩ := deriveTarget_spec ht
  refine hlimit (BitVec.eq_of_toNat_eq ?_)
  have hlt := params.powLimit.isLt
  simp only [BitVec.toNat_allOnes] at hle ⊢
  omega

/-- **Proof of work fails closed exactly when no VM is ever refused.**  One null
result of `randomx_create_vm` is enough to accept a header without any work.
SOURCE: src/src/primitives/block.cpp:43-117 -/
theorem powFailsClosed_iff : PowFailsClosed createVm miningfastmode ↔ ∀ n, createVm n = true := by
  constructor
  · intro hclosed n
    by_contra hrefused
    rw [Bool.not_eq_true] at hrefused
    obtain ⟨s, hs, hcreated, hneeds⟩ := exists_reachable_created createVm miningfastmode n
    -- a header on the null block, at a difficulty that decodes
    let block : CBlockHeader := ⟨1, 0#256, 0#256, 0#32, 0x1f0fffff#32, 0#32⟩
    obtain ⟨t, ht⟩ : ∃ t, deriveTarget 0x1f0fffff#32 mainParams.powLimit = some t :=
      Option.isSome_iff_exists.mp (by decide +kernel)
    have hpass : (hasValidProofOfWork (getPoWHash (fun _ _ => BitVec.allOnes 256) createVm
        miningfastmode) mainParams (fun _ => 0#256) .empty [block] s).1 = true := by
      obtain ⟨hnull, -⟩ := hs.inv.refused (fun _ _ => BitVec.allOnes 256) miningfastmode
        (hcreated ▸ hrefused) (hneeds _) block
      rw [hasValidProofOfWork_root _ _ _ rfl]
      exact checkHeaderPoW_null hnull ht
    obtain ⟨hfst, hmet⟩ := (hclosed mainParams _ s hs).2.1 _ _ _ hpass
    obtain ⟨call, hcall, -⟩ := List.mem_map.mp (hfst ▸ List.mem_singleton_self block)
    exact not_powMet_allOnes (by decide +kernel) _ _ (hmet call hcall)
  · intro hcreate params rx s hs
    have H := hashesAs_of_created rx miningfastmode hcreate
    exact ⟨fun m now block e hok => H.contextual params hs hok,
      fun getHash bm headers hok => H.hasValid params hs hok,
      fun bm nthreads workers hworkers interrupt interrupted max_tries block mined hok =>
        H.generateBlock_met params hs hworkers hok⟩

end Refused

theorem TreeInv.getMedianTimePast_root {m : BlockMap} (T : TreeInv m) {h : Uint256}
    {e : CBlockIndex} (he : m h = some e) (hheight : e.nHeight = 0) :
    getMedianTimePast m e = e.getBlockTime := by
  have hprev : m.pprev e = none := by
    cases hp : e.pprev with
    | none => simp [BlockMap.pprev, hp]
    | some p =>
      obtain ⟨ep, -, hep⟩ := T.parent he hp
      omega
  simp [getMedianTimePast, nMedianTimeSpan, medianTimes, hprev]

theorem TreeInv.goodHeader_first {σ : Type} {hash : PoWHash σ} {s : σ} {m : BlockMap}
    (T : TreeInv m) {h : Uint256} {e : CBlockIndex} (he : m h = some e) (hheight : e.nHeight = 0)
    (hfrom : FromHeader nonceHash mainGenesis e)
    (hpow : ∀ seed,
      (checkHeaderPoW hash mainParams (launchBlock 0x1f0fffff#32 1) seed s).1 = true) :
    GoodHeader hash mainParams m h e (1766972200 * clockTicks) (launchBlock 0x1f0fffff#32 1) s where
  nBits := by
    rw [getNextWorkRequired, if_pos (by rw [hheight]; decide)]
    decide +kernel
  pow seed _ := (checkProofOfWork_iff _ _ _).mp (hpow seed)
  afterMedian := by
    rw [T.getMedianTimePast_root he hheight, CBlockIndex.getBlockTime, hfrom.nTime]
    decide +kernel
  notTooNew := by decide +kernel
  version := by
    simp only [outdatedVersion, deploymentActiveAfter, hheight]
    decide +kernel
  timewarp := by simp [timewarpAttack, mainParams]

theorem hashesAs_null (rx : Uint256 → CBlockHeader → Uint256) (miningfastmode : Bool) :
    HashesAs (getPoWHash rx (fun _ => false) miningfastmode)
      (fun s => RxInv s ∧ s.thread.rx_vm = none) (fun _ _ => 0#256) where
  keeps block seed s hs :=
    ⟨(hs.1.after_call (fun _ => false) miningfastmode seed).1,
      (hs.1.refused rx miningfastmode rfl (by simp [needsVm, hs.2]) block).2⟩
  hash block seed s hs := (hs.1.refused rx miningfastmode rfl (by simp [needsVm, hs.2]) block).1

theorem generateBlock_first_try {σ : Type} {hash : PoWHash σ} {params : ConsensusParams}
    {I : σ → Prop} {rx : Uint256 → CBlockHeader → Uint256} (H : HashesAs hash I rx)
    {block : CBlockHeader} (hpow : ∀ seed s, I s → (checkHeaderPoW hash params block seed s).1 = true)
    (hnonce : block.nNonce.toNat < 2 ^ 32 - 1) (bm : BlockManager)
    (workers : CBlockHeader → Uint256 → σ → WorkersResult × σ) (interrupt : ℕ → Bool)
    (tries : ℕ) {s : σ} (hs : I s) :
    (generateBlock hash params bm 1 workers interrupt false (tries + 1) block s).1 = some block := by
  have hsearch : mineLoop hash params (generateBlockSeed bm block) interrupt (tries + 1) block s =
      (block, tries + 1, (hash block (generateBlockSeed bm block) s).2) := by
    rw [mineLoop, if_pos hnonce]
    simp only [hpow _ s hs, Bool.not_true, Bool.false_and, Bool.false_eq_true, if_false]
    rfl
  simp only [generateBlock, le_refl, if_true, hsearch, checkMined, Bool.false_eq_true, if_false,
    hpow _ _ (H.keeps block _ s hs), Bool.not_true, and_true]
  rw [if_neg (by omega)]

/-- **Without a VM the first block of the chain needs no work.**  When
`randomx_create_vm` returns null, all three callers accept a first block whose RandomX hash is
the largest number there is.
SOURCE: src/src/primitives/block.cpp:103-116 -/
theorem null_vm_accepts_without_work :
    ∃ bm e, Built nonceHash mainGenesis bm ∧ bm.m_block_index (launchHash 0) = some e ∧
      (contextualCheckBlockHeader (getPoWHash (fun _ _ => BitVec.allOnes 256) (fun _ => false)
        false) mainParams bm.m_block_index (1766972200 * clockTicks)
        (launchBlock 0x1f0fffff#32 1) e true {}).1 = .ok (.ok ()) ∧
      (hasValidProofOfWork (getPoWHash (fun _ _ => BitVec.allOnes 256) (fun _ => false) false)
        mainParams nonceHash bm [launchBlock 0x1f0fffff#32 1] {}).1 = true ∧
      (generateBlock (getPoWHash (fun _ _ => BitVec.allOnes 256) (fun _ => false) false)
        mainParams bm 1 (fun _ _ s => (⟨false, 0#32, 0⟩, s)) (fun _ => false) false 1
        (launchBlock 0x1f0fffff#32 1) {}).1 = some (launchBlock 0x1f0fffff#32 1) ∧
      ∀ seed, ¬ PowMet (fun _ _ => BitVec.allOnes 256) mainParams seed
        (launchBlock 0x1f0fffff#32 1) := by
  obtain ⟨bm, e, hbuilt, hm, hfrom, hheight⟩ :=
    exists_built_genesis nonceHash mainGenesis (by decide)
  have T := hbuilt.treeInv
  have he : bm.m_block_index (launchHash 0) = some e := by
    rw [hm]
    exact BlockMap.insert_self _ _ _
  obtain ⟨t, ht⟩ : ∃ t, deriveTarget 0x1f0fffff#32 mainParams.powLimit = some t :=
    Option.isSome_iff_exists.mp (by decide +kernel)
  have H := hashesAs_null (fun _ _ => BitVec.allOnes 256) false
  have hpass : ∀ seed s, RxInv s ∧ s.thread.rx_vm = none →
      (checkHeaderPoW (getPoWHash (fun _ _ => BitVec.allOnes 256) (fun _ => false) false)
        mainParams (launchBlock 0x1f0fffff#32 1) seed s).1 = true :=
    fun seed s hs => checkHeaderPoW_null (H.hash _ seed s hs) ht
  have hinit : RxInv {} ∧ ({} : RxState).thread.rx_vm = none := ⟨RxInv.init, rfl⟩
  refine ⟨bm, e, hbuilt, he, ?_, ?_, ?_, fun seed => not_powMet_allOnes (by decide +kernel) _ _⟩
  · have hseed : contextualSeed bm.m_block_index e = some 0#256 := by
      simp [contextualSeed, hheight, randomXEpoch]
    exact GoodHeader.accepted _ _
      (T.goodHeader_first he hheight hfrom fun seed => hpass seed {} hinit) T he hseed true
  · rw [T.hasValidProofOfWork_singleton _ mainParams he
      (by rw [hm]; exact BlockMap.insert_of_ne _ _ (by decide))]
    have hparent : bm.m_block_index (launchBlock 0x1f0fffff#32 1).hashPrevBlock = some e := he
    have hseed : parentSeed bm.m_block_index (launchBlock 0x1f0fffff#32 1) = some 0#256 := by
      rw [parentSeed, BlockMap.height_of hparent, hheight]
      rfl
    rw [checkEach_cons_some _ _ hseed, hpass 0#256 {} hinit]
    rfl
  · exact generateBlock_first_try H hpass (by decide) bm _ _ 0 hinit

/-! ## Any number of threads -/

/-- Whether a thread stands between its exclusive section and the end of its call: what it
read or is about to read is the cache of that section. -/
def RxPc.usesCache : RxPc → Bool
  | .snapshot .. => true
  | .build .. => true
  | .hash .. => true
  | _ => false

section Threads

variable {ι : Type}

/-- A step that disturbs no other thread: the cache is replaced only while no other thread
uses it, and a VM that is asked for is created. -/
def Undisturbed (s : RxSystem ι) (t : ι) : RxAction → Prop
  | .update => ∀ block seed, s.pc t = .update block seed → replacesCache s.global seed = true →
      ∀ u, u ≠ t → (s.pc u).usesCache = false
  | .build created => created = true
  | _ => True

/-- What the place of a thread says about the globals and its VM. -/
def RxPcInv (g : RxGlobal) (t : RxThread) : RxPc → Prop
  | .snapshot _ seed => (∃ c, g.rx_cache = some c) ∧ g.rx_current_seed = seed
  | .build _ seed snap =>
    snap = takeSnapshot g ∧ (∃ c, g.rx_cache = some c) ∧ g.rx_current_seed = seed
  | .hash _ seed => ∃ vm, t.rx_vm = some vm ∧ g.rx_cache = some vm.cache ∧ vm.seed = seed
  | _ => True

/-- The thread has not been used, or it holds a VM on the live cache, which computes under the
seed it is labelled with. -/
def RxVmInv (g : RxGlobal) (t : RxThread) : Prop :=
  t.rx_vm_cache_version = g.rx_cache_version →
    t = {} ∨ ∃ vm, t.rx_vm = some vm ∧ g.rx_cache = some vm.cache ∧ vm.seed = t.rx_vm_seed

/-- The invariant of an undisturbed run. -/
structure RxSystemInv (rx : Uint256 → CBlockHeader → Uint256) (s : RxSystem ι) : Prop where
  global : RxGlobalInv s.global
  version : ∀ t, (s.thread t).rx_vm_cache_version ≤ s.global.rx_cache_version
  vm : ∀ t, RxVmInv s.global (s.thread t)
  pc : ∀ t, RxPcInv s.global (s.thread t) (s.pc t)
  returned : ∀ r ∈ s.returned, r.hash = rx r.seed r.block

variable {rx : Uint256 → CBlockHeader → Uint256} {miningfastmode : Bool}

theorem RxSystemInv.init : RxSystemInv rx ({} : RxSystem ι) where
  global := RxInv.init.global
  version _ := le_refl _
  vm _ _ := .inl rfl
  pc _ := trivial
  returned := by simp

variable {seed : Uint256}

variable {g : RxGlobal}

variable {t : RxThread}

theorem RxVmInv.ready (V : RxVmInv g t)
    (hvm : needsVm t seed g.rx_cache_version = false) (block : CBlockHeader) :
    RxPcInv g t (.hash block seed) := by
  obtain ⟨⟨vm, hsome⟩, hlabel, hversion⟩ := needsVm_eq_false.mp hvm
  rcases V hversion with hnew | ⟨vm', hsome', hlive, hseed⟩
  · rw [hnew] at hsome
    cases hsome
  · exact ⟨vm', hsome', hlive, by rw [hseed, hlabel]⟩

theorem RxGlobalInv.rebuilt (G : RxGlobalInv g) {c : RandomXCache}
    (hc : g.rx_cache = some c) (V : RxVmInv g t) (block : CBlockHeader) :
    RxPcInv g (rebuildVm g.rx_current_seed (takeSnapshot g) true t)
        (.hash block g.rx_current_seed) ∧
      RxVmInv g (rebuildVm g.rx_current_seed (takeSnapshot g) true t) := by
  rw [rebuildVm_takeSnapshot hc]
  split
  case isTrue hneeds => exact ⟨⟨_, rfl, hc, G.vm_seed hc⟩, fun _ => .inr ⟨_, rfl, hc, G.vm_seed hc⟩⟩
  case isFalse hneeds => exact ⟨V.ready (Bool.eq_false_iff.mpr hneeds) block, V⟩

variable [DecidableEq ι]

variable {s : RxSystem ι}

theorem RxSystemInv.goto (I : RxSystemInv rx s) {t : ι} {pc : RxPc}
    (hpc : RxPcInv s.global (s.thread t) pc) : RxSystemInv rx (s.goto t pc) where
  global := I.global
  version := I.version
  vm := I.vm
  pc := (Function.forall_update_iff s.pc fun u => RxPcInv s.global (s.thread u)).mpr
    ⟨hpc, fun u _ => I.pc u⟩
  returned := I.returned

theorem RxSystemInv.finish (I : RxSystemInv rx s) (t : ι) {r : RxReturn}
    (hr : r.hash = rx r.seed r.block) : RxSystemInv rx (s.finish t r) where
  global := I.global
  version := I.version
  vm := I.vm
  pc := (show RxSystemInv rx (s.goto t .idle) from I.goto trivial).pc
  returned := List.forall_mem_append.mpr ⟨I.returned, List.forall_mem_singleton.mpr hr⟩

theorem RxPcInv.of_not_usesCache {pc : RxPc} (h : pc.usesCache = false) : RxPcInv g t pc := by
  cases pc with
  | idle => trivial
  | check block seed => trivial
  | update block seed => trivial
  | snapshot block seed => cases h
  | build block seed snap => cases h
  | hash block seed => cases h

/-- The exclusive section keeps the invariant when nobody else uses the cache it
replaces.
SOURCE: src/src/primitives/block.cpp:57-77 -/
theorem RxSystemInv.update (I : RxSystemInv rx s) (t : ι) (block : CBlockHeader)
    (seed : Uint256) (miningfastmode : Bool)
    (hquiet : replacesCache s.global seed = true → ∀ u, u ≠ t → (s.pc u).usesCache = false) :
    RxSystemInv rx
      { s.goto t (.snapshot block seed) with
        global := updateCache miningfastmode seed s.global } := by
  obtain ⟨G, hc, hcur, hnew, hkept⟩ := I.global.after_update miningfastmode seed
  cases hrep : replacesCache s.global seed with
  | false =>
    rw [hkept hrep] at hc hcur ⊢
    exact I.goto ⟨hc, hcur⟩
  | true =>
    -- every thread's version is older than the new one
    have hlt : ∀ u, (s.thread u).rx_vm_cache_version <
        (updateCache miningfastmode seed s.global).rx_cache_version := by
      intro u
      have := I.version u
      rw [hnew hrep]
      omega
    exact ⟨G, fun u => (hlt u).le, fun u hsame => absurd hsame (hlt u).ne,
      (Function.forall_update_iff s.pc fun u => RxPcInv _ (s.thread u)).mpr
        ⟨⟨hc, hcur⟩, fun u hu => .of_not_usesCache (hquiet hrep u hu)⟩, I.returned⟩

/-- The VM update keeps the invariant when the VM is created.
SOURCE: src/src/primitives/block.cpp:90-110 -/
theorem RxSystemInv.build (I : RxSystemInv rx s) {t : ι} {block : CBlockHeader}
    {snap : RxSnapshot} (hpc : s.pc t = .build block seed snap) :
    RxSystemInv rx
      { s.goto t (.hash block seed) with
        thread := Function.update s.thread t (rebuildVm seed snap true (s.thread t)) } := by
  have hplace := I.pc t
  rw [hpc] at hplace
  obtain ⟨rfl, ⟨c, hc⟩, rfl⟩ := hplace
  obtain ⟨hready, hvm⟩ := I.global.rebuilt hc (I.vm t) block
  have hversion : (rebuildVm s.global.rx_current_seed (takeSnapshot s.global) true
      (s.thread t)).rx_vm_cache_version ≤ s.global.rx_cache_version := by
    rw [rebuildVm_takeSnapshot hc]
    split
    · exact le_refl _
    · exact I.version t
  refine ⟨I.global, fun u => ?_, fun u => ?_, fun u => ?_, I.returned⟩
  all_goals
    by_cases hu : u = t
    · subst hu
      simp [RxSystem.goto, hready, hvm, hversion]
    · simp [RxSystem.goto, hu, I.version u, I.vm u, I.pc u]

/-- **One undisturbed step of one thread keeps the invariant.**
SOURCE: src/src/primitives/block.cpp:43-117 -/
theorem RxSystemInv.step {s s' : RxSystem ι} (I : RxSystemInv rx s) {t : ι} {action : RxAction}
    (hquiet : Undisturbed s t action) (hstep : RxStep rx miningfastmode s t action s') :
    RxSystemInv rx s' := by
  have hplace := I.pc t
  cases hstep with
  | call block seed hpc => exact I.goto trivial
  | fast hpc hvm => exact I.goto ((I.vm t).ready hvm _)
  | slow hpc hvm => exact I.goto trivial
  | update hpc => exact I.update t _ _ miningfastmode (hquiet _ _ hpc)
  | snapshot hpc =>
    rw [hpc] at hplace
    exact I.goto ⟨rfl, hplace⟩
  | build created hpc =>
    rw [show created = true from hquiet]
    exact I.build hpc
  | hash hpc hlive =>
    rw [hpc] at hplace
    obtain ⟨vm, hvm, -, hseed⟩ := hplace
    exact I.finish t (by simp only [vmHash, hvm, hseed])
  | hashReleased garbage hpc hvm hdead =>
    rw [hpc] at hplace
    obtain ⟨vm, hvm', hlive, -⟩ := hplace
    rw [hvm] at hvm'
    cases hvm'
    exact absurd hlive hdead

/-- The steps of any of the threads. -/
def RxSystem.Next (rx : Uint256 → CBlockHeader → Uint256) (miningfastmode : Bool)
    (s s' : RxSystem ι) : Prop :=
  ∃ t action, RxStep rx miningfastmode s t action s'

/-- The undisturbed steps of any of the threads. -/
def RxSystem.NextUndisturbed (rx : Uint256 → CBlockHeader → Uint256) (miningfastmode : Bool)
    (s s' : RxSystem ι) : Prop :=
  ∃ t action, Undisturbed s t action ∧ RxStep rx miningfastmode s t action s'

theorem RxSystemInv.run {s s' : RxSystem ι} (I : RxSystemInv rx s)
    (hrun : Relation.ReflTransGen (RxSystem.NextUndisturbed rx miningfastmode) s s') :
    RxSystemInv rx s' := by
  induction hrun with
  | refl => exact I
  | tail _ hnext ih =>
    obtain ⟨t, action, hquiet, hstep⟩ := hnext
    exact ih.step hquiet hstep

/-- **In an undisturbed run every call returns the hash under its own seed**, and a
thread of the current version that has been used holds a VM on the live cache, initialised
with the seed the thread is labelled with.
SOURCE: src/src/primitives/block.cpp:27-117 -/
theorem threads_hash_correct {s : RxSystem ι}
    (hrun : Relation.ReflTransGen (RxSystem.NextUndisturbed rx miningfastmode) {} s) :
    (∀ r ∈ s.returned, r.hash = rx r.seed r.block) ∧
      ∀ t, (s.thread t).rx_vm_cache_version = s.global.rx_cache_version →
        s.thread t = {} ∨ ∃ vm, (s.thread t).rx_vm = some vm ∧
          s.global.rx_cache = some vm.cache ∧ vm.seed = (s.thread t).rx_vm_seed := by
  have I : RxSystemInv rx s := RxSystemInv.init.run hrun
  exact ⟨I.returned, I.vm⟩

theorem RxSystemInv.exists_hash (I : RxSystemInv rx s) (miningfastmode : Bool)
    {t : ι} {block : CBlockHeader} (hpc : s.pc t = .hash block seed)
    (hidle : ∀ u, u ≠ t → s.pc u = .idle) :
    ∃ s', RxSystem.NextUndisturbed rx miningfastmode s s' ∧ (∀ u, s'.pc u = .idle) ∧
      s'.returned = s.returned ++ [⟨block, seed, rx seed block⟩] := by
  have hplace := I.pc t
  rw [hpc] at hplace
  obtain ⟨vm, hvm, hlive, hseed⟩ := hplace
  have hhash : vmHash rx (s.thread t) block = rx seed block := by simp only [vmHash, hvm, hseed]
  refine ⟨_, ⟨t, .hash, trivial, .hash hpc (fun vm' hvm' => ?_)⟩, fun u => ?_, ?_⟩
  · rw [hvm] at hvm'
    cases hvm'
    exact hlive
  · exact (Function.forall_update_iff s.pc fun _ pc => pc = .idle).mpr ⟨rfl, hidle⟩ u
  · rw [RxSystem.finish, hhash]

/-- Undisturbed runs exist: with every thread at rest, any thread can make any call
and get its hash. -/
theorem RxSystemInv.exists_call (I : RxSystemInv rx s) (miningfastmode : Bool)
    (hidle : ∀ u, s.pc u = .idle) (t : ι) (block : CBlockHeader) (seed : Uint256) :
    ∃ s', Relation.ReflTransGen (RxSystem.NextUndisturbed rx miningfastmode) s s' ∧
      (∀ u, s'.pc u = .idle) ∧ s'.returned = s.returned ++ [⟨block, seed, rx seed block⟩] := by
  have hcall : RxSystem.NextUndisturbed rx miningfastmode s (s.goto t (.check block seed)) :=
    ⟨t, .call block seed, trivial, .call block seed (hidle t)⟩
  have hpc : (s.goto t (.check block seed)).pc t = .check block seed := by simp [RxSystem.goto]
  -- the state right before the hash, by the fast path or the slow one
  obtain ⟨r, hrun, hready, hrest, hreturned⟩ : ∃ r,
      Relation.ReflTransGen (RxSystem.NextUndisturbed rx miningfastmode) s r ∧
      r.pc t = .hash block seed ∧ (∀ u, u ≠ t → r.pc u = .idle) ∧ r.returned = s.returned := by
    cases hvm : needsVm (s.thread t) seed s.global.rx_cache_version with
    | false =>
      refine ⟨_, (Relation.ReflTransGen.single hcall).tail
        ⟨t, .check, trivial, .fast hpc hvm⟩, ?_, fun u hu => ?_, rfl⟩
      · simp [RxSystem.goto]
      · simp [RxSystem.goto, hu, hidle u]
    | true =>
      have hquiet : ∀ u, u ≠ t →
          (((s.goto t (.check block seed)).goto t (.update block seed)).pc u).usesCache =
            false := by
        intro u hu
        simp [RxSystem.goto, hu, hidle u, RxPc.usesCache]
      refine ⟨_, ((((Relation.ReflTransGen.single hcall).tail
        ⟨t, .check, trivial, .slow hpc hvm⟩).tail
        ⟨t, .update, fun _ _ _ _ => hquiet, .update (Function.update_self t _ _)⟩).tail
        ⟨t, .snapshot, trivial, .snapshot (Function.update_self t _ _)⟩).tail
        ⟨t, .build true, rfl, .build true (Function.update_self t _ _)⟩,
        Function.update_self t _ _, fun u hu => ?_, rfl⟩
      simp [RxSystem.goto, hu, hidle u]
  obtain ⟨s', hnext, hrest', hreturned'⟩ := (I.run hrun).exists_hash miningfastmode hready hrest
  exact ⟨s', hrun.tail hnext, hrest', by rw [hreturned', hreturned]⟩

end Threads

theorem threads_hash_correct_in_turn :
    ∃ s : RxSystem Bool,
      Relation.ReflTransGen (RxSystem.NextUndisturbed (fun seed _ => seed) false) {} s ∧
      s.returned = [⟨mainGenesis, 1#256, 1#256⟩, ⟨mainGenesis, 2#256, 2#256⟩] ∧
      ∀ r ∈ s.returned, r.hash = r.seed := by
  obtain ⟨s₁, hrun₁, hidle₁, hret₁⟩ :=
    RxSystemInv.init.exists_call false (fun _ => rfl) false mainGenesis 1#256
  obtain ⟨s₂, hrun₂, -, hret₂⟩ :=
    (RxSystemInv.init.run hrun₁).exists_call false hidle₁ true mainGenesis 2#256
  refine ⟨s₂, hrun₁.trans hrun₂, by rw [hret₂, hret₁]; rfl, ?_⟩
  exact (threads_hash_correct (hrun₁.trans hrun₂)).1

/-- **Two threads with different seeds, and one gets the other's hash.**  The first
thread builds the cache for seed 1 and releases the lock; the second replaces it by the cache
for seed 2; the first then takes its snapshot, builds its VM from the second cache, labels it
with seed 1 and returns the hash under seed 2.
SOURCE: src/src/primitives/block.cpp:57-116 -/
theorem interleaved_threads_swap_seeds :
    ∃ s : RxSystem Bool,
      Relation.ReflTransGen (RxSystem.Next (fun seed _ => seed) false) {} s ∧
      s.returned = [⟨mainGenesis, 1#256, 2#256⟩] ∧
      (s.thread false).rx_vm_seed = 1#256 ∧
      (s.thread false).rx_vm_cache_version = s.global.rx_cache_version ∧
      (s.thread false).rx_vm = some ⟨⟨2, 2#256⟩, none⟩ := by
  refine ⟨_, (((((((((Relation.ReflTransGen.refl.tail
    ⟨false, _, .call mainGenesis 1#256 rfl⟩).tail
    ⟨false, _, .slow rfl rfl⟩).tail
    ⟨false, _, .update rfl⟩).tail
    ⟨true, _, .call mainGenesis 2#256 rfl⟩).tail
    ⟨true, _, .slow rfl rfl⟩).tail
    ⟨true, _, .update rfl⟩).tail
    ⟨false, _, .snapshot rfl⟩).tail
    ⟨false, _, .build true rfl⟩).tail
    ⟨false, _, .hash rfl ?_⟩), rfl, rfl, rfl, rfl⟩
  rintro vm ⟨⟩
  rfl

end BitMinti.Model
