import BitMinti.Analysis.MiningWorkers
import BitMinti.Analysis.RandomX

/-!
# When `generateBlocks` keeps going

The search of one thread is described by the number of nonces it tries in vain, that of several
threads by how the workers end.  Both give up a template whose nonces are used up: the loop then
ends with tries left, and a solution at the last nonce, which one thread does find, is dropped.

SOURCE: src/src/rpc/mining.cpp:151-303
-/

set_option autoImplicit false

namespace BitMinti.Analysis

open Model Interface

/-! ## One thread -/

/-- A search that tries `n` nonces in vain and ends with its tries, at the last nonce or at a
solution. -/
structure SearchEnds (powOk : BitVec 32 → Bool) (max_tries : ℕ) (start : BitVec 32) (n : ℕ) :
    Prop where
  tries : n ≤ max_tries
  last : start.toNat + n ≤ 2 ^ 32 - 1
  fails : ∀ k < n, powOk (start + BitVec.ofNat 32 k) = false
  stops : n = max_tries ∨ start.toNat + n = 2 ^ 32 - 1 ∨ powOk (start + BitVec.ofNat 32 n) = true

section SearchEnds

variable {powOk : BitVec 32 → Bool} {max_tries n : ℕ} {start : BitVec 32}

theorem SearchEnds.zero (h : max_tries = 0 ∨ start.toNat = 2 ^ 32 - 1 ∨ powOk start = true) :
    SearchEnds powOk max_tries start 0 := by
  have hlt := start.isLt
  refine ⟨Nat.zero_le _, by omega, fun k hk => absurd hk (Nat.not_lt_zero k), ?_⟩
  rw [draw_zero]
  exact h.imp Eq.symm id

theorem SearchEnds.succ (hlt : start.toNat < 2 ^ 32 - 1) (hfail : powOk start = false)
    (E : SearchEnds powOk max_tries (start + 1) n) :
    SearchEnds powOk (max_tries + 1) start (n + 1) := by
  have hnext : (start + 1).toNat = start.toNat + 1 := by
    rw [BitVec.toNat_add]
    exact Nat.mod_eq_of_lt (by simpa using by omega)
  have hlast := E.last
  refine ⟨Nat.succ_le_succ E.tries, by omega, ?_, ?_⟩
  · intro k hk
    cases k with
    | zero =>
      rw [draw_zero]
      exact hfail
    | succ k =>
      rw [draw_succ]
      exact E.fails k (Nat.lt_of_succ_lt_succ hk)
  · rw [draw_succ]
    rcases E.stops with h | h | h
    · exact .inl (congrArg _ h)
    · exact .inr (.inl (by omega))
    · exact .inr (.inr h)

theorem SearchEnds.fails_of_lt (E : SearchEnds powOk max_tries start n) {x : BitVec 32}
    (hstart : start.toNat ≤ x.toNat) (hx : x.toNat < start.toNat + n) : powOk x = false := by
  have hdraw : start + BitVec.ofNat 32 (x.toNat - start.toNat) = x := by
    apply BitVec.eq_of_toNat_eq
    rw [toNat_draw, Nat.add_sub_cancel' hstart]
    exact Nat.mod_eq_of_lt x.isLt
  have hfail := E.fails (x.toNat - start.toNat) (by omega)
  rwa [hdraw] at hfail

theorem SearchEnds.fails_before_last (E : SearchEnds powOk max_tries start n)
    (hlast : start.toNat + n = 2 ^ 32 - 1) {x : BitVec 32} (hstart : start.toNat ≤ x.toNat)
    (hx : x ≠ lastNonce) : powOk x = false := by
  have hne : x.toNat ≠ 2 ^ 32 - 1 := fun h => hx (BitVec.eq_of_toNat_eq h)
  have hlt := x.isLt
  exact E.fails_of_lt hstart (by omega)

end SearchEnds

section OneThread

variable (powHash : CBlockHeader → Uint256 → Uint256) (params : ConsensusParams) (seed : Uint256)

theorem checkHeaderPoW_pure (block : CBlockHeader) :
    checkHeaderPoW (pureHash powHash) params block seed () =
      (nonceMeets powHash params seed block block.nNonce, ()) := rfl

/-- **The search of one thread.** -/
theorem mineLoop_ends {interrupt : ℕ → Bool} (hinterrupt : ∀ n, interrupt n = false)
    (max_tries : ℕ) (block : CBlockHeader) :
    ∃ n, SearchEnds (nonceMeets powHash params seed block) max_tries block.nNonce n ∧
      mineLoop (pureHash powHash) params seed interrupt max_tries block () =
        ({ block with nNonce := block.nNonce + BitVec.ofNat 32 n }, max_tries - n, ()) := by
  have hself : ∀ block : CBlockHeader,
      { block with nNonce := block.nNonce + BitVec.ofNat 32 0 } = block := by
    intro block
    rw [draw_zero]
  induction max_tries generalizing block with
  | zero => exact ⟨0, .zero (.inl rfl), by rw [hself]; rfl⟩
  | succ t ih =>
    rw [mineLoop, checkHeaderPoW_pure]
    by_cases hlt : block.nNonce.toNat < 2 ^ 32 - 1
    · rw [if_pos hlt]
      cases hpow : nonceMeets powHash params seed block block.nNonce with
      | true => exact ⟨0, .zero (.inr (.inr hpow)), by rw [hself]; rfl⟩
      | false =>
        obtain ⟨n, E, hloop⟩ := ih { block with nNonce := block.nNonce + 1 }
        refine ⟨n + 1, .succ hlt hpow E, ?_⟩
        simp only [hinterrupt, Bool.not_false, Bool.and_self, if_true]
        rw [hloop, draw_succ, Nat.succ_sub_succ]
    · have hlast := block.nNonce.isLt
      rw [if_neg hlt]
      exact ⟨0, .zero (.inr (.inl (by omega))), by rw [hself]; rfl⟩

end OneThread

/-! ## The search of a round -/

section Rounds

variable {powHash : CBlockHeader → Uint256 → Uint256} {params : ConsensusParams}
  {hash2 : Uint256 → Uint256 → Uint256} {getTxHash : CTransaction → Uint256}
  {getHash : CBlockHeader → Uint256} {nthreads : ℕ} {r : MiningRound} {s : GenerateState}

variable (powHash params hash2 getTxHash nthreads r s) in
/-- What a search can come to: a solution to hand on, no try left, or a template whose nonces the
tries outlast, with a solution dropped or tries left over. -/
inductive SearchCases : Prop
  | solved {x : BitVec 32}
      (hsolution : solutionIn powHash params hash2 getTxHash nthreads r s = some x)
      (hsearch : r.search powHash params hash2 getTxHash nthreads s.nMaxTries =
        (some { (r.rooted hash2 getTxHash).toCBlockHeader with nNonce := x }, true))
      (houtlasts : ¬ Outlasts (powOkIn powHash params hash2 getTxHash r) s.nMaxTries r.block.nNonce
        nthreads)
  | spent (hsolution : solutionIn powHash params hash2 getTxHash nthreads r s = none)
      (hsearch : r.search powHash params hash2 getTxHash nthreads s.nMaxTries = (none, false))
      (hleft : r.triesLeft powHash params hash2 getTxHash nthreads s.nMaxTries = 0)
      (houtlasts : ¬ Outlasts (powOkIn powHash params hash2 getTxHash r) s.nMaxTries r.block.nNonce
        nthreads)
  | dropped {x : BitVec 32}
      (hsolution : solutionIn powHash params hash2 getTxHash nthreads r s = some x)
      (hsearch : r.search powHash params hash2 getTxHash nthreads s.nMaxTries = (none, true))
      (houtlasts : Outlasts (powOkIn powHash params hash2 getTxHash r) s.nMaxTries r.block.nNonce
        nthreads)
  | leftOver (hsolution : solutionIn powHash params hash2 getTxHash nthreads r s = none)
      (hsearch : r.search powHash params hash2 getTxHash nthreads s.nMaxTries = (none, false))
      (hleft : r.triesLeft powHash params hash2 getTxHash nthreads s.nMaxTries ≠ 0)
      (houtlasts : Outlasts (powOkIn powHash params hash2 getTxHash r) s.nMaxTries r.block.nNonce
        nthreads)

theorem not_interrupted (h : ¬ InterruptedIn r) :
    r.m_interrupt = false ∧ r.interrupted = false ∧ ∀ n, r.interrupt n = false := by
  simp only [InterruptedIn, not_or, not_exists, Bool.not_eq_true] at h
  exact h

variable (powHash params hash2 getTxHash nthreads r) in
/-- What `GenerateBlock` makes of the nonce that its search ends at: a solution is handed on unless
one thread has found it at the last nonce. -/
def outcomeAt (x : BitVec 32) : Option CBlockHeader × Bool :=
  if powOkIn powHash params hash2 getTxHash r x = true then
    if x = lastNonce ∧ nthreads ≤ 1 then (none, true)
    else (some { (r.rooted hash2 getTxHash).toCBlockHeader with nNonce := x }, true)
  else (none, false)

theorem checkMined_outcome (x : BitVec 32) :
    checkMined (pureHash powHash) params
      (generateBlockSeed r.bm (r.rooted hash2 getTxHash).toCBlockHeader) nthreads false
      { (r.rooted hash2 getTxHash).toCBlockHeader with nNonce := x } () =
      ((outcomeAt powHash params hash2 getTxHash nthreads r x).1,
        (outcomeAt powHash params hash2 getTxHash nthreads r x).2, ()) := by
  have hlast : x.toNat = 2 ^ 32 - 1 ↔ x = lastNonce := by
    rw [← BitVec.toNat_inj]
    rfl
  rw [checkMined, checkHeaderPoW_pure]
  change (if !powOkIn powHash params hash2 getTxHash r x then _ else
    if x.toNat = 2 ^ 32 - 1 ∧ nthreads ≤ 1 then _ else _) = _
  simp only [outcomeAt, hlast]
  cases powOkIn powHash params hash2 getTxHash r x with
  | false => rfl
  | true =>
    simp only [Bool.not_true, Bool.false_eq_true, if_false, if_true]
    split <;> rfl

/-- **How the workers leave the search**: with a solution, with no try left, or with all
nonces searched in vain. -/
theorem workersLeave_cases {powOk : BitVec 32 → Bool} {max_tries : ℕ} {start : BitVec 32}
    {result : WorkersResult} (h : WorkersLeave powOk max_tries start nthreads result false)
    (hmany : ¬ nthreads ≤ 1) :
    (result.found = true ∧ powOk result.winning_nonce = true ∧
      ¬ Outlasts powOk max_tries start nthreads) ∨
    (result.found = false ∧ max_tries ≤ result.tries_done ∧
      ¬ Outlasts powOk max_tries start nthreads) ∨
    (result.found = false ∧ result.tries_done < max_tries ∧ powOk result.winning_nonce = false ∧
      Outlasts powOk max_tries start nthreads) := by
  obtain ⟨s, hreach, hended, rfl, hinterrupt⟩ := h
  have I := workersInv_of_reaches hreach
  have hspace := I.tries_le
  rw [Fintype.card_fin] at hspace
  rw [Outlasts, if_neg hmany]
  cases hfound : s.shared.found with
  | true =>
    obtain ⟨hlast, hpow⟩ := I.winner hfound
    refine .inl ⟨rfl, hpow, ?_⟩
    rintro ⟨hfails, -⟩
    rw [hfails _ hlast] at hpow
    cases hpow
  | false =>
    by_cases htries : max_tries ≤ s.shared.tries_done
    · refine .inr (.inl ⟨rfl, htries, ?_⟩)
      rintro ⟨-, hlt⟩
      omega
    · have hall := I.ended_last hended hfound hinterrupt.symm (Nat.lt_of_not_le htries)
      obtain ⟨hdone, hfails⟩ := I.exhausted (by rw [Fintype.card_fin]; omega) hall
      rw [Fintype.card_fin] at hdone
      refine .inr (.inr ⟨rfl, Nat.lt_of_not_le htries, ?_, hfails, by omega⟩)
      rw [I.noWinner hfound]
      exact hfails _ (show (0#32 : BitVec 32) ≠ lastNonce by decide)

section Quiet

variable (hquiet : ¬ InterruptedIn r)

include hquiet

theorem search_one (hone : nthreads ≤ 1) :
    ∃ n x, SearchEnds (powOkIn powHash params hash2 getTxHash r) s.nMaxTries r.block.nNonce n ∧
      x = r.block.nNonce + BitVec.ofNat 32 n ∧ x.toNat = r.block.nNonce.toNat + n ∧
      r.triesLeft powHash params hash2 getTxHash nthreads s.nMaxTries = s.nMaxTries - n ∧
      solutionIn powHash params hash2 getTxHash nthreads r s =
        (if powOkIn powHash params hash2 getTxHash r x then some x else none) ∧
      r.search powHash params hash2 getTxHash nthreads s.nMaxTries =
        outcomeAt powHash params hash2 getTxHash nthreads r x := by
  obtain ⟨-, hafter, hpolls⟩ := not_interrupted hquiet
  obtain ⟨n, E, hloop⟩ := mineLoop_ends powHash params
    (generateBlockSeed r.bm (r.rooted hash2 getTxHash).toCBlockHeader) hpolls s.nMaxTries
    (r.rooted hash2 getTxHash).toCBlockHeader
  have hend : r.block.nNonce.toNat + n ≤ 2 ^ 32 - 1 := E.last
  refine ⟨n, _, E, rfl, ?_, ?_, ?_, ?_⟩
  · rw [toNat_draw]
    exact Nat.mod_eq_of_lt (by omega)
  · simp only [MiningRound.triesLeft, if_pos hone, hloop]
  · simp only [solutionIn, if_pos hone, hloop]
    rfl
  · simp only [MiningRound.search, generateBlock, if_pos hone, hloop, hafter, checkMined_outcome]
    rfl

/-- **The search of a round with one thread.** -/
theorem searchCases_one (hone : nthreads ≤ 1) :
    SearchCases powHash params hash2 getTxHash nthreads r s := by
  obtain ⟨n, x, E, hx, hvalue, hleft, hsolution, hsearch⟩ := search_one hquiet hone
  have htries := E.tries
  have hlast : x = lastNonce ↔ r.block.nNonce.toNat + n = 2 ^ 32 - 1 := by
    rw [← BitVec.toNat_inj, hvalue]
    rfl
  rw [outcomeAt] at hsearch
  cases hpow : powOkIn powHash params hash2 getTxHash r x with
  | true =>
    rw [hpow, if_pos rfl] at hsearch hsolution
    by_cases hxl : x = lastNonce
    · rw [if_pos ⟨hxl, hone⟩] at hsearch
      refine .dropped hsolution hsearch ?_
      rw [Outlasts, if_pos hone]
      refine ⟨fun y hy hyl => E.fails_before_last (hlast.mp hxl) hy hyl, ?_⟩
      rw [hlast] at hxl
      rcases Nat.lt_or_eq_of_le htries with h | h
      · exact .inl (by omega)
      · exact .inr ⟨by omega, hlast.mpr hxl ▸ hpow⟩
    · rw [if_neg fun h => hxl h.1] at hsearch
      refine .solved hsolution hsearch ?_
      rw [Outlasts, if_pos hone]
      rintro ⟨hfails, -⟩
      rw [hfails x (by omega) hxl] at hpow
      cases hpow
  | false =>
    rw [hpow, if_neg Bool.false_ne_true] at hsearch hsolution
    by_cases hspent : n = s.nMaxTries
    · refine .spent hsolution hsearch (by omega) ?_
      rw [Outlasts, if_pos hone]
      rintro ⟨-, h | ⟨h, hpowLast⟩⟩
      · omega
      · rw [← hlast.mpr (by omega), hpow] at hpowLast
        cases hpowLast
    · have hxl : r.block.nNonce.toNat + n = 2 ^ 32 - 1 := by
        rcases E.stops with h | h | h
        · exact absurd h hspent
        · exact h
        · rw [← hx, hpow] at h
          cases h
      refine .leftOver hsolution hsearch (by omega) ?_
      rw [Outlasts, if_pos hone]
      exact ⟨fun y hy hyl => E.fails_before_last hxl hy hyl, .inl (by omega)⟩

variable (powHash params hash2 getTxHash) in
theorem search_to_last (hone : nthreads ≤ 1)
    (hfails : ∀ x, x ≠ lastNonce → powOkIn powHash params hash2 getTxHash r x = false)
    (htries : 2 ^ 32 - 1 - r.block.nNonce.toNat < s.nMaxTries) :
    r.triesLeft powHash params hash2 getTxHash nthreads s.nMaxTries =
        s.nMaxTries - (2 ^ 32 - 1 - r.block.nNonce.toNat) ∧
      solutionIn powHash params hash2 getTxHash nthreads r s =
        (if powOkIn powHash params hash2 getTxHash r lastNonce then some lastNonce else none) ∧
      r.search powHash params hash2 getTxHash nthreads s.nMaxTries =
        outcomeAt powHash params hash2 getTxHash nthreads r lastNonce := by
  obtain ⟨n, x, E, hx, hvalue, hleft, hsolution, hsearch⟩ := search_one (s := s) hquiet hone
  obtain rfl : x = lastNonce := by
    by_contra hxl
    rcases E.stops with h | h | h
    · omega
    · exact hxl (BitVec.eq_of_toNat_eq (hvalue.trans h))
    · rw [← hx, hfails x hxl] at h
      cases h
  have hn : n = 2 ^ 32 - 1 - r.block.nNonce.toNat := Nat.eq_sub_of_add_eq' hvalue.symm
  exact ⟨hn ▸ hleft, hsolution, hsearch⟩

/-! ## Several threads -/

/-- Without a solution the call returns false, at once or after the check of the winning
nonce that no worker has set. -/
theorem search_unfound (hmany : ¬ nthreads ≤ 1) (hfound : r.workers.found = false)
    (h : s.nMaxTries ≤ r.workers.tries_done ∨
      powOkIn powHash params hash2 getTxHash r r.workers.winning_nonce = false) :
    r.search powHash params hash2 getTxHash nthreads s.nMaxTries = (none, false) := by
  obtain ⟨-, hafter, hpolls⟩ := not_interrupted hquiet
  simp only [MiningRound.search, generateBlock, if_neg hmany, hfound, hafter, hpolls,
    Bool.not_false, Bool.true_and, Bool.and_true, decide_eq_true_eq]
  split
  · rfl
  · rcases h with htries | hpow
    · omega
    · rw [checkMined_outcome, outcomeAt, hpow]
      rfl

/-- **The search of a round with several threads.** -/
theorem searchCases_many (hmany : ¬ nthreads ≤ 1)
    (hpossible : PossibleIn powHash params hash2 getTxHash nthreads r s) :
    SearchCases powHash params hash2 getTxHash nthreads r s := by
  obtain ⟨-, hafter, hpolls⟩ := not_interrupted hquiet
  obtain ⟨m_interrupt, hleave, hsignal⟩ := hpossible (Nat.lt_of_not_le hmany)
  obtain rfl : m_interrupt = false := by
    rw [← Bool.not_eq_true]
    intro h
    rw [hsignal h] at hafter
    cases hafter
  have hleft : r.triesLeft powHash params hash2 getTxHash nthreads s.nMaxTries =
      s.nMaxTries - min s.nMaxTries r.workers.tries_done := if_neg hmany
  rcases workersLeave_cases hleave hmany with ⟨hfound, hpow, hout⟩ | ⟨hfound, htries, hout⟩ |
    ⟨hfound, htries, hpow, hout⟩
  · refine .solved (x := r.workers.winning_nonce) ?_ ?_ hout
    · rw [solutionIn, if_neg hmany, hfound, if_pos rfl]
    · simp only [MiningRound.search, generateBlock, if_neg hmany, hfound, hafter, Bool.not_true,
        Bool.false_and, Bool.false_eq_true, if_false]
      rw [checkMined_outcome, outcomeAt, if_pos hpow, if_neg fun h => hmany h.2]
  · refine .spent ?_ (search_unfound hquiet hmany hfound (.inl htries)) (by omega) hout
    rw [solutionIn, if_neg hmany, hfound, if_neg Bool.false_ne_true]
  · refine .leftOver ?_ (search_unfound hquiet hmany hfound (.inr hpow)) (by omega) hout
    rw [solutionIn, if_neg hmany, hfound, if_neg Bool.false_ne_true]

/-! ## Turns and runs -/

theorem generateTurn_none (hpos : 0 < s.nGenerate) {ok : Bool}
    (hsearch : r.search powHash params hash2 getTxHash nthreads s.nMaxTries = (none, ok)) :
    generateTurn powHash params hash2 getTxHash getHash nthreads r s =
      { s with
        nMaxTries := r.triesLeft powHash params hash2 getTxHash nthreads s.nMaxTries
        ended := if ok then s.ended else some .gaveUp } := by
  rw [generateTurn, if_pos ⟨hpos, (not_interrupted hquiet).1⟩, hsearch]
  cases ok <;> rfl

theorem generateTurn_some (hpos : 0 < s.nGenerate) {header : CBlockHeader} {ok : Bool}
    (hsearch : r.search powHash params hash2 getTxHash nthreads s.nMaxTries = (some header, ok)) :
    generateTurn powHash params hash2 getTxHash getHash nthreads r s =
      let block : CBlock := { r.rooted hash2 getTxHash with toCBlockHeader := header }
      let s' := { s with
        nMaxTries := r.triesLeft powHash params hash2 getTxHash nthreads s.nMaxTries
        submitted := s.submitted ++ [block] }
      if !r.processNewBlock block then
        { s' with ended := some (.threw "ProcessNewBlock, block not accepted") }
      else
        { s' with
          nGenerate := s.nGenerate - 1
          blockHashes := s.blockHashes ++ [getHash header] } := by
  rw [generateTurn, if_pos ⟨hpos, (not_interrupted hquiet).1⟩, hsearch]

/-- **One turn keeps to what it is to keep to exactly when its round is fine.** -/
theorem turnKept_iff (hrunning : s.ended = none) (hpos : 0 < s.nGenerate)
    (hpossible : PossibleIn powHash params hash2 getTxHash nthreads r s) :
    TurnKept powHash params hash2 getTxHash nthreads r s
        (generateTurn powHash params hash2 getTxHash getHash nthreads r s) ↔
      TurnFine powHash params hash2 getTxHash nthreads r s := by
  have hcases : SearchCases powHash params hash2 getTxHash nthreads r s := by
    by_cases hone : nthreads ≤ 1
    · exact searchCases_one hquiet hone
    · exact searchCases_many hquiet hone hpossible
  cases hcases with
  | @solved x hsolution hsearch hout =>
    have hfine : TurnFine powHash params hash2 getTxHash nthreads r s ↔
        r.processNewBlock { r.rooted hash2 getTxHash with nNonce := x } = true := by
      refine ⟨fun F => F.accepted _ (congrArg Prod.fst hsearch), fun h => ⟨hout, ?_⟩⟩
      intro header hheader
      rw [hsearch] at hheader
      rwa [← Option.some.inj hheader]
    rw [hfine, generateTurn_some hquiet hpos hsearch]
    dsimp only
    split
    · rename_i hrefused
      rw [Bool.not_eq_true'] at hrefused
      refine iff_of_false (fun K => ?_) (by rw [hrefused]; exact Bool.false_ne_true)
      rcases K.stops rfl with h | ⟨h, -⟩
      · exact absurd h (by dsimp only; omega)
      · cases h
    · rename_i haccepted
      rw [Bool.not_eq_true', Bool.not_eq_false] at haccepted
      refine iff_of_true ⟨fun h => ?_, fun _ nonce hnonce => ?_⟩ haccepted
      · rw [hrunning] at h
        cases h
      · rw [hsolution, Option.some_inj] at hnonce
        exact ⟨_, rfl, hnonce⟩
  | spent hsolution hsearch hleft hout =>
    rw [generateTurn_none hquiet hpos hsearch]
    refine iff_of_true ⟨fun _ => .inr ⟨rfl, hleft⟩, fun _ nonce hnonce => ?_⟩ ⟨hout, ?_⟩
    · rw [hsolution] at hnonce
      cases hnonce
    · intro header hheader
      rw [hsearch] at hheader
      cases hheader
  | dropped hsolution hsearch hout =>
    rw [generateTurn_none hquiet hpos hsearch]
    refine iff_of_false (fun K => ?_) (fun F => F.tries hout)
    obtain ⟨block, hblock, -⟩ := K.submits hpos _ hsolution
    exact absurd (congrArg List.length hblock) (by simp)
  | leftOver hsolution hsearch hleft hout =>
    rw [generateTurn_none hquiet hpos hsearch]
    refine iff_of_false (fun K => ?_) (fun F => F.tries hout)
    rcases K.stops rfl with h | ⟨-, h⟩
    · exact absurd h (by dsimp only; omega)
    · exact hleft h

end Quiet

variable (getHash) in
theorem EveryTurn.congr {P Q Q' : MiningRound → GenerateState → Prop}
    (hiff : ∀ r s, s.ended = none → P r s → (Q r s ↔ Q' r s)) {rounds : List MiningRound}
    {s : GenerateState}
    (hP : EveryTurn powHash params hash2 getTxHash getHash nthreads P rounds s) :
    EveryTurn powHash params hash2 getTxHash getHash nthreads Q rounds s ↔
      EveryTurn powHash params hash2 getTxHash getHash nthreads Q' rounds s := by
  induction rounds generalizing s with
  | nil => exact Iff.rfl
  | cons r rounds ih =>
    unfold EveryTurn at hP ⊢
    apply imp_congr_right
    intro hrunning
    obtain ⟨hhead, htail⟩ := hP hrunning
    exact and_congr (hiff r s hrunning hhead) (ih htail)

/-- **When `generateBlocks` keeps going.**  Over every sequence of rounds, each turn that
is not interrupted ends the loop only when the blocks are made or the tries are used up, and
submits the solution it finds, exactly when in no such turn the tries outlast the nonces of the
template or the block that is found is refused.
SOURCE: src/src/rpc/mining.cpp:176-303 -/
theorem generateBlocks_keeps_going_iff (rounds : List MiningRound) (s : GenerateState)
    (hpossible : EveryTurn powHash params hash2 getTxHash getHash nthreads
      (PossibleIn powHash params hash2 getTxHash nthreads) rounds s) :
    EveryTurn powHash params hash2 getTxHash getHash nthreads
        (fun r s => ¬ InterruptedIn r → TurnKept powHash params hash2 getTxHash nthreads r s
          (generateTurn powHash params hash2 getTxHash getHash nthreads r s)) rounds s ↔
      EveryTurn powHash params hash2 getTxHash getHash nthreads
        (fun r s => ¬ InterruptedIn r → 0 < s.nGenerate →
          TurnFine powHash params hash2 getTxHash nthreads r s) rounds s := by
  refine EveryTurn.congr getHash (fun r s hrunning hpossible => ?_) hpossible
  apply imp_congr_right
  intro hquiet
  by_cases hpos : 0 < s.nGenerate
  · rw [turnKept_iff hquiet hrunning hpos hpossible]
    exact (imp_iff_right hpos).symm
  · refine iff_of_true ⟨fun _ => .inl ?_, fun h => absurd h hpos⟩ (fun h => absurd h hpos)
    rw [generateTurn, if_neg fun h => hpos h.1]
    exact Int.not_lt.mp hpos

end Rounds

theorem generateBlocks_of_ended {powHash : CBlockHeader → Uint256 → Uint256}
    {params : ConsensusParams} {hash2 : Uint256 → Uint256 → Uint256}
    {getTxHash : CTransaction → Uint256} {getHash : CBlockHeader → Uint256} {nthreads : ℕ}
    (rounds : List MiningRound) {s : GenerateState} (h : s.ended.isSome = true) :
    generateBlocks powHash params hash2 getTxHash getHash nthreads rounds s = s := by
  cases rounds with
  | nil => rfl
  | cons r rounds => exact if_pos h

/-! ## Sample rounds -/

/-- A round with a template on top of the genesis block, in which two workers would find the first
nonce. -/
def templateRound (bm : BlockManager) : MiningRound where
  m_interrupt := false
  bm := bm
  block := { launchBlock 0x1f0fffff#32 1 with nNonce := 0#32, vtx := [] }
  workers := ⟨true, 0#32, 0⟩
  interrupt _ := false
  interrupted := false
  processNewBlock _ := true

theorem templateRound_quiet (bm : BlockManager) : ¬ InterruptedIn (templateRound bm) := by
  simp [InterruptedIn, templateRound]

theorem workersLeave_first_try {powOk : BitVec 32 → Bool} {max_tries : ℕ} {start : BitVec 32}
    (hpow : powOk start = true) (hlast : start ≠ lastNonce) (htries : 0 < max_tries) :
    WorkersLeave powOk max_tries start 2 ⟨true, start, 0⟩ false := by
  have hhash := alone_hash powOk (g := { next_nonce := start }) rfl rfl htries hlast
  rw [hpow, if_pos rfl] at hhash
  have hfirst := reaches_of_alone (s := .init (Fin 2) start) (i := 0) rfl
    (hhash.tail (show Alone powOk max_tries (.publish start, _) _ from rfl))
  refine ⟨_, hfirst.tail (.turn _ 1), ?_, rfl, rfl⟩
  exact Fin.forall_fin_two.mpr ⟨⟨some start, rfl⟩, ⟨none, rfl⟩⟩

theorem generateBlocks_keeps_going_two_threads :
    ∃ bm, Built Model.nonceHash mainGenesis bm ∧
      EveryTurn (fun _ _ => 0#256) mainParams (fun a _ => a) (fun _ => 0#256) Model.nonceHash 2
        (fun r s => ¬ InterruptedIn r →
          TurnKept (fun _ _ => 0#256) mainParams (fun a _ => a) (fun _ => 0#256) 2 r s
            (generateTurn (fun _ _ => 0#256) mainParams (fun a _ => a) (fun _ => 0#256) Model.nonceHash 2
              r s))
        [templateRound bm] { nGenerate := 1, nMaxTries := 1 } := by
  obtain ⟨bm, -, hbuilt, -⟩ := exists_built_genesis Model.nonceHash mainGenesis (by decide)
  have hpow : ∀ x, powOkIn (fun _ _ => 0#256) mainParams (fun a _ => a) (fun _ => 0#256)
      (templateRound bm) x = true := by
    intro x
    change checkProofOfWork 0#256 0x1f0fffff#32 mainParams = true
    decide +kernel
  refine ⟨bm, hbuilt, (generateBlocks_keeps_going_iff _ _ ?_).mpr ?_⟩
  · unfold EveryTurn
    intro _
    refine ⟨fun _ => ⟨false, ?_, Bool.false_ne_true.elim⟩, trivial⟩
    exact workersLeave_first_try (hpow _) (show (0#32 : BitVec 32) ≠ lastNonce by decide)
      Nat.one_pos
  · unfold EveryTurn
    intro _
    refine ⟨fun _ _ => ⟨?_, fun _ _ => rfl⟩, trivial⟩
    rw [Outlasts, if_neg (by decide)]
    rintro ⟨hfails, -⟩
    have hzero := hfails 0#32 (by decide)
    rw [hpow] at hzero
    cases hzero

/-- A hash that meets the target at the last nonce only. -/
def lastNonceHash (block : CBlockHeader) (_seed : Uint256) : Uint256 :=
  if block.nNonce = lastNonce then 0#256 else BitVec.allOnes 256

/-- **One thread gives up at the last nonce.**  With one try more than there are nonces
before the last: if no nonce is a solution, the loop ends with that try left, whatever templates
would follow; if the last nonce is a solution, it is found and not submitted.
SOURCE: src/src/rpc/mining.cpp:180-188, 261-265 and 292-300 -/
theorem generateBlocks_gives_up_at_last_nonce :
    ∃ bm, Built Model.nonceHash mainGenesis bm ∧ ¬ InterruptedIn (templateRound bm) ∧
      (∀ rounds, generateBlocks (fun _ _ => BitVec.allOnes 256) mainParams (fun a _ => a)
        (fun _ => 0#256) Model.nonceHash 1 (templateRound bm :: rounds)
          { nGenerate := 1, nMaxTries := 2 ^ 32 } =
        { nGenerate := 1, nMaxTries := 1, ended := some .gaveUp }) ∧
      solutionIn lastNonceHash mainParams (fun a _ => a) (fun _ => 0#256) 1 (templateRound bm)
        { nGenerate := 1, nMaxTries := 2 ^ 32 } = some lastNonce ∧
      generateBlocks lastNonceHash mainParams (fun a _ => a) (fun _ => 0#256) Model.nonceHash 1
          [templateRound bm] { nGenerate := 1, nMaxTries := 2 ^ 32 } =
        { nGenerate := 1, nMaxTries := 1 } := by
  obtain ⟨bm, -, hbuilt, -⟩ := exists_built_genesis Model.nonceHash mainGenesis (by decide)
  have hnever : checkProofOfWork (BitVec.allOnes 256) 0x1f0fffff#32 mainParams = false := by
    decide +kernel
  have hzero : checkProofOfWork 0#256 0x1f0fffff#32 mainParams = true := by
    decide +kernel
  have hquiet := templateRound_quiet bm
  have hstart : (templateRound bm).block.nNonce.toNat = 0 := rfl
  have hfewer : 2 ^ 32 - 1 - (templateRound bm).block.nNonce.toNat < 2 ^ 32 := by omega
  have hone : 2 ^ 32 - (2 ^ 32 - 1 - (templateRound bm).block.nNonce.toNat) = 1 := by omega
  refine ⟨bm, hbuilt, hquiet, fun rounds => ?_, ?_⟩
  · obtain ⟨hleft, -, hsearch⟩ := search_to_last (fun _ _ => BitVec.allOnes 256) mainParams
      (fun a _ => a) (fun _ => 0#256) (s := { nGenerate := 1, nMaxTries := 2 ^ 32 }) hquiet le_rfl
      (fun _ _ => hnever) hfewer
    have hout : outcomeAt (fun _ _ => BitVec.allOnes 256) mainParams (fun a _ => a)
        (fun _ => 0#256) 1 (templateRound bm) lastNonce = (none, false) :=
      if_neg (Bool.not_eq_true _ ▸ hnever)
    rw [generateBlocks, if_neg (by decide),
      generateTurn_none hquiet Int.one_pos (hsearch.trans hout), hleft, hone]
    exact generateBlocks_of_ended rounds rfl
  · have hfails : ∀ x, x ≠ lastNonce → powOkIn lastNonceHash mainParams (fun a _ => a)
        (fun _ => 0#256) (templateRound bm) x = false := by
      intro x hx
      rw [powOkIn, nonceMeets, lastNonceHash, if_neg hx]
      exact hnever
    obtain ⟨hleft, hsolution, hsearch⟩ := search_to_last lastNonceHash mainParams
      (fun a _ => a) (fun _ => 0#256) (s := { nGenerate := 1, nMaxTries := 2 ^ 32 }) hquiet le_rfl
      hfails hfewer
    have hout : outcomeAt lastNonceHash mainParams (fun a _ => a) (fun _ => 0#256) 1
        (templateRound bm) lastNonce = (none, true) :=
      (if_pos hzero).trans (if_pos ⟨rfl, le_rfl⟩)
    refine ⟨hsolution.trans (if_pos hzero), ?_⟩
    rw [generateBlocks, if_neg (by decide),
      generateTurn_none hquiet Int.one_pos (hsearch.trans hout), hleft, hone]
    rfl

end BitMinti.Analysis
