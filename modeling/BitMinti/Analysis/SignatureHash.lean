import BitMinti.Analysis.SignatureCalls
import BitMinti.Model.SignatureHash

/-!
# The cache of signature hashes

The cache keeps what was written for a script code and a kind of hash type, not for which version of
script.  One spend checks signatures for one version only: where a witness program runs, the other
scripts of the spend push data or compare a hash.

SOURCE: src/src/script/interpreter.cpp:1402-1452, 1572-1714, 1917-2121
-/

set_option autoImplicit false

namespace BitMinti.Analysis

open Model

/-! ## One version for all calls of a spend -/

section Versions

variable {crypto : ScriptCrypto} {checker : SignatureChecker} {sigversion : SigVersion}
  {flags : ScriptVerifyFlags}

theorem allVersion_callsAfter {α : Type} {check : Except ScriptFailure α}
    {calls : α → List EcdsaCall} (h : ∀ a, AllVersion sigversion (calls a)) :
    AllVersion sigversion (callsAfter check calls) := by
  unfold callsAfter
  split
  · exact h _
  · exact allVersion_nil

theorem allVersion_evalScriptCalls (stack : List ValType) (script : CScript)
    (execdata : ScriptExecutionData) :
    AllVersion sigversion
      (evalScriptCalls crypto checker sigversion flags stack script execdata) :=
  (callsWithin_evalScriptCalls ..).version

theorem allVersion_scriptWitnessCalls (witness : List ValType) (script : CScript)
    (malleated : Bool) :
    AllVersion .witnessV0 (scriptWitnessCalls crypto checker flags witness script malleated) := by
  have hexecute : ∀ stack exec_script,
      AllVersion .witnessV0 (executeWitnessCalls crypto checker flags stack exec_script) :=
    fun stack exec_script => allVersion_callsAfter fun _ => allVersion_evalScriptCalls _ _ _
  have hprogram : ∀ version program,
      AllVersion .witnessV0 (witnessProgramCalls crypto checker flags witness version program) := by
    intro version program
    unfold witnessProgramCalls
    split_ifs
    · split
      · exact allVersion_nil
      · exact allVersion_callsAfter fun _ => hexecute _ _
    · exact allVersion_callsAfter fun _ => hexecute _ _
    · exact allVersion_nil
    · exact allVersion_nil
  unfold scriptWitnessCalls
  split
  · split
    · exact allVersion_nil
    · split
      · exact allVersion_nil
      · exact hprogram _ _
  · exact allVersion_nil

/-! ## Scripts without signature checks -/

variable {script : CScript}

/-- A script for which no signature operations are counted makes no calls. -/
theorem evalScriptCalls_eq_nil (stack : List ValType)
    (execdata : ScriptExecutionData) (h : sigOpsFrom true script.length script 0xff#8 = 0) :
    evalScriptCalls crypto checker .base flags stack script execdata = [] := by
  have hcalls := callsWithin_evalScriptCalls crypto checker .base flags stack script execdata
  rw [h] at hcalls
  exact List.length_eq_zero_iff.mp (Nat.le_zero.mp hcalls.length)

theorem opcodeSigOps_push {opcode : Byte} (fAccurate : Bool) (lastOpcode : Byte)
    (h : opcode.toNat ≤ 0x60) : opcodeSigOps fAccurate lastOpcode opcode = 0 := by
  have hnone : ∀ b : Byte, b.toNat ≤ 0x60 → Opcode.ofByte b ∉ [Opcode.OP_CHECKSIG,
      .OP_CHECKSIGVERIFY, .OP_CHECKMULTISIG, .OP_CHECKMULTISIGVERIFY] := by decide +kernel
  have hop := hnone opcode h
  unfold opcodeSigOps
  generalize Opcode.ofByte opcode = op at hop
  cases op with
  | OP_CHECKSIG | OP_CHECKSIGVERIFY | OP_CHECKMULTISIG | OP_CHECKMULTISIGVERIFY => simp at hop
  | _ => rfl

theorem sigOpsFrom_pushOnly (fuel : ℕ) (pc : CScript) (lastOpcode : Byte)
    (h : isPushOnlyFrom fuel pc = true) : sigOpsFrom true fuel pc lastOpcode = 0 := by
  induction fuel generalizing pc lastOpcode with
  | zero => cases pc <;> rfl
  | succ fuel ih =>
    cases pc with
    | nil => rfl
    | cons b bs =>
      simp only [isPushOnlyFrom, List.isEmpty_cons, Bool.false_or] at h
      unfold sigOpsFrom
      cases hop : getScriptOp (b :: bs) with
      | none => rfl
      | some r =>
        obtain ⟨opcode, vch, next⟩ := r
        simp only [hop, Bool.and_eq_true, decide_eq_true_eq] at h
        change opcodeSigOps true lastOpcode opcode + sigOpsFrom true fuel next opcode = 0
        rw [opcodeSigOps_push true lastOpcode h.1, ih next opcode h.2]

theorem sigOpsFrom_cons {b opcode lastOpcode : Byte} {bs next : CScript} {vch : ValType} {fuel : ℕ}
    (hop : getScriptOp (b :: bs) = some (opcode, vch, next)) :
    sigOpsFrom true (fuel + 1) (b :: bs) lastOpcode =
      opcodeSigOps true lastOpcode opcode + sigOpsFrom true fuel next opcode := by
  rw [sigOpsFrom, hop]

theorem getScriptOp_push {b : Byte} {bs : CScript} (hb : b.toNat < 0x4c)
    (hlen : b.toNat ≤ bs.length) :
    getScriptOp (b :: bs) = some (b, bs.take b.toNat, bs.drop b.toNat) := by
  rw [getScriptOp, if_pos (by exact hb), if_neg (not_lt.mpr hlen)]

theorem getScriptOp_plain {b : Byte} {bs : CScript} (hb : 0x4e < b.toNat) :
    getScriptOp (b :: bs) = some (b, [], bs) := by
  have hpush : ∀ c : Byte, c.toNat ≤ 0x4e → b ≠ c := by
    rintro c hc rfl
    omega
  have hlarge : ¬b.toNat < OP_PUSHDATA1.toNat := by
    have hvalue : OP_PUSHDATA1.toNat = 0x4c := rfl
    omega
  rw [getScriptOp, if_neg hlarge, if_neg (hpush _ (by decide)), if_neg (hpush _ (by decide)),
    if_neg (hpush _ (by decide))]

variable {r : ℕ × List Byte}

/-- A witness program: a version and a push of all the rest. -/
theorem isWitnessProgram_shape
    (h : isWitnessProgram script = some r) : ∃ op size program, script = op :: size :: program ∧
      (op = OP_0 ∨ (0x51 ≤ op.toNat ∧ op.toNat ≤ 0x60)) ∧ size.toNat = program.length ∧
      program.length ≤ 40 := by
  unfold isWitnessProgram at h
  split at h
  · cases h
  · rename_i hlen
    split at h
    · rename_i op size program
      split_ifs at h with hop hsize
      simp only [List.length_cons] at hlen hsize
      refine ⟨op, size, program, rfl, ?_, by omega, by omega⟩
      by_cases hzero : op = OP_0
      · exact Or.inl hzero
      · exact Or.inr (by simp only [ne_eq, hzero, not_false_eq_true, true_and] at hop; omega)
    · cases h

/-- A witness program is made of pushes. -/
theorem sigOps_witnessProgram
    (h : isWitnessProgram script = some r) : sigOpsFrom true script.length script 0xff#8 = 0 := by
  obtain ⟨op, size, program, rfl, hop, hsize, hlen⟩ := isWitnessProgram_shape h
  have hfirst : ∃ vch, getScriptOp (op :: size :: program) = some (op, vch, size :: program) := by
    obtain rfl | hop := hop
    · exact ⟨_, getScriptOp_push (by decide) (Nat.zero_le _)⟩
    · exact ⟨_, getScriptOp_plain (by omega)⟩
  have hsmall : op.toNat ≤ 0x60 := by
    obtain rfl | hop := hop
    · decide
    · exact hop.2
  obtain ⟨vch, hfirst⟩ := hfirst
  have hsecond := getScriptOp_push (show size.toNat < 0x4c by omega) hsize.le
  rw [List.length_cons, List.length_cons, sigOpsFrom_cons hfirst, sigOpsFrom_cons hsecond,
    opcodeSigOps_push true _ hsmall, opcodeSigOps_push true _ (by omega), hsize, List.drop_length]
  cases program.length <;> rfl

theorem isPayToScriptHash_shape (h : isPayToScriptHash script = true) :
    ∃ rest, script = 0xa9#8 :: 0x14#8 :: rest ∧ rest.length = 21 ∧ rest[20]? = some 0x87#8 := by
  simp only [isPayToScriptHash, Bool.and_eq_true, beq_iff_eq] at h
  obtain ⟨⟨⟨hlen, h0⟩, h1⟩, h22⟩ := h
  match script, hlen, h0, h1, h22 with
  | a :: b :: rest, hlen, h0, h1, h22 =>
    obtain rfl : a = 0xa9#8 := (Option.some.inj h0).trans (by decide)
    obtain rfl : b = 0x14#8 := Option.some.inj h1
    exact ⟨rest, rfl, by simpa using hlen, h22.trans (by decide)⟩

theorem sigOps_payToScriptHash (h : isPayToScriptHash script = true) :
    sigOpsFrom true script.length script 0xff#8 = 0 := by
  obtain ⟨rest, rfl, hlen, hlast⟩ := isPayToScriptHash_shape h
  have hdrop : rest.drop 20 = [0x87#8] := by
    obtain ⟨hlt, hget⟩ := List.getElem_of_getElem? hlast
    rw [List.drop_eq_getElem_cons hlt, hget, List.drop_of_length_le (by omega)]
  have hsecond : getScriptOp (0x14#8 :: rest) = some (0x14#8, rest.take 20, [0x87#8]) := by
    rw [getScriptOp_push (by decide) (by rw [hlen]; decide)]
    exact congrArg (fun next => some (0x14#8, rest.take 20, next)) hdrop
  rw [List.length_cons, List.length_cons, sigOpsFrom_cons (getScriptOp_plain (by decide)),
    sigOpsFrom_cons hsecond, hlen]
  rfl

theorem not_payToScriptHash_of_witnessProgram
    (h : isWitnessProgram script = some r) : ¬isPayToScriptHash script = true := by
  intro hhash
  obtain ⟨op, size, program, rfl, hop, -⟩ := isWitnessProgram_shape h
  obtain ⟨rest, heq, -⟩ := isPayToScriptHash_shape hhash
  obtain ⟨rfl, -⟩ := List.cons.inj heq
  revert hop
  decide

/-- The calls of a witness program come alone: without one there are none. -/
theorem scriptWitnessCalls_eq_nil {witness : List ValType} {malleated : Bool}
    (h : isWitnessProgram script = none ∨ malleated = true) :
    scriptWitnessCalls crypto checker flags witness script malleated = [] := by
  unfold scriptWitnessCalls
  split
  · split
    · rfl
    · rename_i hprogram
      obtain h | h := h
      · rw [hprogram] at h
        cases h
      · rw [if_pos h]
  · rfl

/-- The script that a script hash stands for: its calls are those of the script, or those of the
witness program that it is. -/
theorem allVersion_scriptHashCalls (scriptSig : CScript) (witness stackCopy : List ValType) :
    ∃ version, AllVersion version
      (scriptHashCalls crypto checker flags scriptSig witness stackCopy) := by
  cases hprogram : isWitnessProgram (stackCopy.headD []) with
  | none =>
    refine ⟨.base, allVersion_callsAfter fun _ => ?_⟩
    refine (allVersion_evalScriptCalls _ _ _).append (allVersion_callsAfter fun _ => ?_)
    rw [scriptWitnessCalls_eq_nil (Or.inl hprogram)]
    exact allVersion_nil
  | some r =>
    refine ⟨.witnessV0, allVersion_callsAfter fun _ => ?_⟩
    dsimp only
    rw [evalScriptCalls_eq_nil _ _ (sigOps_witnessProgram hprogram), List.nil_append]
    exact allVersion_callsAfter fun _ => allVersion_scriptWitnessCalls _ _ _

theorem scriptHashCalls_of_not_pushOnly {scriptSig : CScript} {witness stackCopy : List ValType}
    (h : isPushOnly scriptSig = false) :
    scriptHashCalls crypto checker flags scriptSig witness stackCopy = [] := by
  unfold scriptHashCalls
  rw [h]
  rfl

/-- The calls of a spend in terms of its parts. -/
theorem allVersion_of_parts {version : SigVersion} {scriptSig scriptPubKey : CScript}
    {witness : List ValType}
    (hsig : AllVersion version (evalScriptCalls crypto checker .base flags [] scriptSig {}))
    (hpubkey : ∀ stack,
      AllVersion version (evalScriptCalls crypto checker .base flags stack scriptPubKey {}))
    (hwitness : AllVersion version
      (scriptWitnessCalls crypto checker flags witness scriptPubKey (scriptSig != [])))
    (hhash : .P2SH ∈ flags ∧ isPayToScriptHash scriptPubKey = true → ∀ stackCopy,
      evalSpendScript crypto checker flags [] scriptSig = .ok stackCopy →
      AllVersion version (scriptHashCalls crypto checker flags scriptSig witness stackCopy)) :
    AllVersion version (verifyScriptCalls crypto checker flags scriptSig scriptPubKey witness) := by
  refine allVersion_callsAfter fun _ => hsig.append ?_
  cases heval : evalSpendScript crypto checker flags [] scriptSig with
  | error e => exact allVersion_nil
  | ok stackCopy =>
    refine (hpubkey stackCopy).append (allVersion_callsAfter fun stack => hwitness.append
      (allVersion_callsAfter fun _ => ?_))
    split
    · rename_i hscriptHash
      exact hhash hscriptHash stackCopy heval
    · exact allVersion_nil

/-- **The calls of one spend are for one version of script.** -/
theorem allVersion_verifyScriptCalls (scriptSig scriptPubKey : CScript) (witness : List ValType) :
    ∃ version, AllVersion version
      (verifyScriptCalls crypto checker flags scriptSig scriptPubKey witness) := by
  have hnil : ∀ {version : SigVersion} {calls : List EcdsaCall}, calls = [] →
      AllVersion version calls := fun h => h ▸ allVersion_nil
  cases hprogram : isWitnessProgram scriptPubKey with
  | some r =>
    have hnot := not_payToScriptHash_of_witnessProgram hprogram
    by_cases hempty : scriptSig = []
    · subst hempty
      exact ⟨.witnessV0, allVersion_of_parts (hnil (evalScriptCalls_eq_nil _ _ rfl))
        (fun stack => hnil (evalScriptCalls_eq_nil _ _ (sigOps_witnessProgram hprogram)))
        (allVersion_scriptWitnessCalls _ _ _) fun h => absurd h.2 hnot⟩
    · exact ⟨.base, allVersion_of_parts (allVersion_evalScriptCalls _ _ _)
        (fun stack => allVersion_evalScriptCalls _ _ _)
        (hnil (scriptWitnessCalls_eq_nil (Or.inr (bne_iff_ne.mpr hempty))))
        fun h => absurd h.2 hnot⟩
  | none =>
    have hwitness : ∀ version, AllVersion version
        (scriptWitnessCalls crypto checker flags witness scriptPubKey (scriptSig != [])) :=
      fun version => hnil (scriptWitnessCalls_eq_nil (Or.inl hprogram))
    by_cases hhash : isPayToScriptHash scriptPubKey = true ∧ isPushOnly scriptSig = true
    · -- the script signature pushes and the script compares: only what is hashed makes calls
      obtain ⟨version, hversion⟩ : ∃ version, AllVersion version (scriptHashCalls crypto checker
          flags scriptSig witness
          ((evalSpendScript crypto checker flags [] scriptSig).toOption.getD [])) :=
        allVersion_scriptHashCalls _ _ _
      refine ⟨version, allVersion_of_parts
        (hnil (evalScriptCalls_eq_nil _ _ (sigOpsFrom_pushOnly _ _ _ hhash.2)))
        (fun stack => hnil (evalScriptCalls_eq_nil _ _ (sigOps_payToScriptHash hhash.1)))
        (hwitness version) fun _ stackCopy heval => ?_⟩
      rw [heval] at hversion
      exact hversion
    · refine ⟨.base, allVersion_of_parts (allVersion_evalScriptCalls _ _ _)
        (fun stack => allVersion_evalScriptCalls _ _ _) (hwitness .base) fun h stackCopy _ => ?_⟩
      have hpush : isPushOnly scriptSig = false := by
        by_contra hpush
        exact hhash ⟨h.2, by simpa using hpush⟩
      exact hnil (scriptHashCalls_of_not_pushOnly hpush)

end Versions

/-! ## The cache -/

section Cache

variable {crypto : ScriptCrypto} {txTo : CTransaction} {nIn : ℕ} {amount : CAmount}
  {sigversion : SigVersion}

/-- The precomputed hashes are those that would be computed. -/
theorem init_ready (spent_outputs : List CTxOut) (force : Bool) :
    let data := PrecomputedTransactionData.init crypto txTo spent_outputs force
    (data.m_bip143_segwit_ready = true →
      data.hashPrevouts = sha256Uint256 crypto (getPrevoutsSHA256 crypto txTo) ∧
      data.hashSequence = sha256Uint256 crypto (getSequencesSHA256 crypto txTo) ∧
      data.hashOutputs = sha256Uint256 crypto (getOutputsSHA256 crypto txTo)) ∧
    (data.m_bip341_taproot_ready = true →
      data.m_prevouts_single_hash = getPrevoutsSHA256 crypto txTo ∧
      data.m_sequences_single_hash = getSequencesSHA256 crypto txTo ∧
      data.m_outputs_single_hash = getOutputsSHA256 crypto txTo ∧
      data.m_spent_amounts_single_hash = (crypto.sha256 (spentAmountsBytes spent_outputs)).1 ∧
      data.m_spent_scripts_single_hash = (crypto.sha256 (spentScriptsBytes spent_outputs)).1) := by
  unfold PrecomputedTransactionData.init
  dsimp only
  generalize (force || List.any _ _) = uses_bip341_taproot
  generalize (force || List.any _ _) = uses_bip143_segwit
  generalize (!spent_outputs.isEmpty) = spentReady
  -- Three flags decide which of the fields are set.
  cases uses_bip143_segwit <;> cases uses_bip341_taproot <;> cases spentReady
  all_goals constructor <;> intro h
  all_goals first
    | exact absurd h Bool.false_ne_true
    | exact ⟨rfl, rfl, rfl⟩
    | exact ⟨rfl, rfl, rfl, rfl, rfl⟩

/-- The kind of a hash type is all that the writing depends on. -/
theorem kinds_of_cacheIndex {t t' : BitVec 32} (h : cacheIndex t = cacheIndex t') :
    isAnyoneCanPay t = isAnyoneCanPay t' ∧ isHashSingle t = isHashSingle t' ∧
      isHashNone t = isHashNone t' := by
  have hexclusive : ∀ t : BitVec 32, ¬(isHashSingle t = true ∧ isHashNone t = true) := by
    intro t ⟨hsingle, hnone⟩
    simp only [isHashSingle, isHashNone, beq_iff_eq] at hsingle hnone
    exact absurd (hsingle.symm.trans hnone) (by decide)
  have ht := hexclusive t
  have ht' := hexclusive t'
  unfold cacheIndex at h
  generalize isAnyoneCanPay t = a at *
  generalize isAnyoneCanPay t' = a' at *
  generalize isHashSingle t = b at *
  generalize isHashSingle t' = b' at *
  generalize isHashNone t = c at *
  generalize isHashNone t' = c' at *
  revert a b c a' b' c'
  decide

theorem signatureMidstate_congr {t t' : BitVec 32} (h : cacheIndex t = cacheIndex t')
    (scriptCode : CScript) :
    signatureMidstate crypto scriptCode txTo nIn t amount sigversion none =
      signatureMidstate crypto scriptCode txTo nIn t' amount sigversion none := by
  obtain ⟨hany, hsingle, hnone⟩ := kinds_of_cacheIndex h
  have hinput : serializeInput scriptCode txTo nIn t = serializeInput scriptCode txTo nIn t' := by
    funext nInput
    simp only [serializeInput, hany, hsingle, hnone]
  have houtput : serializeOutput txTo nIn t = serializeOutput txTo nIn t' := by
    funext nOutput
    simp only [serializeOutput, hsingle]
  simp only [signatureMidstate, serializeForWitness, serializeForSignature, hany, hsingle, hnone,
    hinput, houtput]

theorem signatureMidstate_init (spent_outputs : List CTxOut) (force : Bool) (t : BitVec 32)
    (scriptCode : CScript) :
    signatureMidstate crypto scriptCode txTo nIn t amount sigversion
        (some (PrecomputedTransactionData.init crypto txTo spent_outputs force)) =
      signatureMidstate crypto scriptCode txTo nIn t amount sigversion none := by
  cases hready : (PrecomputedTransactionData.init crypto txTo spent_outputs
      force).m_bip143_segwit_ready with
  | false =>
    simp only [signatureMidstate, serializeForWitness, cachedOr, hready, Bool.false_eq_true,
      if_false]
  | true =>
    obtain ⟨hprevouts, hsequence, houtputs⟩ := (init_ready _ _).1 hready
    simp only [signatureMidstate, serializeForWitness, cachedOr, hready, if_true, hprevouts,
      hsequence, houtputs]

variable (crypto txTo nIn amount sigversion) in
/-- The entries of the cache are what would be written. -/
def CacheRight (cache : SigHashCache) : Prop :=
  ∀ i scriptCode midstate, cache i = some (scriptCode, midstate) → ∀ t, cacheIndex t = i →
    midstate = signatureMidstate crypto scriptCode txTo nIn t amount sigversion none

variable {cache : SigHashCache}

section

variable (h : CacheRight crypto txTo nIn amount sigversion cache)

include h

theorem CacheRight.load {t : BitVec 32} {scriptCode : CScript}
    {midstate : List Byte} (hload : cache.load t scriptCode = some midstate) :
    midstate = signatureMidstate crypto scriptCode txTo nIn t amount sigversion none := by
  unfold SigHashCache.load at hload
  split at hload
  · rename_i script stored hentry
    split_ifs at hload with hscript
    cases hload
    rw [hscript]
    exact h _ _ _ hentry t rfl
  · cases hload

theorem CacheRight.store (t : BitVec 32) (scriptCode : CScript) :
    CacheRight crypto txTo nIn amount sigversion (cache.store t scriptCode
      (signatureMidstate crypto scriptCode txTo nIn t amount sigversion none)) := by
  intro i script midstate hentry t' ht'
  unfold SigHashCache.store at hentry
  split_ifs at hentry with hi
  · cases hentry
    exact signatureMidstate_congr (hi.symm.trans ht'.symm) _
  · exact h i script midstate hentry t' ht'

/-- **One hash**: it is the one without a cache, and the cache stays right. -/
theorem signatureHash_cached (spent_outputs : List CTxOut) (force : Bool) (t : BitVec 32) (scriptCode : CScript) :
    ∃ cache', signatureHash crypto scriptCode txTo nIn t amount sigversion
        (some (PrecomputedTransactionData.init crypto txTo spent_outputs force)) (some cache) =
      ((signatureHash crypto scriptCode txTo nIn t amount sigversion none none).1, some cache') ∧
      CacheRight crypto txTo nIn amount sigversion cache' := by
  unfold signatureHash
  split
  · exact ⟨cache, rfl, h⟩
  · simp only [Option.bind_some, Option.bind_none, signatureMidstate_init, Option.map_some,
      Option.map_none]
    cases hload : cache.load t scriptCode with
    | some midstate => exact ⟨cache, by rw [h.load hload], h⟩
    | none => exact ⟨_, rfl, h.store t scriptCode⟩

theorem callSignatureHash_cached (isValidPubKey : ValType → Bool) (spent_outputs : List CTxOut)
    (force : Bool) {call : EcdsaCall} (hcall : call.sigversion = sigversion) :
    ∃ cache', callSignatureHash crypto isValidPubKey txTo nIn amount
        (some (PrecomputedTransactionData.init crypto txTo spent_outputs force)) (some cache) call =
      ((callSignatureHash crypto isValidPubKey txTo nIn amount none none call).1, some cache') ∧
      CacheRight crypto txTo nIn amount sigversion cache' := by
  unfold callSignatureHash
  split
  · exact ⟨cache, rfl, h⟩
  · rename_i nHashType _
    rw [hcall]
    obtain ⟨cache', hhash, hright⟩ := signatureHash_cached h spent_outputs force
      (nHashType.setWidth 32) call.scriptCode
    split_ifs
    · exact ⟨cache, rfl, h⟩
    · exact ⟨cache, rfl, h⟩
    · exact ⟨cache', by rw [hhash], hright⟩

theorem callSignatureHashes_cached (isValidPubKey : ValType → Bool) (spent_outputs : List CTxOut)
    (force : Bool) {calls : List EcdsaCall} (hcalls : AllVersion sigversion calls) :
    callSignatureHashes crypto isValidPubKey txTo nIn amount
        (some (PrecomputedTransactionData.init crypto txTo spent_outputs force)) (some cache)
        calls =
      calls.map fun call =>
        (callSignatureHash crypto isValidPubKey txTo nIn amount none none call).1 := by
  induction calls generalizing cache with
  | nil => rfl
  | cons call calls ih =>
    obtain ⟨cache', hhash, hright⟩ := callSignatureHash_cached h isValidPubKey spent_outputs force
      (hcalls call List.mem_cons_self)
    rw [callSignatureHashes, hhash, List.map_cons]
    exact congrArg _ (ih hright fun call hmem => hcalls call (List.mem_cons_of_mem _ hmem))

end

end Cache

/-- **The caches of signature hashes change nothing.**  Take the calls of `CheckECDSASignature` in
one run of `VerifyScript`, for any answers that the checker gives.  The hashes that are computed for
them with one cache and with the precomputed data are those without any cache. -/
theorem callSignatureHashes_transparent (crypto : ScriptCrypto) (checker : SignatureChecker)
    (flags : ScriptVerifyFlags) (scriptSig scriptPubKey : CScript) (witness : List ValType)
    (isValidPubKey : ValType → Bool) (txTo : CTransaction) (nIn : ℕ) (amount : CAmount)
    (spent_outputs : List CTxOut) (force : Bool) :
    callSignatureHashes crypto isValidPubKey txTo nIn amount
        (some (PrecomputedTransactionData.init crypto txTo spent_outputs force))
        (some fun _ => none)
        (verifyScriptCalls crypto checker flags scriptSig scriptPubKey witness) =
      (verifyScriptCalls crypto checker flags scriptSig scriptPubKey witness).map fun call =>
        (callSignatureHash crypto isValidPubKey txTo nIn amount none none call).1 := by
  obtain ⟨version, hversion⟩ : ∃ version, AllVersion version
      (verifyScriptCalls crypto checker flags scriptSig scriptPubKey witness) :=
    allVersion_verifyScriptCalls scriptSig scriptPubKey witness
  have hempty : CacheRight crypto txTo nIn amount version fun _ => none :=
    fun _ _ _ hentry => absurd hentry (Option.some_ne_none _).symm
  exact callSignatureHashes_cached hempty isValidPubKey spent_outputs force hversion

end BitMinti.Analysis
