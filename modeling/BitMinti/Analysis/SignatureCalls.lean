import BitMinti.Analysis.EvalLimits
import BitMinti.Model.SignatureCalls

/-!
# The signature checks of a script

The loop of `OP_CHECKMULTISIG` tries every key once, and finds an assignment of the signatures to
keys in their order if there is one.  The number of signature operations that is counted for a
script bounds the checks of every evaluation: an opcode that pushes a small number right before
`OP_CHECKMULTISIG` is executed exactly if `OP_CHECKMULTISIG` is, and its number is the number of
keys.

SOURCE: src/src/script/interpreter.cpp:1105-1215, src/src/script/script.cpp:159-179
-/

set_option autoImplicit false

namespace BitMinti.Analysis

open BitMinti.Computation Computation.StateExcept Model

/-! ## `OP_CHECKMULTISIG` -/

/-- A list matches a part of another in the same order: there is an increasing assignment of its
positions. -/
theorem sublistForall₂_iff_orderEmbedding {α β : Type} {R : α → β → Prop} {as : List α}
    {bs : List β} :
    List.SublistForall₂ R as bs ↔
      ∃ f : Fin as.length ↪o Fin bs.length, ∀ i, R (as.get i) (bs.get (f i)) := by
  rw [List.sublistForall₂_iff]
  constructor
  · rintro ⟨l, hall, hsub⟩
    obtain ⟨hlen, hget⟩ := List.forall₂_iff_get.mp hall
    obtain ⟨f, hf⟩ := List.sublist_iff_exists_fin_orderEmbedding_get_eq.mp hsub
    refine ⟨(Fin.castOrderIso hlen).toOrderEmbedding.trans f, fun i => ?_⟩
    have hi := hget i i.2 (hlen ▸ i.2)
    rw [hf] at hi
    exact hi
  · rintro ⟨f, hf⟩
    refine ⟨List.ofFn fun i => bs.get (f i), ?_, ?_⟩
    · refine List.forall₂_iff_get.mpr ⟨by simp, fun i h₁ h₂ => ?_⟩
      have hi := hf ⟨i, h₁⟩
      simpa using hi
    · refine List.sublist_iff_exists_fin_orderEmbedding_get_eq.mpr
        ⟨(Fin.castOrderIso (by simp)).toOrderEmbedding.trans f, fun i => ?_⟩
      simp
      rfl

/-- An element may be matched with the first one that it can be matched with: whatever assignment
there is leaves the rest to the rest. -/
theorem sublistForall₂_cons_iff {α β : Type} {R : α → β → Prop} {a : α} {b : β} {as : List α}
    {bs : List β} [Decidable (R a b)] :
    List.SublistForall₂ R (a :: as) (b :: bs) ↔
      List.SublistForall₂ R (if R a b then as else a :: as) bs := by
  have htail : ∀ {bs : List β}, List.SublistForall₂ R (a :: as) bs →
      List.SublistForall₂ R as bs := by
    intro bs h
    obtain ⟨l, hall, hsub⟩ := List.sublistForall₂_iff.mp h
    cases hall with
    | cons _ hall => exact List.sublistForall₂_iff.mpr ⟨_, hall, List.sublist_of_cons_sublist hsub⟩
  constructor
  · intro h
    split_ifs with hR
    · cases h with
      | cons _ h => exact h
      | cons_right h => exact htail h
    · cases h with
      | cons hab _ => exact absurd hab hR
      | cons_right h => exact h
  · intro h
    split_ifs at h with hR
    · exact .cons hR h
    · exact .cons_right h

theorem length_le_of_sublistForall₂ {α β : Type} {R : α → β → Prop} {as : List α} {bs : List β}
    (h : List.SublistForall₂ R as bs) : as.length ≤ bs.length := by
  obtain ⟨l, hall, hsub⟩ := List.sublistForall₂_iff.mp h
  exact hall.length_eq ▸ hsub.length_le

section Multisig

variable {crypto : ScriptCrypto} {checker : SignatureChecker} {sigversion : SigVersion}
  {flags : ScriptVerifyFlags} {scriptCode : CScript}

/-- The loop by induction on the keys that are left. -/
theorem checkMultisig_eq (sigs keys : List ValType)
    (hsigs : ∀ vchSig ∈ sigs, checkSignatureEncoding crypto flags vchSig = .ok ())
    (hkeys : ∀ vchPubKey ∈ keys, checkPubKeyEncoding flags vchPubKey sigversion = .ok ()) :
    ∃ fSuccess, checkMultisig crypto checker sigversion flags scriptCode sigs keys = .ok fSuccess ∧
      (fSuccess = true ↔ List.SublistForall₂ (fun vchSig vchPubKey =>
        checker.checkECDSASignature vchSig vchPubKey scriptCode sigversion = true) sigs keys) := by
  induction keys generalizing sigs with
  | nil =>
    cases sigs with
    | nil => exact ⟨true, rfl, iff_of_true rfl .nil⟩
    | cons vchSig sigs => exact ⟨false, rfl, iff_of_false Bool.false_ne_true nofun⟩
  | cons vchPubKey keys ih =>
    cases sigs with
    | nil => exact ⟨true, rfl, iff_of_true rfl .nil⟩
    | cons vchSig sigs =>
      obtain ⟨left, hleft⟩ : ∃ left, left = if checker.checkECDSASignature vchSig vchPubKey
        scriptCode sigversion = true then sigs else vchSig :: sigs := ⟨_, rfl⟩
      have hstep : checkMultisig crypto checker sigversion flags scriptCode (vchSig :: sigs)
          (vchPubKey :: keys) = if keys.length < left.length then .ok false
            else checkMultisig crypto checker sigversion flags scriptCode left keys := by
        rw [checkMultisig, hsigs vchSig List.mem_cons_self, hkeys vchPubKey List.mem_cons_self,
          hleft]
        rfl
      have hencoded : ∀ sig ∈ left, checkSignatureEncoding crypto flags sig = .ok () := by
        intro sig hmem
        rw [hleft] at hmem
        split_ifs at hmem
        · exact hsigs sig (List.mem_cons_of_mem _ hmem)
        · exact hsigs sig hmem
      rw [hstep, sublistForall₂_cons_iff, ← hleft]
      by_cases hlen : keys.length < left.length
      · refine ⟨false, if_pos hlen, iff_of_false Bool.false_ne_true fun h => ?_⟩
        exact absurd (length_le_of_sublistForall₂ h) (by omega)
      · rw [if_neg hlen]
        exact ih left hencoded fun key hmem => hkeys key (List.mem_cons_of_mem _ hmem)

/-- All calls are for one version. -/
def AllVersion (sigversion : SigVersion) (calls : List EcdsaCall) : Prop :=
  ∀ call ∈ calls, call.sigversion = sigversion

/-- At most `n` calls, all for one version. -/
structure CallsWithin (sigversion : SigVersion) (n : ℕ) (calls : List EcdsaCall) : Prop where
  length : calls.length ≤ n
  version : AllVersion sigversion calls

theorem allVersion_nil : AllVersion sigversion [] := fun _ h => absurd h List.not_mem_nil

theorem AllVersion.append {calls calls' : List EcdsaCall} (h : AllVersion sigversion calls)
    (h' : AllVersion sigversion calls') : AllVersion sigversion (calls ++ calls') :=
  List.forall_mem_append.2 ⟨h, h'⟩

theorem CallsWithin.nil (n : ℕ) : CallsWithin sigversion n [] := ⟨Nat.zero_le _, allVersion_nil⟩

theorem CallsWithin.cons {n : ℕ} {call : EcdsaCall} {calls : List EcdsaCall}
    (hcall : call.sigversion = sigversion) (h : CallsWithin sigversion n calls) :
    CallsWithin sigversion (n + 1) (call :: calls) :=
  ⟨Nat.succ_le_succ h.length, List.forall_mem_cons.2 ⟨hcall, h.version⟩⟩

theorem CallsWithin.append {n m : ℕ} {calls calls' : List EcdsaCall}
    (h : CallsWithin sigversion n calls) (h' : CallsWithin sigversion m calls') :
    CallsWithin sigversion (n + m) (calls ++ calls') :=
  ⟨List.length_append.trans_le (Nat.add_le_add h.length h'.length), h.version.append h'.version⟩

theorem CallsWithin.mono {n m : ℕ} {calls : List EcdsaCall} (h : CallsWithin sigversion n calls)
    (hle : n ≤ m) : CallsWithin sigversion m calls :=
  ⟨h.length.trans hle, h.version⟩

theorem callsWithin_callsAfter {α : Type} {check : Except ScriptFailure α}
    {calls : α → List EcdsaCall} {n : ℕ}
    (h : ∀ a, check = .ok a → CallsWithin sigversion n (calls a)) :
    CallsWithin sigversion n (callsAfter check calls) := by
  unfold callsAfter
  split
  · exact h _ rfl
  · exact .nil n

/-- Every key is tried at most once. -/
theorem callsWithin_multisigCalls (sigs keys : List ValType) :
    CallsWithin sigversion keys.length
      (multisigCalls crypto checker sigversion flags scriptCode sigs keys) := by
  induction keys generalizing sigs with
  | nil => cases sigs <;> exact .nil _
  | cons vchPubKey keys ih =>
    cases sigs with
    | nil => exact .nil _
    | cons vchSig sigs =>
      unfold multisigCalls
      refine callsWithin_callsAfter fun _ _ => .cons rfl ?_
      generalize (if checker.checkECDSASignature vchSig vchPubKey scriptCode sigversion = true then
        sigs else vchSig :: sigs) = left
      split_ifs
      · exact .nil _
      · exact ih left

end Multisig

/-- **`OP_CHECKMULTISIG` finds an assignment if there is one.**  For signatures and keys whose
encodings the flags accept, the loop succeeds exactly if there is an increasing assignment of the
signatures to key positions in which every pair verifies.  It makes at most one check for each
key. -/
theorem checkMultisig_iff (crypto : ScriptCrypto) (checker : SignatureChecker)
    (sigversion : SigVersion) (flags : ScriptVerifyFlags) (scriptCode : CScript)
    (sigs keys : List ValType)
    (hsigs : ∀ vchSig ∈ sigs, checkSignatureEncoding crypto flags vchSig = .ok ())
    (hkeys : ∀ vchPubKey ∈ keys, checkPubKeyEncoding flags vchPubKey sigversion = .ok ()) :
    (∃ fSuccess, checkMultisig crypto checker sigversion flags scriptCode sigs keys =
        .ok fSuccess ∧
      (fSuccess = true ↔ ∃ f : Fin sigs.length ↪o Fin keys.length, ∀ i,
        checker.checkECDSASignature (sigs.get i) (keys.get (f i)) scriptCode sigversion = true)) ∧
      (multisigCalls crypto checker sigversion flags scriptCode sigs keys).length ≤
        keys.length := by
  refine ⟨?_, (callsWithin_multisigCalls sigs keys).length⟩
  obtain ⟨fSuccess, hloop, hiff⟩ := checkMultisig_eq sigs keys hsigs hkeys
  exact ⟨fSuccess, hloop, hiff.trans sublistForall₂_iff_orderEmbedding⟩

/-- A checker for which a signature is good for the key that equals it. -/
def equalityChecker : SignatureChecker :=
  { baseChecker with checkECDSASignature := fun vchSig vchPubKey _ _ => vchSig == vchPubKey }

theorem checkMultisig_iff_two :
    ∃ fSuccess, checkMultisig zeroCrypto equalityChecker .base ∅ [] [[1#8], [3#8]]
      [[1#8], [2#8], [3#8]] = .ok fSuccess ∧ fSuccess = true := by
  obtain ⟨⟨fSuccess, hloop, hiff⟩, -⟩ := checkMultisig_iff zeroCrypto equalityChecker .base ∅ []
    [[1#8], [3#8]] [[1#8], [2#8], [3#8]] (by decide) (by decide)
  refine ⟨fSuccess, hloop, hiff.mpr ⟨OrderEmbedding.ofStrictMono
    (fun i => if i.val = 0 then ⟨0, by decide⟩ else ⟨2, by decide⟩) ?_, ?_⟩⟩
  · decide
  · decide

/-! ## Counted signature operations -/

section Counts

variable {crypto : ScriptCrypto} {checker : SignatureChecker} {sigversion : SigVersion}
  {flags : ScriptVerifyFlags} {s : EvalState} {lastOpcode opcode : Byte}

theorem callsWithin_checksigCalls (vchSig vchPubKey : ValType) (scriptCode : CScript) :
    CallsWithin sigversion 1 (checksigCalls crypto sigversion flags vchSig vchPubKey scriptCode) :=
  callsWithin_callsAfter fun _ _ => .cons rfl (.nil 0)

/-- A small number that an opcode pushes is read back. -/
theorem setVch_serialize_small {n : ℕ} (h1 : 1 ≤ n) (h16 : n ≤ 16) :
    CScriptNum.setVch (CScriptNum.serialize n) = n := by
  have hall : ∀ n < 17, 1 ≤ n →
      CScriptNum.setVch (CScriptNum.serialize ((n : ℕ) : ℤ)) = (n : ℕ) := by decide
  exact hall n (by omega) h1

theorem eq_setVch_of_ofVch {vch : ValType} {fRequireMinimal : Bool} {n : ℤ}
    (h : CScriptNum.ofVch vch fRequireMinimal = .ok n) : n = CScriptNum.setVch vch := by
  unfold CScriptNum.ofVch at h
  split_ifs at h
  exact (Except.ok.inj h).symm

/-- The keys are as many as the top of the stack says, and at most the limit. -/
theorem length_keys_le {nOpCount : ℕ} {stack : List ValType} {r : MultisigOperands × ℕ}
    (h : multisigOperands flags nOpCount stack = .ok r) :
    r.1.keys.length ≤ MAX_PUBKEYS_PER_MULTISIG ∧ ∃ top below, stack = top :: below ∧
      r.1.keys.length ≤ (CScriptNum.getint (CScriptNum.setVch top)).toNat := by
  cases stack with
  | nil => cases h
  | cons top stack =>
    obtain ⟨nKeys, hnum, h⟩ := exists_of_bind_ok h
    obtain ⟨hrange, h⟩ := ok_of_failIf_bind h
    obtain ⟨-, h⟩ := ok_of_failIf_bind h
    have hkeys : r.1.keys = stack.take (CScriptNum.getint nKeys).toNat := by
      split at h
      · cases h
      · obtain ⟨nSigs, -, h⟩ := exists_of_bind_ok h
        obtain ⟨-, h⟩ := ok_of_failIf_bind h
        split at h
        · cases h
        · cases h
          rfl
    have hlen : r.1.keys.length ≤ (CScriptNum.getint nKeys).toNat := by
      rw [hkeys]
      exact List.length_take_le _ _
    simp only [Bool.or_eq_false_iff, decide_eq_false_iff_not] at hrange
    exact ⟨by omega, top, stack, rfl, eq_setVch_of_ofVch hnum ▸ hlen⟩

/-- If the last opcode pushes a number from 1 to 16 and this one is executed, the number is on top
of the stack. -/
def PushedBy (lastOpcode : Byte) (s : EvalState) : Prop :=
  0x51 ≤ lastOpcode.toNat → lastOpcode.toNat ≤ 0x60 → s.vfExec.allTrue = true →
    ∃ below, s.stack = CScriptNum.serialize (decodeOpN lastOpcode) :: below

theorem decodeOpN_bounds (h51 : 0x51 ≤ lastOpcode.toNat) (h60 : lastOpcode.toNat ≤ 0x60) :
    1 ≤ decodeOpN lastOpcode ∧ decodeOpN lastOpcode ≤ 16 := by
  have hne : lastOpcode ≠ OP_0 := by
    rintro rfl
    exact absurd h51 (by decide)
  rw [decodeOpN, if_neg hne]
  omega

/-- The checks of `OP_CHECKMULTISIG`. -/
theorem length_multisigOpcodeCalls_le (hpushed : PushedBy lastOpcode s)
    (hexec : s.vfExec.allTrue = true) {nOpCount : ℕ} {r : MultisigOperands × ℕ}
    (h : multisigOperands flags nOpCount s.stack = .ok r) :
    r.1.keys.length ≤ if decide (0x51 ≤ lastOpcode.toNat) && decide (lastOpcode.toNat ≤ 0x60) then
      decodeOpN lastOpcode else MAX_PUBKEYS_PER_MULTISIG := by
  obtain ⟨hlimit, top, below, hstack, hkeys⟩ := length_keys_le h
  split_ifs with hlast
  · simp only [Bool.and_eq_true, decide_eq_true_eq] at hlast
    obtain ⟨below', hpush⟩ := hpushed hlast.1 hlast.2 hexec
    obtain ⟨h1, h16⟩ := decodeOpN_bounds hlast.1 hlast.2
    rw [hstack] at hpush
    rw [(List.cons.inj hpush).1, setVch_serialize_small h1 h16, CScriptNum.getint] at hkeys
    omega
  · exact hlimit

theorem beginInstruction_ok {vchPushValue : ValType} {s' : EvalState}
    (h : beginInstruction sigversion flags opcode vchPushValue s = .ok s') :
    s'.stack = s.stack ∧ s'.vfExec = s.vfExec := by
  obtain ⟨-, h⟩ := ok_of_failIf_bind h
  obtain ⟨-, h⟩ := ok_of_failIf_bind h
  obtain ⟨-, h⟩ := ok_of_failIf_bind h
  obtain ⟨-, h⟩ := ok_of_failIf_bind h
  cases h
  exact ⟨rfl, rfl⟩

/-- **The checks of one opcode** are at most what it counts for. -/
theorem callsWithin_instructionCalls (vchPushValue : ValType) (hpushed : PushedBy lastOpcode s) :
    CallsWithin sigversion (opcodeSigOps true lastOpcode opcode)
      (instructionCalls crypto checker sigversion flags opcode vchPushValue s) := by
  refine callsWithin_callsAfter fun s' hs' => ?_
  obtain ⟨hstack, -⟩ := beginInstruction_ok hs'
  split_ifs with hexec
  · unfold opcodeSigOps
    generalize Opcode.ofByte opcode = op
    cases op with
    | OP_CHECKSIG | OP_CHECKSIGVERIFY =>
      simp only [opcodeCalls]
      split
      · split_ifs
        · exact callsWithin_checksigCalls _ _ _
        · exact .nil _
      · exact .nil _
    | OP_CHECKMULTISIG | OP_CHECKMULTISIGVERIFY =>
      refine callsWithin_callsAfter fun r hr => ?_
      obtain ⟨-, hr⟩ := ok_of_failIf_bind hr
      obtain ⟨operands, hoperands, hr⟩ := exists_of_bind_ok hr
      obtain ⟨scriptCode, -, hr⟩ := exists_of_bind_ok hr
      cases hr
      rw [hstack] at hoperands
      exact (callsWithin_multisigCalls _ _).mono
        (length_multisigOpcodeCalls_le hpushed hexec.2 hoperands)
    | _ => exact .nil _
  · exact .nil _

/-- The opcodes that push the numbers from 1 to 16. -/
theorem evalOpcode_small (fExec : Bool) (pc : CScript) (h51 : 0x51 ≤ opcode.toNat)
    (h60 : opcode.toNat ≤ 0x60) :
    evalOpcode crypto checker sigversion flags fExec pc (Opcode.ofByte opcode) =
      pushNum (decodeOpN opcode) := by
  have hsmall : ∀ b : Byte, 0x51 ≤ b.toNat → b.toNat ≤ 0x60 →
      b ∈ [0x51#8, 0x52#8, 0x53#8, 0x54#8, 0x55#8, 0x56#8, 0x57#8, 0x58#8, 0x59#8, 0x5a#8, 0x5b#8,
        0x5c#8, 0x5d#8, 0x5e#8, 0x5f#8, 0x60#8] := by decide
  have hmem := hsmall opcode h51 h60
  simp only [List.mem_cons, List.not_mem_nil, or_false] at hmem
  rcases hmem with rfl | rfl | rfl | rfl | rfl | rfl | rfl | rfl | rfl | rfl | rfl | rfl | rfl | rfl
    | rfl | rfl <;> rfl

theorem ends_failIf_any {b : Bool} {serror : ScriptError} {R : Unit → Prop} :
    Ends (fun _ => True) (failIf b serror) R ↔ (b = false → R ()) := by
  cases b <;> simp [failIf]

theorem pushedBy_evalInstruction (vchPushValue : ValType) (pc : CScript) :
    wp (fun _ => True)
      (evalInstruction crypto checker sigversion flags opcode vchPushValue pc)
      (fun _ s' => PushedBy opcode s') s := by
  by_cases hrange : 0x51 ≤ opcode.toNat ∧ opcode.toNat ≤ 0x60
  · simp only [evalInstruction, wp_bind, wp_get, wp_liftM, wp_modify, wp_set, ends_failIf_any]
    intro _ _ _ _
    have hpush : ¬opcode.toNat ≤ OP_PUSHDATA4.toNat := by
      have hvalue : OP_PUSHDATA4.toNat = 0x4e := rfl
      omega
    rw [executeOpcode, if_neg hpush, evalOpcode_small _ pc hrange.1 hrange.2]
    by_cases hexec : s.vfExec.allTrue = true
    · rw [hexec, Bool.true_or, if_pos rfl]
      exact fun _ _ _ _ => ⟨s.stack, rfl⟩
    · have hskip : ¬(s.vfExec.allTrue ||
          (decide (0x63 ≤ opcode.toNat) && decide (opcode.toNat ≤ 0x68))) = true := by
        simp only [Bool.or_eq_true, Bool.and_eq_true, decide_eq_true_eq]
        rintro (htrue | ⟨hif, -⟩)
        · exact hexec htrue
        · omega
      rw [if_neg hskip]
      exact fun _ _ _ htrue => absurd htrue hexec
  · exact wp_of_forall fun _ _ h51 h60 => absurd ⟨h51, h60⟩ hrange

/-- **The loop**: the checks that are still to come are at most what is still counted. -/
theorem callsWithin_loopCalls (fuel : ℕ) (pc : CScript) (hpushed : PushedBy lastOpcode s) :
    CallsWithin sigversion (sigOpsFrom true fuel pc lastOpcode)
      (loopCalls crypto checker sigversion flags fuel pc s) := by
  induction fuel generalizing pc s lastOpcode with
  | zero => cases pc <;> exact .nil _
  | succ fuel ih =>
    cases pc with
    | nil => exact .nil _
    | cons b bs =>
      simp only [loopCalls, sigOpsFrom]
      cases getScriptOp (b :: bs) with
      | none => exact .nil _
      | some r =>
        refine (callsWithin_instructionCalls r.2.1 hpushed).append
          (callsWithin_callsAfter fun after hok => ?_)
        exact ih r.2.2 (wp_ok (pushedBy_evalInstruction r.2.1 r.2.2) hok)

end Counts

/-! ### The two counts -/

variable (fAccurate : Bool)

theorem opcodeSigOps_le (lastOpcode opcode : Byte) :
    opcodeSigOps fAccurate lastOpcode opcode ≤ opcodeSigOps false lastOpcode opcode := by
  unfold opcodeSigOps
  generalize Opcode.ofByte opcode = op
  cases op with
  | OP_CHECKMULTISIG | OP_CHECKMULTISIGVERIFY =>
    simp only [Bool.false_and, Bool.false_eq_true, if_false]
    split_ifs with hlast
    · simp only [Bool.and_eq_true, decide_eq_true_eq] at hlast
      exact (decodeOpN_bounds hlast.1.2 hlast.2).2.trans (by decide)
    · exact le_rfl
  | _ => exact le_rfl

theorem opcodeSigOps_false_le (lastOpcode opcode : Byte) :
    opcodeSigOps false lastOpcode opcode ≤ MAX_PUBKEYS_PER_MULTISIG := by
  unfold opcodeSigOps
  generalize Opcode.ofByte opcode = op
  cases op <;> simp [MAX_PUBKEYS_PER_MULTISIG]

theorem sigOpsFrom_le (fuel : ℕ) (pc : CScript) (lastOpcode : Byte) :
    sigOpsFrom fAccurate fuel pc lastOpcode ≤ sigOpsFrom false fuel pc lastOpcode ∧
      sigOpsFrom false fuel pc lastOpcode ≤ MAX_PUBKEYS_PER_MULTISIG * fuel := by
  induction fuel generalizing pc lastOpcode with
  | zero => cases pc <;> exact ⟨le_rfl, Nat.zero_le _⟩
  | succ fuel ih =>
    cases pc with
    | nil => exact ⟨le_rfl, Nat.zero_le _⟩
    | cons b bs =>
      simp only [sigOpsFrom]
      cases getScriptOp (b :: bs) with
      | none => exact ⟨le_rfl, Nat.zero_le _⟩
      | some r =>
        obtain ⟨opcode, vch, next⟩ := r
        obtain ⟨hle, hbound⟩ := ih next opcode
        refine ⟨Nat.add_le_add (opcodeSigOps_le fAccurate lastOpcode opcode) hle, ?_⟩
        rw [Nat.mul_succ]
        exact (Nat.add_comm _ _).trans_le
          (Nat.add_le_add hbound (opcodeSigOps_false_le lastOpcode opcode))

/-- `EvalScript` makes no more calls than are counted. -/
theorem callsWithin_evalScriptCalls (crypto : ScriptCrypto) (checker : SignatureChecker)
    (sigversion : SigVersion) (flags : ScriptVerifyFlags) (stack : List ValType) (script : CScript)
    (execdata : ScriptExecutionData) :
    CallsWithin sigversion (sigOpsFrom true script.length script 0xff#8)
      (evalScriptCalls crypto checker sigversion flags stack script execdata) :=
  callsWithin_callsAfter fun _ _ =>
    callsWithin_loopCalls _ script fun _ h60 _ => absurd h60 (by decide)

/-- A script that is too large is not evaluated. -/
theorem evalScriptCalls_of_large {crypto : ScriptCrypto} {checker : SignatureChecker}
    {sigversion : SigVersion} {flags : ScriptVerifyFlags} {stack : List ValType} {script : CScript}
    {execdata : ScriptExecutionData} (hpre : preTapscript sigversion = true)
    (hlarge : MAX_SCRIPT_SIZE < script.length) :
    evalScriptCalls crypto checker sigversion flags stack script execdata = [] := by
  have hversion : assertThat (sigversion != .taproot) = .ok () := by
    cases sigversion with
    | base | witnessV0 | tapscript => rfl
    | taproot => cases hpre
  have hfail : failIf (preTapscript sigversion && decide (MAX_SCRIPT_SIZE < script.length))
      .scriptSize = .error (.error .scriptSize) := by
    rw [hpre, decide_eq_true hlarge]
    rfl
  unfold evalScriptCalls
  rw [hversion, hfail]
  rfl

/-- **The counted signature operations cover the checks.**  `EvalScript` makes at most as many
calls of `CheckECDSASignature` as the accurate count says.  The accurate count is at most the other
one, as long as that one does not wrap around. -/
theorem evalScriptCalls_le_getSigOpCount (crypto : ScriptCrypto) (checker : SignatureChecker)
    (sigversion : SigVersion) (flags : ScriptVerifyFlags) (stack : List ValType) (script : CScript)
    (execdata : ScriptExecutionData) (hversion : sigversion = .base ∨ sigversion = .witnessV0) :
    (evalScriptCalls crypto checker sigversion flags stack script execdata).length ≤
        getSigOpCount true script ∧
      (sigOpsFrom false script.length script 0xff#8 < 2 ^ 32 →
        getSigOpCount true script ≤ getSigOpCount false script) := by
  obtain ⟨hle, hbound⟩ := sigOpsFrom_le true script.length script 0xff#8
  refine ⟨?_, fun hfits => ?_⟩
  · by_cases hlarge : MAX_SCRIPT_SIZE < script.length
    · have hpre : preTapscript sigversion = true := by
        obtain rfl | rfl := hversion <;> rfl
      rw [evalScriptCalls_of_large hpre hlarge]
      exact Nat.zero_le _
    · have hlimit : MAX_PUBKEYS_PER_MULTISIG * MAX_SCRIPT_SIZE < 2 ^ 32 := by decide
      have hmul := Nat.mul_le_mul_left MAX_PUBKEYS_PER_MULTISIG (not_lt.mp hlarge)
      have hcount : getSigOpCount true script = sigOpsFrom true script.length script 0xff#8 :=
        Nat.mod_eq_of_lt (by omega)
      rw [hcount]
      exact (callsWithin_evalScriptCalls crypto checker sigversion flags stack script
        execdata).length
  · rw [getSigOpCount, getSigOpCount, Nat.mod_eq_of_lt hfits, Nat.mod_eq_of_lt (by omega)]
    exact hle

/-- A script with two checks of a signature, of which one fails to find its operands. -/
theorem evalScriptCalls_le_getSigOpCount_two :
    (evalScriptCalls zeroCrypto baseChecker .base ∅ [[], []] [0xac#8, 0xac#8] {}).length = 1 ∧
      getSigOpCount true [0xac#8, 0xac#8] ≤ getSigOpCount false [0xac#8, 0xac#8] := by
  obtain ⟨-, hcounts⟩ := evalScriptCalls_le_getSigOpCount zeroCrypto baseChecker .base ∅ [[], []]
    [0xac#8, 0xac#8] {} (Or.inl rfl)
  exact ⟨by decide +kernel, hcounts (by decide +kernel)⟩

/-- Multisignature checks of one key each. -/
def singleKeyChecks (n : ℕ) : CScript := (List.replicate n [0x51#8, 0xae#8]).flatten

theorem sigOpsFrom_singleKeyChecks (n fuel : ℕ) (lastOpcode : Byte) (h : 2 * n ≤ fuel) :
    sigOpsFrom fAccurate fuel (singleKeyChecks n) lastOpcode =
      n * if fAccurate then 1 else MAX_PUBKEYS_PER_MULTISIG := by
  induction n generalizing fuel lastOpcode with
  | zero => cases fuel <;> simp [singleKeyChecks, sigOpsFrom]
  | succ n ih =>
    obtain ⟨fuel, rfl⟩ : ∃ k, fuel = k + 2 := ⟨fuel - 2, by omega⟩
    have hsplit : singleKeyChecks (n + 1) = 0x51#8 :: 0xae#8 :: singleKeyChecks n := by
      simp [singleKeyChecks, List.replicate_succ]
    have hnext := ih fuel 0xae#8 (by omega)
    rw [hsplit]
    change 0 + ((if fAccurate && true && true then 1 else MAX_PUBKEYS_PER_MULTISIG) +
      sigOpsFrom fAccurate fuel (singleKeyChecks n) 0xae#8) = _
    rw [hnext]
    cases fAccurate <;> simp [Nat.succ_mul] <;> omega

theorem getSigOpCount_singleKeyChecks (n : ℕ) :
    getSigOpCount fAccurate (singleKeyChecks n) =
      (n * if fAccurate then 1 else MAX_PUBKEYS_PER_MULTISIG) % 2 ^ 32 := by
  have hlen : (singleKeyChecks n).length = 2 * n := by
    simp [singleKeyChecks, Nat.mul_comm]
  rw [getSigOpCount, sigOpsFrom_singleKeyChecks fAccurate n _ _ hlen.ge]

/-- The inaccurate count of a script of 430 MB wraps around. -/
theorem not_getSigOpCount_le :
    ∃ script : CScript, getSigOpCount false script < getSigOpCount true script := by
  refine ⟨singleKeyChecks 214748365, ?_⟩
  rw [getSigOpCount_singleKeyChecks, getSigOpCount_singleKeyChecks]
  decide

end BitMinti.Analysis
