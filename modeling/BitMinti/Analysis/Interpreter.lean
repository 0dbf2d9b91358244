import BitMinti.Computation.Stricter
import BitMinti.Interface.Interpreter

/-!
# Script flags only restrict

Two evaluations of one script under two sets of flags, one contained in the other, go through the
same states as long as the one with more flags does not fail.
-/

set_option autoImplicit false

namespace BitMinti.Analysis

open Model Interface BitMinti.Computation

/-! ## Checks -/

theorem failIf_stricter {a b : Bool} (serror : ScriptError) (h : b = true → a = true) :
    Stricter (failIf a serror) (failIf b serror) := by
  cases a with
  | true => exact .error _ _
  | false =>
    cases b with
    | true => cases h rfl
    | false => exact .refl _

theorem checkIf_stricter {a b : Bool} {x y : Except ScriptFailure Unit} (h : b = true → a = true)
    (hxy : Stricter x y) : Stricter (checkIf a x) (checkIf b y) := by
  cases b with
  | false => exact fun _ _ => rfl
  | true =>
    rw [h rfl]
    exact hxy

section Flags

variable {f g : ScriptVerifyFlags}

variable {flag : ScriptVerifyFlag}

theorem flag_and (hfg : f ⊆ g) {c : Bool} :
    (decide (flag ∈ f) && c) = true → (decide (flag ∈ g) && c) = true := by
  simp only [Bool.and_eq_true, decide_eq_true_eq]
  exact And.imp_left fun h => hfg h

theorem and_flag (hfg : f ⊆ g) {c : Bool} :
    (c && decide (flag ∈ f)) = true → (c && decide (flag ∈ g)) = true := by
  simp only [Bool.and_eq_true, decide_eq_true_eq]
  exact And.imp_right fun h => hfg h

theorem and_flag_and (hfg : f ⊆ g) {c d : Bool} :
    (c && decide (flag ∈ f) && d) = true → (c && decide (flag ∈ g) && d) = true := by
  simp only [Bool.and_eq_true]
  exact And.imp_left (And.imp_right fun h => decide_eq_true (hfg (of_decide_eq_true h)))

theorem flag_mono (hfg : f ⊆ g) :
    decide (flag ∈ f) = true → decide (flag ∈ g) = true :=
  fun h => decide_eq_true (hfg (of_decide_eq_true h))

theorem ofVch_stricter (hfg : f ⊆ g) (vch : ValType) (nMaxNumSize : ℕ) :
    Stricter (CScriptNum.ofVch vch (requireMinimal g) nMaxNumSize)
      (CScriptNum.ofVch vch (requireMinimal f) nMaxNumSize) := by
  intro n hn
  unfold CScriptNum.ofVch at hn ⊢
  by_cases hsize : nMaxNumSize < vch.length
  · rw [if_pos hsize] at hn
    cases hn
  · rw [if_neg hsize] at hn ⊢
    by_cases hmin : (requireMinimal g && CScriptNum.isPadded vch) = true
    · rw [if_pos hmin] at hn
      cases hn
    · have hmin' : ¬ (requireMinimal f && CScriptNum.isPadded vch) = true :=
        fun h => hmin (flag_and hfg h)
      rw [if_neg hmin] at hn
      rw [if_neg hmin']
      exact hn

/-! ## Signatures -/

variable {crypto : ScriptCrypto} {checker : SignatureChecker} {sigversion : SigVersion}

section

variable (hfg : f ⊆ g)

include hfg

theorem checkSignatureEncoding_stricter (vchSig : ValType) :
    Stricter (checkSignatureEncoding crypto g vchSig) (checkSignatureEncoding crypto f vchSig) := by
  unfold checkSignatureEncoding
  refine .ite (.refl _) (.bind (failIf_stricter _ ?_) fun _ =>
    .bind (checkIf_stricter (flag_mono hfg) (.refl _)) fun _ => failIf_stricter _ (flag_and hfg))
  simp only [Bool.and_eq_true, Bool.or_eq_true]
  exact And.imp_left (Or.imp (Or.imp (flag_mono hfg) (flag_mono hfg)) (flag_mono hfg))

theorem checkPubKeyEncoding_stricter (vchPubKey : ValType) :
    Stricter (checkPubKeyEncoding g vchPubKey sigversion)
      (checkPubKeyEncoding f vchPubKey sigversion) := by
  unfold checkPubKeyEncoding
  refine .bind (failIf_stricter _ (flag_and hfg)) fun _ => failIf_stricter _ ?_
  rw [Bool.and_assoc, Bool.and_assoc]
  exact flag_and hfg

theorem evalChecksigPreTapscript_stricter (vchSig vchPubKey : ValType) (scriptCode : CScript) :
    Stricter (evalChecksigPreTapscript crypto checker sigversion g vchSig vchPubKey scriptCode)
      (evalChecksigPreTapscript crypto checker sigversion f vchSig vchPubKey scriptCode) := by
  unfold evalChecksigPreTapscript
  exact .bind (failIf_stricter _ (and_flag hfg)) fun _ =>
    .bind (checkSignatureEncoding_stricter hfg vchSig) fun _ =>
    .bind (checkPubKeyEncoding_stricter hfg vchPubKey) fun _ =>
    .bind (failIf_stricter _ (and_flag_and hfg)) fun _ => .refl _

theorem evalChecksigTapscript_stricter (sig pubkey : ValType) (execdata : ScriptExecutionData) :
    Stricter (evalChecksigTapscript checker sigversion g sig pubkey execdata)
      (evalChecksigTapscript checker sigversion f sig pubkey execdata) := by
  unfold evalChecksigTapscript
  exact .bind (.refl _) fun _ => .bind (.refl _) fun _ => .ite (.refl _)
    (.ite (.refl _) (.bind (failIf_stricter _ (flag_mono hfg)) fun _ => .refl _))

theorem evalChecksig_stricter (sig pubkey : ValType) (scriptCode : CScript)
    (execdata : ScriptExecutionData) :
    Stricter (evalChecksig crypto checker sigversion g sig pubkey scriptCode execdata)
      (evalChecksig crypto checker sigversion f sig pubkey scriptCode execdata) := by
  cases sigversion with
  | base | witnessV0 =>
    exact .bind (evalChecksigPreTapscript_stricter hfg sig pubkey scriptCode) fun _ => .refl _
  | taproot => exact .refl _
  | tapscript => exact evalChecksigTapscript_stricter hfg sig pubkey execdata

theorem dropSignatures_stricter (scriptCode : CScript) (sigs : List ValType) :
    Stricter (dropSignatures sigversion g scriptCode sigs)
      (dropSignatures sigversion f scriptCode sigs) := by
  induction sigs generalizing scriptCode with
  | nil => exact .refl _
  | cons vchSig sigs ih =>
    unfold dropSignatures
    exact .bind (failIf_stricter _ (and_flag hfg)) fun _ => ih _

theorem checkMultisig_stricter (scriptCode : CScript) (sigs keys : List ValType) :
    Stricter (checkMultisig crypto checker sigversion g scriptCode sigs keys)
      (checkMultisig crypto checker sigversion f scriptCode sigs keys) := by
  induction keys generalizing sigs with
  | nil => cases sigs <;> exact .refl _
  | cons vchPubKey keys ih =>
    cases sigs with
    | nil => exact .refl _
    | cons vchSig sigs =>
      unfold checkMultisig
      exact .bind (checkSignatureEncoding_stricter hfg vchSig) fun _ =>
        .bind (checkPubKeyEncoding_stricter hfg vchPubKey) fun _ =>
        .ite (.refl _) (ih _)

end

/-! ## Operations -/

theorem stackTry_stricter {x y : List ValType → Except ScriptFailure (List ValType)}
    (h : ∀ stack, Stricter (x stack) (y stack)) : StricterM (stackTry x) (stackTry y) :=
  .bind (.refl _) fun s => .bind (.lift (h s.stack)) fun _ => .refl _

theorem unaryNum_stricter (hfg : f ⊆ g) (op : ℤ → Except ScriptFailure ℤ) :
    StricterM (unaryNum g op) (unaryNum f op) := by
  refine stackTry_stricter fun stack => ?_
  cases stack with
  | nil => exact .refl _
  | cons top stack => exact .bind (ofVch_stricter hfg top 4) fun _ => .refl _

theorem binaryNum_stricter (hfg : f ⊆ g) (op : ℤ → ℤ → ℤ) :
    StricterM (binaryNum g op) (binaryNum f op) := by
  refine stackTry_stricter fun stack => ?_
  match stack with
  | [] | [_] => exact .refl _
  | top :: second :: _ =>
    exact .bind (ofVch_stricter hfg second 4) fun _ =>
      .bind (ofVch_stricter hfg top 4) fun _ => .refl _

theorem within_stricter (hfg : f ⊆ g) : StricterM (within g) (within f) := by
  refine stackTry_stricter fun stack => ?_
  match stack with
  | [] | [_] | [_, _] => exact .refl _
  | top :: second :: third :: _ =>
    exact .bind (ofVch_stricter hfg third 4) fun _ =>
      .bind (ofVch_stricter hfg second 4) fun _ =>
      .bind (ofVch_stricter hfg top 4) fun _ => .refl _

theorem pick_stricter (hfg : f ⊆ g) (roll : Bool) : StricterM (pick g roll) (pick f roll) := by
  refine stackTry_stricter fun stack => ?_
  match stack with
  | [] | [_] => exact .refl _
  | top :: _ :: _ => exact .bind (ofVch_stricter hfg top 4) fun _ => .refl _

variable {x : List ValType → Except ScriptFailure (List ValType)}

theorem stackTry_ok {s : EvalState} {stack : List ValType} (h : x s.stack = .ok stack) :
    stackTry x s = .ok ((), { s with stack }) := by
  change ((liftM (x s.stack) : EvalM (List ValType)) >>= fun stack => set { s with stack }) s = _
  rw [h]
  rfl

theorem stackTry_error {s : EvalState}
    {e : ScriptFailure} (h : x s.stack = .error e) : stackTry x s = .error e := by
  change ((liftM (x s.stack) : EvalM (List ValType)) >>= fun stack => set { s with stack }) s = _
  rw [h]
  rfl

theorem stackTry_stricter_pure (h : ∀ stack stack', x stack = .ok stack' → stack' = stack) :
    StricterM (stackTry x) (pure ()) := by
  intro s r hr
  cases hx : x s.stack with
  | error e =>
    rw [stackTry_error hx] at hr
    cases hr
  | ok stack =>
    rw [stackTry_ok hx, h _ _ hx] at hr
    exact hr

theorem ok_of_failIf_bind {α : Type} {b : Bool} {serror : ScriptError}
    {k : Unit → Except ScriptFailure α} {a : α} (h : (failIf b serror >>= k) = .ok a) :
    b = false ∧ k () = .ok a := by
  cases b with
  | true => cases h
  | false => exact ⟨rfl, h⟩

theorem flagOp_stricter (hfg : f ⊆ g) {x y : List ValType → Except ScriptFailure (List ValType)}
    (h : ∀ stack, Stricter (x stack) (y stack))
    (hx : ∀ stack stack', x stack = .ok stack' → stack' = stack) :
    StricterM (if flag ∉ g then pure () else stackTry x)
      (if flag ∉ f then pure () else stackTry y) := by
  by_cases hg : flag ∉ g
  · rw [if_pos hg, if_pos fun hf => hg (hfg hf)]
    exact .refl _
  · rw [if_neg hg]
    by_cases hf : flag ∉ f
    · rw [if_pos hf]
      exact stackTry_stricter_pure hx
    · rw [if_neg hf]
      exact stackTry_stricter h

/-- What both checks of lock times do with the stack. -/
def lockTimeOp (flags : ScriptVerifyFlags) (unsatisfied : ℤ → Bool) :
    List ValType → Except ScriptFailure (List ValType)
  | top :: stack => do
      let n ← CScriptNum.ofVch top (requireMinimal flags) 5
      failIf (n < 0) .negativeLocktime
      failIf (unsatisfied n) .unsatisfiedLocktime
      pure (top :: stack)
  | _ => .error (.error .invalidStackOperation)

section

variable (hfg : f ⊆ g)

include hfg

theorem lockTimeOp_stricter (unsatisfied : ℤ → Bool) (flag : ScriptVerifyFlag) :
    StricterM (if flag ∉ g then pure () else stackTry (lockTimeOp g unsatisfied))
      (if flag ∉ f then pure () else stackTry (lockTimeOp f unsatisfied)) := by
  refine flagOp_stricter hfg (fun stack => ?_) fun stack stack' hok => ?_
  · cases stack with
    | nil => exact .refl _
    | cons top stack => exact .bind (ofVch_stricter hfg top 5) fun _ => .refl _
  · cases stack with
    | nil => cases hok
    | cons top stack =>
      cases hnum : CScriptNum.ofVch top (requireMinimal g) 5 with
      | error e =>
        simp only [lockTimeOp, hnum] at hok
        cases hok
      | ok n =>
        simp only [lockTimeOp, hnum] at hok
        have hnext := (ok_of_failIf_bind (ok_of_failIf_bind hok).2).2
        exact (Except.ok.inj hnext).symm

theorem checkLockTimeVerify_stricter :
    StricterM (checkLockTimeVerify checker g) (checkLockTimeVerify checker f) :=
  lockTimeOp_stricter hfg (fun n => !checker.checkLockTime n) .CHECKLOCKTIMEVERIFY

theorem checkSequenceVerify_stricter :
    StricterM (checkSequenceVerify checker g) (checkSequenceVerify checker f) :=
  lockTimeOp_stricter hfg (fun n => !n.toNat.testBit 31 && !checker.checkSequence n)
    .CHECKSEQUENCEVERIFY

theorem evalIf_stricter (fExec notIf : Bool) :
    StricterM (evalIf sigversion g fExec notIf) (evalIf sigversion f fExec notIf) := by
  unfold evalIf
  refine .bind (.refl _) fun s => .ite ?_ (.refl _)
  cases s.stack with
  | nil => exact .refl _
  | cons vch stack =>
    exact .bind (.refl _) fun _ =>
      .bind (.lift (failIf_stricter _ (and_flag_and hfg))) fun _ => .refl _

theorem checkSig_stricter :
    StricterM (checkSig crypto checker sigversion g) (checkSig crypto checker sigversion f) := by
  unfold checkSig
  refine .bind (.refl _) fun s => ?_
  match s.stack with
  | [] | [_] => exact .refl _
  | vchPubKey :: vchSig :: stack =>
    exact .bind (.lift (evalChecksig_stricter hfg vchSig vchPubKey s.pbegincodehash s.execdata))
      fun _ => .refl _

theorem checkSigAdd_stricter :
    StricterM (checkSigAdd crypto checker sigversion g)
      (checkSigAdd crypto checker sigversion f) := by
  unfold checkSigAdd
  refine .bind (.refl _) fun _ => .bind (.refl _) fun s => ?_
  match s.stack with
  | [] | [_] | [_, _] => exact .refl _
  | pubkey :: top :: sig :: stack =>
    exact .bind (.lift (ofVch_stricter hfg top 4)) fun _ =>
      .bind (.lift (evalChecksig_stricter hfg sig pubkey s.pbegincodehash s.execdata))
        fun _ => .refl _

theorem multisigOperands_stricter (nOpCount : ℕ) (stack : List ValType) :
    Stricter (multisigOperands g nOpCount stack) (multisigOperands f nOpCount stack) := by
  cases stack with
  | nil => exact .refl _
  | cons top stack =>
    refine .bind (ofVch_stricter hfg top 4) fun nKeys => .bind (.refl _) fun _ =>
      .bind (.refl _) fun _ => ?_
    cases stack.drop (CScriptNum.getint nKeys).toNat with
    | nil => exact .refl _
    | cons top rest => exact .bind (ofVch_stricter hfg top 4) fun _ => .refl _

theorem checkMultisigOp_stricter :
    StricterM (checkMultisigOp crypto checker sigversion g)
      (checkMultisigOp crypto checker sigversion f) := by
  unfold checkMultisigOp
  refine .bind (.refl _) fun _ => .bind (.refl _) fun s =>
    .bind (.lift (multisigOperands_stricter hfg s.nOpCount s.stack)) fun r =>
    .bind (.lift (dropSignatures_stricter hfg s.pbegincodehash r.1.sigs)) fun code =>
    .bind (.lift (checkMultisig_stricter hfg code r.1.sigs r.1.keys)) fun fSuccess =>
    .bind (.lift (failIf_stricter _ (and_flag_and hfg))) fun _ =>
    .bind (.lift (failIf_stricter _ (flag_and hfg))) fun _ => .refl _

/-! ## The switch and the loop -/

theorem evalNumOp_stricter (op : Opcode) :
    StricterM (evalNumOp g op) (evalNumOp f op) := by
  cases op with
  | OP_1ADD | OP_1SUB | OP_NEGATE | OP_ABS | OP_NOT | OP_0NOTEQUAL =>
    exact unaryNum_stricter hfg _
  | OP_ADD | OP_SUB | OP_BOOLAND | OP_BOOLOR | OP_NUMEQUAL | OP_NUMNOTEQUAL | OP_LESSTHAN
  | OP_GREATERTHAN | OP_LESSTHANOREQUAL | OP_GREATERTHANOREQUAL | OP_MIN | OP_MAX =>
    exact binaryNum_stricter hfg _
  | OP_NUMEQUALVERIFY => exact .bind (binaryNum_stricter hfg _) fun _ => .refl _
  | OP_WITHIN => exact within_stricter hfg
  | _ => exact .refl _

theorem evalOpcode_stricter (fExec : Bool) (pc : CScript) (op : Opcode) :
    StricterM (evalOpcode crypto checker sigversion g fExec pc op)
      (evalOpcode crypto checker sigversion f fExec pc op) := by
  have hnum := evalNumOp_stricter hfg op
  cases op with
  | OP_CHECKLOCKTIMEVERIFY => exact checkLockTimeVerify_stricter hfg
  | OP_CHECKSEQUENCEVERIFY => exact checkSequenceVerify_stricter hfg
  | OP_NOP1 | OP_NOP4 | OP_NOP5 | OP_NOP6 | OP_NOP7 | OP_NOP8 | OP_NOP9 | OP_NOP10 =>
    exact .lift (failIf_stricter _ (flag_mono hfg))
  | OP_IF | OP_NOTIF => exact evalIf_stricter hfg fExec _
  | OP_PICK | OP_ROLL => exact pick_stricter hfg _
  | OP_CHECKSIG => exact checkSig_stricter hfg
  | OP_CHECKSIGVERIFY => exact .bind (checkSig_stricter hfg) fun _ => .refl _
  | OP_CHECKSIGADD => exact checkSigAdd_stricter hfg
  | OP_CHECKMULTISIG => exact checkMultisigOp_stricter hfg
  | OP_CHECKMULTISIGVERIFY => exact .bind (checkMultisigOp_stricter hfg) fun _ => .refl _
  | _ => first | exact hnum | exact .refl _

theorem executeOpcode_stricter (fExec : Bool) (opcode : Byte) (vchPushValue : ValType)
    (pc : CScript) :
    StricterM (executeOpcode crypto checker sigversion g fExec opcode vchPushValue pc)
      (executeOpcode crypto checker sigversion f fExec opcode vchPushValue pc) := by
  unfold executeOpcode
  exact .ite (.ite (.bind (.lift (failIf_stricter _ (flag_and hfg))) fun _ => .refl _) (.refl _))
    (.ite (evalOpcode_stricter hfg fExec pc _) (.refl _))

theorem evalInstruction_stricter (opcode : Byte) (vchPushValue : ValType) (pc : CScript) :
    StricterM (evalInstruction crypto checker sigversion g opcode vchPushValue pc)
      (evalInstruction crypto checker sigversion f opcode vchPushValue pc) := by
  unfold evalInstruction
  exact .bind (.refl _) fun s => .bind (.refl _) fun _ => .bind (.refl _) fun _ =>
    .bind (.refl _) fun _ => .bind (.refl _) fun _ =>
    .bind (.lift (failIf_stricter _ (and_flag hfg))) fun _ =>
    .bind (executeOpcode_stricter hfg s.vfExec.allTrue opcode vchPushValue pc) fun _ => .refl _

/-- **The loop**, by induction on the opcodes that are left. -/
theorem evalLoop_stricter (fuel : ℕ) (pc : CScript) :
    StricterM (evalLoop crypto checker sigversion g fuel pc)
      (evalLoop crypto checker sigversion f fuel pc) := by
  induction fuel generalizing pc with
  | zero => cases pc <;> exact .refl _
  | succ fuel ih =>
    cases pc with
    | nil => exact .refl _
    | cons b bs =>
      unfold evalLoop
      cases getScriptOp (b :: bs) with
      | none => exact .refl _
      | some r =>
        exact .bind (evalInstruction_stricter hfg r.1 r.2.1 r.2.2) fun _ => ih _

variable (stack : List ValType)

/-- **A script that evaluates under more flags evaluates to the same stack under fewer.** -/
theorem evalScript_stricter (script : CScript) (execdata : ScriptExecutionData) :
    Stricter (evalScript crypto checker sigversion g stack script execdata)
      (evalScript crypto checker sigversion f stack script execdata) := by
  unfold evalScript
  exact .bind (.refl _) fun _ => .bind (.refl _) fun _ =>
    .bind (evalLoop_stricter hfg script.length script _) fun _ => .refl _

/-! ## Witness programs -/

theorem executeWitnessStack_stricter (exec_script : CScript) (execdata : ScriptExecutionData) :
    Stricter (executeWitnessStack crypto checker g stack exec_script sigversion execdata)
      (executeWitnessStack crypto checker f stack exec_script sigversion execdata) := by
  unfold executeWitnessStack
  exact .bind (.refl _) fun _ =>
    .bind (evalScript_stricter hfg stack exec_script execdata) fun _ => .refl _

theorem executeWitnessScript_stricter (exec_script : CScript) (execdata : ScriptExecutionData) :
    Stricter (executeWitnessScript crypto checker g stack exec_script sigversion execdata)
      (executeWitnessScript crypto checker f stack exec_script sigversion execdata) := by
  unfold executeWitnessScript
  refine .ite ?_ (executeWitnessStack_stricter hfg stack exec_script execdata)
  cases scanOpSuccess exec_script.length exec_script with
  | bad => exact .refl _
  | found => exact failIf_stricter _ (flag_mono hfg)
  | clean =>
    exact .bind (.refl _) fun _ =>
      executeWitnessStack_stricter hfg stack exec_script execdata

theorem verifyTaprootScriptPath_stricter (control script : ValType)
    (stack witness : List ValType) (program : List Byte) (execdata : ScriptExecutionData) :
    Stricter
      (verifyTaprootScriptPath crypto checker g control script stack witness program execdata)
      (verifyTaprootScriptPath crypto checker f control script stack witness program execdata) := by
  unfold verifyTaprootScriptPath
  exact .bind (.refl _) fun _ => .bind (.refl _) fun _ =>
    .ite (executeWitnessScript_stricter hfg stack script _)
      (failIf_stricter _ (flag_mono hfg))

theorem verifyTaproot_stricter (witness : List ValType) (program : List Byte) :
    Stricter (verifyTaproot crypto checker g witness program)
      (verifyTaproot crypto checker f witness program) := by
  unfold verifyTaproot
  refine .bind (.refl _) fun _ => ?_
  dsimp only
  split
  · exact .refl _
  · exact .refl _
  · exact verifyTaprootScriptPath_stricter hfg _ _ _ witness program _

theorem verifyWitnessProgram_stricter (witness : List ValType) (witversion : ℕ)
    (program : List Byte) (is_p2sh : Bool) :
    Stricter (verifyWitnessProgram crypto checker g witness witversion program is_p2sh)
      (verifyWitnessProgram crypto checker f witness witversion program is_p2sh) := by
  unfold verifyWitnessProgram
  refine .ite (.ite ?_ (.ite ?_ (.refl _))) (.ite ?_ (.ite (.refl _) (failIf_stricter _
    (flag_mono hfg))))
  · cases witness.reverse with
    | nil => exact .refl _
    | cons exec_script stack =>
      exact .bind (.refl _) fun _ =>
        executeWitnessScript_stricter hfg stack exec_script {}
  · exact .bind (.refl _) fun _ => executeWitnessScript_stricter hfg _ _ {}
  · by_cases hf : .TAPROOT ∉ f
    · rw [if_pos hf]
      exact fun _ _ => rfl
    · rw [if_neg hf, if_neg fun hg => hg (hfg (not_not.mp hf))]
      exact verifyTaproot_stricter hfg witness program

/-! ## Spends -/

theorem evalSpendScript_stricter (script : CScript) :
    Stricter (evalSpendScript crypto checker g stack script)
      (evalSpendScript crypto checker f stack script) :=
  .bind (evalScript_stricter hfg stack script {}) fun _ => .refl _

end

theorem verifyScriptWitness_of_not_mem (hf : .WITNESS ∉ f) (witness : List ValType)
    (script : CScript) (malleated : Bool) (serror : ScriptError) (is_p2sh : Bool)
    (stack : List ValType) :
    verifyScriptWitness crypto checker f witness script malleated serror is_p2sh stack =
      .ok (false, stack) :=
  if_neg hf

theorem verifyScriptWitness_stricter (hfg : f ⊆ g) (hf : .WITNESS ∈ f) (witness : List ValType)
    (script : CScript) (malleated : Bool) (serror : ScriptError) (is_p2sh : Bool)
    (stack : List ValType) :
    Stricter (verifyScriptWitness crypto checker g witness script malleated serror is_p2sh stack)
      (verifyScriptWitness crypto checker f witness script malleated serror is_p2sh stack) := by
  unfold verifyScriptWitness
  rw [if_pos hf, if_pos (hfg hf)]
  cases isWitnessProgram script with
  | none => exact .refl _
  | some program =>
    exact .bind (.refl _) fun _ => .bind (verifyWitnessProgram_stricter hfg
      witness program.1 program.2 is_p2sh) fun _ => .refl _

theorem verifyScriptHash_stricter (hfg : f ⊆ g) (hf : .WITNESS ∈ f) (scriptSig : CScript)
    (witness stackCopy : List ValType) :
    Stricter (verifyScriptHash crypto checker g scriptSig witness stackCopy)
      (verifyScriptHash crypto checker f scriptSig witness stackCopy) := by
  unfold verifyScriptHash
  exact .bind (.refl _) fun _ => .bind (.refl _) fun _ =>
    .bind (evalSpendScript_stricter hfg _ _) fun stack => .bind (.refl _) fun _ =>
    verifyScriptWitness_stricter hfg hf witness _ _ _ true stack

theorem verifyScriptHash_of_not_mem (hfg : f ⊆ g) (hf : .WITNESS ∉ f) {scriptSig : CScript}
    {witness stackCopy : List ValType} {r : Bool × List ValType}
    (h : verifyScriptHash crypto checker g scriptSig witness stackCopy = .ok r) :
    ∃ r', verifyScriptHash crypto checker f scriptSig witness stackCopy = .ok r' := by
  unfold verifyScriptHash at h ⊢
  obtain ⟨_, hpush, h⟩ := exists_of_bind_ok h
  obtain ⟨_, hassert, h⟩ := exists_of_bind_ok h
  obtain ⟨stack, heval, h⟩ := exists_of_bind_ok h
  obtain ⟨_, htop, -⟩ := exists_of_bind_ok h
  refine ⟨(false, stack), ?_⟩
  dsimp only
  rw [hpush, hassert, evalSpendScript_stricter hfg _ _ _ heval]
  change (checkTop stack >>= fun _ => verifyScriptWitness crypto checker f witness _ _ _ _ stack) = _
  rw [htop]
  exact verifyScriptWitness_of_not_mem hf witness _ _ _ _ stack

theorem checkSpend_of_not_mem (hf : FlagsAllowed f) (hw : .WITNESS ∉ f) (witness : List ValType)
    (hadWitness : Bool) (stack : List ValType) :
    checkSpend f witness hadWitness stack = .ok () := by
  have hclean : .CLEANSTACK ∉ f := fun h => hw (hf.cleanStack h).2
  unfold checkSpend
  rw [decide_eq_false hclean, decide_eq_false hw]
  rfl

theorem checkSpend_stricter (hf : FlagsAllowed f) (hfg : f ⊆ g) (witness : List ValType)
    (hadWitness : Bool) (stack : List ValType) :
    Stricter (checkSpend g witness hadWitness stack) (checkSpend f witness hadWitness stack) := by
  by_cases hw : .WITNESS ∈ f
  · have hp : .P2SH ∈ f := hf.witness hw
    unfold checkSpend
    rw [decide_eq_true hw, decide_eq_true hp, decide_eq_true (hfg hw), decide_eq_true (hfg hp)]
    exact .bind (checkIf_stricter (flag_mono hfg) (.refl _)) fun _ => .refl _
  · intro u _
    rw [checkSpend_of_not_mem hf hw]

/-- **One spend under two sets of flags.** -/
theorem verifyScript_stricter (hf : FlagsAllowed f) (hfg : f ⊆ g) (scriptSig scriptPubKey : CScript)
    (witness : List ValType) :
    Stricter (verifyScript crypto checker g scriptSig scriptPubKey witness)
      (verifyScript crypto checker f scriptSig scriptPubKey witness) := by
  unfold verifyScript
  refine .bind (failIf_stricter _ (flag_and hfg)) fun _ =>
    .bind (evalSpendScript_stricter hfg _ _) fun stackCopy =>
    .bind (evalSpendScript_stricter hfg _ _) fun stack => .bind (.refl _) fun _ => ?_
  intro u hu
  obtain ⟨r, hr, hu⟩ := exists_of_bind_ok hu
  by_cases hw : .WITNESS ∈ f
  · -- both runs look at the witness and at script hashes
    have hp : .P2SH ∈ f := hf.witness hw
    rw [verifyScriptWitness_stricter hfg hw witness _ _ _ _ stack r hr]
    simp only [hp, hfg hp, true_and] at hu ⊢
    have hlast : Stricter (if isPayToScriptHash scriptPubKey = true then do
          let r' ← verifyScriptHash crypto checker g scriptSig witness stackCopy
          checkSpend g witness (r.1 || r'.1) r'.2
        else checkSpend g witness r.1 r.2)
        (if isPayToScriptHash scriptPubKey = true then do
          let r' ← verifyScriptHash crypto checker f scriptSig witness stackCopy
          checkSpend f witness (r.1 || r'.1) r'.2
        else checkSpend f witness r.1 r.2) :=
      .ite (.bind (verifyScriptHash_stricter hfg hw scriptSig witness stackCopy)
        fun r' => checkSpend_stricter hf hfg witness _ r'.2)
        (checkSpend_stricter hf hfg witness r.1 r.2)
    exact hlast u hu
  · -- the run with fewer flags does not look at the witness
    rw [verifyScriptWitness_of_not_mem hw]
    by_cases hsh : .P2SH ∈ f ∧ isPayToScriptHash scriptPubKey = true
    · have hu' : (do
          let r' ← verifyScriptHash crypto checker g scriptSig witness stackCopy
          checkSpend g witness (r.1 || r'.1) r'.2) = Except.ok u :=
        (if_pos ⟨hfg hsh.1, hsh.2⟩).symm.trans hu
      obtain ⟨r', hr', -⟩ := exists_of_bind_ok hu'
      obtain ⟨r'', hr''⟩ := verifyScriptHash_of_not_mem hfg hw hr'
      refine (if_pos hsh).trans ?_
      rw [hr'']
      exact checkSpend_of_not_mem hf hw witness _ r''.2
    · exact (if_neg hsh).trans (checkSpend_of_not_mem hf hw witness false stack)

end Flags

/-- **Script flags only restrict.**  For every spend, every signature checker and two sets of flags
that meet the requirements of the code, one contained in the other: a spend that `VerifyScript`
accepts under the larger set is accepted under the smaller one.  So a spend that is accepted under
the standard flags is accepted under every allowed set of consensus flags. -/
theorem acceptedSpends_antitone (crypto : ScriptCrypto) (checker : SignatureChecker) :
    (∀ f g : ScriptVerifyFlags, FlagsAllowed f → FlagsAllowed g → f ⊆ g →
      acceptedSpends crypto checker g ⊆ acceptedSpends crypto checker f) ∧
    FlagsAllowed STANDARD_SCRIPT_VERIFY_FLAGS ∧
    ∀ f : ScriptVerifyFlags, FlagsAllowed f → f ⊆ MANDATORY_SCRIPT_VERIFY_FLAGS →
      acceptedSpends crypto checker STANDARD_SCRIPT_VERIFY_FLAGS ⊆
        acceptedSpends crypto checker f := by
  refine ⟨fun f g hf _ hfg spend hspend => ?_, ⟨by decide, by decide⟩, fun f hf hmandatory => ?_⟩
  · exact verifyScript_stricter hf hfg _ _ _ () hspend
  · have hstandard : f ⊆ STANDARD_SCRIPT_VERIFY_FLAGS :=
      hmandatory.trans (Finset.subset_union_left)
    intro spend hspend
    exact verifyScript_stricter hf hstandard _ _ _ () hspend

/-- Hash functions that hash everything to zeros. -/
def zeroCrypto : ScriptCrypto where
  ripemd160 := fun _ => List.Vector.replicate 20 0#8
  sha1 := fun _ => List.Vector.replicate 20 0#8
  sha256 := fun _ => List.Vector.replicate 32 0#8
  checkLowS := fun _ => true
  checkTapTweak := fun _ _ _ _ => true

/-- `BaseSignatureChecker`: it refuses everything. -/
def baseChecker : SignatureChecker where
  checkECDSASignature := fun _ _ _ _ => false
  checkSchnorrSignature := fun _ _ _ _ => .error .unknownError
  checkLockTime := fun _ => false
  checkSequence := fun _ => false

/-- A script that pushes two numbers, and one that adds them and compares the sum. -/
def sumSpend : Spend where
  scriptSig := pushInt64 2 ++ pushInt64 3
  scriptPubKey := [Opcode.toByte .OP_ADD] ++ pushInt64 5 ++ [Opcode.toByte .OP_NUMEQUAL]
  witness := []

theorem acceptedSpends_antitone_sum :
    sumSpend ∈ acceptedSpends zeroCrypto baseChecker STANDARD_SCRIPT_VERIFY_FLAGS ∧
      sumSpend ∈ acceptedSpends zeroCrypto baseChecker ∅ := by
  have hstandard :
      sumSpend ∈ acceptedSpends zeroCrypto baseChecker STANDARD_SCRIPT_VERIFY_FLAGS := by
    change verifyScript _ _ _ _ _ _ = .ok ()
    decide +kernel
  obtain ⟨hantitone, hallowed, -⟩ := acceptedSpends_antitone zeroCrypto baseChecker
  refine ⟨hstandard, hantitone ∅ STANDARD_SCRIPT_VERIFY_FLAGS ⟨?_, ?_⟩ hallowed ?_ hstandard⟩
  · decide
  · decide
  · exact Finset.empty_subset _

end BitMinti.Analysis
