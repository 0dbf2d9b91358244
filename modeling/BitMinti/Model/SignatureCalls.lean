import BitMinti.Model.Interpreter

/-!
# The signature checks of a script

The calls of `CheckECDSASignature` that `EvalScript` makes, in their order and with their arguments,
and the number of signature operations that is counted for a script before it runs.

SOURCE: src/src/script/interpreter.cpp:322-345, 407-1235, src/src/script/script.cpp:159-179
-/

set_option autoImplicit false

namespace BitMinti.Model

/-! ## Calls -/

/-- A call of `CheckECDSASignature`. -/
structure EcdsaCall where
  vchSig : ValType
  vchPubKey : ValType
  scriptCode : CScript
  sigversion : SigVersion
  deriving DecidableEq, Repr

/-- The calls after a check: none if it fails. -/
def callsAfter {α : Type} (check : Except ScriptFailure α) (calls : α → List EcdsaCall) :
    List EcdsaCall :=
  match check with
  | .ok a => calls a
  | .error _ => []

section Calls

variable (crypto : ScriptCrypto) (checker : SignatureChecker) (sigversion : SigVersion)
  (flags : ScriptVerifyFlags)

/-- The calls of `EvalChecksigPreTapscript`. -/
def checksigCalls (vchSig vchPubKey : ValType) (scriptCode : CScript) : List EcdsaCall :=
  let (scriptCode, found) :=
    if sigversion = .base then findAndDelete scriptCode (pushData vchSig) else (scriptCode, 0)
  callsAfter (do
    failIf (decide (0 < found) && .CONST_SCRIPTCODE ∈ flags) .sigFindAndDelete
    checkSignatureEncoding crypto flags vchSig
    checkPubKeyEncoding flags vchPubKey sigversion) fun _ =>
      [⟨vchSig, vchPubKey, scriptCode, sigversion⟩]

/-- The calls of the loop of `OP_CHECKMULTISIG`. -/
def multisigCalls (scriptCode : CScript) : List ValType → List ValType → List EcdsaCall
  | [], _ => []
  | _ :: _, [] => []
  | vchSig :: sigs, vchPubKey :: keys =>
    callsAfter (do
      checkSignatureEncoding crypto flags vchSig
      checkPubKeyEncoding flags vchPubKey sigversion) fun _ =>
        let fOk := checker.checkECDSASignature vchSig vchPubKey scriptCode sigversion
        let sigs := if fOk then sigs else vchSig :: sigs
        ⟨vchSig, vchPubKey, scriptCode, sigversion⟩ ::
          if keys.length < sigs.length then [] else multisigCalls scriptCode sigs keys

/-- The calls of an opcode that is executed. -/
def opcodeCalls (s : EvalState) : Opcode → List EcdsaCall
  | .OP_CHECKSIG | .OP_CHECKSIGVERIFY =>
    match s.stack with
    | vchPubKey :: vchSig :: _ =>
      if preTapscript sigversion then
        checksigCalls crypto sigversion flags vchSig vchPubKey s.pbegincodehash
      else []
    | _ => []
  | .OP_CHECKMULTISIG | .OP_CHECKMULTISIGVERIFY =>
    callsAfter (do
      failIf (sigversion == .tapscript) .tapscriptCheckMultisig
      let (operands, _) ← multisigOperands flags s.nOpCount s.stack
      let scriptCode ← dropSignatures sigversion flags s.pbegincodehash operands.sigs
      pure (operands, scriptCode)) fun (operands, scriptCode) =>
        multisigCalls crypto checker sigversion flags scriptCode operands.sigs operands.keys
  | _ => []

/-- What a round of the loop does before the opcode is executed. -/
def beginInstruction (opcode : Byte) (vchPushValue : ValType) (s : EvalState) :
    Except ScriptFailure EvalState := do
  failIf (decide (MAX_SCRIPT_ELEMENT_SIZE < vchPushValue.length)) .pushSize
  let counts := preTapscript sigversion && decide (0x60 < opcode.toNat)
  failIf (counts && decide (MAX_OPS_PER_SCRIPT < s.nOpCount + 1)) .opCount
  let isPush := decide (opcode.toNat ≤ OP_PUSHDATA4.toNat)
  failIf (!isPush && isDisabled (Opcode.ofByte opcode)) .disabledOpcode
  failIf (!isPush && Opcode.ofByte opcode == .OP_CODESEPARATOR && sigversion == .base &&
    .CONST_SCRIPTCODE ∈ flags) .opCodeSeparator
  pure { s with nOpCount := s.nOpCount + if counts then 1 else 0 }

/-- The calls of a round of the loop. -/
def instructionCalls (opcode : Byte) (vchPushValue : ValType) (s : EvalState) : List EcdsaCall :=
  callsAfter (beginInstruction sigversion flags opcode vchPushValue s) fun s' =>
    if OP_PUSHDATA4.toNat < opcode.toNat ∧ s.vfExec.allTrue = true then
      opcodeCalls crypto checker sigversion flags s' (Opcode.ofByte opcode)
    else []

/-- The calls of the loop of `EvalScript`. -/
def loopCalls : ℕ → CScript → EvalState → List EcdsaCall
  | _, [], _ => []
  | 0, _ :: _, _ => []
  | fuel + 1, b :: bs, s =>
    match getScriptOp (b :: bs) with
    | none => []
    | some (opcode, vchPushValue, pc) =>
      instructionCalls crypto checker sigversion flags opcode vchPushValue s ++
        callsAfter (evalInstruction crypto checker sigversion flags opcode vchPushValue pc s)
          fun (_, s) => loopCalls fuel pc s

/-- The calls of `EvalScript`. -/
def evalScriptCalls (stack : List ValType) (script : CScript) (execdata : ScriptExecutionData) :
    List EcdsaCall :=
  callsAfter (do
    assertThat (sigversion != .taproot)
    failIf (preTapscript sigversion && decide (MAX_SCRIPT_SIZE < script.length)) .scriptSize)
    fun _ =>
      let execdata := { execdata with
        m_codeseparator_pos := 0xffffffff
        m_codeseparator_pos_init := true }
      loopCalls crypto checker sigversion flags script.length script
        { stack, pbegincodehash := script, execdata }

end Calls

/-! ## Spends -/

section Spends

variable (crypto : ScriptCrypto) (checker : SignatureChecker) (flags : ScriptVerifyFlags)

/-- The calls of `ExecuteWitnessScript` for a script of version 0. -/
def executeWitnessCalls (stack : List ValType) (exec_script : CScript) : List EcdsaCall :=
  callsAfter (failIf (stack.any fun elem => decide (MAX_SCRIPT_ELEMENT_SIZE < elem.length))
    .pushSize) fun _ => evalScriptCalls crypto checker .witnessV0 flags stack exec_script {}

/-- The calls of `VerifyWitnessProgram`.  A Taproot spend has Schnorr signatures only. -/
def witnessProgramCalls (witness : List ValType) (witversion : ℕ) (program : List Byte) :
    List EcdsaCall :=
  if witversion = 0 then
    if program.length = WITNESS_V0_SCRIPTHASH_SIZE then
      match witness.reverse with
      | [] => []
      | exec_script :: stack =>
        callsAfter (failIf ((crypto.sha256 exec_script).1 != program) .witnessProgramMismatch)
          fun _ => executeWitnessCalls crypto checker flags stack exec_script
    else if program.length = WITNESS_V0_KEYHASH_SIZE then
      callsAfter (failIf (witness.length != 2) .witnessProgramMismatch) fun _ =>
        executeWitnessCalls crypto checker flags witness.reverse (keyHashScript program)
    else []
  else []

/-- The calls for the witness program of a script, if it has one. -/
def scriptWitnessCalls (witness : List ValType) (script : CScript) (malleated : Bool) :
    List EcdsaCall :=
  if .WITNESS ∈ flags then
    match isWitnessProgram script with
    | none => []
    | some (version, program) =>
      if malleated then [] else witnessProgramCalls crypto checker flags witness version program
  else []

/-- The calls for the script that a script hash stands for. -/
def scriptHashCalls (scriptSig : CScript) (witness stackCopy : List ValType) : List EcdsaCall :=
  callsAfter (do
    failIf (!isPushOnly scriptSig) .sigPushOnly
    assertThat (!stackCopy.isEmpty)) fun _ =>
      let pubKey2 := stackCopy.headD []
      evalScriptCalls crypto checker .base flags stackCopy.tail pubKey2 {} ++
        callsAfter (do
          let stack ← evalSpendScript crypto checker flags stackCopy.tail pubKey2
          checkTop stack) fun _ =>
            scriptWitnessCalls crypto checker flags witness pubKey2 (scriptSig != pushData pubKey2)

/-- The calls of `VerifyScript`. -/
def verifyScriptCalls (scriptSig scriptPubKey : CScript) (witness : List ValType) :
    List EcdsaCall :=
  callsAfter (failIf (.SIGPUSHONLY ∈ flags && !isPushOnly scriptSig) .sigPushOnly) fun _ =>
    evalScriptCalls crypto checker .base flags [] scriptSig {} ++
    callsAfter (evalSpendScript crypto checker flags [] scriptSig) fun stackCopy =>
      evalScriptCalls crypto checker .base flags stackCopy scriptPubKey {} ++
      callsAfter (do
        let stack ← evalSpendScript crypto checker flags stackCopy scriptPubKey
        checkTop stack
        pure stack) fun stack =>
          scriptWitnessCalls crypto checker flags witness scriptPubKey (scriptSig != []) ++
          callsAfter (verifyScriptWitness crypto checker flags witness scriptPubKey
            (scriptSig != []) .witnessMalleated false stack) fun _ =>
              if .P2SH ∈ flags ∧ isPayToScriptHash scriptPubKey then
                scriptHashCalls crypto checker flags scriptSig witness stackCopy
              else []

end Spends

/-! ## `GetSigOpCount` -/

/-- What an opcode counts for, after the opcode before it. -/
def opcodeSigOps (fAccurate : Bool) (lastOpcode opcode : Byte) : ℕ :=
  match Opcode.ofByte opcode with
  | .OP_CHECKSIG | .OP_CHECKSIGVERIFY => 1
  | .OP_CHECKMULTISIG | .OP_CHECKMULTISIGVERIFY =>
    if fAccurate && decide (0x51 ≤ lastOpcode.toNat) && decide (lastOpcode.toNat ≤ 0x60) then
      decodeOpN lastOpcode
    else MAX_PUBKEYS_PER_MULTISIG
  | _ => 0

/-- The loop of `GetSigOpCount`, from `pc` on: the sum before it wraps around. -/
def sigOpsFrom (fAccurate : Bool) : ℕ → CScript → Byte → ℕ
  | _, [], _ => 0
  | 0, _ :: _, _ => 0
  | fuel + 1, b :: bs, lastOpcode =>
    match getScriptOp (b :: bs) with
    | none => 0
    | some (opcode, _, pc) =>
      opcodeSigOps fAccurate lastOpcode opcode + sigOpsFrom fAccurate fuel pc opcode

/-- `CScript::GetSigOpCount`; `n` is an `unsigned int`. -/
def getSigOpCount (fAccurate : Bool) (script : CScript) : ℕ :=
  sigOpsFrom fAccurate script.length script 0xff#8 % 2 ^ 32

end BitMinti.Model
