import BitMinti.Model.Script
import Mathlib.Data.Vector.Defs

/-!
# The script interpreter

`EvalScript`, `VerifyWitnessProgram` and `VerifyScript`.  A stack is a list with its top first.  An
iterator into the script is the rest of the script from there on.  An exception that `EvalScript`
catches is the error it sets then.  Hashes and the operations on public keys are parameters.

SOURCE: src/src/script/interpreter.cpp:36-1235, 1832-2121, src/src/script/interpreter.h:200-290
-/

set_option autoImplicit false

namespace BitMinti.Model

/-- Fail with an error if a condition holds. -/
def failIf (b : Bool) (serror : ScriptError) : Except ScriptFailure Unit :=
  if b then .error (.error serror) else .ok ()

/-- Make a check if a condition holds. -/
def checkIf (b : Bool) (check : Except ScriptFailure Unit) : Except ScriptFailure Unit :=
  if b then check else .ok ()

/-- `assert`. -/
def assertThat (b : Bool) : Except ScriptFailure Unit := if b then .ok () else .error .assertion

/-! ## Signatures and keys -/

inductive SigVersion where
  | base
  | witnessV0
  | taproot
  | tapscript
  deriving DecidableEq, Repr

/-- `ScriptExecutionData`, without the hash that a checker keeps there. -/
structure ScriptExecutionData where
  m_tapleaf_hash_init : Bool := false
  m_tapleaf_hash : List Byte := []
  m_codeseparator_pos_init : Bool := false
  m_codeseparator_pos : ℕ := 0
  m_annex_init : Bool := false
  m_annex_present : Bool := false
  m_annex_hash : List Byte := []
  m_validation_weight_left_init : Bool := false
  m_validation_weight_left : ℤ := 0
  deriving DecidableEq, Repr

/-- `BaseSignatureChecker`, as pure functions.  A Schnorr signature that is refused comes with the
error that is set. -/
structure SignatureChecker where
  checkECDSASignature : ValType → ValType → CScript → SigVersion → Bool
  checkSchnorrSignature : List Byte → List Byte → SigVersion → ScriptExecutionData →
    Except ScriptError Unit
  checkLockTime : ℤ → Bool
  checkSequence : ℤ → Bool

/-- The hash functions, `CPubKey::CheckLowS` and `XOnlyPubKey::CheckTapTweak`. -/
structure ScriptCrypto where
  ripemd160 : List Byte → List.Vector Byte 20
  sha1 : List Byte → List.Vector Byte 20
  sha256 : List Byte → List.Vector Byte 32
  checkLowS : List Byte → Bool
  checkTapTweak : List Byte → List Byte → List Byte → Bool → Bool

def isCompressedOrUncompressedPubKey (vchPubKey : ValType) : Bool :=
  decide (33 ≤ vchPubKey.length) &&
    match vchPubKey.headD 0 with
    | 0x04#8 => vchPubKey.length == 65
    | 0x02#8 => vchPubKey.length == 33
    | 0x03#8 => vchPubKey.length == 33
    | _ => false

def isCompressedPubKey (vchPubKey : ValType) : Bool :=
  vchPubKey.length == 33 && (vchPubKey.headD 0 == 0x02#8 || vchPubKey.headD 0 == 0x03#8)

/-- Whether the integer of `len` bytes at `start` is positive and not padded. -/
def isValidSigInteger (sig : ValType) (start len : ℕ) : Bool :=
  sig.getD (start - 2) 0 == 0x02#8 && len != 0 && sig.getD start 0 &&& 0x80#8 == 0#8 &&
    !(decide (1 < len) && sig.getD start 0 == 0#8 && sig.getD (start + 1) 0 &&& 0x80#8 == 0#8)

def isValidSignatureEncoding (sig : ValType) : Bool :=
  let lenR := (sig.getD 3 0).toNat
  let lenS := (sig.getD (5 + lenR) 0).toNat
  decide (9 ≤ sig.length) && decide (sig.length ≤ 73) && sig.getD 0 0 == 0x30#8 &&
    (sig.getD 1 0).toNat == sig.length - 3 && decide (5 + lenR < sig.length) &&
    lenR + lenS + 7 == sig.length && isValidSigInteger sig 4 lenR &&
    isValidSigInteger sig (lenR + 6) lenS

def isDefinedHashtypeSignature (vchSig : ValType) : Bool :=
  match vchSig.getLast? with
  | none => false
  | some b =>
    let nHashType := (b &&& ~~~0x80#8).toNat
    decide (1 ≤ nHashType) && decide (nHashType ≤ 3)

section Signatures

variable (crypto : ScriptCrypto) (flags : ScriptVerifyFlags)

def isLowDERSignature (vchSig : ValType) : Except ScriptFailure Unit := do
  failIf (!isValidSignatureEncoding vchSig) .sigDer
  failIf (!crypto.checkLowS vchSig.dropLast) .sigHighS

def checkSignatureEncoding (vchSig : ValType) : Except ScriptFailure Unit :=
  if vchSig = [] then .ok ()
  else do
    failIf ((.DERSIG ∈ flags || .LOW_S ∈ flags || .STRICTENC ∈ flags) &&
      !isValidSignatureEncoding vchSig) .sigDer
    checkIf (.LOW_S ∈ flags) (isLowDERSignature crypto vchSig)
    failIf (.STRICTENC ∈ flags && !isDefinedHashtypeSignature vchSig) .sigHashtype

def checkPubKeyEncoding (vchPubKey : ValType) (sigversion : SigVersion) :
    Except ScriptFailure Unit := do
  failIf (.STRICTENC ∈ flags && !isCompressedOrUncompressedPubKey vchPubKey) .pubkeyType
  failIf (.WITNESS_PUBKEYTYPE ∈ flags && sigversion == .witnessV0 &&
    !isCompressedPubKey vchPubKey) .witnessPubkeyType

end Signatures

/-! ## The state of an evaluation -/

/-- The position that stands for no false value. -/
def ConditionStack.NO_FALSE : BitVec 32 := .allOnes 32

/-- `ConditionStack`: the size of the stack and the position of its first false value. -/
structure ConditionStack where
  m_stack_size : BitVec 32 := 0
  m_first_false_pos : BitVec 32 := ConditionStack.NO_FALSE
  deriving DecidableEq, Repr

namespace ConditionStack

def empty (c : ConditionStack) : Bool := c.m_stack_size == 0

def allTrue (c : ConditionStack) : Bool := c.m_first_false_pos == NO_FALSE

def pushBack (c : ConditionStack) (f : Bool) : ConditionStack where
  m_stack_size := c.m_stack_size + 1
  m_first_false_pos :=
    if c.m_first_false_pos = NO_FALSE ∧ f = false then c.m_stack_size else c.m_first_false_pos

def popBack (c : ConditionStack) : ConditionStack where
  m_stack_size := c.m_stack_size - 1
  m_first_false_pos :=
    if c.m_first_false_pos = c.m_stack_size - 1 then NO_FALSE else c.m_first_false_pos

def toggleTop (c : ConditionStack) : ConditionStack where
  m_stack_size := c.m_stack_size
  m_first_false_pos :=
    if c.m_first_false_pos = NO_FALSE then c.m_stack_size - 1
    else if c.m_first_false_pos = c.m_stack_size - 1 then NO_FALSE
    else c.m_first_false_pos

end ConditionStack

/-- The variables of `EvalScript`. -/
structure EvalState where
  stack : List ValType
  altstack : List ValType := []
  vfExec : ConditionStack := {}
  nOpCount : ℕ := 0
  pbegincodehash : CScript
  opcode_pos : ℕ := 0
  execdata : ScriptExecutionData
  deriving DecidableEq, Repr

/-- What `EvalScript` does in a loop: it changes its variables or fails. -/
abbrev EvalM (α : Type) : Type := StateT EvalState (Except ScriptFailure) α

/-- Set an error and return. -/
def setError {α : Type} (serror : ScriptError) : EvalM α := throw (.error serror)

/-- `vchFalse` and `vchTrue`. -/
def vchBool (b : Bool) : ValType := if b then [1#8] else []

/-- Replace the stack by what an operation makes of it; there are too few elements if it makes
nothing of it. -/
def stackOp (op : List ValType → Option (List ValType)) : EvalM Unit := do
  let s ← get
  match op s.stack with
  | some stack => set { s with stack }
  | none => setError .invalidStackOperation

/-- Replace the stack by what a fallible operation makes of it. -/
def stackTry (op : List ValType → Except ScriptFailure (List ValType)) : EvalM Unit := do
  let s ← get
  let stack ← op s.stack
  set { s with stack }

/-! ## Signature operations -/

section Evaluation

variable (crypto : ScriptCrypto) (checker : SignatureChecker) (sigversion : SigVersion)
  (flags : ScriptVerifyFlags)

/-- `EvalChecksigPreTapscript`: whether the signature is valid. -/
def evalChecksigPreTapscript (vchSig vchPubKey : ValType) (scriptCode : CScript) :
    Except ScriptFailure Bool := do
  let (scriptCode, found) :=
    if sigversion = .base then findAndDelete scriptCode (pushData vchSig) else (scriptCode, 0)
  failIf (decide (0 < found) && .CONST_SCRIPTCODE ∈ flags) .sigFindAndDelete
  checkSignatureEncoding crypto flags vchSig
  checkPubKeyEncoding flags vchPubKey sigversion
  let fSuccess := checker.checkECDSASignature vchSig vchPubKey scriptCode sigversion
  failIf (!fSuccess && .NULLFAIL ∈ flags && vchSig != []) .sigNullFail
  pure fSuccess

def VALIDATION_WEIGHT_PER_SIGOP_PASSED : ℤ := 50
def VALIDATION_WEIGHT_OFFSET : ℤ := 50

/-- `EvalChecksigTapscript`: whether the signature is valid, and the execution data after it. -/
def evalChecksigTapscript (sig pubkey : ValType) (execdata : ScriptExecutionData) :
    Except ScriptFailure (Bool × ScriptExecutionData) := do
  let success := sig != []
  assertThat (!success || execdata.m_validation_weight_left_init)
  let execdata := if success then
      { execdata with m_validation_weight_left :=
          execdata.m_validation_weight_left - VALIDATION_WEIGHT_PER_SIGOP_PASSED }
    else execdata
  failIf (success && decide (execdata.m_validation_weight_left < 0)) .tapscriptValidationWeight
  if pubkey.length = 0 then .error (.error .tapscriptEmptyPubkey)
  else if pubkey.length = 32 then
    if success then
      match checker.checkSchnorrSignature sig pubkey sigversion execdata with
      | .ok () => .ok (success, execdata)
      | .error serror => .error (.error serror)
    else .ok (success, execdata)
  else do
    failIf (.DISCOURAGE_UPGRADABLE_PUBKEYTYPE ∈ flags) .discourageUpgradablePubkeyType
    pure (success, execdata)

def evalChecksig (sig pubkey : ValType) (scriptCode : CScript) (execdata : ScriptExecutionData) :
    Except ScriptFailure (Bool × ScriptExecutionData) :=
  match sigversion with
  | .base | .witnessV0 => do
      let success ←
        evalChecksigPreTapscript crypto checker sigversion flags sig pubkey scriptCode
      pure (success, execdata)
  | .tapscript => evalChecksigTapscript checker sigversion flags sig pubkey execdata
  | .taproot => .error .assertion

/-- The first loop of `OP_CHECKMULTISIG`: the signatures are dropped from the script. -/
def dropSignatures (scriptCode : CScript) : List ValType → Except ScriptFailure CScript
  | [] => .ok scriptCode
  | vchSig :: sigs => do
      let (scriptCode, found) :=
        if sigversion = .base then findAndDelete scriptCode (pushData vchSig) else (scriptCode, 0)
      failIf (decide (0 < found) && .CONST_SCRIPTCODE ∈ flags) .sigFindAndDelete
      dropSignatures scriptCode sigs

/-- The second loop of `OP_CHECKMULTISIG`: every key is tried on the first signature that is left.
It fails once more signatures than keys are left. -/
def checkMultisig (scriptCode : CScript) : List ValType → List ValType → Except ScriptFailure Bool
  | [], _ => .ok true
  | _ :: _, [] => .ok false
  | vchSig :: sigs, vchPubKey :: keys => do
      checkSignatureEncoding crypto flags vchSig
      checkPubKeyEncoding flags vchPubKey sigversion
      let fOk := checker.checkECDSASignature vchSig vchPubKey scriptCode sigversion
      let sigs := if fOk then sigs else vchSig :: sigs
      if keys.length < sigs.length then .ok false else checkMultisig scriptCode sigs keys

/-! ## Operations -/

/-- `fRequireMinimal`. -/
def requireMinimal : Bool := .MINIMALDATA ∈ flags

/-- `CScriptNum::operator+=`. -/
def CScriptNum.addAssign (value rhs : ℤ) : Except ScriptFailure ℤ := do
  assertThat (rhs == 0 || (decide (0 < rhs) && decide (value ≤ 2 ^ 63 - 1 - rhs)) ||
    (decide (rhs < 0) && decide (-2 ^ 63 - rhs ≤ value)))
  pure (value + rhs)

/-- `CScriptNum::operator-=`. -/
def CScriptNum.subAssign (value rhs : ℤ) : Except ScriptFailure ℤ := do
  assertThat (rhs == 0 || (decide (0 < rhs) && decide (-2 ^ 63 + rhs ≤ value)) ||
    (decide (rhs < 0) && decide (value ≤ 2 ^ 63 - 1 + rhs)))
  pure (value - rhs)

/-- `CScriptNum::operator-` of one number. -/
def CScriptNum.negate (value : ℤ) : Except ScriptFailure ℤ := do
  assertThat (value != -2 ^ 63)
  pure (-value)

/-- The operations on one number. -/
def unaryNum (op : ℤ → Except ScriptFailure ℤ) : EvalM Unit :=
  stackTry fun
    | top :: stack => do
        let bn ← CScriptNum.ofVch top (requireMinimal flags)
        let bn ← op bn
        pure (CScriptNum.serialize bn :: stack)
    | _ => .error (.error .invalidStackOperation)

/-- The operations on two numbers. -/
def binaryNum (op : ℤ → ℤ → ℤ) : EvalM Unit :=
  stackTry fun
    | top :: second :: stack => do
        let bn1 ← CScriptNum.ofVch second (requireMinimal flags)
        let bn2 ← CScriptNum.ofVch top (requireMinimal flags)
        pure (CScriptNum.serialize (op bn1 bn2) :: stack)
    | _ => .error (.error .invalidStackOperation)

/-- The end of the operations that verify their result. -/
def popVerified (serror : ScriptError) : EvalM Unit :=
  stackTry fun
    | top :: stack => do
        failIf (!castToBool top) serror
        pure stack
    | _ => .error (.error .invalidStackOperation)

/-- `OP_WITHIN`. -/
def within : EvalM Unit :=
  stackTry fun
    | top :: second :: third :: stack => do
        let bn1 ← CScriptNum.ofVch third (requireMinimal flags)
        let bn2 ← CScriptNum.ofVch second (requireMinimal flags)
        let bn3 ← CScriptNum.ofVch top (requireMinimal flags)
        pure (vchBool (decide (bn2 ≤ bn1 ∧ bn1 < bn3)) :: stack)
    | _ => .error (.error .invalidStackOperation)

/-- `OP_PICK` and `OP_ROLL`. -/
def pick (roll : Bool) : EvalM Unit :=
  stackTry fun
    | top :: second :: rest => do
        let n := CScriptNum.getint (← CScriptNum.ofVch top (requireMinimal flags))
        let stack := second :: rest
        failIf (decide (n < 0) || decide ((stack.length : ℤ) ≤ n)) .invalidStackOperation
        let vch := stack.getD n.toNat []
        pure (vch :: if roll then stack.eraseIdx n.toNat else stack)
    | _ => .error (.error .invalidStackOperation)

/-- `OP_CHECKLOCKTIMEVERIFY`. -/
def checkLockTimeVerify : EvalM Unit :=
  if .CHECKLOCKTIMEVERIFY ∉ flags then pure ()
  else stackTry fun
    | top :: stack => do
        let nLockTime ← CScriptNum.ofVch top (requireMinimal flags) 5
        failIf (nLockTime < 0) .negativeLocktime
        failIf (!checker.checkLockTime nLockTime) .unsatisfiedLocktime
        pure (top :: stack)
    | _ => .error (.error .invalidStackOperation)

/-- `OP_CHECKSEQUENCEVERIFY`; bit 31 of the operand disables it. -/
def checkSequenceVerify : EvalM Unit :=
  if .CHECKSEQUENCEVERIFY ∉ flags then pure ()
  else stackTry fun
    | top :: stack => do
        let nSequence ← CScriptNum.ofVch top (requireMinimal flags) 5
        failIf (nSequence < 0) .negativeLocktime
        failIf (!nSequence.toNat.testBit 31 && !checker.checkSequence nSequence)
          .unsatisfiedLocktime
        pure (top :: stack)
    | _ => .error (.error .invalidStackOperation)

/-- Whether the operand of a conditional is not exactly false or true. -/
def isNotMinimalIf (vch : ValType) : Bool :=
  decide (1 < vch.length) || (vch.length == 1 && vch != [1#8])

/-- `OP_IF` and `OP_NOTIF`. -/
def evalIf (fExec : Bool) (notIf : Bool) : EvalM Unit := do
  let s ← get
  if fExec then
    match s.stack with
    | vch :: stack => do
        failIf (sigversion == .tapscript && isNotMinimalIf vch) .tapscriptMinimalIf
        failIf (sigversion == .witnessV0 && .MINIMALIF ∈ flags && isNotMinimalIf vch) .minimalIf
        set { s with stack, vfExec := s.vfExec.pushBack (castToBool vch ^^ notIf) }
    | [] => setError .unbalancedConditional
  else set { s with vfExec := s.vfExec.pushBack false }

/-- `OP_CHECKSIG`. -/
def checkSig : EvalM Unit := do
  let s ← get
  match s.stack with
  | vchPubKey :: vchSig :: stack => do
      let (fSuccess, execdata) ←
        evalChecksig crypto checker sigversion flags vchSig vchPubKey s.pbegincodehash s.execdata
      set { s with stack := vchBool fSuccess :: stack, execdata }
  | _ => setError .invalidStackOperation

/-- `OP_CHECKSIGADD`. -/
def checkSigAdd : EvalM Unit := do
  failIf (sigversion == .base || sigversion == .witnessV0) .badOpcode
  let s ← get
  match s.stack with
  | pubkey :: top :: sig :: stack => do
      let num ← CScriptNum.ofVch top (requireMinimal flags)
      let (success, execdata) ←
        evalChecksig crypto checker sigversion flags sig pubkey s.pbegincodehash s.execdata
      set { s with
        stack := CScriptNum.serialize (num + if success then 1 else 0) :: stack, execdata }
  | _ => setError .invalidStackOperation

/-- The operands of `OP_CHECKMULTISIG`. -/
structure MultisigOperands where
  keys : List ValType
  sigs : List ValType
  dummy : ValType
  stack : List ValType

/-- The operands of `OP_CHECKMULTISIG` and the number of operations they count for.  The stack holds
the number of keys, the keys, the number of signatures, the signatures and one more element. -/
def multisigOperands (nOpCount : ℕ) : List ValType → Except ScriptFailure (MultisigOperands × ℕ)
  | [] => .error (.error .invalidStackOperation)
  | top :: stack => do
      let nKeysCount := CScriptNum.getint (← CScriptNum.ofVch top (requireMinimal flags))
      failIf (decide (nKeysCount < 0) || decide ((MAX_PUBKEYS_PER_MULTISIG : ℤ) < nKeysCount))
        .pubkeyCount
      let nOpCount := nOpCount + nKeysCount.toNat
      failIf (decide (MAX_OPS_PER_SCRIPT < nOpCount)) .opCount
      match stack.drop nKeysCount.toNat with
      | [] => .error (.error .invalidStackOperation)
      | top :: rest => do
          let nSigsCount := CScriptNum.getint (← CScriptNum.ofVch top (requireMinimal flags))
          failIf (decide (nSigsCount < 0) || decide (nKeysCount < nSigsCount)) .sigCount
          match rest.drop nSigsCount.toNat with
          | [] => .error (.error .invalidStackOperation)
          | dummy :: below =>
            pure (⟨stack.take nKeysCount.toNat, rest.take nSigsCount.toNat, dummy, below⟩,
              nOpCount)

/-- `OP_CHECKMULTISIG`. -/
def checkMultisigOp : EvalM Unit := do
  failIf (sigversion == .tapscript) .tapscriptCheckMultisig
  let s ← get
  let (operands, nOpCount) ← multisigOperands flags s.nOpCount s.stack
  let scriptCode ← dropSignatures sigversion flags s.pbegincodehash operands.sigs
  let fSuccess ←
    checkMultisig crypto checker sigversion flags scriptCode operands.sigs operands.keys
  failIf (!fSuccess && .NULLFAIL ∈ flags && operands.sigs.any (· != [])) .sigNullFail
  failIf (.NULLDUMMY ∈ flags && operands.dummy != []) .sigNullDummy
  set { s with stack := vchBool fSuccess :: operands.stack, nOpCount }

/-- The operations that replace the top of the stack by its hash. -/
def hashOp (hash : List Byte → List Byte) : EvalM Unit :=
  stackOp fun
    | vch :: stack => some (hash vch :: stack)
    | _ => none

/-- `CHash160`. -/
def ScriptCrypto.hash160 (vch : List Byte) : List Byte := (crypto.ripemd160 (crypto.sha256 vch).1).1

/-- `CHash256`. -/
def ScriptCrypto.hash256 (vch : List Byte) : List Byte := (crypto.sha256 (crypto.sha256 vch).1).1

/-- `OP_EQUAL`. -/
def equalOp : EvalM Unit :=
  stackOp fun
    | x2 :: x1 :: stack => some (vchBool (x1 == x2) :: stack)
    | _ => none

/-- Push a number. -/
def pushNum (n : ℤ) : EvalM Unit :=
  modify fun s => { s with stack := CScriptNum.serialize n :: s.stack }

/-- A truth value as a number. -/
def boolNum (b : Bool) : ℤ := if b then 1 else 0

/-! ## The switch -/

/-- The operations on the stacks. -/
def evalStackOp : Opcode → EvalM Unit
  | .OP_TOALTSTACK => do
      let s ← get
      match s.stack with
      | vch :: stack => set { s with stack, altstack := vch :: s.altstack }
      | [] => setError .invalidStackOperation
  | .OP_FROMALTSTACK => do
      let s ← get
      match s.altstack with
      | vch :: altstack => set { s with stack := vch :: s.stack, altstack }
      | [] => setError .invalidAltstackOperation
  | .OP_2DROP => stackOp fun
      | _ :: _ :: s => some s
      | _ => none
  | .OP_2DUP => stackOp fun
      | x2 :: x1 :: s => some (x2 :: x1 :: x2 :: x1 :: s)
      | _ => none
  | .OP_3DUP => stackOp fun
      | x3 :: x2 :: x1 :: s => some (x3 :: x2 :: x1 :: x3 :: x2 :: x1 :: s)
      | _ => none
  | .OP_2OVER => stackOp fun
      | x4 :: x3 :: x2 :: x1 :: s => some (x2 :: x1 :: x4 :: x3 :: x2 :: x1 :: s)
      | _ => none
  | .OP_2ROT => stackOp fun
      | x6 :: x5 :: x4 :: x3 :: x2 :: x1 :: s => some (x2 :: x1 :: x6 :: x5 :: x4 :: x3 :: s)
      | _ => none
  | .OP_2SWAP => stackOp fun
      | x4 :: x3 :: x2 :: x1 :: s => some (x2 :: x1 :: x4 :: x3 :: s)
      | _ => none
  | .OP_IFDUP => stackOp fun
      | x :: s => some (if castToBool x then x :: x :: s else x :: s)
      | _ => none
  | .OP_DEPTH => do
      let s ← get
      pushNum s.stack.length
  | .OP_DROP => stackOp fun
      | _ :: s => some s
      | _ => none
  | .OP_DUP => stackOp fun
      | x :: s => some (x :: x :: s)
      | _ => none
  | .OP_NIP => stackOp fun
      | x2 :: _ :: s => some (x2 :: s)
      | _ => none
  | .OP_OVER => stackOp fun
      | x2 :: x1 :: s => some (x1 :: x2 :: x1 :: s)
      | _ => none
  | .OP_ROT => stackOp fun
      | x3 :: x2 :: x1 :: s => some (x1 :: x3 :: x2 :: s)
      | _ => none
  | .OP_SWAP => stackOp fun
      | x2 :: x1 :: s => some (x1 :: x2 :: s)
      | _ => none
  | .OP_TUCK => stackOp fun
      | x2 :: x1 :: s => some (x2 :: x1 :: x2 :: s)
      | _ => none
  | .OP_SIZE => stackOp fun
      | x :: s => some (CScriptNum.serialize x.length :: x :: s)
      | _ => none
  | _ => setError .badOpcode

/-- The operations on numbers. -/
def evalNumOp : Opcode → EvalM Unit
  | .OP_1ADD => unaryNum flags (CScriptNum.addAssign · 1)
  | .OP_1SUB => unaryNum flags (CScriptNum.subAssign · 1)
  | .OP_NEGATE => unaryNum flags CScriptNum.negate
  | .OP_ABS => unaryNum flags fun bn => if bn < 0 then CScriptNum.negate bn else .ok bn
  | .OP_NOT => unaryNum flags fun bn => .ok (boolNum (bn == 0))
  | .OP_0NOTEQUAL => unaryNum flags fun bn => .ok (boolNum (bn != 0))
  | .OP_ADD => binaryNum flags (· + ·)
  | .OP_SUB => binaryNum flags (· - ·)
  | .OP_BOOLAND => binaryNum flags fun bn1 bn2 => boolNum (bn1 != 0 && bn2 != 0)
  | .OP_BOOLOR => binaryNum flags fun bn1 bn2 => boolNum (bn1 != 0 || bn2 != 0)
  | .OP_NUMEQUAL => binaryNum flags fun bn1 bn2 => boolNum (bn1 == bn2)
  | .OP_NUMEQUALVERIFY => do
      binaryNum flags fun bn1 bn2 => boolNum (bn1 == bn2)
      popVerified .numEqualVerify
  | .OP_NUMNOTEQUAL => binaryNum flags fun bn1 bn2 => boolNum (bn1 != bn2)
  | .OP_LESSTHAN => binaryNum flags fun bn1 bn2 => boolNum (decide (bn1 < bn2))
  | .OP_GREATERTHAN => binaryNum flags fun bn1 bn2 => boolNum (decide (bn2 < bn1))
  | .OP_LESSTHANOREQUAL => binaryNum flags fun bn1 bn2 => boolNum (decide (bn1 ≤ bn2))
  | .OP_GREATERTHANOREQUAL => binaryNum flags fun bn1 bn2 => boolNum (decide (bn2 ≤ bn1))
  | .OP_MIN => binaryNum flags fun bn1 bn2 => if bn1 < bn2 then bn1 else bn2
  | .OP_MAX => binaryNum flags fun bn1 bn2 => if bn2 < bn1 then bn1 else bn2
  | .OP_WITHIN => within flags
  | op => evalStackOp op

/-- The switch of `EvalScript`; `pc` is what follows the opcode. -/
def evalOpcode (fExec : Bool) (pc : CScript) : Opcode → EvalM Unit
  | .OP_1NEGATE => pushNum (-1)
  | .OP_1 => pushNum 1
  | .OP_2 => pushNum 2
  | .OP_3 => pushNum 3
  | .OP_4 => pushNum 4
  | .OP_5 => pushNum 5
  | .OP_6 => pushNum 6
  | .OP_7 => pushNum 7
  | .OP_8 => pushNum 8
  | .OP_9 => pushNum 9
  | .OP_10 => pushNum 10
  | .OP_11 => pushNum 11
  | .OP_12 => pushNum 12
  | .OP_13 => pushNum 13
  | .OP_14 => pushNum 14
  | .OP_15 => pushNum 15
  | .OP_16 => pushNum 16
  | .OP_NOP => pure ()
  | .OP_CHECKLOCKTIMEVERIFY => checkLockTimeVerify checker flags
  | .OP_CHECKSEQUENCEVERIFY => checkSequenceVerify checker flags
  | .OP_NOP1 | .OP_NOP4 | .OP_NOP5 | .OP_NOP6 | .OP_NOP7 | .OP_NOP8 | .OP_NOP9 | .OP_NOP10 =>
    failIf (.DISCOURAGE_UPGRADABLE_NOPS ∈ flags) .discourageUpgradableNops
  | .OP_IF => evalIf sigversion flags fExec false
  | .OP_NOTIF => evalIf sigversion flags fExec true
  | .OP_ELSE => do
      let s ← get
      failIf s.vfExec.empty .unbalancedConditional
      set { s with vfExec := s.vfExec.toggleTop }
  | .OP_ENDIF => do
      let s ← get
      failIf s.vfExec.empty .unbalancedConditional
      set { s with vfExec := s.vfExec.popBack }
  | .OP_VERIFY => popVerified .verify
  | .OP_RETURN => setError .opReturn
  | .OP_PICK => pick flags false
  | .OP_ROLL => pick flags true
  | .OP_EQUAL => equalOp
  | .OP_EQUALVERIFY => do
      equalOp
      popVerified .equalVerify
  | .OP_RIPEMD160 => hashOp fun vch => (crypto.ripemd160 vch).1
  | .OP_SHA1 => hashOp fun vch => (crypto.sha1 vch).1
  | .OP_SHA256 => hashOp fun vch => (crypto.sha256 vch).1
  | .OP_HASH160 => hashOp crypto.hash160
  | .OP_HASH256 => hashOp crypto.hash256
  | .OP_CODESEPARATOR =>
    modify fun s => { s with
      pbegincodehash := pc
      execdata := { s.execdata with m_codeseparator_pos := s.opcode_pos } }
  | .OP_CHECKSIG => checkSig crypto checker sigversion flags
  | .OP_CHECKSIGVERIFY => do
      checkSig crypto checker sigversion flags
      popVerified .checkSigVerify
  | .OP_CHECKSIGADD => checkSigAdd crypto checker sigversion flags
  | .OP_CHECKMULTISIG => checkMultisigOp crypto checker sigversion flags
  | .OP_CHECKMULTISIGVERIFY => do
      checkMultisigOp crypto checker sigversion flags
      popVerified .checkMultisigVerify
  | op => evalNumOp flags op

/-- The opcodes that fail even where they are not executed. -/
def isDisabled : Opcode → Bool
  | .OP_CAT | .OP_SUBSTR | .OP_LEFT | .OP_RIGHT | .OP_INVERT | .OP_AND | .OP_OR | .OP_XOR
  | .OP_2MUL | .OP_2DIV | .OP_MUL | .OP_DIV | .OP_MOD | .OP_LSHIFT | .OP_RSHIFT => true
  | _ => false

/-- Whether a script has the limits from before `Tapscript`. -/
def preTapscript : Bool := sigversion == .base || sigversion == .witnessV0

/-- What an opcode does where it is executed, and conditionals do everywhere. -/
def executeOpcode (fExec : Bool) (opcode : Byte) (vchPushValue : ValType) (pc : CScript) :
    EvalM Unit :=
  if opcode.toNat ≤ OP_PUSHDATA4.toNat then
    if fExec then do
      failIf (requireMinimal flags && !checkMinimalPush vchPushValue opcode) .minimalData
      modify fun s => { s with stack := vchPushValue :: s.stack }
    else pure ()
  else if fExec || (0x63 ≤ opcode.toNat && opcode.toNat ≤ 0x68) then
    evalOpcode crypto checker sigversion flags fExec pc (Opcode.ofByte opcode)
  else pure ()

/-- One round of the loop of `EvalScript`. -/
def evalInstruction (opcode : Byte) (vchPushValue : ValType) (pc : CScript) : EvalM Unit := do
  let s ← get
  let fExec := s.vfExec.allTrue
  failIf (decide (MAX_SCRIPT_ELEMENT_SIZE < vchPushValue.length)) .pushSize
  let counts := preTapscript sigversion && decide (0x60 < opcode.toNat)
  failIf (counts && decide (MAX_OPS_PER_SCRIPT < s.nOpCount + 1)) .opCount
  modify fun s => { s with nOpCount := s.nOpCount + if counts then 1 else 0 }
  let isPush := decide (opcode.toNat ≤ OP_PUSHDATA4.toNat)
  failIf (!isPush && isDisabled (Opcode.ofByte opcode)) .disabledOpcode
  failIf (!isPush && Opcode.ofByte opcode == .OP_CODESEPARATOR && sigversion == .base &&
    .CONST_SCRIPTCODE ∈ flags) .opCodeSeparator
  executeOpcode crypto checker sigversion flags fExec opcode vchPushValue pc
  let s ← get
  failIf (decide (MAX_STACK_SIZE < s.stack.length + s.altstack.length)) .stackSize
  set { s with opcode_pos := s.opcode_pos + 1 }

/-- The loop of `EvalScript`.  Every opcode takes a byte or more. -/
def evalLoop : ℕ → CScript → EvalM Unit
  | _, [] => pure ()
  | 0, _ :: _ => setError .unknownError
  | fuel + 1, b :: bs =>
    match getScriptOp (b :: bs) with
    | none => setError .badOpcode
    | some (opcode, vchPushValue, pc) => do
        evalInstruction crypto checker sigversion flags opcode vchPushValue pc
        evalLoop fuel pc

/-- `EvalScript`: the stack it leaves and the execution data. -/
def evalScript (stack : List ValType) (script : CScript) (execdata : ScriptExecutionData) :
    Except ScriptFailure (List ValType × ScriptExecutionData) := do
  assertThat (sigversion != .taproot)
  failIf (preTapscript sigversion && decide (MAX_SCRIPT_SIZE < script.length)) .scriptSize
  let execdata := { execdata with
    m_codeseparator_pos := 0xffffffff
    m_codeseparator_pos_init := true }
  let start : EvalState := { stack, pbegincodehash := script, execdata }
  let (_, s) ← (evalLoop crypto checker sigversion flags script.length script).run start
  failIf (!s.vfExec.empty) .unbalancedConditional
  pure (s.stack, s.execdata)

end Evaluation

/-! ## Witness programs -/

section Verification

variable (crypto : ScriptCrypto) (checker : SignatureChecker) (flags : ScriptVerifyFlags)

/-- What the search for `OP_SUCCESSx` in a script ends with. -/
inductive OpSuccessScan where
  | bad
  | found
  | clean
  deriving DecidableEq, Repr

/-- The search for `OP_SUCCESSx`. -/
def scanOpSuccess : ℕ → CScript → OpSuccessScan
  | _, [] => .clean
  | 0, _ :: _ => .bad
  | fuel + 1, b :: bs =>
    match getScriptOp (b :: bs) with
    | none => .bad
    | some (opcode, _, pc) => if isOpSuccess opcode then .found else scanOpSuccess fuel pc

/-- `ExecuteWitnessScript` after the search for `OP_SUCCESSx`. -/
def executeWitnessStack (stack : List ValType) (exec_script : CScript) (sigversion : SigVersion)
    (execdata : ScriptExecutionData) : Except ScriptFailure Unit := do
  failIf (stack.any fun elem => decide (MAX_SCRIPT_ELEMENT_SIZE < elem.length)) .pushSize
  let (stack, _) ← evalScript crypto checker sigversion flags stack exec_script execdata
  failIf (stack.length != 1) .cleanStack
  failIf (!castToBool (stack.headD [])) .evalFalse

def executeWitnessScript (stack : List ValType) (exec_script : CScript) (sigversion : SigVersion)
    (execdata : ScriptExecutionData) : Except ScriptFailure Unit :=
  if sigversion = .tapscript then
    match scanOpSuccess exec_script.length exec_script with
    | .bad => .error (.error .badOpcode)
    | .found => failIf (.DISCOURAGE_OP_SUCCESS ∈ flags) .discourageOpSuccess
    | .clean => do
        failIf (decide (MAX_STACK_SIZE < stack.length)) .stackSize
        executeWitnessStack crypto checker flags stack exec_script sigversion execdata
  else executeWitnessStack crypto checker flags stack exec_script sigversion execdata

def ScriptCrypto.taggedHash (tag data : List Byte) : List Byte :=
  (crypto.sha256 ((crypto.sha256 tag).1 ++ (crypto.sha256 tag).1 ++ data)).1

/-- The bytes of a tag. -/
def tagBytes (tag : String) : List Byte := tag.toList.map fun c => BitVec.ofNat 8 c.toNat

def computeTapleafHash (leaf_version : Byte) (script : List Byte) : List Byte :=
  crypto.taggedHash (tagBytes "TapLeaf")
    (leaf_version :: (writeCompactSize script.length ++ script))

def computeTapbranchHash (a b : List Byte) : List Byte :=
  crypto.taggedHash (tagBytes "TapBranch")
    (if a.map BitVec.toNat < b.map BitVec.toNat then a ++ b else b ++ a)

def TAPROOT_LEAF_MASK : Byte := 0xfe#8
def TAPROOT_LEAF_TAPSCRIPT : Byte := 0xc0#8
def TAPROOT_CONTROL_BASE_SIZE : ℕ := 33
def TAPROOT_CONTROL_NODE_SIZE : ℕ := 32
def TAPROOT_CONTROL_MAX_SIZE : ℕ := TAPROOT_CONTROL_BASE_SIZE + TAPROOT_CONTROL_NODE_SIZE * 128

/-- The loop of `ComputeTaprootMerkleRoot` over the nodes that are left. -/
def taprootMerkleRootFrom : ℕ → List Byte → List Byte → List Byte
  | 0, _, k => k
  | path_len + 1, nodes, k =>
    taprootMerkleRootFrom path_len (nodes.drop TAPROOT_CONTROL_NODE_SIZE)
      (computeTapbranchHash crypto k (nodes.take TAPROOT_CONTROL_NODE_SIZE))

def computeTaprootMerkleRoot (control tapleaf_hash : List Byte) : List Byte :=
  taprootMerkleRootFrom crypto
    ((control.length - TAPROOT_CONTROL_BASE_SIZE) / TAPROOT_CONTROL_NODE_SIZE)
    (control.drop TAPROOT_CONTROL_BASE_SIZE) tapleaf_hash

def verifyTaprootCommitment (control program tapleaf_hash : List Byte) : Bool :=
  let p := (control.drop 1).take (TAPROOT_CONTROL_BASE_SIZE - 1)
  crypto.checkTapTweak program p (computeTaprootMerkleRoot crypto control tapleaf_hash)
    (control.headD 0 &&& 1#8 == 1#8)

def ANNEX_TAG : Byte := 0x50#8

/-- The script path of a Taproot spend, for the stack without the annex. -/
def verifyTaprootScriptPath (control script : ValType) (stack : List ValType)
    (witness : List ValType) (program : List Byte) (execdata : ScriptExecutionData) :
    Except ScriptFailure Unit := do
  failIf (decide (control.length < TAPROOT_CONTROL_BASE_SIZE) ||
    decide (TAPROOT_CONTROL_MAX_SIZE < control.length) ||
    (control.length - TAPROOT_CONTROL_BASE_SIZE) % TAPROOT_CONTROL_NODE_SIZE != 0)
    .taprootWrongControlSize
  let leaf_version := control.headD 0 &&& TAPROOT_LEAF_MASK
  let tapleaf_hash := computeTapleafHash crypto leaf_version script
  failIf (!verifyTaprootCommitment crypto control program tapleaf_hash) .witnessProgramMismatch
  let execdata := { execdata with m_tapleaf_hash := tapleaf_hash, m_tapleaf_hash_init := true }
  if leaf_version = TAPROOT_LEAF_TAPSCRIPT then
    executeWitnessScript crypto checker flags stack script .tapscript
      { execdata with
        m_validation_weight_left :=
          ((serVector serBytes witness).length : ℤ) + VALIDATION_WEIGHT_OFFSET
        m_validation_weight_left_init := true }
  else failIf (.DISCOURAGE_UPGRADABLE_TAPROOT_VERSION ∈ flags) .discourageUpgradableTaprootVersion

/-- A Taproot spend. -/
def verifyTaproot (witness : List ValType) (program : List Byte) : Except ScriptFailure Unit := do
  let stack := witness.reverse
  failIf stack.isEmpty .witnessProgramWitnessEmpty
  let top := stack.headD []
  let annex := decide (2 ≤ stack.length) && top.head? == some ANNEX_TAG
  let execdata : ScriptExecutionData :=
    { m_annex_init := true
      m_annex_present := annex
      m_annex_hash := if annex then (crypto.sha256 (serBytes top)).1 else [] }
  match if annex then stack.tail else stack with
  | [] => .error (.error .witnessProgramWitnessEmpty)
  | [sig] =>
    match checker.checkSchnorrSignature sig program .taproot execdata with
    | .ok () => .ok ()
    | .error serror => .error (.error serror)
  | control :: script :: stack =>
    verifyTaprootScriptPath crypto checker flags control script stack witness program execdata

/-- The script that a key hash program stands for. -/
def keyHashScript (program : List Byte) : CScript :=
  [Opcode.toByte .OP_DUP, Opcode.toByte .OP_HASH160] ++ pushData program ++
    [Opcode.toByte .OP_EQUALVERIFY, Opcode.toByte .OP_CHECKSIG]

def WITNESS_V0_SCRIPTHASH_SIZE : ℕ := 32
def WITNESS_V0_KEYHASH_SIZE : ℕ := 20
def WITNESS_V1_TAPROOT_SIZE : ℕ := 32

def verifyWitnessProgram (witness : List ValType) (witversion : ℕ) (program : List Byte)
    (is_p2sh : Bool) : Except ScriptFailure Unit :=
  if witversion = 0 then
    if program.length = WITNESS_V0_SCRIPTHASH_SIZE then
      match witness.reverse with
      | [] => .error (.error .witnessProgramWitnessEmpty)
      | exec_script :: stack => do
          failIf ((crypto.sha256 exec_script).1 != program) .witnessProgramMismatch
          executeWitnessScript crypto checker flags stack exec_script .witnessV0 {}
    else if program.length = WITNESS_V0_KEYHASH_SIZE then do
      failIf (witness.length != 2) .witnessProgramMismatch
      executeWitnessScript crypto checker flags witness.reverse (keyHashScript program) .witnessV0
        {}
    else .error (.error .witnessProgramWrongLength)
  else if witversion = 1 ∧ program.length = WITNESS_V1_TAPROOT_SIZE ∧ is_p2sh = false then
    if .TAPROOT ∉ flags then .ok () else verifyTaproot crypto checker flags witness program
  else if is_p2sh = false ∧ isPayToAnchor witversion program then .ok ()
  else failIf (.DISCOURAGE_UPGRADABLE_WITNESS_PROGRAM ∈ flags) .discourageUpgradableWitnessProgram

/-! ## Spends -/

/-- `EvalScript` on a script of a spend. -/
def evalSpendScript (stack : List ValType) (script : CScript) :
    Except ScriptFailure (List ValType) := do
  let (stack, _) ← evalScript crypto checker .base flags stack script {}
  pure stack

/-- The stack is not empty, and its top is true. -/
def checkTop (stack : List ValType) : Except ScriptFailure Unit := do
  failIf stack.isEmpty .evalFalse
  failIf (!castToBool (stack.headD [])) .evalFalse

/-- The witness program of a script, if it has one: the witness has to match it, and only the top
of the stack stays. -/
def verifyScriptWitness (witness : List ValType) (script : CScript) (malleated : Bool)
    (serror : ScriptError) (is_p2sh : Bool) (stack : List ValType) :
    Except ScriptFailure (Bool × List ValType) :=
  if .WITNESS ∈ flags then
    match isWitnessProgram script with
    | none => .ok (false, stack)
    | some (version, program) => do
        failIf malleated serror
        verifyWitnessProgram crypto checker flags witness version program is_p2sh
        -- `stack.resize(1)` keeps the bottom of the stack
        pure (true, [stack.getLastD []])
  else .ok (false, stack)

/-- The part of `VerifyScript` for the script that a script hash stands for. -/
def verifyScriptHash (scriptSig : CScript) (witness : List ValType) (stackCopy : List ValType) :
    Except ScriptFailure (Bool × List ValType) := do
  failIf (!isPushOnly scriptSig) .sigPushOnly
  assertThat (!stackCopy.isEmpty)
  let pubKey2 := stackCopy.headD []
  let stack ← evalSpendScript crypto checker flags stackCopy.tail pubKey2
  checkTop stack
  verifyScriptWitness crypto checker flags witness pubKey2 (scriptSig != pushData pubKey2)
    .witnessMalleatedP2sh true stack

/-- The last checks of `VerifyScript`. -/
def checkSpend (witness : List ValType) (hadWitness : Bool) (stack : List ValType) :
    Except ScriptFailure Unit := do
  checkIf (.CLEANSTACK ∈ flags) (do
    assertThat (.P2SH ∈ flags)
    assertThat (.WITNESS ∈ flags)
    failIf (stack.length != 1) .cleanStack)
  checkIf (.WITNESS ∈ flags) (do
    assertThat (.P2SH ∈ flags)
    failIf (!hadWitness && witness != []) .witnessUnexpected)

/-- `VerifyScript`; no witness is an empty witness. -/
def verifyScript (scriptSig scriptPubKey : CScript) (witness : List ValType) :
    Except ScriptFailure Unit := do
  failIf (.SIGPUSHONLY ∈ flags && !isPushOnly scriptSig) .sigPushOnly
  let stackCopy ← evalSpendScript crypto checker flags [] scriptSig
  let stack ← evalSpendScript crypto checker flags stackCopy scriptPubKey
  checkTop stack
  let (hadWitness, stack) ← verifyScriptWitness crypto checker flags witness scriptPubKey
    (scriptSig != []) .witnessMalleated false stack
  if .P2SH ∈ flags ∧ isPayToScriptHash scriptPubKey then do
    let (hadWitness', stack) ← verifyScriptHash crypto checker flags scriptSig witness stackCopy
    checkSpend flags witness (hadWitness || hadWitness') stack
  else checkSpend flags witness hadWitness stack

end Verification

end BitMinti.Model
