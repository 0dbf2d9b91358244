import BitMinti.Model.Serialize

/-!
# Scripts

The opcodes, numbers and byte strings of scripts, and the tests on a whole script.

SOURCE: src/src/script/script.h:26-620, src/src/script/script.cpp:206-420,
src/src/script/script_error.h, src/src/script/interpreter.h:42-146
-/

set_option autoImplicit false

namespace BitMinti.Model

open Computation.LittleEndian

abbrev ValType : Type := List Byte

/-! ## Limits -/

def MAX_SCRIPT_ELEMENT_SIZE : ℕ := 520
def MAX_OPS_PER_SCRIPT : ℕ := 201
def MAX_PUBKEYS_PER_MULTISIG : ℕ := 20
def MAX_STACK_SIZE : ℕ := 1000

/-! ## Opcodes -/

/-- The opcodes of `opcodetype` from `OP_1NEGATE` on, and one for all bytes without a name. -/
inductive Opcode where
  | OP_1NEGATE | OP_RESERVED
  | OP_1 | OP_2 | OP_3 | OP_4 | OP_5 | OP_6 | OP_7 | OP_8
  | OP_9 | OP_10 | OP_11 | OP_12 | OP_13 | OP_14 | OP_15 | OP_16
  | OP_NOP | OP_VER | OP_IF | OP_NOTIF | OP_VERIF | OP_VERNOTIF | OP_ELSE | OP_ENDIF
  | OP_VERIFY | OP_RETURN
  | OP_TOALTSTACK | OP_FROMALTSTACK | OP_2DROP | OP_2DUP | OP_3DUP | OP_2OVER | OP_2ROT | OP_2SWAP
  | OP_IFDUP | OP_DEPTH | OP_DROP | OP_DUP | OP_NIP | OP_OVER | OP_PICK | OP_ROLL | OP_ROT
  | OP_SWAP | OP_TUCK
  | OP_CAT | OP_SUBSTR | OP_LEFT | OP_RIGHT | OP_SIZE
  | OP_INVERT | OP_AND | OP_OR | OP_XOR | OP_EQUAL | OP_EQUALVERIFY | OP_RESERVED1 | OP_RESERVED2
  | OP_1ADD | OP_1SUB | OP_2MUL | OP_2DIV | OP_NEGATE | OP_ABS | OP_NOT | OP_0NOTEQUAL
  | OP_ADD | OP_SUB | OP_MUL | OP_DIV | OP_MOD | OP_LSHIFT | OP_RSHIFT
  | OP_BOOLAND | OP_BOOLOR | OP_NUMEQUAL | OP_NUMEQUALVERIFY | OP_NUMNOTEQUAL | OP_LESSTHAN
  | OP_GREATERTHAN | OP_LESSTHANOREQUAL | OP_GREATERTHANOREQUAL | OP_MIN | OP_MAX | OP_WITHIN
  | OP_RIPEMD160 | OP_SHA1 | OP_SHA256 | OP_HASH160 | OP_HASH256 | OP_CODESEPARATOR
  | OP_CHECKSIG | OP_CHECKSIGVERIFY | OP_CHECKMULTISIG | OP_CHECKMULTISIGVERIFY
  | OP_NOP1 | OP_CHECKLOCKTIMEVERIFY | OP_CHECKSEQUENCEVERIFY
  | OP_NOP4 | OP_NOP5 | OP_NOP6 | OP_NOP7 | OP_NOP8 | OP_NOP9 | OP_NOP10
  | OP_CHECKSIGADD
  | OP_INVALIDOPCODE
  deriving DecidableEq, Repr

/-- The opcodes from `0x4f` to `0xba`, in the order of their values. -/
def opcodeTable : List Opcode :=
  [.OP_1NEGATE, .OP_RESERVED,
    .OP_1, .OP_2, .OP_3, .OP_4, .OP_5, .OP_6, .OP_7, .OP_8,
    .OP_9, .OP_10, .OP_11, .OP_12, .OP_13, .OP_14, .OP_15, .OP_16,
    .OP_NOP, .OP_VER, .OP_IF, .OP_NOTIF, .OP_VERIF, .OP_VERNOTIF, .OP_ELSE, .OP_ENDIF,
    .OP_VERIFY, .OP_RETURN,
    .OP_TOALTSTACK, .OP_FROMALTSTACK, .OP_2DROP, .OP_2DUP, .OP_3DUP, .OP_2OVER, .OP_2ROT,
    .OP_2SWAP, .OP_IFDUP, .OP_DEPTH, .OP_DROP, .OP_DUP, .OP_NIP, .OP_OVER, .OP_PICK, .OP_ROLL,
    .OP_ROT, .OP_SWAP, .OP_TUCK,
    .OP_CAT, .OP_SUBSTR, .OP_LEFT, .OP_RIGHT, .OP_SIZE,
    .OP_INVERT, .OP_AND, .OP_OR, .OP_XOR, .OP_EQUAL, .OP_EQUALVERIFY, .OP_RESERVED1,
    .OP_RESERVED2,
    .OP_1ADD, .OP_1SUB, .OP_2MUL, .OP_2DIV, .OP_NEGATE, .OP_ABS, .OP_NOT, .OP_0NOTEQUAL,
    .OP_ADD, .OP_SUB, .OP_MUL, .OP_DIV, .OP_MOD, .OP_LSHIFT, .OP_RSHIFT,
    .OP_BOOLAND, .OP_BOOLOR, .OP_NUMEQUAL, .OP_NUMEQUALVERIFY, .OP_NUMNOTEQUAL, .OP_LESSTHAN,
    .OP_GREATERTHAN, .OP_LESSTHANOREQUAL, .OP_GREATERTHANOREQUAL, .OP_MIN, .OP_MAX, .OP_WITHIN,
    .OP_RIPEMD160, .OP_SHA1, .OP_SHA256, .OP_HASH160, .OP_HASH256, .OP_CODESEPARATOR,
    .OP_CHECKSIG, .OP_CHECKSIGVERIFY, .OP_CHECKMULTISIG, .OP_CHECKMULTISIGVERIFY,
    .OP_NOP1, .OP_CHECKLOCKTIMEVERIFY, .OP_CHECKSEQUENCEVERIFY,
    .OP_NOP4, .OP_NOP5, .OP_NOP6, .OP_NOP7, .OP_NOP8, .OP_NOP9, .OP_NOP10,
    .OP_CHECKSIGADD]

/-- The opcode of a byte above `OP_PUSHDATA4`. -/
def Opcode.ofByte (b : Byte) : Opcode := opcodeTable.getD (b.toNat - 0x4f) .OP_INVALIDOPCODE

/-- The byte of an opcode. -/
def Opcode.toByte (op : Opcode) : Byte :=
  if op = .OP_INVALIDOPCODE then 0xff#8 else BitVec.ofNat 8 (0x4f + opcodeTable.idxOf op)

def OP_0 : Byte := 0x00#8
def OP_PUSHDATA1 : Byte := 0x4c#8
def OP_PUSHDATA2 : Byte := 0x4d#8
def OP_PUSHDATA4 : Byte := 0x4e#8

def isOpSuccess (opcode : Byte) : Bool :=
  let n := opcode.toNat
  n == 80 || n == 98 || (126 ≤ n && n ≤ 129) || (131 ≤ n && n ≤ 134) || (137 ≤ n && n ≤ 138) ||
    (141 ≤ n && n ≤ 142) || (149 ≤ n && n ≤ 153) || (187 ≤ n && n ≤ 254)

/-! ## Errors -/

inductive ScriptError where
  | unknownError | evalFalse | opReturn
  | scriptSize | pushSize | opCount | stackSize | sigCount | pubkeyCount
  | verify | equalVerify | checkMultisigVerify | checkSigVerify | numEqualVerify
  | badOpcode | disabledOpcode | invalidStackOperation | invalidAltstackOperation
  | unbalancedConditional
  | negativeLocktime | unsatisfiedLocktime
  | sigHashtype | sigDer | minimalData | sigPushOnly | sigHighS | sigNullDummy | pubkeyType
  | cleanStack | minimalIf | sigNullFail
  | discourageUpgradableNops | discourageUpgradableWitnessProgram
  | discourageUpgradableTaprootVersion | discourageOpSuccess | discourageUpgradablePubkeyType
  | witnessProgramWrongLength | witnessProgramWitnessEmpty | witnessProgramMismatch
  | witnessMalleated | witnessMalleatedP2sh | witnessUnexpected | witnessPubkeyType
  | schnorrSigSize | schnorrSigHashtype | schnorrSig | taprootWrongControlSize
  | tapscriptValidationWeight | tapscriptCheckMultisig | tapscriptMinimalIf | tapscriptEmptyPubkey
  | opCodeSeparator | sigFindAndDelete
  deriving DecidableEq, Repr

/-- How a check ends that does not succeed: with an error, or at an assertion. -/
inductive ScriptFailure where
  | error (serror : ScriptError)
  | assertion
  deriving DecidableEq, Repr

/-! ## Flags -/

/-- `script_verify_flag_name`. -/
inductive ScriptVerifyFlag where
  | P2SH | STRICTENC | DERSIG | LOW_S | NULLDUMMY | SIGPUSHONLY | MINIMALDATA
  | DISCOURAGE_UPGRADABLE_NOPS | CLEANSTACK | CHECKLOCKTIMEVERIFY | CHECKSEQUENCEVERIFY | WITNESS
  | DISCOURAGE_UPGRADABLE_WITNESS_PROGRAM | MINIMALIF | NULLFAIL | WITNESS_PUBKEYTYPE
  | CONST_SCRIPTCODE | TAPROOT | DISCOURAGE_UPGRADABLE_TAPROOT_VERSION | DISCOURAGE_OP_SUCCESS
  | DISCOURAGE_UPGRADABLE_PUBKEYTYPE
  deriving DecidableEq, Repr

abbrev ScriptVerifyFlags : Type := Finset ScriptVerifyFlag

def MANDATORY_SCRIPT_VERIFY_FLAGS : ScriptVerifyFlags :=
  {.P2SH, .DERSIG, .NULLDUMMY, .CHECKLOCKTIMEVERIFY, .CHECKSEQUENCEVERIFY, .WITNESS, .TAPROOT}

def STANDARD_SCRIPT_VERIFY_FLAGS : ScriptVerifyFlags :=
  MANDATORY_SCRIPT_VERIFY_FLAGS ∪ {.STRICTENC, .MINIMALDATA, .DISCOURAGE_UPGRADABLE_NOPS,
    .CLEANSTACK, .MINIMALIF, .NULLFAIL, .LOW_S, .DISCOURAGE_UPGRADABLE_WITNESS_PROGRAM,
    .WITNESS_PUBKEYTYPE, .CONST_SCRIPTCODE, .DISCOURAGE_UPGRADABLE_TAPROOT_VERSION,
    .DISCOURAGE_OP_SUCCESS, .DISCOURAGE_UPGRADABLE_PUBKEYTYPE}

/-! ## Numbers -/

namespace CScriptNum

/-- `set_vch`: the most significant byte holds the sign. -/
def setVch (vch : ValType) : ℤ :=
  let result : ℤ := ofLE vch
  if vch.getLastD 0 &&& 0x80#8 ≠ 0 then -(result - 0x80 * 256 ^ (vch.length - 1)) else result

/-- Whether a number takes more bytes than it has to. -/
def isPadded (vch : ValType) : Bool :=
  match vch.reverse with
  | [] => false
  | back :: rest => back &&& 0x7f#8 == 0#8 && rest.head?.all fun b => b &&& 0x80#8 == 0#8

/-- `CScriptNum(vch, fRequireMinimal, nMaxNumSize)`: `EvalScript` catches what it throws. -/
def ofVch (vch : ValType) (fRequireMinimal : Bool) (nMaxNumSize : ℕ := 4) :
    Except ScriptFailure ℤ :=
  if nMaxNumSize < vch.length then .error (.error .unknownError)
  else if fRequireMinimal && isPadded vch then .error (.error .unknownError)
  else .ok (setVch vch)

def getint (value : ℤ) : ℤ := max (-2 ^ 31) (min value (2 ^ 31 - 1))

/-- The loop of `serialize` over the bytes of an `uint64_t`. -/
def absBytes : ℕ → ℕ → ValType
  | 0, _ => []
  | bytes + 1, absvalue =>
    if absvalue = 0 then [] else BitVec.ofNat 8 absvalue :: absBytes bytes (absvalue / 256)

def serialize (value : ℤ) : ValType :=
  let result := absBytes 8 value.natAbs
  match result.getLast? with
  | none => []
  | some back =>
    if back &&& 0x80#8 ≠ 0 then result ++ [if value < 0 then 0x80#8 else 0#8]
    else if value < 0 then result.dropLast ++ [back ||| 0x80#8]
    else result

end CScriptNum

def castToBool : ValType → Bool
  | [] => false
  | [b] => b != 0#8 && b != 0x80#8
  | b :: rest => b != 0#8 || castToBool rest

def checkMinimalPush (data : ValType) (opcode : Byte) : Bool :=
  match data with
  | [] => opcode == OP_0
  | [b] => !(1 ≤ b.toNat && b.toNat ≤ 16) && b != 0x81#8 && opcode == 1#8
  | _ =>
    if data.length ≤ 75 then opcode.toNat == data.length
    else if data.length ≤ 255 then opcode == OP_PUSHDATA1
    else if data.length ≤ 65535 then opcode == OP_PUSHDATA2
    else true

/-! ## Byte strings -/

def appendDataSize (size : ℕ) : CScript :=
  if size < OP_PUSHDATA1.toNat then [BitVec.ofNat 8 size]
  else if size ≤ 0xff then [OP_PUSHDATA1, BitVec.ofNat 8 size]
  else if size ≤ 0xffff then OP_PUSHDATA2 :: toLE 2 size
  else OP_PUSHDATA4 :: toLE 4 size

/-- `CScript() << b` for bytes. -/
def pushData (b : ValType) : CScript := appendDataSize b.length ++ b

def pushInt64 (n : ℤ) : CScript :=
  if n = -1 ∨ (1 ≤ n ∧ n ≤ 16) then [BitVec.ofInt 8 (n + 0x50)]
  else if n = 0 then [OP_0]
  else pushData (CScriptNum.serialize n)

/-- The data of a push whose size stands in the first bytes, and what follows. -/
def takePush (sizeBytes : ℕ) (pc : CScript) : Option (ValType × CScript) :=
  if pc.length < sizeBytes then none
  else
    let nSize := ofLE (pc.take sizeBytes)
    let pc := pc.drop sizeBytes
    if pc.length < nSize then none else some (pc.take nSize, pc.drop nSize)

/-- `GetScriptOp`: the opcode, the data it pushes and what follows. -/
def getScriptOp : CScript → Option (Byte × ValType × CScript)
  | [] => none
  | opcode :: pc =>
    if opcode.toNat < OP_PUSHDATA1.toNat then
      if pc.length < opcode.toNat then none
      else some (opcode, pc.take opcode.toNat, pc.drop opcode.toNat)
    else if opcode = OP_PUSHDATA1 then
      (takePush 1 pc).map fun (data, pc) => (opcode, data, pc)
    else if opcode = OP_PUSHDATA2 then
      (takePush 2 pc).map fun (data, pc) => (opcode, data, pc)
    else if opcode = OP_PUSHDATA4 then
      (takePush 4 pc).map fun (data, pc) => (opcode, data, pc)
    else some (opcode, [], pc)

/-- The inner loop of `FindAndDelete`: occurrences of `b` one after the other. -/
def skipOccurrences (b : CScript) : ℕ → CScript → ℕ → CScript × ℕ
  | 0, pc, nFound => (pc, nFound)
  | fuel + 1, pc, nFound =>
    if b.isPrefixOf pc then skipOccurrences b fuel (pc.drop b.length) (nFound + 1)
    else (pc, nFound)

/-- The loop of `FindAndDelete`, with the bytes from `pc2` and from `pc` on. -/
def findAndDeleteLoop (b : CScript) : ℕ → CScript → CScript → CScript → ℕ → CScript × ℕ
  | 0, pc2, _, result, nFound => (result ++ pc2, nFound)
  | fuel + 1, pc2, pc, result, nFound =>
    let result := result ++ pc2.take (pc2.length - pc.length)
    let (pc, nFound) := skipOccurrences b pc.length pc nFound
    match getScriptOp pc with
    | none => (result ++ pc, nFound)
    | some (_, _, next) => findAndDeleteLoop b fuel pc next result nFound

/-- `FindAndDelete`: what is left and the number of occurrences. -/
def findAndDelete (script b : CScript) : CScript × ℕ :=
  if b = [] then (script, 0)
  else
    let (result, nFound) := findAndDeleteLoop b (script.length + 1) script script [] 0
    (if 0 < nFound then result else script, nFound)

/-! ## Kinds of scripts -/

def decodeOpN (opcode : Byte) : ℕ := if opcode = OP_0 then 0 else opcode.toNat - 0x50

def isPayToAnchor (version : ℕ) (program : List Byte) : Bool :=
  version == 1 && program == [0x4e#8, 0x73#8]

def isPayToScriptHash (script : CScript) : Bool :=
  script.length == 23 && script[0]? == some (Opcode.toByte .OP_HASH160) &&
    script[1]? == some 0x14#8 && script[22]? == some (Opcode.toByte .OP_EQUAL)

/-- `IsWitnessProgram`: the version and the program. -/
def isWitnessProgram (script : CScript) : Option (ℕ × List Byte) :=
  if script.length < 4 ∨ 42 < script.length then none
  else
    match script with
    | op :: size :: program =>
      if op ≠ OP_0 ∧ (op.toNat < 0x51 ∨ 0x60 < op.toNat) then none
      else if size.toNat + 2 = script.length then some (decodeOpN op, program)
      else none
    | _ => none

/-- `IsPushOnly`, from `pc` on. -/
def isPushOnlyFrom : ℕ → CScript → Bool
  | 0, pc => pc.isEmpty
  | fuel + 1, pc =>
    pc.isEmpty ||
      match getScriptOp pc with
      | none => false
      | some (opcode, _, pc) => opcode.toNat ≤ 0x60 && isPushOnlyFrom fuel pc

def isPushOnly (script : CScript) : Bool := isPushOnlyFrom script.length script

end BitMinti.Model
