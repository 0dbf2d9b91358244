import BitMinti.Model.Interpreter

/-!
# What scripts may do

A flag is a soft fork: it takes spends away and adds none.  An evaluation is a run of steps, one for
each opcode, and its variables stay within limits.
-/

set_option autoImplicit false

namespace BitMinti.Interface

open Model

/-- **The requirements of the code on a set of flags**: a clean stack needs script hashes
and witnesses, and witnesses need script hashes. -/
structure FlagsAllowed (flags : ScriptVerifyFlags) : Prop where
  cleanStack : .CLEANSTACK ∈ flags → .P2SH ∈ flags ∧ .WITNESS ∈ flags
  witness : .WITNESS ∈ flags → .P2SH ∈ flags

/-- A spend: the scripts and the witness. -/
structure Spend where
  scriptSig : CScript
  scriptPubKey : CScript
  witness : List ValType
  deriving DecidableEq, Repr

/-- The spends that `VerifyScript` accepts. -/
def acceptedSpends (crypto : ScriptCrypto) (checker : SignatureChecker)
    (flags : ScriptVerifyFlags) : Set Spend :=
  fun spend => verifyScript crypto checker flags spend.scriptSig spend.scriptPubKey spend.witness =
    .ok ()

/-! ## Evaluations -/

section Evaluations

variable (crypto : ScriptCrypto) (checker : SignatureChecker) (sigversion : SigVersion)
  (flags : ScriptVerifyFlags)

/-- One opcode that does not fail: what is left of the script, and the variables. -/
def EvalStep (before after : CScript × EvalState) : Prop :=
  ∃ opcode vchPushValue, getScriptOp before.1 = some (opcode, vchPushValue, after.1) ∧
    evalInstruction crypto checker sigversion flags opcode vchPushValue after.1 before.2 =
      .ok ((), after.2)

/-- The variables at the start of `EvalScript`. -/
def evalStart (stack : List ValType) (script : CScript) (execdata : ScriptExecutionData) :
    EvalState where
  stack := stack
  pbegincodehash := script
  execdata := { execdata with
    m_codeseparator_pos := 0xffffffff
    m_codeseparator_pos_init := true }

end Evaluations

/-- **The limits of an evaluation.** -/
structure EvalLimits (sigversion : SigVersion) (s : EvalState) : Prop where
  sizes : s.stack.length + s.altstack.length ≤ MAX_STACK_SIZE
  elements : ∀ vch ∈ s.stack ++ s.altstack, vch.length ≤ MAX_SCRIPT_ELEMENT_SIZE
  opCount : preTapscript sigversion = true → s.nOpCount ≤ MAX_OPS_PER_SCRIPT

end BitMinti.Interface
