import BitMinti.Analysis.Interpreter

/-!
# The limits of script evaluation

Elements stay small because an opcode pushes what was there before, a hash or a number.  The
stacks and the counted operations are bounded by the checks of the loop.  Numbers are read from
four bytes, so that no assertion of the arithmetic fails.

SOURCE: src/src/script/interpreter.cpp:407-1235, src/src/script/script.h:226-393
-/

set_option autoImplicit false

namespace BitMinti.Analysis

open Computation.StateExcept Computation.LittleEndian Model Interface

/-- A failure with an error, not at an assertion. -/
def NoAssertion (e : ScriptFailure) : Prop := e ≠ .assertion

/-- All elements are within the limit. -/
def SmallElements (stack : List ValType) : Prop :=
  ∀ vch ∈ stack, vch.length ≤ MAX_SCRIPT_ELEMENT_SIZE

@[simp] theorem smallElements_nil : SmallElements [] := by simp [SmallElements]

@[simp] theorem smallElements_cons {vch : ValType} {stack : List ValType} :
    SmallElements (vch :: stack) ↔
      vch.length ≤ MAX_SCRIPT_ELEMENT_SIZE ∧ SmallElements stack := by
  simp [SmallElements]

theorem SmallElements.sub {stack kept : List ValType} (h : SmallElements stack)
    (hsub : kept ⊆ stack) : SmallElements kept :=
  fun vch hmem => h vch (hsub hmem)

/-! ## Numbers -/

theorem length_absBytes_le (bytes absvalue : ℕ) :
    (CScriptNum.absBytes bytes absvalue).length ≤ bytes := by
  induction bytes generalizing absvalue with
  | zero => exact le_rfl
  | succ bytes ih =>
    unfold CScriptNum.absBytes
    split_ifs
    · exact Nat.zero_le _
    · exact Nat.succ_le_succ (ih _)

theorem length_serialize_le (value : ℤ) :
    (CScriptNum.serialize value).length ≤ MAX_SCRIPT_ELEMENT_SIZE := by
  have hbytes := length_absBytes_le 8 value.natAbs
  have hlimit : 9 ≤ MAX_SCRIPT_ELEMENT_SIZE := by decide
  refine le_trans ?_ hlimit
  unfold CScriptNum.serialize
  dsimp only
  split
  · simp
  · split
    · rw [List.length_append, List.length_singleton]
      omega
    · split
      · rw [List.length_append, List.length_dropLast, List.length_singleton]
        omega
      · omega

theorem length_vchBool_le (b : Bool) : (vchBool b).length ≤ MAX_SCRIPT_ELEMENT_SIZE := by
  cases b <;> decide

/-- A number from at most four bytes. -/
theorem setVch_bounds {vch : ValType} (h : vch.length ≤ 4) :
    -2 ^ 32 ≤ CScriptNum.setVch vch ∧ CScriptNum.setVch vch ≤ 2 ^ 32 := by
  have hlt := ofLE_lt vch
  have hpow : 256 ^ vch.length ≤ 256 ^ 4 := Nat.pow_le_pow_right (by decide) h
  have hsign : (256 : ℤ) ^ (vch.length - 1) ≤ 256 ^ 3 :=
    pow_le_pow_right₀ (by decide) (by omega)
  have hpos : (0 : ℤ) ≤ 256 ^ (vch.length - 1) := by positivity
  unfold CScriptNum.setVch
  dsimp only
  split_ifs
  · omega
  · omega

/-- `CScriptNum(vch, fRequireMinimal)`. -/
theorem ends_ofVch (vch : ValType) (fRequireMinimal : Bool) :
    Ends NoAssertion (CScriptNum.ofVch vch fRequireMinimal) fun n => -2 ^ 32 ≤ n ∧ n ≤ 2 ^ 32 := by
  unfold CScriptNum.ofVch
  split_ifs with hlen
  · simp [NoAssertion]
  · simp [NoAssertion]
  · exact setVch_bounds (by omega)

theorem ends_ofVch_five (vch : ValType) (fRequireMinimal : Bool) :
    Ends NoAssertion (CScriptNum.ofVch vch fRequireMinimal 5) fun _ => True := by
  unfold CScriptNum.ofVch
  split_ifs <;> simp [NoAssertion]

/-! ## Operations -/

@[simp] theorem ends_failIf {b : Bool} {serror : ScriptError} {R : Unit → Prop} :
    Ends NoAssertion (failIf b serror) R ↔ (b = false → R ()) := by
  cases b <;> simp [failIf, NoAssertion]

@[simp] theorem ends_assertThat {b : Bool} {R : Unit → Prop} :
    Ends NoAssertion (assertThat b) R ↔ b = true ∧ R () := by
  cases b <;> simp [assertThat, NoAssertion]

/-- What every opcode keeps. -/
structure Sound (sigversion : SigVersion) (s : EvalState) : Prop where
  stack : SmallElements s.stack
  altstack : SmallElements s.altstack
  opCount : preTapscript sigversion = true → s.nOpCount ≤ MAX_OPS_PER_SCRIPT
  weight : sigversion = .tapscript → s.execdata.m_validation_weight_left_init = true

/-- `x` keeps the state sound and fails at no assertion. -/
def Keeps (sigversion : SigVersion) (x : EvalM Unit) : Prop :=
  ∀ s, Sound sigversion s → wp NoAssertion x (fun _ s' => Sound sigversion s') s

section Operations

variable {sigversion : SigVersion} {crypto : ScriptCrypto} {checker : SignatureChecker}
  {flags : ScriptVerifyFlags}

theorem Keeps.bind {x y : EvalM Unit} (hx : Keeps sigversion x) (hy : Keeps sigversion y) :
    Keeps sigversion (x >>= fun _ => y) := by
  intro s hs
  rw [wp_bind]
  exact wp_mono (hx s hs) fun _ s' hs' => hy s' hs'

theorem keeps_pure : Keeps sigversion (pure ()) := fun _ hs => hs

theorem keeps_setError (serror : ScriptError) : Keeps sigversion (setError serror) :=
  fun _ _ => ScriptFailure.noConfusion

theorem keeps_failIf (b : Bool) (serror : ScriptError) :
    Keeps sigversion (liftM (failIf b serror)) := by
  intro s hs
  simp [hs]

variable {s : EvalState}

theorem Sound.setStack (hs : Sound sigversion s) {stack : List ValType}
    (h : SmallElements stack) : Sound sigversion { s with stack } :=
  ⟨h, hs.altstack, hs.opCount, hs.weight⟩

theorem keeps_stackOp {op : List ValType → Option (List ValType)}
    (hop : ∀ stack stack', op stack = some stack' → SmallElements stack → SmallElements stack') :
    Keeps sigversion (stackOp op) := by
  intro s hs
  simp only [stackOp, wp_bind, wp_get]
  cases h : op s.stack with
  | none => exact ScriptFailure.noConfusion
  | some stack => exact hs.setStack (hop _ _ h hs.stack)

theorem keeps_stackTry {op : List ValType → Except ScriptFailure (List ValType)}
    (hop : ∀ stack, SmallElements stack → Ends NoAssertion (op stack) SmallElements) :
    Keeps sigversion (stackTry op) := by
  intro s hs
  simp only [stackTry, wp_bind, wp_get, wp_liftM, wp_set]
  exact ends_mono (hop s.stack hs.stack) fun stack h => hs.setStack h

theorem keeps_unaryNum {op : ℤ → Except ScriptFailure ℤ}
    (hop : ∀ n, -2 ^ 32 ≤ n → n ≤ 2 ^ 32 → Ends NoAssertion (op n) fun _ => True) :
    Keeps sigversion (unaryNum flags op) := by
  refine keeps_stackTry fun stack hstack => ?_
  cases stack with
  | nil => exact ScriptFailure.noConfusion
  | cons top stack =>
    simp only [ends_bind]
    refine ends_mono (ends_ofVch top _) fun n hn => ends_mono (hop n hn.1 hn.2) fun r _ => ?_
    exact smallElements_cons.mpr ⟨length_serialize_le r, (smallElements_cons.mp hstack).2⟩

theorem keeps_binaryNum (op : ℤ → ℤ → ℤ) : Keeps sigversion (binaryNum flags op) := by
  refine keeps_stackTry fun stack hstack => ?_
  match stack with
  | [] | [_] => exact ScriptFailure.noConfusion
  | top :: second :: rest =>
    simp only [smallElements_cons] at hstack
    simp only [ends_bind]
    refine ends_mono (ends_ofVch second _) fun n _ => ends_mono (ends_ofVch top _) fun m _ => ?_
    exact smallElements_cons.mpr ⟨length_serialize_le _, hstack.2.2⟩

theorem keeps_popVerified (serror : ScriptError) : Keeps sigversion (popVerified serror) := by
  refine keeps_stackTry fun stack hstack => ?_
  cases stack with
  | nil => exact ScriptFailure.noConfusion
  | cons top stack =>
    simp only [ends_bind, ends_failIf]
    exact fun _ => (smallElements_cons.mp hstack).2

theorem keeps_within : Keeps sigversion (within flags) := by
  refine keeps_stackTry fun stack hstack => ?_
  match stack with
  | [] | [_] | [_, _] => exact ScriptFailure.noConfusion
  | top :: second :: third :: rest =>
    simp only [smallElements_cons] at hstack
    simp only [ends_bind]
    refine ends_mono (ends_ofVch third _) fun _ _ => ends_mono (ends_ofVch second _) fun _ _ =>
      ends_mono (ends_ofVch top _) fun _ _ => ?_
    exact smallElements_cons.mpr ⟨length_vchBool_le _, hstack.2.2.2⟩

theorem keeps_pick (roll : Bool) : Keeps sigversion (pick flags roll) := by
  refine keeps_stackTry fun stack hstack => ?_
  match stack with
  | [] | [_] => exact ScriptFailure.noConfusion
  | top :: second :: rest =>
    have hbelow : SmallElements (second :: rest) := (smallElements_cons.mp hstack).2
    simp only [ends_bind, ends_failIf]
    refine ends_mono (ends_ofVch top _) fun n _ hn => ?_
    refine smallElements_cons.mpr ⟨?_, ?_⟩
    · rw [List.getD_eq_getElem?_getD]
      cases h : (second :: rest)[(CScriptNum.getint n).toNat]? with
      | none => exact Nat.zero_le _
      | some vch => exact hbelow vch (List.mem_of_getElem? h)
    · cases roll with
      | false => exact hbelow
      | true => exact hbelow.sub (List.eraseIdx_subset)

theorem keeps_unless {flag : ScriptVerifyFlag} {x : EvalM Unit} (hx : Keeps sigversion x) :
    Keeps sigversion (if flag ∉ flags then pure () else x) := by
  by_cases h : flag ∉ flags
  · rw [if_pos h]
    exact keeps_pure
  · rw [if_neg h]
    exact hx

theorem keeps_lockTimeOp (flag : ScriptVerifyFlag) (unsatisfied : ℤ → Bool) :
    Keeps sigversion (if flag ∉ flags then pure () else stackTry (lockTimeOp flags unsatisfied)) := by
  refine keeps_unless (keeps_stackTry fun stack hstack => ?_)
  cases stack with
  | nil => exact ScriptFailure.noConfusion
  | cons top stack =>
    simp only [lockTimeOp, ends_bind, ends_failIf]
    exact ends_mono (ends_ofVch_five top _) fun _ _ _ _ => hstack

theorem keeps_checkLockTimeVerify : Keeps sigversion (checkLockTimeVerify checker flags) :=
  keeps_lockTimeOp .CHECKLOCKTIMEVERIFY fun n => !checker.checkLockTime n

theorem keeps_checkSequenceVerify : Keeps sigversion (checkSequenceVerify checker flags) :=
  keeps_lockTimeOp .CHECKSEQUENCEVERIFY fun n => !n.toNat.testBit 31 && !checker.checkSequence n

theorem keeps_evalIf (fExec notIf : Bool) :
    Keeps sigversion (evalIf sigversion flags fExec notIf) := by
  intro s hs
  simp only [evalIf, wp_bind, wp_get]
  cases fExec with
  | false => exact ⟨hs.stack, hs.altstack, hs.opCount, hs.weight⟩
  | true =>
    simp only [if_true]
    split
    · rename_i vch stack hstack
      have hsmall := hs.stack
      rw [hstack, smallElements_cons] at hsmall
      simp only [wp_bind, wp_liftM, ends_failIf, wp_set]
      exact fun _ _ => ⟨hsmall.2, hs.altstack, hs.opCount, hs.weight⟩
    · exact ScriptFailure.noConfusion

theorem keeps_hashOp {hash : List Byte → List Byte}
    (h : ∀ vch, (hash vch).length ≤ MAX_SCRIPT_ELEMENT_SIZE) : Keeps sigversion (hashOp hash) := by
  refine keeps_stackOp fun stack stack' hop hstack => ?_
  cases stack with
  | nil => cases hop
  | cons vch stack =>
    cases hop
    exact smallElements_cons.mpr ⟨h vch, (smallElements_cons.mp hstack).2⟩

theorem keeps_equalOp : Keeps sigversion equalOp := by
  refine keeps_stackOp fun stack stack' hop hstack => ?_
  match stack, hop with
  | x2 :: x1 :: stack, hop =>
    cases hop
    simp only [smallElements_cons] at hstack
    exact smallElements_cons.mpr ⟨length_vchBool_le _, hstack.2.2⟩

theorem keeps_pushNum (n : ℤ) : Keeps sigversion (pushNum n) := by
  intro s hs
  exact hs.setStack (smallElements_cons.mpr ⟨length_serialize_le n, hs.stack⟩)

/-! ## Signatures -/

theorem ends_checkSignatureEncoding (vchSig : ValType) :
    Ends NoAssertion (checkSignatureEncoding crypto flags vchSig) fun _ => True := by
  unfold checkSignatureEncoding
  split_ifs
  · trivial
  · simp only [ends_bind, ends_failIf, checkIf, isLowDERSignature]
    intro _
    split_ifs <;> simp

theorem ends_checkPubKeyEncoding (vchPubKey : ValType) :
    Ends NoAssertion (checkPubKeyEncoding flags vchPubKey sigversion) fun _ => True := by
  simp [checkPubKeyEncoding]

theorem ends_evalChecksigPreTapscript (vchSig vchPubKey : ValType) (scriptCode : CScript) :
    Ends NoAssertion
      (evalChecksigPreTapscript crypto checker sigversion flags vchSig vchPubKey scriptCode)
      fun _ => True := by
  simp only [evalChecksigPreTapscript, ends_bind, ends_failIf]
  exact fun _ => ends_mono (ends_checkSignatureEncoding vchSig) fun _ _ =>
    ends_mono (ends_checkPubKeyEncoding vchPubKey) fun _ _ _ => trivial

/-- `EvalChecksig` keeps the validation weight initialised, and its assertions hold. -/
theorem ends_evalChecksig (hversion : sigversion ≠ .taproot) {execdata : ScriptExecutionData}
    (hweight : sigversion = .tapscript → execdata.m_validation_weight_left_init = true)
    (sig pubkey : ValType) (scriptCode : CScript) :
    Ends NoAssertion
      (evalChecksig crypto checker sigversion flags sig pubkey scriptCode execdata)
      fun r => sigversion = .tapscript → r.2.m_validation_weight_left_init = true := by
  cases sigversion with
  | base | witnessV0 =>
    simp only [evalChecksig, ends_bind]
    exact ends_mono (ends_evalChecksigPreTapscript sig pubkey scriptCode)
      fun _ _ h => SigVersion.noConfusion h
  | taproot => exact absurd rfl hversion
  | tapscript =>
    have hinit := hweight rfl
    have hassert : assertThat (!(sig != []) || execdata.m_validation_weight_left_init) =
        .ok () := by
      simp [assertThat, hinit]
    simp only [evalChecksig, evalChecksigTapscript, hassert, ends_bind, ends_ok, ends_failIf]
    generalize hafter : (if (sig != []) = true then _ else execdata) = after
    have hkept : after.m_validation_weight_left_init = true := by
      rw [← hafter]
      split_ifs <;> exact hinit
    intro _
    split_ifs
    · exact ScriptFailure.noConfusion
    · split
      · exact fun _ => hkept
      · exact ScriptFailure.noConfusion
    · exact fun _ => hkept
    · simp only [ends_bind, ends_failIf]
      exact fun _ _ => hkept

theorem keeps_checkSig (hversion : sigversion ≠ .taproot) :
    Keeps sigversion (checkSig crypto checker sigversion flags) := by
  intro s hs
  simp only [checkSig, wp_bind, wp_get]
  split
  · rename_i vchPubKey vchSig stack hstack
    have hsmall := hs.stack
    simp only [hstack, smallElements_cons] at hsmall
    simp only [wp_bind, wp_liftM, wp_set]
    exact ends_mono (ends_evalChecksig hversion hs.weight vchSig vchPubKey s.pbegincodehash)
      fun r hr => ⟨smallElements_cons.mpr ⟨length_vchBool_le _, hsmall.2.2⟩, hs.altstack,
        hs.opCount, hr⟩
  · exact ScriptFailure.noConfusion

theorem keeps_checkSigAdd (hversion : sigversion ≠ .taproot) :
    Keeps sigversion (checkSigAdd crypto checker sigversion flags) := by
  intro s hs
  simp only [checkSigAdd, wp_bind, wp_get, wp_liftM, ends_failIf]
  intro _
  split
  · rename_i pubkey top sig stack hstack
    have hsmall := hs.stack
    simp only [hstack, smallElements_cons] at hsmall
    simp only [wp_bind, wp_liftM, wp_set]
    refine ends_mono (ends_ofVch top _) fun num _ => ?_
    exact ends_mono (ends_evalChecksig hversion hs.weight sig pubkey s.pbegincodehash)
      fun r hr => ⟨smallElements_cons.mpr ⟨length_serialize_le _, hsmall.2.2.2⟩, hs.altstack,
        hs.opCount, hr⟩
  · exact ScriptFailure.noConfusion

theorem ends_dropSignatures (sigs : List ValType) (scriptCode : CScript) :
    Ends NoAssertion (dropSignatures sigversion flags scriptCode sigs) fun _ => True := by
  induction sigs generalizing scriptCode with
  | nil => trivial
  | cons vchSig sigs ih =>
    simp only [dropSignatures, ends_bind, ends_failIf]
    exact fun _ => ih _

theorem ends_checkMultisig (scriptCode : CScript) (sigs keys : List ValType) :
    Ends NoAssertion (checkMultisig crypto checker sigversion flags scriptCode sigs keys)
      fun _ => True := by
  induction keys generalizing sigs with
  | nil => cases sigs <;> trivial
  | cons vchPubKey keys ih =>
    cases sigs with
    | nil => trivial
    | cons vchSig sigs =>
      simp only [checkMultisig, ends_bind]
      refine ends_mono (ends_checkSignatureEncoding vchSig) fun _ _ =>
        ends_mono (ends_checkPubKeyEncoding vchPubKey) fun _ _ => ?_
      split_ifs
      · trivial
      · exact ih sigs
      · trivial
      · exact ih (vchSig :: sigs)

theorem ends_multisigOperands (nOpCount : ℕ) {stack : List ValType} (hstack : SmallElements stack) :
    Ends NoAssertion (multisigOperands flags nOpCount stack) fun r =>
      SmallElements r.1.stack ∧ r.2 ≤ MAX_OPS_PER_SCRIPT := by
  cases stack with
  | nil => exact ScriptFailure.noConfusion
  | cons top stack =>
    have hbelow := (smallElements_cons.mp hstack).2
    simp only [multisigOperands, ends_bind, ends_failIf]
    refine ends_mono (ends_ofVch top _) fun nKeys _ _ hcount => ?_
    split
    · exact ScriptFailure.noConfusion
    · rename_i top' rest hrest
      simp only [ends_bind, ends_failIf]
      refine ends_mono (ends_ofVch top' _) fun nSigs _ _ => ?_
      split
      · exact ScriptFailure.noConfusion
      · rename_i dummy below hdrop
        refine ⟨hbelow.sub fun vch hmem => ?_, by simpa using hcount⟩
        have hdropped : vch ∈ rest := List.mem_of_mem_drop (hdrop ▸ List.mem_cons_of_mem dummy hmem)
        exact List.mem_of_mem_drop (hrest ▸ List.mem_cons_of_mem top' hdropped)

theorem keeps_checkMultisigOp :
    Keeps sigversion (checkMultisigOp crypto checker sigversion flags) := by
  intro s hs
  simp only [checkMultisigOp, wp_bind, wp_get, wp_liftM, wp_set, ends_failIf]
  intro _
  refine ends_mono (ends_multisigOperands s.nOpCount hs.stack) fun r hr => ?_
  refine ends_mono (ends_dropSignatures r.1.sigs s.pbegincodehash) fun code _ => ?_
  refine ends_mono (ends_checkMultisig code r.1.sigs r.1.keys) fun fSuccess _ _ _ => ?_
  exact ⟨smallElements_cons.mpr ⟨length_vchBool_le _, hr.1⟩, hs.altstack, fun _ => hr.2, hs.weight⟩

/-! ## The switch -/

theorem keeps_evalStackOp (op : Opcode) : Keeps sigversion (evalStackOp op) := by
  cases op with
  | OP_TOALTSTACK =>
    intro s hs
    simp only [evalStackOp, wp_bind, wp_get]
    split
    · rename_i vch stack hstack
      have hsmall := hs.stack
      rw [hstack, smallElements_cons] at hsmall
      exact ⟨hsmall.2, smallElements_cons.mpr ⟨hsmall.1, hs.altstack⟩, hs.opCount, hs.weight⟩
    · exact ScriptFailure.noConfusion
  | OP_FROMALTSTACK =>
    intro s hs
    simp only [evalStackOp, wp_bind, wp_get]
    split
    · rename_i vch altstack haltstack
      have hsmall := hs.altstack
      rw [haltstack, smallElements_cons] at hsmall
      exact ⟨smallElements_cons.mpr ⟨hsmall.1, hs.stack⟩, hsmall.2, hs.opCount, hs.weight⟩
    · exact ScriptFailure.noConfusion
  | OP_DEPTH => exact fun s hs => keeps_pushNum _ s hs
  | OP_IFDUP =>
    unfold evalStackOp
    refine keeps_stackOp fun stack stack' hop hstack => ?_
    cases stack with
    | nil => cases hop
    | cons x stack =>
      cases hop
      split_ifs
      · exact smallElements_cons.mpr ⟨(smallElements_cons.mp hstack).1, hstack⟩
      · exact hstack
  | OP_SIZE =>
    unfold evalStackOp
    refine keeps_stackOp fun stack stack' hop hstack => ?_
    cases stack with
    | nil => cases hop
    | cons x stack =>
      cases hop
      exact smallElements_cons.mpr ⟨length_serialize_le _, hstack⟩
  | OP_2DROP | OP_2DUP | OP_3DUP | OP_2OVER | OP_2ROT | OP_2SWAP | OP_DROP | OP_DUP | OP_NIP
  | OP_OVER | OP_ROT | OP_SWAP | OP_TUCK =>
    -- the new stack is made of elements of the old one
    unfold evalStackOp
    refine keeps_stackOp fun stack stack' hop hstack => ?_
    split at hop <;> cases hop
    simp only [smallElements_cons] at hstack ⊢
    simp only [hstack, and_self]
  | _ => exact keeps_setError .badOpcode

theorem ends_negate {n : ℤ} (h : -2 ^ 32 ≤ n) :
    Ends NoAssertion (CScriptNum.negate n) fun _ => True := by
  simp only [CScriptNum.negate, ends_bind, ends_assertThat, bne_iff_ne]
  exact ⟨by omega, trivial⟩

theorem keeps_evalNumOp (op : Opcode) : Keeps sigversion (evalNumOp flags op) := by
  have hstack : Keeps sigversion (evalStackOp op) := keeps_evalStackOp op
  cases op with
  | OP_1ADD =>
    refine keeps_unaryNum fun n _ hn => ?_
    have hassert : n ≤ 2 ^ 63 - 1 - 1 := by omega
    simp only [CScriptNum.addAssign, ends_bind, ends_assertThat, hassert]
    exact ⟨rfl, trivial⟩
  | OP_1SUB =>
    refine keeps_unaryNum fun n hn _ => ?_
    have hassert : -2 ^ 63 + 1 ≤ n := by omega
    simp only [CScriptNum.subAssign, ends_bind, ends_assertThat, hassert]
    exact ⟨rfl, trivial⟩
  | OP_NEGATE => exact keeps_unaryNum fun n hn _ => ends_negate hn
  | OP_ABS =>
    refine keeps_unaryNum fun n hn _ => ?_
    split_ifs
    · exact ends_negate hn
    · trivial
  | OP_NOT | OP_0NOTEQUAL => exact keeps_unaryNum fun _ _ _ => trivial
  | OP_ADD | OP_SUB | OP_BOOLAND | OP_BOOLOR | OP_NUMEQUAL | OP_NUMNOTEQUAL | OP_LESSTHAN
  | OP_GREATERTHAN | OP_LESSTHANOREQUAL | OP_GREATERTHANOREQUAL | OP_MIN | OP_MAX =>
    exact keeps_binaryNum _
  | OP_NUMEQUALVERIFY => exact (keeps_binaryNum _).bind (keeps_popVerified _)
  | OP_WITHIN => exact keeps_within
  | _ => exact hstack

theorem length_hash_le {n : ℕ} (h : n ≤ MAX_SCRIPT_ELEMENT_SIZE) (hash : List.Vector Byte n) :
    hash.1.length ≤ MAX_SCRIPT_ELEMENT_SIZE := by
  rw [hash.2]
  exact h

theorem keeps_evalOpcode (hversion : sigversion ≠ .taproot) (fExec : Bool) (pc : CScript)
    (op : Opcode) :
    Keeps sigversion (evalOpcode crypto checker sigversion flags fExec pc op) := by
  have hnum : Keeps sigversion (evalNumOp flags op) := keeps_evalNumOp op
  cases op with
  | OP_1NEGATE | OP_1 | OP_2 | OP_3 | OP_4 | OP_5 | OP_6 | OP_7 | OP_8 | OP_9 | OP_10 | OP_11
  | OP_12 | OP_13 | OP_14 | OP_15 | OP_16 => exact keeps_pushNum _
  | OP_NOP => exact keeps_pure
  | OP_CHECKLOCKTIMEVERIFY => exact keeps_checkLockTimeVerify
  | OP_CHECKSEQUENCEVERIFY => exact keeps_checkSequenceVerify
  | OP_NOP1 | OP_NOP4 | OP_NOP5 | OP_NOP6 | OP_NOP7 | OP_NOP8 | OP_NOP9 | OP_NOP10 =>
    exact keeps_failIf _ _
  | OP_IF | OP_NOTIF => exact keeps_evalIf _ _
  | OP_ELSE | OP_ENDIF =>
    intro s hs
    simp only [evalOpcode, wp_bind, wp_get, wp_liftM, ends_failIf, wp_set]
    exact fun _ => ⟨hs.stack, hs.altstack, hs.opCount, hs.weight⟩
  | OP_VERIFY => exact keeps_popVerified _
  | OP_RETURN => exact keeps_setError _
  | OP_PICK | OP_ROLL => exact keeps_pick _
  | OP_EQUAL => exact keeps_equalOp
  | OP_EQUALVERIFY => exact keeps_equalOp.bind (keeps_popVerified _)
  | OP_RIPEMD160 | OP_SHA1 | OP_SHA256 | OP_HASH160 | OP_HASH256 =>
    exact keeps_hashOp fun vch => length_hash_le (by decide) _
  | OP_CODESEPARATOR => exact fun s hs => ⟨hs.stack, hs.altstack, hs.opCount, hs.weight⟩
  | OP_CHECKSIG => exact keeps_checkSig hversion
  | OP_CHECKSIGVERIFY => exact (keeps_checkSig hversion).bind (keeps_popVerified _)
  | OP_CHECKSIGADD => exact keeps_checkSigAdd hversion
  | OP_CHECKMULTISIG => exact keeps_checkMultisigOp
  | OP_CHECKMULTISIGVERIFY => exact keeps_checkMultisigOp.bind (keeps_popVerified _)
  | _ => exact hnum

theorem keeps_executeOpcode (hversion : sigversion ≠ .taproot) (fExec : Bool) (opcode : Byte)
    {vchPushValue : ValType} (hpush : vchPushValue.length ≤ MAX_SCRIPT_ELEMENT_SIZE)
    (pc : CScript) :
    Keeps sigversion
      (executeOpcode crypto checker sigversion flags fExec opcode vchPushValue pc) := by
  unfold executeOpcode
  split_ifs
  · intro s hs
    simp only [wp_bind, wp_liftM, ends_failIf, wp_modify]
    exact fun _ => hs.setStack (smallElements_cons.mpr ⟨hpush, hs.stack⟩)
  · exact keeps_pure
  · exact keeps_evalOpcode hversion fExec pc _
  · exact keeps_pure

/-! ## The loop -/

theorem Sound.within (hs : Sound sigversion s)
    (hsize : s.stack.length + s.altstack.length ≤ MAX_STACK_SIZE) : EvalLimits sigversion s where
  sizes := hsize
  elements := by
    intro vch hmem
    obtain hmem | hmem := List.mem_append.mp hmem
    · exact hs.stack vch hmem
    · exact hs.altstack vch hmem
  opCount := hs.opCount

/-- **One opcode**: it fails with an error, or leaves the variables within the limits. -/
theorem wp_evalInstruction (hversion : sigversion ≠ .taproot) (opcode : Byte)
    (vchPushValue : ValType) (pc : CScript) (hs : Sound sigversion s) :
    wp NoAssertion (evalInstruction crypto checker sigversion flags opcode vchPushValue pc)
      (fun _ s' => Sound sigversion s' ∧ EvalLimits sigversion s') s := by
  simp only [evalInstruction, wp_bind, wp_get, wp_liftM, ends_failIf, wp_modify, wp_set,
    decide_eq_false_iff_not, not_lt]
  intro hpush hcount _ _
  refine wp_mono (keeps_executeOpcode hversion _ opcode hpush pc _
    ⟨hs.stack, hs.altstack, ?_, hs.weight⟩) fun _ s' hs' hsize => ?_
  · intro hpre
    have hold := hs.opCount hpre
    simp only [hpre, Bool.true_and, Bool.and_eq_false_iff, decide_eq_false_iff_not] at hcount ⊢
    split_ifs with hop
    · obtain hcount | hcount := hcount
      · exact absurd (by simpa using hop) hcount
      · omega
    · exact hold
  · have hafter : Sound sigversion { s' with opcode_pos := s'.opcode_pos + 1 } :=
      ⟨hs'.stack, hs'.altstack, hs'.opCount, hs'.weight⟩
    exact ⟨hafter, hafter.within hsize⟩

theorem wp_evalLoop (hversion : sigversion ≠ .taproot) (fuel : ℕ) (pc : CScript)
    (hs : Sound sigversion s) :
    wp NoAssertion (evalLoop crypto checker sigversion flags fuel pc)
      (fun _ s' => Sound sigversion s') s := by
  induction fuel generalizing pc s with
  | zero =>
    cases pc with
    | nil => exact hs
    | cons b bs => exact ScriptFailure.noConfusion
  | succ fuel ih =>
    cases pc with
    | nil => exact hs
    | cons b bs =>
      unfold evalLoop
      cases getScriptOp (b :: bs) with
      | none => exact ScriptFailure.noConfusion
      | some r =>
        rw [wp_bind]
        exact wp_mono (wp_evalInstruction hversion r.1 r.2.1 r.2.2 hs) fun _ s' hs' =>
          ih r.2.2 hs'.1

theorem length_takePush {sizeBytes : ℕ} {pc next : CScript} {vch : ValType}
    (h : takePush sizeBytes pc = some (vch, next)) : next.length ≤ pc.length := by
  unfold takePush at h
  dsimp only at h
  split_ifs at h
  cases h
  rw [List.length_drop, List.length_drop]
  omega

/-- Every opcode takes a byte or more. -/
theorem length_getScriptOp {pc next : CScript} {opcode : Byte} {vch : ValType}
    (h : getScriptOp pc = some (opcode, vch, next)) : next.length < pc.length := by
  have hpush : ∀ {sizeBytes : ℕ} {first : Byte} {rest : CScript},
      ((takePush sizeBytes rest).map fun x => (first, x.1, x.2)) =
        some (opcode, vch, next) → next.length < (first :: rest).length := by
    intro sizeBytes first rest h
    obtain ⟨⟨data, pc⟩, htake, hr⟩ := Option.map_eq_some_iff.mp h
    cases hr
    exact Nat.lt_succ_of_le (length_takePush htake)
  cases pc with
  | nil => cases h
  | cons first rest =>
    simp only [getScriptOp] at h
    split_ifs at h
    · cases h
      rw [List.length_drop, List.length_cons]
      omega
    · exact hpush h
    · exact hpush h
    · exact hpush h
    · cases h
      exact Nat.lt_succ_self _

/-- The loop ends by itself: more rounds than there are bytes change nothing. -/
theorem evalLoop_fuel (fuel : ℕ) (pc : CScript) (h : pc.length ≤ fuel) :
    evalLoop crypto checker sigversion flags fuel pc =
      evalLoop crypto checker sigversion flags pc.length pc := by
  suffices hboth : ∀ (n m : ℕ) (pc : CScript), pc.length ≤ n → pc.length ≤ m →
      evalLoop crypto checker sigversion flags n pc =
        evalLoop crypto checker sigversion flags m pc from hboth _ _ pc h le_rfl
  intro n
  induction n with
  | zero =>
    intro m pc hn _
    obtain rfl := List.length_eq_zero_iff.mp (Nat.le_zero.mp hn)
    cases m <;> rfl
  | succ n ih =>
    intro m pc hn hm
    cases pc with
    | nil => cases m <;> rfl
    | cons b bs =>
      obtain ⟨m, rfl⟩ : ∃ k, m = k + 1 := ⟨m - 1, by simp at hm; omega⟩
      unfold evalLoop
      cases hop : getScriptOp (b :: bs) with
      | none => rfl
      | some r =>
        obtain ⟨opcode, vch, next⟩ := r
        have hshort := length_getScriptOp hop
        have hnext := ih m next (Nat.le_of_lt_succ (hshort.trans_le hn))
          (Nat.le_of_lt_succ (hshort.trans_le hm))
        simp only [hnext]

theorem sound_of_reaches (hversion : sigversion ≠ .taproot) {a b : CScript × EvalState}
    (ha : Sound sigversion a.2)
    (h : Relation.TransGen (EvalStep crypto checker sigversion flags) a b) :
    Sound sigversion b.2 ∧ EvalLimits sigversion b.2 := by
  have hstep : ∀ {c d : CScript × EvalState}, Sound sigversion c.2 →
      EvalStep crypto checker sigversion flags c d →
      Sound sigversion d.2 ∧ EvalLimits sigversion d.2 := by
    rintro c d hc ⟨opcode, vch, -, heval⟩
    exact wp_ok (wp_evalInstruction hversion opcode vch d.1 hc) heval
  induction h with
  | single h => exact hstep ha h
  | tail _ h ih => exact hstep ih.1 h

end Operations

/-- **`EvalScript` stays within its limits.**  After every opcode that does not fail, the stacks,
their elements and the counted operations are within the limits.  The loop ends by itself.
Whatever fails, fails with an error and not at an assertion. -/
theorem evalScript_limits (crypto : ScriptCrypto) (checker : SignatureChecker)
    (sigversion : SigVersion) (flags : ScriptVerifyFlags) (stack : List ValType) (script : CScript)
    (execdata : ScriptExecutionData) (hversion : sigversion ≠ .taproot)
    (hstack : ∀ vch ∈ stack, vch.length ≤ MAX_SCRIPT_ELEMENT_SIZE)
    (hexecdata : sigversion = .tapscript → execdata.m_validation_weight_left_init = true) :
    (∀ pc s, Relation.TransGen (EvalStep crypto checker sigversion flags)
        (script, evalStart stack script execdata) (pc, s) → EvalLimits sigversion s) ∧
      (∀ fuel, script.length ≤ fuel → evalLoop crypto checker sigversion flags fuel script =
        evalLoop crypto checker sigversion flags script.length script) ∧
      evalScript crypto checker sigversion flags stack script execdata ≠ .error .assertion := by
  have hstart : Sound sigversion (evalStart stack script execdata) :=
    ⟨hstack, smallElements_nil, fun _ => Nat.zero_le _, hexecdata⟩
  refine ⟨fun pc s h => (sound_of_reaches hversion hstart h).2,
    fun fuel h => evalLoop_fuel fuel script h, ?_⟩
  have hends : Ends NoAssertion (evalScript crypto checker sigversion flags stack script execdata)
      fun _ => True := by
    have hloop : wp NoAssertion (evalLoop crypto checker sigversion flags script.length script)
        (fun _ s => Sound sigversion s) (evalStart stack script execdata) :=
      wp_evalLoop hversion script.length script hstart
    simp only [evalScript, ends_bind, ends_assertThat, bne_iff_ne, ends_failIf]
    refine ⟨hversion, fun _ => ?_⟩
    change Ends NoAssertion (evalLoop crypto checker sigversion flags script.length script
      (evalStart stack script execdata)) _
    unfold wp at hloop
    split at hloop
    · rename_i a s hok
      simp only [hok, ends_ok]
      exact fun _ => trivial
    · rename_i e herror
      rw [herror]
      exact hloop
  intro h
  rw [h] at hends
  exact hends rfl

/-- The variables after a script that pushes one number. -/
def afterOne : EvalState :=
  { evalStart [] [0x51#8] {} with stack := [[1#8]], opcode_pos := 1 }

theorem evalScript_limits_one :
    EvalLimits .base afterOne ∧
      evalScript zeroCrypto baseChecker .base ∅ [] [0x51#8] {} ≠ .error .assertion := by
  obtain ⟨hlimits, -, hassert⟩ := evalScript_limits zeroCrypto baseChecker .base ∅ []
    [0x51#8] {} (by decide) (by simp) (by decide)
  have hstep : EvalStep zeroCrypto baseChecker .base ∅ ([0x51#8], evalStart [] [0x51#8] {})
      ([], afterOne) := ⟨0x51#8, [], rfl, rfl⟩
  exact ⟨hlimits [] afterOne (.single hstep), hassert⟩

end BitMinti.Analysis
