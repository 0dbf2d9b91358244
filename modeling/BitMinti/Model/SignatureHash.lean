import BitMinti.Model.SignatureCalls

/-!
# Signature hashes

`SignatureHash` and `SignatureHashSchnorr`, the data that is precomputed for a transaction, and the
cache of a signature checker.  A `HashWriter` is the list of the bytes written to it.  A 256-bit
hash is the list of its bytes.

SOURCE: src/src/script/interpreter.cpp:1243-1714, src/src/script/interpreter.h:28-40, 163-198,
254-269
-/

set_option autoImplicit false

namespace BitMinti.Model

def SIGHASH_DEFAULT : BitVec 8 := 0#8
def SIGHASH_ALL : BitVec 8 := 1#8
def SIGHASH_NONE : BitVec 32 := 2#32
def SIGHASH_SINGLE : BitVec 32 := 3#32
def SIGHASH_ANYONECANPAY : BitVec 32 := 0x80#32

/-- What a signature commits to, by its hash type. -/
def isAnyoneCanPay (nHashType : BitVec 32) : Bool := nHashType &&& SIGHASH_ANYONECANPAY != 0#32
def isHashSingle (nHashType : BitVec 32) : Bool := nHashType &&& 0x1f#32 == SIGHASH_SINGLE
def isHashNone (nHashType : BitVec 32) : Bool := nHashType &&& 0x1f#32 == SIGHASH_NONE

/-- `uint256()`. -/
def nullHash : List Byte := List.replicate 32 0#8

/-- `uint256::ONE`. -/
def oneHash : List Byte := 1#8 :: List.replicate 31 0#8

section SignatureHashes

variable (crypto : ScriptCrypto)

/-! ## Parts of a transaction -/

def prevoutsBytes (txTo : CTransaction) : List Byte :=
  txTo.vin.flatMap fun txin => txin.prevout.serialize

def sequencesBytes (txTo : CTransaction) : List Byte :=
  txTo.vin.flatMap fun txin => serWriteData32 txin.nSequence

def outputsBytes (txTo : CTransaction) : List Byte := txTo.vout.flatMap CTxOut.serialize

def spentAmountsBytes (outputs_spent : List CTxOut) : List Byte :=
  outputs_spent.flatMap fun txout => serInt64 txout.nValue

def spentScriptsBytes (outputs_spent : List CTxOut) : List Byte :=
  outputs_spent.flatMap fun txout => serBytes txout.scriptPubKey

def getPrevoutsSHA256 (txTo : CTransaction) : List Byte := (crypto.sha256 (prevoutsBytes txTo)).1

def getSequencesSHA256 (txTo : CTransaction) : List Byte := (crypto.sha256 (sequencesBytes txTo)).1

def getOutputsSHA256 (txTo : CTransaction) : List Byte := (crypto.sha256 (outputsBytes txTo)).1

/-- `SHA256Uint256`. -/
def sha256Uint256 (input : List Byte) : List Byte := (crypto.sha256 input).1

/-! ## `PrecomputedTransactionData` -/

structure PrecomputedTransactionData where
  m_prevouts_single_hash : List Byte := nullHash
  m_sequences_single_hash : List Byte := nullHash
  m_outputs_single_hash : List Byte := nullHash
  m_spent_amounts_single_hash : List Byte := nullHash
  m_spent_scripts_single_hash : List Byte := nullHash
  m_bip341_taproot_ready : Bool := false
  hashPrevouts : List Byte := nullHash
  hashSequence : List Byte := nullHash
  hashOutputs : List Byte := nullHash
  m_bip143_segwit_ready : Bool := false
  m_spent_outputs : List CTxOut := []
  m_spent_outputs_ready : Bool := false

/-- Whether an input that has a witness is taken for a Taproot spend. -/
def looksTaproot (m_spent_outputs : List CTxOut) (inpos : ℕ) : Bool :=
  match m_spent_outputs[inpos]? with
  | some txout => txout.scriptPubKey.length == 2 + WITNESS_V1_TAPROOT_SIZE &&
      txout.scriptPubKey.head? == some 0x51#8
  | none => false

/-- `PrecomputedTransactionData::Init` of a new object. -/
def PrecomputedTransactionData.init (txTo : CTransaction) (spent_outputs : List CTxOut)
    (force : Bool) : PrecomputedTransactionData :=
  let ready := !spent_outputs.isEmpty
  let witnessed := (List.range txTo.vin.length).filter fun inpos =>
    match txTo.vin[inpos]? with
    | some txin => !txin.scriptWitness.isEmpty
    | none => false
  let uses_bip341_taproot := force || witnessed.any fun inpos =>
    ready && looksTaproot spent_outputs inpos
  let uses_bip143_segwit := force || witnessed.any fun inpos =>
    !(ready && looksTaproot spent_outputs inpos)
  let data : PrecomputedTransactionData :=
    { m_spent_outputs := spent_outputs, m_spent_outputs_ready := ready }
  let data := if uses_bip143_segwit || uses_bip341_taproot then
      { data with
        m_prevouts_single_hash := getPrevoutsSHA256 crypto txTo
        m_sequences_single_hash := getSequencesSHA256 crypto txTo
        m_outputs_single_hash := getOutputsSHA256 crypto txTo }
    else data
  let data := if uses_bip143_segwit then
      { data with
        hashPrevouts := sha256Uint256 crypto data.m_prevouts_single_hash
        hashSequence := sha256Uint256 crypto data.m_sequences_single_hash
        hashOutputs := sha256Uint256 crypto data.m_outputs_single_hash
        m_bip143_segwit_ready := true }
    else data
  if uses_bip341_taproot && ready then
    { data with
      m_spent_amounts_single_hash := (crypto.sha256 (spentAmountsBytes spent_outputs)).1
      m_spent_scripts_single_hash := (crypto.sha256 (spentScriptsBytes spent_outputs)).1
      m_bip341_taproot_ready := true }
  else data

/-! ## Before witnesses -/

/-- Where `GetScriptOp` leaves the iterator if it fails: behind the opcode and the size. -/
def failedScriptOp : CScript → CScript
  | [] => []
  | opcode :: pc =>
    let sizeBytes := if opcode = OP_PUSHDATA1 then 1 else if opcode = OP_PUSHDATA2 then 2
      else if opcode = OP_PUSHDATA4 then 4 else 0
    if pc.length < sizeBytes then pc else pc.drop sizeBytes

/-- The first loop of `SerializeScriptCode`. -/
def countCodeSeparators : ℕ → CScript → ℕ
  | 0, _ => 0
  | fuel + 1, it =>
    match getScriptOp it with
    | none => 0
    | some (opcode, _, next) =>
      (if opcode = Opcode.toByte .OP_CODESEPARATOR then 1 else 0) + countCodeSeparators fuel next

/-- The second loop of `SerializeScriptCode`, with the bytes from `itBegin` and from `it` on. -/
def writeScriptCode : ℕ → CScript → CScript → List Byte
  | 0, _, _ => []
  | fuel + 1, itBegin, it =>
    match getScriptOp it with
    | none => itBegin.take (itBegin.length - (failedScriptOp it).length)
    | some (opcode, _, next) =>
      if opcode = Opcode.toByte .OP_CODESEPARATOR then
        itBegin.take (itBegin.length - next.length - 1) ++ writeScriptCode fuel next next
      else writeScriptCode fuel itBegin next

def serializeScriptCode (scriptCode : CScript) : List Byte :=
  writeCompactSize (scriptCode.length - countCodeSeparators scriptCode.length scriptCode) ++
    writeScriptCode (scriptCode.length + 1) scriptCode scriptCode

/-- `CTransactionSignatureSerializer::SerializeInput`. -/
def serializeInput (scriptCode : CScript) (txTo : CTransaction) (nIn : ℕ) (nHashType : BitVec 32)
    (nInput : ℕ) : List Byte :=
  let nInput := if isAnyoneCanPay nHashType then nIn else nInput
  match txTo.vin[nInput]? with
  | none => []
  | some txin =>
    txin.prevout.serialize ++
      (if nInput ≠ nIn then serBytes [] else serializeScriptCode scriptCode) ++
      if nInput ≠ nIn ∧ (isHashSingle nHashType || isHashNone nHashType) = true then
        serWriteData32 0#32
      else serWriteData32 txin.nSequence

/-- `CTransactionSignatureSerializer::SerializeOutput`. -/
def serializeOutput (txTo : CTransaction) (nIn : ℕ) (nHashType : BitVec 32) (nOutput : ℕ) :
    List Byte :=
  if isHashSingle nHashType = true ∧ nOutput ≠ nIn then CTxOut.serialize {}
  else
    match txTo.vout[nOutput]? with
    | none => []
    | some txout => txout.serialize

/-- `CTransactionSignatureSerializer::Serialize`. -/
def serializeForSignature (scriptCode : CScript) (txTo : CTransaction) (nIn : ℕ)
    (nHashType : BitVec 32) : List Byte :=
  let nInputs := if isAnyoneCanPay nHashType then 1 else txTo.vin.length
  let nOutputs := if isHashNone nHashType then 0
    else if isHashSingle nHashType then nIn + 1 else txTo.vout.length
  serWriteData32 txTo.version ++
    writeCompactSize nInputs ++
    (List.range nInputs).flatMap (serializeInput scriptCode txTo nIn nHashType) ++
    writeCompactSize nOutputs ++
    (List.range nOutputs).flatMap (serializeOutput txTo nIn nHashType) ++
    serWriteData32 txTo.nLockTime

/-! ## Witness version 0 -/

/-- A hash from the precomputed data, if it is ready. -/
def cachedOr (cache : Option PrecomputedTransactionData)
    (field : PrecomputedTransactionData → List Byte) (computed : List Byte) : List Byte :=
  match cache with
  | some data => if data.m_bip143_segwit_ready then field data else computed
  | none => computed

/-- What is written for a signature of witness version 0 before its hash type. -/
def serializeForWitness (scriptCode : CScript) (txTo : CTransaction) (nIn : ℕ)
    (nHashType : BitVec 32) (amount : CAmount) (cache : Option PrecomputedTransactionData) :
    List Byte :=
  let hashPrevouts := if isAnyoneCanPay nHashType then nullHash
    else cachedOr cache (·.hashPrevouts) (sha256Uint256 crypto (getPrevoutsSHA256 crypto txTo))
  let hashSequence := if isAnyoneCanPay nHashType || isHashSingle nHashType || isHashNone nHashType
    then nullHash
    else cachedOr cache (·.hashSequence) (sha256Uint256 crypto (getSequencesSHA256 crypto txTo))
  let hashOutputs := if !isHashSingle nHashType && !isHashNone nHashType then
      cachedOr cache (·.hashOutputs) (sha256Uint256 crypto (getOutputsSHA256 crypto txTo))
    else if isHashSingle nHashType then
      match txTo.vout[nIn]? with
      | some txout => crypto.hash256 txout.serialize
      | none => nullHash
    else nullHash
  match txTo.vin[nIn]? with
  | none => []
  | some txin =>
    serWriteData32 txTo.version ++ (hashPrevouts ++ (hashSequence ++ (txin.prevout.serialize ++
      (serBytes scriptCode ++ (serInt64 amount ++ (serWriteData32 txin.nSequence ++
      (hashOutputs ++ serWriteData32 txTo.nLockTime)))))))

/-! ## `SignatureHash` -/

/-- `SigHashCache`: six entries of a script and a midstate. -/
abbrev SigHashCache : Type := ℕ → Option (CScript × List Byte)

/-- `SigHashCache::CacheIndex`. -/
def cacheIndex (hash_type : BitVec 32) : ℕ :=
  3 * (isAnyoneCanPay hash_type).toNat + 2 * (isHashSingle hash_type).toNat +
    (isHashNone hash_type).toNat

/-- `SigHashCache::Load`. -/
def SigHashCache.load (cache : SigHashCache) (hash_type : BitVec 32) (script_code : CScript) :
    Option (List Byte) :=
  match cache (cacheIndex hash_type) with
  | some (script, midstate) => if script_code = script then some midstate else none
  | none => none

/-- `SigHashCache::Store`. -/
def SigHashCache.store (cache : SigHashCache) (hash_type : BitVec 32) (script_code : CScript)
    (midstate : List Byte) : SigHashCache :=
  fun i => if i = cacheIndex hash_type then some (script_code, midstate) else cache i

/-- What is written before the hash type. -/
def signatureMidstate (scriptCode : CScript) (txTo : CTransaction) (nIn : ℕ)
    (nHashType : BitVec 32) (amount : CAmount) (sigversion : SigVersion)
    (cache : Option PrecomputedTransactionData) : List Byte :=
  if sigversion = .witnessV0 then
    serializeForWitness crypto scriptCode txTo nIn nHashType amount cache
  else serializeForSignature scriptCode txTo nIn nHashType

/-- `SignatureHash`: the hash, and the cache after it if there is one. -/
def signatureHash (scriptCode : CScript) (txTo : CTransaction) (nIn : ℕ) (nHashType : BitVec 32)
    (amount : CAmount) (sigversion : SigVersion) (cache : Option PrecomputedTransactionData)
    (sighash_cache : Option SigHashCache) : List Byte × Option SigHashCache :=
  if sigversion ≠ .witnessV0 ∧ isHashSingle nHashType = true ∧ txTo.vout.length ≤ nIn then
    (oneHash, sighash_cache)
  else
    match sighash_cache.bind fun c => c.load nHashType scriptCode with
    | some midstate => (crypto.hash256 (midstate ++ serWriteData32 nHashType), sighash_cache)
    | none =>
      let ss := signatureMidstate crypto scriptCode txTo nIn nHashType amount sigversion cache
      (crypto.hash256 (ss ++ serWriteData32 nHashType),
        sighash_cache.map fun c => c.store nHashType scriptCode ss)

/-! ## `SignatureHashSchnorr` -/

/-- `HASHER_TAPSIGHASH`. -/
def hasherTapSighash : List Byte :=
  (crypto.sha256 (tagBytes "TapSighash")).1 ++ (crypto.sha256 (tagBytes "TapSighash")).1

/-- What `SignatureHashSchnorr` writes about the input. -/
def schnorrInput (tx_to : CTransaction) (in_pos : BitVec 32) (anyoneCanPay : Bool)
    (cache : PrecomputedTransactionData) : List Byte :=
  if anyoneCanPay then
    match tx_to.vin[in_pos.toNat]?, cache.m_spent_outputs[in_pos.toNat]? with
    | some txin, some spent =>
      txin.prevout.serialize ++ spent.serialize ++ serWriteData32 txin.nSequence
    | _, _ => []
  else serWriteData32 in_pos

/-- What `SignatureHashSchnorr` writes; nothing for an output that does not exist. -/
def schnorrPreimage (execdata : ScriptExecutionData) (tx_to : CTransaction) (in_pos : BitVec 32)
    (hash_type : BitVec 8) (sigversion : SigVersion) (cache : PrecomputedTransactionData) :
    Option (List Byte) :=
  let ext_flag : BitVec 8 := if sigversion = .tapscript then 1#8 else 0#8
  let output_type := if hash_type = SIGHASH_DEFAULT then SIGHASH_ALL else hash_type &&& 3#8
  let anyoneCanPay := hash_type &&& 0x80#8 == 0x80#8
  let spend_type := ext_flag * 2#8 + if execdata.m_annex_present then 1#8 else 0#8
  let single : Option (List Byte) := if output_type = 3#8 then
      tx_to.vout[in_pos.toNat]?.map fun txout => (crypto.sha256 txout.serialize).1
    else some []
  single.map fun single =>
    hasherTapSighash crypto ++ (serWriteData8 0#8 ++ (serWriteData8 hash_type ++
    (serWriteData32 tx_to.version ++ (serWriteData32 tx_to.nLockTime ++
    ((if anyoneCanPay then [] else
      cache.m_prevouts_single_hash ++ (cache.m_spent_amounts_single_hash ++
      (cache.m_spent_scripts_single_hash ++ cache.m_sequences_single_hash))) ++
    ((if output_type = SIGHASH_ALL then cache.m_outputs_single_hash else []) ++
    (serWriteData8 spend_type ++ (schnorrInput tx_to in_pos anyoneCanPay cache ++
    ((if execdata.m_annex_present then execdata.m_annex_hash else []) ++ (single ++
    if sigversion = .tapscript then
      execdata.m_tapleaf_hash ++ (serWriteData8 0#8 ++
        serWriteData32 (BitVec.ofNat 32 execdata.m_codeseparator_pos))
    else []))))))))))

/-- `SignatureHashSchnorr`, with `MissingDataBehavior::FAIL`. -/
def signatureHashSchnorr (execdata : ScriptExecutionData) (tx_to : CTransaction)
    (in_pos : BitVec 32) (hash_type : BitVec 8) (sigversion : SigVersion)
    (cache : PrecomputedTransactionData) : Option (List Byte) :=
  if !(cache.m_bip341_taproot_ready && cache.m_spent_outputs_ready) then none
  else if ¬(hash_type.toNat ≤ 0x03 ∨ (0x81 ≤ hash_type.toNat ∧ hash_type.toNat ≤ 0x83)) then none
  else (schnorrPreimage crypto execdata tx_to in_pos hash_type sigversion cache).map fun ss =>
    (crypto.sha256 ss).1

/-! ## `CheckECDSASignature` -/

/-- The hash that `CheckECDSASignature` computes for a call, if it gets that far, and the cache
after it. -/
def callSignatureHash (isValidPubKey : ValType → Bool) (txTo : CTransaction) (nIn : ℕ)
    (amount : CAmount) (txdata : Option PrecomputedTransactionData)
    (sighash_cache : Option SigHashCache) (call : EcdsaCall) :
    Option (List Byte) × Option SigHashCache :=
  match call.vchSig.getLast? with
  | none => (none, sighash_cache)
  | some nHashType =>
    if !isValidPubKey call.vchPubKey then (none, sighash_cache)
    else if call.sigversion = .witnessV0 ∧ amount < 0 then (none, sighash_cache)
    else
      let (sighash, sighash_cache) := signatureHash crypto call.scriptCode txTo nIn
        (nHashType.setWidth 32) amount call.sigversion txdata sighash_cache
      (some sighash, sighash_cache)

/-- The hashes that one checker computes for calls that come one after the other. -/
def callSignatureHashes (isValidPubKey : ValType → Bool) (txTo : CTransaction) (nIn : ℕ)
    (amount : CAmount) (txdata : Option PrecomputedTransactionData) :
    Option SigHashCache → List EcdsaCall → List (Option (List Byte))
  | _, [] => []
  | sighash_cache, call :: calls =>
    let (sighash, sighash_cache) :=
      callSignatureHash crypto isValidPubKey txTo nIn amount txdata sighash_cache call
    sighash :: callSignatureHashes isValidPubKey txTo nIn amount txdata sighash_cache calls

end SignatureHashes

end BitMinti.Model
