import BitMinti.Analysis.Serialize
import BitMinti.Analysis.SignatureHash

/-!
# What signature hashes commit to

What is hashed parses in one way, so that two equal hashes are of equal parts unless a hash function
has a collision.  No function to 32 bytes is injective; what is asked for is that SHA256 has no
collision among the strings that are hashed for the two signatures.

SOURCE: src/src/script/interpreter.cpp:1482-1570, 1599-1677
-/

set_option autoImplicit false

namespace BitMinti.Analysis

open Model Computation.Reading Computation.LittleEndian

/-! ## Parsing the parts -/

/-- Bytes whose number a `size_t` holds. -/
def IsVector (v : List Byte) : Prop := v.length < 2 ^ 64

instance (v : List Byte) : Decidable (IsVector v) := inferInstanceAs (Decidable (_ < _))

/-- An output whose amount is an `int64_t`. -/
structure IsTxOut (txout : CTxOut) : Prop where
  value : IsInt64 txout.nValue
  script : IsVector txout.scriptPubKey

variable {r r' : List Byte}

theorem serWriteData8_inj {a a' : BitVec 8}
    (h : serWriteData8 a ++ r = serWriteData8 a' ++ r') : a = a' ∧ r = r' :=
  serReadData8_codec.selfDelimiting trivial trivial h

theorem serWriteData32_inj {a a' : BitVec 32}
    (h : serWriteData32 a ++ r = serWriteData32 a' ++ r') : a = a' ∧ r = r' :=
  serReadData32_codec.selfDelimiting trivial trivial h

theorem serOutPoint_inj {a a' : COutPoint}
    (h : a.serialize ++ r = a'.serialize ++ r') : a = a' ∧ r = r' :=
  COutPoint.unserialize_codec.selfDelimiting trivial trivial h

theorem serBytes_selfDelimiting : SelfDelimiting serBytes IsVector := by
  intro a a' ha ha' r r' h
  rw [serBytes, serBytes, List.append_assoc, List.append_assoc] at h
  obtain ⟨hlength, h⟩ := (readCompactSize_codec false).selfDelimiting ⟨ha, Bool.noConfusion⟩
    ⟨ha', Bool.noConfusion⟩ h
  exact List.append_inj h hlength

theorem serTxOut_selfDelimiting : SelfDelimiting CTxOut.serialize IsTxOut := by
  rintro ⟨value, script⟩ ⟨value', script'⟩ ha ha' r r' h
  rw [CTxOut.serialize, CTxOut.serialize, List.append_assoc, List.append_assoc] at h
  obtain ⟨hvalue, h⟩ := unserInt64_codec.selfDelimiting ha.value ha'.value h
  obtain ⟨hscript, h⟩ := serBytes_selfDelimiting ha.script ha'.script h
  exact ⟨congrArg₂ CTxOut.mk hvalue hscript, h⟩

theorem serWriteData_ne_nil {n w : ℕ} (obj : BitVec w) : serWriteData (n + 1) obj ≠ [] :=
  List.cons_ne_nil _ _

theorem serBytes_ne_nil (v : List Byte) : serBytes v ≠ [] := by
  intro h
  obtain ⟨hsize, -⟩ := List.append_eq_nil_iff.mp h
  unfold writeCompactSize at hsize
  split_ifs at hsize <;> exact List.cons_ne_nil _ _ hsize

variable {tx tx' : CTransaction}

theorem prevouts_of_bytes (h : prevoutsBytes tx = prevoutsBytes tx') :
    tx.vin.map CTxIn.prevout = tx'.vin.map CTxIn.prevout := by
  refine COutPoint.unserialize_codec.selfDelimiting.flatMap
    (fun a _ hnil => serWriteData_ne_nil a.hash (List.append_eq_nil_iff.mp hnil).1)
    (fun _ _ => trivial) (fun _ _ => trivial) ?_
  rw [List.flatMap_map, List.flatMap_map]
  exact h

theorem sequences_of_bytes (h : sequencesBytes tx = sequencesBytes tx') :
    tx.vin.map CTxIn.nSequence = tx'.vin.map CTxIn.nSequence := by
  refine serReadData32_codec.selfDelimiting.flatMap (fun a _ => serWriteData_ne_nil a)
    (fun _ _ => trivial) (fun _ _ => trivial) ?_
  rw [List.flatMap_map, List.flatMap_map]
  exact h

theorem outputs_of_bytes (htx : ∀ txout ∈ tx.vout, IsTxOut txout)
    (htx' : ∀ txout ∈ tx'.vout, IsTxOut txout) (h : outputsBytes tx = outputsBytes tx') :
    tx.vout = tx'.vout :=
  serTxOut_selfDelimiting.flatMap
    (fun _ _ hnil => serWriteData_ne_nil _ (List.append_eq_nil_iff.mp hnil).1) htx htx' h

theorem spentAmounts_of_bytes {spent spent' : List CTxOut} (hs : ∀ txout ∈ spent, IsTxOut txout)
    (hs' : ∀ txout ∈ spent', IsTxOut txout)
    (h : spentAmountsBytes spent = spentAmountsBytes spent') :
    spent.map CTxOut.nValue = spent'.map CTxOut.nValue := by
  refine unserInt64_codec.selfDelimiting.flatMap (fun _ _ => serWriteData_ne_nil _)
    (List.forall_mem_map.mpr fun txout hmem => (hs txout hmem).value)
    (List.forall_mem_map.mpr fun txout hmem => (hs' txout hmem).value) ?_
  rw [List.flatMap_map, List.flatMap_map]
  exact h

theorem spentScripts_of_bytes {spent spent' : List CTxOut} (hs : ∀ txout ∈ spent, IsTxOut txout)
    (hs' : ∀ txout ∈ spent', IsTxOut txout)
    (h : spentScriptsBytes spent = spentScriptsBytes spent') :
    spent.map CTxOut.scriptPubKey = spent'.map CTxOut.scriptPubKey := by
  refine serBytes_selfDelimiting.flatMap (fun v _ => serBytes_ne_nil v)
    (List.forall_mem_map.mpr fun txout hmem => (hs txout hmem).script)
    (List.forall_mem_map.mpr fun txout hmem => (hs' txout hmem).script) ?_
  rw [List.flatMap_map, List.flatMap_map]
  exact h

/-! ## Transactions that agree -/

/-- What the two transactions of equal hashes have in common. -/
structure TxAgree (tx tx' : CTransaction) : Prop where
  version : tx.version = tx'.version
  nLockTime : tx.nLockTime = tx'.nLockTime
  prevouts : tx.vin.map CTxIn.prevout = tx'.vin.map CTxIn.prevout
  sequences : tx.vin.map CTxIn.nSequence = tx'.vin.map CTxIn.nSequence
  outputs : tx.vout = tx'.vout

/-- SHA256 has no collision among some strings. -/
def CollisionFree (crypto : ScriptCrypto) (hashed : List (List Byte)) : Prop :=
  ∀ x ∈ hashed, ∀ y ∈ hashed, crypto.sha256 x = crypto.sha256 y → x = y

theorem CollisionFree.eq {crypto : ScriptCrypto} {hashed hashed' : List (List Byte)}
    (h : CollisionFree crypto (hashed ++ hashed')) {x y : List Byte} (hx : x ∈ hashed)
    (hy : y ∈ hashed') (heq : (crypto.sha256 x).1 = (crypto.sha256 y).1) : x = y :=
  h x (List.mem_append_left _ hx) y (List.mem_append_right _ hy) (Subtype.ext heq)

/-- Two strings at the same place. -/
theorem CollisionFree.eq_at {crypto : ScriptCrypto} {hashed hashed' : List (List Byte)}
    (h : CollisionFree crypto (hashed ++ hashed')) (n : ℕ) {x y : List Byte}
    (hx : hashed[n]? = some x) (hy : hashed'[n]? = some y) :
    (crypto.sha256 x).1 = (crypto.sha256 y).1 → x = y :=
  h.eq (List.mem_of_getElem? hx) (List.mem_of_getElem? hy)

section Signing

variable {crypto : ScriptCrypto}

theorem length_sha256 (x : List Byte) : (crypto.sha256 x).1.length = 32 := (crypto.sha256 x).2

/-- Two hashes at the front of two equal strings. -/
theorem sha256_inj {x y r r' : List Byte}
    (h : (crypto.sha256 x).1 ++ r = (crypto.sha256 y).1 ++ r') :
    (crypto.sha256 x).1 = (crypto.sha256 y).1 ∧ r = r' :=
  List.append_inj h (by rw [length_sha256, length_sha256])

/-! ## Witness version 0 -/

/-- The arguments of `SignatureHash` for a signature of witness version 0, with the values that
their types have. -/
structure WitnessSigning where
  scriptCode : CScript
  txTo : CTransaction
  nIn : ℕ
  amount : CAmount
  txin : CTxIn
  signed : txTo.vin[nIn]? = some txin
  amount_int64 : IsInt64 amount
  scriptCode_size : IsVector scriptCode
  outputs : ∀ txout ∈ txTo.vout, IsTxOut txout

variable (crypto) in
/-- The hash for `SIGHASH_ALL`. -/
def WitnessSigning.hash (a : WitnessSigning) : List Byte :=
  (signatureHash crypto a.scriptCode a.txTo a.nIn (SIGHASH_ALL.setWidth 32) a.amount .witnessV0 none
    none).1

variable (crypto) in
/-- What is hashed at last. -/
def WitnessSigning.preimage (a : WitnessSigning) : List Byte :=
  serializeForWitness crypto a.scriptCode a.txTo a.nIn (SIGHASH_ALL.setWidth 32) a.amount none ++
    serWriteData32 (SIGHASH_ALL.setWidth 32)

variable (crypto) in
/-- The strings that are hashed twice. -/
def WitnessSigning.parts (a : WitnessSigning) : List (List Byte) :=
  [prevoutsBytes a.txTo, sequencesBytes a.txTo, outputsBytes a.txTo, a.preimage crypto]

variable (crypto) in
/-- All strings that are hashed on the way. -/
def WitnessSigning.hashed (a : WitnessSigning) : List (List Byte) :=
  a.parts crypto ++ (a.parts crypto).map fun x => (crypto.sha256 x).1

structure WitnessAgree (a b : WitnessSigning) : Prop where
  tx : TxAgree a.txTo b.txTo
  prevout : a.txin.prevout = b.txin.prevout
  nSequence : a.txin.nSequence = b.txin.nSequence
  scriptCode : a.scriptCode = b.scriptCode
  amount : a.amount = b.amount

theorem WitnessSigning.preimage_eq (a : WitnessSigning) :
    a.preimage crypto = serWriteData32 a.txTo.version ++
      (sha256Uint256 crypto (getPrevoutsSHA256 crypto a.txTo) ++
      (sha256Uint256 crypto (getSequencesSHA256 crypto a.txTo) ++
      (a.txin.prevout.serialize ++ (serBytes a.scriptCode ++ (serInt64 a.amount ++
      (serWriteData32 a.txin.nSequence ++ (sha256Uint256 crypto (getOutputsSHA256 crypto a.txTo) ++
      (serWriteData32 a.txTo.nLockTime ++ serWriteData32 (SIGHASH_ALL.setWidth 32))))))))) := by
  have hall : isAnyoneCanPay (SIGHASH_ALL.setWidth 32) = false ∧
      isHashSingle (SIGHASH_ALL.setWidth 32) = false ∧
      isHashNone (SIGHASH_ALL.setWidth 32) = false := by decide
  simp only [preimage, serializeForWitness, hall, a.signed, cachedOr, Bool.false_eq_true, if_false,
    Bool.or_false, Bool.not_false, Bool.and_self, if_true, List.append_assoc]

/-- Two rounds of SHA256. -/
theorem parts_inj {a b : WitnessSigning}
    (hno : CollisionFree crypto (a.hashed crypto ++ b.hashed crypto)) (n : ℕ) {x y : List Byte}
    (hx : (a.parts crypto)[n]? = some x) (hy : (b.parts crypto)[n]? = some y)
    (heq : crypto.hash256 x = crypto.hash256 y) : x = y := by
  have hx := List.mem_of_getElem? hx
  have hy := List.mem_of_getElem? hy
  exact hno.eq (List.mem_append_left _ hx) (List.mem_append_left _ hy)
    (hno.eq (List.mem_append_right _ (List.mem_map_of_mem hx))
      (List.mem_append_right _ (List.mem_map_of_mem hy)) heq)

theorem witnessAgree_of_hash {a b : WitnessSigning}
    (hno : CollisionFree crypto (a.hashed crypto ++ b.hashed crypto))
    (h : a.hash crypto = b.hash crypto) : WitnessAgree a b := by
  have hpreimage : a.preimage crypto = b.preimage crypto :=
    parts_inj hno 3 rfl rfl h
  rw [WitnessSigning.preimage_eq, WitnessSigning.preimage_eq] at hpreimage
  obtain ⟨hversion, hpreimage⟩ := serWriteData32_inj hpreimage
  obtain ⟨hprevouts, hpreimage⟩ := sha256_inj hpreimage
  obtain ⟨hsequences, hpreimage⟩ := sha256_inj hpreimage
  obtain ⟨hprevout, hpreimage⟩ := serOutPoint_inj hpreimage
  obtain ⟨hscript, hpreimage⟩ :=
    serBytes_selfDelimiting a.scriptCode_size b.scriptCode_size hpreimage
  obtain ⟨hamount, hpreimage⟩ :=
    unserInt64_codec.selfDelimiting a.amount_int64 b.amount_int64 hpreimage
  obtain ⟨hsequence, hpreimage⟩ := serWriteData32_inj hpreimage
  obtain ⟨houtputs, hpreimage⟩ := sha256_inj hpreimage
  obtain ⟨hlockTime, -⟩ := serWriteData32_inj hpreimage
  exact {
    tx := {
      version := hversion
      nLockTime := hlockTime
      prevouts := prevouts_of_bytes (parts_inj hno 0 rfl rfl hprevouts)
      sequences := sequences_of_bytes (parts_inj hno 1 rfl rfl hsequences)
      outputs := outputs_of_bytes a.outputs b.outputs (parts_inj hno 2 rfl rfl houtputs) }
    prevout := hprevout
    nSequence := hsequence
    scriptCode := hscript
    amount := hamount }

/-! ## Taproot -/

variable (crypto) in
/-- The arguments of `SignatureHashSchnorr` for `SIGHASH_DEFAULT` or `SIGHASH_ALL`, with the values
that their types have and the annex whose hash `VerifyWitnessProgram` stores. -/
structure TaprootSigning where
  execdata : ScriptExecutionData
  tx_to : CTransaction
  in_pos : BitVec 32
  hash_type : BitVec 8
  sigversion : SigVersion
  spent_outputs : List CTxOut
  force : Bool
  annex : Option ValType
  whole : hash_type = SIGHASH_DEFAULT ∨ hash_type = SIGHASH_ALL
  version : sigversion = .taproot ∨ sigversion = .tapscript
  annex_present : execdata.m_annex_present = annex.isSome
  annex_hash : ∀ v ∈ annex, execdata.m_annex_hash = (crypto.sha256 (serBytes v)).1
  annex_size : ∀ v ∈ annex, IsVector v
  tapleaf_size : sigversion = .tapscript → execdata.m_tapleaf_hash.length = 32
  codeseparator_uint32 : execdata.m_codeseparator_pos < 2 ^ 32
  outputs : ∀ txout ∈ tx_to.vout, IsTxOut txout
  spent : ∀ txout ∈ spent_outputs, IsTxOut txout

namespace TaprootSigning

/-- The precomputed data. -/
def data (a : TaprootSigning crypto) : PrecomputedTransactionData :=
  .init crypto a.tx_to a.spent_outputs a.force

/-- The hash, if there is one. -/
def hash (a : TaprootSigning crypto) : Option (List Byte) :=
  signatureHashSchnorr crypto a.execdata a.tx_to a.in_pos a.hash_type a.sigversion a.data

/-- What is written about the script. -/
def scriptPart (a : TaprootSigning crypto) : List Byte :=
  if a.sigversion = .tapscript then
    a.execdata.m_tapleaf_hash ++ (serWriteData8 0#8 ++
      serWriteData32 (BitVec.ofNat 32 a.execdata.m_codeseparator_pos))
  else []

/-- What is written about the annex and the script. -/
def tail (a : TaprootSigning crypto) : List Byte :=
  (if a.execdata.m_annex_present then a.execdata.m_annex_hash else []) ++ a.scriptPart

/-- The byte that says which parts the tail has. -/
def spendType (a : TaprootSigning crypto) : BitVec 8 :=
  (if a.sigversion = .tapscript then 1#8 else 0#8) * 2#8 +
    if a.execdata.m_annex_present then 1#8 else 0#8

/-- What is hashed at last. -/
def preimage (a : TaprootSigning crypto) : List Byte :=
  hasherTapSighash crypto ++ (serWriteData8 0#8 ++ (serWriteData8 a.hash_type ++
    (serWriteData32 a.tx_to.version ++ (serWriteData32 a.tx_to.nLockTime ++
    (getPrevoutsSHA256 crypto a.tx_to ++ ((crypto.sha256 (spentAmountsBytes a.spent_outputs)).1 ++
    ((crypto.sha256 (spentScriptsBytes a.spent_outputs)).1 ++ (getSequencesSHA256 crypto a.tx_to ++
    (getOutputsSHA256 crypto a.tx_to ++
    (serWriteData8 a.spendType ++ (serWriteData32 a.in_pos ++ a.tail)))))))))))

/-- All strings that are hashed on the way. -/
def hashed (a : TaprootSigning crypto) : List (List Byte) :=
  prevoutsBytes a.tx_to :: spentAmountsBytes a.spent_outputs :: spentScriptsBytes a.spent_outputs ::
    sequencesBytes a.tx_to :: outputsBytes a.tx_to :: a.preimage :: a.annex.toList.map serBytes

end TaprootSigning

structure TaprootAgree (a b : TaprootSigning crypto) : Prop where
  tx : TxAgree a.tx_to b.tx_to
  in_pos : a.in_pos = b.in_pos
  amounts : a.spent_outputs.map CTxOut.nValue = b.spent_outputs.map CTxOut.nValue
  scripts : a.spent_outputs.map CTxOut.scriptPubKey = b.spent_outputs.map CTxOut.scriptPubKey
  annex : a.annex = b.annex
  sigversion : a.sigversion = b.sigversion
  tapleaf : a.sigversion = .tapscript → a.execdata.m_tapleaf_hash = b.execdata.m_tapleaf_hash
  codeseparator : a.sigversion = .tapscript →
    a.execdata.m_codeseparator_pos = b.execdata.m_codeseparator_pos

/-- The hash is that of the preimage. -/
theorem TaprootSigning.hash_eq {a : TaprootSigning crypto} {digest : List Byte}
    (h : a.hash = some digest) : digest = (crypto.sha256 a.preimage).1 := by
  unfold TaprootSigning.hash signatureHashSchnorr at h
  split_ifs at h with hready htype
  have hready : a.data.m_bip341_taproot_ready = true := by
    rw [Bool.not_eq_true, Bool.not_eq_false', Bool.and_eq_true] at hready
    exact hready.1
  obtain ⟨hprevouts, hsequences, houtputs, hamounts, hscripts⟩ :=
    (init_ready _ _).2 hready
  obtain ⟨ss, hss, rfl⟩ := Option.map_eq_some_iff.mp h
  refine congrArg (fun x => (crypto.sha256 x).1) (Option.some_injective _ (hss.symm.trans ?_))
  have houtput : (if a.hash_type = SIGHASH_DEFAULT then SIGHASH_ALL else a.hash_type &&& 3#8) =
      SIGHASH_ALL := by
    obtain hdefault | hall := a.whole
    · rw [if_pos hdefault]
    · rw [hall]
      decide
  have hinput : (a.hash_type &&& 0x80#8 == 0x80#8) = false := by
    obtain hdefault | hall := a.whole
    · rw [hdefault]
      decide
    · rw [hall]
      decide
  have hsingle : SIGHASH_ALL ≠ 3#8 := by decide
  simp only [schnorrPreimage, houtput, hinput, hsingle, if_false, Option.map_some, if_true,
    Bool.false_eq_true, schnorrInput, List.nil_append, List.append_assoc]
  rw [data, hprevouts, hsequences, houtputs, hamounts, hscripts]
  rfl

section Pair

variable {a b : TaprootSigning crypto}

theorem spendType_inj (h : a.spendType = b.spendType) :
    a.sigversion = b.sigversion ∧ a.annex.isSome = b.annex.isSome := by
  unfold TaprootSigning.spendType at h
  rw [a.annex_present, b.annex_present] at h
  generalize a.annex.isSome = annex at h ⊢
  generalize b.annex.isSome = annex' at h ⊢
  obtain ha | ha := a.version <;> obtain hb | hb := b.version <;> rw [ha, hb] at h ⊢ <;>
    revert h <;> cases annex <;> cases annex' <;> decide

theorem scriptPart_inj (hversion : a.sigversion = b.sigversion) (htap : a.sigversion = .tapscript)
    (h : a.scriptPart = b.scriptPart) :
    a.execdata.m_tapleaf_hash = b.execdata.m_tapleaf_hash ∧
      a.execdata.m_codeseparator_pos = b.execdata.m_codeseparator_pos := by
  rw [TaprootSigning.scriptPart, TaprootSigning.scriptPart, if_pos htap,
    if_pos (hversion.symm.trans htap)] at h
  have hlength : a.execdata.m_tapleaf_hash.length = b.execdata.m_tapleaf_hash.length := by
    rw [a.tapleaf_size htap, b.tapleaf_size (hversion.symm.trans htap)]
  obtain ⟨htapleaf, h⟩ := List.append_inj h hlength
  obtain ⟨-, h⟩ := serWriteData8_inj h
  obtain ⟨hpos, -⟩ := serWriteData32_inj (congrArg (· ++ []) h)
  have hnat := congrArg BitVec.toNat hpos
  rw [BitVec.toNat_ofNat, BitVec.toNat_ofNat, Nat.mod_eq_of_lt a.codeseparator_uint32,
    Nat.mod_eq_of_lt b.codeseparator_uint32] at hnat
  exact ⟨htapleaf, hnat⟩

/-- The annex at the front of the tail. -/
theorem annex_of_tail (hno : CollisionFree crypto (a.hashed ++ b.hashed))
    (hannex : a.annex.isSome = b.annex.isSome) (h : a.tail = b.tail) :
    a.annex = b.annex ∧ a.scriptPart = b.scriptPart := by
  unfold TaprootSigning.tail at h
  rw [a.annex_present, b.annex_present] at h
  cases ha : a.annex with
  | none =>
    have hb : b.annex = none := by
      rw [ha] at hannex
      exact Option.not_isSome_iff_eq_none.mp (Bool.eq_false_iff.mp hannex.symm)
    rw [ha, hb] at h
    exact ⟨hb.symm, h⟩
  | some v =>
    obtain ⟨w, hb⟩ : ∃ w, b.annex = some w := by
      rw [ha] at hannex
      exact Option.isSome_iff_exists.mp hannex.symm
    rw [ha, hb, Option.isSome_some, Option.isSome_some, if_pos rfl, if_pos rfl, a.annex_hash v ha,
      b.annex_hash w hb] at h
    obtain ⟨hhash, hrest⟩ := sha256_inj h
    have hbytes : serBytes v = serBytes w :=
      hno.eq (by simp [TaprootSigning.hashed, ha]) (by simp [TaprootSigning.hashed, hb]) hhash
    obtain ⟨rfl, -⟩ := serBytes_selfDelimiting (a.annex_size v ha) (b.annex_size w hb)
      (congrArg (· ++ []) hbytes)
    exact ⟨hb.symm, hrest⟩

theorem taprootAgree_of_hash {digest : List Byte}
    (hno : CollisionFree crypto (a.hashed ++ b.hashed)) (ha : a.hash = some digest)
    (hb : b.hash = some digest) : TaprootAgree a b := by
  have hpreimage : a.preimage = b.preimage :=
    hno.eq_at 5 rfl rfl ((TaprootSigning.hash_eq ha).symm.trans (TaprootSigning.hash_eq hb))
  unfold TaprootSigning.preimage at hpreimage
  obtain ⟨-, hpreimage⟩ := List.append_inj hpreimage rfl
  obtain ⟨-, hpreimage⟩ := serWriteData8_inj hpreimage
  obtain ⟨-, hpreimage⟩ := serWriteData8_inj hpreimage
  obtain ⟨hversion, hpreimage⟩ := serWriteData32_inj hpreimage
  obtain ⟨hlockTime, hpreimage⟩ := serWriteData32_inj hpreimage
  obtain ⟨hprevouts, hpreimage⟩ := sha256_inj hpreimage
  obtain ⟨hamounts, hpreimage⟩ := sha256_inj hpreimage
  obtain ⟨hscripts, hpreimage⟩ := sha256_inj hpreimage
  obtain ⟨hsequences, hpreimage⟩ := sha256_inj hpreimage
  obtain ⟨houtputs, hpreimage⟩ := sha256_inj hpreimage
  obtain ⟨hspend, hpreimage⟩ := serWriteData8_inj hpreimage
  obtain ⟨hpos, htail⟩ := serWriteData32_inj hpreimage
  obtain ⟨hsigversion, hpresent⟩ := spendType_inj hspend
  obtain ⟨hannex, hscript⟩ := annex_of_tail hno hpresent htail
  exact {
    tx := {
      version := hversion
      nLockTime := hlockTime
      prevouts := prevouts_of_bytes (hno.eq_at 0 rfl rfl hprevouts)
      sequences := sequences_of_bytes (hno.eq_at 3 rfl rfl hsequences)
      outputs := outputs_of_bytes a.outputs b.outputs (hno.eq_at 4 rfl rfl houtputs) }
    in_pos := hpos
    amounts := spentAmounts_of_bytes a.spent b.spent (hno.eq_at 1 rfl rfl hamounts)
    scripts := spentScripts_of_bytes a.spent b.spent (hno.eq_at 2 rfl rfl hscripts)
    annex := hannex
    sigversion := hsigversion
    tapleaf := fun htap => (scriptPart_inj hsigversion htap hscript).1
    codeseparator := fun htap => (scriptPart_inj hsigversion htap hscript).2 }

end Pair

end Signing

/-- **Signature hashes commit to the transaction.**  Two equal hashes of witness version 0 for
`SIGHASH_ALL`, or of Taproot for `SIGHASH_DEFAULT` or `SIGHASH_ALL`, are for the same data. -/
theorem signatureHash_commits (crypto : ScriptCrypto) :
    (∀ a b : WitnessSigning, CollisionFree crypto (a.hashed crypto ++ b.hashed crypto) →
      a.hash crypto = b.hash crypto → WitnessAgree a b) ∧
    (∀ a b : TaprootSigning crypto, CollisionFree crypto (a.hashed ++ b.hashed) →
      ∀ digest, a.hash = some digest → b.hash = some digest → TaprootAgree a b) :=
  ⟨fun _ _ hno h => witnessAgree_of_hash hno h,
    fun _ _ hno _ ha hb => taprootAgree_of_hash hno ha hb⟩

/-- A hash function with few collisions: the digits of a string, modulo `2 ^ 256`. -/
def digitCrypto : ScriptCrypto where
  ripemd160 _ := List.Vector.replicate 20 0#8
  sha1 _ := List.Vector.replicate 20 0#8
  sha256 x := ⟨toLE 32 (x.foldl (fun n b => n * 257 + b.toNat + 1) 0), length_toLE 32 _⟩
  checkLowS _ := true
  checkTapTweak _ _ _ _ := true

/-- A transaction with some witness. -/
def witnessedTx (scriptWitness : List (List Byte)) : CTransaction where
  vin := [{ prevout := { hash := 7#256, n := 1#32 }, scriptWitness }]
  vout := [{ nValue := 5, scriptPubKey := [0x51#8] }]
  version := 2#32
  nLockTime := 0#32

theorem witnessedTx_outputs (scriptWitness : List (List Byte)) :
    ∀ txout ∈ (witnessedTx scriptWitness).vout, IsTxOut txout :=
  List.forall_mem_singleton.2 ⟨⟨by decide, by decide⟩, by decide⟩

def witnessedSigning (scriptWitness : List (List Byte)) : WitnessSigning where
  scriptCode := [0xac#8]
  txTo := witnessedTx scriptWitness
  nIn := 0
  amount := 9
  txin := { prevout := { hash := 7#256, n := 1#32 }, scriptWitness }
  signed := rfl
  amount_int64 := ⟨by decide, by decide⟩
  scriptCode_size := by decide
  outputs := witnessedTx_outputs scriptWitness

def tapscriptSigning (scriptWitness : List (List Byte)) : TaprootSigning digitCrypto where
  execdata :=
    { m_annex_present := true
      m_annex_hash := (digitCrypto.sha256 (serBytes [ANNEX_TAG])).1
      m_tapleaf_hash := oneHash }
  tx_to := witnessedTx scriptWitness
  in_pos := 0#32
  hash_type := SIGHASH_DEFAULT
  sigversion := .tapscript
  spent_outputs := [{ nValue := 9, scriptPubKey := [0x51#8] }]
  force := true
  annex := some [ANNEX_TAG]
  whole := .inl rfl
  version := .inr rfl
  annex_present := rfl
  annex_hash := fun v hv => by cases hv; rfl
  annex_size := fun v hv => by cases hv; decide
  tapleaf_size := fun _ => by decide
  codeseparator_uint32 := by decide
  outputs := witnessedTx_outputs scriptWitness
  spent := List.forall_mem_singleton.2 ⟨⟨by decide, by decide⟩, by decide⟩

/-- The witness itself is not signed. -/
theorem signatureHash_commits_witnessed :
    WitnessAgree (witnessedSigning []) (witnessedSigning [[1#8]]) ∧
      TaprootAgree (tapscriptSigning []) (tapscriptSigning [[1#8]]) := by
  have hwitness : CollisionFree digitCrypto ((witnessedSigning []).hashed digitCrypto ++
      (witnessedSigning [[1#8]]).hashed digitCrypto) := by
    unfold CollisionFree
    decide +kernel
  have htaproot : CollisionFree digitCrypto
      ((tapscriptSigning []).hashed ++ (tapscriptSigning [[1#8]]).hashed) := by
    unfold CollisionFree
    decide +kernel
  exact ⟨(signatureHash_commits digitCrypto).1 _ _ hwitness rfl,
    (signatureHash_commits digitCrypto).2 _ _ htaproot
      (digitCrypto.sha256 (tapscriptSigning []).preimage).1 rfl rfl⟩

end BitMinti.Analysis
