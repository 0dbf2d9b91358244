import BitMinti.Model.Serialize

/-!
# What is written is read back, and nothing else is

Every reader of the serialization code belongs to a writer.  For a transaction this needs a look
at the marker of the extended format: an empty vector of inputs and a flag, which a transaction
without inputs and outputs shares with it.
-/

set_option autoImplicit false

namespace BitMinti.Analysis

open Model Computation.Reading Computation.LittleEndian Computation.StateExcept

/-! ## Numbers -/

theorem readBytes_codec (n : ℕ) : Codec (readBytes n) (fun bs => bs) (·.length = n) :=
  takeN_codec endOfData n

theorem serReadData_codec {n w : ℕ} (hw : w = 8 * n) :
    Codec (serReadData n w) (serWriteData n) (fun _ => True) := by
  have hpow : 2 ^ w = 256 ^ n := by
    rw [hw, Nat.pow_mul]
  refine (readBytes_codec n).map (fun bs => BitVec.ofNat w (ofLE bs)) (serWriteData n)
    (fun _ _ => trivial) (fun x _ => length_toLE n x.toNat) (fun bs hbs => ?_) fun x _ => ?_
  · have hlt := ofLE_lt bs
    rw [serWriteData, BitVec.toNat_ofNat, Nat.mod_eq_of_lt (by rwa [hpow, ← hbs]), ← hbs]
    exact toLE_ofLE bs
  · have hlt := x.isLt
    apply BitVec.eq_of_toNat_eq
    rw [serWriteData, ofLE_toLE (by rwa [← hpow]), BitVec.toNat_ofNat, Nat.mod_eq_of_lt hlt]

theorem serReadData8_codec : Codec serReadData8 serWriteData8 (fun _ => True) :=
  serReadData_codec rfl

theorem serReadData16_codec : Codec serReadData16 serWriteData16 (fun _ => True) :=
  serReadData_codec rfl

theorem serReadData32_codec : Codec serReadData32 serWriteData32 (fun _ => True) :=
  serReadData_codec rfl

theorem serReadData64_codec : Codec serReadData64 serWriteData64 (fun _ => True) :=
  serReadData_codec rfl

theorem unserUint256_codec : Codec unserUint256 serUint256 (fun _ => True) :=
  serReadData_codec rfl

/-- The numbers of an `int64_t`. -/
def IsInt64 (n : ℤ) : Prop := -2 ^ 63 ≤ n ∧ n < 2 ^ 63

theorem unserInt64_codec : Codec unserInt64 serInt64 IsInt64 := by
  refine serReadData64_codec.map BitVec.toInt (BitVec.ofInt 64) (fun x _ => ?_) (fun _ _ => trivial)
    (fun x _ => BitVec.ofInt_toInt) fun n hn => ?_
  · have h₁ := BitVec.le_toInt x
    have h₂ := BitVec.toInt_lt (x := x)
    exact ⟨by simpa using h₁, by simpa using h₂⟩
  · obtain ⟨hlo, hhi⟩ := hn
    rw [BitVec.toInt_ofInt]
    apply Int.bmod_eq_of_le
    · norm_num at hlo ⊢
      exact hlo
    · norm_num at hhi ⊢
      exact hhi

/-! ## Sizes -/

/-- The sizes a reader accepts. -/
def SizeOk (range_check : Bool) (n : ℕ) : Prop :=
  n < 2 ^ 64 ∧ (range_check = true → n ≤ MAX_SIZE)

theorem readLongSize_codec {w least : ℕ} {read : StreamM (BitVec w)}
    {write : BitVec w → List Byte} (h : Codec read write (fun _ => True)) :
    Codec (readLongSize read least) (fun n => write (BitVec.ofNat w n))
      (fun n => least ≤ n ∧ n < 2 ^ w) := by
  have hto : ∀ n, n < 2 ^ w → (BitVec.ofNat w n).toNat = n := by
    intro n hn
    rw [BitVec.toNat_ofNat, Nat.mod_eq_of_lt hn]
  refine h.refuse (fun x => x.toNat < least) _ BitVec.toNat (BitVec.ofNat w)
    (fun x _ hx => ⟨Nat.not_lt.mp hx, x.isLt⟩) (fun n hn => ⟨trivial, ?_⟩)
    (fun x _ => BitVec.eq_of_toNat_eq (hto _ x.isLt)) fun n hn => hto n hn.2
  rw [hto n hn.2]
  exact Nat.not_lt.mpr hn.1

theorem writeCompactSize_eq {n : ℕ} (hn : n < 2 ^ 64) :
    ∃ chSize bytes, writeCompactSize n = serWriteData8 chSize ++ bytes ∧
      Reads (readSizeForm chSize) bytes n := by
  unfold writeCompactSize
  split
  · rename_i hsmall
    have hto : (BitVec.ofNat 8 n).toNat = n := by
      rw [BitVec.toNat_ofNat]
      omega
    refine ⟨BitVec.ofNat 8 n, [], (List.append_nil _).symm, ?_⟩
    rw [readSizeForm, hto, if_pos hsmall]
    exact Reads.pure n
  split
  · exact ⟨_, _, rfl, (readLongSize_codec serReadData16_codec).reads n ⟨by omega, by omega⟩⟩
  split
  · exact ⟨_, _, rfl, (readLongSize_codec serReadData32_codec).reads n ⟨by omega, by omega⟩⟩
  · exact ⟨_, _, rfl, (readLongSize_codec serReadData64_codec).reads n ⟨by omega, by omega⟩⟩

theorem readSizeForm_exact (chSize : BitVec 8) (s : List Byte) :
    wp (fun _ => True) (readSizeForm chSize)
      (fun n rest => n < 2 ^ 64 ∧ serWriteData8 chSize ++ s = writeCompactSize n ++ rest) s := by
  have hbyte := chSize.isLt
  unfold readSizeForm
  split
  · rename_i hsmall
    refine ⟨by omega, ?_⟩
    rw [writeCompactSize, if_pos hsmall, BitVec.ofNat_toNat, BitVec.setWidth_eq]
  split
  · rename_i hmark
    refine wp_mono ((readLongSize_codec serReadData16_codec).exact s) fun n rest h => ?_
    obtain ⟨⟨hle, hlt⟩, rfl⟩ := h
    refine ⟨by omega, ?_⟩
    rw [writeCompactSize, if_neg (by omega), if_pos (by omega), hmark, List.append_assoc]
  split
  · rename_i hmark
    refine wp_mono ((readLongSize_codec serReadData32_codec).exact s) fun n rest h => ?_
    obtain ⟨⟨hle, hlt⟩, rfl⟩ := h
    refine ⟨by omega, ?_⟩
    rw [writeCompactSize, if_neg (by omega), if_neg (by omega), if_pos (by omega), hmark,
      List.append_assoc]
  · rename_i hnot hnot₃ hnot₄
    refine wp_mono ((readLongSize_codec serReadData64_codec).exact s) fun n rest h => ?_
    obtain ⟨⟨hle, hlt⟩, rfl⟩ := h
    have hmark : chSize = 255#8 := by
      have h₃ : chSize.toNat ≠ 253 := fun h => hnot₃ (BitVec.eq_of_toNat_eq h)
      have h₄ : chSize.toNat ≠ 254 := fun h => hnot₄ (BitVec.eq_of_toNat_eq h)
      apply BitVec.eq_of_toNat_eq
      rw [BitVec.toNat_ofNat]
      omega
    refine ⟨hlt, ?_⟩
    rw [writeCompactSize, if_neg (by omega), if_neg (by omega), if_neg (by omega), hmark,
      List.append_assoc]

/-- **Sizes have one encoding each.** -/
theorem readCompactSize_codec (range_check : Bool) :
    Codec (readCompactSize range_check) writeCompactSize (SizeOk range_check) where
  reads n hn := by
    obtain ⟨chSize, bytes, hwrite, hread⟩ := writeCompactSize_eq hn.1
    have hrange : ¬(range_check && decide (n > MAX_SIZE)) = true := by
      cases range_check with
      | false => simp
      | true => simpa using hn.2 rfl
    rw [hwrite]
    refine (serReadData8_codec.reads chSize trivial).bind (hread.bind_nil ?_)
    rw [if_neg hrange]
    exact Reads.pure n
  exact s := by
    simp only [readCompactSize, wp_bind]
    refine wp_mono (serReadData8_codec.exact s) fun chSize s₁ h₁ => ?_
    obtain ⟨-, rfl⟩ := h₁
    refine wp_mono (readSizeForm_exact chSize s₁) fun n rest h => ?_
    split
    · trivial
    · rename_i hrange
      refine ⟨⟨h.1, fun hcheck => ?_⟩, h.2⟩
      simpa [hcheck] using hrange

/-! ## Vectors -/

/-- Bytes that fit into a vector. -/
def FitsVector {α : Type} (v : List α) : Prop := SizeOk true v.length

theorem unserBytes_codec : Codec unserBytes serBytes FitsVector := by
  have h := (readCompactSize_codec true).counted (y := readBytes) (Q := fun _ => True)
    fun n => ⟨fun bs hbs => (readBytes_codec n).reads bs hbs.1,
      fun s => wp_mono ((readBytes_codec n).exact s) fun bs rest hbs => ⟨⟨hbs.1, trivial⟩, hbs.2⟩⟩
  exact ⟨fun v hv => h.reads v ⟨hv, trivial⟩,
    fun s => wp_mono (h.exact s) fun v rest hv => ⟨hv.1.1, hv.2⟩⟩

theorem unserVector_codec {α : Type} {unser : StreamM α} {ser : α → List Byte} {P : α → Prop}
    (h : Codec unser ser P) :
    Codec (unserVector unser) (serVector ser) (fun v => FitsVector v ∧ ∀ a ∈ v, P a) :=
  (readCompactSize_codec true).counted h.many

/-! ## Variable-length numbers -/

/-- A digit is read onto the number made of the digits before it; in front of more
digits one is added. -/
theorem readVarIntLoop_digit {max n : ℕ} (tmp rest : List Byte)
    (hn : n ≤ max ∧ (tmp ≠ [] → n < max)) :
    readVarIntLoop max (n / 128)
      (BitVec.ofNat 8 (n % 128 + if tmp.isEmpty then 0 else 128) :: tmp ++ rest) =
        if tmp = [] then .ok (n, rest) else readVarIntLoop max (n + 1) (tmp ++ rest) := by
  have hle : ¬n / 128 > max / 128 := Nat.not_lt.mpr (Nat.div_le_div_right hn.1)
  have hjoin : n / 128 * 128 + n % 128 = n := Nat.div_add_mod' n 128
  cases tmp with
  | nil =>
    have hbyte : (BitVec.ofNat 8 (n % 128 + 0)).toNat = n % 128 := by
      rw [BitVec.toNat_ofNat]
      omega
    simp only [List.isEmpty_nil, if_true, List.cons_append, readVarIntLoop, if_neg hle, hbyte,
      Nat.mod_mod, hjoin]
    rw [if_neg (by omega)]
    rfl
  | cons b tmp =>
    have hbyte : (BitVec.ofNat 8 (n % 128 + 128)).toNat = n % 128 + 128 := by
      rw [BitVec.toNat_ofNat]
      omega
    have hlow : (n % 128 + 128) % 128 = n % 128 := by omega
    have hne : n ≠ max := (hn.2 (by simp)).ne
    simp only [List.isEmpty_cons, Bool.false_eq_true, if_false, List.cons_append,
      readVarIntLoop, if_neg hle, hbyte, hlow, hjoin, reduceCtorEq, if_neg hne]
    rw [if_pos (by omega)]

/-- The digits of a number are read up to the bytes behind them, by induction over the
digits. -/
theorem readVarIntLoop_write {max n : ℕ} (tmp rest : List Byte)
    (hn : n ≤ max ∧ (tmp ≠ [] → n < max)) :
    readVarIntLoop max 0 (writeVarIntLoop n tmp ++ rest) =
      if tmp = [] then .ok (n, rest) else readVarIntLoop max (n + 1) (tmp ++ rest) := by
  induction n using Nat.strong_induction_on generalizing tmp with
  | _ n ih =>
    have hdigit := readVarIntLoop_digit tmp rest hn
    rw [writeVarIntLoop]
    by_cases hsmall : n ≤ 0x7F
    · rw [if_pos hsmall]
      rwa [Nat.div_eq_of_lt (by omega)] at hdigit
    · rw [if_neg hsmall]
      have hrest := ih (n / 128 - 1) (by omega)
        (BitVec.ofNat 8 (n % 128 + if tmp.isEmpty then 0 else 128) :: tmp)
        ⟨by omega, fun _ => by omega⟩
      rw [if_neg (List.cons_ne_nil _ _), Nat.sub_add_cancel (by omega)] at hrest
      rw [hrest, hdigit]

/-- **Variable-length numbers are read back.** -/
theorem reads_writeVarInt {max n : ℕ} (hn : n ≤ max) :
    Reads (readVarInt max) (writeVarInt n) n := by
  intro rest
  have h := readVarIntLoop_write [] rest ⟨hn, fun h => absurd rfl h⟩
  rw [if_pos rfl] at h
  exact h

/-- The bytes `done` stand for `n` where digits follow: they are written in front of them. -/
def InHand (done : List Byte) (n : ℕ) : Prop :=
  ∀ d < 128, ∀ tmp, writeVarIntLoop (n * 128 + d) tmp =
    done ++ BitVec.ofNat 8 (d + if tmp.isEmpty then 0 else 128) :: tmp

section InHand

variable {done : List Byte} {n : ℕ}

theorem InHand.nil : InHand [] 0 := by
  intro d hd tmp
  rw [Nat.zero_mul, Nat.zero_add, writeVarIntLoop, if_pos (by omega), Nat.mod_eq_of_lt hd]
  rfl

theorem InHand.step (h : InHand done n) {b : Byte} (hb : 128 ≤ b.toNat) :
    InHand (done ++ [b]) (n * 128 + b.toNat % 128 + 1) := by
  intro d hd tmp
  have hbyte : BitVec.ofNat 8 (b.toNat % 128 + 128) = b := by
    apply BitVec.eq_of_toNat_eq
    have hlt := b.isLt
    rw [BitVec.toNat_ofNat]
    omega
  rw [writeVarIntLoop, if_neg (by omega),
    show ((n * 128 + b.toNat % 128 + 1) * 128 + d) / 128 - 1 = n * 128 + b.toNat % 128 by omega,
    show ((n * 128 + b.toNat % 128 + 1) * 128 + d) % 128 = d by omega,
    h _ (Nat.mod_lt _ (by omega)), List.append_assoc]
  exact congrArg (done ++ · :: _) hbyte

theorem InHand.last (h : InHand done n) {b : Byte} (hb : b.toNat < 128) :
    writeVarInt (n * 128 + b.toNat) = done ++ [b] := by
  have hwrite := h b.toNat hb []
  rwa [List.isEmpty_nil, if_pos rfl, Nat.add_zero, BitVec.ofNat_toNat, BitVec.setWidth_eq]
    at hwrite

/-- **What is read is what is written for it.**  The induction is on the bytes left. -/
theorem InHand.exact (h : InHand done n) {max v : ℕ} (hmax : max % 128 = 127) {s rest : List Byte}
    (hread : readVarIntLoop max n s = .ok (v, rest)) :
    v ≤ max ∧ done ++ s = writeVarInt v ++ rest := by
  induction s generalizing done n with
  | nil => cases hread
  | cons b s ih =>
    simp only [readVarIntLoop] at hread
    split_ifs at hread with hn hb
    · have hrest := ih (h.step hb) hread
      rwa [List.append_assoc] at hrest
    · rw [Nat.mod_eq_of_lt (Nat.not_le.mp hb)] at hread
      cases hread
      rw [h.last (Nat.not_le.mp hb), List.append_assoc]
      exact ⟨by omega, rfl⟩

end InHand

theorem readVarInt_codec {max : ℕ} (hmax : max % 128 = 127) :
    Codec (readVarInt max) writeVarInt (· ≤ max) where
  reads n hn := reads_writeVarInt hn
  exact s := by
    unfold wp
    cases h : readVarInt max s with
    | error e => trivial
    | ok r => exact InHand.nil.exact hmax h

/-- The number that the bytes of `init`, each with its highest bit set, and `last` stand for. -/
def varIntValue (init : List Byte) (last : Byte) : ℕ :=
  init.foldl (fun n b => n * 128 + b.toNat % 128 + 1) 0 * 128 + last.toNat

theorem writeVarInt_varIntValue {init : List Byte} (hinit : ∀ b ∈ init, 128 ≤ b.toNat)
    {last : Byte} (hlast : last.toNat < 128) :
    writeVarInt (varIntValue init last) = init ++ [last] := by
  refine InHand.last ?_ hlast
  induction init using List.reverseRecOn with
  | nil => exact .nil
  | append_singleton init b ih =>
    obtain ⟨hinit, hb⟩ := List.forall_mem_append.mp hinit
    rw [List.foldl_append]
    exact (ih hinit).step (hb b (List.mem_singleton_self b))

/-- **`CompactSize` and `VarInt` are canonical codes**: what is written is read back whatever
follows, and what is read is what is written for it.  Every terminated byte string whose number
fits the type is a `VarInt`.
SOURCE: src/src/serialize.h:288-462 -/
theorem sizes_and_varInts_canonical :
    (∀ range_check, Codec (readCompactSize range_check) writeCompactSize (SizeOk range_check)) ∧
    ∀ w, 7 ≤ w → Codec (readVarInt (2 ^ w - 1)) writeVarInt (· ≤ 2 ^ w - 1) ∧
      ∀ (init : List Byte) (last : Byte), (∀ b ∈ init, 128 ≤ b.toNat) → last.toNat < 128 →
        varIntValue init last ≤ 2 ^ w - 1 →
        Reads (readVarInt (2 ^ w - 1)) (init ++ [last]) (varIntValue init last) ∧
          writeVarInt (varIntValue init last) = init ++ [last] := by
  refine ⟨readCompactSize_codec, fun w hw => ?_⟩
  have hmax : (2 ^ w - 1) % 128 = 127 := by
    obtain ⟨k, rfl⟩ := Nat.exists_eq_add_of_le hw
    rw [Nat.pow_add]
    have := Nat.two_pow_pos k
    omega
  refine ⟨readVarInt_codec hmax, fun init last hinit hlast hfits => ?_⟩
  have hwrite := writeVarInt_varIntValue hinit hlast
  exact ⟨hwrite ▸ reads_writeVarInt hfits, hwrite⟩

/-! ## The parts of a transaction -/

theorem COutPoint.unserialize_codec :
    Codec COutPoint.unserialize COutPoint.serialize (fun _ => True) :=
  unserUint256_codec.record serReadData32_codec COutPoint.mk COutPoint.hash COutPoint.n
    (fun _ => by simp) (fun _ _ => rfl) fun _ _ => rfl

/-- An output that can be written. -/
structure OutFits (txout : CTxOut) : Prop where
  value : IsInt64 txout.nValue
  script : FitsVector txout.scriptPubKey

theorem CTxOut.unserialize_codec : Codec CTxOut.unserialize CTxOut.serialize OutFits :=
  unserInt64_codec.record unserBytes_codec CTxOut.mk CTxOut.nValue CTxOut.scriptPubKey
    (fun _ => ⟨fun h => ⟨⟨h.value, h.script⟩, rfl⟩, fun h => ⟨h.1.1, h.1.2⟩⟩) (fun _ _ => rfl)
    fun _ _ => rfl

/-- An input without a witness that can be written. -/
structure BareFits (txin : CTxIn) : Prop where
  script : FitsVector txin.scriptSig
  bare : txin.scriptWitness = []

theorem CTxIn.unserialize_codec : Codec CTxIn.unserialize CTxIn.serialize BareFits where
  reads txin h := by
    obtain ⟨prevout, scriptSig, nSequence, witness⟩ := txin
    obtain rfl : witness = [] := h.bare
    refine (COutPoint.unserialize_codec.reads prevout trivial).bind ?_
    refine (unserBytes_codec.reads scriptSig h.script).bind ?_
    exact (serReadData32_codec.reads nSequence trivial).bind_pure _
  exact s := by
    simp only [CTxIn.unserialize, wp_bind, wp_pure]
    refine wp_mono (COutPoint.unserialize_codec.exact s) fun prevout s₁ h₁ => ?_
    refine wp_mono (unserBytes_codec.exact s₁) fun scriptSig s₂ h₂ => ?_
    refine wp_mono (serReadData32_codec.exact s₂) fun nSequence s₃ h₃ => ?_
    refine ⟨⟨h₂.1, rfl⟩, ?_⟩
    rw [h₁.2, h₂.2, h₃.2, CTxIn.serialize, List.append_assoc, List.append_assoc]

/-! ## Witnesses -/

/-- The input without its witness. -/
def bare (txin : CTxIn) : CTxIn := { txin with scriptWitness := [] }

/-- A witness that can be written. -/
structure WitnessFits (txin : CTxIn) : Prop where
  stack : FitsVector txin.scriptWitness
  items : ∀ item ∈ txin.scriptWitness, FitsVector item

theorem witnessFits_of_empty {txin : CTxIn} (h : txin.scriptWitness = []) : WitnessFits txin := by
  refine ⟨?_, by simp [h]⟩
  rw [FitsVector, h]
  exact ⟨by simp, fun _ => by simp⟩

/-- The witnesses of some inputs, written one after the other. -/
def serWitnesses (vin : List CTxIn) : List Byte :=
  vin.flatMap fun txin => serVector serBytes txin.scriptWitness

theorem reads_unserializeWitnesses {vin : List CTxIn} (h : ∀ txin ∈ vin, WitnessFits txin) :
    Reads (unserializeWitnesses (vin.map bare)) (serWitnesses vin) vin := by
  induction vin with
  | nil => exact Reads.pure []
  | cons txin vin ih =>
    have hfits := h txin (by simp)
    have hstack := (unserVector_codec unserBytes_codec).reads txin.scriptWitness
      ⟨hfits.stack, hfits.items⟩
    have hfirst : Reads (bare txin).unserializeWitness
        (serVector serBytes txin.scriptWitness) txin :=
      hstack.bind_pure fun stack => ({ bare txin with scriptWitness := stack } : CTxIn)
    have hrest := ih fun t ht => h t (List.mem_cons_of_mem _ ht)
    exact hfirst.bind (hrest.bind_pure fun rest => txin :: rest)

theorem unserializeWitnesses_exact (vin : List CTxIn) (s : List Byte) :
    wp (fun _ => True) (unserializeWitnesses vin)
      (fun vin' rest => vin'.map bare = vin.map bare ∧ (∀ txin ∈ vin', WitnessFits txin) ∧
        s = serWitnesses vin' ++ rest) s := by
  induction vin generalizing s with
  | nil => exact ⟨rfl, by simp, rfl⟩
  | cons txin vin ih =>
    simp only [unserializeWitnesses, CTxIn.unserializeWitness, wp_bind, wp_pure]
    refine wp_mono ((unserVector_codec unserBytes_codec).exact s) fun stack s₁ h₁ => ?_
    refine wp_mono (ih s₁) fun vin' rest h₂ => ?_
    obtain ⟨hbare, hfits, hs₁⟩ := h₂
    refine ⟨by rw [List.map_cons, List.map_cons, hbare]; rfl,
      List.forall_mem_cons.mpr ⟨⟨h₁.1.1, h₁.1.2⟩, hfits⟩, ?_⟩
    rw [h₁.2, hs₁, serWitnesses, serWitnesses, List.flatMap_cons, List.append_assoc]

variable {tx : CTransaction}

theorem map_bare_of_not_hasWitness (h : tx.hasWitness = false) :
    tx.vin.map bare = tx.vin := by
  have hempty : ∀ txin ∈ tx.vin, txin.scriptWitness = [] := by
    simpa [CTransaction.hasWitness] using h
  refine (List.map_congr_left fun txin htxin => ?_).trans (List.map_id _)
  rw [bare, ← hempty txin htxin]
  rfl

theorem not_hasWitness_of_bare (h : ∀ txin ∈ tx.vin, txin.scriptWitness = []) :
    tx.hasWitness = false := by
  simpa [CTransaction.hasWitness] using h

theorem serVector_bare (vin : List CTxIn) :
    serVector CTxIn.serialize (vin.map bare) = serVector CTxIn.serialize vin := by
  rw [serVector, serVector, List.length_map, List.flatMap_map]
  rfl

/-! ## Transactions -/

/-- The vectors of a transaction are within the limits of the reader, and its values are those
of an `int64_t`. -/
structure TxFits (tx : CTransaction) : Prop where
  vin : FitsVector tx.vin
  vout : FitsVector tx.vout
  script : ∀ txin ∈ tx.vin, FitsVector txin.scriptSig
  witness : ∀ txin ∈ tx.vin, WitnessFits txin
  outputs : ∀ txout ∈ tx.vout, OutFits txout

theorem vin_codec : Codec (unserVector CTxIn.unserialize) (serVector CTxIn.serialize)
    (fun vin => FitsVector vin ∧ ∀ txin ∈ vin, BareFits txin) :=
  unserVector_codec CTxIn.unserialize_codec

theorem vout_codec : Codec (unserVector CTxOut.unserialize) (serVector CTxOut.serialize)
    (fun vout => FitsVector vout ∧ ∀ txout ∈ vout, OutFits txout) :=
  unserVector_codec CTxOut.unserialize_codec

theorem TxFits.reads_vin (h : TxFits tx) :
    Reads (unserVector CTxIn.unserialize) (serVector CTxIn.serialize tx.vin) (tx.vin.map bare) := by
  rw [← serVector_bare]
  refine vin_codec.reads _ ⟨?_, List.forall_mem_map.2 fun t ht => ⟨h.script t ht, rfl⟩⟩
  rw [FitsVector, List.length_map]
  exact h.vin

theorem TxFits.reads_vout (h : TxFits tx) :
    Reads (unserVector CTxOut.unserialize) (serVector CTxOut.serialize tx.vout) tx.vout :=
  vout_codec.reads _ ⟨h.vout, h.outputs⟩

theorem reads_vin_nil : Reads (unserVector CTxIn.unserialize) (serVector CTxIn.serialize []) [] :=
  vin_codec.reads [] ⟨⟨by simp, fun _ => by simp⟩, by simp⟩

/-- **The extended format** is read with its flag. -/
theorem TxFits.reads_extended (h : TxFits tx) :
    Reads (unserializeVinVout true) (serVector CTxIn.serialize [] ++ (serWriteData8 1#8 ++
      (serVector CTxIn.serialize tx.vin ++ serVector CTxOut.serialize tx.vout)))
      (tx.vin.map bare, tx.vout, 1#8) := by
  refine reads_vin_nil.bind ((serReadData8_codec.reads 1#8 trivial).bind ?_)
  exact h.reads_vin.bind (h.reads_vout.bind_pure _)

/-- **The basic format** of a transaction with inputs. -/
theorem TxFits.reads_basic (h : TxFits tx) (hvin : tx.vin ≠ []) :
    Reads (unserializeVinVout true)
      (serVector CTxIn.serialize tx.vin ++ serVector CTxOut.serialize tx.vout)
      (tx.vin.map bare, tx.vout, 0#8) := by
  have hsome : ((tx.vin.map bare).isEmpty && true) = false := by simpa using hvin
  refine h.reads_vin.bind ?_
  rw [hsome, if_neg Bool.false_ne_true]
  exact h.reads_vout.bind_pure _

/-- The basic format of a transaction without inputs and outputs: the empty vector of
outputs is taken for the flags. -/
theorem reads_empty : Reads (unserializeVinVout true)
    (serVector CTxIn.serialize [] ++ serVector CTxOut.serialize []) ([], [], 0#8) :=
  reads_vin_nil.bind ((serReadData8_codec.reads 0#8 trivial).bind_nil (Reads.pure _))

theorem serializeTransaction_extended (h : tx.hasWitness = true) :
    serializeTransaction true tx = serWriteData32 tx.version ++
      ((serVector CTxIn.serialize [] ++ (serWriteData8 1#8 ++
        (serVector CTxIn.serialize tx.vin ++ serVector CTxOut.serialize tx.vout))) ++
      (serWitnesses tx.vin ++ serWriteData32 tx.nLockTime)) := by
  simp [serializeTransaction, h, serWitnesses]

theorem serializeTransaction_basic (h : tx.hasWitness = false) :
    serializeTransaction true tx = serWriteData32 tx.version ++
      ((serVector CTxIn.serialize tx.vin ++ serVector CTxOut.serialize tx.vout) ++
      serWriteData32 tx.nLockTime) := by
  simp [serializeTransaction, h]

theorem TxFits.reads_flagged (h : TxFits tx) (hwit : tx.hasWitness = true) (nLockTime : BitVec 32) :
    Reads (unserializeFlagged true 1#8
        { vin := tx.vin.map bare, vout := tx.vout, version := tx.version, nLockTime := nLockTime })
      (serWitnesses tx.vin) { tx with nLockTime := nLockTime } := by
  have hwit' : CTransaction.hasWitness { tx with nLockTime := nLockTime } = true := hwit
  refine (reads_unserializeWitnesses h.witness).bind_nil ?_
  simp only [hwit', Bool.not_true, Bool.false_eq_true, if_false]
  exact Reads.pure _

/-- **What is written is read back.** -/
theorem reads_serializeTransaction (h : TxFits tx)
    (hvin : tx.vin ≠ [] ∨ tx.vin = [] ∧ tx.vout = []) :
    Reads (unserializeTransaction true) (serializeTransaction true tx) tx := by
  have hversion := serReadData32_codec.reads tx.version trivial
  have hlock := serReadData32_codec.reads tx.nLockTime trivial
  cases hwit : tx.hasWitness with
  | true =>
    rw [serializeTransaction_extended hwit]
    refine hversion.bind (h.reads_extended.bind ?_)
    exact (h.reads_flagged hwit 0#32).bind (hlock.bind_pure _)
  | false =>
    have hbare := map_bare_of_not_hasWitness hwit
    have hread : Reads (unserializeVinVout true)
        (serVector CTxIn.serialize tx.vin ++ serVector CTxOut.serialize tx.vout)
        (tx.vin, tx.vout, 0#8) := by
      rcases hvin with hvin | ⟨hvin, hvout⟩
      · have hbasic := h.reads_basic hvin
        rwa [hbare] at hbasic
      · rw [hvin, hvout]
        exact reads_empty
    rw [serializeTransaction_basic hwit]
    exact hversion.bind (hread.bind (hlock.bind_pure _))

/-- The inputs, outputs and flags stand at the front of `s`, in the basic or in the extended
format. -/
structure VinVoutAt (s : List Byte) (vin : List CTxIn) (vout : List CTxOut) (flags : BitVec 8)
    (rest : List Byte) : Prop where
  inputs : FitsVector vin ∧ ∀ txin ∈ vin, BareFits txin
  outputs : FitsVector vout ∧ ∀ txout ∈ vout, OutFits txout
  basic : flags = 0#8 →
    s = (serVector CTxIn.serialize vin ++ serVector CTxOut.serialize vout) ++ rest
  extended : flags ≠ 0#8 → s = (serVector CTxIn.serialize [] ++ (serWriteData8 flags ++
    (serVector CTxIn.serialize vin ++ serVector CTxOut.serialize vout))) ++ rest

theorem unserializeVinVout_exact (s : List Byte) :
    wp (fun _ => True) (unserializeVinVout true)
      (fun r rest => VinVoutAt s r.1 r.2.1 r.2.2 rest) s := by
  have hnil : FitsVector ([] : List CTxOut) := ⟨by simp, fun _ => by simp⟩
  simp only [unserializeVinVout, wp_bind]
  refine wp_mono (vin_codec.exact s) fun vin s₁ h₁ => ?_
  obtain ⟨hvin, rfl⟩ := h₁
  cases vin with
  | cons txin vin =>
    simp only [List.isEmpty_cons, Bool.false_and, Bool.false_eq_true, if_false, wp_bind, wp_pure]
    refine wp_mono (vout_codec.exact s₁) fun vout rest h₂ => ?_
    obtain ⟨hvout, rfl⟩ := h₂
    exact ⟨hvin, hvout, fun _ => (List.append_assoc _ _ _).symm, fun h => absurd rfl h⟩
  | nil =>
    simp only [List.isEmpty_nil, Bool.and_true, if_true, wp_bind]
    refine wp_mono (serReadData8_codec.exact s₁) fun flags s₂ h₂ => ?_
    obtain ⟨-, rfl⟩ := h₂
    by_cases hflags : flags = 0#8
    · subst hflags
      simp only [ne_eq, not_true_eq_false, if_false, wp_pure]
      exact ⟨hvin, ⟨hnil, by simp⟩, fun _ => (List.append_assoc _ _ _).symm,
        fun h => absurd rfl h⟩
    · simp only [ne_eq, hflags, not_false_eq_true, if_true, wp_bind, wp_pure]
      refine wp_mono (vin_codec.exact s₂) fun vin s₃ h₃ => ?_
      refine wp_mono (vout_codec.exact s₃) fun vout rest h₄ => ?_
      refine ⟨h₃.1, h₄.1, fun h => absurd h hflags, fun _ => ?_⟩
      rw [h₃.2, h₄.2]
      simp only [List.append_assoc]

theorem unserializeFlagged_exact (flags : BitVec 8) (tx : CTransaction) (s : List Byte) :
    wp (fun _ => True) (unserializeFlagged true flags tx)
      (fun tx' rest => (flags = 0#8 ∧ tx' = tx ∧ s = rest) ∨
        (flags = 1#8 ∧ tx' = { tx with vin := tx'.vin } ∧ tx'.vin.map bare = tx.vin.map bare ∧
          tx'.hasWitness = true ∧ (∀ txin ∈ tx'.vin, WitnessFits txin) ∧
          s = serWitnesses tx'.vin ++ rest)) s := by
  unfold unserializeFlagged
  split
  · simp only [wp_bind]
    refine wp_mono (unserializeWitnesses_exact tx.vin s) fun vin rest h => ?_
    obtain ⟨hbare, hfits, hs⟩ := h
    split
    · trivial
    rename_i hwit
    split
    · trivial
    rename_i hflags
    rw [not_not] at hflags
    have hone : flags = 1#8 := by
      calc flags = flags ^^^ 1#8 ^^^ 1#8 := by rw [BitVec.xor_assoc, BitVec.xor_self, BitVec.xor_zero]
        _ = 1#8 := by rw [hflags, BitVec.zero_xor]
    exact .inr ⟨hone, rfl, hbare, by simpa using hwit, hfits, hs⟩
  · split
    · trivial
    · rename_i hflags
      exact .inl ⟨by simpa using hflags, rfl, rfl⟩

/-- **What is read was written.** -/
theorem unserializeTransaction_exact (s : List Byte) :
    wp (fun _ => True) (unserializeTransaction true)
      (fun tx rest => TxFits tx ∧ s = serializeTransaction true tx ++ rest) s := by
  simp only [unserializeTransaction, wp_bind, wp_pure]
  refine wp_mono (serReadData32_codec.exact s) fun version s₁ h₁ => ?_
  obtain ⟨-, rfl⟩ := h₁
  refine wp_mono (unserializeVinVout_exact s₁) fun r s₂ h₂ => ?_
  obtain ⟨vin, vout, flags⟩ := r
  refine wp_mono (unserializeFlagged_exact flags _ s₂) fun tx s₃ h₃ => ?_
  refine wp_mono (serReadData32_codec.exact s₃) fun nLockTime rest h₄ => ?_
  obtain ⟨-, rfl⟩ := h₄
  have hempty : ∀ txin ∈ vin, txin.scriptWitness = [] := fun t ht => (h₂.inputs.2 t ht).bare
  rcases h₃ with ⟨hflags, rfl, rfl⟩ | ⟨hflags, htx, hbare, hwit, hfits, rfl⟩
  · have hnot := @not_hasWitness_of_bare
      { vin := vin, vout := vout, version := version, nLockTime := nLockTime } hempty
    refine ⟨⟨h₂.inputs.1, h₂.outputs.1, fun t ht => (h₂.inputs.2 t ht).script,
      fun t ht => witnessFits_of_empty (hempty t ht), h₂.outputs.2⟩, ?_⟩
    rw [serializeTransaction_basic hnot, h₂.basic hflags]
    simp only [List.append_assoc]
  · obtain ⟨vin', vout', version', nLockTime'⟩ := tx
    obtain ⟨-, rfl, rfl, rfl⟩ := CTransaction.mk.inj htx
    have hwit' : CTransaction.hasWitness
        { vin := vin', vout := vout', version := version', nLockTime := nLockTime } = true := hwit
    have hlen : vin'.length = vin.length := by simpa using congrArg List.length hbare
    refine ⟨⟨?_, h₂.outputs.1, fun t ht => ?_, hfits, h₂.outputs.2⟩, ?_⟩
    · rw [FitsVector, hlen]
      exact h₂.inputs.1
    · -- the witness is not part of what was read with the inputs
      have hmem : bare t ∈ vin.map bare := hbare ▸ List.mem_map_of_mem ht
      obtain ⟨t', ht', heq⟩ := List.mem_map.mp hmem
      have hscript := congrArg CTxIn.scriptSig heq
      simp only [bare] at hscript
      rw [← hscript]
      exact (h₂.inputs.2 t' ht').script
    · have hvin : serVector CTxIn.serialize vin = serVector CTxIn.serialize vin' := by
        rw [← serVector_bare, ← hbare, serVector_bare]
      have hone : flags ≠ 0#8 := hflags ▸ by decide
      rw [serializeTransaction_extended hwit', h₂.extended hone, hvin, hflags]
      simp only [List.append_assoc]

/-- **The wire format is a bijection** between transactions and the byte strings that
are accepted. -/
theorem transaction_wire_bijection :
    (∀ tx, TxFits tx → (tx.vin ≠ [] ∨ tx.vin = [] ∧ tx.vout = []) →
      ∀ rest, unserializeTransaction true (serializeTransaction true tx ++ rest) =
        .ok (tx, rest)) ∧
    (∀ s tx rest, unserializeTransaction true s = .ok (tx, rest) →
      s = serializeTransaction true tx ++ rest) ∧
    ∀ s₁ s₂ tx, unserializeTransaction true s₁ = .ok (tx, []) →
      unserializeTransaction true s₂ = .ok (tx, []) → s₁ = s₂ := by
  have hexact : ∀ s tx rest, unserializeTransaction true s = .ok (tx, rest) →
      s = serializeTransaction true tx ++ rest :=
    fun s tx rest h => (wp_ok (unserializeTransaction_exact s) h).2
  refine ⟨fun tx h hvin => reads_serializeTransaction h hvin, hexact, fun s₁ s₂ tx h₁ h₂ => ?_⟩
  rw [hexact s₁ tx [] h₁, hexact s₂ tx [] h₂]

/-- A transaction with an input that has a witness. -/
def witnessTx : CTransaction where
  vin := [{ prevout := ⟨7#256, 0#32⟩, scriptSig := [0x51#8], scriptWitness := [[1#8, 2#8], []] }]
  vout := [{ nValue := -5, scriptPubKey := [0x6a#8] }, { nValue := 5000000000 }]
  version := 2#32
  nLockTime := 9#32

theorem witnessTx_fits : TxFits witnessTx := by
  have hfits : ∀ {α : Type} (v : List α), v.length < 3 → FitsVector v := by
    intro α v hv
    exact ⟨by omega, fun _ => by simp only [MAX_SIZE]; omega⟩
  refine ⟨hfits _ (by decide), hfits _ (by decide), ?_, ?_, ?_⟩
  · intro txin htxin
    obtain rfl := List.mem_singleton.mp htxin
    exact hfits _ (by decide)
  · intro txin htxin
    obtain rfl := List.mem_singleton.mp htxin
    refine ⟨hfits _ (by decide), fun item hitem => hfits _ ?_⟩
    simp only [List.mem_cons, List.not_mem_nil, or_false] at hitem
    rcases hitem with rfl | rfl
    · decide
    · decide
  · intro txout htxout
    simp only [witnessTx, List.mem_cons, List.not_mem_nil, or_false] at htxout
    rcases htxout with rfl | rfl
    · exact ⟨⟨by decide, by decide⟩, hfits _ (by decide)⟩
    · exact ⟨⟨by decide, by decide⟩, hfits _ (by decide)⟩

theorem transaction_wire_bijection_witness :
    (serializeTransaction true witnessTx).take 7 =
      [2#8, 0#8, 0#8, 0#8, 0#8, 1#8, 1#8] ∧
    unserializeTransaction true (serializeTransaction true witnessTx ++ [3#8]) =
      .ok (witnessTx, [3#8]) :=
  ⟨rfl, transaction_wire_bijection.1 witnessTx witnessTx_fits (.inl (by decide)) [3#8]⟩

end BitMinti.Analysis
