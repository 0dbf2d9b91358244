import BitMinti.Model.Compressor
import BitMinti.Analysis.Serialize
import BitMinti.Analysis.Utxo

/-!
# Compressed coins are read back

An amount is its digits without the trailing zeros and the number of these; a script that
matches a pattern is what the pattern leaves open.  Both determine what was compressed, and the
tags of the patterns are the lengths that no other script is written with.
-/

set_option autoImplicit false

namespace BitMinti.Analysis

open Model Computation.Reading

/-! ## Amounts -/

theorem stripZeros_spec {k : ℕ} (hk : k ≤ 9) {n : BitVec 64} (hn : n ≠ 0#64) :
    ∃ m e, stripZeros k n = (m, e) ∧ 9 - k ≤ e ∧ e ≤ 9 ∧
      n.toNat = m.toNat * 10 ^ (e - (9 - k)) ∧ m.toNat ≠ 0 ∧ (e < 9 → m.toNat % 10 ≠ 0) := by
  have hpos : n.toNat ≠ 0 := fun h => hn (BitVec.eq_of_toNat_eq h)
  induction k generalizing n with
  | zero => exact ⟨n, 9, rfl, by omega, le_rfl, by simp, hpos, by omega⟩
  | succ k ih =>
    rw [stripZeros]
    by_cases hzero : n % 10#64 = 0#64
    · rw [if_pos hzero]
      have hmod : n.toNat % 10 = 0 := congrArg BitVec.toNat hzero
      have hdiv : (n / 10#64).toNat = n.toNat / 10 := rfl
      have hne : (n / 10#64).toNat ≠ 0 := by
        rw [hdiv]
        omega
      obtain ⟨m, e, hrun, hle, hle9, hval, hm, hlast⟩ := ih (by omega)
        (fun h => hne (congrArg BitVec.toNat h)) hne
      refine ⟨m, e, hrun, by omega, hle9, ?_, hm, hlast⟩
      have hexp : e - (9 - (k + 1)) = e - (9 - k) + 1 := by omega
      rw [hdiv] at hval
      rw [hexp, Nat.pow_succ, ← Nat.mul_assoc, ← hval]
      omega
    · rw [if_neg hzero]
      have hmod : n.toNat % 10 ≠ 0 := fun h => hzero (BitVec.eq_of_toNat_eq h)
      exact ⟨n, 9 - (k + 1), rfl, le_rfl, by omega, by simp, hpos, fun _ => hmod⟩

theorem appendZeros_toNat {e : ℕ} {n : BitVec 64} (h : n.toNat * 10 ^ e < 2 ^ 64) :
    (appendZeros e n).toNat = n.toNat * 10 ^ e := by
  induction e generalizing n with
  | zero => simp [appendZeros]
  | succ e ih =>
    have hpow : n.toNat * 10 ^ (e + 1) = n.toNat * 10 * 10 ^ e := by
      rw [Nat.pow_succ]
      ring
    have hone : 1 ≤ 10 ^ e := Nat.one_le_pow _ _ (by omega)
    have hlt : n.toNat * 10 < 2 ^ 64 := by
      calc n.toNat * 10 ≤ n.toNat * 10 * 10 ^ e := Nat.le_mul_of_pos_right _ hone
        _ < 2 ^ 64 := by rw [← hpow]; exact h
    have hmul : (n * 10#64).toNat = n.toNat * 10 := by
      rw [BitVec.toNat_mul]
      exact Nat.mod_eq_of_lt hlt
    rw [appendZeros, ih (by rw [hmul, ← hpow]; exact h), hmul, ← hpow]

theorem compress_digit {m : BitVec 64} (hm : m.toNat < 2 ^ 60) (hlast : m.toNat % 10 ≠ 0) {e : ℕ}
    (he : e < 9) :
    (1#64 + (m / 10#64 * 9#64 + m % 10#64 - 1#64) * 10#64 + BitVec.ofNat 64 e).toNat =
      1 + (m.toNat / 10 * 9 + m.toNat % 10 - 1) * 10 + e := by
  simp only [BitVec.toNat_add, BitVec.toNat_mul, BitVec.toNat_sub, BitVec.toNat_udiv,
    BitVec.toNat_umod, BitVec.toNat_ofNat, Nat.reducePow, Nat.reduceMod]
  omega

theorem compress_round {m : BitVec 64} (hm : m.toNat < 2 ^ 60) (hne : m.toNat ≠ 0) :
    (1#64 + (m - 1#64) * 10#64 + 9#64).toNat = 1 + (m.toNat - 1) * 10 + 9 := by
  simp only [BitVec.toNat_add, BitVec.toNat_mul, BitVec.toNat_sub, BitVec.toNat_ofNat,
    Nat.reducePow, Nat.reduceMod]
  omega

theorem decompressAmount_eq {x : BitVec 64} {y : ℕ} (hx : x.toNat = 1 + y) :
    decompressAmount x = appendZeros (y % 10) (BitVec.ofNat 64
      (if y % 10 < 9 then y / 10 / 9 * 10 + (y / 10 % 9 + 1) else y / 10 + 1)) := by
  have hlt := x.isLt
  have hne : x ≠ 0#64 := by
    rintro rfl
    rw [BitVec.toNat_ofNat] at hx
    omega
  have hsub : (x - 1#64).toNat = y := by
    rw [BitVec.toNat_sub, BitVec.toNat_ofNat]
    omega
  have hmod : ((x - 1#64) % 10#64).toNat = y % 10 := by rw [BitVec.toNat_umod, hsub]; rfl
  simp only [decompressAmount, if_neg hne, hmod]
  congr 1
  apply BitVec.eq_of_toNat_eq
  split
  · simp only [BitVec.toNat_add, BitVec.toNat_mul, BitVec.toNat_udiv, BitVec.toNat_umod, hsub,
      BitVec.toNat_ofNat, Nat.reducePow, Nat.reduceMod]
    omega
  · simp only [BitVec.toNat_add, BitVec.toNat_udiv, hsub, BitVec.toNat_ofNat, Nat.reducePow,
      Nat.reduceMod]

/-- **Amounts are read back**, without an overflow on the way. -/
theorem decompressAmount_compressAmount {n : BitVec 64} (h : n.toNat < 2 ^ 60) :
    decompressAmount (compressAmount n) = n := by
  by_cases hzero : n = 0#64
  · subst hzero
    rfl
  obtain ⟨m, e, hstrip, -, hle, hval, hm, hlast⟩ := stripZeros_spec le_rfl hzero
  rw [Nat.sub_self, Nat.sub_zero] at hval
  have hone : 1 ≤ 10 ^ e := Nat.one_le_pow _ _ (by omega)
  have hmle : m.toNat ≤ n.toNat := by
    rw [hval]
    exact Nat.le_mul_of_pos_right _ hone
  have happend : appendZeros e (BitVec.ofNat 64 m.toNat) = n := by
    apply BitVec.eq_of_toNat_eq
    rw [BitVec.ofNat_toNat, BitVec.setWidth_eq, appendZeros_toNat (by rw [← hval]; omega), hval]
  simp only [compressAmount, if_neg hzero, hstrip]
  split
  · rename_i he
    have hlast' := hlast he
    rw [decompressAmount_eq (y := (m.toNat / 10 * 9 + m.toNat % 10 - 1) * 10 + e)
      (by rw [compress_digit (by omega) hlast' he]; omega)]
    have hdigit : ((m.toNat / 10 * 9 + m.toNat % 10 - 1) * 10 + e) % 10 = e := by omega
    have hrest : ((m.toNat / 10 * 9 + m.toNat % 10 - 1) * 10 + e) / 10 =
        m.toNat / 10 * 9 + m.toNat % 10 - 1 := by omega
    have hback : (m.toNat / 10 * 9 + m.toNat % 10 - 1) / 9 * 10 +
        ((m.toNat / 10 * 9 + m.toNat % 10 - 1) % 9 + 1) = m.toNat := by omega
    rw [hdigit, hrest, if_pos he, hback, happend]
  · obtain rfl : e = 9 := by omega
    rw [decompressAmount_eq (y := (m.toNat - 1) * 10 + 9)
      (by rw [compress_round (by omega) hm]; omega)]
    have hdigit : ((m.toNat - 1) * 10 + 9) % 10 = 9 := by omega
    have hback : ((m.toNat - 1) * 10 + 9) / 10 + 1 = m.toNat := by omega
    rw [hdigit, if_neg (by omega), hback, happend]

/-! ## Scripts -/

section Scripts

variable {keys : PubKeys} {script : CScript}

theorem eq_framed {α : Type} {l start stop : List α} {n : ℕ} (hstart : l.take start.length = start)
    (hstop : l.drop (start.length + n) = stop) :
    start ++ (l.drop start.length).take n ++ stop = l := by
  conv_rhs => rw [← List.take_append_drop start.length l, ← List.take_append_drop n
    (l.drop start.length), List.drop_drop, hstop, hstart]
  rw [List.append_assoc]

theorem drop_eq_cons {α : Type} {l : List α} {i : ℕ} {a : α} (h : l[i]? = some a) :
    l.drop i = a :: l.drop (i + 1) := by
  obtain ⟨hlt, rfl⟩ := List.getElem?_eq_some_iff.mp h
  exact List.drop_eq_getElem_cons hlt

theorem decompressScript_keyID {keyID : List Byte} (h : isToKeyID script = some keyID) :
    keyID.length = 20 ∧ decompressScript keys 0 keyID = some script := by
  unfold isToKeyID at h
  split at h
  · rename_i hm
    obtain ⟨hlen, h₀, h₁, h₂, h₂₃, h₂₄⟩ := hm
    cases h
    refine ⟨by simp [hlen], congrArg some ?_⟩
    apply eq_framed
    · simp [List.take_add_one, h₀, h₁, h₂]
    · rw [show ([OP_DUP, OP_HASH160, 20#8] : List Byte).length + 20 = 23 from rfl,
        drop_eq_cons h₂₃, drop_eq_cons h₂₄, List.drop_of_length_le (by omega)]
  · cases h

theorem decompressScript_scriptID {scriptID : List Byte} (h : isToScriptID script = some scriptID) :
    scriptID.length = 20 ∧ decompressScript keys 1 scriptID = some script := by
  unfold isToScriptID at h
  split at h
  · rename_i hm
    obtain ⟨hlen, h₀, h₁, h₂₂⟩ := hm
    cases h
    refine ⟨by simp [hlen], congrArg some ?_⟩
    apply eq_framed
    · simp [List.take_add_one, h₀, h₁]
    · rw [show ([OP_HASH160, 20#8] : List Byte).length + 20 = 22 from rfl, drop_eq_cons h₂₂,
        List.drop_of_length_le (by omega)]
  · cases h

/-- `Decompress` gives a fully valid key back from its compressed form: the parity of the second
coordinate and the first coordinate. -/
def InvertsCompression (keys : PubKeys) : Prop :=
  ∀ pubkey : List Byte, pubkey.length = 65 → pubkey[0]? = some 0x04#8 →
    keys.isFullyValid pubkey = true →
    keys.decompress ((0x02#8 ||| (pubkey[64]?.getD 0#8 &&& 0x01#8)) :: (pubkey.drop 1).take 32) =
      some pubkey

/-- A compressed script: the tag of its pattern, and what the pattern leaves open. -/
structure Compresses (keys : PubKeys) (script : CScript) (tag : Byte) (vch : List Byte) : Prop where
  special : tag.toNat < nSpecialScripts
  size : vch.length = getSpecialScriptSize tag.toNat
  decompress : decompressScript keys tag.toNat vch = some script

theorem compresses_compressed {header : Byte} (hheader : header = 0x02#8 ∨ header = 0x03#8)
    (hlen : script.length = 35) (h₀ : script[0]? = some 33#8) (h₁ : script[1]? = some header)
    (h₃₄ : script[34]? = some OP_CHECKSIG) :
    Compresses keys script header ((script.drop 2).take 32) := by
  have hframe : [33#8, header] ++ (script.drop 2).take 32 ++ [OP_CHECKSIG] = script := by
    refine @eq_framed _ _ [33#8, header] _ 32 ?_ ?_
    · simp [List.take_add_one, h₀, h₁]
    · rw [show ([33#8, header] : List Byte).length + 32 = 34 from rfl, drop_eq_cons h₃₄,
        List.drop_of_length_le (by omega)]
  have hsize : ((script.drop 2).take 32).length = 32 := by simp [hlen]
  rcases hheader with rfl | rfl
  · exact ⟨by decide, hsize, congrArg some hframe⟩
  · exact ⟨by decide, hsize, congrArg some hframe⟩

theorem compresses_full (hkeys : InvertsCompression keys) (hlen : script.length = 67)
    (h₀ : script[0]? = some 65#8) (h₁ : script[1]? = some 0x04#8)
    (h₆₆ : script[66]? = some OP_CHECKSIG)
    (hvalid : keys.isFullyValid ((script.drop 1).take 65) = true) :
    Compresses keys script
      (0x04#8 ||| (((script.drop 1).take 65)[64]?.getD 0#8 &&& 0x01#8))
      ((((script.drop 1).take 65).drop 1).take 32) := by
  have hframe : [65#8] ++ (script.drop 1).take 65 ++ [OP_CHECKSIG] = script := by
    refine @eq_framed _ _ [65#8] _ 65 ?_ ?_
    · simp [List.take_add_one, h₀]
    · rw [show ([65#8] : List Byte).length + 65 = 66 from rfl, drop_eq_cons h₆₆,
        List.drop_of_length_le (by omega)]
  have hlen' : ((script.drop 1).take 65).length = 65 := by simp [hlen]
  have hhead : ((script.drop 1).take 65)[0]? = some 0x04#8 := by simp [h₁]
  have hdec := hkeys _ hlen' hhead hvalid
  generalize (script.drop 1).take 65 = pubkey at hframe hlen' hdec ⊢
  have hsize : ((pubkey.drop 1).take 32).length = 32 := by simp [hlen']
  have hparity : ∀ y : Byte, y &&& 0x01#8 = 0#8 ∨ y &&& 0x01#8 = 1#8 := by decide
  rcases hparity (pubkey[64]?.getD 0#8) with hy | hy
  · rw [hy] at hdec ⊢
    refine ⟨by decide, hsize, ?_⟩
    rw [← hframe]
    exact congrArg (Option.map _) hdec
  · rw [hy] at hdec ⊢
    refine ⟨by decide, hsize, ?_⟩
    rw [← hframe]
    exact congrArg (Option.map _) hdec

theorem compresses_of_isToPubKey (hkeys : InvertsCompression keys) {pubkey compr : List Byte}
    (hpubkey : isToPubKey keys script = some pubkey) (h : compressPubKey pubkey = some compr) :
    ∃ tag vch, compr = tag :: vch ∧ Compresses keys script tag vch := by
  unfold isToPubKey at hpubkey
  split at hpubkey
  · rename_i hm
    obtain ⟨hlen, h₀, h₃₄, h₁⟩ := hm
    cases hpubkey
    obtain ⟨header, hheader, h₁⟩ : ∃ header : Byte, (header = 0x02#8 ∨ header = 0x03#8) ∧
        script[1]? = some header := by
      rcases h₁ with h₁ | h₁
      · exact ⟨_, .inl rfl, h₁⟩
      · exact ⟨_, .inr rfl, h₁⟩
    have hhead : ((script.drop 1).take 33)[0]? = some header := by simp [h₁]
    have hrest : (((script.drop 1).take 33).drop 1).take 32 = (script.drop 2).take 32 := by
      rw [List.drop_take, List.drop_drop, List.take_take]
      rfl
    simp only [compressPubKey, hhead, if_pos hheader, hrest, Option.some_inj] at h
    exact ⟨_, _, h.symm, compresses_compressed hheader hlen h₀ h₁ h₃₄⟩
  split at hpubkey
  · rename_i hm
    obtain ⟨hlen, h₀, h₆₆, h₁⟩ := hm
    simp only at hpubkey
    split at hpubkey
    · rename_i hvalid
      cases hpubkey
      have hhead : ((script.drop 1).take 65)[0]? = some 0x04#8 := by simp [h₁]
      have hnot : ¬((0x04#8 : Byte) = 0x02#8 ∨ (0x04#8 : Byte) = 0x03#8) := by decide
      simp only [compressPubKey, hhead, if_neg hnot, if_true, Option.some_inj] at h
      exact ⟨_, _, h.symm, compresses_full hkeys hlen h₀ h₁ h₆₆ hvalid⟩
    · cases hpubkey
  · cases hpubkey

/-- **Every script that is compressed is one that its compressed form stands for.** -/
theorem compresses_of_compressScript (hkeys : InvertsCompression keys) {compr : List Byte}
    (h : compressScript keys script = some compr) :
    ∃ tag vch, compr = tag :: vch ∧ Compresses keys script tag vch := by
  unfold compressScript at h
  split at h
  · rename_i keyID _ _ hkeyID
    cases h
    obtain ⟨hlen, hdec⟩ := decompressScript_keyID hkeyID
    exact ⟨_, _, rfl, by decide, hlen, hdec⟩
  · rename_i scriptID _ _ hscriptID
    cases h
    obtain ⟨hlen, hdec⟩ := decompressScript_scriptID hscriptID
    exact ⟨_, _, rfl, by decide, hlen, hdec⟩
  · rename_i pubkey _ _ hpubkey
    exact compresses_of_isToPubKey hkeys hpubkey h
  · cases h

theorem writeVarInt_byte {tag : Byte} (h : tag.toNat ≤ 0x7F) : writeVarInt tag.toNat = [tag] := by
  rw [writeVarInt, writeVarIntLoop, if_pos h]
  have hmod : tag.toNat % 128 + 0 = tag.toNat := by omega
  simp only [List.isEmpty_nil, if_true, hmod, BitVec.ofNat_toNat, BitVec.setWidth_eq]

/-- **Scripts are read back**, compressed or not. -/
theorem reads_serScript (hkeys : InvertsCompression keys) (hlen : script.length ≤ MAX_SCRIPT_SIZE) :
    Reads (unserScript keys) (serScript keys script) script := by
  unfold serScript
  split
  · rename_i compr hcompr
    obtain ⟨tag, vch, rfl, C⟩ := compresses_of_compressScript hkeys hcompr
    have htag : tag.toNat ≤ 0x7F := by
      have h := C.special
      simp only [nSpecialScripts] at h
      omega
    have hread := @reads_writeVarInt UINT32_MAX tag.toNat (by simp only [UINT32_MAX]; omega)
    rw [writeVarInt_byte htag] at hread
    change Reads (unserScript keys) ([tag] ++ vch) script
    refine hread.bind ?_
    rw [if_pos C.special]
    refine ((readBytes_codec _).reads vch C.size).bind_nil ?_
    rw [C.decompress]
    exact Reads.pure script
  · have hread := @reads_writeVarInt UINT32_MAX (script.length + nSpecialScripts) (by
      simp only [MAX_SCRIPT_SIZE] at hlen
      simp only [UINT32_MAX, nSpecialScripts]
      omega)
    refine hread.bind ?_
    rw [if_neg (by omega), Nat.add_sub_cancel, if_neg (by omega)]
    exact (readBytes_codec _).reads script rfl

end Scripts

/-! ## Coins -/

section Coins

variable {keys : PubKeys} {coin : Coin}

/-- **Amounts in range are read back.** -/
theorem reads_serAmount {nValue : CAmount} (h : moneyRange nValue = true) :
    Reads unserAmount (serAmount nValue) nValue := by
  obtain ⟨hlo, hhi⟩ := moneyRange_iff.mp h
  obtain ⟨k, rfl⟩ := Int.eq_ofNat_of_zero_le hlo
  have hk : k < 2 ^ 60 := by
    rw [max_money_eq] at hhi
    have hhi' : k ≤ 2100000000000000 := by exact_mod_cast hhi
    omega
  have hto : (BitVec.ofNat 64 k).toNat = k := by
    rw [BitVec.toNat_ofNat]
    omega
  have hread := @reads_writeVarInt UINT64_MAX (compressAmount (BitVec.ofNat 64 k)).toNat (by
    have hlt := (compressAmount (BitVec.ofNat 64 k)).isLt
    simp only [UINT64_MAX]
    omega)
  have hvalue : (decompressAmount (BitVec.ofNat 64
      (compressAmount (BitVec.ofNat 64 k)).toNat)).toInt = k := by
    rw [BitVec.ofNat_toNat, BitVec.setWidth_eq, decompressAmount_compressAmount (by rwa [hto]),
      BitVec.toInt_eq_toNat_of_lt (by rw [hto]; omega), hto]
  rw [serAmount, BitVec.ofInt_natCast]
  have hpure := hread.bind_pure fun v => (decompressAmount (BitVec.ofNat 64 v)).toInt
  rwa [hvalue] at hpure

theorem reads_serTxOut (hkeys : InvertsCompression keys) {txout : CTxOut}
    (hvalue : moneyRange txout.nValue = true)
    (hlen : txout.scriptPubKey.length ≤ MAX_SCRIPT_SIZE) :
    Reads (unserTxOut keys) (serTxOut keys txout) txout :=
  (reads_serAmount hvalue).bind ((reads_serScript hkeys hlen).bind_pure _)

variable (coin : Coin)

theorem reads_code : Reads (readVarInt UINT32_MAX) (writeVarInt coin.code) coin.code := by
  apply reads_writeVarInt
  have hlt := Nat.mod_lt (coin.nHeight.toNat * 2 + coin.fCoinBase.toNat) (show 2 ^ 32 > 0 by omega)
  simp only [UINT32_MAX, Coin.code]
  omega

theorem code_eq :
    coin.code / 2 = coin.nHeight.toNat ∧ (coin.code % 2 == 1) = coin.fCoinBase := by
  have hlt := coin.nHeight.isLt
  unfold Coin.code
  cases coin.fCoinBase with
  | false =>
    simp only [Bool.toNat_false]
    exact ⟨by omega, beq_false_of_ne (by omega)⟩
  | true =>
    simp only [Bool.toNat_true]
    exact ⟨by omega, beq_iff_eq.mpr (by omega)⟩

theorem ofCode_code : Coin.ofCode coin.code coin.out = coin := by
  rw [Coin.ofCode, (code_eq coin).1, (code_eq coin).2, BitVec.ofNat_toNat, BitVec.setWidth_eq]

theorem reads_versionDummy :
    Reads (unserVersionDummy (coin.code / 2))
      (if coin.nHeight.toNat > 0 then serWriteData8 0#8 else []) () := by
  rw [(code_eq coin).1, unserVersionDummy]
  split
  · have hread := @reads_writeVarInt UINT32_MAX 0 (Nat.zero_le _)
    have hzero : writeVarInt 0 = serWriteData8 0#8 := @writeVarInt_byte 0#8 (by decide)
    rw [hzero] at hread
    exact hread.bind_pure fun _ => ()
  · exact Reads.pure ()

/-- **Compressed coins are read back.**  The database and the undo encoding of a coin in
range decode to the coin and consume exactly what was written, whatever follows. -/
theorem coin_encodings_read_back (keys : PubKeys) (hkeys : InvertsCompression keys) (coin : Coin)
    (hvalue : moneyRange coin.out.nValue = true)
    (hlen : coin.out.scriptPubKey.length ≤ MAX_SCRIPT_SIZE) :
    (∃ bytes, coin.serialize keys = some bytes ∧
      ∀ rest, Coin.unserialize keys (bytes ++ rest) = .ok (coin, rest)) ∧
    ∀ rest, Coin.unserializeUndo keys (coin.serializeUndo keys ++ rest) = .ok (coin, rest) := by
  have hcode := reads_code coin
  have hout := (reads_serTxOut hkeys hvalue hlen).bind_pure (Coin.ofCode coin.code)
  rw [ofCode_code] at hout
  refine ⟨⟨writeVarInt coin.code ++ serTxOut keys coin.out, ?_, ?_⟩, ?_⟩
  · rw [Coin.serialize, not_spent_of_moneyRange hvalue, if_neg Bool.false_ne_true]
  · exact hcode.bind hout
  · exact hcode.bind ((reads_versionDummy coin).bind hout)

/-- Keys of which only the one with all coordinates zero is valid. -/
def zeroKeys : PubKeys where
  isFullyValid pubkey := pubkey == 4#8 :: List.replicate 64 0#8
  decompress vch :=
    if vch = 2#8 :: List.replicate 32 0#8 then some (4#8 :: List.replicate 64 0#8) else none
  size := by
    intro vch pubkey h
    split at h
    · cases h
      rfl
    · cases h

theorem coin_encodings_read_back_key :
    (serScript zeroKeys ([65#8] ++ (4#8 :: List.replicate 64 0#8) ++ [OP_CHECKSIG])).length = 33 ∧
    ∀ rest, Coin.unserializeUndo zeroKeys (Coin.serializeUndo zeroKeys
      { out := { nValue := 5000000000,
                 scriptPubKey := [65#8] ++ (4#8 :: List.replicate 64 0#8) ++ [OP_CHECKSIG] }
        fCoinBase := true
        nHeight := 7#31 } ++ rest) = .ok
      ({ out := { nValue := 5000000000,
                  scriptPubKey := [65#8] ++ (4#8 :: List.replicate 64 0#8) ++ [OP_CHECKSIG] }
         fCoinBase := true
         nHeight := 7#31 }, rest) := by
  have hkeys : InvertsCompression zeroKeys := by
    intro pubkey _ _ hvalid
    obtain rfl : pubkey = 4#8 :: List.replicate 64 0#8 := beq_iff_eq.mp hvalid
    rfl
  exact ⟨rfl, (coin_encodings_read_back zeroKeys hkeys _ (by decide) (by decide)).2⟩

end Coins

end BitMinti.Analysis
