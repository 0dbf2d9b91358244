import BitMinti.Model.Serialize
import BitMinti.Model.TxVerify

/-!
# Compressed coins

The database and the undo files hold coins in a compressed form: amounts without their trailing
zeros, the scripts of six common patterns without what the pattern fixes.  Other scripts follow
their length, which is moved up by the number of patterns.

Whether a public key is valid, and the decompression of a key, are parameters.

SOURCE: src/src/compressor.cpp:19-192, src/src/compressor.h:25-110, src/src/undo.h:22-49,
src/src/coins.h:60-77
-/

set_option autoImplicit false

namespace BitMinti.Model

open Computation.Reading

/-! ## Amounts -/

/-- The loop of `CompressAmount`, with `k` divisions by ten left: the number without trailing
zeros and how many were taken off. -/
def stripZeros : ℕ → BitVec 64 → BitVec 64 × ℕ
  | 0, n => (n, 9)
  | k + 1, n => if n % 10#64 = 0#64 then stripZeros k (n / 10#64) else (n, 9 - (k + 1))

def compressAmount (n : BitVec 64) : BitVec 64 :=
  if n = 0#64 then 0#64
  else
    let (n, e) := stripZeros 9 n
    if e < 9 then
      let d := n % 10#64
      let n := n / 10#64
      1#64 + (n * 9#64 + d - 1#64) * 10#64 + BitVec.ofNat 64 e
    else 1#64 + (n - 1#64) * 10#64 + 9#64

/-- The loop of `DecompressAmount`. -/
def appendZeros : ℕ → BitVec 64 → BitVec 64
  | 0, n => n
  | e + 1, n => appendZeros e (n * 10#64)

def decompressAmount (x : BitVec 64) : BitVec 64 :=
  if x = 0#64 then 0#64
  else
    let x := x - 1#64
    let e := (x % 10#64).toNat
    let x := x / 10#64
    let n := if e < 9 then x / 9#64 * 10#64 + (x % 9#64 + 1#64) else x + 1#64
    appendZeros e n

/-! ## Scripts -/

def OP_DUP : BitVec 8 := 0x76#8
def OP_EQUAL : BitVec 8 := 0x87#8
def OP_EQUALVERIFY : BitVec 8 := 0x88#8
def OP_HASH160 : BitVec 8 := 0xa9#8
def OP_CHECKSIG : BitVec 8 := 0xac#8

def isToKeyID (script : CScript) : Option (List Byte) :=
  if script.length = 25 ∧ script[0]? = some OP_DUP ∧ script[1]? = some OP_HASH160 ∧
      script[2]? = some 20#8 ∧ script[23]? = some OP_EQUALVERIFY ∧
      script[24]? = some OP_CHECKSIG then
    some ((script.drop 3).take 20)
  else none

def isToScriptID (script : CScript) : Option (List Byte) :=
  if script.length = 23 ∧ script[0]? = some OP_HASH160 ∧ script[1]? = some 20#8 ∧
      script[22]? = some OP_EQUAL then
    some ((script.drop 2).take 20)
  else none

/-- What the code knows of public keys.  A decompressed key has the size that `DecompressScript`
asserts. -/
structure PubKeys where
  isFullyValid : List Byte → Bool
  decompress : List Byte → Option (List Byte)
  size : ∀ vch pubkey, decompress vch = some pubkey → pubkey.length = 65

variable (keys : PubKeys)

def isToPubKey (script : CScript) : Option (List Byte) :=
  if script.length = 35 ∧ script[0]? = some 33#8 ∧ script[34]? = some OP_CHECKSIG ∧
      (script[1]? = some 0x02#8 ∨ script[1]? = some 0x03#8) then
    some ((script.drop 1).take 33)
  else if script.length = 67 ∧ script[0]? = some 65#8 ∧ script[66]? = some OP_CHECKSIG ∧
      script[1]? = some 0x04#8 then
    let pubkey := (script.drop 1).take 65
    if keys.isFullyValid pubkey then some pubkey else none
  else none

/-- The compressed form of a public key: an even or odd tag and the first coordinate. -/
def compressPubKey (pubkey : List Byte) : Option (List Byte) :=
  match pubkey[0]? with
  | none => none
  | some header =>
    if header = 0x02#8 ∨ header = 0x03#8 then some (header :: (pubkey.drop 1).take 32)
    else if header = 0x04#8 then
      some ((0x04#8 ||| (pubkey[64]?.getD 0#8 &&& 0x01#8)) :: (pubkey.drop 1).take 32)
    else none

def compressScript (script : CScript) : Option (List Byte) :=
  match isToKeyID script, isToScriptID script, isToPubKey keys script with
  | some keyID, _, _ => some (0x00#8 :: keyID)
  | none, some scriptID, _ => some (0x01#8 :: scriptID)
  | none, none, some pubkey => compressPubKey pubkey
  | none, none, none => none

def getSpecialScriptSize (nSize : ℕ) : ℕ :=
  if nSize = 0 ∨ nSize = 1 then 20
  else if nSize = 2 ∨ nSize = 3 ∨ nSize = 4 ∨ nSize = 5 then 32
  else 0

/-- `DecompressScript`: no script where the code leaves the old one as it is. -/
def decompressScript (nSize : ℕ) (vch : List Byte) : Option CScript :=
  match nSize with
  | 0 => some ([OP_DUP, OP_HASH160, 20#8] ++ vch ++ [OP_EQUALVERIFY, OP_CHECKSIG])
  | 1 => some ([OP_HASH160, 20#8] ++ vch ++ [OP_EQUAL])
  | 2 => some ([33#8, 2#8] ++ vch ++ [OP_CHECKSIG])
  | 3 => some ([33#8, 3#8] ++ vch ++ [OP_CHECKSIG])
  | 4 => (keys.decompress (2#8 :: vch)).map fun pubkey => [65#8] ++ pubkey ++ [OP_CHECKSIG]
  | 5 => (keys.decompress (3#8 :: vch)).map fun pubkey => [65#8] ++ pubkey ++ [OP_CHECKSIG]
  | _ => none

def nSpecialScripts : ℕ := 6

/-- The largest number of an `unsigned int`. -/
def UINT32_MAX : ℕ := 2 ^ 32 - 1

/-- The largest number of a `uint64_t`. -/
def UINT64_MAX : ℕ := 2 ^ 64 - 1

/-- `ScriptCompression::Ser`. -/
def serScript (script : CScript) : List Byte :=
  match compressScript keys script with
  | some compr => compr
  | none => writeVarInt (script.length + nSpecialScripts) ++ script

/-- `ScriptCompression::Unser`, into an empty script. -/
def unserScript : StreamM CScript := do
  let nSize ← readVarInt UINT32_MAX
  if nSize < nSpecialScripts then do
    let vch ← readBytes (getSpecialScriptSize nSize)
    pure ((decompressScript keys nSize vch).getD [])
  else if nSize - nSpecialScripts > MAX_SCRIPT_SIZE then do
    let _ ← takeN "DataStream::ignore(): end of data" (nSize - nSpecialScripts)
    pure [OP_RETURN]
  else readBytes (nSize - nSpecialScripts)

/-- `AmountCompression::Ser`. -/
def serAmount (val : CAmount) : List Byte :=
  writeVarInt (compressAmount (BitVec.ofInt 64 val)).toNat

/-- `AmountCompression::Unser`. -/
def unserAmount : StreamM CAmount := do
  let v ← readVarInt UINT64_MAX
  pure (decompressAmount (BitVec.ofNat 64 v)).toInt

/-- `TxOutCompression` written. -/
def serTxOut (obj : CTxOut) : List Byte := serAmount obj.nValue ++ serScript keys obj.scriptPubKey

/-- `TxOutCompression` read. -/
def unserTxOut : StreamM CTxOut := do
  let nValue ← unserAmount
  let scriptPubKey ← unserScript keys
  pure { nValue := nValue, scriptPubKey := scriptPubKey }

/-! ## Coins -/

/-- The height and whether the coin is from a coinbase, in one `uint32_t`. -/
def Coin.code (coin : Coin) : ℕ := (coin.nHeight.toNat * 2 + coin.fCoinBase.toNat) % 2 ^ 32

/-- A coin from its number and its output. -/
def Coin.ofCode (code : ℕ) (out : CTxOut) : Coin where
  out := out
  fCoinBase := code % 2 == 1
  nHeight := BitVec.ofNat 31 (code / 2)

/-- `Coin::Serialize`.  A spent coin must not be written. -/
def Coin.serialize (coin : Coin) : Option (List Byte) :=
  if coin.isSpent then none else some (writeVarInt coin.code ++ serTxOut keys coin.out)

def Coin.unserialize : StreamM Coin := do
  let code ← readVarInt UINT32_MAX
  let out ← unserTxOut keys
  pure (Coin.ofCode code out)

/-- `TxInUndoFormatter::Ser`. -/
def Coin.serializeUndo (coin : Coin) : List Byte :=
  writeVarInt coin.code ++
    ((if coin.nHeight.toNat > 0 then serWriteData8 0#8 else []) ++ serTxOut keys coin.out)

/-- The version that older undo files hold for coins above height zero. -/
def unserVersionDummy (nHeight : ℕ) : StreamM Unit :=
  if nHeight > 0 then do
    let _ ← readVarInt UINT32_MAX
    pure ()
  else pure ()

/-- `TxInUndoFormatter::Unser`. -/
def Coin.unserializeUndo : StreamM Coin := do
  let nCode ← readVarInt UINT32_MAX
  unserVersionDummy (nCode / 2)
  let out ← unserTxOut keys
  pure (Coin.ofCode nCode out)

end BitMinti.Model
