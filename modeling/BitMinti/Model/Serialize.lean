import BitMinti.Model.Transaction
import BitMinti.Computation.Reading
import BitMinti.Computation.LittleEndian

/-!
# Serialization

Numbers are written with their lowest byte first, vectors after their `CompactSize`.  A reader
fails with the message of the `std::ios_base::failure` that the code throws.

The reader of a vector allocates in batches so that a claimed size cannot make it allocate much
more than the stream holds; the elements are read one after the other all the same, and the
batches are left out.

SOURCE: src/src/serialize.h:54-130, 288-440, 648-685, 800-880,
src/src/primitives/transaction.h:28-268
-/

set_option autoImplicit false

namespace BitMinti.Model

open Computation.Reading Computation.LittleEndian

/-- A byte. -/
abbrev Byte : Type := BitVec 8

/-- Code that reads from a stream, or throws. -/
abbrev StreamM (α : Type) : Type := Reader Byte String α

/-- What a stream throws at its end. -/
def endOfData : String := "DataStream::read(): end of data"

/-- `s.read` of `n` bytes. -/
def readBytes (n : ℕ) : StreamM (List Byte) := takeN endOfData n

/-! ## Numbers -/

/-- The `ser_writedata` functions, for a number of `n` bytes. -/
def serWriteData (n : ℕ) {w : ℕ} (obj : BitVec w) : List Byte := toLE n obj.toNat

/-- The `ser_readdata` functions. -/
def serReadData (n w : ℕ) : StreamM (BitVec w) := do
  let bytes ← readBytes n
  pure (BitVec.ofNat w (ofLE bytes))

def serWriteData8 (obj : BitVec 8) : List Byte := serWriteData 1 obj

def serWriteData16 (obj : BitVec 16) : List Byte := serWriteData 2 obj

def serWriteData32 (obj : BitVec 32) : List Byte := serWriteData 4 obj

def serWriteData64 (obj : BitVec 64) : List Byte := serWriteData 8 obj

def serReadData8 : StreamM (BitVec 8) := serReadData 1 8

def serReadData16 : StreamM (BitVec 16) := serReadData 2 16

def serReadData32 : StreamM (BitVec 32) := serReadData 4 32

def serReadData64 : StreamM (BitVec 64) := serReadData 8 64

/-! ## Sizes -/

def MAX_SIZE : ℕ := 0x02000000

def writeCompactSize (nSize : ℕ) : List Byte :=
  if nSize < 253 then serWriteData8 (BitVec.ofNat 8 nSize)
  else if nSize ≤ 0xffff then serWriteData8 253#8 ++ serWriteData16 (BitVec.ofNat 16 nSize)
  else if nSize ≤ 0xffffffff then serWriteData8 254#8 ++ serWriteData32 (BitVec.ofNat 32 nSize)
  else serWriteData8 255#8 ++ serWriteData64 (BitVec.ofNat 64 nSize)

/-- The longer forms of `ReadCompactSize`, which are refused for a size that a shorter form has
room for. -/
def readLongSize {w : ℕ} (read : StreamM (BitVec w)) (least : ℕ) : StreamM ℕ := do
  let nSizeRet ← read
  if nSizeRet.toNat < least then throw "non-canonical ReadCompactSize()"
  else pure nSizeRet.toNat

/-- The four forms of a size, by the first byte. -/
def readSizeForm (chSize : BitVec 8) : StreamM ℕ :=
  if chSize.toNat < 253 then pure chSize.toNat
  else if chSize = 253#8 then readLongSize serReadData16 253
  else if chSize = 254#8 then readLongSize serReadData32 0x10000
  else readLongSize serReadData64 0x100000000

def readCompactSize (range_check : Bool) : StreamM ℕ := do
  let chSize ← serReadData8
  let nSizeRet ← readSizeForm chSize
  if range_check && decide (nSizeRet > MAX_SIZE) then
    throw "ReadCompactSize(): size too large"
  else pure nSizeRet

/-! ## Vectors -/

/-- A vector of bytes written. -/
def serBytes (v : List Byte) : List Byte := writeCompactSize v.length ++ v

/-- A vector of bytes read. -/
def unserBytes : StreamM (List Byte) := do
  let nSize ← readCompactSize true
  readBytes nSize

/-- `VectorFormatter::Ser`. -/
def serVector {α : Type} (ser : α → List Byte) (v : List α) : List Byte :=
  writeCompactSize v.length ++ v.flatMap ser

/-- `VectorFormatter::Unser`. -/
def unserVector {α : Type} (unser : StreamM α) : StreamM (List α) := do
  let size ← readCompactSize true
  many unser size

/-! ## Variable-length numbers -/

/-- The loop of `WriteVarInt`, with the bytes of the lower digits behind the one to come.  All
bytes but the last have their highest bit set. -/
def writeVarIntLoop (n : ℕ) (tmp : List Byte) : List Byte :=
  let byte := BitVec.ofNat 8 (n % 128 + if tmp.isEmpty then 0 else 128)
  if n ≤ 0x7F then byte :: tmp else writeVarIntLoop (n / 128 - 1) (byte :: tmp)
termination_by n

def writeVarInt (n : ℕ) : List Byte := writeVarIntLoop n []

/-- The loop of `ReadVarInt` for a type whose largest number is `max`. -/
def readVarIntLoop (max : ℕ) : ℕ → List Byte → Except String (ℕ × List Byte)
  | _, [] => .error endOfData
  | n, chData :: rest =>
    if n > max / 128 then .error "ReadVarInt(): size too large"
    else
      let n := n * 128 + chData.toNat % 128
      if chData.toNat ≥ 128 then
        if n = max then .error "ReadVarInt(): size too large"
        else readVarIntLoop max (n + 1) rest
      else .ok (n, rest)

def readVarInt (max : ℕ) : StreamM ℕ := readVarIntLoop max 0

/-! ## Transactions -/

/-- A 256-bit hash written. -/
def serUint256 (hash : Uint256) : List Byte := serWriteData 32 hash

/-- A 256-bit hash read. -/
def unserUint256 : StreamM Uint256 := serReadData 32 256

/-- An `int64_t` written. -/
def serInt64 (n : ℤ) : List Byte := serWriteData64 (BitVec.ofInt 64 n)

/-- An `int64_t` read. -/
def unserInt64 : StreamM ℤ := do
  let n ← serReadData64
  pure n.toInt

/-- `COutPoint` written. -/
def COutPoint.serialize (obj : COutPoint) : List Byte := serUint256 obj.hash ++ serWriteData32 obj.n

/-- `COutPoint` read. -/
def COutPoint.unserialize : StreamM COutPoint := do
  let hash ← unserUint256
  let n ← serReadData32
  pure { hash := hash, n := n }

/-- `CTxIn` written, without its witness. -/
def CTxIn.serialize (obj : CTxIn) : List Byte :=
  obj.prevout.serialize ++ (serBytes obj.scriptSig ++ serWriteData32 obj.nSequence)

/-- `CTxIn` read, with an empty witness. -/
def CTxIn.unserialize : StreamM CTxIn := do
  let prevout ← COutPoint.unserialize
  let scriptSig ← unserBytes
  let nSequence ← serReadData32
  pure { prevout := prevout, scriptSig := scriptSig, nSequence := nSequence }

/-- `CTxOut` written. -/
def CTxOut.serialize (obj : CTxOut) : List Byte := serInt64 obj.nValue ++ serBytes obj.scriptPubKey

/-- `CTxOut` read. -/
def CTxOut.unserialize : StreamM CTxOut := do
  let nValue ← unserInt64
  let scriptPubKey ← unserBytes
  pure { nValue := nValue, scriptPubKey := scriptPubKey }

def CTransaction.hasWitness (tx : CTransaction) : Bool :=
  tx.vin.any fun txin => !txin.scriptWitness.isEmpty

/-- The witness stack of an input read into it. -/
def CTxIn.unserializeWitness (txin : CTxIn) : StreamM CTxIn := do
  let stack ← unserVector unserBytes
  pure { txin with scriptWitness := stack }

/-- The loop over the inputs that reads their witnesses. -/
def unserializeWitnesses : List CTxIn → StreamM (List CTxIn)
  | [] => pure []
  | txin :: rest => do
      let txin ← txin.unserializeWitness
      let rest ← unserializeWitnesses rest
      pure (txin :: rest)

/-- What `UnserializeTransaction` reads between the version and the witnesses: the inputs, the
outputs and the flags.  An empty vector of inputs may be the dummy of the extended format. -/
def unserializeVinVout (fAllowWitness : Bool) :
    StreamM (List CTxIn × List CTxOut × BitVec 8) := do
  let vin ← unserVector CTxIn.unserialize
  if vin.isEmpty && fAllowWitness then do
    let flags ← serReadData8
    if flags ≠ 0#8 then do
      let vin ← unserVector CTxIn.unserialize
      let vout ← unserVector CTxOut.unserialize
      pure (vin, vout, flags)
    else pure ([], [], flags)
  else do
    let vout ← unserVector CTxOut.unserialize
    pure (vin, vout, 0#8)

/-- What `UnserializeTransaction` does about the flags: the witnesses are read where they are
announced, and there is nothing else that a flag could announce. -/
def unserializeFlagged (fAllowWitness : Bool) (flags : BitVec 8) (tx : CTransaction) :
    StreamM CTransaction :=
  if flags &&& 1#8 ≠ 0#8 ∧ fAllowWitness = true then do
    let vin ← unserializeWitnesses tx.vin
    let tx := { tx with vin := vin }
    if !tx.hasWitness then throw "Superfluous witness record"
    else if flags ^^^ 1#8 ≠ 0#8 then throw "Unknown transaction optional data"
    else pure tx
  else if flags ≠ 0#8 then throw "Unknown transaction optional data"
  else pure tx

def unserializeTransaction (fAllowWitness : Bool) : StreamM CTransaction := do
  let version ← serReadData32
  let (vin, vout, flags) ← unserializeVinVout fAllowWitness
  let tx ← unserializeFlagged fAllowWitness flags
    { vin := vin, vout := vout, version := version, nLockTime := 0#32 }
  let nLockTime ← serReadData32
  pure { tx with nLockTime := nLockTime }

def serializeTransaction (fAllowWitness : Bool) (tx : CTransaction) : List Byte :=
  let flags : BitVec 8 := if fAllowWitness && tx.hasWitness then 1#8 else 0#8
  serWriteData32 tx.version ++
    ((if flags ≠ 0#8 then serVector CTxIn.serialize [] ++ serWriteData8 flags else []) ++
    (serVector CTxIn.serialize tx.vin ++
    (serVector CTxOut.serialize tx.vout ++
    ((if flags &&& 1#8 ≠ 0#8 then
        tx.vin.flatMap fun txin => serVector serBytes txin.scriptWitness
      else []) ++
    serWriteData32 tx.nLockTime))))

end BitMinti.Model
