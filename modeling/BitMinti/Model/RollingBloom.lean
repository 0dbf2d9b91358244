import BitMinti.Model.CuckooCache
import Mathlib.Data.BitVec

/-!
# The rolling bloom filter

Two bits for each position say in which of three generations it was set last.  The numbers of hash
functions and of bits, which the constructor takes from logarithms of floating-point numbers, are
parameters, and so is the hash with its tweak.  An access behind the end of the data is `none`.

SOURCE: src/src/common/bloom.cpp:162-238, src/src/common/bloom.h:108-125
-/

set_option autoImplicit false

namespace BitMinti.Model

structure CRollingBloomFilter where
  nHashFuncs : ℕ
  nEntriesPerGeneration : ℕ
  nEntriesThisGeneration : ℕ
  nGeneration : ℕ
  /-- The words at even places, each with the word behind it. -/
  data : List (BitVec 64 × BitVec 64)

namespace CRollingBloomFilter

/-- The constructor.  `filterBits` is the formula for the bits that a number of elements needs. -/
def new (nElements : BitVec 32) (nHashFuncs : ℕ) (filterBits : BitVec 32 → BitVec 32) :
    CRollingBloomFilter :=
  let nEntriesPerGeneration := (nElements + 1) / 2
  let nFilterBits := filterBits (nEntriesPerGeneration * 3)
  { nHashFuncs
    nEntriesPerGeneration := nEntriesPerGeneration.toNat
    nEntriesThisGeneration := 0
    nGeneration := 1
    data := List.replicate ((nFilterBits + 63) / 64).toNat (0, 0) }

/-- The wiping of a generation, in two words. -/
def wipe (nGeneration : ℕ) (p : BitVec 64 × BitVec 64) : BitVec 64 × BitVec 64 :=
  let nGenerationMask1 := 0 - BitVec.ofNat 64 (nGeneration % 2)
  let nGenerationMask2 := 0 - BitVec.ofNat 64 (nGeneration / 2)
  let mask := (p.1 ^^^ nGenerationMask1) ||| (p.2 ^^^ nGenerationMask2)
  (p.1 &&& mask, p.2 &&& mask)

/-- A bit of a word replaced. -/
def putBit (word : BitVec 64) (bit v : ℕ) : BitVec 64 :=
  (word &&& ~~~(1#64 <<< bit)) ||| (BitVec.ofNat 64 v <<< bit)

/-- The index of the two words for a hash. -/
def wordsAt (h : BitVec 32) (data : List (BitVec 64 × BitVec 64)) : ℕ :=
  fastRange32 h (2 * data.length) / 2

/-- A round of the loop of `insert`. -/
def mark (nGeneration : ℕ) (data : List (BitVec 64 × BitVec 64)) (h : BitVec 32) :
    Option (List (BitVec 64 × BitVec 64)) :=
  let bit := h.toNat % 64
  data[wordsAt h data]?.map fun p => data.set (wordsAt h data)
    (putBit p.1 bit (nGeneration % 2), putBit p.2 bit (nGeneration / 2))

/-- The beginning of `insert`: a new generation where the present one is full. -/
def startGeneration (f : CRollingBloomFilter) : CRollingBloomFilter :=
  if f.nEntriesThisGeneration = f.nEntriesPerGeneration then
    let nGeneration := if f.nGeneration + 1 = 4 then 1 else f.nGeneration + 1
    { f with nEntriesThisGeneration := 0, nGeneration, data := f.data.map (wipe nGeneration) }
  else f

variable {Key : Type} (hash : ℕ → Key → BitVec 32)

def insert (f : CRollingBloomFilter) (vKey : Key) : Option CRollingBloomFilter :=
  let f := f.startGeneration
  ((List.range f.nHashFuncs).foldlM (fun data n => mark f.nGeneration data (hash n vKey))
    f.data).map fun data =>
      { f with nEntriesThisGeneration := f.nEntriesThisGeneration + 1, data }

def contains (f : CRollingBloomFilter) (vKey : Key) : Option Bool :=
  (List.range f.nHashFuncs).allM fun n =>
    let h := hash n vKey
    f.data[wordsAt h f.data]?.map fun p => ((p.1 ||| p.2 : BitVec 64) >>> (h.toNat % 64)).getLsbD 0

end CRollingBloomFilter

end BitMinti.Model
