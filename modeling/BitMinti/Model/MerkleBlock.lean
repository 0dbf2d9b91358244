import BitMinti.Model.Merkle

/-!
# Partial Merkle trees

`CPartialMerkleTree` proves that some transactions of a block are in it.  A node is flagged when a
matched transaction is below it; flagged nodes are descended into and the hashes of the others are
stored, both in depth-first order.  The receiver walks the tree the same way and computes the root.

The hash of a pair is a parameter and `null` is the null hash.

SOURCE: src/src/merkleblock.cpp:12-28, 57-183, src/src/merkleblock.h:55-120,
src/src/consensus/consensus.h:15-23
-/

set_option autoImplicit false

namespace BitMinti.Model

def MIN_TRANSACTION_WEIGHT : ℕ := WITNESS_SCALE_FACTOR * 60

/-! ## Bits and bytes -/

/-- The byte of `ret` that `BitsToBytes` changes for a bit. -/
def setBit (bits : List Bool) (ret : List (BitVec 8)) (p : ℕ) : List (BitVec 8) :=
  ret.modify (p / 8) (· ||| ((BitVec.ofBool (bits.getD p false)).setWidth 8 <<< (p % 8)))

def bitsToBytes (bits : List Bool) : List (BitVec 8) :=
  (List.range bits.length).foldl (setBit bits) (List.replicate ((bits.length + 7) / 8) 0#8)

def bytesToBits (bytes : List (BitVec 8)) : List Bool :=
  (List.range (bytes.length * 8)).map fun p =>
    bytes.getD (p / 8) 0#8 &&& (1#8 <<< (p % 8)) != 0#8

/-! ## The tree -/

structure CPartialMerkleTree (H : Type) where
  nTransactions : ℕ
  vBits : List Bool
  vHash : List H
  fBad : Bool

def calcTreeWidth (nTransactions height : ℕ) : ℕ :=
  (nTransactions + 2 ^ height - 1) / 2 ^ height

/-- The loop that looks for the height of the tree; the number of transactions bounds it. -/
def treeHeightLoop (nTransactions : ℕ) : ℕ → ℕ → ℕ
  | 0, nHeight => nHeight
  | fuel + 1, nHeight =>
    if calcTreeWidth nTransactions nHeight > 1 then
      treeHeightLoop nTransactions fuel (nHeight + 1)
    else nHeight

/-- The height of the tree. -/
def treeHeight (nTransactions : ℕ) : ℕ := treeHeightLoop nTransactions nTransactions 0

section Build

variable {H : Type} (hash2 : H → H → H) (vTxid : List H) (vMatch : List Bool)

def calcHash (nTransactions : ℕ) : ℕ → ℕ → Option H
  | 0, pos => vTxid[pos]?
  | height + 1, pos => do
      let left ← calcHash nTransactions height (pos * 2)
      let right ←
        if pos * 2 + 1 < calcTreeWidth nTransactions height then
          calcHash nTransactions height (pos * 2 + 1)
        else some left
      some (hash2 left right)

/-- Whether a matched transaction is below a node. -/
def parentOfMatch (nTransactions height pos : ℕ) : Bool :=
  (List.range' (pos * 2 ^ height) (2 ^ height)).any fun p =>
    decide (p < nTransactions) && vMatch.getD p false

/-- Storing the flag and the hash of a node. -/
def storeHash (height pos : ℕ) (t : CPartialMerkleTree H) : Option (CPartialMerkleTree H) := do
  let hash ← calcHash hash2 vTxid t.nTransactions height pos
  some { t with
    vBits := t.vBits ++ [parentOfMatch vMatch t.nTransactions height pos]
    vHash := t.vHash ++ [hash] }

def traverseAndBuild : ℕ → ℕ → CPartialMerkleTree H → Option (CPartialMerkleTree H)
  | 0, pos, t => storeHash hash2 vTxid vMatch 0 pos t
  | height + 1, pos, t =>
    if parentOfMatch vMatch t.nTransactions (height + 1) pos then do
      let t ← traverseAndBuild height (pos * 2) { t with vBits := t.vBits ++ [true] }
      if pos * 2 + 1 < calcTreeWidth t.nTransactions height then
        traverseAndBuild height (pos * 2 + 1) t
      else some t
    else storeHash hash2 vTxid vMatch (height + 1) pos t

/-- The constructor that selects some of the transactions of a block. -/
def CPartialMerkleTree.ofTxids : Option (CPartialMerkleTree H) :=
  traverseAndBuild hash2 vTxid vMatch (treeHeight vTxid.length) 0
    { nTransactions := vTxid.length, vBits := [], vHash := [], fBad := false }

end Build

/-- What the flags of a tree are after the tree has been written and read. -/
def CPartialMerkleTree.unserialize {H : Type} (t : CPartialMerkleTree H) : CPartialMerkleTree H :=
  { t with vBits := bytesToBits (bitsToBytes t.vBits), fBad := false }

/-! ## `ExtractMatches` -/

section Extract

variable {H : Type} [DecidableEq H] (hash2 : H → H → H) (null : H) (t : CPartialMerkleTree H)

/-- The variables of a traversal. -/
structure Traversal (H : Type) where
  nBitsUsed : ℕ := 0
  nHashUsed : ℕ := 0
  vMatch : List H := []
  vnIndex : List ℕ
  fBad : Bool

omit [DecidableEq H] in
/-- Using the next hash, that of a matched transaction or of a node that is not descended into. -/
def useHash (matched : Bool) (pos : ℕ) (s : Traversal H) : H × Traversal H :=
  match t.vHash[s.nHashUsed]? with
  | none => (null, { s with fBad := true })
  | some hash =>
    (hash, { s with
      nHashUsed := s.nHashUsed + 1
      vMatch := if matched then s.vMatch ++ [hash] else s.vMatch
      vnIndex := if matched then s.vnIndex ++ [pos] else s.vnIndex })

def traverseAndExtract : ℕ → ℕ → Traversal H → H × Traversal H
  | 0, pos, s =>
    match t.vBits[s.nBitsUsed]? with
    | none => (null, { s with fBad := true })
    | some fParentOfMatch =>
      useHash null t fParentOfMatch pos { s with nBitsUsed := s.nBitsUsed + 1 }
  | height + 1, pos, s =>
    match t.vBits[s.nBitsUsed]? with
    | none => (null, { s with fBad := true })
    | some false => useHash null t false pos { s with nBitsUsed := s.nBitsUsed + 1 }
    | some true =>
      let (left, s) :=
        traverseAndExtract height (pos * 2) { s with nBitsUsed := s.nBitsUsed + 1 }
      if pos * 2 + 1 < calcTreeWidth t.nTransactions height then
        let (right, s) := traverseAndExtract height (pos * 2 + 1) s
        (hash2 left right, if right = left then { s with fBad := true } else s)
      else (hash2 left left, s)

/-- What `ExtractMatches` returns and leaves behind. -/
structure Extracted (H : Type) where
  root : H
  vMatch : List H
  vnIndex : List ℕ
  fBad : Bool

/-- `ExtractMatches`.  It clears `vMatch` and appends to `vnIndex`. -/
def extractMatches (vnIndex : List ℕ) : Extracted H :=
  if t.nTransactions = 0 then ⟨null, [], vnIndex, t.fBad⟩
  else if t.nTransactions > MAX_BLOCK_WEIGHT / MIN_TRANSACTION_WEIGHT then
    ⟨null, [], vnIndex, t.fBad⟩
  else if t.vHash.length > t.nTransactions then ⟨null, [], vnIndex, t.fBad⟩
  else if t.vBits.length < t.vHash.length then ⟨null, [], vnIndex, t.fBad⟩
  else
    let (hashMerkleRoot, s) := traverseAndExtract hash2 null t (treeHeight t.nTransactions) 0
      { vnIndex := vnIndex, fBad := t.fBad }
    let root :=
      if s.fBad then null
      else if (s.nBitsUsed + 7) / 8 ≠ (t.vBits.length + 7) / 8 then null
      else if s.nHashUsed ≠ t.vHash.length then null
      else hashMerkleRoot
    ⟨root, s.vMatch, s.vnIndex, s.fBad⟩

end Extract

end BitMinti.Model
