import BitMinti.Model.ConnectBlock
import BitMinti.Computation.Pairs

/-!
# Merkle roots

`ComputeMerkleRoot` hashes neighbours level by level, the last hash with itself where a level is
odd, and notes whether two neighbours were equal.  `CheckMerkleRoot` compares the root with the
one in the header and refuses a block with equal neighbours.  `MerkleComputation` gathers in one
pass over the leaves what a leaf is hashed with on its way to the root.

The hash of a pair is a parameter; `BlockWitnessMerkleRoot` is left out.

SOURCE: src/src/consensus/merkle.cpp:46-73, 87-180, src/src/validation.cpp:4474-4499
-/

set_option autoImplicit false

namespace BitMinti.Model

open Computation.Pairs

section Root

variable {H : Type} (hash2 : H → H → H)

/-- `SHA256D64` on a level: every two neighbours hashed into one. -/
def sha256D64 : List H → List H
  | [] => []
  | [_] => []
  | a :: b :: rest => hash2 a b :: sha256D64 rest

/-- `push_back(back())` on an odd level. -/
def pushBackOdd (hashes : List H) : List H :=
  if hashes.length % 2 = 1 then hashes ++ hashes.getLast?.toList else hashes

/-- The body of the loop of `ComputeMerkleRoot`. -/
def nextLevel (hashes : List H) : List H := sha256D64 hash2 (pushBackOdd hashes)

theorem sha256D64_eq (hashes : List H) :
    sha256D64 hash2 hashes = (pairs hashes).map fun p => hash2 p.1 p.2 := by
  induction hashes using sha256D64.induct with
  | case1 => rfl
  | case2 a => rfl
  | case3 a b rest ih => rw [sha256D64, ih, pairs_cons_cons, List.map_cons]

theorem nextLevel_eq (hashes : List H) :
    nextLevel hash2 hashes = (pairs (padEven hashes)).map fun p => hash2 p.1 p.2 :=
  sha256D64_eq hash2 (padEven hashes)

theorem length_nextLevel_lt {hashes : List H} (h : hashes.length > 1) :
    (nextLevel hash2 hashes).length < hashes.length := by
  rw [nextLevel_eq, List.length_map, length_pairs_padEven]
  omega

variable [DecidableEq H]

/-- The loop that looks for two equal neighbours. -/
def equalNeighbours : List H → Bool
  | [] => false
  | [_] => false
  | a :: b :: rest => a == b || equalNeighbours rest

/-- The loop of `ComputeMerkleRoot`, with what it has noted so far. -/
def computeMerkleRootLoop (hashes : List H) (mutation : Bool) : List H × Bool :=
  if h : hashes.length > 1 then
    have := length_nextLevel_lt hash2 h
    computeMerkleRootLoop (nextLevel hash2 hashes) (mutation || equalNeighbours hashes)
  else (hashes, mutation)
termination_by hashes.length

/-- `ComputeMerkleRoot`: the root, and whether the list is mutated.  The root of no hashes is the
null hash. -/
def computeMerkleRoot (null : H) (hashes : List H) : H × Bool :=
  let (hashes, mutation) := computeMerkleRootLoop hash2 hashes false
  (hashes.head?.getD null, mutation)

end Root

/-! ## Merkle paths -/

section Path

variable {H : Type} (hash2 : H → H → H)

/-- What `MerkleComputation` carries from level to level: a hash, whether the matching leaf is below
it, and the path so far. -/
structure MerkleClimb (H : Type) where
  level : ℕ
  h : H
  matchh : Bool
  path : List H

/-- Combining a hash with the ones in `inner` as long as the bit of `count` at its level is zero.
`left` counts the levels up to 32, where the shift is undefined and `inner` ends: there is no result
from there on. -/
def climbLevels (inner : ℕ → H) (matchlevel : Option ℕ) (count : ℕ) :
    ℕ → MerkleClimb H → Option (MerkleClimb H)
  | 0, _ => none
  | left + 1, c =>
    if count.testBit c.level then some c
    else
      climbLevels inner matchlevel count left
        { level := c.level + 1
          h := hash2 (inner c.level) c.h
          matchh := c.matchh || matchlevel == some c.level
          path :=
            if c.matchh then c.path ++ [inner c.level]
            else if matchlevel = some c.level then c.path ++ [c.h]
            else c.path }

/-- The variables of `MerkleComputation`; `matchlevel` is `none` for `-1`. -/
structure MerkleState (H : Type) where
  count : ℕ
  inner : ℕ → H
  matchlevel : Option ℕ
  path : List H

/-- Processing a leaf.  `count` has 32 bits. -/
def addLeaf (leaf_pos : ℕ) (s : MerkleState H) (leaf : H) : Option (MerkleState H) := do
  let count := (s.count + 1) % 2 ^ 32
  let c ← climbLevels hash2 s.inner s.matchlevel count 32 ⟨0, leaf, s.count == leaf_pos, s.path⟩
  some
    { count := count
      inner := Function.update s.inner c.level c.h
      matchlevel := if c.matchh then some c.level else s.matchlevel
      path := c.path }

/-- The lowest bit of `count` that is set. -/
def lowestBit (count : ℕ) : ℕ → ℕ → Option ℕ
  | 0, _ => none
  | left + 1, level => if count.testBit level then some level else lowestBit count left (level + 1)

/-- The final sweep over the rightmost branch.  Every pass raises the level, which stays below
32. -/
def finalSweep (inner : ℕ → H) (matchlevel : Option ℕ) :
    ℕ → ℕ → MerkleClimb H → Option (List H)
  | 0, _, _ => none
  | fuel + 1, count, c =>
    if count = 2 ^ c.level then some c.path
    else do
      let count := (count + 2 ^ c.level) % 2 ^ 32
      let c' ← climbLevels hash2 inner matchlevel count (32 - (c.level + 1))
        { level := c.level + 1
          h := hash2 c.h c.h
          matchh := c.matchh
          path := if c.matchh then c.path ++ [c.h] else c.path }
      finalSweep inner matchlevel fuel count c'

/-- `MerkleComputation`: the path, or nothing where the code has no defined behaviour. -/
def merkleComputation (null : H) (leaves : List H) (leaf_pos : ℕ) : Option (List H) :=
  if leaves = [] then some []
  else do
    let s ← leaves.foldlM (addLeaf hash2 leaf_pos) ⟨0, fun _ => null, none, []⟩
    let level ← lowestBit s.count 32 0
    finalSweep hash2 s.inner s.matchlevel 32 s.count
      ⟨level, s.inner level, s.matchlevel == some level, s.path⟩

/-- A leaf hashed with a path, left or right by the bits of its position. -/
def rootFromPath : H → List H → ℕ → H
  | h, [], _ => h
  | h, s :: path, pos =>
    rootFromPath (if pos % 2 = 1 then hash2 s h else hash2 h s) path (pos / 2)

end Path

section Block

variable (hash2 : Uint256 → Uint256 → Uint256) (getTxHash : CTransaction → Uint256)

def blockMerkleRoot (block : CBlock) : Uint256 × Bool :=
  computeMerkleRoot hash2 0#256 (block.vtx.map getTxHash)

def transactionMerklePath (block : CBlock) (position : ℕ) : Option (List Uint256) :=
  merkleComputation hash2 0#256 (block.vtx.map getTxHash) position

/-- What `CheckMerkleRoot` finds when it has not looked at the block before. -/
def merkleVerdict (block : CBlock) : Except Invalid Unit :=
  let (merkle_root, mutated) := blockMerkleRoot hash2 getTxHash block
  if block.hashMerkleRoot ≠ merkle_root then
    .error ⟨.mutated, "bad-txnmrklroot", "hashMerkleRoot mismatch"⟩
  else if mutated then .error ⟨.mutated, "bad-txns-duplicate", "duplicate transaction"⟩
  else .ok ()

/-- A block in memory.  The flag that its root has been checked stands only for this block:
whoever changes the block resets it. -/
structure BlockInMemory where
  block : CBlock
  m_checked_merkle_root : Bool := false
  checked : m_checked_merkle_root = true → merkleVerdict hash2 getTxHash block = .ok () := by simp

/-- `CheckMerkleRoot`: the verdict, and the block with its flag. -/
def checkMerkleRoot (b : BlockInMemory hash2 getTxHash) :
    Except Invalid Unit × BlockInMemory hash2 getTxHash :=
  if b.m_checked_merkle_root then (.ok (), b)
  else
    match h : merkleVerdict hash2 getTxHash b.block with
    | .error i => (.error i, b)
    | .ok () => (.ok (), { b with m_checked_merkle_root := true, checked := fun _ => h })

end Block

end BitMinti.Model
