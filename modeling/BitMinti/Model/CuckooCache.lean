import Mathlib.Algebra.Order.Ring.Nat
import Mathlib.Tactic.Common

/-!
# The cuckoo cache

A table in which an element has eight places.  Flags say which slots may be overwritten, and which
slots were filled in the present epoch.  The depth of an insertion, which the source takes from a
logarithm of floating-point numbers, is a parameter.

SOURCE: src/src/cuckoocache.h:163-484, src/src/util/fastrange.h:19-22
-/

set_option autoImplicit false

namespace BitMinti.Model

/-- `FastRange32`. -/
def fastRange32 (x : BitVec 32) (n : ℕ) : ℕ := x.toNat * n / 2 ^ 32

theorem fastRange32_lt (x : BitVec 32) {n : ℕ} (hn : 0 < n) : fastRange32 x n < n := by
  refine Nat.div_lt_of_lt_mul ?_
  exact Nat.mul_lt_mul_of_pos_right x.isLt hn

/-- `cache` with `size` slots. -/
structure CuckooCache (Element : Type) (size : ℕ) where
  table : Fin size → Element
  /-- Whether the element of a slot may be discarded. -/
  collection_flags : Fin size → Bool
  /-- Whether the element of a slot is recent. -/
  epoch_flags : Fin size → Bool
  epoch_heuristic_counter : ℕ

namespace CuckooCache

variable {Element : Type} [DecidableEq Element] {size : ℕ} [NeZero size]
  (hash_function : Fin 8 → Element → BitVec 32)

/-- `compute_hashes`. -/
def computeHashes (e : Element) (k : Fin 8) : Fin size :=
  ⟨fastRange32 (hash_function k e) size, fastRange32_lt _ (Nat.pos_of_neZero size)⟩

/-- The first of the locations of an element for which a test holds. -/
def findLoc (locs : Fin 8 → Fin size) (test : Fin size → Bool) : Option (Fin size) :=
  (List.ofFn locs).find? test

def allowErase (c : CuckooCache Element size) (n : Fin size) : CuckooCache Element size :=
  { c with collection_flags := Function.update c.collection_flags n true }

def pleaseKeep (c : CuckooCache Element size) (n : Fin size) : CuckooCache Element size :=
  { c with collection_flags := Function.update c.collection_flags n false }

def setEpoch (c : CuckooCache Element size) (n : Fin size) (epoch : Bool) :
    CuckooCache Element size :=
  { c with epoch_flags := Function.update c.epoch_flags n epoch }

def setTable (c : CuckooCache Element size) (n : Fin size) (e : Element) :
    CuckooCache Element size :=
  { c with table := Function.update c.table n e }

/-- `epoch_size`, as `setup` computes it. -/
def epochSize (size : ℕ) : ℕ := max 1 (45 * size % 2 ^ 32 / 100)

/-- `epoch_check`. -/
def epochCheck (c : CuckooCache Element size) : CuckooCache Element size :=
  if c.epoch_heuristic_counter ≠ 0 then
    { c with epoch_heuristic_counter := c.epoch_heuristic_counter - 1 }
  else
    let epoch_unused_count :=
      (List.finRange size).countP fun i => c.epoch_flags i && !c.collection_flags i
    if epochSize size ≤ epoch_unused_count then
      { c with
        epoch_flags := fun _ => false
        collection_flags := fun i => !c.epoch_flags i || c.collection_flags i
        epoch_heuristic_counter := epochSize size }
    else
      { c with
        epoch_heuristic_counter :=
          max 1 (max (epochSize size / 16) (epochSize size - epoch_unused_count)) }

/-- `setup` of a new cache. -/
def setup [Inhabited Element] : CuckooCache Element size where
  table _ := default
  collection_flags _ := true
  epoch_flags _ := false
  epoch_heuristic_counter := epochSize size

/-- The location behind the last one; `last_loc` is at first invalid. -/
def nextLoc (locs : Fin 8 → Fin size) (last_loc : Option (Fin size)) : Fin size :=
  locs (Fin.ofNat 8 (1 + (List.ofFn locs).findIdx fun loc => some loc == last_loc))

/-- The loop of `insert`. -/
def insertLoop : ℕ → Element → Option (Fin size) → Bool → CuckooCache Element size →
    CuckooCache Element size
  | 0, _, _, _, c => c
  | depth + 1, e, last_loc, last_epoch, c =>
    let locs := computeHashes hash_function e
    match findLoc locs c.collection_flags with
    | some loc => ((c.setTable loc e).pleaseKeep loc).setEpoch loc last_epoch
    | none =>
      let loc := nextLoc locs last_loc
      insertLoop depth (c.table loc) (some loc) (c.epoch_flags loc)
        ((c.setTable loc e).setEpoch loc last_epoch)

def insert (depth_limit : ℕ) (c : CuckooCache Element size) (e : Element) :
    CuckooCache Element size :=
  let c := c.epochCheck
  match findLoc (computeHashes hash_function e) (fun loc => c.table loc == e) with
  | some loc => (c.pleaseKeep loc).setEpoch loc true
  | none => insertLoop hash_function depth_limit e none true c

/-- `contains`, with the cache after it. -/
def contains (c : CuckooCache Element size) (e : Element) (erase : Bool) :
    Bool × CuckooCache Element size :=
  match findLoc (computeHashes hash_function e) (fun loc => c.table loc == e) with
  | some loc => (true, if erase then c.allowErase loc else c)
  | none => (false, c)

/-- A call. -/
inductive Call (Element : Type) where
  | insert (e : Element)
  | contains (e : Element) (erase : Bool)

def Call.element : Call Element → Element
  | .insert e => e
  | .contains e _ => e

def call (depth_limit : ℕ) (c : CuckooCache Element size) :
    Call Element → CuckooCache Element size
  | .insert e => insert hash_function depth_limit c e
  | .contains e erase => (contains hash_function c e erase).2

/-- The cache after some calls. -/
def after [Inhabited Element] (depth_limit : ℕ) (calls : List (Call Element)) :
    CuckooCache Element size :=
  calls.foldl (call hash_function depth_limit) setup

end CuckooCache

end BitMinti.Model
