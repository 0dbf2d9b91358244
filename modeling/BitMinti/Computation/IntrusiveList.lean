import Mathlib.Logic.Function.Basic

/-!
# Intrusive doubly linked lists

Nodes that carry their own links, closed into a ring by a sentinel.  The links are two
functions on addresses, where `none` is the address of the sentinel and `some k` that of the
node `k`.  `pushBack` and `unlink` are the pointer assignments that add and remove a node.
-/

set_option autoImplicit false

namespace BitMinti.Computation.IntrusiveList

variable {κ : Type}

/-- The link fields of the sentinel and of all nodes. -/
structure Links (κ : Type) where
  next : Option κ → Option κ
  prev : Option κ → Option κ

namespace Links

/-- The ring of the sentinel alone. -/
def empty : Links κ := ⟨fun _ => none, fun _ => none⟩

section Ops

variable [DecidableEq κ]

/-- Linking a node in before the sentinel. -/
def pushBack (L : Links κ) (k : κ) : Links κ where
  next := Function.update (Function.update L.next (some k) none) (L.prev none) (some k)
  prev := Function.update (Function.update L.prev (some k) (L.prev none)) none (some k)

/-- Linking the neighbours of a node to each other. -/
def unlink (L : Links κ) (k : κ) : Links κ where
  next := Function.update L.next (L.prev (some k)) (L.next (some k))
  prev := Function.update L.prev (L.next (some k)) (L.prev (some k))

end Ops

end Links

end BitMinti.Computation.IntrusiveList
