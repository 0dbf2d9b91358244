import Mathlib.Data.List.AList
import Mathlib.Algebra.BigOperators.Group.List.Basic

/-!
# Sums over association lists

The sum of a quantity over the values of an association list, and how it changes when one
entry is inserted, replaced or erased.
-/

set_option autoImplicit false

namespace BitMinti.Computation.AssocList

variable {κ β M : Type} [AddCommMonoid M] (f : β → M)

/-- The sum of `f` over the values. -/
def total (m : AList fun _ : κ => β) : M := (m.entries.map fun e => f e.2).sum

variable [DecidableEq κ]

theorem sum_kerase (k : κ) (l : List (Sigma fun _ : κ => β)) (hl : l.NodupKeys) :
    ((l.kerase k).map fun e => f e.2).sum + (l.dlookup k).elim 0 f =
      (l.map fun e => f e.2).sum := by
  induction l with
  | nil => simp
  | cons e l ih =>
    obtain ⟨j, v⟩ := e
    by_cases hj : k = j
    · subst hj
      simp [List.kerase_cons_eq, List.dlookup_cons_eq, add_comm]
    · rw [List.kerase_cons_ne hj, List.dlookup_cons_ne _ _ hj, List.map_cons, List.map_cons,
        List.sum_cons, List.sum_cons, add_assoc, ih (List.nodupKeys_cons.mp hl).2]

theorem total_erase (k : κ) (m : AList fun _ : κ => β) :
    total f (m.erase k) + (m.lookup k).elim 0 f = total f m :=
  sum_kerase f k m.entries m.nodupKeys

theorem total_insert (k : κ) (v : β) (m : AList fun _ : κ => β) :
    total f (m.insert k v) + (m.lookup k).elim 0 f = total f m + f v := by
  have hinsert : total f (m.insert k v) = f v + total f (m.erase k) := by
    rw [total, AList.entries_insert, List.map_cons, List.sum_cons]
    rfl
  rw [hinsert, add_assoc, total_erase, add_comm]

end BitMinti.Computation.AssocList
