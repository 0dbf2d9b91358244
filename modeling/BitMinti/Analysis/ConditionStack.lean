import BitMinti.Model.Interpreter

/-!
# `ConditionStack` stands for a stack of conditions

Only the size and the position of the first false value are stored.  What lies above that position
is forgotten, and comes up again only after the value at that position has changed.

SOURCE: src/src/script/interpreter.cpp:273-318
-/

set_option autoImplicit false

namespace BitMinti.Analysis

open Model

open ConditionStack (NO_FALSE)

/-- The calls of a `ConditionStack` beside the plain stack it stands for, with `push_back` where
the plain stack is in `room`. -/
inductive ConditionRun (room : List Bool → Prop) : ConditionStack → List Bool → Prop
  | new : ConditionRun room {} []
  | pushBack {c : ConditionStack} {vf : List Bool} (f : Bool) (hroom : room vf)
      (h : ConditionRun room c vf) : ConditionRun room (c.pushBack f) (vf ++ [f])
  | popBack {c : ConditionStack} {vf : List Bool} {f : Bool} (h : ConditionRun room c (vf ++ [f])) :
      ConditionRun room c.popBack vf
  | toggleTop {c : ConditionStack} {vf : List Bool} {f : Bool}
      (h : ConditionRun room c (vf ++ [f])) : ConditionRun room c.toggleTop (vf ++ [!f])

/-- What a `ConditionStack` stores of a stack. -/
def storedOf (vf : List Bool) : ConditionStack where
  m_stack_size := BitVec.ofNat 32 vf.length
  m_first_false_pos := if false ∈ vf then BitVec.ofNat 32 (vf.idxOf false) else NO_FALSE

theorem ofNat_ne_of_lt {a b : ℕ} (hab : a < b) (hb : b < 2 ^ 32) :
    BitVec.ofNat 32 a ≠ BitVec.ofNat 32 b := by
  intro h
  have htoNat := congrArg BitVec.toNat h
  rw [BitVec.toNat_ofNat, BitVec.toNat_ofNat, Nat.mod_eq_of_lt (by omega),
    Nat.mod_eq_of_lt hb] at htoNat
  omega

/-- **What is above the first false value does not matter.** -/
theorem storedOf_calls (vf : List Bool) (f : Bool) (h : vf.length + 1 < 2 ^ 32) :
    (storedOf vf).pushBack f = storedOf (vf ++ [f]) ∧
      (storedOf (vf ++ [f])).popBack = storedOf vf ∧
      (storedOf (vf ++ [f])).toggleTop = storedOf (vf ++ [!f]) := by
  have hsize : BitVec.ofNat 32 (vf.length + 1) - 1 = BitVec.ofNat 32 vf.length := by
    rw [BitVec.ofNat_add]
    exact BitVec.add_sub_cancel _ _
  have hno {n : ℕ} (hn : n + 1 < 2 ^ 32) : BitVec.ofNat 32 n ≠ NO_FALSE :=
    ofNat_ne_of_lt (show n < 2 ^ 32 - 1 by omega) (by omega)
  simp only [storedOf, ConditionStack.pushBack, ConditionStack.popBack, ConditionStack.toggleTop,
    List.length_append, List.length_singleton, hsize]
  by_cases hmem : false ∈ vf
  · have hlt := List.idxOf_lt_length_of_mem hmem
    simp [hmem, List.idxOf_append_of_mem hmem, hno (show vf.idxOf false + 1 < _ by omega),
      ofNat_ne_of_lt hlt (by omega), BitVec.ofNat_add]
  · cases f <;> simp [hmem, List.idxOf_append_of_notMem hmem, hno h, (hno h).symm, BitVec.ofNat_add]

theorem ConditionRun.stored {c : ConditionStack} {vf : List Bool}
    (h : ConditionRun (fun vf => vf.length + 1 < 2 ^ 32) c vf) :
    vf.length < 2 ^ 32 ∧ c = storedOf vf := by
  induction h with
  | new => exact ⟨by decide, rfl⟩
  | pushBack f hroom h ih =>
    rw [List.length_append]
    exact ⟨hroom, ih.2 ▸ (storedOf_calls _ f hroom).1⟩
  | popBack h ih =>
    rw [List.length_append] at ih
    exact ⟨Nat.lt_of_succ_lt ih.1, ih.2 ▸ (storedOf_calls _ _ ih.1).2.1⟩
  | toggleTop h ih =>
    rw [List.length_append] at ih ⊢
    exact ⟨ih.1, ih.2 ▸ (storedOf_calls _ _ ih.1).2.2⟩

/-- **A `ConditionStack` answers as the stack it stands for**, of fewer than `2 ^ 32` values.
SOURCE: src/src/script/interpreter.cpp:273-318 -/
theorem conditionStack_refines {c : ConditionStack} {vf : List Bool}
    (h : ConditionRun (fun vf => vf.length + 1 < 2 ^ 32) c vf) :
    c.empty = vf.isEmpty ∧ c.allTrue = vf.all id := by
  obtain ⟨hlen, rfl⟩ := h.stored
  constructor
  · cases vf with
    | nil => rfl
    | cons f vf =>
      have hne := ofNat_ne_of_lt (show 0 < (f :: vf).length by simp) hlen
      exact beq_false_of_ne hne.symm
  · by_cases hmem : false ∈ vf
    · have hlt := List.idxOf_lt_length_of_mem hmem
      have hne := ofNat_ne_of_lt (show vf.idxOf false < 2 ^ 32 - 1 by omega) (by omega)
      have hall : vf.all id = false := by simpa using hmem
      rw [hall, ConditionStack.allTrue, storedOf, if_pos hmem]
      exact beq_false_of_ne hne
    · have hall : vf.all id = true := by simpa using hmem
      rw [hall, ConditionStack.allTrue, storedOf, if_neg hmem]
      rfl

theorem conditionStack_refines_toggled :
    ConditionRun (fun vf => vf.length + 1 < 2 ^ 32) ⟨1, 0⟩ [false] ∧
      (⟨1, 0⟩ : ConditionStack).allTrue = [false].all id := by
  have h : ConditionRun (fun vf => vf.length + 1 < 2 ^ 32) ⟨1, 0⟩ ([] ++ [!true]) :=
    .toggleTop (.pushBack true (by decide) .new)
  exact ⟨h, (conditionStack_refines h).2⟩

/-- With `2 ^ 32` values on it the stack counts as empty. -/
theorem not_conditionStack_refines :
    ConditionRun (fun _ => True) {} (List.replicate (2 ^ 32) true) ∧
      ({} : ConditionStack).empty = true ∧ (List.replicate (2 ^ 32) true).isEmpty = false := by
  have hrun (n : ℕ) : ConditionRun (fun _ => True) ⟨BitVec.ofNat 32 n, NO_FALSE⟩
      (List.replicate n true) := by
    induction n with
    | zero => exact .new
    | succ n ih =>
      have hpush := ih.pushBack true trivial
      simpa [ConditionStack.pushBack, BitVec.ofNat_add, List.replicate_succ'] using hpush
  exact ⟨hrun (2 ^ 32), rfl, by rw [List.isEmpty_replicate]; rfl⟩

end BitMinti.Analysis
