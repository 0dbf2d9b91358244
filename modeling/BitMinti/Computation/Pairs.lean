import Mathlib.Tactic.Common

/-!
# Lists in pairs

A list cut into pairs of neighbours, the first with the second, the third with the fourth and so
on.  `padEven` makes the length even by doubling the last element.  Two lists may be padded to
the same list; then one of them ends in a pair of equal elements.
-/

set_option autoImplicit false

namespace BitMinti.Computation.Pairs

variable {α : Type}

/-- The pairs of neighbours.  A last element without a neighbour is left out. -/
def pairs : List α → List (α × α)
  | [] => []
  | [_] => []
  | a :: b :: rest => (a, b) :: pairs rest

/-- The last element doubled where the length is odd. -/
def padEven (l : List α) : List α :=
  if l.length % 2 = 1 then l ++ l.getLast?.toList else l

@[simp] theorem pairs_nil : pairs ([] : List α) = [] := rfl

@[simp] theorem pairs_singleton (a : α) : pairs [a] = [] := rfl

@[simp] theorem pairs_cons_cons (a b : α) (l : List α) :
    pairs (a :: b :: l) = (a, b) :: pairs l := rfl

@[simp] theorem padEven_nil : padEven ([] : List α) = [] := rfl

@[simp] theorem padEven_singleton (a : α) : padEven [a] = [a, a] := rfl

@[simp] theorem padEven_cons_cons (a b : α) (l : List α) :
    padEven (a :: b :: l) = a :: b :: padEven l := by
  cases l with
  | nil => simp [padEven]
  | cons c l =>
    have hparity : (a :: b :: c :: l).length % 2 = (c :: l).length % 2 := by
      simp only [List.length_cons]
      omega
    simp only [padEven, hparity, List.getLast?_cons_cons]
    split
    · rfl
    · rfl

theorem length_pairs_padEven (l : List α) : (pairs (padEven l)).length = (l.length + 1) / 2 := by
  induction l using pairs.induct with
  | case1 => simp
  | case2 a => simp
  | case3 a b rest ih =>
    simp only [padEven_cons_cons, pairs_cons_cons, List.length_cons, ih]
    omega

theorem getElem?_pairs_padEven (l : List α) (i : ℕ) :
    (pairs (padEven l))[i]? = (l[2 * i]?).map fun a => (a, l[2 * i + 1]?.getD a) := by
  induction l using pairs.induct generalizing i with
  | case1 => simp
  | case2 a =>
    cases i with
    | zero => simp
    | succ i => simp [Nat.mul_succ]
  | case3 a b rest ih =>
    cases i with
    | zero => simp
    | succ i =>
      rw [padEven_cons_cons, pairs_cons_cons, List.getElem?_cons_succ, ih]
      simp [Nat.mul_succ]

/-- **The pairs determine the padded list, and the list itself** where neither list has
a pair of equal neighbours of its own. -/
theorem eq_of_pairs_padEven {l l' : List α} (h : pairs (padEven l) = pairs (padEven l'))
    (hne : ∀ p ∈ pairs l, p.1 ≠ p.2) (hne' : ∀ p ∈ pairs l', p.1 ≠ p.2) : l = l' := by
  induction l using pairs.induct generalizing l' with
  | case1 =>
    match l', h with
    | [], _ => rfl
    | [c], h => simp at h
    | c :: d :: rest', h => simp at h
  | case2 a =>
    match l', h with
    | [], h => simp at h
    | [c], h =>
      simp only [padEven_singleton, pairs_cons_cons, List.cons.injEq, Prod.mk.injEq] at h
      rw [h.1.1]
    | c :: d :: rest', h =>
      -- this list was padded here, so the other one ends in equal neighbours
      simp only [padEven_singleton, padEven_cons_cons, pairs_cons_cons, List.cons.injEq,
        Prod.mk.injEq] at h
      exact absurd (h.1.1.symm.trans h.1.2) (hne' (c, d) (by simp))
  | case3 a b rest ih =>
    rw [padEven_cons_cons, pairs_cons_cons] at h
    match l', h with
    | [], h => simp at h
    | [c], h =>
      simp only [padEven_singleton, pairs_cons_cons, List.cons.injEq, Prod.mk.injEq] at h
      exact absurd (h.1.1.trans h.1.2.symm) (hne (a, b) (by simp))
    | c :: d :: rest', h =>
      rw [padEven_cons_cons, pairs_cons_cons, List.cons.injEq, Prod.mk.injEq] at h
      obtain ⟨⟨rfl, rfl⟩, hrest⟩ := h
      rw [ih hrest (fun p hp => hne p (by simp [hp])) fun p hp => hne' p (by simp [hp])]

end BitMinti.Computation.Pairs
