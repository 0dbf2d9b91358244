import BitMinti.Computation.Pairs
import Mathlib.Data.List.GetD
import Mathlib.Data.Nat.Bitwise

/-!
# Binary trees over lists of any length

A list of `n` leaves is combined level by level, two neighbours into one, the last node of an odd
level with itself.  `width n k` is the number of nodes on level `k` and `node f leaf n k i` the
`i`-th of them.  The nodes are what the level-by-level computation `level` arrives at, a node is
combined from a node below it and that node's `sibling`, and on each level different positions have
different nodes when the leaves are different and `f` is injective.
-/

set_option autoImplicit false

namespace BitMinti.Computation.PaddedTree

open Pairs

/-! ## Widths -/

/-- The number of nodes on level `k`. -/
def width (n k : ℕ) : ℕ := (n + 2 ^ k - 1) / 2 ^ k

@[simp] theorem width_zero (n : ℕ) : width n 0 = n := by simp [width]

theorem lt_width_iff {n k i : ℕ} : i < width n k ↔ i * 2 ^ k < n := by
  have hpos : 0 < 2 ^ k := Nat.two_pow_pos k
  rw [width, Nat.lt_iff_add_one_le, Nat.le_div_iff_mul_le hpos, Nat.succ_mul]
  omega

theorem width_succ (n k : ℕ) : width n (k + 1) = (width n k + 1) / 2 := by
  refine Nat.le_antisymm (Nat.le_of_not_lt fun h => ?_) (Nat.le_of_not_lt fun h => ?_)
  · rw [lt_width_iff, pow_succ, Nat.mul_comm (2 ^ k) 2, ← Nat.mul_assoc, ← lt_width_iff] at h
    omega
  · have hlt : width n (k + 1) * 2 < width n k := by omega
    rw [lt_width_iff, Nat.mul_assoc, Nat.mul_comm 2, ← pow_succ, ← lt_width_iff] at hlt
    exact lt_irrefl _ hlt

theorem width_pos {n : ℕ} (hn : 0 < n) (k : ℕ) : 0 < width n k := by
  rw [lt_width_iff, Nat.zero_mul]
  exact hn

theorem left_lt_width {n k i : ℕ} (h : i < width n (k + 1)) : 2 * i < width n k := by
  rw [width_succ] at h
  omega

/-! ## Nodes -/

section Nodes

variable {H : Type} (f : H → H → H) (leaf : ℕ → H) (n : ℕ)

/-- The `i`-th node of a level. -/
def node : ℕ → ℕ → H
  | 0, i => leaf i
  | k + 1, i =>
    f (node k (2 * i)) (if 2 * i + 1 < width n k then node k (2 * i + 1) else node k (2 * i))

/-- What a node is combined with: the node next to it, or the node itself. -/
def sibling (k i : ℕ) : H :=
  if i % 2 = 1 then node f leaf n k (i - 1)
  else if i + 1 < width n k then node f leaf n k (i + 1)
  else node f leaf n k i

variable {f leaf n}

theorem sibling_odd {k i : ℕ} (hi : i % 2 = 1) :
    sibling f leaf n k i = node f leaf n k (i - 1) := if_pos hi

theorem sibling_even {k i : ℕ} (hi : i % 2 = 0) (hlt : i + 1 < width n k) :
    sibling f leaf n k i = node f leaf n k (i + 1) := by
  rw [sibling, if_neg (by omega), if_pos hlt]

theorem sibling_last {k i : ℕ} (hi : i % 2 = 0) (hle : width n k ≤ i + 1) :
    sibling f leaf n k i = node f leaf n k i := by
  rw [sibling, if_neg (by omega), if_neg (by omega)]

/-- **A node and its sibling make the node above.** -/
theorem node_parent {k i : ℕ} (hi : i < width n k) :
    node f leaf n (k + 1) (i / 2) =
      if i % 2 = 1 then f (sibling f leaf n k i) (node f leaf n k i)
      else f (node f leaf n k i) (sibling f leaf n k i) := by
  rw [node]
  by_cases hodd : i % 2 = 1
  · rw [if_pos hodd, sibling_odd hodd, show 2 * (i / 2) = i - 1 by omega,
      show i - 1 + 1 = i by omega, if_pos hi]
  · rw [if_neg hodd, show 2 * (i / 2) = i by omega]
    split
    · rename_i hlt
      rw [sibling_even (by omega) hlt]
    · rename_i hlt
      rw [sibling_last (by omega) (by omega)]

/-- **On each level different positions have different nodes.** -/
theorem node_injOn (hf : ∀ a b c d, f a b = f c d → a = c ∧ b = d)
    (hleaf : ∀ i j, i < n → j < n → leaf i = leaf j → i = j) {k i j : ℕ} (hi : i < width n k)
    (hj : j < width n k) (h : node f leaf n k i = node f leaf n k j) : i = j := by
  induction k generalizing i j with
  | zero =>
    rw [width_zero] at hi hj
    exact hleaf i j hi hj h
  | succ k ih =>
    have hleft := (hf _ _ _ _ h).1
    have := ih (left_lt_width hi) (left_lt_width hj) hleft
    omega

end Nodes

/-! ## Levels -/

section Levels

variable {H : Type} (f : H → H → H)

/-- The level `k` above a list. -/
def level (l : List H) : ℕ → List H
  | 0 => l
  | k + 1 => (pairs (padEven (level l k))).map fun p => f p.1 p.2

theorem length_level (l : List H) (k : ℕ) : (level f l k).length = width l.length k := by
  induction k with
  | zero => rw [level, width_zero]
  | succ k ih => rw [level, List.length_map, length_pairs_padEven, ih, width_succ]

/-- **The nodes are what the levels consist of.** -/
theorem level_getElem? (l : List H) (null : H) (k i : ℕ) (hi : i < width l.length k) :
    (level f l k)[i]? = some (node f (fun j => l.getD j null) l.length k i) := by
  induction k generalizing i with
  | zero =>
    rw [width_zero] at hi
    rw [level, node, List.getD_eq_getElem _ _ hi, List.getElem?_eq_getElem hi]
  | succ k ih =>
    have hleft := left_lt_width hi
    rw [level, List.getElem?_map, getElem?_pairs_padEven, ih _ hleft, node]
    split
    · rename_i hlt
      rw [ih _ hlt]
      rfl
    · rename_i hlt
      rw [List.getElem?_eq_none (by rw [length_level]; omega)]
      rfl

theorem level_eq_singleton (l : List H) (null : H) {k : ℕ} (hk : width l.length k = 1) :
    level f l k = [node f (fun j => l.getD j null) l.length k 0] := by
  have hlen : (level f l k).length = 1 := by rw [length_level, hk]
  obtain ⟨r, hr⟩ := List.length_eq_one_iff.mp hlen
  have hzero := level_getElem? f l null k 0 (by omega)
  rw [hr] at hzero ⊢
  rw [← Option.some_inj.mp hzero]

end Levels

end BitMinti.Computation.PaddedTree
