import Mathlib.Algebra.BigOperators.Group.Finset.Piecewise
import Mathlib.Algebra.Order.BigOperators.Group.Finset

/-!
# Counting threads

A system of threads is a function from thread names to local states, and a step of one thread
updates that function in one place.  A sum over the threads then changes by one summand, and the
number of threads with a property by at most one.
-/

set_option autoImplicit false

namespace BitMinti.Computation.Threads

variable {ι α β : Type} [Fintype ι]

/-- The number of threads with a property. -/
def count (p : α → Bool) (threads : ι → α) : ℕ := ∑ i, (p (threads i)).toNat

section Updates

variable [DecidableEq ι]

theorem sum_update (f : α → ℕ) (threads : ι → α) (i : ι) (t : α) :
    ∑ j, f (Function.update threads i t j) + f (threads i) = ∑ j, f (threads j) + f t := by
  have hrest : ∀ j ∈ Finset.univ.erase i,
      f (Function.update threads i t j) = f (threads j) := by
    intro j hj
    rw [Function.update_of_ne (Finset.ne_of_mem_erase hj)]
  rw [← Finset.add_sum_erase _ _ (Finset.mem_univ i),
    ← Finset.add_sum_erase _ (fun j => f (threads j)) (Finset.mem_univ i),
    Finset.sum_congr rfl hrest, Function.update_self]
  omega

theorem count_update (p : α → Bool) (threads : ι → α) (i : ι) (t : α) :
    count p (Function.update threads i t) + (p (threads i)).toNat =
      count p threads + (p t).toNat :=
  sum_update (fun w => (p w).toNat) threads i t

end Updates

theorem count_const (p : α → Bool) (t : α) (h : p t = false) :
    count p (fun _ : ι => t) = 0 := by
  simp [count, h]

theorem count_add_le {p q : α → Bool} (h : ∀ t, p t = true → q t = false) (threads : ι → α) :
    count p threads + count q threads ≤ Fintype.card ι := by
  rw [count, count, ← Finset.sum_add_distrib, Fintype.card, Finset.card_eq_sum_ones]
  apply Finset.sum_le_sum
  intro i _
  cases hp : p (threads i) with
  | false => simpa using Bool.toNat_le (q (threads i))
  | true => simp [h _ hp]

variable {threads : ι → α}

theorem count_lt_card {p : α → Bool} {i : ι} (h : p (threads i) = false) :
    count p threads < Fintype.card ι := by
  rw [count, Fintype.card, Finset.card_eq_sum_ones]
  refine Finset.sum_lt_sum (fun j _ => Bool.toNat_le _) ⟨i, Finset.mem_univ i, ?_⟩
  simp [h]

theorem count_eq_card {p : α → Bool} (h : ∀ i, p (threads i) = true) :
    count p threads = Fintype.card ι := by
  simp [count, h]

theorem exists_of_count_pos {p : α → Bool} (h : 0 < count p threads) :
    ∃ i, p (threads i) = true := by
  by_contra hnone
  simp only [not_exists, Bool.not_eq_true] at hnone
  simp [count, hnone] at h

theorem count_mono {p q : α → Bool} (h : ∀ t, p t = true → q t = true) (threads : ι → α) :
    count p threads ≤ count q threads := by
  apply Finset.sum_le_sum
  intro i _
  cases hp : p (threads i) with
  | false => exact Nat.zero_le _
  | true => rw [h _ hp]

/-- **Threads counted by the value they hold.**  A thread holds at most one value, so the
threads that hold a value of `S` are at most the threads that hold a value. -/
theorem sum_count_le [DecidableEq β] (value : α → Option β) (S : Finset β) (threads : ι → α) :
    ∑ x ∈ S, count (fun t => value t == some x) threads ≤
      count (fun t => (value t).isSome) threads := by
  simp only [count]
  rw [Finset.sum_comm]
  apply Finset.sum_le_sum
  intro i _
  cases value (threads i) with
  | none => simp
  | some y =>
    have hone : ∑ x ∈ S, (some y == some x).toNat = ∑ x ∈ S, if x = y then 1 else 0 := by
      apply Finset.sum_congr rfl
      intro x _
      by_cases hxy : x = y
      · simp [hxy]
      · simp [hxy, Ne.symm hxy]
    rw [hone, Finset.sum_ite_eq']
    split <;> simp

end BitMinti.Computation.Threads
