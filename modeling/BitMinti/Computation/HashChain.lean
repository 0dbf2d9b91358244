import Mathlib.Tactic.Common

/-!
# Chains linked by hashes, and samples of them

A list is linked when each element names the hash of the one before it.  A sample of a list
keeps a value for the elements at chosen positions; when one sample continues another, the
lists agree wherever the shorter one was sampled.
-/

set_option autoImplicit false

namespace BitMinti.Computation.HashChain

/-! ## Linked lists -/

section Linked

variable {α η : Type} (hash prev : α → η)

/-- Each element names the hash of the one before it, the first one `start`. -/
def Linked : η → List α → Prop
  | _, [] => True
  | start, x :: rest => prev x = start ∧ Linked (hash x) rest

/-- The hash of the last element, `start` when there is none. -/
def lastHash (start : η) (xs : List α) : η := xs.foldl (fun _ x => hash x) start

@[simp] theorem lastHash_nil (start : η) : lastHash hash start [] = start := rfl

@[simp] theorem lastHash_cons (start : η) (x : α) (xs : List α) :
    lastHash hash start (x :: xs) = lastHash hash (hash x) xs := rfl

theorem lastHash_append (start : η) (xs ys : List α) :
    lastHash hash start (xs ++ ys) = lastHash hash (lastHash hash start xs) ys :=
  List.foldl_append

theorem linked_append (start : η) (xs ys : List α) :
    Linked hash prev start (xs ++ ys) ↔
      Linked hash prev start xs ∧ Linked hash prev (lastHash hash start xs) ys := by
  induction xs generalizing start with
  | nil => simp [Linked]
  | cons x xs ih => simp [Linked, ih, and_assoc]

end Linked

/-! ## Samples -/

section Samples

variable {α β : Type} (marked : ℕ → Bool) (value : α → β)

/-- The values of the elements at marked positions, the first element being at position `i`. -/
def samples : ℕ → List α → List β
  | _, [] => []
  | i, x :: rest => if marked i then value x :: samples (i + 1) rest else samples (i + 1) rest

theorem samples_append (i : ℕ) (xs ys : List α) :
    samples marked value i (xs ++ ys) =
      samples marked value i xs ++ samples marked value (i + xs.length) ys := by
  induction xs generalizing i with
  | nil => rfl
  | cons x xs ih =>
    simp only [List.cons_append, samples, ih, List.length_cons,
      show i + (xs.length + 1) = i + 1 + xs.length by omega]
    split
    · rfl
    · rfl

theorem samples_singleton (i : ℕ) (x : α) :
    samples marked value i [x] = if marked i then [value x] else [] := rfl

theorem mem_samples (i : ℕ) (xs : List α) (k : ℕ) (x : α) (hk : xs[k]? = some x)
    (hmark : marked (i + k) = true) : value x ∈ samples marked value i xs := by
  induction xs generalizing i k with
  | nil => simp at hk
  | cons x₀ xs ih =>
    cases k with
    | zero =>
      obtain rfl : x₀ = x := by simpa using hk
      have hmark' : marked i = true := hmark
      simp [samples, hmark']
    | succ k =>
      have hmem := ih (i + 1) k (by simpa using hk) (by rw [← hmark]; congr 1; omega)
      unfold samples
      split
      · exact List.mem_cons_of_mem _ hmem
      · exact hmem

/-- **Where one sample continues another, the lists agree at every marked position of the
shorter sample.**  The induction is on the list of the shorter one. -/
theorem agree_of_samples (i : ℕ) (xs ys : List α) (rest : List β)
    (h : samples marked value i ys = samples marked value i xs ++ rest) (k : ℕ) (x : α)
    (hk : xs[k]? = some x) (hmark : marked (i + k) = true) :
    ∃ y, ys[k]? = some y ∧ value x = value y := by
  induction xs generalizing i ys k with
  | nil => simp at hk
  | cons x₀ xs ih =>
    cases ys with
    | nil =>
      have hmem := mem_samples marked value i _ k x hk hmark
      rw [List.append_eq_nil_iff.mp h.symm |>.1] at hmem
      cases hmem
    | cons y₀ ys =>
      by_cases hi : marked i = true
      · simp only [samples, hi, if_true, List.cons_append, List.cons.injEq] at h
        cases k with
        | zero =>
          obtain rfl : x₀ = x := by simpa using hk
          exact ⟨y₀, rfl, h.1.symm⟩
        | succ k =>
          exact ih (i + 1) ys h.2 k (by simpa using hk) (by rw [← hmark]; congr 1; omega)
      · simp only [samples, hi] at h
        cases k with
        | zero => exact absurd hmark hi
        | succ k =>
          exact ih (i + 1) ys h k (by simpa using hk) (by rw [← hmark]; congr 1; omega)

end Samples

end BitMinti.Computation.HashChain
