import Mathlib.Data.BitVec
import Mathlib.Tactic.Ring

/-!
# Numbers as bytes, the lowest first
-/

set_option autoImplicit false

namespace BitMinti.Computation.LittleEndian

/-- The lowest `n` bytes of a number. -/
def toLE : ℕ → ℕ → List (BitVec 8)
  | 0, _ => []
  | n + 1, x => BitVec.ofNat 8 x :: toLE n (x / 256)

/-- The number that bytes stand for. -/
def ofLE : List (BitVec 8) → ℕ
  | [] => 0
  | b :: bs => b.toNat + 256 * ofLE bs

@[simp] theorem length_toLE (n x : ℕ) : (toLE n x).length = n := by
  induction n generalizing x with
  | zero => rfl
  | succ n ih => rw [toLE, List.length_cons, ih]

theorem ofLE_lt (bs : List (BitVec 8)) : ofLE bs < 256 ^ bs.length := by
  induction bs with
  | nil => simp [ofLE]
  | cons b bs ih =>
    have hb := b.isLt
    rw [ofLE, List.length_cons, Nat.pow_succ]
    omega

theorem ofLE_toLE {n x : ℕ} (h : x < 256 ^ n) : ofLE (toLE n x) = x := by
  induction n generalizing x with
  | zero =>
    rw [Nat.pow_zero] at h
    rw [toLE, ofLE]
    omega
  | succ n ih =>
    have hdiv : x / 256 < 256 ^ n := by
      rw [Nat.pow_succ] at h
      omega
    rw [toLE, ofLE, ih hdiv, BitVec.toNat_ofNat]
    omega

theorem toLE_ofLE (bs : List (BitVec 8)) : toLE bs.length (ofLE bs) = bs := by
  induction bs with
  | nil => rfl
  | cons b bs ih =>
    have hb := b.isLt
    have hdiv : (b.toNat + 256 * ofLE bs) / 256 = ofLE bs := by omega
    have hlow : BitVec.ofNat 8 (b.toNat + 256 * ofLE bs) = b := by
      apply BitVec.eq_of_toNat_eq
      rw [BitVec.toNat_ofNat]
      omega
    rw [ofLE, List.length_cons, toLE, hdiv, ih, hlow]

end BitMinti.Computation.LittleEndian
