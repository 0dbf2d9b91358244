import Mathlib.Tactic.Linarith
import Mathlib.Algebra.Order.Ring.Rat

/-!
# Sweeping over two functions

Where two functions are straight between two places, one is below the other in between only if it
is so at one of the two.  A sweep from place to place therefore finds whether one function is
anywhere below the other.
-/

set_option autoImplicit false

namespace BitMinti.Computation.Sweep

section Straight

variable {f g : ℚ → ℚ} {s p : ℚ}

/-- The function is a straight line from `s` to `p`. -/
def Straight (f : ℚ → ℚ) (s p : ℚ) : Prop :=
  ∃ a b : ℚ, ∀ x, s ≤ x → x ≤ p → f x = a + b * x

/-- Somewhere up to `s` the first function is below the second. -/
def BelowBy (f g : ℚ → ℚ) (s : ℚ) : Prop := ∃ x, 0 ≤ x ∧ x ≤ s ∧ f x < g x

theorem Straight.le_between (hf : Straight f s p) (hg : Straight g s p) (hs : g s ≤ f s)
    (hp : g p ≤ f p) {x : ℚ} (hsx : s ≤ x) (hxp : x ≤ p) : g x ≤ f x := by
  obtain ⟨a, b, hf⟩ := hf
  obtain ⟨a', b', hg⟩ := hg
  have hsp := hsx.trans hxp
  rw [hf s le_rfl hsp, hg s le_rfl hsp] at hs
  rw [hf p hsp le_rfl, hg p hsp le_rfl] at hp
  rw [hf x hsx hxp, hg x hsx hxp]
  rcases le_total b' b with hb | hb
  · have hgrow : b' * (x - s) ≤ b * (x - s) := mul_le_mul_of_nonneg_right hb (by linarith)
    linarith
  · have hshrink : b * (p - x) ≤ b' * (p - x) := mul_le_mul_of_nonneg_right hb (by linarith)
    linarith

/-- **A sweep needs the ends only.** A straight part adds its far end. -/
theorem belowBy_extend (hf : Straight f s p) (hg : Straight g s p) (hs : 0 ≤ s) (hsp : s ≤ p) :
    BelowBy f g p ↔ BelowBy f g s ∨ f p < g p := by
  constructor
  · rintro ⟨x, hx, hxp, hlt⟩
    rcases le_total x s with hxs | hsx
    · exact .inl ⟨x, hx, hxs, hlt⟩
    by_contra hnot
    rw [not_or, not_lt] at hnot
    have hstart : g s ≤ f s := not_lt.1 fun h => hnot.1 ⟨s, hs, le_rfl, h⟩
    exact absurd hlt (not_lt.2 (hf.le_between hg hstart hnot.2 hsx hxp))
  · rintro (⟨x, hx, hxs, hlt⟩ | hlt)
    · exact ⟨x, hx, hxs.trans hsp, hlt⟩
    · exact ⟨p, hs.trans hsp, le_rfl, hlt⟩

theorem exists_below_iff (hf : ∀ x, s ≤ x → f x = f s) (hg : ∀ x, s ≤ x → g x = g s)
    (hs : 0 ≤ s) : (∃ x, 0 ≤ x ∧ f x < g x) ↔ BelowBy f g s := by
  constructor
  · rintro ⟨x, hx, hlt⟩
    rcases le_total x s with hxs | hsx
    · exact ⟨x, hx, hxs, hlt⟩
    · rw [hf x hsx, hg x hsx] at hlt
      exact ⟨s, hs, le_rfl, hlt⟩
  · rintro ⟨x, hx, -, hlt⟩
    exact ⟨x, hx, hlt⟩

end Straight

end BitMinti.Computation.Sweep
