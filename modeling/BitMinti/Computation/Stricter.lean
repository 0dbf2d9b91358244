import Mathlib.Init

/-!
# Computations that accept no more than others

A computation is stricter than another if the other succeeds wherever it does, with the same result.
The relation is kept by every way to build a computation from parts.
-/

set_option autoImplicit false

namespace BitMinti.Computation

variable {ε σ α β : Type}

/-! ## Fallible computations -/

/-- Wherever `x` succeeds, `y` does, with the same result. -/
def Stricter (x y : Except ε α) : Prop := ∀ a, x = .ok a → y = .ok a

theorem Stricter.refl (x : Except ε α) : Stricter x x := fun _ h => h

theorem Stricter.error (e : ε) (y : Except ε α) : Stricter (.error e) y := by
  intro a h
  cases h

theorem Stricter.bind {x y : Except ε α} {f g : α → Except ε β} (h : Stricter x y)
    (hfg : ∀ a, Stricter (f a) (g a)) : Stricter (x >>= f) (y >>= g) := by
  intro b hb
  cases x with
  | error e => cases hb
  | ok a =>
    rw [h a rfl]
    exact hfg a b hb

theorem exists_of_bind_ok {x : Except ε α} {f : α → Except ε β} {b : β} (h : (x >>= f) = .ok b) :
    ∃ a, x = .ok a ∧ f a = .ok b := by
  cases x with
  | error e => cases h
  | ok a => exact ⟨a, rfl, h⟩

theorem Stricter.ite {c : Prop} [Decidable c] {x x' y y' : Except ε α} (h : Stricter x y)
    (h' : Stricter x' y') : Stricter (if c then x else x') (if c then y else y') := by
  by_cases hc : c
  · rw [if_pos hc, if_pos hc]
    exact h
  · rw [if_neg hc, if_neg hc]
    exact h'

/-! ## Computations with a state -/

/-- Wherever `x` succeeds, `y` does, with the same result and state. -/
def StricterM (x y : StateT σ (Except ε) α) : Prop := ∀ s, Stricter (x s) (y s)

theorem StricterM.refl (x : StateT σ (Except ε) α) : StricterM x x := fun s => .refl (x s)

theorem StricterM.bind {x y : StateT σ (Except ε) α} {f g : α → StateT σ (Except ε) β}
    (h : StricterM x y) (hfg : ∀ a, StricterM (f a) (g a)) : StricterM (x >>= f) (y >>= g) :=
  fun s => (h s).bind fun r => hfg r.1 r.2

theorem StricterM.lift {x y : Except ε α} (h : Stricter x y) :
    StricterM (liftM x : StateT σ (Except ε) α) (liftM y) :=
  fun s => h.bind fun a => .refl (.ok (a, s))

theorem StricterM.ite {c : Prop} [Decidable c] {x x' y y' : StateT σ (Except ε) α}
    (h : StricterM x y) (h' : StricterM x' y') :
    StricterM (if c then x else x') (if c then y else y') := by
  by_cases hc : c
  · rw [if_pos hc, if_pos hc]
    exact h
  · rw [if_neg hc, if_neg hc]
    exact h'

end BitMinti.Computation
