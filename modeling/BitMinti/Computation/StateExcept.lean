import Mathlib.Init

/-!
# Weakest preconditions for stateful code that can fail

`wp E x Q s` says that `x`, run in the state `s`, ends with a result and a state that satisfy
`Q`, or with an error that satisfies `E`.  With `E` false this is total correctness, with `E`
true partial correctness, and an `E` in between rules out some of the errors.
-/

set_option autoImplicit false

namespace BitMinti.Computation.StateExcept

variable {σ ε α β : Type} {E : ε → Prop} {Q : α → σ → Prop} {s : σ}

/-! ## Code without a state -/

/-- `x` ends with a result that satisfies `Q` or an error that satisfies `E`. -/
def Ends (E : ε → Prop) (x : Except ε α) (Q : α → Prop) : Prop :=
  match x with
  | .ok a => Q a
  | .error e => E e

section Ends

variable {R : α → Prop}

@[simp] theorem ends_ok (a : α) : Ends E (.ok a) R ↔ R a := Iff.rfl

@[simp] theorem ends_error (e : ε) : Ends E (.error e : Except ε α) R ↔ E e := Iff.rfl

@[simp] theorem ends_bind (x : Except ε α) (f : α → Except ε β) {R : β → Prop} :
    Ends E (x >>= f) R ↔ Ends E x fun a => Ends E (f a) R := by
  cases x <;> rfl

theorem ends_mono {x : Except ε α} {R' : α → Prop} (h : Ends E x R) (hR : ∀ a, R a → R' a) :
    Ends E x R' := by
  cases x with
  | ok a => exact hR a h
  | error e => exact h

end Ends

/-! ## Code with a state -/

/-- The weakest precondition. -/
def wp (E : ε → Prop) (x : StateT σ (Except ε) α) (Q : α → σ → Prop) (s : σ) : Prop :=
  match x s with
  | .ok (a, s') => Q a s'
  | .error e => E e

@[simp] theorem wp_pure (a : α) : wp E (pure a : StateT σ (Except ε) α) Q s ↔ Q a s := Iff.rfl

@[simp] theorem wp_throw (e : ε) : wp E (throw e : StateT σ (Except ε) α) Q s ↔ E e := Iff.rfl

@[simp] theorem wp_get {Q : σ → σ → Prop} :
    wp E (get : StateT σ (Except ε) σ) Q s ↔ Q s s := Iff.rfl

@[simp] theorem wp_set (s' : σ) {Q : PUnit → σ → Prop} :
    wp E (set s' : StateT σ (Except ε) PUnit) Q s ↔ Q ⟨⟩ s' := Iff.rfl

@[simp] theorem wp_modify (f : σ → σ) {Q : PUnit → σ → Prop} :
    wp E (modify f : StateT σ (Except ε) PUnit) Q s ↔ Q ⟨⟩ (f s) := Iff.rfl

@[simp] theorem wp_bind (x : StateT σ (Except ε) α) (f : α → StateT σ (Except ε) β)
    {Q : β → σ → Prop} :
    wp E (x >>= f) Q s ↔ wp E x (fun a s' => wp E (f a) Q s') s := by
  simp only [wp, bind, StateT.bind, Except.bind]
  cases x s <;> rfl

@[simp] theorem wp_liftM (x : Except ε α) :
    wp E (liftM x : StateT σ (Except ε) α) Q s ↔ Ends E x fun a => Q a s := by
  cases x <;> rfl

variable {x : StateT σ (Except ε) α}

theorem wp_discard {Q : σ → Prop} (h : wp E x (fun _ s' => Q s') s) :
    wp E (discard x) (fun _ s' => Q s') s := by
  change wp E (x >>= fun _ => pure ()) _ s
  rw [wp_bind]
  exact h

theorem wp_mono {Q' : α → σ → Prop} (h : wp E x Q s)
    (hQ : ∀ a s', Q a s' → Q' a s') : wp E x Q' s := by
  unfold wp at h ⊢
  split at h
  · exact hQ _ _ h
  · exact h

theorem wp_of_forall (h : ∀ a s', Q a s') :
    wp (fun _ => True) x Q s := by
  unfold wp
  split
  · exact h _ _
  · trivial

theorem wp_weaken {E' : ε → Prop} (h : wp E x Q s) (hE : ∀ e, E e → E' e) : wp E' x Q s := by
  unfold wp at h ⊢
  split at h
  · exact h
  · exact hE _ h

theorem wp_ok (h : wp E x Q s) {a : α} {s' : σ} (hx : x s = .ok (a, s')) : Q a s' := by
  simpa only [wp, hx] using h

theorem wp_error (h : wp E x Q s) {e : ε} (hx : x s = .error e) :
    E e := by
  simpa only [wp, hx] using h

theorem exists_of_wp (h : wp (fun _ => False) x Q s) :
    ∃ a s', x s = .ok (a, s') ∧ Q a s' := by
  unfold wp at h
  split at h
  · rename_i a s' hx
    exact ⟨a, s', hx, h⟩
  · exact h.elim

end BitMinti.Computation.StateExcept
