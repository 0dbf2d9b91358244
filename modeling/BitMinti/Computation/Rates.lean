import Mathlib.Algebra.BigOperators.Group.List.Basic
import Mathlib.Algebra.Group.Prod
import Mathlib.Algebra.Ring.Int.Defs
import Mathlib.Algebra.Order.Field.Rat
import Mathlib.Tactic.Linarith
import Mathlib.Tactic.Ring

/-!
# Rates and the surplus of a prefix

Items have a value and a weight, and the rate of a selection is its value over its weight.  Rates
are compared by cross products, so that a selection without weight needs no special case.

At a threshold rate `t` the *surplus* of a selection is its value less `t` times its weight.  One
order of the items covers another when, at every threshold, some prefix of the first has a
surplus at least that of any given prefix of the second.  The relation is a preorder, and turning
both orders round with all values negated does not change it.
-/

set_option autoImplicit false

namespace BitMinti.Computation.Rates

/-! ## Values and weights -/

/-- A value and a weight. -/
abbrev Worth := ℤ × ℤ

/-- The rate of `a` is strictly below that of `b`. -/
def Lower (a b : Worth) : Prop := a.1 * b.2 < b.1 * a.2

instance (a b : Worth) : Decidable (Lower a b) := inferInstanceAs (Decidable (_ < _))

/-- The rate of `a` is at most that of `b`. -/
def NotAbove (a b : Worth) : Prop := a.1 * b.2 ≤ b.1 * a.2

section Comparison

variable {a b c : Worth}

theorem not_lower : ¬ Lower a b ↔ NotAbove b a := not_lt

theorem Lower.notAbove (h : Lower a b) : NotAbove a b := le_of_lt h

theorem NotAbove.rfl : NotAbove a a := le_refl _

theorem zero_notAbove : NotAbove 0 a := by
  unfold NotAbove
  simp

theorem NotAbove.trans (hab : NotAbove a b) (hbc : NotAbove b c) (ha : 0 ≤ a.2) (hb : 0 < b.2)
    (hc : 0 ≤ c.2) : NotAbove a c := by
  have hscaled : a.1 * c.2 * b.2 ≤ c.1 * a.2 * b.2 := by
    calc a.1 * c.2 * b.2 = a.1 * b.2 * c.2 := by ring
      _ ≤ b.1 * a.2 * c.2 := mul_le_mul_of_nonneg_right hab hc
      _ = b.1 * c.2 * a.2 := by ring
      _ ≤ c.1 * b.2 * a.2 := mul_le_mul_of_nonneg_right hbc ha
      _ = c.1 * a.2 * b.2 := by ring
  exact le_of_mul_le_mul_right hscaled hb

theorem Lower.trans_notAbove (hab : Lower a b) (hbc : NotAbove b c) (ha : 0 ≤ a.2)
    (hb : 0 < b.2) (hc : 0 < c.2) : Lower a c := by
  have hscaled : a.1 * c.2 * b.2 < c.1 * a.2 * b.2 := by
    calc a.1 * c.2 * b.2 = a.1 * b.2 * c.2 := by ring
      _ < b.1 * a.2 * c.2 := mul_lt_mul_of_pos_right hab hc
      _ = b.1 * c.2 * a.2 := by ring
      _ ≤ c.1 * b.2 * a.2 := mul_le_mul_of_nonneg_right hbc ha
      _ = c.1 * a.2 * b.2 := by ring
  exact lt_of_mul_lt_mul_right hscaled hb.le

theorem Lower.trans (hab : Lower a b) (hbc : Lower b c) (ha : 0 ≤ a.2) (hb : 0 < b.2)
    (hc : 0 < c.2) : Lower a c :=
  hab.trans_notAbove hbc.notAbove ha hb hc

theorem NotAbove.add (hac : NotAbove a c) (hbc : NotAbove b c) : NotAbove (a + b) c := by
  unfold NotAbove at *
  rw [Prod.fst_add, Prod.snd_add, add_mul, mul_add]
  exact add_le_add hac hbc

theorem Lower.add (hac : Lower a c) (hbc : Lower b c) : Lower (a + b) c := by
  unfold Lower at *
  rw [Prod.fst_add, Prod.snd_add, add_mul, mul_add]
  exact add_lt_add hac hbc

theorem Lower.add_right (hab : Lower a b) (hac : Lower a c) : Lower a (b + c) := by
  unfold Lower at *
  rw [Prod.fst_add, Prod.snd_add, add_mul, mul_add]
  exact add_lt_add hab hac

theorem Lower.join_left (h : Lower a b) : Lower a (a + b) := by
  unfold Lower at *
  rw [Prod.fst_add, Prod.snd_add]
  linarith [mul_comm a.1 a.2, mul_add a.1 a.2 b.2, add_mul a.1 b.1 a.2]

theorem Lower.join_right (h : Lower a b) : Lower (a + b) b := by
  unfold Lower at *
  rw [Prod.fst_add, Prod.snd_add]
  linarith [mul_add b.1 a.2 b.2, add_mul a.1 b.1 b.2]

end Comparison

/-! ## The surplus over a threshold rate -/

/-- What a selection is worth beyond the threshold rate `t`. -/
def surplus (t : ℚ) (a : Worth) : ℚ := a.1 - t * a.2

@[simp] theorem surplus_zero (t : ℚ) : surplus t 0 = 0 := by
  simp [surplus]

theorem surplus_add (t : ℚ) (a b : Worth) : surplus t (a + b) = surplus t a + surplus t b := by
  simp only [surplus, Prod.fst_add, Prod.snd_add, Int.cast_add]
  ring

theorem surplus_negated (t : ℚ) (a : Worth) : surplus (-t) (-a.1, a.2) = -surplus t a := by
  simp only [surplus, Int.cast_neg]
  ring

/-- A part whose rate is at most that of the whole has at most the whole's surplus, or
none. -/
theorem NotAbove.surplus_le {a b : Worth} (h : NotAbove a b) (ha : 0 ≤ a.2) (hab : a.2 ≤ b.2)
    (hb : 0 < b.2) (t : ℚ) : surplus t a ≤ max 0 (surplus t b) := by
  have hbq : (0 : ℚ) < b.2 := by exact_mod_cast hb
  have haq : (0 : ℚ) ≤ a.2 := by exact_mod_cast ha
  have habq : (a.2 : ℚ) ≤ b.2 := by exact_mod_cast hab
  have hcross : (a.1 : ℚ) * b.2 ≤ b.1 * a.2 := by exact_mod_cast h
  -- scaled by the weight of the whole, the part has its share of the surplus of the whole
  have hshare : surplus t a * b.2 ≤ surplus t b * a.2 := by
    unfold surplus
    linarith [mul_assoc t (a.2 : ℚ) b.2, mul_comm (a.2 : ℚ) b.2, mul_assoc t (b.2 : ℚ) a.2,
      sub_mul (a.1 : ℚ) (t * a.2) b.2, sub_mul (b.1 : ℚ) (t * b.2) a.2]
  have hmax : surplus t b * a.2 ≤ max 0 (surplus t b) * b.2 :=
    calc surplus t b * a.2 ≤ max 0 (surplus t b) * a.2 :=
          mul_le_mul_of_nonneg_right (le_max_right _ _) haq
      _ ≤ max 0 (surplus t b) * b.2 := mul_le_mul_of_nonneg_left habq (le_max_left _ _)
  exact le_of_mul_le_mul_right (hshare.trans hmax) hbq

theorem NotAbove.surplus_nonneg {a b : Worth} (h : NotAbove a b) (ha : 0 < a.2) (hb : 0 < b.2)
    {t : ℚ} (hs : 0 ≤ surplus t a) : 0 ≤ surplus t b := by
  have haq : (0 : ℚ) < a.2 := by exact_mod_cast ha
  have hbq : (0 : ℚ) < b.2 := by exact_mod_cast hb
  have hcross : (a.1 : ℚ) * b.2 ≤ b.1 * a.2 := by exact_mod_cast h
  have hreach : t * a.2 ≤ a.1 := by
    unfold surplus at hs
    linarith
  have hscaled : t * b.2 * a.2 ≤ b.1 * a.2 :=
    calc t * b.2 * a.2 = t * a.2 * b.2 := by ring
      _ ≤ a.1 * b.2 := mul_le_mul_of_nonneg_right hreach hbq.le
      _ ≤ b.1 * a.2 := hcross
  have hreach' : t * b.2 ≤ b.1 := le_of_mul_le_mul_right hscaled haq
  unfold surplus
  linarith

/-! ## Totals -/

section Totals

variable {α : Type} (worth : α → Worth)

/-- What a list of items is worth together. -/
def total (l : List α) : Worth := (l.map worth).sum

@[simp] theorem total_nil : total worth [] = 0 := rfl

@[simp] theorem total_cons (a : α) (l : List α) :
    total worth (a :: l) = worth a + total worth l := by
  simp [total]

@[simp] theorem total_append (l m : List α) :
    total worth (l ++ m) = total worth l + total worth m := by
  simp [total]

theorem total_reverse (l : List α) : total worth l.reverse = total worth l := by
  simp [total, List.sum_reverse]

theorem total_perm {l m : List α} (h : l.Perm m) : total worth l = total worth m :=
  (h.map worth).sum_eq

theorem surplus_flatten (t : ℚ) (gs : List (List α)) :
    surplus t (total worth gs.flatten) = (gs.map fun g => surplus t (total worth g)).sum := by
  induction gs with
  | nil => simp
  | cons g gs ih =>
    rw [List.flatten_cons, total_append, surplus_add, ih, List.map_cons, List.sum_cons]

variable {worth}

variable {l : List α}

theorem total_weight_nonneg (h : ∀ a ∈ l, 0 < (worth a).2) : 0 ≤ (total worth l).2 :=
  List.sum_induction (fun w : Worth => 0 ≤ w.2) (fun _ _ => add_nonneg) le_rfl
    (List.forall_mem_map.2 fun a ha => (h a ha).le)

theorem total_weight_pos (h : ∀ a ∈ l, 0 < (worth a).2) (hl : l ≠ []) :
    0 < (total worth l).2 := by
  obtain ⟨a, l, rfl⟩ := List.exists_cons_of_ne_nil hl
  obtain ⟨hhead, hl⟩ := List.forall_mem_cons.1 h
  have htail := total_weight_nonneg hl
  rw [total_cons, Prod.snd_add]
  omega

theorem total_weight_filter_le (h : ∀ a ∈ l, 0 < (worth a).2) (p : α → Bool) :
    (total worth (l.filter p)).2 ≤ (total worth l).2 := by
  induction l with
  | nil => exact le_refl _
  | cons a l ih =>
    obtain ⟨hhead, hl⟩ := List.forall_mem_cons.1 h
    have htail := ih hl
    rw [List.filter_cons]
    split
    · rw [total_cons, total_cons, Prod.snd_add, Prod.snd_add]
      omega
    · rw [total_cons, Prod.snd_add]
      omega

end Totals

/-! ## Orders of the same items -/

section Covers

variable {α : Type} {worth : α → Worth}

/-- At every threshold, each prefix of `old` is matched by a prefix of `new`. -/
def Covers (worth : α → Worth) (new old : List α) : Prop :=
  ∀ (t : ℚ) (k : ℕ), ∃ m, surplus t (total worth (old.take k)) ≤
    surplus t (total worth (new.take m))

theorem Covers.trans {l m n : List α} (hlm : Covers worth l m) (hmn : Covers worth m n) :
    Covers worth l n := by
  intro t k
  obtain ⟨i, hi⟩ := hmn t k
  obtain ⟨j, hj⟩ := hlm t i
  exact ⟨j, hi.trans hj⟩

/-- The values of all items negated. -/
def negated (worth : α → Worth) (a : α) : Worth := (-(worth a).1, (worth a).2)

theorem total_negated (l : List α) :
    total (negated worth) l = (-(total worth l).1, (total worth l).2) := by
  induction l with
  | nil => rfl
  | cons a l ih =>
    rw [total_cons, total_cons, ih]
    simp only [negated, Prod.mk_add_mk, Prod.fst_add, Prod.snd_add, neg_add]

theorem surplus_reverse_take (t : ℚ) (l : List α) (k : ℕ) :
    surplus (-t) (total (negated worth) (l.reverse.take k)) =
      surplus t (total worth (l.take (l.length - k))) - surplus t (total worth l) := by
  have hsplit : total worth l =
      total worth (l.take (l.length - k)) + total worth (l.reverse.take k) := by
    rw [List.take_reverse, total_reverse, ← total_append, List.take_append_drop]
  rw [total_negated, surplus_negated, hsplit, surplus_add]
  ring

/-- **Covering is the same seen from the other end.** Reversed orders of the same total
cover one another for the negated values exactly as the orders do. -/
theorem Covers.of_reverse {new old : List α} (htotal : total worth new = total worth old)
    (h : Covers (negated worth) new.reverse old.reverse) : Covers worth new old := by
  intro t k
  obtain ⟨m, hm⟩ := h (-t) (old.length - k)
  rw [surplus_reverse_take, surplus_reverse_take, htotal] at hm
  refine ⟨new.length - m, ?_⟩
  by_cases hk : k ≤ old.length
  · rw [Nat.sub_sub_self hk] at hm
    linarith
  · have hlong : old.length - (old.length - k) = old.length := by omega
    rw [hlong, List.take_length] at hm
    rw [List.take_of_length_le (by omega)]
    linarith

end Covers

end BitMinti.Computation.Rates
