import Mathlib.Data.List.Sort
import Mathlib.Order.OrderDual
import Mathlib.Tactic.Common

/-!
# Comparators and sorting

A comparator says whether a value comes before another.  It can sort when it is a strict weak order;
comparators by one key after the other are.  A sorter stands for any algorithm that sorts by
comparators, stable or not.
-/

set_option autoImplicit false

namespace BitMinti.Computation.Sorting

variable {α β : Type}

/-- **A strict weak order**: the opposite of coming before is a total preorder. -/
structure StrictWeak (lt : α → α → Bool) : Prop where
  asymm : ∀ {a b}, lt a b = true → lt b a = false
  trans : ∀ {a b c}, lt b a = false → lt c b = false → lt c a = false

theorem StrictWeak.irrefl {lt : α → α → Bool} (h : StrictWeak lt) (a : α) : lt a a = false := by
  cases haa : lt a a with
  | false => rfl
  | true => exact haa.symm.trans (h.asymm haa)

theorem strictWeak_key [LinearOrder β] (key : α → β) :
    StrictWeak fun a b => decide (key a < key b) where
  asymm h := decide_eq_false (lt_asymm (of_decide_eq_true h))
  trans hab hbc :=
    decide_eq_false (not_lt.mpr ((not_lt.mp (of_decide_eq_false hab)).trans
      (not_lt.mp (of_decide_eq_false hbc))))

/-- One key, then another comparator. -/
theorem StrictWeak.lex [LinearOrder β] {lt first : α → α → Bool} (h : StrictWeak lt) (key : α → β)
    (hfirst : ∀ a b, key a ≠ key b → first a b = decide (key a < key b)) :
    StrictWeak fun a b => if key a ≠ key b then first a b else lt a b := by
  have hle {a b : α} (hab : (if key b ≠ key a then first b a else lt b a) = false) :
      key a < key b ∨ (key a = key b ∧ lt b a = false) := by
    split_ifs at hab with hne
    · rw [hfirst b a hne] at hab
      exact .inl (lt_of_le_of_ne (not_lt.mp (of_decide_eq_false hab)) (Ne.symm hne))
    · exact .inr ⟨(not_not.mp hne).symm, hab⟩
  have hge {a b : α} (hab : key a < key b ∨ (key a = key b ∧ lt b a = false)) :
      (if key b ≠ key a then first b a else lt b a) = false := by
    obtain hlt | ⟨heq, hlt⟩ := hab
    · rw [if_pos hlt.ne', hfirst b a hlt.ne']
      exact decide_eq_false (lt_asymm hlt)
    · rwa [if_neg (not_not.mpr heq.symm)]
  constructor
  · intro a b hab
    refine hge ?_
    split_ifs at hab with hne
    · rw [hfirst a b hne] at hab
      exact .inl (of_decide_eq_true hab)
    · exact .inr ⟨not_not.mp hne, h.asymm hab⟩
  · intro a b c hab hbc
    refine hge ?_
    obtain hab | ⟨hab, hab'⟩ := hle hab
    · obtain hbc | ⟨hbc, -⟩ := hle hbc
      · exact .inl (hab.trans hbc)
      · exact .inl (hbc ▸ hab)
    · obtain hbc | ⟨hbc, hbc'⟩ := hle hbc
      · exact .inl (hab ▸ hbc)
      · exact .inr ⟨hab.trans hbc, h.trans hab' hbc'⟩

/-- An algorithm that sorts. -/
structure Sorter (α : Type) where
  sort : (α → α → Bool) → List α → List α
  perm : ∀ lt l, (sort lt l).Perm l
  sorted : ∀ lt l, StrictWeak lt → (sort lt l).Pairwise fun a b => lt b a = false

/-- What is not among the last of a sorted list has all of those at least level with it. -/
theorem countP_of_mem_take {lt : α → α → Bool} (h : StrictWeak lt) {l : List α}
    (hl : l.Pairwise fun a b => lt b a = false) {n : ℕ} {a : α} (ha : a ∈ l.take n) :
    (l.drop n).length < l.countP fun b => !lt b a := by
  have hsplit := hl
  rw [← List.take_append_drop n l, List.pairwise_append] at hsplit
  have hlast : (l.drop n).countP (fun b => !lt b a) = (l.drop n).length :=
    List.countP_eq_length.mpr fun b hb => by rw [hsplit.2.2 a ha b hb, Bool.not_false]
  have hself : 0 < (l.take n).countP fun b => !lt b a :=
    List.countP_pos_iff.mpr ⟨a, ha, by rw [h.irrefl a, Bool.not_false]⟩
  have hcount : (l.take n ++ l.drop n).countP (fun b => !lt b a) =
      (l.take n).countP (fun b => !lt b a) + (l.drop n).countP fun b => !lt b a :=
    List.countP_append
  rw [List.take_append_drop] at hcount
  omega

/-- Sorting by insertion. -/
def insertionSorter (α : Type) : Sorter α where
  sort lt l := l.insertionSort fun a b => lt b a = false
  perm lt l := List.perm_insertionSort _ l
  sorted lt l h :=
    haveI : Std.Total fun a b => lt b a = false := ⟨fun a b => by
      cases hba : lt b a with
      | false => exact .inl rfl
      | true => exact .inr (h.asymm hba)⟩
    haveI : IsTrans α fun a b => lt b a = false := ⟨fun _ _ _ => h.trans⟩
    List.pairwise_insertionSort _ l

end BitMinti.Computation.Sorting
