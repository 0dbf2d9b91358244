import BitMinti.Computation.Diagram
import Mathlib.Algebra.Order.BigOperators.Group.List

/-!
# The conjugate of a diagram

At a threshold rate the *excess* of a list of chunks is the sum of the surpluses that are positive.
It is the greatest surplus of the diagram over the line of that slope, so two diagrams of sorted
chunks compare as their excesses do at all thresholds.  The excess of two lists together is the
sum of their excesses: chunks that two lists share cancel.
-/

set_option autoImplicit false

namespace BitMinti.Computation.Conjugate

open Rates Diagram

/-- The sum of the positive surpluses over the rate `t`. -/
def excess (t : ℚ) (cs : List Worth) : ℚ := (cs.map fun c => max 0 (surplus t c)).sum

/-- Chunks of positive weight and no negative value, in non-increasing order of their
rates. -/
structure SortedChunks (cs : List Worth) : Prop where
  pos : ∀ c ∈ cs, 0 < c.2
  nonneg : ∀ c ∈ cs, 0 ≤ c.1
  sorted : cs.Pairwise fun a b => NotAbove b a

section Excess

variable {cs ds : List Worth} {t x : ℚ}

theorem excess_append (t : ℚ) (cs ds : List Worth) :
    excess t (cs ++ ds) = excess t cs + excess t ds := by
  rw [excess, List.map_append, List.sum_append, excess, excess]

theorem excess_perm (t : ℚ) (h : cs.Perm ds) : excess t cs = excess t ds :=
  (h.map _).sum_eq

theorem excess_nonneg (t : ℚ) (cs : List Worth) : 0 ≤ excess t cs := by
  refine List.sum_nonneg fun v hv => ?_
  obtain ⟨c, -, rfl⟩ := List.mem_map.1 hv
  exact le_max_left _ _

theorem surplus_take_le_excess (t : ℚ) (cs : List Worth) (j : ℕ) :
    surplus t (cs.take j).sum ≤ excess t cs := by
  induction cs generalizing j with
  | nil => simp [excess]
  | cons c cs ih =>
    cases j with
    | zero => simpa using excess_nonneg t (c :: cs)
    | succ j =>
      rw [List.take_succ_cons, List.sum_cons, surplus_add]
      exact add_le_add (le_max_right _ _) (ih j)

/-- In sorted order the chunks with a surplus come first. -/
theorem exists_take_eq_excess (hpos : ∀ c ∈ cs, 0 < c.2)
    (hsorted : cs.Pairwise fun a b => NotAbove b a) (t : ℚ) :
    ∃ j, excess t cs = surplus t (cs.take j).sum := by
  induction cs with
  | nil => exact ⟨0, by simp [excess]⟩
  | cons c cs ih =>
    have hcs := (List.forall_mem_cons.1 hpos).2
    obtain ⟨hbelow, hsorted'⟩ := List.pairwise_cons.1 hsorted
    rcases le_or_gt 0 (surplus t c) with hc | hc
    · obtain ⟨j, hj⟩ := ih hcs hsorted'
      refine ⟨j + 1, ?_⟩
      rw [List.take_succ_cons, List.sum_cons, surplus_add, ← hj, excess, List.map_cons,
        List.sum_cons, max_eq_right hc, excess]
    · refine ⟨0, ?_⟩
      have hnone : ∀ d ∈ c :: cs, max 0 (surplus t d) = 0 := by
        intro d hd
        refine max_eq_left (not_lt.1 fun hd' => ?_)
        rcases List.mem_cons.1 hd with rfl | hd
        · exact absurd hd' hc.not_gt
        · exact absurd ((hbelow d hd).surplus_nonneg (hcs d hd) (hpos c List.mem_cons_self) hd'.le)
            hc.not_ge
      rw [excess, List.map_congr_left hnone, List.take_zero, List.sum_nil, surplus_zero]
      simp

/-- At a boundary the diagram has the value of the chunks before it. -/
theorem diagram_boundary (hpos : ∀ c ∈ cs, 0 < c.2) (j : ℕ) :
    diagram cs (cs.take j).sum.2 = (cs.take j).sum.1 := by
  induction cs generalizing j with
  | nil => simp [diagram]
  | cons c cs ih =>
    have hcs := (List.forall_mem_cons.1 hpos).2
    cases j with
    | zero => simpa using diagram_zero hpos
    | succ j =>
      have hrest : (0 : ℚ) ≤ (cs.take j).sum.2 := by
        exact_mod_cast sum_weight_nonneg fun d hd => hcs d (List.mem_of_mem_take hd)
      rw [List.take_succ_cons, List.sum_cons, Prod.snd_add, Prod.fst_add, Int.cast_add,
        diagram_from hpos (by linarith), add_sub_cancel_left, ih hcs, Int.cast_add]

theorem sum_value_nonneg (hnonneg : ∀ c ∈ cs, 0 ≤ c.1) : 0 ≤ cs.sum.1 :=
  List.sum_induction (fun w : Worth => 0 ≤ w.1) (fun _ _ => add_nonneg) le_rfl hnonneg

/-- The diagram is below every line of non-negative slope that starts at the excess. -/
theorem diagram_le_excess (hpos : ∀ c ∈ cs, 0 < c.2) (ht : 0 ≤ t) (hx : 0 ≤ x) :
    diagram cs x ≤ excess t cs + t * x := by
  rcases le_total x cs.sum.2 with hin | hout
  · exact Diagram.diagram_le hpos (surplus_take_le_excess t cs) hx hin
  · have hall := surplus_take_le_excess t cs cs.length
    rw [List.take_length, surplus] at hall
    have hslope : t * cs.sum.2 ≤ t * x := mul_le_mul_of_nonneg_left hout ht
    rw [diagram_beyond hpos hout]
    linarith

/-- At every place some such line touches the diagram. -/
theorem SortedChunks.exists_touching (h : SortedChunks cs) (hx : 0 ≤ x) :
    ∃ t, 0 ≤ t ∧ excess t cs + t * x ≤ diagram cs x := by
  rcases le_total (cs.sum.2 : ℚ) x with hout | hin
  · refine ⟨0, le_rfl, ?_⟩
    obtain ⟨j, hj⟩ := exists_take_eq_excess h.pos h.sorted 0
    have hrest := sum_value_nonneg fun c hc => h.nonneg c (List.mem_of_mem_drop (i := j) hc)
    have hsplit : cs.sum.1 = (cs.take j).sum.1 + (cs.drop j).sum.1 := by
      rw [← Prod.fst_add, ← List.sum_append, List.take_append_drop]
    have hle : ((cs.take j).sum.1 : ℚ) ≤ cs.sum.1 := by
      exact_mod_cast hsplit ▸ le_add_of_nonneg_right hrest
    rw [diagram_beyond h.pos hout, hj, surplus, zero_mul, zero_mul, sub_zero, add_zero]
    exact hle
  by_cases hempty : cs = []
  · subst hempty
    exact ⟨0, le_rfl, by simp [excess, diagram]⟩
  obtain ⟨c, hc, hsupport⟩ := exists_support hempty h.pos h.sorted hx hin
  obtain ⟨j, hj⟩ := exists_take_eq_excess h.pos h.sorted (rate c)
  refine ⟨rate c, div_nonneg ?_ ?_, hj ▸ hsupport j⟩
  · exact_mod_cast h.nonneg c hc
  · exact_mod_cast (h.pos c hc).le

/-- **Diagrams compare as excesses do.** -/
theorem SortedChunks.diagram_le_iff (hcs : SortedChunks cs) (hds : SortedChunks ds) :
    (∀ x, 0 ≤ x → diagram cs x ≤ diagram ds x) ↔ ∀ t, 0 ≤ t → excess t cs ≤ excess t ds := by
  constructor
  · intro hle t ht
    obtain ⟨j, hj⟩ := exists_take_eq_excess hcs.pos hcs.sorted t
    have hplace : (0 : ℚ) ≤ (cs.take j).sum.2 := by
      exact_mod_cast sum_weight_nonneg fun c hc => hcs.pos c (List.mem_of_mem_take hc)
    have hlow := hle _ hplace
    rw [diagram_boundary hcs.pos] at hlow
    have hhigh := diagram_le_excess hds.pos ht hplace
    rw [hj, surplus]
    linarith
  · intro hle x hx
    obtain ⟨t, ht, htouch⟩ := hds.exists_touching hx
    have hlow := diagram_le_excess hcs.pos ht hx
    have hexcess := hle t ht
    linarith

/-- **Shared chunks cancel.** Whatever is sorted into both lists, one diagram is below
the other exactly when it was before. -/
theorem diagram_le_iff_of_perm {as bs as' bs' : List Worth} (ha : SortedChunks as)
    (hb : SortedChunks bs) (ha' : SortedChunks as') (hb' : SortedChunks bs')
    (hperm : as'.Perm (as ++ cs)) (hperm' : bs'.Perm (bs ++ cs)) :
    (∀ x, 0 ≤ x → diagram as' x ≤ diagram bs' x) ↔
      ∀ x, 0 ≤ x → diagram as x ≤ diagram bs x := by
  rw [ha'.diagram_le_iff hb', ha.diagram_le_iff hb]
  refine forall₂_congr fun t _ => ?_
  rw [excess_perm t hperm, excess_perm t hperm', excess_append, excess_append]
  exact add_le_add_iff_right _

end Excess

end BitMinti.Computation.Conjugate
