import BitMinti.Computation.Chunks
import Mathlib.Analysis.Convex.Function

/-!
# Diagrams

The diagram of a list of chunks starts at the origin, goes in a straight line to the weight and
value reached after each chunk, and is flat beyond the last one.  Where the rates do not increase
it is concave: at every weight some chunk's rate is a slope under which the whole diagram stays.

An order that covers another, item for item of the same total, has a diagram at least as high at
every weight.
-/

set_option autoImplicit false

namespace BitMinti.Computation.Diagram

open Rates Chunks

/-- The value that the diagram of the chunks gives at the weight `x`. -/
def diagram : List Worth → ℚ → ℚ
  | [], _ => 0
  | c :: cs, x => if x ≤ c.2 then c.1 * x / c.2 else c.1 + diagram cs (x - c.2)

section Lines

variable {c : Worth} {cs : List Worth} {x : ℚ}

theorem sum_weight_nonneg (hpos : ∀ c ∈ cs, 0 < c.2) : 0 ≤ cs.sum.2 :=
  List.sum_induction (fun w : Worth => 0 ≤ w.2) (fun _ _ => add_nonneg) le_rfl
    fun c hc => (hpos c hc).le

theorem diagram_zero (hpos : ∀ c ∈ cs, 0 < c.2) : diagram cs 0 = 0 := by
  cases cs with
  | nil => rfl
  | cons c cs =>
    have hc : (0 : ℚ) ≤ c.2 := by exact_mod_cast (hpos c List.mem_cons_self).le
    rw [diagram, if_pos hc, mul_zero, zero_div]

/-- The rate of a chunk, as a slope. -/
def rate (c : Worth) : ℚ := c.1 / c.2

theorem diagram_within (hx : x ≤ c.2) : diagram (c :: cs) x = rate c * x := by
  rw [diagram, if_pos hx, rate]
  ring

theorem diagram_from (hpos : ∀ d ∈ c :: cs, 0 < d.2) (hx : (c.2 : ℚ) ≤ x) :
    diagram (c :: cs) x = c.1 + diagram cs (x - c.2) := by
  rw [diagram]
  split
  next hle =>
    have hend : x = c.2 := le_antisymm hle hx
    have hc : (c.2 : ℚ) ≠ 0 := by exact_mod_cast (hpos c List.mem_cons_self).ne'
    rw [hend, sub_self, diagram_zero fun d hd => hpos d (List.mem_cons_of_mem c hd),
      mul_div_assoc, div_self hc, mul_one, add_zero]
  next => rfl

theorem diagram_beyond (hpos : ∀ c ∈ cs, 0 < c.2) (hx : (cs.sum.2 : ℚ) ≤ x) :
    diagram cs x = cs.sum.1 := by
  induction cs generalizing x with
  | nil => simp [diagram]
  | cons c cs ih =>
    have hcs := (List.forall_mem_cons.1 hpos).2
    have hrest : (0 : ℚ) ≤ cs.sum.2 := by exact_mod_cast sum_weight_nonneg hcs
    rw [List.sum_cons, Prod.snd_add, Int.cast_add] at hx
    rw [diagram_from hpos (by linarith), ih hcs (by linarith), List.sum_cons, Prod.fst_add,
      Int.cast_add]

/-- Between two boundaries the diagram is a chord, which no concave function is below. -/
theorem diagram_le_of_concave {h : ℚ → ℚ} {start : Worth}
    (hpos : ∀ c ∈ cs, 0 < c.2) (hconcave : ConcaveOn ℚ (Set.Icc (start.2 : ℚ) (start + cs.sum).2) h)
    (habove : ∀ j, ((start + (cs.take j).sum).1 : ℚ) ≤ h (start + (cs.take j).sum).2)
    (hx : 0 ≤ x) (hxs : x ≤ cs.sum.2) : start.1 + diagram cs x ≤ h (start.2 + x) := by
  induction cs generalizing start x with
  | nil =>
    obtain rfl : x = 0 := le_antisymm (by simpa using hxs) hx
    simpa [diagram] using habove 0
  | cons c cs ih =>
    obtain ⟨hc, hcs⟩ := List.forall_mem_cons.1 hpos
    have hcq : (0 : ℚ) < c.2 := by exact_mod_cast hc
    have hrest : (0 : ℚ) ≤ cs.sum.2 := by exact_mod_cast sum_weight_nonneg hcs
    rw [List.sum_cons, Prod.snd_add, Prod.snd_add, Int.cast_add, Int.cast_add] at hconcave
    rw [List.sum_cons, Prod.snd_add, Int.cast_add] at hxs
    rw [diagram]
    split
    next hle =>
      have hbegin := habove 0
      have hend := habove 1
      simp only [List.take_zero, List.sum_nil, add_zero, List.take_succ_cons, List.sum_singleton,
        Prod.fst_add, Prod.snd_add, Int.cast_add] at hbegin hend
      have hshare : 0 ≤ x / c.2 := div_nonneg hx hcq.le
      have hshare' : x / c.2 ≤ 1 := (div_le_one hcq).2 hle
      have hchord := hconcave.2 (x := (start.2 : ℚ)) (y := start.2 + c.2)
        ⟨le_rfl, by linarith⟩ ⟨by linarith, by linarith⟩ (sub_nonneg.2 hshare') hshare (by ring)
      have hpoint : (1 - x / c.2) • (start.2 : ℚ) + (x / c.2) • (start.2 + c.2 : ℚ) =
          start.2 + x := by
        simp only [smul_eq_mul]
        field_simp
        ring
      rw [hpoint] at hchord
      refine le_trans ?_ hchord
      calc start.1 + c.1 * x / c.2
          = (1 - x / c.2) * start.1 + x / c.2 * (start.1 + c.1) := by ring
        _ ≤ (1 - x / c.2) • h start.2 + (x / c.2) • h (start.2 + c.2) :=
          add_le_add (mul_le_mul_of_nonneg_left hbegin (sub_nonneg.2 hshare'))
            (mul_le_mul_of_nonneg_left hend hshare)
    next hgt =>
      have hnext := @ih (x - c.2) (start + c) hcs
        (hconcave.subset (Set.Icc_subset_Icc (by simp [hcq.le]) (by simp [add_assoc]))
          (convex_Icc _ _))
        (fun j => by simpa [add_assoc] using habove (j + 1)) (by linarith) (by linarith)
      simpa [add_assoc] using hnext

/-- A line on or above all boundaries is above the diagram. -/
theorem diagram_le {t b : ℚ} (hpos : ∀ c ∈ cs, 0 < c.2)
    (hb : ∀ j, surplus t (cs.take j).sum ≤ b) (hx : 0 ≤ x) (hxs : x ≤ cs.sum.2) :
    diagram cs x ≤ b + t * x := by
  have hline : ConcaveOn ℚ (Set.Icc ((0 : Worth).2 : ℚ) (0 + cs.sum).2) fun x => b + t * x :=
    ⟨convex_Icc _ _, fun x _ y _ a a' _ _ hab => by
      simp only [smul_eq_mul]
      exact le_of_eq (by linear_combination b * hab)⟩
  have hle := diagram_le_of_concave hpos hline (fun j => ?_) hx hxs
  · simpa using hle
  · have hj := hb j
    unfold surplus at hj
    rw [zero_add]
    linarith

theorem surplus_rate (hc : 0 < c.2) : surplus (rate c) c = 0 := by
  have hcq : (c.2 : ℚ) ≠ 0 := by exact_mod_cast hc.ne'
  unfold surplus rate
  rw [div_mul_cancel₀ _ hcq, sub_self]

theorem surplus_sum_nonpos (hc : 0 < c.2) (hle : ∀ d ∈ cs, NotAbove d c) :
    surplus (rate c) cs.sum ≤ 0 := by
  refine List.sum_induction (fun w => surplus (rate c) w ≤ 0) (fun v w hv hw => ?_)
    (surplus_zero _).le fun d hd => ?_
  · rw [surplus_add]
    exact add_nonpos hv hw
  · have hcq : (0 : ℚ) < c.2 := by exact_mod_cast hc
    have hcross : (d.1 : ℚ) * c.2 ≤ c.1 * d.2 := by exact_mod_cast hle d hd
    unfold surplus rate
    rw [sub_nonpos, div_mul_eq_mul_div, le_div_iff₀ hcq]
    exact hcross

/-- **Non-increasing rates make the diagram concave.** At every weight the rate of some
chunk is the slope of a line through the diagram with all boundaries on or below it. -/
theorem exists_support (hne : cs ≠ []) (hpos : ∀ c ∈ cs, 0 < c.2)
    (hsorted : cs.Pairwise fun a b => NotAbove b a) (hx : 0 ≤ x) (hxs : x ≤ cs.sum.2) :
    ∃ c ∈ cs, ∀ j, surplus (rate c) (cs.take j).sum + rate c * x ≤ diagram cs x := by
  induction cs generalizing x with
  | nil => exact absurd rfl hne
  | cons c cs ih =>
    obtain ⟨hc, hcs⟩ := List.forall_mem_cons.1 hpos
    have hcq : (0 : ℚ) < c.2 := by exact_mod_cast hc
    obtain ⟨hbelow, hsorted'⟩ := List.pairwise_cons.1 hsorted
    by_cases hle : x ≤ c.2
    · rw [diagram_within hle]
      refine ⟨c, List.mem_cons_self, fun j => ?_⟩
      cases j with
      | zero => simp
      | succ j =>
        have hlater := surplus_sum_nonpos hc fun d hd => hbelow d (List.mem_of_mem_take (i := j) hd)
        rw [List.take_succ_cons, List.sum_cons, surplus_add, surplus_rate hc]
        linarith
    · rw [diagram, if_neg hle]
      have hne' : cs ≠ [] := by
        rintro rfl
        simp only [List.sum_singleton] at hxs
        exact hle hxs
      rw [List.sum_cons, Prod.snd_add, Int.cast_add] at hxs
      obtain ⟨d, hd, hsupport⟩ :=
        ih (x := x - c.2) hne' hcs hsorted' (by linarith) (by linarith)
      refine ⟨d, List.mem_cons_of_mem c hd, fun j => ?_⟩
      -- boundaries after `c` are those of the rest, shifted by `c`
      have hshift : ∀ i, surplus (rate d) (c + (cs.take i).sum) + rate d * x ≤
          c.1 + diagram cs (x - c.2) := by
        intro i
        have hi := hsupport i
        rw [surplus_add]
        unfold surplus at hi ⊢
        linarith
      cases j with
      | zero =>
        -- the origin: the first chunk has a surplus over the slope
        have hreach : 0 ≤ surplus (rate d) c :=
          (hbelow d hd).surplus_nonneg (hcs d hd) hc (surplus_rate (hcs d hd)).ge
        have hfirst := hshift 0
        rw [List.take_zero, List.sum_nil, add_zero] at hfirst
        rw [List.take_zero, List.sum_nil, surplus_zero]
        linarith
      | succ j =>
        rw [List.take_succ_cons, List.sum_cons]
        exact hshift j

end Lines

/-! ## Diagrams of orders -/

section Orders

variable {α : Type} {worth : α → Worth}

/-- What the chunks of an order are worth, from the front. -/
def chunkWorths (worth : α → Worth) (l : List α) : List Worth :=
  (chunks worth l).map (total worth)

theorem sum_totals (gs : List (List α)) :
    (gs.map (total worth)).sum = total worth gs.flatten := by
  induction gs with
  | nil => rfl
  | cons g gs ih => rw [List.map_cons, List.sum_cons, ih, List.flatten_cons, total_append]

theorem chunkWorths_sum (l : List α) : (chunkWorths worth l).sum = total worth l := by
  rw [chunkWorths, sum_totals, chunks_flatten]

theorem chunkWorths_take_sum (l : List α) (j : ℕ) :
    ((chunkWorths worth l).take j).sum = total worth ((chunks worth l).take j).flatten := by
  rw [chunkWorths, ← List.map_take, sum_totals]

theorem chunkWorths_pos {l : List α} (hpos : ∀ a ∈ l, 0 < (worth a).2) :
    ∀ c ∈ chunkWorths worth l, 0 < c.2 :=
  List.forall_mem_map.2 fun g hg => (chunkOnto_descending hpos).pos g (List.mem_reverse.1 hg)

theorem chunkWorths_sorted {l : List α} (hpos : ∀ a ∈ l, 0 < (worth a).2) :
    (chunkWorths worth l).Pairwise fun a b => NotAbove b a := by
  rw [chunkWorths, List.pairwise_map, chunks, List.pairwise_reverse]
  exact (chunkOnto_descending hpos).sorted

theorem exists_take_of_boundary (gs : List (List α)) (j : ℕ) :
    ∃ k, (gs.take j).flatten = gs.flatten.take k := by
  refine ⟨(gs.take j).flatten.length, ?_⟩
  have hsplit : (gs.take j).flatten ++ (gs.drop j).flatten = gs.flatten := by
    rw [← List.flatten_append, List.take_append_drop]
  exact List.prefix_iff_eq_take.1 ⟨_, hsplit⟩

theorem exists_take_of_chunks (l : List α) (j : ℕ) :
    ∃ k, ((chunkWorths worth l).take j).sum = total worth (l.take k) := by
  obtain ⟨k, hk⟩ := exists_take_of_boundary (chunks worth l) j
  exact ⟨k, by rw [chunkWorths_take_sum, hk, chunks_flatten]⟩

theorem exists_boundary_of_take {l : List α} (hpos : ∀ a ∈ l, 0 < (worth a).2) (t : ℚ) (k : ℕ) :
    ∃ j, surplus t (total worth (l.take k)) ≤ surplus t ((chunkWorths worth l).take j).sum := by
  obtain ⟨i, hi⟩ := chunkOnto_reaches hpos t k
  refine ⟨(chunkOnto worth [] l).length - i, hi.trans (le_of_eq ?_)⟩
  have hdrop : (chunkOnto worth [] l).drop ((chunkOnto worth [] l).length -
      ((chunkOnto worth [] l).length - i)) = (chunkOnto worth [] l).drop i := by
    by_cases hle : i ≤ (chunkOnto worth [] l).length
    · rw [Nat.sub_sub_self hle]
    · rw [List.drop_of_length_le (by omega), List.drop_of_length_le (by omega)]
  rw [chunkWorths_take_sum, chunks, List.take_reverse, hdrop,
    total_perm worth (List.reverse_perm _).flatten]

/-- A line through the diagram at a weight with all prefixes of the order on or below it. -/
theorem exists_line {l : List α} (hpos : ∀ a ∈ l, 0 < (worth a).2) {x : ℚ} (hx : 0 ≤ x)
    (hxs : x ≤ (total worth l).2) : ∃ t, ∀ k, surplus t (total worth (l.take k)) + t * x ≤
      diagram (chunkWorths worth l) x := by
  by_cases hempty : chunkWorths worth l = []
  · have hl : l = [] := by
      rw [← @chunks_flatten α worth l, List.map_eq_nil_iff.1 hempty, List.flatten_nil]
    subst hl
    exact ⟨0, fun k => by simp [chunkWorths, chunks, diagram]⟩
  · rw [← chunkWorths_sum] at hxs
    obtain ⟨c, -, hsupport⟩ := exists_support hempty (chunkWorths_pos hpos)
      (chunkWorths_sorted hpos) hx hxs
    refine ⟨rate c, fun k => ?_⟩
    obtain ⟨j, hj⟩ := exists_boundary_of_take hpos (rate c) k
    have hslope := hsupport j
    linarith

/-- **Matched boundaries mean a higher diagram.** At a weight within the total, the slope of the
better diagram there bounds both. -/
theorem diagram_le_of_boundaries {cs : List Worth} {new : List α}
    (h : ∀ (t : ℚ) (j : ℕ), ∃ m, surplus t (cs.take j).sum ≤ surplus t (total worth (new.take m)))
    (hvalue : cs.sum.1 ≤ (total worth new).1) (hweight : cs.sum.2 = (total worth new).2)
    (hcs : ∀ c ∈ cs, 0 < c.2) (hnew : ∀ a ∈ new, 0 < (worth a).2) {x : ℚ} (hx : 0 ≤ x) :
    diagram cs x ≤ diagram (chunkWorths worth new) x := by
  rcases le_total ((total worth new).2 : ℚ) x with hle | hwithin
  · rw [diagram_beyond hcs (hweight ▸ hle), diagram_beyond (chunkWorths_pos hnew)
      ((@chunkWorths_sum α worth new).symm ▸ hle), chunkWorths_sum]
    exact_mod_cast hvalue
  · obtain ⟨t, hline⟩ := exists_line hnew hx hwithin
    have hbound : diagram cs x ≤ (diagram (chunkWorths worth new) x - t * x) + t * x := by
      refine Diagram.diagram_le hcs (fun j => ?_) hx (hweight ▸ hwithin)
      obtain ⟨m, hm⟩ := h t j
      have hslope := hline m
      linarith
    linarith

theorem diagram_le_of_matches {worth' : α → Worth} {new old : List α}
    (h : ∀ (t : ℚ) (k : ℕ), ∃ m, surplus t (total worth' (old.take k)) ≤
      surplus t (total worth (new.take m)))
    (hvalue : (total worth' old).1 ≤ (total worth new).1)
    (hweight : (total worth' old).2 = (total worth new).2) (hnew : ∀ a ∈ new, 0 < (worth a).2)
    (hold : ∀ a ∈ old, 0 < (worth' a).2) {x : ℚ} (hx : 0 ≤ x) :
    diagram (chunkWorths worth' old) x ≤ diagram (chunkWorths worth new) x := by
  rw [← chunkWorths_sum] at hvalue hweight
  refine diagram_le_of_boundaries (fun t j => ?_) hvalue hweight (chunkWorths_pos hold) hnew hx
  obtain ⟨k, hk⟩ := @exists_take_of_chunks α worth' old j
  rw [hk]
  exact h t k

theorem diagram_le_of_covers {new old : List α} (h : Covers worth new old)
    (htotal : total worth new = total worth old) (hnew : ∀ a ∈ new, 0 < (worth a).2)
    (hold : ∀ a ∈ old, 0 < (worth a).2) {x : ℚ} (hx : 0 ≤ x) :
    diagram (chunkWorths worth old) x ≤ diagram (chunkWorths worth new) x :=
  diagram_le_of_matches h (htotal ▸ le_refl _) (htotal ▸ rfl) hnew hold hx

/-! ## The least concave majorant -/

end Orders

end BitMinti.Computation.Diagram
