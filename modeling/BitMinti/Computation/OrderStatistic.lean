import Mathlib.Data.List.Sort
import Mathlib.Data.List.GetD

/-!
# Order statistics of a list

The entry at position `i` of a sorted list is at least `b` exactly when at most `i` entries are
below `b`.  Through this count two lists are compared entry by entry without looking at where
their elements went when they were sorted.
-/

set_option autoImplicit false

namespace BitMinti.Computation.OrderStatistic

variable {α : Type} [LinearOrder α]

/-- **Where a bound falls in a sorted list.**  The induction is on the list. -/
theorem le_getElem_iff_of_sorted {l : List α} (hl : l.Pairwise (· ≤ ·)) (b : α) {i : ℕ}
    (hi : i < l.length) : b ≤ l[i] ↔ l.countP (· < b) ≤ i := by
  induction l generalizing i with
  | nil => cases hi
  | cons a rest ih =>
    obtain ⟨hhead, hrest⟩ := List.pairwise_cons.mp hl
    by_cases hab : a < b
    · rw [List.countP_cons_of_pos (by simpa using hab)]
      cases i with
      | zero => simpa using hab
      | succ i =>
        rw [List.getElem_cons_succ, ih hrest]
        omega
    · -- nothing in the list is below the bound
      have hnone : (a :: rest).countP (· < b) = 0 := by
        rw [List.countP_eq_zero]
        intro c hc
        have hle : a ≤ c := List.forall_mem_cons.mpr ⟨le_rfl, hhead⟩ c hc
        simpa using (not_lt.mp hab).trans hle
      have hbi : b ≤ (a :: rest)[i] := by
        rcases List.mem_cons.mp (List.getElem_mem hi) with heq | hmem
        · rw [heq]
          exact not_lt.mp hab
        · exact (not_lt.mp hab).trans (hhead _ hmem)
      rw [hnone]
      exact iff_of_true hbi (Nat.zero_le _)

theorem le_mergeSort_getD_iff (l : List α) (b d : α) {i : ℕ} (hi : i < l.length) :
    b ≤ l.mergeSort.getD i d ↔ l.countP (· < b) ≤ i := by
  have hlen : i < l.mergeSort.length := by rwa [List.length_mergeSort]
  rw [List.getD_eq_getElem _ _ hlen, le_getElem_iff_of_sorted (List.pairwise_mergeSort' _ l),
    (List.mergeSort_perm l _).countP_eq]

/-- **A window that slides past its median keeps it.**  A new entry that is not below the
median comes in front, and the list may lose entries at its end as long as it gets no shorter. -/
theorem median_le_median_cons {l l' : List α} {a d : α} (hne : l ≠ []) (hinit : l' <+: l)
    (hlen : l.length ≤ l'.length + 1) (ha : l.mergeSort.getD (l.length / 2) d ≤ a) :
    l.mergeSort.getD (l.length / 2) d ≤
      (a :: l').mergeSort.getD ((a :: l').length / 2) d := by
  have hpos : 0 < l.length := List.length_pos_iff.mpr hne
  have hold := (le_mergeSort_getD_iff l (l.mergeSort.getD (l.length / 2) d) d
    (show l.length / 2 < l.length by omega)).mp le_rfl
  rw [List.length_cons, le_mergeSort_getD_iff _ _ _ (by rw [List.length_cons]; omega),
    List.countP_cons_of_neg (by simpa using ha)]
  calc l'.countP (· < l.mergeSort.getD (l.length / 2) d)
      ≤ l.countP (· < l.mergeSort.getD (l.length / 2) d) := hinit.sublist.countP_le
    _ ≤ l.length / 2 := hold
    _ ≤ (l'.length + 1) / 2 := Nat.div_le_div_right hlen

end BitMinti.Computation.OrderStatistic
