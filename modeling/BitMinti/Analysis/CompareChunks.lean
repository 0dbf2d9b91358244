import BitMinti.Computation.Sweep
import BitMinti.Interface.FeerateDiagram

/-!
# The comparison of diagrams is exact

The loop has scanned the two diagrams up to a size `s`: each side's accumulated point is on its
diagram at or before `s`, its next one after `s`, and `better_somewhere` says what a comparison at
all sizes up to `s` would.  Between two vertices both diagrams are straight, so the comparison at
the next vertex settles all sizes before it.

SOURCE: src/src/util/feefrac.cpp:10-73
-/

set_option autoImplicit false

namespace BitMinti.Analysis

open Model Interface BitMinti.Computation Computation.Sweep Computation.Diagram

/-! ## Outcomes -/

section Outcomes

variable {f g f' g' : ℚ → ℚ} {r r' : PartialOrdering}

theorem le_of_not_better {better : Bool} (h : better = true ↔ ∃ x, 0 ≤ x ∧ g x < f x)
    (hb : better = false) : ∀ x, 0 ≤ x → f x ≤ g x :=
  fun x hx => not_lt.1 fun hlt => Bool.false_ne_true (hb.symm.trans (h.2 ⟨x, hx, hlt⟩))

theorem pointwiseOutcome_of_better {better0 better1 : Bool}
    (h0 : better0 = true ↔ ∃ x, 0 ≤ x ∧ g x < f x)
    (h1 : better1 = true ↔ ∃ x, 0 ≤ x ∧ f x < g x) :
    PointwiseOutcome f g
      (if (better0 && better1) = true then .unordered else compareBetter better0 better1) := by
  cases better0 with
  | true =>
    cases better1 with
    | true => exact ⟨h1.1 rfl, h0.1 rfl⟩
    | false => exact ⟨le_of_not_better h1 rfl, h0.1 rfl⟩
  | false =>
    have hle := le_of_not_better h0 rfl
    cases better1 with
    | true => exact ⟨hle, h1.1 rfl⟩
    | false => exact fun x hx => le_antisymm (hle x hx) (le_of_not_better h1 rfl x hx)

theorem outcome_le_iff (h : PointwiseOutcome f g r) :
    (∀ x, 0 ≤ x → f x ≤ g x) ↔ notBetter r := by
  unfold notBetter
  cases r with
  | equivalent => exact ⟨fun _ => .inr rfl, fun _ x hx => (h x hx).le⟩
  | less => exact ⟨fun _ => .inl rfl, fun _ => h.1⟩
  | greater | unordered =>
    obtain ⟨-, x, hx, hlt⟩ := h
    exact ⟨fun hle => absurd (hle x hx) (not_le.2 hlt), fun hr => by simp at hr⟩

theorem outcome_reversed (h : PointwiseOutcome f g r) :
    PointwiseOutcome g f (reversed r) := by
  cases r with
  | equivalent => exact fun x hx => (h x hx).symm
  | less | greater => exact h
  | unordered => exact h.symm

/-- **The two readings determine the outcome.** -/
theorem eq_of_notBetter (h : notBetter r ↔ notBetter r')
    (h' : notBetter (reversed r) ↔ notBetter (reversed r')) : r = r' := by
  unfold notBetter at h h'
  cases r <;> cases r' <;> simp [reversed] at h h' ⊢

theorem outcome_unique (h : PointwiseOutcome f g r) (h' : PointwiseOutcome f' g' r')
    (hle : (∀ x, 0 ≤ x → f x ≤ g x) ↔ ∀ x, 0 ≤ x → f' x ≤ g' x)
    (hge : (∀ x, 0 ≤ x → g x ≤ f x) ↔ ∀ x, 0 ≤ x → g' x ≤ f' x) : r = r' := by
  refine eq_of_notBetter ?_ ?_
  · rw [← outcome_le_iff h, ← outcome_le_iff h']
    exact hle
  · rw [← outcome_le_iff (outcome_reversed h), ← outcome_le_iff (outcome_reversed h')]
    exact hge

end Outcomes

/-! ## Sums that fit -/

section Sums

variable {chunks chunks' : List FeeFrac}

theorem fixed_of_fits {f : FeeFrac} (h : Fits f) : f.fixed = f := by
  have hfee : f.fee.bmod (2 ^ 64) = f.fee :=
    Int.bmod_eq_of_le (by have := h.fee_lower; omega) (by have := h.fee_upper; omega)
  have hsize : f.size.bmod (2 ^ 32) = f.size :=
    Int.bmod_eq_of_le (by have := h.size_lower; omega) (by have := h.size_upper; omega)
  rw [FeeFrac.fixed, hfee, hsize]

theorem sumOf_cons (c : FeeFrac) (cs : List FeeFrac) : sumOf (c :: cs) = c.add (sumOf cs) := rfl

theorem feeFrac_add_assoc (a b c : FeeFrac) : (a.add b).add c = a.add (b.add c) := by
  simp only [FeeFrac.add, Int.add_assoc]

theorem feeFrac_add_comm (a b : FeeFrac) : a.add b = b.add a := by
  simp only [FeeFrac.add, Int.add_comm]

theorem feeFrac_add_empty (a : FeeFrac) : a.add .empty = a := by
  simp only [FeeFrac.add, FeeFrac.empty, Int.add_zero]

theorem sumOf_eq (chunks : List FeeFrac) :
    sumOf chunks = ⟨(chunks.map FeeFrac.fee).sum, (chunks.map FeeFrac.size).sum⟩ := by
  induction chunks with
  | nil => rfl
  | cons c cs ih =>
    rw [sumOf_cons, ih]
    rfl

theorem paying_sublist (h : PayingChunks chunks) (hsub : chunks'.Sublist chunks) :
    PayingChunks chunks' := by
  have hfee := (hsub.map FeeFrac.fee).sum_le_sum (List.forall_mem_map.2 h.fees_nonneg)
  have hsize := (hsub.map FeeFrac.size).sum_le_sum
    (List.forall_mem_map.2 fun c hc => (h.sizes_pos c hc).le)
  have hsum := And.intro h.fee_fits h.size_fits
  rw [sumOf_eq] at hsum
  refine ⟨fun c hc => h.sizes_pos c (hsub.subset hc),
    fun c hc => h.fees_nonneg c (hsub.subset hc), ?_, ?_⟩
  · rw [sumOf_eq]
    exact hfee.trans_lt hsum.1
  · rw [sumOf_eq]
    exact hsize.trans_lt hsum.2

theorem sumOf_nonneg (h : PayingChunks chunks) :
    0 ≤ (sumOf chunks).fee ∧ 0 ≤ (sumOf chunks).size := by
  rw [sumOf_eq]
  exact ⟨List.sum_nonneg (List.forall_mem_map.2 h.fees_nonneg),
    List.sum_nonneg (List.forall_mem_map.2 fun c hc => (h.sizes_pos c hc).le)⟩

theorem fits_sumOf (h : PayingChunks chunks) : Fits (sumOf chunks) := by
  obtain ⟨hfee, hsize⟩ := sumOf_nonneg h
  exact ⟨by omega, h.fee_fits, by omega, h.size_fits⟩

theorem diagramChunks_of_paying (h : PayingChunks chunks) : DiagramChunks chunks where
  sizes_pos := h.sizes_pos
  fits c hc := by
    have hone := fits_sumOf (paying_sublist h (List.singleton_sublist.2 hc))
    rwa [sumOf_cons, sumOf, List.foldr_nil, feeFrac_add_empty] at hone
  sums_fit n := fits_sumOf (paying_sublist h (List.take_sublist n chunks))

theorem feesApart_of_paying (h : PayingChunks chunks) (h' : PayingChunks chunks') :
    FeesApart chunks chunks' := by
  intro m n
  have hm := paying_sublist h (List.take_sublist m chunks)
  have hn := paying_sublist h' (List.take_sublist n chunks')
  have hlow := (sumOf_nonneg hm).1
  have hlow' := (sumOf_nonneg hn).1
  have hhigh := hm.fee_fits
  have hhigh' := hn.fee_fits
  rw [abs_lt]
  omega

end Sums

/-! ## One side -/

/-- The point `n` chunks ahead. -/
def pointAhead (d : DiagramSide) (n : ℕ) : FeeFrac := d.accum.add (sumOf (d.rest.take n))

/-- **The side has been read up to `s`**: `accum` is the last vertex of the diagram at or
before `s`, and `rest` the chunks after it. -/
structure ReadUpTo (diagram : ℚ → ℚ) (d : DiagramSide) (s : ℚ) : Prop where
  sizes_pos : ∀ c ∈ d.rest, 0 < c.size
  fits : ∀ c ∈ d.rest, Fits c
  points_fit : ∀ n, Fits (pointAhead d n)
  accum_nonneg : 0 ≤ d.accum.size
  reached : (d.accum.size : ℚ) ≤ s
  ahead : ∀ c cs, d.rest = c :: cs → s < d.accum.size + c.size
  reads : ∀ x, (d.accum.size : ℚ) ≤ x →
    diagram x = d.accum.fee + feerateDiagram d.rest (x - d.accum.size)

/-- The slope of the diagram after `accum`, as the loop takes it. -/
def slope (d : DiagramSide) : FeeFrac :=
  match d.rest with
  | [] => ⟨0, 1⟩
  | c :: _ => c

section OneSide

variable {D : ℚ → ℚ} {d : DiagramSide} {s : ℚ} {c : FeeFrac} {cs : List FeeFrac}

theorem pointAhead_zero (d : DiagramSide) : pointAhead d 0 = d.accum :=
  feeFrac_add_empty d.accum

theorem pointAhead_one (hrest : d.rest = c :: cs) : pointAhead d 1 = d.accum.add c := by
  rw [pointAhead, hrest, List.take_succ_cons, List.take_zero, sumOf_cons]
  rw [sumOf, List.foldr_nil, feeFrac_add_empty]

theorem ReadUpTo.nextPoint_eq (h : ReadUpTo D d s) (hrest : d.rest = c :: cs) :
    d.nextPoint = d.accum.add c := by
  have hfits := h.points_fit 1
  rw [pointAhead_one hrest] at hfits
  simp only [DiagramSide.nextPoint, hrest]
  rw [feeFrac_add_comm, fixed_of_fits hfits]

theorem ReadUpTo.advance_eq (h : ReadUpTo D d s) (hrest : d.rest = c :: cs) :
    d.advance = { d with rest := cs, accum := d.accum.add c } := by
  have hfits := h.points_fit 1
  rw [pointAhead_one hrest] at hfits
  simp only [DiagramSide.advance, hrest]
  rw [fixed_of_fits hfits]

theorem pointAhead_succ (hrest : d.rest = c :: cs) (n : ℕ) :
    pointAhead d (n + 1) = pointAhead { d with rest := cs, accum := d.accum.add c } n := by
  rw [pointAhead, hrest, List.take_succ_cons, sumOf_cons, pointAhead, feeFrac_add_assoc]

section

variable (h : ReadUpTo D d s)

include h

theorem ReadUpTo.slope_pos : 0 < (slope d).size := by
  unfold slope
  split
  next => exact Int.one_pos
  next hrest => exact h.sizes_pos _ (hrest ▸ List.mem_cons_self)

/-- Up to the next vertex the diagram is on the side's slope. -/
theorem ReadUpTo.line {x : ℚ} (hsx : s ≤ x)
    (hx : ∀ c cs, d.rest = c :: cs → x ≤ d.accum.size + c.size) :
    D x = d.accum.fee + rate (toWorth (slope d)) * (x - d.accum.size) := by
  rw [h.reads x (h.reached.trans hsx), feerateDiagram, slope]
  cases hrest : d.rest with
  | nil => simp [diagram, rate, toWorth]
  | cons c cs =>
    have hwithin : x - d.accum.size ≤ c.size := by linarith [hx c cs hrest]
    rw [List.map_cons, diagram_within hwithin]

theorem ReadUpTo.flat (hrest : d.rest = []) {x : ℚ} (hsx : s ≤ x) :
    D x = d.accum.fee := by
  rw [h.reads x (h.reached.trans hsx), hrest, feerateDiagram, List.map_nil, diagram,
    add_zero]

theorem ReadUpTo.straight {p : ℚ}
    (hp : ∀ c cs, d.rest = c :: cs → p ≤ d.accum.size + c.size) : Straight D s p := by
  refine ⟨d.accum.fee - rate (toWorth (slope d)) * d.accum.size,
    rate (toWorth (slope d)), fun x hsx hxp => ?_⟩
  rw [h.line hsx fun c cs hrest => hxp.trans (hp c cs hrest)]
  ring

theorem ReadUpTo.at_next (hrest : d.rest = c :: cs) :
    D (d.accum.size + c.size) = d.accum.fee + c.fee := by
  have hnext : ∀ e es, d.rest = e :: es →
      (d.accum.size + c.size : ℚ) ≤ d.accum.size + e.size := by
    rw [hrest]
    rintro e es ⟨⟩
    exact le_rfl
  have hc : (c.size : ℚ) ≠ 0 := by
    exact_mod_cast (h.sizes_pos c (hrest ▸ List.mem_cons_self)).ne'
  rw [h.line (h.ahead c cs hrest).le hnext, add_sub_cancel_left, slope, hrest]
  exact congrArg ((d.accum.fee : ℚ) + ·) (div_mul_cancel₀ _ hc)

theorem ReadUpTo.wait {p : ℚ} (hsp : s ≤ p)
    (hp : ∀ c cs, d.rest = c :: cs → p < d.accum.size + c.size) : ReadUpTo D d p :=
  { h with
    reached := h.reached.trans hsp
    ahead := hp }

theorem ReadUpTo.step (hrest : d.rest = c :: cs) :
    ReadUpTo D d.advance (d.accum.size + c.size) := by
  have hmem : ∀ e ∈ cs, e ∈ d.rest := fun e he => hrest ▸ List.mem_cons_of_mem c he
  have hc := h.sizes_pos c (hrest ▸ List.mem_cons_self)
  have hcq : (0 : ℚ) < c.size := by exact_mod_cast hc
  have hsum : ((d.accum.add c).size : ℚ) = d.accum.size + c.size := Int.cast_add _ _
  rw [h.advance_eq hrest]
  refine ⟨fun e he => h.sizes_pos e (hmem e he), fun e he => h.fits e (hmem e he),
    fun n => pointAhead_succ hrest n ▸ h.points_fit (n + 1), ?_, ?_, ?_, ?_⟩
  · exact Int.add_nonneg h.accum_nonneg hc.le
  · exact hsum.le
  · intro e es hes
    change cs = e :: es at hes
    have he : (0 : ℚ) < e.size := by
      exact_mod_cast h.sizes_pos e (hmem e (hes ▸ List.mem_cons_self))
    rw [hsum]
    linarith
  · intro x hx
    have hpos : ∀ w ∈ toWorth c :: cs.map toWorth, 0 < w.2 := by
      rw [← List.map_cons, ← hrest]
      exact List.forall_mem_map.2 h.sizes_pos
    rw [hsum] at hx
    rw [h.reads x (by linarith), hrest, feerateDiagram, List.map_cons,
      diagram_from hpos (by simpa [toWorth] using by linarith), hsum]
    have hfee : ((d.accum.add c).fee : ℚ) = d.accum.fee + c.fee := Int.cast_add _ _
    have hrest' : x - d.accum.size - c.size = x - (d.accum.size + c.size) := by ring
    rw [hfee, toWorth, hrest', feerateDiagram, add_assoc]

theorem ReadUpTo.mark (better : Bool) : ReadUpTo D (d.mark better) s :=
  ⟨h.sizes_pos, h.fits, h.points_fit, h.accum_nonneg, h.reached, h.ahead, h.reads⟩

end

end OneSide

/-! ## Both sides -/

/-- **Both diagrams have been compared up to `s`.** -/
structure Scanned (D0 D1 : ℚ → ℚ) (side0 side1 : DiagramSide) (s : ℚ) : Prop where
  nonneg : 0 ≤ s
  first : ReadUpTo D0 side0 s
  second : ReadUpTo D1 side1 s
  apart : ∀ m n, |(pointAhead side0 m).fee - (pointAhead side1 n).fee| < 2 ^ 63
  first_better : side0.betterSomewhere = true ↔ BelowBy D1 D0 s
  second_better : side1.betterSomewhere = true ↔ BelowBy D0 D1 s

theorem Scanned.swap {D0 D1 : ℚ → ℚ} {side0 side1 : DiagramSide} {s : ℚ}
    (h : Scanned D0 D1 side0 side1 s) : Scanned D1 D0 side1 side0 s :=
  { nonneg := h.nonneg
    first := h.second
    second := h.first
    apart := fun m n => by
      rw [abs_sub_comm]
      exact h.apart n m
    first_better := h.second_better
    second_better := h.first_better }

section BothSides

variable {D E : ℚ → ℚ} {unproc other : DiagramSide} {s : ℚ} {c b : FeeFrac}
  {cs bs : List FeeFrac}

theorem compare_gt_iff (x y : ℤ) : (compare x y == .gt) = decide (y < x) := by
  rw [Bool.eq_iff_iff, beq_iff_eq, compare_gt_iff_gt, decide_eq_true_iff]

theorem compare_lt_iff (x y : ℤ) : (compare x y == .lt) = decide (x < y) := by
  rw [Bool.eq_iff_iff, beq_iff_eq, compare_lt_iff_lt, decide_eq_true_iff]

theorem Scanned.slope_eq (h : Scanned D E unproc other s) (hc : unproc.rest = c :: cs) :
    ((unproc.accum.add c).sub other.accum).fixed = (unproc.accum.add c).sub other.accum := by
  have hfee := h.apart 1 0
  have hpoint := h.first.points_fit 1
  have haccum := h.second.points_fit 0
  have hpos := h.first.sizes_pos c (hc ▸ List.mem_cons_self)
  have hfirst := h.first.accum_nonneg
  have hsecond := h.second.accum_nonneg
  rw [pointAhead_one hc] at hfee hpoint
  rw [pointAhead_zero] at hfee haccum
  rw [abs_lt] at hfee
  refine fixed_of_fits ⟨?_, ?_, ?_, ?_⟩
  · exact hfee.1.le
  · exact hfee.2
  · have := haccum.size_upper
    simp only [FeeFrac.sub, FeeFrac.add]
    omega
  · have := hpoint.size_upper
    simp only [FeeFrac.sub, FeeFrac.add] at this ⊢
    omega

theorem advance_mark (d : DiagramSide) (better : Bool) :
    (d.mark better).advance = d.advance.mark better := by
  unfold DiagramSide.advance
  cases hrest : d.rest with
  | nil => simp only [DiagramSide.mark, hrest]
  | cons c cs => simp only [DiagramSide.mark, hrest]

theorem cross_lt_iff {p a : ℤ} (fee accum : ℤ) (hb : 0 < b.size) :
    (b.fee * (p - a) < (fee - accum) * b.size ↔
      (accum : ℚ) + rate (toWorth b) * (p - a) < fee) ∧
    ((fee - accum) * b.size < b.fee * (p - a) ↔
      (fee : ℚ) < accum + rate (toWorth b) * (p - a)) := by
  have hbq : (0 : ℚ) < b.size := by exact_mod_cast hb
  have hline : rate (toWorth b) * (p - a) = (b.fee * (p - a) : ℤ) / (b.size : ℚ) := by
    rw [rate, toWorth]
    push_cast
    ring
  constructor
  · rw [hline, ← lt_sub_iff_add_lt', div_lt_iff₀ hbq]
    exact_mod_cast Iff.rfl
  · rw [hline, ← sub_lt_iff_lt_add', lt_div_iff₀ hbq]
    exact_mod_cast Iff.rfl

theorem ReadUpTo.slope_eq (h : ReadUpTo D other s) :
    (if other.done then ⟨0, 1⟩ else (other.nextPoint.sub other.accum).fixed) = slope other := by
  rw [DiagramSide.done, slope]
  cases hrest : other.rest with
  | nil => rfl
  | cons b bs =>
    have hself : (other.accum.add b).sub other.accum = b := by
      simp only [FeeFrac.sub, FeeFrac.add, add_sub_cancel_left]
    rw [h.nextPoint_eq hrest, hself]
    exact fixed_of_fits (h.fits b (hrest ▸ List.mem_cons_self))

/-- One round, with the other side's next vertex not before this side's. -/
theorem Scanned.compareAt_eq (h : Scanned D E unproc other s) (hc : unproc.rest = c :: cs) {p : ℤ}
    (hp : p = unproc.accum.size + c.size)
    (hle : ∀ b bs, other.rest = b :: bs → p ≤ other.accum.size + b.size) :
    compareAt other.done unproc other =
      (unproc.advance.mark (decide (E p < D p)),
        (if (!other.done && other.nextPoint.size == p) = true then other.advance else other).mark
          (decide (D p < E p))) := by
  have hD : D p = ((unproc.accum.fee + c.fee : ℤ) : ℚ) := by
    rw [hp, Int.cast_add, h.first.at_next hc, Int.cast_add]
  have hsp : s ≤ p := by
    rw [hp, Int.cast_add]
    exact (h.first.ahead c cs hc).le
  have hE : E p = other.accum.fee + rate (toWorth (slope other)) *
      (p - other.accum.size) := h.second.line hsp fun b bs hb => by exact_mod_cast hle b bs hb
  obtain ⟨hgt, hlt⟩ := cross_lt_iff (p := p) (a := other.accum.size)
    (unproc.accum.fee + c.fee) other.accum.fee h.second.slope_pos
  have hsize : ((unproc.accum.add c).sub other.accum).size = p - other.accum.size := by
    rw [hp]
    rfl
  have hfee : ((unproc.accum.add c).sub other.accum).fee =
      unproc.accum.fee + c.fee - other.accum.fee := rfl
  have hnext : (unproc.accum.add c).size = p := hp.symm
  simp only [compareAt, h.slope_eq hc, h.second.slope_eq, FeeFrac.feeRateCompare, compare_gt_iff,
    compare_lt_iff, advance_mark, hsize, hfee, h.first.nextPoint_eq hc, hnext, hgt, hlt, hD, hE]

/-- What a round with the next vertex at `p` adds: the sides it leaves follow their
diagrams there, and each is marked if it is better there. -/
theorem Scanned.extend (h : Scanned D E unproc other s) {unproc' other' : DiagramSide} {p : ℚ}
    (hsp : s ≤ p) (hD : Straight D s p) (hE : Straight E s p) (hfirst : ReadUpTo D unproc' p)
    (hsecond : ReadUpTo E other' p)
    (hahead : ∀ m, ∃ n, pointAhead unproc' m = pointAhead unproc n)
    (hahead' : ∀ m, ∃ n, pointAhead other' m = pointAhead other n)
    (hbetter : unproc'.betterSomewhere = unproc.betterSomewhere)
    (hbetter' : other'.betterSomewhere = other.betterSomewhere) :
    Scanned D E (unproc'.mark (decide (E p < D p))) (other'.mark (decide (D p < E p))) p := by
  refine ⟨h.nonneg.trans hsp, hfirst.mark _, hsecond.mark _, ?_, ?_, ?_⟩
  · intro m n
    obtain ⟨m', hm⟩ := hahead m
    obtain ⟨n', hn⟩ := hahead' n
    have hgoal : |(pointAhead unproc' m).fee - (pointAhead other' n).fee| < 2 ^ 63 := by
      rw [hm, hn]
      exact h.apart m' n'
    exact hgoal
  · rw [belowBy_extend hE hD h.nonneg hsp, ← h.first_better]
    simp only [DiagramSide.mark, hbetter, Bool.or_eq_true, decide_eq_true_iff]
  · rw [belowBy_extend hD hE h.nonneg hsp, ← h.second_better]
    simp only [DiagramSide.mark, hbetter', Bool.or_eq_true, decide_eq_true_iff]

theorem ReadUpTo.ahead_advance (h : ReadUpTo D unproc s) (hc : unproc.rest = c :: cs) (m : ℕ) :
    ∃ n, pointAhead unproc.advance m = pointAhead unproc n :=
  ⟨m + 1, by rw [h.advance_eq hc, pointAhead_succ hc]⟩

theorem ReadUpTo.better_advance (h : ReadUpTo D unproc s) (hc : unproc.rest = c :: cs) :
    unproc.advance.betterSomewhere = unproc.betterSomewhere := by
  rw [h.advance_eq hc]

theorem ReadUpTo.length_advance (h : ReadUpTo D unproc s) (hc : unproc.rest = c :: cs) :
    unproc.advance.rest.length + 1 = unproc.rest.length := by
  rw [h.advance_eq hc, hc, List.length_cons]

/-- **A round**: the two sides are compared up to the next vertex, and chunks are left behind. -/
theorem Scanned.round_at (h : Scanned D E unproc other s) (hc : unproc.rest = c :: cs)
    (hle : ∀ b bs, other.rest = b :: bs →
      unproc.accum.size + c.size ≤ other.accum.size + b.size) :
    ∃ unproc' other' p, compareAt other.done unproc other = (unproc', other') ∧
      Scanned D E unproc' other' p ∧
      unproc'.rest.length + other'.rest.length < unproc.rest.length + other.rest.length := by
  have hleq : ∀ b bs, other.rest = b :: bs →
      (unproc.accum.size : ℚ) + c.size ≤ other.accum.size + b.size := by
    exact_mod_cast hle
  have hsp := (h.first.ahead c cs hc).le
  have hlen := h.first.length_advance hc
  have hstraight : Straight D s (unproc.accum.size + c.size) := by
    refine h.first.straight ?_
    rw [hc]
    rintro e es ⟨⟩
    exact le_rfl
  have hround := h.compareAt_eq hc rfl hle
  rw [Int.cast_add] at hround
  by_cases hboth : (!other.done && other.nextPoint.size == unproc.accum.size + c.size) = true
  · -- both sides have a vertex at this size
    rw [if_pos hboth] at hround
    rw [Bool.and_eq_true, Bool.not_eq_true', beq_iff_eq] at hboth
    obtain ⟨b, bs, hb⟩ := List.exists_cons_of_ne_nil (List.isEmpty_eq_false_iff.1 hboth.1)
    have heq : (other.accum.size : ℚ) + b.size = unproc.accum.size + c.size := by
      rw [h.second.nextPoint_eq hb] at hboth
      exact_mod_cast hboth.2
    refine ⟨_, _, _, hround, h.extend hsp hstraight (h.second.straight hleq)
      (h.first.step hc) (heq ▸ h.second.step hb) (h.first.ahead_advance hc)
      (h.second.ahead_advance hb) (h.first.better_advance hc) (h.second.better_advance hb), ?_⟩
    have hlen' := h.second.length_advance hb
    simp only [DiagramSide.mark]
    omega
  · rw [if_neg hboth] at hround
    refine ⟨_, _, _, hround, h.extend hsp hstraight (h.second.straight hleq)
      (h.first.step hc) (h.second.wait hsp fun b bs hb => lt_of_le_of_ne (hleq b bs hb) ?_)
      (h.first.ahead_advance hc) (fun m => ⟨m, rfl⟩) (h.first.better_advance hc) rfl, ?_⟩
    · intro heq
      rw [DiagramSide.done, hb, h.second.nextPoint_eq hb] at hboth
      exact hboth (beq_iff_eq.2 (by exact_mod_cast heq.symm))
    · simp only [DiagramSide.mark]
      omega

theorem Scanned.finish (h : Scanned D E unproc other s) (hc : unproc.rest = [])
    (hb : other.rest = []) :
    (unproc.betterSomewhere = true ↔ ∃ x, 0 ≤ x ∧ E x < D x) ∧
      (other.betterSomewhere = true ↔ ∃ x, 0 ≤ x ∧ D x < E x) := by
  have hD : ∀ x, s ≤ x → D x = D s := fun x hx => by
    rw [h.first.flat hc hx, h.first.flat hc le_rfl]
  have hE : ∀ x, s ≤ x → E x = E s := fun x hx => by
    rw [h.second.flat hb hx, h.second.flat hb le_rfl]
  exact ⟨by rw [exists_below_iff hE hD h.nonneg, h.first_better],
    by rw [exists_below_iff hD hE h.nonneg, h.second_better]⟩

theorem exists_of_belowBy {f g : ℚ → ℚ} (h : BelowBy f g s) : ∃ x, 0 ≤ x ∧ f x < g x := by
  obtain ⟨x, hx, -, hlt⟩ := h
  exact ⟨x, hx, hlt⟩

end BothSides

/-! ## The loop -/

section Loop

variable {D0 D1 : ℚ → ℚ}

theorem Scanned.round {side0 side1 : DiagramSide} {s : ℚ} (h : Scanned D0 D1 side0 side1 s)
    (hleft : (side0.done && side1.done) = false) (fuel : ℕ) :
    ∃ side0' side1' s', Scanned D0 D1 side0' side1' s' ∧
      side0'.rest.length + side1'.rest.length < side0.rest.length + side1.rest.length ∧
      compareLoop (fuel + 1) side0 side1 =
        if (side0'.betterSomewhere && side1'.betterSomewhere) = true then some .unordered
        else compareLoop fuel side0' side1' := by
  have hdone : ∀ {d : DiagramSide} {c : FeeFrac} {cs : List FeeFrac}, d.rest = c :: cs →
      d.done = false := fun hrest => by rw [DiagramSide.done, hrest, List.isEmpty_cons]
  have hcons : ∀ {d : DiagramSide}, d.done = false → ∃ c cs, d.rest = c :: cs := fun hd =>
    List.exists_cons_of_ne_nil (List.isEmpty_eq_false_iff.1 hd)
  by_cases hside : (if (side0.done || side1.done) = true then side0.done
      else decide (side0.nextPoint.size > side1.nextPoint.size)) = true
  · -- the first unprocessed point is on the second side
    have hdone1 : side1.done = false := by
      cases h0 : side0.done <;> cases h1 : side1.done <;> simp [h0, h1] at hside hleft ⊢
    obtain ⟨c, cs, hc⟩ := hcons hdone1
    obtain ⟨side1', side0', s', hround, hscanned, hlen⟩ := h.swap.round_at hc fun b bs hb => by
      simp only [hdone hb, hdone1, Bool.or_false, Bool.false_eq_true, if_false,
        decide_eq_true_eq, h.first.nextPoint_eq hb, h.second.nextPoint_eq hc] at hside
      exact hside.le
    refine ⟨side0', side1', s', hscanned.swap, by omega, ?_⟩
    simp only [compareLoop, hleft, Bool.false_eq_true, if_false, hside, if_true]
    rw [hdone1, Bool.or_false, hround]
    rfl
  · have hdone0 : side0.done = false := by
      cases h0 : side0.done <;> cases h1 : side1.done <;> simp [h0, h1] at hside hleft ⊢
    obtain ⟨c, cs, hc⟩ := hcons hdone0
    obtain ⟨side0', side1', s', hround, hscanned, hlen⟩ := h.round_at hc fun b bs hb => by
      simp only [hdone hb, hdone0, Bool.or_false, Bool.false_eq_true, if_false,
        decide_eq_true_eq, h.first.nextPoint_eq hc, h.second.nextPoint_eq hb] at hside
      exact not_lt.1 hside
    refine ⟨side0', side1', s', hscanned, hlen, ?_⟩
    simp only [compareLoop, hleft, Bool.false_eq_true, if_false, hside]
    rw [hdone0, Bool.false_or, hround]

/-- **The loop ends with the outcome of the comparison at all sizes.** The induction is
on the rounds left; a loop that stops early has found both diagrams better somewhere. -/
theorem Scanned.compareLoop_outcome {side0 side1 : DiagramSide} {s : ℚ} {fuel : ℕ}
    (h : Scanned D0 D1 side0 side1 s)
    (hone : (side0.betterSomewhere && side1.betterSomewhere) = false)
    (hfuel : side0.rest.length + side1.rest.length < fuel) :
    ∃ r, compareLoop fuel side0 side1 = some r ∧ PointwiseOutcome D0 D1 r := by
  induction fuel generalizing side0 side1 s with
  | zero => omega
  | succ fuel ih =>
    by_cases hdone : (side0.done && side1.done) = true
    · rw [Bool.and_eq_true] at hdone
      obtain ⟨hbetter0, hbetter1⟩ :=
        h.finish (List.isEmpty_iff.1 hdone.1) (List.isEmpty_iff.1 hdone.2)
      refine ⟨compareBetter side0.betterSomewhere side1.betterSomewhere, ?_, ?_⟩
      · simp only [compareLoop, hdone.1, hdone.2, Bool.and_true, if_true]
      · have houtcome := pointwiseOutcome_of_better hbetter0 hbetter1
        rwa [hone, if_neg Bool.false_ne_true] at houtcome
    · obtain ⟨side0', side1', s', hscanned, hlen, hloop⟩ :=
        h.round (Bool.eq_false_of_not_eq_true hdone) fuel
      rw [hloop]
      split
      next hboth =>
        rw [Bool.and_eq_true] at hboth
        exact ⟨.unordered, rfl, exists_of_belowBy (hscanned.second_better.1 hboth.2),
          exists_of_belowBy (hscanned.first_better.1 hboth.1)⟩
      next hboth => exact ih hscanned (Bool.eq_false_of_not_eq_true hboth) (by omega)

theorem readUpTo_start {chunks : List FeeFrac} (h : DiagramChunks chunks) :
    ReadUpTo (feerateDiagram chunks) { rest := chunks } 0 where
  sizes_pos := h.sizes_pos
  fits := h.fits
  points_fit n := by
    have hn := h.sums_fit n
    rwa [pointAhead, feeFrac_add_comm, feeFrac_add_empty]
  accum_nonneg := le_refl _
  reached := by simp [FeeFrac.empty]
  ahead c cs hc := by
    change chunks = c :: cs at hc
    have hpos : (0 : ℚ) < c.size := by
      exact_mod_cast h.sizes_pos c (hc ▸ List.mem_cons_self)
    simpa [FeeFrac.empty] using hpos
  reads x _ := by simp [FeeFrac.empty]

/-- **The comparison returns what a comparison at all sizes comes to.** -/
theorem compareChunks_outcome {chunks0 chunks1 : List FeeFrac} (h0 : DiagramChunks chunks0)
    (h1 : DiagramChunks chunks1) (hapart : FeesApart chunks0 chunks1) :
    ∃ r, compareChunks chunks0 chunks1 = some r ∧ DiagramOutcome chunks0 chunks1 r := by
  have hempty : ∀ {chunks other : List FeeFrac}, DiagramChunks chunks → DiagramChunks other →
      ¬BelowBy (feerateDiagram chunks) (feerateDiagram other) 0 := by
    rintro chunks other hchunks hother ⟨x, hx, hx', hlt⟩
    have hzero : x = 0 := le_antisymm hx' hx
    have hstart : ∀ {cs : List FeeFrac}, DiagramChunks cs → feerateDiagram cs 0 = 0 :=
      fun hcs => diagram_zero (List.forall_mem_map.2 hcs.sizes_pos)
    rw [hzero, hstart hchunks, hstart hother] at hlt
    exact lt_irrefl 0 hlt
  refine Scanned.compareLoop_outcome (s := 0) ⟨le_rfl, readUpTo_start h0, readUpTo_start h1,
    fun m n => ?_, ?_, ?_⟩ rfl (Nat.lt_succ_self _)
  · rw [pointAhead, pointAhead, feeFrac_add_comm, feeFrac_add_empty, feeFrac_add_comm,
      feeFrac_add_empty]
    exact hapart m n
  · exact ⟨fun h => absurd h Bool.false_ne_true, fun h => absurd h (hempty h1 h0)⟩
  · exact ⟨fun h => absurd h Bool.false_ne_true, fun h => absurd h (hempty h0 h1)⟩

end Loop

/-! ## The comparison -/

end BitMinti.Analysis
