import BitMinti.Computation.Rates
import Mathlib.Algebra.Order.Field.Basic
import Mathlib.Data.List.Induction
import Mathlib.Tactic.FieldSimp

/-!
# Chunks of an order and its diagram

Reading an order from the front, each item becomes a chunk of its own that takes in the chunks
before it as long as its rate is higher than theirs.  The chunks that remain are in non-increasing
order of their rates, and their boundaries match every prefix of the order at every threshold.

The diagram of a list of chunks gives the value collected at each weight, along straight lines
between the boundaries.  An order that covers another has a diagram at least as high everywhere.

A list of groups in non-increasing order of their rates, each of which has a higher rate at its end
than at its beginning wherever it is cut, is recovered by the chunks of its concatenation.
-/

set_option autoImplicit false

namespace BitMinti.Computation.Chunks

open Rates

section Stack

variable {α : Type} (worth : α → Worth)

/-- A new chunk `c` on a stack of chunks, whose top is the last chunk so far. -/
def absorb (c : List α) : List (List α) → List (List α)
  | [] => [c]
  | last :: rest =>
    if Lower (total worth last) (total worth c) then absorb (last ++ c) rest
    else c :: last :: rest

/-- The stack after further items. -/
def chunkOnto (st : List (List α)) (l : List α) : List (List α) :=
  l.foldl (fun st a => absorb worth [a] st) st

/-- The chunks of an order, from the front. -/
def chunks (l : List α) : List (List α) := (chunkOnto worth [] l).reverse

/-- Rates do not increase from chunk to chunk (the stack has the last chunk first). -/
structure Descending (st : List (List α)) : Prop where
  pos : ∀ g ∈ st, 0 < (total worth g).2
  sorted : st.Pairwise fun later earlier => NotAbove (total worth later) (total worth earlier)

variable {worth}

variable (st : List (List α))

@[simp] theorem chunkOnto_nil : chunkOnto worth st [] = st := rfl

theorem chunkOnto_append (l m : List α) :
    chunkOnto worth st (l ++ m) = chunkOnto worth (chunkOnto worth st l) m :=
  List.foldl_append

theorem chunkOnto_snoc (l : List α) (a : α) :
    chunkOnto worth st (l ++ [a]) = absorb worth [a] (chunkOnto worth st l) :=
  chunkOnto_append st l [a]

theorem absorb_flatten (c : List α) (st : List (List α)) :
    (absorb worth c st).reverse.flatten = st.reverse.flatten ++ c := by
  induction st generalizing c with
  | nil => simp [absorb]
  | cons last rest ih =>
    unfold absorb
    split
    · rw [ih]
      simp
    · simp

variable {c : List α} {st : List (List α)}

theorem absorb_ne_nil (hc : c ≠ []) (hst : ∀ g ∈ st, g ≠ []) :
    ∀ g ∈ absorb worth c st, g ≠ [] := by
  induction st generalizing c with
  | nil => simpa [absorb] using hc
  | cons last rest ih =>
    unfold absorb
    split
    · exact ih (by simp [hc]) fun g hg => hst g (List.mem_cons_of_mem last hg)
    · exact List.forall_mem_cons.2 ⟨hc, hst⟩

/-- **Absorbing keeps the rates in order.** The new chunk stops below a chunk whose rate
is at least its own, and so at most those of all chunks further down. -/
theorem Descending.absorb (hc : 0 < (total worth c).2)
    (h : Descending worth st) : Descending worth (Chunks.absorb worth c st) := by
  induction st generalizing c with
  | nil => exact ⟨by simpa [Chunks.absorb] using hc, by simp [Chunks.absorb]⟩
  | cons last rest ih =>
    obtain ⟨hpos, hsorted⟩ := h
    obtain ⟨hlast, hrest⟩ := List.forall_mem_cons.1 hpos
    obtain ⟨hbelow, hsorted'⟩ := List.pairwise_cons.1 hsorted
    unfold Chunks.absorb
    split
    · refine ih ?_ ⟨hrest, hsorted'⟩
      rw [total_append, Prod.snd_add]
      omega
    next hstop =>
      have hcl := not_lower.1 hstop
      exact ⟨List.forall_mem_cons.2 ⟨hc, hpos⟩, List.pairwise_cons.2 ⟨List.forall_mem_cons.2
        ⟨hcl, fun g hg => hcl.trans (hbelow g hg) hc.le hlast (hrest g hg).le⟩, hsorted⟩⟩

/-! ## Whole orders -/

theorem chunkOnto_flatten (l : List α) : (chunkOnto worth [] l).reverse.flatten = l := by
  induction l using List.reverseRecOn with
  | nil => rfl
  | append_singleton l a ih => rw [chunkOnto_snoc, absorb_flatten, ih]

theorem chunks_flatten (l : List α) : (chunks worth l).flatten = l := chunkOnto_flatten l

theorem chunkOnto_ne_nil (l : List α) : ∀ g ∈ chunkOnto worth [] l, g ≠ [] := by
  induction l using List.reverseRecOn with
  | nil => simp
  | append_singleton l a ih =>
    rw [chunkOnto_snoc]
    exact absorb_ne_nil (by simp) ih

theorem chunkOnto_descending {l : List α} (hpos : ∀ a ∈ l, 0 < (worth a).2) :
    Descending worth (chunkOnto worth [] l) := by
  induction l using List.reverseRecOn with
  | nil => exact ⟨by simp, by simp⟩
  | append_singleton l a ih =>
    rw [chunkOnto_snoc]
    refine (ih fun b hb => hpos b (List.mem_append_left _ hb)).absorb ?_
    simpa using hpos a (by simp)

/-! ## Boundaries match prefixes -/

/-- Some boundary of the stack has at least the surplus `x`. -/
def Reaches (worth : α → Worth) (t : ℚ) (st : List (List α)) (x : ℚ) : Prop :=
  ∃ j, x ≤ surplus t (total worth (st.drop j).flatten)

theorem Reaches.cons {t : ℚ} {x : ℚ} (h : Reaches worth t st x)
    (c : List α) : Reaches worth t (c :: st) x := by
  obtain ⟨j, hj⟩ := h
  exact ⟨j + 1, hj⟩

/-- The boundary that goes when two chunks are joined lies below their join: if the
earlier chunk does not reach the threshold the boundary before it is better, and if it does then
so does the later one, and the boundary after both is better. -/
theorem Reaches.join {t : ℚ} {c last : List α} {rest : List (List α)} {x : ℚ}
    (hlast : 0 < (total worth last).2) (hc : 0 < (total worth c).2)
    (hlower : Lower (total worth last) (total worth c))
    (h : Reaches worth t (c :: last :: rest) x) : Reaches worth t ((last ++ c) :: rest) x := by
  obtain ⟨j, hj⟩ := h
  match j with
  | 0 =>
    refine ⟨0, hj.trans (le_of_eq ?_)⟩
    simp only [List.drop_zero, List.flatten_cons, total_append, surplus_add]
    ring
  | 1 =>
    simp only [List.drop_succ_cons, List.drop_zero, List.flatten_cons, total_append,
      surplus_add] at hj
    by_cases hreach : 0 ≤ surplus t (total worth last)
    · have hreach' := hlower.notAbove.surplus_nonneg hlast hc hreach
      refine ⟨0, ?_⟩
      simp only [List.drop_zero, List.flatten_cons, total_append, surplus_add]
      linarith
    · refine ⟨1, ?_⟩
      rw [List.drop_succ_cons, List.drop_zero]
      linarith
  | j + 2 => exact ⟨j + 1, hj⟩

theorem Reaches.absorb {t : ℚ} {x : ℚ}
    (hc : 0 < (total worth c).2) (hst : ∀ g ∈ st, 0 < (total worth g).2)
    (h : Reaches worth t (c :: st) x) : Reaches worth t (Chunks.absorb worth c st) x := by
  induction st generalizing c with
  | nil => exact h
  | cons last rest ih =>
    obtain ⟨hlast, hrest⟩ := List.forall_mem_cons.1 hst
    unfold Chunks.absorb
    split
    next hlower =>
      refine ih ?_ hrest (h.join hlast hc hlower)
      rw [total_append, Prod.snd_add]
      omega
    · exact h

/-- **Every prefix of an order is matched by a boundary of its chunks.** -/
theorem chunkOnto_reaches {l : List α} (hpos : ∀ a ∈ l, 0 < (worth a).2) (t : ℚ) (k : ℕ) :
    Reaches worth t (chunkOnto worth [] l) (surplus t (total worth (l.take k))) := by
  induction l using List.reverseRecOn generalizing k with
  | nil => exact ⟨0, by simp⟩
  | append_singleton l a ih =>
    have hpos' : ∀ b ∈ l, 0 < (worth b).2 := fun b hb => hpos b (List.mem_append_left _ hb)
    rw [chunkOnto_snoc]
    refine Reaches.absorb (by simpa using hpos a (by simp)) (chunkOnto_descending hpos').pos ?_
    by_cases hk : k ≤ l.length
    · rw [List.take_append_of_le_length hk]
      exact (ih hpos' k).cons [a]
    · refine ⟨0, le_of_eq ?_⟩
      have hall := total_perm worth (List.reverse_perm (chunkOnto worth [] l)).flatten
      rw [chunkOnto_flatten] at hall
      rw [List.take_of_length_le (by simp; omega), List.drop_zero, List.flatten_cons,
        total_append, total_append, ← hall, surplus_add, surplus_add, add_comm]

/-! ## Groups that are recovered -/

/-- Wherever the group is cut, its beginning has a lower rate than its end. -/
def Rising (worth : α → Worth) (g : List α) : Prop :=
  ∀ p s, g = p ++ s → p ≠ [] → s ≠ [] → Lower (total worth p) (total worth s)

theorem Rising.begin_notAbove {g p s : List α} (hg : Rising worth g) (hsplit : g = p ++ s) :
    NotAbove (total worth p) (total worth g) := by
  by_cases hp : p = []
  · rw [hp, total_nil]
    exact zero_notAbove
  by_cases hs : s = []
  · rw [hsplit, hs, List.append_nil]
    exact NotAbove.rfl
  rw [hsplit, total_append]
  exact (hg p s hsplit hp hs).join_left.notAbove

/-- Joining a rising group to an earlier one of a lower rate gives a rising group. A cut
within either part is at a point where that part rises, and the other part adds to the same side. -/
theorem Rising.append {p c : List α} (hp : Rising worth p) (hc : Rising worth c)
    (hppos : ∀ a ∈ p, 0 < (worth a).2) (hcpos : ∀ a ∈ c, 0 < (worth a).2) (hpne : p ≠ [])
    (hcne : c ≠ []) (hlower : Lower (total worth p) (total worth c)) : Rising worth (p ++ c) := by
  have hpw := total_weight_pos hppos hpne
  have hcw := total_weight_pos hcpos hcne
  intro q s hsplit hq hs
  rcases List.append_eq_append_iff.1 hsplit with ⟨m, rfl, rfl⟩ | ⟨m, rfl, rfl⟩
  · -- the cut is in the later part, which begins with `m`
    by_cases hm : m = []
    · simpa [hm] using hlower
    · have hcut := hc m s rfl hm hs
      have hsw := total_weight_pos (fun a ha => hcpos a (List.mem_append_right m ha)) hs
      have hpart := hlower.trans_notAbove
        (by rw [total_append]; exact hcut.join_right.notAbove) hpw.le hcw hsw
      rw [total_append]
      exact hpart.add hcut
  · -- the cut is in the earlier part, which ends with `m`
    by_cases hm : m = []
    · simpa [hm] using hlower
    · have hcut := hp q m rfl hq hm
      have hqw := total_weight_pos (fun a ha => hppos a (List.mem_append_left m ha)) hq
      have hpart : Lower (total worth q) (total worth c) := by
        have hbegin : Lower (total worth q) (total worth (q ++ m)) := by
          rw [total_append]
          exact hcut.join_left
        exact hbegin.trans hlower hqw.le hpw hcw
      rw [total_append]
      exact hcut.add_right hpart

theorem absorb_append {cs st : List (List α)}
    (hst : ∀ last ∈ st.head?, NotAbove (total worth (cs.reverse.flatten ++ c)) (total worth last)) :
    absorb worth c (cs ++ st) = absorb worth c cs ++ st := by
  induction cs generalizing c with
  | nil =>
    cases st with
    | nil => rfl
    | cons last rest =>
      have hlast := hst last rfl
      have hstop : ¬ Lower (total worth last) (total worth c) :=
        not_lower.2 (by simpa using hlast)
      exact if_neg hstop
  | cons top cs ih =>
    rw [List.cons_append, absorb, absorb]
    split
    · apply ih
      intro last hlast
      have hjoin := hst last hlast
      rwa [List.reverse_cons, List.flatten_append, List.flatten_singleton,
        List.append_assoc] at hjoin
    · rfl

theorem chunkOnto_begin {g : List α} (hg : Rising worth g) (hpos : ∀ a ∈ g, 0 < (worth a).2)
    (hst : ∀ last ∈ st.head?, 0 < (total worth last).2 ∧
      NotAbove (total worth g) (total worth last)) :
    ∀ p s, g = p ++ s → chunkOnto worth st p = chunkOnto worth [] p ++ st := by
  intro p
  induction p using List.reverseRecOn with
  | nil => intros; rfl
  | append_singleton p a ih =>
    intro s hsplit
    rw [chunkOnto_snoc, chunkOnto_snoc, ih ([a] ++ s) (by rw [hsplit, List.append_assoc])]
    apply absorb_append
    intro last hlast
    obtain ⟨hheavy, hbelow⟩ := hst last hlast
    have hgpos : 0 < (total worth g).2 :=
      total_weight_pos hpos (by simp [hsplit])
    have hbegin := total_weight_nonneg (l := p ++ [a])
      fun b hb => hpos b (by rw [hsplit]; exact List.mem_append_left s hb)
    rw [chunkOnto_flatten]
    exact (hg.begin_notAbove hsplit).trans hbelow hbegin hgpos hheavy.le

theorem notAbove_flatten {c : Worth}
    (h : ∀ g ∈ st, NotAbove c (total worth g)) : NotAbove c (total worth st.flatten) := by
  induction st with
  | nil => simp [NotAbove]
  | cons g st ih =>
    obtain ⟨hhead, hst⟩ := List.forall_mem_cons.1 h
    have htail := ih hst
    unfold NotAbove at *
    rw [List.flatten_cons, total_append, Prod.fst_add, Prod.snd_add, mul_add, add_mul]
    exact add_le_add hhead htail

theorem chunkOnto_rising {g : List α} (hne : g ≠ []) (hg : Rising worth g)
    (hpos : ∀ a ∈ g, 0 < (worth a).2) : chunkOnto worth [] g = [g] := by
  have hflat : (chunkOnto worth [] g).reverse.flatten = g := chunkOnto_flatten g
  have hsorted := (chunkOnto_descending hpos).sorted
  have hnonempty : ∀ c ∈ chunkOnto worth [] g, c ≠ [] := chunkOnto_ne_nil g
  match hst : chunkOnto worth [] g with
  | [] =>
    rw [hst] at hflat
    exact absurd hflat.symm hne
  | [c] =>
    rw [hst] at hflat
    simpa using hflat
  | c :: c' :: rest =>
    rw [hst] at hflat hsorted hnonempty
    rw [List.reverse_cons, List.flatten_append, List.flatten_singleton] at hflat
    have hc' : c' ≠ [] := hnonempty c' (by simp)
    have hlower := hg _ c hflat.symm (by simp [hc']) (hnonempty c (by simp))
    have hnot := notAbove_flatten fun g' hg' => (List.pairwise_cons.1 hsorted).1 g' hg'
    rw [← total_perm worth (List.reverse_perm (c' :: rest)).flatten] at hnot
    exact absurd hlower (not_lower.2 hnot)

/-- **The groups are the chunks of their concatenation.** For non-increasing rates from
group to group, each group rising. -/
theorem chunks_groups {gs : List (List α)} (hne : ∀ g ∈ gs, g ≠ [])
    (hpos : ∀ g ∈ gs, ∀ a ∈ g, 0 < (worth a).2) (hrising : ∀ g ∈ gs, Rising worth g)
    (hsorted : gs.Pairwise fun earlier later =>
      NotAbove (total worth later) (total worth earlier)) :
    chunks worth gs.flatten = gs := by
  suffices hstack : chunkOnto worth [] gs.flatten = gs.reverse by
    rw [chunks, hstack, List.reverse_reverse]
  induction gs using List.reverseRecOn with
  | nil => rfl
  | append_singleton gs g ih =>
    have hmem : ∀ {g'}, g' ∈ gs → g' ∈ gs ++ [g] := List.mem_append_left _
    obtain ⟨hsorted', -, hlast⟩ := List.pairwise_append.1 hsorted
    have hg : g ∈ gs ++ [g] := by simp
    rw [List.flatten_append, List.flatten_singleton, chunkOnto_append,
      ih (fun g' h => hne g' (hmem h)) (fun g' h => hpos g' (hmem h))
        (fun g' h => hrising g' (hmem h)) hsorted',
      chunkOnto_begin (hrising g hg) (hpos g hg) ?_ g [] (List.append_nil g).symm,
      chunkOnto_rising (hne g hg) (hrising g hg) (hpos g hg), List.reverse_append]
    · rfl
    · intro last htop
      have hin : last ∈ gs := List.mem_reverse.1 (List.mem_of_mem_head? htop)
      exact ⟨total_weight_pos (hpos last (hmem hin)) (hne last (hmem hin)),
        hlast last hin g List.mem_cons_self⟩

end Stack

end BitMinti.Computation.Chunks
