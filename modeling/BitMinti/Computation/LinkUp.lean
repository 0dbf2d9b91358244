import BitMinti.Computation.Ancestry
import Mathlib.Algebra.BigOperators.Group.Finset.Basic

/-!
# Linking up a forest whose data arrives in any order

The keys of a forest get their data one after the other, parents before or after children.  A key
that has data but whose parent is not linked waits, as a pair of parent and key; a key is linked
when its parent is, and then the keys that wait for it follow through a queue.  A linked key has a
count: what it holds and what its parent counts.

`Waits` is what holds of the waiting keys before and after each step, and `LinkUp` of their
counts too.  With an empty queue exactly the keys are
linked whose ancestors all have data, and their count is the sum over their chain.
-/

set_option autoImplicit false

namespace BitMinti.Computation

open Ancestry

variable {K : Type}

/-- What `k` and its ancestors up to `n` parents away hold together. -/
def chainSum (prev : K → Option K) (size : K → ℕ) (n : ℕ) (k : K) : ℕ :=
  ∑ i ∈ Finset.range (n + 1), (up prev i k).elim 0 size

theorem chainSum_root {prev : K → Option K} {k : K} (size : K → ℕ) (hk : prev k = none) (n : ℕ) :
    chainSum prev size n k = size k := by
  rw [chainSum, Finset.sum_range_succ']
  have hzero : ∀ i ∈ Finset.range n, (up prev (i + 1) k).elim 0 size = 0 := by
    intro i _
    rw [up_succ, hk]
    rfl
  rw [Finset.sum_eq_zero hzero, Nat.zero_add]
  rfl

theorem chainSum_parent {prev : K → Option K} {k p : K} (size : K → ℕ) (hk : prev k = some p)
    (n : ℕ) : chainSum prev size (n + 1) k = size k + chainSum prev size n p := by
  rw [chainSum, Finset.sum_range_succ', Nat.add_comm]
  congr 1
  refine Finset.sum_congr rfl fun i _ => ?_
  rw [up_succ, hk, Option.bind_some]

/-! ## Waiting keys -/

/-- What holds while the keys in `queue` are about to be linked. -/
structure Waits (prev : K → Option K) (data linked : K → Prop) (waiting : List (K × K))
    (queue : List K) : Prop where
  closed : ∀ k p, linked k → prev k = some p → linked p
  parked : ∀ p k, (p, k) ∈ waiting → prev k = some p ∧ data k ∧ ¬ linked p
  nodup : waiting.Nodup
  missing : ∀ k, data k → ¬ linked k → (∃ p, (p, k) ∈ waiting) ∨ k ∈ queue
  queue_nodup : queue.Nodup
  queued : ∀ q ∈ queue, data q ∧ ¬ linked q ∧ ∀ p, prev q = some p → linked p

section Waits

variable {prev : K → Option K} {data linked : K → Prop} {waiting : List (K × K)} {queue : List K}

theorem Waits.of_waiting (L : Waits prev data linked waiting queue) {p h : K}
    (hmem : (p, h) ∈ waiting) : data h ∧ ¬ linked h ∧ h ∉ queue := by
  obtain ⟨hprev, hdata, hp⟩ := L.parked p h hmem
  exact ⟨hdata, fun hh => hp (L.closed h p hh hprev), fun hq => hp ((L.queued h hq).2.2 p hprev)⟩

section Link

variable [DecidableEq K] {k : K} {rest : List K}

theorem mem_released {h : K} :
    h ∈ (waiting.filter fun entry => entry.1 == k).map (·.2) ↔ (k, h) ∈ waiting := by
  rw [List.mem_map]
  constructor
  · rintro ⟨⟨q, h'⟩, hmem, rfl⟩
    rw [List.mem_filter, beq_iff_eq] at hmem
    obtain rfl : q = k := hmem.2
    exact hmem.1
  · exact fun hmem => ⟨(k, h), List.mem_filter.mpr ⟨hmem, beq_self_eq_true k⟩, rfl⟩

theorem mem_kept {p h : K} :
    (p, h) ∈ waiting.filter (fun entry => !entry.1 == k) ↔ (p, h) ∈ waiting ∧ p ≠ k := by
  rw [List.mem_filter, Bool.not_eq_true', beq_eq_false_iff_ne]

theorem nodup_released (hnodup : waiting.Nodup) :
    ((waiting.filter fun entry => entry.1 == k).map (·.2)).Nodup := by
  refine List.Nodup.map_on ?_ (hnodup.filter _)
  rintro ⟨a, h⟩ ha ⟨b, h'⟩ hb heq
  rw [List.mem_filter, beq_iff_eq] at ha hb
  obtain rfl : a = k := ha.2
  obtain rfl : b = a := hb.2
  exact Prod.ext rfl heq

theorem Waits.released_nodup (L : Waits prev data linked waiting (k :: rest)) :
    (rest ++ (waiting.filter fun entry => entry.1 == k).map (·.2)).Nodup := by
  rw [List.nodup_append]
  refine ⟨(List.nodup_cons.mp L.queue_nodup).2, nodup_released L.nodup, ?_⟩
  intro h hh h' hh' heq
  subst heq
  exact (L.of_waiting (mem_released.mp hh')).2.2 (List.mem_cons_of_mem k hh)

/-- **Linking the first key of the queue** releases the keys that waited for it. -/
theorem Waits.link (L : Waits prev data linked waiting (k :: rest)) {linked' : K → Prop}
    (hlinked : ∀ h, linked' h ↔ h = k ∨ linked h) :
    Waits prev data linked' (waiting.filter fun entry => !entry.1 == k)
      (rest ++ (waiting.filter fun entry => entry.1 == k).map (·.2)) := by
  obtain ⟨hdata, hnot, hparent⟩ := L.queued k List.mem_cons_self
  have hnotin := (List.nodup_cons.mp L.queue_nodup).1
  have hother : ∀ {h}, h ≠ k → (linked' h ↔ linked h) := fun hne =>
    (hlinked _).trans (or_iff_right hne)
  have hstays : ∀ h, linked h → linked' h := fun h hh => (hlinked h).mpr (.inr hh)
  refine ⟨?_, ?_, L.nodup.filter _, ?_, L.released_nodup, ?_⟩
  · intro h p hh hp
    rcases (hlinked h).mp hh with rfl | hh
    · exact hstays p (hparent p hp)
    · exact hstays p (L.closed h p hh hp)
  · intro p h hmem
    obtain ⟨hmem, hpk⟩ := mem_kept.mp hmem
    rw [hother hpk]
    exact L.parked p h hmem
  · intro h hhdata hhnot
    rw [hlinked, not_or] at hhnot
    rw [List.mem_append, mem_released]
    rcases L.missing h hhdata hhnot.2 with ⟨p, hp⟩ | hqueued
    · by_cases hpk : p = k
      · exact .inr (.inr (hpk ▸ hp))
      · exact .inl ⟨p, mem_kept.mpr ⟨hp, hpk⟩⟩
    · exact .inr (.inl ((List.mem_cons.mp hqueued).resolve_left hhnot.1))
  · intro q hq
    rcases List.mem_append.mp hq with hq | hq
    · obtain ⟨hqdata, hqnot, hqparent⟩ := L.queued q (List.mem_cons_of_mem k hq)
      have hne : q ≠ k := fun heq => hnotin (heq ▸ hq)
      exact ⟨hqdata, by rwa [hother hne], fun p hp => hstays p (hqparent p hp)⟩
    · rw [mem_released] at hq
      obtain ⟨hqdata, hqnot, hqnotin⟩ := L.of_waiting hq
      have hne : q ≠ k := fun heq => hqnotin (heq ▸ List.mem_cons_self)
      refine ⟨hqdata, by rwa [hother hne], fun p hp => ?_⟩
      rw [(L.parked k q hq).1, Option.some_inj] at hp
      exact (hlinked p).mpr (.inl hp.symm)

end Link

section Arrive

variable {k : K} {data' : K → Prop} (L : Waits prev data linked waiting []) (hnew : ¬ data k)
  (hdata : ∀ h, data' h ↔ h = k ∨ data h)

include L hdata

/-- **A key whose parent is linked** is queued when its data arrives. -/
theorem Waits.arrive_linked (hnot : ¬ linked k) (hparent : ∀ p, prev k = some p → linked p) :
    Waits prev data' linked waiting [k] where
  closed := L.closed
  parked p h hmem := by
    obtain ⟨hprev, hhdata, hp⟩ := L.parked p h hmem
    exact ⟨hprev, (hdata h).mpr (.inr hhdata), hp⟩
  nodup := L.nodup
  missing h hh hhnot := by
    rcases (hdata h).mp hh with rfl | hold
    · exact .inr List.mem_cons_self
    · exact .inl ((L.missing h hold hhnot).resolve_right List.not_mem_nil)
  queue_nodup := List.nodup_singleton k
  queued := List.forall_mem_singleton.mpr ⟨(hdata k).mpr (.inl rfl), hnot, hparent⟩

include hnew in
/-- **A key whose parent is not linked** waits for it when its data arrives. -/
theorem Waits.arrive_waiting {p : K} (hprev : prev k = some p) (hp : ¬ linked p) :
    Waits prev data' linked (waiting ++ [(p, k)]) [] where
  closed := L.closed
  parked q h hmem := by
    rw [List.mem_append, List.mem_singleton, Prod.mk.injEq] at hmem
    rcases hmem with hold | ⟨rfl, rfl⟩
    · obtain ⟨hq, hhdata, hqnot⟩ := L.parked q h hold
      exact ⟨hq, (hdata h).mpr (.inr hhdata), hqnot⟩
    · exact ⟨hprev, (hdata h).mpr (.inl rfl), hp⟩
  nodup := by
    rw [List.nodup_append]
    refine ⟨L.nodup, List.nodup_singleton _, fun a ha b hb heq => ?_⟩
    rw [List.mem_singleton.mp hb] at heq
    exact hnew (L.parked p k (heq ▸ ha)).2.1
  missing h hh hhnot := by
    left
    rcases (hdata h).mp hh with rfl | hold
    · exact ⟨p, List.mem_append_right _ List.mem_cons_self⟩
    · obtain ⟨q, hq⟩ := (L.missing h hold hhnot).resolve_right List.not_mem_nil
      exact ⟨q, List.mem_append_left _ hq⟩
  queue_nodup := List.nodup_nil
  queued _ hq := absurd hq List.not_mem_nil

end Arrive

end Waits

/-! ## Counts -/

/-- What holds while the keys in `queue` are about to be linked.  A key is linked when its `count`
is not zero. -/
structure LinkUp (prev : K → Option K) (data : K → Prop) (size count : K → ℕ)
    (waiting : List (K × K)) (queue : List K) : Prop where
  positive : ∀ k, data k → 0 < size k
  counted : ∀ k, count k ≠ 0 → data k ∧ count k = size k + (prev k).elim 0 count
  linked : ∀ k p, count k ≠ 0 → prev k = some p → count p ≠ 0
  parked : ∀ p k, (p, k) ∈ waiting → prev k = some p ∧ data k ∧ count p = 0
  nodup : waiting.Nodup
  missing : ∀ k, data k → count k = 0 → (∃ p, (p, k) ∈ waiting) ∨ k ∈ queue
  queue_nodup : queue.Nodup
  queued : ∀ q ∈ queue, data q ∧ count q = 0 ∧ ∀ p, prev q = some p → count p ≠ 0

namespace LinkUp

variable {prev : K → Option K} {data : K → Prop} {size count : K → ℕ} {waiting : List (K × K)}
  {queue : List K}

theorem waits (L : LinkUp prev data size count waiting queue) :
    Waits prev data (count · ≠ 0) waiting queue :=
  ⟨L.linked, by simpa only [not_not] using L.parked, L.nodup,
    by simpa only [not_not] using L.missing, L.queue_nodup,
    by simpa only [not_not] using L.queued⟩

theorem of_waits (hpositive : ∀ k, data k → 0 < size k)
    (hcounted : ∀ k, count k ≠ 0 → data k ∧ count k = size k + (prev k).elim 0 count)
    (W : Waits prev data (count · ≠ 0) waiting queue) :
    LinkUp prev data size count waiting queue :=
  ⟨hpositive, hcounted, W.closed, by simpa only [not_not] using W.parked, W.nodup,
    by simpa only [not_not] using W.missing, W.queue_nodup,
    by simpa only [not_not] using W.queued⟩

theorem start (hdata : ∀ k, ¬ data k) (hcount : ∀ k, count k = 0) :
    LinkUp prev data size count [] [] where
  positive k hk := absurd hk (hdata k)
  counted k hk := absurd (hcount k) hk
  linked k _ hk := absurd (hcount k) hk
  parked _ _ hmem := absurd hmem List.not_mem_nil
  nodup := List.nodup_nil
  missing k hk := absurd hk (hdata k)
  queue_nodup := List.nodup_nil
  queued _ hq := absurd hq List.not_mem_nil

theorem link [DecidableEq K] {k : K} {rest : List K}
    (L : LinkUp prev data size count waiting (k :: rest)) {count' : K → ℕ}
    (hself : count' k = size k + (prev k).elim 0 count) (hother : ∀ h, h ≠ k → count' h = count h) :
    LinkUp prev data size count' (waiting.filter fun entry => !entry.1 == k)
      (rest ++ (waiting.filter fun entry => entry.1 == k).map (·.2)) := by
  obtain ⟨hdata, hzero, hparent⟩ := L.queued k List.mem_cons_self
  have hpos : count' k ≠ 0 := by
    have := L.positive k hdata
    omega
  -- a linked key keeps the count it has
  have hkeep : ∀ h, count h ≠ 0 → count' h = count h := fun h hh =>
    hother h fun heq => hh (heq ▸ hzero)
  have hprev : ∀ h, (∀ p, prev h = some p → count p ≠ 0) →
      (prev h).elim 0 count' = (prev h).elim 0 count := by
    intro h hh
    cases hp : prev h with
    | none => rfl
    | some p => exact hkeep p (hh p hp)
  refine of_waits L.positive (fun h hh => ?_) (L.waits.link fun h => ?_)
  · by_cases hk : h = k
    · subst hk
      exact ⟨hdata, by rw [hself, hprev h hparent]⟩
    · rw [hother h hk] at hh ⊢
      obtain ⟨hhdata, hcount⟩ := L.counted h hh
      exact ⟨hhdata, by rw [hprev h fun p hp => L.linked h p hh hp, ← hcount]⟩
  · by_cases hk : h = k
    · exact iff_of_true (hk ▸ hpos) (.inl hk)
    · rw [hother h hk, or_iff_right hk]

section Arrive

variable {k : K} {data' : K → Prop} {size' : K → ℕ}

theorem count_of_new (L : LinkUp prev data size count waiting queue) (hnew : ¬ data k) :
    count k = 0 := by
  by_contra hk
  exact hnew (L.counted k hk).1

variable (L : LinkUp prev data size count waiting []) (hnew : ¬ data k)
  (hdata : ∀ h, data' h ↔ h = k ∨ data h) (hsize : ∀ h, h ≠ k → size' h = size h)
  (hpos : 0 < size' k)

include L hnew hdata hsize hpos

private theorem of_arrival {waiting' : List (K × K)}
    (W : Waits prev data' (count · ≠ 0) waiting' queue) :
    LinkUp prev data' size' count waiting' queue := by
  refine of_waits (fun h hh => ?_) (fun h hh => ?_) W
  · by_cases hk : h = k
    · rw [hk]
      exact hpos
    · rw [hsize h hk]
      exact L.positive h (((hdata h).mp hh).resolve_left hk)
  · obtain ⟨hhdata, hcount⟩ := L.counted h hh
    have hne : h ≠ k := fun heq => hnew (heq ▸ hhdata)
    exact ⟨(hdata h).mpr (.inr hhdata), by rw [hsize h hne, ← hcount]⟩

theorem arrive_linked (hparent : ∀ p, prev k = some p → count p ≠ 0) :
    LinkUp prev data' size' count waiting [k] :=
  L.of_arrival hnew hdata hsize hpos
    (L.waits.arrive_linked hdata (not_not.mpr (L.count_of_new hnew)) hparent)

theorem arrive_waiting {p : K} (hprev : prev k = some p) (hp : count p = 0) :
    LinkUp prev data' size' count (waiting ++ [(p, k)]) [] :=
  L.of_arrival hnew hdata hsize hpos
    (L.waits.arrive_waiting hnew hdata hprev (not_not.mpr hp))

end Arrive

/-! ## When nothing is queued -/

section Settled

variable {dom : K → Prop} {rank : K → ℕ} {k : K}

theorem exists_waiting (L : LinkUp prev data size count waiting []) (hdata : data k)
    (hzero : count k = 0) : ∃ p, (p, k) ∈ waiting :=
  (L.missing k hdata hzero).resolve_right List.not_mem_nil

/-- **Exactly the keys are linked whose ancestors all have data.** -/
theorem count_ne_zero_iff (L : LinkUp prev data size count waiting [])
    (G : Graded prev dom rank) (hk : dom k) :
    count k ≠ 0 ↔ ∀ a, AncestorOf prev a k → data a := by
  constructor
  · intro hcount a ha
    have hlinked : count a ≠ 0 := ha.ascend hcount fun h p hp hh => L.linked h p hh hp
    exact (L.counted a hlinked).1
  · -- by induction on the rank: the parent a key waits for would be linked already
    intro hall
    obtain ⟨r, hr⟩ : ∃ r, rank k = r := ⟨_, rfl⟩
    induction r generalizing k with
    | zero =>
      intro hzero
      obtain ⟨p, hp⟩ := L.exists_waiting (hall k (.refl k)) hzero
      have := (G.parent k p hk (L.parked p k hp).1).2
      omega
    | succ r ih =>
      intro hzero
      obtain ⟨p, hp⟩ := L.exists_waiting (hall k (.refl k)) hzero
      obtain ⟨hprev, -, hpzero⟩ := L.parked p k hp
      obtain ⟨hdom, hrank⟩ := G.parent k p hk hprev
      refine ih hdom (fun a ha => hall a (ha.trans (.parent hprev))) ?_ hpzero
      omega

/-- **The count of a linked key is the sum over its chain.** -/
theorem count_eq_chainSum (L : LinkUp prev data size count waiting queue)
    (G : Graded prev dom rank) (hk : dom k) (hcount : count k ≠ 0) :
    count k = chainSum prev size (rank k) k := by
  obtain ⟨r, hr⟩ : ∃ r, rank k = r := ⟨_, rfl⟩
  rw [hr]
  induction r generalizing k with
  | zero =>
    have hroot : prev k = none := by
      rw [Option.eq_none_iff_forall_ne_some]
      intro p hp
      have := (G.parent k p hk hp).2
      omega
    rw [(L.counted k hcount).2, chainSum_root size hroot, hroot]
    rfl
  | succ r ih =>
    cases hprev : prev k with
    | none =>
      have := G.root k hk hprev
      omega
    | some p =>
      obtain ⟨hdom, hrank⟩ := G.parent k p hk hprev
      rw [(L.counted k hcount).2, chainSum_parent size hprev, hprev]
      have hsum := ih hdom (L.linked k p hcount hprev) (by omega)
      exact congrArg (size k + ·) hsum

/-- **Exactly the keys wait that have data below an ancestor without.** -/
theorem mem_waiting_iff (L : LinkUp prev data size count waiting [])
    (G : Graded prev dom rank) (hdom : ∀ k, data k → dom k) {p : K} :
    (p, k) ∈ waiting ↔ prev k = some p ∧ data k ∧ ∃ a, AncestorOf prev a k ∧ ¬ data a := by
  constructor
  · intro hmem
    obtain ⟨hprev, hdata, -⟩ := L.parked p k hmem
    refine ⟨hprev, hdata, ?_⟩
    by_contra hall
    refine (L.count_ne_zero_iff G (hdom k hdata)).mpr (fun a ha => ?_)
      (not_not.mp (L.waits.of_waiting hmem).2.1)
    by_contra hnot
    exact hall ⟨a, ha, hnot⟩
  · rintro ⟨hprev, hdata, a, ha, hnot⟩
    have hzero : count k = 0 := by
      by_contra hcount
      exact hnot ((L.count_ne_zero_iff G (hdom k hdata)).mp hcount a ha)
    obtain ⟨q, hq⟩ := L.exists_waiting hdata hzero
    obtain rfl : q = p := Option.some_inj.mp ((L.parked q k hq).1.symm.trans hprev)
    exact hq

end Settled

end LinkUp

end BitMinti.Computation
