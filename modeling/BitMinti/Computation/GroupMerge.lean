import BitMinti.Computation.Conjugate
import Mathlib.Logic.Relation

/-!
# Merging and swapping groups

A pass over an order of items keeps a list of groups.  Each item is put at the end as a group of
its own and then moves towards the front for as long as its rate is higher than that of the group
before it: it takes that group in if it depends on it, and passes it otherwise.

After a pass the groups hold the items that were read, no item comes before one it depends on,
rates do not increase from group to group, every group is joined by dependencies and rises towards
its end.  The order that the groups give covers the order that was read.

Groups are listed from the last to the first, and the items of a group from its last to its first,
so that a new item goes to the head of the list.
-/

set_option autoImplicit false

namespace BitMinti.Computation.GroupMerge

open Rates Chunks Diagram Conjugate

section Groups

variable {α : Type} {worth : α → Worth} {dep : α → α → Prop}

/-! ## Dependencies between groups -/

/-- Some item of `c` depends on some item of `p`. -/
def Needs (dep : α → α → Prop) (c p : List α) : Prop := ∃ a ∈ c, ∃ b ∈ p, dep a b

/-- No item depends on one that comes later (lists are from the last item). -/
def InOrder (dep : α → α → Prop) (l : List α) : Prop :=
  l.Pairwise fun later earlier => ¬ dep earlier later

variable {after rest : List (List α)} {cur prev : List α}

theorem forall_mem_middle {P : List α → Prop} (hcur : P cur) (hothers : ∀ g ∈ after ++ rest, P g) :
    ∀ g ∈ after ++ cur :: rest, P g := fun g hg =>
  List.forall_mem_cons.2 ⟨hcur, hothers⟩ g (List.perm_middle.mem_iff.1 hg)

theorem mem_middle {g : List α} (hg : g ∈ after ++ rest) : g ∈ after ++ cur :: rest :=
  List.perm_middle.mem_iff.2 (List.mem_cons_of_mem cur hg)

theorem InOrder.swap
    (h : InOrder dep (after ++ cur :: prev :: rest).flatten) (hneeds : ¬ Needs dep cur prev) :
    InOrder dep ((after ++ [prev]) ++ cur :: rest).flatten := by
  unfold InOrder at *
  simp only [List.flatten_append, List.flatten_cons, List.flatten_nil, List.append_nil,
    List.append_assoc, List.pairwise_append, List.mem_append] at h ⊢
  obtain ⟨hafter, ⟨hcur, ⟨hprev, hrest, hpr⟩, hcpr⟩, hacpr⟩ := h
  refine ⟨hafter, ⟨hprev, ⟨hcur, hrest, fun x hx y hy => hcpr x hx y (Or.inr hy)⟩, ?_⟩, ?_⟩
  · rintro x hx y (hy | hy)
    · exact fun hdep => hneeds ⟨y, hy, x, hx, hdep⟩
    · exact hpr x hx y hy
  · rintro x hx y (hy | hy | hy)
    · exact hacpr x hx y (Or.inr (Or.inl hy))
    · exact hacpr x hx y (Or.inl hy)
    · exact hacpr x hx y (Or.inr (Or.inr hy))

theorem swap_perm (after : List (List α)) (cur prev : List α) (rest : List (List α)) :
    ((after ++ [prev]) ++ cur :: rest).flatten.Perm (after ++ cur :: prev :: rest).flatten := by
  rw [List.append_assoc, List.singleton_append]
  exact ((List.Perm.swap cur prev rest).append_left after).flatten

/-! ## Joined groups -/

/-- A step between items of the group along a dependency, in either direction. -/
def Link (dep : α → α → Prop) (g : List α) (a b : α) : Prop := b ∈ g ∧ (dep a b ∨ dep b a)

/-- Dependencies within the group lead from any of its items to any other. -/
def Joined (dep : α → α → Prop) (g : List α) : Prop :=
  ∀ a ∈ g, ∀ b ∈ g, Relation.ReflTransGen (Link dep g) a b

theorem Joined.singleton (a : α) : Joined dep [a] := by
  intro b hb c hc
  rw [List.mem_singleton.1 hb, List.mem_singleton.1 hc]

theorem path_mono {g g' : List α} (hsub : ∀ a ∈ g, a ∈ g') {a b : α}
    (h : Relation.ReflTransGen (Link dep g) a b) : Relation.ReflTransGen (Link dep g') a b := by
  have hlinks : Link dep g ≤ Link dep g' := fun _ b ⟨hmem, hlink⟩ => ⟨hsub b hmem, hlink⟩
  exact Relation.ReflTransGen.mono hlinks a b h

theorem Joined.append {c p : List α} (hc : Joined dep c) (hp : Joined dep p)
    (hneeds : Needs dep c p) : Joined dep (c ++ p) := by
  obtain ⟨a, ha, b, hb, hdep⟩ := hneeds
  have hsubc : ∀ x ∈ c, x ∈ c ++ p := fun x hx => List.mem_append_left p hx
  have hsubp : ∀ x ∈ p, x ∈ c ++ p := fun x hx => List.mem_append_right c hx
  have hab : Link dep (c ++ p) a b := ⟨hsubp b hb, Or.inl hdep⟩
  have hba : Link dep (c ++ p) b a := ⟨hsubc a ha, Or.inr hdep⟩
  intro x hx y hy
  rcases List.mem_append.1 hx with hx | hx <;> rcases List.mem_append.1 hy with hy | hy
  · exact path_mono hsubc (hc x hx y hy)
  · exact ((path_mono hsubc (hc x hx a ha)).tail hab).trans (path_mono hsubp (hp b hb y hy))
  · exact ((path_mono hsubp (hp x hx b hb)).tail hba).trans (path_mono hsubc (hc a ha y hy))
  · exact path_mono hsubp (hp x hx y hy)

/-! ## The shape of the groups -/

/-- A group of items of positive weight that is joined and rises towards its end. -/
structure Solid (worth : α → Worth) (dep : α → α → Prop) (g : List α) : Prop where
  nonempty : g ≠ []
  pos : ∀ a ∈ g, 0 < (worth a).2
  rising : Rising worth g.reverse
  joined : Joined dep g

theorem Solid.weight_pos {g : List α} (h : Solid worth dep g) : 0 < (total worth g).2 :=
  total_weight_pos h.pos h.nonempty

theorem Solid.singleton {a : α} (ha : 0 < (worth a).2) : Solid worth dep [a] where
  nonempty := by simp
  pos := by simpa using ha
  rising := by
    intro p s hsplit hp hs
    have hlen := congrArg List.length hsplit
    have hp' := List.length_pos_of_ne_nil hp
    have hs' := List.length_pos_of_ne_nil hs
    simp only [List.reverse_singleton, List.length_singleton, List.length_append] at hlen
    omega
  joined := Joined.singleton a

theorem Solid.merge (hc : Solid worth dep cur) (hp : Solid worth dep prev)
    (hlower : Lower (total worth prev) (total worth cur)) (hneeds : Needs dep cur prev) :
    Solid worth dep (cur ++ prev) where
  nonempty := by simp [hc.nonempty]
  pos := List.forall_mem_append.2 ⟨hc.pos, hp.pos⟩
  rising := by
    rw [List.reverse_append]
    refine hp.rising.append hc.rising (by simpa using hp.pos) (by simpa using hc.pos)
      (by simp [hp.nonempty]) (by simp [hc.nonempty]) ?_
    rwa [total_reverse, total_reverse]
  joined := hc.joined.append hp.joined hneeds

/-- The groups between two items: solid, in non-increasing order of their rates. -/
structure Grouped (worth : α → Worth) (dep : α → α → Prop) (gs : List (List α)) : Prop where
  solid : ∀ g ∈ gs, Solid worth dep g
  sorted : gs.Pairwise fun later earlier => NotAbove (total worth later) (total worth earlier)

/-- The groups while `cur` moves: the others stay in order, and those it has passed have
at most its rate. -/
structure Bubbling (worth : α → Worth) (dep : α → α → Prop) (after : List (List α))
    (cur : List α) (before : List (List α)) : Prop where
  others : Grouped worth dep (after ++ before)
  solid : Solid worth dep cur
  passed : ∀ g ∈ after, NotAbove (total worth g) (total worth cur)

section

variable (h : Bubbling worth dep after cur (prev :: rest))

include h

theorem Bubbling.prev_facts :
    Solid worth dep prev ∧ (∀ g ∈ after, NotAbove (total worth g) (total worth prev)) ∧
      ∀ g ∈ rest, NotAbove (total worth prev) (total worth g) := by
  obtain ⟨-, hbefore, hacross⟩ := List.pairwise_append.1 h.others.sorted
  exact ⟨h.others.solid prev (by simp), fun g hg => hacross g hg prev List.mem_cons_self,
    (List.pairwise_cons.1 hbefore).1⟩

theorem Bubbling.merge
    (hlower : Lower (total worth prev) (total worth cur)) (hneeds : Needs dep cur prev) :
    Bubbling worth dep after (cur ++ prev) rest := by
  obtain ⟨hprev, hafter, -⟩ := h.prev_facts
  have hsolid := h.solid.merge hprev hlower hneeds
  have hsub : (after ++ rest).Sublist (after ++ prev :: rest) :=
    (List.sublist_cons_self prev rest).append_left after
  refine ⟨⟨fun g hg => h.others.solid g (hsub.subset hg), h.others.sorted.sublist hsub⟩,
    hsolid, fun g hg => ?_⟩
  -- the merged group lies above the group it took in, which lies above those passed
  have hjoin : NotAbove (total worth prev) (total worth (cur ++ prev)) := by
    rw [total_append, add_comm]
    exact hlower.join_left.notAbove
  exact (hafter g hg).trans hjoin
    (h.others.solid g (List.mem_append_left _ hg)).weight_pos.le hprev.weight_pos
    hsolid.weight_pos.le

theorem Bubbling.swap (hlower : Lower (total worth prev) (total worth cur)) :
    Bubbling worth dep (after ++ [prev]) cur rest := by
  have hlist : after ++ [prev] ++ rest = after ++ prev :: rest := by simp
  refine ⟨by rw [hlist]; exact h.others, h.solid, ?_⟩
  exact List.forall_mem_append.2 ⟨h.passed, List.forall_mem_singleton.2 hlower.notAbove⟩

end

theorem Bubbling.stop {after before : List (List α)} {cur : List α}
    (h : Bubbling worth dep after cur before)
    (hstop : ∀ prev ∈ before.head?, NotAbove (total worth cur) (total worth prev)) :
    Grouped worth dep (after ++ cur :: before) := by
  obtain ⟨hafter, hbefore, hacross⟩ := List.pairwise_append.1 h.others.sorted
  have hahead : ∀ g ∈ before, NotAbove (total worth cur) (total worth g) := by
    cases before with
    | nil => simp
    | cons prev rest =>
      obtain ⟨hprev, -, hrest⟩ := h.prev_facts
      have hcp := hstop prev rfl
      refine List.forall_mem_cons.2 ⟨hcp, fun g hg => ?_⟩
      exact hcp.trans (hrest g hg) h.solid.weight_pos.le hprev.weight_pos
        (h.others.solid g (by simp [hg])).weight_pos.le
  exact ⟨forall_mem_middle h.solid h.others.solid, List.pairwise_append.2 ⟨hafter,
    List.pairwise_cons.2 ⟨hahead, hbefore⟩,
    fun g hg => List.forall_mem_cons.2 ⟨h.passed g hg, hacross g hg⟩⟩⟩

variable {gs : List (List α)}

theorem Bubbling.start (h : Grouped worth dep gs) {a : α}
    (ha : 0 < (worth a).2) : Bubbling worth dep [] [a] gs :=
  ⟨h, Solid.singleton ha, by simp⟩

/-! ## What was read before

For a test `p` on items, groups *share* it when the items of each group that pass the test have at
most the rate of the group.  Groups of tested items share it trivially, and later items keep it
shared.
-/

/-- In each group, the items that pass the test have at most the group's rate. -/
def Sharing (worth : α → Worth) (p : α → Bool) (gs : List (List α)) : Prop :=
  ∀ g ∈ gs, NotAbove (total worth (g.filter p)) (total worth g)

/-- While `cur` moves, its tested items also have at most the rate of every group still
ahead: they came with groups from further back. -/
structure SharingOn (worth : α → Worth) (dep : α → α → Prop) (p : α → Bool)
    (after : List (List α)) (cur : List α) (before : List (List α)) : Prop where
  bubbling : Bubbling worth dep after cur before
  others : Sharing worth p (after ++ before)
  own : NotAbove (total worth (cur.filter p)) (total worth cur)
  ahead : ∀ g ∈ before, NotAbove (total worth (cur.filter p)) (total worth g)

variable {p : α → Bool}

theorem SharingOn.merge (h : SharingOn worth dep p after cur (prev :: rest))
    (hlower : Lower (total worth prev) (total worth cur)) (hneeds : Needs dep cur prev) :
    SharingOn worth dep p after (cur ++ prev) rest := by
  obtain ⟨hprev, -, hrest⟩ := h.bubbling.prev_facts
  have hmerged := h.bubbling.merge hlower hneeds
  -- the tested items of both groups have at most the rate of the group taken in
  have hshare : NotAbove (total worth ((cur ++ prev).filter p)) (total worth prev) := by
    rw [List.filter_append, total_append]
    exact (h.ahead prev List.mem_cons_self).add (h.others prev (by simp))
  have hweight : 0 ≤ (total worth ((cur ++ prev).filter p)).2 :=
    total_weight_nonneg fun a ha => hmerged.solid.pos a (List.mem_of_mem_filter ha)
  have hjoin : NotAbove (total worth prev) (total worth (cur ++ prev)) := by
    rw [total_append, add_comm]
    exact hlower.join_left.notAbove
  refine ⟨hmerged, fun g hg => h.others g (mem_middle hg), ?_, fun g hg => ?_⟩
  · exact hshare.trans hjoin hweight hprev.weight_pos hmerged.solid.weight_pos.le
  · exact hshare.trans (hrest g hg) hweight hprev.weight_pos
      (hmerged.others.solid g (List.mem_append_right _ hg)).weight_pos.le

theorem SharingOn.swap (h : SharingOn worth dep p after cur (prev :: rest))
    (hlower : Lower (total worth prev) (total worth cur)) :
    SharingOn worth dep p (after ++ [prev]) cur rest where
  bubbling := h.bubbling.swap hlower
  others := by
    rw [List.append_assoc, List.singleton_append]
    exact h.others
  own := h.own
  ahead := fun g hg => h.ahead g (List.mem_cons_of_mem prev hg)

theorem SharingOn.stop {after before : List (List α)} {cur : List α}
    (h : SharingOn worth dep p after cur before) : Sharing worth p (after ++ cur :: before) :=
  forall_mem_middle h.own h.others

theorem SharingOn.start (h : Grouped worth dep gs)
    (hshare : Sharing worth p gs) {a : α} (ha : 0 < (worth a).2) (hp : p a = false) :
    SharingOn worth dep p [] [a] gs := by
  have hnone : [a].filter p = [] := by simp [hp]
  refine ⟨Bubbling.start h ha, hshare, ?_, fun g hg => ?_⟩
  · rw [hnone]
    exact zero_notAbove
  · rw [hnone]
    exact zero_notAbove

end Groups

/-! ## The pass -/

section Pass

variable {α : Type} (worth : α → Worth) (dep : α → α → Prop) [DecidableRel dep]

instance (c p : List α) : Decidable (Needs dep c p) :=
  inferInstanceAs (Decidable (∃ a ∈ c, ∃ b ∈ p, dep a b))

/-- The group `cur` on its way to the front, past the groups `after`. -/
def bubble (after : List (List α)) (cur : List α) : List (List α) → List (List α)
  | [] => after ++ [cur]
  | prev :: rest =>
    if Lower (total worth prev) (total worth cur) then
      if Needs dep cur prev then bubble after (cur ++ prev) rest
      else bubble (after ++ [prev]) cur rest
    else after ++ cur :: prev :: rest

/-- The groups after further items. -/
def passOnto (gs : List (List α)) (l : List α) : List (List α) :=
  l.foldl (fun gs a => bubble worth dep [] [a] gs) gs

/-- The groups of a whole pass. -/
def pass (l : List α) : List (List α) := passOnto worth dep [] l

variable {worth dep}

theorem passOnto_append (gs : List (List α)) (l m : List α) :
    passOnto worth dep gs (l ++ m) = passOnto worth dep (passOnto worth dep gs l) m :=
  List.foldl_append

theorem pass_snoc (l : List α) (a : α) :
    pass worth dep (l ++ [a]) = bubble worth dep [] [a] (pass worth dep l) :=
  passOnto_append [] l [a]

/-- **The rule for one item.** What merging and passing both keep holds where the item
stops, and there its group has at most the rate of the one before it. -/
theorem bubble_rule {I : List (List α) → List α → List (List α) → Prop}
    (hmerge : ∀ {after cur prev rest}, I after cur (prev :: rest) →
      Lower (total worth prev) (total worth cur) → Needs dep cur prev → I after (cur ++ prev) rest)
    (hswap : ∀ {after cur prev rest}, I after cur (prev :: rest) →
      Lower (total worth prev) (total worth cur) → ¬ Needs dep cur prev →
      I (after ++ [prev]) cur rest)
    {after before : List (List α)} {cur : List α} (h : I after cur before) :
    ∃ after' cur' before', bubble worth dep after cur before = after' ++ cur' :: before' ∧
      I after' cur' before' ∧
      ∀ prev ∈ before'.head?, NotAbove (total worth cur') (total worth prev) := by
  induction before generalizing after cur with
  | nil => exact ⟨after, cur, [], rfl, h, by simp⟩
  | cons prev rest ih =>
    unfold bubble
    split
    next hlower =>
      split
      next hneeds => exact ih (hmerge h hlower hneeds)
      next hneeds => exact ih (hswap h hlower hneeds)
    next hstop =>
      refine ⟨after, cur, prev :: rest, rfl, h, fun prev' hprev' => ?_⟩
      cases hprev'
      exact not_lower.1 hstop

/-! ## The items of the groups -/

theorem bubble_perm (after : List (List α)) (cur : List α) (before : List (List α)) :
    (bubble worth dep after cur before).flatten.Perm (after ++ cur :: before).flatten := by
  induction before generalizing after cur with
  | nil => exact List.Perm.refl _
  | cons prev rest ih =>
    unfold bubble
    split
    · split
      · refine (ih after (cur ++ prev)).trans (List.Perm.of_eq ?_)
        simp
      · exact (ih (after ++ [prev]) cur).trans (swap_perm after cur prev rest)
    · exact List.Perm.refl _

theorem pass_perm (l : List α) : (pass worth dep l).flatten.Perm l := by
  induction l using List.reverseRecOn with
  | nil => exact List.Perm.refl _
  | append_singleton l a ih =>
    rw [pass_snoc]
    refine (bubble_perm [] [a] _).trans ?_
    exact (ih.cons a).trans (List.perm_append_singleton a l).symm

theorem InOrder.bubble {after before : List (List α)} {cur : List α}
    (h : InOrder dep (after ++ cur :: before).flatten) :
    InOrder dep (GroupMerge.bubble worth dep after cur before).flatten := by
  induction before generalizing after cur with
  | nil => exact h
  | cons prev rest ih =>
    unfold GroupMerge.bubble
    split
    · split
      next hneeds =>
        refine ih ?_
        simpa using h
      next hneeds => exact ih (h.swap hneeds)
    · exact h

variable {l : List α}

/-- **A pass keeps dependencies ahead of what depends on them.** -/
theorem pass_inOrder (h : l.Pairwise fun earlier later => ¬ dep earlier later) :
    InOrder dep (pass worth dep l).flatten := by
  induction l using List.reverseRecOn with
  | nil => exact List.Pairwise.nil
  | append_singleton l a ih =>
    obtain ⟨hl, -, hlast⟩ := List.pairwise_append.1 h
    rw [pass_snoc]
    refine InOrder.bubble (List.pairwise_cons.2 ⟨fun b hb => ?_, ih hl⟩)
    exact hlast b ((pass_perm l).mem_iff.1 hb) a List.mem_cons_self

theorem Grouped.bubble {gs : List (List α)} (h : Grouped worth dep gs) {a : α}
    (ha : 0 < (worth a).2) : Grouped worth dep (GroupMerge.bubble worth dep [] [a] gs) := by
  obtain ⟨after, cur, before, heq, hstate, hstop⟩ :=
    bubble_rule (I := Bubbling worth dep) (fun h hlower hneeds => h.merge hlower hneeds)
      (fun h hlower _ => h.swap hlower) (Bubbling.start h ha)
  rw [heq]
  exact hstate.stop hstop

/-- **The groups of a pass.** -/
theorem pass_grouped (hpos : ∀ a ∈ l, 0 < (worth a).2) :
    Grouped worth dep (pass worth dep l) := by
  induction l using List.reverseRecOn with
  | nil => exact ⟨by simp [pass, passOnto], List.Pairwise.nil⟩
  | append_singleton l a ih =>
    rw [pass_snoc]
    exact (ih fun b hb => hpos b (List.mem_append_left _ hb)).bubble (hpos a (by simp))

/-! ## The new order covers the old one -/

theorem Sharing.bubble {p : α → Bool} {gs : List (List α)} (h : Grouped worth dep gs)
    (hshare : Sharing worth p gs) {a : α} (ha : 0 < (worth a).2) (hp : p a = false) :
    Sharing worth p (GroupMerge.bubble worth dep [] [a] gs) := by
  obtain ⟨after, cur, before, heq, hstate, -⟩ :=
    bubble_rule (I := SharingOn worth dep p) (fun h hlower hneeds => h.merge hlower hneeds)
      (fun h hlower _ => h.swap hlower) (SharingOn.start h hshare ha hp)
  rw [heq]
  exact hstate.stop

theorem pass_sharing {p : α → Bool} {l m : List α} (hpos : ∀ a ∈ l ++ m, 0 < (worth a).2)
    (hl : Sharing worth p (pass worth dep l)) (hm : ∀ a ∈ m, p a = false) :
    Sharing worth p (pass worth dep (l ++ m)) := by
  induction m using List.reverseRecOn with
  | nil => rwa [List.append_nil]
  | append_singleton m a ih =>
    rw [← List.append_assoc] at hpos ⊢
    rw [pass_snoc]
    have hpos' : ∀ b ∈ l ++ m, 0 < (worth b).2 := fun b hb => hpos b (List.mem_append_left _ hb)
    exact Sharing.bubble (pass_grouped hpos')
      (ih hpos' fun b hb => hm b (List.mem_append_left _ hb)) (hpos a (by simp))
      (hm a (by simp))

theorem pass_sharing_all {p : α → Bool} (hl : ∀ a ∈ l, p a = true) :
    Sharing worth p (pass worth dep l) := by
  intro g hg
  have hall : g.filter p = g := by
    refine List.filter_eq_self.2 fun a ha => hl a ?_
    exact (pass_perm l).mem_iff.1 (List.mem_flatten_of_mem hg ha)
  rw [hall]
  exact NotAbove.rfl

/-- **Shared items are matched.** If the items of `s` have in each group at most the
group's rate, then at every threshold the front groups have at least their surplus. -/
theorem exists_take_of_sharing [DecidableEq α] {l s : List α} (hpos : ∀ a ∈ l, 0 < (worth a).2)
    (hl : l.Nodup) (hs : s.Nodup) (hsub : ∀ a ∈ s, a ∈ l)
    (hshare : Sharing worth (fun a => decide (a ∈ s)) (pass worth dep l)) (t : ℚ) :
    ∃ m, surplus t (total worth s) ≤
      surplus t (total worth ((pass worth dep l).flatten.reverse.take m)) := by
  have hgrouped : Grouped worth dep (pass worth dep l) := pass_grouped hpos
  have hitems : total worth s = total worth
      ((pass worth dep l).map (List.filter fun a => decide (a ∈ s))).flatten := by
    have hfilter : (l.filter fun a => decide (a ∈ s)).Perm s := by
      refine (List.perm_ext_iff_of_nodup (hl.filter _) hs).2 fun a => ?_
      rw [List.mem_filter, decide_eq_true_iff]
      exact ⟨fun h => h.2, fun h => ⟨hsub a h, h⟩⟩
    rw [← List.filter_flatten, total_perm worth ((pass_perm l).filter _), total_perm worth hfilter]
  -- the groups from the first to the last, the positive surpluses of which add up to a prefix
  have hworths : ((pass worth dep l).map List.reverse).reverse.map (total worth) =
      ((pass worth dep l).map (total worth)).reverse := by
    rw [List.map_reverse, List.map_map]
    exact congrArg _ (List.map_congr_left fun g _ => total_reverse worth g)
  obtain ⟨j, hj⟩ := @exists_take_eq_excess ((pass worth dep l).map (total worth)).reverse
    (by simpa using fun g hg => (hgrouped.solid g hg).weight_pos)
    (List.pairwise_reverse.2 (List.pairwise_map.2 hgrouped.sorted)) t
  obtain ⟨m, hm⟩ := exists_take_of_boundary ((pass worth dep l).map List.reverse).reverse j
  refine ⟨m, ?_⟩
  rw [List.reverse_flatten, ← hm, ← sum_totals, List.map_take, hworths, ← hj,
    excess_perm t (List.reverse_perm _), hitems, surplus_flatten, excess, List.map_map,
    List.map_map]
  refine List.sum_le_sum fun g hg => ?_
  have hsolid := hgrouped.solid g hg
  exact (hshare g hg).surplus_le
    (total_weight_nonneg fun a ha => hsolid.pos a (List.mem_of_mem_filter ha))
    (total_weight_filter_le hsolid.pos _) hsolid.weight_pos t

theorem pass_sharing_take [DecidableEq α] (hpos : ∀ a ∈ l, 0 < (worth a).2)
    (hnodup : l.Nodup) (k : ℕ) :
    Sharing worth (fun a => decide (a ∈ l.take k)) (pass worth dep l) := by
  have hsplit : Sharing worth (fun a => decide (a ∈ l.take k))
      (pass worth dep (l.take k ++ l.drop k)) := by
    refine pass_sharing (by rwa [List.take_append_drop])
      (pass_sharing_all fun a ha => decide_eq_true ha) ?_
    exact fun a ha => decide_eq_false fun htake =>
      List.disjoint_take_drop hnodup (le_refl k) htake ha
  rwa [List.take_append_drop] at hsplit

/-- **A pass never makes an order worse.** The order that the groups of a pass give
covers the order that was read. -/
theorem pass_covers [DecidableEq α] (hpos : ∀ a ∈ l, 0 < (worth a).2)
    (hnodup : l.Nodup) : Covers worth (pass worth dep l).flatten.reverse l := fun t k =>
  exists_take_of_sharing hpos hnodup (hnodup.sublist (List.take_sublist k l))
    (fun _ ha => List.mem_of_mem_take ha) (pass_sharing_take hpos hnodup k) t

end Pass

end BitMinti.Computation.GroupMerge
