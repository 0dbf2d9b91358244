import BitMinti.Computation.GroupMerge

/-!
# What a pass is better than

A pass covers more than the order it read.  Items that lie together in that order, and depend on
nothing outside them, stay together in the groups until later items arrive; so the result also
covers orders in which the first item comes later.  If moreover the items that depend on any one
item form a chain, then every group consists of what its last item depends on, and the result
covers every order in which nothing comes before what it depends on.
-/

set_option autoImplicit false

namespace BitMinti.Computation.GroupMerge

open Rates

section Closed

variable {α : Type} {worth : α → Worth} {dep : α → α → Prop} {u : α → Prop} {p : α → Bool}

/-- Among the items `u`, what a tested item depends on passes the test too. -/
def Closed (dep : α → α → Prop) (u : α → Prop) (p : α → Bool) : Prop :=
  ∀ a b, u a → u b → dep a b → p a = true → p b = true

/-- The test passes for all items of the group, or for none. -/
def Uniform (p : α → Bool) (g : List α) : Prop :=
  (∀ a ∈ g, p a = true) ∨ ∀ a ∈ g, p a = false

theorem Uniform.notAbove {g : List α} (h : Uniform p g) :
    NotAbove (total worth (g.filter p)) (total worth g) := by
  rcases h with hall | hnone
  · rw [List.filter_eq_self.2 hall]
    exact NotAbove.rfl
  · rw [List.filter_eq_nil_iff.2 fun a ha => Bool.eq_false_iff.1 (hnone a ha), total_nil]
    exact zero_notAbove

/-- While a tested item moves: all groups uniform, its own wholly tested. -/
structure Gathering (u : α → Prop) (p : α → Bool) (after : List (List α)) (cur : List α)
    (before : List (List α)) : Prop where
  items : ∀ g ∈ after ++ cur :: before, ∀ a ∈ g, u a
  others : ∀ g ∈ after ++ before, Uniform p g
  cur : ∀ a ∈ cur, p a = true

variable {after rest : List (List α)} {cur prev : List α}

theorem Gathering.merge (hclosed : Closed dep u p)
    (h : Gathering u p after cur (prev :: rest)) (hneeds : Needs dep cur prev) :
    Gathering u p after (cur ++ prev) rest := by
  obtain ⟨a, ha, b, hb, hdep⟩ := hneeds
  have hcur : cur ∈ after ++ cur :: prev :: rest := by simp
  have hprev : prev ∈ after ++ cur :: prev :: rest := by simp
  -- the group taken in has a tested item, so all its items are
  have htested : ∀ c ∈ prev, p c = true := by
    rcases h.others prev (by simp) with hall | hnone
    · exact hall
    · have hpb := hclosed a b (h.items cur hcur a ha) (h.items prev hprev b hb) hdep (h.cur a ha)
      rw [hnone b hb] at hpb
      exact absurd hpb Bool.false_ne_true
  refine ⟨forall_mem_middle ?_ fun g hg => h.items g (mem_middle (mem_middle hg)),
    fun g hg => h.others g (mem_middle hg), List.forall_mem_append.2 ⟨h.cur, htested⟩⟩
  exact List.forall_mem_append.2 ⟨h.items cur hcur, h.items prev hprev⟩

theorem Gathering.swap
    (h : Gathering u p after cur (prev :: rest)) : Gathering u p (after ++ [prev]) cur rest := by
  refine ⟨fun g hg => h.items g ?_, fun g hg => h.others g ?_, h.cur⟩
  · simp only [List.mem_append, List.mem_cons, List.not_mem_nil, or_false] at hg ⊢
    tauto
  · simpa using hg

/-- Among the items `u`, those that depend on any one item form a chain. -/
structure ForestOn (dep : α → α → Prop) (u : α → Prop) : Prop where
  refl : ∀ {a}, u a → dep a a
  trans : ∀ {a b c}, u a → u b → u c → dep a b → dep b c → dep a c
  chain : ∀ {a b c}, u a → u b → u c → dep a c → dep b c → dep a b ∨ dep b a

/-- The last item of the group depends on all of it. -/
def Rooted (dep : α → α → Prop) (g : List α) : Prop := ∃ a ∈ g.head?, ∀ b ∈ g, dep a b

/-- **In a forest, a group that needs another needs all of it.** The roots of the two
groups both lead to the item needed, so one of them depends on the other; it is the later one. -/
theorem ForestOn.root_needs (hforest : ForestOn dep u)
    (hcur : ∀ a ∈ cur, u a) (hprev : ∀ a ∈ prev, u a) (hp : Rooted dep prev)
    (horder : ∀ x ∈ cur, ∀ y ∈ prev, ¬ dep y x) (hneeds : Needs dep cur prev) {a : α}
    (ha : a ∈ cur.head?) (hroot : ∀ b ∈ cur, dep a b) : ∀ b ∈ prev, dep a b := by
  obtain ⟨r, hr, hrall⟩ := hp
  obtain ⟨x, hx, y, hy, hxy⟩ := hneeds
  have hacur : a ∈ cur := List.mem_of_mem_head? ha
  have hrprev : r ∈ prev := List.mem_of_mem_head? hr
  have hua := hcur a hacur
  have hur := hprev r hrprev
  have hay := hforest.trans hua (hcur x hx) (hprev y hy) (hroot x hx) hxy
  have har : dep a r := by
    rcases hforest.chain hua hur (hprev y hy) hay (hrall y hy) with h | h
    · exact h
    · exact absurd h (horder a hacur r hrprev)
  exact fun b hb => hforest.trans hua hur (hprev b hb) har (hrall b hb)

/-- While an item moves through the groups of a forest: either none of its group's tested
items came with it, or its whole group is tested. -/
structure Growing (worth : α → Worth) (dep : α → α → Prop) (u : α → Prop) (p : α → Bool)
    (after : List (List α)) (cur : List α) (before : List (List α)) : Prop where
  items : ∀ a ∈ (after ++ cur :: before).flatten, u a
  order : InOrder dep (after ++ cur :: before).flatten
  rooted : ∀ g ∈ after ++ cur :: before, Rooted dep g
  bubbling : Bubbling worth dep after cur before
  share : SharingOn worth dep p after cur before ∨
    Sharing worth p (after ++ before) ∧ ∀ a ∈ cur, p a = true

theorem Growing.merge (hforest : ForestOn dep u) (hclosed : Closed dep u p)
    (h : Growing worth dep u p after cur (prev :: rest))
    (hlower : Lower (total worth prev) (total worth cur)) (hneeds : Needs dep cur prev) :
    Growing worth dep u p after (cur ++ prev) rest := by
  have hflat : (after ++ (cur ++ prev) :: rest).flatten =
      (after ++ cur :: prev :: rest).flatten := by simp
  have hcin : cur ∈ after ++ cur :: prev :: rest := by simp
  have hpin : prev ∈ after ++ cur :: prev :: rest := by simp
  have hucur : ∀ a ∈ cur, u a := fun a ha => h.items a (List.mem_flatten_of_mem hcin ha)
  have huprev : ∀ a ∈ prev, u a := fun a ha => h.items a (List.mem_flatten_of_mem hpin ha)
  have horder : ∀ x ∈ cur, ∀ y ∈ prev, ¬ dep y x := by
    have hin := h.order
    simp only [InOrder, List.flatten_append, List.flatten_cons, List.pairwise_append,
      List.mem_append] at hin
    exact fun x hx y hy => hin.2.1.2.2 x hx y (Or.inl hy)
  obtain ⟨a, ha, hroot⟩ := h.rooted cur hcin
  have hroot' := hforest.root_needs hucur huprev (h.rooted prev hpin) horder hneeds ha hroot
  refine ⟨hflat ▸ h.items, hflat ▸ h.order, forall_mem_middle ?_ fun g hg =>
    h.rooted g (mem_middle (mem_middle hg)), h.bubbling.merge hlower hneeds, ?_⟩
  · exact ⟨a, List.mem_head?_append_of_mem_head? ha, List.forall_mem_append.2 ⟨hroot, hroot'⟩⟩
  · rcases h.share with hshare | ⟨hshare, htested⟩
    · exact Or.inl (hshare.merge hlower hneeds)
    · have hacur : a ∈ cur := List.mem_of_mem_head? ha
      refine Or.inr ⟨fun g hg => hshare g (mem_middle hg),
        List.forall_mem_append.2 ⟨htested, fun b hb => ?_⟩⟩
      exact hclosed a b (hucur a hacur) (huprev b hb) (hroot' b hb) (htested a hacur)

theorem Growing.swap (h : Growing worth dep u p after cur (prev :: rest))
    (hlower : Lower (total worth prev) (total worth cur)) (hneeds : ¬ Needs dep cur prev) :
    Growing worth dep u p (after ++ [prev]) cur rest := by
  have hperm := swap_perm after cur prev rest
  refine ⟨fun a ha => h.items a (hperm.mem_iff.1 ha), h.order.swap hneeds,
    fun g hg => h.rooted g ?_, h.bubbling.swap hlower, ?_⟩
  · simp only [List.mem_append, List.mem_cons, List.not_mem_nil, or_false] at hg ⊢
    tauto
  · rcases h.share with hshare | ⟨hshare, htested⟩
    · exact Or.inl (hshare.swap hlower)
    · refine Or.inr ⟨?_, htested⟩
      rw [List.append_assoc, List.singleton_append]
      exact hshare

theorem Growing.stop {after before : List (List α)} {cur : List α}
    (h : Growing worth dep u p after cur before) :
    Sharing worth p (after ++ cur :: before) := by
  rcases h.share with hshare | ⟨hshare, htested⟩
  · exact hshare.stop
  · exact forall_mem_middle (Uniform.notAbove (Or.inl htested)) hshare

end Closed

section Intervals

variable {α : Type} {worth : α → Worth} {dep : α → α → Prop} [DecidableRel dep]

variable {u : α → Prop} {p : α → Bool}

/-- Between two items, the groups of a forest are rooted and share every closed test. -/
structure Grown (worth : α → Worth) (dep : α → α → Prop) (p : α → Bool) (gs : List (List α)) :
    Prop where
  rooted : ∀ g ∈ gs, Rooted dep g
  share : Sharing worth p gs

theorem Grown.bubble (hforest : ForestOn dep u)
    (hclosed : Closed dep u p) {gs : List (List α)} (hgroups : Grouped worth dep gs)
    (hitems : ∀ b ∈ gs.flatten, u b) (horder : InOrder dep gs.flatten)
    (h : Grown worth dep p gs) {a : α} (hpos : 0 < (worth a).2) (ha : u a)
    (hlast : ∀ b ∈ gs.flatten, ¬ dep b a) :
    Grown worth dep p (GroupMerge.bubble worth dep [] [a] gs) := by
  have hshare : SharingOn worth dep p [] [a] gs ∨ Sharing worth p gs ∧ ∀ b ∈ [a], p b = true := by
    cases hp : p a with
    | false => exact Or.inl (SharingOn.start hgroups h.share hpos hp)
    | true => exact Or.inr ⟨h.share, by simpa using hp⟩
  have hstart : Growing worth dep u p [] [a] gs := by
    refine ⟨List.forall_mem_cons.2 ⟨ha, hitems⟩, List.pairwise_cons.2 ⟨hlast, horder⟩,
      List.forall_mem_cons.2 ⟨⟨a, rfl, ?_⟩, h.rooted⟩, Bubbling.start hgroups hpos, hshare⟩
    simpa using hforest.refl ha
  obtain ⟨after, cur, before, heq, hstate, -⟩ : ∃ after cur before,
      GroupMerge.bubble worth dep [] [a] gs = after ++ cur :: before ∧
      Growing worth dep u p after cur before ∧ _ :=
    bubble_rule (fun h hlower hneeds => h.merge hforest hclosed hlower hneeds)
      (fun h hlower hneeds => h.swap hlower hneeds) hstart
  rw [heq]
  exact ⟨hstate.rooted, hstate.stop⟩

end Intervals

end BitMinti.Computation.GroupMerge
