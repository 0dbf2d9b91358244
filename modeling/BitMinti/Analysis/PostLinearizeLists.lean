import BitMinti.Computation.GroupMerge
import BitMinti.Model.ClusterLinearize

/-!
# The linked lists of `PostLinearize`

Between two rounds of a pass the entries hold a list of groups: the sentinel's `prev_group` leads
through the last transactions of all groups, from the last group to the first and back to the
sentinel, and from the last transaction of a group its `prev_tx` leads through the group to its
first.  The merge/swap cycle moves the newest group through that list as `bubble` does, and reading
the entries back gives the concatenation of the groups.

SOURCE: src/src/cluster_linearize.h:1422-1571
-/

set_option autoImplicit false

namespace BitMinti.Analysis

open Model Model.PostLinearize Computation.Rates Computation.GroupMerge

/-! ## Entries -/

theorem txEntries_length_modify (e : TxEntries) (i : ℕ) (f : TxEntry → TxEntry) :
    (e.modify i f).length = e.length := List.length_modify ..

variable {e : TxEntries}

theorem txEntries_at_modify {i : ℕ} (hi : i < e.length) (f : TxEntry → TxEntry)
    (j : ℕ) : (e.modify i f).at j = if j = i then f (e.at j) else e.at j := by
  unfold TxEntries.at TxEntries.modify
  rw [List.getD_eq_getElem?_getD, List.getD_eq_getElem?_getD, List.getElem?_modify]
  by_cases hij : i = j
  · subst hij
    simp [List.getElem?_eq_getElem hi]
  · simp [hij, Ne.symm hij]

theorem swapGroups_length (e : TxEntries) (next cur prev preprev : ℕ) :
    (swapGroups e next cur prev preprev).length = e.length := by
  simp only [swapGroups, txEntries_length_modify]

theorem mergeGroups_length (e : TxEntries) (cur prev : ℕ) :
    (mergeGroups e cur prev).1.length = e.length := by
  simp only [mergeGroups, txEntries_length_modify]

theorem swapGroups_at {next cur prev : ℕ} (hnext : next < e.length)
    (hcur : cur < e.length) (hprev : prev < e.length) (preprev j : ℕ) :
    (swapGroups e next cur prev preprev).at j = { e.at j with
      prevGroup := if j = cur then preprev else if j = prev then cur
        else if j = next then prev else (e.at j).prevGroup } := by
  unfold swapGroups
  rw [txEntries_at_modify (by simpa only [txEntries_length_modify] using hcur),
    txEntries_at_modify (by simpa only [txEntries_length_modify] using hprev),
    txEntries_at_modify hnext]
  split_ifs <;> rfl

theorem mergeGroups_at {cur prev : ℕ} (hcur : cur < e.length)
    (hfirst : (e.at cur).firstTx < e.length) (hne : prev ≠ cur) (j : ℕ) :
    (mergeGroups e cur prev).1.at j =
      { prevTx := if j = (e.at cur).firstTx then prev else (e.at j).prevTx
        firstTx := if j = cur then (e.at prev).firstTx else (e.at j).firstTx
        prevGroup := if j = cur then (e.at prev).prevGroup else (e.at j).prevGroup
        group := if j = cur then (e.at cur).group ∪ (e.at prev).group else (e.at j).group
        deps := if j = cur then (e.at cur).deps ∪ (e.at prev).deps else (e.at j).deps
        feerate := if j = cur then (e.at cur).feerate.add (e.at prev).feerate
          else (e.at j).feerate } := by
  unfold mergeGroups
  simp only [txEntries_length_modify, txEntries_at_modify, hcur, hfirst, if_true, if_neg hne]
  split_ifs <;> simp_all

theorem mergeGroups_prev {cur p : ℕ} (hcur : cur < e.length)
    (hfirst : (e.at cur).firstTx < e.length) :
    (mergeGroups e cur p).2 = (e.at p).prevGroup := by
  unfold mergeGroups
  simp only [txEntries_length_modify, txEntries_at_modify, hcur, hfirst, if_true]
  split_ifs <;> rfl

/-! ## One group -/

theorem succ_ne_sentinel (t : ℕ) : t + 1 ≠ SENTINEL := Nat.succ_ne_zero t

/-- The index of the entry of the last transaction of a group. -/
def tailPtr : List ℕ → ℕ
  | [] => SENTINEL
  | t :: _ => t + 1

theorem tailPtr_append {g : List ℕ} (hg : g ≠ []) (g' : List ℕ) :
    tailPtr (g ++ g') = tailPtr g := by
  obtain ⟨t, ts, rfl⟩ := List.exists_cons_of_ne_nil hg
  rfl

/-- From `p`, `prev_tx` leads through the transactions `txs` and ends. -/
def TxChain (e : TxEntries) : ℕ → List ℕ → Prop
  | p, [] => p = NO_PREV_TX
  | p, t :: txs => p = t + 1 ∧ TxChain e (e.at p).prevTx txs

theorem TxChain.congr {e e' : TxEntries} {p : ℕ} {txs : List ℕ} (h : TxChain e p txs)
    (heq : ∀ t ∈ txs, (e'.at (t + 1)).prevTx = (e.at (t + 1)).prevTx) : TxChain e' p txs := by
  induction txs generalizing p with
  | nil => exact h
  | cons t txs ih =>
    obtain ⟨rfl, htail⟩ := h
    refine ⟨rfl, ?_⟩
    rw [heq t List.mem_cons_self]
    exact ih htail fun u hu => heq u (List.mem_cons_of_mem t hu)

theorem TxChain.append {e e' : TxEntries} {p q first : ℕ} {txs txs' : List ℕ}
    (h : TxChain e p txs) (hnodup : txs.Nodup) (hfirst : txs.getLast? = some first)
    (heq : ∀ t ∈ txs, t ≠ first → (e'.at (t + 1)).prevTx = (e.at (t + 1)).prevTx)
    (hlink : (e'.at (first + 1)).prevTx = q) (h' : TxChain e' q txs') :
    TxChain e' p (txs ++ txs') := by
  induction txs generalizing p with
  | nil => simp at hfirst
  | cons t txs ih =>
    obtain ⟨rfl, htail⟩ := h
    obtain ⟨hnotin, hnodup'⟩ := List.nodup_cons.1 hnodup
    refine ⟨rfl, ?_⟩
    cases txs with
    | nil =>
      obtain rfl : t = first := by simpa using hfirst
      rw [hlink]
      exact h'
    | cons u txs =>
      rw [List.getLast?_cons_cons] at hfirst
      have hne : t ≠ first := fun heq => hnotin (heq ▸ List.mem_of_getLast? hfirst)
      rw [heq t List.mem_cons_self hne]
      exact ih htail hnodup' hfirst fun v hv => heq v (List.mem_cons_of_mem t hv)

section Groups

variable (deps : ℕ → Finset ℕ) (worth : ℕ → Worth)

/-- The entries hold the group `g`, its transactions from back to front. -/
structure IsGroup (e : TxEntries) (g : List ℕ) : Prop where
  nonempty : g ≠ []
  txs : TxChain e (tailPtr g) g
  first : ∃ t, g.getLast? = some t ∧ (e.at (tailPtr g)).firstTx = t + 1
  group : (e.at (tailPtr g)).group = g.toFinset
  deps : (e.at (tailPtr g)).deps = g.toFinset.biUnion deps
  feerate : ((e.at (tailPtr g)).feerate.fee, (e.at (tailPtr g)).feerate.size) = total worth g

variable {deps worth}

theorem tailPtr_mem {g : List ℕ} (hg : g ≠ []) : ∃ t ∈ g, tailPtr g = t + 1 := by
  obtain ⟨t, ts, rfl⟩ := List.exists_cons_of_ne_nil hg
  exact ⟨t, List.mem_cons_self, rfl⟩

variable {e e' : TxEntries}

theorem IsGroup.congr {g : List ℕ} (h : IsGroup deps worth e g)
    (heq : ∀ t ∈ g, ∃ i, e'.at (t + 1) = { e.at (t + 1) with prevGroup := i }) :
    IsGroup deps worth e' g := by
  obtain ⟨t, ht, htail⟩ := tailPtr_mem h.nonempty
  obtain ⟨i, hi⟩ := heq t ht
  rw [← htail] at hi
  refine ⟨h.nonempty, h.txs.congr fun u hu => ?_, ?_, ?_, ?_, ?_⟩
  · obtain ⟨j, hj⟩ := heq u hu
    rw [hj]
  · rw [hi]
    exact h.first
  · rw [hi]
    exact h.group
  · rw [hi]
    exact h.deps
  · rw [hi]
    exact h.feerate

theorem IsGroup.merge {e : TxEntries} {cur prev : List ℕ} (hc : IsGroup deps worth e cur)
    (hp : IsGroup deps worth e prev) (hnodup : (cur ++ prev).Nodup)
    (hbound : ∀ t ∈ cur, t + 1 < e.length) :
    IsGroup deps worth (mergeGroups e (tailPtr cur) (tailPtr prev)).1 (cur ++ prev) := by
  obtain ⟨first, hlast, hfirst⟩ := hc.first
  obtain ⟨c, hcmem, hcur⟩ := tailPtr_mem hc.nonempty
  obtain ⟨p, hpmem, hprev⟩ := tailPtr_mem hp.nonempty
  obtain ⟨hcnodup, -, hapart⟩ := List.nodup_append.1 hnodup
  have hfirstmem : first ∈ cur := List.mem_of_getLast? hlast
  have hne : tailPtr prev ≠ tailPtr cur := by
    rw [hcur, hprev]
    have := hapart c hcmem p hpmem
    omega
  have hcurlt : tailPtr cur < e.length := by
    rw [hcur]
    exact hbound c hcmem
  have hfirstlt : (e.at (tailPtr cur)).firstTx < e.length := by
    rw [hfirst]
    exact hbound first hfirstmem
  have hat := mergeGroups_at hcurlt hfirstlt hne
  rw [hfirst] at hat
  have htail := hat (tailPtr cur)
  simp only [if_true] at htail
  refine ⟨by simp [hc.nonempty], ?_, ?_, ?_, ?_, ?_⟩
  · rw [tailPtr_append hc.nonempty]
    refine hc.txs.append hcnodup hlast (fun t ht htf => ?_) ?_ (hp.txs.congr fun t ht => ?_)
    · rw [hat, if_neg (by omega)]
    · rw [hat, if_pos rfl]
    · have hapart' := hapart first hfirstmem t ht
      rw [hat, if_neg (by omega)]
  · obtain ⟨t, hlast', hfirst'⟩ := hp.first
    refine ⟨t, ?_, ?_⟩
    · rw [List.getLast?_append, hlast', Option.some_or]
    · rw [tailPtr_append hc.nonempty, htail, hfirst']
  · rw [tailPtr_append hc.nonempty, htail, List.toFinset_append, ← hc.group, ← hp.group]
  · rw [tailPtr_append hc.nonempty, htail, List.toFinset_append, Finset.union_biUnion, ← hc.deps,
      ← hp.deps]
  · rw [tailPtr_append hc.nonempty, htail, total_append, ← hc.feerate, ← hp.feerate]
    rfl

/-! ## The list of groups -/

/-- From each index `prev_group` leads to the next. -/
def GroupChain (e : TxEntries) (ps : List ℕ) : Prop :=
  ps.IsChain fun p q => (e.at p).prevGroup = q

theorem GroupChain.congr {ps : List ℕ} (h : GroupChain e ps)
    (heq : ∀ p ∈ ps.dropLast, (e'.at p).prevGroup = (e.at p).prevGroup) : GroupChain e' ps := by
  induction ps with
  | nil => exact List.IsChain.nil
  | cons p ps ih =>
    cases ps with
    | nil => exact List.IsChain.singleton p
    | cons q ps =>
      obtain ⟨hpq, htail⟩ := List.isChain_cons_cons.1 h
      have hp : p ∈ (p :: q :: ps).dropLast := by simp
      refine List.isChain_cons_cons.2 ⟨(heq p hp).trans hpq, ih htail fun r hr => heq r ?_⟩
      rw [List.dropLast_cons_cons]
      exact List.mem_cons_of_mem p hr

theorem GroupChain.swap {e : TxEntries} {ps rs : List ℕ} {next cur prev : ℕ}
    (h : GroupChain e (ps ++ next :: cur :: prev :: rs)) (hrs : rs ≠ [])
    (hnodup : (ps ++ next :: cur :: prev :: rs.dropLast).Nodup) (hnext : next < e.length)
    (hcur : cur < e.length) (hprev : prev < e.length) :
    GroupChain (swapGroups e next cur prev (e.at prev).prevGroup)
      (ps ++ next :: prev :: cur :: rs) := by
  obtain ⟨r, rs, rfl⟩ := List.exists_cons_of_ne_nil hrs
  obtain ⟨hfront, hback⟩ := List.isChain_split.1 h
  simp only [List.isChain_cons_cons] at hback
  obtain ⟨-, -, hpr, htail⟩ := hback
  simp only [List.nodup_append, List.nodup_cons, List.mem_cons, not_or] at hnodup
  obtain ⟨-, ⟨⟨hnc, hnp, hnr⟩, ⟨hcp, hcr⟩, hprr, -⟩, hps⟩ := hnodup
  have hat := swapGroups_at hnext hcur hprev (e.at prev).prevGroup
  have hother : ∀ q, q ≠ next → q ≠ cur → q ≠ prev →
      ((swapGroups e next cur prev (e.at prev).prevGroup).at q).prevGroup =
        (e.at q).prevGroup := by
    intro q hqn hqc hqp
    rw [hat, if_neg hqc, if_neg hqp, if_neg hqn]
  refine List.isChain_split.2 ⟨GroupChain.congr hfront fun q hq => ?_, ?_⟩
  · rw [List.dropLast_concat] at hq
    exact hother q (hps q hq next (Or.inl rfl)) (hps q hq cur (Or.inr (Or.inl rfl)))
      (hps q hq prev (Or.inr (Or.inr (Or.inl rfl))))
  · simp only [List.isChain_cons_cons]
    refine ⟨?_, ?_, ?_, GroupChain.congr htail fun q hq => ?_⟩
    · rw [hat, if_neg hnc, if_neg hnp, if_pos rfl]
    · rw [hat, if_neg (Ne.symm hcp), if_pos rfl]
    · rw [hat, if_pos rfl, hpr]
    · exact hother q (fun heq => hnr (heq ▸ hq)) (fun heq => hcr (heq ▸ hq))
        (fun heq => hprr (heq ▸ hq))

theorem GroupChain.merge {ps rs : List ℕ} {cur prev : ℕ}
    (h : GroupChain e (ps ++ cur :: prev :: rs)) (hrs : rs ≠ [])
    (hnodup : (ps ++ cur :: prev :: rs.dropLast).Nodup)
    (hcur : (e'.at cur).prevGroup = (e.at prev).prevGroup)
    (hother : ∀ q, q ≠ cur → (e'.at q).prevGroup = (e.at q).prevGroup) :
    GroupChain e' (ps ++ cur :: rs) := by
  obtain ⟨r, rs, rfl⟩ := List.exists_cons_of_ne_nil hrs
  obtain ⟨hfront, hback⟩ := List.isChain_split.1 h
  simp only [List.isChain_cons_cons] at hback
  obtain ⟨-, hpr, htail⟩ := hback
  simp only [List.nodup_append, List.nodup_cons, List.mem_cons, not_or] at hnodup
  obtain ⟨-, ⟨⟨-, hcr⟩, -⟩, hps⟩ := hnodup
  refine List.isChain_split.2 ⟨GroupChain.congr hfront fun q hq => ?_, ?_⟩
  · rw [List.dropLast_concat] at hq
    exact hother q (hps q hq cur (Or.inl rfl))
  · refine List.isChain_cons_cons.2 ⟨hcur.trans hpr, GroupChain.congr htail fun q hq => ?_⟩
    exact hother q fun heq => hcr (heq ▸ hq)

/-- The indices on the way through the groups, from the sentinel. -/
def pointers (gs : List (List ℕ)) : List ℕ := SENTINEL :: gs.map tailPtr

theorem pointers_nodup {gs : List (List ℕ)} (hne : ∀ g ∈ gs, g ≠ []) (hnodup : gs.flatten.Nodup) :
    (pointers gs).Nodup := by
  refine List.nodup_cons.2 ⟨fun hmem => ?_, ?_⟩
  · obtain ⟨g, hg, hptr⟩ := List.mem_map.1 hmem
    obtain ⟨t, -, htail⟩ := tailPtr_mem (hne g hg)
    rw [htail] at hptr
    exact succ_ne_sentinel t hptr
  · obtain ⟨-, hapart⟩ := List.nodup_flatten.1 hnodup
    refine List.pairwise_map.2 (hapart.imp_of_mem fun hg hg' hdisjoint hptr => ?_)
    obtain ⟨t, ht, htail⟩ := tailPtr_mem (hne _ hg)
    obtain ⟨t', ht', htail'⟩ := tailPtr_mem (hne _ hg')
    obtain rfl : t = t' := by omega
    exact hdisjoint ht ht'

variable (deps worth)

/-- **The entries hold the groups `gs`**, the last one first. -/
structure Holds (e : TxEntries) (gs : List (List ℕ)) : Prop where
  groups : ∀ g ∈ gs, IsGroup deps worth e g
  chain : GroupChain e (pointers gs ++ [SENTINEL])
  nodup : gs.flatten.Nodup
  bound : ∀ t ∈ gs.flatten, t + 1 < e.length
  room : 0 < e.length
  sentinel : (e.at SENTINEL).feerate = FeeFrac.empty

variable {deps worth}

/-- The index of the group after those in `after`, towards the back. -/
def nextPtr (after : List (List ℕ)) : ℕ := (pointers after).getLast (List.cons_ne_nil _ _)

/-- The index of the first group of `before`, or the sentinel's. -/
def headPtr (before : List (List ℕ)) : ℕ := tailPtr (before.headD [])

theorem pointers_split (after : List (List ℕ)) (cur : List ℕ) (before : List (List ℕ)) :
    pointers (after ++ cur :: before) ++ [SENTINEL] = (pointers after).dropLast ++
      nextPtr after :: tailPtr cur :: (before.map tailPtr ++ [SENTINEL]) := by
  have hlast := List.dropLast_append_getLast (l := pointers after) (List.cons_ne_nil _ _)
  calc pointers (after ++ cur :: before) ++ [SENTINEL]
      = pointers after ++ (tailPtr cur :: (before.map tailPtr ++ [SENTINEL])) := by
        simp [pointers]
    _ = (pointers after).dropLast ++ [nextPtr after] ++
          (tailPtr cur :: (before.map tailPtr ++ [SENTINEL])) := by
        rw [nextPtr, hlast]
    _ = _ := by simp

theorem pointers_split_nodup {after : List (List ℕ)} {cur : List ℕ} {before : List (List ℕ)}
    (h : (pointers (after ++ cur :: before)).Nodup) : ((pointers after).dropLast ++
      nextPtr after :: tailPtr cur :: (before.map tailPtr ++ [SENTINEL]).dropLast).Nodup := by
  have hsplit := congrArg List.dropLast (pointers_split after cur before)
  rw [List.dropLast_concat, List.dropLast_append_of_ne_nil (by simp)] at hsplit
  rwa [hsplit, List.dropLast_cons_of_ne_nil (by simp), List.dropLast_cons_of_ne_nil (by simp)] at h

namespace Holds

variable {e : TxEntries} {after rest : List (List ℕ)} {cur prev : List ℕ}

variable {gs : List (List ℕ)}

theorem tailPtr_lt (h : Holds deps worth e gs) {g : List ℕ} (hg : g ∈ gs) :
    tailPtr g < e.length := by
  obtain ⟨t, ht, htail⟩ := tailPtr_mem (h.groups g hg).nonempty
  rw [htail]
  exact h.bound t (List.mem_flatten_of_mem hg ht)

theorem nextPtr_lt (h : Holds deps worth e (after ++ gs)) : nextPtr after < e.length := by
  have hmem : nextPtr after ∈ pointers after := List.getLast_mem _
  rcases List.mem_cons.1 hmem with hzero | hmem
  · rw [hzero]
    exact h.room
  · obtain ⟨g, hg, hptr⟩ := List.mem_map.1 hmem
    rw [← hptr]
    exact h.tailPtr_lt (List.mem_append_left gs hg)

theorem firstTx_lt (h : Holds deps worth e gs) {g : List ℕ} (hg : g ∈ gs) :
    (e.at (tailPtr g)).firstTx < e.length := by
  obtain ⟨first, hlast, hfirst⟩ := (h.groups g hg).first
  rw [hfirst]
  exact h.bound first (List.mem_flatten_of_mem hg (List.mem_of_getLast? hlast))

theorem pointers_nodup (h : Holds deps worth e gs) : (pointers gs).Nodup :=
  Analysis.pointers_nodup (fun g hg => (h.groups g hg).nonempty) h.nodup

section

variable (h : Holds deps worth e (after ++ cur :: prev :: rest))

include h

theorem disjoint_cur {g : List ℕ} (hg : g ∈ after ++ rest) : g.Disjoint cur := by
  obtain ⟨-, hapart⟩ := List.nodup_flatten.1 h.nodup
  obtain ⟨-, hback, hacross⟩ := List.pairwise_append.1 hapart
  rcases List.mem_append.1 hg with hg | hg
  · exact hacross g hg cur List.mem_cons_self
  · exact ((List.pairwise_cons.1 hback).1 g (List.mem_cons_of_mem prev hg)).symm

theorem swap :
    Holds deps worth (swapGroups e (nextPtr after) (tailPtr cur) (tailPtr prev)
      (e.at (tailPtr prev)).prevGroup) (after ++ prev :: cur :: rest) := by
  have hcur := h.tailPtr_lt (g := cur) (by simp)
  have hprev := h.tailPtr_lt (g := prev) (by simp)
  have hat := swapGroups_at h.nextPtr_lt hcur hprev (e.at (tailPtr prev)).prevGroup
  have hperm : (after ++ prev :: cur :: rest).Perm (after ++ cur :: prev :: rest) :=
    (List.Perm.swap cur prev rest).append_left after
  have hlength := swapGroups_length e (nextPtr after) (tailPtr cur) (tailPtr prev)
    (e.at (tailPtr prev)).prevGroup
  refine ⟨fun g hg => ?_, ?_, hperm.flatten.nodup_iff.2 h.nodup, fun t ht => ?_, ?_, ?_⟩
  · exact (h.groups g (hperm.mem_iff.1 hg)).congr fun t _ => ⟨_, hat (t + 1)⟩
  · have hchain := h.chain
    rw [pointers_split, List.map_cons, List.cons_append] at hchain ⊢
    refine hchain.swap (by simp) ?_ h.nextPtr_lt hcur hprev
    have hnodup := pointers_split_nodup h.pointers_nodup
    rwa [List.map_cons, List.cons_append, List.dropLast_cons_of_ne_nil (by simp)] at hnodup
  · rw [hlength]
    exact h.bound t (hperm.flatten.mem_iff.1 ht)
  · rw [hlength]
    exact h.room
  · rw [hat]
    exact h.sentinel

theorem merge :
    Holds deps worth (mergeGroups e (tailPtr cur) (tailPtr prev)).1
      (after ++ (cur ++ prev) :: rest) := by
  have hcin : cur ∈ after ++ cur :: prev :: rest := by simp
  have hpin : prev ∈ after ++ cur :: prev :: rest := by simp
  have hc := h.groups cur hcin
  have hp := h.groups prev hpin
  have hflat : (after ++ cur :: prev :: rest).flatten =
      (after ++ (cur ++ prev) :: rest).flatten := by
    simp
  obtain ⟨first, hlast, hfirst⟩ := hc.first
  have hfirstmem : first ∈ cur := List.mem_of_getLast? hlast
  have hptrs := pointers_split_nodup h.pointers_nodup
  rw [List.map_cons, List.cons_append, List.dropLast_cons_of_ne_nil (by simp)] at hptrs
  have hne : tailPtr prev ≠ tailPtr cur := by
    have hpart := List.nodup_cons.1 (List.nodup_cons.1 (List.nodup_append.1 hptrs).2.1).2
    exact fun heq => hpart.1 (heq ▸ List.mem_cons_self)
  have hat := mergeGroups_at (h.tailPtr_lt hcin) (h.firstTx_lt hcin) hne
  have hlength := mergeGroups_length e (tailPtr cur) (tailPtr prev)
  -- a group other than the two has none of the changed entries
  have hother : ∀ g ∈ after ++ rest, ∀ t ∈ g, t + 1 ≠ tailPtr cur ∧ t ≠ first := by
    intro g hg t ht
    obtain ⟨c, hcmem, hcur⟩ := tailPtr_mem hc.nonempty
    have hdisjoint := h.disjoint_cur hg
    have htc : t ≠ c := fun heq => hdisjoint ht (heq ▸ hcmem)
    exact ⟨by omega, fun heq => hdisjoint ht (heq ▸ hfirstmem)⟩
  refine ⟨fun g hg => ?_, ?_, hflat ▸ h.nodup, fun t ht => ?_, ?_, ?_⟩
  · by_cases hnew : g = cur ++ prev
    · subst hnew
      refine hc.merge hp ?_ fun t ht => h.bound t (List.mem_flatten_of_mem hcin ht)
      exact (List.nodup_flatten.1 (hflat ▸ h.nodup)).1 _ hg
    · have hg' : g ∈ after ++ rest := by
        simpa [hnew] using hg
      have hin : g ∈ after ++ cur :: prev :: rest := by
        rcases List.mem_append.1 hg' with hg' | hg' <;> simp [hg']
      refine (h.groups g hin).congr fun t ht => ⟨(e.at (t + 1)).prevGroup, ?_⟩
      obtain ⟨htc, htf⟩ := hother g hg' t ht
      rw [hat, hfirst]
      simp only [if_neg htc, Nat.add_right_cancel_iff, if_neg htf]
  · have hchain := h.chain
    rw [pointers_split, List.map_cons, List.cons_append, List.append_cons] at hchain
    rw [List.append_cons] at hptrs
    rw [pointers_split, tailPtr_append hc.nonempty, List.append_cons]
    refine hchain.merge (by simp) hptrs ?_ fun q hq => ?_
    · rw [hat]
      exact if_pos rfl
    · rw [hat]
      exact if_neg hq
  · rw [hlength]
    exact h.bound t (hflat ▸ ht)
  · rw [hlength]
    exact h.room
  · obtain ⟨c, -, hcur⟩ := tailPtr_mem hc.nonempty
    have hsentinel : SENTINEL ≠ tailPtr cur := by
      rw [hcur]
      exact (succ_ne_sentinel c).symm
    rw [hat]
    exact (if_neg hsentinel).trans h.sentinel

end

/-! ## The merge/swap cycle -/

theorem prevGroup_cur {before : List (List ℕ)} (h : Holds deps worth e (after ++ cur :: before)) :
    (e.at (tailPtr cur)).prevGroup = headPtr before := by
  have hchain := h.chain
  rw [pointers_split] at hchain
  obtain ⟨-, hback⟩ := List.isChain_split.1 hchain
  have htail := (List.isChain_cons_cons.1 hback).2
  cases before with
  | nil => exact (List.isChain_cons_cons.1 htail).1
  | cons g before => exact (List.isChain_cons_cons.1 htail).1

theorem higher_iff (h : Holds deps worth e gs) {c p : List ℕ} (hc : c ∈ gs)
    (hp : p ∈ gs) : (e.at (tailPtr c)).feerate.higher (e.at (tailPtr p)).feerate = true ↔
      Lower (total worth p) (total worth c) := by
  rw [← (h.groups c hc).feerate, ← (h.groups p hp).feerate]
  exact decide_eq_true_iff

theorem not_higher_sentinel (h : Holds deps worth e gs) (f : FeeFrac) :
    f.higher (e.at SENTINEL).feerate = false := by
  rw [h.sentinel]
  simp [FeeFrac.higher, FeeFrac.empty]

theorem overlaps_iff (h : Holds deps worth e gs) {c p : List ℕ} (hc : c ∈ gs)
    (hp : p ∈ gs) : ((e.at (tailPtr c)).deps ∩ (e.at (tailPtr p)).group).Nonempty ↔
      Needs (fun a b => b ∈ deps a) c p := by
  rw [(h.groups c hc).deps, (h.groups p hp).group]
  constructor
  · rintro ⟨b, hb⟩
    obtain ⟨hdep, hin⟩ := Finset.mem_inter.1 hb
    obtain ⟨a, ha, hab⟩ := Finset.mem_biUnion.1 hdep
    exact ⟨a, List.mem_toFinset.1 ha, b, List.mem_toFinset.1 hin, hab⟩
  · rintro ⟨a, ha, b, hb, hab⟩
    exact ⟨b, Finset.mem_inter.2 ⟨Finset.mem_biUnion.2 ⟨a, List.mem_toFinset.2 ha, hab⟩,
      List.mem_toFinset.2 hb⟩⟩

theorem nextPtr_append (after : List (List ℕ)) (g : List ℕ) :
    nextPtr (after ++ [g]) = tailPtr g := by
  simp [nextPtr, pointers]

/-- **The merge/swap cycle moves the current group as `bubble` does**, and ends. By
induction on the groups ahead of it; every round takes one of them. -/
theorem mergeSwap {fuel : ℕ} {before : List (List ℕ)}
    (h : Holds deps worth e (after ++ cur :: before)) (hfuel : before.length < fuel) :
    ∃ e', PostLinearize.mergeSwap fuel e (nextPtr after) (tailPtr cur) (headPtr before) = some e' ∧
      Holds deps worth e' (bubble worth (fun a b => b ∈ deps a) after cur before) ∧
      e'.length = e.length := by
  induction before generalizing fuel e after cur with
  | nil =>
    obtain ⟨fuel, rfl⟩ := Nat.exists_eq_succ_of_ne_zero (Nat.ne_zero_of_lt hfuel)
    refine ⟨e, ?_, h, rfl⟩
    have hstop := h.not_higher_sentinel (e.at (tailPtr cur)).feerate
    rw [PostLinearize.mergeSwap]
    exact if_neg (by rw [← Bool.not_eq_true] at hstop; exact hstop)
  | cons prev rest ih =>
    obtain ⟨fuel, rfl⟩ := Nat.exists_eq_succ_of_ne_zero (Nat.ne_zero_of_lt hfuel)
    have hcin : cur ∈ after ++ cur :: prev :: rest := by simp
    have hpin : prev ∈ after ++ cur :: prev :: rest := by simp
    have hfuel' : rest.length < fuel := by simpa using hfuel
    have hpre : (e.at (tailPtr prev)).prevGroup = headPtr rest := by
      have hsplit : after ++ cur :: prev :: rest = (after ++ [cur]) ++ prev :: rest := by simp
      exact (hsplit ▸ h).prevGroup_cur
    have hhead : headPtr (prev :: rest) = tailPtr prev := rfl
    rw [PostLinearize.mergeSwap, bubble, hhead]
    by_cases hlower : Lower (total worth prev) (total worth cur)
    · rw [if_pos hlower, if_pos ((h.higher_iff hcin hpin).2 hlower)]
      by_cases hneeds : Needs (fun a b => b ∈ deps a) cur prev
      · have hprev := mergeGroups_prev (p := tailPtr prev) (h.tailPtr_lt hcin)
          (h.firstTx_lt hcin)
        obtain ⟨e', he', hholds, hlen⟩ := ih h.merge hfuel'
        rw [tailPtr_append (h.groups cur hcin).nonempty prev, ← hpre, ← hprev] at he'
        rw [if_pos hneeds, if_pos ((h.overlaps_iff hcin hpin).2 hneeds)]
        exact ⟨e', he', hholds, hlen.trans (mergeGroups_length ..)⟩
      · have hround := h.swap
        rw [List.append_cons] at hround
        obtain ⟨e', he', hholds, hlen⟩ := ih hround hfuel'
        rw [nextPtr_append, ← hpre] at he'
        rw [if_neg hneeds, if_neg fun hoverlap => hneeds ((h.overlaps_iff hcin hpin).1 hoverlap)]
        exact ⟨e', he', hholds, hlen.trans (swapGroups_length ..)⟩
    · rw [if_neg hlower, if_neg fun hhigher => hlower ((h.higher_iff hcin hpin).1 hhigher)]
      exact ⟨e, rfl, h, rfl⟩

/-! ## Reading the groups back -/

theorem length_le (h : Holds deps worth e gs) : gs.length ≤ gs.flatten.length := by
  have hne : ∀ g ∈ gs, 1 ≤ g.length := fun g hg =>
    List.length_pos_of_ne_nil (h.groups g hg).nonempty
  clear h
  induction gs with
  | nil => exact Nat.le_refl 0
  | cons g gs ih =>
    have hhead := hne g List.mem_cons_self
    have htail := ih fun g' hg' => hne g' (List.mem_cons_of_mem g hg')
    rw [List.flatten_cons, List.length_append, List.length_cons]
    omega

theorem groupTxs_eq {p fuel : ℕ} {txs : List ℕ} (h : TxChain e p txs)
    (hne : txs ≠ []) (hfuel : txs.length ≤ fuel) : groupTxs fuel e p = some txs := by
  induction txs generalizing p fuel with
  | nil => exact absurd rfl hne
  | cons t txs ih =>
    obtain ⟨rfl, htail⟩ := h
    obtain ⟨fuel, rfl⟩ := Nat.exists_eq_succ_of_ne_zero (Nat.ne_zero_of_lt hfuel)
    rw [groupTxs]
    cases txs with
    | nil =>
      have hend : (e.at (t + 1)).prevTx = NO_PREV_TX := htail
      rw [if_neg (not_not.2 hend), Nat.add_sub_cancel]
    | cons u txs =>
      have hmore : (e.at (t + 1)).prevTx ≠ NO_PREV_TX := by
        rw [htail.1]
        exact Nat.succ_ne_zero u
      rw [if_pos hmore, ih htail (by simp) (by simpa using hfuel), Option.map_some,
        Nat.add_sub_cancel]

theorem allTxs_eq {perGroup fuel : ℕ} (h : Holds deps worth e (after ++ gs))
    (hfuel : gs.length < fuel) (hgroup : gs.flatten.length ≤ perGroup) :
    allTxs perGroup fuel e (headPtr gs) = some gs.flatten := by
  induction gs generalizing after fuel with
  | nil =>
    obtain ⟨fuel, rfl⟩ := Nat.exists_eq_succ_of_ne_zero (Nat.ne_zero_of_lt hfuel)
    have hend : headPtr [] = SENTINEL := rfl
    rw [allTxs, if_neg (not_not.2 hend)]
    rfl
  | cons g gs ih =>
    obtain ⟨fuel, rfl⟩ := Nat.exists_eq_succ_of_ne_zero (Nat.ne_zero_of_lt hfuel)
    have hg := h.groups g (by simp)
    have hhead : headPtr (g :: gs) = tailPtr g := rfl
    have hptr : tailPtr g ≠ SENTINEL := by
      obtain ⟨t, -, htail⟩ := tailPtr_mem hg.nonempty
      rw [htail]
      exact succ_ne_sentinel t
    rw [List.flatten_cons, List.length_append] at hgroup
    rw [allTxs, hhead, if_pos hptr, h.prevGroup_cur,
      groupTxs_eq hg.txs hg.nonempty (by omega),
      ih (List.append_cons after g gs ▸ h) (by simpa using hfuel) (by omega)]
    rfl

theorem prevGroup_sentinel (h : Holds deps worth e gs) :
    (e.at SENTINEL).prevGroup = headPtr gs := by
  have hchain : GroupChain e (SENTINEL :: (gs.map tailPtr ++ [SENTINEL])) := h.chain
  cases gs with
  | nil => exact (List.isChain_cons_cons.1 hchain).1
  | cons g gs => exact (List.isChain_cons_cons.1 hchain).1

end Holds

end Groups

/-! ## A new transaction -/

/-- The dependencies of a transaction in a pass. -/
def passDeps (depgraph : DepGraph) (rev : Bool) (idx : ℕ) : Finset ℕ :=
  if rev then depgraph.descendants idx else depgraph.ancestors idx

/-- Fee and size of a transaction in a pass. -/
def passWorth (depgraph : DepGraph) (rev : Bool) (idx : ℕ) : Worth :=
  if rev then (-(depgraph.feeRate idx).fee, (depgraph.feeRate idx).size)
  else ((depgraph.feeRate idx).fee, (depgraph.feeRate idx).size)

/-- The groups of a pass over the given order. -/
def passGroups (depgraph : DepGraph) (rev : Bool) (order : List ℕ) : List (List ℕ) :=
  pass (passWorth depgraph rev) (fun a b => b ∈ passDeps depgraph rev a) order

/-- The entries hold the groups in a pass. -/
abbrev PassHolds (depgraph : DepGraph) (rev : Bool) : TxEntries → List (List ℕ) → Prop :=
  Holds (passDeps depgraph rev) (passWorth depgraph rev)

section Pass

variable {depgraph : DepGraph} {rev : Bool}

/-- The entries with a new group at the back. -/
def pushSingle (depgraph : DepGraph) (rev : Bool) (e : TxEntries) (idx : ℕ) : TxEntries :=
  (e.modify (idx + 1) fun _ => singleGroup depgraph rev idx (e.at SENTINEL).prevGroup).modify
    SENTINEL fun sentinel => { sentinel with prevGroup := idx + 1 }

variable {e : TxEntries}

theorem pushSingle_at (depgraph : DepGraph) (rev : Bool) {idx : ℕ}
    (hidx : idx + 1 < e.length) (j : ℕ) : (pushSingle depgraph rev e idx).at j =
      if j = SENTINEL then { e.at j with prevGroup := idx + 1 }
      else if j = idx + 1 then singleGroup depgraph rev idx (e.at SENTINEL).prevGroup
      else e.at j := by
  have hroom : SENTINEL < e.length := Nat.zero_lt_of_lt hidx
  unfold pushSingle
  rw [txEntries_at_modify (by rwa [txEntries_length_modify]), txEntries_at_modify hidx]
  by_cases hj : j = SENTINEL
  · have hne : j ≠ idx + 1 := by
      rw [hj]
      exact (succ_ne_sentinel idx).symm
    rw [if_pos hj, if_pos hj, if_neg hne]
  · rw [if_neg hj, if_neg hj]

theorem pushSingle_length (e : TxEntries) (idx : ℕ) :
    (pushSingle depgraph rev e idx).length = e.length := by
  simp only [pushSingle, txEntries_length_modify]

variable {gs : List (List ℕ)}

theorem Holds.pushSingle {idx : ℕ}
    (h : PassHolds depgraph rev e gs) (hfresh : idx ∉ gs.flatten) (hidx : idx + 1 < e.length) :
    PassHolds depgraph rev (Analysis.pushSingle depgraph rev e idx) ([idx] :: gs) := by
  have hat := pushSingle_at depgraph rev hidx
  have hnew := hat (idx + 1)
  rw [if_neg (succ_ne_sentinel idx), if_pos rfl] at hnew
  have hold : ∀ t ∈ gs.flatten, (Analysis.pushSingle depgraph rev e idx).at (t + 1) =
      e.at (t + 1) := by
    intro t ht
    have hne : t + 1 ≠ idx + 1 := fun heq => hfresh (Nat.succ_injective heq ▸ ht)
    rw [hat, if_neg (succ_ne_sentinel t), if_neg hne]
  refine ⟨List.forall_mem_cons.2 ⟨?_, fun g hg => ?_⟩, ?_, ?_, ?_, ?_, ?_⟩
  · refine ⟨by simp, ⟨rfl, ?_⟩, ⟨idx, rfl, ?_⟩, ?_, ?_, ?_⟩
    · exact congrArg TxEntry.prevTx hnew
    · exact congrArg TxEntry.firstTx hnew
    · exact congrArg TxEntry.group hnew
    · refine (congrArg TxEntry.deps hnew).trans ?_
      simp [singleGroup, passDeps]
    · rw [total_cons, total_nil, add_zero, tailPtr, hnew]
      unfold singleGroup passWorth
      cases rev <;> rfl
  · exact (h.groups g hg).congr fun t ht => ⟨_, hold t (List.mem_flatten_of_mem hg ht)⟩
  · refine List.isChain_cons_cons.2 ⟨?_, ?_⟩
    · rw [hat, if_pos rfl]
      rfl
    · obtain ⟨q, qs, hway⟩ : ∃ q qs, gs.map tailPtr ++ [SENTINEL] = q :: qs :=
        List.exists_cons_of_ne_nil (by simp)
      have hchain : GroupChain e (SENTINEL :: (gs.map tailPtr ++ [SENTINEL])) := h.chain
      rw [hway] at hchain
      obtain ⟨hfirst, htail⟩ := List.isChain_cons_cons.1 hchain
      have hin : ∀ p ∈ (q :: qs).dropLast, ∃ t ∈ gs.flatten, p = t + 1 := by
        intro p hp
        rw [← hway, List.dropLast_concat] at hp
        obtain ⟨g, hg, rfl⟩ := List.mem_map.1 hp
        obtain ⟨t, ht, htail⟩ := tailPtr_mem (h.groups g hg).nonempty
        exact ⟨t, List.mem_flatten_of_mem hg ht, htail⟩
      change GroupChain _ (tailPtr [idx] :: (gs.map tailPtr ++ [SENTINEL]))
      rw [hway]
      refine List.isChain_cons_cons.2 ⟨?_, GroupChain.congr htail fun p hp => ?_⟩
      · exact (congrArg TxEntry.prevGroup hnew).trans hfirst
      · obtain ⟨t, ht, rfl⟩ := hin p hp
        rw [hold t ht]
  · exact List.nodup_cons.2 ⟨hfresh, h.nodup⟩
  · rw [pushSingle_length]
    exact List.forall_mem_cons.2 ⟨hidx, h.bound⟩
  · rw [pushSingle_length]
    exact h.room
  · rw [hat, if_pos rfl]
    exact h.sentinel

section

variable (h : PassHolds depgraph rev e gs)

include h

theorem Holds.insertTx {idx fuel : ℕ} (hfresh : idx ∉ gs.flatten)
    (hidx : idx + 1 < e.length) (hfuel : gs.length < fuel) :
    ∃ e', PostLinearize.insertTx depgraph rev fuel e idx = some e' ∧
      PassHolds depgraph rev e'
        (bubble (passWorth depgraph rev) (fun a b => b ∈ passDeps depgraph rev a) [] [idx] gs) ∧
      e'.length = e.length := by
  have hpush : PassHolds depgraph rev
      (Analysis.pushSingle depgraph rev e idx) ([] ++ [idx] :: gs) := h.pushSingle hfresh hidx
  obtain ⟨e', he', hholds, hlen⟩ := hpush.mergeSwap hfuel
  refine ⟨e', ?_, hholds, hlen.trans (pushSingle_length e idx)⟩
  rw [← hpush.prevGroup_cur] at he'
  exact he'

/-- **The loop over the existing linearization** makes the groups of the pass. -/
theorem Holds.foldlM_insertTx {order : List ℕ} {fuel : ℕ}
    (hnodup : (gs.flatten ++ order).Nodup) (hbound : ∀ idx ∈ order, idx + 1 < e.length)
    (hfuel : (gs.flatten ++ order).length < fuel) :
    ∃ e', order.foldlM (PostLinearize.insertTx depgraph rev fuel) e = some e' ∧
      PassHolds depgraph rev e'
        (passOnto (passWorth depgraph rev) (fun a b => b ∈ passDeps depgraph rev a) gs order) ∧
      e'.length = e.length := by
  induction order generalizing e gs with
  | nil => exact ⟨e, rfl, h, rfl⟩
  | cons idx order ih =>
    have hfresh : idx ∉ gs.flatten := fun hmem =>
      (List.nodup_append.1 hnodup).2.2 idx hmem idx List.mem_cons_self rfl
    have hcount : gs.length < fuel := by
      have hle := h.length_le
      rw [List.length_append] at hfuel
      omega
    obtain ⟨e₁, he₁, h₁, hlen₁⟩ := h.insertTx hfresh (hbound idx List.mem_cons_self) hcount
    have hperm : ((bubble (passWorth depgraph rev) (fun a b => b ∈ passDeps depgraph rev a)
        [] [idx] gs).flatten ++ order).Perm (([] ++ [idx] :: gs).flatten ++ order) :=
      (bubble_perm [] [idx] gs).append_right order
    have hmove : (gs.flatten ++ idx :: order).Perm (([] ++ [idx] :: gs).flatten ++ order) := by
      simp only [List.nil_append, List.flatten_cons, List.cons_append]
      exact List.perm_middle
    have hall := hperm.trans hmove.symm
    obtain ⟨e₂, he₂, h₂, hlen₂⟩ := ih h₁ (hall.nodup_iff.2 hnodup)
      (fun i hi => hlen₁.symm ▸ hbound i (List.mem_cons_of_mem idx hi))
      (hall.length_eq.symm ▸ hfuel)
    refine ⟨e₂, ?_, h₂, hlen₂.trans hlen₁⟩
    rw [List.foldlM_cons, he₁]
    exact he₂

end

/-- The order in which a pass reads the linearization. -/
def passOrder (rev : Bool) (linearization : List ℕ) : List ℕ :=
  if rev then linearization.reverse else linearization

/-- The linearization that a pass leaves. -/
def passResult (depgraph : DepGraph) (rev : Bool) (linearization : List ℕ) : List ℕ :=
  if rev then (passGroups depgraph rev linearization.reverse).flatten
  else (passGroups depgraph rev linearization).flatten.reverse

theorem passOrder_perm (rev : Bool) (linearization : List ℕ) :
    (passOrder rev linearization).Perm linearization := by
  cases rev with
  | false => exact List.Perm.refl _
  | true => exact List.reverse_perm _

/-- **One pass over linked lists is one pass over groups.** -/
theorem onePass_eq (depgraph : DepGraph) (rev : Bool) {linearization : List ℕ}
    (hsentinel : (e.at SENTINEL).feerate = FeeFrac.empty) (hroom : SENTINEL < e.length)
    (hnodup : linearization.Nodup) (hbound : ∀ idx ∈ linearization, idx + 1 < e.length) :
    ∃ e', onePass depgraph rev e linearization = some (e', passResult depgraph rev linearization) ∧
      (e'.at SENTINEL).feerate = FeeFrac.empty ∧ e'.length = e.length := by
  have hperm := passOrder_perm rev linearization
  have hat := txEntries_at_modify hroom fun sentinel => { sentinel with prevGroup := SENTINEL }
  have hlen := txEntries_length_modify e SENTINEL
    fun sentinel => { sentinel with prevGroup := SENTINEL }
  have hstart : PassHolds depgraph rev
      (e.modify SENTINEL fun sentinel => { sentinel with prevGroup := SENTINEL }) [] := by
    refine ⟨by simp, ?_, by simp, by simp, hlen ▸ hroom, ?_⟩
    · refine List.isChain_cons_cons.2 ⟨?_, List.IsChain.singleton _⟩
      rw [hat, if_pos rfl]
    · rw [hat, if_pos rfl]
      exact hsentinel
  obtain ⟨e', he', hholds, hlen'⟩ : ∃ e', (passOrder rev linearization).foldlM
      (PostLinearize.insertTx depgraph rev (linearization.length + 1))
      (e.modify SENTINEL fun sentinel => { sentinel with prevGroup := SENTINEL }) = some e' ∧
      PassHolds depgraph rev e'
        (passGroups depgraph rev (passOrder rev linearization)) ∧ _ :=
    hstart.foldlM_insertTx (by simpa using hperm.nodup_iff.2 hnodup)
      (fun idx hidx => hlen ▸ hbound idx (hperm.mem_iff.1 hidx)) (by simp [hperm.length_eq])
  have hcount : (passGroups depgraph rev (passOrder rev linearization)).flatten.length =
      linearization.length :=
    ((pass_perm (passOrder rev linearization)).trans hperm).length_eq
  have htxs : allTxs (linearization.length + 1) (linearization.length + 1) e'
      (e'.at SENTINEL).prevGroup =
        some (passGroups depgraph rev (passOrder rev linearization)).flatten := by
    have hle := hholds.length_le
    have hall : PassHolds depgraph rev e'
        ([] ++ passGroups depgraph rev (passOrder rev linearization)) := hholds
    rw [hholds.prevGroup_sentinel]
    exact hall.allTxs_eq (by omega) (by omega)
  have hwrite : writeBack rev linearization
      (passGroups depgraph rev (passOrder rev linearization)).flatten =
        passResult depgraph rev linearization := by
    unfold writeBack passResult
    rw [hcount, List.drop_length, Nat.sub_self, List.take_zero, List.append_nil, List.nil_append]
    cases rev <;> rfl
  refine ⟨e', ?_, hholds.sentinel, hlen'.trans hlen⟩
  rw [← hwrite]
  change ((passOrder rev linearization).foldlM _ _ >>= _) = _
  rw [he']
  change (allTxs _ _ _ _ >>= _) = _
  rw [htxs]
  rfl

end Pass

end BitMinti.Analysis
