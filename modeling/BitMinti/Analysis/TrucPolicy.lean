import BitMinti.Interface.TrucPolicy

/-!
# The topology of version 3 transactions

In the mempools of the runs without reorganisations, version 3 transactions stand alone or in pairs
of a parent and a child.  The invariant says so edge by edge.  What `SingleTRUCChecks` and
`PackageTRUCChecks` ask of a transaction is one condition on the pool that it joins: for a
single transaction the pool without its conflicts, for a transaction of a package the pool with
the earlier ones.

SOURCE: src/src/policy/truc_policy.cpp:58-262
-/

set_option autoImplicit false

namespace BitMinti.Analysis

open BitMinti.Computation Model Interface

/-! ## Pairs -/

/-- The version 3 transactions of the pool stand alone or in pairs. -/
structure Paired (pool : List PolicyTx) : Prop where
  irreflexive : ∀ e ∈ pool, e.spends e = false
  versions : ∀ p c, ParentOf pool p c → (p.version = TRUC_VERSION ↔ c.version = TRUC_VERSION)
  parent : ∀ p q c, c.version = TRUC_VERSION → ParentOf pool p c → ParentOf pool q c → p = q
  child : ∀ p c d, p.version = TRUC_VERSION → ParentOf pool p c → ParentOf pool p d → c = d
  short : ∀ g p c, p.version = TRUC_VERSION → ParentOf pool g p → ¬ParentOf pool p c
  size : ∀ e ∈ pool, e.version = TRUC_VERSION → e.vsize ≤ TRUC_MAX_VSIZE
  childSize : ∀ p c, ParentOf pool p c → c.version = TRUC_VERSION →
    c.vsize ≤ TRUC_CHILD_MAX_VSIZE

variable {pool pool' kept before after txs : List PolicyTx} {tx p d : PolicyTx}
  {conflicts : List Uint256}

theorem parentOf_mono (hsub : kept ⊆ pool) (h : ParentOf kept p tx) : ParentOf pool p tx :=
  ⟨hsub h.1, hsub h.2.1, h.2.2⟩

theorem Paired.mono (h : Paired pool) (hsub : kept ⊆ pool) : Paired kept where
  irreflexive e he := h.irreflexive e (hsub he)
  versions p c hpc := h.versions p c (parentOf_mono hsub hpc)
  parent p q c hc hp hq := h.parent p q c hc (parentOf_mono hsub hp) (parentOf_mono hsub hq)
  child p c d hp hc hd := h.child p c d hp (parentOf_mono hsub hc) (parentOf_mono hsub hd)
  short g p c hp hg hc := h.short g p c hp (parentOf_mono hsub hg) (parentOf_mono hsub hc)
  size e he := h.size e (hsub he)
  childSize p c hpc := h.childSize p c (parentOf_mono hsub hpc)

/-- A proper descendant of a version 3 transaction is its child. -/
theorem Paired.child_of_descendant (h : Paired pool) (htx : tx.version = TRUC_VERSION)
    (hd : Relation.TransGen (ParentOf pool) tx d) : ParentOf pool tx d := by
  induction hd with
  | single hd => exact hd
  | tail _ hlast ih =>
    exact absurd hlast (h.short _ _ _ ((h.versions _ _ ih).mp htx) ih)

/-- A proper ancestor of a version 3 transaction is its parent. -/
theorem Paired.parent_of_ancestor (h : Paired pool) (htx : tx.version = TRUC_VERSION)
    (hp : Relation.TransGen (ParentOf pool) p tx) : ParentOf pool p tx := by
  induction hp using Relation.TransGen.head_induction_on with
  | single hp => exact hp
  | head hfirst _ ih =>
    exact absurd ih (h.short _ _ _ ((h.versions _ _ ih).mpr htx) hfirst)

theorem Paired.topology (h : Paired pool) : TrucTopology pool where
  versions := h.versions
  ancestors := fun tx _ hv _ ha _ hb =>
    h.parent _ _ tx hv (h.parent_of_ancestor hv ha) (h.parent_of_ancestor hv hb)
  descendants := fun tx _ hv _ ha _ hb =>
    h.child tx _ _ hv (h.child_of_descendant hv ha) (h.child_of_descendant hv hb)
  size := h.size
  childSize := h.childSize

/-! ## A transaction that joins the pool -/

/-- The parents of a version 3 transaction that may join: there is at most one, which has neither
a parent nor a child. -/
structure OnlyParent (pool : List PolicyTx) (tx p : PolicyTx) : Prop where
  size : tx.vsize ≤ TRUC_CHILD_MAX_VSIZE
  only : ∀ q ∈ pool, tx.spends q = true → q = p
  orphan : ∀ g ∈ pool, p.spends g = false
  childless : ∀ c ∈ pool, c.spends p = false

/-- What the checks ask of a transaction that joins the pool. -/
structure Fits (pool : List PolicyTx) (tx : PolicyTx) : Prop where
  versions : ∀ p ∈ pool, tx.spends p = true →
    (p.version = TRUC_VERSION ↔ tx.version = TRUC_VERSION)
  size : tx.version = TRUC_VERSION → tx.vsize ≤ TRUC_MAX_VSIZE
  parents : tx.version = TRUC_VERSION → ∀ p ∈ pool, tx.spends p = true → OnlyParent pool tx p

/-- A transaction that enters gets parents, but no child. -/
theorem parentOf_concat (henters : Enters pool tx) {p c : PolicyTx}
    (h : ParentOf (pool ++ [tx]) p c) :
    ParentOf pool p c ∨ (p ∈ pool ∧ c = tx ∧ tx.spends p = true) := by
  obtain ⟨hp, hc, hspends⟩ := h
  rw [List.mem_append, List.mem_singleton] at hp hc
  obtain hp | rfl := hp
  · obtain hc | rfl := hc
    · exact Or.inl ⟨hp, hc, hspends⟩
    · exact Or.inr ⟨hp, rfl, hspends⟩
  · obtain hc | rfl := hc
    · exact absurd hspends (by simp [henters.unspent c hc])
    · exact absurd hspends (by simp [henters.irreflexive])

/-- **A transaction that fits keeps the pairs.** -/
theorem Paired.concat (h : Paired pool) (henters : Enters pool tx) (hfits : Fits pool tx) :
    Paired (pool ++ [tx]) where
  irreflexive e he := by
    obtain he | he := List.mem_append.mp he
    · exact h.irreflexive e he
    · exact List.mem_singleton.mp he ▸ henters.irreflexive
  versions p c hpc := by
    obtain hpc | ⟨hp, rfl, hspends⟩ := parentOf_concat henters hpc
    · exact h.versions p c hpc
    · exact hfits.versions p hp hspends
  parent p q c hc hp hq := by
    obtain hp' | ⟨hp', rfl, hspends⟩ := parentOf_concat henters hp
    · obtain hq' | ⟨-, rfl, -⟩ := parentOf_concat henters hq
      · exact h.parent p q c hc hp' hq'
      · exact absurd rfl (henters.new c hp'.2.1)
    · obtain hq' | ⟨hq', -, hspends'⟩ := parentOf_concat henters hq
      · exact absurd rfl (henters.new c hq'.2.1)
      · exact ((hfits.parents hc p hp' hspends).only q hq' hspends').symm
  child p c d hp hc hd := by
    obtain hc' | ⟨hmem, hctx, hspends⟩ := parentOf_concat henters hc
    · obtain hd' | ⟨hmem, -, hspends⟩ := parentOf_concat henters hd
      · exact h.child p c d hp hc' hd'
      · have htx := (hfits.versions p hmem hspends).mp hp
        have hno := (hfits.parents htx p hmem hspends).childless c hc'.2.1
        exact absurd hc.2.2 (by simp [hno])
    · obtain hd' | ⟨-, hdtx, -⟩ := parentOf_concat henters hd
      · have htx := (hfits.versions p hmem hspends).mp hp
        have hno := (hfits.parents htx p hmem hspends).childless d hd'.2.1
        exact absurd hd.2.2 (by simp [hno])
      · rw [hctx, hdtx]
  short g p c hp hg hc := by
    obtain hg' | ⟨-, rfl, -⟩ := parentOf_concat henters hg
    · obtain hc' | ⟨hmem, -, hspends⟩ := parentOf_concat henters hc
      · exact h.short g p c hp hg' hc'
      · have htx := (hfits.versions p hmem hspends).mp hp
        have hno := (hfits.parents htx p hmem hspends).orphan g hg'.1
        exact absurd hg.2.2 (by simp [hno])
    · obtain hc' | ⟨hmem, -, -⟩ := parentOf_concat henters hc
      · exact henters.new p hc'.1 rfl
      · exact henters.new p hmem rfl
  size e he hv := by
    obtain he | he := List.mem_append.mp he
    · exact h.size e he hv
    · obtain rfl := List.mem_singleton.mp he
      exact hfits.size hv
  childSize p c hpc hv := by
    obtain hpc | ⟨hp, rfl, hspends⟩ := parentOf_concat henters hpc
    · exact h.childSize p c hpc hv
    · exact (hfits.parents hv p hp hspends).size

/-! ## What the counts say -/

theorem eq_of_length_le_one {l : List PolicyTx} (hlen : l.length ≤ 1) {a b : PolicyTx}
    (ha : a ∈ l) (hb : b ∈ l) : a = b := by
  obtain ⟨y, hy⟩ := List.length_eq_one_iff.mp (Nat.le_antisymm hlen (List.length_pos_of_mem ha))
  rw [hy, List.mem_singleton] at ha hb
  rw [ha, hb]

theorem orphan_of_count (h : Paired pool) (hp : p ∈ pool) (hcount : getAncestorCount pool p ≤ 1)
    {g : PolicyTx} (hg : g ∈ pool) : p.spends g = false := by
  by_contra hspends
  rw [Bool.not_eq_false] at hspends
  have hself := edge_self_of_reached_length hp hg hspends hcount
  rw [hself, h.irreflexive p hp] at hspends
  exact Bool.false_ne_true hspends

theorem childless_of_count (h : Paired pool) (hp : p ∈ pool)
    (hcount : getDescendantCount pool p ≤ 1) {c : PolicyTx} (hc : c ∈ pool) :
    c.spends p = false := by
  by_contra hspends
  rw [Bool.not_eq_false] at hspends
  have hself := edge_self_of_reached_length hp hc hspends hcount
  rw [hself, h.irreflexive p hp] at hspends
  exact Bool.false_ne_true hspends

/-- A descendant other than the transaction itself is a proper one. -/
theorem transGen_of_mem_getDescendants (hp : p ∈ pool) (hd : d ∈ getDescendants pool [p])
    (hne : d ≠ p) : Relation.TransGen (ParentOf pool) p d := by
  obtain ⟨a, ha, hpath⟩ := path_of_mem_reached hd
  obtain rfl := List.mem_singleton.mp ha
  have hlift : d ∈ pool ∧ Relation.ReflTransGen (ParentOf pool) a d := by
    clear hd hne
    induction hpath with
    | refl => exact ⟨hp, .refl⟩
    | tail _ hlast ih => exact ⟨hlast.2, ih.2.tail ⟨ih.1, hlast.2, hlast.1⟩⟩
  exact (Relation.reflTransGen_iff_eq_or_transGen.mp hlift.2).resolve_left hne

theorem not_mem_removeConflicts (hd : d ∈ pool) (hconflict : d.txid ∈ conflicts) :
    d ∉ removeConflicts pool conflicts := by
  have hmem : d ∈ getDescendants pool (pool.filter fun e => decide (e.txid ∈ conflicts)) :=
    mem_reached_of_mem hd (by simp [hd, hconflict])
  simp [removeConflicts, hmem]

theorem removeConflicts_subset : removeConflicts pool conflicts ⊆ pool :=
  List.filter_subset_self _

/-! ## Single transactions -/

variable {parents : List PolicyTx}

theorem versions_of_checkInheritance (h : checkInheritance tx parents = none) (hp : p ∈ parents) :
    p.version = TRUC_VERSION ↔ tx.version = TRUC_VERSION := by
  have hentry := List.findSome?_eq_none_iff.mp h p hp
  by_cases htx : tx.version = TRUC_VERSION <;> by_cases hv : p.version = TRUC_VERSION <;>
    simp [htx, hv] at hentry ⊢

/-- The version 3 part of `SingleTRUCChecks`: the parent is alone, or its child is among the
conflicts. -/
theorem singleTRUCChecks_truc
    (h : singleTRUCChecks pool tx parents conflicts = none) (htx : tx.version = TRUC_VERSION) :
    tx.vsize ≤ TRUC_MAX_VSIZE ∧ parents.length ≤ 1 ∧ ∀ p ∈ parents,
      getAncestorCount pool p ≤ 1 ∧ tx.vsize ≤ TRUC_CHILD_MAX_VSIZE ∧
      (getDescendantCount pool p ≤ 1 ∨
        ∃ d ∈ getDescendants pool [p], d ≠ p ∧ d.txid ∈ conflicts) := by
  unfold singleTRUCChecks at h
  simp only [htx, ne_eq, not_true_eq_false, if_false] at h
  split at h
  · exact absurd h (by simp)
  have hbig : ¬tx.vsize > TRUC_MAX_VSIZE := fun hbig => absurd h (by simp [hbig])
  have hmany : ¬parents.length + 1 > TRUC_ANCESTOR_LIMIT := fun hmany =>
    absurd h (by simp [hbig, hmany])
  rw [if_neg hbig, if_neg hmany] at h
  simp only [TRUC_ANCESTOR_LIMIT] at hmany
  refine ⟨by omega, by omega, ?_⟩
  intro p hp
  cases parents with
  | nil => exact absurd hp (by simp)
  | cons parent rest =>
    have hrest : p = parent := eq_of_length_le_one (by omega) hp (by simp)
    subst hrest
    simp only at h
    split_ifs at h with hanc hchild hdesc
    simp only [TRUC_ANCESTOR_LIMIT] at hanc
    refine ⟨by omega, by omega, ?_⟩
    simp only [TRUC_DESCENDANT_LIMIT, not_and, not_not] at hdesc
    by_cases hcount : getDescendantCount pool p ≤ 1
    · exact Or.inl hcount
    · have hany := hdesc (by omega)
      simp only [List.any_eq_true, List.mem_filter, decide_eq_true_eq] at hany
      obtain ⟨d, ⟨hd, hne⟩, hconflict⟩ := hany
      exact Or.inr ⟨d, hd, by simpa using hne, hconflict⟩

/-- **A single transaction that passes fits into the pool without its conflicts.** -/
theorem fits_of_singleTRUCChecks (hpaired : Paired pool)
    (h : singleTRUCChecks pool tx (getParents pool tx) conflicts = none) :
    Fits (removeConflicts pool conflicts) tx := by
  have hparent : ∀ p ∈ removeConflicts pool conflicts, tx.spends p = true →
      p ∈ pool ∧ p ∈ getParents pool tx := fun p hp hspends =>
    ⟨removeConflicts_subset hp, by simp [getParents, removeConflicts_subset hp, hspends]⟩
  have hversions : ∀ p ∈ getParents pool tx,
      (p.version = TRUC_VERSION ↔ tx.version = TRUC_VERSION) := by
    intro p hp
    unfold singleTRUCChecks at h
    split at h
    · exact absurd h (by simp)
    · exact versions_of_checkInheritance (by assumption) hp
  refine ⟨fun p hp hspends => hversions p (hparent p hp hspends).2,
    fun htx => (singleTRUCChecks_truc h htx).1, ?_⟩
  intro htx p hp hspends
  obtain ⟨-, hlen, hall⟩ := singleTRUCChecks_truc h htx
  obtain ⟨hpool, hmem⟩ := hparent p hp hspends
  obtain ⟨hanc, hsize, hdesc⟩ := hall p hmem
  refine ⟨hsize, fun q hq hq' => eq_of_length_le_one hlen (hparent q hq hq').2 hmem,
    fun g hg => orphan_of_count hpaired hpool hanc (removeConflicts_subset hg), ?_⟩
  intro c hc
  have hcpool := removeConflicts_subset hc
  obtain hcount | ⟨d, hd, hne, hconflict⟩ := hdesc
  · exact childless_of_count hpaired hpool hcount hcpool
  · by_contra hspends'
    rw [Bool.not_eq_false] at hspends'
    -- the parent has one child, which is `d`, and `d` is removed
    have hv := (hversions p hmem).mpr htx
    have hpd := hpaired.child_of_descendant hv (transGen_of_mem_getDescendants hpool hd hne)
    have heq := hpaired.child p c d hv ⟨hpool, hcpool, hspends'⟩ hpd
    exact not_mem_removeConflicts hpd.2.1 hconflict (heq ▸ hc)

/-! ## Packages -/

theorem enters_of_entersAll (h : EntersAll pool (before ++ tx :: after)) :
    Enters (pool ++ before) tx := by
  induction before generalizing pool with
  | nil => simpa using h.1
  | cons t before ih => simpa using ih h.2

/-- Nothing in the pool spends from a transaction of the package. -/
theorem unspent_of_mem (h : EntersAll pool txs) {e t : PolicyTx} (he : e ∈ pool) (ht : t ∈ txs) :
    e.spends t = false := by
  obtain ⟨b, a, rfl⟩ := List.append_of_mem ht
  exact (enters_of_entersAll h).unspent e (List.mem_append_left b he)

/-- A transaction of the package spends from the pool and from earlier transactions only. -/
theorem mem_before_of_spends (h : EntersAll pool (before ++ tx :: after))
    (hp : p ∈ pool ++ (before ++ tx :: after)) (hspends : tx.spends p = true) :
    p ∈ pool ++ before := by
  simp only [List.mem_append, List.mem_cons] at hp ⊢
  obtain hp | hp | rfl | hp := hp
  · exact Or.inl hp
  · exact Or.inr hp
  · exact absurd hspends (by simp [(enters_of_entersAll h).irreflexive])
  · obtain ⟨b, a, rfl⟩ := List.append_of_mem hp
    have hsplit : before ++ tx :: (b ++ p :: a) = (before ++ tx :: b) ++ p :: a := by simp
    rw [hsplit] at h
    exact absurd hspends (by simp [(enters_of_entersAll h).unspent tx (by simp)])

theorem checkPackageRelatives_none {others : List PolicyTx}
    (h : checkPackageRelatives others tx p = none) {other : PolicyTx} (hother : other ∈ others) :
    other.spends p = false ∧ other.spends tx = false := by
  have hall := List.findSome?_eq_none_iff.mp (List.findSome?_eq_none_iff.mp h other hother)
  have hne : ∀ hash ∈ other.prevouts, hash ≠ p.txid ∧ hash ≠ tx.txid := by
    intro hash hmem
    have := hall hash hmem
    split_ifs at this with hp htx
    exact ⟨hp, htx⟩
  simp only [PolicyTx.spends, decide_eq_false_iff_not]
  exact ⟨fun hmem => (hne _ hmem).1 rfl, fun hmem => (hne _ hmem).2 rfl⟩

/-- What `PackageTRUCChecks` says of the parent of a version 3 transaction. -/
structure PackageParent (pool parents others : List PolicyTx) (tx p : PolicyTx) : Prop where
  version : p.version = TRUC_VERSION
  size : tx.vsize ≤ TRUC_CHILD_MAX_VSIZE
  counts : p ∈ parents → getAncestorCount pool p ≤ 1 ∧ getDescendantCount pool p ≤ 1
  others : ∀ other ∈ others, other.spends p = false ∧ other.spends tx = false

/-- The version 3 part of `PackageTRUCChecks`. -/
theorem packageTRUCChecks_truc {i : ℕ}
    (h : packageTRUCChecks pool txs i tx parents = none) (htx : tx.version = TRUC_VERSION) :
    tx.vsize ≤ TRUC_MAX_VSIZE ∧ (parents ++ findInPackageParents txs i tx).length ≤ 1 ∧
      ∀ p ∈ parents ++ findInPackageParents txs i tx,
        PackageParent pool parents (txs.eraseIdx i) tx p := by
  unfold packageTRUCChecks at h
  simp only [htx, if_true] at h
  have hbig : ¬tx.vsize > TRUC_MAX_VSIZE := fun hbig => absurd h (by simp [hbig])
  have hmany : ¬parents.length + (findInPackageParents txs i tx).length + 1 >
      TRUC_ANCESTOR_LIMIT := fun hmany => absurd h (by simp [hbig, hmany])
  rw [if_neg hbig, if_neg hmany] at h
  simp only [TRUC_ANCESTOR_LIMIT] at hmany
  have hlen : (parents ++ findInPackageParents txs i tx).length ≤ 1 := by
    rw [List.length_append]
    omega
  refine ⟨by omega, hlen, ?_⟩
  intro p hp
  generalize findInPackageParents txs i tx = inPackage at h hlen hp
  match parents, inPackage with
  | [], [] => exact absurd hp (by simp)
  | parent :: rest, _ =>
    obtain rfl : p = parent := eq_of_length_le_one hlen hp (by simp)
    cases hrelatives : checkPackageRelatives (txs.eraseIdx i) tx p with
    | some message => exact absurd h (by simp only [hrelatives]; split_ifs <;> simp)
    | none =>
      simp only [hrelatives] at h
      split_ifs at h with hanc hchild hversion hdesc
      simp only [TRUC_ANCESTOR_LIMIT] at hanc
      exact ⟨not_not.mp hversion, by omega, fun _ => ⟨by omega, by omega⟩,
        fun other hother => checkPackageRelatives_none hrelatives hother⟩
  | [], parent :: rest =>
    obtain rfl : p = parent := eq_of_length_le_one hlen hp (by simp)
    simp only at h
    split_ifs at h with hchild hversion
    exact ⟨not_not.mp hversion, by omega, fun hmem => absurd hmem (by simp),
      fun other hother => checkPackageRelatives_none h hother⟩

/-- The versions of all parents, in the pool and in the package. -/
theorem packageTRUCChecks_versions {i : ℕ} (h : packageTRUCChecks pool txs i tx parents = none)
    (hp : p ∈ parents ++ findInPackageParents txs i tx) :
    p.version = TRUC_VERSION ↔ tx.version = TRUC_VERSION := by
  by_cases htx : tx.version = TRUC_VERSION
  · exact iff_of_true ((packageTRUCChecks_truc h htx).2.2 p hp).version htx
  · unfold packageTRUCChecks at h
    simp only [htx, if_false] at h
    have hother := List.findSome?_eq_none_iff.mp h p hp
    exact iff_of_false (fun hv => absurd hother (by simp [hv])) htx

/-- The parents that the check of a package's transaction sees. -/
theorem mem_packageParents (after : List PolicyTx) (hp : p ∈ pool ++ before)
    (hspends : tx.spends p = true) :
    p ∈ getParents pool tx ++
      findInPackageParents (before ++ tx :: after) before.length tx := by
  simpa [getParents, findInPackageParents, hspends] using hp

theorem eraseIdx_place : (before ++ tx :: after).eraseIdx before.length = before ++ after := by
  simp [List.eraseIdx_append_of_length_le]

/-- **A transaction of a package fits into the pool with the earlier ones.**  If its parent is in
the package, the parent's own check has seen that the parent has a child there, so that it has no
parent. -/
theorem fits_of_packageTRUCChecks (hpaired : Paired pool)
    (henters : EntersAll pool (before ++ tx :: after))
    (h : ∀ b t a, before ++ tx :: after = b ++ t :: a →
      packageTRUCChecks pool (before ++ tx :: after) b.length t (getParents pool t) = none) :
    Fits (pool ++ before) tx := by
  have hcheck := h before tx after rfl
  refine ⟨fun p hp hspends => packageTRUCChecks_versions hcheck (mem_packageParents _ hp hspends),
    fun htx => (packageTRUCChecks_truc hcheck htx).1, ?_⟩
  intro htx p hp hspends
  obtain ⟨-, hlen, hall⟩ := packageTRUCChecks_truc hcheck htx
  have hmem := mem_packageParents after hp hspends
  have hparent := hall p hmem
  rw [eraseIdx_place] at hparent
  refine ⟨hparent.size, fun q hq hq' => eq_of_length_le_one hlen (mem_packageParents _ hq hq') hmem,
    ?_, ?_⟩
  · intro g hg
    by_contra hg'
    rw [Bool.not_eq_false] at hg'
    obtain hp | hp := List.mem_append.mp hp
    · obtain hg | hg := List.mem_append.mp hg
      · have hcounts := hparent.counts (by simp [getParents, hp, hspends])
        exact absurd hg' (by simp [orphan_of_count hpaired hp hcounts.1 hg])
      · exact absurd hg' (by simp [unspent_of_mem henters hp (List.mem_append_left _ hg)])
    · obtain ⟨b, a, rfl⟩ := List.append_of_mem hp
      have hsplit : b ++ p :: a ++ tx :: after = b ++ p :: (a ++ tx :: after) := by simp
      rw [hsplit] at henters h
      have hseen := mem_packageParents (a ++ tx :: after)
        (mem_before_of_spends henters (by simp at hg ⊢; tauto) hg') hg'
      have hown := (packageTRUCChecks_truc (h b p _ rfl) hparent.version).2.2 g hseen
      rw [eraseIdx_place] at hown
      exact absurd hspends (by simp [(hown.others tx (by simp)).2])
  · intro c hc
    obtain hc | hc := List.mem_append.mp hc
    · obtain hp | hp := List.mem_append.mp hp
      · have hcounts := hparent.counts (by simp [getParents, hp, hspends])
        exact childless_of_count hpaired hp hcounts.2 hc
      · exact unspent_of_mem henters hc (List.mem_append_left _ hp)
    · exact (hparent.others c (by simp [hc])).1

theorem Paired.append (hpaired : Paired pool) (henters : EntersAll pool txs)
    (h : ∀ before tx after, txs = before ++ tx :: after →
      packageTRUCChecks pool txs before.length tx (getParents pool tx) = none) :
    Paired (pool ++ txs) := by
  suffices hprefix : ∀ after before, txs = before ++ after → Paired (pool ++ before) →
      Paired (pool ++ txs) from hprefix txs [] rfl (by simpa using hpaired)
  intro after
  induction after with
  | nil =>
    intro before htxs hbefore
    rwa [htxs, List.append_nil]
  | cons tx after ih =>
    intro before htxs hbefore
    subst htxs
    have hfits := fits_of_packageTRUCChecks hpaired henters h
    have hnext := hbefore.concat (enters_of_entersAll henters) hfits
    rw [List.append_assoc] at hnext
    exact ih (before ++ [tx]) (by simp) hnext

/-! ## Runs -/

theorem Paired.step (hpaired : Paired pool) (h : TrucStep pool pool') : Paired pool' := by
  cases h with
  | single tx conflicts enters passes =>
    exact (hpaired.mono removeConflicts_subset).concat enters
      (fits_of_singleTRUCChecks hpaired passes)
  | package txs enters passes => exact hpaired.append enters passes
  | remove _ sub => exact hpaired.mono sub.subset

theorem paired_nil : Paired [] where
  irreflexive := by simp
  versions := by simp [ParentOf]
  parent := by simp [ParentOf]
  child := by simp [ParentOf]
  short := by simp [ParentOf]
  size := by simp
  childSize := by simp [ParentOf]

/-- **The version 3 topology holds in every run without reorganisations.** -/
theorem trucTopology_of_reachable (pool : List PolicyTx) (h : TrucReachable pool) :
    TrucTopology pool := by
  have hpaired : Paired pool := by
    induction h with
    | refl => exact paired_nil
    | tail _ hstep ih => exact ih.step hstep
  exact hpaired.topology

/-- A version 3 transaction and its child, each as large as it may be. -/
def trucParent : PolicyTx := ⟨1#256, 1#256, TRUC_VERSION, TRUC_MAX_VSIZE, []⟩
def trucChild : PolicyTx := ⟨2#256, 2#256, TRUC_VERSION, TRUC_CHILD_MAX_VSIZE, [1#256]⟩

theorem trucTopology_of_reachable_child : TrucTopology [trucParent, trucChild] := by
  have hparent : TrucStep [] [trucParent] :=
    .single [] trucParent [] ⟨by decide, by decide, by decide⟩ (by decide)
  have hchild : TrucStep [trucParent] [trucParent, trucChild] :=
    .single [trucParent] trucChild [] ⟨by decide, by decide, by decide⟩ (by decide)
  exact trucTopology_of_reachable _ ((Relation.ReflTransGen.single hparent).tail hchild)

end BitMinti.Analysis
