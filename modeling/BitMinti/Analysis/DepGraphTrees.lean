import BitMinti.Analysis.DepGraph

/-!
# Trees among dependency graphs

The reduced parents of a transaction reach all its other ancestors.  Where every transaction has at
most one, the ancestors of any transaction form a chain; in the same way for children and
descendants.  A graph that is built has the closure of its dependencies.

SOURCE: src/src/cluster_linearize.h:129-241
-/

set_option autoImplicit false

namespace BitMinti.Analysis

open Model Interface Relation

section Reduced

variable {related : ℕ → Finset ℕ} {used : Finset ℕ}

/-- What the two relations of a graph have in common. -/
structure Ordering (related : ℕ → Finset ℕ) (used : Finset ℕ) : Prop where
  sub : ∀ i ∈ used, related i ⊆ used
  refl : ∀ i ∈ used, i ∈ related i
  trans : ∀ i ∈ used, ∀ j ∈ related i, related j ⊆ related i
  antisymm : ∀ i ∈ used, ∀ j ∈ related i, i ∈ related j → j = i

theorem reduce_covers (h : Ordering related used) {l : List ℕ} {ret : Finset ℕ} (hret : ret ⊆ used)
    {x : ℕ} (hx : ∃ r ∈ ret, x ∈ related r) :
    ∃ r ∈ l.foldl (fun ret j => if j ∈ ret then insert j (ret \ related j) else ret) ret,
      x ∈ related r := by
  induction l generalizing ret with
  | nil => exact hx
  | cons j l ih =>
    rw [List.foldl_cons]
    split
    next hj =>
      refine ih (Finset.insert_subset (hret hj) (Finset.sdiff_subset.trans hret)) ?_
      obtain ⟨r, hr, hxr⟩ := hx
      by_cases hrj : r ∈ related j
      · exact ⟨j, Finset.mem_insert_self j _, h.trans j (hret hj) r hrj hxr⟩
      · exact ⟨r, Finset.mem_insert_of_mem (Finset.mem_sdiff.2 ⟨hr, hrj⟩), hxr⟩
    · exact ih hret hx

theorem reduce_subset {l : List ℕ} {ret : Finset ℕ} :
    l.foldl (fun ret j => if j ∈ ret then insert j (ret \ related j) else ret) ret ⊆ ret := by
  induction l generalizing ret with
  | nil => exact Finset.Subset.refl ret
  | cons j l ih =>
    rw [List.foldl_cons]
    refine ih.trans ?_
    split
    next hj => exact Finset.insert_subset hj Finset.sdiff_subset
    · exact Finset.Subset.refl ret

theorem getReduced_spec (h : Ordering related used) {i : ℕ} (hi : i ∈ used) :
    DepGraph.getReduced related i ⊆ (related i).erase i ∧
      ∀ x ∈ (related i).erase i, ∃ r ∈ DepGraph.getReduced related i, x ∈ related r := by
  refine ⟨reduce_subset, fun x hx => ?_⟩
  have hsub : (related i).erase i ⊆ used := (Finset.erase_subset _ _).trans (h.sub i hi)
  exact reduce_covers h hsub ⟨x, hx, h.refl x (hsub hx)⟩

theorem mem_elements {s : Finset ℕ} {i : ℕ} : i ∈ DepGraph.elements s ↔ i ∈ s := by
  simp only [DepGraph.elements, List.mem_filter, List.mem_range, decide_eq_true_eq,
    and_iff_right_iff_imp]
  exact Finset.le_sup (f := Nat.succ)

theorem reduce_apart {l : List ℕ} {ret : Finset ℕ} {j x : ℕ} (hj : j ∈ l)
    (hjr : j ∈ l.foldl (fun ret j => if j ∈ ret then insert j (ret \ related j) else ret) ret)
    (hx : x ∈ l.foldl (fun ret j => if j ∈ ret then insert j (ret \ related j) else ret) ret)
    (hxj : x ∈ related j) : x = j := by
  induction l generalizing ret with
  | nil => cases hj
  | cons k l ih =>
    rw [List.foldl_cons] at hjr hx
    rcases List.mem_cons.1 hj with rfl | hj
    · have hjr := reduce_subset hjr
      have hx := reduce_subset hx
      by_cases hret : j ∈ ret
      · rw [if_pos hret] at hx
        exact (Finset.mem_insert.1 hx).resolve_right fun h => (Finset.mem_sdiff.1 h).2 hxj
      · rw [if_neg hret] at hjr
        exact absurd hjr hret
    · exact ih hj hjr hx

/-- **The reduced relatives are the least that reach all others.** -/
theorem isLeast_getReduced (h : Ordering related used) {i : ℕ} (hi : i ∈ used) :
    IsLeast {s : Finset ℕ | s ⊆ related i ∧ s.biUnion related = (related i).erase i}
      (DepGraph.getReduced related i) := by
  obtain ⟨hsub, hreach⟩ := getReduced_spec h hi
  refine ⟨⟨hsub.trans (Finset.erase_subset _ _), ?_⟩, fun s hs r hr => ?_⟩
  · ext x
    rw [Finset.mem_biUnion]
    refine ⟨?_, hreach x⟩
    rintro ⟨r, hr, hx⟩
    obtain ⟨hri, hrel⟩ := Finset.mem_erase.1 (hsub hr)
    refine Finset.mem_erase.2 ⟨?_, h.trans i hi r hrel hx⟩
    rintro rfl
    exact hri (h.antisymm x hi r hrel hx)
  · -- `r` is related to one of `s`, and that one to a reduced relative, which is `r`
    obtain ⟨q, hq, hrq⟩ := Finset.mem_biUnion.1 (hs.2.symm ▸ hsub hr)
    have hqi := hs.2 ▸ Finset.mem_biUnion.2 ⟨q, hq, h.refl q (h.sub i hi (hs.1 hq))⟩
    obtain ⟨r', hr', hqr⟩ := hreach q hqi
    have hru : r' ∈ used := h.sub i hi (Finset.mem_of_mem_erase (hsub hr'))
    obtain rfl : r = r' :=
      reduce_apart (mem_elements.2 (hsub hr')) hr' hr (h.trans r' hru q hqr hrq)
    exact h.antisymm r hru q hqr hrq ▸ hq

end Reduced

/-! ## The two relations of a graph -/

section Graph

variable {g : DepGraph}

theorem ancestor_antisymm (hg : ConsistentGraph g) (hacyclic : g.isAcyclic = true) {i j : ℕ}
    (hi : i ∈ g.positions) (hij : j ∈ g.ancestors i) (hji : i ∈ g.ancestors j) : j = i := by
  have hacyclic := of_decide_eq_true hacyclic i hi
  have hj : j ∈ g.positions := hg.ancestors_used i hi hij
  have hboth : j ∈ g.ancestors i ∩ g.descendants i :=
    Finset.mem_inter.2 ⟨hij, (mem_descendants_iff hg hj hi).2 hji⟩
  rw [hacyclic] at hboth
  exact Finset.mem_singleton.1 hboth

theorem ordering_ancestors (hg : ConsistentGraph g) (hacyclic : g.isAcyclic = true) :
    Ordering g.ancestors g.positions :=
  ⟨hg.ancestors_used, hg.self_mem, hg.trans, fun _ hi _ => ancestor_antisymm hg hacyclic hi⟩

end Graph

/-! ## Graphs that are built -/

/-- Graphs built from the empty one, each with its dependencies: those that were added, and after a
removal what the closure of those before leaves among the remaining transactions. -/
inductive BuiltGraph : DepGraph → (ℕ → ℕ → Prop) → Prop
  | empty : BuiltGraph {} fun _ _ => False
  | addTransaction {g dep} (feefrac : FeeFrac) : BuiltGraph g dep →
      BuiltGraph (g.addTransaction feefrac).2 dep
  | addDependencies {g dep} (parents : Finset ℕ) (child : ℕ) : BuiltGraph g dep →
      parents ⊆ g.positions → child ∈ g.positions →
      BuiltGraph (g.addDependencies parents child) fun i j => dep i j ∨ i = child ∧ j ∈ parents
  | removeTransactions {g dep} (del : Finset ℕ) : BuiltGraph g dep →
      BuiltGraph (g.removeTransactions del) fun i j =>
        ReflTransGen dep i j ∧ i ∈ g.positions \ del ∧ j ∈ g.positions \ del

theorem BuiltGraph.closed {g : DepGraph} {dep : ℕ → ℕ → Prop} (h : BuiltGraph g dep) :
    ClosedGraph g dep := by
  induction h with
  | empty => exact closedGraph_empty
  | addTransaction feefrac _ ih => exact ih.addTransaction feefrac
  | addDependencies _ _ _ hparents hchild ih => exact ih.addDependencies hparents hchild
  | removeTransactions del _ ih => exact ih.removeTransactions del

/-- **What `DepGraph` keeps**, after any calls: ancestors and descendants are each other's converse
and the reflexive-transitive closure of the dependencies, and without cycles the reduced parents of
a transaction are the least ancestors whose ancestors are all its others.
SOURCE: src/src/cluster_linearize.h:129-241 -/
theorem depGraph_closure {g : DepGraph} {dep : ℕ → ℕ → Prop} (h : BuiltGraph g dep) :
    (∀ i ∈ g.positions, ∀ j ∈ g.positions, j ∈ g.ancestors i ↔ i ∈ g.descendants j) ∧
    (∀ i ∈ g.positions, ∀ j, j ∈ g.ancestors i ↔ ReflTransGen dep i j) ∧
    (∀ i ∈ g.positions, ∀ j, j ∈ g.descendants i ↔ ReflTransGen dep j i) ∧
    (g.isAcyclic = true → ∀ i ∈ g.positions,
      IsLeast {s : Finset ℕ | s ⊆ g.ancestors i ∧ s.biUnion g.ancestors = (g.ancestors i).erase i}
        (g.getReducedParents i)) := by
  have C := h.closed
  exact ⟨C.consistent.converse, C.ancestors, C.descendants, fun hacyclic i hi =>
    isLeast_getReduced (ordering_ancestors C.consistent hacyclic) hi⟩

/-- A grandparent stays an ancestor when the parent is removed. -/
theorem depGraph_closure_removed :
    let g := (List.range 3).foldl (fun g _ => (g.addTransaction ⟨1, 1⟩).2) ({} : DepGraph)
    2 ∈ (((g.addDependencies {0} 1).addDependencies {1} 2).removeTransactions {1}).descendants 0 :=
  have built := BuiltGraph.empty.addTransaction ⟨1, 1⟩ |>.addTransaction ⟨1, 1⟩
    |>.addTransaction ⟨1, 1⟩ |>.addDependencies {0} 1 (by decide) (by decide)
    |>.addDependencies {1} 2 (by decide) (by decide)
  have hconverse := (depGraph_closure (built.removeTransactions {1})).1
  (hconverse 2 (by decide) 0 (by decide)).1 (by decide)

end BitMinti.Analysis
