import BitMinti.Computation.GroupMerge
import BitMinti.Interface.FeerateDiagram

/-!
# Chunks and connected sets of transactions

`ChunkLinearizationInfo` and `ChunkLinearization` compute the chunks of the library, the first with
their sets of transactions and the second with their feerates only.  `IsConnected` recognises every
set whose transactions are joined by dependencies.

SOURCE: src/src/cluster_linearize.h:255-300, 425-462
-/

set_option autoImplicit false

namespace BitMinti.Analysis

open Model Interface Computation.Rates Computation.Chunks Computation.Diagram Computation.GroupMerge

/-! ## Chunks -/

/-- Fee and size of a transaction. -/
def txWorth (g : DepGraph) (i : ℕ) : Worth := toWorth (g.feeRate i)

/-- Value and weight as a feerate. -/
def toFeeFrac (a : Worth) : FeeFrac := ⟨a.1, a.2⟩

theorem higher_toFeeFrac (a b : Worth) :
    (toFeeFrac a).higher (toFeeFrac b) = true ↔ Lower b a := decide_eq_true_iff

theorem toFeeFrac_add (a b : Worth) : (toFeeFrac a).add (toFeeFrac b) = toFeeFrac (a + b) := rfl

/-- The set and the feerate of a chunk. -/
def chunkInfo (g : DepGraph) (chunk : List ℕ) : SetInfo :=
  ⟨chunk.toFinset, toFeeFrac (total (txWorth g) chunk)⟩

variable (g : DepGraph)

theorem absorbChunks_eq (c : List ℕ) (st : List (List ℕ)) :
    absorbChunks (chunkInfo g c) (st.map (chunkInfo g)) =
      (absorb (txWorth g) c st).map (chunkInfo g) := by
  induction st generalizing c with
  | nil => rfl
  | cons last rest ih =>
    have hunion : (chunkInfo g c).union (chunkInfo g last) = chunkInfo g (last ++ c) := by
      simp only [chunkInfo, SetInfo.union, toFeeFrac_add, total_append, List.toFinset_append]
      rw [Finset.union_comm, add_comm]
    have hrate : (chunkInfo g c).feerate.higher (chunkInfo g last).feerate = true ↔
        Lower (total (txWorth g) last) (total (txWorth g) c) := higher_toFeeFrac _ _
    rw [List.map_cons, absorbChunks, absorb]
    by_cases hlower : Lower (total (txWorth g) last) (total (txWorth g) c)
    · rw [if_pos hlower, if_pos (hrate.2 hlower), hunion, ih]
    · rw [if_neg hlower, if_neg fun hhigher => hlower (hrate.1 hhigher)]
      rfl

theorem absorbChunks_feerate (newChunk : SetInfo) (ret : List SetInfo) :
    (absorbChunks newChunk ret).map SetInfo.feerate =
      absorbFeerates newChunk.feerate (ret.map SetInfo.feerate) := by
  induction ret generalizing newChunk with
  | nil => rfl
  | cons back ret ih =>
    rw [List.map_cons, absorbFeerates, absorbChunks]
    split
    · exact ih (newChunk.union back)
    · rfl

theorem chunkLinearizationInfo_eq (linearization : List ℕ) :
    chunkLinearizationInfo g linearization =
      (chunks (txWorth g) linearization).map (chunkInfo g) := by
  unfold chunkLinearizationInfo chunks
  rw [List.map_reverse]
  congr 1
  induction linearization using List.reverseRecOn with
  | nil => rfl
  | append_singleton l i ih =>
    have hsingle : SetInfo.ofTx g i = chunkInfo g [i] := by
      simp [SetInfo.ofTx, chunkInfo, txWorth, toFeeFrac, toWorth]
    rw [chunkOnto_snoc, ← absorbChunks_eq, ← ih, List.foldl_append, ← hsingle]
    rfl

theorem chunkLinearization_feerate (linearization : List ℕ) :
    chunkLinearization g linearization =
      (chunkLinearizationInfo g linearization).map SetInfo.feerate := by
  unfold chunkLinearization chunkLinearizationInfo
  rw [List.map_reverse]
  congr 1
  exact @List.foldl_hom _ _ _ (List.map SetInfo.feerate) _ _ linearization []
    fun ret i => (absorbChunks_feerate (SetInfo.ofTx g i) ret).symm

theorem chunkLinearization_eq (linearization : List ℕ) :
    chunkLinearization g linearization =
      (chunkWorths (txWorth g) linearization).map toFeeFrac := by
  rw [chunkLinearization_feerate, chunkLinearizationInfo_eq, chunkWorths, List.map_map,
    List.map_map]
  rfl

theorem chunkLinearization_worths (linearization : List ℕ) :
    (chunkLinearization g linearization).map toWorth =
      chunkWorths (txWorth g) linearization := by
  rw [chunkLinearization_eq, List.map_map]
  exact List.map_id _

theorem atLeastAsGood_of_covers {g : DepGraph} {new old : List ℕ}
    (h : Covers (txWorth g) new old) (hperm : new.Perm old)
    (hpos : ∀ i ∈ old, 0 < (txWorth g i).2) :
    AtLeastAsGood (chunkLinearization g new) (chunkLinearization g old) := by
  intro size hsize
  unfold feerateDiagram
  rw [chunkLinearization_worths, chunkLinearization_worths]
  exact diagram_le_of_covers h (total_perm (txWorth g) hperm)
    (fun i hi => hpos i (hperm.mem_iff.1 hi)) hpos hsize

/-- The transactions a round of `GetConnectedComponent` adds for one transaction. -/
def relatives (g : DepGraph) (i : ℕ) : Finset ℕ := g.descendants i ∪ g.ancestors i

/-- The component contains what it started from and is closed under relatives within
`todo`. By induction on the rounds: a transaction of `ret` that is not in `to_add` has all its
relatives in `ret`, and every round but the last adds one. -/
theorem componentLoop_closed {g : DepGraph} {todo : Finset ℕ} {fuel : ℕ} {ret toAdd : Finset ℕ}
    (hfuel : todo.card < ret.card + fuel) (hret : ret ⊆ todo)
    (hdone : ∀ x ∈ ret, x ∉ toAdd → ∀ y ∈ todo, y ∈ relatives g x → y ∈ ret) :
    let out := g.componentLoop todo fuel ret toAdd
    ret ⊆ out ∧ out ⊆ todo ∧ (∀ x ∈ toAdd, ∀ y ∈ todo, y ∈ relatives g x → y ∈ out) ∧
      ∀ x ∈ out, ∀ y ∈ todo, y ∈ relatives g x → y ∈ out := by
  induction fuel generalizing ret toAdd with
  | zero =>
    have hcard := Finset.card_le_card hret
    omega
  | succ fuel ih =>
    have hmem : ∀ y, y ∈ (ret ∪ toAdd.biUnion fun add => g.descendants add ∪ g.ancestors add) ∩
        todo ↔ (y ∈ ret ∨ ∃ x ∈ toAdd, y ∈ relatives g x) ∧ y ∈ todo := by
      intro y
      rw [Finset.mem_inter, Finset.mem_union, Finset.mem_biUnion]
      rfl
    -- the next `ret`
    set grown := (ret ∪ toAdd.biUnion fun add => g.descendants add ∪ g.ancestors add) ∩ todo
      with hret'
    have hgrow : ret ⊆ grown := fun x hx => (hmem x).2 ⟨Or.inl hx, hret hx⟩
    have hadded : ∀ x ∈ toAdd, ∀ y ∈ todo, y ∈ relatives g x → y ∈ grown :=
      fun x hx y hy hrel => (hmem y).2 ⟨Or.inr ⟨x, hx, hrel⟩, hy⟩
    have hdone' : ∀ x ∈ grown, x ∉ grown \ ret → ∀ y ∈ todo, y ∈ relatives g x → y ∈ grown := by
      intro x hx hnew y hy hrel
      have hxr : x ∈ ret := by
        by_contra hxr
        exact hnew (Finset.mem_sdiff.2 ⟨hx, hxr⟩)
      by_cases hxa : x ∈ toAdd
      · exact hadded x hxa y hy hrel
      · exact hgrow (hdone x hxr hxa y hy hrel)
    rw [DepGraph.componentLoop]
    dsimp only
    rw [← hret']
    by_cases hmore : (grown \ ret).Nonempty
    · rw [if_pos hmore]
      have hcard : ret.card < grown.card := by
        refine Finset.card_lt_card (Finset.ssubset_iff_subset_ne.2 ⟨hgrow, fun heq => ?_⟩)
        rw [← heq, Finset.sdiff_self] at hmore
        exact Finset.not_nonempty_empty hmore
      have hfuel' : todo.card < grown.card + fuel := by omega
      obtain ⟨hsub, htodo, -, hclosed⟩ := ih hfuel' Finset.inter_subset_right hdone'
      exact ⟨hgrow.trans hsub, htodo, fun x hx y hy hrel => hsub (hadded x hx y hy hrel), hclosed⟩
    · rw [if_neg hmore]
      have hnone : ∀ x, x ∉ grown \ ret := fun x hx => hmore ⟨x, hx⟩
      exact ⟨hgrow, Finset.inter_subset_right, hadded, fun x hx => hdone' x hx (hnone x)⟩

theorem first_mem {s : Finset ℕ} (hs : s.Nonempty) : DepGraph.first s ∈ s := by
  obtain ⟨a, ha⟩ := Finset.min_of_nonempty hs
  rw [DepGraph.first, ha]
  exact Finset.mem_of_min ha

/-- **Joined transactions are connected.** `IsConnected` recognises a set in which
dependencies lead from any transaction to any other. -/
theorem isConnected_of_joined {g : DepGraph} (hg : ConsistentGraph g) {l : List ℕ}
    (hused : ∀ i ∈ l, i ∈ g.positions) (h : Joined (fun a b => b ∈ g.ancestors a) l) :
    g.isConnected l.toFinset = true := by
  refine decide_eq_true ?_
  unfold DepGraph.findConnectedComponent
  split
  · rfl
  next hne =>
    have hfirst := first_mem (Finset.nonempty_iff_ne_empty.2 hne)
    have hfuel : l.toFinset.card < (∅ : Finset ℕ).card + (l.toFinset.card + 1) := by simp
    have hdone : ∀ x ∈ (∅ : Finset ℕ), x ∉ ({DepGraph.first l.toFinset} : Finset ℕ) →
        ∀ y ∈ l.toFinset, y ∈ relatives g x → y ∈ (∅ : Finset ℕ) := by simp
    obtain ⟨-, htodo, hstart, hclosed⟩ :=
      componentLoop_closed hfuel (Finset.empty_subset _) hdone
    have hself : DepGraph.first l.toFinset ∈ relatives g (DepGraph.first l.toFinset) :=
      Finset.mem_union_right _ (hg.self_mem _ (hused _ (List.mem_toFinset.1 hfirst)))
    -- along a path from the first transaction everything is in the component
    have hreach : ∀ i, Relation.ReflTransGen (Link (fun a b => b ∈ g.ancestors a) l)
        (DepGraph.first l.toFinset) i →
        i ∈ g.getConnectedComponent l.toFinset (DepGraph.first l.toFinset) := by
      intro i hpath
      induction hpath with
      | refl => exact hstart _ (Finset.mem_singleton_self _) _ hfirst hself
      | @tail j i _ hlink ih =>
        obtain ⟨hi, hdep⟩ := hlink
        have hj : j ∈ g.positions := hused j (List.mem_toFinset.1 (htodo ih))
        refine hclosed j ih i (List.mem_toFinset.2 hi) ?_
        rcases hdep with hdep | hdep
        · exact Finset.mem_union_right _ hdep
        · exact Finset.mem_union_left _ ((hg.converse i (hused i hi) j hj).1 hdep)
    refine Finset.Subset.antisymm htodo fun i hi => hreach i ?_
    exact h _ (List.mem_toFinset.1 hfirst) i (List.mem_toFinset.1 hi)

end BitMinti.Analysis
