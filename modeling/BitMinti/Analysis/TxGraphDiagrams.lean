import BitMinti.Analysis.CompareChunks
import BitMinti.Computation.Conjugate
import BitMinti.Interface.TxGraphDiagrams

/-!
# Shared clusters cancel in the comparison of diagrams

Chunks that are sorted into both of two diagrams do not change how these compare, since the
diagrams of sorted chunks compare as sums over their chunks do.  Main and staging differ by the
clusters that `GetMainStagingDiagrams` looks at.

SOURCE: src/src/txgraph.cpp:2723-2747, src/src/policy/rbf.cpp:127-140
-/

set_option autoImplicit false

namespace BitMinti.Analysis

open Model Interface Computation.Rates Computation.Conjugate

/-! ## Chunks that pay -/

section Paying

variable {a b c : List FeeFrac}

theorem paying_perm (h : PayingChunks a) (hperm : b.Perm a) : PayingChunks b := by
  have hsum : sumOf a = sumOf b := by
    rw [sumOf_eq, sumOf_eq, (hperm.map FeeFrac.fee).sum_eq, (hperm.map FeeFrac.size).sum_eq]
  exact ⟨fun x hx => h.sizes_pos x (hperm.mem_iff.1 hx),
    fun x hx => h.fees_nonneg x (hperm.mem_iff.1 hx), hsum ▸ h.fee_fits, hsum ▸ h.size_fits⟩

theorem paying_left (h : PayingChunks (a ++ c)) : PayingChunks a :=
  paying_sublist h (List.sublist_append_left a c)

theorem sortedChunks_of_paying (h : PayingChunks a) (hsorted : SortedByFeerate a) :
    SortedChunks (a.map toWorth) where
  pos := List.forall_mem_map.2 h.sizes_pos
  nonneg := List.forall_mem_map.2 h.fees_nonneg
  sorted := List.pairwise_map.2 (hsorted.imp fun hxy => not_lt.1 fun hlt =>
    hxy (decide_eq_true hlt))

theorem compare_of_paying (ha : PayingChunks a) (hb : PayingChunks b) :
    ∃ r, compareChunks a b = some r ∧ DiagramOutcome a b r :=
  compareChunks_outcome (diagramChunks_of_paying ha) (diagramChunks_of_paying hb)
    (feesApart_of_paying ha hb)

/-- **Chunks that both lists have do not change how they compare.** -/
theorem compareChunks_shared {a' b' ac bc : List FeeFrac} (ha : PayingChunks (a ++ c))
    (hb : PayingChunks (b ++ c)) (ha' : a'.Perm a) (hb' : b'.Perm b) (hac : ac.Perm (a ++ c))
    (hbc : bc.Perm (b ++ c)) (hsa : SortedByFeerate a') (hsb : SortedByFeerate b')
    (hsac : SortedByFeerate ac) (hsbc : SortedByFeerate bc) :
    ∃ r, compareChunks ac bc = some r ∧ compareChunks a' b' = some r ∧
      DiagramOutcome ac bc r := by
  have hpa := paying_perm (paying_left ha) ha'
  have hpb := paying_perm (paying_left hb) hb'
  have hpac := paying_perm ha hac
  have hpbc := paying_perm hb hbc
  obtain ⟨r, hr, houtcome⟩ := compare_of_paying hpac hpbc
  obtain ⟨r', hr', houtcome'⟩ := compare_of_paying hpa hpb
  have hworths : ∀ {x x' xc : List FeeFrac}, x'.Perm x → xc.Perm (x ++ c) →
      (xc.map toWorth).Perm (x'.map toWorth ++ c.map toWorth) := by
    intro x x' xc hx hxc
    rw [← List.map_append]
    exact (hxc.trans (hx.symm.append_right c)).map toWorth
  have hsame : r = r' := by
    refine outcome_unique houtcome houtcome' ?_ ?_
    · exact diagram_le_iff_of_perm (sortedChunks_of_paying hpa hsa)
        (sortedChunks_of_paying hpb hsb) (sortedChunks_of_paying hpac hsac)
        (sortedChunks_of_paying hpbc hsbc) (hworths ha' hac) (hworths hb' hbc)
    · exact diagram_le_iff_of_perm (sortedChunks_of_paying hpb hsb)
        (sortedChunks_of_paying hpa hsa) (sortedChunks_of_paying hpbc hsbc)
        (sortedChunks_of_paying hpac hsac) (hworths hb' hbc) (hworths ha' hac)
  exact ⟨r, hr, hsame ▸ hr', houtcome⟩

end Paying

/-! ## Sorting -/

section Sorting

theorem lower_of_after {x y : FeeFrac} (h : x.after y = true) : x.lower y = false := by
  unfold FeeFrac.after at h
  refine decide_eq_false ?_
  split at h
  · omega
  · have := of_decide_eq_true h
    omega

theorem lower_of_not_after {x y : FeeFrac} (h : x.after y = false) : y.lower x = false := by
  unfold FeeFrac.after at h
  refine decide_eq_false ?_
  split at h
  · omega
  · have := of_decide_eq_false h
    omega

/-- Sorting with `operator>` sorts by feerate.  The order is transitive on positive
sizes only, so the members carry the condition. -/
theorem sortFeerates_sorted {l : List FeeFrac} (hpos : ∀ c ∈ l, 0 < c.size) :
    SortedByFeerate (StagedGraph.sortFeerates l) := by
  have hinsert : ∀ (x : FeeFrac) (l : List FeeFrac), 0 < x.size → (∀ c ∈ l, 0 < c.size) →
      SortedByFeerate l →
      SortedByFeerate (l.orderedInsert (fun a b => b.after a = false) x) := by
    intro x l hx hl hsorted
    induction l with
    | nil => exact List.pairwise_singleton _ _
    | cons y l ih =>
      obtain ⟨hbelow, hsorted'⟩ := List.pairwise_cons.1 hsorted
      have hy := hl y List.mem_cons_self
      have hl' : ∀ c ∈ l, 0 < c.size := fun c hc => hl c (List.mem_cons_of_mem y hc)
      rw [List.orderedInsert_cons]
      split
      next hfirst =>
        have hxy : ¬x.lower y := Bool.eq_false_iff.1 (lower_of_not_after hfirst)
        refine List.pairwise_cons.2 ⟨fun z hz => ?_, hsorted⟩
        rcases List.mem_cons.1 hz with rfl | hz
        · exact hxy
        · have hyz : NotAbove (toWorth z) (toWorth y) :=
            not_lt.1 fun hlt => hbelow z hz (decide_eq_true hlt)
          have hyx : NotAbove (toWorth y) (toWorth x) :=
            not_lt.1 fun hlt => hxy (decide_eq_true hlt)
          exact fun hlt => absurd (of_decide_eq_true hlt)
            (not_lt.2 (hyz.trans hyx (hl' z hz).le hy hx.le))
      next hlater =>
        refine List.pairwise_cons.2 ⟨fun z hz => ?_, ih hl' hsorted'⟩
        rcases List.mem_orderedInsert _ |>.1 hz with rfl | hz
        · exact Bool.eq_false_iff.1 (lower_of_after (Bool.not_eq_false _ ▸ hlater))
        · exact hbelow z hz
  induction l with
  | nil => exact List.Pairwise.nil
  | cons x l ih =>
    obtain ⟨hx, hl⟩ := List.forall_mem_cons.1 hpos
    refine hinsert x _ hx (fun c hc => hl c ?_) (ih hl)
    exact (List.perm_insertionSort _ l).mem_iff.1 hc

end Sorting

/-! ## The clusters -/

section Clusters

variable {g : StagedGraph}

theorem foldl_appendChunkFeerates (clusters : List Cluster) (ret : List FeeFrac) :
    clusters.foldl Cluster.appendChunkFeerates ret = ret ++ chunksOf clusters := by
  induction clusters generalizing ret with
  | nil => exact (List.append_nil ret).symm
  | cons c clusters ih =>
    have hc : Cluster.appendChunkFeerates ret c = ret ++ Cluster.appendChunkFeerates [] c := by
      unfold Cluster.appendChunkFeerates
      split <;> simp
    rw [List.foldl_cons, ih, hc, List.append_assoc]
    rfl

/-- The conflicts are the clusters of main that staging does not share. -/
theorem mem_getConflicts (p : ℕ) : p ∈ g.getConflicts ↔ ¬SharedCluster g p := by
  have hmem : p ∈ g.getConflicts ↔ (∃ i ∈ g.m_removed, g.locator i = some p) ∨
      ∃ c ∈ g.stagingClusters, ∃ i ∈ c.indices, g.locator i = some p := by
    rw [StagedGraph.getConflicts, (List.perm_insertionSort _ _).mem_iff, List.mem_dedup,
      List.mem_append, List.mem_filterMap, List.mem_flatMap]
    simp only [List.mem_filterMap]
  rw [hmem, SharedCluster]
  constructor
  · rintro (⟨i, hi, hp⟩ | ⟨c, hc, i, hi, hp⟩) hshared
    · exact (hshared i hp).1 hi
    · exact (hshared i hp).2 c hc hi
  · intro hnot
    by_contra hnone
    rw [not_or] at hnone
    exact hnot fun i hp => ⟨fun hi => hnone.1 ⟨i, hi, hp⟩,
      fun c hc hi => hnone.2 ⟨c, hc, i, hi, hp⟩⟩

/-- Main has its conflicts and what it shares. -/
theorem mainClusters_perm (g : StagedGraph) :
    (chunksOf g.mainClusters).Perm
      (chunksOf (g.getConflicts.map fun p => g.mainClusters.getD p (.singleton none)) ++
        chunksOf (sharedClusters g)) := by
  classical
  have hall : g.mainClusters = (List.range g.mainClusters.length).map fun p =>
      g.mainClusters.getD p (.singleton none) := by
    refine List.ext_getElem (by simp) fun p hp _ => ?_
    simp [List.getD_eq_getElem?_getD, hp]
  have hconflicts : g.getConflicts.Perm
      ((List.range g.mainClusters.length).filter fun p => ¬SharedCluster g p) := by
    have hnodup : g.getConflicts.Nodup :=
      (List.perm_insertionSort _ _).nodup_iff.2 (List.nodup_dedup _)
    refine (List.perm_ext_iff_of_nodup hnodup (List.nodup_range.filter _)).2 fun p => ?_
    rw [mem_getConflicts, List.mem_filter, List.mem_range, decide_eq_true_iff]
    refine ⟨fun hp => ⟨?_, hp⟩, fun hp => hp.2⟩
    rw [SharedCluster, not_forall] at hp
    obtain ⟨i, hi⟩ := hp
    rw [Classical.not_imp] at hi
    exact g.located i p hi.1
  have hsplit : (List.range g.mainClusters.length).Perm
      (g.getConflicts ++ (List.range g.mainClusters.length).filter fun p => SharedCluster g p) := by
    refine ((List.filter_append_perm (fun p => decide (SharedCluster g p)) _).symm.trans
      List.perm_append_comm).trans (List.Perm.append_right _ ?_)
    simpa using hconflicts.symm
  rw [chunksOf, chunksOf, chunksOf, ← List.flatMap_append, sharedClusters, ← List.map_append]
  conv_lhs => rw [hall]
  exact (hsplit.map _).flatMap_right _

end Clusters

/-- **Shared chunks cancel.** Sorting the same chunks into two lists does not change what
`CompareChunks` answers, so `ImprovesFeerateDiagram` on the diagrams of `GetMainStagingDiagrams`
accepts exactly what improves the diagram of the whole mempool.
SOURCE: src/src/txgraph.cpp:2723-2747, src/src/policy/rbf.cpp:127-140 -/
theorem improvesFeerateDiagram_whole :
    (∀ a b c a' b' ac bc : List FeeFrac, PayingChunks (a ++ c) → PayingChunks (b ++ c) →
      a'.Perm a → b'.Perm b → ac.Perm (a ++ c) → bc.Perm (b ++ c) → SortedByFeerate a' →
      SortedByFeerate b' → SortedByFeerate ac → SortedByFeerate bc →
      ∃ r, compareChunks ac bc = some r ∧ compareChunks a' b' = some r) ∧
    ∀ (g : StagedGraph) (new old : List FeeFrac), PayingChunks new → PayingChunks old →
      SortedByFeerate new → SortedByFeerate old →
      new.Perm (chunksOf g.stagingClusters ++ chunksOf (sharedClusters g)) →
      old.Perm (chunksOf g.mainClusters) →
      (improvesFeerateDiagram (g.calculateChunksForRBF true) = none ↔
        DiagramOutcome new old .greater) := by
  refine ⟨fun a b c a' b' ac bc ha hb ha' hb' hac hbc hsa hsb hsac hsbc => ?_,
    fun g new old hnew hold hsnew hsold hpnew hpold => ?_⟩
  · obtain ⟨r, hr, hr', -⟩ := compareChunks_shared ha hb ha' hb' hac hbc hsa hsb hsac hsbc
    exact ⟨r, hr, hr'⟩
  · have hpold' := hpold.trans (mainClusters_perm g)
    have hstaging := paying_perm hnew hpnew.symm
    have hmain := paying_perm hold hpold'.symm
    have hsort : ∀ l : List FeeFrac, (StagedGraph.sortFeerates l).Perm l :=
      List.perm_insertionSort _
    obtain ⟨r, hr, hr', houtcome⟩ := compareChunks_shared hstaging hmain (hsort _) (hsort _) hpnew
      hpold' (sortFeerates_sorted (paying_left hstaging).sizes_pos)
      (sortFeerates_sorted (paying_left hmain).sizes_pos) hsnew hsold
    have hdiagrams : g.getMainStagingDiagrams = (StagedGraph.sortFeerates
        (chunksOf (g.getConflicts.map fun p => g.mainClusters.getD p (.singleton none))),
        StagedGraph.sortFeerates (chunksOf g.stagingClusters)) := by
      rw [StagedGraph.getMainStagingDiagrams, ← List.foldl_map, foldl_appendChunkFeerates,
        foldl_appendChunkFeerates, List.nil_append, List.nil_append]
    have hanswer : improvesFeerateDiagram (g.calculateChunksForRBF true) = none ↔
        r = .greater := by
      simp only [StagedGraph.calculateChunksForRBF, Bool.not_true, Bool.false_eq_true, if_false,
        improvesFeerateDiagram, hdiagrams, hr', ne_eq, Option.some.injEq, ite_not]
      split
      next h => simp [h]
      next h => simp [h]
    rw [hanswer]
    constructor
    · rintro rfl
      exact houtcome
    · exact fun hgreater => outcome_unique houtcome hgreater Iff.rfl Iff.rfl

/-- Main has two transactions, and staging replaces the first. -/
def oneReplaced : StagedGraph where
  mainClusters := [.singleton (some (0, ⟨3, 1⟩)), .singleton (some (1, ⟨2, 1⟩))]
  locator i := if i < 2 then some i else none
  stagingClusters := [.singleton (some (2, ⟨4, 1⟩))]
  m_removed := [0]
  located i p h := by
    split at h
    next hi => exact Option.some.inj h ▸ hi
    next => cases h

theorem sharedClusters_oneReplaced :
    sharedClusters oneReplaced = [.singleton (some (1, ⟨2, 1⟩))] := by
  have hfirst : ¬SharedCluster oneReplaced 0 := fun h => (h 0 rfl).1 List.mem_cons_self
  have hsecond : SharedCluster oneReplaced 1 := by
    intro i hi
    have hone : i = 1 := by
      simp only [oneReplaced, Option.ite_none_right_eq_some, Option.some.injEq] at hi
      exact hi.2
    subst hone
    exact ⟨by decide, by decide⟩
  have hrange : List.range oneReplaced.mainClusters.length = [0, 1] := rfl
  rw [sharedClusters, hrange, List.filter_cons_of_neg (by simpa using hfirst),
    List.filter_cons_of_pos (by simpa using hsecond), List.filter_nil]
  rfl

theorem improvesFeerateDiagram_whole_oneReplaced :
    compareChunks [⟨4, 1⟩, ⟨2, 1⟩] [⟨3, 1⟩, ⟨2, 1⟩] = compareChunks [⟨4, 1⟩] [⟨3, 1⟩] ∧
      improvesFeerateDiagram (oneReplaced.calculateChunksForRBF true) = none ∧
      DiagramOutcome [⟨4, 1⟩, ⟨2, 1⟩] [⟨3, 1⟩, ⟨2, 1⟩] .greater := by
  have hnew : PayingChunks [⟨4, 1⟩, ⟨2, 1⟩] := ⟨by decide, by decide, by decide, by decide⟩
  have hold : PayingChunks [⟨3, 1⟩, ⟨2, 1⟩] := ⟨by decide, by decide, by decide, by decide⟩
  have hsnew : SortedByFeerate [⟨4, 1⟩, ⟨2, 1⟩] := by
    unfold SortedByFeerate
    decide
  have hsold : SortedByFeerate [⟨3, 1⟩, ⟨2, 1⟩] := by
    unfold SortedByFeerate
    decide
  obtain ⟨r, hr, hr'⟩ := improvesFeerateDiagram_whole.1 [⟨4, 1⟩] [⟨3, 1⟩] [⟨2, 1⟩] _ _ _ _ hnew
    hold (.refl _) (.refl _) (.refl _) (.refl _) (List.pairwise_singleton _ _)
    (List.pairwise_singleton _ _) hsnew hsold
  have happly := improvesFeerateDiagram_whole.2 oneReplaced _ _ hnew hold hsnew hsold
    (by rw [sharedClusters_oneReplaced]; exact .refl _) (.refl _)
  have hanswer : improvesFeerateDiagram (oneReplaced.calculateChunksForRBF true) = none := by
    decide
  exact ⟨hr.trans hr'.symm, hanswer, happly.1 hanswer⟩

end BitMinti.Analysis
