import BitMinti.Analysis.ClusterChunks
import BitMinti.Analysis.PostLinearizeLists

/-!
# Postlinearization

Each pass of `PostLinearize` turns a linearization into one that covers it.  The backward pass is a
forward pass over the reversed order, with descendants in place of ancestors and all fees negated;
seen from the other end it improves in the same sense.  The groups of the forward pass are the
chunks of the result, and each is connected.

SOURCE: src/src/cluster_linearize.h:1375-1574
-/

set_option autoImplicit false

namespace BitMinti.Analysis

open Model Interface Computation.Rates Computation.Chunks Computation.GroupMerge

section Passes

variable {g : DepGraph}

variable {linearization : List ℕ}

theorem txWorth_pos (hg : AcyclicGraph g)
    (h : IsLinearization g linearization) : ∀ i ∈ linearization, 0 < (txWorth g i).2 :=
  fun i hi => hg.sizes_pos i ((h.mem_iff i).1 hi)

theorem passResult_perm (g : DepGraph) (rev : Bool) (linearization : List ℕ) :
    (passResult g rev linearization).Perm linearization := by
  cases rev with
  | false => exact (List.reverse_perm _).trans (pass_perm linearization)
  | true => exact (pass_perm linearization.reverse).trans (List.reverse_perm linearization)

theorem isLinearization_of_perm {old new : List ℕ} (h : IsLinearization g old)
    (hperm : new.Perm old) (htopo : new.Pairwise fun earlier later => later ∉ g.ancestors earlier) :
    IsLinearization g new :=
  ⟨hperm.nodup_iff.2 h.nodup, fun i => hperm.mem_iff.trans (h.mem_iff i), htopo⟩

theorem reverse_inOrder (hg : ConsistentGraph g) (h : IsLinearization g linearization) :
    linearization.reverse.Pairwise fun earlier later => later ∉ g.descendants earlier := by
  refine List.pairwise_reverse.2 (h.topological.imp_of_mem fun hi hj hnot => ?_)
  rwa [hg.converse _ ((h.mem_iff _).1 hi) _ ((h.mem_iff _).1 hj)] at hnot

/-- **A pass keeps the linearization topological.** In a backward pass an ancestor is
read after its descendants, of which it is then a dependency. -/
theorem isLinearization_passResult (hg : ConsistentGraph g)
    (h : IsLinearization g linearization) (rev : Bool) :
    IsLinearization g (passResult g rev linearization) := by
  have hperm := passResult_perm g rev linearization
  refine isLinearization_of_perm h hperm ?_
  cases rev with
  | false => exact List.pairwise_reverse.2 (pass_inOrder h.topological)
  | true =>
    have hconverse : ∀ {i j : ℕ}, i ∈ linearization → j ∈ linearization →
        (j ∈ g.ancestors i ↔ i ∈ g.descendants j) := fun hi hj =>
      hg.converse _ ((h.mem_iff _).1 hi) _ ((h.mem_iff _).1 hj)
    have hout : InOrder (fun a b => b ∈ g.descendants a)
        (passGroups g true linearization.reverse).flatten :=
      pass_inOrder (reverse_inOrder hg h)
    refine hout.imp_of_mem fun hi hj hnot => ?_
    rw [hconverse (hperm.mem_iff.1 hi) (hperm.mem_iff.1 hj)]
    exact hnot

/-- **A pass covers the linearization it reads.** -/
theorem covers_passResult (hg : AcyclicGraph g) (h : IsLinearization g linearization) (rev : Bool) :
    Covers (txWorth g) (passResult g rev linearization) linearization := by
  have hpos := txWorth_pos hg h
  cases rev with
  | false => exact pass_covers hpos h.nodup
  | true =>
    refine Covers.of_reverse (total_perm _ (passResult_perm g true linearization)) ?_
    exact pass_covers (by simpa [negated] using hpos) (List.nodup_reverse.2 h.nodup)

/-- **The chunks of a forward pass are its groups.** -/
theorem chunks_passResult (hg : AcyclicGraph g) (h : IsLinearization g linearization) :
    chunks (txWorth g) (passResult g false linearization) =
      ((passGroups g false linearization).map List.reverse).reverse := by
  have hgroups : Grouped (txWorth g) (fun a b => b ∈ g.ancestors a)
      (passGroups g false linearization) := pass_grouped (txWorth_pos hg h)
  have hout : passResult g false linearization =
      ((passGroups g false linearization).map List.reverse).reverse.flatten :=
    List.reverse_flatten
  have hmem : ∀ c ∈ ((passGroups g false linearization).map List.reverse).reverse,
      ∃ group ∈ passGroups g false linearization, c = group.reverse := by
    intro c hc
    obtain ⟨group, hgroup, rfl⟩ := List.mem_map.1 (List.mem_reverse.1 hc)
    exact ⟨group, hgroup, rfl⟩
  rw [hout]
  refine chunks_groups (fun c hc => ?_) (fun c hc => ?_) (fun c hc => ?_) ?_
  · obtain ⟨group, hgroup, rfl⟩ := hmem c hc
    simpa using (hgroups.solid group hgroup).nonempty
  · obtain ⟨group, hgroup, rfl⟩ := hmem c hc
    simpa using (hgroups.solid group hgroup).pos
  · obtain ⟨group, hgroup, rfl⟩ := hmem c hc
    exact (hgroups.solid group hgroup).rising
  · refine List.pairwise_reverse.2 (List.pairwise_map.2 (hgroups.sorted.imp fun hle => ?_))
    rwa [total_reverse, total_reverse]

theorem isConnected_passResult (hg : AcyclicGraph g) (h : IsLinearization g linearization) :
    ∀ chunk ∈ chunkLinearizationInfo g (passResult g false linearization),
      g.isConnected chunk.transactions = true := by
  intro chunk hchunk
  rw [chunkLinearizationInfo_eq, chunks_passResult hg h] at hchunk
  obtain ⟨c, hc, rfl⟩ := List.mem_map.1 hchunk
  obtain ⟨group, hgroup, rfl⟩ := List.mem_map.1 (List.mem_reverse.1 hc)
  have hgroups : Grouped (txWorth g) (fun a b => b ∈ g.ancestors a)
      (passGroups g false linearization) := pass_grouped (txWorth_pos hg h)
  rw [chunkInfo, List.toFinset_reverse]
  refine isConnected_of_joined hg.toConsistentGraph (fun i hi => ?_)
    (hgroups.solid group hgroup).joined
  exact (h.mem_iff i).1 ((pass_perm linearization).mem_iff.1 (List.mem_flatten_of_mem hgroup hi))

end Passes

/-! ## Both passes -/

theorem postLinearize_eq {g : DepGraph} (hg : ConsistentGraph g) {linearization : List ℕ}
    (h : IsLinearization g linearization) :
    postLinearize g linearization =
      some (passResult g false (passResult g true linearization)) := by
  have hempty : (PostLinearize.TxEntries.at (List.replicate (g.positionRange + 1) {})
      PostLinearize.SENTINEL).feerate = FeeFrac.empty := rfl
  have hbound : ∀ i ∈ linearization, i + 1 < g.positionRange + 1 := fun i hi =>
    Nat.succ_lt_succ (hg.inRange i ((h.mem_iff i).1 hi))
  have hback := isLinearization_passResult hg h true
  obtain ⟨e₁, he₁, hsentinel, hlen⟩ := onePass_eq g true hempty
    (by simp [PostLinearize.SENTINEL]) h.nodup (by simpa using hbound)
  obtain ⟨e₂, he₂, -, -⟩ := onePass_eq g false hsentinel
    (by rw [hlen]; simp [PostLinearize.SENTINEL]) hback.nodup
    (fun i hi => by
      rw [hlen, List.length_replicate]
      exact hbound i ((passResult_perm g true linearization).mem_iff.1 hi))
  rw [postLinearize, he₁]
  change (PostLinearize.onePass g false e₁ _ >>= _) = _
  rw [he₂]
  rfl

/-- **Postlinearization improves.** For every acyclic graph and every linearization of it, the
result is a topologically valid permutation of the input with a feerate diagram at least as good,
and all its chunks are connected.
SOURCE: src/src/cluster_linearize.h:1375-1574 -/
theorem postLinearize_improves (g : DepGraph) (hg : AcyclicGraph g) (linearization : List ℕ)
    (h : IsLinearization g linearization) :
    ∃ out, postLinearize g linearization = some out ∧ IsLinearization g out ∧
      out.Perm linearization ∧
      AtLeastAsGood (chunkLinearization g out) (chunkLinearization g linearization) ∧
      ∀ chunk ∈ chunkLinearizationInfo g out, g.isConnected chunk.transactions = true := by
  have hback := isLinearization_passResult hg.toConsistentGraph h true
  have hperm := (passResult_perm g false (passResult g true linearization)).trans
    (passResult_perm g true linearization)
  refine ⟨_, postLinearize_eq hg.toConsistentGraph h,
    isLinearization_passResult hg.toConsistentGraph hback false, hperm, ?_,
    isConnected_passResult hg hback⟩
  exact atLeastAsGood_of_covers ((covers_passResult hg hback false).trans
    (covers_passResult hg h true)) hperm (txWorth_pos hg h)

/-- Two parents of one child that pays for both, and a fourth transaction. -/
def twoParents : DepGraph :=
  let txs : List FeeFrac := [⟨1, 1⟩, ⟨2, 1⟩, ⟨9, 2⟩, ⟨4, 1⟩]
  (txs.foldl (fun g feerate => (DepGraph.addTransaction g feerate).2) {}).addDependencies {0, 1} 2

theorem acyclicGraph_twoParents : AcyclicGraph twoParents := by decide

theorem isLinearization_twoParents : IsLinearization twoParents [0, 1, 2, 3] where
  nodup := by decide
  mem_iff := by
    have hused : twoParents.positions = [0, 1, 2, 3].toFinset := by decide
    intro i
    rw [hused, List.mem_toFinset]
  topological := by decide

theorem postLinearize_improves_twoParents :
    ∃ out, postLinearize twoParents [0, 1, 2, 3] = some out ∧ IsLinearization twoParents out ∧
      out.Perm [0, 1, 2, 3] ∧
      AtLeastAsGood (chunkLinearization twoParents out)
        (chunkLinearization twoParents [0, 1, 2, 3]) ∧
      ∀ chunk ∈ chunkLinearizationInfo twoParents out,
        twoParents.isConnected chunk.transactions = true :=
  postLinearize_improves twoParents acyclicGraph_twoParents [0, 1, 2, 3] isLinearization_twoParents

end BitMinti.Analysis
