import BitMinti.Model.ClusterLinearize
import BitMinti.Model.CompareChunks

/-!
# Main and staging diagrams

`GetMainStagingDiagrams` collects the chunk feerates of the clusters of main that staging removes
or replaces, and those of the clusters of staging.  A replacement has to improve on the first with
the second.

The state is the one after `MakeAllAcceptable`, with clusters of main in the order of their sequence
numbers and named by their place there.

SOURCE: src/src/txgraph.cpp:1069-1118, 2723-2747, src/src/txmempool.cpp:977-986,
src/src/policy/rbf.cpp:127-140
-/

set_option autoImplicit false

namespace BitMinti.Model

/-- `operator>`, from `operator<=>`: by feerate and then by smaller size. -/
def FeeFrac.after (a b : FeeFrac) : Bool :=
  if a.fee * b.size = b.fee * a.size then decide (b.size > a.size)
  else decide (a.fee * b.size > b.fee * a.size)

/-- `GenericClusterImpl` and `SingletonClusterImpl`, which may be empty. -/
inductive Cluster where
  | generic (m_depgraph : DepGraph) (m_linearization m_mapping : List ℕ)
  | singleton (transaction : Option (ℕ × FeeFrac))

namespace Cluster

def appendChunkFeerates (ret : List FeeFrac) : Cluster → List FeeFrac
  | generic m_depgraph m_linearization _ => ret ++ chunkLinearization m_depgraph m_linearization
  | singleton (some (_, m_feerate)) => ret ++ [m_feerate]
  | singleton none => ret

/-- The entries of the cluster's transactions. -/
def indices : Cluster → List ℕ
  | generic _ m_linearization m_mapping => m_linearization.map fun i => m_mapping.getD i 0
  | singleton (some (m_graph_index, _)) => [m_graph_index]
  | singleton none => []

end Cluster

/-- What is read of the graph: the clusters of both levels, `m_removed`, and for each entry the
cluster of main that `m_locator[0]` points to, if it is present there. -/
structure StagedGraph where
  mainClusters : List Cluster
  locator : ℕ → Option ℕ
  stagingClusters : List Cluster
  m_removed : List ℕ
  located : ∀ i p, locator i = some p → p < mainClusters.length

namespace StagedGraph

/-- `GetConflicts`: each cluster once, in order. -/
def getConflicts (g : StagedGraph) : List ℕ :=
  (g.m_removed.filterMap g.locator ++
    g.stagingClusters.flatMap fun c => c.indices.filterMap g.locator).dedup.insertionSort (· ≤ ·)

/-- `std::sort` by decreasing feerate. -/
def sortFeerates (feerates : List FeeFrac) : List FeeFrac :=
  feerates.insertionSort fun a b => b.after a = false

def getMainStagingDiagrams (g : StagedGraph) : List FeeFrac × List FeeFrac :=
  let mainFeerates := g.getConflicts.foldl (fun ret p =>
    (g.mainClusters.getD p (.singleton none)).appendChunkFeerates ret) []
  let stagingFeerates := g.stagingClusters.foldl Cluster.appendChunkFeerates []
  (sortFeerates mainFeerates, sortFeerates stagingFeerates)

/-- `CalculateChunksForRBF`, given what `CheckMemPoolPolicyLimits` answers. -/
def calculateChunksForRBF (g : StagedGraph) (withinLimits : Bool) :
    Except String (List FeeFrac × List FeeFrac) :=
  if !withinLimits then .error "cluster size limit exceeded" else .ok g.getMainStagingDiagrams

end StagedGraph

inductive DiagramCheckError where
  | uncalculable
  | failure
  deriving DecidableEq, Repr

def improvesFeerateDiagram (chunkResults : Except String (List FeeFrac × List FeeFrac)) :
    Option (DiagramCheckError × String) :=
  match chunkResults with
  | .error e => some (.uncalculable, e)
  | .ok r =>
    if compareChunks r.2 r.1 ≠ some .greater then
      some (.failure, "insufficient feerate: does not improve feerate diagram")
    else none

end BitMinti.Model
