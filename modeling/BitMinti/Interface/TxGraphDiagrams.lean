import BitMinti.Interface.FeerateDiagram
import BitMinti.Model.TxGraphDiagrams

/-!
# The diagrams of the whole mempool

Staging has its own clusters and shares with main those clusters of main none of whose transactions
it removes or has in a cluster of its own.

SOURCE: src/src/txgraph.cpp:2723-2747
-/

set_option autoImplicit false

namespace BitMinti.Interface

open Model

/-- Staging leaves the cluster of main as it is. -/
def SharedCluster (g : StagedGraph) (p : ℕ) : Prop :=
  ∀ i, g.locator i = some p → i ∉ g.m_removed ∧ ∀ c ∈ g.stagingClusters, i ∉ c.indices

/-- The chunks of clusters. -/
def chunksOf (clusters : List Cluster) : List FeeFrac :=
  clusters.flatMap (Cluster.appendChunkFeerates [])

open Classical in
/-- The clusters that main and staging share. -/
noncomputable def sharedClusters (g : StagedGraph) : List Cluster :=
  ((List.range g.mainClusters.length).filter fun p => SharedCluster g p).map fun p =>
    g.mainClusters.getD p (.singleton none)

end BitMinti.Interface
