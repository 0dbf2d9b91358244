import BitMinti.Computation.Diagram
import BitMinti.Model.ClusterLinearize
import Mathlib.Tactic.MkIffOfInductiveProp

/-!
# What a dependency graph and a linearization are

The sets of ancestors and descendants of a dependency graph are each other's converse, reflexive
and transitive.  A linearization is an order of its transactions in which none comes before one of
its ancestors.  Linearizations are compared by their feerate diagrams: the cumulative fee at every
size, on straight lines between the ends of the chunks and flat after the last.

SOURCE: src/src/cluster_linearize.h:25-56, src/src/util/feefrac.h:226-240
-/

set_option autoImplicit false

namespace BitMinti.Interface

open Model BitMinti.Computation

/-- **A consistent graph**: ancestors and descendants are what their names say. -/
@[mk_iff] structure ConsistentGraph (g : DepGraph) : Prop where
  inRange : ∀ i ∈ g.positions, i < g.positionRange
  self_mem : ∀ i ∈ g.positions, i ∈ g.ancestors i
  ancestors_used : ∀ i ∈ g.positions, g.ancestors i ⊆ g.positions
  descendants_used : ∀ i ∈ g.positions, g.descendants i ⊆ g.positions
  converse : ∀ i ∈ g.positions, ∀ j ∈ g.positions, j ∈ g.ancestors i ↔ i ∈ g.descendants j
  trans : ∀ i ∈ g.positions, ∀ j ∈ g.ancestors i, g.ancestors j ⊆ g.ancestors i

instance (g : DepGraph) : Decidable (ConsistentGraph g) :=
  decidable_of_iff' _ (consistentGraph_iff g)

/-- A consistent graph without cycles and with positive sizes. -/
@[mk_iff] structure AcyclicGraph (g : DepGraph) : Prop extends ConsistentGraph g where
  acyclic : g.isAcyclic = true
  sizes_pos : ∀ i ∈ g.positions, 0 < (g.feeRate i).size

instance (g : DepGraph) : Decidable (AcyclicGraph g) := decidable_of_iff' _ (acyclicGraph_iff g)

/-- An order of the graph's transactions, every ancestor before its descendants. -/
structure IsLinearization (g : DepGraph) (linearization : List ℕ) : Prop where
  nodup : linearization.Nodup
  mem_iff : ∀ i, i ∈ linearization ↔ i ∈ g.positions
  topological : linearization.Pairwise fun earlier later => later ∉ g.ancestors earlier

/-- A feerate as value and weight. -/
def toWorth (f : FeeFrac) : Rates.Worth := (f.fee, f.size)

/-- The fee that the diagram of the chunks gives at a size. -/
def feerateDiagram (chunks : List FeeFrac) (size : ℚ) : ℚ :=
  Diagram.diagram (chunks.map toWorth) size

/-- The diagram of `new` is at least as good as that of `old` at every size. -/
def AtLeastAsGood (new old : List FeeFrac) : Prop :=
  ∀ size : ℚ, 0 ≤ size → feerateDiagram old size ≤ feerateDiagram new size

end BitMinti.Interface
