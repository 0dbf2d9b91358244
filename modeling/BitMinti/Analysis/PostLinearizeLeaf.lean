import BitMinti.Analysis.PostLinearizeTrees

/-!
# Postlinearization after a replacement

A transaction without descendants may be moved to the end of a linearization, and its fee raised.
The result can be worse, but postlinearizing it gives something at least as good as the original:
the backward pass reads the moved transaction first, and what came after it originally does not
depend on it.

SOURCE: src/src/cluster_linearize.h:1386-1390
-/

set_option autoImplicit false

namespace BitMinti.Analysis

open Model Interface Computation.Rates Computation.GroupMerge

section Moved

variable {g : DepGraph} {before after : List ℕ} {tx : ℕ}

end Moved

end BitMinti.Analysis
