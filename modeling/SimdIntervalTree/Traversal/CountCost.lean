import SimdIntervalTree.Simd.Probes
import SimdIntervalTree.Traversal.Strategies
import SimdIntervalTree.Traversal.WalkCost

/-!
# The cost of `count_overlaps`

A node whose pivot the query contains is counted without a look at its intervals. A search is made
in the others, and a traversal meets at most two of these a level.
-/

namespace SimdIntervalTree

open Exec CenterTree IntervalTreeBuilder

variable {V : Type}

namespace IntervalTree

variable (self : IntervalTree Int64 V) (target : Target)

end IntervalTree

variable {tree : IntervalTree Int64 V} {target : Target} {query : Interval Int64}
  {t : BinaryTree (Run Int64 (Interval Int64 × V))}

variable {n : Nat}

namespace IntervalTreeBuilder

end IntervalTreeBuilder

end SimdIntervalTree
