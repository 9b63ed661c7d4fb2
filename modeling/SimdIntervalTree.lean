import SimdIntervalTree.Lib.Exec
import SimdIntervalTree.Lib.ControlFlow
import SimdIntervalTree.Lib.SortedPrefix
import SimdIntervalTree.Model.Interval
import SimdIntervalTree.Lib.BinarySearch
import SimdIntervalTree.Model.Simd
import SimdIntervalTree.Model.Tree
import SimdIntervalTree.Model.Builder
import SimdIntervalTree.Model.Query
import SimdIntervalTree.Model.Mutable
import SimdIntervalTree.Lib.CenterQuery
import SimdIntervalTree.Lib.CenterCost
import SimdIntervalTree.Builder.Recursion
import SimdIntervalTree.Builder.MaxEnd
import SimdIntervalTree.Builder.Layout
import SimdIntervalTree.Builder.ByEnd
import SimdIntervalTree.Builder.Represents
import SimdIntervalTree.Builder.WellFormed
import SimdIntervalTree.Lib.CenterTies
import SimdIntervalTree.Builder.Order
import SimdIntervalTree.Lib.Iterator
import SimdIntervalTree.Traversal.Visit
import SimdIntervalTree.Traversal.Walk
import SimdIntervalTree.Traversal.Iterator
import SimdIntervalTree.Traversal.Queries
import SimdIntervalTree.Traversal.Depth
import SimdIntervalTree.Traversal.Delay
import SimdIntervalTree.Lib.Counted
import SimdIntervalTree.Builder.Cost
import SimdIntervalTree.Builder.Frames
import SimdIntervalTree.Simd.Kernels
import SimdIntervalTree.Simd.Hybrid
import SimdIntervalTree.Simd.Probes
import SimdIntervalTree.Lib.RelaxedCell
import SimdIntervalTree.Lib.Run
import SimdIntervalTree.Lib.Amortised
import SimdIntervalTree.Model.Level
import SimdIntervalTree.Simd.Level
import SimdIntervalTree.Traversal.Strategies
import SimdIntervalTree.Traversal.Frames
import SimdIntervalTree.Traversal.CountCost
import SimdIntervalTree.Traversal.WalkCost
import SimdIntervalTree.Mutable.Ids
import SimdIntervalTree.Mutable.Slots
import SimdIntervalTree.Mutable.Index
import SimdIntervalTree.Lib.Registry
import SimdIntervalTree.Mutable.Refinement
import SimdIntervalTree.Mutable.Validity
import SimdIntervalTree.Mutable.Soundness
import SimdIntervalTree.Mutable.Rebuilds
import SimdIntervalTree.Mutable.Representation
import SimdIntervalTree.Mutable.Space
import SimdIntervalTree.Mutable.Issued
import SimdIntervalTree.Mutable.Snapshot
import SimdIntervalTree.Lib.Adapters
import SimdIntervalTree.Model.LazyQuery
import SimdIntervalTree.Mutable.LazyQuery
import SimdIntervalTree.Mutable.Transparency
import SimdIntervalTree.Mutable.Faults
import SimdIntervalTree.Model.Unwinding
import SimdIntervalTree.Mutable.Unwinding
import SimdIntervalTree.Mutable.Amortised
