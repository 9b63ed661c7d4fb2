import SimdIntervalTree.Lib.Adapters
import SimdIntervalTree.Model.Mutable

/-!
# The iterator of `IntervalSet::query` (`mutable.rs`)

The source returns its adapters before anything is looked up. `IntervalSet.query` is the list of
all that they yield; here they are driven by one call of `next` after the other.
-/

namespace SimdIntervalTree.IntervalSet

open Exec

variable {T V : Type} [LinearOrder T]

/-- `from_tree.chain(from_pending)`, with what the two still have to yield. -/
abbrev QueryChain (T : Type) := Chain (QueryIter T IntervalId) (List IntervalId)

def queryChain (self : IntervalSet T V) (range : Interval T) : Exec (QueryChain T) := do
  let fromTree ← self.tree.query range
  return { a := some fromTree, b := self.pending }

/-- A call of `next`, with `fuel` rounds for the loop of each filter. -/
def queryNextWithin (self : IntervalSet T V) (range : Interval T) (fuel : Nat) :
    QueryChain T → Exec (Option (IntervalId × Interval T × V) × QueryChain T) :=
  let fromTree := mapNext (fun hit : Interval T × IntervalId => hit.2) QueryIter.next
  let fromPending := filterNext
    (fun id => (self.entry id).any fun entry => entry.interval.overlaps range) sliceNext fuel
  filterMapNext (fun id => (self.entry id).map fun e => (id, e.interval, e.value))
    (chainNext fromTree fromPending) fuel

/-- There are no more rounds than IDs. -/
def queryNext (self : IntervalSet T V) (range : Interval T) :
    QueryChain T → Exec (Option (IntervalId × Interval T × V) × QueryChain T) :=
  self.queryNextWithin range (self.tree.len + self.pending.length + 1)

end SimdIntervalTree.IntervalSet
