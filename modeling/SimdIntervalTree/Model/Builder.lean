import SimdIntervalTree.Model.Tree

/-!
# The builder (`builder.rs`)

The unstable sorts are parameters: all that is known of them is that they return a sorted
permutation. The recursion over sub-ranges is guarded by its progress: where a partition hands a
child the whole range of its parent the source recurses forever, and the model stops with
`Fault.noProgress`.
-/

namespace SimdIntervalTree

open Exec

/-- `sort_unstable_by_key` on elements of `α` with keys in `κ`: some sorted permutation. -/
structure SortUnstable (α κ : Type) [LE κ] where
  byKey : (α → κ) → List α → List α
  perm : ∀ key xs, (byKey key xs).Perm xs
  sorted : ∀ key xs, (byKey key xs).Pairwise fun a b => key a ≤ key b

namespace SortUnstable

/-- A stable sort is one of them. -/
def stable (α κ : Type) [LinearOrder κ] : SortUnstable α κ where
  byKey key xs := xs.mergeSort fun a b => decide (key a ≤ key b)
  perm _ _ := List.mergeSort_perm _ _
  sorted key xs := by
    refine (List.pairwise_mergeSort ?_ ?_ xs).imp of_decide_eq_true
    · intro a b c hab hbc
      simp only [decide_eq_true_eq] at hab hbc ⊢
      exact hab.trans hbc
    · intro a b
      simpa using le_total (key a) (key b)

end SortUnstable

/-- The two sorts of a build: the entries by start, and the positions of a node's run (with the
ends they are compared by) in descending order of their end. -/
structure Sorts (T V : Type) [LinearOrder T] where
  byStart : SortUnstable (Interval T × V) T
  byEnd : SortUnstable (UInt32 × T) Tᵒᵈ

def Sorts.stable (T V : Type) [LinearOrder T] : Sorts T V := ⟨.stable _ _, .stable _ _⟩

structure IntervalTreeBuilder (T V : Type) where
  intervals : List (Interval T × V)

structure NodeBuildData (T : Type) where
  pivot : T
  maxEnd : T
  indicesBegin : Nat
  indicesEnd : Nat
  left : UInt32
  right : UInt32

structure PartitionScratch where
  left : List Nat
  containing : List Nat
  right : List Nat

def PartitionScratch.cleared : PartitionScratch := ⟨[], [], []⟩

/-- What `build_node_recursive` passes on by mutable reference. -/
structure BuildState (T : Type) where
  indices : List Nat
  nodes : List (NodeBuildData T)
  scratch : PartitionScratch

namespace IntervalTreeBuilder

variable {T V : Type}

def new : IntervalTreeBuilder T V := ⟨[]⟩

def insert (self : IntervalTreeBuilder T V) (range : Interval T) (value : V) :
    IntervalTreeBuilder T V := ⟨self.intervals ++ [(range, value)]⟩

def len (self : IntervalTreeBuilder T V) : Nat := self.intervals.length

variable [LinearOrder T]

/-! ## Phase 2: the tree structure -/

/-- The partition loop: left (end <= pivot), containing (spans pivot), right (start > pivot). -/
def partition (starts ends : List T) (pivot : T) :
    List Nat → PartitionScratch → Exec PartitionScratch
  | [], scratch => return scratch
  | idx :: rest, scratch => do
    let start ← index starts idx
    let stop ← index ends idx
    if stop ≤ pivot then
      partition starts ends pivot rest { scratch with left := scratch.left ++ [idx] }
    else if start > pivot then
      partition starts ends pivot rest { scratch with right := scratch.right ++ [idx] }
    else
      partition starts ends pivot rest { scratch with containing := scratch.containing ++ [idx] }

/-- The first half of `build_node_recursive`: it partitions the sub-range around its median and
appends the node. Also returns where the parts of its children end and begin. -/
def splitNode (starts ends : List T) (lo hi : Nat) (st : BuildState T) :
    Exec (Nat × Nat × BuildState T) := do
  let count := hi - lo
  let mid := lo + count / 2
  let pivotIdx ← index st.indices mid
  let pivot ← index starts pivotIdx
  let range ← slice st.indices lo hi
  let scratch ← partition starts ends pivot range .cleared
  let leftEnd := lo + scratch.left.length
  let containingEnd := leftEnd + scratch.containing.length
  let indices ← copyFromSlice st.indices lo leftEnd scratch.left
  let indices ← copyFromSlice indices leftEnd containingEnd scratch.containing
  let indices ← copyFromSlice indices containingEnd hi scratch.right
  let nodes := st.nodes ++ [⟨pivot, pivot, leftEnd, containingEnd, NULL, NULL⟩]
  return (leftEnd, containingEnd, ⟨indices, nodes, scratch⟩)

/-- The end of `build_node_recursive`: the node learns its children. -/
def linkNode (nodeIdx : Nat) (leftChild rightChild : UInt32) (st : BuildState T) :
    Exec (UInt32 × BuildState T) := do
  let data ← index st.nodes nodeIdx
  let nodes ← store st.nodes nodeIdx { data with left := leftChild, right := rightChild }
  let root ← asU32 nodeIdx
  return (root, { st with nodes })

/-- The body of `build_node_recursive`, which makes its two calls through `recurse`. -/
def buildNode {m : Type → Type} [Monad m] [MonadLiftT Exec m] (starts ends : List T) (lo hi : Nat)
    (st : BuildState T)
    (recurse : (lo' hi' : Nat) → hi' - lo' < hi - lo → BuildState T → m (UInt32 × BuildState T)) :
    m (UInt32 × BuildState T) :=
  if lo ≥ hi then return (NULL, st) else do
    let nodeIdx := st.nodes.length
    let (leftEnd, containingEnd, st) ← splitNode starts ends lo hi st
    -- the source makes both calls unconditionally
    if h : leftEnd - lo < hi - lo ∧ hi - containingEnd < hi - lo then
      let (leftChild, st) ← recurse lo leftEnd h.1 st
      let (rightChild, st) ← recurse containingEnd hi h.2 st
      linkNode nodeIdx leftChild rightChild st
    else stop .noProgress

def buildNodeRecursive (starts ends : List T) (lo hi : Nat) (st : BuildState T) :
    Exec (UInt32 × BuildState T) :=
  buildNode starts ends lo hi st fun lo' hi' _ st => buildNodeRecursive starts ends lo' hi' st
termination_by hi - lo

/-! ## Phase 3: `max_end`, children before parents -/

def largestEnd (ends : List T) : List Nat → T → Exec T
  | [], maxEnd => return maxEnd
  | idx :: rest, maxEnd => do
    let stop ← index ends idx
    largestEnd ends rest (if stop > maxEnd then stop else maxEnd)

def includeChild (nodes : List (NodeBuildData T)) (child : UInt32) (maxEnd : T) : Exec T :=
  if child ≠ NULL then do
    let data ← index nodes child.toNat
    return if data.maxEnd > maxEnd then data.maxEnd else maxEnd
  else return maxEnd

/-- The loop of `compute_max_end` over the nodes below `i`, from the last one down. -/
def computeMaxEnd (ends : List T) (indices : List Nat) :
    Nat → List (NodeBuildData T) → Exec (List (NodeBuildData T))
  | 0, nodes => return nodes
  | i + 1, nodes => do
    let node ← index nodes i
    let first ← index ends (← index indices node.indicesBegin)
    let maxEnd ← largestEnd ends (← slice indices node.indicesBegin node.indicesEnd) first
    let maxEnd ← includeChild nodes node.left maxEnd
    let maxEnd ← includeChild nodes node.right maxEnd
    let nodes ← store nodes i { node with maxEnd }
    computeMaxEnd ends indices i nodes

/-! ## Phase 4: the data, contiguous per node -/

structure Layout (T V : Type) where
  starts : List T
  ends : List T
  values : List V
  nodes : List (Node T)
  tempValues : List (Option V)

/-- The inner loop: append the intervals of a run and take their values. -/
def layoutRun (inputStarts inputEnds : List T) : List Nat → Layout T V → Exec (Layout T V)
  | [], out => return out
  | oldIdx :: rest, out => do
    let start ← index inputStarts oldIdx
    let stop ← index inputEnds oldIdx
    let value ← unwrap (← index out.tempValues oldIdx)
    layoutRun inputStarts inputEnds rest
      { out with
        starts := out.starts ++ [start]
        ends := out.ends ++ [stop]
        values := out.values ++ [value]
        tempValues := out.tempValues.set oldIdx none }

def layoutNodes (inputStarts inputEnds : List T) (indices : List Nat) :
    List (NodeBuildData T) → Layout T V → Exec (Layout T V)
  | [], out => return out
  | data :: rest, out => do
    let nodeStartPos ← asU32 out.starts.length
    let run ← slice indices data.indicesBegin data.indicesEnd
    let out ← layoutRun inputStarts inputEnds run out
    let nodeEndPos ← asU32 out.starts.length
    let node : Node T :=
      { pivot := data.pivot, maxEnd := data.maxEnd
        dataBegin := nodeStartPos, dataEnd := nodeEndPos, byEndBegin := 0, byEndEnd := 0
        left := data.left, right := data.right }
    layoutNodes inputStarts inputEnds indices rest { out with nodes := out.nodes ++ [node] }

/-! ## Phase 5: the by-end order of each node -/

structure ByEnd (T : Type) where
  nodes : List (Node T)
  endsDesc : List T
  byEndIndices : List UInt32

/-- The positions `begin..end` in ascending order. -/
def positions (dataBegin dataEnd : UInt32) : List UInt32 :=
  (List.range' dataBegin.toNat (dataEnd.toNat - dataBegin.toNat)).map UInt32.ofNat

/-- The keys a sort of positions reads. -/
def withEnds (ends : List T) : List UInt32 → Exec (List (UInt32 × T))
  | [] => return []
  | i :: rest => do
    let stop ← index ends i.toNat
    return (i, stop) :: (← withEnds ends rest)

def byEndRuns (sorts : Sorts T V) (ends : List T) : List (Node T) → ByEnd T → Exec (ByEnd T)
  | [], out => return out
  | node :: rest, out => do
    let byEndBegin ← asU32 out.endsDesc.length
    let sortIndices ← withEnds ends (positions node.dataBegin node.dataEnd)
    let sortIndices := (sorts.byEnd.byKey (fun i => OrderDual.toDual i.2) sortIndices).map (·.1)
    let run ← withEnds ends sortIndices
    let endsDesc := out.endsDesc ++ run.map (·.2)
    let byEndEnd ← asU32 endsDesc.length
    byEndRuns sorts ends rest
      { nodes := out.nodes ++ [{ node with byEndBegin, byEndEnd }]
        endsDesc
        byEndIndices := out.byEndIndices ++ sortIndices }

/-! ## The pipeline -/

def SIZE_LIMIT : Nat := 4294967295

/-- The body of `build`, with its second phase as a parameter. -/
def buildBy {m : Type → Type} [Monad m] [MonadLiftT Exec m] (self : IntervalTreeBuilder T V)
    (sorts : Sorts T V)
    (phase2 : List T → List T → Nat → Nat → BuildState T → m (UInt32 × BuildState T)) :
    m (IntervalTree T V) :=
  if self.intervals.length < SIZE_LIMIT then do
    let retained := self.intervals.filter fun e => decide (e.1.start < e.1.stop)
    let n := retained.length
    if n = 0 then return .empty
    let sorted := sorts.byStart.byKey (fun e => e.1.start) retained
    let inputStarts := sorted.map (·.1.start)
    let inputEnds := sorted.map (·.1.stop)
    let inputValues := sorted.map (·.2)
    let (_, st) ← phase2 inputStarts inputEnds 0 n ⟨List.range n, [], .cleared⟩
    let nodeData ← computeMaxEnd inputEnds st.indices st.nodes.length st.nodes
    let data ← layoutNodes inputStarts inputEnds st.indices nodeData
      ⟨[], [], [], [], inputValues.map some⟩
    let byEnd ← byEndRuns sorts data.ends data.nodes ⟨[], [], []⟩
    return { starts := data.starts, ends := data.ends, values := data.values,
             nodes := byEnd.nodes, endsDesc := byEnd.endsDesc, byEndIndices := byEnd.byEndIndices }
  else stop .assertion

def build (self : IntervalTreeBuilder T V) (sorts : Sorts T V) : Exec (IntervalTree T V) :=
  self.buildBy sorts buildNodeRecursive

end IntervalTreeBuilder

end SimdIntervalTree
