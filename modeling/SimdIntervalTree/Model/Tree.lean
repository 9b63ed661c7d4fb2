import SimdIntervalTree.Lib.ControlFlow
import SimdIntervalTree.Model.Interval
import SimdIntervalTree.Model.Simd

/-!
# The tree and its traversals (`tree.rs`)

A `Range<usize>` is a pair of positions whose second bound is called `stop` here. The recursive
traversals follow child indices that the code does not check, so they take fuel; the entry points
supply one unit for each node.
-/

namespace SimdIntervalTree

open Exec

structure Node (T : Type) where
  pivot : T
  maxEnd : T
  dataBegin : UInt32
  dataEnd : UInt32
  byEndBegin : UInt32
  byEndEnd : UInt32
  left : UInt32
  right : UInt32
  deriving DecidableEq, Repr

/-- `u32::MAX`, the index of no node. -/
def NULL : UInt32 := 4294967295

structure IntervalTree (T V : Type) where
  starts : List T
  ends : List T
  values : List V
  nodes : List (Node T)
  endsDesc : List T
  byEndIndices : List UInt32

namespace IntervalTree

variable {T V : Type}

def empty : IntervalTree T V := ⟨[], [], [], [], [], []⟩

def len (self : IntervalTree T V) : Nat := self.values.length

def isEmpty (self : IntervalTree T V) : Bool := self.values.isEmpty

def nodeCount (self : IntervalTree T V) : Nat := self.nodes.length

end IntervalTree

structure Range where
  start : Nat
  stop : Nat
  deriving DecidableEq, Repr

namespace Range

def len (self : Range) : Nat := self.stop - self.start

/-- `Iterator::next`: the next position and the range that is left. -/
def next (self : Range) : Option Nat × Range :=
  if self.start < self.stop then (some self.start, ⟨self.start + 1, self.stop⟩) else (none, self)

end Range

/-- A run of positions in one of the tree's two orderings, sorted so the overlaps come first. -/
inductive Scan
  | All (run : Range)
  | EndsAbove (run : Range)
  | StartsBelow (run : Range)
  deriving DecidableEq, Repr

namespace Scan

def NONE : Scan := All ⟨0, 0⟩

def run : Scan → Range
  | All run | EndsAbove run | StartsBelow run => run

end Scan

structure Visit where
  scan : Scan
  left : UInt32
  right : UInt32

namespace IntervalTree

variable {T V : Type} [LinearOrder T] (self : IntervalTree T V) {m : Type → Type} [Monad m]
  [MonadLiftT Exec m]

/-- Classify a node by where its pivot lies; `none` when its subtree ends before the query. -/
def visit (C : Cutoffs T m) (nodeIdx : UInt32) (query : Interval T) : m (Option Visit) := do
  let node ← index self.nodes nodeIdx.toNat
  if node.maxEnd ≤ query.start then
    return none
  let byStart : Range := ⟨node.dataBegin.toNat, node.dataEnd.toNat⟩
  let byEnd : Range := ⟨node.byEndBegin.toNat, node.byEndEnd.toNat⟩
  if query.start ≤ node.pivot ∧ node.pivot < query.stop then
    return some { scan := .All byStart, left := node.left, right := node.right }
  else if node.pivot < query.start then
    let len ← C.firstLe (← slice self.endsDesc byEnd.start byEnd.stop) query.start
    return some
      { scan := .EndsAbove ⟨byEnd.start, byEnd.start + len⟩, left := NULL, right := node.right }
  else
    let len ← C.firstGe (← slice self.starts byStart.start byStart.stop) query.stop
    return some
      { scan := .StartsBelow ⟨byStart.start, byStart.start + len⟩
        left := node.left
        right := NULL }

def byStart (pos : Nat) : Exec (Interval T × V) := do
  let start ← index self.starts pos
  let stop ← index self.ends pos
  let value ← index self.values pos
  return (⟨start, stop⟩, value)

def byEnd (pos : Nat) : Exec (Interval T × V) := do
  let i ← index self.byEndIndices pos
  let start ← index self.starts i.toNat
  let stop ← index self.endsDesc pos
  let value ← index self.values i.toNat
  return (⟨start, stop⟩, value)

/-- The next overlapping interval of a scan and the scan that is left. -/
def nextHit (scan : Scan) (query : Interval T) : Exec (Option (Interval T × V) × Scan) :=
  match scan with
  | .All run =>
    match run.next with
    | (none, run) => return (none, .All run)
    | (some pos, run) => do return (some (← self.byStart pos), .All run)
  | .EndsAbove run =>
    match run.next with
    | (none, run) => return (none, .EndsAbove run)
    | (some pos, run) => do
      let stop ← index self.endsDesc pos
      if stop ≤ query.start then
        return (none, .EndsAbove ⟨pos, pos⟩)
      return (some (← self.byEnd pos), .EndsAbove run)
  | .StartsBelow run =>
    match run.next with
    | (none, run) => return (none, .StartsBelow run)
    | (some pos, run) => do
      let start ← index self.starts pos
      if start ≥ query.stop then
        return (none, .StartsBelow ⟨pos, pos⟩)
      return (some (← self.byStart pos), .StartsBelow run)

/-- Where a traversal has nothing to look for, or nothing to look at, it is not started. -/
def unlessEmpty {α : Type} (query : Interval T) (a : α) (traverse : m α) : m α :=
  if query.start ≥ query.stop ∨ self.nodes.isEmpty then return a else traverse

/-! ## Callback traversal -/

section

variable {σ B : Type} (callback : σ → Interval T × V → σ × ControlFlow B)

/-- The `while let` loop over one node's hits. Each round consumes a position of the run. -/
def drain (query : Interval T) : Nat → Scan → σ → Exec (σ × ControlFlow B)
  | 0, _, _ => .error .fuel
  | fuel + 1, scan, s => do
    match ← self.nextHit scan query with
    | (none, _) => return (s, .Continue)
    | (some hit, scan) =>
      match callback s hit with
      | (s, .Break b) => return (s, .Break b)
      | (s, .Continue) => drain query fuel scan s

/-- One round of the loop over the children, entered unless the callback broke. -/
def walkChild (walk : UInt32 → σ → m (σ × ControlFlow B)) (child : UInt32) :
    σ × ControlFlow B → m (σ × ControlFlow B)
  | (s, .Break b) => return (s, .Break b)
  | (s, .Continue) => if child ≠ NULL then walk child s else return (s, .Continue)

/-- `walk`, with the node to be classified by `visit`. -/
def walkBy (visit : UInt32 → m (Option Visit)) (query : Interval T) :
    Nat → UInt32 → σ → m (σ × ControlFlow B)
  | 0, _, _ => stop .fuel
  | fuel + 1, nodeIdx, s => do
    match ← visit nodeIdx with
    | none => return (s, .Continue)
    | some visited =>
      let r ← self.drain callback query (visited.scan.run.len + 1) visited.scan s
      let r ← walkChild (walkBy visit query fuel) visited.left r
      walkChild (walkBy visit query fuel) visited.right r

def walk (C : Cutoffs T) (query : Interval T) : Nat → UInt32 → σ → Exec (σ × ControlFlow B) :=
  self.walkBy callback (self.visit C · query) query

def queryWith (query : Interval T) (s : σ) : Exec (σ × ControlFlow B) :=
  self.unlessEmpty query (s, .Continue) (self.walk callback Scalar query self.nodes.length 0 s)

end

/-! ## The entry points for `i64` -/

section

variable (self : IntervalTree Int64 V) (target : Target)

/-- One round of the loop over the children. -/
def countChild (count : UInt32 → m Nat) (child : UInt32) : m Nat :=
  if child ≠ NULL then count child else return 0

/-- `count`, with the node to be classified by `visit`. -/
def countBy (visit : UInt32 → m (Option Visit)) : Nat → UInt32 → m Nat
  | 0, _ => stop .fuel
  | fuel + 1, nodeIdx => do
    match ← visit nodeIdx with
    | none => return 0
    | some visited =>
      let left ← countChild (countBy visit fuel) visited.left
      let right ← countChild (countBy visit fuel) visited.right
      return visited.scan.run.len + left + right

def count (query : Interval Int64) : Nat → UInt32 → Exec Nat :=
  countBy (self.visit (Simd target) · query)

def countOverlaps (query : Interval Int64) : Exec Nat :=
  self.unlessEmpty query 0 (self.count target query self.nodes.length 0)

def querySimd {σ B : Type} (callback : σ → Interval Int64 × V → σ × ControlFlow B)
    (query : Interval Int64) (s : σ) : Exec (σ × ControlFlow B) :=
  self.unlessEmpty query (s, .Continue)
    (self.walk callback (Simd target) query self.nodes.length 0 s)

end

end IntervalTree

end SimdIntervalTree
