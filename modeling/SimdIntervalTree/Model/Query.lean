import SimdIntervalTree.Model.Tree

/-!
# The query iterator (`query.rs`)

The stack is an array of 64 node indices with a separate length; writing past its end is a bounds
fault. The loop of `next` is bounded by fuel, of which `next` supplies more than it has nodes to
pop.
-/

namespace SimdIntervalTree

open Exec

structure QueryIter (T V : Type) where
  tree : IntervalTree T V
  query : Interval T
  stack : List UInt32
  stackLen : Nat
  scan : Scan

namespace QueryIter

variable {T V : Type} [LinearOrder T]

def push (self : QueryIter T V) (nodeIdx : UInt32) : Exec (QueryIter T V) := do
  let stack ← store self.stack self.stackLen nodeIdx
  return { self with stack, stackLen := self.stackLen + 1 }

/-- The iterator before its first push. -/
def start (tree : IntervalTree T V) (query : Interval T) : QueryIter T V where
  tree := tree
  query := query
  stack := List.replicate 64 0
  stackLen := 0
  scan := Scan.NONE

def new (tree : IntervalTree T V) (query : Interval T) : Exec (QueryIter T V) :=
  if !tree.nodes.isEmpty ∧ query.start < query.stop then (start tree query).push 0
  else return start tree query

/-- One round of the loop over the children. -/
def pushChild (child : UInt32) (self : QueryIter T V) : Exec (QueryIter T V) :=
  if child ≠ NULL then self.push child else return self

/-- The rest of the loop body of `next`, once the scan is exhausted: pop a node and unless it is
pruned take over its scan and push its children, the right one first. -/
def expand (self : QueryIter T V) : Exec (QueryIter T V) := do
  let self := { self with stackLen := self.stackLen - 1 }
  let nodeIdx ← index self.stack self.stackLen
  match ← self.tree.visit Scalar nodeIdx self.query with
  | none => return self
  | some visit =>
    let self ← pushChild visit.right { self with scan := visit.scan }
    pushChild visit.left self

def nextLoop : Nat → QueryIter T V → Exec (Option (Interval T × V) × QueryIter T V)
  | 0, _ => .error .fuel
  | fuel + 1, self => do
    let (hit, scan) ← self.tree.nextHit self.scan self.query
    let self := { self with scan }
    match hit with
    | some entry => return (some entry, self)
    | none => if self.stackLen = 0 then return (none, self) else nextLoop fuel (← self.expand)

def next (self : QueryIter T V) : Exec (Option (Interval T × V) × QueryIter T V) :=
  nextLoop (self.tree.nodes.length + 1) self

/-- Call `next` until it returns `None`. -/
def collectLoop : Nat → QueryIter T V → Exec (List (Interval T × V))
  | 0, _ => .error .fuel
  | fuel + 1, self => do
    match ← self.next with
    | (none, _) => return []
    | (some entry, self) => return entry :: (← collectLoop fuel self)

def collect (self : QueryIter T V) : Exec (List (Interval T × V)) :=
  collectLoop (self.tree.len + 1) self

end QueryIter

namespace IntervalTree

variable {T V : Type} [LinearOrder T]

def query (self : IntervalTree T V) (range : Interval T) : Exec (QueryIter T V) :=
  QueryIter.new self range

end IntervalTree

end SimdIntervalTree
