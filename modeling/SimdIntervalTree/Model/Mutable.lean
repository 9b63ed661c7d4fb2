import SimdIntervalTree.Model.Builder
import SimdIntervalTree.Model.Query

/-!
# The mutable set (`mutable.rs`)

Slots are unbounded natural numbers and an ID packs one into 64 bits as a 64-bit `usize` is cast:
the shifted generation and the slot are or-ed without a mask. `free_slots` is a stack that grows at
its end. `Op` and `Output` are the calls of a client and their results.
-/

namespace SimdIntervalTree

open Exec

structure IntervalId where
  raw : UInt64
  deriving DecidableEq, Repr

namespace IntervalId

def new (slot : Nat) (generation : UInt32) : IntervalId :=
  ⟨(generation.toUInt64 <<< 32) ||| UInt64.ofNat slot⟩

def slot (self : IntervalId) : Nat := (self.raw &&& 0xFFFFFFFF).toNat

def generation (self : IntervalId) : UInt32 := (self.raw >>> 32).toUInt32

def asU64 (self : IntervalId) : UInt64 := self.raw

end IntervalId

structure Entry (T V : Type) where
  interval : Interval T
  value : V
  generation : UInt32

def rebuildThreshold (treeLen : Nat) : Nat := max (Nat.sqrt treeLen) 64

structure IntervalSet (T V : Type) where
  entries : List (Option (Entry T V))
  freeSlots : List Nat
  nextGeneration : UInt32
  count : Nat
  tree : IntervalTree T IntervalId
  pending : List IntervalId
  removedSinceRebuild : Nat

namespace IntervalSet

variable {T V : Type}

def new : IntervalSet T V where
  entries := []
  freeSlots := []
  nextGeneration := 0
  count := 0
  tree := .empty
  pending := []
  removedSinceRebuild := 0

def len (self : IntervalSet T V) : Nat := self.count

def isEmpty (self : IntervalSet T V) : Bool := self.count == 0

def clear (self : IntervalSet T V) : IntervalSet T V :=
  { self with
    entries := []
    freeSlots := []
    count := 0
    tree := .empty
    pending := []
    removedSinceRebuild := 0 }

/-- The live entry for `id`, or `none` if it was removed. -/
def entry (self : IntervalSet T V) (id : IntervalId) : Option (Entry T V) := do
  let occupant ← self.entries[id.slot]?
  occupant.filter fun entry => entry.generation == id.generation

def get (self : IntervalSet T V) (id : IntervalId) : Option V := (self.entry id).map (·.value)

def getInterval (self : IntervalSet T V) (id : IntervalId) : Option (Interval T) :=
  (self.entry id).map (·.interval)

def iter (self : IntervalSet T V) : List (IntervalId × Interval T × V) :=
  self.entries.zipIdx.filterMap fun (entry, slot) =>
    entry.map fun e => (IntervalId.new slot e.generation, e.interval, e.value)

variable [LinearOrder T] (sorts : Sorts T IntervalId)

/-- The intervals a rebuild hands to the builder: every occupied slot, in slot order. -/
def occupied (self : IntervalSet T V) : List (Interval T × IntervalId) :=
  self.entries.zipIdx.filterMap fun (entry, slot) =>
    entry.map fun e => (e.interval, IntervalId.new slot e.generation)

def rebuildIfDue (self : IntervalSet T V) : Exec (IntervalSet T V) :=
  if self.pending.length + self.removedSinceRebuild ≤ rebuildThreshold self.tree.len then
    return self
  else do
    let tree ← (IntervalTreeBuilder.mk self.occupied).build sorts
    return { self with tree, pending := [], removedSinceRebuild := 0 }

/-- Put an entry into the slot on top of `free_slots`, or into a new one. -/
def place (self : IntervalSet T V) (entry : Entry T V) : Exec (Nat × IntervalSet T V) :=
  match self.freeSlots.getLast? with
  | some slot => do
    let entries ← store self.entries slot (some entry)
    return (slot, { self with entries, freeSlots := self.freeSlots.dropLast })
  | none => return (self.entries.length, { self with entries := self.entries ++ [some entry] })

def insert (self : IntervalSet T V) (range : Interval T) (value : V) :
    Exec (IntervalId × IntervalSet T V) := do
  let generation := self.nextGeneration
  let self := { self with nextGeneration := self.nextGeneration + 1 }
  let (slot, self) ← self.place { interval := range, value, generation }
  let id := IntervalId.new slot generation
  let self ← rebuildIfDue sorts
    { self with count := self.count + 1, pending := self.pending ++ [id] }
  return (id, self)

def remove (self : IntervalSet T V) (id : IntervalId) : Exec (Bool × IntervalSet T V) :=
  match self.entry id with
  | none => return (false, self)
  | some _ => do
    let entries ← store self.entries id.slot none
    let self ← rebuildIfDue sorts
      { self with
        entries
        freeSlots := self.freeSlots ++ [id.slot]
        count := self.count - 1
        removedSinceRebuild := self.removedSinceRebuild + 1 }
    return (true, self)

def query (self : IntervalSet T V) (range : Interval T) :
    Exec (List (IntervalId × Interval T × V)) := do
  let hits ← (← self.tree.query range).collect
  let fromTree := hits.map (·.2)
  let fromPending := self.pending.filter fun id =>
    (self.entry id).any fun entry => entry.interval.overlaps range
  return (fromTree ++ fromPending).filterMap fun id =>
    (self.entry id).map fun e => (id, e.interval, e.value)

/-! ## Runs of a client -/

inductive Op (T V : Type)
  | insert (range : Interval T) (value : V)
  | remove (id : IntervalId)
  | clear
  | get (id : IntervalId)
  | getInterval (id : IntervalId)
  | iter
  | len
  | query (range : Interval T)

inductive Output (T V : Type)
  | id (id : IntervalId)
  | removed (found : Bool)
  | cleared
  | value (v : Option V)
  | interval (interval : Option (Interval T))
  | entries (entries : List (IntervalId × Interval T × V))
  | len (n : Nat)

def step (self : IntervalSet T V) : Op T V → Exec (Output T V × IntervalSet T V)
  | .insert range value => do
    let (id, self) ← self.insert sorts range value
    return (.id id, self)
  | .remove id => do
    let (found, self) ← self.remove sorts id
    return (.removed found, self)
  | .clear => return (.cleared, self.clear)
  | .get id => return (.value (self.get id), self)
  | .getInterval id => return (.interval (self.getInterval id), self)
  | .iter => return (.entries self.iter, self)
  | .len => return (.len self.len, self)
  | .query range => return (.entries (← self.query range), self)

end IntervalSet

end SimdIntervalTree
