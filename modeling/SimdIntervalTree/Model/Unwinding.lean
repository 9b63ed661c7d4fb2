import SimdIntervalTree.Model.Mutable

/-!
# Calls that unwind (`mutable.rs`)

A client may catch a panic and go on with the set as the call has left it. Here a call always leaves
a set, whatever comes of it. The bounds of a range are checked when it is converted, which `insert`
does after it has taken a generation.
-/

namespace SimdIntervalTree

open Exec

/-- What a client passes as `R: Into<Interval<T>>`: a `Range`, or an interval. -/
inductive IntoInterval (T : Type)
  | range (start stop : T)
  | interval (self : Interval T)

/-- `range.into()` -/
def IntoInterval.into {T : Type} [LinearOrder T] : IntoInterval T → Exec (Interval T)
  | .range start stop => Interval.new start stop
  | .interval self => .ok self

namespace IntervalSet

variable {T V : Type} [LinearOrder T] (sorts : Sorts T IntervalId)

/-- `rebuild_if_due` replaces the tree once it is built. -/
def tryRebuildIfDue (self : IntervalSet T V) : Exec Unit × IntervalSet T V :=
  match self.rebuildIfDue sorts with
  | .ok self => (.ok (), self)
  | .error f => (.error f, self)

def tryInsert (self : IntervalSet T V) (range : IntoInterval T) (value : V) :
    Exec IntervalId × IntervalSet T V :=
  let generation := self.nextGeneration
  let self := { self with nextGeneration := self.nextGeneration + 1 }
  match range.into with
  | .error f => (.error f, self)
  | .ok interval =>
    match self.place { interval, value, generation } with
    | .error f => (.error f, { self with freeSlots := self.freeSlots.dropLast })
    | .ok (slot, self) =>
      let id := IntervalId.new slot generation
      let (done, self) := tryRebuildIfDue sorts
        { self with count := self.count + 1, pending := self.pending ++ [id] }
      (done.map fun _ => id, self)

def tryRemove (self : IntervalSet T V) (id : IntervalId) : Exec Bool × IntervalSet T V :=
  match self.entry id with
  | none => (.ok false, self)
  | some _ =>
    match store self.entries id.slot none with
    | .error f => (.error f, self)
    | .ok entries =>
      let (done, self) := tryRebuildIfDue sorts
        { self with
          entries
          freeSlots := self.freeSlots ++ [id.slot]
          count := self.count - 1
          removedSinceRebuild := self.removedSinceRebuild + 1 }
      (done.map fun _ => true, self)

/-! ## Runs of a client that catches panics -/

inductive Request (T V : Type)
  | insert (range : IntoInterval T) (value : V)
  | remove (id : IntervalId)
  | clear
  | get (id : IntervalId)
  | getInterval (id : IntervalId)
  | iter
  | len
  | query (range : IntoInterval T)

/-- What comes of a request, and the set that it leaves. -/
def attempt (self : IntervalSet T V) : Request T V → Exec (Output T V) × IntervalSet T V
  | .insert range value =>
    let (id, self) := self.tryInsert sorts range value
    (id.map .id, self)
  | .remove id =>
    let (found, self) := self.tryRemove sorts id
    (found.map .removed, self)
  | .clear => (.ok .cleared, self.clear)
  | .get id => (.ok (.value (self.get id)), self)
  | .getInterval id => (.ok (.interval (self.getInterval id)), self)
  | .iter => (.ok (.entries self.iter), self)
  | .len => (.ok (.len self.len), self)
  | .query range => (do return .entries (← self.query (← range.into)), self)

end IntervalSet

end SimdIntervalTree
