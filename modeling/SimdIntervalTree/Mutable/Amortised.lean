import SimdIntervalTree.Builder.Cost
import SimdIntervalTree.Lib.Amortised
import SimdIntervalTree.Mutable.Rebuilds

/-!
# The cost of rebuilds

A rebuild splits all live intervals again, but only once the insertions and removals since the last
one outnumber the root of the tree. Spread over these calls it costs each of them about the root of
the number of intervals, times the levels of a tree.
-/

namespace SimdIntervalTree

open Exec IntervalTreeBuilder

namespace IntervalSet

variable {T V : Type} [LinearOrder T]

/-! ## Counted calls -/

variable {s s' r : IntervalSet T V} {sorts : Sorts T IntervalId} {call : Op T V}
  {result : Output T V} {id : IntervalId} {range : Interval T} {value : V} {k : Nat}

/-- The slot holds an interval that the builder keeps. -/
def keeps (occupant : Option (Entry T V)) : Bool :=
  occupant.any fun e => decide (e.interval.start < e.interval.stop)

theorem kept_eq_countP : s.kept = s.entries.countP keeps := by
  rw [kept, occupied, List.countP_filterMap]
  conv_rhs => rw [← List.zipIdx_map_fst 0 s.entries, List.countP_map]
  apply List.countP_congr
  rintro ⟨occupant, slot⟩ _
  cases occupant <;> simp [keeps]

theorem kept_le_len (h : s.Slots) : s.kept ≤ s.len := by
  rw [kept_eq_countP, len, h.count]
  refine List.countP_mono_left fun occupant _ hkeeps => ?_
  cases occupant with
  | none => cases hkeeps
  | some e => rfl

theorem kept_added_le (h : s.Slots) : (s.added range value).kept ≤ s.kept + 1 := by
  rw [kept_eq_countP, kept_eq_countP, added]
  cases hs : s.freeSlots.getLast? with
  | none =>
    dsimp only
    rw [List.countP_append, List.countP_singleton]
    split <;> omega
  | some slot =>
    obtain ⟨-, -, hlt⟩ := h.nextSlot_of_free hs
    dsimp only
    rw [List.countP_set hlt]
    split <;> split <;> omega

theorem kept_dropped_le : (s.dropped id).kept ≤ s.kept := by
  rw [kept_eq_countP, kept_eq_countP, dropped]
  by_cases hlt : id.slot < s.entries.length
  · rw [List.countP_set hlt]
    exact Nat.sub_le _ _
  · rw [List.set_eq_of_length_le (not_lt.mp hlt)]

/-- What a set knows of its next rebuild when it never holds more than `N` intervals. -/
structure Bounded (N : Nat) (s : IntervalSet T V) : Prop where
  slots : s.Slots
  kept_le : s.kept ≤ s.tree.len + s.pending.length
  tree_le : s.tree.len ≤ N

variable {N : Nat}

namespace Bounded

theorem of_empty (hs : s.Slots) (hentries : s.entries = []) (htree : s.tree = .empty) :
    s.Bounded N := by
  refine ⟨hs, ?_, ?_⟩
  · rw [kept_eq_countP, hentries]
    exact Nat.zero_le _
  · rw [htree]
    exact Nat.zero_le _

theorem added (h : s.Bounded N) : (s.added range value).Bounded N := by
  refine ⟨h.slots.added, ?_, h.tree_le⟩
  have hkept : (s.added range value).kept ≤ s.kept + 1 := kept_added_le h.slots
  have hle := h.kept_le
  rw [IntervalSet.added] at hkept ⊢
  simp only [List.length_append, List.length_singleton] at hkept ⊢
  omega

theorem dropped {e : Entry T V} (h : s.Bounded N) (he : s.entry id = some e) :
    (s.dropped id).Bounded N :=
  ⟨h.slots.dropped he, kept_dropped_le.trans h.kept_le, h.tree_le⟩

theorem rebuildIfDue (h : s.Bounded N) (hlen : s'.len ≤ N) (hr : s.rebuildIfDue sorts = .ok s') :
    s'.Bounded N := by
  have hslots := h.slots.rebuildIfDue hr
  have hframe := rebuildIfDue_frame hr
  obtain ⟨-, rfl⟩ | ⟨-, tree, hbuild, rfl⟩ := rebuildIfDue_cases hr
  · exact h
  · have htree : (s.rebuilt tree).tree.len = s.kept := len_of_build hbuild
    have hkept : (s.rebuilt tree).kept = s.kept := by rw [kept_eq_countP, kept_eq_countP, hframe.1]
    have hle := kept_le_len hslots
    exact ⟨hslots, by omega, by omega⟩

theorem step (h : s.Bounded N) (hlen : s'.len ≤ N) (hs : s.step sorts call = .ok (result, s')) :
    s'.Bounded N := by
  cases step_change hs with
  | insert hinsert =>
    obtain ⟨-, hrebuild⟩ := insert_ok h.slots hinsert
    exact h.added.rebuildIfDue hlen hrebuild
  | remove he hrebuild => exact (h.dropped he).rebuildIfDue hlen hrebuild
  | removeNone => exact h
  | clear => exact .of_empty slots_clear rfl rfl
  | read => exact h

end Bounded

/-! ## Amortised cost -/

end IntervalSet

end SimdIntervalTree
