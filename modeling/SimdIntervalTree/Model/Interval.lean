import SimdIntervalTree.Lib.Exec

/-!
# Half-open intervals (`lib.rs`)

The bounds are public fields, so an `Interval` may be empty or reversed; only the conversion from a
range checks them. The source calls the second bound `end`.
-/

namespace SimdIntervalTree

/-- A half-open interval `[start, stop)`. -/
structure Interval (T : Type) where
  start : T
  stop : T
  deriving DecidableEq, Repr

namespace Interval

variable {T : Type} [LinearOrder T]

/-- `Interval::new`: panics if `start > end`. Also what a `Range` is converted with. -/
def new (start stop : T) : Exec (Interval T) :=
  if start ≤ stop then .ok ⟨start, stop⟩ else .error .assertion

def overlaps (self other : Interval T) : Bool :=
  let lo := if self.start > other.start then self.start else other.start
  let hi := if self.stop < other.stop then self.stop else other.stop
  decide (lo < hi)

def containsPoint (self : Interval T) (point : T) : Bool :=
  decide (self.start ≤ point) && decide (point < self.stop)

/-- Some point lies in both intervals. -/
def Shares (a b : Interval T) : Prop :=
  ∃ p, a.containsPoint p = true ∧ b.containsPoint p = true

/-- The interval contains a point; the builder retains exactly these. -/
def Nonempty (a : Interval T) : Prop := a.start < a.stop

instance (a : Interval T) : Decidable a.Nonempty := inferInstanceAs (Decidable (_ < _))

variable {a b : Interval T} {p : T}

@[simp] theorem containsPoint_eq_true : a.containsPoint p = true ↔ a.start ≤ p ∧ p < a.stop := by
  simp [containsPoint]

theorem overlaps_eq : a.overlaps b = decide (max a.start b.start < min a.stop b.stop) := by
  have lo : (if a.start > b.start then a.start else b.start) = max a.start b.start := by
    split
    · rw [max_eq_left (le_of_lt ‹_›)]
    · rw [max_eq_right (not_lt.mp ‹_›)]
  have hi : (if a.stop < b.stop then a.stop else b.stop) = min a.stop b.stop := by
    split
    · rw [min_eq_left (le_of_lt ‹_›)]
    · rw [min_eq_right (not_lt.mp ‹_›)]
  simp only [overlaps, lo, hi]

theorem overlaps_iff : a.overlaps b = true ↔
    a.start < a.stop ∧ b.start < b.stop ∧ a.start < b.stop ∧ b.start < a.stop := by
  rw [overlaps_eq, decide_eq_true_eq, max_lt_iff, lt_min_iff, lt_min_iff]
  tauto

/-- `overlaps` decides whether the intervals share a point, for every pair of intervals. -/
theorem overlaps_iff_shares : a.overlaps b = true ↔ a.Shares b := by
  rw [overlaps_eq, decide_eq_true_eq]
  constructor
  · intro h
    refine ⟨max a.start b.start, ?_, ?_⟩
    · exact containsPoint_eq_true.mpr ⟨le_max_left .., h.trans_le (min_le_left ..)⟩
    · exact containsPoint_eq_true.mpr ⟨le_max_right .., h.trans_le (min_le_right ..)⟩
  · rintro ⟨p, ha, hb⟩
    rw [containsPoint_eq_true] at ha hb
    exact (max_le ha.1 hb.1).trans_lt (lt_min ha.2 hb.2)

instance : Decidable (a.Shares b) := decidable_of_iff _ overlaps_iff_shares

theorem Shares.nonempty_left (h : a.Shares b) : a.Nonempty :=
  (overlaps_iff.mp (overlaps_iff_shares.mpr h)).1

theorem Shares.nonempty_right (h : a.Shares b) : b.Nonempty :=
  (overlaps_iff.mp (overlaps_iff_shares.mpr h)).2.1

/-- Between non-empty intervals overlap is two half-open comparisons. -/
theorem shares_iff (ha : a.Nonempty) (hb : b.Nonempty) :
    a.Shares b ↔ a.start < b.stop ∧ b.start < a.stop := by
  rw [← overlaps_iff_shares, overlaps_iff]
  exact ⟨fun h => h.2.2, fun h => ⟨ha, hb, h⟩⟩

theorem shares_self (ha : a.Nonempty) : a.Shares a := (shares_iff ha ha).mpr ⟨ha, ha⟩

end Interval

end SimdIntervalTree
