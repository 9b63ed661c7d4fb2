import SimdIntervalTree.Mutable.Space

/-!
# The calls that panic

A set panics in one place only: the builder refuses `2 ^ 32 - 1` intervals and more, and only an
insertion or a removal calls it.
-/

namespace SimdIntervalTree

open Exec IntervalTreeBuilder

theorem IntervalTreeBuilder.build_eq_error {T V : Type} [LinearOrder T]
    {self : IntervalTreeBuilder T V} {sorts : Sorts T V} {f : Fault} :
    self.build sorts = .error f ↔ f = .assertion ∧ SIZE_LIMIT ≤ self.intervals.length := by
  by_cases h : self.intervals.length < SIZE_LIMIT
  · obtain ⟨tree, t, hbuild, -⟩ := build_ok sorts h
    rw [hbuild]
    exact iff_of_false ok_ne_error fun hlimit => not_le.mpr h hlimit.2
  · rw [build, buildBy, if_neg h, stop_eq]
    constructor
    · rintro ⟨⟩
      exact ⟨rfl, not_lt.mp h⟩
    · rintro ⟨rfl, -⟩
      rfl

namespace IntervalSet

variable {T V : Type}

variable [LinearOrder T] {s s' r : IntervalSet T V} {sorts : Sorts T IntervalId} {id : IntervalId}
  {f : Fault}

omit [LinearOrder T] in
theorem Slots.length_occupied (h : s.Slots) : s.occupied.length = s.len := by
  rw [occupied_eq, List.length_map, length_lives, ← h.count]
  rfl

theorem Slots.rebuildIfDue_eq_error (h : s.Slots) :
    s.rebuildIfDue sorts = .error f ↔ f = .assertion ∧ s.Due ∧ SIZE_LIMIT ≤ s.len := by
  by_cases hdue : s.Due
  · have hbuild : s.rebuildIfDue sorts = .error f ↔
        (IntervalTreeBuilder.mk s.occupied).build sorts = .error f := by
      rw [rebuildIfDue_of_due hdue]
      cases (IntervalTreeBuilder.mk s.occupied).build sorts with
      | ok tree => exact iff_of_false ok_ne_error ok_ne_error
      | error f' => exact error_congr
    rw [hbuild, build_eq_error, h.length_occupied]
    exact and_congr_right fun _ => (and_iff_right hdue).symm
  · rw [rebuildIfDue_of_not_due hdue]
    exact iff_of_false ok_ne_error fun hand => hdue hand.2.1

/-- A call that asks for a rebuild panics if the rebuild does. -/
theorem step_eq_error_of_asking (h : s.Slots) {call : Op T V} (hr : s.asking call = some r) :
    s.step sorts call = .error f ↔ r.rebuildIfDue sorts = .error f := by
  cases call with
  | insert range value =>
    cases hr
    rw [step, insert_eq h]
    cases (s.added range value).rebuildIfDue sorts with
    | ok => exact iff_of_false ok_ne_error ok_ne_error
    | error => exact error_congr
  | remove id =>
    obtain ⟨e, he, rfl⟩ := Option.map_eq_some_iff.mp hr
    rw [step, remove_eq he]
    cases (s.dropped id).rebuildIfDue sorts with
    | ok => exact iff_of_false ok_ne_error ok_ne_error
    | error => exact error_congr
  | clear | get | getInterval | iter | len | query => cases hr

omit [LinearOrder T] in
theorem asking_slots (h : s.Slots) {call : Op T V} (hr : s.asking call = some r) : r.Slots := by
  cases call with
  | insert range value =>
    cases hr
    exact h.added
  | remove id =>
    obtain ⟨e, he, rfl⟩ := Option.map_eq_some_iff.mp hr
    exact h.dropped he
  | clear | get | getInterval | iter | len | query => cases hr

/-- Every other call returns. -/
theorem exists_step_of_asking_none (h : ∃ input t, Built input s.tree t) {call : Op T V}
    (hr : s.asking call = none) : ∃ result s', s.step sorts call = .ok (result, s') := by
  cases call with
  | insert => cases hr
  | remove id =>
    rw [asking, Option.map_eq_none_iff] at hr
    exact ⟨.removed false, s, by rw [step, remove_of_none hr]; rfl⟩
  | query range =>
    obtain ⟨ids, -, hquery⟩ := query_eq h range
    exact ⟨_, s, by rw [step, hquery]; rfl⟩
  | clear | get | getInterval | iter | len => exact ⟨_, _, rfl⟩

/-- **The exact panics.** After any run, however long, a call panics just if it is an insertion or a
successful removal that makes a rebuild due and leaves at least `2 ^ 32 - 1` live intervals. The
panic is the assertion of the builder. -/
theorem run_panics_iff {log : List (Event (IntervalSet T V) (Op T V) (Output T V))}
    (h : Run (IntervalSet.step sorts) new log s) (call : Op T V) (f : Fault) :
    s.step sorts call = .error f ↔
      f = .assertion ∧ ∃ r, s.asking call = some r ∧ r.Due ∧ 2 ^ 32 - 1 ≤ r.len := by
  have hslots := (run_not_due h).1
  cases hr : s.asking call with
  | none =>
    obtain ⟨result, s', hstep⟩ : ∃ result s', s.step sorts call = .ok (result, s') :=
      exists_step_of_asking_none (run_sized h).built hr
    rw [hstep]
    exact iff_of_false ok_ne_error fun ⟨_, r, hr, _⟩ => nomatch hr
  | some r =>
    rw [step_eq_error_of_asking hslots hr, (asking_slots hslots hr).rebuildIfDue_eq_error]
    refine and_congr_right fun _ => ⟨fun ⟨hdue, hlen⟩ => ⟨r, rfl, hdue, hlen⟩, ?_⟩
    rintro ⟨_, ⟨⟩, hdue, hlen⟩
    exact ⟨hdue, hlen⟩

theorem run_panics_iff_reuse :
    let sorts : Sorts Nat IntervalId := .stable Nat IntervalId
    ∃ log s, Run (IntervalSet.step sorts) new log s ∧
      log.map Event.call = [.insert ⟨0, 10⟩ 'a', .remove ⟨0⟩, .insert ⟨5, 8⟩ 'b'] ∧
      (s.step sorts (.remove ⟨2 ^ 32⟩) = .error .assertion ↔ Fault.assertion = .assertion ∧
        ∃ r, s.asking (.remove ⟨2 ^ 32⟩) = some r ∧ r.Due ∧ 2 ^ 32 - 1 ≤ r.len) :=
  have h := ((Run.nil.snoc rfl).snoc rfl).snoc rfl
  ⟨_, _, h, rfl, run_panics_iff h _ _⟩

end IntervalSet

end SimdIntervalTree
