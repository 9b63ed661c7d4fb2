import SimdIntervalTree.Lib.Exec
import SimdIntervalTree.Lib.SortedPrefix

/-!
# `partition_point`

The standard library's bisection: the window `base..base + size` is halved until one element is
left, and that element decides on which side of it the boundary lies. On a list partitioned by the
predicate the result is the length of the prefix that satisfies it.
-/

namespace BinarySearch

open Exec SortedPrefix

variable {α : Type} (pred : α → Bool) (xs : List α)

def bisect (base size : Nat) : Exec Nat :=
  if 1 < size then do
    let half := size / 2
    let x ← index xs (base + half)
    bisect (if pred x then base + half else base) (size - half)
  else .ok base
termination_by size

def partitionPoint : Exec Nat :=
  if xs.length = 0 then .ok 0 else do
    let base ← bisect pred xs 0 xs.length
    let x ← index xs base
    .ok (if pred x then base + 1 else base)

variable {pred xs}

/-- Membership of the prefix, by position. -/
theorem lt_length_takeWhile_iff (h : Partitioned pred xs) {i : Nat} {x : α}
    (hx : xs[i]? = some x) : i < (xs.takeWhile pred).length ↔ pred x = true := by
  induction xs generalizing i with
  | nil => simp at hx
  | cons y ys ih =>
    by_cases hy : pred y = true
    · rw [List.takeWhile_cons_of_pos hy, List.length_cons]
      cases i with
      | zero => simp only [List.getElem?_cons_zero, Option.some.injEq] at hx; simp [← hx, hy]
      | succ i =>
        rw [← ih h.tail (by simpa using hx)]
        omega
    · rw [List.takeWhile_cons_of_neg hy]
      refine iff_of_false (by simp) fun hp => hy ?_
      cases i with
      | zero => simp only [List.getElem?_cons_zero, Option.some.injEq] at hx; exact hx ▸ hp
      | succ i => exact List.rel_of_pairwise_cons h (List.mem_of_getElem? hx) hp

/-- The bisection keeps the boundary in `base..=base + size`, never below `base` unless `base` is
still `0`. -/
theorem bisect_spec (h : Partitioned pred xs) {base size : Nat} (hs : 0 < size)
    (hle : base + size ≤ xs.length) (hlo : base = 0 ∨ base < (xs.takeWhile pred).length)
    (hhi : (xs.takeWhile pred).length ≤ base + size) :
    ∃ b, bisect pred xs base size = .ok b ∧ b < xs.length ∧
      (b = 0 ∨ b < (xs.takeWhile pred).length) ∧ (xs.takeWhile pred).length ≤ b + 1 := by
  induction size using Nat.strong_induction_on generalizing base with
  | _ size ih =>
    rw [bisect]
    by_cases h1 : 1 < size
    · have hlt : base + size / 2 < xs.length := by omega
      have hx := List.getElem?_eq_getElem hlt
      have hcut := lt_length_takeWhile_iff h hx
      rw [if_pos h1]
      simp only [index_eq_ok.mpr hx, ok_bind]
      split
      · exact ih _ (by omega) (by omega) (by omega) (.inr (hcut.mpr ‹_›)) (by omega)
      · apply ih _ (by omega) (by omega) (by omega) hlo
        have := mt hcut.mp ‹_›
        omega
    · rw [if_neg h1]
      exact ⟨base, rfl, by omega, hlo, by omega⟩

theorem partitionPoint_eq (h : Partitioned pred xs) :
    partitionPoint pred xs = .ok (xs.takeWhile pred).length := by
  unfold partitionPoint
  have hle := (List.takeWhile_sublist (p := pred) (l := xs)).length_le
  by_cases h0 : xs.length = 0
  · rw [if_pos h0, List.eq_nil_of_length_eq_zero h0]
    rfl
  obtain ⟨b, hb, hlt, hlo, hhi⟩ :=
    @bisect_spec _ pred xs h 0 xs.length (by omega) (by omega) (.inl rfl) (by omega)
  have hx := List.getElem?_eq_getElem hlt
  have hcut := lt_length_takeWhile_iff h hx
  rw [if_neg h0, hb, ok_bind, index_eq_ok.mpr hx, ok_bind]
  split
  · have := hcut.mpr ‹_›
    rw [show b + 1 = (xs.takeWhile pred).length by omega]
  · have := mt hcut.mp ‹_›
    rw [show b = (xs.takeWhile pred).length by omega]

end BinarySearch
