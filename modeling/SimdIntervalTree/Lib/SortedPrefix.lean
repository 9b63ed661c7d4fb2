import Mathlib

/-!
# Cutoffs of sorted runs

A predicate that is closed downwards along a list (whoever satisfies it, so do the earlier
elements) holds exactly on a prefix. That prefix is at once what a filter keeps, what a scan with
an early exit yields and what a cutoff index counts.
-/

namespace SortedPrefix

variable {α : Type} {p : α → Bool}

/-- `p` holds on a prefix of `xs` and fails on the rest. -/
def Partitioned (p : α → Bool) (xs : List α) : Prop :=
  xs.Pairwise fun a b => p b = true → p a = true

theorem Partitioned.tail {x : α} {xs : List α} (h : Partitioned p (x :: xs)) :
    Partitioned p xs := List.Pairwise.of_cons h

theorem Partitioned.filter_eq {xs : List α} (h : Partitioned p xs) :
    xs.filter p = xs.takeWhile p := by
  induction xs with
  | nil => rfl
  | cons x xs ih =>
    by_cases hx : p x = true
    · rw [List.filter_cons_of_pos hx, List.takeWhile_cons_of_pos hx, ih h.tail]
    · rw [List.filter_cons_of_neg hx, List.takeWhile_cons_of_neg hx, List.filter_eq_nil_iff]
      exact fun y hy hpy => hx (List.rel_of_pairwise_cons h hy hpy)

/-- The index of the first element outside the prefix is its length. -/
theorem findIdx_eq_length_takeWhile {q : α → Bool} (h : ∀ x, q x = !p x) (xs : List α) :
    xs.findIdx q = (xs.takeWhile p).length := by
  induction xs with
  | nil => rfl
  | cons x xs ih =>
    rw [List.findIdx_cons, List.takeWhile_cons, h]
    cases hx : p x <;> simp [ih]

/-- The prefix of a partitioned run has all elements that satisfy the predicate. -/
theorem Partitioned.length_takeWhile {xs : List α} (h : Partitioned p xs) :
    (xs.takeWhile p).length = xs.countP p := by
  rw [← h.filter_eq, List.countP_eq_length_filter]

/-- Trimming a run at any length past its cutoff leaves the prefix as it is. -/
theorem takeWhile_take {xs : List α} {k : Nat} (h : (xs.takeWhile p).length ≤ k) :
    (xs.take k).takeWhile p = xs.takeWhile p := by
  induction xs generalizing k with
  | nil => simp
  | cons x xs ih =>
    cases hx : p x with
    | false => cases k <;> simp [hx]
    | true =>
      rw [List.takeWhile_cons_of_pos hx] at h ⊢
      obtain ⟨k, rfl⟩ : ∃ j, k = j + 1 := ⟨k - 1, by simp at h; omega⟩
      rw [List.take_succ_cons, List.takeWhile_cons_of_pos hx, ih (by simpa using h)]

/-- Dropping a part of the prefix. -/
theorem length_takeWhile_drop {xs : List α} {k : Nat} (h : k ≤ (xs.takeWhile p).length) :
    k + ((xs.drop k).takeWhile p).length = (xs.takeWhile p).length := by
  induction xs generalizing k with
  | nil =>
    obtain rfl : k = 0 := Nat.le_zero.mp h
    rfl
  | cons x xs ih =>
    cases k with
    | zero => exact Nat.zero_add _
    | succ k =>
      by_cases hx : p x = true
      · rw [List.takeWhile_cons_of_pos hx, List.length_cons] at h ⊢
        rw [List.drop_succ_cons, ← ih (Nat.le_of_succ_le_succ h), Nat.add_right_comm]
      · rw [List.takeWhile_cons_of_neg hx] at h
        cases h

section

variable {T : Type} [LinearOrder T] {f : α → T} {xs : List α}

theorem partitioned_lt (h : xs.Pairwise fun a b => f a ≤ f b) (t : T) :
    Partitioned (fun x => decide (f x < t)) xs :=
  h.imp fun hab hb => by simp only [decide_eq_true_eq] at hb ⊢; exact hab.trans_lt hb

theorem partitioned_gt (h : xs.Pairwise fun a b => f b ≤ f a) (t : T) :
    Partitioned (fun x => decide (t < f x)) xs :=
  h.imp fun hab hb => by simp only [decide_eq_true_eq] at hb ⊢; exact hb.trans_le hab

/-- The first element from `t` on is where the ones below `t` end. -/
theorem findIdx_ge (f : α → T) (xs : List α) (t : T) :
    xs.findIdx (fun x => decide (t ≤ f x)) =
      (xs.takeWhile fun x => decide (f x < t)).length :=
  findIdx_eq_length_takeWhile (fun x => by rw [← decide_not, decide_eq_decide, not_lt]) xs

theorem findIdx_le (f : α → T) (xs : List α) (t : T) :
    xs.findIdx (fun x => decide (f x ≤ t)) =
      (xs.takeWhile fun x => decide (t < f x)).length :=
  findIdx_eq_length_takeWhile (fun x => by rw [← decide_not, decide_eq_decide, not_lt]) xs

end

end SortedPrefix
