import Mathlib

/-!
# Callbacks that can stop a traversal

A stateful callback is a function `σ → α → σ × ControlFlow B`. `feed` calls it on the elements of a
list in order until it breaks, and `called` is the list of the elements it was called on. Logging
the calls in the state recovers `called` from `feed` (`feed_logged`), so a traversal that agrees
with `feed` for every callback also makes the same calls.
-/

inductive ControlFlow (B : Type)
  | Continue
  | Break (b : B)
  deriving DecidableEq, Repr

namespace ControlFlow

variable {σ α B : Type}

/-- Call `f` on each element in turn, up to and including the first on which it breaks. -/
def feed (f : σ → α → σ × ControlFlow B) : σ → List α → σ × ControlFlow B
  | s, [] => (s, .Continue)
  | s, x :: xs =>
    match f s x with
    | (s', .Break b) => (s', .Break b)
    | (s', .Continue) => feed f s' xs

/-- The elements `feed` calls `f` on. -/
def called (f : σ → α → σ × ControlFlow B) : σ → List α → List α
  | _, [] => []
  | s, x :: xs =>
    match f s x with
    | (_, .Break _) => [x]
    | (s', .Continue) => x :: called f s' xs

/-- `f`, with a log of the elements it is called on. -/
def logged (f : σ → α → σ × ControlFlow B) (s : σ × List α) (x : α) :
    (σ × List α) × ControlFlow B :=
  (((f s.1 x).1, s.2 ++ [x]), (f s.1 x).2)

variable (f : σ → α → σ × ControlFlow B)

/-- What runs after a call: nothing once it broke. -/
def andThen (r : σ × ControlFlow B) (k : σ → σ × ControlFlow B) : σ × ControlFlow B :=
  match r with
  | (s, .Break b) => (s, .Break b)
  | (s, .Continue) => k s

theorem feed_cons (s : σ) (x : α) (xs : List α) :
    feed f s (x :: xs) = andThen (f s x) (feed f · xs) := by
  unfold andThen
  rw [feed]

theorem andThen_assoc (r : σ × ControlFlow B) (k k' : σ → σ × ControlFlow B) :
    andThen (andThen r k) k' = andThen r fun s => andThen (k s) k' := by
  obtain ⟨s, _ | b⟩ := r <;> rfl

theorem feed_append (s : σ) (xs ys : List α) :
    feed f s (xs ++ ys) = andThen (feed f s xs) (feed f · ys) := by
  induction xs generalizing s with
  | nil => rfl
  | cons x xs ih =>
    rw [List.cons_append, feed_cons, feed_cons, andThen_assoc]
    exact congrArg _ (funext fun s' => ih s')

theorem called_prefix (s : σ) (xs : List α) : called f s xs <+: xs := by
  induction xs generalizing s with
  | nil => exact List.prefix_rfl
  | cons x xs ih =>
    rw [called]
    split
    · exact ⟨xs, rfl⟩
    · exact List.prefix_cons_inj x |>.mpr (ih _)

/-- The elements of a list that `f` is called on after a call, none once it broke. -/
def calledAfter (r : σ × ControlFlow B) (xs : List α) : List α :=
  match r with
  | (_, .Break _) => []
  | (s, .Continue) => called f s xs

theorem called_append (s : σ) (xs ys : List α) :
    called f s (xs ++ ys) = called f s xs ++ calledAfter f (feed f s xs) ys := by
  induction xs generalizing s with
  | nil => rfl
  | cons x xs ih =>
    rcases e : f s x with ⟨s', _ | b⟩
    · simp only [List.cons_append, called, feed, e, ih]
    · simp only [List.cons_append, called, feed, e, calledAfter, List.append_nil]

theorem calledAfter_append (r : σ × ControlFlow B) (xs ys : List α) :
    calledAfter f r (xs ++ ys) =
      calledAfter f r xs ++ calledAfter f (andThen r (feed f · xs)) ys := by
  obtain ⟨s, _ | b⟩ := r
  · exact called_append f s xs ys
  · rfl

/-- Unless there is no element, `f` is called on the first. -/
theorem length_called_pos {s : σ} {xs : List α} (h : xs ≠ []) : 0 < (called f s xs).length := by
  cases xs with
  | nil => exact absurd rfl h
  | cons x xs =>
    rw [called]
    split <;> exact Nat.succ_pos _

/-- A traversal that was not stopped called `f` on every element. -/
theorem called_of_continue {s : σ} {xs : List α} (h : (feed f s xs).2 = .Continue) :
    called f s xs = xs := by
  induction xs generalizing s with
  | nil => rfl
  | cons x xs ih =>
    rw [feed] at h
    rw [called]
    split at h
    · cases h
    · rename_i e
      simp only [ih h]

/-- A traversal that was not stopped was not stopped on a prefix either. -/
theorem feed_prefix_of_continue {s : σ} {done xs : List α} (hdone : done <+: xs)
    (h : (feed f s xs).2 = .Continue) : (feed f s done).2 = .Continue := by
  obtain ⟨rest, rfl⟩ := hdone
  rw [feed_append] at h
  rcases e : feed f s done with ⟨s', _ | b⟩
  · rfl
  · rw [e] at h
    cases h

/-- A traversal that was stopped with `b` was stopped by the last call, and by no earlier one. -/
theorem called_of_break {s : σ} {xs : List α} {b : B} (h : (feed f s xs).2 = .Break b) :
    ∃ done last, called f s xs = done ++ [last] ∧ (feed f s done).2 = .Continue ∧
      (f (feed f s done).1 last).2 = .Break b := by
  induction xs generalizing s with
  | nil => cases h
  | cons x xs ih =>
    rw [feed] at h
    rw [called]
    split at h
    · rename_i e
      cases h
      exact ⟨[], x, List.nil_append _, rfl, by simp only [feed, e]⟩
    · rename_i e
      obtain ⟨done, last, h1, h2, h3⟩ := ih h
      refine ⟨x :: done, last, by rw [h1, List.cons_append], ?_, ?_⟩
      · rw [feed, e]; exact h2
      · rw [feed, e]; exact h3

/-- The log holds exactly the calls. -/
theorem feed_logged (s : σ) (log xs : List α) :
    feed (logged f) (s, log) xs =
      (((feed f s xs).1, log ++ called f s xs), (feed f s xs).2) := by
  induction xs generalizing s log with
  | nil => simp [feed, called]
  | cons x xs ih =>
    rcases e : f s x with ⟨s', _ | b⟩
    · simp only [feed, called, logged, e, ih, List.append_assoc, List.singleton_append]
    · simp only [feed, called, logged, e]

end ControlFlow
