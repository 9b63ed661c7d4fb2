import SimdIntervalTree.Lib.Exec

/-!
# Iterators

An iterator is a function that returns the next element, if there is one, and the state that is
left. `Yields next it as last` says that repeated calls return the elements `as` and then `None`,
in the state `last`. A `Stable` iterator does not change once it has returned `None`.
-/

namespace Exec

variable {ι α : Type}

inductive Yields (next : ι → Exec (Option α × ι)) : ι → List α → ι → Prop
  | done : next it = .ok (none, last) → Yields next it [] last
  | item : next it = .ok (some a, it') → Yields next it' as last → Yields next it (a :: as) last

/-- After `None` an iterator stays as it is. -/
def Stable (next : ι → Exec (Option α × ι)) : Prop :=
  ∀ it last, next it = .ok (none, last) → next last = .ok (none, last)

/-- What the call returns that follows `k` earlier ones. -/
def nthCall (next : ι → Exec (Option α × ι)) : Nat → ι → Exec (Option α × ι)
  | 0, it => next it
  | k + 1, it => do
    let (_, it) ← next it
    nthCall next k it

theorem nthCall_of_none {next : ι → Exec (Option α × ι)} {it : ι}
    (h : next it = .ok (none, it)) (k : Nat) : nthCall next k it = .ok (none, it) := by
  induction k with
  | zero => exact h
  | succ k ih => rw [nthCall, h, ok_bind]; exact ih

namespace Yields

variable {next : ι → Exec (Option α × ι)} {it last : ι} {as : List α}

/-- The calls return the elements in order and then `None` for ever. -/
theorem nthCall_eq (hs : Stable next) (h : Yields next it as last) (k : Nat) :
    ∃ it', nthCall next k it = .ok (as[k]?, it') := by
  induction h generalizing k with
  | done e =>
    cases k with
    | zero => exact ⟨_, e⟩
    | succ k =>
      rw [nthCall, e, ok_bind]
      exact ⟨_, nthCall_of_none (hs _ _ e) k⟩
  | item e _ ih =>
    cases k with
    | zero => exact ⟨_, e⟩
    | succ k =>
      rw [nthCall, e, ok_bind, List.getElem?_cons_succ]
      exact ih k

end Yields

end Exec
