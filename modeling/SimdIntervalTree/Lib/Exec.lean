import Mathlib

/-!
# Checked execution

Code that indexes, slices, unwraps or recurses without a syntactic bound is modelled in `Exec`: a
value, or the `Fault` on which the real program stops (or never stops). Vectors and slices are
lists, `usize` positions are natural numbers.

Two faults are stricter than the machine. `lossyCast` reports a position that an `as u32` would
truncate, and `fuel` a loop that outlives the bound its model runs under. A run without a fault
therefore also certifies the casts and the loops.
-/

/-- The ways a run can go wrong. -/
inductive Fault
  /-- A failed `assert!`. -/
  | assertion
  /-- An index or a slice out of range. -/
  | bounds
  /-- `unwrap` of `None`. -/
  | unwrap
  /-- A recursive call on the range its caller was given. -/
  | noProgress
  /-- An `as u32` that drops bits. -/
  | lossyCast
  /-- A loop that outlives its bound. -/
  | fuel
  deriving DecidableEq, Repr

abbrev Exec := Except Fault

namespace Exec

variable {α β : Type}

/-- `xs[i]` -/
def index (xs : List α) (i : Nat) : Exec α :=
  match xs[i]? with
  | some x => .ok x
  | none => .error .bounds

/-- `&xs[lo..hi]` -/
def slice (xs : List α) (lo hi : Nat) : Exec (List α) :=
  if lo ≤ hi ∧ hi ≤ xs.length then .ok ((xs.take hi).drop lo) else .error .bounds

/-- `xs[i] = x` -/
def store (xs : List α) (i : Nat) (x : α) : Exec (List α) :=
  if i < xs.length then .ok (xs.set i x) else .error .bounds

/-- `xs[lo..hi].copy_from_slice(src)` -/
def copyFromSlice (xs : List α) (lo hi : Nat) (src : List α) : Exec (List α) :=
  if lo ≤ hi ∧ hi ≤ xs.length ∧ src.length = hi - lo then
    .ok (xs.take lo ++ src ++ xs.drop hi)
  else .error .bounds

/-- `n as u32`, with the truncated positions reported. -/
def asU32 (n : Nat) : Exec UInt32 :=
  if n < UInt32.size then .ok (UInt32.ofNat n) else .error .lossyCast

/-- `o.unwrap()` -/
def unwrap : Option α → Exec α
  | some x => .ok x
  | none => .error .unwrap

/-- Stop with a fault, in any monad that runs checked code. -/
def stop {m : Type → Type} [MonadLiftT Exec m] (e : Fault) : m α := liftM (.error e : Exec α)

/-! ## Running a computation -/

@[simp] theorem ok_bind (a : α) (f : α → Exec β) : (Except.ok a >>= f) = f a := rfl

@[simp] theorem error_bind (e : Fault) (f : α → Exec β) :
    ((Except.error e : Exec α) >>= f) = .error e := rfl

@[simp] theorem pure_eq_ok (a : α) : (pure a : Exec α) = .ok a := rfl

/-- Code for any monad, run in `Exec`. -/
@[simp] theorem liftM_eq (x : Exec α) : (liftM x : Exec α) = x := rfl

@[simp] theorem stop_eq (e : Fault) : (stop e : Exec α) = .error e := rfl

theorem bind_eq_ok {x : Exec α} {f : α → Exec β} {b : β} :
    (x >>= f) = .ok b ↔ ∃ a, x = .ok a ∧ f a = .ok b := by
  cases x with
  | ok a => simp
  | error e => simp

theorem ok_ne_error {a : α} {e : Fault} : (.ok a : Exec α) ≠ .error e := nofun

theorem error_congr {e e' : Fault} :
    (.error e' : Exec α) = .error e ↔ (.error e' : Exec β) = .error e :=
  ⟨fun h => congrArg _ (Except.error.inj h), fun h => congrArg _ (Except.error.inj h)⟩

/-! ## Accesses that succeed -/

@[simp] theorem index_eq_ok {xs : List α} {i : Nat} {x : α} :
    index xs i = .ok x ↔ xs[i]? = some x := by
  unfold index
  cases xs[i]? <;> simp

theorem index_append_right (pre xs : List α) (i : Nat) :
    index (pre ++ xs) (pre.length + i) = index xs i := by
  simp [index, List.getElem?_append_right]

theorem index_append_cons (pre post : List α) (x : α) :
    index (pre ++ x :: post) pre.length = .ok x := by simp

theorem store_append_cons (pre post : List α) (x y : α) :
    store (pre ++ x :: post) pre.length y = .ok (pre ++ y :: post) := by
  simp [store]

theorem slice_append (pre xs post : List α) :
    slice (pre ++ xs ++ post) pre.length (pre.length + xs.length) = .ok xs := by
  unfold slice
  rw [if_pos (by simp), ← List.length_append, List.take_left, List.drop_left]

theorem copyFromSlice_append (pre post : List α) {xs src : List α} (h : src.length = xs.length) :
    copyFromSlice (pre ++ xs ++ post) pre.length (pre.length + xs.length) src =
      .ok (pre ++ src ++ post) := by
  unfold copyFromSlice
  rw [if_pos (by simp [h]), ← List.length_append, List.drop_left, List.append_assoc pre xs,
    List.take_left]

theorem asU32_of_lt {n : Nat} (h : n < UInt32.size) : asU32 n = .ok (UInt32.ofNat n) :=
  if_pos h

/-! ## Segments -/

/-- `ys` lies in `xs` from position `d` on. -/
def Segment (xs : List α) (d : Nat) (ys : List α) : Prop :=
  ∃ pre post, xs = pre ++ ys ++ post ∧ pre.length = d

namespace Segment

variable {xs ys zs : List α} {d i : Nat}

protected theorem refl : Segment xs 0 xs := ⟨[], [], by simp, rfl⟩

theorem left (h : Segment xs d (ys ++ zs)) : Segment xs d ys := by
  obtain ⟨pre, post, rfl, rfl⟩ := h
  exact ⟨pre, zs ++ post, by simp, rfl⟩

theorem right (h : Segment xs d (ys ++ zs)) : Segment xs (d + ys.length) zs := by
  obtain ⟨pre, post, rfl, rfl⟩ := h
  exact ⟨pre ++ ys, post, by simp, by simp⟩

theorem tail {y : α} (h : Segment xs d (y :: zs)) : Segment xs (d + 1) zs :=
  @right _ xs [y] zs d h

theorem length_le (h : Segment xs d ys) : d + ys.length ≤ xs.length := by
  obtain ⟨pre, post, rfl, rfl⟩ := h
  simp

theorem getElem? (h : Segment xs d ys) (hi : i < ys.length) : xs[d + i]? = ys[i]? := by
  obtain ⟨pre, post, rfl, rfl⟩ := h
  rw [List.append_assoc, List.getElem?_append_right (by omega), Nat.add_sub_cancel_left,
    List.getElem?_append_left hi]

theorem slice (h : Segment xs d ys) : slice xs d (d + ys.length) = .ok ys := by
  obtain ⟨pre, post, rfl, rfl⟩ := h
  exact slice_append ..

theorem take_drop (h : Segment xs d ys) : (xs.take (d + ys.length)).drop d = ys := by
  obtain ⟨pre, post, rfl, rfl⟩ := h
  rw [← List.length_append, List.take_left, List.drop_left]

end Segment

end Exec
