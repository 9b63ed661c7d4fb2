import SimdIntervalTree.Lib.Exec

/-!
# Cells with relaxed accesses

A memory cell keeps everything that was ever written to it, at distinct times. Relaxed accesses
promise coherence and nothing else: a thread loads any write that is not older than what it has
seen of the cell, and stores at any free time behind that. Threads that synchronise by other means
share what they have seen.

The times need not be discrete: a thread may store between two writes that are already there.
-/

structure RelaxedCell (Time Thread α : Type) where
  /-- The writes. -/
  write : Time → Option α
  /-- The last write that each of the threads has seen. -/
  view : Thread → Time

namespace RelaxedCell

variable {Time Thread α : Type} [LinearOrder Time] [OrderBot Time]

/-! ## Writes -/

def put (cell : RelaxedCell Time Thread α) (t : Time) (a : α) : RelaxedCell Time Thread α :=
  { cell with write := Function.update cell.write t (some a) }

/-- A cell is created with a first write, which every thread has seen. -/
def new (a : α) : RelaxedCell Time Thread α := put ⟨fun _ => none, fun _ => ⊥⟩ ⊥ a

/-- The cell was created with `a`, and whatever was stored since satisfies `P`. -/
structure Settles (a : α) (P : α → Prop) (cell : RelaxedCell Time Thread α) : Prop where
  first : cell.write ⊥ = some a
  later : ∀ t b, t ≠ ⊥ → cell.write t = some b → P b

variable {cell cell' : RelaxedCell Time Thread α} {i j : Thread} {t : Time} {a b : α}
  {P : α → Prop}

omit [OrderBot Time] in
theorem write_put_self : (cell.put t a).write t = some a := Function.update_self ..

omit [OrderBot Time] in
theorem write_put_of_ne {t' : Time} (h : t' ≠ t) : (cell.put t a).write t' = cell.write t' :=
  Function.update_of_ne h ..

theorem settles_new : (new a : RelaxedCell Time Thread α).Settles a P := by
  refine ⟨write_put_self, fun t b hne h => ?_⟩
  rw [new, write_put_of_ne hne] at h
  cases h

theorem Settles.value (h : cell.Settles a P) (hb : cell.write t = some b) : b = a ∨ P b := by
  by_cases ht : t = ⊥
  · rw [ht, h.first] at hb
    cases hb
    exact .inl rfl
  · exact .inr (h.later t b ht hb)

theorem Settles.put (h : cell.Settles a P) (ht : ⊥ < t) (hb : P b) :
    (cell.put t b).Settles a P := by
  refine ⟨?_, fun t' b' hne h' => ?_⟩
  · rw [write_put_of_ne ht.ne, h.first]
  · by_cases htt : t' = t
    · rw [htt, write_put_self] at h'
      cases h'
      exact hb
    · rw [write_put_of_ne htt] at h'
      exact h.later t' b' hne h'

/-! ## Views -/

/-- The thread has seen a store. -/
def Informed (cell : RelaxedCell Time Thread α) (i : Thread) : Prop := ⊥ < cell.view i

variable [DecidableEq Thread]

def see (cell : RelaxedCell Time Thread α) (i : Thread) (t : Time) : RelaxedCell Time Thread α :=
  { cell with view := Function.update cell.view i t }

/-- Thread `i` comes to know what thread `j` has seen. -/
def acquire (cell : RelaxedCell Time Thread α) (i j : Thread) : RelaxedCell Time Thread α :=
  cell.see i (max (cell.view i) (cell.view j))

omit [LinearOrder Time] [OrderBot Time] in
theorem view_see_self : (cell.see i t).view i = t := Function.update_self ..

omit [LinearOrder Time] [OrderBot Time] in
theorem view_see_of_ne (h : j ≠ i) : (cell.see i t).view j = cell.view j :=
  Function.update_of_ne h ..

theorem Settles.see (h : cell.Settles a P) : (cell.see i t).Settles a P := ⟨h.first, h.later⟩

theorem see_informs (h : ⊥ < t) : (cell.see i t).Informed i := by
  rw [Informed, view_see_self]
  exact h

/-- What a thread has seen it does not forget. -/
theorem Informed.see (h : cell.Informed j) (hle : cell.view i ≤ t) : (cell.see i t).Informed j := by
  rw [Informed]
  by_cases hj : j = i
  · subst hj
    rw [view_see_self]
    exact h.trans_le hle
  · rw [view_see_of_ne hj]
    exact h

theorem Informed.acquires (h : cell.Informed j) : (cell.acquire i j).Informed i :=
  see_informs (lt_max_of_lt_right h)

theorem Informed.acquire {k : Thread} (h : cell.Informed k) : (cell.acquire i j).Informed k :=
  h.see (le_max_left _ _)

/-! ## Accesses -/

/-- Thread `i` loads `a`. -/
inductive Load (i : Thread) (cell : RelaxedCell Time Thread α) : α →
    RelaxedCell Time Thread α → Prop
  | mk {t : Time} {a : α} : cell.view i ≤ t → cell.write t = some a → Load i cell a (cell.see i t)

/-- Thread `i` stores `a`. -/
inductive Store (i : Thread) (cell : RelaxedCell Time Thread α) (a : α) :
    RelaxedCell Time Thread α → Prop
  | mk {t : Time} : cell.view i < t → cell.write t = none →
    Store i cell a ((cell.put t a).see i t)

theorem Load.settles (hl : Load i cell b cell') (h : cell.Settles a P) : cell'.Settles a P := by
  cases hl
  exact h.see

theorem Load.informed (hl : Load i cell b cell') (h : cell.Informed j) : cell'.Informed j := by
  cases hl with
  | mk hle _ => exact h.see hle

/-- A load that does not return the initial value informs its thread. -/
theorem Load.informs (hl : Load i cell b cell') (h : cell.Settles a P) (hb : b ≠ a) :
    P b ∧ cell'.Informed i := by
  cases hl with
  | @mk t _ _ hwrite =>
    have ht : t ≠ ⊥ := by
      rintro rfl
      rw [h.first] at hwrite
      cases hwrite
      exact hb rfl
    exact ⟨h.later t b ht hwrite, see_informs (bot_lt_iff_ne_bot.mpr ht)⟩

/-- **Coherence.** A thread that has been informed does not load the initial value any more. -/
theorem Load.of_informed (hl : Load i cell b cell') (h : cell.Settles a P)
    (hi : cell.Informed i) : P b := by
  cases hl with
  | @mk t _ hle hwrite => exact h.later t b (hi.trans_le hle).ne' hwrite

theorem Store.settles (hs : Store i cell b cell') (h : cell.Settles a P) (hb : P b) :
    cell'.Settles a P := by
  cases hs with
  | mk hlt _ => exact (h.put (bot_le.trans_lt hlt) hb).see

theorem Store.informs (hs : Store i cell b cell') : cell'.Informed i := by
  cases hs with
  | mk hlt _ => exact see_informs (bot_le.trans_lt hlt)

theorem Store.informed (hs : Store i cell b cell') (h : cell.Informed j) : cell'.Informed j := by
  cases hs with
  | @mk t hlt _ =>
    have hput : (cell.put t b).Informed j := h
    exact hput.see hlt.le

end RelaxedCell
