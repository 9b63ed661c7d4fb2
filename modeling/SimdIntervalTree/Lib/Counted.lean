import SimdIntervalTree.Lib.Exec

/-!
# Counted computations

A `Counted` computation is charged for some of its steps. `result` forgets the charges: code that is
written for any monad has the result in `Counted` that it has in `Exec`. `AtMost` bounds what a run
is charged, and its rules follow the structure of a `do` block.
-/

/-- A computation that returns what it was charged along with its value. -/
structure Counted (α : Type) where
  run : Exec (α × Nat)

namespace Counted

variable {α β : Type}

def charge (n : Nat) : Counted Unit := ⟨.ok ((), n)⟩

/-- A computation that is not charged for. -/
def free (x : Exec α) : Counted α := ⟨x.map fun a => (a, 0)⟩

instance : Monad Counted where
  pure a := free (.ok a)
  bind x f := ⟨x.run >>= fun r => (f r.1).run.map fun r' => (r'.1, r.2 + r'.2)⟩

instance : MonadLift Exec Counted := ⟨free⟩

/-- The computation without its charges. -/
def result (x : Counted α) : Exec α := x.run.map Prod.fst

/-- No run is charged more than `n`. -/
def AtMost (x : Counted α) (n : Nat) : Prop := ∀ a m, x.run = .ok (a, m) → m ≤ n

/-! ## Results -/

@[simp] theorem result_free (x : Exec α) : (free x).result = x := by
  cases x <;> rfl

@[simp] theorem result_liftM (x : Exec α) : (liftM x : Counted α).result = x := result_free x

@[simp] theorem result_pure (a : α) : (pure a : Counted α).result = .ok a := rfl

@[simp] theorem result_charge (n : Nat) : (charge n).result = .ok () := rfl

@[simp] theorem result_bind (x : Counted α) (f : α → Counted β) :
    (x >>= f).result = x.result >>= fun a => (f a).result := by
  obtain ⟨_ | ⟨a, m⟩⟩ := x
  · rfl
  · cases h : (f a).run <;> simp [bind, Except.bind, result, Except.map, h]

@[simp] theorem result_stop (e : Fault) : (Exec.stop e : Counted α).result = .error e := rfl

theorem result_ite {p : Prop} [Decidable p] (x y : Counted α) :
    (if p then x else y).result = if p then x.result else y.result := apply_ite ..

theorem result_dite {p : Prop} [Decidable p] (x : p → Counted α) (y : ¬p → Counted α) :
    (dite p x y).result = dite p (fun h => (x h).result) fun h => (y h).result := apply_dite ..

/-! ## Charges -/

@[simp] theorem liftM_ok_bind (a : α) (f : α → Counted β) :
    ((liftM (Except.ok a : Exec α) : Counted α) >>= f) = f a := by
  change Counted.mk (Except.map _ (f a).run) = f a
  obtain ⟨_ | ⟨b, n⟩⟩ := f a
  · rfl
  · exact congrArg (fun k => mk (.ok (b, k))) (Nat.zero_add n)

theorem bind_eq_ok {x : Counted α} {f : α → Counted β} {b : β} {n : Nat} :
    (x >>= f).run = .ok (b, n) ↔
      ∃ a m k, x.run = .ok (a, m) ∧ (f a).run = .ok (b, k) ∧ n = m + k := by
  obtain ⟨_ | ⟨a, m⟩⟩ := x
  · constructor
    · intro h
      cases h
    · rintro ⟨_, _, _, h, -⟩
      cases h
  · change Except.map _ (f a).run = _ ↔ _
    constructor
    · intro h
      cases hf : (f a).run with
      | error => rw [hf] at h; cases h
      | ok r =>
        rw [hf] at h
        cases h
        exact ⟨a, m, r.2, rfl, hf, rfl⟩
    · rintro ⟨_, _, k, h, hf, rfl⟩
      cases h
      rw [hf]
      rfl

theorem result_of_eq_ok {x : Counted α} {a : α} {m : Nat} (h : x.run = .ok (a, m)) :
    x.result = .ok a := by
  rw [result, h]
  rfl

/-- A computation that has a result has been charged for it. -/
theorem eq_ok_of_result {x : Counted α} {a : α} (h : x.result = .ok a) :
    ∃ m, x.run = .ok (a, m) := by
  obtain ⟨_ | ⟨b, m⟩⟩ := x
  · cases h
  · cases h
    exact ⟨m, rfl⟩

namespace AtMost

variable {x : Counted α} {f : α → Counted β} {m n : Nat}

theorem mono (h : x.AtMost m) (hle : m ≤ n) : x.AtMost n :=
  fun a k hk => (h a k hk).trans hle

theorem of_run {a : α} (h : x.run = .ok (a, m)) : x.AtMost m := by
  intro b k hk
  cases h.symm.trans hk
  exact le_rfl

theorem pure (a : α) : (Pure.pure a : Counted α).AtMost 0 := by
  intro b k hk
  cases hk
  exact le_rfl

theorem free (x : Exec α) : (Counted.free x).AtMost 0 := by
  intro b k hk
  cases x with
  | ok a => cases hk; exact le_rfl
  | error => cases hk

theorem liftM (x : Exec α) : (MonadLiftT.monadLift x : Counted α).AtMost 0 := free x

theorem stop (e : Fault) : (Exec.stop e : Counted α).AtMost 0 := free _

theorem charge (n : Nat) : (Counted.charge n).AtMost n := by
  intro b k hk
  cases hk
  exact le_rfl

/-- What follows a computation is charged on top of it. -/
theorem bind (hx : x.AtMost m) (hf : ∀ a, x.result = .ok a → (f a).AtMost n) :
    (x >>= f).AtMost (m + n) := by
  intro b k hk
  obtain ⟨a, m', k', hxa, hfa, rfl⟩ := bind_eq_ok.mp hk
  exact Nat.add_le_add (hx a m' hxa) (hf a (result_of_eq_ok hxa) b k' hfa)

/-- What precedes for free leaves the bound as it is. -/
theorem bind_zero (hx : x.AtMost 0) (hf : ∀ a, x.result = .ok a → (f a).AtMost n) :
    (x >>= f).AtMost n := by
  rw [← Nat.zero_add n]
  exact hx.bind hf

/-- What follows for free leaves the bound as it is. -/
theorem bind_free (hx : x.AtMost m) (hf : ∀ a, x.result = .ok a → (f a).AtMost 0) :
    (x >>= f).AtMost m := hx.bind hf

end AtMost

end Counted
