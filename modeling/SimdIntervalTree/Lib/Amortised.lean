import SimdIntervalTree.Lib.Counted
import SimdIntervalTree.Lib.Run

/-!
# Amortised costs

The calls of a run may be charged for. What they are charged in total is bounded by the potential
method: a call pays for itself and for the potential that it leaves, out of the potential that it
found and, if it is marked, a price.
-/

namespace Exec

variable {σ ι ω : Type}

/-- A run of counted calls, with the sum of their charges. -/
inductive Charged (step : σ → ι → Counted (ω × σ)) (init : σ) : List (Event σ ι ω) → σ → Nat → Prop
  | nil : Charged step init [] init 0
  | snoc : Charged step init log s n → (step s call).run = .ok ((result, s'), k) →
    Charged step init (log ++ [⟨s, call, result⟩]) s' (n + k)

variable {step : σ → ι → Counted (ω × σ)} {step' : σ → ι → Exec (ω × σ)} {init s : σ}
  {log : List (Event σ ι ω)} {n : Nat}

/-- A counted run is a run. -/
theorem Charged.run (hresult : ∀ s call, (step s call).result = step' s call)
    (h : Charged step init log s n) : Run step' init log s := by
  induction h with
  | nil => exact .nil
  | snoc _ hstep ih => exact ih.snoc ((hresult _ _).symm.trans (Counted.result_of_eq_ok hstep))

end Exec
