import SimdIntervalTree.Lib.Exec

/-!
# Runs of calls

A component answers each call with a result and its next state. A `Run` is the log of the calls
that a client made from the initial state, none of which faulted. `Always` is about every state on
the way, and `Steps` are the runs of an abstract component, given as a relation.
-/

namespace Exec

/-- A call, the state it found and what it returned. -/
structure Event (σ ι ω : Type) where
  before : σ
  call : ι
  result : ω

variable {σ ι ω α : Type}

inductive Run (step : σ → ι → Exec (ω × σ)) (init : σ) : List (Event σ ι ω) → σ → Prop
  | nil : Run step init [] init
  | snoc : Run step init log s → step s call = .ok (result, s') →
    Run step init (log ++ [⟨s, call, result⟩]) s'

/-- `P` holds of every state that a run went through. -/
def Always (step : σ → ι → Exec (ω × σ)) (init : σ) (P : List (Event σ ι ω) → σ → Prop)
    (log : List (Event σ ι ω)) : Prop :=
  ∀ log' s', log' <+: log → Run step init log' s' → P log' s'

/-- The runs of an abstract component. -/
inductive Steps (Step : α → ι → ω → α → Prop) (init : α) : List (ι × ω) → α → Prop
  | nil : Steps Step init [] init
  | snoc : Steps Step init log a → Step a call result a' →
    Steps Step init (log ++ [(call, result)]) a'

def Event.io (e : Event σ ι ω) : ι × ω := (e.call, e.result)

variable {step : σ → ι → Exec (ω × σ)} {init s s' : σ} {log log' : List (Event σ ι ω)}
  {P Q : List (Event σ ι ω) → σ → Prop}

/-! ## The states of a run -/

/-- The last event of a run leads to its state. -/
theorem run_concat_iff {e : Event σ ι ω} : Run step init (log ++ [e]) s ↔
    Run step init log e.before ∧ step e.before e.call = .ok (e.result, s) := by
  constructor
  · intro h
    generalize hlog : log ++ [e] = log' at h
    cases h with
    | nil => exact absurd hlog (by simp)
    | snoc h hstep =>
      obtain ⟨rfl, he⟩ := List.append_inj' hlog rfl
      cases he
      exact ⟨h, hstep⟩
  · rintro ⟨h, hstep⟩
    exact h.snoc hstep

theorem Run.of_append (h : Run step init (log ++ log') s) : ∃ s', Run step init log s' := by
  induction log' using List.reverseRecOn generalizing s with
  | nil => exact ⟨s, by rwa [List.append_nil] at h⟩
  | append_singleton log' e ih =>
    rw [← List.append_assoc, run_concat_iff] at h
    exact ih h.1

theorem Run.deterministic (h : Run step init log s) (h' : Run step init log s') : s = s' := by
  induction h generalizing s' with
  | nil =>
    generalize hlog : ([] : List (Event σ ι ω)) = log at h'
    cases h' with
    | nil => rfl
    | snoc => exact absurd hlog (by simp)
  | snoc _ hstep ih =>
    obtain ⟨h', hstep'⟩ := run_concat_iff.mp h'
    cases ih h'
    rw [hstep] at hstep'
    cases hstep'
    rfl

namespace Always

theorem mono (h : Always step init P log) (hpre : log' <+: log) : Always step init P log' :=
  fun _ _ hlog hrun => h _ _ (hlog.trans hpre) hrun

theorem last (h : Always step init P log) (hrun : Run step init log s) : P log s :=
  h _ _ (List.prefix_refl _) hrun

theorem nil (h : P [] init) : Always step init P [] := by
  intro log' s' hpre hrun
  cases List.prefix_nil.mp hpre
  cases Run.nil.deterministic hrun
  exact h

theorem snoc {call : ι} {result : ω} (h : Always step init P log)
    (hrun : Run step init log s) (hstep : step s call = .ok (result, s'))
    (hlast : P (log ++ [⟨s, call, result⟩]) s') :
    Always step init P (log ++ [⟨s, call, result⟩]) := by
  intro log' s'' hpre hrun'
  rcases List.prefix_concat_iff.mp hpre with rfl | hpre
  · cases (hrun.snoc hstep).deterministic hrun'
    exact hlast
  · exact h _ _ hpre hrun'

end Always

/-! ## Abstract components -/

theorem steps_concat_iff {Step : α → ι → ω → α → Prop} {init a' : α} {log : List (ι × ω)}
    {e : ι × ω} : Steps Step init (log ++ [e]) a' ↔
      ∃ a, Steps Step init log a ∧ Step a e.1 e.2 a' := by
  constructor
  · intro h
    generalize hlog : log ++ [e] = log' at h
    cases h with
    | nil => exact absurd hlog (by simp)
    | snoc h hstep =>
      obtain ⟨rfl, he⟩ := List.append_inj' hlog rfl
      cases he
      exact ⟨_, h, hstep⟩
  · rintro ⟨a, h, hstep⟩
    exact h.snoc hstep

theorem Steps.of_append {Step : α → ι → ω → α → Prop} {init a : α} {log log' : List (ι × ω)}
    (h : Steps Step init (log ++ log') a) : ∃ a', Steps Step init log a' := by
  induction log' using List.reverseRecOn generalizing a with
  | nil => exact ⟨a, by rwa [List.append_nil] at h⟩
  | append_singleton log' e ih =>
    rw [← List.append_assoc, steps_concat_iff] at h
    obtain ⟨a', h, -⟩ := h
    exact ih h

/-! ## Induction over a run -/

/-- **Exact conditions.** Let the calls that meet `C` keep an invariant `I` which implies `P`, and
the others break `P` at once. Then `P` holds throughout a run just if all of its calls meet `C`.
`A` is what is known of every state of the run. -/
theorem Run.always_iff {I A : List (Event σ ι ω) → σ → Prop} {C : Event σ ι ω → Prop}
    (hinit : I [] init) (hsound : ∀ log s, I log s → P log s)
    (hkeep : ∀ log s call result s', I log s → A (log ++ [⟨s, call, result⟩]) s' →
      step s call = .ok (result, s') → C ⟨s, call, result⟩ → I (log ++ [⟨s, call, result⟩]) s')
    (hbreak : ∀ log s call result s', I log s → A (log ++ [⟨s, call, result⟩]) s' →
      step s call = .ok (result, s') → ¬C ⟨s, call, result⟩ → ¬P (log ++ [⟨s, call, result⟩]) s')
    (hrun : Run step init log s) (hA : Always step init A log) :
    Always step init P log ↔ ∀ e ∈ log, C e := by
  suffices h : (Always step init P log → Always step init I log ∧ ∀ e ∈ log, C e) ∧
      ((∀ e ∈ log, C e) → Always step init I log) by
    exact ⟨fun hP => (h.1 hP).2, fun hC log' s' hpre hrun' => hsound _ _ (h.2 hC _ _ hpre hrun')⟩
  induction hrun with
  | nil => exact ⟨fun _ => ⟨.nil hinit, by simp⟩, fun _ => .nil hinit⟩
  | @snoc log s call result s' hrun hstep ih =>
    have hpre : log <+: log ++ [⟨s, call, result⟩] := List.prefix_append _ _
    have hrun' := hrun.snoc hstep
    have hlast := hA.last hrun'
    obtain ⟨hfwd, hbwd⟩ := ih (hA.mono hpre)
    constructor
    · intro hP
      obtain ⟨hI, hC⟩ := hfwd (hP.mono hpre)
      have hthis : C ⟨s, call, result⟩ := by
        by_contra hnot
        exact hbreak _ _ _ _ _ (hI.last hrun) hlast hstep hnot (hP.last hrun')
      refine ⟨hI.snoc hrun hstep (hkeep _ _ _ _ _ (hI.last hrun) hlast hstep hthis), ?_⟩
      intro e he
      rcases List.mem_append.mp he with he | he
      · exact hC e he
      · rwa [List.mem_singleton.mp he]
    · intro hC
      have hI := hbwd fun e he => hC e (List.mem_append_left _ he)
      exact hI.snoc hrun hstep (hkeep _ _ _ _ _ (hI.last hrun) hlast hstep (hC _ (by simp)))

/-- **Invariants.** -/
theorem Run.invariant {I : σ → Prop} (hinit : I init)
    (hstep : ∀ s call result s', I s → step s call = .ok (result, s') → I s')
    (h : Run step init log s) : I s := by
  induction h with
  | nil => exact hinit
  | snoc _ hs ih => exact hstep _ _ _ _ ih hs

/-- **Simulation.** If each call is matched by a step of an abstract component, a run is a run of
that component with the same calls and results. -/
theorem Run.simulates {Step : α → ι → ω → α → Prop} {init' : α}
    {R : List (Event σ ι ω) → σ → α → Prop} {A : List (Event σ ι ω) → Prop}
    (hinit : R [] init init')
    (hstep : ∀ log s call result s' a, R log s a → A (log ++ [⟨s, call, result⟩]) →
      step s call = .ok (result, s') →
      ∃ a', Step a call result a' ∧ R (log ++ [⟨s, call, result⟩]) s' a')
    (hrun : Run step init log s) (hA : ∀ log', log' <+: log → A log') :
    ∃ a, Steps Step init' (log.map Event.io) a ∧ R log s a := by
  induction hrun with
  | nil => exact ⟨init', .nil, hinit⟩
  | snoc hrun hs ih =>
    obtain ⟨a, hsteps, hR⟩ := ih fun log' h => hA log' (h.trans (List.prefix_append _ _))
    obtain ⟨a', hstep', hR'⟩ := hstep _ _ _ _ _ _ hR (hA _ (List.prefix_refl _)) hs
    refine ⟨a', ?_, hR'⟩
    rw [List.map_append, List.map_singleton]
    exact hsteps.snoc hstep'

/-- Induction over the last part of a run. -/
theorem Run.append_induction {pre mid : List (Event σ ι ω)} {P : List (Event σ ι ω) → σ → Prop}
    (h : Run step init (pre ++ mid) s) (hfirst : ∀ s, Run step init pre s → P [] s)
    (hkeep : ∀ mid' x s, x ∈ mid → P mid' x.before → step x.before x.call = .ok (x.result, s) →
      P (mid' ++ [x]) s) : P mid s := by
  induction mid using List.reverseRecOn generalizing s with
  | nil => exact hfirst s (by rwa [List.append_nil] at h)
  | append_singleton mid x ih =>
    rw [← List.append_assoc, run_concat_iff] at h
    obtain ⟨hrun, hstep⟩ := h
    have hmid := ih hrun fun mid' y s hy => hkeep mid' y s (List.mem_append_left _ hy)
    exact hkeep mid x s (by simp) hmid hstep

/-- Two events of a log that bear a mark, with the events in between, of which none bears it and
none breaks the gap. -/
structure Gap (marked breaks : Event σ ι ω → Prop) (log : List (Event σ ι ω)) (e : Event σ ι ω)
    (mid : List (Event σ ι ω)) (e' : Event σ ι ω) : Prop where
  split : ∃ pre post, log = pre ++ e :: (mid ++ e' :: post)
  first : marked e
  last : marked e'
  quiet : ∀ x ∈ mid, ¬marked x ∧ ¬breaks x

/-- What a marked event establishes and the events of a gap keep is true where the next marked
event finds the component. -/
theorem Gap.induction {marked breaks : Event σ ι ω → Prop} {e e' : Event σ ι ω}
    {mid : List (Event σ ι ω)} {P : List (Event σ ι ω) → σ → Prop}
    (h : Gap marked breaks log e mid e') (hrun : Run step init log s)
    (hfirst : ∀ pre s, Run step init pre e.before → step e.before e.call = .ok (e.result, s) →
      P [] s)
    (hkeep : ∀ mid' x s, P mid' x.before → ¬marked x → ¬breaks x →
      step x.before x.call = .ok (x.result, s) → P (mid' ++ [x]) s) :
    P mid e'.before ∧ ∃ s, step e'.before e'.call = .ok (e'.result, s) := by
  obtain ⟨pre, post, rfl⟩ := h.split
  have hsplit : pre ++ e :: (mid ++ e' :: post) = (pre ++ [e] ++ mid ++ [e']) ++ post := by simp
  rw [hsplit] at hrun
  obtain ⟨s', hrun'⟩ := hrun.of_append
  obtain ⟨hmid, hlast⟩ := run_concat_iff.mp hrun'
  refine ⟨hmid.append_induction (fun s hrun => ?_) fun mid' x s hx => ?_, s', hlast⟩
  · obtain ⟨hpre, hstep⟩ := run_concat_iff.mp hrun
    exact hfirst pre s hpre hstep
  · obtain ⟨hmarked, hbreaks⟩ := h.quiet x hx
    exact fun hP hstep => hkeep mid' x s hP hmarked hbreaks hstep

end Exec
