import SimdIntervalTree.Mutable.Validity

/-!
# The rebuilds of a run

A rebuild takes place in the state in which an insertion or a removal asks for one. It walks over
all live intervals, but the threshold for the next one is taken from the length of the tree, which
leaves out those that contain no point. So the gap to the next rebuild is that of the smaller set.
-/

namespace SimdIntervalTree

open Exec IntervalTreeBuilder

namespace IntervalSet

variable {T V : Type} [LinearOrder T]

/-- The state in which a call asks for a rebuild. -/
def asking (self : IntervalSet T V) : Op T V → Option (IntervalSet T V)
  | .insert range value => some (self.added range value)
  | .remove id => (self.entry id).map fun _ => self.dropped id
  | .clear | .get _ | .getInterval _ | .iter | .len | .query _ => none

/-- The state in which a call that has changed the set has asked for a rebuild. -/
def asks (e : Event (IntervalSet T V) (Op T V) (Output T V)) : Option (IntervalSet T V) :=
  match e.result with
  | .id _ | .removed true => e.before.asking e.call
  | _ => none

/-- A successful insertion or removal. -/
def mutates (e : Event (IntervalSet T V) (Op T V) (Output T V)) : Bool := (asks e).isSome

/-- The call rebuilds the tree, in the state `s`. -/
def Rebuilds (e : Event (IntervalSet T V) (Op T V) (Output T V)) (s : IntervalSet T V) : Prop :=
  asks e = some s ∧ s.Due

/-- A rebuild in the state `s` and the calls `mid` up to the next one, without a `clear`. -/
def Successive (log : List (Event (IntervalSet T V) (Op T V) (Output T V))) (s : IntervalSet T V)
    (mid : List (Event (IntervalSet T V) (Op T V) (Output T V))) : Prop :=
  ∃ e e', Rebuilds e s ∧
    Gap (fun e => ∃ s, Rebuilds e s) (fun e => e.call = .clear) log e mid e'

/-- The number of live intervals that the builder keeps. -/
def kept (s : IntervalSet T V) : Nat :=
  s.occupied.countP fun x => decide (x.1.start < x.1.stop)

variable {s s' r : IntervalSet T V} {sorts : Sorts T IntervalId}
  {log mid : List (Event (IntervalSet T V) (Op T V) (Output T V))} {call : Op T V}
  {result : Output T V} {id : IntervalId} {e : Entry T V}

omit [LinearOrder T] in
theorem asking_of_reads (h : call.Reads) : s.asking call = none := by
  cases call with
  | insert | remove | clear => exact h.elim
  | get | getInterval | iter | len | query => rfl

omit [LinearOrder T] in
theorem asking_remove (h : s.entry id = some e) : s.asking (.remove id) = some (s.dropped id) := by
  rw [asking, h]
  rfl

omit [LinearOrder T] in
theorem asks_of_asking_none (h : s.asking call = none) : asks ⟨s, call, result⟩ = none := by
  rw [asks]
  split
  · exact h
  · exact h
  · rfl

/-- A call either changes one slot and asks for a rebuild, or it clears the set or leaves it. -/
theorem step_asks (hs : s.Slots) (h : s.step sorts call = .ok (result, s')) :
    (∃ r : IntervalSet T V, asks ⟨s, call, result⟩ = some r ∧ r.Slots ∧ r.tree = s.tree ∧
      r.pending.length + r.removedSinceRebuild = s.pending.length + s.removedSinceRebuild + 1 ∧
      r.rebuildIfDue sorts = .ok s') ∨
    asks ⟨s, call, result⟩ = none ∧ (call = .clear ∧ s' = s.clear ∨ s' = s) := by
  cases step_change h with
  | @insert range value s' id hinsert =>
    obtain ⟨-, hrebuild⟩ := insert_ok hs hinsert
    refine .inl ⟨s.added range value, rfl, hs.added, rfl, ?_, hrebuild⟩
    simp only [added, List.length_append, List.length_singleton]
    omega
  | @remove e s' id he hrebuild =>
    exact .inl ⟨s.dropped id, asking_remove he, hs.dropped he, rfl, rfl, hrebuild⟩
  | removeNone => exact .inr ⟨rfl, .inr rfl⟩
  | clear => exact .inr ⟨rfl, .inl ⟨rfl, rfl⟩⟩
  | read hreads => exact .inr ⟨asks_of_asking_none (asking_of_reads hreads), .inr rfl⟩

theorem step_of_asks {e : Event (IntervalSet T V) (Op T V) (Output T V)} (hs : e.before.Slots)
    (h : e.before.step sorts e.call = .ok (e.result, s')) (hasks : asks e = some r) :
    r.Slots ∧ r.tree = e.before.tree ∧ r.pending.length + r.removedSinceRebuild =
      e.before.pending.length + e.before.removedSinceRebuild + 1 ∧
      r.rebuildIfDue sorts = .ok s' := by
  obtain ⟨r', hr', hchange⟩ | ⟨hnone, -⟩ := step_asks hs h
  · cases hasks.symm.trans hr'
    exact hchange
  · exact nomatch hasks.symm.trans hnone

/-- **The effect of a rebuild.** A call rebuilds just if it leaves a fresh tree of the live entries,
with no insertion or removal left to count. -/
theorem rebuilds_iff {e : Event (IntervalSet T V) (Op T V) (Output T V)} (hs : e.before.Slots)
    (h : e.before.step sorts e.call = .ok (e.result, s')) :
    Rebuilds e r ↔ asks e = some r ∧
      ∃ tree, (IntervalTreeBuilder.mk r.occupied).build sorts = .ok tree ∧ s' = r.rebuilt tree := by
  refine and_congr_right fun hasks => ?_
  obtain ⟨-, -, hchurn, hrebuild⟩ := step_of_asks hs h hasks
  constructor
  · intro hdue
    obtain ⟨hnot, -⟩ | ⟨-, heffect⟩ := rebuildIfDue_cases hrebuild
    · exact absurd hdue hnot
    · exact heffect
  · rintro ⟨tree, -, rfl⟩
    -- without a rebuild the call itself would still be counted
    obtain ⟨-, heq⟩ | ⟨hdue, -⟩ := rebuildIfDue_cases hrebuild
    · have hpending : r.pending = [] := (congrArg pending heq).symm
      have hremoved : r.removedSinceRebuild = 0 := (congrArg removedSinceRebuild heq).symm
      rw [hpending, hremoved] at hchurn
      exact absurd hchurn.symm (Nat.succ_ne_zero _)
    · exact hdue

/-- No other call touches the tree, except `clear`. -/
theorem tree_of_not_rebuilds {e : Event (IntervalSet T V) (Op T V) (Output T V)}
    (hs : e.before.Slots) (h : e.before.step sorts e.call = .ok (e.result, s'))
    (hquiet : ¬∃ r, Rebuilds e r) (hclear : e.call ≠ .clear) : s'.tree = e.before.tree := by
  obtain ⟨r, hasks, -, htree, -, hrebuild⟩ | ⟨-, ⟨hcall, -⟩ | rfl⟩ := step_asks hs h
  · rw [rebuildIfDue_of_not_due fun hdue => hquiet ⟨r, hasks, hdue⟩] at hrebuild
    cases hrebuild
    exact htree
  · exact absurd hcall hclear
  · rfl

theorem not_due_of_rebuildIfDue (h : s.rebuildIfDue sorts = .ok s') : ¬s'.Due := by
  obtain ⟨hdue, rfl⟩ | ⟨-, tree, -, rfl⟩ := rebuildIfDue_cases h
  · exact hdue
  · exact not_due_of_churn_eq_zero rfl

/-- No call leaves a rebuild to be done. -/
theorem run_not_due (h : Run (step sorts) new log s) : s.Slots ∧ ¬s.Due := by
  refine h.invariant (I := fun s => s.Slots ∧ ¬s.Due) ⟨slots_new, not_due_of_churn_eq_zero rfl⟩ ?_
  rintro s call result s' ⟨hs, hdue⟩ hstep
  obtain ⟨r, -, hr, -, -, hrebuild⟩ | ⟨-, ⟨-, rfl⟩ | rfl⟩ := step_asks hs hstep
  · exact ⟨hr.rebuildIfDue hrebuild, not_due_of_rebuildIfDue hrebuild⟩
  · exact ⟨slots_clear, not_due_of_churn_eq_zero rfl⟩
  · exact ⟨hs, hdue⟩

theorem kept_eq : s.kept = (retained s.occupied).length :=
  List.countP_eq_length_filter

/-- The tree of a rebuild holds what the builder keeps. -/
theorem len_of_build {tree : IntervalTree T IntervalId}
    (h : (IntervalTreeBuilder.mk s.occupied).build sorts = .ok tree) : tree.len = s.kept := by
  obtain ⟨t, hb⟩ := build_built h
  exact hb.wellFormed.len.trans kept_eq.symm

/-- The set `n` insertions and removals after a rebuild in the state `r`. -/
structure Since (r : IntervalSet T V) (n : Nat) (s : IntervalSet T V) : Prop where
  slots : s.Slots
  notDue : ¬s.Due
  len : s.tree.len = r.kept
  churn : s.pending.length + s.removedSinceRebuild = n

theorem since_zero {e : Event (IntervalSet T V) (Op T V) (Output T V)} (hslots : e.before.Slots)
    (hs : e.before.step sorts e.call = .ok (e.result, s)) (hrebuilds : Rebuilds e r) :
    Since r 0 s := by
  obtain ⟨hr, -, -, hrebuild⟩ := step_of_asks hslots hs hrebuilds.1
  obtain ⟨-, tree, hbuild, rfl⟩ := (rebuilds_iff hslots hs).mp hrebuilds
  exact ⟨hr.rebuildIfDue hrebuild, not_due_of_rebuildIfDue hrebuild, len_of_build hbuild, rfl⟩

/-- A call that neither rebuilds nor clears. -/
theorem Since.step {n : Nat} {e : Event (IntervalSet T V) (Op T V) (Output T V)}
    (h : Since r n e.before) (hquiet : ¬∃ s, Rebuilds e s) (hclear : e.call ≠ .clear)
    (hs : e.before.step sorts e.call = .ok (e.result, s)) :
    Since r (n + [e].countP mutates) s := by
  have hlen : s.tree.len = r.kept := tree_of_not_rebuilds h.slots hs hquiet hclear ▸ h.len
  obtain ⟨s', hasks, hslots, -, hchurn, hrebuild⟩ | ⟨hnone, ⟨hcall, -⟩ | rfl⟩ :=
    step_asks h.slots hs
  · have hdue : ¬s'.Due := fun hdue => hquiet ⟨s', hasks, hdue⟩
    have hone : [e].countP mutates = 1 := by
      rw [List.countP_singleton, mutates, hasks]
      rfl
    rw [rebuildIfDue_of_not_due hdue] at hrebuild
    cases hrebuild
    refine ⟨hslots, hdue, hlen, ?_⟩
    rw [hchurn, h.churn, hone]
  · exact absurd hcall hclear
  · have hzero : [e].countP mutates = 0 := by
      rw [List.countP_singleton, mutates, hnone]
      rfl
    rw [hzero]
    exact h

/-- The gap between two rebuilds is the threshold that the first one has left. -/
theorem Successive.countP_eq (h : Run (step sorts) new log s) (hsucc : Successive log r mid) :
    mid.countP mutates = rebuildThreshold r.kept := by
  obtain ⟨e, e', hrebuilds, hgap⟩ := hsucc
  have hinduction := hgap.induction h (P := fun mid s => Since r (mid.countP mutates) s)
  obtain ⟨hsince, s', hlast⟩ := hinduction
    (fun _ _ hpre hstep => since_zero (run_not_due hpre).1 hstep hrebuilds)
    (fun mid' x s hsince hquiet hclear hstep => by
      rw [List.countP_append]
      exact hsince.step hquiet hclear hstep)
  -- the last call finds the churn within the threshold and takes it one further
  obtain ⟨r', hr', hdue'⟩ := hgap.last
  obtain ⟨-, htree, hchurn, -⟩ := step_of_asks hsince.slots hlast hr'
  have hnot := hsince.notDue
  rw [Due, htree, hchurn, hsince.churn, hsince.len] at hdue'
  rw [Due, hsince.churn, hsince.len] at hnot
  omega

/-- **The spacing of rebuilds.** With `n` live intervals at a rebuild, the next one leaves room for
`max(64, √n)` insertions and removals just if `√n` is at most 64 or the root of the number of live
intervals that contain a point. -/
theorem run_spacing_iff (h : Run (step sorts) new log s) :
    (∀ r mid, Successive log r mid → max 64 (Nat.sqrt r.len) ≤ mid.countP mutates) ↔
      ∀ r mid, Successive log r mid → Nat.sqrt r.len ≤ max 64 (Nat.sqrt r.kept) := by
  refine forall_congr' fun r => forall_congr' fun mid => forall_congr' fun hsucc => ?_
  rw [hsucc.countP_eq h, rebuildThreshold, max_comm (Nat.sqrt r.kept), max_le_iff]
  exact and_iff_right (le_max_left _ _)

theorem run_spacing_iff_filled :
    let sorts : Sorts Nat IntervalId := .stable Nat IntervalId
    ∃ log s, Run (step sorts) new log s ∧
      log.map Event.call = List.replicate 130 (.insert ⟨5, 5⟩ ()) ∧
      ((∀ r mid, Successive log r mid → max 64 (Nat.sqrt r.len) ≤ mid.countP mutates) ↔
        ∀ r mid, Successive log r mid → Nat.sqrt r.len ≤ max 64 (Nat.sqrt r.kept)) := by
  obtain ⟨log, s, hrun, hcalls, -⟩ := exists_run_filled (.stable Nat IntervalId) (k := 130)
    (by decide)
  exact ⟨log, s, hrun, hcalls, run_spacing_iff hrun⟩

/-! ## A run of zero-width intervals -/

theorem Fills.asks {k : Nat} {e : Event (IntervalSet Nat Unit) (Op Nat Unit) (Output Nat Unit)}
    (h : Fills k e) : asks e = some (e.before.added ⟨5, 5⟩ ()) := by
  rw [IntervalSet.asks, h.call, h.result]
  rfl

/-- Every 65th insertion rebuilds the tree. -/
theorem Fills.rebuilds_iff {k : Nat}
    {e : Event (IntervalSet Nat Unit) (Op Nat Unit) (Output Nat Unit)} (h : Fills k e) :
    (∃ s, Rebuilds e s) ↔ k % 65 = 64 := by
  obtain ⟨hthreshold, hchurn⟩ := h.before.asking
  rw [← due_iff hthreshold hchurn]
  constructor
  · rintro ⟨s, hs, hdue⟩
    cases h.asks.symm.trans hs
    exact hdue
  · exact fun hdue => ⟨_, h.asks, hdue⟩

theorem Fills.counts {k : Nat}
    {e : Event (IntervalSet Nat Unit) (Op Nat Unit) (Output Nat Unit)} {s : IntervalSet Nat Unit}
    (h : Fills k e) (hs : Rebuilds e s) : s.len = k + 1 ∧ s.kept = 0 := by
  cases h.asks.symm.trans hs.1
  exact ⟨congrArg (· + 1) h.before.count, kept_eq.trans (congrArg List.length h.before.retained)⟩

/-- With 4420 zero-width intervals in the set, the root is 66 and the next rebuild leaves room for
64 insertions. -/
theorem run_early : ∃ log s, Run (step (.stable Nat IntervalId)) new log s ∧
    log.map Event.call = List.replicate 4485 (.insert ⟨5, 5⟩ ()) ∧
    ∃ r mid, Successive log r mid ∧ r.len = 4420 ∧ mid.countP mutates = 64 ∧
      ¬max 64 (Nat.sqrt r.len) ≤ mid.countP mutates := by
  obtain ⟨log, s, hrun, hcalls, hs⟩ := exists_run_filled (.stable Nat IntervalId) (k := 4419)
    (by decide)
  obtain ⟨first, s₁, hrun₁, hs₁, hcalls₁, hfirst⟩ := hs.extend hrun (n := 1) (by decide)
  obtain ⟨mid, s₂, hrun₂, hs₂, hcalls₂, hmid⟩ := hs₁.extend hrun₁ (n := 64) (by decide)
  obtain ⟨last, s₃, hrun₃, -, hcalls₃, hlast⟩ := hs₂.extend hrun₂ (n := 1) (by decide)
  obtain ⟨e, rfl⟩ : ∃ e, first = [e] := by
    apply List.length_eq_one_iff.mp
    simpa using congrArg List.length hcalls₁
  obtain ⟨e', rfl⟩ : ∃ e', last = [e'] := by
    apply List.length_eq_one_iff.mp
    simpa using congrArg List.length hcalls₃
  obtain ⟨j, hle, hlt, he⟩ := hfirst e (by simp)
  obtain ⟨j', hle', hlt', he'⟩ := hlast e' (by simp)
  obtain ⟨r, hr⟩ := he.rebuilds_iff.mpr (by omega)
  have hsucc : Successive (log ++ [e] ++ mid ++ [e']) r mid := by
    refine ⟨e, e', hr, ⟨log, [], by simp⟩, ⟨r, hr⟩, he'.rebuilds_iff.mpr (by omega), ?_⟩
    intro x hx
    obtain ⟨i, hi, hi', hfill⟩ := hmid x hx
    refine ⟨fun hx => ?_, fun hclear => ?_⟩
    · have := hfill.rebuilds_iff.mp hx
      omega
    · rw [hfill.call] at hclear
      cases hclear
  obtain ⟨hlen, hkept⟩ := he.counts hr
  obtain rfl : j = 4419 := by omega
  have hgap : mid.countP mutates = 64 := by
    rw [hsucc.countP_eq hrun₃, hkept]
    rfl
  have hsqrt : 66 ≤ Nat.sqrt r.len := Nat.le_sqrt.mpr (by rw [hlen]; decide)
  refine ⟨_, s₃, hrun₃, ?_, r, mid, hsucc, hlen, hgap, ?_⟩
  · rw [List.map_append, List.map_append, List.map_append, hcalls, hcalls₁, hcalls₂, hcalls₃,
      List.replicate_append_replicate, List.replicate_append_replicate,
      List.replicate_append_replicate]
  · rw [hgap, max_le_iff]
    omega

end IntervalSet

end SimdIntervalTree
