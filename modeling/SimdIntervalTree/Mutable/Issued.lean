import SimdIntervalTree.Mutable.Rebuilds
import SimdIntervalTree.Mutable.Refinement

/-!
# The IDs that a run issues

The generations wrap, so the IDs of a long run repeat. But any `2 ^ 32` insertions in a row have
different generations, whatever went before. Within such a window no ID is issued twice, and one
that is dead stays so.
-/

namespace SimdIntervalTree

open Exec

namespace IntervalSet

variable {T V : Type}

/-- The ID that a call returned for an insertion. -/
def issue : Op T V × Output T V → Option IntervalId
  | (.insert .., .id id) => some id
  | _ => none

/-- The IDs that were issued, in order. -/
def issued (log : List (Event (IntervalSet T V) (Op T V) (Output T V))) : List IntervalId :=
  log.filterMap fun e => issue e.io

variable {s s' : IntervalSet T V} {id : IntervalId} {e : Entry T V} {range : Interval T} {value : V}
  {log pre mid : List (Event (IntervalSet T V) (Op T V) (Output T V))} {call : Op T V}
  {result : Output T V}

theorem issued_append (pre mid : List (Event (IntervalSet T V) (Op T V) (Output T V))) :
    issued (pre ++ mid) = issued pre ++ issued mid := List.filterMap_append

theorem issue_of_reads (h : call.Reads) : issue (call, result) = none := by
  cases call with
  | insert | remove | clear => exact h.elim
  | get | getInterval | iter | len | query => rfl

theorem issued_of_issue {event : Event (IntervalSet T V) (Op T V) (Output T V)}
    (h : issue event.io = some id) : issued [event] = [id] := by
  simp [issued, h]

theorem issued_of_none {event : Event (IntervalSet T V) (Op T V) (Output T V)}
    (h : issue event.io = none) : issued [event] = [] := by
  simp [issued, h]

variable [LinearOrder T] {sorts : Sorts T IntervalId}

/-! ## One call -/

/-- What a call does to the entries and the generations. -/
theorem step_issues (hs : s.Slots) (h : s.step sorts call = .ok (result, s')) :
    (∃ range value, issue (call, result) = some s.nextId ∧ inserts [call] = 1 ∧
      s'.nextGeneration = s.nextGeneration + 1 ∧
      s'.entries = (s.added range value).entries) ∨
    (issue (call, result) = none ∧ inserts [call] = 0 ∧ s'.nextGeneration = s.nextGeneration ∧
      ∀ id, s.entry id = none → s'.entry id = none) := by
  cases step_change h with
  | @insert range value s' id hinsert =>
    obtain ⟨rfl, hrebuild⟩ := insert_ok hs hinsert
    obtain ⟨hentries, -, hnext, -⟩ := rebuildIfDue_frame hrebuild
    exact .inl ⟨range, value, rfl, rfl, hnext, hentries⟩
  | remove he hrebuild =>
    refine .inr ⟨rfl, rfl, (rebuildIfDue_frame hrebuild).2.2.1, fun id hid => ?_⟩
    rw [entry_rebuildIfDue hrebuild, Slots.entry_dropped he, hid]
    exact ite_self none
  | removeNone => exact .inr ⟨rfl, rfl, rfl, fun _ => id⟩
  | clear => exact .inr ⟨rfl, rfl, rfl, fun _ _ => rfl⟩
  | read hreads =>
    exact .inr ⟨issue_of_reads hreads, inserts_of_reads hreads, rfl, fun _ => id⟩

/-- A dead ID is only revived by being issued. -/
theorem entry_step (hs : s.Slots) (h : s.step sorts call = .ok (result, s'))
    (hlen : s'.entries.length ≤ SLOT_LIMIT) (hdead : s.entry id = none)
    (hid : issue (call, result) ≠ some id) : s'.entry id = none := by
  obtain ⟨range, value, hissue, -, -, hentries⟩ | ⟨-, -, -, hkeeps⟩ := step_issues hs h
  · have hlt : s.nextSlot < SLOT_LIMIT := by
      rw [hentries, hs.length_added] at hlen
      omega
    have hentry : s'.entry id = (s.added range value).entry id := by
      rw [entry, entry, hentries]
    rw [hentry, hs.entry_added hlt, if_neg, hdead]
    rintro rfl
    exact hid hissue
  · exact hkeeps id hdead

/-! ## Windows of a run -/

theorem run_nextGeneration (h : Run (step sorts) new log s) :
    s.nextGeneration = UInt32.ofNat (inserts (log.map Event.call)) := by
  induction h with
  | nil => rfl
  | snoc hrun hstep ih =>
    rw [List.map_append, inserts_append, UInt32.ofNat_add, ← ih]
    obtain ⟨-, -, -, hone, hnext, -⟩ | ⟨-, hzero, hnext, -⟩ :=
      step_issues (run_not_due hrun).1 hstep
    · rw [hnext, List.map_singleton, hone]
      rfl
    · rw [hnext, List.map_singleton, hzero]
      exact (UInt32.add_zero _).symm

/-- The generations of the IDs count the insertions. -/
theorem map_generation_issued (h : Run (step sorts) new (pre ++ mid) s)
    (hlen : Always (step sorts) new (fun _ s => s.entries.length ≤ SLOT_LIMIT) (pre ++ mid)) :
    (issued mid).map IntervalId.generation = (List.range (inserts (mid.map Event.call))).map
      fun i => UInt32.ofNat (inserts (pre.map Event.call)) + UInt32.ofNat i := by
  induction mid using List.reverseRecOn generalizing s with
  | nil => rfl
  | append_singleton mid x ih =>
    have hlast := hlen.last h
    rw [← List.append_assoc] at h hlen
    obtain ⟨hrun, hstep⟩ := run_concat_iff.mp h
    have hmid := ih hrun (hlen.mono (List.prefix_append _ _))
    have hslots := (run_not_due hrun).1
    rw [issued_append, List.map_append, hmid, List.map_append, inserts_append, List.map_singleton]
    obtain ⟨range, value, hissue, hone, -, hentries⟩ | ⟨hissue, hzero, -, -⟩ :=
      step_issues hslots hstep
    · have hlt : x.before.nextSlot < SLOT_LIMIT := by
        rw [hentries, hslots.length_added] at hlast
        omega
      have hgen := run_nextGeneration hrun
      rw [List.map_append, inserts_append, UInt32.ofNat_add] at hgen
      rw [issued_of_issue hissue, hone, List.range_succ, List.map_append, List.map_singleton,
        List.map_singleton, nextId, IntervalId.generation_new hlt, hgen]
    · rw [issued_of_none hissue, hzero, List.map_nil, List.append_nil, Nat.add_zero]

theorem nodup_issued (h : Run (step sorts) new (pre ++ mid) s)
    (hlen : Always (step sorts) new (fun _ s => s.entries.length ≤ SLOT_LIMIT) (pre ++ mid))
    (hn : inserts (mid.map Event.call) ≤ 2 ^ 32) : (issued mid).Nodup := by
  apply List.Nodup.of_map IntervalId.generation
  rw [map_generation_issued h hlen]
  apply List.nodup_range.map_on
  intro i hi j hj hij
  exact add_ofNat_inj ((List.mem_range.mp hi).trans_le hn) ((List.mem_range.mp hj).trans_le hn) hij

/-- An ID stays dead until it is issued again. -/
theorem entry_of_not_issued (h : Run (step sorts) new (pre ++ mid) s)
    (hlen : Always (step sorts) new (fun _ s => s.entries.length ≤ SLOT_LIMIT) (pre ++ mid))
    {s₀ : IntervalSet T V} (h₀ : Run (step sorts) new pre s₀) (hdead : s₀.entry id = none)
    (hid : id ∉ issued mid) : s.entry id = none := by
  induction mid using List.reverseRecOn generalizing s with
  | nil =>
    rw [List.append_nil] at h
    exact h.deterministic h₀ ▸ hdead
  | append_singleton mid x ih =>
    have hlast := hlen.last h
    rw [← List.append_assoc] at h hlen
    obtain ⟨hrun, hstep⟩ := run_concat_iff.mp h
    rw [issued_append, List.mem_append, not_or] at hid
    have hmid := ih hrun (hlen.mono (List.prefix_append _ _)) hid.1
    refine entry_step (run_not_due hrun).1 hstep hlast hmid fun hissue => hid.2 ?_
    rw [issued_of_issue hissue]
    exact List.mem_singleton_self id

/-- **IDs in a window.** In a run of any length, among the IDs that `2 ^ 32` insertions in a row
return none occurs twice, and one that is dead stays dead until the last of them. -/
theorem run_window (h : Run (step sorts) new (pre ++ mid) s)
    (hlen : Always (step sorts) new (fun _ s => s.entries.length ≤ 2 ^ 32) (pre ++ mid))
    (hn : inserts (mid.map Event.call) ≤ 2 ^ 32) :
    (issued mid).Nodup ∧ ∀ mid₁ mid₂ s₁, mid = mid₁ ++ mid₂ →
      Run (step sorts) new (pre ++ mid₁) s₁ → ∀ id ∈ issued mid₁, s₁.get id = none →
        s.get id = none ∧ s.getInterval id = none := by
  have hnodup := nodup_issued h hlen hn
  refine ⟨hnodup, fun mid₁ mid₂ s₁ hmid h₁ id hid hdead => ?_⟩
  rw [hmid, issued_append, List.nodup_append] at hnodup
  rw [hmid, ← List.append_assoc] at h hlen
  have hnone : s.entry id = none := by
    refine entry_of_not_issued h hlen h₁ (Option.map_eq_none_iff.mp hdead) fun hmem => ?_
    exact hnodup.2.2 id hid id hmem rfl
  rw [get, getInterval, hnone]
  exact ⟨rfl, rfl⟩

theorem run_window_reuse :
    let sorts : Sorts Nat IntervalId := .stable Nat IntervalId
    ∃ log s, Run (step sorts) new log s ∧
      log.map Event.io = [(.insert ⟨0, 10⟩ 'a', .id ⟨0⟩), (.remove ⟨0⟩, .removed true),
        (.insert ⟨5, 8⟩ 'b', .id ⟨2 ^ 32⟩)] ∧
      (issued log).Nodup ∧ ∀ mid₁ mid₂ s₁, log = mid₁ ++ mid₂ → Run (step sorts) new mid₁ s₁ →
        ∀ id ∈ issued mid₁, s₁.get id = none → s.get id = none ∧ s.getInterval id = none :=
  have h := ((Run.nil.snoc rfl).snoc rfl).snoc rfl
  have hlen := ((Always.nil (Nat.zero_le _)).snoc .nil rfl (by decide)).snoc (Run.nil.snoc rfl) rfl
    (by decide) |>.snoc ((Run.nil.snoc rfl).snoc rfl) rfl (by decide)
  ⟨_, _, h, rfl, @run_window _ _ _ [] _ _ _ h hlen (by decide)⟩

end IntervalSet

end SimdIntervalTree
