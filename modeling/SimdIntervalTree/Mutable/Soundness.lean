import SimdIntervalTree.Lib.Run
import SimdIntervalTree.Mutable.Index

/-!
# Sound queries over any number of insertions

The tree holds on to the IDs of removed intervals until the next rebuild. If an insertion is given
such an ID, the new entry is found under the old interval. With wrapping generations that happens,
and nothing else makes a query unsound.
-/

namespace SimdIntervalTree

open Exec IntervalTreeBuilder

namespace IntervalSet

variable {T V : Type} [LinearOrder T] {s s' : IntervalSet T V} {sorts : Sorts T IntervalId}
  {id : IntervalId} {e : Entry T V} {range : Interval T} {value : V}

/-- Every query returns, yields only intervals that share a point with it and no ID twice. -/
def Sound (s : IntervalSet T V) : Prop :=
  ∀ query : Interval T, ∃ es, s.query query = .ok es ∧ (∀ x ∈ es, x.2.1.Shares query) ∧
    (es.map Prod.fst).Nodup

/-- The tree holds an ID made of the slot on top of `free_slots` and `next_generation`. -/
def Collides (s : IntervalSet T V) : Prop :=
  ∃ slot, s.freeSlots.getLast? = some slot ∧ .new slot s.nextGeneration ∈ s.tree.values

/-- One more insertion makes a rebuild due. -/
def DueNext (s : IntervalSet T V) : Prop :=
  rebuildThreshold s.tree.len < s.pending.length + 1 + s.removedSinceRebuild

omit [LinearOrder T] in
theorem due_added : (s.added range value).Due ↔ s.DueNext := by
  rw [Due, DueNext, added, List.length_append, List.length_singleton]

namespace Consistent

theorem sound (h : s.Consistent) : s.Sound := by
  intro query
  obtain ⟨es, hquery, hnodup, hmem⟩ := h.query query
  exact ⟨es, hquery, fun x hx => ((hmem x).mp hx).2, hnodup⟩

/-- A slot that is new has no ID in the tree. -/
theorem collides (h : s.Consistent) (hlt : s.nextSlot < SLOT_LIMIT)
    (hmem : s.nextId ∈ s.tree.values) : s.Collides := by
  have hslot := h.index.slots _ hmem
  rw [nextId, IntervalId.slot_new hlt] at hslot
  cases hfree : s.freeSlots.getLast? with
  | none => exact absurd (Slots.nextSlot_of_none hfree) hslot.ne
  | some slot =>
    refine ⟨slot, hfree, ?_⟩
    rwa [← (h.slots.nextSlot_of_free hfree).1]

/-- The new entry is found under the interval of the old one, which it either does not overlap or
is found under once more. -/
theorem not_sound (h : s.Consistent) (hs : s.Collides) :
    ¬(s.added range value).Sound := by
  obtain ⟨slot, hfree, hmem⟩ := hs
  obtain ⟨hslot, -, hlen⟩ := h.slots.nextSlot_of_free hfree
  have hlt : s.nextSlot < SLOT_LIMIT := hslot ▸ hlen.trans_le h.length_le
  have hid : s.nextId ∈ s.tree.values := by rwa [nextId, hslot]
  obtain ⟨input, t, hb⟩ := h.index.built
  obtain ⟨interval, hx⟩ := hb.mem_values.mp hid
  have hself := Interval.shares_self (hb.nonempty_of_mem hx)
  have hentry : (s.added range value).entry s.nextId = some ⟨range, value, s.nextGeneration⟩ := by
    rw [h.slots.entry_added hlt, if_pos rfl]
  intro hsound
  obtain ⟨es, hquery, hshares, hnodup⟩ := hsound interval
  obtain ⟨ids, hperm, hquery'⟩ := query_eq (s := s.added range value) ⟨input, t, hb⟩ interval
  rw [hquery] at hquery'
  cases hquery'
  have hids : s.nextId ∈ ids := hperm.mem_iff.mpr (mem_treeHits.mpr ⟨interval, hx, hself⟩)
  have hshare : range.Shares interval := by
    refine hshares (s.nextId, range, value) (mem_resolve.mpr ⟨List.mem_append_left _ hids, ?_⟩)
    rw [hentry]
    rfl
  have hpend : s.nextId ∈ (s.added range value).pendingHits interval :=
    mem_pendingHits.mpr ⟨List.mem_append_right _ (List.mem_singleton_self _), _, hentry, hshare⟩
  rw [resolve_map_fst, List.filter_append, List.nodup_append] at hnodup
  have hsome : ((s.added range value).entry s.nextId).isSome = true := by rw [hentry]; rfl
  exact hnodup.2.2 s.nextId (List.mem_filter.mpr ⟨hids, hsome⟩) s.nextId
    (List.mem_filter.mpr ⟨hpend, hsome⟩) rfl

theorem step {call : Op T V} {result : Output T V} (h : s.Consistent)
    (hs : s.step sorts call = .ok (result, s')) (hlen : s'.entries.length ≤ SLOT_LIMIT)
    (hC : ∀ range value, call = .insert range value → s.Collides → s.DueNext) :
    s'.Consistent := by
  cases step_change hs with
  | insert hinsert =>
    refine h.insert hlen (fun hmem => due_added.mpr (hC _ _ rfl ?_)) hinsert
    obtain ⟨-, hrebuild⟩ := insert_ok h.slots hinsert
    rw [(rebuildIfDue_frame hrebuild).1, h.slots.length_added] at hlen
    exact h.collides (by omega) hmem
  | remove he hrebuild => exact h.remove (by rw [remove_eq he, hrebuild]; rfl)
  | removeNone => exact h
  | clear => exact consistent_clear
  | read => exact h

end Consistent

/-- **Queries are sound** throughout a run just if no insertion is given an ID that lingers in the
tree, unless it brings a rebuild. All calls of a run return: where a client goes on after a panic of
`insert`, the ID that it is given may also be one that is pending. -/
theorem run_sound_iff {log : List (Event (IntervalSet T V) (Op T V) (Output T V))}
    (h : Run (step sorts) new log s)
    (hlen : Always (step sorts) new (fun _ s => s.entries.length ≤ 2 ^ 32) log) :
    Always (step sorts) new (fun _ s => s.Sound) log ↔
      ∀ e ∈ log, ∀ range value, e.call = .insert range value →
        e.before.Collides → e.before.DueNext := by
  refine Run.always_iff (I := fun _ s => s.Consistent)
    (C := fun e => ∀ range value, e.call = .insert range value → e.before.Collides →
      e.before.DueNext)
    consistent_new (fun _ _ => Consistent.sound) ?_ ?_ h hlen
  · intro log s call result s' hI hA hs hC
    exact hI.step hs hA hC
  · intro log s call result s' hI hA hs hC
    push Not at hC
    obtain ⟨range, value, rfl, hcollides, hdue⟩ := hC
    cases step_change hs with
    | insert hinsert =>
      obtain ⟨-, hrebuild⟩ := insert_ok hI.slots hinsert
      rw [rebuildIfDue_of_not_due (mt due_added.mp hdue)] at hrebuild
      cases hrebuild
      exact hI.not_sound hcollides
    | read hreads => exact hreads.elim

theorem run_sound_iff_reuse :
    let sorts : Sorts Nat IntervalId := .stable Nat IntervalId
    ∃ log s, Run (step sorts) new log s ∧
      log.map Event.call = [.insert ⟨0, 10⟩ 'a', .remove ⟨0⟩, .insert ⟨5, 8⟩ 'b'] ∧
      (Always (step sorts) new (fun _ s => s.Sound) log ↔
        ∀ e ∈ log, ∀ range value, e.call = .insert range value →
          e.before.Collides → e.before.DueNext) :=
  have h := ((Run.nil.snoc rfl).snoc rfl).snoc rfl
  have hlen := ((Always.nil (Nat.zero_le _)).snoc .nil rfl (by decide)).snoc (Run.nil.snoc rfl) rfl
    (by decide) |>.snoc ((Run.nil.snoc rfl).snoc rfl) rfl (by decide)
  ⟨_, _, h, rfl, run_sound_iff h hlen⟩

/-! ## A run in which the generations wrap -/

/-- The interval `[0, 10)` stays in slot 0 while slot 1 is used over and over. After `n` calls the
tree is at most two entries large, so every 65th call rebuilds it. -/
structure Cycling (n : Nat) (s : IntervalSet Nat Unit) : Prop where
  slots : s.Slots
  length_le : s.entries.length ≤ 2
  held : s.entry (.new 0 0) = some ⟨⟨0, 10⟩, (), 0⟩
  built : ∃ input t, Built input s.tree t
  len_le : s.tree.len ≤ 2
  lingers : 65 ≤ n → (⟨0, 10⟩, .new 0 0) ∈ s.tree.entries

theorem rebuildThreshold_of_le {n : Nat} (h : n ≤ 2) : rebuildThreshold n = 64 := by
  have := Nat.sqrt_le_self n
  rw [rebuildThreshold]
  omega

/-- A call that leaves the interval in its slot keeps the cycle going. -/
theorem Cycling.rebuildIfDue {s : IntervalSet Nat Unit} {n : Nat} (sorts : Sorts Nat IntervalId)
    (h : Cycling n s) (hchurn : s.pending.length + s.removedSinceRebuild = n % 65 + 1) :
    ∃ s', s.rebuildIfDue sorts = .ok s' ∧ Cycling (n + 1) s' ∧
      s'.pending.length + s'.removedSinceRebuild = (n + 1) % 65 := by
  have hlimit : s.entries.length ≤ SLOT_LIMIT := h.length_le.trans (by decide)
  have hthreshold := rebuildThreshold_of_le h.len_le
  obtain ⟨s', hs'⟩ := exists_rebuildIfDue sorts fun _ => h.length_le.trans_lt
    (show 2 < SIZE_LIMIT by decide)
  refine ⟨s', hs', ?_, churn_rebuildIfDue hthreshold hchurn hs'⟩
  have hslots := h.slots.rebuildIfDue hs'
  have hlen : s'.entries.length ≤ 2 := (rebuildIfDue_frame hs').1 ▸ h.length_le
  have hheld := (entry_rebuildIfDue hs').trans h.held
  obtain ⟨hnot, rfl⟩ | ⟨hd, tree, hbuild, rfl⟩ := rebuildIfDue_cases hs'
  · rw [due_iff hthreshold hchurn] at hnot
    exact ⟨hslots, hlen, hheld, h.built, h.len_le, fun hn => h.lingers (by omega)⟩
  · obtain ⟨t, hb⟩ := build_built hbuild
    have hmem : (⟨0, 10⟩, .new 0 0) ∈ tree.entries :=
      (mem_entries_build hlimit hbuild).mpr ⟨(by decide : (0 : Nat) < 10), _, h.held, rfl⟩
    have hle : tree.len ≤ 2 := hb.len_le.trans (length_occupied_le.trans h.length_le)
    exact ⟨hslots, hlen, hheld, ⟨_, t, hb⟩, hle, fun _ => hmem⟩

theorem Cycling.insert {s : IntervalSet Nat Unit} {n : Nat} (sorts : Sorts Nat IntervalId)
    (h : Cycling n s) (hchurn : s.pending.length + s.removedSinceRebuild = n % 65)
    (hslot : s.nextSlot = 1) (range : Interval Nat) :
    ∃ s', s.insert sorts range () = .ok (.new 1 s.nextGeneration, s') ∧ Cycling (n + 1) s' ∧
      s'.pending.length + s'.removedSinceRebuild = (n + 1) % 65 ∧
      s'.nextGeneration = s.nextGeneration + 1 ∧
      s'.entry (.new 1 s.nextGeneration) = some ⟨range, (), s.nextGeneration⟩ := by
  have hlt : s.nextSlot < SLOT_LIMIT := by rw [hslot]; decide
  have hid : s.nextId = .new 1 s.nextGeneration := by rw [nextId, hslot]
  have hne : IntervalId.new 0 0 ≠ .new 1 s.nextGeneration := fun he =>
    Nat.zero_ne_one ((IntervalId.new_inj (by decide) (by decide)).mp he).1
  have hadded : Cycling n (s.added range ()) := {
    slots := h.slots.added
    length_le := by
      rw [h.slots.length_added, hslot]
      exact max_le h.length_le le_rfl
    held := by rw [h.slots.entry_added hlt, hid, if_neg hne, h.held]
    built := h.built
    len_le := h.len_le
    lingers := h.lingers }
  obtain ⟨s', hs', hcycling, hchurn'⟩ := hadded.rebuildIfDue sorts (by
    rw [← hchurn]
    simp only [IntervalSet.added, List.length_append, List.length_singleton]
    omega)
  refine ⟨s', by rw [insert_eq h.slots, hs', hid]; rfl, hcycling, hchurn',
    (rebuildIfDue_frame hs').2.2.1, ?_⟩
  rw [entry_rebuildIfDue hs', h.slots.entry_added hlt, if_pos hid.symm]

theorem Cycling.remove {s : IntervalSet Nat Unit} {n : Nat} (sorts : Sorts Nat IntervalId)
    (h : Cycling n s) (hchurn : s.pending.length + s.removedSinceRebuild = n % 65) {g : UInt32}
    {e : Entry Nat Unit} (hid : s.entry (.new 1 g) = some e) :
    ∃ s', s.remove sorts (.new 1 g) = .ok (true, s') ∧ Cycling (n + 1) s' ∧
      s'.pending.length + s'.removedSinceRebuild = (n + 1) % 65 ∧
      s'.nextGeneration = s.nextGeneration ∧ s'.nextSlot = 1 := by
  have hne : IntervalId.new 0 0 ≠ .new 1 g := fun he =>
    Nat.zero_ne_one ((IntervalId.new_inj (by decide) (by decide)).mp he).1
  have hdropped : Cycling n (s.dropped (.new 1 g)) := {
    slots := h.slots.dropped hid
    length_le := List.length_set.trans_le h.length_le
    held := by rw [Slots.entry_dropped hid, if_neg hne, h.held]
    built := h.built
    len_le := h.len_le
    lingers := h.lingers }
  obtain ⟨s', hs', hcycling, hchurn'⟩ := hdropped.rebuildIfDue sorts (by
    rw [← hchurn]
    exact (Nat.add_assoc ..).symm)
  obtain ⟨hentries, hfree, hnext, -⟩ := rebuildIfDue_frame hs'
  refine ⟨s', by rw [remove_eq hid, hs']; rfl, hcycling, hchurn', hnext, ?_⟩
  rw [nextSlot, hfree, IntervalSet.dropped, List.getLast?_concat, IntervalId.slot_new (by decide)]
  rfl

/-- The calls that use slot 1 once. -/
def turn (k : Nat) : List (Op Nat Unit) :=
  [.insert ⟨40, 50⟩ (), .remove (.new 1 (UInt32.ofNat (k + 1)))]

theorem exists_run_cycling (sorts : Sorts Nat IntervalId) (k : Nat) : ∃ log s,
    Run (step sorts) new log s ∧
      log.map Event.call = .insert ⟨0, 10⟩ () :: (List.range k).flatMap turn ∧
      Always (step sorts) new (fun _ s => s.entries.length ≤ 2) log ∧ Cycling (2 * k + 1) s ∧
      s.pending.length + s.removedSinceRebuild = (2 * k + 1) % 65 ∧ s.nextSlot = 1 ∧
      s.nextGeneration = UInt32.ofNat (k + 1) := by
  induction k with
  | zero =>
    refine ⟨_, _, Run.nil.snoc rfl, rfl, (Always.nil (Nat.zero_le _)).snoc .nil rfl ?_, ?_, rfl,
      rfl, rfl⟩
    · decide
    · exact ⟨slots_new.added, by decide, rfl, ⟨[], .nil, .empty⟩, Nat.zero_le _,
        fun hn => absurd hn (by decide)⟩
  | succ k ih =>
    obtain ⟨log, s, hrun, hcalls, hsmall, hs, hchurn, hslot, hnext⟩ := ih
    obtain ⟨s₁, hinsert, hs₁, hchurn₁, hnext₁, hentry⟩ := hs.insert sorts hchurn hslot ⟨40, 50⟩
    obtain ⟨s₂, hremove, hs₂, hchurn₂, hnext₂, hslot₂⟩ := hs₁.remove sorts hchurn₁ hentry
    have hstep₁ : s.step sorts (.insert ⟨40, 50⟩ ()) = .ok (.id (.new 1 s.nextGeneration), s₁) := by
      rw [step, hinsert]
      rfl
    have hstep₂ : s₁.step sorts (.remove (.new 1 s.nextGeneration)) = .ok (.removed true, s₂) := by
      rw [step, hremove]
      rfl
    refine ⟨_, s₂, (hrun.snoc hstep₁).snoc hstep₂, ?_, (hsmall.snoc hrun hstep₁ hs₁.length_le).snoc
      (hrun.snoc hstep₁) hstep₂ hs₂.length_le, hs₂, hchurn₂, hslot₂, ?_⟩
    · rw [List.map_append, List.map_append, hcalls, hnext, List.range_succ, List.flatMap_append,
        List.append_assoc]
      rfl
    · rw [hnext₂, hnext₁, hnext, ← UInt32.ofNat_one, ← UInt32.ofNat_add]

/-- With the generations back at 0 the interval is removed and another one takes its ID, in two
calls that bring no rebuild. -/
theorem Cycling.wrap {s : IntervalSet Nat Unit} {n : Nat} (sorts : Sorts Nat IntervalId)
    (h : Cycling n s) (hchurn : s.pending.length + s.removedSinceRebuild = n % 65)
    (hn : n % 65 ≤ 62) (hgen : s.nextGeneration = 0) (range : Interval Nat) :
    ∃ s₁ s₂, s.remove sorts (.new 0 0) = .ok (true, s₁) ∧ s₁.entries.length ≤ 2 ∧
      s₁.insert sorts range () = .ok (.new 0 0, s₂) ∧ s₂.entries.length ≤ 2 ∧
      s₂.tree = s.tree ∧ s₂.entry (.new 0 0) = some ⟨range, (), 0⟩ := by
  have hslots := h.slots.dropped h.held
  have hthreshold := rebuildThreshold_of_le h.len_le
  have hslot : (s.dropped (.new 0 0)).nextSlot = 0 := by
    rw [nextSlot, IntervalSet.dropped, List.getLast?_concat, IntervalId.slot_new (by decide)]
    rfl
  have hid : (s.dropped (.new 0 0)).nextId = .new 0 0 := by
    rw [nextId, hslot]
    exact congrArg _ hgen
  have hlen : (s.dropped (.new 0 0)).entries.length ≤ 2 := List.length_set.trans_le h.length_le
  have hdue₁ : ¬(s.dropped (.new 0 0)).Due := by
    rw [Due]
    simp only [IntervalSet.dropped]
    omega
  have hdue₂ : ¬((s.dropped (.new 0 0)).added range ()).Due := by
    rw [due_added, DueNext]
    simp only [IntervalSet.dropped]
    omega
  refine ⟨s.dropped (.new 0 0), (s.dropped (.new 0 0)).added range (), ?_, hlen, ?_, ?_, rfl, ?_⟩
  · rw [remove_eq h.held, rebuildIfDue_of_not_due hdue₁]
    rfl
  · rw [insert_eq hslots, rebuildIfDue_of_not_due hdue₂, hid]
    rfl
  · rw [hslots.length_added, hslot]
    exact max_le hlen (by decide)
  · rw [hslots.entry_added (by rw [hslot]; decide), if_pos hid.symm]
    exact congrArg (fun g => some (Entry.mk range () g)) hgen

/-- After `2 ^ 32` insertions the interval `[20, 30)` is given the ID that `[0, 10)` had, and a
query of `[0, 10)` yields it. -/
theorem run_wrapped : ∃ log s es, Run (step (.stable Nat IntervalId)) new log s ∧
    log.map Event.call = .insert ⟨0, 10⟩ () :: (List.range (2 ^ 32 - 1)).flatMap turn ++
      [.remove (.new 0 0), .insert ⟨20, 30⟩ ()] ∧
    Always (step (.stable Nat IntervalId)) new (fun _ s => s.entries.length ≤ 2 ^ 32) log ∧
    s.query ⟨0, 10⟩ = .ok es ∧ (.new 0 0, ⟨20, 30⟩, ()) ∈ es ∧
    ¬(⟨20, 30⟩ : Interval Nat).Shares ⟨0, 10⟩ := by
  obtain ⟨log, s, hrun, hcalls, hsmall, hs, hchurn, -, hnext⟩ :=
    exists_run_cycling (.stable Nat IntervalId) (2 ^ 32 - 1)
  obtain ⟨s₁, s₂, hremove, hlen₁, hinsert, hlen₂, htree, hentry⟩ :=
    hs.wrap _ hchurn (by decide) (hnext.trans (by decide)) ⟨20, 30⟩
  have hstep₁ : s.step (.stable Nat IntervalId) (.remove (.new 0 0)) =
      .ok (.removed true, s₁) := by
    rw [step, hremove]
    rfl
  have hstep₂ : s₁.step (.stable Nat IntervalId) (.insert ⟨20, 30⟩ ()) =
      .ok (.id (.new 0 0), s₂) := by
    rw [step, hinsert]
    rfl
  obtain ⟨ids, hperm, hquery⟩ := query_eq (s := s₂) (htree ▸ hs.built) ⟨0, 10⟩
  have hids : .new 0 0 ∈ ids :=
    hperm.mem_iff.mpr (mem_treeHits.mpr ⟨⟨0, 10⟩, htree ▸ hs.lingers (by omega), by decide⟩)
  have hsmall' := (hsmall.snoc hrun hstep₁ hlen₁).snoc (hrun.snoc hstep₁) hstep₂ hlen₂
  refine ⟨_, s₂, _, (hrun.snoc hstep₁).snoc hstep₂, ?_, ?_, hquery, ?_, by decide⟩
  · rw [List.map_append, List.map_append, hcalls, List.append_assoc]
    rfl
  · intro log' s' hpre hrun'
    exact (hsmall' log' s' hpre hrun').trans (by decide)
  · apply mem_resolve.mpr
    refine ⟨List.mem_append_left _ hids, ?_⟩
    rw [hentry]
    rfl

end IntervalSet

end SimdIntervalTree
