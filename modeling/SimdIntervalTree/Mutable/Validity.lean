import SimdIntervalTree.Lib.Run
import SimdIntervalTree.Mutable.Index

/-!
# Validity of live IDs

The `ledger` of a client lists what it has inserted and neither removed nor cleared. IDs pack their
slot without a mask and nothing bounds the slots between two rebuilds, so the IDs in the ledger are
good exactly as long as every insertion finds a slot below `2 ^ 32`.
-/

namespace SimdIntervalTree

open Exec IntervalTreeBuilder

namespace IntervalSet

variable {T V : Type}

/-- The ledger after a call that returned. -/
def note (ledger : List (IntervalId × Interval T × V)) :
    Op T V × Output T V → List (IntervalId × Interval T × V)
  | (.insert range value, .id id) => ledger ++ [(id, range, value)]
  | (.remove id, .removed true) => ledger.filter fun x => x.1 ≠ id
  | (.clear, _) => []
  | _ => ledger

def ledger (calls : List (Op T V × Output T V)) : List (IntervalId × Interval T × V) :=
  calls.foldl note []

/-- The IDs in the ledger differ from each other and resolve to what was inserted. -/
def Valid (s : IntervalSet T V) (ledger : List (IntervalId × Interval T × V)) : Prop :=
  (ledger.map Prod.fst).Nodup ∧
    ∀ x ∈ ledger, s.get x.1 = some x.2.2 ∧ s.getInterval x.1 = some x.2.1

/-- An insertion finds a slot that fits into an ID. -/
def HasSlot (s : IntervalSet T V) : Prop := s.freeSlots ≠ [] ∨ s.entries.length < SLOT_LIMIT

/-- The ledger is the set of live entries. -/
structure Tracks (s : IntervalSet T V) (ledger : List (IntervalId × Interval T × V)) : Prop where
  slots : s.Slots
  length_le : s.entries.length ≤ SLOT_LIMIT
  nodup : (ledger.map Prod.fst).Nodup
  mem : ∀ x, x ∈ ledger ↔ (s.entry x.1).map (fun e => (e.interval, e.value)) = some x.2

variable {s s' : IntervalSet T V} {l : List (IntervalId × Interval T × V)} {id : IntervalId}
  {e : Entry T V} {range : Interval T} {value : V}

theorem tracks_new : (new : IntervalSet T V).Tracks [] :=
  ⟨slots_new, Nat.zero_le _, .nil, fun _ => iff_of_false nofun nofun⟩

theorem tracks_clear : s.clear.Tracks [] :=
  ⟨slots_clear, Nat.zero_le _, .nil, fun _ => iff_of_false nofun nofun⟩

theorem Slots.nextSlot_lt (h : s.Slots) (hlen : s.entries.length ≤ SLOT_LIMIT) (hs : s.HasSlot) :
    s.nextSlot < SLOT_LIMIT := by
  cases hfree : s.freeSlots.getLast? with
  | none =>
    have hnil : s.freeSlots = [] := List.getLast?_eq_none_iff.mp hfree
    rw [Slots.nextSlot_of_none hfree]
    exact hs.resolve_left (absurd hnil)
  | some slot =>
    obtain ⟨hslot, -, hlt⟩ := h.nextSlot_of_free hfree
    rw [hslot]
    exact hlt.trans_le hlen

namespace Tracks

theorem valid (h : s.Tracks l) : s.Valid l := by
  refine ⟨h.nodup, fun x hx => ?_⟩
  obtain ⟨e, he, hxe⟩ := Option.map_eq_some_iff.mp ((h.mem x).mp hx)
  rw [get, getInterval, he, ← hxe]
  exact ⟨rfl, rfl⟩

theorem added (h : s.Tracks l) (hs : s.HasSlot) :
    (s.added range value).Tracks (l ++ [(s.nextId, range, value)]) := by
  have hlt := h.slots.nextSlot_lt h.length_le hs
  have hfresh : s.nextId ∉ l.map Prod.fst := by
    rw [List.mem_map]
    rintro ⟨x, hx, hid⟩
    rw [h.mem, hid, h.slots.entry_nextId hlt] at hx
    cases hx
  refine ⟨h.slots.added, ?_, ?_, fun x => ?_⟩
  · rw [h.slots.length_added]
    exact max_le h.length_le hlt
  · rw [List.map_append, List.map_singleton]
    refine List.nodup_append.mpr ⟨h.nodup, List.nodup_singleton _, ?_⟩
    rintro id hid _ hmem rfl
    rw [List.mem_singleton.mp hmem] at hid
    exact hfresh hid
  · rw [List.mem_append, List.mem_singleton, h.slots.entry_added hlt, h.mem]
    split
    · rename_i hid
      rw [hid, h.slots.entry_nextId hlt]
      constructor
      · rintro (hx | hx)
        · cases hx
        · rw [hx]
          rfl
      · exact fun hx => .inr (Prod.ext hid (Option.some_inj.mp hx).symm)
    · rename_i hid
      apply or_iff_left
      rintro rfl
      exact hid rfl

theorem dropped (h : s.Tracks l) (hid : s.entry id = some e) :
    (s.dropped id).Tracks (l.filter fun x => x.1 ≠ id) := by
  refine ⟨h.slots.dropped hid, List.length_set.trans_le h.length_le, ?_, fun x => ?_⟩
  · exact h.nodup.sublist (List.filter_sublist.map _)
  · rw [List.mem_filter, decide_eq_true_eq, h.mem, Slots.entry_dropped hid]
    split
    · exact iff_of_false (fun hx => hx.2 ‹_›) nofun
    · exact and_iff_left ‹_›

/-- Without a slot that fits, the new ID is that of an older entry or does not resolve. -/
theorem not_valid (h : s.Tracks l) (hs : ¬s.HasSlot)
    (hentries : s'.entries = (s.added range value).entries) :
    ¬s'.Valid (l ++ [(s.nextId, range, value)]) := by
  rintro ⟨hnodup, hget⟩
  obtain ⟨hfree, hlen⟩ := not_or.mp hs
  have hnil : s.freeSlots.getLast? = none := List.getLast?_eq_none_iff.mpr (not_not.mp hfree)
  obtain ⟨hvalue, -⟩ := hget (s.nextId, range, value) (by simp)
  obtain ⟨e, he, -⟩ := Option.map_eq_some_iff.mp hvalue
  -- the slot that the ID names is an old one
  have hne : s.nextId.slot ≠ s.nextSlot := by
    have := s.nextId.slot_lt
    rw [Slots.nextSlot_of_none hnil]
    omega
  have hold : s.entry s.nextId = some e := by
    rw [entry_eq_some] at he ⊢
    rwa [hentries, h.slots.getElem?_added, if_neg hne] at he
  have hmem : (s.nextId, e.interval, e.value) ∈ l := (h.mem _).mpr (by rw [hold]; rfl)
  rw [List.map_append, List.nodup_append] at hnodup
  exact hnodup.2.2 _ (List.mem_map_of_mem hmem) s.nextId (by simp) rfl

end Tracks

/-! ## Runs -/

theorem ledger_append (calls : List (Op T V × Output T V)) (call : Op T V × Output T V) :
    ledger (calls ++ [call]) = note (ledger calls) call :=
  List.foldl_concat ..

theorem note_reads {call : Op T V} {result : Output T V} (h : call.Reads) :
    note l (call, result) = l := by
  cases call with
  | insert | remove | clear => exact h.elim
  | _ => rfl

variable [LinearOrder T] {sorts : Sorts T IntervalId}

theorem Tracks.rebuildIfDue (h : s.Tracks l) (hs : s.rebuildIfDue sorts = .ok s') :
    s'.Tracks l where
  slots := h.slots.rebuildIfDue hs
  length_le := (rebuildIfDue_frame hs).1 ▸ h.length_le
  nodup := h.nodup
  mem x := by
    rw [entry_rebuildIfDue hs]
    exact h.mem x

theorem Tracks.step {call : Op T V} {result : Output T V} (h : s.Tracks l)
    (hs : s.step sorts call = .ok (result, s'))
    (hslot : ∀ range value, call = .insert range value → s.HasSlot) :
    s'.Tracks (note l (call, result)) := by
  cases step_change hs with
  | insert hinsert =>
    obtain ⟨rfl, hrebuild⟩ := insert_ok h.slots hinsert
    exact (h.added (hslot _ _ rfl)).rebuildIfDue hrebuild
  | remove he hrebuild => exact (h.dropped he).rebuildIfDue hrebuild
  | removeNone => exact h
  | clear => exact tracks_clear
  | read hreads =>
    rw [note_reads hreads]
    exact h

/-- **Live IDs are valid** throughout a run just if every insertion finds a free slot or fewer than
`2 ^ 32` entries. -/
theorem run_valid_iff {log : List (Event (IntervalSet T V) (Op T V) (Output T V))}
    (h : Run (step sorts) new log s) :
    Always (step sorts) new (fun log s => s.Valid (ledger (log.map Event.io))) log ↔
      ∀ e ∈ log, ∀ range value, e.call = .insert range value →
        e.before.freeSlots ≠ [] ∨ e.before.entries.length < 2 ^ 32 := by
  have hA : Always (step sorts) new (fun _ _ => True) log := fun _ _ _ _ => trivial
  refine Run.always_iff (I := fun log s => s.Tracks (ledger (log.map Event.io)))
    (C := fun e => ∀ range value, e.call = .insert range value → e.before.HasSlot)
    tracks_new (fun _ _ => Tracks.valid) ?_ ?_ h hA
  · intro log s call result s' hI _ hs hC
    rw [List.map_append, List.map_singleton, ledger_append]
    exact hI.step hs hC
  · intro log s call result s' hI _ hs hC
    rw [List.map_append, List.map_singleton, ledger_append]
    push Not at hC
    obtain ⟨range, value, rfl, hslot⟩ := hC
    cases step_change hs with
    | insert hinsert =>
      obtain ⟨rfl, hrebuild⟩ := insert_ok hI.slots hinsert
      exact hI.not_valid hslot (rebuildIfDue_frame hrebuild).1
    | read hreads => exact hreads.elim

theorem run_valid_iff_reuse :
    let sorts : Sorts Nat IntervalId := .stable Nat IntervalId
    ∃ log s, Run (step sorts) new log s ∧
      log.map Event.call = [.insert ⟨0, 10⟩ 'a', .remove ⟨0⟩, .insert ⟨5, 8⟩ 'b'] ∧
      (Always (step sorts) new (fun log s => s.Valid (ledger (log.map Event.io))) log ↔
        ∀ e ∈ log, ∀ range value, e.call = .insert range value →
          e.before.freeSlots ≠ [] ∨ e.before.entries.length < 2 ^ 32) :=
  have h := (((Run.nil).snoc rfl).snoc rfl).snoc rfl
  ⟨_, _, h, rfl, run_valid_iff h⟩

/-! ## A run without removals -/

/-- A builder keeps no zero-width entry. -/
theorem retained_occupied (hwidth : ∀ e, some e ∈ s.entries → ¬e.interval.Nonempty) :
    retained s.occupied = [] := by
  rw [List.eq_nil_iff_forall_not_mem]
  intro x hx
  obtain ⟨hx, hne⟩ := mem_retained.mp hx
  rw [occupied_eq, List.mem_map] at hx
  obtain ⟨y, hy, rfl⟩ := hx
  obtain ⟨slot, hslot, -⟩ := mem_lives_iff.mp hy
  exact hwidth _ (List.mem_of_getElem? hslot) hne

/-- The set after `k` insertions of a zero-width interval. Its tree is empty, so every 65th
insertion rebuilds it. -/
structure Filled (k : Nat) (s : IntervalSet Nat Unit) : Prop where
  slots : s.Slots
  entries : s.entries = (List.range k).map fun i => some ⟨⟨5, 5⟩, (), UInt32.ofNat i⟩
  freeSlots : s.freeSlots = []
  nextGeneration : s.nextGeneration = UInt32.ofNat k
  tree : s.tree.len = 0
  churn : s.pending.length + s.removedSinceRebuild = k % 65

theorem Filled.asking {s : IntervalSet Nat Unit} {k : Nat} (h : Filled k s) :
    rebuildThreshold (s.added ⟨5, 5⟩ ()).tree.len = 64 ∧
      (s.added ⟨5, 5⟩ ()).pending.length + (s.added ⟨5, 5⟩ ()).removedSinceRebuild =
        k % 65 + 1 := by
  constructor
  · rw [show (s.added ⟨5, 5⟩ ()).tree.len = 0 from h.tree]
    rfl
  · rw [← h.churn]
    simp only [IntervalSet.added, List.length_append, List.length_singleton]
    omega

theorem Filled.count {s : IntervalSet Nat Unit} {k : Nat} (h : Filled k s) : s.count = k := by
  rw [h.slots.count, h.entries]
  simp [Function.comp_def]

theorem Filled.entries_added {s : IntervalSet Nat Unit} {k : Nat} (h : Filled k s) :
    (s.added ⟨5, 5⟩ ()).entries =
      (List.range (k + 1)).map fun i => some ⟨⟨5, 5⟩, (), UInt32.ofNat i⟩ := by
  rw [List.range_succ, List.map_append, ← h.entries, IntervalSet.added, h.freeSlots,
    h.nextGeneration]
  rfl

theorem Filled.retained {s : IntervalSet Nat Unit} {k : Nat} (h : Filled k s) :
    retained (s.added ⟨5, 5⟩ ()).occupied = [] := by
  apply retained_occupied
  intro e he
  rw [h.entries_added, List.mem_map] at he
  obtain ⟨i, -, hi⟩ := he
  rw [← Option.some_inj.mp hi]
  exact lt_irrefl 5

theorem Filled.insert {s : IntervalSet Nat Unit} {k : Nat} (sorts : Sorts Nat IntervalId)
    (h : Filled k s) (hk : k ≤ 2 ^ 32) : ∃ s', s.insert sorts ⟨5, 5⟩ () =
      .ok (.new k (UInt32.ofNat k), s') ∧ Filled (k + 1) s' := by
  have hlen : s.entries.length = k := by rw [h.entries, List.length_map, List.length_range]
  have hslot : s.nextSlot = k := by
    rw [Slots.nextSlot_of_none (by rw [h.freeSlots]; rfl), hlen]
  have hid : s.nextId = .new k (UInt32.ofNat k) := by rw [nextId, hslot, h.nextGeneration]
  have hentries := h.entries_added
  have hlen' : (s.added ⟨5, 5⟩ ()).entries.length = k + 1 := by
    rw [hentries, List.length_map, List.length_range]
  obtain ⟨hthreshold, hchurn⟩ := h.asking
  -- the last rebuild before 2 ^ 32 is 61 insertions earlier, below the limit of the builder
  obtain ⟨s', hs'⟩ := exists_rebuildIfDue (s := s.added ⟨5, 5⟩ ()) sorts fun hd => by
    rw [hlen', SIZE_LIMIT]
    have := (due_iff hthreshold hchurn).mp hd
    omega
  obtain ⟨hentries', hfree, hnext, -⟩ := rebuildIfDue_frame hs'
  have htree : s'.tree.len = 0 := by
    obtain ⟨-, rfl⟩ | ⟨-, tree, hbuild, rfl⟩ := rebuildIfDue_cases hs'
    · exact h.tree
    · obtain ⟨t, hb⟩ := build_built hbuild
      exact hb.wellFormed.len.trans (congrArg List.length h.retained)
  exact ⟨s', by rw [insert_eq h.slots, hs', hid]; rfl, h.slots.added.rebuildIfDue hs',
    hentries'.trans hentries, by rw [hfree, IntervalSet.added, h.freeSlots]; rfl,
    by rw [hnext, IntervalSet.added, h.nextGeneration, UInt32.ofNat_add]; rfl, htree,
    churn_rebuildIfDue hthreshold hchurn hs'⟩

/-- The call `e` is the insertion number `k`, counted from 0. -/
structure Fills (k : Nat) (e : Event (IntervalSet Nat Unit) (Op Nat Unit) (Output Nat Unit)) :
    Prop where
  before : Filled k e.before
  call : e.call = .insert ⟨5, 5⟩ ()
  result : e.result = .id (.new k (UInt32.ofNat k))

/-- Filling goes on from any point. -/
theorem Filled.extend {s : IntervalSet Nat Unit} {k : Nat} {sorts : Sorts Nat IntervalId}
    {log : List (Event (IntervalSet Nat Unit) (Op Nat Unit) (Output Nat Unit))} (hs : Filled k s)
    (h : Run (step sorts) new log s) {n : Nat} (hn : k + n ≤ 2 ^ 32 + 1) :
    ∃ mid s', Run (step sorts) new (log ++ mid) s' ∧ Filled (k + n) s' ∧
      mid.map Event.call = List.replicate n (.insert ⟨5, 5⟩ ()) ∧
      ∀ e ∈ mid, ∃ j, k ≤ j ∧ j < k + n ∧ Fills j e := by
  induction n with
  | zero => exact ⟨[], s, by rwa [List.append_nil], hs, rfl, nofun⟩
  | succ n ih =>
    obtain ⟨mid, s₁, hrun, hs₁, hcalls, hmid⟩ := ih (by omega)
    obtain ⟨s₂, hinsert, hs₂⟩ := hs₁.insert sorts (by omega)
    have hrun' := hrun.snoc (show s₁.step sorts (.insert ⟨5, 5⟩ ()) = .ok (.id _, s₂) by
      rw [step, hinsert]
      rfl)
    rw [List.append_assoc] at hrun'
    refine ⟨_, s₂, hrun', hs₂, ?_, fun e he => ?_⟩
    · rw [List.map_append, hcalls, List.replicate_succ']
      rfl
    · rcases List.mem_append.mp he with he | he
      · obtain ⟨j, hle, hlt, hj⟩ := hmid e he
        exact ⟨j, hle, by omega, hj⟩
      · rw [List.mem_singleton.mp he]
        exact ⟨k + n, by omega, by omega, hs₁, rfl, rfl⟩

theorem exists_run_filled (sorts : Sorts Nat IntervalId) {k : Nat} (hk : k ≤ 2 ^ 32 + 1) :
    ∃ log s, Run (step sorts) new log s ∧
      log.map Event.call = List.replicate k (.insert ⟨5, 5⟩ ()) ∧ Filled k s := by
  have hnew : Filled 0 new := ⟨slots_new, rfl, rfl, rfl, rfl, rfl⟩
  obtain ⟨log, s, hrun, hs, hcalls, -⟩ :=
    hnew.extend (.nil : Run (step sorts) new [] new) (n := k) (by omega)
  rw [Nat.zero_add] at hs
  exact ⟨log, s, hrun, hcalls, hs⟩

/-- With `2 ^ 32 + 1` insertions the last slot does not fit into its ID, which names slot 0 with
the wrong generation. -/
theorem run_overflow : ∃ log s, Run (step (.stable Nat IntervalId)) new log s ∧
    log.map Event.call = List.replicate (2 ^ 32 + 1) (.insert ⟨5, 5⟩ ()) ∧
    (⟨2 ^ 32⟩, ⟨5, 5⟩, ()) ∈ ledger (log.map Event.io) ∧ s.get ⟨2 ^ 32⟩ = none ∧
    s.getInterval ⟨2 ^ 32⟩ = none := by
  obtain ⟨log, s, hrun, hcalls, hs⟩ := exists_run_filled (.stable Nat IntervalId)
    (k := 2 ^ 32) (by omega)
  obtain ⟨s', hinsert, hs'⟩ := hs.insert (.stable Nat IntervalId) le_rfl
  have hid : IntervalId.new (2 ^ 32) (UInt32.ofNat (2 ^ 32)) = ⟨2 ^ 32⟩ := by decide
  rw [hid] at hinsert
  have hnone : s'.entry ⟨2 ^ 32⟩ = none := by
    apply Option.eq_none_iff_forall_not_mem.mpr
    intro e he
    obtain ⟨hget, hgen⟩ := entry_eq_some.mp he
    have hslot : (⟨2 ^ 32⟩ : IntervalId).slot = 0 := by decide
    have hone : (⟨2 ^ 32⟩ : IntervalId).generation = 1 := by decide
    rw [hslot, hs'.entries, List.getElem?_map, List.getElem?_range (by omega)] at hget
    rw [hone, ← Option.some_inj.mp (Option.some_inj.mp hget)] at hgen
    exact absurd hgen (by decide)
  refine ⟨_, s', hrun.snoc (by rw [step, hinsert]; rfl), ?_, ?_, ?_, ?_⟩
  · rw [List.map_append, hcalls, List.replicate_succ']
    rfl
  · rw [List.map_append, List.map_singleton, ledger_append]
    exact List.mem_append_right _ (List.mem_singleton_self _)
  · rw [get, hnone]
    rfl
  · rw [getInterval, hnone]
    rfl

end IntervalSet

end SimdIntervalTree
