import SimdIntervalTree.Mutable.Rebuilds

/-!
# Space

A slot is only appended when none is free. So there are as many slots as there have been intervals
at a time, at most, since the last `clear`, and everything else that a set stores follows suit.
-/

namespace SimdIntervalTree

open Exec CenterTree IntervalTreeBuilder

namespace IntervalSet

variable {T V : Type}

/-- The number of live intervals and the most there have been, after a call that returned. -/
def tally : Nat × Nat → Op T V × Output T V → Nat × Nat
  | (live, peak), (.insert .., .id _) => (live + 1, max peak (live + 1))
  | (live, peak), (.remove _, .removed true) => (live - 1, peak)
  | _, (.clear, _) => (0, 0)
  | counts, _ => counts

/-- The counts of a client. -/
def counts (calls : List (Op T V × Output T V)) : Nat × Nat := calls.foldl tally (0, 0)

variable {s s' : IntervalSet T V} {id : IntervalId} {e : Entry T V} {range : Interval T} {value : V}
  {live peak : Nat}

/-- The slots that are vacant, in order. -/
def vacancies (s : IntervalSet T V) : List Nat :=
  (s.entries.zipIdx.filter fun x => x.1.isNone).map Prod.snd

theorem length_vacancies : s.vacancies.length = s.entries.countP Option.isNone := by
  rw [vacancies, List.length_map, ← List.countP_eq_length_filter]
  conv_rhs => rw [← List.zipIdx_map_fst 0 s.entries, List.countP_map]
  rfl

/-- Every slot is either occupied or free. -/
theorem Slots.length_eq (h : s.Slots) : s.entries.length = s.count + s.freeSlots.length := by
  have hnodup : s.vacancies.Nodup := by
    have hidx : (s.entries.zipIdx.map Prod.snd).Nodup := by
      rw [List.zipIdx_map_snd]
      exact List.nodup_range'
    exact hidx.sublist (List.filter_sublist.map _)
  have hperm : s.freeSlots.Perm s.vacancies := by
    refine (List.perm_ext_iff_of_nodup h.nodup hnodup).mpr fun slot => ?_
    rw [h.free, vacancies, List.mem_map]
    constructor
    · intro hslot
      exact ⟨(none, slot), List.mem_filter.mpr ⟨List.mem_zipIdx_iff_getElem?.mpr hslot, rfl⟩, rfl⟩
    · rintro ⟨⟨occupant, slot⟩, hmem, rfl⟩
      obtain ⟨hmem, hnone⟩ := List.mem_filter.mp hmem
      rw [← Option.isNone_iff_eq_none.mp hnone]
      exact List.mem_zipIdx_iff_getElem?.mp hmem
  rw [hperm.length_eq, length_vacancies, h.count, List.length_eq_countP_add_countP Option.isSome]
  congr 2
  funext occupant
  cases occupant <;> rfl

variable [LinearOrder T] {sorts : Sorts T IntervalId} {c : Nat × Nat}

/-- What is known of a set after calls with the counts `c`. -/
structure Sized (s : IntervalSet T V) (c : Nat × Nat) : Prop where
  slots : s.Slots
  len : s.len = c.1
  slotCount : s.entries.length = c.2
  built : ∃ input t, Built input s.tree t
  tree_le : s.tree.len ≤ s.entries.length

namespace Sized

theorem of_empty (hs : s.Slots) (hentries : s.entries = []) (hcount : s.count = 0)
    (htree : s.tree = .empty) : s.Sized (0, 0) := by
  refine ⟨hs, hcount, congrArg List.length hentries, ?_, ?_⟩
  · rw [htree]
    exact ⟨[], .nil, .empty⟩
  · rw [htree]
    exact Nat.zero_le _

/-- An insertion takes a new slot only if all are occupied. -/
theorem added (h : s.Sized c) :
    (s.added range value).Sized (c.1 + 1, max c.2 (c.1 + 1)) := by
  refine ⟨h.slots.added, congrArg (· + 1) h.len, ?_, h.built, ?_⟩
  · have hlen := h.slots.length_eq
    have hcount : s.count = c.1 := h.len
    rw [h.slots.length_added, ← h.slotCount, ← hcount]
    cases hfree : s.freeSlots.getLast? with
    | none =>
      rw [List.getLast?_eq_none_iff.mp hfree] at hlen
      rw [Slots.nextSlot_of_none hfree, hlen]
      rfl
    | some slot =>
      obtain ⟨hslot, -, hlt⟩ := h.slots.nextSlot_of_free hfree
      have hpos := List.length_pos_of_mem (List.mem_of_getLast? hfree)
      rw [hslot]
      omega
  · rw [h.slots.length_added]
    exact le_max_of_le_left h.tree_le

theorem dropped (h : s.Sized c) (he : s.entry id = some e) :
    (s.dropped id).Sized (c.1 - 1, c.2) :=
  have hlen : (s.dropped id).entries.length = s.entries.length := List.length_set
  ⟨h.slots.dropped he, congrArg (· - 1) h.len, hlen.trans h.slotCount, h.built,
    h.tree_le.trans_eq hlen.symm⟩

theorem rebuildIfDue (h : s.Sized c) (hr : s.rebuildIfDue sorts = .ok s') : s'.Sized c := by
  have hslots := h.slots.rebuildIfDue hr
  obtain ⟨-, rfl⟩ | ⟨-, tree, hbuild, rfl⟩ := rebuildIfDue_cases hr
  · exact h
  · obtain ⟨t, hb⟩ := build_built hbuild
    exact ⟨hslots, h.len, h.slotCount, ⟨_, t, hb⟩, hb.len_le.trans length_occupied_le⟩

theorem step {call : Op T V} {result : Output T V} (h : s.Sized c)
    (hs : s.step sorts call = .ok (result, s')) : s'.Sized (tally c (call, result)) := by
  cases step_change hs with
  | insert hinsert =>
    obtain ⟨-, hrebuild⟩ := insert_ok h.slots hinsert
    exact h.added.rebuildIfDue hrebuild
  | remove he hrebuild => exact (h.dropped he).rebuildIfDue hrebuild
  | removeNone => exact h
  | clear => exact .of_empty slots_clear rfl rfl rfl
  | read hreads =>
    cases call with
    | insert | remove | clear => exact hreads.elim
    | get | getInterval | iter | len | query => exact h

theorem nodes_le (h : s.Sized c) : s.tree.nodes.length ≤ s.tree.len := by
  obtain ⟨input, t, hb⟩ := h.built
  rw [hb.len_eq, hb.stores.nodes, length_flatNodes]
  exact numNodes_le_length_items hb.centered

end Sized

theorem run_sized {log : List (Event (IntervalSet T V) (Op T V) (Output T V))}
    (h : Run (IntervalSet.step sorts) new log s) : s.Sized (counts (log.map Event.io)) := by
  induction h with
  | nil => exact .of_empty slots_new rfl rfl rfl
  | snoc _ hstep ih =>
    rw [List.map_append, counts, List.foldl_append]
    exact ih.step hstep

/-- **A set does not leak.** In every run, whatever it removes and inserts again, it has as many
slots as there have been live intervals at a time since the last `clear`. Its tree is no larger, and
the list of insertions is short. -/
theorem run_space {log : List (Event (IntervalSet T V) (Op T V) (Output T V))}
    (h : Run (IntervalSet.step sorts) new log s)
    (hcounts : counts (log.map Event.io) = (live, peak)) :
    s.len = live ∧ s.entries.length = peak ∧ s.freeSlots.length = peak - live ∧
      s.tree.nodes.length ≤ s.tree.len ∧ s.tree.len ≤ peak ∧
      s.pending.length + s.removedSinceRebuild ≤ max 64 (Nat.sqrt peak) := by
  have hsized := run_sized h
  rw [hcounts] at hsized
  have hlen := hsized.slots.length_eq
  have hdue := (run_not_due h).2
  have htree : s.tree.len ≤ peak := hsized.tree_le.trans_eq hsized.slotCount
  refine ⟨hsized.len, hsized.slotCount, ?_, hsized.nodes_le, htree, ?_⟩
  · rw [hsized.slotCount] at hlen
    have hcount : s.count = live := hsized.len
    omega
  · have := Nat.sqrt_le_sqrt htree
    rw [Due, rebuildThreshold] at hdue
    omega

/-- Two intervals at a time, in two slots. -/
theorem run_space_reuse : ∃ log s, Run (IntervalSet.step (.stable Nat IntervalId)) new log s ∧
    log.map Event.call =
      [.insert ⟨0, 10⟩ 'a', .insert ⟨5, 8⟩ 'b', .remove ⟨0⟩, .insert ⟨7, 9⟩ 'c',
        .remove ⟨2 ^ 32 + 1⟩] ∧
    s.len = 1 ∧ s.entries.length = 2 ∧ s.freeSlots.length = 2 - 1 ∧
      s.tree.nodes.length ≤ s.tree.len ∧ s.tree.len ≤ 2 ∧
      s.pending.length + s.removedSinceRebuild ≤ max 64 (Nat.sqrt 2) :=
  have h := ((((Run.nil.snoc rfl).snoc rfl).snoc rfl).snoc rfl).snoc rfl
  ⟨_, _, h, rfl, run_space h rfl⟩

end IntervalSet

end SimdIntervalTree
