import SimdIntervalTree.Mutable.Ids

/-!
# Slots

`Slots` is what every operation keeps of `entries`, `free_slots` and `count`, whatever has become of
the tree. An insertion or a removal changes one slot and then asks for a rebuild; `added` and
`dropped` are the states in which it asks.
-/

namespace SimdIntervalTree

open Exec

namespace IntervalSet

variable {T V : Type} {s : IntervalSet T V} {id id' : IntervalId} {e : Entry T V}
  {range : Interval T} {value : V} {i : Nat}

/-- The slot that the next insertion uses. -/
def nextSlot (s : IntervalSet T V) : Nat := s.freeSlots.getLast?.getD s.entries.length

/-- The ID that the next insertion returns. -/
def nextId (s : IntervalSet T V) : IntervalId := .new s.nextSlot s.nextGeneration

def added (s : IntervalSet T V) (range : Interval T) (value : V) : IntervalSet T V :=
  let entry : Option (Entry T V) := some ⟨range, value, s.nextGeneration⟩
  { s with
    entries := match s.freeSlots.getLast? with
      | some slot => s.entries.set slot entry
      | none => s.entries ++ [entry]
    freeSlots := s.freeSlots.dropLast
    nextGeneration := s.nextGeneration + 1
    count := s.count + 1
    pending := s.pending ++ [s.nextId] }

def dropped (s : IntervalSet T V) (id : IntervalId) : IntervalSet T V :=
  { s with
    entries := s.entries.set id.slot none
    freeSlots := s.freeSlots ++ [id.slot]
    count := s.count - 1
    removedSinceRebuild := s.removedSinceRebuild + 1 }

structure Slots (s : IntervalSet T V) : Prop where
  free : ∀ slot, slot ∈ s.freeSlots ↔ s.entries[slot]? = some none
  nodup : s.freeSlots.Nodup
  count : s.count = s.entries.countP Option.isSome

theorem slots_new : (new : IntervalSet T V).Slots :=
  ⟨fun _ => iff_of_false nofun nofun, .nil, rfl⟩

theorem slots_clear : s.clear.Slots := ⟨fun _ => iff_of_false nofun nofun, .nil, rfl⟩

/-! ## Entries -/

/-- An ID resolves to the occupant of its slot, if that has its generation. -/
theorem entry_eq_some :
    s.entry id = some e ↔ s.entries[id.slot]? = some (some e) ∧ e.generation = id.generation := by
  rw [entry]
  cases s.entries[id.slot]? with
  | none => exact iff_of_false nofun nofun
  | some occupant =>
    apply Option.filter_eq_some_iff.trans
    rw [beq_iff_eq, Option.some_inj]

theorem entry_new (hi : i < SLOT_LIMIT) (h : s.entries[i]? = some (some e)) :
    s.entry (.new i e.generation) = some e := by
  rw [entry_eq_some, IntervalId.slot_new hi, IntervalId.generation_new hi]
  exact ⟨h, rfl⟩

/-! ## The slot of an insertion -/

namespace Slots

theorem nextSlot_of_free (h : s.Slots) {slot : Nat} (hs : s.freeSlots.getLast? = some slot) :
    s.nextSlot = slot ∧ s.entries[slot]? = some none ∧ slot < s.entries.length := by
  have hmem := (h.free slot).mp (List.mem_of_getLast? hs)
  exact ⟨by rw [nextSlot, hs]; rfl, hmem, (List.getElem?_eq_some_iff.mp hmem).1⟩

theorem nextSlot_of_none (hs : s.freeSlots.getLast? = none) : s.nextSlot = s.entries.length := by
  rw [nextSlot, hs]
  rfl

/-- The slot is vacant or does not exist yet. -/
theorem vacant (h : s.Slots) : s.entries[s.nextSlot]? ≠ some (some e) := by
  cases hs : s.freeSlots.getLast? with
  | none =>
    rw [nextSlot_of_none hs, List.getElem?_eq_none le_rfl]
    nofun
  | some slot =>
    obtain ⟨hslot, hnone, -⟩ := h.nextSlot_of_free hs
    rw [hslot, hnone]
    nofun

theorem nextSlot_le (h : s.Slots) : s.nextSlot ≤ s.entries.length := by
  cases hs : s.freeSlots.getLast? with
  | none => exact (nextSlot_of_none hs).le
  | some slot =>
    obtain ⟨hslot, -, hlt⟩ := h.nextSlot_of_free hs
    rw [hslot]
    exact hlt.le

theorem getElem?_added (h : s.Slots) : (s.added range value).entries[i]? =
    if i = s.nextSlot then some (some ⟨range, value, s.nextGeneration⟩) else s.entries[i]? := by
  rw [added]
  cases hs : s.freeSlots.getLast? with
  | none =>
    rw [nextSlot_of_none hs]
    dsimp only
    split
    · subst i
      exact List.getElem?_concat_length
    · rcases Nat.lt_or_ge i s.entries.length with hi | hi
      · exact List.getElem?_append_left hi
      · rw [List.getElem?_eq_none hi]
        exact List.getElem?_eq_none (by rw [List.length_append, List.length_singleton]; omega)
  | some slot =>
    obtain ⟨hslot, -, hlt⟩ := h.nextSlot_of_free hs
    rw [hslot]
    dsimp only
    split
    · subst i
      exact List.getElem?_set_self hlt
    · exact List.getElem?_set_ne (Ne.symm ‹_›)

theorem length_added (h : s.Slots) :
    (s.added range value).entries.length = max s.entries.length (s.nextSlot + 1) := by
  rw [added]
  cases hs : s.freeSlots.getLast? with
  | none =>
    rw [nextSlot_of_none hs]
    simp
  | some slot =>
    obtain ⟨hslot, -, hlt⟩ := h.nextSlot_of_free hs
    simp only [List.length_set, hslot]
    omega

theorem added (h : s.Slots) : (s.added range value).Slots where
  free slot := by
    rw [h.getElem?_added]
    cases hs : s.freeSlots.getLast? with
    | none =>
      have hfree : s.freeSlots = [] := List.getLast?_eq_none_iff.mp hs
      have hnot : s.entries[slot]? ≠ some none := by
        apply mt (h.free slot).mpr
        rw [hfree]
        nofun
      apply iff_of_false (by simp [IntervalSet.added, hfree])
      split
      · nofun
      · exact hnot
    | some last =>
      obtain ⟨hslot, -, -⟩ := h.nextSlot_of_free hs
      obtain ⟨init, hinit⟩ := List.getLast?_eq_some_iff.mp hs
      have hnodup := h.nodup
      have hfree := h.free slot
      rw [hinit, List.nodup_append] at hnodup
      rw [hinit, List.mem_append, List.mem_singleton] at hfree
      have hdrop : (s.added range value).freeSlots = init := by
        simp [IntervalSet.added, hinit]
      rw [hdrop, hslot]
      split
      · subst slot
        refine iff_of_false (fun hmem => hnodup.2.2 last hmem last (by simp) rfl) nofun
      · rw [← hfree]
        exact ⟨.inl, fun hor => hor.resolve_right ‹_›⟩
  nodup := h.nodup.sublist (List.dropLast_sublist _)
  count := by
    rw [IntervalSet.added]
    cases hs : s.freeSlots.getLast? with
    | none => simp [h.count]
    | some slot =>
      obtain ⟨-, hnone, hlt⟩ := h.nextSlot_of_free hs
      have hget : s.entries[slot] = none := by
        rw [List.getElem?_eq_getElem hlt] at hnone
        exact Option.some_inj.mp hnone
      rw [List.countP_set hlt, hget, h.count]
      rfl

/-- An insertion makes its ID resolve to the new entry and no other ID to anything else. -/
theorem entry_added (h : s.Slots) (hlt : s.nextSlot < SLOT_LIMIT) : (s.added range value).entry id =
    if id = s.nextId then some ⟨range, value, s.nextGeneration⟩ else s.entry id := by
  apply Option.ext
  intro e
  rw [entry_eq_some, h.getElem?_added]
  by_cases hslot : id.slot = s.nextSlot
  · have hnone : s.entry id ≠ some e := by
      rw [Ne, entry_eq_some, hslot]
      exact fun he => h.vacant he.1
    rw [if_pos hslot]
    split
    · subst id
      rw [nextId, IntervalId.generation_new hlt]
      constructor
      · rintro ⟨⟨⟩, -⟩
        rfl
      · rintro ⟨⟩
        exact ⟨rfl, rfl⟩
    · refine iff_of_false (fun ⟨he, hgen⟩ => ?_) hnone
      cases he
      have : id = s.nextId := by
        rw [← IntervalId.new_slot_generation id, hslot, ← hgen]
        rfl
      exact absurd this ‹_›
  · have hne : id ≠ s.nextId := by
      rintro rfl
      exact hslot (IntervalId.slot_new hlt)
    rw [if_neg hslot, if_neg hne, entry_eq_some]

theorem entry_nextId (h : s.Slots) (hlt : s.nextSlot < SLOT_LIMIT) : s.entry s.nextId = none := by
  apply Option.eq_none_iff_forall_not_mem.mpr
  intro e he
  rw [Option.mem_def, entry_eq_some, nextId, IntervalId.slot_new hlt] at he
  exact h.vacant he.1

/-! ## Removals -/

theorem getElem?_dropped (hid : s.entry id = some e) : (s.dropped id).entries[i]? =
    if i = id.slot then some none else s.entries[i]? := by
  have hlt := (List.getElem?_eq_some_iff.mp (entry_eq_some.mp hid).1).1
  rw [dropped]
  split
  · subst i
    exact List.getElem?_set_self hlt
  · exact List.getElem?_set_ne (Ne.symm ‹_›)

theorem dropped (h : s.Slots) (hid : s.entry id = some e) : (s.dropped id).Slots where
  free slot := by
    rw [getElem?_dropped hid, IntervalSet.dropped, List.mem_append, List.mem_singleton, h.free]
    split
    · exact iff_of_true (.inr ‹_›) rfl
    · exact ⟨fun hor => hor.resolve_right ‹_›, .inl⟩
  nodup := by
    refine List.nodup_append.mpr ⟨h.nodup, List.nodup_singleton _, ?_⟩
    rintro slot hslot _ hmem rfl
    rw [List.mem_singleton.mp hmem, h.free, (entry_eq_some.mp hid).1] at hslot
    cases hslot
  count := by
    obtain ⟨hlt, hget⟩ := List.getElem?_eq_some_iff.mp (entry_eq_some.mp hid).1
    rw [IntervalSet.dropped]
    simp only [List.countP_set hlt, hget, h.count]
    rfl

theorem entry_dropped (hid : s.entry id = some e) :
    (s.dropped id).entry id' = if id' = id then none else s.entry id' := by
  apply Option.ext
  intro e'
  rw [entry_eq_some, getElem?_dropped hid]
  obtain ⟨hget, hgen⟩ := entry_eq_some.mp hid
  by_cases hslot : id'.slot = id.slot
  · rw [if_pos hslot]
    refine iff_of_false nofun fun he => ?_
    split at he
    · cases he
    · obtain ⟨hget', hgen'⟩ := entry_eq_some.mp he
      rw [hslot, hget] at hget'
      cases hget'
      exact ‹id' ≠ id› (IntervalId.ext' hslot (hgen'.symm.trans hgen))
  · have hne : id' ≠ id := by
      rintro rfl
      exact hslot rfl
    rw [if_neg hslot, if_neg hne, entry_eq_some]

end Slots

/-! ## The occupants -/

/-- The entries that are live, in slot order, each with its ID. -/
def lives (s : IntervalSet T V) : List (IntervalId × Entry T V) :=
  s.entries.zipIdx.filterMap fun (entry, slot) =>
    entry.map fun e => (IntervalId.new slot e.generation, e)

theorem iter_eq : s.iter = s.lives.map fun x => (x.1, x.2.interval, x.2.value) := by
  rw [iter, lives, List.map_filterMap]
  apply List.filterMap_congr
  intro x _
  rw [Option.map_map]
  rfl

theorem occupied_eq : s.occupied = s.lives.map fun x => (x.2.interval, x.1) := by
  rw [occupied, lives, List.map_filterMap]
  apply List.filterMap_congr
  intro x _
  rw [Option.map_map]
  rfl

theorem mem_lives_iff {x : IntervalId × Entry T V} : x ∈ s.lives ↔
    ∃ slot, s.entries[slot]? = some (some x.2) ∧ x.1 = .new slot x.2.generation := by
  rw [lives, List.mem_filterMap]
  constructor
  · rintro ⟨⟨occupant, slot⟩, hmem, hx⟩
    obtain ⟨e, rfl, rfl⟩ := Option.map_eq_some_iff.mp hx
    exact ⟨slot, List.mem_zipIdx_iff_getElem?.mp hmem, rfl⟩
  · rintro ⟨slot, hget, hid⟩
    refine ⟨(some x.2, slot), List.mem_zipIdx_iff_getElem?.mpr hget, ?_⟩
    exact congrArg some (Prod.ext hid.symm rfl)

/-- With few enough slots the live entries are those that their ID resolves to. -/
theorem mem_lives (hlen : s.entries.length ≤ SLOT_LIMIT) {x : IntervalId × Entry T V} :
    x ∈ s.lives ↔ s.entry x.1 = some x.2 := by
  rw [mem_lives_iff]
  constructor
  · rintro ⟨slot, hget, hid⟩
    rw [hid]
    exact entry_new ((List.getElem?_eq_some_iff.mp hget).1.trans_le hlen) hget
  · intro h
    obtain ⟨hget, hgen⟩ := entry_eq_some.mp h
    refine ⟨x.1.slot, hget, ?_⟩
    rw [hgen, IntervalId.new_slot_generation]

theorem nodup_lives (hlen : s.entries.length ≤ SLOT_LIMIT) : (s.lives.map Prod.fst).Nodup := by
  rw [lives, List.map_filterMap]
  have hidx : (s.entries.zipIdx.map Prod.snd).Nodup := by
    rw [List.zipIdx_map_snd]
    exact List.nodup_range'
  rw [List.Nodup, List.pairwise_filterMap]
  apply (List.pairwise_map.mp hidx).imp_of_mem
  rintro ⟨a, i⟩ ⟨b, j⟩ ha hb hne x hx y hy rfl
  simp only [Option.map_map, Option.map_eq_some_iff] at hx hy
  obtain ⟨e, rfl, rfl⟩ := hx
  obtain ⟨e', rfl, hid⟩ := hy
  have hi := (List.getElem?_eq_some_iff.mp (List.mem_zipIdx_iff_getElem?.mp ha)).1
  have hj := (List.getElem?_eq_some_iff.mp (List.mem_zipIdx_iff_getElem?.mp hb)).1
  exact hne ((IntervalId.new_inj (hj.trans_le hlen) (hi.trans_le hlen)).mp hid).1.symm

theorem length_lives : s.lives.length = s.entries.countP Option.isSome := by
  rw [lives, List.length_filterMap_eq_countP]
  conv_rhs => rw [← List.zipIdx_map_fst 0 s.entries, List.countP_map]
  apply List.countP_congr
  intro x _
  rw [Function.comp_apply, Option.isSome_map]

/-! ## Pending insertions -/

/-- The pending IDs have the latest generations, one after the other. -/
def Recent (s : IntervalSet T V) : Prop :=
  ∃ first : UInt32, s.nextGeneration = first + UInt32.ofNat s.pending.length ∧
    s.pending.map IntervalId.generation =
      (List.range s.pending.length).map fun i => first + UInt32.ofNat i

theorem add_ofNat_inj {first : UInt32} {i j : Nat} (hi : i < 2 ^ 32) (hj : j < 2 ^ 32)
    (h : first + UInt32.ofNat i = first + UInt32.ofNat j) : i = j := by
  have h' := congrArg UInt32.toNat (add_left_cancel h)
  rwa [UInt32.toNat_ofNat_of_lt' hi, UInt32.toNat_ofNat_of_lt' hj] at h'

namespace Recent

theorem nodup (h : s.Recent) (hlen : s.pending.length < 2 ^ 32) : s.pending.Nodup := by
  obtain ⟨first, -, hmap⟩ := h
  apply List.Nodup.of_map IntervalId.generation
  rw [hmap]
  apply List.nodup_range.map_on
  intro i hi j hj hij
  exact add_ofNat_inj ((List.mem_range.mp hi).trans hlen) ((List.mem_range.mp hj).trans hlen) hij

theorem added (h : s.Recent) (hlt : s.nextSlot < SLOT_LIMIT) : (s.added range value).Recent := by
  obtain ⟨first, hnext, hmap⟩ := h
  refine ⟨first, ?_, ?_⟩
  · simp only [IntervalSet.added, List.length_append, List.length_singleton, UInt32.ofNat_add]
    rw [hnext, add_assoc]
    rfl
  · simp only [IntervalSet.added, List.length_append, List.length_singleton, List.map_append,
      List.map_singleton, List.range_succ]
    rw [hmap, nextId, IntervalId.generation_new hlt, hnext]

theorem of_pending_nil (h : s.pending = []) : s.Recent :=
  ⟨s.nextGeneration, by rw [h]; exact (add_zero _).symm, by rw [h]; rfl⟩

end Recent

/-! ## Resolving IDs -/

/-- What a query yields for the IDs it has found. -/
def resolve (s : IntervalSet T V) (ids : List IntervalId) : List (IntervalId × Interval T × V) :=
  ids.filterMap fun id => (s.entry id).map fun e => (id, e.interval, e.value)

theorem mem_resolve {ids : List IntervalId} {x : IntervalId × Interval T × V} :
    x ∈ s.resolve ids ↔
      x.1 ∈ ids ∧ (s.entry x.1).map (fun e => (e.interval, e.value)) = some x.2 := by
  rw [resolve, List.mem_filterMap]
  constructor
  · rintro ⟨id, hid, hx⟩
    obtain ⟨e, he, rfl⟩ := Option.map_eq_some_iff.mp hx
    exact ⟨hid, by rw [he]; rfl⟩
  · rintro ⟨hid, hx⟩
    obtain ⟨e, he, hx⟩ := Option.map_eq_some_iff.mp hx
    exact ⟨x.1, hid, by rw [he, ← Prod.eta x, ← hx]; rfl⟩

theorem resolve_map_fst (ids : List IntervalId) :
    (s.resolve ids).map Prod.fst = ids.filter fun id => (s.entry id).isSome := by
  induction ids with
  | nil => rfl
  | cons id ids ih =>
    cases he : s.entry id with
    | none => simpa [resolve, he] using ih
    | some e => simpa [resolve, he] using ih

end IntervalSet

end SimdIntervalTree
