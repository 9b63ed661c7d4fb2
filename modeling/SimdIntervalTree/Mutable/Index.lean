import SimdIntervalTree.Builder.WellFormed
import SimdIntervalTree.Mutable.Slots
import SimdIntervalTree.Traversal.Iterator

/-!
# The index

A set answers queries from the tree of the last rebuild and the insertions since. Both may hold IDs
that are dead. `Index` says when they still account for the live entries; `Consistent` adds what is
needed to carry it through insertions, removals and rebuilds.
-/

namespace SimdIntervalTree

open Exec CenterTree IntervalTreeBuilder

variable {T V : Type} [LinearOrder T]

/-! ## The entries of a tree -/

namespace Built

variable {input : List (Interval T × V)} {tree : IntervalTree T V}
  {t : BinaryTree (Run T (Interval T × V))}

theorem empty : Built [] (.empty : IntervalTree T V) .nil where
  stores := ⟨rfl, rfl, rfl, rfl, rfl, rfl, trivial, Nat.zero_lt_succ _⟩
  perm := .nil
  centered := trivial
  sorted := trivial
  halving := trivial

theorem entries_perm (h : Built input tree t) : tree.entries.Perm (retained input) :=
  h.wellFormed.entries

theorem values_eq (h : Built input tree t) : tree.values = tree.entries.map Prod.snd := by
  rw [h.stores.entries_eq, h.stores.values]

theorem nonempty_of_mem (h : Built input tree t) {x : Interval T × V} (hx : x ∈ tree.entries) :
    x.1.Nonempty :=
  (mem_retained.mp (h.entries_perm.mem_iff.mp hx)).2

theorem mem_values (h : Built input tree t) {v : V} :
    v ∈ tree.values ↔ ∃ interval, (interval, v) ∈ tree.entries := by
  rw [h.values_eq, List.mem_map]
  constructor
  · rintro ⟨⟨interval, v⟩, hmem, rfl⟩
    exact ⟨interval, hmem⟩
  · rintro ⟨interval, hmem⟩
    exact ⟨_, hmem, rfl⟩

/-- A query yields the entries of the tree that share a point with it. -/
theorem queryHits_entries (h : Built input tree t) (query : Interval T) :
    (queryHits query t).Perm (tree.entries.filter fun e => decide (e.1.Shares query)) := by
  refine (h.queryHits_perm query).trans (.trans ?_ (h.entries_perm.filter _).symm)
  rw [retained, List.filter_filter]
  refine .of_eq (List.filter_congr fun e _ => ?_)
  rw [Bool.eq_iff_iff, Bool.and_eq_true, decide_eq_true_eq, decide_eq_true_eq]
  exact ⟨fun hsh => ⟨hsh, hsh.nonempty_left⟩, And.left⟩

theorem len_lt (h : Built input tree t) : tree.len < SIZE_LIMIT := by
  rw [IntervalTree.len, h.stores.values, List.length_map]
  exact h.stores.size

theorem len_le (h : Built input tree t) : tree.len ≤ input.length := by
  rw [h.wellFormed.len]
  exact List.length_filter_le _ _

end Built

theorem rebuildThreshold_le {n : Nat} (h : n < SIZE_LIMIT) : rebuildThreshold n ≤ 65535 := by
  have hsqrt : Nat.sqrt n < 65536 := Nat.sqrt_lt.mpr (h.trans (by decide))
  rw [rebuildThreshold]
  omega

namespace IntervalSet

/-- The calls that leave the set alone. -/
def Op.Reads : Op T V → Prop
  | .insert .. | .remove _ | .clear => False
  | .get _ | .getInterval _ | .iter | .len | .query _ => True

/-- What a call can do. -/
inductive Change (sorts : Sorts T IntervalId) (s : IntervalSet T V) :
    Op T V → Output T V → IntervalSet T V → Prop
  | insert {id : IntervalId} : s.insert sorts range value = .ok (id, s') →
    Change sorts s (.insert range value) (.id id) s'
  | remove {id : IntervalId} : s.entry id = some e →
    (s.dropped id).rebuildIfDue sorts = .ok s' → Change sorts s (.remove id) (.removed true) s'
  | removeNone {id : IntervalId} : s.entry id = none →
    Change sorts s (.remove id) (.removed false) s
  | clear : Change sorts s .clear .cleared s.clear
  | read : call.Reads → Change sorts s call result s

variable {s s' : IntervalSet T V} {sorts : Sorts T IntervalId} {id : IntervalId} {e : Entry T V}
  {range : Interval T} {value : V}

/-! ## The operations up to the rebuild -/

/-- The next rebuild is due. -/
def Due (s : IntervalSet T V) : Prop :=
  rebuildThreshold s.tree.len < s.pending.length + s.removedSinceRebuild

instance : Decidable s.Due := inferInstanceAs (Decidable (_ < _))

def rebuilt (s : IntervalSet T V) (tree : IntervalTree T IntervalId) : IntervalSet T V :=
  { s with tree, pending := [], removedSinceRebuild := 0 }

theorem rebuildIfDue_of_not_due (h : ¬s.Due) : s.rebuildIfDue sorts = .ok s :=
  if_pos (not_lt.mp h)

theorem rebuildIfDue_of_due (h : s.Due) : s.rebuildIfDue sorts =
    (do return s.rebuilt (← (IntervalTreeBuilder.mk s.occupied).build sorts)) :=
  if_neg (not_le.mpr h)

theorem rebuildIfDue_cases (h : s.rebuildIfDue sorts = .ok s') : (¬s.Due ∧ s' = s) ∨
    (s.Due ∧ ∃ tree, (IntervalTreeBuilder.mk s.occupied).build sorts = .ok tree ∧
      s' = s.rebuilt tree) := by
  by_cases hdue : s.Due
  · rw [rebuildIfDue_of_due hdue] at h
    obtain ⟨tree, hbuild, h⟩ := bind_eq_ok.mp h
    cases h
    exact .inr ⟨hdue, tree, hbuild, rfl⟩
  · rw [rebuildIfDue_of_not_due hdue] at h
    cases h
    exact .inl ⟨hdue, rfl⟩

omit [LinearOrder T] in
theorem length_occupied_le : s.occupied.length ≤ s.entries.length := by
  rw [occupied_eq, List.length_map, length_lives]
  exact List.countP_le_length

theorem exists_rebuildIfDue (sorts : Sorts T IntervalId)
    (h : s.Due → s.entries.length < SIZE_LIMIT) : ∃ s', s.rebuildIfDue sorts = .ok s' := by
  by_cases hdue : s.Due
  · obtain ⟨tree, -, hbuild, -⟩ := build_ok sorts
      (show (IntervalTreeBuilder.mk s.occupied).intervals.length < SIZE_LIMIT from
        length_occupied_le.trans_lt (h hdue))
    exact ⟨_, by rw [rebuildIfDue_of_due hdue, hbuild]; rfl⟩
  · exact ⟨s, rebuildIfDue_of_not_due hdue⟩

/-- A rebuild leaves the slots and the counters alone. -/
theorem rebuildIfDue_frame (h : s.rebuildIfDue sorts = .ok s') :
    s'.entries = s.entries ∧ s'.freeSlots = s.freeSlots ∧
      s'.nextGeneration = s.nextGeneration ∧ s'.count = s.count := by
  obtain ⟨-, rfl⟩ | ⟨-, tree, -, rfl⟩ := rebuildIfDue_cases h
  · exact ⟨rfl, rfl, rfl, rfl⟩
  · exact ⟨rfl, rfl, rfl, rfl⟩

theorem Slots.rebuildIfDue (hs : s.Slots) (h : s.rebuildIfDue sorts = .ok s') : s'.Slots := by
  obtain ⟨hentries, hfree, -, hcount⟩ := rebuildIfDue_frame h
  refine ⟨?_, hfree ▸ hs.nodup, ?_⟩
  · rw [hfree, hentries]
    exact hs.free
  · rw [hcount, hentries]
    exact hs.count

theorem entry_rebuildIfDue (h : s.rebuildIfDue sorts = .ok s') : s'.entry id = s.entry id := by
  rw [entry, entry, (rebuildIfDue_frame h).1]

omit [LinearOrder T] in
/-- While the tree is small every 65th insertion or removal is due a rebuild. -/
theorem due_iff {n : Nat} (hthreshold : rebuildThreshold s.tree.len = 64)
    (hchurn : s.pending.length + s.removedSinceRebuild = n % 65 + 1) : s.Due ↔ n % 65 = 64 := by
  rw [Due, hthreshold, hchurn]
  omega

theorem churn_rebuildIfDue {n : Nat} (hthreshold : rebuildThreshold s.tree.len = 64)
    (hchurn : s.pending.length + s.removedSinceRebuild = n % 65 + 1)
    (h : s.rebuildIfDue sorts = .ok s') :
    s'.pending.length + s'.removedSinceRebuild = (n + 1) % 65 := by
  have hdue := due_iff hthreshold hchurn
  obtain ⟨hnot, rfl⟩ | ⟨hd, tree, -, rfl⟩ := rebuildIfDue_cases h
  · rw [hdue] at hnot
    omega
  · rw [hdue] at hd
    change 0 + 0 = _
    omega

omit [LinearOrder T] in
/-- The entry goes into the slot that is next, and the counters are left for `insert`. -/
theorem Slots.place_eq (h : s.Slots) :
    ({ s with nextGeneration := s.nextGeneration + 1 } : IntervalSet T V).place
      ⟨range, value, s.nextGeneration⟩ = .ok (s.nextSlot,
        { s.added range value with count := s.count, pending := s.pending }) := by
  rw [place]
  cases hs : s.freeSlots.getLast? with
  | none =>
    have hfree : s.freeSlots = [] := List.getLast?_eq_none_iff.mp hs
    simp only [IntervalSet.added, Slots.nextSlot_of_none hs, hs]
    rw [hfree]
    rfl
  | some slot =>
    obtain ⟨hslot, -, hlt⟩ := h.nextSlot_of_free hs
    simp only [IntervalSet.added, hslot, hs, store, if_pos hlt]
    rfl

theorem insert_eq (h : s.Slots) : s.insert sorts range value =
    (do return (s.nextId, ← (s.added range value).rebuildIfDue sorts)) := by
  rw [insert, h.place_eq]
  rfl

theorem insert_ok (h : s.Slots) (hs : s.insert sorts range value = .ok (id, s')) :
    id = s.nextId ∧ (s.added range value).rebuildIfDue sorts = .ok s' := by
  rw [insert_eq h] at hs
  obtain ⟨s'', hrebuild, hs⟩ := bind_eq_ok.mp hs
  cases hs
  exact ⟨rfl, hrebuild⟩

theorem remove_of_none (h : s.entry id = none) : s.remove sorts id = .ok (false, s) := by
  rw [remove, h]
  rfl

theorem remove_eq (h : s.entry id = some e) : s.remove sorts id =
    (do return (true, ← (s.dropped id).rebuildIfDue sorts)) := by
  have hlt := (List.getElem?_eq_some_iff.mp (entry_eq_some.mp h).1).1
  rw [remove, h]
  simp only [store, if_pos hlt]
  rfl

theorem remove_cases {found : Bool} (hs : s.remove sorts id = .ok (found, s')) :
    (s.entry id = none ∧ found = false ∧ s' = s) ∨
      ∃ e, s.entry id = some e ∧ found = true ∧ (s.dropped id).rebuildIfDue sorts = .ok s' := by
  cases he : s.entry id with
  | none =>
    rw [remove_of_none he] at hs
    cases hs
    exact .inl ⟨rfl, rfl, rfl⟩
  | some e =>
    rw [remove_eq he] at hs
    obtain ⟨s'', hrebuild, hs⟩ := bind_eq_ok.mp hs
    cases hs
    exact .inr ⟨e, rfl, rfl, hrebuild⟩

/-- A fresh tree holds the live entries that contain a point. -/
theorem mem_entries_build {tree : IntervalTree T IntervalId}
    (hlen : s.entries.length ≤ SLOT_LIMIT)
    (hbuild : (IntervalTreeBuilder.mk s.occupied).build sorts = .ok tree)
    {x : Interval T × IntervalId} : x ∈ tree.entries ↔
      x.1.Nonempty ∧ ∃ e, s.entry x.2 = some e ∧ e.interval = x.1 := by
  obtain ⟨t, hb⟩ := build_built hbuild
  rw [hb.entries_perm.mem_iff, mem_retained, occupied_eq, List.mem_map, and_comm]
  refine and_congr_right fun _ => ⟨?_, ?_⟩
  · rintro ⟨⟨id, e⟩, hlive, rfl⟩
    exact ⟨e, (mem_lives hlen).mp hlive, rfl⟩
  · rintro ⟨e, he, hi⟩
    exact ⟨(x.2, e), (mem_lives hlen).mpr he, Prod.ext hi rfl⟩

theorem step_change {call : Op T V} {result : Output T V}
    (h : s.step sorts call = .ok (result, s')) : Change sorts s call result s' := by
  cases call with
  | insert range value =>
    obtain ⟨⟨id, s''⟩, hinsert, h⟩ := bind_eq_ok.mp h
    cases h
    exact .insert hinsert
  | remove id =>
    obtain ⟨⟨found, s''⟩, hremove, h⟩ := bind_eq_ok.mp h
    cases h
    obtain ⟨hnone, rfl, rfl⟩ | ⟨e, he, rfl, hrebuild⟩ := remove_cases hremove
    · exact .removeNone hnone
    · exact .remove he hrebuild
  | clear =>
    cases h
    exact .clear
  | query range =>
    obtain ⟨es, -, h⟩ := bind_eq_ok.mp h
    cases h
    exact .read trivial
  | get | getInterval | iter | len =>
    cases h
    exact .read trivial

/-! ## Invariants -/

/-- The tree and the pending IDs account for the live entries, each ID in one place only. -/
structure Index (s : IntervalSet T V) : Prop where
  built : ∃ input t, Built input s.tree t
  nodup : s.tree.values.Nodup
  agrees : ∀ x ∈ s.tree.entries, ∀ e, s.entry x.2 = some e → e.interval = x.1
  covers : ∀ id e, s.entry id = some e → e.interval.Nonempty →
    id ∈ s.tree.values ∨ id ∈ s.pending
  disjoint : ∀ id ∈ s.tree.values, id ∉ s.pending
  slots : ∀ id ∈ s.tree.values, id.slot < s.entries.length

structure Consistent (s : IntervalSet T V) : Prop where
  slots : s.Slots
  length_le : s.entries.length ≤ SLOT_LIMIT
  index : s.Index
  recent : s.Recent
  notDue : ¬s.Due

namespace Index

theorem length_pending (h : s.Index) (hdue : ¬s.Due) : s.pending.length ≤ 65535 := by
  obtain ⟨input, t, hb⟩ := h.built
  have := rebuildThreshold_le hb.len_lt
  rw [Due] at hdue
  omega

/-- A fresh tree of the live entries is an index. -/
theorem rebuilt {tree : IntervalTree T IntervalId} (hlen : s.entries.length ≤ SLOT_LIMIT)
    (hbuild : (IntervalTreeBuilder.mk s.occupied).build sorts = .ok tree) :
    (s.rebuilt tree).Index := by
  obtain ⟨t, hb⟩ := build_built hbuild
  have hmem {x : Interval T × IntervalId} := mem_entries_build (x := x) hlen hbuild
  refine ⟨⟨_, t, hb⟩, ?_, ?_, ?_, fun _ _ => List.not_mem_nil, ?_⟩
  · have hnodup := nodup_lives hlen
    have hids : s.occupied.map Prod.snd = s.lives.map Prod.fst := by
      rw [occupied_eq, List.map_map]
      rfl
    have hsub : ((retained s.occupied).map Prod.snd).Sublist (s.occupied.map Prod.snd) :=
      List.filter_sublist.map _
    rw [hids] at hsub
    change tree.values.Nodup
    rw [hb.values_eq, (hb.entries_perm.map Prod.snd).nodup_iff]
    exact hnodup.sublist hsub
  · intro x hx e he
    obtain ⟨-, e', he', hi⟩ := hmem.mp hx
    cases he'.symm.trans he
    exact hi
  · intro id e he hne
    exact .inl (hb.mem_values.mpr ⟨_, hmem.mpr ⟨hne, e, he, rfl⟩⟩)
  · intro id hid
    obtain ⟨interval, hx⟩ := hb.mem_values.mp hid
    obtain ⟨-, e, he, -⟩ := hmem.mp hx
    exact (List.getElem?_eq_some_iff.mp (entry_eq_some.mp he).1).1

/-- An ID that the tree does not hold is accounted for by the list of insertions. -/
theorem added (h : s.Index) (hs : s.Slots) (hlt : s.nextSlot < SLOT_LIMIT)
    (hfresh : s.nextId ∉ s.tree.values) : (s.added range value).Index where
  built := h.built
  nodup := h.nodup
  agrees x hx e he := by
    obtain ⟨input, t, hb⟩ := h.built
    rw [hs.entry_added hlt, if_neg] at he
    · exact h.agrees x hx e he
    · rintro heq
      exact hfresh (heq ▸ hb.mem_values.mpr ⟨_, hx⟩)
  covers id e he hne := by
    rw [hs.entry_added hlt] at he
    split at he
    · subst id
      exact .inr (List.mem_append_right _ (List.mem_singleton_self _))
    · exact (h.covers id e he hne).imp_right (List.mem_append_left _)
  disjoint id hid hmem := by
    rcases List.mem_append.mp hmem with hmem | hmem
    · exact h.disjoint id hid hmem
    · rw [List.mem_singleton.mp hmem] at hid
      exact hfresh hid
  slots id hid := by
    rw [hs.length_added]
    exact lt_max_of_lt_left (h.slots id hid)

theorem dropped (h : s.Index) (hid : s.entry id = some e) : (s.dropped id).Index where
  built := h.built
  nodup := h.nodup
  agrees x hx e' he := by
    rw [Slots.entry_dropped hid] at he
    split at he
    · cases he
    · exact h.agrees x hx e' he
  covers id' e' he hne := by
    rw [Slots.entry_dropped hid] at he
    split at he
    · cases he
    · exact h.covers id' e' he hne
  disjoint := h.disjoint
  slots id' hid' := (h.slots id' hid').trans_eq List.length_set.symm

end Index

/-! ## What the operations keep -/

omit [LinearOrder T] in
theorem not_due_of_churn_eq_zero (h : s.pending.length + s.removedSinceRebuild = 0) : ¬s.Due := by
  rw [Due, h]
  exact Nat.not_lt_zero _

theorem consistent_of_empty (hs : s.Slots) (hentries : s.entries = []) (htree : s.tree = .empty)
    (hpending : s.pending = []) (hremoved : s.removedSinceRebuild = 0) : s.Consistent where
  slots := hs
  length_le := hentries ▸ Nat.zero_le _
  index := {
    built := htree ▸ ⟨[], .nil, .empty⟩
    nodup := htree ▸ List.nodup_nil
    agrees := by
      intro x hx
      rw [htree] at hx
      cases hx
    covers := by
      intro id e he
      rw [entry, hentries] at he
      cases he
    disjoint := by
      intro id hid
      rw [htree] at hid
      cases hid
    slots := by
      intro id hid
      rw [htree] at hid
      cases hid }
  recent := .of_pending_nil hpending
  notDue := not_due_of_churn_eq_zero (by rw [hpending, hremoved]; rfl)

theorem consistent_new : (new : IntervalSet T V).Consistent :=
  consistent_of_empty slots_new rfl rfl rfl rfl

theorem consistent_clear : s.clear.Consistent :=
  consistent_of_empty slots_clear rfl rfl rfl rfl

/-- A rebuild repairs the index, so that it need only be right if none is due. -/
theorem consistent_of_rebuildIfDue (hs : s.Slots) (hlen : s.entries.length ≤ SLOT_LIMIT)
    (hi : ¬s.Due → s.Index) (hr : s.Recent) (h : s.rebuildIfDue sorts = .ok s') :
    s'.Consistent := by
  obtain ⟨hdue, rfl⟩ | ⟨hdue, tree, hbuild, rfl⟩ := rebuildIfDue_cases h
  · exact ⟨hs, hlen, hi hdue, hr, hdue⟩
  · exact ⟨hs.rebuildIfDue h, hlen, .rebuilt hlen hbuild, .of_pending_nil rfl,
      not_due_of_churn_eq_zero rfl⟩

namespace Consistent

theorem insert (h : s.Consistent) (hlen : s'.entries.length ≤ SLOT_LIMIT)
    (hfresh : s.nextId ∈ s.tree.values → (s.added range value).Due)
    (hs : s.insert sorts range value = .ok (id, s')) : s'.Consistent := by
  obtain ⟨-, hrebuild⟩ := insert_ok h.slots hs
  rw [(rebuildIfDue_frame hrebuild).1] at hlen
  have hlt : s.nextSlot < SLOT_LIMIT := by
    rw [h.slots.length_added] at hlen
    omega
  exact consistent_of_rebuildIfDue h.slots.added hlen
    (fun hdue => h.index.added h.slots hlt (mt hfresh hdue)) (h.recent.added hlt) hrebuild

theorem remove {found : Bool} (h : s.Consistent) (hs : s.remove sorts id = .ok (found, s')) :
    s'.Consistent := by
  obtain ⟨-, -, rfl⟩ | ⟨e, he, -, hrebuild⟩ := remove_cases hs
  · exact h
  · have hlen : (s.dropped id).entries.length ≤ SLOT_LIMIT := List.length_set.trans_le h.length_le
    exact consistent_of_rebuildIfDue (h.slots.dropped he) hlen
      (fun _ => h.index.dropped he) h.recent hrebuild

end Consistent

/-! ## Queries -/

/-- The IDs that the tree holds under an interval which shares a point with the query. -/
def treeHits (s : IntervalSet T V) (query : Interval T) : List IntervalId :=
  (s.tree.entries.filter fun x => decide (x.1.Shares query)).map Prod.snd

/-- The pending IDs that a query finds. -/
def pendingHits (s : IntervalSet T V) (query : Interval T) : List IntervalId :=
  s.pending.filter fun id => (s.entry id).any fun entry => entry.interval.overlaps query

theorem mem_treeHits {query : Interval T} : id ∈ s.treeHits query ↔
    ∃ interval, (interval, id) ∈ s.tree.entries ∧ interval.Shares query := by
  rw [treeHits, List.mem_map]
  constructor
  · rintro ⟨⟨interval, id⟩, hx, rfl⟩
    obtain ⟨hx, hsh⟩ := List.mem_filter.mp hx
    exact ⟨interval, hx, of_decide_eq_true hsh⟩
  · rintro ⟨interval, hx, hsh⟩
    exact ⟨(interval, id), List.mem_filter.mpr ⟨hx, decide_eq_true hsh⟩, rfl⟩

theorem mem_pendingHits {query : Interval T} : id ∈ s.pendingHits query ↔
    id ∈ s.pending ∧ ∃ e, s.entry id = some e ∧ e.interval.Shares query := by
  rw [pendingHits, List.mem_filter, Option.any_eq_true]
  refine and_congr_right fun _ => exists_congr fun e => and_congr_right fun _ => ?_
  exact Interval.overlaps_iff_shares

theorem query_eq (h : ∃ input t, Built input s.tree t) (query : Interval T) :
    ∃ ids, ids.Perm (s.treeHits query) ∧
      s.query query = .ok (s.resolve (ids ++ s.pendingHits query)) := by
  obtain ⟨input, t, hb⟩ := h
  obtain ⟨it, last, hit, -, hcollect⟩ := QueryIter.query_yields hb query
  refine ⟨_, (hb.queryHits_entries query).map Prod.snd, ?_⟩
  rw [IntervalSet.query, hit, ok_bind, hcollect]
  rfl

/-- No ID is held twice. -/
theorem Consistent.nodup_ids (h : s.Consistent) : (s.tree.values ++ s.pending).Nodup := by
  have hlen := h.index.length_pending h.notDue
  refine List.nodup_append.mpr ⟨h.index.nodup, h.recent.nodup (by omega), ?_⟩
  rintro id hid _ hpend rfl
  exact h.index.disjoint id hid hpend

theorem Index.nodup_hits (h : s.Index) (hnodup : (s.tree.values ++ s.pending).Nodup)
    (query : Interval T) : (s.treeHits query ++ s.pendingHits query).Nodup := by
  obtain ⟨input, t, hb⟩ := h.built
  have htree : (s.treeHits query).Sublist s.tree.values :=
    hb.values_eq ▸ List.filter_sublist.map _
  exact hnodup.sublist (htree.append List.filter_sublist)

/-- A live entry is among the hits if and only if it shares a point with the query. -/
theorem Index.mem_hits (h : s.Index) (he : s.entry id = some e) (query : Interval T) :
    id ∈ s.treeHits query ++ s.pendingHits query ↔ e.interval.Shares query := by
  rw [List.mem_append, mem_treeHits, mem_pendingHits]
  constructor
  · rintro (⟨interval, hmem, hsh⟩ | ⟨-, e', he', hsh⟩)
    · have hi : e.interval = interval := h.agrees _ hmem e he
      rw [hi]
      exact hsh
    · cases he.symm.trans he'
      exact hsh
  · intro hsh
    rcases h.covers id e he hsh.nonempty_left with hval | hpend
    · obtain ⟨input, t, hb⟩ := h.built
      obtain ⟨interval, hmem⟩ := hb.mem_values.mp hval
      have hi : e.interval = interval := h.agrees _ hmem e he
      exact .inl ⟨interval, hmem, hi ▸ hsh⟩
    · exact .inr ⟨hpend, e, he, hsh⟩

/-- **A query by an index** that holds no ID twice yields the live entries that share a point with
it, each once. -/
theorem Index.query (h : s.Index) (hnodup : (s.tree.values ++ s.pending).Nodup)
    (query : Interval T) : ∃ es, s.query query = .ok es ∧ (es.map Prod.fst).Nodup ∧
      ∀ x, x ∈ es ↔ (s.entry x.1).map (fun e => (e.interval, e.value)) = some x.2 ∧
        x.2.1.Shares query := by
  obtain ⟨ids, hperm, hquery⟩ := query_eq h.built query
  have hhits := hperm.append_right (s.pendingHits query)
  refine ⟨_, hquery, ?_, fun x => ?_⟩
  · rw [resolve_map_fst]
    exact (hhits.nodup_iff.mpr (h.nodup_hits hnodup query)).filter _
  · rw [mem_resolve, and_comm]
    apply and_congr_right
    intro hx
    obtain ⟨e, he, hxe⟩ := Option.map_eq_some_iff.mp hx
    rw [← hxe, hhits.mem_iff]
    exact h.mem_hits he query

theorem Consistent.query (h : s.Consistent) (query : Interval T) :
    ∃ es, s.query query = .ok es ∧ (es.map Prod.fst).Nodup ∧
      ∀ x, x ∈ es ↔ (s.entry x.1).map (fun e => (e.interval, e.value)) = some x.2 ∧
        x.2.1.Shares query := h.index.query h.nodup_ids query

end IntervalSet

end SimdIntervalTree
