import SimdIntervalTree.Mutable.Rebuilds
import SimdIntervalTree.Mutable.Refinement

/-!
# The representation invariant

What the fields of a set say about each other as long as the generations do not wrap. A live ID is
pending until a rebuild meets it; from then on the tree holds it, unless its interval contains no
point. The dead IDs that linger are paid for by the removals since the last rebuild.
-/

namespace SimdIntervalTree

open Exec CenterTree IntervalTreeBuilder

namespace IntervalSet

variable {T V : Type}

/-- A rebuild of the log has handed the ID to the builder. -/
def PresentAtRebuild (log : List (Event (IntervalSet T V) (Op T V) (Output T V)))
    (id : IntervalId) : Prop :=
  ∃ e ∈ log, ∃ r, Rebuilds e r ∧ id ∈ r.occupied.map Prod.snd

/-- The number of dead IDs in the tree and in the list of insertions. -/
def lingering (s : IntervalSet T V) : Nat :=
  (s.tree.values ++ s.pending).countP fun id => (s.entry id).isNone

/-- The representation invariant of a set after the calls in the log. -/
structure Invariant [LinearOrder T] (log : List (Event (IntervalSet T V) (Op T V) (Output T V)))
    (s : IntervalSet T V) : Prop where
  slots : s.Slots
  once : ∀ slot e, s.entries[slot]? = some (some e) →
    e.interval.Nonempty ∨ ¬PresentAtRebuild log (.new slot e.generation) →
    (s.tree.values ++ s.pending).count (.new slot e.generation) = 1
  absent : ∀ slot e, s.entries[slot]? = some (some e) → ¬e.interval.Nonempty →
    PresentAtRebuild log (.new slot e.generation) →
    .new slot e.generation ∉ s.tree.values ∧ .new slot e.generation ∉ s.pending
  agrees : ∀ (pos : Nat) id e, s.tree.values[pos]? = some id → s.entry id = some e →
    s.tree.starts[pos]? = some e.interval.start ∧ s.tree.ends[pos]? = some e.interval.stop
  lingering_le : s.lingering ≤ s.removedSinceRebuild
  churn_le : s.pending.length + s.removedSinceRebuild ≤ max 64 (Nat.sqrt s.tree.len)

/-- What is known of the pending and of the dead IDs, given the IDs that were issued. -/
structure Traced (log : List (Event (IntervalSet T V) (Op T V) (Output T V)))
    (s : IntervalSet T V) (m : Registry IntervalId (Interval T × V)) : Prop where
  pending_iff : ∀ id e, s.entry id = some e → (id ∈ s.pending ↔ ¬PresentAtRebuild log id)
  issued : ∀ id, PresentAtRebuild log id → id ∈ m.issued
  lingering_le : s.lingering ≤ s.removedSinceRebuild

variable {s s' r : IntervalSet T V} {id : IntervalId} {e : Entry T V}
  {range : Interval T} {value : V} {log : List (Event (IntervalSet T V) (Op T V) (Output T V))}
  {event : Event (IntervalSet T V) (Op T V) (Output T V)}
  {m m' : Registry IntervalId (Interval T × V)} {n n' : Nat}

/-! ## Presence at a rebuild -/

theorem presentAtRebuild_concat : PresentAtRebuild (log ++ [event]) id ↔
    PresentAtRebuild log id ∨ ∃ r, Rebuilds event r ∧ id ∈ r.occupied.map Prod.snd := by
  constructor
  · rintro ⟨e, he, hr⟩
    rcases List.mem_append.mp he with he | he
    · exact .inl ⟨e, he, hr⟩
    · rw [List.mem_singleton.mp he] at hr
      exact .inr hr
  · rintro (⟨e, he, hr⟩ | hr)
    · exact ⟨e, List.mem_append_left _ he, hr⟩
    · exact ⟨event, by simp, hr⟩

theorem presentAtRebuild_of_quiet (h : ¬∃ r, Rebuilds event r) :
    PresentAtRebuild (log ++ [event]) id ↔ PresentAtRebuild log id := by
  rw [presentAtRebuild_concat]
  exact or_iff_left fun ⟨r, hr, _⟩ => h ⟨r, hr⟩

theorem mem_occupied (hlen : s.entries.length ≤ SLOT_LIMIT) :
    id ∈ s.occupied.map Prod.snd ↔ ∃ e, s.entry id = some e := by
  rw [occupied_eq, List.map_map, List.mem_map]
  constructor
  · rintro ⟨x, hx, rfl⟩
    exact ⟨x.2, (mem_lives hlen).mp hx⟩
  · rintro ⟨e, he⟩
    exact ⟨(id, e), (mem_lives hlen).mpr he, rfl⟩

/-! ## Dead IDs -/

theorem lingering_added (hs : s.Slots) (hlt : s.nextSlot < SLOT_LIMIT) :
    (s.added range value).lingering ≤ s.lingering := by
  have hlive : [s.nextId].countP (fun id => ((s.added range value).entry id).isNone) = 0 := by
    rw [List.countP_singleton, hs.entry_added hlt, if_pos rfl]
    rfl
  have hsplit : (s.added range value).lingering =
      (s.tree.values ++ s.pending).countP fun id => ((s.added range value).entry id).isNone := by
    have hids : (s.added range value).tree.values ++ (s.added range value).pending =
        (s.tree.values ++ s.pending) ++ [s.nextId] := (List.append_assoc ..).symm
    rw [lingering, hids, List.countP_append, hlive, Nat.add_zero]
  rw [hsplit]
  apply List.countP_mono_left
  intro id _ hnone
  rw [hs.entry_added hlt] at hnone
  split at hnone
  · cases hnone
  · exact hnone

/-- A removal leaves one more dead ID, if its ID is held at all. -/
theorem lingering_dropped (he : s.entry id = some e)
    (hnodup : (s.tree.values ++ s.pending).Nodup) :
    (s.dropped id).lingering ≤ s.lingering + 1 := by
  have hone : ((s.tree.values ++ s.pending).filter (· == id)).countP
      (fun id' => ((s.dropped id).entry id').isNone) ≤ 1 := by
    refine List.countP_le_length.trans ?_
    rw [← List.countP_eq_length_filter]
    exact List.nodup_iff_count_le_one.mp hnodup id
  have hrest : ((s.tree.values ++ s.pending).filter (!· == id)).countP
      (fun id' => ((s.dropped id).entry id').isNone) ≤ s.lingering := by
    refine le_trans (List.countP_mono_left fun id' hid' hnone => ?_)
      List.filter_sublist.countP_le
    have hne : id' ≠ id := by simpa using (List.mem_filter.mp hid').2
    rwa [Slots.entry_dropped he, if_neg hne] at hnone
  have hsplit : (s.dropped id).lingering = _ :=
    List.countP_eq_countP_filter_add (s.tree.values ++ s.pending) _ (· == id)
  omega

/-! ## What a call keeps -/

theorem Traced.concat (h : Traced log s m) (hasks : asks event = none)
    (hm : ∀ id ∈ m.issued, id ∈ m'.issued) : Traced (log ++ [event]) s m' := by
  have hquiet : ¬∃ r, Rebuilds event r := fun ⟨_, hr, _⟩ => nomatch hasks.symm.trans hr
  refine ⟨fun id e he => ?_, fun id hid => ?_, h.lingering_le⟩
  · rw [presentAtRebuild_of_quiet hquiet]
    exact h.pending_iff id e he
  · exact hm id (h.issued id ((presentAtRebuild_of_quiet hquiet).mp hid))

theorem Traced.clear (h : Traced log s m) : Traced log s.clear m :=
  ⟨nofun, h.issued, le_rfl⟩

theorem Traced.added (h : Traced log s m) (hs : s.Slots) (hlt : s.nextSlot < SLOT_LIMIT)
    (hfresh : s.nextId ∉ m.issued) (hm : ∀ id ∈ m.issued, id ∈ m'.issued) :
    Traced log (s.added range value) m' where
  pending_iff id e he := by
    have hmem : id ∈ (s.added range value).pending ↔ id ∈ s.pending ∨ id = s.nextId := by
      rw [IntervalSet.added, List.mem_append, List.mem_singleton]
    rw [hs.entry_added hlt] at he
    rw [hmem]
    split at he
    · subst id
      exact iff_of_true (.inr rfl) fun hid => hfresh (h.issued _ hid)
    · rw [← h.pending_iff id e he]
      exact or_iff_left ‹_›
  issued id hid := hm id (h.issued id hid)
  lingering_le := (lingering_added hs hlt).trans h.lingering_le

theorem Traced.dropped (h : Traced log s m) (he : s.entry id = some e)
    (hnodup : (s.tree.values ++ s.pending).Nodup) (hm : ∀ id ∈ m.issued, id ∈ m'.issued) :
    Traced log (s.dropped id) m' where
  pending_iff id' e' he' := by
    rw [Slots.entry_dropped he] at he'
    split at he'
    · cases he'
    · exact h.pending_iff id' e' he'
  issued id' hid' := hm id' (h.issued id' hid')
  lingering_le := (lingering_dropped he hnodup).trans (Nat.succ_le_succ h.lingering_le)

variable [LinearOrder T] {sorts : Sorts T IntervalId}

/-- A rebuild meets all live IDs and leaves none of the dead. -/
theorem traced_of_rebuildIfDue (hasks : asks event = some r) (hs : Refines n s m)
    (h : Traced log r m) (hrebuild : r.rebuildIfDue sorts = .ok s) :
    Traced (log ++ [event]) s m := by
  have hlen : r.entries.length ≤ SLOT_LIMIT :=
    (rebuildIfDue_frame hrebuild).1 ▸ hs.consistent.length_le
  obtain ⟨hdue, rfl⟩ | ⟨hdue, tree, hbuild, rfl⟩ := rebuildIfDue_cases hrebuild
  · have hquiet : ¬∃ r, Rebuilds event r := by
      rintro ⟨r', hr', hdue'⟩
      cases hasks.symm.trans hr'
      exact hdue hdue'
    refine ⟨fun id e he => ?_, fun id hid => ?_, h.lingering_le⟩
    · rw [presentAtRebuild_of_quiet hquiet]
      exact h.pending_iff id e he
    · exact h.issued id ((presentAtRebuild_of_quiet hquiet).mp hid)
  · refine ⟨fun id e he => ?_, fun id hid => ?_, ?_⟩
    · have hpresent : PresentAtRebuild (log ++ [event]) id :=
        presentAtRebuild_concat.mpr (.inr ⟨r, ⟨hasks, hdue⟩, (mem_occupied hlen).mpr ⟨e, he⟩⟩)
      exact iff_of_false List.not_mem_nil (not_not.mpr hpresent)
    · rcases presentAtRebuild_concat.mp hid with hid | ⟨r', ⟨hr', -⟩, hid⟩
      · exact h.issued id hid
      · cases hasks.symm.trans hr'
        obtain ⟨e, he⟩ := (mem_occupied hlen).mp hid
        have hentry := (entry_rebuildIfDue hrebuild).trans he
        exact m.issued_of_mem id (hs.mirrors.mem_live.mpr ⟨e, hentry⟩)
    · obtain ⟨t, hb⟩ := build_built hbuild
      refine (List.countP_eq_zero.mpr fun id hid => ?_).le
      rw [rebuilt, List.append_nil] at hid
      obtain ⟨interval, hx⟩ := hb.mem_values.mp hid
      obtain ⟨-, e, he, -⟩ := (mem_entries_build hlen hbuild).mp hx
      have hsome : (r.rebuilt tree).entry id = some e := he
      rw [hsome]
      exact Bool.false_ne_true

theorem Traced.step {call : Op T V} {result : Output T V} (h : Traced log s m)
    (hs : Refines n s m) (hn : n + inserts [call] ≤ SLOT_LIMIT)
    (hstep : s.step sorts call = .ok (result, s')) (hs' : Refines n' s' m')
    (hm : SetStep m call result m') : Traced (log ++ [⟨s, call, result⟩]) s' m' := by
  have hmono (id) (hid : id ∈ m.issued) : id ∈ m'.issued := hm.issued_mono hid
  have hslots := hs.consistent.slots
  cases step_change hstep with
  | insert hinsert =>
    have hlt : s.nextSlot < SLOT_LIMIT := hs.nextSlot_lt hn
    obtain ⟨rfl, hrebuild⟩ := insert_ok hslots hinsert
    have hfresh := hs.nextId_notMem hn
    exact traced_of_rebuildIfDue rfl hs' (h.added hslots hlt hfresh hmono) hrebuild
  | remove he hrebuild =>
    have hnodup := hs.consistent.nodup_ids
    exact traced_of_rebuildIfDue (asking_remove he) hs' (h.dropped he hnodup hmono) hrebuild
  | removeNone => exact h.concat rfl hmono
  | clear => exact h.clear.concat rfl hmono
  | read hreads => exact h.concat (asks_of_asking_none (asking_of_reads hreads)) hmono

/-! ## Runs -/

omit [LinearOrder T] in
theorem traced_new : Traced [] (new : IntervalSet T V) .empty :=
  ⟨nofun, nofun, le_rfl⟩

/-- The entries of an index, by position. -/
theorem Index.agrees_at (h : s.Index) {pos : Nat} (hpos : s.tree.values[pos]? = some id)
    (he : s.entry id = some e) :
    s.tree.starts[pos]? = some e.interval.start ∧ s.tree.ends[pos]? = some e.interval.stop := by
  obtain ⟨input, t, hb⟩ := h.built
  rw [hb.stores.values, List.getElem?_map, Option.map_eq_some_iff] at hpos
  obtain ⟨x, hx, rfl⟩ := hpos
  have hmem : x ∈ s.tree.entries := hb.stores.entries_eq ▸ List.mem_of_getElem? hx
  rw [h.agrees x hmem e he, hb.stores.starts, hb.stores.ends, List.getElem?_map,
    List.getElem?_map, hx]
  exact ⟨rfl, rfl⟩

theorem Traced.invariant (h : Traced log s m) (hs : Refines n s m) : Invariant log s where
  slots := hs.consistent.slots
  once slot e hget hor := by
    have hlt := (List.getElem?_eq_some_iff.mp hget).1.trans_le hs.consistent.length_le
    have he := entry_new hlt hget
    apply List.count_eq_one_of_mem hs.consistent.nodup_ids
    rw [List.mem_append]
    rcases hor with hne | hpresent
    · exact hs.consistent.index.covers _ e he hne
    · exact .inr ((h.pending_iff _ e he).mpr hpresent)
  absent slot e hget hempty hpresent := by
    have hlt := (List.getElem?_eq_some_iff.mp hget).1.trans_le hs.consistent.length_le
    have he := entry_new hlt hget
    obtain ⟨input, t, hb⟩ := hs.consistent.index.built
    refine ⟨fun hmem => ?_, fun hmem => (h.pending_iff _ e he).mp hmem hpresent⟩
    obtain ⟨interval, hx⟩ := hb.mem_values.mp hmem
    have hi : e.interval = interval := hs.consistent.index.agrees _ hx e he
    exact hempty (hi ▸ hb.nonempty_of_mem hx)
  agrees _ _ _ := hs.consistent.index.agrees_at
  lingering_le := h.lingering_le
  churn_le := by
    rw [max_comm]
    exact not_lt.mp hs.consistent.notDue

theorem run_traced (h : Run (step sorts) new log s)
    (hn : inserts (log.map Event.call) ≤ 2 ^ 32) :
    ∃ m, Refines (inserts (log.map Event.call)) s m ∧ Traced log s m := by
  induction h with
  | nil => exact ⟨.empty, .new, traced_new⟩
  | snoc _ hstep ih =>
    rw [List.map_append, inserts_append] at hn ⊢
    obtain ⟨m, hm, ht⟩ := ih (by omega)
    obtain ⟨m', hstep', hm'⟩ := hm.step hn hstep
    exact ⟨m', hm', ht.step hm hn hstep hm' hstep'⟩

/-- **The representation invariant** holds in every state of a run with at most `2 ^ 32`
insertions. -/
theorem run_invariant (h : Run (step sorts) new log s)
    (hn : inserts (log.map Event.call) ≤ 2 ^ 32) : Invariant log s := by
  obtain ⟨m, hm, ht⟩ := run_traced h hn
  exact ht.invariant hm

/-- The rebuild of the 65th call meets zero-width intervals only. The first of these is removed, and
its slot is used again. -/
theorem run_invariant_filled : ∃ log s, Run (step (.stable Nat IntervalId)) new log s ∧
    log.map Event.call =
      List.replicate 66 (.insert ⟨5, 5⟩ ()) ++ [.remove ⟨0⟩, .insert ⟨0, 10⟩ ()] ∧
    Invariant log s := by
  obtain ⟨log, s, hrun, hcalls, hs⟩ := exists_run_filled (.stable Nat IntervalId) (k := 66)
    (by decide)
  have hlen : s.entries.length = 66 := by rw [hs.entries, List.length_map, List.length_range]
  have he : s.entry ⟨0⟩ = some ⟨⟨5, 5⟩, (), 0⟩ := by
    rw [entry_eq_some, hs.entries]
    exact ⟨rfl, rfl⟩
  have hdropped : (s.dropped ⟨0⟩).entries.length = 66 := List.length_set.trans hlen
  obtain ⟨s₁, hremove⟩ := exists_rebuildIfDue (s := s.dropped ⟨0⟩) (.stable Nat IntervalId)
    fun _ => by rw [hdropped]; decide
  have hs₁ := (hs.slots.dropped he).rebuildIfDue hremove
  have hlen₁ : s₁.entries.length = 66 := by rw [(rebuildIfDue_frame hremove).1, hdropped]
  obtain ⟨s₂, hinsert⟩ := exists_rebuildIfDue (s := s₁.added ⟨0, 10⟩ ()) (.stable Nat IntervalId)
    fun _ => by
      have := hs₁.nextSlot_le
      rw [hs₁.length_added, SIZE_LIMIT]
      omega
  have hstep₁ : s.step (.stable ..) (.remove ⟨0⟩) = .ok (.removed true, s₁) := by
    rw [step, remove_eq he, hremove]
    rfl
  have hstep₂ : s₁.step (.stable ..) (.insert ⟨0, 10⟩ ()) = .ok (.id s₁.nextId, s₂) := by
    rw [step, insert_eq hs₁, hinsert]
    rfl
  have hrun₂ := (hrun.snoc hstep₁).snoc hstep₂
  have hcalls₂ : (log ++ [Event.mk s (Op.remove ⟨0⟩) (Output.removed true)] ++
      [Event.mk s₁ (Op.insert ⟨0, 10⟩ ()) (Output.id s₁.nextId)]).map Event.call =
        List.replicate 66 (.insert ⟨5, 5⟩ ()) ++ [.remove ⟨0⟩, .insert ⟨0, 10⟩ ()] := by
    rw [List.map_append, List.map_append, hcalls, List.append_assoc]
    rfl
  exact ⟨_, s₂, hrun₂, hcalls₂, run_invariant hrun₂ (hcalls₂ ▸ by decide)⟩

end IntervalSet

end SimdIntervalTree
