import SimdIntervalTree.Lib.Registry
import SimdIntervalTree.Lib.Run
import SimdIntervalTree.Mutable.Index

/-!
# The set as a map

`SetStep` says what a client may expect of a call if the set is a finite map from IDs that are never
issued twice. As long as the generations do not wrap, the set refines it. `Survives` is the part of
the invariant that does without what a panic would break.
-/

namespace SimdIntervalTree

open Exec IntervalTreeBuilder

variable {T V : Type} [LinearOrder T]

/-! ## The abstract set -/

/-- A call, its result and what it does to the map. -/
inductive SetStep : Registry IntervalId (Interval T × V) → IntervalSet.Op T V →
    IntervalSet.Output T V → Registry IntervalId (Interval T × V) → Prop
  | insert {id : IntervalId} : id ∉ m.issued →
    SetStep m (.insert range value) (.id id) (m.register id (range, value))
  | removeLive {id : IntervalId} : id ∈ m.live → SetStep m (.remove id) (.removed true) (m.erase id)
  | removeDead {id : IntervalId} : id ∉ m.live → SetStep m (.remove id) (.removed false) m
  | clear : SetStep m .clear .cleared m.clear
  | get {id : IntervalId} : SetStep m (.get id) (.value ((m.live.lookup id).map (·.2))) m
  | getInterval {id : IntervalId} :
    SetStep m (.getInterval id) (.interval ((m.live.lookup id).map (·.1))) m
  | iter : m.Lists (fun _ => True) es → SetStep m .iter (.entries es) m
  | len : SetStep m .len (.len m.len) m
  | query : m.Lists (fun e => e.1.Shares range) es → SetStep m (.query range) (.entries es) m

/-- The log has removed the ID, or it has cleared the set after it issued the ID. -/
inductive Discarded : List (IntervalSet.Op T V × IntervalSet.Output T V) → IntervalId → Prop
  | removed {id : IntervalId} : Discarded (log ++ [(.remove id, .removed true)]) id
  | cleared {id : IntervalId} : (call, .id id) ∈ log → Discarded (log ++ [(.clear, .cleared)]) id
  | snoc {id : IntervalId} : Discarded log id → Discarded (log ++ [x]) id

namespace SetStep

variable {m m' : Registry IntervalId (Interval T × V)} {call : IntervalSet.Op T V}
  {result : IntervalSet.Output T V} {id : IntervalId}
  {log : List (IntervalSet.Op T V × IntervalSet.Output T V)}

theorem issued_mono (h : SetStep m call result m') (hid : id ∈ m.issued) : id ∈ m'.issued := by
  cases h with
  | insert => exact .inr hid
  | removeLive | clear | removeDead | get | getInterval | iter | len | query => exact hid

/-- An ID that a call removes or clears is retired. -/
theorem retires (h : SetStep m call result m') (hlive : id ∈ m.live) (hdead : id ∉ m'.live) :
    m'.Retired id :=
  ⟨h.issued_mono (m.issued_of_mem id hlive), hdead⟩

/-- A retired ID stays dead, even if its slot is used again. -/
theorem retired (h : SetStep m call result m') (hid : m.Retired id) : m'.Retired id := by
  cases h with
  | insert hfresh => exact hid.register hfresh
  | removeLive => exact hid.erase
  | clear => exact hid.clear
  | removeDead | get | getInterval | iter | len | query => exact hid

theorem issued_iff (h : Steps SetStep .empty log m) :
    id ∈ m.issued ↔ ∃ call, (call, .id id) ∈ log := by
  induction h with
  | nil => exact iff_of_false nofun nofun
  | @snoc log m call result m' _ hstep ih =>
    have hconcat : (∃ call', (call', .id id) ∈ log ++ [(call, result)]) ↔
        (∃ call', (call', .id id) ∈ log) ∨ result = .id id := by
      simp only [List.mem_append, List.mem_singleton, Prod.mk.injEq, exists_or,
        exists_eq_left', eq_comm]
    rw [hconcat, ← ih]
    cases hstep with
    | insert => exact or_comm.trans (or_congr_right (by rw [IntervalSet.Output.id.injEq, eq_comm]))
    | _ => exact (or_iff_left nofun).symm

/-- **The IDs that are retired** are those that the log has discarded. -/
theorem retired_iff (h : Steps SetStep .empty log m) : m.Retired id ↔ Discarded log id := by
  constructor
  · intro hid
    induction h with
    | nil => exact hid.1.elim
    | @snoc log m call result m' h hstep ih =>
      have hsnoc (hdead : id ∉ m.live) (hissued : id ∈ m.issued) :
          Discarded (log ++ [(call, result)]) id := .snoc (ih ⟨hissued, hdead⟩)
      cases hstep with
      | @insert range value id' hfresh =>
        rcases hid.1 with rfl | hissued
        · exact absurd (Finmap.mem_insert.mpr (.inl rfl)) hid.2
        · exact hsnoc (fun hlive => hid.2 (Finmap.mem_insert.mpr (.inr hlive))) hissued
      | @removeLive id' hlive =>
        by_cases heq : id = id'
        · subst heq
          exact .removed
        · exact hsnoc (fun hlive => hid.2 (Finmap.mem_erase.mpr ⟨heq, hlive⟩)) hid.1
      | clear =>
        obtain ⟨call, hcall⟩ := (issued_iff h).mp hid.1
        exact .cleared hcall
      | removeDead | get | getInterval | iter | len | query => exact .snoc (ih hid)
  · intro hd
    induction hd generalizing m with
    | @removed log id =>
      obtain ⟨m₀, -, hstep⟩ := steps_concat_iff.mp h
      obtain ⟨hlive, rfl⟩ : id ∈ m₀.live ∧ m = m₀.erase id := by
        cases hstep with
        | removeLive hlive => exact ⟨hlive, rfl⟩
      exact hstep.retires hlive Registry.notMem_erase
    | @cleared call log id hmem =>
      obtain ⟨m₀, h₀, hstep⟩ := steps_concat_iff.mp h
      have hissued := (issued_iff h₀).mpr ⟨_, hmem⟩
      by_cases hlive : id ∈ m₀.live
      · cases hstep
        exact SetStep.clear.retires hlive Finmap.notMem_empty
      · exact hstep.retired ⟨hissued, hlive⟩
    | snoc _ ih =>
      obtain ⟨m₀, h₀, hstep⟩ := steps_concat_iff.mp h
      exact hstep.retired (ih h₀)

end SetStep

namespace IntervalSet

variable {s s' : IntervalSet T V} {sorts : Sorts T IntervalId} {id : IntervalId} {e : Entry T V}
  {range : Interval T} {value : V} {m : Registry IntervalId (Interval T × V)} {n : Nat}

/-- The number of insertions among the calls. -/
def inserts (calls : List (Op T V)) : Nat :=
  calls.countP fun
    | .insert .. => true
    | _ => false

/-! ## Calls that read the set -/

/-- Whatever can be read of the set `s` is in the map `m`. -/
structure Mirrors (s : IntervalSet T V) (m : Registry IntervalId (Interval T × V)) : Prop where
  slots : s.Slots
  length_le : s.entries.length ≤ SLOT_LIMIT
  index : s.Index
  nodup : (s.tree.values ++ s.pending).Nodup
  lookup : ∀ id, m.live.lookup id = (s.entry id).map fun e => (e.interval, e.value)

namespace Mirrors

theorem mem_live (h : Mirrors s m) : id ∈ m.live ↔ ∃ e, s.entry id = some e := by
  rw [Registry.mem_live, h.lookup]
  constructor
  · rintro ⟨x, hx⟩
    obtain ⟨e, he, -⟩ := Option.map_eq_some_iff.mp hx
    exact ⟨e, he⟩
  · rintro ⟨e, he⟩
    exact ⟨_, by rw [he]; rfl⟩

theorem iter (h : Mirrors s m) : m.Lists (fun _ => True) s.iter := by
  have hlen := h.length_le
  rw [iter_eq]
  constructor
  · rw [List.map_map]
    exact nodup_lives hlen
  · intro x
    rw [and_true, h.lookup, List.mem_map]
    constructor
    · rintro ⟨⟨id, e⟩, hlive, rfl⟩
      rw [(mem_lives hlen).mp hlive]
      rfl
    · intro hx
      obtain ⟨e, he, hx⟩ := Option.map_eq_some_iff.mp hx
      exact ⟨(x.1, e), (mem_lives hlen).mpr he, Prod.ext rfl hx⟩

theorem len (h : Mirrors s m) : s.len = m.len := by
  rw [h.iter.len_eq, iter_eq, List.length_map, length_lives]
  exact h.slots.count

theorem query (h : Mirrors s m) (query : Interval T) :
    ∃ es, s.query query = .ok es ∧ m.Lists (fun e => e.1.Shares query) es := by
  obtain ⟨es, hquery, hnodup, hmem⟩ := h.index.query h.nodup query
  refine ⟨es, hquery, hnodup, fun x => ?_⟩
  rw [h.lookup]
  exact hmem x

/-- What a reading call returns is what the map holds. -/
theorem read {call : Op T V} {result : Output T V} (h : Mirrors s m) (hreads : call.Reads)
    (hs : s.step sorts call = .ok (result, s')) : SetStep m call result m := by
  cases call with
  | insert | remove | clear => exact hreads.elim
  | get id =>
    cases hs
    have hget : s.get id = (m.live.lookup id).map (·.2) := by
      rw [h.lookup, Option.map_map]
      rfl
    exact hget ▸ .get
  | getInterval id =>
    cases hs
    have hget : s.getInterval id = (m.live.lookup id).map (·.1) := by
      rw [h.lookup, Option.map_map]
      rfl
    exact hget ▸ .getInterval
  | iter =>
    cases hs
    exact .iter h.iter
  | len =>
    cases hs
    exact h.len ▸ .len
  | query range =>
    obtain ⟨es, hquery, hlists⟩ := h.query range
    obtain ⟨es', hquery', hs⟩ := bind_eq_ok.mp hs
    rw [hquery] at hquery'
    cases hquery'
    cases hs
    exact .query hlists

end Mirrors

/-! ## Calls that change it -/

/-- After `n` generations the set `s` represents the map `m`, whether or not a call has panicked. -/
structure Survives (n : Nat) (s : IntervalSet T V) (m : Registry IntervalId (Interval T × V)) :
    Prop where
  mirrors : Mirrors s m
  nextGeneration : s.nextGeneration = UInt32.ofNat n
  length_le : s.entries.length ≤ n
  issued : ∀ id ∈ m.issued, id.generation.toNat < n
  held : ∀ id ∈ s.tree.values ++ s.pending, id ∈ m.issued

/-- If none has panicked, the generations of the pending IDs are consecutive and no rebuild is left
to be done. -/
structure Refines (n : Nat) (s : IntervalSet T V) (m : Registry IntervalId (Interval T × V)) : Prop
    extends Survives n s m where
  recent : s.Recent
  notDue : ¬s.Due

namespace Survives

theorem new : Survives 0 (IntervalSet.new : IntervalSet T V) .empty where
  mirrors :=
    ⟨slots_new, Nat.zero_le _, consistent_new.index, consistent_new.nodup_ids, fun _ => rfl⟩
  nextGeneration := rfl
  length_le := le_rfl
  issued := nofun
  held := nofun

theorem clear (h : Survives n s m) : Survives n s.clear m.clear where
  mirrors := ⟨slots_clear, Nat.zero_le _, consistent_clear.index, .nil, fun _ => rfl⟩
  nextGeneration := h.nextGeneration
  length_le := Nat.zero_le _
  issued := h.issued
  held := nofun

theorem nextSlot_lt (h : Survives n s m) (hn : n < SLOT_LIMIT) : s.nextSlot < SLOT_LIMIT :=
  (h.mirrors.slots.nextSlot_le.trans h.length_le).trans_lt hn

theorem generation_nextId (h : Survives n s m) (hn : n < SLOT_LIMIT) :
    s.nextId.generation.toNat = n := by
  rw [nextId, IntervalId.generation_new (h.nextSlot_lt hn), h.nextGeneration,
    UInt32.toNat_ofNat_of_lt' hn]

/-- The generations have not wrapped, so the next ID is a new one. -/
theorem nextId_notMem (h : Survives n s m) (hn : n < SLOT_LIMIT) : s.nextId ∉ m.issued := by
  intro hmem
  have hissued := h.issued _ hmem
  rw [h.generation_nextId hn] at hissued
  exact hissued.false

theorem added (h : Survives n s m) (range : Interval T) (value : V) (hn : n < SLOT_LIMIT) :
    Survives (n + 1) (s.added range value) (m.register s.nextId (range, value)) := by
  have hslots := h.mirrors.slots
  have hlt := h.nextSlot_lt hn
  have hfresh : s.nextId ∉ s.tree.values ++ s.pending := fun hmem =>
    h.nextId_notMem hn (h.held _ hmem)
  have hheld : (s.added range value).tree.values ++ (s.added range value).pending =
      (s.tree.values ++ s.pending) ++ [s.nextId] := (List.append_assoc ..).symm
  have hlen : (s.added range value).entries.length ≤ n + 1 := by
    have := hslots.nextSlot_le
    have := h.length_le
    rw [hslots.length_added]
    omega
  refine ⟨⟨hslots.added, hlen.trans hn, ?_, ?_, fun id => ?_⟩, ?_, hlen, ?_, fun id hid => ?_⟩
  · exact h.mirrors.index.added hslots hlt fun hmem => hfresh (List.mem_append_left _ hmem)
  · rw [hheld]
    exact List.Nodup.append h.mirrors.nodup (List.nodup_singleton _)
      (List.disjoint_singleton.mpr hfresh)
  · rw [Registry.lookup_register, hslots.entry_added hlt]
    split
    · rfl
    · exact h.mirrors.lookup id
  · rw [IntervalSet.added, h.nextGeneration, UInt32.ofNat_add]
    rfl
  · rintro id (rfl | hid)
    · rw [h.generation_nextId hn]
      exact Nat.lt_succ_self n
    · exact (h.issued id hid).trans (Nat.lt_succ_self n)
  · rw [hheld] at hid
    rcases List.mem_append.mp hid with hid | hid
    · exact .inr (h.held id hid)
    · exact .inl (List.mem_singleton.mp hid)

theorem dropped (h : Survives n s m) (he : s.entry id = some e) :
    Survives n (s.dropped id) (m.erase id) where
  mirrors := {
    slots := h.mirrors.slots.dropped he
    length_le := List.length_set.trans_le h.mirrors.length_le
    index := h.mirrors.index.dropped he
    nodup := h.mirrors.nodup
    lookup := by
      intro id'
      rw [Registry.lookup_erase, Slots.entry_dropped he]
      split
      · rfl
      · exact h.mirrors.lookup id' }
  nextGeneration := h.nextGeneration
  length_le := List.length_set.trans_le h.length_le
  issued := h.issued
  held := h.held

/-- A set with a fresh tree of its entries represents the same map. -/
theorem rebuilt {tree : IntervalTree T IntervalId} (h : Survives n s m)
    (hbuild : (IntervalTreeBuilder.mk s.occupied).build sorts = .ok tree) :
    Survives n (s.rebuilt tree) m := by
  have hslots : (s.rebuilt tree).Slots := { h.mirrors.slots with }
  have hindex : (s.rebuilt tree).Index := .rebuilt h.mirrors.length_le hbuild
  refine ⟨⟨hslots, h.mirrors.length_le, hindex, ?_, h.mirrors.lookup⟩, h.nextGeneration,
    h.length_le, h.issued, fun id hid => ?_⟩
  · rw [IntervalSet.rebuilt, List.append_nil]
    exact hindex.nodup
  · rw [IntervalSet.rebuilt, List.append_nil] at hid
    obtain ⟨t, hb⟩ := build_built hbuild
    obtain ⟨interval, hx⟩ := hb.mem_values.mp hid
    obtain ⟨-, e, he, -⟩ := (mem_entries_build h.mirrors.length_le hbuild).mp hx
    exact m.issued_of_mem id (h.mirrors.mem_live.mpr ⟨e, he⟩)

/-- A rebuild that succeeds leaves none to be done. -/
theorem refines (h : Survives n s m) (hrecent : s.Recent)
    (hrebuild : s.rebuildIfDue sorts = .ok s') : Refines n s' m := by
  obtain ⟨hdue, rfl⟩ | ⟨-, tree, hbuild, rfl⟩ := rebuildIfDue_cases hrebuild
  · exact ⟨h, hrecent, hdue⟩
  · exact ⟨h.rebuilt hbuild, .of_pending_nil rfl, not_due_of_churn_eq_zero rfl⟩

end Survives

namespace Refines

theorem new : Refines 0 (IntervalSet.new : IntervalSet T V) .empty :=
  ⟨.new, consistent_new.recent, consistent_new.notDue⟩

theorem consistent (h : Refines n s m) : s.Consistent :=
  ⟨h.mirrors.slots, h.mirrors.length_le, h.mirrors.index, h.recent, h.notDue⟩

theorem insert (h : Refines n s m) (hn : n < SLOT_LIMIT)
    (hs : s.insert sorts range value = .ok (id, s')) :
    id ∉ m.issued ∧ Refines (n + 1) s' (m.register id (range, value)) := by
  obtain ⟨rfl, hrebuild⟩ := insert_ok h.mirrors.slots hs
  have hrecent : (s.added range value).Recent := h.recent.added (h.nextSlot_lt hn)
  exact ⟨h.nextId_notMem hn, (h.added range value hn).refines hrecent hrebuild⟩

theorem remove (h : Refines n s m) (hid : s.entry id = some e)
    (hrebuild : (s.dropped id).rebuildIfDue sorts = .ok s') : Refines n s' (m.erase id) :=
  (h.dropped hid).refines h.recent hrebuild

theorem clear (h : Refines n s m) : Refines n s.clear m.clear :=
  ⟨h.toSurvives.clear, consistent_clear.recent, consistent_clear.notDue⟩

end Refines

/-! ## Runs -/

omit [LinearOrder T] in
theorem inserts_of_reads {call : Op T V} (h : call.Reads) : inserts [call] = 0 := by
  cases call with
  | insert => exact h.elim
  | _ => rfl

/-- A call of the set is a step of the map. -/
theorem Refines.step {call : Op T V} {result : Output T V} (h : Refines n s m)
    (hn : n + inserts [call] ≤ SLOT_LIMIT) (hs : s.step sorts call = .ok (result, s')) :
    ∃ m', SetStep m call result m' ∧ Refines (n + inserts [call]) s' m' := by
  cases step_change hs with
  | insert hinsert =>
    obtain ⟨hfresh, h'⟩ := h.insert hn hinsert
    exact ⟨_, .insert hfresh, h'⟩
  | remove he hrebuild =>
    exact ⟨_, .removeLive (h.mirrors.mem_live.mpr ⟨_, he⟩), h.remove he hrebuild⟩
  | removeNone hnone =>
    refine ⟨m, .removeDead fun hlive => ?_, h⟩
    obtain ⟨e, he⟩ := h.mirrors.mem_live.mp hlive
    exact nomatch hnone.symm.trans he
  | clear => exact ⟨_, .clear, h.clear⟩
  | read hreads =>
    refine ⟨m, h.mirrors.read hreads hs, ?_⟩
    rw [inserts_of_reads hreads]
    exact h

omit [LinearOrder T] in
theorem inserts_append (calls calls' : List (Op T V)) :
    inserts (calls ++ calls') = inserts calls + inserts calls' :=
  List.countP_append

omit [LinearOrder T] in
theorem inserts_mono {calls calls' : List (Op T V)} (h : calls <+: calls') :
    inserts calls ≤ inserts calls' :=
  h.sublist.countP_le

/-- A run of the set is one of the map that it represents in the end. -/
theorem exists_refines {log : List (Event (IntervalSet T V) (Op T V) (Output T V))}
    (h : Run (step sorts) new log s) (hn : inserts (log.map Event.call) ≤ 2 ^ 32) :
    ∃ m : Registry IntervalId (Interval T × V), Steps SetStep .empty (log.map Event.io) m ∧
      Refines (inserts (log.map Event.call)) s m :=
  h.simulates (R := fun log s m => Refines (inserts (log.map Event.call)) s m)
    (A := fun log => inserts (log.map Event.call) ≤ SLOT_LIMIT) .new
    (fun log s call result s' m hR hA hs => by
      rw [List.map_append, inserts_append] at hA ⊢
      exact hR.step hA hs)
    (fun log' hpre => (inserts_mono (hpre.map _)).trans hn)

theorem Mirrors.of_notMem (h : Mirrors s m) (hid : id ∉ m.live) : s.entry id = none := by
  rw [h.mem_live, not_exists] at hid
  exact Option.eq_none_iff_forall_not_mem.mpr hid

/-- **Refinement.** In every run with at most `2 ^ 32` insertions the set is a finite map: its
results are those of a run of the map, and an ID that is dead there does not resolve. -/
theorem run_refines {log : List (Event (IntervalSet T V) (Op T V) (Output T V))}
    (h : Run (step sorts) new log s) (hn : inserts (log.map Event.call) ≤ 2 ^ 32) :
    ∃ m : Registry IntervalId (Interval T × V), Steps SetStep .empty (log.map Event.io) m ∧
      ∀ id, m.Retired id → s.get id = none ∧ s.getInterval id = none := by
  obtain ⟨m, hsteps, hm⟩ := exists_refines h hn
  refine ⟨m, hsteps, fun id hid => ?_⟩
  rw [get, getInterval, hm.mirrors.of_notMem hid.2]
  exact ⟨rfl, rfl⟩

theorem run_refines_reuse : ∃ log s, Run (step (.stable Nat IntervalId)) new log s ∧
    log.map Event.io = [
      (.insert ⟨0, 10⟩ 'a', .id ⟨0⟩), (.remove ⟨0⟩, .removed true),
      (.insert ⟨5, 8⟩ 'b', .id ⟨2 ^ 32⟩), (.get ⟨0⟩, .value none),
      (.query ⟨7, 9⟩, .entries [(⟨2 ^ 32⟩, ⟨5, 8⟩, 'b')])] ∧
    ∃ m : Registry IntervalId (Interval Nat × Char), Steps SetStep .empty (log.map Event.io) m ∧
      ∀ id, m.Retired id → s.get id = none ∧ s.getInterval id = none :=
  have h := (((((Run.nil).snoc rfl).snoc rfl).snoc rfl).snoc rfl).snoc rfl
  ⟨_, _, h, rfl, run_refines h (by decide)⟩

/-- **The lifetime of an ID.** An ID that was issued resolves just until the log discards it. -/
theorem run_resolves_iff {log : List (Event (IntervalSet T V) (Op T V) (Output T V))}
    (h : Run (step sorts) new log s) (hn : inserts (log.map Event.call) ≤ 2 ^ 32)
    (hissued : .id id ∈ log.map Event.result) :
    s.get id = none ↔ Discarded (log.map Event.io) id := by
  obtain ⟨m, hsteps, hm⟩ := exists_refines h hn
  have hid : id ∈ m.issued := by
    obtain ⟨e, he, hresult⟩ := List.mem_map.mp hissued
    exact (SetStep.issued_iff hsteps).mpr ⟨e.call, List.mem_map.mpr ⟨e, he, Prod.ext rfl hresult⟩⟩
  rw [← SetStep.retired_iff hsteps, Registry.Retired, and_iff_right hid, get,
    Option.map_eq_none_iff, hm.mirrors.mem_live, Option.eq_none_iff_forall_not_mem, not_exists]
  rfl

theorem run_resolves_iff_reuse : ∃ log s, Run (step (.stable Nat IntervalId)) new log s ∧
    log.map Event.io = [
      (.insert ⟨0, 10⟩ 'a', .id ⟨0⟩), (.remove ⟨0⟩, .removed true),
      (.insert ⟨5, 8⟩ 'b', .id ⟨2 ^ 32⟩)] ∧
    (s.get ⟨0⟩ = none ↔ Discarded (log.map Event.io) ⟨0⟩) ∧
    (s.get ⟨2 ^ 32⟩ = none ↔ Discarded (log.map Event.io) ⟨2 ^ 32⟩) :=
  have h := ((Run.nil.snoc rfl).snoc rfl).snoc rfl
  ⟨_, _, h, rfl, run_resolves_iff h (by decide) (.head _), run_resolves_iff h (by decide)
    (.tail _ (.tail _ (.head _)))⟩

end IntervalSet

end SimdIntervalTree
