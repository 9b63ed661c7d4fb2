import SimdIntervalTree.Mutable.Representation

/-!
# Rebuilds cannot be observed

Two sets with the same slots and counters answer the same calls alike, whatever their trees and
lists of insertions, as long as both are right. When a set rebuilds, and how the sorts of the
builder break ties, only shows in the order in which queries yield.
-/

namespace SimdIntervalTree

open Exec IntervalTreeBuilder

variable {T V : Type}

namespace IntervalSet

/-- Two results that differ at most in the order of entries. -/
inductive Output.Alike : Output T V → Output T V → Prop
  | refl : Alike result result
  | entries : es.Perm es' → Alike (.entries es) (.entries es')

/-- All of a set but what the next rebuild replaces. -/
def frame (s : IntervalSet T V) : List (Option (Entry T V)) × List Nat × UInt32 × Nat :=
  (s.entries, s.freeSlots, s.nextGeneration, s.count)

variable {s s' t t' : IntervalSet T V} {id : IntervalId} {e : Entry T V} {range : Interval T}
  {value : V} {n : Nat}

theorem frame_eq_iff : s.frame = t.frame ↔ s.entries = t.entries ∧ s.freeSlots = t.freeSlots ∧
    s.nextGeneration = t.nextGeneration ∧ s.count = t.count := by
  simp [frame]

theorem frame_added (h : s.frame = t.frame) :
    (s.added range value).frame = (t.added range value).frame := by
  obtain ⟨hentries, hfree, hnext, hcount⟩ := frame_eq_iff.mp h
  simp only [frame, added, hentries, hfree, hnext, hcount]

theorem frame_dropped (h : s.frame = t.frame) : (s.dropped id).frame = (t.dropped id).frame := by
  obtain ⟨hentries, hfree, hnext, hcount⟩ := frame_eq_iff.mp h
  simp only [frame, dropped, hentries, hfree, hnext, hcount]

theorem nextId_of_frame (h : s.frame = t.frame) : s.nextId = t.nextId := by
  obtain ⟨hentries, hfree, hnext, -⟩ := frame_eq_iff.mp h
  rw [nextId, nextId, nextSlot, nextSlot, hentries, hfree, hnext]

theorem entry_of_frame (h : s.frame = t.frame) : s.entry id = t.entry id := by
  rw [entry, entry, (frame_eq_iff.mp h).1]

variable [LinearOrder T] {sorts sorts' : Sorts T IntervalId}

theorem frame_rebuildIfDue (h : s.rebuildIfDue sorts = .ok s') : s'.frame = s.frame :=
  frame_eq_iff.mpr (rebuildIfDue_frame h)

/-- Two sets that represent the same map after `n` insertions, with the same slots. -/
structure Agrees (n : Nat) (s t : IntervalSet T V) : Prop where
  frame : s.frame = t.frame
  refines : ∃ m, Refines n s m ∧ Refines n t m

/-- A rebuild that is not due leaves a set that represents the same map. -/
theorem Refines.rebuilt {m : Registry IntervalId (Interval T × V)}
    {tree : IntervalTree T IntervalId} (h : Refines n s m)
    (hbuild : (IntervalTreeBuilder.mk s.occupied).build sorts = .ok tree) :
    Refines n (s.rebuilt tree) m :=
  ⟨h.toSurvives.rebuilt hbuild, .of_pending_nil rfl, not_due_of_churn_eq_zero rfl⟩

namespace Agrees

variable {call : Op T V} {result result' : Output T V}

theorem read (h : Agrees n s t) (hreads : call.Reads) (hs : s.step sorts call = .ok (result, s'))
    (ht : t.step sorts' call = .ok (result', t')) : Output.Alike result result' := by
  obtain ⟨hentries, -, -, hcount⟩ := frame_eq_iff.mp h.frame
  cases call with
  | insert | remove | clear => exact hreads.elim
  | get id =>
    cases hs
    cases ht
    rw [IntervalSet.get, IntervalSet.get, entry_of_frame h.frame]
    exact .refl
  | getInterval id =>
    cases hs
    cases ht
    rw [IntervalSet.getInterval, IntervalSet.getInterval, entry_of_frame h.frame]
    exact .refl
  | iter =>
    cases hs
    cases ht
    rw [IntervalSet.iter, IntervalSet.iter, hentries]
    exact .refl
  | len =>
    cases hs
    cases ht
    rw [IntervalSet.len, IntervalSet.len, hcount]
    exact .refl
  | query range =>
    obtain ⟨m, hsm, htm⟩ := h.refines
    obtain ⟨es, hquery, hlists⟩ := hsm.mirrors.query range
    obtain ⟨es', hquery', hlists'⟩ := htm.mirrors.query range
    obtain ⟨es₁, hes, hs⟩ := bind_eq_ok.mp hs
    obtain ⟨es₂, hes', ht⟩ := bind_eq_ok.mp ht
    cases hquery.symm.trans hes
    cases hquery'.symm.trans hes'
    cases hs
    cases ht
    exact .entries (hlists.perm hlists')

theorem step (h : Agrees n s t) (hn : n + inserts [call] ≤ SLOT_LIMIT)
    (hs : s.step sorts call = .ok (result, s')) (ht : t.step sorts' call = .ok (result', t')) :
    Output.Alike result result' ∧ Agrees (n + inserts [call]) s' t' := by
  obtain ⟨m, hsm, htm⟩ := h.refines
  cases step_change hs with
  | insert hinsert =>
    cases step_change ht with
    | insert hinsert' =>
      obtain ⟨-, hsm'⟩ := hsm.insert hn hinsert
      obtain ⟨-, htm'⟩ := htm.insert hn hinsert'
      obtain ⟨rfl, hrebuild⟩ := insert_ok hsm.consistent.slots hinsert
      obtain ⟨rfl, hrebuild'⟩ := insert_ok htm.consistent.slots hinsert'
      rw [nextId_of_frame h.frame] at hsm' ⊢
      refine ⟨.refl, ?_, _, hsm', htm'⟩
      rw [frame_rebuildIfDue hrebuild, frame_rebuildIfDue hrebuild', frame_added h.frame]
    | read hreads => exact hreads.elim
  | remove he hrebuild =>
    cases step_change ht with
    | remove he' hrebuild' =>
      refine ⟨.refl, ?_, _, hsm.remove he hrebuild, htm.remove he' hrebuild'⟩
      rw [frame_rebuildIfDue hrebuild, frame_rebuildIfDue hrebuild', frame_dropped h.frame]
    | removeNone hnone =>
      rw [entry_of_frame h.frame, hnone] at he
      cases he
    | read hreads => exact hreads.elim
  | removeNone hnone =>
    cases step_change ht with
    | remove he =>
      rw [entry_of_frame h.frame, he] at hnone
      cases hnone
    | removeNone => exact ⟨.refl, h⟩
    | read hreads => exact hreads.elim
  | clear =>
    cases step_change ht with
    | clear =>
      have hnext := (frame_eq_iff.mp h.frame).2.2.1
      exact ⟨.refl, frame_eq_iff.mpr ⟨rfl, rfl, hnext, rfl⟩, _, hsm.clear, htm.clear⟩
    | read hreads => exact hreads.elim
  | read hreads =>
    have hresult := h.read hreads hs ht
    rw [inserts_of_reads hreads]
    cases step_change ht with
    | insert | remove | removeNone | clear => exact hreads.elim
    | read => exact ⟨hresult, h⟩

end Agrees

theorem Mirrors.query_perm {m : Registry IntervalId (Interval T × V)} (h : Mirrors s m)
    (range : Interval T) : ∃ es, s.query range = .ok es ∧
      es.Perm (s.iter.filter fun x => decide (x.2.1.Shares range)) := by
  obtain ⟨es, hquery, hlists⟩ := h.query range
  exact ⟨es, hquery, hlists.perm h.iter.filter⟩

/-- **A set answers like a fresh tree** that is built from all that it iterates over. -/
theorem run_query_fresh {log : List (Event (IntervalSet T V) (Op T V) (Output T V))}
    (h : Run (IntervalSet.step sorts) new log s) (hn : inserts (log.map Event.call) ≤ 2 ^ 32)
    (hlen : s.len < SIZE_LIMIT) (fresh : Sorts T (IntervalId × Interval T × V))
    (range : Interval T) :
    ∃ tree it hits es,
      (IntervalTreeBuilder.new.insertAll (s.iter.map fun x => (x.2.1, x))).build fresh = .ok tree ∧
      tree.query range = .ok it ∧ it.collect = .ok hits ∧ s.query range = .ok es ∧
      es.Perm (hits.map Prod.snd) := by
  obtain ⟨m, hm, -⟩ := run_traced h hn
  obtain ⟨es, hquery, hes⟩ := hm.mirrors.query_perm range
  have hiter : s.iter.length = s.len := hm.mirrors.iter.len_eq.symm.trans hm.mirrors.len.symm
  rw [new_insertAll]
  obtain ⟨tree, t, hbuild, hb⟩ := build_ok fresh (show
    (IntervalTreeBuilder.mk (s.iter.map fun x => (x.2.1, x))).intervals.length < SIZE_LIMIT by
      rw [List.length_map, hiter]
      exact hlen)
  obtain ⟨it, last, hit, -, hcollect⟩ := QueryIter.query_yields hb range
  refine ⟨tree, it, _, es, hbuild, hit, hcollect, hquery, hes.trans ?_⟩
  refine .trans (.of_eq ?_) ((hb.queryHits_perm range).map Prod.snd).symm
  rw [List.filter_map, List.map_map]
  exact (List.map_id _).symm

theorem run_query_fresh_reuse :
    let range : Interval Nat := ⟨7, 9⟩
    ∃ log s, Run (IntervalSet.step (.stable Nat IntervalId)) new log s ∧
      log.map Event.call = [.insert ⟨0, 10⟩ 'a', .remove ⟨0⟩, .insert ⟨5, 8⟩ 'b'] ∧
      ∃ tree it hits es,
        (IntervalTreeBuilder.new.insertAll (s.iter.map fun x => (x.2.1, x))).build (.stable ..) =
          .ok tree ∧
        tree.query range = .ok it ∧ it.collect = .ok hits ∧ s.query range = .ok es ∧
        es.Perm (hits.map Prod.snd) :=
  have h := ((Run.nil.snoc rfl).snoc rfl).snoc rfl
  ⟨_, _, h, rfl, run_query_fresh h (by decide) (by decide) _ _⟩

end IntervalSet

end SimdIntervalTree
