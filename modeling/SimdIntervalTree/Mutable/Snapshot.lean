import SimdIntervalTree.Lib.Counted
import SimdIntervalTree.Mutable.Issued
import SimdIntervalTree.Mutable.Representation
import SimdIntervalTree.Traversal.Delay

/-!
# Queries between two rebuilds

The tree is a snapshot of the last rebuild, and the list of insertions what was issued since. A
query yields the one part and then the other. What it looks up in vain is paid for by the insertions
and the removals since the rebuild.
-/

namespace SimdIntervalTree

open Exec CenterTree IntervalTreeBuilder

namespace IntervalSet

variable {T V : Type} [LinearOrder T] {s s' : IntervalSet T V} {sorts : Sorts T IntervalId}
  {id : IntervalId} {e : Entry T V} {log : List (Event (IntervalSet T V) (Op T V) (Output T V))}

/-- The list of insertions holds the IDs that were issued last. -/
theorem run_pending_suffix (h : Run (step sorts) new log s) : s.pending <:+ issued log := by
  induction h with
  | nil => exact List.suffix_refl _
  | @snoc log s call result s' hrun hstep ih =>
    have hslots := (run_not_due hrun).1
    have hrebuilt {r : IntervalSet T V} (hr : r.rebuildIfDue sorts = .ok s')
        (hsuffix : r.pending <:+ issued (log ++ [⟨s, call, result⟩])) :
        s'.pending <:+ issued (log ++ [⟨s, call, result⟩]) := by
      obtain ⟨-, rfl⟩ | ⟨-, tree, -, rfl⟩ := rebuildIfDue_cases hr
      · exact hsuffix
      · exact List.nil_suffix
    cases step_change hstep with
    | insert hinsert =>
      obtain ⟨rfl, hrebuild⟩ := insert_ok hslots hinsert
      refine hrebuilt hrebuild ?_
      rw [issued_append, issued_of_issue rfl]
      obtain ⟨before, hbefore⟩ := ih
      exact ⟨before, by rw [← hbefore, List.append_assoc]; rfl⟩
    | remove he hrebuild =>
      refine hrebuilt hrebuild ?_
      rw [issued_append, issued_of_none rfl, List.append_nil]
      exact ih
    | removeNone =>
      rw [issued_append, issued_of_none rfl, List.append_nil]
      exact ih
    | clear => exact List.nil_suffix
    | read hreads =>
      rw [issued_append, issued_of_none (issue_of_reads hreads), List.append_nil]
      exact ih

omit [LinearOrder T] in
theorem resolve_append (ids ids' : List IntervalId) :
    s.resolve (ids ++ ids') = s.resolve ids ++ s.resolve ids' := List.filterMap_append

/-- **The order of a query.** Intervals that the last rebuild met come first; those inserted later
follow in the order of their insertion. -/
theorem run_query_order (h : Run (step sorts) new log s)
    (hn : inserts (log.map Event.call) ≤ 2 ^ 32) (query : Interval T) :
    ∃ old recent, s.query query = .ok (old ++ recent) ∧
      (∀ x ∈ old, PresentAtRebuild log x.1) ∧ (∀ x ∈ recent, ¬PresentAtRebuild log x.1) ∧
      (recent.map Prod.fst).Sublist (issued log) := by
  obtain ⟨m, hm, ht⟩ := run_traced h hn
  have hindex := hm.consistent.index
  obtain ⟨ids, hperm, hquery⟩ := query_eq hindex.built query
  rw [resolve_append] at hquery
  refine ⟨s.resolve ids, s.resolve (s.pendingHits query), hquery, ?_, ?_, ?_⟩
  · intro x hx
    obtain ⟨hid, hx⟩ := mem_resolve.mp hx
    obtain ⟨e, he, -⟩ := Option.map_eq_some_iff.mp hx
    obtain ⟨interval, hmem, -⟩ := mem_treeHits.mp (hperm.mem_iff.mp hid)
    obtain ⟨input, t, hb⟩ := hindex.built
    by_contra hnot
    exact hindex.disjoint x.1 (hb.mem_values.mpr ⟨interval, hmem⟩)
      ((ht.pending_iff x.1 e he).mpr hnot)
  · intro x hx
    obtain ⟨hid, hx⟩ := mem_resolve.mp hx
    obtain ⟨e, he, -⟩ := Option.map_eq_some_iff.mp hx
    exact (ht.pending_iff x.1 e he).mp (mem_pendingHits.mp hid).1
  · rw [resolve_map_fst]
    exact (List.filter_sublist.trans List.filter_sublist).trans (run_pending_suffix h).sublist

theorem run_query_order_reuse :
    let query : Interval Nat := ⟨7, 9⟩
    ∃ log s, Run (step (.stable Nat IntervalId)) new log s ∧
      log.map Event.call = [.insert ⟨0, 10⟩ 'a', .remove ⟨0⟩, .insert ⟨5, 8⟩ 'b'] ∧
      ∃ old recent, s.query query = .ok (old ++ recent) ∧
        (∀ x ∈ old, PresentAtRebuild log x.1) ∧ (∀ x ∈ recent, ¬PresentAtRebuild log x.1) ∧
        (recent.map Prod.fst).Sublist (issued log) :=
  have h := ((Run.nil.snoc rfl).snoc rfl).snoc rfl
  ⟨_, _, h, rfl, run_query_order h (by decide) _⟩

/-! ## Cost -/

theorem query_eq_resolve {input : List (Interval T × IntervalId)}
    {t : BinaryTree (Run T (Interval T × IntervalId))} (h : Built input s.tree t)
    (query : Interval T) : s.query query =
      .ok (s.resolve ((queryHits query t).map Prod.snd ++ s.pendingHits query)) := by
  obtain ⟨it, last, hit, -, hcollect⟩ := QueryIter.query_yields h query
  rw [IntervalSet.query, hit, ok_bind, hcollect]
  rfl

/-- The hits of the tree that are dead. -/
theorem countP_hits_le {input : List (Interval T × IntervalId)}
    {t : BinaryTree (Run T (Interval T × IntervalId))} (h : Built input s.tree t)
    (query : Interval T) :
    ((queryHits query t).map Prod.snd).countP (fun id => (s.entry id).isNone) ≤ s.lingering := by
  have hsub : (s.treeHits query).Sublist s.tree.values :=
    h.values_eq ▸ List.filter_sublist.map _
  rw [((h.queryHits_entries query).map Prod.snd).countP_eq]
  exact (hsub.trans (List.sublist_append_left _ _)).countP_le

/-- Every pending hit is an entry. -/
theorem countP_pendingHits (query : Interval T) :
    (s.pendingHits query).countP (fun id => (s.entry id).isNone) = 0 := by
  apply List.countP_eq_zero.mpr
  intro id hid
  obtain ⟨-, e, he, -⟩ := mem_pendingHits.mp hid
  rw [he]
  nofun

end IntervalSet

end SimdIntervalTree
