import SimdIntervalTree.Model.LazyQuery
import SimdIntervalTree.Mutable.Snapshot
import SimdIntervalTree.Mutable.Space

/-!
# Queries one element at a time

Driven by single calls, the iterator of a query yields what `IntervalSet.query` lists, and then
`None` for ever. Between two elements it passes over dead IDs of the tree and over insertions off
the query, of which there are few.
-/

namespace SimdIntervalTree.IntervalSet

open Exec CenterTree IntervalTreeBuilder

variable {T V : Type} [LinearOrder T] {s : IntervalSet T V} {sorts : Sorts T IntervalId}
  {range : Interval T} {input : List (Interval T × IntervalId)}
  {t : BinaryTree (Run T (Interval T × IntervalId))} {fuel : Nat}
  {log : List (Event (IntervalSet T V) (Op T V) (Output T V))}

theorem stable_queryNextWithin : Stable (s.queryNextWithin range fuel) :=
  ((stable_slice.filterMap _ fuel).chain).filterMap _ fuel

theorem queryChain_yields (h : Built input s.tree t) (range : Interval T)
    (hdead : ((queryHits range t).map Prod.snd).countP (fun id => (s.entry id).isNone) < fuel)
    (hpending : s.pending.length < fuel) :
    ∃ it last, s.queryChain range = .ok it ∧
      Yields (s.queryNextWithin range fuel) it
        (s.resolve ((queryHits range t).map Prod.snd ++ s.pendingHits range)) last := by
  obtain ⟨fromTree, last, hit, hyields, -⟩ := QueryIter.query_yields h range
  have htree := hyields.map fun hit : Interval T × IntervalId => hit.2
  have hpend := (yields_slice s.pending).filter
    (fun id => (s.entry id).any fun entry => entry.interval.overlaps range) hpending
  refine ⟨_, _, by rw [queryChain, hit]; rfl, (htree.chain hpend).filterMap _ ?_⟩
  simp only [Option.isNone_map]
  rw [List.countP_append]
  exact (congrArg _ (countP_pendingHits range)).trans_lt hdead

/-- **Laziness does not show.** After any run, however long, the calls of `next` on the iterator of
a query return the elements of its list in order, and then `None` for ever. -/
theorem run_query_lazy (h : Run (step sorts) new log s) (range : Interval T) :
    ∃ it es, s.queryChain range = .ok it ∧ s.query range = .ok es ∧
      ∀ k, ∃ it', nthCall (s.queryNext range) k it = .ok (es[k]?, it') := by
  obtain ⟨input, t, hb⟩ := (run_sized h).built
  have hlen := hb.length_queryHits_le range
  have hids : ((queryHits range t).map Prod.snd).countP (fun id => (s.entry id).isNone) ≤
      ((queryHits range t).map Prod.snd).length := List.countP_le_length
  rw [← hb.len_eq] at hlen
  rw [List.length_map] at hids
  obtain ⟨it, last, hit, hyields⟩ := queryChain_yields hb range
    (show _ < s.tree.len + s.pending.length + 1 by omega) (by omega)
  exact ⟨it, _, hit, query_eq_resolve hb range, hyields.nthCall_eq stable_queryNextWithin⟩

theorem run_query_lazy_reuse :
    let range : Interval Nat := ⟨7, 9⟩
    ∃ log s, Run (step (.stable Nat IntervalId)) new log s ∧
      log.map Event.call = [.insert ⟨0, 10⟩ 'a', .remove ⟨0⟩, .insert ⟨5, 8⟩ 'b'] ∧
      ∃ it es, s.queryChain range = .ok it ∧ s.query range = .ok es ∧
        ∀ k, ∃ it', nthCall (s.queryNext range) k it = .ok (es[k]?, it') :=
  have h := ((Run.nil.snoc rfl).snoc rfl).snoc rfl
  ⟨_, _, h, rfl, run_query_lazy h _⟩

/-- **Every call of `next` returns soon.** At every point of an iteration, the loops of the
adapters pass over no more IDs than there may be insertions and removals between two rebuilds. -/
theorem run_query_delay (h : Run (step sorts) new log s)
    (hn : inserts (log.map Event.call) ≤ 2 ^ 32) (range : Interval T) :
    ∃ it es, s.queryChain range = .ok it ∧ s.query range = .ok es ∧
      ∀ k, ∃ it', nthCall (s.queryNextWithin range (max 64 (Nat.sqrt s.tree.len) + 1)) k it =
        .ok (es[k]?, it') := by
  obtain ⟨m, hm, ht⟩ := run_traced h hn
  obtain ⟨input, t, hb⟩ := hm.consistent.index.built
  have hdead := (countP_hits_le hb range).trans ht.lingering_le
  have hdue := hm.consistent.notDue
  rw [Due, rebuildThreshold] at hdue
  obtain ⟨it, last, hit, hyields⟩ := queryChain_yields hb range
    (show _ < max 64 (Nat.sqrt s.tree.len) + 1 by omega) (by omega)
  exact ⟨it, _, hit, query_eq_resolve hb range, hyields.nthCall_eq stable_queryNextWithin⟩

theorem run_query_delay_reuse :
    let range : Interval Nat := ⟨7, 9⟩
    ∃ log s, Run (step (.stable Nat IntervalId)) new log s ∧
      log.map Event.call = [.insert ⟨0, 10⟩ 'a', .remove ⟨0⟩, .insert ⟨5, 8⟩ 'b'] ∧
      ∃ it es, s.queryChain range = .ok it ∧ s.query range = .ok es ∧
        ∀ k, ∃ it', nthCall (s.queryNextWithin range (max 64 (Nat.sqrt s.tree.len) + 1)) k it =
          .ok (es[k]?, it') :=
  have h := ((Run.nil.snoc rfl).snoc rfl).snoc rfl
  ⟨_, _, h, rfl, run_query_delay h (by decide) _⟩

end SimdIntervalTree.IntervalSet
