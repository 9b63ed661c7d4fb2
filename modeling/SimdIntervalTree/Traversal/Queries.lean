import SimdIntervalTree.Traversal.Iterator

/-!
# Queries on a built tree

The iterator yields the entries that share a point with the query, and the callback traversal is
that sequence cut off where the callback breaks.
-/

namespace SimdIntervalTree

open Exec ControlFlow IntervalTreeBuilder

variable {T V : Type} [LinearOrder T]

/-- The calls of the iterator return `es` and then `None` for ever. The callback traversal feeds
`es` to the callback: it calls it on a prefix of `es`, which is all of it unless a call breaks, and
ends with the first call that breaks. -/
def IntervalTree.TraversalsAgree (tree : IntervalTree T V) : Prop :=
  ∀ query : Interval T, ∃ it es, tree.query query = .ok it ∧
    (∀ k, ∃ it', nthCall QueryIter.next k it = .ok (es[k]?, it')) ∧
    ∀ {σ B : Type} (callback : σ → Interval T × V → σ × ControlFlow B) (s : σ), ∃ s' r calls,
      tree.queryWith callback query s = .ok (s', r) ∧
      tree.queryWith (logged callback) query (s, []) = .ok ((s', calls), r) ∧
      (s', r) = feed callback s es ∧ calls = called callback s es ∧ calls <+: es ∧
      (r = .Continue → calls = es ∧ ∀ done, done <+: es → (feed callback s done).2 = .Continue) ∧
      ∀ b, r = .Break b → ∃ done last, calls = done ++ [last] ∧
        (feed callback s done).2 = .Continue ∧
        (callback (feed callback s done).1 last).2 = .Break b

namespace IntervalTreeBuilder

/-- **A query yields exactly the entries that overlap it**, each as often as it was inserted. -/
theorem build_query_perm (input : List (Interval T × V)) (sorts : Sorts T V)
    (h : input.length < SIZE_LIMIT) (query : Interval T) :
    ∃ tree it es, (new.insertAll input).build sorts = .ok tree ∧ tree.query query = .ok it ∧
      it.collect = .ok es ∧ es.Perm (input.filter fun e => decide (e.1.Shares query)) := by
  rw [new_insertAll]
  obtain ⟨tree, t, hbuild, hb⟩ :=
    build_ok sorts (show (mk input).intervals.length < SIZE_LIMIT from h)
  obtain ⟨it, last, hit, -, hcollect⟩ := QueryIter.query_yields hb query
  exact ⟨tree, it, _, hbuild, hit, hcollect, hb.queryHits_perm query⟩

theorem build_query_perm_ties :
    let input : List (Interval Nat × Nat) :=
      [(⟨1, 4⟩, 0), (⟨4, 4⟩, 1), (⟨1, 4⟩, 2), (⟨5, 3⟩, 3), (⟨4, 6⟩, 4)]
    ∃ tree it es, (new.insertAll input).build (.stable Nat Nat) = .ok tree ∧
      tree.query ⟨3, 5⟩ = .ok it ∧ it.collect = .ok es ∧
      es.Perm (input.filter fun e => decide (e.1.Shares ⟨3, 5⟩)) :=
  build_query_perm _ _ (by decide) _

/-- **The two traversals agree** on every tree that `build` produces. -/
theorem build_traversalsAgree (self : IntervalTreeBuilder T V) (sorts : Sorts T V)
    (h : self.intervals.length < SIZE_LIMIT) :
    ∃ tree, self.build sorts = .ok tree ∧ tree.TraversalsAgree := by
  obtain ⟨tree, t, hbuild, hb⟩ := build_ok sorts h
  refine ⟨tree, hbuild, fun query => ?_⟩
  obtain ⟨it, last, hit, hyields, -⟩ := QueryIter.query_yields hb query
  refine ⟨it, queryHits query t, hit, hyields.nthCall_eq QueryIter.stable_next,
    fun callback s => ?_⟩
  refine ⟨_, _, called callback s (queryHits query t), hb.queryWith_eq callback query s, ?_, rfl,
    rfl, called_prefix callback s _, fun hr => ⟨called_of_continue callback hr, fun done hdone =>
      feed_prefix_of_continue callback hdone hr⟩, fun b => called_of_break callback⟩
  rw [hb.queryWith_eq, feed_logged, List.nil_append]

theorem build_traversalsAgree_ties :
    let self : IntervalTreeBuilder Nat Nat :=
      ⟨[(⟨1, 4⟩, 0), (⟨2, 3⟩, 1), (⟨1, 6⟩, 2), (⟨0, 1⟩, 3), (⟨8, 9⟩, 4)]⟩
    ∃ tree, self.build (.stable Nat Nat) = .ok tree ∧ tree.TraversalsAgree :=
  build_traversalsAgree _ _ (by decide)

end IntervalTreeBuilder

end SimdIntervalTree
