import SimdIntervalTree.Lib.Counted
import SimdIntervalTree.Traversal.Delay

/-!
# The nodes a walk visits

A node whose pivot the query contains has a hit, so its visit is paid for by a call of the callback.
A callback that stops the walk early thereby makes it cheap.
-/

namespace SimdIntervalTree

open Exec CenterTree ControlFlow IntervalTreeBuilder

variable {T V : Type} [LinearOrder T]

namespace IntervalTree

variable (self : IntervalTree T V) {σ B : Type}
  (callback : σ → Interval T × V → σ × ControlFlow B)

/-- `visit`, charged for the node. -/
def visitCharged (C : Cutoffs T) (query : Interval T) (nodeIdx : UInt32) :
    Counted (Option Visit) := do
  Counted.charge 1
  Counted.free (self.visit C nodeIdx query)

/-- `queryWith`, charged for every node that it visits. -/
def queryWithCounted (query : Interval T) (s : σ) : Counted (σ × ControlFlow B) :=
  self.unlessEmpty query (s, .Continue)
    (self.walkBy callback (self.visitCharged Scalar query) query self.nodes.length 0 s)

end IntervalTree

variable {tree : IntervalTree T V} {query : Interval T} {σ B : Type}
  {callback : σ → Interval T × V → σ × ControlFlow B} {C : Cutoffs T}
  {t : BinaryTree (Run T (Interval T × V))}

theorem IntervalTree.result_unlessEmpty {α : Type} (a : α) (traverse : Counted α) :
    (tree.unlessEmpty query a traverse).result = tree.unlessEmpty query a traverse.result :=
  Counted.result_ite ..

theorem result_walkChild {walk : UInt32 → σ → Counted (σ × ControlFlow B)} (child : UInt32)
    (r : σ × ControlFlow B) : (IntervalTree.walkChild walk child r).result =
      IntervalTree.walkChild (fun child s => (walk child s).result) child r := by
  obtain ⟨s, _ | b⟩ := r
  · exact Counted.result_ite ..
  · rfl

theorem result_walkBy (visit : UInt32 → Counted (Option Visit)) (fuel : Nat) (nodeIdx : UInt32)
    (s : σ) : (tree.walkBy callback visit query fuel nodeIdx s).result =
      tree.walkBy callback (fun nodeIdx => (visit nodeIdx).result) query fuel nodeIdx s := by
  induction fuel generalizing nodeIdx s with
  | zero => rfl
  | succ fuel ih =>
    rw [IntervalTree.walkBy, IntervalTree.walkBy, Counted.result_bind]
    refine bind_congr fun visited => ?_
    cases visited with
    | none => rfl
    | some visited => simp [result_walkChild, ih]

theorem result_visitCharged (nodeIdx : UInt32) :
    (tree.visitCharged C query nodeIdx).result = tree.visit C nodeIdx query := by
  simp [IntervalTree.visitCharged]

theorem visitCharged_atMost (nodeIdx : UInt32) :
    (tree.visitCharged C query nodeIdx).AtMost 1 :=
  (Counted.AtMost.charge 1).bind_free fun _ _ => .free _

theorem result_walkBy_visitCharged (fuel : Nat) (nodeIdx : UInt32) (s : σ) :
    (tree.walkBy callback (tree.visitCharged C query) query fuel nodeIdx s).result =
      tree.walk callback C query fuel nodeIdx s := by
  simp only [result_walkBy, result_visitCharged, IntervalTree.walk]

theorem result_queryWithCounted (s : σ) :
    (tree.queryWithCounted callback query s).result = tree.queryWith callback query s := by
  rw [IntervalTree.queryWithCounted, IntervalTree.queryWith, IntervalTree.result_unlessEmpty,
    result_walkBy_visitCharged]

/-! ## What a walk costs -/

/-- A child costs nothing once the callback broke. The child handed out is the subtree or none. -/
theorem walkChild_atMost (query : Interval T)
    {walk : UInt32 → σ → Counted (σ × ControlFlow B)} {base : Nat}
    {child : BinaryTree (Run T (Interval T × V))} (hchild : child = .nil ∨ child = t)
    (hwalk : rootIdx base t ≠ NULL → ∀ s, (walk (rootIdx base t) s).AtMost
      ((called callback s (hits startOf stopOf query.start query.stop t)).length +
        outside query.start query.stop t)) (r : σ × ControlFlow B) :
    (IntervalTree.walkChild walk (rootIdx base child) r).AtMost
      ((calledAfter callback r (hits startOf stopOf query.start query.stop child)).length +
        outside query.start query.stop child) := by
  obtain ⟨s, _ | b⟩ := r
  · rw [IntervalTree.walkChild]
    split
    · rcases hchild with rfl | rfl
      · exact absurd rfl ‹_›
      · exact hwalk ‹_› s
    · exact (Counted.AtMost.pure _).mono (Nat.zero_le _)
  · exact (Counted.AtMost.pure _).mono (Nat.zero_le _)

/-- A node pays for itself, or the callback is called on one of its hits. -/
theorem one_le_called_add_outside (query : Interval T)
    (callback : σ → Interval T × V → σ × ControlFlow B) {c : Run T (Interval T × V)}
    (hne : c.own ≠ []) (s : σ) :
    1 ≤ (called callback s (nodeHits startOf stopOf query.start query.stop c)).length +
      if c.Inside query.start query.stop then 0 else 1 := by
  split
  · rename_i hin
    rw [nodeHits, if_neg (not_lt.mpr hin.1), if_pos hin.2]
    exact length_called_pos callback hne
  · exact Nat.le_add_left _ _

theorem Represents.walkBy_atMost {base d : Nat} (h : Represents tree base d t)
    (query : Interval T) (callback : σ → Interval T × V → σ × ControlFlow B)
    (hC : C.Admissible) (hc : Centered startOf stopOf (centers t)) (hs : All (Run.Sorted stopOf) t)
    (hne : rootIdx base t ≠ NULL) {fuel : Nat} (hf : t.numNodes ≤ fuel) (s : σ) :
    (tree.walkBy callback (tree.visitCharged C query) query fuel (rootIdx base t) s).AtMost
      ((called callback s (hits startOf stopOf query.start query.stop t)).length +
        outside query.start query.stop t) := by
  induction t generalizing base d fuel s with
  | nil => exact absurd rfl hne
  | node c l r ihl ihr =>
    rw [BinaryTree.numNodes] at hf
    obtain ⟨fuel, rfl⟩ : ∃ f, fuel = f + 1 := ⟨fuel - 1, by omega⟩
    have hlf : l.numNodes ≤ fuel := by omega
    have hrf : r.numNodes ≤ fuel := by omega
    have hone := one_le_called_add_outside query callback hc.1.1 s
    rw [IntervalTree.walkBy, outside_node]
    by_cases hle : maxHi stopOf c.toCenter (centers l) (centers r) ≤ query.start
    · refine ((visitCharged_atMost _).bind_free fun visited hresult => ?_).mono ?_
      · rw [result_visitCharged, h.visit_pruned hle] at hresult
        cases hresult
        exact .pure _
      · rw [if_neg fun hin => not_lt.mpr hin.1 (QueryIter.pivot_lt_of_pruned hc hle)]
        omega
    · obtain ⟨scan, hvisit, ⟨last, hscan⟩, -⟩ := h.visit_eq hC hc.1.2.2.1 hs.1 (not_le.mp hle)
      have hdrain := drain_eq callback hscan (Nat.lt_succ_of_le (length_le_of_yields hscan)) s
      have hleft := walkChild_eq callback query (leftFor_cases query.start c l)
        (fun hne s => h.left.walk_eq hC hc.2.1 hs.2.1 hne hlf s) h.left
        (feed callback s (nodeHits startOf stopOf query.start query.stop c))
      have hcost_l := walkChild_atMost query (leftFor_cases query.start c l)
        (fun hne s => ihl h.left hc.2.1 hs.2.1 hne hlf s)
        (feed callback s (nodeHits startOf stopOf query.start query.stop c))
      have hcost_r := walkChild_atMost query (rightFor_cases query.start query.stop c r)
        (fun hne s => ihr h.right hc.2.2 hs.2.2 hne hrf s)
        (andThen (feed callback s (nodeHits startOf stopOf query.start query.stop c))
          (feed callback · (hits startOf stopOf query.start query.stop (leftFor query.start c l))))
      have hchildren := hcost_l.bind fun r' hr' => by
        simp only [result_walkChild, result_walkBy_visitCharged] at hr'
        cases hleft.symm.trans hr'
        exact hcost_r
      apply Counted.AtMost.mono
      · apply (visitCharged_atMost _).bind
        intro visited hresult
        rw [result_visitCharged, hvisit] at hresult
        cases hresult
        dsimp only
        rw [hdrain, Counted.liftM_ok_bind]
        exact hchildren
      · rw [hits_node, called_append, calledAfter_append, List.length_append, List.length_append]
        omega

theorem Built.queryWithCounted_atMost {input : List (Interval T × V)} (h : Built input tree t)
    (callback : σ → Interval T × V → σ × ControlFlow B) (query : Interval T) (s : σ) :
    (tree.queryWithCounted callback query s).AtMost
      ((called callback s (queryHits query t)).length + 2 * (Nat.log 2 tree.len + 1)) := by
  rw [IntervalTree.queryWithCounted, IntervalTree.unlessEmpty]
  split
  · exact (Counted.AtMost.pure _).mono (Nat.zero_le _)
  · rename_i hcase
    obtain ⟨hq, hne⟩ := not_or.mp hcase
    have hroot := h.rootIdx_eq_zero hne
    have hnodes : tree.nodes.length = t.numNodes := by
      rw [h.stores.nodes, length_flatNodes, numNodes_centers]
    have hcost := (h.stores.represents h.centered).walkBy_atMost query callback
      scalar_admissible h.centered h.sorted (by rw [hroot]; decide) hnodes.ge s
    rw [queryHits, if_pos (not_le.mp hq), ← hroot, h.len_eq]
    exact hcost.mono (Nat.add_le_add_left (h.outside_le query) _)

namespace IntervalTreeBuilder

/-- **A walk that is stopped early is cheap.** It visits at most two nodes a level beyond one for
each call of the callback. -/
theorem build_walk_visits (self : IntervalTreeBuilder T V) (sorts : Sorts T V)
    (h : self.intervals.length < SIZE_LIMIT) :
    ∃ tree, self.build sorts = .ok tree ∧ ∀ (query : Interval T) {σ B : Type}
      (callback : σ → Interval T × V → σ × ControlFlow B) (s : σ), ∃ r calls visits,
        tree.queryWith callback query s = .ok r ∧
        tree.queryWith (logged callback) query (s, []) = .ok ((r.1, calls), r.2) ∧
        (tree.queryWithCounted callback query s).run = .ok (r, visits) ∧
        visits ≤ calls.length + 2 * (Nat.log 2 tree.len + 1) := by
  obtain ⟨tree, t, hbuild, hb⟩ := build_ok sorts h
  refine ⟨tree, hbuild, fun query σ B callback s => ?_⟩
  have hquery := hb.queryWith_eq callback query s
  have hlog := feed_logged callback s [] (queryHits query t)
  rw [List.nil_append] at hlog
  obtain ⟨visits, hrun⟩ := Counted.eq_ok_of_result ((result_queryWithCounted s).trans hquery)
  exact ⟨_, _, visits, hquery, hlog ▸ hb.queryWith_eq (logged callback) query (s, []), hrun,
    hb.queryWithCounted_atMost callback query s _ _ hrun⟩

theorem build_walk_visits_nested :
    let self : IntervalTreeBuilder Nat Nat :=
      ⟨[(⟨0, 9⟩, 0), (⟨1, 2⟩, 1), (⟨3, 8⟩, 2), (⟨4, 5⟩, 3)]⟩
    ∃ tree, self.build (.stable Nat Nat) = .ok tree ∧ ∀ (query : Interval Nat) {σ B : Type}
      (callback : σ → Interval Nat × Nat → σ × ControlFlow B) (s : σ), ∃ r calls visits,
        tree.queryWith callback query s = .ok r ∧
        tree.queryWith (logged callback) query (s, []) = .ok ((r.1, calls), r.2) ∧
        (tree.queryWithCounted callback query s).run = .ok (r, visits) ∧
        visits ≤ calls.length + 2 * (Nat.log 2 tree.len + 1) :=
  build_walk_visits _ _ (by decide)

end IntervalTreeBuilder

end SimdIntervalTree
