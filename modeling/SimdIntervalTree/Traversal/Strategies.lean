import SimdIntervalTree.Simd.Hybrid
import SimdIntervalTree.Traversal.Walk

/-!
# Strategies

What a walk reports does not depend on the strategy that trims its runs. On `i64` trees this makes
`query_simd` the same as `query_with`; `count_overlaps`, which reports lengths of runs, relies on
the strategy being exact.
-/

namespace SimdIntervalTree

open Exec CenterTree ControlFlow IntervalTreeBuilder

variable {V : Type}

section

variable {T : Type} [LinearOrder T] {tree : IntervalTree T V}
  {t : BinaryTree (Run T (Interval T × V))}

/-- From every node of the tree, every two admissible strategies walk to the same result. -/
def IntervalTree.StrategiesAgree (tree : IntervalTree T V) : Prop :=
  ∀ (C C' : Cutoffs T), C.Admissible → C'.Admissible → ∀ (query : Interval T),
    ∀ idx < tree.nodes.length, ∀ {σ B : Type} (callback : σ → Interval T × V → σ × ControlFlow B)
      (s : σ), ∃ r, tree.walk callback C query tree.nodes.length (UInt32.ofNat idx) s = .ok r ∧
        tree.walk callback C' query tree.nodes.length (UInt32.ofNat idx) s = .ok r

theorem Built.strategiesAgree {input : List (Interval T × V)} (h : Built input tree t) :
    tree.StrategiesAgree := by
  intro C C' hC hC' query idx hidx σ B callback s
  have hnodes : tree.nodes.length = t.numNodes := by
    rw [h.stores.nodes, length_flatNodes, numNodes_centers]
  obtain ⟨d, c, l, r, hrep, hc, hs⟩ := (h.stores.represents h.centered).exists_node
    (P := fun t => Centered startOf stopOf (centers t) ∧ All (Run.Sorted stopOf) t)
    (fun c l r h => ⟨⟨h.1.2.1, h.2.2.1⟩, h.1.2.2, h.2.2.2⟩) ⟨h.centered, h.sorted⟩ idx.zero_le
    (by omega)
  have hfuel : (BinaryTree.node c l r).numNodes ≤ tree.nodes.length := by
    have := hrep.nodes.length_le
    rw [length_flatNodes, numNodes_centers] at this
    omega
  exact ⟨_, hrep.walk_eq hC hc hs hrep.rootIdx_ne_null hfuel s,
    hrep.walk_eq hC' hc hs hrep.rootIdx_ne_null hfuel s⟩

end

variable {tree : IntervalTree Int64 V} {query : Interval Int64}
  {t : BinaryTree (Run Int64 (Interval Int64 × V))}

/-! ## `query_simd` -/

theorem Built.querySimd_eq {input : List (Interval Int64 × V)} (h : Built input tree t)
    (target : Target) {σ B : Type} (callback : σ → Interval Int64 × V → σ × ControlFlow B)
    (query : Interval Int64) (s : σ) :
    tree.querySimd target callback query s = .ok (feed callback s (queryHits query t)) :=
  h.walk_eq callback (simd_exact target).admissible query s

/-- For every callback the two entry points return the same and make the same calls. -/
def IntervalTree.SimdAgrees (tree : IntervalTree Int64 V) : Prop :=
  ∀ (target : Target) (query : Interval Int64) {σ B : Type}
    (callback : σ → Interval Int64 × V → σ × ControlFlow B) (s : σ), ∃ r calls,
      tree.queryWith callback query s = .ok r ∧ tree.querySimd target callback query s = .ok r ∧
      tree.queryWith (logged callback) query (s, []) = .ok ((r.1, calls), r.2) ∧
      tree.querySimd target (logged callback) query (s, []) = .ok ((r.1, calls), r.2)

theorem Built.simdAgrees {input : List (Interval Int64 × V)} (h : Built input tree t) :
    tree.SimdAgrees := by
  intro target query σ B callback s
  have hlog := feed_logged callback s [] (queryHits query t)
  rw [List.nil_append] at hlog
  exact ⟨_, _, h.queryWith_eq callback query s, h.querySimd_eq target callback query s,
    hlog ▸ h.queryWith_eq (logged callback) query (s, []),
    hlog ▸ h.querySimd_eq target (logged callback) query (s, [])⟩

/-! ## `count_overlaps` -/

theorem countChild_eq {count : UInt32 → Exec Nat} {base d : Nat}
    {child : BinaryTree (Run Int64 (Interval Int64 × V))} (hchild : child = .nil ∨ child = t)
    (hcount : rootIdx base t ≠ NULL → count (rootIdx base t) =
      .ok (hits startOf stopOf query.start query.stop t).length)
    (h : Represents tree base d t) : IntervalTree.countChild count (rootIdx base child) =
      .ok (hits startOf stopOf query.start query.stop child).length := by
  rw [IntervalTree.countChild]
  rcases hchild with rfl | rfl
  · rfl
  · split
    · exact hcount ‹_›
    · rw [h.rootIdx_eq_null_iff.mp (not_not.mp ‹_›)]
      rfl

theorem Represents.count_eq_of_height (target : Target) {base d : Nat}
    (h : Represents tree base d t) (hc : Centered startOf stopOf (centers t))
    (hs : All (Run.Sorted stopOf) t)
    (hne : rootIdx base t ≠ NULL) {fuel : Nat} (hf : t.height ≤ fuel) :
    tree.count target query fuel (rootIdx base t) =
      .ok (hits startOf stopOf query.start query.stop t).length := by
  induction t generalizing base d fuel with
  | nil => exact absurd rfl hne
  | node c l r ihl ihr =>
    rw [BinaryTree.height] at hf
    obtain ⟨fuel, rfl⟩ : ∃ f, fuel = f + 1 := ⟨fuel - 1, by omega⟩
    have hlf : l.height ≤ fuel := by omega
    have hrf : r.height ≤ fuel := by omega
    have hexact := simd_exact target
    rw [IntervalTree.count, IntervalTree.countBy, ← IntervalTree.count]
    by_cases hle : maxHi stopOf c.toCenter (centers l) (centers r) ≤ query.start
    · rw [h.visit_pruned hle, ok_bind, hits_of_pruned hc hs hle]
      rfl
    · obtain ⟨scan, hvisit, -, hlen⟩ :=
        h.visit_eq hexact.admissible hc.1.2.2.1 hs.1 (not_le.mp hle)
      have hleft := countChild_eq (leftFor_cases query.start c l)
        (fun hne => ihl h.left hc.2.1 hs.2.1 hne hlf) h.left
      have hright := countChild_eq (rightFor_cases query.start query.stop c r)
        (fun hne => ihr h.right hc.2.2 hs.2.2 hne hrf) h.right
      rw [hvisit, ok_bind]
      dsimp only
      rw [hleft, ok_bind, hright, ok_bind, hlen hexact, hits_node, List.length_append,
        List.length_append, Nat.add_assoc]
      rfl

theorem Represents.count_eq (target : Target) {base d : Nat} (h : Represents tree base d t)
    (hc : Centered startOf stopOf (centers t)) (hs : All (Run.Sorted stopOf) t)
    (hne : rootIdx base t ≠ NULL) {fuel : Nat} (hf : t.numNodes ≤ fuel) :
    tree.count target query fuel (rootIdx base t) =
      .ok (hits startOf stopOf query.start query.stop t).length :=
  h.count_eq_of_height target hc hs hne (t.height_le_numNodes.trans hf)

theorem Built.countOverlaps_eq {input : List (Interval Int64 × V)} (h : Built input tree t)
    (target : Target) (query : Interval Int64) :
    tree.countOverlaps target query = .ok (queryHits query t).length := by
  rw [IntervalTree.countOverlaps, IntervalTree.unlessEmpty]
  split
  · rw [h.queryHits_eq_nil ‹_›]
    rfl
  · rename_i hcase
    obtain ⟨hq, hne⟩ := not_or.mp hcase
    have hroot := h.rootIdx_eq_zero hne
    rw [queryHits, if_pos (not_le.mp hq), h.stores.nodes, length_flatNodes, numNodes_centers,
      ← hroot]
    exact (h.stores.represents h.centered).count_eq target h.centered h.sorted
      (by rw [hroot]; decide) le_rfl

namespace IntervalTreeBuilder

/-- **The SIMD path equals the plain one**, and in general the strategy does not matter. -/
theorem build_querySimd (V : Type) :
    (∀ (self : IntervalTreeBuilder Int64 V) (sorts : Sorts Int64 V),
      self.intervals.length < SIZE_LIMIT →
        ∃ tree, self.build sorts = .ok tree ∧ tree.SimdAgrees) ∧
    ∀ (T : Type) [LinearOrder T] (self : IntervalTreeBuilder T V) (sorts : Sorts T V),
      self.intervals.length < SIZE_LIMIT →
        ∃ tree, self.build sorts = .ok tree ∧ tree.StrategiesAgree := by
  constructor
  · intro self sorts h
    obtain ⟨tree, t, hbuild, hb⟩ := build_ok sorts h
    exact ⟨tree, hbuild, hb.simdAgrees⟩
  · intro T _ self sorts h
    obtain ⟨tree, t, hbuild, hb⟩ := build_ok sorts h
    exact ⟨tree, hbuild, hb.strategiesAgree⟩

theorem build_querySimd_ties :
    let self : IntervalTreeBuilder Int64 Nat := ⟨[(⟨1, 4⟩, 0), (⟨1, 2⟩, 1), (⟨-3, 4⟩, 2)]⟩
    (∃ tree, self.build (.stable Int64 Nat) = .ok tree ∧ tree.SimdAgrees) ∧
      ∃ tree, self.build (.stable Int64 Nat) = .ok tree ∧ tree.StrategiesAgree :=
  ⟨(build_querySimd Nat).1 _ _ (by decide), (build_querySimd Nat).2 Int64 _ _ (by decide)⟩

/-- **`count_overlaps` is exact**, on every machine. -/
theorem build_countOverlaps (input : List (Interval Int64 × V)) (sorts : Sorts Int64 V)
    (target : Target) (h : input.length < SIZE_LIMIT) (query : Interval Int64) :
    ∃ tree, (new.insertAll input).build sorts = .ok tree ∧
      tree.countOverlaps target query =
        .ok (input.countP fun e => decide (e.1.Shares query)) := by
  rw [new_insertAll]
  obtain ⟨tree, t, hbuild, hb⟩ :=
    build_ok sorts (show (mk input).intervals.length < SIZE_LIMIT from h)
  refine ⟨tree, hbuild, ?_⟩
  rw [hb.countOverlaps_eq, (hb.queryHits_perm query).length_eq, List.countP_eq_length_filter]

theorem build_countOverlaps_extremes :
    let input : List (Interval Int64 × Nat) :=
      [(⟨Int64.minValue, Int64.maxValue⟩, 0), (⟨5, 5⟩, 1), (⟨4, 6⟩, 2), (⟨4, 6⟩, 3), (⟨9, 2⟩, 4)]
    ∃ tree, (new.insertAll input).build (.stable Int64 Nat) = .ok tree ∧
      tree.countOverlaps (.x86_64 Level.AVX2) ⟨5, Int64.maxValue⟩ =
        .ok (input.countP fun e => decide (e.1.Shares ⟨5, Int64.maxValue⟩)) :=
  build_countOverlaps _ _ _ (by decide) _

end IntervalTreeBuilder

end SimdIntervalTree
