import SimdIntervalTree.Traversal.Depth
import SimdIntervalTree.Traversal.Strategies

/-!
# How deep the traversals nest

`walk` and `count` call themselves for the children of a node. Their fuel bounds how deep the calls
nest, and one call a level is enough, so they need a logarithmic stack.
-/

namespace SimdIntervalTree

open Exec CenterTree ControlFlow IntervalTreeBuilder

variable {T V σ B : Type}

namespace IntervalTree

/-- `query_with` or `query_simd`, with at most `frames` calls of `walk` open at a time. -/
def queryWithWithin [LinearOrder T] (self : IntervalTree T V) (frames : Nat)
    (callback : σ → Interval T × V → σ × ControlFlow B) (C : Cutoffs T) (query : Interval T)
    (s : σ) : Exec (σ × ControlFlow B) :=
  self.unlessEmpty query (s, .Continue) (self.walk callback C query frames 0 s)

/-- `count_overlaps`, with at most `frames` calls of `count` open at a time. -/
def countOverlapsWithin (self : IntervalTree Int64 V) (frames : Nat) (target : Target)
    (query : Interval Int64) : Exec Nat :=
  self.unlessEmpty query 0 (self.count target query frames 0)

/-- A call of `walk` a level is enough. -/
def WalksShallow [LinearOrder T] (tree : IntervalTree T V) : Prop :=
  ∀ (C : Cutoffs T), C.Admissible → ∀ (query : Interval T) {σ B : Type}
    (callback : σ → Interval T × V → σ × ControlFlow B) (s : σ), ∃ r,
      tree.queryWith callback query s = .ok r ∧
      tree.queryWithWithin (Nat.log 2 tree.len + 1) callback C query s = .ok r

/-- So is a call of `count` a level, and the strategy of `query_simd` is one that walks so. -/
def SimdShallow (tree : IntervalTree Int64 V) : Prop :=
  ∀ (target : Target) (query : Interval Int64),
    (∃ k, tree.countOverlaps target query = .ok k ∧
      tree.countOverlapsWithin (Nat.log 2 tree.len + 1) target query = .ok k) ∧
    ∀ {σ B : Type} (callback : σ → Interval Int64 × V → σ × ControlFlow B) (s : σ), ∃ r,
      tree.querySimd target callback query s = .ok r ∧
      tree.queryWithWithin (Nat.log 2 tree.len + 1) callback (Simd target) query s = .ok r

end IntervalTree

namespace Built

theorem height_le [LinearOrder T] {input : List (Interval T × V)} {tree : IntervalTree T V}
    {t : BinaryTree (Run T (Interval T × V))} (h : Built input tree t) :
    t.height ≤ Nat.log 2 tree.len + 1 := by
  rw [h.len_eq, ← height_centers]
  exact height_le_log h.halving h.centered

theorem queryWithWithin_eq [LinearOrder T] {input : List (Interval T × V)} {tree : IntervalTree T V}
    {t : BinaryTree (Run T (Interval T × V))} (h : Built input tree t) {C : Cutoffs T}
    (hC : C.Admissible) (callback : σ → Interval T × V → σ × ControlFlow B) (query : Interval T)
    (s : σ) : tree.queryWithWithin (Nat.log 2 tree.len + 1) callback C query s =
      .ok (feed callback s (queryHits query t)) := by
  rw [IntervalTree.queryWithWithin, IntervalTree.unlessEmpty]
  split
  · rw [h.queryHits_eq_nil ‹_›]
    rfl
  · rename_i hcase
    obtain ⟨hq, hne⟩ := not_or.mp hcase
    have hroot := h.rootIdx_eq_zero hne
    rw [queryHits, if_pos (not_le.mp hq), ← hroot]
    exact (h.stores.represents h.centered).walk_eq_of_height hC h.centered h.sorted
      (by rw [hroot]; decide) h.height_le s

theorem countOverlapsWithin_eq {input : List (Interval Int64 × V)} {tree : IntervalTree Int64 V}
    {t : BinaryTree (Run Int64 (Interval Int64 × V))} (h : Built input tree t) (target : Target)
    (query : Interval Int64) :
    tree.countOverlapsWithin (Nat.log 2 tree.len + 1) target query =
      .ok (queryHits query t).length := by
  rw [IntervalTree.countOverlapsWithin, IntervalTree.unlessEmpty]
  split
  · rw [h.queryHits_eq_nil ‹_›]
    rfl
  · rename_i hcase
    obtain ⟨hq, hne⟩ := not_or.mp hcase
    have hroot := h.rootIdx_eq_zero hne
    rw [queryHits, if_pos (not_le.mp hq), ← hroot]
    exact (h.stores.represents h.centered).count_eq_of_height target h.centered h.sorted
      (by rw [hroot]; decide) h.height_le

end Built

namespace IntervalTreeBuilder

/-- **The traversals need a logarithmic stack.** In every tree they return what they return with
any stack if there is room for one call a level. -/
theorem build_query_frames (V : Type) :
    (∀ (T : Type) [LinearOrder T] (self : IntervalTreeBuilder T V) (sorts : Sorts T V),
      self.intervals.length < SIZE_LIMIT →
        ∃ tree, self.build sorts = .ok tree ∧ tree.WalksShallow) ∧
    ∀ (self : IntervalTreeBuilder Int64 V) (sorts : Sorts Int64 V),
      self.intervals.length < SIZE_LIMIT →
        ∃ tree, self.build sorts = .ok tree ∧ tree.SimdShallow := by
  constructor
  · intro T _ self sorts h
    obtain ⟨tree, t, hbuild, hb⟩ := build_ok sorts h
    exact ⟨tree, hbuild, fun C hC query σ B callback s => ⟨_, hb.queryWith_eq callback query s,
      hb.queryWithWithin_eq hC callback query s⟩⟩
  · intro self sorts h
    obtain ⟨tree, t, hbuild, hb⟩ := build_ok sorts h
    refine ⟨tree, hbuild, fun target query => ⟨⟨_, hb.countOverlaps_eq target query,
      hb.countOverlapsWithin_eq target query⟩, fun callback s => ?_⟩⟩
    exact ⟨_, hb.querySimd_eq target callback query s,
      hb.queryWithWithin_eq (simd_exact target).admissible callback query s⟩

theorem build_query_frames_nested :
    let self : IntervalTreeBuilder Int64 Nat :=
      ⟨[(⟨0, 9⟩, 0), (⟨1, 2⟩, 1), (⟨-3, 8⟩, 2), (⟨4, 5⟩, 3)]⟩
    (∃ tree, self.build (.stable Int64 Nat) = .ok tree ∧ tree.WalksShallow) ∧
      ∃ tree, self.build (.stable Int64 Nat) = .ok tree ∧ tree.SimdShallow :=
  ⟨(build_query_frames Nat).1 Int64 _ _ (by decide), (build_query_frames Nat).2 _ _ (by decide)⟩

end IntervalTreeBuilder

end SimdIntervalTree
