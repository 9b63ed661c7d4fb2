import SimdIntervalTree.Builder.WellFormed
import SimdIntervalTree.Traversal.Iterator

/-!
# Depth and stack

The node indices of a built tree unfold to a halving tree, so it has logarithmically many levels.
`AtLoop` and `Within` are the states an iterator goes through: at the head of the loop of `next`,
and between any two steps of its body.
-/

namespace SimdIntervalTree

open Exec CenterTree IntervalTreeBuilder

variable {T V : Type}

namespace IntervalTree

/-- The tree of nodes below an index. -/
inductive Decodes (tree : IntervalTree T V) : UInt32 → BinaryTree (Node T) → Prop
  | null : Decodes tree NULL .nil
  | node : tree.nodeAt? idx = some node → Decodes tree node.left l → Decodes tree node.right r →
    Decodes tree idx (.node node l r)

/-- The number of intervals in a tree of nodes: the sub-range its root was built from. -/
def subRange : BinaryTree (Node T) → Nat
  | .nil => 0
  | .node node l r => node.dataRange.length + (subRange l + subRange r)

end IntervalTree

variable [LinearOrder T] {tree : IntervalTree T V} {query : Interval T} {base d : Nat}
  {t : BinaryTree (Run T (Interval T × V))}

/-- The nodes of a represented subtree, as a tree. -/
def nodeTree : Nat → Nat → BinaryTree (Run T (Interval T × V)) → BinaryTree (Node T)
  | _, _, .nil => .nil
  | base, d, .node c l r => .node (flatNode stopOf base d c.toCenter (centers l) (centers r))
    (nodeTree (base + 1) (d + c.own.length) l)
    (nodeTree (base + 1 + l.numNodes) (d + c.own.length + (items (centers l)).length) r)

namespace Represents

theorem decodes (h : Represents tree base d t) :
    tree.Decodes (rootIdx base t) (nodeTree base d t) := by
  induction t generalizing base d with
  | nil => exact .null
  | node c l r ihl ihr =>
    have hl := ihl h.left
    have hr := ihr h.right
    rw [← rootIdx_centers] at hl hr
    refine .node h.nodeAt? hl ?_
    simp only [flatNode, numNodes_centers]
    exact hr

theorem subRange_nodeTree (h : Represents tree base d t) :
    IntervalTree.subRange (nodeTree base d t) = (items (centers t)).length := by
  induction t generalizing base d with
  | nil => rfl
  | node c l r ihl ihr =>
    rw [nodeTree, IntervalTree.subRange, ihl h.left, ihr h.right, h.dataRange_eq,
      List.length_range', centers_node, items_node, List.length_append, List.length_append]

theorem halving_nodeTree (h : Represents tree base d t) (hh : Halving (centers t)) :
    AllSub (fun node l r =>
      IntervalTree.subRange l ≤ IntervalTree.subRange (.node node l r) / 2 ∧
        IntervalTree.subRange r ≤ IntervalTree.subRange (.node node l r) / 2)
      (nodeTree base d t) := by
  induction t generalizing base d with
  | nil => trivial
  | node c l r ihl ihr =>
    refine ⟨?_, ihl h.left hh.2.1, ihr h.right hh.2.2⟩
    have hroot := h.subRange_nodeTree
    rw [nodeTree] at hroot
    dsimp only
    rw [hroot, h.left.subRange_nodeTree, h.right.subRange_nodeTree]
    exact hh.1

end Represents

theorem height_nodeTree : (nodeTree base d t).height = (centers t).height := by
  induction t generalizing base d with
  | nil => rfl
  | node c l r ihl ihr =>
    rw [nodeTree, BinaryTree.height, ihl, ihr, centers_node, BinaryTree.height]

theorem height_le_log {lo hi : Interval T × V → T} {t : BinaryTree (Center T (Interval T × V))}
    (h : Halving t) (hc : Centered lo hi t) : t.height ≤ Nat.log 2 (items t).length + 1 := by
  rcases two_pow_height_le h hc with hle | rfl
  · have hpos : 0 < 2 * (items t).length := (Nat.pow_pos (by omega)).trans_le hle
    have := (Nat.le_log_iff_pow_le (by omega) hpos.ne').mpr hle
    rwa [Nat.mul_comm, Nat.log_mul_base (by omega) (by omega)] at this
  · exact Nat.zero_le _

namespace QueryIter

/-- The states at the head of the loop of `next`, over any number of calls. -/
inductive AtLoop (tree : IntervalTree T V) (query : Interval T) : QueryIter T V → Prop
  | new : tree.query query = .ok it → AtLoop tree query it
  | returned : AtLoop tree query it → it.next = .ok (hit, it') → AtLoop tree query it'
  | expanded : AtLoop tree query it → it.tree.nextHit it.scan it.query = .ok (none, scan') →
    it.stackLen ≠ 0 → { it with scan := scan' }.expand = .ok it' → AtLoop tree query it'

/-- The states at every point of the iteration. -/
inductive Within (tree : IntervalTree T V) (query : Interval T) : QueryIter T V → Prop
  | atLoop : AtLoop tree query it → Within tree query it
  | scanned : AtLoop tree query it → it.tree.nextHit it.scan it.query = .ok (hit, scan') →
    Within tree query { it with scan := scan' }
  | popped : AtLoop tree query it → it.tree.nextHit it.scan it.query = .ok (none, scan') →
    it.stackLen ≠ 0 → Within tree query { it with scan := scan' }.popped
  | pushedRight : AtLoop tree query it → it.tree.nextHit it.scan it.query = .ok (none, scan') →
    it.stackLen ≠ 0 → index it.stack (it.stackLen - 1) = .ok nodeIdx →
    it.tree.visit Scalar nodeIdx it.query = .ok (some visit) →
    pushChild visit.right { it.popped with scan := visit.scan } = .ok it' →
    Within tree query it'

variable {n : Nat} {it it' : QueryIter T V} {rest : List (Interval T × V)} {scan' : Scan}
  {ts : List (BinaryTree (Run T (Interval T × V)))}

theorem Ready.stackLen_le (h : Ready tree query n it rest ts) :
    it.stackLen ≤ Nat.log 2 n + 1 := by
  rw [h.stackLen]
  exact h.bound.length_le

/-- An exhausted scan leaves the iterator ready with nothing but its stack. -/
theorem Ready.exhausted (h : Ready tree query n it rest ts)
    (hn : it.tree.nextHit it.scan it.query = .ok (none, scan')) :
    Ready tree query n { it with scan := scan' } [] ts := by
  obtain ⟨scan'', hn', h'⟩ := h.nextHit
  rw [hn] at hn'
  cases rest with
  | nil => cases hn'; exact h'
  | cons => cases hn'

theorem Ready.eq_concat (h : Ready tree query n it rest ts) (hlen : it.stackLen ≠ 0) :
    ∃ ts' t, ts = ts' ++ [t] := by
  rcases List.eq_nil_or_concat ts with rfl | ⟨ts, t, rfl⟩
  · exact absurd h.stackLen hlen
  · exact ⟨ts, t, List.concat_eq_append⟩

theorem AtLoop.ready {input : List (Interval T × V)} (hb : Built input tree t)
    (h : AtLoop tree query it) : ∃ rest ts,
      Ready tree query (items (centers t)).length it rest ts ∧
        stackSize ts ≤ tree.nodes.length := by
  induction h with
  | new hit =>
    obtain ⟨it', ts, hit', hready, hsize, -⟩ := ready_new hb query
    rw [hit] at hit'
    cases hit'
    exact ⟨[], ts, hready, hsize⟩
  | returned _ hnext ih =>
    obtain ⟨rest, ts, hready, hsize⟩ := ih
    obtain ⟨it', rest', ts', hnext', hready', -, hsize'⟩ := next_spec hready hsize
    rw [hnext] at hnext'
    cases hnext'
    exact ⟨rest', ts', hready', hsize'.trans hsize⟩
  | expanded _ hscan hlen hexpand ih =>
    obtain ⟨rest, ts, hready, hsize⟩ := ih
    obtain ⟨ts, t, rfl⟩ := hready.eq_concat hlen
    obtain ⟨it', rest', ts', hexpand', hready', -, hsize'⟩ := (hready.exhausted hscan).expand
    rw [hexpand] at hexpand'
    cases hexpand'
    exact ⟨rest', ts', hready', hsize'.le.trans hsize⟩

theorem Within.ready {input : List (Interval T × V)} (hb : Built input tree t)
    (h : Within tree query it) :
    ∃ rest ts, Ready tree query (items (centers t)).length it rest ts := by
  cases h with
  | atLoop h =>
    obtain ⟨rest, ts, hready, -⟩ := h.ready hb
    exact ⟨rest, ts, hready⟩
  | scanned h hscan =>
    obtain ⟨rest, ts, hready, -⟩ := h.ready hb
    obtain ⟨scan', hscan', hready'⟩ := hready.nextHit
    rw [hscan] at hscan'
    cases hscan'
    exact ⟨_, ts, hready'⟩
  | popped h hscan hlen =>
    obtain ⟨rest, ts, hready, -⟩ := h.ready hb
    obtain ⟨ts, t, rfl⟩ := hready.eq_concat hlen
    exact ⟨[], ts, (hready.exhausted hscan).popped⟩
  | pushedRight h hscan hlen hidx hvisit hpush =>
    obtain ⟨rest, ts, hready, -⟩ := h.ready hb
    obtain ⟨ts, u, rfl⟩ := hready.eq_concat hlen
    have hready' := hready.exhausted hscan
    obtain ⟨base, hget, hsub⟩ := hready.stack ts.length u (by simp)
    rw [hready.stackLen, List.length_append, List.length_singleton, Nat.add_sub_cancel,
      index_eq_ok, hget] at hidx
    cases hidx
    rw [hready.tree_eq, hready.query_eq] at hvisit
    obtain ⟨d, hrep⟩ := hsub.represents
    cases u with
    | nil => exact absurd rfl hsub.ne_nil
    | node c l r =>
      by_cases hle : maxHi stopOf c.toCenter (centers l) (centers r) ≤ query.start
      · rw [hrep.visit_pruned hle] at hvisit
        cases hvisit
      · obtain ⟨visit', self₁, self₂, hvisit', e₁, h₁, -⟩ := hready'.descend hsub (not_le.mp hle)
        rw [hvisit] at hvisit'
        cases hvisit'
        cases hpush.symm.trans e₁
        exact ⟨_, _, h₁⟩

end QueryIter

/-! ## The bounds -/

/-- The tree below node 0 halves at every level, and no iteration ever stacks more nodes than it has
levels, nor writes past the end of its stack. -/
structure IntervalTree.Shallow (tree : IntervalTree T V) : Prop where
  halving : ∃ s, tree.Decodes (if tree.nodes.isEmpty then NULL else 0) s ∧
    subRange s = tree.len ∧
    AllSub (fun node l r => subRange l ≤ subRange (.node node l r) / 2 ∧
      subRange r ≤ subRange (.node node l r) / 2) s ∧
    s.height ≤ Nat.log 2 tree.len + 1
  levels : Nat.log 2 tree.len + 1 ≤ 32
  stack : ∀ (query : Interval T) it, QueryIter.Within tree query it →
    it.stackLen ≤ Nat.log 2 tree.len + 1
  safe : ∀ (query : Interval T), (∃ it, tree.query query = .ok it) ∧
    ∀ it, QueryIter.AtLoop tree query it → ∃ r, it.next = .ok r

theorem Built.shallow {input : List (Interval T × V)} (h : Built input tree t) : tree.Shallow := by
  have hrep := h.stores.represents h.centered
  have hlen : tree.len = (items (centers t)).length := by
    rw [IntervalTree.len, h.stores.values, List.length_map]
  have hroot : (if tree.nodes.isEmpty then NULL else 0) = rootIdx 0 t := by
    cases t with
    | nil => exact if_pos (h.nodes_isEmpty.mpr rfl)
    | node => exact if_neg fun hempty => by cases h.nodes_isEmpty.mp hempty
  refine ⟨⟨nodeTree 0 0 t, ?_, ?_, hrep.halving_nodeTree h.halving, ?_⟩, ?_, ?_, ?_⟩
  · rw [hroot]
    exact hrep.decodes
  · rw [hlen]
    exact hrep.subRange_nodeTree
  · rw [height_nodeTree, hlen]
    exact height_le_log h.halving h.centered
  · have hsize := hrep.size
    rw [hlen]
    exact QueryIter.log_add_one_le (by omega)
  · intro query it hit
    obtain ⟨rest, ts, hready⟩ := hit.ready h
    rw [hlen]
    exact hready.stackLen_le
  · intro query
    obtain ⟨it, ts, hit, -⟩ := QueryIter.ready_new h query
    refine ⟨⟨it, hit⟩, fun it hloop => ?_⟩
    obtain ⟨rest, ts, hready, hsize⟩ := hloop.ready h
    obtain ⟨it', -, -, hnext, -⟩ := QueryIter.next_spec hready hsize
    exact ⟨_, hnext⟩

namespace IntervalTreeBuilder

/-- **Depth and stack safety** of every tree that `build` produces. -/
theorem build_shallow (self : IntervalTreeBuilder T V) (sorts : Sorts T V)
    (h : self.intervals.length < SIZE_LIMIT) :
    ∃ tree, self.build sorts = .ok tree ∧ tree.len = (retained self.intervals).length ∧
      tree.Shallow := by
  obtain ⟨tree, t, hbuild, hb⟩ := build_ok sorts h
  exact ⟨tree, hbuild, hb.wellFormed.len, hb.shallow⟩

theorem build_shallow_nested :
    let input : List (Interval Nat × Nat) := [(⟨0, 9⟩, 0), (⟨1, 2⟩, 1), (⟨3, 8⟩, 2), (⟨4, 5⟩, 3)]
    ∃ tree, (mk input).build (.stable Nat Nat) = .ok tree ∧
      tree.len = (retained input).length ∧ tree.Shallow :=
  build_shallow ⟨_⟩ _ (by decide)

end IntervalTreeBuilder

end SimdIntervalTree
