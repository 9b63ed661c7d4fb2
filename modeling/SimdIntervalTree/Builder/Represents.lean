import SimdIntervalTree.Builder.Spec

/-!
# Subtrees in the arrays

`Represents tree base d t`: the nodes of `t` are numbered from `base` on and its items stored from
`d` on. It holds of the whole tree at `0` and `0` and passes to the children, so a traversal that
starts at the root meets represented subtrees only.
-/

namespace SimdIntervalTree

open Exec CenterTree IntervalTreeBuilder

variable {T V : Type} [LinearOrder T]

omit [LinearOrder T] in
theorem rootIdx_centers {base : Nat} {t : BinaryTree (Run T (Interval T × V))} :
    rootIdx base (centers t) = rootIdx base t := rootIdx_map

structure Represents (tree : IntervalTree T V) (base d : Nat)
    (t : BinaryTree (Run T (Interval T × V))) : Prop where
  nodes : Segment tree.nodes base (flatNodes stopOf base d (centers t))
  starts : Segment tree.starts d ((items (centers t)).map startOf)
  ends : Segment tree.ends d ((items (centers t)).map stopOf)
  values : Segment tree.values d ((items (centers t)).map Prod.snd)
  endsDesc : Segment tree.endsDesc d ((byEnds t).map fun e => stopOf e.1)
  byEndIndices : Segment tree.byEndIndices d ((byEnds t).map fun e => UInt32.ofNat e.2)
  numbered : Numbered d t
  nodeSize : base + t.numNodes < UInt32.size
  size : d + (items (centers t)).length < UInt32.size

variable {tree : IntervalTree T V} {base d : Nat} {c : Run T (Interval T × V)}
  {l r t : BinaryTree (Run T (Interval T × V))}

theorem Stores.represents (h : Stores tree t) (hc : Centered startOf stopOf (centers t)) :
    Represents tree 0 0 t := by
  have hlimit : IntervalTreeBuilder.SIZE_LIMIT < UInt32.size := by decide
  have hnodes := numNodes_le_length_items hc
  have hsize := h.size
  rw [numNodes_centers] at hnodes
  exact {
    nodes := h.nodes ▸ .refl
    starts := h.starts ▸ .refl
    ends := h.ends ▸ .refl
    values := h.values ▸ .refl
    endsDesc := h.endsDesc ▸ .refl
    byEndIndices := h.byEndIndices ▸ .refl
    numbered := h.numbered
    nodeSize := by omega
    size := by omega }

namespace Represents

theorem left (h : Represents tree base d (.node c l r)) :
    Represents tree (base + 1) (d + c.own.length) l := by
  obtain ⟨h1, h2, h3, h4, h5, h6, hn, hb, hs⟩ := h
  simp only [centers_node, flatNodes, items_node, byEnds, List.map_append] at h1 h2 h3 h4 h5 h6
  have hlen : c.byEnd.length = c.own.length := by rw [hn.1.length_eq, List.length_zipIdx]
  rw [BinaryTree.numNodes] at hb
  rw [centers_node, items_node, List.length_append, List.length_append] at hs
  refine ⟨?_, ?_, ?_, ?_, ?_, ?_, hn.2.1, by omega, by omega⟩
  · exact h1.tail.left
  · simpa using h2.right.left
  · simpa using h3.right.left
  · simpa using h4.right.left
  · simpa [hlen] using h5.right.left
  · simpa [hlen] using h6.right.left

theorem right (h : Represents tree base d (.node c l r)) :
    Represents tree (base + 1 + l.numNodes) (d + c.own.length + (items (centers l)).length) r := by
  obtain ⟨h1, h2, h3, h4, h5, h6, hn, hb, hs⟩ := h
  simp only [centers_node, flatNodes, items_node, byEnds, List.map_append] at h1 h2 h3 h4 h5 h6
  have hlen : c.byEnd.length = c.own.length := by rw [hn.1.length_eq, List.length_zipIdx]
  have hlenl := hn.2.1.length_byEnds
  rw [BinaryTree.numNodes] at hb
  rw [centers_node, items_node, List.length_append, List.length_append] at hs
  refine ⟨?_, ?_, ?_, ?_, ?_, ?_, hn.2.2, by omega, by omega⟩
  · simpa [numNodes_centers] using h1.tail.right
  · simpa using h2.right.right
  · simpa using h3.right.right
  · simpa using h4.right.right
  · simpa [hlen, hlenl] using h5.right.right
  · simpa [hlen, hlenl] using h6.right.right

theorem node (h : Represents tree base d (.node c l r)) :
    tree.nodes[base]? = some (flatNode stopOf base d c.toCenter (centers l) (centers r)) := by
  have := h.nodes.getElem? (i := 0) (by simp [flatNodes])
  simpa [flatNodes] using this

/-- The root of a represented subtree has an index of its own. -/
theorem toNat_rootIdx (h : Represents tree base d (.node c l r)) :
    (rootIdx base (.node c l r)).toNat = base :=
  toNat_ofNat ((Nat.le_add_right _ _).trans_lt h.nodeSize)

theorem rootIdx_ne_null (h : Represents tree base d (.node c l r)) :
    rootIdx base (.node c l r) ≠ NULL := by
  have := h.nodeSize
  rw [BinaryTree.numNodes] at this
  exact ofNat_ne_null (by omega)

theorem rootIdx_eq_null_iff (h : Represents tree base d t) : rootIdx base t = NULL ↔ t = .nil := by
  cases t with
  | nil => exact iff_of_true rfl rfl
  | node c l r => exact iff_of_false h.rootIdx_ne_null nofun

/-! ## The runs of a node -/

theorem length_own (h : Represents tree base d (.node c l r)) :
    d + c.own.length < UInt32.size := by
  have := h.size
  rw [centers_node, items_node, List.length_append] at this
  omega

theorem length_byEnd (h : Represents tree base d (.node c l r)) :
    c.byEnd.length = c.own.length := by
  rw [h.numbered.1.length_eq, List.length_zipIdx]

theorem toNat_dataBegin (h : Represents tree base d (.node c l r)) :
    (UInt32.ofNat d).toNat = d :=
  toNat_ofNat ((Nat.le_add_right _ _).trans_lt h.size)

theorem toNat_dataEnd (h : Represents tree base d (.node c l r)) :
    (UInt32.ofNat (d + c.own.length)).toNat = d + c.own.length :=
  toNat_ofNat h.length_own

theorem ownStarts (h : Represents tree base d (.node c l r)) :
    Segment tree.starts d (c.own.map startOf) := by
  have := h.starts
  rw [centers_node, items_node, List.map_append] at this
  exact this.left

theorem ownEnds (h : Represents tree base d (.node c l r)) :
    Segment tree.ends d (c.own.map stopOf) := by
  have := h.ends
  rw [centers_node, items_node, List.map_append] at this
  exact this.left

theorem ownValues (h : Represents tree base d (.node c l r)) :
    Segment tree.values d (c.own.map Prod.snd) := by
  have := h.values
  rw [centers_node, items_node, List.map_append] at this
  exact this.left

theorem ownEndsDesc (h : Represents tree base d (.node c l r)) :
    Segment tree.endsDesc d (c.byEnd.map fun e => stopOf e.1) := by
  have := h.endsDesc
  rw [byEnds, List.map_append] at this
  exact this.left

theorem ownByEndIndices (h : Represents tree base d (.node c l r)) :
    Segment tree.byEndIndices d (c.byEnd.map fun e => UInt32.ofNat e.2) := by
  have := h.byEndIndices
  rw [byEnds, List.map_append] at this
  exact this.left

/-- Every node index in the range of a represented subtree is the root of a represented subtree. A
property of the subtree that passes to the children holds of that one too. -/
theorem exists_node {P : BinaryTree (Run T (Interval T × V)) → Prop}
    (hP : ∀ c l r, P (.node c l r) → P l ∧ P r) (h : Represents tree base d t) (ht : P t) {i : Nat}
    (hle : base ≤ i) (hlt : i < base + t.numNodes) :
    ∃ d' c l r, Represents tree i d' (.node c l r) ∧ P (.node c l r) := by
  induction t generalizing base d with
  | nil => rw [BinaryTree.numNodes] at hlt; omega
  | node c l r ihl ihr =>
    rw [BinaryTree.numNodes] at hlt
    obtain ⟨hl, hr⟩ := hP c l r ht
    rcases Nat.eq_or_lt_of_le hle with rfl | hgt
    · exact ⟨d, c, l, r, h, ht⟩
    · rcases Nat.lt_or_ge i (base + 1 + l.numNodes) with hi | hi
      · exact ihl h.left hl hgt hi
      · exact ihr h.right hr hi (by omega)

end Represents

end SimdIntervalTree
