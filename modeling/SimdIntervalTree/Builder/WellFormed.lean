import SimdIntervalTree.Builder.Represents

/-!
# The layout invariant

What a reader of the arrays alone can rely on, without the tree of items they were laid out from.
`InSubtree` follows the child indices.
-/

namespace SimdIntervalTree

open Exec CenterTree IntervalTreeBuilder

variable {T V : Type}

namespace Node

def dataRange (node : Node T) : List Nat :=
  List.range' node.dataBegin.toNat (node.dataEnd.toNat - node.dataBegin.toNat)

def byEndRange (node : Node T) : List Nat :=
  List.range' node.byEndBegin.toNat (node.byEndEnd.toNat - node.byEndBegin.toNat)

/-- The part of an array that lies in the data range. -/
def dataRun {α : Type} (node : Node T) (xs : List α) : List α :=
  (xs.take node.dataEnd.toNat).drop node.dataBegin.toNat

def byEndRun {α : Type} (node : Node T) (xs : List α) : List α :=
  (xs.take node.byEndEnd.toNat).drop node.byEndBegin.toNat

def children (node : Node T) : List Nat :=
  ([node.left, node.right].filter (· ≠ NULL)).map UInt32.toNat

end Node

namespace IntervalTree

def entries (tree : IntervalTree T V) : List (Interval T × V) :=
  (List.zipWith Interval.mk tree.starts tree.ends).zip tree.values

def nodeAt? (tree : IntervalTree T V) (idx : UInt32) : Option (Node T) :=
  if idx = NULL then none else tree.nodes[idx.toNat]?

/-- The position `pos` belongs to the node `idx` or to one below it. -/
inductive InSubtree (tree : IntervalTree T V) (pos : Nat) : UInt32 → Prop
  | own : tree.nodeAt? idx = some node → pos ∈ node.dataRange → InSubtree tree pos idx
  | left : tree.nodeAt? idx = some node → InSubtree tree pos node.left → InSubtree tree pos idx
  | right : tree.nodeAt? idx = some node → InSubtree tree pos node.right → InSubtree tree pos idx

/-- The layout of a tree built from `input`. -/
structure WellFormed [LinearOrder T] (input : List (Interval T × V)) (tree : IntervalTree T V) :
    Prop where
  len : tree.len = (retained input).length
  lengths : tree.starts.length = tree.len ∧ tree.ends.length = tree.len ∧
    tree.endsDesc.length = tree.len ∧ tree.byEndIndices.length = tree.len
  entries : tree.entries.Perm (retained input)
  dataNonempty : ∀ node ∈ tree.nodes, node.dataBegin < node.dataEnd
  dataTiles : tree.nodes.flatMap Node.dataRange = List.range tree.len
  byEndTiles : tree.nodes.flatMap Node.byEndRange = List.range tree.len
  spans : ∀ node ∈ tree.nodes, ∀ pos ∈ node.dataRange, ∃ start stop,
    tree.starts[pos]? = some start ∧ tree.ends[pos]? = some stop ∧
      start ≤ node.pivot ∧ node.pivot < stop
  left : ∀ node ∈ tree.nodes, ∀ pos, tree.InSubtree pos node.left →
    ∃ stop, tree.ends[pos]? = some stop ∧ stop ≤ node.pivot
  right : ∀ node ∈ tree.nodes, ∀ pos, tree.InSubtree pos node.right →
    ∃ start, tree.starts[pos]? = some start ∧ start > node.pivot
  startsAscending : ∀ node ∈ tree.nodes, (node.dataRun tree.starts).Pairwise (· ≤ ·)
  endsDescending : ∀ node ∈ tree.nodes, (node.byEndRun tree.endsDesc).Pairwise (· ≥ ·)
  byEndIndices : ∀ node ∈ tree.nodes,
    ((node.byEndRun tree.byEndIndices).map UInt32.toNat).Perm node.dataRange
  endsDesc : ∀ (p : Nat) (i : UInt32), tree.byEndIndices[p]? = some i →
    ∃ stop, tree.endsDesc[p]? = some stop ∧ tree.ends[i.toNat]? = some stop
  maxEnd : ∀ (idx : UInt32) (node : Node T), tree.nodeAt? idx = some node →
    (∃ pos, tree.InSubtree pos idx ∧ tree.ends[pos]? = some node.maxEnd) ∧
      ∀ pos stop, tree.InSubtree pos idx → tree.ends[pos]? = some stop → stop ≤ node.maxEnd
  childGreater : ∀ (idx : Nat) (node : Node T), tree.nodes[idx]? = some node →
    ∀ child ∈ node.children, idx < child ∧ child < tree.nodes.length
  oneParent : ∀ child, 0 < child → child < tree.nodes.length →
    ∃! idx : Nat, ∃ node : Node T, tree.nodes[idx]? = some node ∧ child ∈ node.children

end IntervalTree

/-- An element of a duplicate-free concatenation lies in one of the parts only. -/
theorem existsUnique_of_nodup_flatMap {α β : Type} {f : α → List β} {xs : List α} {b : β}
    (hnd : (xs.flatMap f).Nodup) (hb : b ∈ xs.flatMap f) :
    ∃! i : Nat, ∃ x : α, xs[i]? = some x ∧ b ∈ f x := by
  obtain ⟨x, hx, hbx⟩ := List.mem_flatMap.mp hb
  obtain ⟨i, hi⟩ := List.mem_iff_getElem?.mp hx
  have hdisj := List.pairwise_iff_getElem.mp (List.nodup_flatMap.mp hnd).2
  refine ⟨i, ⟨x, hi, hbx⟩, ?_⟩
  rintro j ⟨y, hj, hby⟩
  obtain ⟨hi', rfl⟩ := List.getElem?_eq_some_iff.mp hi
  obtain ⟨hj', rfl⟩ := List.getElem?_eq_some_iff.mp hj
  rcases Nat.lt_trichotomy i j with h | h | h
  · exact absurd hby (hdisj i j hi' hj' h hbx)
  · exact h.symm
  · exact absurd hbx (hdisj j i hj' hi' h hby)

/-! ## Lists of nodes -/

section

variable {α : Type} [LinearOrder T] {hi : α → T}

theorem flatMap_dataRange {base d : Nat} {t : BinaryTree (Center T α)}
    (h : d + (items t).length < UInt32.size) :
    (flatNodes hi base d t).flatMap Node.dataRange = List.range' d (items t).length := by
  induction t generalizing base d with
  | nil => rfl
  | node c l r ihl ihr =>
    rw [items_node, List.length_append, List.length_append] at h
    rw [flatNodes, List.flatMap_cons, List.flatMap_append, ihl (by omega), ihr (by omega),
      Node.dataRange]
    simp only [flatNode]
    rw [toNat_ofNat (by omega), toNat_ofNat (by omega), Nat.add_sub_cancel_left, items_node,
      List.length_append, List.length_append, ← List.range'_append_1, ← List.range'_append_1]

theorem byEndRange_eq {node : Node T} (h : node ∈ flatNodes hi base d t) :
    node.byEndRange = node.dataRange := by
  induction t generalizing base d with
  | nil => cases h
  | node c l r ihl ihr =>
    rw [flatNodes, List.mem_cons, List.mem_append] at h
    rcases h with rfl | h | h
    · rfl
    · exact ihl h
    · exact ihr h

/-- The number of the root of a subtree, if there is one. -/
def rootList {β : Type} (base : Nat) : BinaryTree β → List Nat
  | .nil => []
  | .node .. => [base]

theorem mem_rootList {β : Type} {base i : Nat} {t : BinaryTree β} (h : i ∈ rootList base t) :
    i = base ∧ 0 < t.numNodes := by
  cases t with
  | nil => cases h
  | node => exact ⟨List.mem_singleton.mp h, Nat.succ_pos _⟩

theorem map_filter_rootIdx {β : Type} {base : Nat} {t : BinaryTree β}
    (h : base + t.numNodes < UInt32.size) :
    ([rootIdx base t].filter (· ≠ NULL)).map UInt32.toNat = rootList base t := by
  cases t with
  | nil => rfl
  | node x l r =>
    rw [BinaryTree.numNodes] at h
    have hne : UInt32.ofNat base ≠ NULL := ofNat_ne_null (by omega)
    simp [rootList, hne, toNat_ofNat (show base < UInt32.size by omega)]

theorem children_flatNode {base d : Nat} {c : Center T α} {l r : BinaryTree (Center T α)}
    (h : base + (l.numNodes + r.numNodes + 1) < UInt32.size) :
    (flatNode hi base d c l r).children =
      rootList (base + 1) l ++ rootList (base + 1 + l.numNodes) r := by
  rw [← map_filter_rootIdx (t := l) (by omega), ← map_filter_rootIdx (t := r) (by omega),
    ← List.map_append, ← List.filter_append]
  rfl

/-- Root and children together enumerate the numbers of a subtree. -/
theorem children_perm {base d : Nat} {t : BinaryTree (Center T α)}
    (h : base + t.numNodes < UInt32.size) :
    (rootList base t ++ (flatNodes hi base d t).flatMap Node.children).Perm
      (List.range' base t.numNodes) := by
  induction t generalizing base d with
  | nil => exact .nil
  | node c l r ihl ihr =>
    rw [BinaryTree.numNodes] at h ⊢
    have hl := @ihl (base + 1) (d + c.own.length) (by omega)
    have hr := @ihr (base + 1 + l.numNodes) (d + c.own.length + (items l).length) (by omega)
    rw [flatNodes, List.flatMap_cons, List.flatMap_append, children_flatNode h, rootList,
      List.range'_succ, ← List.range'_append_1, List.singleton_append]
    refine .cons _ (.trans ?_ (hl.append hr))
    simp only [List.append_assoc]
    exact (List.perm_append_comm_assoc ..).append_left _

end

/-! ## Subtrees -/

namespace Represents

variable [LinearOrder T] {tree : IntervalTree T V} {base d pos : Nat}
  {c : Run T (Interval T × V)} {l r t : BinaryTree (Run T (Interval T × V))}

theorem nodeAt? (h : Represents tree base d (.node c l r)) :
    tree.nodeAt? (rootIdx base (.node c l r)) =
      some (flatNode stopOf base d c.toCenter (centers l) (centers r)) := by
  rw [IntervalTree.nodeAt?, if_neg h.rootIdx_ne_null, h.toNat_rootIdx, h.node]

theorem dataRange_eq (h : Represents tree base d (.node c l r)) :
    (flatNode stopOf base d c.toCenter (centers l) (centers r)).dataRange =
      List.range' d c.own.length := by
  simp only [Node.dataRange, flatNode, h.toNat_dataBegin, h.toNat_dataEnd,
    Nat.add_sub_cancel_left]

/-- A represented subtree owns exactly its range of positions. -/
theorem inSubtree_iff (h : Represents tree base d t) :
    tree.InSubtree pos (rootIdx base t) ↔ d ≤ pos ∧ pos < d + (items (centers t)).length := by
  induction t generalizing base d with
  | nil =>
    refine iff_of_false (fun hin => ?_) (by simp)
    cases hin with
    | own hn | left hn | right hn => simp [IntervalTree.nodeAt?] at hn
  | node c l r ihl ihr =>
    have hnode := h.nodeAt?
    have hrange := h.dataRange_eq
    have hl := ihl h.left
    have hr := ihr h.right
    rw [← rootIdx_centers] at hl hr
    rw [← numNodes_centers] at hr
    rw [centers_node, items_node, List.length_append, List.length_append]
    constructor
    · intro hin
      cases hin with
      | own hn hp =>
        rw [hnode] at hn
        cases hn
        rw [hrange, List.mem_range'_1] at hp
        omega
      | left hn hp =>
        rw [hnode] at hn
        cases hn
        have := hl.mp hp
        omega
      | right hn hp =>
        rw [hnode] at hn
        cases hn
        have := hr.mp hp
        omega
    · rintro ⟨hle, hlt⟩
      rcases Nat.lt_or_ge pos (d + c.own.length) with hown | hown
      · refine .own hnode ?_
        rw [hrange, List.mem_range'_1]
        exact ⟨hle, hown⟩
      · rcases Nat.lt_or_ge pos (d + c.own.length + (items (centers l)).length) with hp | hp
        · exact .left hnode (hl.mpr ⟨hown, hp⟩)
        · exact .right hnode (hr.mpr ⟨hp, by omega⟩)

/-- The item at a position of a represented subtree. -/
theorem exists_item (h : Represents tree base d t) (hle : d ≤ pos)
    (hlt : pos < d + (items (centers t)).length) : ∃ x ∈ items (centers t),
      tree.starts[pos]? = some (startOf x) ∧ tree.ends[pos]? = some (stopOf x) := by
  have hi : pos - d < (items (centers t)).length := by omega
  have hs := h.starts.getElem? (i := pos - d) (by simpa using hi)
  have he := h.ends.getElem? (i := pos - d) (by simpa using hi)
  rw [Nat.add_sub_cancel' hle, List.getElem?_map, List.getElem?_eq_getElem hi] at hs he
  exact ⟨_, List.getElem_mem hi, hs, he⟩

theorem exists_pos (h : Represents tree base d t) {x : Interval T × V}
    (hx : x ∈ items (centers t)) : ∃ pos, (d ≤ pos ∧ pos < d + (items (centers t)).length) ∧
      tree.ends[pos]? = some (stopOf x) := by
  obtain ⟨i, hi, rfl⟩ := List.mem_iff_getElem.mp hx
  have he := h.ends.getElem? (i := i) (by simpa using hi)
  rw [List.getElem?_map, List.getElem?_eq_getElem hi] at he
  exact ⟨d + i, by omega, he⟩

end Represents

/-! ## The invariant -/

variable [LinearOrder T] {input : List (Interval T × V)} {tree : IntervalTree T V}
  {t : BinaryTree (Run T (Interval T × V))}

/-- What holds of every represented subtree holds of every node. -/
theorem Built.forall_node (h : Built input tree t) {P : Nat → Node T → Prop}
    (H : ∀ i d c l r, Represents tree i d (.node c l r) → Centered startOf stopOf
      (centers (.node c l r)) → c.Sorted stopOf →
      P i (flatNode stopOf i d c.toCenter (centers l) (centers r)))
    {i : Nat} {node : Node T} (hi : tree.nodes[i]? = some node) : P i node := by
  have hlt : i < 0 + t.numNodes := by
    have := (List.getElem?_eq_some_iff.mp hi).1
    rwa [h.stores.nodes, length_flatNodes, numNodes_centers, ← Nat.zero_add t.numNodes] at this
  obtain ⟨d, c, l, r, hrep, hc, hs⟩ := (h.stores.represents h.centered).exists_node
    (P := fun t => Centered startOf stopOf (centers t) ∧ All (Run.Sorted stopOf) t)
    (fun c l r h => ⟨⟨h.1.2.1, h.2.2.1⟩, h.1.2.2, h.2.2.2⟩) ⟨h.centered, h.sorted⟩ i.zero_le hlt
  rw [hrep.node] at hi
  cases hi
  exact H i d c l r hrep hc hs.1

theorem Built.forall_mem (h : Built input tree t) {P : Node T → Prop}
    (H : ∀ i d c l r, Represents tree i d (.node c l r) → Centered startOf stopOf
      (centers (.node c l r)) → c.Sorted stopOf →
      P (flatNode stopOf i d c.toCenter (centers l) (centers r))) :
    ∀ node ∈ tree.nodes, P node := by
  intro node hn
  obtain ⟨i, hi⟩ := List.mem_iff_getElem?.mp hn
  exact h.forall_node (P := fun _ => P) H hi

omit [LinearOrder T] in
theorem zip_entries (xs : List (Interval T × V)) :
    (List.zipWith Interval.mk (xs.map startOf) (xs.map stopOf)).zip (xs.map Prod.snd) = xs := by
  induction xs with
  | nil => rfl
  | cons x xs ih =>
    rw [List.map_cons, List.map_cons, List.map_cons, List.zipWith_cons_cons, List.zip_cons_cons, ih]
    rfl

theorem Stores.entries_eq (h : Stores tree t) : tree.entries = items (centers t) := by
  rw [IntervalTree.entries, h.starts, h.ends, h.values, zip_entries]

/-- The items of a node and of its subtrees, by position. -/
theorem Represents.forall_own {base d : Nat} {c : Run T (Interval T × V)}
    {l r : BinaryTree (Run T (Interval T × V))} (h : Represents tree base d (.node c l r))
    {pos : Nat} (hp : pos ∈ (flatNode stopOf base d c.toCenter (centers l) (centers r)).dataRange) :
    ∃ x ∈ c.own, tree.starts[pos]? = some (startOf x) ∧ tree.ends[pos]? = some (stopOf x) := by
  rw [h.dataRange_eq, List.mem_range'_1] at hp
  have hi : pos - d < c.own.length := by omega
  have hs := h.ownStarts.getElem? (i := pos - d) (by simpa using hi)
  have he := h.ownEnds.getElem? (i := pos - d) (by simpa using hi)
  rw [Nat.add_sub_cancel' hp.1, List.getElem?_map, List.getElem?_eq_getElem hi] at hs he
  exact ⟨_, List.getElem_mem hi, hs, he⟩

namespace Represents

variable {base d : Nat} {c : Run T (Interval T × V)} {l r : BinaryTree (Run T (Interval T × V))}

/-- The second ordering of a node permutes its positions. -/
theorem byEndRun_perm (h : Represents tree base d (.node c l r)) :
    (((flatNode stopOf base d c.toCenter (centers l) (centers r)).byEndRun
      tree.byEndIndices).map UInt32.toNat).Perm
        (flatNode stopOf base d c.toCenter (centers l) (centers r)).dataRange := by
  have hrun := h.ownByEndIndices.take_drop
  have hperm := h.numbered.1
  rw [List.length_map, h.length_byEnd] at hrun
  rw [h.dataRange_eq, ← List.zipIdx_map_snd d c.own]
  simp only [Node.byEndRun, flatNode, h.toNat_dataBegin, h.toNat_dataEnd, hrun, List.map_map]
  refine .trans (.of_eq (List.map_congr_left fun e he => ?_)) (hperm.map _)
  apply toNat_ofNat
  have := List.snd_lt_add_of_mem_zipIdx (hperm.mem_iff.mp he)
  have := h.length_own
  omega

/-- The maximum stored at a node is attained below it and bounds what is below it. -/
theorem maxEnd (h : Represents tree base d (.node c l r)) (hne : c.own ≠ []) :
    (∃ pos, tree.InSubtree pos (rootIdx base (.node c l r)) ∧
      tree.ends[pos]? = some (maxHi stopOf c.toCenter (centers l) (centers r))) ∧
    ∀ pos stop, tree.InSubtree pos (rootIdx base (.node c l r)) → tree.ends[pos]? = some stop →
      stop ≤ maxHi stopOf c.toCenter (centers l) (centers r) := by
  have hlargest : Largest stopOf (items (.node c.toCenter (centers l) (centers r)))
    (maxHi stopOf c.toCenter (centers l) (centers r)) := largest_maxHi hne
  obtain ⟨⟨x, hx, hxe⟩, hmax⟩ := hlargest
  constructor
  · obtain ⟨pos, hpos, he⟩ := h.exists_pos hx
    exact ⟨pos, h.inSubtree_iff.mpr hpos, he.trans (congrArg some hxe)⟩
  · intro pos stop hin hstop
    obtain ⟨hle, hlt⟩ := h.inSubtree_iff.mp hin
    obtain ⟨y, hy, -, he⟩ := h.exists_item hle hlt
    rw [he] at hstop
    cases hstop
    exact hmax y hy

theorem lt_of_mem_children (h : Represents tree base d (.node c l r)) {child : Nat}
    (hm : child ∈ (flatNode stopOf base d c.toCenter (centers l) (centers r)).children) :
    base < child ∧ child < tree.nodes.length := by
  have hsize := h.nodeSize
  have hlen := h.nodes.length_le
  rw [length_flatNodes, numNodes_centers] at hlen
  rw [BinaryTree.numNodes] at hsize hlen
  rw [children_flatNode (by rwa [numNodes_centers, numNodes_centers]), List.mem_append] at hm
  rcases hm with hm | hm
  · obtain ⟨rfl, hpos⟩ := mem_rootList hm
    rw [numNodes_centers] at hpos
    omega
  · obtain ⟨rfl, hpos⟩ := mem_rootList hm
    rw [numNodes_centers] at hpos ⊢
    omega

end Represents

/-- What the second ordering stores is the end of the interval that its index names. -/
theorem Built.endsDesc_eq (h : Built input tree t) {p : Nat} {i : UInt32}
    (hi : tree.byEndIndices[p]? = some i) :
    ∃ stop, tree.endsDesc[p]? = some stop ∧ tree.ends[i.toNat]? = some stop := by
  rw [h.stores.byEndIndices, List.getElem?_map, Option.map_eq_some_iff] at hi
  obtain ⟨e, he, rfl⟩ := hi
  obtain ⟨-, hget⟩ := h.stores.numbered.mem_byEnds (List.mem_of_getElem? he)
  have hsize := (h.stores.represents h.centered).size
  have hlt := (List.getElem?_eq_some_iff.mp hget).1
  refine ⟨stopOf e.1, ?_, ?_⟩
  · rw [h.stores.endsDesc, List.getElem?_map, he]
    rfl
  · rw [toNat_ofNat (by omega), h.stores.ends, List.getElem?_map]
    rw [Nat.sub_zero] at hget
    rw [hget]
    rfl

/-- Every node but the root is the child of one node. -/
theorem Built.existsUnique_parent (h : Built input tree t) {child : Nat} (h0 : 0 < child)
    (hlt : child < tree.nodes.length) :
    ∃! idx : Nat, ∃ node : Node T, tree.nodes[idx]? = some node ∧ child ∈ node.children := by
  have hrep := h.stores.represents h.centered
  have hperm : (rootList 0 (centers t) ++
      (flatNodes stopOf 0 0 (centers t)).flatMap Node.children).Perm _ :=
    children_perm (by rw [numNodes_centers]; exact hrep.nodeSize)
  rw [← h.stores.nodes] at hperm
  have hnodup := (hperm.nodup_iff.mpr List.nodup_range').of_append_right
  apply existsUnique_of_nodup_flatMap hnodup
  rw [h.stores.nodes, length_flatNodes] at hlt
  have hmem : child ∈ List.range' 0 (centers t).numNodes := List.mem_range'_1.mpr (by omega)
  rcases List.mem_append.mp (hperm.mem_iff.mpr hmem) with hm | hm
  · exact absurd (mem_rootList hm).1 h0.ne'
  · exact hm

theorem Built.wellFormed (h : Built input tree t) : tree.WellFormed input where
  len := by rw [IntervalTree.len, h.stores.values, List.length_map, h.perm.length_eq]
  lengths := by
    have hlen := h.stores.numbered.length_byEnds
    simp [IntervalTree.len, h.stores.starts, h.stores.ends, h.stores.values, h.stores.endsDesc,
      h.stores.byEndIndices, hlen]
  entries := by
    rw [h.stores.entries_eq]
    exact h.perm
  dataNonempty := h.forall_mem fun i d c l r hrep hc _ => by
    have hpos := List.length_pos_of_ne_nil hc.1.1
    rw [UInt32.lt_iff_toNat_lt]
    simp only [flatNode, hrep.toNat_dataBegin, hrep.toNat_dataEnd]
    omega
  dataTiles := by
    have hsize := (h.stores.represents h.centered).size
    rw [h.stores.nodes, flatMap_dataRange hsize, IntervalTree.len, h.stores.values, List.length_map,
      List.range_eq_range']
  byEndTiles := by
    have hsize := (h.stores.represents h.centered).size
    rw [h.stores.nodes, List.flatMap_congr fun _ => byEndRange_eq, flatMap_dataRange hsize,
      IntervalTree.len, h.stores.values, List.length_map, List.range_eq_range']
  spans := h.forall_mem fun i d c l r hrep hc _ pos hp => by
    obtain ⟨x, hx, hs, he⟩ := hrep.forall_own hp
    exact ⟨_, _, hs, he, hc.1.2.1 x hx⟩
  left := h.forall_mem fun i d c l r hrep hc _ pos hp => by
    simp only [flatNode, rootIdx_centers] at hp
    obtain ⟨hle, hlt⟩ := hrep.left.inSubtree_iff.mp hp
    obtain ⟨x, hx, -, he⟩ := hrep.left.exists_item hle hlt
    exact ⟨_, he, hc.1.2.2.2.1 x hx⟩
  right := h.forall_mem fun i d c l r hrep hc _ pos hp => by
    simp only [flatNode, rootIdx_centers, numNodes_centers] at hp
    obtain ⟨hle, hlt⟩ := hrep.right.inSubtree_iff.mp hp
    obtain ⟨x, hx, hs, -⟩ := hrep.right.exists_item hle hlt
    exact ⟨_, hs, hc.1.2.2.2.2 x hx⟩
  startsAscending := h.forall_mem fun i d c l r hrep hc _ => by
    have hrun := hrep.ownStarts.take_drop
    rw [List.length_map] at hrun
    simp only [Node.dataRun, flatNode, hrep.toNat_dataBegin, hrep.toNat_dataEnd, hrun,
      List.pairwise_map]
    exact hc.1.2.2.1
  endsDescending := h.forall_mem fun i d c l r hrep _ hs => by
    have hrun := hrep.ownEndsDesc.take_drop
    rw [List.length_map, hrep.length_byEnd] at hrun
    simp only [Node.byEndRun, flatNode, hrep.toNat_dataBegin, hrep.toNat_dataEnd, hrun,
      List.pairwise_map]
    exact hs.2
  byEndIndices := h.forall_mem fun i d c l r hrep _ _ => hrep.byEndRun_perm
  endsDesc p i hi := h.endsDesc_eq hi
  maxEnd idx node hn := by
    rw [IntervalTree.nodeAt?] at hn
    split at hn
    · cases hn
    · refine h.forall_node (P := fun i node => ∀ idx : UInt32, idx.toNat = i →
        (∃ pos, tree.InSubtree pos idx ∧ tree.ends[pos]? = some node.maxEnd) ∧
          ∀ pos stop, tree.InSubtree pos idx → tree.ends[pos]? = some stop → stop ≤ node.maxEnd)
        (fun i d c l r hrep hc _ idx hidx => ?_) hn idx rfl
      obtain rfl : idx = rootIdx i (.node c l r) := by rw [rootIdx_node, ← hidx, UInt32.ofNat_toNat]
      exact hrep.maxEnd hc.1.1
  childGreater idx node hn := h.forall_node (P := fun i node => ∀ child ∈ node.children,
    i < child ∧ child < tree.nodes.length) (fun _ _ _ _ _ hrep _ _ _ => hrep.lt_of_mem_children) hn
  oneParent child := h.existsUnique_parent

namespace IntervalTreeBuilder

/-- **The layout invariant of `build`.** -/
theorem build_wellFormed (self : IntervalTreeBuilder T V) (sorts : Sorts T V)
    (h : self.intervals.length < SIZE_LIMIT) :
    ∃ tree, self.build sorts = .ok tree ∧ tree.WellFormed self.intervals := by
  obtain ⟨tree, t, hbuild, hb⟩ := build_ok sorts h
  exact ⟨tree, hbuild, hb.wellFormed⟩

/-- Two intervals contain the pivot 3 of the root, one lies to its left and one to its right. -/
theorem build_wellFormed_ties :
    let input : List (Interval Nat × Nat) :=
      [(⟨3, 6⟩, 0), (⟨4, 4⟩, 1), (⟨0, 2⟩, 2), (⟨7, 9⟩, 3), (⟨5, 3⟩, 4), (⟨3, 8⟩, 5)]
    ∃ tree, (mk input).build (.stable Nat Nat) = .ok tree ∧ tree.WellFormed input :=
  build_wellFormed ⟨_⟩ (.stable Nat Nat) (by decide)

end IntervalTreeBuilder

end SimdIntervalTree
