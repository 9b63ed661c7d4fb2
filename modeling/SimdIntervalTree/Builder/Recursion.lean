import SimdIntervalTree.Lib.CenterTree
import SimdIntervalTree.Model.Builder

/-!
# The recursion of the builder in closed form

`buildNodeRecursive` permutes index sub-ranges in place and appends nodes whose children do not
exist yet. On a sub-range that holds the positions of items `xs` it computes the splitting
recursion of `CenterTree`: the sub-range ends up as the inorder of the tree of `xs` and the nodes
appended are its preorder numbering (`buildNodes`).
-/

namespace SimdIntervalTree

open Exec CenterTree

/-- The index a parent stores for a subtree whose nodes are numbered from `base`. -/
def rootIdx {β : Type} (base : Nat) : BinaryTree β → UInt32
  | .nil => NULL
  | .node .. => UInt32.ofNat base

@[simp] theorem rootIdx_nil {β : Type} {base : Nat} : rootIdx base (.nil : BinaryTree β) = NULL :=
  rfl

@[simp] theorem rootIdx_node {β : Type} {base : Nat} {x : β} {l r} :
    rootIdx base (.node x l r) = UInt32.ofNat base := rfl

namespace IntervalTreeBuilder

variable {α T V : Type} [LinearOrder T] {lo hi : α → T} {pos : α → Nat}

/-- The data of a node numbered `base` whose sub-range starts at `begin`. -/
def nodeData (maxEnd : T) (base begin : Nat) (c : Center T α) (l r : BinaryTree (Center T α)) :
    NodeBuildData T where
  pivot := c.pivot
  maxEnd := maxEnd
  indicesBegin := begin + (inorder l).length
  indicesEnd := begin + (inorder l).length + c.own.length
  left := rootIdx (base + 1) l
  right := rootIdx (base + 1 + l.numNodes) r

/-- The preorder numbering of a tree: nodes from `base` on, indices from `begin` on. -/
def buildNodes (maxEnd : Center T α → BinaryTree (Center T α) → BinaryTree (Center T α) → T) :
    Nat → Nat → BinaryTree (Center T α) → List (NodeBuildData T)
  | _, _, .nil => []
  | base, begin, .node c l r => nodeData (maxEnd c l r) base begin c l r ::
    (buildNodes maxEnd (base + 1) begin l ++
      buildNodes maxEnd (base + 1 + l.numNodes) (begin + (inorder l).length + c.own.length) r)

omit [LinearOrder T] in
@[simp] theorem length_buildNodes {maxEnd} {base begin : Nat} {t : BinaryTree (Center T α)} :
    (buildNodes maxEnd base begin t).length = t.numNodes := by
  induction t generalizing base begin with
  | nil => rfl
  | node c l r ihl ihr => simp [buildNodes, ihl, ihr]

/-- The arrays hold the bounds of `x` at its position. -/
def Reads (lo hi : α → T) (pos : α → Nat) (starts ends : List T) (x : α) : Prop :=
  starts[pos x]? = some (lo x) ∧ ends[pos x]? = some (hi x)

variable {starts ends : List T}

theorem partition_eq {p : T} {xs : List α} {s : PartitionScratch}
    (H : ∀ x ∈ xs, Reads lo hi pos starts ends x) :
    partition starts ends p (xs.map pos) s =
      .ok ⟨s.left ++ (leftPart hi p xs).map pos, s.containing ++ (ownPart lo hi p xs).map pos,
        s.right ++ (rightPart lo hi p xs).map pos⟩ := by
  induction xs generalizing s with
  | nil => simp [partition, leftPart, ownPart, rightPart]
  | cons x xs ih =>
    obtain ⟨h1, h2⟩ := H x List.mem_cons_self
    have ih (s) := @ih s fun y hy => H y (List.mem_cons_of_mem _ hy)
    rw [List.map_cons, partition, index_eq_ok.mpr h1, ok_bind, index_eq_ok.mpr h2, ok_bind]
    by_cases hl : hi x ≤ p
    · rw [if_pos hl, ih]
      simp [leftPart, ownPart, rightPart, hl]
    · by_cases hr : lo x > p
      · rw [if_neg hl, if_pos hr, ih]
        simp [leftPart, ownPart, rightPart, not_le.mp hl, hr]
      · rw [if_neg hl, if_neg hr, ih]
        simp [leftPart, ownPart, rightPart, not_le.mp hl, not_lt.mp hr]

/-- Writing the three parts back over the sub-range. -/
theorem copy_parts (pre post xs l c r : List Nat)
    (h : l.length + c.length + r.length = xs.length) :
    ∃ i₁ i₂, copyFromSlice (pre ++ xs ++ post) pre.length (pre.length + l.length) l = .ok i₁ ∧
      copyFromSlice i₁ (pre.length + l.length) (pre.length + l.length + c.length) c = .ok i₂ ∧
      copyFromSlice i₂ (pre.length + l.length + c.length) (pre.length + xs.length) r =
        .ok (pre ++ (l ++ (c ++ r)) ++ post) := by
  obtain ⟨x₁, x₂, x₃, rfl, h1, h2⟩ : ∃ x₁ x₂ x₃, xs = x₁ ++ (x₂ ++ x₃) ∧
      l.length = x₁.length ∧ c.length = x₂.length :=
    ⟨xs.take l.length, (xs.drop l.length).take c.length, (xs.drop l.length).drop c.length,
      by simp, by simp; omega, by simp; omega⟩
  have h3 : r.length = x₃.length := by simp at h; omega
  refine ⟨pre ++ l ++ (x₂ ++ x₃ ++ post), (pre ++ l) ++ c ++ (x₃ ++ post), ?_, ?_, ?_⟩
  · have := copyFromSlice_append pre (x₂ ++ x₃ ++ post) h1
    rw [← h1] at this
    rw [← this]
    simp
  · have := copyFromSlice_append (pre ++ l) (x₃ ++ post) h2
    rw [← h2, List.length_append] at this
    rw [← this]
    simp
  · have := copyFromSlice_append (pre ++ l ++ c) post h3
    rw [List.length_append, List.length_append] at this
    simp only [List.length_append, ← h1, ← h2, ← Nat.add_assoc]
    rw [List.append_assoc _ x₃, List.append_assoc, List.append_assoc] at this
    simpa using this

/-- The splitting of a sub-range: the position of the pivot, the sub-range and the three parts that
are copied back. -/
theorem exists_split {xs : List α} {m : α} (hm : xs[xs.length / 2]? = some m)
    (pre post : List Nat) :
    index (pre ++ xs.map pos ++ post) (pre.length + (pre.length + xs.length - pre.length) / 2) =
      .ok (pos m) ∧
    slice (pre ++ xs.map pos ++ post) pre.length (pre.length + xs.length) = .ok (xs.map pos) ∧
    ∃ i₁ i₂, copyFromSlice (pre ++ xs.map pos ++ post) pre.length
        (pre.length + (leftPart hi (lo m) xs).length) ((leftPart hi (lo m) xs).map pos) = .ok i₁ ∧
      copyFromSlice i₁ (pre.length + (leftPart hi (lo m) xs).length)
        (pre.length + (leftPart hi (lo m) xs).length + (ownPart lo hi (lo m) xs).length)
        ((ownPart lo hi (lo m) xs).map pos) = .ok i₂ ∧
      copyFromSlice i₂
        (pre.length + (leftPart hi (lo m) xs).length + (ownPart lo hi (lo m) xs).length)
        (pre.length + xs.length) ((rightPart lo hi (lo m) xs).map pos) =
          .ok (pre ++ ((leftPart hi (lo m) xs).map pos ++ ((ownPart lo hi (lo m) xs).map pos ++
            (rightPart lo hi (lo m) xs).map pos)) ++ post) := by
  have hpos := List.length_pos_of_mem (List.mem_of_getElem? hm)
  have hparts := length_parts lo hi (lo m) xs
  refine ⟨?_, ?_, ?_⟩
  · rw [Nat.add_sub_cancel_left, List.append_assoc, index_append_right, index_eq_ok,
      List.getElem?_append_left (by simp; omega), List.getElem?_map, hm]
    rfl
  · have := slice_append pre (xs.map pos) post
    rwa [List.length_map] at this
  · have := copy_parts pre post (xs.map pos) ((leftPart hi (lo m) xs).map pos)
      ((ownPart lo hi (lo m) xs).map pos) ((rightPart lo hi (lo m) xs).map pos)
      (by simpa using hparts)
    simpa only [List.length_map] using this

/-- The node of a sub-range and the state in which its children are built. -/
theorem splitNode_eq {xs : List α} {m : α} (H : ∀ x ∈ xs, Reads lo hi pos starts ends x)
    (hm : xs[xs.length / 2]? = some m) (pre post : List Nat) (nodes : List (NodeBuildData T))
    (scratch : PartitionScratch) :
    splitNode starts ends pre.length (pre.length + xs.length)
        ⟨pre ++ xs.map pos ++ post, nodes, scratch⟩ =
      .ok (pre.length + (leftPart hi (lo m) xs).length,
        pre.length + (leftPart hi (lo m) xs).length + (ownPart lo hi (lo m) xs).length,
        ⟨pre ++ ((leftPart hi (lo m) xs).map pos ++ ((ownPart lo hi (lo m) xs).map pos ++
            (rightPart lo hi (lo m) xs).map pos)) ++ post,
          nodes ++ [⟨lo m, lo m, pre.length + (leftPart hi (lo m) xs).length,
            pre.length + (leftPart hi (lo m) xs).length + (ownPart lo hi (lo m) xs).length,
            NULL, NULL⟩],
          ⟨(leftPart hi (lo m) xs).map pos, (ownPart lo hi (lo m) xs).map pos,
            (rightPart lo hi (lo m) xs).map pos⟩⟩) := by
  obtain ⟨hmid, hslice, i₁, i₂, hc1, hc2, hc3⟩ := @exists_split _ _ _ lo hi pos xs m hm pre post
  simp only [splitNode, hmid, index_eq_ok.mpr (H m (List.mem_of_getElem? hm)).1, hslice,
    partition_eq H, PartitionScratch.cleared, List.nil_append, List.length_map, hc1, hc2, hc3,
    ok_bind, pure_eq_ok]

omit [LinearOrder T] in
/-- The node behind those of its children learns what they are. -/
theorem linkNode_append_cons (pre post : List (NodeBuildData T)) (data : NodeBuildData T)
    (left right : UInt32) (indices : List Nat) (scratch : PartitionScratch)
    (hsize : pre.length < UInt32.size) :
    linkNode pre.length left right ⟨indices, pre ++ data :: post, scratch⟩ =
      .ok (UInt32.ofNat pre.length,
        ⟨indices, pre ++ { data with left, right } :: post, scratch⟩) := by
  rw [linkNode, index_append_cons, ok_bind, store_append_cons, ok_bind, asU32_of_lt hsize, ok_bind]
  rfl

theorem buildNodeRecursive_eq {xs : List α} {t : BinaryTree (Center T α)}
    (h : IsBuild lo hi xs t) (H : ∀ x ∈ xs, Reads lo hi pos starts ends x)
    (hlt : ∀ x ∈ xs, lo x < hi x) (pre post : List Nat) (nodes : List (NodeBuildData T))
    (scratch : PartitionScratch) (hsize : nodes.length + t.numNodes ≤ UInt32.size) :
    ∃ scratch', buildNodeRecursive starts ends pre.length (pre.length + xs.length)
        ⟨pre ++ xs.map pos ++ post, nodes, scratch⟩ =
      .ok (rootIdx nodes.length t, ⟨pre ++ (inorder t).map pos ++ post,
        nodes ++ buildNodes (fun c _ _ => c.pivot) nodes.length pre.length t, scratch'⟩) := by
  induction h generalizing pre post nodes scratch with
  | nil => exact ⟨scratch, by rw [buildNodeRecursive, buildNode]; simp [buildNodes]⟩
  | @node xs m l r hm hl hr ihl ihr =>
    have hmem := List.mem_of_getElem? hm
    have hpos := List.length_pos_of_mem hmem
    have hparts := length_parts lo hi (lo m) xs
    obtain ⟨hltl, hltr⟩ := length_parts_lt hmem (hlt m hmem)
    have hlen := hl.inorder_perm.length_eq
    rw [buildNodeRecursive, buildNode, if_neg (by omega), splitNode_eq H hm, liftM_eq, ok_bind]
    dsimp only
    rw [dif_pos (by omega)]
    -- the children
    rw [BinaryTree.numNodes] at hsize
    generalize hparent : (⟨lo m, lo m, pre.length + (leftPart hi (lo m) xs).length,
      pre.length + (leftPart hi (lo m) xs).length + (ownPart lo hi (lo m) xs).length,
      NULL, NULL⟩ : NodeBuildData T) = parent
    obtain ⟨s₁, h1⟩ := ihl (fun x hx => H x (List.mem_of_mem_filter hx))
      (fun x hx => hlt x (List.mem_of_mem_filter hx)) pre
      ((ownPart lo hi (lo m) xs).map pos ++ (rightPart lo hi (lo m) xs).map pos ++ post)
      (nodes ++ [parent]) ⟨_, _, _⟩ (by simp; omega)
    obtain ⟨s₂, h2⟩ := ihr (fun x hx => H x (List.mem_of_mem_filter hx))
      (fun x hx => hlt x (List.mem_of_mem_filter hx))
      (pre ++ (inorder l).map pos ++ (ownPart lo hi (lo m) xs).map pos) post
      (nodes ++ [parent] ++ buildNodes (fun c _ _ => c.pivot) (nodes.length + 1) pre.length l) s₁
      (by simp; omega)
    simp only [List.append_assoc, List.length_append, List.length_map, List.length_singleton,
      length_buildNodes, hlen] at h1 h2 ⊢
    rw [h1, ok_bind]
    dsimp only
    rw [show pre.length + xs.length = pre.length + ((leftPart hi (lo m) xs).length +
      (ownPart lo hi (lo m) xs).length) + (rightPart lo hi (lo m) xs).length by omega,
      Nat.add_assoc pre.length, h2, ok_bind]
    -- the parent learns its children
    rw [liftM_eq, List.singleton_append, linkNode_append_cons _ _ _ _ _ _ _ (by omega)]
    refine ⟨s₂, ?_⟩
    simp [buildNodes, nodeData, hlen, ← hparent, Nat.add_assoc]

end IntervalTreeBuilder

end SimdIntervalTree
