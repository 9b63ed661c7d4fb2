import SimdIntervalTree.Builder.Recursion

/-!
# The reverse pass

`compute_max_end` visits the nodes from the last to the first. Preorder numbering puts the subtrees
of a node right behind it, so when the pass reaches a node both children carry their final
`max_end`, and the node receives the largest end among its items and theirs.
-/

namespace SimdIntervalTree

open Exec CenterTree

theorem toNat_ofNat {n : Nat} (h : n < UInt32.size) : (UInt32.ofNat n).toNat = n :=
  UInt32.toNat_ofNat_of_lt' h

theorem ofNat_ne_null {n : Nat} (h : n < UInt32.size - 1) : UInt32.ofNat n ≠ NULL := by
  intro e
  have := congrArg UInt32.toNat e
  rw [toNat_ofNat (by omega)] at this
  simp [NULL, UInt32.size] at this h
  omega

namespace IntervalTreeBuilder

variable {α T : Type} [LinearOrder T] {lo hi : α → T} {pos : α → Nat}

/-- `m` is the largest `hi` of the items `xs`. -/
def Largest (hi : α → T) (xs : List α) (m : T) : Prop :=
  (∃ x ∈ xs, hi x = m) ∧ ∀ x ∈ xs, hi x ≤ m

theorem Largest.unique {xs : List α} {m m' : T} (h : Largest hi xs m) (h' : Largest hi xs m') :
    m = m' := by
  obtain ⟨⟨x, hx, rfl⟩, hm⟩ := h
  obtain ⟨⟨y, hy, rfl⟩, hm'⟩ := h'
  exact le_antisymm (hm' x hx) (hm y hy)

theorem Largest.congr {xs ys : List α} {m : T} (H : ∀ x, x ∈ xs ↔ x ∈ ys)
    (h : Largest hi xs m) : Largest hi ys m := by
  obtain ⟨⟨x, hx, e⟩, hm⟩ := h
  exact ⟨⟨x, (H x).mp hx, e⟩, fun y hy => hm y ((H y).mpr hy)⟩

theorem Largest.append {xs ys : List α} {m m' : T} (h : Largest hi xs m)
    (h' : Largest hi ys m') : Largest hi (xs ++ ys) (if m' > m then m' else m) := by
  obtain ⟨⟨x, hx, rfl⟩, hm⟩ := h
  obtain ⟨⟨y, hy, rfl⟩, hm'⟩ := h'
  split
  · rename_i hlt
    refine ⟨⟨y, List.mem_append_right _ hy, rfl⟩, fun z hz => ?_⟩
    rcases List.mem_append.mp hz with hz | hz
    · exact (hm z hz).trans hlt.le
    · exact hm' z hz
  · rename_i hge
    refine ⟨⟨x, List.mem_append_left _ hx, rfl⟩, fun z hz => ?_⟩
    rcases List.mem_append.mp hz with hz | hz
    · exact hm z hz
    · exact (hm' z hz).trans (not_lt.mp hge)

/-- The largest end of a subtree (its pivot, should the subtree be empty). -/
def maxHi (hi : α → T) (c : Center T α) (l r : BinaryTree (Center T α)) : T :=
  ((items (.node c l r)).map hi).max?.getD c.pivot

theorem largest_maxHi {c : Center T α} {l r : BinaryTree (Center T α)} (h : c.own ≠ []) :
    Largest hi (items (.node c l r)) (maxHi hi c l r) := by
  have hne : (items (.node c l r)).map hi ≠ [] := by simp [h]
  unfold maxHi
  cases hm : ((items (.node c l r)).map hi).max? with
  | none => exact absurd (List.max?_eq_none_iff.mp hm) hne
  | some m =>
    obtain ⟨hmem, hle⟩ := List.max?_eq_some_iff.mp hm
    obtain ⟨x, hx, rfl⟩ := List.mem_map.mp hmem
    exact ⟨⟨x, hx, rfl⟩, fun y hy => hle _ (List.mem_map_of_mem hy)⟩

variable {starts ends : List T}

theorem largestEnd_eq {xs done : List α} {m : T} (h : Largest hi done m)
    (H : ∀ x ∈ xs, Reads lo hi pos starts ends x) :
    ∃ m', largestEnd ends (xs.map pos) m = .ok m' ∧ Largest hi (done ++ xs) m' := by
  induction xs generalizing done m with
  | nil => exact ⟨m, rfl, by simpa using h⟩
  | cons x xs ih =>
    have hx : Largest hi [x] (hi x) := ⟨⟨x, by simp, rfl⟩, by simp⟩
    obtain ⟨m', e, h'⟩ := ih (h.append hx) fun y hy => H y (List.mem_cons_of_mem _ hy)
    refine ⟨m', ?_, by simpa using h'⟩
    rw [List.map_cons, largestEnd, index_eq_ok.mpr (H x List.mem_cons_self).2, ok_bind]
    exact e

/-- The children of a node are numbered already; `max_end` of a child covers its subtree. -/
theorem includeChild_eq {xs : List α} {t : BinaryTree (Center T α)} {m : T}
    (base begin : Nat) (pre post : List (NodeBuildData T)) (h : Largest hi xs m)
    (hc : Centered lo hi t) (hbase : pre.length = base) (hsize : base + t.numNodes < UInt32.size) :
    ∃ m', includeChild (pre ++ (buildNodes (maxHi hi) base begin t ++ post)) (rootIdx base t) m =
      .ok m' ∧ Largest hi (xs ++ items t) m' := by
  subst hbase
  cases t with
  | nil => exact ⟨m, by simp [includeChild], by simpa using h⟩
  | node c l r =>
    rw [BinaryTree.numNodes] at hsize
    have hroot : index (pre ++ (buildNodes (maxHi hi) pre.length begin (.node c l r) ++ post))
        (UInt32.ofNat pre.length).toNat =
        .ok (nodeData (maxHi hi c l r) pre.length begin c l r) := by
      rw [toNat_ofNat (by omega)]
      exact index_append_cons ..
    refine ⟨_, ?_, h.append (largest_maxHi hc.1.1)⟩
    rw [includeChild, rootIdx_node, if_pos (ofNat_ne_null (by omega)), hroot]
    rfl

/-- One round of the pass, at a node whose subtrees are done. -/
theorem computeMaxEnd_step {c : Center T α} {l r : BinaryTree (Center T α)} (m₀ : T)
    (hc : Centered lo hi (.node c l r))
    (H : ∀ x ∈ items (.node c l r), Reads lo hi pos starts ends x)
    (pre post : List (NodeBuildData T)) (ipre ipost : List Nat)
    (hsize : pre.length + (l.numNodes + r.numNodes + 1) < UInt32.size) :
    let indices := ipre ++ (inorder (.node c l r)).map pos ++ ipost
    let rest := buildNodes (maxHi hi) (pre.length + 1) ipre.length l ++
      buildNodes (maxHi hi) (pre.length + 1 + l.numNodes)
        (ipre.length + (inorder l).length + c.own.length) r ++ post
    computeMaxEnd ends indices (pre.length + 1)
        (pre ++ nodeData m₀ pre.length ipre.length c l r :: rest) =
      computeMaxEnd ends indices pre.length
        (pre ++ nodeData (maxHi hi c l r) pre.length ipre.length c l r :: rest) := by
  intro indices rest
  obtain ⟨⟨hne, -⟩, hcl, hcr⟩ := hc
  obtain ⟨x, own, hown⟩ := List.exists_cons_of_ne_nil hne
  have hx := H x (by simp [hown])
  have hindices : indices = (ipre ++ (inorder l).map pos) ++ c.own.map pos ++
      ((inorder r).map pos ++ ipost) := by simp [indices]
  have hbegin : (ipre ++ (inorder l).map pos).length = ipre.length + (inorder l).length := by simp
  have hfirst : index indices (ipre.length + (inorder l).length) = .ok (pos x) := by
    rw [hindices, List.append_assoc, ← hbegin, hown]
    exact index_append_cons ..
  have hslice : slice indices (ipre.length + (inorder l).length)
      (ipre.length + (inorder l).length + c.own.length) = .ok (c.own.map pos) := by
    have := slice_append (ipre ++ (inorder l).map pos) (c.own.map pos)
      ((inorder r).map pos ++ ipost)
    rwa [← hindices, hbegin, List.length_map] at this
  set node := nodeData m₀ pre.length ipre.length c l r with hnode
  have hleft : pre ++ node :: rest = pre ++ [node] ++ (buildNodes (maxHi hi) (pre.length + 1)
      ipre.length l ++ (buildNodes (maxHi hi) (pre.length + 1 + l.numNodes)
        (ipre.length + (inorder l).length + c.own.length) r ++ post)) := by simp [rest]
  have hright : pre ++ node :: rest = pre ++ node :: buildNodes (maxHi hi) (pre.length + 1)
      ipre.length l ++ (buildNodes (maxHi hi) (pre.length + 1 + l.numNodes)
        (ipre.length + (inorder l).length + c.own.length) r ++ post) := by simp [rest]
  -- the node's own items, then its left and its right subtree
  have hinit : Largest hi [x] (hi x) := ⟨⟨x, by simp, rfl⟩, by simp⟩
  obtain ⟨m₁, e₁, h₁⟩ := largestEnd_eq hinit fun y hy => H y (List.mem_append_left _ hy)
  obtain ⟨m₂, e₂, h₂⟩ := includeChild_eq (pre.length + 1) ipre.length (pre ++ [node])
    _ h₁ hcl (by simp) (by omega)
  rw [← hleft] at e₂
  obtain ⟨m₃, e₃, h₃⟩ := includeChild_eq (pre.length + 1 + l.numNodes)
    (ipre.length + (inorder l).length + c.own.length)
    (pre ++ node :: buildNodes (maxHi hi) (pre.length + 1) ipre.length l)
    _ h₂ hcr (by simp; omega) (by omega)
  rw [← hright] at e₃
  have hm : m₃ = maxHi hi c l r := by
    refine (h₃.congr fun y => ?_).unique (largest_maxHi hne)
    simp [hown]
  rw [computeMaxEnd, index_append_cons, ok_bind]
  simp only [hnode, nodeData] at e₂ e₃ hfirst hslice ⊢
  rw [hfirst, ok_bind, index_eq_ok.mpr hx.2, ok_bind, hslice, ok_bind, e₁, ok_bind, e₂, ok_bind,
    e₃, ok_bind, store_append_cons, ok_bind, hm]

/-- Over the nodes of one subtree the pass turns the placeholders into the largest ends. -/
theorem computeMaxEnd_eq {t : BinaryTree (Center T α)} (hc : Centered lo hi t)
    (H : ∀ x ∈ items t, Reads lo hi pos starts ends x) (pre post : List (NodeBuildData T))
    (ipre ipost : List Nat) (hsize : pre.length + t.numNodes < UInt32.size) :
    computeMaxEnd ends (ipre ++ (inorder t).map pos ++ ipost) (pre.length + t.numNodes)
        (pre ++ buildNodes (fun c _ _ => c.pivot) pre.length ipre.length t ++ post) =
      computeMaxEnd ends (ipre ++ (inorder t).map pos ++ ipost) pre.length
        (pre ++ buildNodes (maxHi hi) pre.length ipre.length t ++ post) := by
  induction t generalizing pre post ipre ipost with
  | nil => rfl
  | node c l r ihl ihr =>
    rw [BinaryTree.numNodes] at hsize
    have hl (x) (hx : x ∈ items l) := H x (by simp [hx])
    have hr (x) (hx : x ∈ items r) := H x (by simp [hx])
    -- the nodes of the right subtree come last and are visited first
    have right := ihr hc.2.2 hr
      (pre ++ nodeData c.pivot pre.length ipre.length c l r ::
        buildNodes (fun c _ _ => c.pivot) (pre.length + 1) ipre.length l) post
      (ipre ++ (inorder l).map pos ++ c.own.map pos) ipost (by simp; omega)
    have left := ihl hc.2.1 hl
      (pre ++ [nodeData c.pivot pre.length ipre.length c l r])
      (buildNodes (maxHi hi) (pre.length + 1 + l.numNodes)
        (ipre.length + (inorder l).length + c.own.length) r ++ post)
      ipre (c.own.map pos ++ (inorder r).map pos ++ ipost) (by simp; omega)
    have hcount : pre.length + (l.numNodes + r.numNodes + 1) =
        pre.length + 1 + l.numNodes + r.numNodes := by omega
    have root := computeMaxEnd_step c.pivot hc H pre post ipre ipost hsize
    simp only [buildNodes, inorder_node, BinaryTree.numNodes, List.length_append, List.length_cons,
      List.length_map, List.length_nil, List.map_append, length_buildNodes, List.append_assoc,
      List.cons_append, List.nil_append, Nat.zero_add, ← Nat.add_assoc,
      Nat.add_right_comm _ l.numNodes 1] at left right root hcount ⊢
    rw [hcount, ← root, ← left, ← right]

end IntervalTreeBuilder

end SimdIntervalTree
