import SimdIntervalTree.Lib.CenterQuery
import SimdIntervalTree.Builder.MaxEnd

/-!
# The layout phases

The fourth phase copies the items of each node into contiguous arrays, node after node, and takes
every value out of `temp_values` on the way. The fifth sorts the positions of each node by
descending end. Both runs of a node get the same bounds, so the finished nodes are a function of
the tree alone (`flatNodes`).
-/

namespace SimdIntervalTree

open Exec CenterTree

namespace IntervalTreeBuilder

variable {α T V : Type} [LinearOrder T] {lo hi : α → T} {pos : α → Nat} {val : α → V}

/-- The finished node numbered `base` whose items are stored from `d` on. -/
def flatNode (hi : α → T) (base d : Nat) (c : Center T α) (l r : BinaryTree (Center T α)) :
    Node T where
  pivot := c.pivot
  maxEnd := maxHi hi c l r
  dataBegin := UInt32.ofNat d
  dataEnd := UInt32.ofNat (d + c.own.length)
  byEndBegin := UInt32.ofNat d
  byEndEnd := UInt32.ofNat (d + c.own.length)
  left := rootIdx (base + 1) l
  right := rootIdx (base + 1 + l.numNodes) r

/-- The finished nodes of a tree, in preorder. -/
def flatNodes (hi : α → T) : Nat → Nat → BinaryTree (Center T α) → List (Node T)
  | _, _, .nil => []
  | base, d, .node c l r => flatNode hi base d c l r ::
    (flatNodes hi (base + 1) (d + c.own.length) l ++
      flatNodes hi (base + 1 + l.numNodes) (d + c.own.length + (items l).length) r)

@[simp] theorem length_flatNodes {base d : Nat} {t : BinaryTree (Center T α)} :
    (flatNodes hi base d t).length = t.numNodes := by
  induction t generalizing base d with
  | nil => rfl
  | node c l r ihl ihr => simp [flatNodes, ihl, ihr]

/-- A node as the fourth phase leaves it. -/
def clearByEnd (node : Node T) : Node T := { node with byEndBegin := 0, byEndEnd := 0 }

/-! ## Phase 4 -/

/-- Take the values at the positions `ps`. -/
def taken (ps : List Nat) (temp : List (Option V)) : List (Option V) :=
  ps.foldl (fun temp p => temp.set p none) temp

theorem taken_cons (p : Nat) (ps : List Nat) (temp : List (Option V)) :
    taken (p :: ps) temp = taken ps (temp.set p none) := rfl

theorem taken_append (ps qs : List Nat) (temp : List (Option V)) :
    taken (ps ++ qs) temp = taken qs (taken ps temp) := List.foldl_append

@[simp] theorem length_taken (ps : List Nat) (temp : List (Option V)) :
    (taken ps temp).length = temp.length := by
  induction ps generalizing temp with
  | nil => rfl
  | cons p ps ih => rw [taken_cons, ih, List.length_set]

theorem getElem?_taken_of_notMem {ps : List Nat} {temp : List (Option V)} {q : Nat} (h : q ∉ ps) :
    (taken ps temp)[q]? = temp[q]? := by
  induction ps generalizing temp with
  | nil => rfl
  | cons p ps ih =>
    rw [List.mem_cons, not_or] at h
    rw [taken_cons, ih h.2, List.getElem?_set_ne (Ne.symm h.1)]

theorem getElem?_taken_of_mem {ps : List Nat} {temp : List (Option V)} {q : Nat} (h : q ∈ ps)
    (hq : q < temp.length) : (taken ps temp)[q]? = some none := by
  induction ps generalizing temp with
  | nil => cases h
  | cons p ps ih =>
    rw [taken_cons]
    by_cases hps : q ∈ ps
    · exact ih hps (by simpa using hq)
    · obtain rfl : q = p := (List.mem_cons.mp h).resolve_right hps
      rw [getElem?_taken_of_notMem hps, List.getElem?_set_self hq]

/-- The value of `x` is still there. -/
def Holds (pos : α → Nat) (val : α → V) (temp : List (Option V)) (x : α) : Prop :=
  temp[pos x]? = some (some (val x))

variable {starts ends : List T}

theorem Holds.taken {temp : List (Option V)} {x : α} {ps : List Nat} (h : Holds pos val temp x)
    (hx : pos x ∉ ps) : Holds pos val (taken ps temp) x :=
  (getElem?_taken_of_notMem hx).trans h

omit [LinearOrder T] in
theorem layoutRun_eq {xs : List α} {out : Layout T V}
    (H : ∀ x ∈ xs, Reads lo hi pos starts ends x)
    (hv : ∀ x ∈ xs, Holds pos val out.tempValues x) (hd : (xs.map pos).Nodup) :
    layoutRun starts ends (xs.map pos) out = .ok
      { starts := out.starts ++ xs.map lo
        ends := out.ends ++ xs.map hi
        values := out.values ++ xs.map val
        nodes := out.nodes
        tempValues := taken (xs.map pos) out.tempValues } := by
  induction xs generalizing out with
  | nil => simp [layoutRun, taken]
  | cons x xs ih =>
    obtain ⟨h1, h2⟩ := H x List.mem_cons_self
    rw [List.map_cons, List.nodup_cons] at hd
    have hrest (y) (hy : y ∈ xs) : Holds pos val (out.tempValues.set (pos x) none) y :=
      (hv y (List.mem_cons_of_mem _ hy)).taken (show pos y ∉ [pos x] from fun hm =>
        hd.1 (List.mem_map.mpr ⟨y, hy, List.mem_singleton.mp hm⟩))
    rw [List.map_cons, layoutRun, index_eq_ok.mpr h1, ok_bind, index_eq_ok.mpr h2, ok_bind,
      index_eq_ok.mpr (hv x List.mem_cons_self), ok_bind, unwrap, ok_bind,
      ih (fun y hy => H y (List.mem_cons_of_mem _ hy)) hrest hd.2]
    simp [taken_cons]

theorem layoutNodes_eq {t : BinaryTree (Center T α)} (base : Nat) (ipre ipost : List Nat)
    (rest : List (NodeBuildData T)) (out : Layout T V)
    (H : ∀ x ∈ items t, Reads lo hi pos starts ends x)
    (hv : ∀ x ∈ items t, Holds pos val out.tempValues x) (hd : ((items t).map pos).Nodup)
    (hsize : out.starts.length + (items t).length < UInt32.size) :
    layoutNodes starts ends (ipre ++ (inorder t).map pos ++ ipost)
        (buildNodes (maxHi hi) base ipre.length t ++ rest) out =
      layoutNodes starts ends (ipre ++ (inorder t).map pos ++ ipost) rest
        { starts := out.starts ++ (items t).map lo
          ends := out.ends ++ (items t).map hi
          values := out.values ++ (items t).map val
          nodes := out.nodes ++ (flatNodes hi base out.starts.length t).map clearByEnd
          tempValues := taken ((items t).map pos) out.tempValues } := by
  induction t generalizing base ipre ipost rest out with
  | nil => simp [buildNodes, flatNodes, taken]
  | node c l r ihl ihr =>
    simp only [items_node, List.map_append, List.length_append] at hd hsize
    obtain ⟨hdc, hdlr, hdisj⟩ := List.nodup_append.mp hd
    obtain ⟨hdl, hdr, hdisj'⟩ := List.nodup_append.mp hdlr
    have hslice : slice (ipre ++ (inorder (.node c l r)).map pos ++ ipost)
        (ipre.length + (inorder l).length) (ipre.length + (inorder l).length + c.own.length) =
        .ok (c.own.map pos) := by
      have := slice_append (ipre ++ (inorder l).map pos) (c.own.map pos)
        ((inorder r).map pos ++ ipost)
      simpa using this
    -- a value of a child's item is not taken before its node is reached
    have hvl (x) (hx : x ∈ items l) :
        Holds pos val (taken (c.own.map pos) out.tempValues) x :=
      (hv x (by simp [hx])).taken fun hm => hdisj _ hm _
        (List.mem_append_left _ (List.mem_map_of_mem hx)) rfl
    have hvr (x) (hx : x ∈ items r) :
        Holds pos val (taken ((items l).map pos) (taken (c.own.map pos) out.tempValues)) x := by
      refine ((hv x (by simp [hx])).taken fun hm => ?_).taken fun hm => ?_
      · exact hdisj _ hm _ (List.mem_append_right _ (List.mem_map_of_mem hx)) rfl
      · exact hdisj' _ hm _ (List.mem_map_of_mem hx) rfl
    have left := ihl (base + 1) ipre (c.own.map pos ++ (inorder r).map pos ++ ipost)
      (buildNodes (maxHi hi) (base + 1 + l.numNodes)
        (ipre.length + (inorder l).length + c.own.length) r ++ rest)
      { starts := out.starts ++ c.own.map lo
        ends := out.ends ++ c.own.map hi
        values := out.values ++ c.own.map val
        nodes := out.nodes ++ [clearByEnd (flatNode hi base out.starts.length c l r)]
        tempValues := taken (c.own.map pos) out.tempValues }
      (fun x hx => H x (by simp [hx])) hvl hdl (by simp; omega)
    have right := ihr (base + 1 + l.numNodes) (ipre ++ (inorder l).map pos ++ c.own.map pos) ipost
      rest
      { starts := out.starts ++ c.own.map lo ++ (items l).map lo
        ends := out.ends ++ c.own.map hi ++ (items l).map hi
        values := out.values ++ c.own.map val ++ (items l).map val
        nodes := out.nodes ++ [clearByEnd (flatNode hi base out.starts.length c l r)] ++
          (flatNodes hi (base + 1) (out.starts.length + c.own.length) l).map clearByEnd
        tempValues := taken ((items l).map pos) (taken (c.own.map pos) out.tempValues) }
      (fun x hx => H x (by simp [hx])) hvr hdr (by simp; omega)
    simp only [buildNodes, List.cons_append]
    rw [layoutNodes, asU32_of_lt (by omega), ok_bind]
    simp only [nodeData]
    rw [hslice, ok_bind, layoutRun_eq (fun x hx => H x (by simp [hx]))
      (fun x hx => hv x (by simp [hx])) hdc, ok_bind, asU32_of_lt (by simp; omega), ok_bind]
    simp only [inorder_node, items_node, flatNodes, flatNode, clearByEnd, List.length_append,
      List.length_map, List.map_append, List.map_cons, taken_append, List.append_assoc,
      List.cons_append, List.nil_append, ← Nat.add_assoc] at left right ⊢
    rw [left, right]

end IntervalTreeBuilder

end SimdIntervalTree
