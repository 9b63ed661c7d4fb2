import SimdIntervalTree.Builder.ByEnd

/-!
# What `build` produces

`Stores` relates the flat arrays to a tree of items: every array is a function of that tree.
`exists_phases` composes the five phases, and `Built` collects what the traversals need to know.
-/

namespace SimdIntervalTree

open Exec CenterTree IntervalTreeBuilder

variable {T V : Type}

def startOf (e : Interval T × V) : T := e.1.start

def stopOf (e : Interval T × V) : T := e.1.stop

/-! ## Renaming the items -/

section

variable {α β : Type} [LinearOrder T] {hi : β → T}

theorem rootIdx_map {α β : Type} {f : α → β} {base : Nat} {t : BinaryTree α} :
    rootIdx base (t.map f) = rootIdx base t := by
  cases t <;> rfl

theorem numNodes_map {α β : Type} {f : α → β} {t : BinaryTree α} :
    (t.map f).numNodes = t.numNodes := by
  induction t with
  | nil => rfl
  | node x l r ihl ihr => rw [BinaryTree.map, BinaryTree.numNodes, ihl, ihr, BinaryTree.numNodes]

theorem flatNodes_map (f : α → β) {base d : Nat} {t : BinaryTree (Center T α)} :
    flatNodes hi base d (t.map (Center.map f)) = flatNodes (hi ∘ f) base d t := by
  induction t generalizing base d with
  | nil => rfl
  | node c l r ihl ihr =>
    have hm : maxHi hi (c.map f) (l.map (Center.map f)) (r.map (Center.map f)) =
        maxHi (hi ∘ f) c l r := by
      have := items_map f (.node c l r)
      rw [BinaryTree.map] at this
      rw [maxHi, maxHi, this, List.map_map]
      rfl
    simp only [BinaryTree.map, flatNodes, flatNode, hm, rootIdx_map, numNodes_map, ihl, ihr,
      items_map]
    simp only [Center.map, List.length_map]

end

/-! ## The stored tree -/

variable [LinearOrder T]

/-- The arrays of `tree` store the tree `t`. -/
structure Stores (tree : IntervalTree T V) (t : BinaryTree (Run T (Interval T × V))) : Prop where
  nodes : tree.nodes = flatNodes stopOf 0 0 (centers t)
  starts : tree.starts = (items (centers t)).map startOf
  ends : tree.ends = (items (centers t)).map stopOf
  values : tree.values = (items (centers t)).map Prod.snd
  endsDesc : tree.endsDesc = (byEnds t).map fun e => stopOf e.1
  byEndIndices : tree.byEndIndices = (byEnds t).map fun e => UInt32.ofNat e.2
  numbered : Numbered 0 t
  size : (items (centers t)).length < IntervalTreeBuilder.SIZE_LIMIT

/-- The entries a build keeps. -/
def retained (input : List (Interval T × V)) : List (Interval T × V) :=
  input.filter fun e => decide (e.1.start < e.1.stop)

theorem mem_retained {input : List (Interval T × V)} {e : Interval T × V}  :
    e ∈ retained input ↔ e ∈ input ∧ e.1.Nonempty := by
  simp [retained, Interval.Nonempty]

/-- What the traversals know of a tree built from `input`. -/
structure Built (input : List (Interval T × V)) (tree : IntervalTree T V)
    (t : BinaryTree (Run T (Interval T × V))) : Prop where
  stores : Stores tree t
  perm : (items (centers t)).Perm (retained input)
  centered : Centered startOf stopOf (centers t)
  sorted : All (Run.Sorted stopOf) t
  halving : Halving (centers t)

theorem Built.len_eq {input : List (Interval T × V)} {tree : IntervalTree T V}
    {t : BinaryTree (Run T (Interval T × V))} (h : Built input tree t) :
    tree.len = (items (centers t)).length := by
  rw [IntervalTree.len, h.stores.values, List.length_map]

namespace IntervalTreeBuilder

/-- Insert the entries one after the other. -/
def insertAll (self : IntervalTreeBuilder T V) (input : List (Interval T × V)) :
    IntervalTreeBuilder T V :=
  input.foldl (fun self e => self.insert e.1 e.2) self

omit [LinearOrder T] in
theorem insertAll_eq {self : IntervalTreeBuilder T V} {input : List (Interval T × V)} :
    self.insertAll input = ⟨self.intervals ++ input⟩ := by
  induction input generalizing self with
  | nil => exact congrArg mk (List.append_nil _).symm
  | cons e input ih =>
    rw [insertAll, List.foldl_cons]
    exact ih.trans (congrArg mk (List.append_assoc ..))

omit [LinearOrder T] in
@[simp] theorem new_insertAll (input : List (Interval T × V)) : new.insertAll input = ⟨input⟩ :=
  insertAll_eq

/-- A run of the five phases on the sorted entries. -/
structure Phases (sorts : Sorts T V) (sorted : List (Interval T × V)) where
  root : UInt32
  st : BuildState T
  nodeData : List (NodeBuildData T)
  data : Layout T V
  byEnd : ByEnd T
  structure_ok : buildNodeRecursive (sorted.map (·.1.start)) (sorted.map (·.1.stop)) 0
    sorted.length ⟨List.range sorted.length, [], .cleared⟩ = .ok (root, st)
  maxEnd_ok : computeMaxEnd (sorted.map (·.1.stop)) st.indices st.nodes.length st.nodes =
    .ok nodeData
  layout_ok : layoutNodes (sorted.map (·.1.start)) (sorted.map (·.1.stop)) st.indices nodeData
    ⟨[], [], [], [], (sorted.map (·.2)).map some⟩ = .ok data
  byEnd_ok : byEndRuns sorts data.ends data.nodes ⟨[], [], []⟩ = .ok byEnd

variable {sorts : Sorts T V} {sorted : List (Interval T × V)}

def Phases.tree (p : Phases sorts sorted) : IntervalTree T V where
  starts := p.data.starts
  ends := p.data.ends
  values := p.data.values
  nodes := p.byEnd.nodes
  endsDesc := p.byEnd.endsDesc
  byEndIndices := p.byEnd.byEndIndices

theorem indicesBegin_lt_indicesEnd {α : Type} {lo hi : α → T} {maxEnd} {base begin : Nat}
    {t : BinaryTree (Center T α)} (h : Centered lo hi t) :
    ∀ node ∈ buildNodes maxEnd base begin t, node.indicesBegin < node.indicesEnd := by
  induction t generalizing base begin with
  | nil => intro _ hn; cases hn
  | node c l r ihl ihr =>
    have hpos := List.length_pos_of_ne_nil h.1.1
    intro node hn
    rw [buildNodes, List.mem_cons, List.mem_append] at hn
    rcases hn with rfl | hn | hn
    · exact Nat.lt_add_of_pos_right hpos
    · exact ihl h.2.1 node hn
    · exact ihr h.2.2 node hn

/-- The index `idx` stands for the sub-range `lo..hi`. It is `NULL` just if that is empty. Otherwise
it is the index of a node, and the children of the node stand for the parts beside its own run. -/
inductive Covers (nodes : List (NodeBuildData T)) : UInt32 → Nat → Nat → Prop
  | empty : lo ≥ hi → Covers nodes NULL lo hi
  | node : lo < hi → idx ≠ NULL → nodes[idx.toNat]? = some data →
    lo ≤ data.indicesBegin → data.indicesBegin < data.indicesEnd → data.indicesEnd ≤ hi →
    Covers nodes data.left lo data.indicesBegin → Covers nodes data.right data.indicesEnd hi →
    Covers nodes idx lo hi

theorem covers_buildNodes {α : Type} {lo hi : α → T} {maxEnd} {base begin : Nat}
    {t : BinaryTree (Center T α)} {nodes : List (NodeBuildData T)} (hc : Centered lo hi t)
    (h : Segment nodes base (buildNodes maxEnd base begin t))
    (hsize : base + t.numNodes < UInt32.size) :
    Covers nodes (rootIdx base t) begin (begin + (inorder t).length) := by
  induction t generalizing base begin with
  | nil => exact .empty (by simp)
  | node c l r ihl ihr =>
    have hpos := List.length_pos_of_ne_nil hc.1.1
    have hroot := h.getElem? (i := 0) (Nat.succ_pos _)
    rw [BinaryTree.numNodes] at hsize
    rw [buildNodes] at h hroot
    have hchildren := h.tail
    have hleft := ihl hc.2.1 hchildren.left (by omega)
    have hright := hchildren.right
    rw [length_buildNodes] at hright
    have hright := ihr hc.2.2 hright (by omega)
    have hend : begin + (inorder (.node c l r)).length =
        begin + (inorder l).length + c.own.length + (inorder r).length := by simp; omega
    have hget : nodes[(rootIdx base (.node c l r)).toNat]? =
        some (nodeData (maxEnd c l r) base begin c l r) := by
      rw [rootIdx_node, toNat_ofNat (by omega)]
      exact hroot
    rw [hend]
    exact .node (by omega) (ofNat_ne_null (by omega)) hget (Nat.le_add_right _ _)
      (Nat.lt_add_of_pos_right hpos) (Nat.le_add_right _ _) hleft hright

theorem taken_all {ps : List Nat} {temp : List (Option V)} (h : ∀ i < temp.length, i ∈ ps) :
    taken ps temp = List.replicate temp.length none := by
  apply List.ext_getElem?
  intro i
  rcases Nat.lt_or_ge i temp.length with hi | hi
  · rw [getElem?_taken_of_mem (h i hi) hi, List.getElem?_replicate_of_lt hi]
  · rw [List.getElem?_eq_none (by simpa using hi), List.getElem?_eq_none (by simpa using hi)]

omit [LinearOrder T] in
/-- The arrays of the second phase hold the bounds of the entries. -/
theorem reads_zipIdx {x : (Interval T × V) × Nat} (hx : x ∈ sorted.zipIdx) :
    Reads (startOf ∘ Prod.fst) (stopOf ∘ Prod.fst) Prod.snd (sorted.map (·.1.start))
      (sorted.map (·.1.stop)) x := by
  have hget := List.mem_zipIdx_iff_getElem?.mp hx
  constructor <;> rw [List.getElem?_map, hget] <;> rfl

/-- On sorted non-empty entries no phase faults, and together they store the tree of the
entries. -/
theorem exists_phases (sorts : Sorts T V) {sorted : List (Interval T × V)}
    (hne : ∀ e ∈ sorted, e.1.Nonempty)
    (hs : sorted.Pairwise fun a b => startOf a ≤ startOf b) (hsize : sorted.length < SIZE_LIMIT) :
    ∃ (p : Phases sorts sorted) (t : BinaryTree (Run T (Interval T × V))),
      IsBuild startOf stopOf sorted (centers t) ∧ All (Run.Sorted stopOf) t ∧ Stores p.tree t ∧
      (∀ node ∈ p.st.nodes, node.indicesBegin < node.indicesEnd) ∧
      Covers p.st.nodes p.root 0 sorted.length ∧
      p.data.tempValues = List.replicate sorted.length none := by
  -- the entries carry their positions through the phases
  let xs := sorted.zipIdx
  let lo : (Interval T × V) × Nat → T := startOf ∘ Prod.fst
  let hi : (Interval T × V) × Nat → T := stopOf ∘ Prod.fst
  have hget (x) (hx : x ∈ xs) : sorted[x.2]? = some x.1 := List.mem_zipIdx_iff_getElem?.mp hx
  have hlt (x) (hx : x ∈ xs) : lo x < hi x := hne _ (List.mem_of_getElem? (hget x hx))
  have hreads (x) (hx : x ∈ xs) := reads_zipIdx hx
  have hpos : xs.map Prod.snd = List.range sorted.length := by
    rw [List.zipIdx_map_snd, List.range_eq_range']
  have hsorted : xs.Pairwise fun a b => lo a ≤ lo b := by
    have : (xs.map Prod.fst).Pairwise fun a b => startOf a ≤ startOf b := by
      rwa [List.zipIdx_map_fst]
    rw [List.pairwise_map] at this
    exact this
  have hlimit : SIZE_LIMIT < UInt32.size := by decide
  obtain ⟨t, ht⟩ := exists_isBuild lo hi xs hlt
  have hc := ht.centered hlt hsorted
  have hitems := ht.items_perm
  have hcount : (items t).length = sorted.length := by rw [hitems.length_eq, List.length_zipIdx]
  have hnodes := numNodes_le_length_items hc
  have hreads' (x) (hx : x ∈ items t) := hreads x (hitems.mem_iff.mp hx)
  have htaken : ((items t).map Prod.snd).Perm (List.range sorted.length) := by
    rw [← hpos]
    exact hitems.map _
  -- phase 2
  obtain ⟨scratch, h2⟩ := buildNodeRecursive_eq ht hreads hlt [] [] [] .cleared (by simp; omega)
  -- phase 3
  have h3 := computeMaxEnd_eq hc hreads' [] [] [] [] (by simp; omega)
  -- phase 4
  have h4 := layoutNodes_eq 0 [] [] []
    ⟨[], [], [], [], (sorted.map (·.2)).map some⟩ hreads'
    (show ∀ x ∈ items t, Holds Prod.snd (fun x => x.1.2) _ x from
      fun x hx => by simp [Holds, hget x (hitems.mem_iff.mp hx)])
    (htaken.nodup_iff.mpr List.nodup_range) (by simp; omega)
  -- phase 5, after which the positions are dropped
  have hmap : IsBuild startOf stopOf (xs.map Prod.fst) (t.map (Center.map Prod.fst)) := ht.map
  rw [List.zipIdx_map_fst] at hmap
  obtain ⟨t', ht', hrun, hnum, h5⟩ := byEndRuns_eq (t := t.map (Center.map Prod.fst))
    sorts 0 0 [] ⟨[], [], []⟩ [] [] rfl rfl
    (show (items t).map hi = [] ++ (items (t.map (Center.map Prod.fst))).map stopOf ++ [] by
      rw [items_map]; simp [hi]) (by rw [items_map, List.length_map]; omega)
  simp only [List.nil_append, List.append_nil, List.length_nil, Nat.zero_add, hpos,
    List.length_zipIdx, xs] at h2 h3 h4 h5
  rw [flatNodes_map] at h5
  rw [← (length_buildNodes : (buildNodes (fun c _ _ => c.pivot) 0 0 t).length = _)] at h3
  let p : Phases sorts sorted := ⟨_, _, _, _, _, h2, h3, h4, h5⟩
  have hfst : items (centers t') = (items t).map Prod.fst := by rw [ht', items_map]
  refine ⟨p, t', ht' ▸ hmap, hrun, ⟨?_, ?_, ?_, ?_, rfl, rfl, hnum, ?_⟩,
    indicesBegin_lt_indicesEnd hc, ?_, ?_⟩
  · rw [ht', flatNodes_map]
    rfl
  · rw [hfst, List.map_map]
    rfl
  · rw [hfst, List.map_map]
    rfl
  · rw [hfst, List.map_map]
    rfl
  · rw [hfst, List.length_map, hcount]
    exact hsize
  · have hcovers : Covers p.st.nodes p.root 0 (0 + (inorder t).length) :=
      covers_buildNodes hc .refl (by omega)
    rwa [ht.inorder_perm.length_eq, List.length_zipIdx, Nat.zero_add] at hcovers
  · have hlen : ((sorted.map (·.2)).map some).length = sorted.length := by simp
    rw [← hlen]
    refine taken_all fun i hi => htaken.mem_iff.mpr (List.mem_range.mpr ?_)
    rwa [hlen] at hi

theorem Phases.tree_nil (p : Phases sorts []) : p.tree = .empty := by
  obtain ⟨root, st, nodeData, data, byEnd, h2, h3, h4, h5⟩ := p
  rw [buildNodeRecursive, buildNode, if_pos (by simp)] at h2
  cases h2
  cases h3
  cases h4
  cases h5
  rfl

/-- `build` is the phases on the sorted retained entries. -/
theorem build_eq_phases {self : IntervalTreeBuilder T V} {sorts : Sorts T V}
    (h : self.intervals.length < SIZE_LIMIT)
    (p : Phases sorts (sorts.byStart.byKey startOf (retained self.intervals))) :
    self.build sorts = .ok p.tree := by
  have hperm := sorts.byStart.perm startOf (retained self.intervals)
  have hlen := hperm.length_eq
  rw [build, buildBy, if_pos h]
  by_cases h0 : (retained self.intervals).length = 0
  · have hnil : sorts.byStart.byKey startOf (retained self.intervals) = [] :=
      List.eq_nil_of_length_eq_zero (hlen.trans h0)
    apply (if_pos h0).trans
    revert p
    rw [hnil]
    exact fun p => congrArg _ p.tree_nil.symm
  · have h2 := p.structure_ok
    rw [hlen] at h2
    exact (if_neg h0).trans (bind_eq_ok.mpr ⟨_, h2, bind_eq_ok.mpr ⟨_, p.maxEnd_ok,
      bind_eq_ok.mpr ⟨_, p.layout_ok, bind_eq_ok.mpr ⟨_, p.byEnd_ok, rfl⟩⟩⟩⟩)

/-! ## The finished tree -/

theorem sorted_nonempty {sorts : Sorts T V} {input : List (Interval T × V)} :
    ∀ e ∈ sorts.byStart.byKey startOf (retained input), e.1.Nonempty := fun _ he =>
  (mem_retained.mp ((sorts.byStart.perm _ _).mem_iff.mp he)).2

/-- The stored tree is the splitting of the sorted entries. -/
theorem build_stores {self : IntervalTreeBuilder T V} (sorts : Sorts T V)
    (h : self.intervals.length < SIZE_LIMIT) :
    ∃ tree t, self.build sorts = .ok tree ∧
      IsBuild startOf stopOf (sorts.byStart.byKey startOf (retained self.intervals)) (centers t) ∧
      All (Run.Sorted stopOf) t ∧ Stores tree t := by
  have hlen : (retained self.intervals).length ≤ self.intervals.length := List.length_filter_le _ _
  obtain ⟨p, t, ht, hrun, hst, -⟩ := exists_phases sorts sorted_nonempty
    (sorts.byStart.sorted startOf (retained self.intervals))
    (by rw [(sorts.byStart.perm _ _).length_eq]; omega)
  exact ⟨p.tree, t, build_eq_phases h p, ht, hrun, hst⟩

/-- **Correctness of `build`.** Below the size limit it returns a tree, and that tree stores the
retained entries. -/
theorem build_ok {self : IntervalTreeBuilder T V} (sorts : Sorts T V)
    (h : self.intervals.length < SIZE_LIMIT) :
    ∃ tree t, self.build sorts = .ok tree ∧ Built self.intervals tree t := by
  have hs := sorts.byStart.sorted startOf (retained self.intervals)
  obtain ⟨tree, t, hbuild, ht, hrun, hst⟩ := build_stores sorts h
  exact ⟨tree, t, hbuild, hst, ht.items_perm.trans (sorts.byStart.perm _ _),
    ht.centered sorted_nonempty hs, hrun, ht.halving sorted_nonempty hs⟩

theorem build_built {self : IntervalTreeBuilder T V} {sorts : Sorts T V} {tree : IntervalTree T V}
    (h : self.build sorts = .ok tree) : ∃ t, Built self.intervals tree t := by
  by_cases hlt : self.intervals.length < SIZE_LIMIT
  · obtain ⟨tree', t, h', hb⟩ := build_ok sorts hlt
    rw [h] at h'
    cases h'
    exact ⟨t, hb⟩
  · rw [build, buildBy, if_neg hlt] at h
    cases h

/-- **Totality of `build`.** Below the size limit the phases run without a fault: no index or slice
is out of range, no recursive call works on the range of its caller, no value is missing and no
cast drops bits. Every node owns an item when `compute_max_end` reads its first one, every value
has been taken at the end, and no index that a call returns for a part that is not empty, nor any
other index of a node, is `NULL`. -/
theorem build_total (self : IntervalTreeBuilder T V) (sorts : Sorts T V)
    (h : self.intervals.length < SIZE_LIMIT) :
    ∃ p : Phases sorts (sorts.byStart.byKey startOf (retained self.intervals)),
      self.build sorts = .ok p.tree ∧
      (∀ node ∈ p.st.nodes, node.indicesBegin < node.indicesEnd) ∧
      p.data.tempValues = List.replicate (retained self.intervals).length none ∧
      Covers p.st.nodes p.root 0 (retained self.intervals).length ∧
      ∀ i < p.tree.nodes.length, UInt32.ofNat i ≠ NULL := by
  have hperm := sorts.byStart.perm startOf (retained self.intervals)
  have hs := sorts.byStart.sorted startOf (retained self.intervals)
  have hlen : (retained self.intervals).length ≤ self.intervals.length := List.length_filter_le _ _
  obtain ⟨p, t, ht, -, hst, hown, hcovers, htaken⟩ := exists_phases sorts sorted_nonempty hs
    (by rw [hperm.length_eq]; omega)
  refine ⟨p, build_eq_phases h p, hown, hperm.length_eq ▸ htaken, hperm.length_eq ▸ hcovers,
    fun i hi => ofNat_ne_null ?_⟩
  have hnodes := numNodes_le_length_items (ht.centered sorted_nonempty hs)
  have hsize := hst.size
  rw [hst.nodes, length_flatNodes] at hi
  rw [SIZE_LIMIT] at hsize
  rw [UInt32.size]
  omega

/-- The root has a child on both sides, and two intervals are dropped. -/
theorem build_total_zero_width :
    let self : IntervalTreeBuilder Nat Nat :=
      ⟨[(⟨5, 5⟩, 0), (⟨3, 9⟩, 1), (⟨7, 2⟩, 2), (⟨0, 2⟩, 3), (⟨6, 8⟩, 4)]⟩
    let sorts : Sorts Nat Nat := .stable Nat Nat
    ∃ p : Phases sorts (sorts.byStart.byKey startOf (retained self.intervals)),
      self.build sorts = .ok p.tree ∧
      (∀ node ∈ p.st.nodes, node.indicesBegin < node.indicesEnd) ∧
      p.data.tempValues = List.replicate (retained self.intervals).length none ∧
      Covers p.st.nodes p.root 0 (retained self.intervals).length ∧
      ∀ i < p.tree.nodes.length, UInt32.ofNat i ≠ NULL :=
  build_total _ _ (by decide)

end IntervalTreeBuilder

end SimdIntervalTree
