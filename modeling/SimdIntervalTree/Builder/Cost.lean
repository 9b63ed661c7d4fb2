import SimdIntervalTree.Traversal.Depth
import SimdIntervalTree.Lib.CenterCost
import SimdIntervalTree.Lib.Counted

/-!
# The cost of a build

The recursion of the builder partitions its sub-range and copies it back. Every level of the tree
does so to each interval at most once, and as the sub-ranges halve there are few levels.
-/

namespace SimdIntervalTree

open Exec CenterTree

namespace IntervalTreeBuilder

variable {α T V : Type} [LinearOrder T] {lo hi : α → T} {pos : α → Nat} {starts ends : List T}
  {self : IntervalTreeBuilder T V} {sorts : Sorts T V}

/-- `buildNodeRecursive`, charged for the length of every sub-range that it partitions. -/
def buildNodeRecursiveCounted (starts ends : List T) (lo hi : Nat) (st : BuildState T) :
    Counted (UInt32 × BuildState T) := do
  Counted.charge (hi - lo)
  buildNode starts ends lo hi st fun lo' hi' _ st =>
    buildNodeRecursiveCounted starts ends lo' hi' st
termination_by hi - lo

theorem result_buildNode {lo hi : Nat} {st : BuildState T}
    (recurse : (lo' hi' : Nat) → hi' - lo' < hi - lo → BuildState T →
      Counted (UInt32 × BuildState T)) :
    (buildNode starts ends lo hi st recurse).result =
      buildNode starts ends lo hi st fun lo' hi' h st => (recurse lo' hi' h st).result := by
  rw [buildNode, buildNode, Counted.result_ite]
  refine if_congr Iff.rfl rfl ?_
  simp only [Counted.result_bind, Counted.result_liftM, Counted.result_dite, Counted.result_stop,
    liftM_eq, stop_eq]

theorem result_buildNodeRecursiveCounted (lo hi : Nat) (st : BuildState T) :
    (buildNodeRecursiveCounted starts ends lo hi st).result =
      buildNodeRecursive starts ends lo hi st := by
  induction hn : hi - lo using Nat.strong_induction_on generalizing lo hi st with
  | _ n ih =>
    subst hn
    rw [buildNodeRecursiveCounted, buildNodeRecursive, Counted.result_bind, Counted.result_charge,
      ok_bind, result_buildNode]
    congr 1
    funext lo' hi' h st
    exact ih _ h _ _ _ rfl

theorem buildNodeRecursiveCounted_atMost {xs : List α} {t : BinaryTree (Center T α)}
    (h : IsBuild lo hi xs t) (H : ∀ x ∈ xs, Reads lo hi pos starts ends x)
    (hlt : ∀ x ∈ xs, lo x < hi x) (pre post : List Nat) (nodes : List (NodeBuildData T))
    (scratch : PartitionScratch) (hsize : nodes.length + t.numNodes ≤ UInt32.size) :
    (buildNodeRecursiveCounted starts ends pre.length (pre.length + xs.length)
      ⟨pre ++ xs.map pos ++ post, nodes, scratch⟩).AtMost (work t) := by
  induction h generalizing pre post nodes scratch with
  | nil =>
    rw [buildNodeRecursiveCounted, buildNode, if_pos (by simp)]
    exact ((Counted.AtMost.charge _).bind_free fun _ _ => .pure _).mono (by simp)
  | @node xs m l r hm hl hr ihl ihr =>
    have hmem := List.mem_of_getElem? hm
    have hpos := List.length_pos_of_mem hmem
    have hparts := length_parts lo hi (lo m) xs
    obtain ⟨hltl, hltr⟩ := length_parts_lt hmem (hlt m hmem)
    have hlen := hl.inorder_perm.length_eq
    rw [buildNodeRecursiveCounted, work, (IsBuild.node hm hl hr).items_perm.length_eq]
    have hcharge := (Counted.AtMost.charge _).mono (Nat.add_sub_cancel_left pre.length xs.length).le
    refine hcharge.bind fun _ _ => ?_
    rw [buildNode, if_neg (by omega), splitNode_eq H hm, Counted.liftM_ok_bind]
    dsimp only
    rw [dif_pos (by omega)]
    rw [BinaryTree.numNodes] at hsize
    generalize (⟨lo m, lo m, pre.length + (leftPart hi (lo m) xs).length,
      pre.length + (leftPart hi (lo m) xs).length + (ownPart lo hi (lo m) xs).length,
      NULL, NULL⟩ : NodeBuildData T) = parent
    generalize (⟨(leftPart hi (lo m) xs).map pos, (ownPart lo hi (lo m) xs).map pos,
      (rightPart lo hi (lo m) xs).map pos⟩ : PartitionScratch) = parts
    -- the left child, which permutes its part and appends its nodes
    have hreads_l : ∀ x ∈ leftPart hi (lo m) xs, Reads lo hi pos starts ends x :=
      fun x hx => H x (List.mem_of_mem_filter hx)
    have hlt_l : ∀ x ∈ leftPart hi (lo m) xs, lo x < hi x :=
      fun x hx => hlt x (List.mem_of_mem_filter hx)
    have hcost_l := ihl hreads_l hlt_l pre
      ((ownPart lo hi (lo m) xs).map pos ++ (rightPart lo hi (lo m) xs).map pos ++ post)
      (nodes ++ [parent]) parts (by simp; omega)
    obtain ⟨s₁, h1⟩ := buildNodeRecursive_eq hl hreads_l hlt_l pre
      ((ownPart lo hi (lo m) xs).map pos ++ (rightPart lo hi (lo m) xs).map pos ++ post)
      (nodes ++ [parent]) parts (by simp; omega)
    have hcost_r := ihr (fun x hx => H x (List.mem_of_mem_filter hx))
      (fun x hx => hlt x (List.mem_of_mem_filter hx))
      (pre ++ (inorder l).map pos ++ (ownPart lo hi (lo m) xs).map pos) post
      (nodes ++ [parent] ++ buildNodes (fun c _ _ => c.pivot) (nodes.length + 1) pre.length l) s₁
      (by simp; omega)
    rw [← result_buildNodeRecursiveCounted] at h1
    simp only [List.append_assoc, List.length_append, List.length_map, List.length_singleton,
      hlen] at hcost_l h1 hcost_r ⊢
    refine hcost_l.bind fun left hleft => ?_
    rw [h1] at hleft
    cases hleft
    dsimp only
    rw [show pre.length + xs.length = pre.length + ((leftPart hi (lo m) xs).length +
      (ownPart lo hi (lo m) xs).length) + (rightPart lo hi (lo m) xs).length by omega,
      Nat.add_assoc pre.length]
    -- the right child, and the parent learns both for free
    exact hcost_r.bind_free fun right _ => .liftM _

/-- `build`, charged for the partitioning of its second phase. -/
def buildCounted (self : IntervalTreeBuilder T V) (sorts : Sorts T V) :
    Counted (IntervalTree T V) :=
  self.buildBy sorts buildNodeRecursiveCounted

theorem result_buildCounted : (self.buildCounted sorts).result = self.build sorts := by
  rw [buildCounted, build, buildBy, buildBy, Counted.result_ite]
  refine if_congr Iff.rfl ?_ rfl
  dsimp only
  rw [Counted.result_ite]
  refine if_congr Iff.rfl rfl ?_
  simp [result_buildNodeRecursiveCounted]

/-- The entries carry their positions through the partitions. -/
theorem exists_isBuild_zipIdx {sorted : List (Interval T × V)} (hne : ∀ e ∈ sorted, e.1.Nonempty)
    (hs : sorted.Pairwise fun a b => startOf a ≤ startOf b) (hsize : sorted.length < SIZE_LIMIT) :
    ∃ t, IsBuild (startOf ∘ Prod.fst) (stopOf ∘ Prod.fst) sorted.zipIdx t ∧
      IsBuild startOf stopOf sorted (t.map (Center.map Prod.fst)) ∧
      (∀ x ∈ sorted.zipIdx, (startOf ∘ Prod.fst) x < (stopOf ∘ Prod.fst) x) ∧
      t.numNodes ≤ UInt32.size := by
  have hlt : ∀ x ∈ sorted.zipIdx, (startOf ∘ Prod.fst) x < (stopOf ∘ Prod.fst) x :=
    fun x hx => hne _ (List.mem_of_getElem? (List.mem_zipIdx_iff_getElem?.mp hx))
  obtain ⟨t, ht⟩ := exists_isBuild (startOf ∘ Prod.fst) (stopOf ∘ Prod.fst) sorted.zipIdx hlt
  have hmap : IsBuild startOf stopOf sorted (t.map (Center.map Prod.fst)) := by
    have := ht.map
    rwa [List.zipIdx_map_fst] at this
  have hnodes := numNodes_le_length_items (hmap.centered hne hs)
  rw [numNodes_map, hmap.items_perm.length_eq] at hnodes
  have hlimit : SIZE_LIMIT < UInt32.size := by decide
  exact ⟨t, ht, hmap, hlt, by omega⟩

/-- The second phase is charged for the splitting of the sorted entries. -/
theorem exists_counted_atMost {sorted : List (Interval T × V)}
    (hne : ∀ e ∈ sorted, e.1.Nonempty)
    (hs : sorted.Pairwise fun a b => startOf a ≤ startOf b) (hsize : sorted.length < SIZE_LIMIT) :
    ∃ t, IsBuild startOf stopOf sorted t ∧
      (buildNodeRecursiveCounted (sorted.map (·.1.start)) (sorted.map (·.1.stop)) 0
        sorted.length ⟨List.range sorted.length, [], .cleared⟩).AtMost (work t) := by
  obtain ⟨t, ht, hmap, hlt, hnodes⟩ := exists_isBuild_zipIdx hne hs hsize
  have hcost := buildNodeRecursiveCounted_atMost ht (fun _ => reads_zipIdx) hlt [] [] []
    .cleared ((Nat.zero_add _).trans_le hnodes)
  simp only [List.nil_append, List.append_nil, List.length_nil, Nat.zero_add, List.length_zipIdx,
    List.zipIdx_map_snd, ← List.range_eq_range'] at hcost
  exact ⟨_, hmap, (work_map Prod.fst t).symm ▸ hcost⟩

/-- What the splitting of sorted entries costs at most. -/
theorem work_le_log {sorted : List (Interval T × V)} {t : BinaryTree (Center T (Interval T × V))}
    (h : IsBuild startOf stopOf sorted t) (hne : ∀ e ∈ sorted, e.1.Nonempty)
    (hs : sorted.Pairwise fun a b => startOf a ≤ startOf b) :
    work t ≤ sorted.length * (Nat.log 2 sorted.length + 1) := by
  have hheight := height_le_log (h.halving hne hs) (h.centered hne hs)
  have hwork := work_le t
  rw [h.items_perm.length_eq] at hheight hwork
  exact hwork.trans (Nat.mul_le_mul_left _ hheight)

theorem buildCounted_atMost : (self.buildCounted sorts).AtMost
    ((retained self.intervals).length * (Nat.log 2 (retained self.intervals).length + 1)) := by
  have hlen : (retained self.intervals).length ≤ self.intervals.length := List.length_filter_le _ _
  have hperm := sorts.byStart.perm startOf (retained self.intervals)
  have hs := sorts.byStart.sorted startOf (retained self.intervals)
  have hne : ∀ e ∈ sorts.byStart.byKey startOf (retained self.intervals), e.1.Nonempty :=
    sorted_nonempty
  rw [buildCounted, buildBy]
  split
  · obtain ⟨t, ht, hcost⟩ := exists_counted_atMost hne hs
      (by rw [hperm.length_eq]; omega)
    have hwork := work_le_log ht hne hs
    rw [hperm.length_eq] at hcost hwork
    change Counted.AtMost (if (retained self.intervals).length = 0 then _ else _) _
    split
    · exact (Counted.AtMost.pure _).mono (Nat.zero_le _)
    · refine (hcost.mono hwork).bind_free fun built _ => ?_
      -- the later phases are not charged for
      refine .bind_zero (.liftM _) fun nodeData _ => ?_
      refine .bind_zero (.liftM _) fun data _ => ?_
      exact .bind_zero (.liftM _) fun byEnd _ => .pure _
  · exact (Counted.AtMost.stop _).mono (Nat.zero_le _)

/-- **The cost of a build.** Below the size limit `build` returns, and its partitions have visited
each retained interval at most once a level of a tree whose height is logarithmic. -/
theorem build_visits_le (self : IntervalTreeBuilder T V) (sorts : Sorts T V)
    (h : self.intervals.length < SIZE_LIMIT) :
    ∃ tree visits, (self.buildCounted sorts).run = .ok (tree, visits) ∧
      self.build sorts = .ok tree ∧
      visits ≤ (retained self.intervals).length *
        (Nat.log 2 (retained self.intervals).length + 1) := by
  obtain ⟨tree, t, hbuild, -⟩ := build_ok sorts h
  obtain ⟨visits, hrun⟩ := Counted.eq_ok_of_result (result_buildCounted.trans hbuild)
  exact ⟨tree, visits, hrun, hbuild, buildCounted_atMost tree visits hrun⟩

theorem build_visits_le_nested :
    let self : IntervalTreeBuilder Nat Nat :=
      ⟨[(⟨0, 9⟩, 0), (⟨5, 5⟩, 1), (⟨1, 3⟩, 2), (⟨4, 6⟩, 3), (⟨6, 8⟩, 4)]⟩
    ∃ tree visits, (self.buildCounted (.stable Nat Nat)).run = .ok (tree, visits) ∧
      self.build (.stable Nat Nat) = .ok tree ∧
      visits ≤ (retained self.intervals).length *
        (Nat.log 2 (retained self.intervals).length + 1) :=
  build_visits_le _ _ (by decide)

end IntervalTreeBuilder

end SimdIntervalTree
