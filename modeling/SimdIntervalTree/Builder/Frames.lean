import SimdIntervalTree.Builder.Cost

/-!
# How deep the builder nests

`build_node_recursive` calls itself for both parts beside a pivot, empty ones included. As the parts
halve, a stack with room for a logarithmic number of frames is enough.
-/

namespace SimdIntervalTree

open Exec CenterTree

namespace IntervalTreeBuilder

variable {α T V : Type} [LinearOrder T] {lo hi : α → T} {pos : α → Nat} {starts ends : List T}

/-- `buildNodeRecursive`, with at most `frames` calls open at a time. -/
def buildNodeRecursiveWithin (starts ends : List T) :
    Nat → Nat → Nat → BuildState T → Exec (UInt32 × BuildState T)
  | 0, _, _, _ => .error .fuel
  | frames + 1, lo, hi, st => buildNode starts ends lo hi st fun lo' hi' _ st =>
    buildNodeRecursiveWithin starts ends frames lo' hi' st

/-- A call for each level and one for an empty part below are enough. -/
theorem buildNodeRecursiveWithin_eq {xs : List α} {t : BinaryTree (Center T α)}
    (h : IsBuild lo hi xs t) (H : ∀ x ∈ xs, Reads lo hi pos starts ends x)
    (hlt : ∀ x ∈ xs, lo x < hi x) (pre post : List Nat) (nodes : List (NodeBuildData T))
    (scratch : PartitionScratch) (hsize : nodes.length + t.numNodes ≤ UInt32.size) {frames : Nat}
    (hf : t.height < frames) :
    buildNodeRecursiveWithin starts ends frames pre.length (pre.length + xs.length)
        ⟨pre ++ xs.map pos ++ post, nodes, scratch⟩ =
      buildNodeRecursive starts ends pre.length (pre.length + xs.length)
        ⟨pre ++ xs.map pos ++ post, nodes, scratch⟩ := by
  obtain ⟨frames, rfl⟩ : ∃ f, frames = f + 1 := ⟨frames - 1, by omega⟩
  induction h generalizing pre post nodes scratch frames with
  | nil =>
    rw [buildNodeRecursiveWithin, buildNodeRecursive, buildNode, buildNode, if_pos (by simp),
      if_pos (by simp)]
  | @node xs m l r hm hl hr ihl ihr =>
    have hmem := List.mem_of_getElem? hm
    have hpos := List.length_pos_of_mem hmem
    have hparts := length_parts lo hi (lo m) xs
    obtain ⟨hltl, hltr⟩ := length_parts_lt hmem (hlt m hmem)
    have hlen := hl.inorder_perm.length_eq
    rw [BinaryTree.height] at hf
    rw [BinaryTree.numNodes] at hsize
    obtain ⟨frames, rfl⟩ : ∃ f, frames = f + 1 := ⟨frames - 1, by omega⟩
    have hfl : l.height < frames + 1 := by omega
    have hfr : r.height < frames + 1 := by omega
    rw [buildNodeRecursiveWithin, buildNodeRecursive, buildNode, buildNode, if_neg (by omega),
      if_neg (by omega), splitNode_eq H hm, liftM_eq, ok_bind, ok_bind]
    dsimp only
    rw [dif_pos (by omega), dif_pos (by omega)]
    generalize (⟨lo m, lo m, pre.length + (leftPart hi (lo m) xs).length,
      pre.length + (leftPart hi (lo m) xs).length + (ownPart lo hi (lo m) xs).length,
      NULL, NULL⟩ : NodeBuildData T) = parent
    generalize (⟨(leftPart hi (lo m) xs).map pos, (ownPart lo hi (lo m) xs).map pos,
      (rightPart lo hi (lo m) xs).map pos⟩ : PartitionScratch) = parts
    -- the left child, which permutes its part and appends its nodes
    have hreads_l : ∀ x ∈ leftPart hi (lo m) xs, Reads lo hi pos starts ends x :=
      fun x hx => H x (List.mem_of_mem_filter hx)
    have hlt_l : ∀ x ∈ leftPart hi (lo m) xs, lo x < hi x :=
      fun x hx => hlt x (List.mem_of_mem_filter hx)
    have hleft := ihl hreads_l hlt_l pre
      ((ownPart lo hi (lo m) xs).map pos ++ (rightPart lo hi (lo m) xs).map pos ++ post)
      (nodes ++ [parent]) parts (by simp; omega) frames hfl
    obtain ⟨s₁, h1⟩ := buildNodeRecursive_eq hl hreads_l hlt_l pre
      ((ownPart lo hi (lo m) xs).map pos ++ (rightPart lo hi (lo m) xs).map pos ++ post)
      (nodes ++ [parent]) parts (by simp; omega)
    have hright := ihr (fun x hx => H x (List.mem_of_mem_filter hx))
      (fun x hx => hlt x (List.mem_of_mem_filter hx))
      (pre ++ (inorder l).map pos ++ (ownPart lo hi (lo m) xs).map pos) post
      (nodes ++ [parent] ++ buildNodes (fun c _ _ => c.pivot) (nodes.length + 1) pre.length l) s₁
      (by simp; omega) frames hfr
    simp only [List.append_assoc, List.length_append, List.length_map, List.length_singleton,
      hlen] at hleft h1 hright ⊢
    rw [hleft, h1, ok_bind, ok_bind]
    dsimp only
    rw [show pre.length + xs.length = pre.length + ((leftPart hi (lo m) xs).length +
      (ownPart lo hi (lo m) xs).length) + (rightPart lo hi (lo m) xs).length by omega,
      Nat.add_assoc pre.length, hright]

theorem height_map {β γ : Type} {f : β → γ} {t : BinaryTree β} :
    (t.map f).height = t.height := by
  induction t with
  | nil => rfl
  | node x l r ihl ihr => rw [BinaryTree.map, BinaryTree.height, ihl, ihr, BinaryTree.height]

theorem buildNodeRecursiveWithin_sorted {sorted : List (Interval T × V)}
    (hne : ∀ e ∈ sorted, e.1.Nonempty)
    (hs : sorted.Pairwise fun a b => startOf a ≤ startOf b) (hsize : sorted.length < SIZE_LIMIT) :
    buildNodeRecursiveWithin (sorted.map (·.1.start)) (sorted.map (·.1.stop))
        (Nat.log 2 sorted.length + 2) 0 sorted.length
        ⟨List.range sorted.length, [], .cleared⟩ =
      buildNodeRecursive (sorted.map (·.1.start)) (sorted.map (·.1.stop)) 0 sorted.length
        ⟨List.range sorted.length, [], .cleared⟩ := by
  obtain ⟨t, ht, hmap, hlt, hnodes⟩ := exists_isBuild_zipIdx hne hs hsize
  have hheight := height_le_log (hmap.halving hne hs) (hmap.centered hne hs)
  rw [height_map, hmap.items_perm.length_eq] at hheight
  have hwithin := buildNodeRecursiveWithin_eq ht (fun _ => reads_zipIdx) hlt [] [] [] .cleared
    ((Nat.zero_add _).trans_le hnodes) (Nat.lt_succ_of_le hheight)
  simpa only [List.nil_append, List.append_nil, List.length_nil, Nat.zero_add,
    List.length_zipIdx, List.zipIdx_map_snd, ← List.range_eq_range'] using hwithin

/-- `build`, with room for `frames` calls in its second phase. -/
def buildWithin (self : IntervalTreeBuilder T V) (frames : Nat) (sorts : Sorts T V) :
    Exec (IntervalTree T V) :=
  self.buildBy sorts fun starts ends => buildNodeRecursiveWithin starts ends frames

/-- **A build needs a logarithmic stack.** Whatever was inserted, it does the same if there is room
for one call a level and one more. -/
theorem build_frames (self : IntervalTreeBuilder T V) (sorts : Sorts T V) :
    self.buildWithin (Nat.log 2 (retained self.intervals).length + 2) sorts = self.build sorts := by
  have hlen : (retained self.intervals).length ≤ self.intervals.length := List.length_filter_le _ _
  have hperm := sorts.byStart.perm startOf (retained self.intervals)
  rw [buildWithin, build, buildBy, buildBy]
  split
  · have hwithin := buildNodeRecursiveWithin_sorted sorted_nonempty
      (sorts.byStart.sorted startOf (retained self.intervals)) (by rw [hperm.length_eq]; omega)
    rw [hperm.length_eq] at hwithin
    refine if_congr Iff.rfl rfl ?_
    exact congrArg (· >>= _) hwithin
  · rfl

end IntervalTreeBuilder

end SimdIntervalTree
