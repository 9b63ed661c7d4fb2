import SimdIntervalTree.Builder.Layout

/-!
# The by-end phase

For each node the positions of its run are sorted by descending end. The sort is some sorted
permutation, so the phase determines the by-end lists of a tree of `Run`s up to ties.
-/

namespace SimdIntervalTree

open Exec CenterTree

/-- A permutation of an image is the image of a permutation. -/
theorem exists_perm_of_perm_map {α β : Type} {f : α → β} {ys : List β} {xs : List α}
    (h : ys.Perm (xs.map f)) : ∃ zs : List α, zs.Perm xs ∧ zs.map f = ys := by
  have hxs : List.Forall₂ (fun y x => y = f x) (xs.map f) xs := by
    rw [List.forall₂_map_left_iff]
    exact List.forall₂_same.mpr fun _ _ => rfl
  obtain ⟨zs, hzs, hperm⟩ := List.perm_comp_forall₂ h hxs
  refine ⟨zs, hperm, ?_⟩
  rw [← List.forall₂_eq_eq_eq, List.forall₂_map_left_iff]
  exact hzs.flip.imp fun _ _ e => e.symm

namespace IntervalTreeBuilder

variable {α T V : Type}

/-- The by-end lists of a tree, in preorder. -/
def byEnds : BinaryTree (Run T α) → List (α × Nat)
  | .nil => []
  | .node c l r => c.byEnd ++ (byEnds l ++ byEnds r)

/-- Each by-end list pairs the items of its node with their positions, from `d` on. -/
def Numbered : Nat → BinaryTree (Run T α) → Prop
  | _, .nil => True
  | d, .node c l r => c.byEnd.Perm (c.own.zipIdx d) ∧ Numbered (d + c.own.length) l ∧
      Numbered (d + c.own.length + (items (centers l)).length) r

theorem Numbered.length_byEnds {d : Nat} {t : BinaryTree (Run T α)} (h : Numbered d t) :
    (byEnds t).length = (items (centers t)).length := by
  induction t generalizing d with
  | nil => rfl
  | node c l r ihl ihr =>
    obtain ⟨hc, hl, hr⟩ := h
    have := hc.length_eq
    rw [List.length_zipIdx] at this
    simp [byEnds, this, ihl hl, ihr hr]

theorem Numbered.mem_byEnds {d : Nat} {t : BinaryTree (Run T α)} (h : Numbered d t)
    {e : α × Nat} (he : e ∈ byEnds t) :
    d ≤ e.2 ∧ (items (centers t))[e.2 - d]? = some e.1 := by
  induction t generalizing d with
  | nil => cases he
  | node c l r ihl ihr =>
    obtain ⟨hc, hl, hr⟩ := h
    rw [byEnds, List.mem_append, List.mem_append] at he
    rw [centers_node, items_node]
    rcases he with he | he | he
    · obtain ⟨hle, hget⟩ := List.mem_zipIdx_iff_le_and_getElem?_sub.mp (hc.mem_iff.mp he)
      have hlt := (List.getElem?_eq_some_iff.mp hget).1
      exact ⟨hle, by rwa [List.getElem?_append_left hlt]⟩
    · obtain ⟨hle, hget⟩ := ihl hl he
      have hlt := (List.getElem?_eq_some_iff.mp hget).1
      refine ⟨by omega, ?_⟩
      rw [List.getElem?_append_right (by omega), List.getElem?_append_left (by omega), ← hget]
      congr 1
      omega
    · obtain ⟨hle, hget⟩ := ihr hr he
      refine ⟨by omega, ?_⟩
      rw [List.getElem?_append_right (by omega), List.getElem?_append_right (by omega), ← hget]
      congr 1
      omega

variable {hi : α → T} {ends : List T}

theorem withEnds_eq {ps : List (α × Nat)}
    (H : ∀ e ∈ ps, e.2 < UInt32.size ∧ ends[e.2]? = some (hi e.1)) :
    withEnds ends (ps.map fun e => UInt32.ofNat e.2) =
      .ok (ps.map fun e => (UInt32.ofNat e.2, hi e.1)) := by
  induction ps with
  | nil => rfl
  | cons e ps ih =>
    obtain ⟨hlt, he⟩ := H e List.mem_cons_self
    rw [List.map_cons, withEnds, toNat_ofNat hlt, index_eq_ok.mpr he, ok_bind,
      ih fun e he => H e (List.mem_cons_of_mem _ he)]
    rfl

theorem positions_eq {d : Nat} {own : List α} (h : d + own.length < UInt32.size) :
    positions (UInt32.ofNat d) (UInt32.ofNat (d + own.length)) =
      (own.zipIdx d).map fun e => UInt32.ofNat e.2 := by
  rw [positions, toNat_ofNat (by omega), toNat_ofNat h, Nat.add_sub_cancel_left,
    ← List.zipIdx_map_snd, List.map_map]
  rfl

variable [LinearOrder T]

/-- One round of the loop: the run of a node, sorted. -/
theorem byEndRuns_step (sorts : Sorts T V) (base : Nat) {d : Nat} {c : Center T α}
    (l r : BinaryTree (Center T α)) (rest : List (Node T)) (out : ByEnd T)
    (hd : out.endsDesc.length = d) (hends : ∀ e ∈ c.own.zipIdx d, ends[e.2]? = some (hi e.1))
    (hsize : d + c.own.length < UInt32.size) :
    ∃ byEnd : List (α × Nat), byEnd.Perm (c.own.zipIdx d) ∧
      byEnd.Pairwise (fun a b => hi b.1 ≤ hi a.1) ∧
      byEndRuns sorts ends (clearByEnd (flatNode hi base d c l r) :: rest) out =
        byEndRuns sorts ends rest
          { nodes := out.nodes ++ [flatNode hi base d c l r]
            endsDesc := out.endsDesc ++ byEnd.map fun e => hi e.1
            byEndIndices := out.byEndIndices ++ byEnd.map fun e => UInt32.ofNat e.2 } := by
  have H (e) (he : e ∈ c.own.zipIdx d) : e.2 < UInt32.size ∧ ends[e.2]? = some (hi e.1) :=
    ⟨(List.snd_lt_add_of_mem_zipIdx he).trans_le (by omega), hends e he⟩
  obtain ⟨byEnd, hperm, hmap⟩ := exists_perm_of_perm_map (sorts.byEnd.perm
    (fun i => OrderDual.toDual i.2) ((c.own.zipIdx d).map fun e => (UInt32.ofNat e.2, hi e.1)))
  have hsorted := sorts.byEnd.sorted (fun i => OrderDual.toDual i.2)
    ((c.own.zipIdx d).map fun e => (UInt32.ofNat e.2, hi e.1))
  rw [← hmap, List.pairwise_map] at hsorted
  have hlen : byEnd.length = c.own.length := by rw [hperm.length_eq, List.length_zipIdx]
  refine ⟨byEnd, hperm, hsorted, ?_⟩
  rw [byEndRuns, asU32_of_lt (by omega), ok_bind]
  simp only [clearByEnd, flatNode]
  rw [positions_eq hsize, withEnds_eq H, ok_bind, ← hmap, List.map_map]
  have hrun : withEnds ends (byEnd.map fun e => UInt32.ofNat e.2) =
      .ok (byEnd.map fun e => (UInt32.ofNat e.2, hi e.1)) :=
    withEnds_eq fun e he => H e (hperm.mem_iff.mp he)
  simp only [Function.comp_def, hrun, ok_bind, List.map_map, List.length_append, List.length_map,
    hlen, hd]
  rw [asU32_of_lt hsize, ok_bind]

theorem byEndRuns_eq (sorts : Sorts T V) {t : BinaryTree (Center T α)} (base d : Nat)
    (rest : List (Node T)) (out : ByEnd T) (pre post : List T)
    (hd : out.endsDesc.length = d) (hpre : pre.length = d)
    (hends : ends = pre ++ (items t).map hi ++ post) (hsize : d + (items t).length < UInt32.size) :
    ∃ t' : BinaryTree (Run T α), centers t' = t ∧ All (Run.Sorted hi) t' ∧ Numbered d t' ∧
      byEndRuns sorts ends ((flatNodes hi base d t).map clearByEnd ++ rest) out =
        byEndRuns sorts ends rest
          { nodes := out.nodes ++ flatNodes hi base d t
            endsDesc := out.endsDesc ++ (byEnds t').map fun e => hi e.1
            byEndIndices := out.byEndIndices ++ (byEnds t').map fun e => UInt32.ofNat e.2 } := by
  induction t generalizing base d rest out pre post with
  | nil => exact ⟨.nil, rfl, trivial, trivial, by simp [flatNodes, byEnds]⟩
  | node c l r ihl ihr =>
    simp only [items_node, List.map_append, List.length_append] at hends hsize
    have hown (e) (he : e ∈ c.own.zipIdx d) : ends[e.2]? = some (hi e.1) := by
      obtain ⟨hle, he⟩ := List.mem_zipIdx_iff_le_and_getElem?_sub.mp he
      have hlt : e.2 - d < c.own.length := (List.getElem?_eq_some_iff.mp he).1
      rw [hends, List.append_assoc, List.getElem?_append_right (by omega), hpre,
        List.append_assoc, List.getElem?_append_left (by simpa using hlt), List.getElem?_map, he]
      rfl
    obtain ⟨byEnd, hperm, hsorted, hstep⟩ := byEndRuns_step sorts base l r
      ((flatNodes hi (base + 1) (d + c.own.length) l).map clearByEnd ++
        ((flatNodes hi (base + 1 + l.numNodes) (d + c.own.length + (items l).length) r).map
          clearByEnd ++ rest)) out hd hown (by omega)
    have hlen : byEnd.length = c.own.length := by rw [hperm.length_eq, List.length_zipIdx]
    obtain ⟨l', rfl, hl, hnl, el⟩ := ihl (base + 1) (d + c.own.length)
      ((flatNodes hi (base + 1 + l.numNodes) (d + c.own.length + (items l).length) r).map
        clearByEnd ++ rest)
      { nodes := out.nodes ++ [flatNode hi base d c l r]
        endsDesc := out.endsDesc ++ byEnd.map fun e => hi e.1
        byEndIndices := out.byEndIndices ++ byEnd.map fun e => UInt32.ofNat e.2 }
      (pre ++ c.own.map hi) ((items r).map hi ++ post) (by simp [hd, hlen]) (by simp [hpre])
      (by simp [hends]) (by omega)
    obtain ⟨r', rfl, hr, hnr, er⟩ := ihr (base + 1 + (centers l').numNodes)
      (d + c.own.length + (items (centers l')).length) rest
      { nodes := out.nodes ++ [flatNode hi base d c (centers l') r] ++
          flatNodes hi (base + 1) (d + c.own.length) (centers l')
        endsDesc := (out.endsDesc ++ byEnd.map fun e => hi e.1) ++ (byEnds l').map fun e => hi e.1
        byEndIndices := (out.byEndIndices ++ byEnd.map fun e => UInt32.ofNat e.2) ++
          (byEnds l').map fun e => UInt32.ofNat e.2 }
      (pre ++ c.own.map hi ++ (items (centers l')).map hi) post
      (by simp [hd, hlen, hnl.length_byEnds]; omega) (by simp [hpre]; omega)
      (by simp [hends]) (by omega)
    have hfst : (byEnd.map (·.1)).Perm c.own := by
      have := hperm.map (·.1)
      rwa [List.zipIdx_map_fst] at this
    refine ⟨.node ⟨c, byEnd⟩ l' r', rfl, ⟨⟨hfst, hsorted⟩, hl, hr⟩, ⟨hperm, hnl, hnr⟩, ?_⟩
    simp only [flatNodes, byEnds, List.map_append, List.map_cons, List.append_assoc,
      List.cons_append, List.nil_append] at hstep el er ⊢
    rw [hstep, el, er]

end IntervalTreeBuilder

end SimdIntervalTree
