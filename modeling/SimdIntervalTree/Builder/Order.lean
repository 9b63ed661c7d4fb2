import SimdIntervalTree.Builder.WellFormed
import SimdIntervalTree.Lib.CenterTies

/-!
# Independence of the insertion order

Insertion order and the order that the unstable sorts give to ties reach the tree only through the
sorted entries, and these agree up to ties. What is laid out is then the same except for the items
of a node that tie.
-/

namespace SimdIntervalTree

open Exec CenterTree IntervalTreeBuilder

/-! ## Layouts of trees that are alike -/

namespace IntervalTreeBuilder

variable {α β γ T : Type} [LinearOrder T] {lo : γ → T} {f : α → γ} {g : β → γ} {base d : Nat}

theorem maxHi_eq (hi : γ → T) {c : Center T α} {c' : Center T β} {l r : BinaryTree (Center T α)}
    {l' r' : BinaryTree (Center T β)} (hpivot : c.pivot = c'.pivot)
    (h : ((items (.node c l r)).map f).Perm ((items (.node c' l' r')).map g)) :
    maxHi (hi ∘ f) c l r = maxHi (hi ∘ g) c' l' r' := by
  have hperm := h.map hi
  rw [List.map_map, List.map_map] at hperm
  have hmax : ((items (.node c l r)).map (hi ∘ f)).max? =
      ((items (.node c' l' r')).map (hi ∘ g)).max? := by
    ext m
    simp only [List.max?_eq_some_iff, hperm.mem_iff]
  rw [maxHi, maxHi, hmax, hpivot]

/-- A finished node shows of its keys their number and the largest end. -/
theorem flatNodes_eq (hi : γ → T) {t : BinaryTree (Center T α)} {t' : BinaryTree (Center T β)}
    (h : Alike lo f g t t') : flatNodes (hi ∘ f) base d t = flatNodes (hi ∘ g) base d t' := by
  have hroot {t : BinaryTree (Center T α)} {t' : BinaryTree (Center T β)}
      (h : Alike lo f g t t') (base : Nat) : rootIdx base t = rootIdx base t' := by
    cases h <;> rfl
  induction h generalizing base d with
  | nil => rfl
  | node hpivot hown hlo hl hr ihl ihr =>
    have hmax := maxHi_eq hi hpivot (Alike.node hpivot hown hlo hl hr).items_perm
    have hlen := hown.length_eq
    rw [List.length_map, List.length_map] at hlen
    simp only [flatNodes, flatNode, ihl, ihr, hpivot, hlen, hroot hl, hroot hr, hl.numNodes_eq,
      hl.length_items_eq, hmax]

/-- Ties are invisible in the descending ends. -/
theorem byEnds_map_eq (hi : γ → T) {t : BinaryTree (Run T α)} {t' : BinaryTree (Run T β)}
    (h : Alike lo f g (centers t) (centers t')) (hs : All (Run.Sorted (hi ∘ f)) t)
    (hs' : All (Run.Sorted (hi ∘ g)) t') :
    ((byEnds t).map fun e => hi (f e.1)) = (byEnds t').map fun e => hi (g e.1) := by
  induction t generalizing t' with
  | nil =>
    cases t' with
    | nil => rfl
    | node => cases h
  | node c l r ihl ihr =>
    cases t' with
    | nil => cases h
    | node c' l' r' =>
      obtain ⟨⟨hperm, hdesc⟩, hsl, hsr⟩ := hs
      obtain ⟨⟨hperm', hdesc'⟩, hsl', hsr'⟩ := hs'
      rw [centers_node, centers_node] at h
      cases h with
      | node _ hown _ hl hr =>
        have hkeys : ((c.byEnd.map (·.1)).map f).Perm ((c'.byEnd.map (·.1)).map g) :=
          (hperm.map f).trans (hown.trans (hperm'.map g).symm)
        have hends : (c.byEnd.map fun e => hi (f e.1)).Perm (c'.byEnd.map fun e => hi (g e.1)) := by
          simpa [Function.comp_def] using hkeys.map hi
        have hrun : (c.byEnd.map fun e => hi (f e.1)) = c'.byEnd.map fun e => hi (g e.1) := by
          apply hends.eq_of_pairwise' (r := (· ≥ ·))
          · exact List.pairwise_map.mpr hdesc
          · exact List.pairwise_map.mpr hdesc'
        simp only [byEnds, List.map_append, hrun, ihl hl hsl hsl', ihr hr hsr hsr']

/-- The data range of a node shows the keys of the node. -/
theorem dataRun_perm (hi : α → T) {t : BinaryTree (Center T α)} {t' : BinaryTree (Center T β)}
    (h : Alike lo f g t t') {xs ys : List γ} (hx : Segment xs d ((items t).map f))
    (hy : Segment ys d ((items t').map g)) (hsize : d + (items t).length < UInt32.size) :
    ∀ node ∈ flatNodes hi base d t, (node.dataRun xs).Perm (node.dataRun ys) := by
  induction h generalizing base d with
  | nil => intro _ hn; cases hn
  | @node c c' l r l' r' _ hown _ hl hr ihl ihr =>
    have hlen := hown.length_eq
    have hlenl := hl.length_items_eq
    rw [List.length_map, List.length_map] at hlen
    simp only [items_node, List.map_append, List.length_append] at hx hy hsize
    intro node hn
    rw [flatNodes, List.mem_cons, List.mem_append] at hn
    rcases hn with rfl | hn | hn
    · have hxs := hx.left.take_drop
      have hys := hy.left.take_drop
      rw [List.length_map] at hxs hys
      simp only [Node.dataRun, flatNode]
      rw [toNat_ofNat (by omega), toNat_ofNat (by omega), hxs, hlen, hys]
      exact hown
    · have hxs := hx.right.left
      have hys := hy.right.left
      rw [List.length_map] at hxs hys
      exact ihl hxs (hlen ▸ hys) (by omega) node hn
    · have hxs := hx.right.right
      have hys := hy.right.right
      rw [List.length_map, List.length_map] at hxs hys
      exact ihr hxs (by rwa [hlen, hlenl]) (by omega) node hn

end IntervalTreeBuilder

/-! ## Two builds -/

variable {T V : Type} [LinearOrder T] {tree tree' : IntervalTree T V}
  {t t' : BinaryTree (Run T (Interval T × V))}

namespace IntervalTree

/-- The stored intervals. -/
def intervals (tree : IntervalTree T V) : List (Interval T) :=
  List.zipWith Interval.mk tree.starts tree.ends

end IntervalTree

theorem Stores.intervals_eq (h : Stores tree t) :
    tree.intervals = (items (centers t)).map Prod.fst := by
  rw [IntervalTree.intervals, h.starts, h.ends, List.zipWith_map, List.zipWith_self]
  rfl

/-- Trees of sorted entries with the same keys. -/
theorem alike_of_perm {γ : Type} {lo : γ → T} (hi : γ → T) (f : Interval T × V → γ)
    (hlo : lo ∘ f = startOf) (hhi : hi ∘ f = stopOf) {sorts sorts' : Sorts T V}
    {input input' : List (Interval T × V)}
    (ht : IsBuild startOf stopOf (sorts.byStart.byKey startOf (retained input)) (centers t))
    (ht' : IsBuild startOf stopOf (sorts'.byStart.byKey startOf (retained input')) (centers t'))
    (hperm : ((retained input).map f).Perm ((retained input').map f)) :
    Alike lo f f (centers t) (centers t') := by
  have hs := sorts.byStart.sorted startOf (retained input)
  have hs' := sorts'.byStart.sorted startOf (retained input')
  have hkeys : ((sorts.byStart.byKey startOf (retained input)).map f).Perm
      ((sorts'.byStart.byKey startOf (retained input')).map f) :=
    ((sorts.byStart.perm _ _).map f).trans (hperm.trans ((sorts'.byStart.perm _ _).map f).symm)
  rw [← hlo, ← hhi] at ht ht'
  rw [← hlo] at hs hs' hkeys
  exact ht.alike ht' hkeys hs hs'

namespace IntervalTreeBuilder

/-- **The insertion order does not matter.** Builds from the same intervals, whatever their order
and values and however either build sorts ties, have the same nodes and the same sorted arrays, and
each node holds the same intervals, with the same values if these are the same as well. -/
theorem build_order_independent (input input' : List (Interval T × V)) (sorts sorts' : Sorts T V)
    (hperm : (input.map Prod.fst).Perm (input'.map Prod.fst)) (h : input.length < SIZE_LIMIT) :
    ∃ tree tree', (new.insertAll input).build sorts = .ok tree ∧
      (new.insertAll input').build sorts' = .ok tree' ∧
      tree.nodes = tree'.nodes ∧ tree.starts = tree'.starts ∧ tree.endsDesc = tree'.endsDesc ∧
      (∀ node ∈ tree.nodes,
        (node.dataRun tree.intervals).Perm (node.dataRun tree'.intervals)) ∧
      (input.Perm input' → ∀ node ∈ tree.nodes,
        (node.dataRun tree.entries).Perm (node.dataRun tree'.entries)) := by
  have hlen : input.length = input'.length := by simpa using hperm.length_eq
  rw [new_insertAll, new_insertAll]
  obtain ⟨tree, t, hbuild, ht, hrun, hst⟩ := build_stores sorts
    (show (mk input).intervals.length < SIZE_LIMIT from h)
  obtain ⟨tree', t', hbuild', ht', hrun', hst'⟩ :=
    build_stores sorts'
    (show (mk input').intervals.length < SIZE_LIMIT from hlen ▸ h)
  have hsize : 0 + (items (centers t)).length < UInt32.size := by
    have := hst.size
    rw [SIZE_LIMIT] at this
    rw [UInt32.size]
    omega
  have halike : Alike Interval.start Prod.fst Prod.fst (centers t) (centers t') :=
    alike_of_perm Interval.stop Prod.fst rfl rfl ht ht'
      (filter_map_perm (fun i : Interval T => decide (i.start < i.stop)) hperm)
  refine ⟨tree, tree', hbuild, hbuild', ?_, ?_, ?_, ?_, fun hentries => ?_⟩
  · rw [hst.nodes, hst'.nodes]
    exact flatNodes_eq Interval.stop halike
  · rw [hst.starts, hst'.starts]
    exact halike.items_map_lo
  · rw [hst.endsDesc, hst'.endsDesc]
    exact byEnds_map_eq Interval.stop halike hrun hrun'
  · rw [hst.nodes, hst.intervals_eq, hst'.intervals_eq]
    exact dataRun_perm stopOf halike .refl .refl hsize
  · have hsame : Alike startOf id id (centers t) (centers t') :=
      alike_of_perm stopOf id rfl rfl ht ht' ((hentries.filter _).map id)
    rw [hst.nodes, hst.entries_eq, hst'.entries_eq]
    exact dataRun_perm stopOf hsame (by simpa using .refl) (by simpa using .refl) hsize

/-- A sort that turns ties around. -/
def turned (α κ : Type) [LinearOrder κ] : SortUnstable α κ where
  byKey key xs := (SortUnstable.stable α κ).byKey key xs.reverse
  perm key xs := ((SortUnstable.stable α κ).perm key xs.reverse).trans xs.reverse_perm
  sorted key xs := (SortUnstable.stable α κ).sorted key xs.reverse

theorem build_order_independent_ties :
    let input : List (Interval Nat × Nat) := [(⟨1, 4⟩, 0), (⟨2, 3⟩, 1), (⟨1, 6⟩, 2), (⟨1, 5⟩, 3)]
    let input' : List (Interval Nat × Nat) := [(⟨1, 5⟩, 7), (⟨1, 6⟩, 7), (⟨1, 4⟩, 8), (⟨2, 3⟩, 9)]
    ∃ tree tree', (new.insertAll input).build (.stable Nat Nat) = .ok tree ∧
      (new.insertAll input').build ⟨turned _ _, turned _ _⟩ = .ok tree' ∧
      tree.nodes = tree'.nodes ∧ tree.starts = tree'.starts ∧ tree.endsDesc = tree'.endsDesc ∧
      (∀ node ∈ tree.nodes,
        (node.dataRun tree.intervals).Perm (node.dataRun tree'.intervals)) ∧
      (input.Perm input' → ∀ node ∈ tree.nodes,
        (node.dataRun tree.entries).Perm (node.dataRun tree'.entries)) :=
  build_order_independent _ _ _ _ (by decide) (by decide)

end IntervalTreeBuilder

end SimdIntervalTree
