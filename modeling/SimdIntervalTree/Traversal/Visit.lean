import SimdIntervalTree.Builder.Represents
import SimdIntervalTree.Lib.Iterator

/-!
# Visiting one node

`visit` hands out a run that begins with the hits of the node, and `nextHit` stops where they end.
How long the run is beyond that depends on the strategy, as long as it is `Admissible`.
-/

namespace SimdIntervalTree

open Exec CenterTree SortedPrefix IntervalTreeBuilder

variable {T V : Type} [LinearOrder T]

/-! ## Strategies -/

namespace Cutoffs

/-- The answers on sorted runs lie between the boundary and the end of the run. -/
structure Admissible (C : Cutoffs T) : Prop where
  firstGe : ∀ (xs : List T) (t : T), xs.Pairwise (· ≤ ·) → ∃ k, C.firstGe xs t = .ok k ∧
    xs.findIdx (fun x => decide (t ≤ x)) ≤ k ∧ k ≤ xs.length
  firstLe : ∀ (xs : List T) (t : T), xs.Pairwise (· ≥ ·) → ∃ k, C.firstLe xs t = .ok k ∧
    xs.findIdx (fun x => decide (x ≤ t)) ≤ k ∧ k ≤ xs.length

/-- The answers on sorted runs are the boundaries. -/
structure Exact (C : Cutoffs T) : Prop where
  firstGe : ∀ (xs : List T) (t : T), xs.Pairwise (· ≤ ·) →
    C.firstGe xs t = .ok (xs.findIdx fun x => decide (t ≤ x))
  firstLe : ∀ (xs : List T) (t : T), xs.Pairwise (· ≥ ·) →
    C.firstLe xs t = .ok (xs.findIdx fun x => decide (x ≤ t))

theorem Exact.admissible {C : Cutoffs T} (h : C.Exact) : C.Admissible where
  firstGe xs t hs := ⟨_, h.firstGe xs t hs, Nat.le_refl _, List.findIdx_le_length⟩
  firstLe xs t hs := ⟨_, h.firstLe xs t hs, Nat.le_refl _, List.findIdx_le_length⟩

end Cutoffs

theorem scalar_admissible : (Scalar : Cutoffs T).Admissible where
  firstGe xs _ _ := ⟨xs.length, rfl, List.findIdx_le_length, Nat.le_refl _⟩
  firstLe xs _ _ := ⟨xs.length, rfl, List.findIdx_le_length, Nat.le_refl _⟩

/-! ## Runs -/

variable {tree : IntervalTree T V} {query : Interval T}

/-- The hits that are left in a scan. -/
def ScanYields (tree : IntervalTree T V) (query : Interval T) (scan : Scan)
    (es : List (Interval T × V)) : Prop :=
  ∃ last, Yields (tree.nextHit · query) scan es last

theorem nextHit_exhausted {scan : Scan} (h : scan.run.stop ≤ scan.run.start) :
    tree.nextHit scan query = .ok (none, scan) := by
  have hnext : scan.run.next = (none, scan.run) := if_neg (not_lt.mpr h)
  cases scan with
  | All run | EndsAbove run | StartsBelow run =>
    rw [Scan.run] at hnext
    simp only [IntervalTree.nextHit, hnext]
    rfl

theorem Range.next_cases {run run' : Range} {pos : Option Nat} (h : run.next = (pos, run')) :
    (pos = none ∧ run'.stop ≤ run'.start) ∨ (pos.isSome ∧ run'.len < run.len) := by
  rw [Range.next] at h
  split at h
  · cases h
    refine .inr ⟨rfl, ?_⟩
    simp only [Range.len]
    omega
  · cases h
    exact .inl ⟨rfl, not_lt.mp ‹_›⟩

/-- A scan is exhausted or hands out a hit and gets shorter. -/
theorem nextHit_cases {scan scan' : Scan} {hit : Option (Interval T × V)}
    (h : tree.nextHit scan query = .ok (hit, scan')) :
    (hit = none ∧ scan'.run.stop ≤ scan'.run.start) ∨
      (hit.isSome ∧ scan'.run.len < scan.run.len) := by
  cases scan with
  | All run =>
    rcases hr : run.next with ⟨_ | pos, run'⟩ <;> simp only [IntervalTree.nextHit, hr] at h
    · cases h
      exact .inl ⟨rfl, ((Range.next_cases hr).resolve_right nofun).2⟩
    · obtain ⟨e, -, h⟩ := bind_eq_ok.mp h
      cases h
      exact .inr ⟨rfl, ((Range.next_cases hr).resolve_left nofun).2⟩
  | EndsAbove run | StartsBelow run =>
    rcases hr : run.next with ⟨_ | pos, run'⟩ <;> simp only [IntervalTree.nextHit, hr] at h
    · cases h
      exact .inl ⟨rfl, ((Range.next_cases hr).resolve_right nofun).2⟩
    · obtain ⟨bound, -, h⟩ := bind_eq_ok.mp h
      split at h
      · cases h
        exact .inl ⟨rfl, Nat.le_refl _⟩
      · obtain ⟨e, -, h⟩ := bind_eq_ok.mp h
        cases h
        exact .inr ⟨rfl, ((Range.next_cases hr).resolve_left nofun).2⟩

theorem stable_nextHit : Stable (tree.nextHit · query) :=
  fun _ _ h => nextHit_exhausted ((nextHit_cases h).resolve_right nofun).2

/-- At `pos` a scan hands out `x`, or stops there because `x` is not to be kept. -/
def StepsAt (tree : IntervalTree T V) (query : Interval T) (scan : Range → Scan)
    (keep : Interval T × V → Bool) (pos : Nat) (x : Interval T × V) : Prop :=
  ∀ stop, pos < stop → tree.nextHit (scan ⟨pos, stop⟩) query =
    .ok (if keep x then (some x, scan ⟨pos + 1, stop⟩) else (none, scan ⟨pos, pos⟩))

variable {pos k : Nat} {x : Interval T × V}

theorem stepsAt_all (hx : tree.byStart pos = .ok x) :
    StepsAt tree query .All (fun _ => true) pos x := by
  intro stop h
  have hnext : Range.next ⟨pos, stop⟩ = (some pos, ⟨pos + 1, stop⟩) := if_pos h
  simp only [IntervalTree.nextHit, hnext, hx, ok_bind]
  rfl

theorem stepsAt_startsBelow (hx : tree.byStart pos = .ok x)
    (hs : tree.starts[pos]? = some (startOf x)) :
    StepsAt tree query .StartsBelow (fun x => decide (startOf x < query.stop)) pos x := by
  intro stop h
  have hnext : Range.next ⟨pos, stop⟩ = (some pos, ⟨pos + 1, stop⟩) := if_pos h
  simp only [IntervalTree.nextHit, hnext, index_eq_ok.mpr hs, hx, ok_bind]
  by_cases hlt : startOf x < query.stop
  · rw [if_neg (not_le.mpr hlt), if_pos (decide_eq_true hlt)]
    rfl
  · rw [if_pos (not_lt.mp hlt), if_neg (by simpa using hlt)]
    rfl

theorem stepsAt_endsAbove (hx : tree.byEnd pos = .ok x)
    (hs : tree.endsDesc[pos]? = some (stopOf x)) :
    StepsAt tree query .EndsAbove (fun x => decide (query.start < stopOf x)) pos x := by
  intro stop h
  have hnext : Range.next ⟨pos, stop⟩ = (some pos, ⟨pos + 1, stop⟩) := if_pos h
  simp only [IntervalTree.nextHit, hnext, index_eq_ok.mpr hs, hx, ok_bind]
  by_cases hlt : query.start < stopOf x
  · rw [if_neg (not_le.mpr hlt), if_pos (decide_eq_true hlt)]
    rfl
  · rw [if_pos (not_lt.mp hlt), if_neg (by simpa using hlt)]
    rfl

/-- A run yields the prefix to be kept, however long it is beyond that prefix. -/
theorem scanYields_takeWhile {scan : Range → Scan} {keep : Interval T × V → Bool}
    (hrun : ∀ run, (scan run).run = run) {xs : List (Interval T × V)}
    (H : ∀ i x, xs[i]? = some x → StepsAt tree query scan keep (pos + i) x)
    (hk : (xs.takeWhile keep).length ≤ k) (hlen : k ≤ xs.length) :
    ScanYields tree query (scan ⟨pos, pos + k⟩) (xs.takeWhile keep) := by
  have hempty (p : Nat) : ScanYields tree query (scan ⟨p, p⟩) [] :=
    ⟨_, .done (nextHit_exhausted (by rw [hrun]))⟩
  induction xs generalizing pos k with
  | nil =>
    obtain rfl : k = 0 := Nat.le_zero.mp hlen
    exact hempty pos
  | cons x xs ih =>
    have hx := H 0 x rfl
    rw [Nat.add_zero] at hx
    by_cases hkeep : keep x = true
    · rw [List.takeWhile_cons_of_pos hkeep] at hk ⊢
      obtain ⟨k, rfl⟩ : ∃ j, k = j + 1 := ⟨k - 1, by simp at hk; omega⟩
      have hrest := @ih (pos + 1) k (fun i y hy => by
        rw [Nat.add_assoc, Nat.add_comm 1 i]
        exact H (i + 1) y hy) (by simpa using hk) (by simpa using hlen)
      obtain ⟨last, hrest⟩ := hrest
      have hstep := hx (pos + (k + 1)) (by omega)
      rw [if_pos hkeep, ← Nat.add_assoc, Nat.add_right_comm] at hstep
      rw [← Nat.add_assoc, Nat.add_right_comm]
      exact ⟨last, .item hstep hrest⟩
    · rw [List.takeWhile_cons_of_neg hkeep]
      rcases Nat.eq_zero_or_pos k with rfl | hpos
      · exact hempty pos
      · have hstep := hx (pos + k) (by omega)
        rw [if_neg hkeep] at hstep
        exact ⟨_, .done hstep⟩

/-! ## The node -/

variable {base d : Nat} {c : Run T (Interval T × V)}
  {l r : BinaryTree (Run T (Interval T × V))}

namespace Represents

/-- The item stored at `d + i`. -/
theorem byStart_eq (h : Represents tree base d (.node c l r)) {i : Nat} {x : Interval T × V}
    (hx : c.own[i]? = some x) :
    tree.byStart (d + i) = .ok x ∧ tree.starts[d + i]? = some (startOf x) := by
  have hi := (List.getElem?_eq_some_iff.mp hx).1
  have hs := h.ownStarts.getElem? (i := i) (by simpa using hi)
  have he := h.ownEnds.getElem? (i := i) (by simpa using hi)
  have hv := h.ownValues.getElem? (i := i) (by simpa using hi)
  rw [List.getElem?_map, hx] at hs he hv
  refine ⟨?_, hs⟩
  rw [IntervalTree.byStart, index_eq_ok.mpr hs, ok_bind, index_eq_ok.mpr he, ok_bind,
    index_eq_ok.mpr hv, ok_bind]
  rfl

/-- The item the by-end order lists at `d + i`. -/
theorem byEnd_eq (h : Represents tree base d (.node c l r)) {i : Nat} {x : Interval T × V}
    (hx : (c.byEnd.map (·.1))[i]? = some x) :
    tree.byEnd (d + i) = .ok x ∧ tree.endsDesc[d + i]? = some (stopOf x) := by
  rw [List.getElem?_map, Option.map_eq_some_iff] at hx
  obtain ⟨e, he, rfl⟩ := hx
  have hi := (List.getElem?_eq_some_iff.mp he).1
  have hs := h.ownEndsDesc.getElem? (i := i) (by simpa using hi)
  have hp := h.ownByEndIndices.getElem? (i := i) (by simpa using hi)
  rw [List.getElem?_map, he] at hs hp
  have hmem := h.numbered.1.mem_iff.mp (List.mem_of_getElem? he)
  obtain ⟨hle, hown⟩ := List.mem_zipIdx_iff_le_and_getElem?_sub.mp hmem
  have hj := (List.getElem?_eq_some_iff.mp hown).1
  have hlt : e.2 < UInt32.size := by
    have := h.length_own
    omega
  have hstart := h.ownStarts.getElem? (i := e.2 - d) (by simpa using hj)
  have hv := h.ownValues.getElem? (i := e.2 - d) (by simpa using hj)
  rw [List.getElem?_map, hown, Nat.add_sub_cancel' hle] at hstart hv
  refine ⟨?_, hs⟩
  rw [IntervalTree.byEnd, index_eq_ok.mpr hp, ok_bind, toNat_ofNat hlt, index_eq_ok.mpr hstart,
    ok_bind, index_eq_ok.mpr hs, ok_bind, index_eq_ok.mpr hv, ok_bind]
  rfl

theorem visit_pruned {C : Cutoffs T} (h : Represents tree base d (.node c l r))
    (hle : maxHi stopOf c.toCenter (centers l) (centers r) ≤ query.start) :
    tree.visit C (rootIdx base (.node c l r)) query = .ok none := by
  rw [IntervalTree.visit, h.toNat_rootIdx, index_eq_ok.mpr h.node, liftM_eq, ok_bind]
  exact if_pos hle

/-- What a node that is not pruned hands out: its hits and the children that can have more. -/
def Visits (tree : IntervalTree T V) (C : Cutoffs T) (query : Interval T) (base : Nat)
    (c : Run T (Interval T × V)) (l r : BinaryTree (Run T (Interval T × V))) : Prop :=
  ∃ scan, tree.visit C (rootIdx base (.node c l r)) query = .ok (some
      { scan := scan
        left := rootIdx (base + 1) (leftFor query.start c l)
        right := rootIdx (base + 1 + l.numNodes) (rightFor query.start query.stop c r) }) ∧
    ScanYields tree query scan (nodeHits startOf stopOf query.start query.stop c) ∧
    (C.Exact → scan.run.len = (nodeHits startOf stopOf query.start query.stop c).length)

/-- A pivot left of the query: the ends above its start. -/
theorem visits_of_pivot_lt {C : Cutoffs T} (hC : C.Admissible)
    (h : Represents tree base d (.node c l r)) (hs : c.Sorted stopOf)
    (hgt : query.start < maxHi stopOf c.toCenter (centers l) (centers r))
    (hlt : c.pivot < query.start) : Visits tree C query base c l r := by
  have hrun : (c.byEnd.map fun e => stopOf e.1) = (c.byEnd.map (·.1)).map stopOf := by
    rw [List.map_map]
    rfl
  have hslice := h.ownEndsDesc.slice
  rw [List.length_map, h.length_byEnd, hrun] at hslice
  have hdesc : ((c.byEnd.map (·.1)).map stopOf).Pairwise (· ≥ ·) := by
    rw [← hrun, List.pairwise_map]
    exact hs.2
  obtain ⟨k, hk, hle, hlen⟩ := hC.firstLe _ query.start hdesc
  rw [List.findIdx_map] at hle
  have hle :
      (((c.byEnd.map (·.1)).takeWhile fun x => decide (query.start < stopOf x))).length ≤ k :=
    (findIdx_le stopOf _ _).symm.trans_le hle
  have hhits : nodeHits startOf stopOf query.start query.stop c = _ := if_pos hlt
  rw [Visits, IntervalTree.visit, h.toNat_rootIdx, index_eq_ok.mpr h.node, liftM_eq, ok_bind]
  simp only [flatNode, h.toNat_dataBegin, h.toNat_dataEnd, rootIdx_centers, numNodes_centers]
  rw [if_neg (not_le.mpr hgt), if_neg fun h => not_lt.mpr h.1 hlt, if_pos hlt, hslice, liftM_eq,
    ok_bind, hk, ok_bind, leftFor, if_pos hlt, rightFor, if_pos (.inl hlt), hhits]
  refine ⟨_, rfl, scanYields_takeWhile (fun _ => rfl) (fun i x hx => ?_) hle
    (by simpa using hlen), fun hE => ?_⟩
  · obtain ⟨h1, h2⟩ := h.byEnd_eq hx
    exact stepsAt_endsAbove h1 h2
  · have := hE.firstLe _ query.start hdesc
    rw [hk, List.findIdx_map] at this
    exact (Nat.add_sub_cancel_left ..).trans
      ((Except.ok.inj this).trans (findIdx_le stopOf _ query.start))

/-- A pivot in the query: everything. -/
theorem visits_of_pivot_mem {C : Cutoffs T} (h : Represents tree base d (.node c l r))
    (hgt : query.start < maxHi stopOf c.toCenter (centers l) (centers r))
    (hlt : ¬c.pivot < query.start) (hlt' : c.pivot < query.stop) :
    Visits tree C query base c l r := by
  have hhits : nodeHits startOf stopOf query.start query.stop c = c.own := by
    rw [nodeHits, if_neg hlt, if_pos hlt']
  have hleft : leftFor query.start c l = l := if_neg hlt
  rw [Visits, IntervalTree.visit, h.toNat_rootIdx, index_eq_ok.mpr h.node, liftM_eq, ok_bind]
  simp only [flatNode, h.toNat_dataBegin, h.toNat_dataEnd, rootIdx_centers, numNodes_centers]
  rw [if_neg (not_le.mpr hgt), hleft, if_pos ⟨not_lt.mp hlt, hlt'⟩, rightFor, if_pos (.inr hlt'),
    hhits]
  refine ⟨_, rfl, ?_, fun _ => Nat.add_sub_cancel_left ..⟩
  have hall : ScanYields tree query _ _ := scanYields_takeWhile (fun _ => rfl)
    (fun i x hx => stepsAt_all (h.byStart_eq hx).1) (List.takeWhile_sublist _).length_le le_rfl
  rwa [List.takeWhile_eq_self_iff.mpr fun _ _ => rfl] at hall

/-- A pivot right of the query: the starts below its end. -/
theorem visits_of_pivot_ge {C : Cutoffs T} (hC : C.Admissible)
    (h : Represents tree base d (.node c l r))
    (hc : c.own.Pairwise fun a b => startOf a ≤ startOf b)
    (hgt : query.start < maxHi stopOf c.toCenter (centers l) (centers r))
    (hlt : ¬c.pivot < query.start) (hlt' : ¬c.pivot < query.stop) :
    Visits tree C query base c l r := by
  have hslice := h.ownStarts.slice
  rw [List.length_map] at hslice
  have hasc : (c.own.map startOf).Pairwise (· ≤ ·) := List.pairwise_map.mpr hc
  obtain ⟨k, hk, hle, hlen⟩ := hC.firstGe _ query.stop hasc
  have hhits : nodeHits startOf stopOf query.start query.stop c =
      c.own.takeWhile fun x => decide (startOf x < query.stop) := by
    rw [nodeHits, if_neg hlt, if_neg hlt']
  have hleft : leftFor query.start c l = l := if_neg hlt
  rw [List.findIdx_map] at hle
  have hle : (c.own.takeWhile fun x => decide (startOf x < query.stop)).length ≤ k :=
    (findIdx_ge startOf _ _).symm.trans_le hle
  rw [Visits, IntervalTree.visit, h.toNat_rootIdx, index_eq_ok.mpr h.node, liftM_eq, ok_bind]
  simp only [flatNode, h.toNat_dataBegin, h.toNat_dataEnd, rootIdx_centers, numNodes_centers]
  rw [if_neg (not_le.mpr hgt), hleft, if_neg fun h => hlt' h.2, if_neg hlt, hslice, liftM_eq,
    ok_bind, hk, ok_bind, rightFor, if_neg (not_or.mpr ⟨hlt, hlt'⟩), hhits]
  refine ⟨_, rfl, scanYields_takeWhile (fun _ => rfl) (fun i x hx => ?_) hle
    (by simpa using hlen), fun hE => ?_⟩
  · obtain ⟨h1, h2⟩ := h.byStart_eq hx
    exact stepsAt_startsBelow h1 h2
  · have := hE.firstGe _ query.stop hasc
    rw [hk, List.findIdx_map] at this
    exact (Nat.add_sub_cancel_left ..).trans
      ((Except.ok.inj this).trans (findIdx_ge startOf _ query.stop))

theorem visit_eq {C : Cutoffs T} (hC : C.Admissible) (h : Represents tree base d (.node c l r))
    (hc : c.own.Pairwise fun a b => startOf a ≤ startOf b) (hs : c.Sorted stopOf)
    (hgt : query.start < maxHi stopOf c.toCenter (centers l) (centers r)) :
    Visits tree C query base c l r := by
  rcases lt_or_ge c.pivot query.start with hlt | hge
  · exact visits_of_pivot_lt hC h hs hgt hlt
  · rcases lt_or_ge c.pivot query.stop with hlt' | hge'
    · exact visits_of_pivot_mem h hgt (not_lt.mpr hge) hlt'
    · exact visits_of_pivot_ge hC h hc hgt (not_lt.mpr hge) (not_lt.mpr hge')

end Represents

end SimdIntervalTree
