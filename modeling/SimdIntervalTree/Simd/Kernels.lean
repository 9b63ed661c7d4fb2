import SimdIntervalTree.Model.Simd

/-!
# The kernels

Every kernel returns the index of the first element that hits, for any slice. The vector loop is
the same in all of them (`scanBlocks_eq`); what differs is how the first lane is read off a
comparison, and the tail.
-/

namespace SimdIntervalTree

open Exec SortedPrefix

/-! ## The first set bit -/

section

variable {n : Nat}

/-- `trailing_zeros` finds the first set bit among the leading ones of a mask. -/
theorem trailingZeros_eq {mask : BitVec n} {bs : List Bool}
    (hbits : ∀ i < bs.length, mask.getLsbD i = bs.getD i false) (h : bs.findIdx id < bs.length) :
    trailingZeros mask = bs.findIdx id := by
  have hset : mask.getLsbD (bs.findIdx id) = true := by
    rw [hbits _ h, List.getD_eq_getElem _ _ h]
    exact List.findIdx_getElem (w := h)
  have hne : mask ≠ 0#n := by
    rintro rfl
    rw [BitVec.getLsbD_zero] at hset
    cases hset
  rw [trailingZeros]
  rcases Nat.lt_trichotomy mask.ctz.toNat (bs.findIdx id) with hlt | heq | hgt
  · have hclear := hbits _ (hlt.trans h)
    rw [BitVec.getLsbD_true_ctz_of_ne_zero hne, List.getD_eq_getElem _ _ (hlt.trans h)] at hclear
    exact absurd (hclear.trans (List.not_of_lt_findIdx hlt)) (by decide)
  · exact heq
  · rw [BitVec.getLsbD_false_of_lt_ctz hgt] at hset
    cases hset

end

/-! ## Loops -/

section

variable {w : Nat} [NeZero w] {hit : Int64 → Bool} {arr : List Int64} {i : Nat}

/-- `firstLane` is the first lane that hits. -/
def FirstLane (hit : Int64 → Bool) (firstLane : Vector Int64 w → Option Nat) : Prop :=
  ∀ values, firstLane values = if values.toList.findIdx hit < w then
    some (values.toList.findIdx hit) else none

omit [NeZero w] in
theorem loadu_eq (h : i + w ≤ arr.length) :
    ∃ values, loadu w arr i = .ok values ∧ values.toList = (arr.drop i).take w := by
  refine ⟨_, dif_pos h, List.ext_getElem ?_ fun k h1 h2 => ?_⟩
  · simp
    omega
  · simp

theorem scanBlocks_eq {firstLane : Vector Int64 w → Option Nat}
    {tail : List Int64 → Nat → Exec Nat} (hf : FirstLane hit firstLane)
    (ht : ∀ i ≤ arr.length, arr.length < i + w → tail arr i = .ok (i + (arr.drop i).findIdx hit))
    (hi : i ≤ arr.length) :
    scanBlocks w firstLane tail arr i = .ok (i + (arr.drop i).findIdx hit) := by
  induction hm : arr.length - i using Nat.strong_induction_on generalizing i with
  | _ m ih =>
    have hw := NeZero.pos w
    rw [scanBlocks]
    split
    · rename_i hle
      obtain ⟨values, hload, hlanes⟩ := loadu_eq hle
      have hlen : ((arr.drop i).take w).length = w := by simp; omega
      have hsplit : (arr.drop i).findIdx hit =
          if ((arr.drop i).take w).findIdx hit < w then ((arr.drop i).take w).findIdx hit
          else (arr.drop (i + w)).findIdx hit + w := by
        conv_lhs => rw [← List.take_append_drop w (arr.drop i), List.findIdx_append, hlen,
          List.drop_drop]
      rw [hload, ok_bind, hf values, hlanes, hsplit]
      by_cases hlt : ((arr.drop i).take w).findIdx hit < w
      · rw [if_pos hlt, if_pos hlt]
      · rw [if_neg hlt, if_neg hlt]
        dsimp only
        rw [ih _ (by omega) hle rfl, Nat.add_assoc, Nat.add_comm w]
    · exact ht i hi (by omega)

theorem scanTail_eq (hi : i ≤ arr.length) :
    scanTail hit arr i = .ok (i + (arr.drop i).findIdx hit) := by
  induction hm : arr.length - i generalizing i with
  | zero =>
    obtain rfl : i = arr.length := by omega
    rw [scanTail, if_neg (Nat.lt_irrefl _), List.drop_length]
    rfl
  | succ m ih =>
    have hlt : i < arr.length := by omega
    rw [scanTail, if_pos hlt, index_eq_ok.mpr (List.getElem?_eq_getElem hlt), ok_bind,
      List.drop_eq_getElem_cons hlt, List.findIdx_cons]
    cases hhit : hit arr[i] with
    | true => rfl
    | false =>
      rw [if_neg (by decide), ih (by omega) (by omega)]
      simp only [cond_false]
      congr 1
      omega

theorem scanLast_eq (hi : i ≤ arr.length) (h : arr.length < i + 2) :
    scanLast hit arr i = .ok (i + (arr.drop i).findIdx hit) := by
  rw [scanLast]
  split
  · rename_i hlt
    rw [index_eq_ok.mpr (List.getElem?_eq_getElem hlt), ok_bind, List.drop_eq_getElem_cons hlt,
      List.drop_eq_nil_of_le (by omega), List.findIdx_cons]
    cases hit arr[i] with
    | true => rfl
    | false => exact congrArg _ (by simp; omega)
  · obtain rfl : i = arr.length := by omega
    rw [List.drop_length]
    rfl

end

/-! ## Masks -/

section

variable {n w : Nat} [NeZero w] {hit : Int64 → Bool}

/-- Bit `k` of a mask tells whether lane `k` hits; there are no other bits. -/
def LaneMask (hit : Int64 → Bool) (mask : Vector Int64 w → BitVec n) : Prop :=
  ∀ values i, (mask values).getLsbD i = (values.toList.map hit).getD i false

omit [NeZero w] in
theorem LaneMask.firstLane {mask : Vector Int64 w → BitVec n} (h : LaneMask hit mask)
    {c : Vector Int64 w → Prop} [DecidablePred c] (hc : ∀ values, c values ↔ mask values ≠ 0) :
    FirstLane hit fun values => if c values then some (trailingZeros (mask values)) else none := by
  intro values
  have hlen : (values.toList.map hit).length = w := by simp
  have hfind : (values.toList.map hit).findIdx id = values.toList.findIdx hit := by
    rw [List.findIdx_map]
    rfl
  have hlt : values.toList.findIdx hit < w ↔ c values := by
    rw [hc]
    constructor
    · rintro hlt hzero
      have hlt : (values.toList.map hit).findIdx id < (values.toList.map hit).length := by
        rwa [hfind, hlen]
      have hbit := h values ((values.toList.map hit).findIdx id)
      have hset : (values.toList.map hit)[(values.toList.map hit).findIdx id] = true :=
        List.findIdx_getElem (w := hlt)
      rw [hzero, List.getD_eq_getElem _ _ hlt, hset] at hbit
      exact absurd (BitVec.getLsbD_zero.symm.trans hbit) (by decide)
    · intro hne
      by_contra hge
      refine hne (BitVec.eq_of_getLsbD_eq fun i _ => ?_)
      rw [h, List.getD_eq_getElem?_getD]
      refine .trans ?_ BitVec.getLsbD_zero.symm
      rcases hget : (values.toList.map hit)[i]? with _ | b
      · rfl
      · obtain ⟨hi, rfl⟩ := List.getElem?_eq_some_iff.mp hget
        exact List.not_of_lt_findIdx (p := id) (by omega)
  dsimp only
  by_cases hv : c values
  · rw [if_pos hv, if_pos (hlt.mpr hv), ← hfind, trailingZeros_eq (fun i _ => h values i)
      (by rw [hfind, hlen]; exact hlt.mpr hv)]
  · rw [if_neg hv, if_neg (mt hlt.mp hv)]

end

/-! ## Whole kernels -/

section

variable {hit : Int64 → Bool} {arr : List Int64} {threshold : Int64}

/-- A kernel is the block loop from the start of a non-empty slice. -/
theorem kernel_eq {w : Nat} [NeZero w] {firstLane : Vector Int64 w → Option Nat}
    {tail : List Int64 → Nat → Exec Nat} (hf : FirstLane hit firstLane)
    (ht : ∀ i ≤ arr.length, arr.length < i + w → tail arr i = .ok (i + (arr.drop i).findIdx hit)) :
    (if arr.length = 0 then .ok 0 else scanBlocks w firstLane tail arr 0) =
      .ok (arr.findIdx hit) := by
  split
  · rename_i h0
    rw [List.eq_nil_of_length_eq_zero h0]
    rfl
  · rw [scanBlocks_eq hf ht (Nat.zero_le _), List.drop_zero, Nat.zero_add]

theorem getLsbD_lanes (n : Nat) (bs : List Bool) (h : bs.length ≤ n) (i : Nat) :
    ((BitVec.ofBoolListLE bs).setWidth n).getLsbD i = bs.getD i false := by
  rw [BitVec.getLsbD_setWidth, BitVec.getLsbD_ofBoolListLE]
  by_cases hi : i < n
  · rw [decide_eq_true hi, Bool.true_and]
  · rw [decide_eq_false hi, Bool.false_and, List.getD_eq_default _ _ (by omega)]

theorem getLsbD_fifteen (i : Nat) : (0xF#32).getLsbD i = decide (i < 4) := by
  have hlow : ∀ i : Fin 32, (0xF#32).getLsbD i = decide (i.val < 4) := by decide
  by_cases hi : i < 32
  · exact hlow ⟨i, hi⟩
  · rw [BitVec.getLsbD_of_ge _ _ (by omega), decide_eq_false (by omega)]

/-- A lanewise comparison with a constant, as a list. -/
theorem toList_zipWith_set1 {α β : Type} {w : Nat} (f : Int64 → α → β) (x : Int64)
    (values : Vector α w) :
    (Vector.zipWith f (set1 w x) values).toList = values.toList.map (f x) := by
  apply List.ext_getElem (by simp)
  intro i h1 h2
  simp [set1]

theorem toList_zipWith_set1_right {α β : Type} {w : Nat} (f : α → Int64 → β) (x : Int64)
    (values : Vector α w) :
    (Vector.zipWith f values (set1 w x)).toList = values.toList.map (f · x) := by
  apply List.ext_getElem (by simp)
  intro i h1 h2
  simp [set1]

theorem findThresholdAvx2_eq {compare : Vector Int64 4 → Vector Int64 4}
    (hcmp : ∀ values, (compare values).toList.map (fun x => decide (x < 0)) =
      values.toList.map fun x => !hit x) :
    findThresholdAvx2 compare hit arr = .ok (arr.findIdx hit) := by
  -- the comparison marks the lanes that miss, so the mask is inverted
  have hbit (values : Vector Int64 4) (i : Nat) :
      (mm256MovemaskPd (compare values)).getLsbD i =
        (values.toList.map fun x => !hit x).getD i false := by
    rw [mm256MovemaskPd, hcmp]
    exact getLsbD_lanes 32 _ (by simp) i
  have hmask : LaneMask hit fun values : Vector Int64 4 =>
      ~~~mm256MovemaskPd (compare values) &&& 0xF := by
    intro values i
    rw [BitVec.getLsbD_and, BitVec.getLsbD_not, hbit]
    apply (congrArg _ (getLsbD_fifteen i)).trans
    by_cases hi : i < 4
    · have hlen : i < values.toList.length := by simpa using hi
      rw [decide_eq_true hi, decide_eq_true (by omega),
        List.getD_eq_getElem _ _ (by simpa using hi), List.getD_eq_getElem _ _ (by simpa using hi)]
      simp
    · rw [decide_eq_false hi, Bool.and_false, List.getD_eq_default _ _ (by simp; omega)]
  refine kernel_eq (hmask.firstLane fun values => not_congr ?_) fun i hi _ => scanTail_eq hi
  constructor
  · intro h
    rw [h]
    decide
  · intro h
    apply BitVec.eq_of_getLsbD_eq
    intro i hi
    refine .trans ?_ (getLsbD_fifteen i).symm
    by_cases hi4 : i < 4
    · have hclear : (~~~mm256MovemaskPd (compare values) &&& 0xF#32).getLsbD i = false :=
        (congrArg (BitVec.getLsbD · i) h).trans BitVec.getLsbD_zero
      rw [BitVec.getLsbD_and, BitVec.getLsbD_not, getLsbD_fifteen, decide_eq_true hi4,
        decide_eq_true hi, Bool.true_and, Bool.and_true, Bool.not_eq_false'] at hclear
      rw [hclear, decide_eq_true hi4]
    · rw [hbit, decide_eq_false hi4, List.getD_eq_default _ _ (by simp; omega)]

theorem findThresholdAvx512_eq {compare : Vector Int64 8 → BitVec 8}
    (hcmp : LaneMask hit compare) : findThresholdAvx512 compare hit arr = .ok (arr.findIdx hit) :=
  kernel_eq (hcmp.firstLane fun _ => Iff.rfl) fun _ hi _ => scanTail_eq hi

theorem findThresholdNeon_eq {compare : Vector Int64 2 → Vector UInt64 2}
    (hcmp : ∀ values, (compare values).toList.map (fun x => decide (x ≠ 0)) =
      values.toList.map hit) :
    findThresholdNeon compare hit arr = .ok (arr.findIdx hit) := by
  refine kernel_eq (fun values => ?_) fun i hi h => scanLast_eq hi h
  have hlanes {α : Type} (v : Vector α 2) : v.toList = [v[0], v[1]] := by
    apply List.ext_getElem (by simp)
    intro i h1 h2
    rw [List.length_cons, List.length_singleton] at h2
    rcases i with _ | _ | i
    · simp
    · simp
    · omega
  have hval := hcmp values
  rw [hlanes, hlanes] at hval
  simp only [List.map_cons, List.map_nil, List.cons.injEq, and_true] at hval
  obtain ⟨h0, h1⟩ := hval
  rw [hlanes values, List.findIdx_cons, List.findIdx_cons, List.findIdx_nil, ← h0, ← h1]
  by_cases e0 : (compare values)[0] ≠ 0
  · rw [if_pos (.inl e0), if_pos e0, decide_eq_true e0]
    rfl
  · by_cases e1 : (compare values)[1] ≠ 0
    · rw [if_pos (.inr e1), if_neg e0, decide_eq_false e0, decide_eq_true e1]
      rfl
    · rw [if_neg (not_or.mpr ⟨e0, e1⟩), decide_eq_false e0, decide_eq_false e1]
      rfl

/-! ## The members -/

/-- The sign of a lane of `_mm256_cmpgt_epi64`. -/
theorem sign_lane (x y : Int64) :
    decide ((if x > y then (-1 : Int64) else 0) < 0) = !decide (y ≥ x) := by
  by_cases h : x > y
  · rw [if_pos h, decide_eq_false (not_le.mpr h)]
    decide
  · rw [if_neg h, decide_eq_true (not_lt.mp h)]
    decide

/-- A lane of a NEON comparison. -/
theorem ones_lane (p : Prop) [Decidable p] :
    decide ((if p then (-1 : UInt64) else 0) ≠ 0) = decide p := by
  by_cases h : p
  · rw [if_pos h, decide_eq_true h]
    decide
  · rw [if_neg h, decide_eq_false h]
    decide

theorem findGeThresholdAvx2_eq :
    findGeThresholdAvx2 arr threshold = .ok (arr.findIdx fun x => decide (x ≥ threshold)) := by
  apply findThresholdAvx2_eq
  intro values
  rw [mm256CmpgtEpi64, toList_zipWith_set1, List.map_map]
  exact List.map_congr_left fun x _ => sign_lane threshold x

theorem findLeThresholdAvx2_eq :
    findLeThresholdAvx2 arr threshold = .ok (arr.findIdx fun x => decide (x ≤ threshold)) := by
  apply findThresholdAvx2_eq
  intro values
  rw [mm256CmpgtEpi64, toList_zipWith_set1_right, List.map_map]
  exact List.map_congr_left fun x _ => sign_lane x threshold

theorem findGeThresholdAvx512_eq :
    findGeThresholdAvx512 arr threshold = .ok (arr.findIdx fun x => decide (x ≥ threshold)) := by
  refine findThresholdAvx512_eq fun values i => ?_
  rw [mm512CmpgeEpi64Mask, toList_zipWith_set1_right]
  exact getLsbD_lanes 8 _ (by simp) i

theorem findLeThresholdAvx512_eq :
    findLeThresholdAvx512 arr threshold = .ok (arr.findIdx fun x => decide (x ≤ threshold)) := by
  refine findThresholdAvx512_eq fun values i => ?_
  rw [mm512CmpleEpi64Mask, toList_zipWith_set1_right]
  exact getLsbD_lanes 8 _ (by simp) i

theorem findGeThresholdNeon_eq :
    findGeThresholdNeon arr threshold = .ok (arr.findIdx fun x => decide (x ≥ threshold)) := by
  apply findThresholdNeon_eq
  intro values
  rw [vcgeqS64, toList_zipWith_set1_right, List.map_map]
  exact List.map_congr_left fun x _ => ones_lane _

theorem findLeThresholdNeon_eq :
    findLeThresholdNeon arr threshold = .ok (arr.findIdx fun x => decide (x ≤ threshold)) := by
  apply findThresholdNeon_eq
  intro values
  rw [vcleqS64, toList_zipWith_set1_right, List.map_map]
  exact List.map_congr_left fun x _ => ones_lane _

/-! ## The scalar fallback -/

theorem findGeThreshold_eq (h : Partitioned (fun x => decide (x < threshold)) arr) :
    findGeThreshold arr threshold = .ok (arr.findIdx fun x => decide (x ≥ threshold)) := by
  refine .trans ?_ (congrArg _ (findIdx_ge id arr threshold).symm)
  exact BinarySearch.partitionPoint_eq h

theorem findLeThreshold_eq (h : Partitioned (fun x => decide (x > threshold)) arr) :
    findLeThreshold arr threshold = .ok (arr.findIdx fun x => decide (x ≤ threshold)) := by
  refine .trans ?_ (congrArg _ (findIdx_le id arr threshold).symm)
  exact BinarySearch.partitionPoint_eq h

end

/-- All kernels find the first hit in any slice, and on sorted slices the bisection of the scalar
fallback finds the same. -/
theorem findThreshold_agree (arr : List Int64) (threshold : Int64) :
    (∀ kernel ∈ [findGeThresholdAvx2, findGeThresholdAvx512, findGeThresholdNeon],
      kernel arr threshold = .ok (arr.findIdx fun x => decide (x ≥ threshold)) ∧
      (arr.Pairwise (· ≤ ·) → kernel arr threshold = findGeThreshold arr threshold)) ∧
    (∀ kernel ∈ [findLeThresholdAvx2, findLeThresholdAvx512, findLeThresholdNeon],
      kernel arr threshold = .ok (arr.findIdx fun x => decide (x ≤ threshold)) ∧
      (arr.Pairwise (· ≥ ·) → kernel arr threshold = findLeThreshold arr threshold)) := by
  constructor
  · intro kernel hkernel
    have hfirst : kernel arr threshold = .ok (arr.findIdx fun x => decide (x ≥ threshold)) := by
      simp only [List.mem_cons, List.not_mem_nil, or_false] at hkernel
      rcases hkernel with rfl | rfl | rfl
      · exact findGeThresholdAvx2_eq
      · exact findGeThresholdAvx512_eq
      · exact findGeThresholdNeon_eq
    refine ⟨hfirst, fun h => hfirst.trans (findGeThreshold_eq ?_).symm⟩
    exact partitioned_lt (f := id) h threshold
  · intro kernel hkernel
    have hfirst : kernel arr threshold = .ok (arr.findIdx fun x => decide (x ≤ threshold)) := by
      simp only [List.mem_cons, List.not_mem_nil, or_false] at hkernel
      rcases hkernel with rfl | rfl | rfl
      · exact findLeThresholdAvx2_eq
      · exact findLeThresholdAvx512_eq
      · exact findLeThresholdNeon_eq
    refine ⟨hfirst, fun h => hfirst.trans (findLeThreshold_eq ?_).symm⟩
    exact partitioned_gt (f := id) h threshold

/-- Eleven elements leave a tail for every width. -/
theorem findThreshold_agree_tail :
    findGeThresholdAvx2 [1, 2, 2, 3, 5, 5, 5, 8, 9, 9, 10] 10 = .ok 10 ∧
    findGeThreshold [(1 : Int64), 2, 2, 3, 5, 5, 5, 8, 9, 9, 10] 10 = .ok 10 ∧
    findLeThresholdNeon [10, 9, 9, 8, 5, 5, 5, 3, 2, 2, 1] 5 =
      findLeThreshold [(10 : Int64), 9, 9, 8, 5, 5, 5, 3, 2, 2, 1] 5 := by
  have hge := (findThreshold_agree [1, 2, 2, 3, 5, 5, 5, 8, 9, 9, 10] 10).1 _ (.head _)
  have hle := (findThreshold_agree [10, 9, 9, 8, 5, 5, 5, 3, 2, 2, 1] 5).2 _
    (.tail _ (.tail _ (.head _)))
  exact ⟨hge.1, (hge.2 (by decide)).symm.trans hge.1, hle.2 (by decide)⟩

end SimdIntervalTree
