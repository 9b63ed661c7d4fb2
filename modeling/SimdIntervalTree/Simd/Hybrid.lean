import SimdIntervalTree.Simd.Kernels
import SimdIntervalTree.Traversal.Visit

/-!
# The hybrid search

The narrowing loop keeps the larger half on both branches, so its invariant is that the boundary
lies in `lo..=lo + len`, the end included.
-/

namespace SimdIntervalTree

open Exec SortedPrefix

variable {arr : List Int64} {before : Int64 → Bool}

theorem narrow_spec (h : Partitioned before arr) {lo len : Nat} (hend : lo + len ≤ arr.length)
    (hlo : lo ≤ (arr.takeWhile before).length) (hhi : (arr.takeWhile before).length ≤ lo + len) :
    ∃ lo' len', narrow (m := Exec) (fun x => return before x) arr lo len = .ok (lo', len') ∧
      lo' + len' ≤ arr.length ∧ lo' ≤ (arr.takeWhile before).length ∧
      (arr.takeWhile before).length ≤ lo' + len' := by
  induction len using Nat.strong_induction_on generalizing lo with
  | _ len ih =>
    rw [narrow]
    split
    · rename_i hlen
      rw [LINEAR_SCAN_MAX] at hlen
      have hlt : lo + len / 2 - 1 < arr.length := by omega
      have hx := List.getElem?_eq_getElem hlt
      have hcut := BinarySearch.lt_length_takeWhile_iff h hx
      simp only [liftM_eq, index_eq_ok.mpr hx, pure_eq_ok, ok_bind]
      split
      · have := hcut.mpr ‹_›
        exact ih _ (by omega) (by omega) (by omega) (by omega)
      · have := mt hcut.mp ‹_›
        exact ih _ (by omega) (by omega) hlo (by omega)
    · exact ⟨lo, len, rfl, hend, hlo, hhi⟩

/-- The boundary of a window that surrounds it. -/
theorem length_takeWhile_window {lo len : Nat} (hlo : lo ≤ (arr.takeWhile before).length)
    (hhi : (arr.takeWhile before).length ≤ lo + len) :
    lo + (((arr.take (lo + len)).drop lo).takeWhile before).length =
      (arr.takeWhile before).length := by
  rw [← takeWhile_take hhi] at hlo ⊢
  exact length_takeWhile_drop hlo

/-- Narrowing, then scanning the window with anything that is right on partitioned lists. -/
theorem findThresholdI64_eq (h : Partitioned before arr) {scan : List Int64 → Exec Nat}
    (hscan : ∀ window, Partitioned before window →
      scan window = .ok (window.takeWhile before).length) :
    findThresholdI64 (fun x => return before x) scan arr =
      .ok (arr.takeWhile before).length := by
  have hle : (arr.takeWhile before).length ≤ arr.length := (List.takeWhile_sublist _).length_le
  obtain ⟨lo, len, hnarrow, hend, hlo, hhi⟩ :=
    narrow_spec h (by omega : 0 + arr.length ≤ arr.length) (Nat.zero_le _) (by omega)
  have hslice : slice arr lo (lo + len) = .ok ((arr.take (lo + len)).drop lo) :=
    if_pos ⟨Nat.le_add_right _ _, hend⟩
  have hsub : ((arr.take (lo + len)).drop lo).Sublist arr :=
    (List.drop_sublist ..).trans (List.take_sublist ..)
  rw [findThresholdI64, hnarrow, ok_bind]
  dsimp only
  rw [liftM_eq, hslice, ok_bind, hscan _ (h.sublist hsub), ok_bind, pure_eq_ok,
    length_takeWhile_window hlo hhi]

theorem scanGe_eq (target : Target) {threshold : Int64}
    (h : Partitioned (fun x => decide (x < threshold)) arr) :
    scanGe target arr threshold = .ok (arr.findIdx fun x => decide (x ≥ threshold)) := by
  cases target with
  | x86_64 level =>
    rw [scanGe]
    split
    · exact findGeThresholdAvx512_eq
    · split
      · exact findGeThresholdAvx2_eq
      · exact findGeThreshold_eq h
  | aarch64 => exact findGeThresholdNeon_eq
  | other => exact findGeThreshold_eq h

theorem scanLe_eq (target : Target) {threshold : Int64}
    (h : Partitioned (fun x => decide (x > threshold)) arr) :
    scanLe target arr threshold = .ok (arr.findIdx fun x => decide (x ≤ threshold)) := by
  cases target with
  | x86_64 level =>
    rw [scanLe]
    split
    · exact findLeThresholdAvx512_eq
    · split
      · exact findLeThresholdAvx2_eq
      · exact findLeThreshold_eq h
  | aarch64 => exact findLeThresholdNeon_eq
  | other => exact findLeThreshold_eq h

/-- The cutoff of an ascending array, on every machine. -/
theorem findGeThresholdI64_eq (target : Target) (threshold : Int64) (h : arr.Pairwise (· ≤ ·)) :
    findGeThresholdI64 target arr threshold =
      .ok (arr.takeWhile fun x => decide (x < threshold)).length := by
  apply findThresholdI64_eq (partitioned_lt (f := id) h threshold)
  intro window hw
  exact (scanGe_eq target hw).trans (congrArg _ (findIdx_ge id window threshold))

theorem findLeThresholdI64_eq (target : Target) (threshold : Int64) (h : arr.Pairwise (· ≥ ·)) :
    findLeThresholdI64 target arr threshold =
      .ok (arr.takeWhile fun x => decide (x > threshold)).length := by
  apply findThresholdI64_eq (partitioned_gt (f := id) h threshold)
  intro window hw
  exact (scanLe_eq target hw).trans (congrArg _ (findIdx_le id window threshold))

/-- The searches count the elements in front of the threshold, whichever kernel scans the last
window. -/
theorem findThresholdI64_eq_countP (target : Target) (arr : List Int64) (threshold : Int64) :
    (arr.Pairwise (· ≤ ·) → findGeThresholdI64 target arr threshold =
      .ok (arr.countP fun x => decide (x < threshold))) ∧
    (arr.Pairwise (· ≥ ·) → findLeThresholdI64 target arr threshold =
      .ok (arr.countP fun x => decide (x > threshold))) := by
  constructor
  · intro h
    rw [findGeThresholdI64_eq target threshold h]
    exact congrArg _ (partitioned_lt (f := id) h threshold).length_takeWhile
  · intro h
    rw [findLeThresholdI64_eq target threshold h]
    exact congrArg _ (partitioned_gt (f := id) h threshold).length_takeWhile

/-- A window of duplicates is narrowed twice and the boundary is its end. -/
theorem findThresholdI64_eq_countP_duplicates :
    findGeThresholdI64 (.x86_64 Level.AVX2) (List.replicate 130 7) 8 = .ok 130 ∧
      findLeThresholdI64 .aarch64 (List.replicate 130 7) 7 = .ok 0 := by
  constructor
  · refine ((findThresholdI64_eq_countP _ _ _).1 ?_).trans (congrArg _ ?_)
    · exact List.pairwise_replicate.mpr (.inr (Int64.le_refl 7))
    · rw [List.countP_replicate]
      rfl
  · refine ((findThresholdI64_eq_countP _ _ _).2 ?_).trans (congrArg _ ?_)
    · exact List.pairwise_replicate.mpr (.inr (Int64.le_refl 7))
    · rw [List.countP_replicate]
      rfl

/-- The strategy trims to the exact boundary. -/
theorem simd_exact (target : Target) : (Simd target).Exact where
  firstGe arr t h := (findGeThresholdI64_eq target t h).trans
    (congrArg _ (findIdx_ge id arr t).symm)
  firstLe arr t h := (findLeThresholdI64_eq target t h).trans
    (congrArg _ (findIdx_le id arr t).symm)

end SimdIntervalTree
