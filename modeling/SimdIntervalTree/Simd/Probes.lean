import SimdIntervalTree.Lib.Counted
import SimdIntervalTree.Simd.Hybrid

/-!
# What a cutoff search reads

Every round of the narrowing loop probes one element and leaves the larger half, so the number of
rounds does not depend on the elements. What is left for the kernels is a small window.
-/

namespace SimdIntervalTree

open Exec

/-- An element is compared, for a charge. -/
def probed (before : Int64 → Bool) (x : Int64) : Counted Bool := do
  Counted.charge 1
  return before x

/-- A window is handed to a kernel, charged for its length. -/
def scanned (scan : List Int64 → Exec Nat) (window : List Int64) : Counted Nat := do
  Counted.charge window.length
  scan window

/-- `findGeThresholdI64`, charged for its probes and the window that it scans. -/
def findGeThresholdI64Counted (target : Target) (arr : List Int64) (threshold : Int64) :
    Counted Nat :=
  findThresholdI64 (probed fun x => decide (x < threshold))
    (scanned (scanGe target · threshold)) arr

/-- `findLeThresholdI64`, charged for its probes and the window that it scans. -/
def findLeThresholdI64Counted (target : Target) (arr : List Int64) (threshold : Int64) :
    Counted Nat :=
  findThresholdI64 (probed fun x => decide (x > threshold))
    (scanned (scanLe target · threshold)) arr

variable {before : Int64 → Bool} {arr : List Int64} {target : Target} {threshold : Int64}

theorem result_narrow (before : Int64 → Counted Bool) (lo len : Nat) :
    (narrow before arr lo len).result = narrow (fun x => (before x).result) arr lo len := by
  induction len using Nat.strong_induction_on generalizing lo with
  | _ len ih =>
    rw [narrow, narrow, Counted.result_ite]
    split
    · rename_i hlen
      rw [LINEAR_SCAN_MAX] at hlen
      simp only [Counted.result_bind, Counted.result_liftM, liftM_eq]
      exact bind_congr fun x => bind_congr fun front => ih _ (by omega) _
    · rfl

theorem result_findThresholdI64 (before : Int64 → Counted Bool) (scan : List Int64 → Counted Nat) :
    (findThresholdI64 before scan arr).result =
      findThresholdI64 (fun x => (before x).result) (fun window => (scan window).result) arr := by
  simp [findThresholdI64, result_narrow]

theorem result_findGeThresholdI64Counted :
    (findGeThresholdI64Counted target arr threshold).result =
      findGeThresholdI64 target arr threshold := by
  simp [findGeThresholdI64Counted, findGeThresholdI64, result_findThresholdI64, probed, scanned]

theorem result_findLeThresholdI64Counted :
    (findLeThresholdI64Counted target arr threshold).result =
      findLeThresholdI64 target arr threshold := by
  simp [findLeThresholdI64Counted, findLeThresholdI64, result_findThresholdI64, probed, scanned]

/-- The number of probes into an array of length `n`. -/
def probes (n : Nat) : Nat := Nat.clog 2 n - 6

/-- Half as long an array takes one probe less. -/
theorem probes_of_lt {n : Nat} (h : LINEAR_SCAN_MAX < n) : probes n = 1 + probes (n - n / 2) := by
  have hhalf : (n + 2 - 1) / 2 = n - n / 2 := by omega
  have hclog := Nat.clog_of_one_lt (b := 2) (by decide) (show 1 < n by
    rw [LINEAR_SCAN_MAX] at h
    omega)
  have hlt : 6 < Nat.clog 2 n := (Nat.lt_clog_iff_pow_lt (by decide)).mpr h
  rw [hhalf] at hclog
  rw [probes, probes]
  omega

theorem probes_of_le {n : Nat} (h : n ≤ LINEAR_SCAN_MAX) : probes n = 0 :=
  Nat.sub_eq_zero_of_le ((Nat.clog_le_iff_le_pow (by decide)).mpr h)

/-- The narrowing loop leaves a window that fits, after as many rounds as the length demands. -/
theorem narrow_probed_run (before : Int64 → Bool) {lo len : Nat} (hend : lo + len ≤ arr.length) :
    ∃ lo' len', (narrow (probed before) arr lo len).run = .ok ((lo', len'), probes len) ∧
      lo' + len' ≤ arr.length ∧ len' ≤ LINEAR_SCAN_MAX := by
  induction len using Nat.strong_induction_on generalizing lo with
  | _ len ih =>
    rw [narrow]
    split
    · rename_i hlen
      have hlen' := hlen
      rw [LINEAR_SCAN_MAX] at hlen'
      have hlt : lo + len / 2 - 1 < arr.length := by omega
      have hx := List.getElem?_eq_getElem hlt
      obtain ⟨lo', len', hrun, hend', hmax⟩ := @ih (len - len / 2) (by omega)
        (if before arr[lo + len / 2 - 1] then lo + len / 2 else lo) (by split <;> omega)
      refine ⟨lo', len', ?_, hend', hmax⟩
      simp only [index_eq_ok.mpr hx, Counted.liftM_ok_bind]
      rw [probes_of_lt hlen]
      exact Counted.bind_eq_ok.mpr ⟨_, 1, _, rfl, hrun, rfl⟩
    · rename_i hlen
      rw [probes_of_le (not_lt.mp hlen)]
      exact ⟨lo, len, rfl, hend, not_lt.mp hlen⟩

/-- What a search reads in an array of length `n`, at most. -/
def reads (n : Nat) : Nat := probes n + LINEAR_SCAN_MAX

/-- Narrowing, then handing the window to anything that scans it. -/
theorem findThresholdI64_atMost {scan : List Int64 → Exec Nat} :
    (findThresholdI64 (probed before) (scanned scan) arr).AtMost (reads arr.length) := by
  obtain ⟨lo, len, hrun, hend, hmax⟩ :=
    narrow_probed_run before (Nat.zero_add arr.length).le
  have hslice : slice arr lo (lo + len) = .ok ((arr.take (lo + len)).drop lo) :=
    if_pos ⟨Nat.le_add_right _ _, hend⟩
  have hlen : ((arr.take (lo + len)).drop lo).length = len := by simp; omega
  rw [findThresholdI64]
  refine .bind (.of_run hrun) fun window hwindow => ?_
  rw [Counted.result_of_eq_ok hrun] at hwindow
  cases hwindow
  dsimp only
  rw [hslice, Counted.liftM_ok_bind]
  refine .bind_free ?_ fun _ _ => .pure _
  rw [scanned, hlen]
  exact ((Counted.AtMost.charge len).bind_free fun _ _ => .liftM _).mono hmax

theorem findGeThresholdI64Counted_atMost :
    (findGeThresholdI64Counted target arr threshold).AtMost (reads arr.length) :=
  findThresholdI64_atMost

theorem findLeThresholdI64Counted_atMost :
    (findLeThresholdI64Counted target arr threshold).AtMost (reads arr.length) :=
  findThresholdI64_atMost

/-- **The cost of a search.** A long array is probed once for every halving that it needs to fit
into the window, and no more than the window is scanned. -/
theorem findThresholdI64_reads (target : Target) (arr : List Int64) (threshold : Int64) :
    (arr.Pairwise (· ≤ ·) → ∃ n, (findGeThresholdI64Counted target arr threshold).run =
      .ok (arr.countP fun x => decide (x < threshold), n) ∧
      n ≤ Nat.clog 2 arr.length - 6 + LINEAR_SCAN_MAX) ∧
    (arr.Pairwise (· ≥ ·) → ∃ n, (findLeThresholdI64Counted target arr threshold).run =
      .ok (arr.countP fun x => decide (x > threshold), n) ∧
      n ≤ Nat.clog 2 arr.length - 6 + LINEAR_SCAN_MAX) := by
  constructor
  · intro h
    have hcount : findGeThresholdI64 target arr threshold =
        .ok (arr.countP fun x => decide (x < threshold)) :=
      (findGeThresholdI64_eq target threshold h).trans
        (congrArg _ (SortedPrefix.partitioned_lt (f := id) h threshold).length_takeWhile)
    obtain ⟨n, hrun⟩ :=
      Counted.eq_ok_of_result (result_findGeThresholdI64Counted.trans hcount)
    exact ⟨n, hrun, findGeThresholdI64Counted_atMost _ _ hrun⟩
  · intro h
    have hcount : findLeThresholdI64 target arr threshold =
        .ok (arr.countP fun x => decide (x > threshold)) :=
      (findLeThresholdI64_eq target threshold h).trans
        (congrArg _ (SortedPrefix.partitioned_gt (f := id) h threshold).length_takeWhile)
    obtain ⟨n, hrun⟩ :=
      Counted.eq_ok_of_result (result_findLeThresholdI64Counted.trans hcount)
    exact ⟨n, hrun, findLeThresholdI64Counted_atMost _ _ hrun⟩

/-- A window of duplicates is probed twice. -/
theorem findThresholdI64_reads_duplicates :
    (∃ n, (findGeThresholdI64Counted (.x86_64 Level.AVX2) (List.replicate 130 7) 8).run =
      .ok ((List.replicate 130 7).countP fun x => decide (x < (8 : Int64)), n) ∧
      n ≤ Nat.clog 2 (List.replicate 130 (7 : Int64)).length - 6 + LINEAR_SCAN_MAX) ∧
    ∃ n, (findLeThresholdI64Counted .aarch64 (List.replicate 130 7) 7).run =
      .ok ((List.replicate 130 7).countP fun x => decide (x > (7 : Int64)), n) ∧
      n ≤ Nat.clog 2 (List.replicate 130 (7 : Int64)).length - 6 + LINEAR_SCAN_MAX :=
  ⟨(findThresholdI64_reads _ _ _).1 (List.pairwise_replicate.mpr (.inr (Int64.le_refl 7))),
    (findThresholdI64_reads _ _ _).2 (List.pairwise_replicate.mpr (.inr (Int64.le_refl 7)))⟩

end SimdIntervalTree
