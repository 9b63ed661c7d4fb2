import SimdIntervalTree.Lib.BinarySearch

/-!
# Cutoff searches (`simd/mod.rs`, `simd/scalar.rs`, `simd/x86.rs`, `simd/arm.rs`)

A vector register is a `Vector` of lanes and every load checks that its lanes lie in the slice. The
intrinsics compare lanes as signed 64-bit integers; `movemask` and the AVX-512 mask registers put
lane `k` in bit `k`.
-/

instance Int64.instLinearOrder : LinearOrder Int64 where
  le_refl := Int64.le_refl
  le_trans _ _ _ := Int64.le_trans
  lt_iff_le_not_ge _ _ := by simp only [Int64.lt_iff_toInt_lt, Int64.le_iff_toInt_le]; omega
  le_antisymm _ _ := Int64.le_antisymm
  le_total := Int64.le_total
  toDecidableLE := Int64.decLe
  toDecidableLT := Int64.decLt
  toDecidableEq := Int64.decEq

namespace SimdIntervalTree

open Exec

/-! ## Intrinsics -/

section Intrinsics

variable {n : Nat}

/-- `_mm256_loadu_si256`, `_mm512_loadu_si512`, `vld1q_s64` at `ptr.add(i)`. -/
def loadu (n : Nat) (arr : List Int64) (i : Nat) : Exec (Vector Int64 n) :=
  if h : i + n ≤ arr.length then .ok (Vector.ofFn fun k => arr.get ⟨i + k, by omega⟩)
  else .error .bounds

/-- `_mm256_set1_epi64x`, `_mm512_set1_epi64`, `vdupq_n_s64`. -/
def set1 (n : Nat) (x : Int64) : Vector Int64 n := Vector.replicate n x

/-- `_mm256_cmpgt_epi64`: all ones in the lanes where `a > b`. -/
def mm256CmpgtEpi64 (a b : Vector Int64 4) : Vector Int64 4 :=
  Vector.zipWith (fun x y => if x > y then -1 else 0) a b

/-- `_mm256_movemask_pd`: the sign bits of the lanes, in an `i32`. -/
def mm256MovemaskPd (a : Vector Int64 4) : BitVec 32 :=
  (BitVec.ofBoolListLE (a.toList.map fun x => decide (x < 0))).setWidth 32

/-- `_mm512_cmpge_epi64_mask` -/
def mm512CmpgeEpi64Mask (a b : Vector Int64 8) : BitVec 8 :=
  (BitVec.ofBoolListLE (Vector.zipWith (fun x y => decide (x ≥ y)) a b).toList).setWidth 8

/-- `_mm512_cmple_epi64_mask` -/
def mm512CmpleEpi64Mask (a b : Vector Int64 8) : BitVec 8 :=
  (BitVec.ofBoolListLE (Vector.zipWith (fun x y => decide (x ≤ y)) a b).toList).setWidth 8

/-- `vcgeq_s64` -/
def vcgeqS64 (a b : Vector Int64 2) : Vector UInt64 2 :=
  Vector.zipWith (fun x y => if x ≥ y then -1 else 0) a b

/-- `vcleq_s64` -/
def vcleqS64 (a b : Vector Int64 2) : Vector UInt64 2 :=
  Vector.zipWith (fun x y => if x ≤ y then -1 else 0) a b

/-- `trailing_zeros` -/
def trailingZeros (mask : BitVec n) : Nat := mask.ctz.toNat

end Intrinsics

/-! ## Kernels -/

/-- The block loop of the kernels: read `w` lanes at a time while they fit, stop at the lane
`firstLane` reports, and leave the rest of the slice to `tail`. -/
def scanBlocks (w : Nat) [NeZero w] (firstLane : Vector Int64 w → Option Nat)
    (tail : List Int64 → Nat → Exec Nat) (arr : List Int64) (i : Nat) : Exec Nat :=
  if i + w ≤ arr.length then do
    let values ← loadu w arr i
    match firstLane values with
    | some k => .ok (i + k)
    | none => scanBlocks w firstLane tail arr (i + w)
  else tail arr i
termination_by arr.length - i
decreasing_by
  have := NeZero.pos w
  omega

/-- The scalar tail loop of the x86 kernels. -/
def scanTail (hit : Int64 → Bool) (arr : List Int64) (i : Nat) : Exec Nat :=
  if i < arr.length then do
    let x ← index arr i
    if hit x then .ok i else scanTail hit arr (i + 1)
  else .ok arr.length
termination_by arr.length - i

/-- The tail of the NEON kernels, which looks at one remaining element. -/
def scanLast (hit : Int64 → Bool) (arr : List Int64) (i : Nat) : Exec Nat :=
  if i < arr.length then do
    let x ← index arr i
    .ok (if hit x then i else arr.length)
  else .ok arr.length

/-- An AVX2 kernel: `compare` marks the lanes before the boundary, so the boundary is the first
clear bit of the mask. -/
def findThresholdAvx2 (compare : Vector Int64 4 → Vector Int64 4) (hit : Int64 → Bool)
    (arr : List Int64) : Exec Nat :=
  if arr.length = 0 then .ok 0 else
    let firstLane values :=
      let mask := mm256MovemaskPd (compare values)
      if mask ≠ 0xF then some (trailingZeros (~~~mask &&& 0xF)) else none
    scanBlocks 4 firstLane (scanTail hit) arr 0

def findGeThresholdAvx2 (arr : List Int64) (threshold : Int64) : Exec Nat :=
  findThresholdAvx2 (fun values => mm256CmpgtEpi64 (set1 4 threshold) values)
    (fun x => decide (x ≥ threshold)) arr

def findLeThresholdAvx2 (arr : List Int64) (threshold : Int64) : Exec Nat :=
  findThresholdAvx2 (fun values => mm256CmpgtEpi64 values (set1 4 threshold))
    (fun x => decide (x ≤ threshold)) arr

/-- An AVX-512 kernel: `compare` marks the lanes from the boundary on. -/
def findThresholdAvx512 (compare : Vector Int64 8 → BitVec 8) (hit : Int64 → Bool)
    (arr : List Int64) : Exec Nat :=
  if arr.length = 0 then .ok 0 else
    let firstLane values :=
      let mask := compare values
      if mask ≠ 0 then some (trailingZeros mask) else none
    scanBlocks 8 firstLane (scanTail hit) arr 0

def findGeThresholdAvx512 (arr : List Int64) (threshold : Int64) : Exec Nat :=
  findThresholdAvx512 (fun values => mm512CmpgeEpi64Mask values (set1 8 threshold))
    (fun x => decide (x ≥ threshold)) arr

def findLeThresholdAvx512 (arr : List Int64) (threshold : Int64) : Exec Nat :=
  findThresholdAvx512 (fun values => mm512CmpleEpi64Mask values (set1 8 threshold))
    (fun x => decide (x ≤ threshold)) arr

/-- A NEON kernel: the two lanes of the comparison are tested one by one. -/
def findThresholdNeon (compare : Vector Int64 2 → Vector UInt64 2) (hit : Int64 → Bool)
    (arr : List Int64) : Exec Nat :=
  if arr.length = 0 then .ok 0 else
    let firstLane values :=
      let lanes := compare values
      if lanes[0] ≠ 0 ∨ lanes[1] ≠ 0 then some (if lanes[0] ≠ 0 then 0 else 1) else none
    scanBlocks 2 firstLane (scanLast hit) arr 0

def findGeThresholdNeon (arr : List Int64) (threshold : Int64) : Exec Nat :=
  findThresholdNeon (fun values => vcgeqS64 values (set1 2 threshold))
    (fun x => decide (x ≥ threshold)) arr

def findLeThresholdNeon (arr : List Int64) (threshold : Int64) : Exec Nat :=
  findThresholdNeon (fun values => vcleqS64 values (set1 2 threshold))
    (fun x => decide (x ≤ threshold)) arr

/-- `scalar::find_ge_threshold` -/
def findGeThreshold {T : Type} [LinearOrder T] (arr : List T) (threshold : T) : Exec Nat :=
  BinarySearch.partitionPoint (fun x => decide (x < threshold)) arr

/-- `scalar::find_le_threshold` -/
def findLeThreshold {T : Type} [LinearOrder T] (arr : List T) (threshold : T) : Exec Nat :=
  BinarySearch.partitionPoint (fun x => decide (x > threshold)) arr

/-! ## Dispatch -/

/-- The machine a build runs on: on x86_64 with the feature level that was detected. -/
inductive Target
  | x86_64 (level : UInt8)
  | aarch64
  | other

namespace Level

def SCALAR : UInt8 := 1
def AVX2 : UInt8 := 2
def AVX512 : UInt8 := 3

end Level

def scanGe (target : Target) (arr : List Int64) (threshold : Int64) : Exec Nat :=
  match target with
  | .x86_64 level =>
    if level = Level.AVX512 then findGeThresholdAvx512 arr threshold
    else if level = Level.AVX2 then findGeThresholdAvx2 arr threshold
    else findGeThreshold arr threshold
  | .aarch64 => findGeThresholdNeon arr threshold
  | .other => findGeThreshold arr threshold

def scanLe (target : Target) (arr : List Int64) (threshold : Int64) : Exec Nat :=
  match target with
  | .x86_64 level =>
    if level = Level.AVX512 then findLeThresholdAvx512 arr threshold
    else if level = Level.AVX2 then findLeThresholdAvx2 arr threshold
    else findLeThreshold arr threshold
  | .aarch64 => findLeThresholdNeon arr threshold
  | .other => findLeThreshold arr threshold

/-! ## The hybrid search

What is written for any monad `m` is the code where `m` is `Exec`. A monad that counts tells what
the code costs. -/

section

variable {m : Type → Type} [Monad m] [MonadLiftT Exec m]

def LINEAR_SCAN_MAX : Nat := 64

/-- The narrowing loop: halve the window `lo..lo + len` until it is small. `before` tells the
elements in front of the boundary. -/
def narrow (before : Int64 → m Bool) (arr : List Int64) (lo len : Nat) : m (Nat × Nat) :=
  if LINEAR_SCAN_MAX < len then do
    let half := len / 2
    let x ← index arr (lo + half - 1)
    narrow before arr (if ← before x then lo + half else lo) (len - half)
  else return (lo, len)
termination_by len
decreasing_by
  unfold LINEAR_SCAN_MAX at *
  omega

/-- Both searches: narrow the window, then `scan` what is left of it. -/
def findThresholdI64 (before : Int64 → m Bool) (scan : List Int64 → m Nat) (arr : List Int64) :
    m Nat := do
  let (lo, len) ← narrow before arr 0 arr.length
  let window ← slice arr lo (lo + len)
  let k ← scan window
  return lo + k

end

def findGeThresholdI64 (target : Target) (arr : List Int64) (threshold : Int64) : Exec Nat :=
  findThresholdI64 (fun x => return decide (x < threshold)) (scanGe target · threshold) arr

def findLeThresholdI64 (target : Target) (arr : List Int64) (threshold : Int64) : Exec Nat :=
  findThresholdI64 (fun x => return decide (x > threshold)) (scanLe target · threshold) arr

/-! ## Strategies -/

/-- How a traversal trims a node's sorted run to its overlapping prefix. -/
structure Cutoffs (T : Type) (m : Type → Type := Exec) where
  firstGe : List T → T → m Nat
  firstLe : List T → T → m Nat

/-- Leaves runs whole; the traversal's early exit finds the boundary. -/
def Scalar {T : Type} : Cutoffs T where
  firstGe arr _ := .ok arr.length
  firstLe arr _ := .ok arr.length

/-- Binary narrowing plus a scan of the final window. -/
def Simd (target : Target) : Cutoffs Int64 where
  firstGe := findGeThresholdI64 target
  firstLe := findLeThresholdI64 target

end SimdIntervalTree
