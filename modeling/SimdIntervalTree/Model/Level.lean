import SimdIntervalTree.Lib.RelaxedCell
import SimdIntervalTree.Lib.Run
import SimdIntervalTree.Model.Simd

/-!
# The cached feature level (`simd/mod.rs`, module `level`)

`get` is not one step: other threads run between its load of `LEVEL`, the detection and its store.
The model interleaves the threads of a program. In between their calls of `get` they may also
synchronise, which the program can do by any other means.
-/

namespace SimdIntervalTree.Level

def UNKNOWN : UInt8 := 0

/-- How the crate was compiled for x86_64: its features and the `target_feature`s of the build. -/
structure Build where
  std : Bool
  avx512 : Bool
  targetAvx2 : Bool
  targetAvx512f : Bool

/-- What the CPU reports. -/
structure Cpu where
  avx2 : Bool
  avx512f : Bool

/-- `is_x86_feature_detected!` does not ask for what the build relies on already. -/
def isX86FeatureDetected (target reported : Bool) : Bool := target || reported

def detect (build : Build) (cpu : Cpu) : UInt8 :=
  if build.std then
    if build.avx512 && isX86FeatureDetected build.targetAvx512f cpu.avx512f then AVX512
    else if isX86FeatureDetected build.targetAvx2 cpu.avx2 then AVX2
    else SCALAR
  else
    if build.avx512 && build.targetAvx512f then AVX512
    else if build.targetAvx2 then AVX2
    else SCALAR

/-! ## Dispatch -/

/-- The kernels of x86_64. -/
inductive Kernel
  | avx512
  | avx2
  | scalar

/-- The `match` of `scan_ge` and `scan_le`. Its first arm is only compiled with `avx512`. -/
def Build.kernel (build : Build) (level : UInt8) : Kernel :=
  if build.avx512 ∧ level = AVX512 then .avx512
  else if level = AVX2 then .avx2
  else .scalar

def Kernel.scanGe (kernel : Kernel) (arr : List Int64) (threshold : Int64) : Exec Nat :=
  match kernel with
  | avx512 => findGeThresholdAvx512 arr threshold
  | avx2 => findGeThresholdAvx2 arr threshold
  | scalar => findGeThreshold arr threshold

def Kernel.scanLe (kernel : Kernel) (arr : List Int64) (threshold : Int64) : Exec Nat :=
  match kernel with
  | avx512 => findLeThresholdAvx512 arr threshold
  | avx2 => findLeThresholdAvx2 arr threshold
  | scalar => findLeThreshold arr threshold

/-- The CPU has the instructions that the kernel was compiled to. -/
def Cpu.Runs (cpu : Cpu) : Kernel → Prop
  | .avx512 => cpu.avx512f
  | .avx2 => cpu.avx2
  | .scalar => True

/-! ## Threads -/

/-- Where a thread is. -/
inductive Frame
  /-- Not in a call of `get`. -/
  | idle
  /-- It loaded `UNKNOWN`. -/
  | missed
  /-- It is about to store what it detected. -/
  | detected (level : UInt8)

structure Machine (Time Thread : Type) where
  LEVEL : RelaxedCell Time Thread UInt8
  frames : Thread → Frame

/-- What a thread did in a step. -/
inductive Did (Thread : Type)
  | missed
  | detected
  | returned (level : UInt8)
  /-- It synchronised with what the other thread did before. -/
  | saw (j : Thread)
  deriving DecidableEq

variable {Time Thread : Type} [LinearOrder Time] [OrderBot Time] [DecidableEq Thread]

/-- `static LEVEL: AtomicU8 = AtomicU8::new(UNKNOWN)` -/
def start : Machine Time Thread := ⟨.new UNKNOWN, fun _ => .idle⟩

/-- A step of thread `i`. -/
inductive Step (build : Build) (cpu : Cpu) (m : Machine Time Thread) (i : Thread) :
    Did Thread → Machine Time Thread → Prop
  | cached : m.frames i = .idle → m.LEVEL.Load i cached cell → cached ≠ UNKNOWN →
    Step build cpu m i (.returned cached) { m with LEVEL := cell }
  | missed : m.frames i = .idle → m.LEVEL.Load i UNKNOWN cell →
    Step build cpu m i .missed ⟨cell, Function.update m.frames i .missed⟩
  | detected : m.frames i = .missed →
    Step build cpu m i .detected
      { m with frames := Function.update m.frames i (.detected (detect build cpu)) }
  | stored : m.frames i = .detected level → m.LEVEL.Store i level cell →
    Step build cpu m i (.returned level) ⟨cell, Function.update m.frames i .idle⟩
  | saw : m.frames i = .idle →
    Step build cpu m i (.saw j) { m with LEVEL := m.LEVEL.acquire i j }

/-- The interleavings of any threads, from the start of the program on. -/
abbrev Interleaving (build : Build) (cpu : Cpu) (log : List (Thread × Did Thread))
    (m : Machine Time Thread) : Prop :=
  Exec.Steps (Step build cpu) start log m

end SimdIntervalTree.Level
