import SimdIntervalTree.Model.Level
import SimdIntervalTree.Simd.Hybrid

/-!
# The level cache, in every interleaving

`LEVEL` only ever changes from `UNKNOWN` to what the CPU is detected to have, so it does not matter
which of the writes a relaxed load returns. A thread that knows of a store does not detect again:
none does so twice, nor after it has synchronised with one that had a level before.
-/

namespace SimdIntervalTree.Level

open Exec RelaxedCell

variable {build : Build} {cpu : Cpu}

/-- The build runs on the CPU at all. -/
structure Build.RunsOn (build : Build) (cpu : Cpu) : Prop where
  avx2 : build.targetAvx2 → cpu.avx2
  avx512f : build.targetAvx512f → cpu.avx512f

theorem detect_cases (build : Build) (cpu : Cpu) :
    (detect build cpu = AVX512 ∧ build.avx512 ∧ (build.targetAvx512f ∨ cpu.avx512f)) ∨
    (detect build cpu = AVX2 ∧ (build.targetAvx2 ∨ cpu.avx2)) ∨ detect build cpu = SCALAR := by
  unfold detect isX86FeatureDetected
  split_ifs <;> simp_all

theorem detect_ne_unknown : detect build cpu ≠ UNKNOWN := by
  rcases detect_cases build cpu with ⟨h, -⟩ | ⟨h, -⟩ | h <;> rw [h] <;> decide

/-- The kernel for the level that is detected is one that the CPU runs. -/
theorem runs_kernel_detect (h : build.RunsOn cpu) :
    cpu.Runs (build.kernel (detect build cpu)) := by
  rcases detect_cases build cpu with ⟨hd, hb, hf⟩ | ⟨hd, hf⟩ | hd
  · rw [hd, Build.kernel, if_pos ⟨hb, rfl⟩]
    exact hf.elim h.avx512f id
  · rw [hd, Build.kernel, if_neg fun hp => absurd hp.2 (by decide), if_pos rfl]
    exact hf.elim h.avx2 id
  · rw [hd, Build.kernel, if_neg fun hp => absurd hp.2 (by decide), if_neg (by decide)]
    trivial

/-- Without `avx512` the level that its arm would match is not detected either. -/
theorem avx512_of_detect (h : detect build cpu = AVX512) : build.avx512 := by
  rcases detect_cases build cpu with ⟨-, hb, -⟩ | ⟨hd, -⟩ | hd
  · exact hb
  · exact absurd (h.symm.trans hd) (by decide)
  · exact absurd (h.symm.trans hd) (by decide)

theorem scanGe_kernel_detect : (build.kernel (detect build cpu)).scanGe =
    SimdIntervalTree.scanGe (.x86_64 (detect build cpu)) := by
  funext arr threshold
  rw [SimdIntervalTree.scanGe, Build.kernel]
  by_cases h : detect build cpu = AVX512
  · rw [if_pos ⟨avx512_of_detect h, h⟩, if_pos h]
    rfl
  · rw [if_neg fun hp => h hp.2, if_neg h]
    split <;> rfl

theorem scanLe_kernel_detect : (build.kernel (detect build cpu)).scanLe =
    SimdIntervalTree.scanLe (.x86_64 (detect build cpu)) := by
  funext arr threshold
  rw [SimdIntervalTree.scanLe, Build.kernel]
  by_cases h : detect build cpu = AVX512
  · rw [if_pos ⟨avx512_of_detect h, h⟩, if_pos h]
    rfl
  · rw [if_neg fun hp => h hp.2, if_neg h]
    split <;> rfl

/-! ## Threads that know of a store -/

variable {Time Thread : Type}

/-- The thread has returned from `get`, or has synchronised with one that knew. -/
inductive Told : List (Thread × Did Thread) → Thread → Prop
  | returned : Told (log ++ [(i, .returned level)]) i
  | saw : Told log j → Told (log ++ [(i, .saw j)]) i
  | later : Told log i → Told (log ++ [e]) i

variable {log pre post : List (Thread × Did Thread)} {i j k : Thread}

theorem told_concat {did : Did Thread} (h : Told (log ++ [(i, did)]) k) :
    Told log k ∨ k = i ∧ ((∃ level, did = .returned level) ∨ ∃ j, did = .saw j ∧ Told log j) := by
  generalize hlog : log ++ [(i, did)] = log' at h
  cases h with
  | returned =>
    cases (List.append_inj' hlog rfl).2
    exact .inr ⟨rfl, .inl ⟨_, rfl⟩⟩
  | saw h =>
    obtain ⟨rfl, he⟩ := List.append_inj' hlog rfl
    cases he
    exact .inr ⟨rfl, .inr ⟨_, rfl, h⟩⟩
  | later h =>
    obtain ⟨rfl, -⟩ := List.append_inj' hlog rfl
    exact .inl h

variable [LinearOrder Time] [OrderBot Time] [DecidableEq Thread] {m m' : Machine Time Thread}

/-- What holds in every interleaving, after the steps of `log`. -/
structure Tracks (build : Build) (cpu : Cpu) (log : List (Thread × Did Thread))
    (m : Machine Time Thread) : Prop where
  settles : m.LEVEL.Settles UNKNOWN (· = detect build cpu)
  detected : ∀ i level, m.frames i = .detected level → level = detect build cpu
  returned : ∀ i level, (i, .returned level) ∈ log → level = detect build cpu
  informed : ∀ i, Told log i → m.LEVEL.Informed i
  busy : ∀ i, m.frames i ≠ .idle → ¬Told log i
  done : ∀ i, (i, .detected) ∈ log → Told log i ∨ ∃ level, m.frames i = .detected level
  once : ∀ i, log.count (i, .detected) ≤ 1

theorem tracks_start : Tracks build cpu [] (start : Machine Time Thread) where
  settles := settles_new
  detected _ _ h := by cases h
  returned _ _ h := by cases h
  informed _ h := by
    generalize hlog : ([] : List (Thread × Did Thread)) = log at h
    cases h <;> simp at hlog
  busy _ h := absurd rfl h
  done _ h := by cases h
  once _ := Nat.zero_le _

namespace Tracks

variable {did : Did Thread}

theorem not_told_missed {cell : RelaxedCell Time Thread UInt8} (h : Tracks build cpu log m)
    (hl : m.LEVEL.Load i UNKNOWN cell) : ¬Told log i := fun ht =>
  detect_ne_unknown (hl.of_informed h.settles (h.informed i ht)).symm

/-- In a step of thread `i` the other threads stay where they are. -/
theorem snoc {frame : Frame} (h : Tracks build cpu log m)
    (hsettles : m'.LEVEL.Settles UNKNOWN (· = detect build cpu))
    (hkeeps : ∀ k, m.LEVEL.Informed k → m'.LEVEL.Informed k)
    (hothers : ∀ k, k ≠ i → m'.frames k = m.frames k) (hframe : m'.frames i = frame)
    (hdetected : ∀ level, frame = .detected level → level = detect build cpu)
    (hreturned : ∀ level, did = .returned level →
      level = detect build cpu ∧ m'.LEVEL.Informed i)
    (hsaw : ∀ j, did = .saw j → m.LEVEL.Informed j → m'.LEVEL.Informed i)
    (hbusy : frame ≠ .idle → ¬Told (log ++ [(i, did)]) i)
    (hdone : (i, .detected) ∈ log ++ [(i, did)] →
      Told (log ++ [(i, did)]) i ∨ ∃ level, frame = .detected level)
    (honce : did = .detected → (i, .detected) ∉ log) :
    Tracks build cpu (log ++ [(i, did)]) m' where
  settles := hsettles
  detected k level hk := by
    by_cases hki : k = i
    · subst hki
      exact hdetected level (hframe.symm.trans hk)
    · exact h.detected k level (hothers k hki ▸ hk)
  returned k level hk := by
    rcases List.mem_append.mp hk with hk | hk
    · exact h.returned k level hk
    · cases List.mem_singleton.mp hk
      exact (hreturned level rfl).1
  informed k hk := by
    rcases told_concat hk with hk | ⟨rfl, ⟨level, rfl⟩ | ⟨j, rfl, hj⟩⟩
    · exact hkeeps k (h.informed k hk)
    · exact (hreturned level rfl).2
    · exact hsaw j rfl (h.informed j hj)
  busy k hk ht := by
    by_cases hki : k = i
    · subst hki
      exact hbusy (hframe ▸ hk) ht
    · rw [hothers k hki] at hk
      rcases told_concat ht with ht | ⟨hki', -⟩
      · exact h.busy k hk ht
      · exact hki hki'
  done k hk := by
    by_cases hki : k = i
    · subst hki
      rw [hframe]
      exact hdone hk
    · rw [hothers k hki]
      have hmem : (k, .detected) ∈ log := by
        rcases List.mem_append.mp hk with hk | hk
        · exact hk
        · cases List.mem_singleton.mp hk
          exact absurd rfl hki
      exact (h.done k hmem).imp_left .later
  once k := by
    rw [List.count_append, List.count_singleton]
    split
    · rename_i heq
      obtain ⟨rfl, rfl⟩ := Prod.mk.inj (eq_of_beq heq)
      rw [List.count_eq_zero_of_not_mem (honce rfl)]
    · exact h.once k

theorem step (h : Tracks build cpu log m) (hs : Step build cpu m i did m') :
    Tracks build cpu (log ++ [(i, did)]) m' := by
  cases hs with
  | @cached c cell hidle hload hne =>
    obtain ⟨hc, hi⟩ := hload.informs h.settles hne
    refine h.snoc (hload.settles h.settles) (fun k => hload.informed) (fun _ _ => rfl) hidle
      ?_ ?_ ?_ (absurd rfl) (fun _ => .inl .returned) ?_
    · rintro _ ⟨⟩
    · rintro _ ⟨⟩
      exact ⟨hc, hi⟩
    · rintro _ ⟨⟩
    · rintro ⟨⟩
  | @missed cell hidle hload =>
    have hnot := h.not_told_missed hload
    refine h.snoc (hload.settles h.settles) (fun k => hload.informed)
      (fun k hk => Function.update_of_ne hk ..) (Function.update_self ..) ?_ ?_ ?_ ?_ ?_ ?_
    · rintro _ ⟨⟩
    · rintro _ ⟨⟩
    · rintro _ ⟨⟩
    · intro _ ht
      rcases told_concat ht with ht | ⟨-, ⟨_, ⟨⟩⟩ | ⟨_, ⟨⟩, _⟩⟩
      exact hnot ht
    · intro hmem
      rcases List.mem_append.mp hmem with hmem | hmem
      · rcases h.done i hmem with ht | ⟨level, hl⟩
        · exact absurd ht hnot
        · rw [hidle] at hl
          cases hl
      · cases List.mem_singleton.mp hmem
    · rintro ⟨⟩
  | detected hmissed =>
    have hnot : ¬Told log i := h.busy i (by rw [hmissed]; rintro ⟨⟩)
    refine h.snoc h.settles (fun k => id) (fun k hk => Function.update_of_ne hk ..)
      (Function.update_self ..) ?_ ?_ ?_ ?_ (fun _ => .inr ⟨_, rfl⟩) ?_
    · rintro _ ⟨⟩
      rfl
    · rintro _ ⟨⟩
    · rintro _ ⟨⟩
    · intro _ ht
      rcases told_concat ht with ht | ⟨-, ⟨_, ⟨⟩⟩ | ⟨_, ⟨⟩, _⟩⟩
      exact hnot ht
    · intro _ hmem
      rcases h.done i hmem with ht | ⟨level, hl⟩
      · exact hnot ht
      · rw [hmissed] at hl
        cases hl
  | @stored level cell hframe hstore =>
    have hlevel := h.detected i level hframe
    refine h.snoc (hstore.settles h.settles hlevel) (fun k => hstore.informed)
      (fun k hk => Function.update_of_ne hk ..) (Function.update_self ..) ?_ ?_ ?_ (absurd rfl)
      (fun _ => .inl .returned) ?_
    · rintro _ ⟨⟩
    · rintro _ ⟨⟩
      exact ⟨hlevel, hstore.informs⟩
    · rintro _ ⟨⟩
    · rintro ⟨⟩
  | @saw j hidle =>
    refine h.snoc h.settles.see (fun k => .acquire) (fun _ _ => rfl) hidle ?_ ?_ ?_ (absurd rfl)
      ?_ ?_
    · rintro _ ⟨⟩
    · rintro _ ⟨⟩
    · rintro _ ⟨⟩ hj
      exact hj.acquires
    · intro hmem
      rcases List.mem_append.mp hmem with hmem | hmem
      · exact hidle ▸ (h.done i hmem).imp_left .later
      · cases List.mem_singleton.mp hmem
    · rintro ⟨⟩

end Tracks

theorem Interleaving.tracks (h : Interleaving build cpu log m) : Tracks build cpu log m := by
  induction h with
  | nil => exact tracks_start
  | snoc _ hs ih => exact ih.step hs

/-! ## Whole interleavings -/

/-- Two threads that both miss, and both detect and store. -/
def race : List (Bool × Did Bool) :=
  [(false, .missed), (true, .missed), (true, .detected), (false, .detected),
    (true, .returned AVX2), (false, .returned AVX2), (true, .returned AVX2)]

theorem exists_race : ∃ m : Machine Nat Bool,
    Interleaving ⟨true, true, false, false⟩ ⟨true, false⟩ race m := by
  let build : Build := ⟨true, true, false, false⟩
  let cpu : Cpu := ⟨true, false⟩
  have h₁ : Interleaving build cpu (race.take 1) (_ : Machine Nat Bool) :=
    Steps.nil.snoc (.missed rfl (.mk le_rfl rfl))
  have h₂ : Interleaving build cpu (race.take 2) _ := h₁.snoc (.missed rfl (.mk le_rfl rfl))
  have h₃ : Interleaving build cpu (race.take 3) _ := h₂.snoc (.detected rfl)
  have h₄ : Interleaving build cpu (race.take 4) _ := h₃.snoc (.detected rfl)
  have h₅ : Interleaving build cpu (race.take 5) _ :=
    h₄.snoc (.stored rfl (.mk (t := 2) (by decide) rfl))
  -- the second store goes before the first
  have h₆ : Interleaving build cpu (race.take 6) _ :=
    h₅.snoc (.stored rfl (.mk (t := 1) (by decide) rfl))
  exact ⟨_, h₆.snoc (.cached rfl (.mk le_rfl rfl) (by decide))⟩

/-- **Dispatch is safe**, whichever writes the relaxed loads return: a level that a thread got is
the one of the CPU, the kernel for it is one that the CPU runs, and the scans are those of the
searches for that level. -/
theorem run_returned (h : Interleaving build cpu log m) (hb : build.RunsOn cpu) :
    (∀ t level, m.LEVEL.write t = some level → level = UNKNOWN ∨ level = detect build cpu) ∧
    ∀ i level, (i, .returned level) ∈ log →
      level = detect build cpu ∧ cpu.Runs (build.kernel level) ∧
      (build.kernel level).scanGe = SimdIntervalTree.scanGe (.x86_64 level) ∧
      (build.kernel level).scanLe = SimdIntervalTree.scanLe (.x86_64 level) := by
  refine ⟨fun t level hw => h.tracks.settles.value hw, fun i level hmem => ?_⟩
  obtain rfl := h.tracks.returned i level hmem
  exact ⟨rfl, runs_kernel_detect hb, scanGe_kernel_detect, scanLe_kernel_detect⟩

theorem run_returned_race :
    let build : Build := ⟨true, true, false, false⟩
    let cpu : Cpu := ⟨true, false⟩
    ∃ m : Machine Nat Bool,
      (∀ t level, m.LEVEL.write t = some level → level = UNKNOWN ∨ level = detect build cpu) ∧
      ∀ i level, (i, .returned level) ∈ race →
        level = detect build cpu ∧ cpu.Runs (build.kernel level) ∧
        (build.kernel level).scanGe = SimdIntervalTree.scanGe (.x86_64 level) ∧
        (build.kernel level).scanLe = SimdIntervalTree.scanLe (.x86_64 level) := by
  obtain ⟨m, h⟩ := exists_race
  exact ⟨m, run_returned h ⟨by decide, by decide⟩⟩

/-- **A level is detected once.** No thread detects twice, and none does after it got a level or
synchronised with a thread that knew of one. -/
theorem run_detects (h : Interleaving build cpu log m) (i : Thread) :
    log.count (i, .detected) ≤ 1 ∧
    ∀ pre post, log = pre ++ (i, .detected) :: post → ¬Told pre i := by
  refine ⟨h.tracks.once i, fun pre post hlog => ?_⟩
  rw [hlog, List.append_cons] at h
  obtain ⟨m₁, h₁⟩ := Steps.of_append h
  obtain ⟨m₀, h₀, hs⟩ := steps_concat_iff.mp h₁
  cases hs with
  | detected hmissed =>
    exact (Interleaving.tracks h₀).busy i (by rw [hmissed]; rintro ⟨⟩)

theorem run_detects_race : race.count (true, .detected) ≤ 1 ∧
    ∀ pre post, race = pre ++ (true, .detected) :: post → ¬Told pre true := by
  obtain ⟨m, h⟩ := exists_race
  exact run_detects h true

end SimdIntervalTree.Level
