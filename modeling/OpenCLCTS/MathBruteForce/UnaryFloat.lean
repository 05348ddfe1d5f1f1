import Mathlib.Tactic.Positivity
import OpenCLCTS.Conversions.Coverage

/-!
# What the tests of unary functions try

`TestFunc_Float_Float` divides the patterns of 32 bits among the jobs of the thread pool: a job
tries `subBufferSize` patterns that are `scale` apart, in the part of the buffers that belongs to
its thread.

The jobs try all multiples of `scale`, each one once, if there are jobs at all: the number of jobs
is a `cl_uint`, and with one pattern a job there are `2 ^ 32` of them (`enumerates_iff`).
-/

namespace OpenCLCTS.MathBruteForce

open Conversions (roundUpToNextPowerOfTwo)

/-! ### `TestFunc_Float_Float` -/

/-- `BUFFER_SIZE`, in bytes. -/
def bufferSize : ℕ := 1024 * 1024 * 2

/-- `EMBEDDED_REDUCTION_FACTOR`. -/
def embeddedReductionFactor : ℕ := 64

/-- The part of `TestInfo` that says what is tried. -/
structure TestInfo where
  subBufferSize : ℕ
  threadCount : ℕ
  jobCount : ℕ
  step : ℕ
  scale : ℕ

/-- `subBufferSize`, for elements of `typeSize` bytes. -/
def subBufferSize (typeSize threadCount : ℕ) : ℕ :=
  bufferSize / (typeSize * roundUpToNextPowerOfTwo threadCount)

/-- `step`, in 32 bits. -/
def step (typeSize threadCount scale : ℕ) : ℕ :=
  subBufferSize typeSize threadCount % 2 ^ 32 * scale % 2 ^ 32

/-- `test_info`, as `TestFunc_Float_Float` fills it in. -/
def testInfo (threadCount scale : ℕ) : TestInfo where
  subBufferSize := subBufferSize 4 threadCount
  threadCount := threadCount
  jobCount :=
    -- there was overflow
    if step 4 threadCount scale / subBufferSize 4 threadCount ≠ scale then 1
    else 2 ^ 32 / step 4 threadCount scale % 2 ^ 32
  step := step 4 threadCount scale
  scale := scale

/-! ### `Test` -/

/-- `base`. -/
def base (job : TestInfo) (jobId : ℕ) : ℕ := jobId * job.step % 2 ^ 32

/-- `base + j * scale`, as it is stored. -/
def pattern (job : TestInfo) (jobId j : ℕ) : ℕ := (base job jobId + j * job.scale) % 2 ^ 32

/-- The bytes of `gIn`, of `gOut_Ref` and of a device buffer that belong to a thread. -/
def slice (job : TestInfo) (threadId : ℕ) : Set ℕ :=
  Set.Ico (threadId * job.subBufferSize * 4) (threadId * job.subBufferSize * 4 + job.subBufferSize * 4)

/-! ### The jobs -/

/-- What the tests should try: multiples of `scale` without repetition, all of them in the full and
in the embedded mode, each thread in its own part of the buffers. -/
structure Enumerates (job : TestInfo) : Prop where
  noWrap : ∀ jobId < job.jobCount, ∀ j < job.subBufferSize,
    jobId * job.step + j * job.scale < 2 ^ 32 ∧
      pattern job jobId j = jobId * job.step + j * job.scale ∧ job.scale ∣ pattern job jobId j
  distinct : ∀ jobId < job.jobCount, ∀ j < job.subBufferSize, ∀ jobId' < job.jobCount,
    ∀ j' < job.subBufferSize, pattern job jobId j = pattern job jobId' j' → jobId = jobId' ∧ j = j'
  complete : job.scale = 1 ∨ job.scale = embeddedReductionFactor → ∀ n < 2 ^ 32, job.scale ∣ n →
    ∃ jobId < job.jobCount, ∃ j < job.subBufferSize, pattern job jobId j = n
  slices : ∀ thread : ℕ → ℕ, (∀ jobId, thread jobId < job.threadCount) → ∀ jobId jobId',
    slice job (thread jobId) ⊆ Set.Ico 0 bufferSize ∧
      (thread jobId ≠ thread jobId' → Disjoint (slice job (thread jobId)) (slice job (thread jobId')))

section

variable {job : TestInfo}

/-- The numbers of a test in which nothing wraps. -/
structure Divides (job : TestInfo) : Prop where
  pos : 0 < job.subBufferSize
  scale : 0 < job.scale
  step : job.step = job.subBufferSize * job.scale
  fits : job.jobCount * job.step ≤ 2 ^ 32

theorem Divides.lt (h : Divides job) {jobId j : ℕ} (hjob : jobId < job.jobCount)
    (hj : j < job.subBufferSize) : jobId * job.step + j * job.scale < 2 ^ 32 := by
  have hlast : j * job.scale < job.step := by
    rw [h.step]
    exact Nat.mul_lt_mul_of_pos_right hj h.scale
  have hnext : (jobId + 1) * job.step ≤ job.jobCount * job.step := Nat.mul_le_mul_right _ hjob
  have hfits := h.fits
  rw [Nat.succ_mul] at hnext
  omega

/-- **Nothing wraps.** -/
theorem Divides.pattern_eq (h : Divides job) {jobId j : ℕ} (hjob : jobId < job.jobCount)
    (hj : j < job.subBufferSize) :
    pattern job jobId j = (jobId * job.subBufferSize + j) * job.scale := by
  have hlt := h.lt hjob hj
  have hbase : jobId * job.step < 2 ^ 32 := lt_of_le_of_lt (Nat.le_add_right _ _) hlt
  rw [pattern, base, Nat.mod_eq_of_lt hbase, Nat.mod_eq_of_lt hlt, h.step, Nat.add_mul,
    Nat.mul_assoc]

theorem Divides.noWrap (h : Divides job) {jobId j : ℕ} (hjob : jobId < job.jobCount)
    (hj : j < job.subBufferSize) : jobId * job.step + j * job.scale < 2 ^ 32 ∧
      pattern job jobId j = jobId * job.step + j * job.scale ∧ job.scale ∣ pattern job jobId j := by
  have heq := h.pattern_eq hjob hj
  refine ⟨h.lt hjob hj, ?_, ?_⟩
  · rw [heq, h.step, Nat.add_mul, Nat.mul_assoc]
  · rw [heq]
    exact Nat.dvd_mul_left _ _

/-- **No pattern is tried twice.** -/
theorem Divides.distinct (h : Divides job) {jobId j jobId' j' : ℕ} (hjob : jobId < job.jobCount)
    (hj : j < job.subBufferSize) (hjob' : jobId' < job.jobCount) (hj' : j' < job.subBufferSize)
    (heq : pattern job jobId j = pattern job jobId' j') : jobId = jobId' ∧ j = j' := by
  rw [h.pattern_eq hjob hj, h.pattern_eq hjob' hj'] at heq
  have hplace := Nat.eq_of_mul_eq_mul_right h.scale heq
  have hdiv := congrArg (· / job.subBufferSize) hplace
  have hmod := congrArg (· % job.subBufferSize) hplace
  simp only [Nat.mul_comm _ job.subBufferSize, Nat.mul_add_div h.pos, Nat.mul_add_mod,
    Nat.div_eq_of_lt hj, Nat.div_eq_of_lt hj', Nat.mod_eq_of_lt hj, Nat.mod_eq_of_lt hj',
    Nat.add_zero] at hdiv hmod
  exact ⟨hdiv, hmod⟩

/-- **Every multiple is tried**, if the jobs reach the end. -/
theorem Divides.complete (h : Divides job) (hall : job.jobCount * job.step = 2 ^ 32) {n : ℕ}
    (hn : n < 2 ^ 32) (hdvd : job.scale ∣ n) :
    ∃ jobId < job.jobCount, ∃ j < job.subBufferSize, pattern job jobId j = n := by
  obtain ⟨m, rfl⟩ := hdvd
  have hm : m < job.subBufferSize * job.jobCount := by
    rw [← hall, h.step, Nat.mul_comm, ← Nat.mul_assoc, Nat.mul_comm job.jobCount] at hn
    exact Nat.lt_of_mul_lt_mul_right hn
  have hjob : m / job.subBufferSize < job.jobCount := Nat.div_lt_of_lt_mul hm
  have hj : m % job.subBufferSize < job.subBufferSize := Nat.mod_lt _ h.pos
  refine ⟨_, hjob, _, hj, ?_⟩
  rw [h.pattern_eq hjob hj, Nat.mul_comm _ job.subBufferSize, Nat.div_add_mod, Nat.mul_comm]

theorem disjoint_slice {t t' : ℕ} (hne : t ≠ t') : Disjoint (slice job t) (slice job t') := by
  rw [Set.disjoint_left]
  intro i hi hi'
  simp only [slice, Set.mem_Ico, ← Nat.add_mul, ← Nat.succ_mul] at hi hi'
  rcases Nat.lt_or_gt_of_ne hne with hlt | hlt
  · have hle := Nat.mul_le_mul_right (job.subBufferSize * 4) (Nat.succ_le_of_lt hlt)
    simp only [← Nat.mul_assoc] at hle
    omega
  · have hle := Nat.mul_le_mul_right (job.subBufferSize * 4) (Nat.succ_le_of_lt hlt)
    simp only [← Nat.mul_assoc] at hle
    omega

theorem slice_subset {t n : ℕ} (ht : t < n) (hfits : n * job.subBufferSize * 4 ≤ bufferSize) :
    slice job t ⊆ Set.Ico 0 bufferSize := by
  intro i hi
  simp only [slice, Set.mem_Ico, ← Nat.add_mul, ← Nat.succ_mul] at hi
  have hle := Nat.mul_le_mul_right (job.subBufferSize * 4) (Nat.succ_le_of_lt ht)
  simp only [← Nat.mul_assoc] at hle
  exact ⟨Nat.zero_le i, by omega⟩

end

/-! ### The test -/

section

variable {threadCount scale : ℕ}

/-- The size of a sub-buffer is a power of two, and it is 1 from `2 ^ 18 + 1` threads on. -/
theorem subBufferSize_eq (ht : 1 ≤ threadCount) (hmax : threadCount ≤ 2 ^ 19) :
    ∃ k ≤ 19, subBufferSize 4 threadCount = 2 ^ k ∧ threadCount * 2 ^ k ≤ 2 ^ 19 ∧
      (k = 0 ↔ 2 ^ 18 < threadCount) := by
  have hround := Conversions.roundUpToNextPowerOfTwo_eq (Nat.one_le_iff_ne_zero.mp ht)
    (hmax.trans (by decide))
  have hle : Nat.clog 2 threadCount ≤ 19 := (Nat.clog_le_iff_le_pow one_lt_two).mpr hmax
  have hlog : threadCount ≤ 2 ^ Nat.clog 2 threadCount := Nat.le_pow_clog one_lt_two _
  have hlast : 18 < Nat.clog 2 threadCount ↔ 2 ^ 18 < threadCount :=
    Nat.lt_clog_iff_pow_lt one_lt_two
  refine ⟨19 - Nat.clog 2 threadCount, Nat.sub_le _ _, ?_, ?_, by omega⟩
  · have hbuffer : bufferSize = 4 * 2 ^ Nat.clog 2 threadCount * 2 ^ (19 - Nat.clog 2 threadCount) := by
      rw [Nat.mul_assoc, ← Nat.pow_add, Nat.add_sub_cancel' hle]
      rfl
    rw [subBufferSize, hround, hbuffer, Nat.mul_div_cancel_left _ (by positivity)]
  · calc threadCount * 2 ^ (19 - Nat.clog 2 threadCount)
        ≤ 2 ^ Nat.clog 2 threadCount * 2 ^ (19 - Nat.clog 2 threadCount) :=
          Nat.mul_le_mul_right _ hlog
      _ = 2 ^ 19 := by rw [← Nat.pow_add, Nat.add_sub_cancel' hle]

/-- The numbers of the test, if the step fits into 32 bits. -/
theorem testInfo_eq (ht : 1 ≤ threadCount) (hmax : threadCount ≤ 2 ^ 19) (hscale : 1 ≤ scale)
    (hstep : subBufferSize 4 threadCount * scale < 2 ^ 32) :
    (testInfo threadCount scale).step = subBufferSize 4 threadCount * scale ∧
      (testInfo threadCount scale).jobCount
        = 2 ^ 32 / (subBufferSize 4 threadCount * scale) % 2 ^ 32 := by
  obtain ⟨k, -, hk, -⟩ := subBufferSize_eq ht hmax
  have hpos : 0 < subBufferSize 4 threadCount := by
    rw [hk]
    exact Nat.two_pow_pos k
  have hlt : subBufferSize 4 threadCount < 2 ^ 32 :=
    lt_of_le_of_lt (Nat.le_mul_of_pos_right _ hscale) hstep
  have heq : step 4 threadCount scale = subBufferSize 4 threadCount * scale := by
    rw [step, Nat.mod_eq_of_lt hlt, Nat.mod_eq_of_lt hstep]
  refine ⟨heq, ?_⟩
  simp only [testInfo, heq, Nat.mul_div_cancel_left _ hpos, ne_eq, not_true_eq_false, if_false]

theorem divides_testInfo (ht : 1 ≤ threadCount) (hmax : threadCount ≤ 2 ^ 19) (hscale : 1 ≤ scale)
    (hstep : subBufferSize 4 threadCount * scale < 2 ^ 32) :
    Divides (testInfo threadCount scale) := by
  obtain ⟨hs, hcount⟩ := testInfo_eq ht hmax hscale hstep
  obtain ⟨k, -, hk, -⟩ := subBufferSize_eq ht hmax
  refine ⟨?_, hscale, hs, ?_⟩
  · rw [testInfo, hk]
    exact Nat.two_pow_pos k
  · rw [hcount, hs]
    exact (Nat.mul_le_mul_right _ (Nat.mod_le _ _)).trans (Nat.div_mul_le_self _ _)

theorem jobCount_mul_step (ht : 1 ≤ threadCount) (hmax : threadCount ≤ 2 ^ 19) {s : ℕ}
    (hstep : subBufferSize 4 threadCount * 2 ^ s < 2 ^ 32)
    (hone : subBufferSize 4 threadCount * 2 ^ s ≠ 1) :
    (testInfo threadCount (2 ^ s)).jobCount * (testInfo threadCount (2 ^ s)).step = 2 ^ 32 := by
  obtain ⟨hs, hcount⟩ := testInfo_eq ht hmax Nat.one_le_two_pow hstep
  obtain ⟨k, -, hk, -⟩ := subBufferSize_eq ht hmax
  rw [hcount, hs]
  rw [hk, ← Nat.pow_add] at hstep hone ⊢
  have hle : k + s < 32 := (Nat.pow_lt_pow_iff_right one_lt_two).mp hstep
  have hne : k + s ≠ 0 := fun h => hone (by rw [h, Nat.pow_zero])
  rw [Nat.pow_div hle.le two_pos, Nat.mod_eq_of_lt, ← Nat.pow_add, Nat.sub_add_cancel hle.le]
  exact Nat.pow_lt_pow_right one_lt_two (by omega)

/-- **The jobs try what they should** unless there are `2 ^ 32` of them. -/
theorem enumerates_iff (ht : 1 ≤ threadCount) (hmax : threadCount ≤ 2 ^ 19) (hscale : 1 ≤ scale)
    (hstep : subBufferSize 4 threadCount * scale < 2 ^ 32) :
    Enumerates (testInfo threadCount scale) ↔ ¬ (scale = 1 ∧ 2 ^ 18 < threadCount) := by
  obtain ⟨k, hk19, hk, hfits, hzero⟩ := subBufferSize_eq ht hmax
  have hdivides := divides_testInfo ht hmax hscale hstep
  constructor
  · intro h hbad
    obtain ⟨rfl, hmany⟩ := hbad
    -- the number of jobs is 0
    obtain ⟨jobId, hjob, -⟩ := h.complete (.inl rfl) 0 (by decide) (Nat.dvd_zero _)
    rw [(testInfo_eq ht hmax hscale hstep).2, hk, hzero.mpr hmany] at hjob
    exact absurd hjob (Nat.not_lt_zero jobId)
  · intro hgood
    refine ⟨fun jobId hjob j hj => hdivides.noWrap hjob hj,
      fun jobId hjob j hj jobId' hjob' j' hj' => hdivides.distinct hjob hj hjob' hj', ?_, ?_⟩
    · intro hmode n hn hdvd
      refine hdivides.complete ?_ hn hdvd
      rcases hmode with h | h
      · change scale = 2 ^ 0 at h
        subst h
        refine jobCount_mul_step ht hmax hstep ?_
        rw [hk, Nat.pow_zero, Nat.mul_one]
        intro hone
        have hk0 : k = 0 := (Nat.pow_eq_one.mp hone).resolve_left (by decide)
        exact hgood ⟨rfl, hzero.mp hk0⟩
      · change scale = 2 ^ 6 at h
        subst h
        refine jobCount_mul_step ht hmax hstep ?_
        omega
    · intro thread hthread jobId jobId'
      refine ⟨slice_subset (hthread jobId) ?_, disjoint_slice⟩
      show threadCount * subBufferSize 4 threadCount * 4 ≤ bufferSize
      rw [hk, bufferSize]
      omega

/-- Four threads, all patterns. -/
theorem enumerates_four : Enumerates (testInfo 4 1) :=
  (enumerates_iff (by decide) (by decide) (by decide) (by decide +kernel)).mpr (by decide)

/-- With `2 ^ 19` threads no pattern is tried. -/
theorem not_enumerates : ¬ ∀ threadCount scale : ℕ, 1 ≤ threadCount → threadCount ≤ 2 ^ 19 →
    1 ≤ scale → subBufferSize 4 threadCount * scale < 2 ^ 32 →
    Enumerates (testInfo threadCount scale) := by
  intro h
  have hstep : subBufferSize 4 (2 ^ 19) * 1 < 2 ^ 32 := by decide +kernel
  obtain ⟨jobId, hjob, -⟩ :=
    (h (2 ^ 19) 1 (by decide) le_rfl le_rfl hstep).complete (.inl rfl) 0 (by decide) (Nat.dvd_zero _)
  have hcount : (testInfo (2 ^ 19) 1).jobCount = 0 := by decide +kernel
  rw [hcount] at hjob
  exact absurd hjob (Nat.not_lt_zero _)

end

end OpenCLCTS.MathBruteForce
