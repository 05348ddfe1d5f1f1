import Mathlib.Algebra.Order.Ring.Nat
import Mathlib.Data.Nat.Log
import Mathlib.Data.Set.Lattice
import Mathlib.Order.CompletePartialOrder
import Mathlib.Order.Interval.Set.Basic

/-!
# What the conversion tests try

`ConversionsTest::DoTest` goes through the bit patterns of the source type in blocks, and
each block is divided among the jobs of the thread pool.  A job writes its slice of the
input buffer (`init`).

The slices are a partition of the block (`split_isPartition`).  But `init` starts every
slice with the first pattern of the block, not of the slice, so that all patterns are
tried exactly if each block is one slice (`covered_iff`), and that depends on the number
of threads.

Full mode: `gIsEmbedded` and `gWimpyMode` are off, and the conversion is saturated, so that
nothing is clamped.
-/

namespace OpenCLCTS.Conversions

/-! ### `RoundUpToNextPowerOfTwo` -/

/-- `while (x & (x - 1)) x &= x - 1;` -/
def clearLowBits (x : ℕ) : ℕ :=
  if h : x &&& (x - 1) ≠ 0 then clearLowBits (x &&& (x - 1)) else x
termination_by x
decreasing_by
  have hle : x &&& (x - 1) ≤ x - 1 := Nat.and_le_right
  have hpos : x ≠ 0 := fun h0 => h (by rw [h0, Nat.zero_and])
  omega

/-- `RoundUpToNextPowerOfTwo`, of a `cl_uint`. -/
def roundUpToNextPowerOfTwo (x : ℕ) : ℕ :=
  if 0 = x &&& (x - 1) then x else (clearLowBits x + clearLowBits x) % 2 ^ 32

/-- Clearing the lowest bit of a number that has others keeps the highest one. -/
theorem log2_and_pred {x : ℕ} (h : x &&& (x - 1) ≠ 0) :
    2 ^ x.log2 ≤ x &&& (x - 1) ∧ (x &&& (x - 1)).log2 = x.log2 := by
  have hx : x ≠ 0 := fun h0 => h (by rw [h0, Nat.zero_and])
  have hpow : ¬ x.isPowerOfTwo := fun hp => h ((Nat.and_sub_one_eq_zero_iff_isPowerOfTwo hx).mpr hp)
  have hbit := Nat.ge_two_pow_of_testBit (Nat.and_sub_one_testBit_log2 hx hpow)
  refine ⟨hbit, (Nat.log2_eq_iff h).mpr ⟨hbit, ?_⟩⟩
  exact lt_of_le_of_lt Nat.and_le_left Nat.lt_log2_self

theorem clearLowBits_eq {x : ℕ} (hx : x ≠ 0) : clearLowBits x = 2 ^ x.log2 := by
  induction x using Nat.strongRecOn with
  | ind x ih =>
    rw [clearLowBits]
    split
    · rename_i h
      have hlt : x &&& (x - 1) < x := by
        have hle : x &&& (x - 1) ≤ x - 1 := Nat.and_le_right
        omega
      rw [ih _ hlt h, (log2_and_pred h).2]
    · rename_i h
      obtain ⟨k, hk⟩ := (Nat.and_sub_one_eq_zero_iff_isPowerOfTwo hx).mp (not_not.mp h)
      rw [hk, Nat.log2_two_pow]

/-- **Rounding up** gives the least power of two that is not smaller. -/
theorem roundUpToNextPowerOfTwo_eq {x : ℕ} (hx : x ≠ 0) (hmax : x ≤ 2 ^ 31) :
    roundUpToNextPowerOfTwo x = 2 ^ Nat.clog 2 x := by
  rw [roundUpToNextPowerOfTwo]
  split
  · rename_i h
    obtain ⟨k, hk⟩ := (Nat.and_sub_one_eq_zero_iff_isPowerOfTwo hx).mp h.symm
    rw [hk, Nat.clog_pow 2 k one_lt_two]
  · rename_i h
    have hlog : 2 ^ x.log2 < x := by
      refine lt_of_le_of_ne (Nat.log2_self_le hx) ?_
      intro he
      exact h ((Nat.and_sub_one_eq_zero_iff_isPowerOfTwo hx).mpr ⟨_, he.symm⟩).symm
    rw [clearLowBits_eq hx, Nat.mod_eq_of_lt (by omega), ← Nat.two_mul, ← Nat.pow_succ']
    refine congrArg (2 ^ ·) (le_antisymm ?_ ?_)
    · exact (Nat.lt_clog_iff_pow_lt one_lt_two).mpr hlog
    · exact (Nat.clog_le_iff_le_pow one_lt_two).mpr Nat.lt_log2_self.le

theorem roundUpToNextPowerOfTwo_le_iff {x : ℕ} (hx : x ≠ 0) (hmax : x ≤ 2 ^ 31) (k : ℕ) :
    roundUpToNextPowerOfTwo x ≤ 2 ^ k ↔ x ≤ 2 ^ k := by
  rw [roundUpToNextPowerOfTwo_eq hx hmax, Nat.pow_le_pow_iff_right one_lt_two,
    Nat.clog_le_iff_le_pow one_lt_two]

theorem roundUpToNextPowerOfTwo_mul_two {x : ℕ} (hx : x ≠ 0) (hmax : x ≤ 2 ^ 16) :
    roundUpToNextPowerOfTwo x * 2 % 2 ^ 32 = roundUpToNextPowerOfTwo x * 2 := by
  have := (roundUpToNextPowerOfTwo_le_iff hx (hmax.trans (by decide)) 16).mpr hmax
  exact Nat.mod_eq_of_lt (by omega)

/-! ### `DoTest` -/

/-- `Type`. -/
inductive Ty
  | kuchar | kchar | kushort | kshort | kuint | kint | khalf | kfloat | kdouble | kulong | klong
  deriving DecidableEq

def gTypeSizes : Ty → ℕ
  | .kuchar | .kchar => 1
  | .kushort | .kshort | .khalf => 2
  | .kuint | .kint | .kfloat => 4
  | .kdouble | .kulong | .klong => 8

/-- `BUFFER_SIZE`. -/
def bufferSize : ℕ := 1024 * 1024

def blockCount (inType outType : Ty) : ℕ := bufferSize / max (gTypeSizes inType) (gTypeSizes outType)

def lastCase (inType : Ty) : ℕ :=
  if 8 * gTypeSizes inType > 32 then 0x100000000 else 1 <<< (8 * gTypeSizes inType)

/-- The values of `i` in `for (; i < last; i += step)`. -/
def loopFrom (last step i : ℕ) : List ℕ :=
  if i < last ∧ 0 < step then i :: loopFrom last step (i + step) else []
termination_by last - i

/-- The blocks, each given by its first pattern. -/
def blockStarts (inType outType : Ty) : List ℕ :=
  loopFrom (lastCase inType) (blockCount inType outType) 0

/-- The number of elements of a block. -/
def count (inType outType : Ty) (start : ℕ) : ℕ :=
  min (blockCount inType outType) (lastCase inType - start)

/-- How a block is divided: the number of jobs, and `init_info.size`. -/
def split (count threads : ℕ) : ℕ × ℕ :=
  let chunks := roundUpToNextPowerOfTwo threads * 2 % 2 ^ 32
  if count / chunks < 16384 then
    let chunks := roundUpToNextPowerOfTwo threads
    if count / chunks < 16384 then (1, count) else (chunks, count / chunks)
  else (chunks, count / chunks)

/-! ### `DataInfoSpec::init` -/

/-- The source types of at most 32 bits. -/
abbrev Narrow := { t : Ty // gTypeSizes t ≤ 4 }

/-- The bit pattern that is stored in the `i`-th element of a slice. -/
def pattern (inType : Narrow) (ulStart i : ℕ) : ℕ :=
  match inType with
  | ⟨.khalf, _⟩ => (i + ulStart) % 0xffff % 2 ^ 16
  | ⟨.kuchar, _⟩ | ⟨.kchar, _⟩ => (ulStart + i) % 2 ^ 8
  | ⟨.kushort, _⟩ | ⟨.kshort, _⟩ => (ulStart + i) % 2 ^ 16
  | ⟨.kuint, _⟩ | ⟨.kint, _⟩ | ⟨.kfloat, _⟩ => (i + ulStart) % 2 ^ 32

/-- What a job stores: the elements of `gIn`, and their bit patterns. -/
def init (inType : Narrow) (start size job : ℕ) : List (ℕ × ℕ) :=
  (List.range size).map fun i => (job * size + i, pattern inType start i)

/-- All bit patterns that the jobs of all blocks store. -/
def stored (inType : Narrow) (outType : Ty) (threads : ℕ) : Set ℕ :=
  { v | ∃ start ∈ blockStarts inType outType,
    ∃ job < (split (count inType outType start) threads).1,
      ∃ place, (place, v) ∈ init inType start (split (count inType outType start) threads).2 job }

/-- The patterns that a full test has to try: all, but for the last one of `half`. -/
def allPatterns (inType : Ty) : Set ℕ :=
  { v | v < 2 ^ (8 * gTypeSizes inType) ∧ (inType = .khalf → v ≠ 0xffff) }

/-! ### The slices -/

/-- The elements of a job. -/
def slice (size job : ℕ) : Set ℕ := Set.Ico (job * size) ((job + 1) * size)

/-- The slices of the jobs are a partition of the block. -/
structure IsPartition (count chunks size : ℕ) : Prop where
  disjoint : ∀ job job', job < chunks → job' < chunks → job ≠ job' →
    Disjoint (slice size job) (slice size job')
  union : ⋃ job ∈ Set.Iio chunks, slice size job = Set.Iio count

theorem isPartition_of_mul {count chunks size : ℕ} (h : chunks * size = count) :
    IsPartition count chunks size where
  disjoint job job' _ _ hne := by
    rw [Set.disjoint_left]
    rintro k ⟨hle, hlt⟩ ⟨hle', hlt'⟩
    have h1 : job < job' + 1 := Nat.lt_of_mul_lt_mul_right (hle.trans_lt hlt')
    have h2 : job' < job + 1 := Nat.lt_of_mul_lt_mul_right (hle'.trans_lt hlt)
    omega
  union := by
    ext k
    simp only [Set.mem_iUnion, Set.mem_Iio, slice, Set.mem_Ico, exists_prop]
    constructor
    · rintro ⟨job, hjob, _, hlt⟩
      have hle := Nat.mul_le_mul_right size (Nat.succ_le_of_lt hjob)
      rw [Nat.succ_eq_add_one] at hle
      omega
    · intro hk
      have hsize : 0 < size := Nat.pos_of_ne_zero fun h0 => by rw [h0] at h; omega
      refine ⟨k / size, (Nat.div_lt_iff_lt_mul hsize).mpr (h ▸ hk), Nat.div_mul_le_self k size, ?_⟩
      rw [Nat.mul_comm]
      exact Nat.lt_mul_div_succ k hsize

theorem split_mul (a : ℕ) {threads : ℕ} (ht : threads ≠ 0) (hmax : threads ≤ 2 ^ 16) :
    (split (2 ^ a) threads).1 * (split (2 ^ a) threads).2 = 2 ^ a := by
  obtain ⟨k, hk⟩ : ∃ k, roundUpToNextPowerOfTwo threads = 2 ^ k :=
    ⟨_, roundUpToNextPowerOfTwo_eq ht (hmax.trans (by decide))⟩
  have hdiv : ∀ j, ¬ 2 ^ a / 2 ^ j < 16384 → 2 ^ j * (2 ^ a / 2 ^ j) = 2 ^ a := by
    intro j hj
    refine Nat.mul_div_cancel' (pow_dvd_pow 2 ?_)
    by_contra hlt
    rw [Nat.div_eq_of_lt (Nat.pow_lt_pow_right one_lt_two (not_le.mp hlt))] at hj
    omega
  simp only [split, roundUpToNextPowerOfTwo_mul_two ht hmax]
  rw [hk, ← Nat.pow_succ]
  split
  · split
    · exact Nat.one_mul _
    · exact hdiv k ‹_›
  · exact hdiv (k + 1) ‹_›

/-! ### The blocks -/

theorem mem_loopFrom {last step i s : ℕ} (hstep : 0 < step) :
    s ∈ loopFrom last step i ↔ s < last ∧ ∃ k, s = i + k * step := by
  induction i using loopFrom.induct last step with
  | case1 i h ih =>
    rw [loopFrom, if_pos h, List.mem_cons, ih]
    constructor
    · rintro (rfl | ⟨hlt, k, rfl⟩)
      · exact ⟨h.1, 0, by omega⟩
      · exact ⟨hlt, k + 1, by rw [Nat.succ_mul]; omega⟩
    · rintro ⟨hlt, k, rfl⟩
      cases k with
      | zero => exact .inl (by omega)
      | succ k => exact .inr ⟨hlt, k, by rw [Nat.succ_mul]; omega⟩
  | case2 i h =>
    rw [loopFrom, if_neg h]
    refine iff_of_false List.not_mem_nil ?_
    rintro ⟨hlt, k, rfl⟩
    exact h ⟨(Nat.le_add_right _ _).trans_lt hlt, hstep⟩

/-- All blocks have this length. -/
def blockLen (inType outType : Ty) : ℕ := min (blockCount inType outType) (lastCase inType)

theorem blockCount_cases (inType : Narrow) (outType : Ty) :
    lastCase inType ≤ blockCount inType outType ∨ blockCount inType outType ∣ lastCase inType := by
  obtain ⟨t, ht⟩ := inType
  cases t <;> cases outType <;> revert ht <;> decide

theorem blockLen_pos (inType outType : Ty) : 0 < blockLen inType outType := by
  cases inType <;> cases outType <;> decide

theorem lastCase_eq (inType : Narrow) : lastCase inType = 2 ^ (8 * gTypeSizes inType) := by
  obtain ⟨t, ht⟩ := inType
  cases t <;> revert ht <;> decide

theorem count_eq {inType : Narrow} {outType : Ty} {start : ℕ}
    (h : start ∈ blockStarts inType outType) :
    count inType outType start = blockLen inType outType ∧
      (∃ k, start = k * blockLen inType outType) ∧
        start + blockLen inType outType ≤ lastCase inType := by
  have hpos : 0 < blockCount inType outType :=
    (blockLen_pos inType outType).trans_le (min_le_left _ _)
  obtain ⟨hlt, k, rfl⟩ := (mem_loopFrom hpos).mp h
  rw [Nat.zero_add] at hlt ⊢
  rcases blockCount_cases inType outType with hle | ⟨n, hn⟩
  · obtain rfl : k = 0 := by
      by_contra hk
      exact absurd (hle.trans (Nat.le_mul_of_pos_left _ (Nat.pos_of_ne_zero hk))) (not_le.mpr hlt)
    rw [Nat.zero_mul]
    exact ⟨rfl, ⟨0, (Nat.zero_mul _).symm⟩, (Nat.zero_add _).trans_le (min_le_right _ _)⟩
  · have hkn : k < n := by
      rw [hn, Nat.mul_comm] at hlt
      exact Nat.lt_of_mul_lt_mul_left hlt
    have hrest : blockCount inType outType ≤ lastCase inType - k * blockCount inType outType := by
      rw [hn, Nat.mul_comm k, ← Nat.mul_sub]
      exact Nat.le_mul_of_pos_right _ (by omega)
    have hlen : blockLen inType outType = blockCount inType outType :=
      min_eq_left (hrest.trans (Nat.sub_le _ _))
    refine ⟨(min_eq_left hrest).trans hlen.symm, ⟨k, by rw [hlen]⟩, ?_⟩
    rw [hlen]
    omega

theorem exists_block {inType : Narrow} (outType : Ty) {v : ℕ} (hv : v < lastCase inType) :
    ∃ start ∈ blockStarts inType outType, ∃ i < blockLen inType outType, v = start + i := by
  have hpos : 0 < blockCount inType outType :=
    (blockLen_pos inType outType).trans_le (min_le_left _ _)
  have hdiv := Nat.div_add_mod v (blockCount inType outType)
  have hmod := Nat.mod_lt v hpos
  refine ⟨v / blockCount inType outType * blockCount inType outType,
    (mem_loopFrom hpos).mpr ⟨(Nat.div_mul_le_self _ _).trans_lt hv, _, (Nat.zero_add _).symm⟩,
    v % blockCount inType outType, lt_min hmod ((Nat.mod_le _ _).trans_lt hv), ?_⟩
  rw [Nat.mul_comm, hdiv]

/-! ### The patterns -/

/-- The pattern is the number, but for the last one of `half`. -/
theorem pattern_eq (inType : Narrow) {start i : ℕ} (h : start + i ∈ allPatterns inType) :
    pattern inType start i = start + i := by
  obtain ⟨hlt, hne⟩ := h
  obtain ⟨t, ht⟩ := inType
  cases t <;> simp only [gTypeSizes, forall_const, reduceCtorEq, false_implies] at hlt hne ht <;>
    simp only [pattern] <;> omega

theorem pattern_mem (inType : Narrow) (start i : ℕ) : pattern inType start i ∈ allPatterns inType := by
  obtain ⟨t, ht⟩ := inType
  cases t <;> simp only [gTypeSizes] at ht <;>
    simp only [pattern, allPatterns, Set.mem_ofPred_eq, gTypeSizes, forall_const, reduceCtorEq,
      false_implies, and_true] <;> omega

theorem mem_stored {inType : Narrow} {outType : Ty} {threads v : ℕ} :
    v ∈ stored inType outType threads ↔ ∃ start ∈ blockStarts inType outType,
      0 < (split (blockLen inType outType) threads).1 ∧
        ∃ i < (split (blockLen inType outType) threads).2, v = pattern inType start i := by
  constructor
  · rintro ⟨start, hstart, job, hjob, place, hmem⟩
    rw [(count_eq hstart).1] at hjob hmem
    obtain ⟨i, hi, he⟩ := List.mem_map.mp hmem
    exact ⟨start, hstart, (Nat.zero_le _).trans_lt hjob, i, List.mem_range.mp hi,
      (congrArg Prod.snd he).symm⟩
  · rintro ⟨start, hstart, hpos, i, hi, rfl⟩
    rw [← (count_eq hstart).1] at hpos hi
    refine ⟨start, hstart, 0, hpos, 0 * (split (count inType outType start) threads).2 + i, ?_⟩
    exact List.mem_map.mpr ⟨i, List.mem_range.mpr hi, rfl⟩

/-- **All patterns are tried exactly if each block is one slice.** -/
theorem stored_eq_iff {inType : Narrow} {outType : Ty} {threads : ℕ} (hsplit : (split (blockLen inType outType) threads).1
      * (split (blockLen inType outType) threads).2 = blockLen inType outType) :
    stored inType outType threads = allPatterns inType ↔
      (split (blockLen inType outType) threads).2 = blockLen inType outType := by
  have hlen := blockLen_pos inType outType
  have hchunks : 0 < (split (blockLen inType outType) threads).1 :=
    Nat.pos_of_ne_zero fun h0 => by rw [h0] at hsplit; omega
  constructor
  · intro hall
    by_contra hne
    generalize (split (blockLen inType outType) threads).1 = chunks at hsplit hchunks
    generalize hsize : (split (blockLen inType outType) threads).2 = size at hsplit hne
    have htwo : 2 * size ≤ blockLen inType outType := by
      have hchunks2 : 2 ≤ chunks := by
        by_contra hlt
        obtain rfl : chunks = 1 := by omega
        exact hne (by omega)
      exact hsplit ▸ Nat.mul_le_mul_right size hchunks2
    -- the first pattern of the second slice is not stored
    have hsmall : ∀ start ∈ blockStarts inType outType, ∀ i ≤ size,
        start + i ∈ allPatterns inType := by
      intro start hstart i hi
      obtain ⟨_, _, hle⟩ := count_eq hstart
      refine ⟨?_, fun hhalf => ?_⟩
      · rw [← lastCase_eq]
        omega
      · have hhalfLen : blockLen inType outType = 2 ^ 16 ∧ lastCase inType = 2 ^ 16 := by
          rw [hhalf]
          cases outType <;> decide
        omega
    obtain ⟨start₀, hstart₀, i₀, _, h₀⟩ := exists_block outType
      (show 0 < lastCase inType.1 from lastCase_eq inType ▸ Nat.two_pow_pos _)
    obtain rfl : start₀ = 0 := by omega
    have hmem : size ∈ stored inType outType threads :=
      hall ▸ (Nat.zero_add size ▸ hsmall 0 hstart₀ size le_rfl)
    obtain ⟨start, hstart, _, i, hi, he⟩ := mem_stored.mp hmem
    rw [hsize] at hi
    rw [pattern_eq inType (hsmall start hstart i hi.le)] at he
    obtain ⟨_, ⟨k, rfl⟩, _⟩ := count_eq hstart
    cases k with
    | zero => omega
    | succ k =>
      rw [Nat.succ_mul] at he
      omega
  · intro hsize
    ext v
    rw [mem_stored, hsize]
    constructor
    · rintro ⟨start, _, _, i, _, rfl⟩
      exact pattern_mem inType start i
    · intro hv
      obtain ⟨start, hstart, i, hi, rfl⟩ := exists_block outType (lastCase_eq inType ▸ hv.1)
      exact ⟨start, hstart, hchunks, i, hi, (pattern_eq inType hv).symm⟩

/-- The number of threads from which on a block is one slice. -/
def Enough (inType : Narrow) (outType : Ty) (threads : ℕ) : Prop :=
  gTypeSizes inType = 1 ∨ gTypeSizes inType = 2 ∧ 4 < threads ∨
    gTypeSizes inType = 4 ∧ (if gTypeSizes outType = 8 then 8 else 16) < threads

theorem blockLen_eq (inType : Narrow) (outType : Ty) :
    blockLen inType outType = 2 ^ (if gTypeSizes inType = 1 then 8 else
      if gTypeSizes inType = 2 then 16 else if gTypeSizes outType = 8 then 17 else 18) := by
  obtain ⟨t, ht⟩ := inType
  cases t <;> cases outType <;> revert ht <;> decide

theorem split_snd_of_lt {count threads : ℕ} (ht : threads ≠ 0) (hmax : threads ≤ 2 ^ 16)
    (h : count / roundUpToNextPowerOfTwo threads < 16384) : (split count threads).2 = count := by
  have hle : count / (roundUpToNextPowerOfTwo threads * 2)
      ≤ count / roundUpToNextPowerOfTwo threads := by
    rw [← Nat.div_div_eq_div_mul]
    exact Nat.div_le_self _ _
  simp only [split, roundUpToNextPowerOfTwo_mul_two ht hmax, if_pos (hle.trans_lt h), if_pos h]

theorem split_snd_of_not_lt {count threads : ℕ} (ht : threads ≠ 0) (hmax : threads ≤ 2 ^ 16)
    (hcount : 32768 ≤ count) (hr : 0 < roundUpToNextPowerOfTwo threads)
    (h : ¬ count / roundUpToNextPowerOfTwo threads < 16384) : (split count threads).2 ≠ count := by
  simp only [split, roundUpToNextPowerOfTwo_mul_two ht hmax, if_neg h]
  split
  · rename_i hhalf
    intro he
    rcases Nat.div_eq_self.mp he with h0 | h1
    · omega
    · rw [h1] at hhalf
      omega
  · exact (Nat.div_lt_self (by omega) (by omega)).ne

theorem split_snd_eq_iff {inType : Narrow} {outType : Ty} {threads : ℕ} (ht : threads ≠ 0)
    (hmax : threads ≤ 2 ^ 16) :
    (split (blockLen inType outType) threads).2 = blockLen inType outType ↔
      Enough inType outType threads := by
  have hmax' : threads ≤ 2 ^ 31 := hmax.trans (by decide)
  have h4 := roundUpToNextPowerOfTwo_le_iff ht hmax' 2
  have h8 := roundUpToNextPowerOfTwo_le_iff ht hmax' 3
  have h16 := roundUpToNextPowerOfTwo_le_iff ht hmax' 4
  have hpos : 0 < roundUpToNextPowerOfTwo threads := by
    rw [roundUpToNextPowerOfTwo_eq ht hmax']
    exact Nat.two_pow_pos _
  have hsize : gTypeSizes inType = 1 ∨ gTypeSizes inType = 2 ∨ gTypeSizes inType = 4 := by
    obtain ⟨t, ht⟩ := inType
    cases t <;> revert ht <;> decide
  have hlarge : ∀ c, 32768 ≤ c →
      ((split c threads).2 = c ↔ c < 16384 * roundUpToNextPowerOfTwo threads) := by
    intro c hc
    rw [← Nat.div_lt_iff_lt_mul hpos]
    by_cases h : c / roundUpToNextPowerOfTwo threads < 16384
    · exact iff_of_true (split_snd_of_lt ht hmax h) h
    · exact iff_of_false (split_snd_of_not_lt ht hmax hc hpos h) h
  rw [blockLen_eq, Enough]
  rcases hsize with hsize | hsize | hsize
  · rw [if_pos hsize]
    exact iff_of_true (split_snd_of_lt ht hmax ((Nat.div_le_self _ _).trans_lt (by decide))) (.inl hsize)
  · rw [if_neg (by omega), if_pos hsize, hlarge _ (by decide)]
    omega
  · rw [if_neg (by omega), if_neg (by omega)]
    split
    · rw [hlarge _ (by decide)]
      omega
    · rw [hlarge _ (by decide)]
      omega

/-- **The full tests cover all inputs exactly with enough threads.**  The slices are always
a partition of the block. -/
theorem covered_iff (inType : Narrow) (outType : Ty) {threads : ℕ} (ht : 1 ≤ threads)
    (hmax : threads ≤ 2 ^ 16) :
    (∀ start ∈ blockStarts inType outType, IsPartition (count inType outType start)
      (split (count inType outType start) threads).1
      (split (count inType outType start) threads).2) ∧
    (stored inType outType threads = allPatterns inType ↔ Enough inType outType threads) := by
  have hmul : (split (blockLen inType outType) threads).1
      * (split (blockLen inType outType) threads).2 = blockLen inType outType := by
    rw [blockLen_eq]
    exact split_mul _ (by omega) hmax
  constructor
  · intro start hstart
    rw [(count_eq hstart).1]
    exact isPartition_of_mul hmul
  · rw [stored_eq_iff hmul, split_snd_eq_iff (by omega) hmax]

theorem covered_iff_short_one :
    (∀ start ∈ blockStarts .kshort .kuchar, IsPartition (count .kshort .kuchar start)
      (split (count .kshort .kuchar start) 1).1 (split (count .kshort .kuchar start) 1).2) ∧
    (stored ⟨.kshort, by decide⟩ .kuchar 1 = allPatterns .kshort ↔
      Enough ⟨.kshort, by decide⟩ .kuchar 1) :=
  covered_iff ⟨.kshort, by decide⟩ .kuchar (by decide) (by decide)

/-- From `short`, with one thread, there are two slices that start with the same pattern. -/
theorem not_covered : ¬ ∀ (inType : Narrow) (outType : Ty) (threads : ℕ), 1 ≤ threads →
    threads ≤ 2 ^ 16 →
      (∀ start ∈ blockStarts inType outType, IsPartition (count inType outType start)
        (split (count inType outType start) threads).1
        (split (count inType outType start) threads).2) ∧
      stored inType outType threads = allPatterns inType := by
  intro hall
  have hstored := (hall ⟨.kshort, by decide⟩ .kuchar 1 (by decide) (by decide)).2
  have hlen := blockLen_eq ⟨.kshort, by decide⟩ .kuchar
  have hmul := @split_mul 16 1 (by decide) (by decide)
  rw [stored_eq_iff (by rw [hlen]; exact hmul), split_snd_eq_iff (by decide) (by decide)] at hstored
  revert hstored
  simp only [Enough, gTypeSizes]
  omega

end OpenCLCTS.Conversions
