import Mathlib.Data.Fin.VecNotation
import OpenCLCTS.Lib.Binary32
import OpenCLCTS.Lib.Blocks

/-!
# Expected values of non-uniform work-groups

`TestNonUniformWorkGroup` limits the local size, and computes for each region of the work-groups
what the kernel should see.  The number of groups is computed with floats.

* `numGroups_eq_iff`: when this number is right; `groupsExact_of_lt`: it is, below `2 ^ 24` work
  items.
* `expectedValues_iff`: **when the values of all regions describe the work-groups.**
-/

namespace OpenCLCTS.NonUniformWorkGroup

open FloatFormat

/-- What the constructor and `prepareDevice` make of the sizes. -/
structure Sizes where
  dims : ℕ
  globalSize : Fin 3 → ℕ
  globalWorkOffset : Fin 3 → ℕ
  enqueuedLocalSize : Fin 3 → ℕ

/-- The fields of `DataContainerAttrib` that are computed on the host. -/
structure DataContainerAttrib where
  getGlobalSize : Fin 3 → ℕ
  getGlobalOffset : Fin 3 → ℕ
  getLocalSize : Fin 3 → ℕ
  getEnqueuedLocalSize : Fin 3 → ℕ
  /-- `none`: the conversion to an integer is not defined -/
  getNumGroups : Fin 3 → Option ℕ
  getWorkDim : ℕ

/-- `setLocalWorkgroupSize`. -/
def setLocalWorkgroupSize (globalSize localSize : ℕ) : ℕ :=
  if globalSize < localSize then globalSize else localSize

/-- The constructor, with a local size and on a device with non-uniform work-groups, and the limits
of `prepareDevice`. -/
def prepare (dims : ℕ) (globalSize localSize globalWorkOffset maxWorkItemSizes : Fin 3 → ℕ) :
    Sizes where
  dims := dims
  globalSize i := if i.val < dims then globalSize i else 1
  globalWorkOffset i := if i.val < dims then globalWorkOffset i else 0
  enqueuedLocalSize i :=
    if i.val < dims then
      let enqueuedLocalSize := setLocalWorkgroupSize (globalSize i) (localSize i)
      if maxWorkItemSizes i < enqueuedLocalSize then maxWorkItemSizes i else enqueuedLocalSize
    else 1

/-- `static_cast<unsigned long>(ceil(static_cast<float>(globalSize) / enqueuedLocalSize))`. -/
def numGroups (globalSize enqueuedLocalSize : ℕ) : Option ℕ :=
  let quotient := binary32.round (binary32.round globalSize / binary32.round enqueuedLocalSize)
  if ⌈quotient⌉ < 2 ^ 64 then some ⌈quotient⌉.toNat else none

namespace Sizes

variable (s : Sizes)

def numberOfPossibleRegions (dim : Fin 3) : ℕ := if 1 < s.globalSize dim then 2 else 1

/-- The regions that `calculateExpectedValues` does not leave out. -/
def reachable (i : ℕ) : Bool :=
  !((i.testBit 0 && s.numberOfPossibleRegions 0 == 1) ||
    (i.testBit 1 && s.numberOfPossibleRegions 1 == 1) ||
    (i.testBit 2 && s.numberOfPossibleRegions 2 == 1))

/-- `calculateExpectedValues`, for a region that is not left out. -/
def calculateExpectedValues (i : ℕ) : DataContainerAttrib where
  getGlobalSize := s.globalSize
  getGlobalOffset := s.globalWorkOffset
  getEnqueuedLocalSize := s.enqueuedLocalSize
  getLocalSize dim :=
    if i.testBit dim then (s.globalSize dim - 1) % s.enqueuedLocalSize dim + 1
    else s.enqueuedLocalSize dim
  getNumGroups dim := numGroups (s.globalSize dim) (s.enqueuedLocalSize dim)
  getWorkDim := s.dims

end Sizes

/-! ### The number of groups -/

/-- `x` is below `m + 1 / 2`, or there and `m` is even. -/
def HalfBelow (x : ℚ) (m : ℤ) : Prop := x < m + 1 / 2 ∨ x = m + 1 / 2 ∧ m % 2 = 0

/-- The quotient of the sizes, which are taken to 24 bits, is near enough to the number of groups:
in units of its last bit, it is not above the middle behind the number, and above the middle
behind the number before. -/
def GroupsExact (globalSize enqueuedLocalSize : ℕ) : Prop :=
  let quotient := binary32.round globalSize / binary32.round enqueuedLocalSize
  let unit := (2 : ℚ) ^ binary32.ulp quotient
  let groups : ℚ := (globalSize ⌈/⌉ enqueuedLocalSize : ℕ)
  HalfBelow (quotient / unit) ⌊groups / unit⌋ ∧
    ¬ HalfBelow (quotient / unit) ⌊(groups - 1) / unit⌋

variable {globalSize enqueuedLocalSize n : ℕ} {q x : ℚ}

theorem round_le_iff : binary32.round q ≤ x ↔
    HalfBelow (q / 2 ^ binary32.ulp q) ⌊x / 2 ^ binary32.ulp q⌋ := by
  have hpos := two_zpow_pos (binary32.ulp q)
  rw [FloatFormat.round, ← le_div_iff₀ hpos, ← Int.le_floor, nearest_le_iff, HalfBelow]

/-- **When the number of groups is right.** -/
theorem numGroups_eq_iff (hG : 0 < globalSize) (hG' : globalSize < 2 ^ 64)
    (hL : 0 < enqueuedLocalSize) :
    numGroups globalSize enqueuedLocalSize = some (globalSize ⌈/⌉ enqueuedLocalSize) ↔
      GroupsExact globalSize enqueuedLocalSize := by
  obtain ⟨n, hn⟩ : ∃ n, n = globalSize ⌈/⌉ enqueuedLocalSize := ⟨_, rfl⟩
  obtain ⟨hpos, hlt, _⟩ := Blocks.ceilDiv_bounds hL hG
  rw [← hn] at hpos hlt
  have hle : n ≤ globalSize := by
    have := Nat.le_mul_of_pos_left (n - 1) hL
    omega
  have hceil (z : ℤ) : (if z < 2 ^ 64 then some z.toNat else none) = some n ↔ z = n := by
    constructor
    · intro h
      split at h
      · have := Option.some.inj h
        omega
      · cases h
    · rintro rfl
      rw [if_pos (by omega), Int.toNat_natCast]
  rw [numGroups, GroupsExact, ← hn, hceil, Int.ceil_eq_iff, ← round_le_iff, ← round_le_iff, not_le]
  push_cast
  exact and_comm

/-- **Below `2 ^ 24` work items the number of groups is right.** -/
theorem groupsExact_of_lt (hG : globalSize < 2 ^ 24) (hL : 0 < enqueuedLocalSize)
    (hle : enqueuedLocalSize ≤ globalSize) : GroupsExact globalSize enqueuedLocalSize := by
  obtain ⟨n, hn⟩ : ∃ n, n = globalSize ⌈/⌉ enqueuedLocalSize := ⟨_, rfl⟩
  obtain ⟨hpos, hlt, hge⟩ := Blocks.ceilDiv_bounds hL (hL.trans_le hle)
  rw [← hn] at hpos hlt hge
  have hround (k : ℕ) (hk : k < 2 ^ 24) : binary32.round k = k := by
    have hnumber : binary32.Number (k : ℤ) :=
      number_intCast (by decide) (by rw [abs_of_nonneg (by omega)]; exact_mod_cast hk)
    exact_mod_cast hnumber.round_eq
  have hL0 : (0 : ℚ) < enqueuedLocalSize := by exact_mod_cast hL
  rw [GroupsExact, ← hn, ← round_le_iff, ← round_le_iff, not_le, hround _ hG,
    hround _ (hle.trans_lt hG)]
  by_cases hdvd : globalSize = enqueuedLocalSize * n
  · -- the quotient is an integer
    have hq : (globalSize : ℚ) / enqueuedLocalSize = n := by
      rw [hdvd]
      push_cast
      rw [mul_div_cancel_left₀ _ hL0.ne']
    have hnle : n ≤ globalSize := by
      rw [hdvd]
      exact Nat.le_mul_of_pos_left n hL
    rw [hq, hround n (hnle.trans_lt hG)]
    exact ⟨le_rfl, by linarith⟩
  · -- the quotient is farther from the integers than the error of its rounding
    obtain ⟨q, hq⟩ : ∃ q, q = (globalSize : ℚ) / enqueuedLocalSize := ⟨_, rfl⟩
    have hmul : q * enqueuedLocalSize = globalSize := by
      rw [hq, div_mul_cancel₀ _ hL0.ne']
    have hq1 : 1 ≤ q := by
      rw [hq, le_div_iff₀ hL0, one_mul]
      exact_mod_cast hle
    have habs : |q| = q := abs_of_pos (by linarith)
    have herr : |binary32.round q - q| ≤ q / 2 ^ 24 := by
      have hulp : (2 : ℚ) ^ binary32.ulp q ≤ |q| / 2 ^ 23 := two_zpow_ulp_le (f := binary32) (by
        rw [habs]
        exact (by norm_num : (2 : ℚ) ^ (-126 : ℤ) ≤ 1).trans hq1)
      rw [habs] at hulp
      calc |binary32.round q - q| ≤ 2 ^ binary32.ulp q / 2 := binary32.abs_round_sub_le_ulp q
        _ ≤ q / 2 ^ 23 / 2 := by linarith
        _ = q / 2 ^ 24 := by ring
    have hsmall : q / 2 ^ 24 * enqueuedLocalSize < 1 := by
      have hG' : (globalSize : ℚ) < 2 ^ 24 := by exact_mod_cast hG
      rw [div_mul_eq_mul_div, hmul, div_lt_one (by norm_num)]
      exact hG'
    have hlow : (enqueuedLocalSize : ℚ) * (n - 1) + 1 ≤ globalSize := by
      have h : enqueuedLocalSize * (n - 1) + 1 ≤ globalSize := hlt
      rw [← Nat.cast_pred hpos]
      exact_mod_cast h
    have hhigh : (globalSize : ℚ) + 1 ≤ enqueuedLocalSize * n := by
      have h : globalSize + 1 ≤ enqueuedLocalSize * n := by omega
      exact_mod_cast h
    rw [← hq]
    obtain ⟨hlo, hhi⟩ := abs_le.mp herr
    constructor
    · refine le_of_mul_le_mul_right ?_ hL0
      nlinarith
    · refine lt_of_mul_lt_mul_right ?_ hL0.le
      nlinarith

/-! ### The values of a region -/

/-- In one dimension the values of a region, which has the first or the last work-group, are those
of the work items taken in groups one after the other. -/
structure Describes (globalSize enqueuedLocalSize : ℕ) (last : Bool) (numGroups : Option ℕ)
    (localSize : ℕ) : Prop where
  count : numGroups = some (globalSize ⌈/⌉ enqueuedLocalSize)
  size : localSize = if last then
    globalSize - enqueuedLocalSize * (globalSize ⌈/⌉ enqueuedLocalSize - 1) else enqueuedLocalSize
  mem : 1 ≤ localSize ∧ localSize ≤ enqueuedLocalSize
  enumerated : ∃ n, numGroups = some n ∧
    (Finset.range globalSize).image (· / enqueuedLocalSize) = Finset.range n ∧
    (Blocks.block globalSize enqueuedLocalSize (if last then n - 1 else 0)).card = localSize

theorem describes_iff (hG : 0 < globalSize) (hG' : globalSize < 2 ^ 64)
    (hL : 0 < enqueuedLocalSize) (hle : enqueuedLocalSize ≤ globalSize) (last : Bool) :
    Describes globalSize enqueuedLocalSize last (numGroups globalSize enqueuedLocalSize)
        (if last then (globalSize - 1) % enqueuedLocalSize + 1 else enqueuedLocalSize) ↔
      GroupsExact globalSize enqueuedLocalSize := by
  rw [← numGroups_eq_iff hG hG' hL]
  refine ⟨fun h => h.count, fun hcount => ⟨hcount, ?_, ?_, _, hcount, Blocks.image_div hL, ?_⟩⟩
  · rw [Blocks.sub_one_mod hL hG]
  · have := Nat.mod_lt (globalSize - 1) hL
    split <;> omega
  · cases last with
    | true => rw [if_pos rfl, if_pos rfl, Blocks.card_last hL hG, Blocks.sub_one_mod hL hG]
    | false =>
      rw [if_neg Bool.false_ne_true, if_neg Bool.false_ne_true, Blocks.card_first hL hle]

variable {dims : ℕ} {globalSizes localSizes globalWorkOffset maxWorkItemSizes : Fin 3 → ℕ}

theorem prepare_bounds (hG : ∀ i, 0 < globalSizes i ∧ globalSizes i < 2 ^ 64)
    (hL : ∀ i, 0 < localSizes i) (hmax : ∀ i, 0 < maxWorkItemSizes i) (i : Fin 3) :
    let s := prepare dims globalSizes localSizes globalWorkOffset maxWorkItemSizes
    0 < s.enqueuedLocalSize i ∧ s.enqueuedLocalSize i ≤ s.globalSize i ∧
      s.globalSize i < 2 ^ 64 := by
  have hG := hG i
  have hL := hL i
  have hmax := hmax i
  simp only [prepare, setLocalWorkgroupSize]
  split
  · split <;> split <;> omega
  · omega

/-- **When the expected values describe the work-groups**, in all regions that are not left out. -/
theorem expectedValues_iff (dims : ℕ)
    (hG : ∀ i, 0 < globalSizes i ∧ globalSizes i < 2 ^ 64) (hL : ∀ i, 0 < localSizes i)
    (hmax : ∀ i, 0 < maxWorkItemSizes i) :
    let s := prepare dims globalSizes localSizes globalWorkOffset maxWorkItemSizes
    (∀ i < 8, s.reachable i = true → ∀ dim : Fin 3,
        Describes (s.globalSize dim) (s.enqueuedLocalSize dim) (i.testBit dim)
          ((s.calculateExpectedValues i).getNumGroups dim)
          ((s.calculateExpectedValues i).getLocalSize dim)) ↔
      ∀ dim, GroupsExact (s.globalSize dim) (s.enqueuedLocalSize dim) := by
  intro s
  have hdescribes (i : ℕ) (dim : Fin 3) :
      Describes (s.globalSize dim) (s.enqueuedLocalSize dim) (i.testBit dim)
          ((s.calculateExpectedValues i).getNumGroups dim)
          ((s.calculateExpectedValues i).getLocalSize dim) ↔
        GroupsExact (s.globalSize dim) (s.enqueuedLocalSize dim) := by
    have hbounds : 0 < s.enqueuedLocalSize dim ∧ s.enqueuedLocalSize dim ≤ s.globalSize dim ∧
        s.globalSize dim < 2 ^ 64 := prepare_bounds hG hL hmax dim
    obtain ⟨hpos, hle, hlt⟩ := hbounds
    exact describes_iff (hpos.trans_le hle) hlt hpos hle _
  constructor
  · intro h dim
    exact (hdescribes 0 dim).mp (h 0 (by decide) rfl dim)
  · intro h i _ _ dim
    exact (hdescribes i dim).mpr (h dim)

/-- A range of 10 by 7 work items in groups of 4 by 7. -/
theorem expectedValues_iff_two :
    let s := prepare 2 ![10, 7, 1] ![4, 8, 1] ![0, 0, 0] ![64, 64, 64]
    Describes (s.globalSize 0) (s.enqueuedLocalSize 0) true
        ((s.calculateExpectedValues 3).getNumGroups 0)
        ((s.calculateExpectedValues 3).getLocalSize 0) ∧
      Describes (s.globalSize 1) (s.enqueuedLocalSize 1) true
        ((s.calculateExpectedValues 3).getNumGroups 1)
        ((s.calculateExpectedValues 3).getLocalSize 1) := by
  intro s
  have hexact : ∀ dim, GroupsExact (s.globalSize dim) (s.enqueuedLocalSize dim) := by
    intro dim
    refine groupsExact_of_lt ?_ ?_ ?_ <;> revert dim <;> decide
  have hall := (expectedValues_iff 2 (by decide) (by decide) (by decide)).mpr hexact 3 (by decide)
    (by decide)
  exact ⟨hall 0, hall 1⟩

/-- The number of groups of `2 ^ 24 + 1` work items, each in a group of its own, is one too low. -/
theorem not_describes :
    let s := prepare 1 ![2 ^ 24 + 1, 1, 1] ![1, 1, 1] ![0, 0, 0] ![64, 64, 64]
    s.reachable 0 = true ∧ (s.calculateExpectedValues 0).getNumGroups 0 = some (2 ^ 24) ∧
      ¬ Describes (s.globalSize 0) (s.enqueuedLocalSize 0) ((0 : ℕ).testBit 0)
        ((s.calculateExpectedValues 0).getNumGroups 0)
        ((s.calculateExpectedValues 0).getLocalSize 0) := by
  intro s
  have hgroups : (s.calculateExpectedValues 0).getNumGroups 0 = some (2 ^ 24) := by decide +kernel
  refine ⟨by decide, hgroups, ?_⟩
  intro h
  have hcount := h.count
  rw [hgroups] at hcount
  exact absurd (Option.some.inj hcount) (by decide)

end OpenCLCTS.NonUniformWorkGroup
