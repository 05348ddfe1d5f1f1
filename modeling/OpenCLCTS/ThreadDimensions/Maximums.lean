import Mathlib.Order.Lattice.Nat
import Mathlib.Order.Bounds.Image
import OpenCLCTS.Lib.Loops

/-!
# The memory of the thread dimension tests

`get_maximums` asks the devices for three limits and keeps the least ones; a buffer is tried that
gets smaller by a sixteenth after every failure.

* `Keeps.step`: two of the limits are kept right.  The third one is compared with another limit.
* `sizeSearch_ends`: the search for a buffer ends, within an eighth of what it started with.
* `maximums_iff`: **the limits and the buffer are right, just if the device whose memory is kept is
  the one with the least memory.**
-/

namespace OpenCLCTS.ThreadDimensions

open Loops

/-! ### `get_maximums` -/

/-- What a device answers; `none` if the call fails. -/
structure Device where
  kernelWorkGroupSize : Option ℕ
  maxMemAllocSize : Option ℕ
  globalMemSize : Option ℕ

structure Maximums where
  maxWorkgroupSize : ℕ
  maxAllocation : ℕ
  maxPhysical : ℕ
  deriving DecidableEq

/-- The body of the loop, with what the device answers. -/
def keepLimits (m : Maximums) (currentWorkgroupSize currentAllocation currentPhysical : ℕ) :
    Maximums :=
  let maxWorkgroupSize :=
    if m.maxWorkgroupSize = 0 then currentWorkgroupSize
    else if currentWorkgroupSize < m.maxWorkgroupSize then currentWorkgroupSize
    else m.maxWorkgroupSize
  let maxAllocation :=
    if m.maxAllocation = 0 then currentAllocation
    else if currentAllocation < m.maxAllocation then currentAllocation
    else m.maxAllocation
  let maxPhysical :=
    if m.maxPhysical = 0 then currentPhysical
    else if currentPhysical < maxAllocation then currentPhysical
    else m.maxPhysical
  ⟨maxWorkgroupSize, maxAllocation, maxPhysical⟩

/-- `get_maximums`; `none` if it returns an error. -/
def getMaximums (devices : ℕ → Device) (numDevices : ℕ) : Option Maximums :=
  if numDevices < 1 then none
  else (List.range' 0 numDevices).foldlM (fun m i => do
    let currentWorkgroupSize ← (devices i).kernelWorkGroupSize
    let currentAllocation ← (devices i).maxMemAllocSize
    let currentPhysical ← (devices i).globalMemSize
    some (keepLimits m currentWorkgroupSize currentAllocation currentPhysical)) ⟨0, 0, 0⟩

/-! ### The size of the buffer -/

/-- `max_memory_size`. -/
def maxMemorySize (bufferSize : ℕ) (m : Maximums) : ℕ :=
  let maxAllocation :=
    if m.maxAllocation > m.maxPhysical / 2 then m.maxPhysical / 2 else m.maxAllocation
  let maxAllocation :=
    if maxAllocation > 1024 * 1024 * 512 then 1024 * 1024 * 512 else maxAllocation
  let size := if bufferSize ≠ 0 then bufferSize else maxAllocation % 2 ^ 32
  if size > 512 * 1024 * 1024 then 512 * 1024 * 1024 else size

/-- What `clCreateBuffer` says. -/
inductive Creation
  | success
  | memObjectAllocationFailure
  | outOfHostMemory
  | otherError
  deriving DecidableEq

/-- How the search ends: with a buffer, or -1 is returned. -/
inductive Search
  | buffer (memorySize : ℕ)
  | createFailed
  | noWorkingSize
  deriving DecidableEq

/-- The loop that creates the buffer; `none` if it has not ended after `fuel` tests. -/
def sizeSearch (maxMemorySize : ℕ) (created : ℕ → Creation) :
    (fuel k memorySize : ℕ) → Option Search
  | 0, _, _ => none
  | fuel + 1, k, memorySize =>
    if maxMemorySize / 8 ≤ memorySize then
      match created k with
      | .memObjectAllocationFailure | .outOfHostMemory =>
        sizeSearch maxMemorySize created fuel (k + 1)
          ((memorySize + 2 ^ 32 - maxMemorySize / 16) % 2 ^ 32)
      | .otherError => some .createFailed
      | .success => some (.buffer memorySize)
    else some .noWorkingSize

/-- The part of `test_thread_dimensions` that finds a buffer; an error of `get_maximums` is not
looked at. -/
def createArray (bufferSize : ℕ) (devices : ℕ → Device) (numDevices : ℕ) (created : ℕ → Creation)
    (fuel : ℕ) : Option Search :=
  let m := (getMaximums devices numDevices).getD ⟨0, 0, 0⟩
  sizeSearch (maxMemorySize bufferSize m) created fuel 0 (maxMemorySize bufferSize m)

/-! ### Limits -/

/-- The limits of a device, none of which is small. -/
structure Limits where
  workGroup : ℕ
  alloc : ℕ
  memory : ℕ
  workGroup_pos : 1 ≤ workGroup
  le_alloc : 2 ^ 20 ≤ alloc
  le_memory : 2 ^ 20 ≤ memory

/-- A device with such limits. -/
def Limits.device (l : Limits) : Device := ⟨some l.workGroup, some l.alloc, some l.memory⟩

section

variable {f : ℕ → ℕ} {n x : ℕ}

/-- The least one of the first `n` numbers. -/
def Least (f : ℕ → ℕ) (n x : ℕ) : Prop := IsLeast (f '' Set.Iio n) x

theorem least_iff : Least f n x ↔ (∃ i < n, f i = x) ∧ ∀ i < n, x ≤ f i := by
  simp [Least, IsLeast, lowerBounds]

theorem least_one (f : ℕ → ℕ) : Least f 1 (f 0) := by
  rw [least_iff]
  refine ⟨⟨0, one_pos, rfl⟩, ?_⟩
  intro i hi
  rw [Nat.lt_one_iff.mp hi]

/-- **One more number.** -/
theorem Least.step (h : Least f n x) : Least f (n + 1) (if f n < x then f n else x) := by
  rw [least_iff] at h ⊢
  obtain ⟨⟨i, hi, hix⟩, hall⟩ := h
  split
  · rename_i hlt
    refine ⟨⟨n, Nat.lt_succ_self n, rfl⟩, ?_⟩
    intro j hj
    rcases Nat.lt_succ_iff_lt_or_eq.mp hj with hj | rfl
    · exact hlt.le.trans (hall j hj)
    · exact le_rfl
  · rename_i hge
    refine ⟨⟨i, Nat.lt_succ_of_lt hi, hix⟩, ?_⟩
    intro j hj
    rcases Nat.lt_succ_iff_lt_or_eq.mp hj with hj | rfl
    · exact hall j hj
    · exact not_lt.mp hge

theorem Least.pos (h : Least f n x) (hf : ∀ i, 1 ≤ f i) : x ≠ 0 := by
  obtain ⟨⟨i, -, rfl⟩, -⟩ := least_iff.mp h
  have := hf i
  omega

theorem Least.lt_iff (h : Least f n x) {y : ℕ} : y < x ↔ ∀ i < n, y < f i := by
  rw [least_iff] at h
  obtain ⟨⟨i, hi, hix⟩, hall⟩ := h
  constructor
  · intro hy j hj
    exact hy.trans_le (hall j hj)
  · intro hy
    rw [← hix]
    exact hy i hi

end

section

variable {limits : ℕ → Limits} {n : ℕ}

/-- The memory of a device is less than what can be allocated on all devices up to it. -/
def Below (limits : ℕ → Limits) (i : ℕ) : Prop := ∀ j ≤ i, (limits i).memory < (limits j).alloc

/-- The device whose memory is kept: the last one of the first `n` devices that is below, or else
the first device. -/
structure IsKept (limits : ℕ → Limits) (n i : ℕ) : Prop where
  lt : i < n
  below : i = 0 ∨ Below limits i
  last : ∀ j, i < j → j < n → ¬ Below limits j

/-- What the loop has kept after `n` devices. -/
structure Keeps (limits : ℕ → Limits) (n : ℕ) (m : Maximums) : Prop where
  workGroup : Least (fun i => (limits i).workGroup) n m.maxWorkgroupSize
  alloc : Least (fun i => (limits i).alloc) n m.maxAllocation
  memory : ∃ i, IsKept limits n i ∧ (limits i).memory = m.maxPhysical

theorem IsKept.unique {i j : ℕ} (hi : IsKept limits n i) (hj : IsKept limits n j) : i = j := by
  rcases lt_trichotomy i j with hlt | heq | hlt
  · have hbelow : Below limits j := hj.below.resolve_left (by omega)
    exact absurd hbelow (hi.last j hlt hj.lt)
  · exact heq
  · have hbelow : Below limits i := hi.below.resolve_left (by omega)
    exact absurd hbelow (hj.last i hlt hi.lt)

theorem isKept_one (limits : ℕ → Limits) : IsKept limits 1 0 where
  lt := one_pos
  below := .inl rfl
  last j hj hlt := by omega

theorem IsKept.step_below (hbelow : Below limits n) : IsKept limits (n + 1) n where
  lt := Nat.lt_succ_self n
  below := .inr hbelow
  last j hj hlt := by omega

theorem IsKept.step_stays {i : ℕ} (h : IsKept limits n i) (hbelow : ¬ Below limits n) :
    IsKept limits (n + 1) i where
  lt := Nat.lt_succ_of_lt h.lt
  below := h.below
  last j hj hlt := by
    rcases Nat.lt_succ_iff_lt_or_eq.mp hlt with hlt | heq
    · exact h.last j hj hlt
    · rw [heq]
      exact hbelow

theorem keeps_one (limits : ℕ → Limits) :
    Keeps limits 1 (keepLimits ⟨0, 0, 0⟩ (limits 0).workGroup (limits 0).alloc (limits 0).memory)
    where
  workGroup := least_one _
  alloc := least_one _
  memory := ⟨0, isKept_one limits, rfl⟩

/-- **One more device.**  Two of the limits are the least ones again; the third one is compared
with what can be allocated. -/
theorem Keeps.step {m : Maximums} (h : Keeps limits n m) :
    Keeps limits (n + 1)
      (keepLimits m (limits n).workGroup (limits n).alloc (limits n).memory) := by
  have hworkGroup : m.maxWorkgroupSize ≠ 0 := h.workGroup.pos fun i => (limits i).workGroup_pos
  have halloc : m.maxAllocation ≠ 0 :=
    h.alloc.pos fun i => Nat.one_le_two_pow.trans (limits i).le_alloc
  obtain ⟨i, hi, him⟩ := h.memory
  have hmemory : m.maxPhysical ≠ 0 := by
    have := (limits i).le_memory
    omega
  have hallocStep := h.alloc.step
  have hbelow : (limits n).memory
      < (if (limits n).alloc < m.maxAllocation then (limits n).alloc else m.maxAllocation)
        ↔ Below limits n := by
    rw [hallocStep.lt_iff]
    exact forall_congr' fun j => by rw [Nat.lt_succ_iff]
  simp only [keepLimits, if_neg hworkGroup, if_neg halloc, if_neg hmemory]
  refine ⟨h.workGroup.step, hallocStep, ?_⟩
  by_cases hn : Below limits n
  · rw [if_pos (hbelow.mpr hn)]
    exact ⟨n, IsKept.step_below hn, rfl⟩
  · rw [if_neg (mt hbelow.mp hn)]
    exact ⟨i, hi.step_stays hn, him⟩

/-- **What `get_maximums` returns.** -/
theorem getMaximums_keeps (limits : ℕ → Limits) (n : ℕ) :
    ∃ m, getMaximums (fun i => (limits i).device) (n + 1) = some m ∧ Keeps limits (n + 1) m := by
  have hrun := foldlM_total (σ := Maximums) (I := Keeps limits) (a := 1) (n := n)
    (f := fun m i => some (keepLimits m (limits i).workGroup (limits i).alloc (limits i).memory))
    (fun i m _ _ h => ⟨_, rfl, h.step⟩) (keeps_one limits)
  obtain ⟨m, hm, hkeeps⟩ := hrun
  refine ⟨m, ?_, (Nat.add_comm 1 n) ▸ hkeeps⟩
  rw [getMaximums, if_neg (by omega), List.range'_succ, List.foldlM_cons]
  exact hm

end

/-! ### The search -/

section

variable {size k : ℕ}

/-- A buffer has at least an eighth of the size and at most all of it. -/
def Search.Fits (maxMemorySize : ℕ) : Search → Prop
  | .buffer size => size ≤ maxMemorySize ∧ maxMemorySize ≤ 8 * size
  | _ => True

/-- **The search ends.**  After `k` failures `k` sixteenths have been taken away, and the fifteenth
failure is the last one. -/
theorem sizeSearch_ends (created : ℕ → Creation) (hle : 2 ^ 19 ≤ size) (hsize : size ≤ 2 ^ 29)
    (hk : k ≤ 15) :
    ∃ result : Search, result.Fits size ∧ ∀ extra,
      sizeSearch size created (16 - k + extra) k (size - k * (size / 16)) = some result := by
  induction hj : 15 - k generalizing k with
  | zero =>
    have hk15 : k = 15 := by omega
    refine ⟨.noWorkingSize, trivial, ?_⟩
    intro extra
    rw [hk15, show 16 - 15 + extra = extra + 1 by omega, sizeSearch, if_neg (by omega)]
  | succ j ih =>
    have hk14 : k ≤ 14 := by omega
    have hmul : k * (size / 16) ≤ 14 * (size / 16) := Nat.mul_le_mul_right _ hk14
    have htest : size / 8 ≤ size - k * (size / 16) := by omega
    -- The next size does not wrap around.
    have hnext : (size - k * (size / 16) + 2 ^ 32 - size / 16) % 2 ^ 32
        = size - (k + 1) * (size / 16) := by
      rw [Nat.add_mul, Nat.one_mul]
      omega
    obtain ⟨result, hfits, hrest⟩ := ih (k := k + 1) (by omega) (by omega)
    have hfuel : ∀ extra, 16 - k + extra = 16 - (k + 1) + extra + 1 := fun extra => by omega
    cases hcreated : created k with
    | success =>
      refine ⟨.buffer (size - k * (size / 16)), ⟨Nat.sub_le _ _, by omega⟩, ?_⟩
      intro extra
      simp only [hfuel, sizeSearch, if_pos htest, hcreated]
    | otherError =>
      refine ⟨.createFailed, trivial, ?_⟩
      intro extra
      simp only [hfuel, sizeSearch, if_pos htest, hcreated]
    | memObjectAllocationFailure =>
      refine ⟨result, hfits, ?_⟩
      intro extra
      simp only [hfuel, sizeSearch, if_pos htest, hcreated, hnext]
      exact hrest extra
    | outOfHostMemory =>
      refine ⟨result, hfits, ?_⟩
      intro extra
      simp only [hfuel, sizeSearch, if_pos htest, hcreated, hnext]
      exact hrest extra

end

/-! ### The budget -/

section

theorem maxMemorySize_zero (m : Maximums) :
    maxMemorySize 0 m = min (min m.maxAllocation (m.maxPhysical / 2)) (2 ^ 29) := by
  have hzero : ¬ (0 : ℕ) ≠ 0 := not_not.mpr rfl
  simp only [maxMemorySize, if_neg hzero]
  split_ifs <;> omega

/-- The limits are the least ones of all devices. -/
structure AllLeast (limits : ℕ → Limits) (n : ℕ) (m : Maximums) : Prop where
  workGroup : Least (fun i => (limits i).workGroup) n m.maxWorkgroupSize
  alloc : Least (fun i => (limits i).alloc) n m.maxAllocation
  memory : Least (fun i => (limits i).memory) n m.maxPhysical

/-- The buffer is within the limits of all devices, and not less than an eighth of the first
request. -/
structure InBudget (limits : ℕ → Limits) (n request size : ℕ) : Prop where
  le_alloc : ∀ i < n, size ≤ (limits i).alloc
  le_memory : ∀ i < n, size ≤ (limits i).memory / 2
  le_cap : size ≤ 512 * 2 ^ 20
  request_le : request ≤ 8 * size

variable {limits : ℕ → Limits} {n : ℕ} {m : Maximums}

theorem Keeps.allLeast_iff (h : Keeps limits n m) : AllLeast limits n m ↔
    ∃ i, IsKept limits n i ∧ ∀ j < n, (limits i).memory ≤ (limits j).memory := by
  obtain ⟨i, hi, him⟩ := h.memory
  constructor
  · intro hleast
    refine ⟨i, hi, ?_⟩
    intro j hj
    rw [him]
    exact (least_iff.mp hleast.memory).2 j hj
  · intro hex
    obtain ⟨i', hi', hall⟩ := hex
    rw [hi'.unique hi, him] at hall
    exact ⟨h.workGroup, h.alloc, least_iff.mpr ⟨⟨i, hi.lt, him⟩, hall⟩⟩

theorem Keeps.le_maxMemorySize (h : Keeps limits n m) :
    2 ^ 19 ≤ maxMemorySize 0 m ∧ maxMemorySize 0 m ≤ 2 ^ 29 := by
  obtain ⟨⟨i, -, hi⟩, -⟩ := least_iff.mp h.alloc
  obtain ⟨j, -, hj⟩ := h.memory
  have halloc := (limits i).le_alloc
  have hmemory := (limits j).le_memory
  rw [maxMemorySize_zero]
  omega

/-- **With the least limits the buffer is in the budget.** -/
theorem AllLeast.inBudget (h : AllLeast limits n m) {size : ℕ}
    (hfits : (Search.buffer size).Fits (maxMemorySize 0 m)) :
    InBudget limits n (maxMemorySize 0 m) size := by
  obtain ⟨hle, hrequest⟩ := hfits
  have hcaps := maxMemorySize_zero m
  refine ⟨fun i hi => ?_, fun i hi => ?_, by omega, hrequest⟩
  · have := (least_iff.mp h.alloc).2 i hi
    omega
  · have := (least_iff.mp h.memory).2 i hi
    omega

end

/-- **The memory budget of the thread dimension tests.**  The search ends, the limits are the least
ones and a buffer is within them, just if the device whose memory is kept has the least memory. -/
theorem maximums_iff (limits : ℕ → Limits) (n : ℕ) (created : ℕ → Creation) :
    ((∃ m, getMaximums (fun i => (limits i).device) (n + 1) = some m ∧
        AllLeast limits (n + 1) m ∧
        ∃ (result : Search) (rounds : ℕ),
          (∀ extra, createArray 0 (fun i => (limits i).device) (n + 1) created (rounds + extra)
            = some result) ∧
          ∀ size, result = .buffer size →
            InBudget limits (n + 1) (maxMemorySize 0 m) size)
      ↔ ∃ i, IsKept limits (n + 1) i ∧ ∀ j < n + 1, (limits i).memory ≤ (limits j).memory) := by
  obtain ⟨m, hm, hkeeps⟩ := getMaximums_keeps limits n
  rw [← hkeeps.allLeast_iff]
  constructor
  · intro h
    obtain ⟨m', hm', hleast, -⟩ := h
    rw [hm, Option.some.injEq] at hm'
    exact hm' ▸ hleast
  · intro hleast
    obtain ⟨hle, hsize⟩ := hkeeps.le_maxMemorySize
    obtain ⟨result, hfits, hends⟩ := sizeSearch_ends created hle hsize (Nat.zero_le 15)
    refine ⟨m, hm, hleast, result, 16, fun extra => ?_, fun size heq => ?_⟩
    · rw [createArray, hm]
      simpa using hends extra
    · rw [heq] at hfits
      exact hleast.inBudget hfits

/-! ### Two devices -/

/-- A device with 4 GB of memory, and one with 768 MB. -/
def twoDevices (i : ℕ) : Limits where
  workGroup := 256
  alloc := if i = 0 then 2 ^ 30 else 2 ^ 29
  memory := if i = 0 then 2 ^ 32 else 3 * 2 ^ 28
  workGroup_pos := by omega
  le_alloc := by split <;> omega
  le_memory := by split <;> omega

/-- **The 768 MB are forgotten**, as they are more than can be allocated, and a buffer of 512 MB is
made. -/
theorem not_budget_twoDevices :
    (¬ ∃ m, getMaximums (fun i => (twoDevices i).device) 2 = some m ∧ AllLeast twoDevices 2 m) ∧
      createArray 0 (fun i => (twoDevices i).device) 2 (fun _ => .success) 1
        = some (.buffer (2 ^ 29)) ∧
      ¬ InBudget twoDevices 2 (2 ^ 29) (2 ^ 29) := by
  have hm : getMaximums (fun i => (twoDevices i).device) 2 = some ⟨256, 2 ^ 29, 2 ^ 32⟩ := by
    decide
  have hmemory : (twoDevices 1).memory = 3 * 2 ^ 28 := rfl
  refine ⟨?_, ?_, ?_⟩
  · intro h
    obtain ⟨m, hm', hleast⟩ := h
    rw [hm, Option.some.injEq] at hm'
    have hle := (least_iff.mp hleast.memory).2 1 Nat.one_lt_two
    rw [← hm', hmemory] at hle
    exact absurd hle (by decide)
  · rw [createArray, hm]
    decide
  · intro h
    have hle := h.le_memory 1 Nat.one_lt_two
    rw [hmemory] at hle
    omega

end OpenCLCTS.ThreadDimensions
