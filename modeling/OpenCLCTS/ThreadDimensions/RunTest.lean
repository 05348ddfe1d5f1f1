import Mathlib.Data.List.Nodup
import Mathlib.Data.List.Range
import Mathlib.Logic.Function.Basic
import Mathlib.Tactic.Ring
import OpenCLCTS.Lib.Loops

/-!
# Large ranges that are tested in passes

`run_test` starts the kernel once for each part of the addresses that fits into the buffer.  The
kernel divides both ends of the part by the size of an element; the host divides their difference.

* `runTest_eq`: the run of the loop in closed form.
* `Aligned.exact_iff`: **every address is counted and looked at**, if the parts start at elements.
* `exists_unchecked`: else there is an address that is not looked at.
-/

namespace OpenCLCTS.ThreadDimensions

open Loops

/-! ### The kernel -/

/-- The buffer of the kernel, and whether all stores so far were inside of it. -/
structure Dst where
  get : ℕ → BitVec 32
  inside : Bool

/-- `dst[i] = f(dst[i])` in a buffer of so many bytes. -/
def Dst.store (memorySize : ℕ) (dst : Dst) (i : ℕ) (f : BitVec 32 → BitVec 32) : Dst :=
  ⟨Function.update dst.get i (f (dst.get i)), dst.inside && decide (4 * i + 4 ≤ memorySize)⟩

section

variable {memorySize i j : ℕ} {dst : Dst} {f : BitVec 32 → BitVec 32}

theorem Dst.store_get_self : (dst.store memorySize i f).get i = f (dst.get i) :=
  Function.update_self ..

theorem Dst.store_get_of_ne (h : j ≠ i) : (dst.store memorySize i f).get j = dst.get j :=
  Function.update_of_ne h ..

end

/-- `t_address`, 64 bits wide. -/
def tAddress (finalXSize finalYSize x y z : ℕ) : ℕ :=
  (z * finalYSize * finalXSize + y * finalXSize + x) % 2 ^ 64

/-- `test_thread_dimension_atomic` with long addresses, for one global id. -/
def testThreadDimensionAtomic (memorySize finalXSize finalYSize finalZSize startAddress
    endAddress : ℕ) (dst : Dst) (x y z : ℕ) : Dst :=
  let error : BitVec 32 := 0
  let error := if x ≥ finalXSize then 64 else error
  let error := if y ≥ finalYSize then 128 else error
  let error := if z ≥ finalZSize then 256 else error
  let t := tAddress finalXSize finalYSize x y z
  let index := (t + 2 ^ 64 - startAddress) % 2 ^ 64
  let dst := if t ≥ startAddress ∧ t < endAddress then dst.store memorySize index (· + 1) else dst
  if error ≠ 0 then dst.store memorySize index (· ||| error) else dst

/-! ### The host -/

/-- The arguments of `run_test`, and the steps between the buffers. -/
structure Launch where
  finalXSize : ℕ
  finalYSize : ℕ
  finalZSize : ℕ
  memorySize : ℕ
  bufferStep : ℕ
  x_pos : 1 ≤ finalXSize
  y_pos : 1 ≤ finalYSize
  z_pos : 1 ≤ finalZSize
  size_lt : finalXSize * finalYSize * finalZSize < 2 ^ 31
  le_memory : 4 ≤ memorySize
  memory_lt : memorySize < 2 ^ 32
  step_le : bufferStep ≤ 1

namespace Launch

/-- The global ids in range. -/
abbrev Id (l : Launch) := Fin l.finalXSize × Fin l.finalYSize × Fin l.finalZSize

/-- The global ids that are executed in each pass; the order does not matter. -/
abbrev Executed (l : Launch) := ℕ → List l.Id

variable (l : Launch)

/-- `last_memory_address`. -/
def lastMemoryAddress : ℕ :=
  l.finalXSize * l.finalYSize % 2 ^ 64 * l.finalZSize % 2 ^ 64 * 4 % 2 ^ 64

/-- The buffer after a pass. -/
def runKernel (startAddress endAddress : ℕ) (ids : List l.Id) : Dst :=
  ids.foldl (fun dst id => testThreadDimensionAtomic l.memorySize l.finalXSize l.finalYSize
    l.finalZSize startAddress endAddress dst id.1 id.2.1 id.2.2) ⟨fun _ => 0, true⟩

/-- The loop that verifies the data. -/
def verifyData (data : ℕ → BitVec 32) (lastAddress : ℕ) (errors : BitVec 32) : BitVec 32 :=
  (List.range' 0 lastAddress).foldl (fun errors i =>
    if i < lastAddress then if data i ≠ 1 then errors + 1 else errors
    else if data i ≠ 0 then errors + 1 else errors) errors

/-- The indices of a pass, the first one and the end. -/
structure Window where
  startValidIndex : ℕ
  endValidIndex : ℕ
  deriving DecidableEq

/-- What is returned, the windows of the passes, and whether all stores were inside. -/
structure Result where
  errors : ℤ
  windows : List Window
  inside : Bool
  deriving DecidableEq

/-- The loop of `run_test`; `none` if it has not ended after `fuel` tests.  `fills` says which sizes
the buffer is filled in; the other calls succeed. -/
def runLoop (fills : ℕ → Bool) (executed : l.Executed) :
    (fuel p startAddress endAddress : ℕ) → (errors : BitVec 32) → List Window → Bool →
      Option Result
  | 0, _, _, _, _, _, _ => none
  | fuel + 1, p, startAddress, endAddress, errors, windows, inside =>
    if endAddress ≤ l.lastMemoryAddress then
      if fills l.memorySize then
        let startValidIndex := startAddress / 4
        let endValidIndex := endAddress / 4
        let dst := l.runKernel startValidIndex endValidIndex (executed p)
        let lastAddress := (endAddress + 2 ^ 64 - startAddress) % 2 ^ 32 / 4
        let errors := verifyData dst.get lastAddress errors
        let windows := windows ++ [⟨startValidIndex, endValidIndex⟩]
        let inside := inside && dst.inside
        if endAddress = l.lastMemoryAddress then some ⟨errors.toInt, windows, inside⟩
        else
          let step := l.memorySize * (if l.bufferStep ≠ 0 then l.bufferStep else 1) % 2 ^ 32
          let startAddress := (startAddress + step) % 2 ^ 64
          let endAddress := (endAddress + step) % 2 ^ 64
          let endAddress :=
            if endAddress > l.lastMemoryAddress then l.lastMemoryAddress else endAddress
          runLoop fills executed fuel (p + 1) startAddress endAddress errors windows inside
      else some ⟨-3, windows, inside⟩
    else some ⟨errors.toInt, windows, inside⟩

/-- `run_test`. -/
def runTest (fills : ℕ → Bool) (executed : l.Executed) (fuel : ℕ) : Option Result :=
  let endAddress := l.memorySize
  let endAddress :=
    if endAddress > l.lastMemoryAddress then l.lastMemoryAddress else endAddress
  l.runLoop fills executed fuel 0 0 endAddress 0 [] true

/-! ### What the test is for -/

/-- The number of addresses. -/
def size : ℕ := l.finalXSize * l.finalYSize * l.finalZSize

/-- How often an address was executed. -/
def count (ids : List l.Id) (a : ℕ) : ℕ :=
  ids.countP fun id => tAddress l.finalXSize l.finalYSize id.1 id.2.1 id.2.2 = a

/-- An index of a window. -/
def Window.Has (w : Window) (a : ℕ) : Prop := w.startValidIndex ≤ a ∧ a < w.endValidIndex

/-- **The test is exact**: the windows are a partition of the addresses, no store leaves the buffer,
and 0 is returned just if every address was executed once in its pass. -/
structure Exact (executed : l.Executed) (r : Result) : Prop where
  lt_size : ∀ w ∈ r.windows, ∀ a, w.Has a → a < l.size
  partition : ∀ a < l.size, ∃! p : ℕ, ∃ w : Window, r.windows[p]? = some w ∧ w.Has a
  inside : r.inside = true
  errors : r.errors = 0 ↔ ∀ a < l.size, ∀ (p : ℕ) (w : Window), r.windows[p]? = some w → w.Has a →
    l.count (executed p) a = 1

/-! ### The passes -/

/-- The first byte of a pass. -/
def start (p : ℕ) : ℕ := p * l.memorySize

/-- The end of a pass. -/
def stop (p : ℕ) : ℕ := min ((p + 1) * l.memorySize) (4 * l.size)

/-- The number of passes. -/
def passes : ℕ := (4 * l.size + (l.memorySize - 1)) / l.memorySize

/-- The window of a pass. -/
def window (p : ℕ) : Window := ⟨l.start p / 4, l.stop p / 4⟩

/-- The elements that the host looks at. -/
def checked (p : ℕ) : ℕ := (l.stop p - l.start p) / 4

/-- The buffer after a pass. -/
def dst (executed : l.Executed) (p : ℕ) : Dst :=
  l.runKernel (l.window p).startValidIndex (l.window p).endValidIndex (executed p)

/-- What a pass does to the errors, the windows and the flag. -/
def pass (executed : l.Executed) (s : BitVec 32 × List Window × Bool) (p : ℕ) :
    BitVec 32 × List Window × Bool :=
  (verifyData (l.dst executed p).get (l.checked p) s.1, s.2.1 ++ [l.window p],
    s.2.2 && (l.dst executed p).inside)

/-- The result of the passes. -/
def finish (s : BitVec 32 × List Window × Bool) : Result := ⟨s.1.toInt, s.2.1, s.2.2⟩

variable {l} {fills : ℕ → Bool} {executed : l.Executed} {p a : ℕ}

theorem size_pos (l : Launch) : 1 ≤ l.size := Nat.mul_pos (Nat.mul_pos l.x_pos l.y_pos) l.z_pos

theorem lastMemoryAddress_eq (l : Launch) : l.lastMemoryAddress = 4 * l.size := by
  have hsize : l.size < 2 ^ 31 := l.size_lt
  have hxy : l.finalXSize * l.finalYSize ≤ l.size := Nat.le_mul_of_pos_right _ l.z_pos
  rw [lastMemoryAddress, Nat.mod_eq_of_lt (by omega : l.finalXSize * l.finalYSize < 2 ^ 64)]
  show l.size % 2 ^ 64 * 4 % 2 ^ 64 = _
  omega

theorem lt_passes_iff : p < l.passes ↔ l.start p < 4 * l.size := by
  have hmemory := l.le_memory
  rw [passes, ← Nat.succ_le_iff, Nat.le_div_iff_mul_le (by omega), Nat.succ_mul, start]
  omega

theorem start_succ (l : Launch) (p : ℕ) : l.start (p + 1) = l.start p + l.memorySize :=
  Nat.succ_mul p l.memorySize

theorem stop_eq (l : Launch) (p : ℕ) : l.stop p = min (l.start (p + 1)) (4 * l.size) := rfl

theorem stop_eq_iff : l.stop p = 4 * l.size ↔ l.passes ≤ p + 1 := by
  have h := lt_passes_iff (l := l) (p := p + 1)
  rw [stop_eq]
  omega

theorem passes_pos (l : Launch) : 0 < l.passes := by
  have := l.size_pos
  rw [lt_passes_iff, start]
  omega

/-- **One turn of the loop.** -/
theorem runLoop_succ (hfills : fills l.memorySize = true) (executed : l.Executed) (fuel : ℕ)
    (hp : p < l.passes) (s : BitVec 32 × List Window × Bool) :
    l.runLoop fills executed (fuel + 1) p (l.start p) (l.stop p) s.1 s.2.1 s.2.2
      = if l.passes = p + 1 then some (finish (l.pass executed s p))
        else l.runLoop fills executed fuel (p + 1) (l.start (p + 1)) (l.stop (p + 1))
          (l.pass executed s p).1 (l.pass executed s p).2.1 (l.pass executed s p).2.2 := by
  have hmemory := l.memory_lt
  have hstep := l.step_le
  have hsize : l.size < 2 ^ 31 := l.size_lt
  have hstart := lt_passes_iff.mp hp
  have hlast := stop_eq_iff (l := l) (p := p)
  have hsucc := l.start_succ p
  have hsucc' := l.start_succ (p + 1)
  have hstop := l.stop_eq p
  have hstop' := l.stop_eq (p + 1)
  -- No part is longer than the buffer.
  have hchecked : (l.stop p + 2 ^ 64 - l.start p) % 2 ^ 32 / 4 = l.checked p := by
    rw [checked]
    omega
  have hbuffer : (if l.bufferStep ≠ 0 then l.bufferStep else 1) = 1 := by
    split <;> omega
  rw [runLoop, lastMemoryAddress_eq, if_pos (by omega), if_pos hfills]
  simp only [hchecked, hbuffer, Nat.mul_one]
  by_cases hend : l.passes = p + 1
  · rw [if_pos (hlast.mpr hend.le), if_pos hend]
    rfl
  · have hne : l.stop p ≠ 4 * l.size := fun h => hend (by have := hlast.mp h; omega)
    have hnext : (l.start p + l.memorySize % 2 ^ 32) % 2 ^ 64 = l.start (p + 1) := by omega
    have hnext' : (if (l.stop p + l.memorySize % 2 ^ 32) % 2 ^ 64 > 4 * l.size then 4 * l.size
        else (l.stop p + l.memorySize % 2 ^ 32) % 2 ^ 64) = l.stop (p + 1) := by
      split <;> omega
    rw [if_neg hne, if_neg hend, hnext, hnext']
    rfl

/-- **The loop, from a pass on.** -/
theorem runLoop_eq (hfills : fills l.memorySize = true) (executed : l.Executed) (extra k : ℕ)
    (hp : p + (k + 1) = l.passes) (s : BitVec 32 × List Window × Bool) :
    l.runLoop fills executed (k + 1 + extra) p (l.start p) (l.stop p) s.1 s.2.1 s.2.2
      = some (finish ((List.range' p (k + 1)).foldl (l.pass executed) s)) := by
  induction k generalizing p s with
  | zero =>
    rw [Nat.add_comm 1, runLoop_succ hfills executed extra (by omega), if_pos hp.symm]
    rfl
  | succ k ih =>
    rw [show k + 1 + 1 + extra = k + 1 + extra + 1 by omega,
      runLoop_succ hfills executed _ (by omega), if_neg (by omega), ih (by omega)]
    rfl

/-- **The run of the test.** -/
theorem runTest_eq (hfills : fills l.memorySize = true) (executed : l.Executed) (extra : ℕ) :
    l.runTest fills executed (l.passes + extra)
      = some (finish ((List.range' 0 l.passes).foldl (l.pass executed) (0, [], true))) := by
  obtain ⟨k, hk⟩ := Nat.exists_eq_succ_of_ne_zero l.passes_pos.ne'
  have hrun := runLoop_eq hfills executed extra k (p := 0) (by omega) (0, [], true)
  have hstart : l.start 0 = 0 := Nat.zero_mul _
  have hstop : (if l.memorySize > 4 * l.size then 4 * l.size else l.memorySize) = l.stop 0 := by
    have := l.start_succ 0
    rw [stop_eq]
    split <;> omega
  rw [hstart, ← hstop] at hrun
  rw [runTest, lastMemoryAddress_eq, hk]
  exact hrun

/-! ### One pass -/

theorem tAddress_lt (id : l.Id) :
    tAddress l.finalXSize l.finalYSize id.1 id.2.1 id.2.2 < l.size := by
  obtain ⟨x, y, z⟩ := id
  have hrow : (z : ℕ) * l.finalYSize + y < l.finalZSize * l.finalYSize := by
    have := Nat.mul_le_mul_right l.finalYSize (Nat.succ_le_of_lt z.isLt)
    rw [Nat.succ_mul] at this
    omega
  have hlt : ((z : ℕ) * l.finalYSize + y) * l.finalXSize + x
      < l.finalZSize * l.finalYSize * l.finalXSize := by
    have := Nat.mul_le_mul_right l.finalXSize (Nat.succ_le_of_lt hrow)
    rw [Nat.succ_mul] at this
    omega
  have hsize : l.size = l.finalZSize * l.finalYSize * l.finalXSize := by
    rw [size]
    ring
  refine (Nat.mod_le _ _).trans_lt ?_
  rw [hsize]
  refine lt_of_eq_of_lt ?_ hlt
  ring

/-- **What the kernel does for a global id in range.** -/
theorem kernel_eq (startAddress endAddress : ℕ) (dst : Dst) (id : l.Id) :
    testThreadDimensionAtomic l.memorySize l.finalXSize l.finalYSize l.finalZSize startAddress
        endAddress dst id.1 id.2.1 id.2.2
      = if startAddress ≤ tAddress l.finalXSize l.finalYSize id.1 id.2.1 id.2.2 ∧
          tAddress l.finalXSize l.finalYSize id.1 id.2.1 id.2.2 < endAddress then
          dst.store l.memorySize
            (tAddress l.finalXSize l.finalYSize id.1 id.2.1 id.2.2 - startAddress) (· + 1)
        else dst := by
  have hlt := tAddress_lt id
  have hsize : l.size < 2 ^ 31 := l.size_lt
  have hx : ¬ (id.1 : ℕ) ≥ l.finalXSize := not_le.mpr id.1.isLt
  have hy : ¬ (id.2.1 : ℕ) ≥ l.finalYSize := not_le.mpr id.2.1.isLt
  have hz : ¬ (id.2.2 : ℕ) ≥ l.finalZSize := not_le.mpr id.2.2.isLt
  simp only [testThreadDimensionAtomic, if_neg hx, if_neg hy, if_neg hz, ne_eq, not_true_eq_false,
    if_false, ge_iff_le]
  refine if_ctx_congr Iff.rfl (fun h => ?_) fun _ => rfl
  rw [show (tAddress l.finalXSize l.finalYSize id.1 id.2.1 id.2.2 + 2 ^ 64 - startAddress) % 2 ^ 64
    = tAddress l.finalXSize l.finalYSize id.1 id.2.1 id.2.2 - startAddress by omega]

/-- **The elements of a window count the global ids.** -/
theorem runKernel_get {startAddress endAddress : ℕ} (ids : List l.Id) {i : ℕ}
    (hi : startAddress + i < endAddress) :
    (l.runKernel startAddress endAddress ids).get i
      = BitVec.ofNat 32 (l.count ids (startAddress + i)) := by
  have hrun : ∀ dst : Dst, (ids.foldl (fun dst id => testThreadDimensionAtomic l.memorySize
      l.finalXSize l.finalYSize l.finalZSize startAddress endAddress dst id.1 id.2.1
      id.2.2) dst).get i
        = dst.get i + BitVec.ofNat 32 (l.count ids (startAddress + i)) := by
    induction ids with
    | nil => simp [count]
    | cons id ids ih =>
      intro dst
      rw [List.foldl_cons, ih, kernel_eq]
      have hcons : l.count (id :: ids) (startAddress + i) = l.count ids (startAddress + i)
          + if tAddress l.finalXSize l.finalYSize id.1 id.2.1 id.2.2 = startAddress + i then 1
            else 0 := by
        simp [count, List.countP_cons]
      rw [hcons]
      generalize tAddress l.finalXSize l.finalYSize id.1 id.2.1 id.2.2 = t
      by_cases ht : t = startAddress + i
      · have hindex : t - startAddress = i := by omega
        rw [if_pos ⟨by omega, by omega⟩, if_pos ht, hindex, Dst.store_get_self, BitVec.ofNat_add,
          BitVec.add_assoc, BitVec.add_comm 1]
        rfl
      · rw [if_neg ht]
        split
        · have hindex : i ≠ t - startAddress := by omega
          rw [Dst.store_get_of_ne hindex, Nat.add_zero]
        · rw [Nat.add_zero]
  rw [runKernel, hrun]
  exact BitVec.zero_add _

theorem runKernel_inside {startAddress endAddress : ℕ} (ids : List l.Id)
    (h : 4 * (endAddress - startAddress) ≤ l.memorySize) :
    (l.runKernel startAddress endAddress ids).inside = true := by
  have hrun : ∀ dst : Dst, dst.inside = true → (ids.foldl (fun dst id =>
      testThreadDimensionAtomic l.memorySize l.finalXSize l.finalYSize l.finalZSize startAddress
        endAddress dst id.1 id.2.1 id.2.2) dst).inside = true := by
    induction ids with
    | nil => exact fun dst hdst => hdst
    | cons id ids ih =>
      intro dst hdst
      rw [List.foldl_cons, kernel_eq]
      refine ih _ ?_
      split
      · rw [Dst.store, hdst, Bool.true_and, decide_eq_true_eq]
        omega
      · exact hdst
  exact hrun _ rfl

theorem verifyData_eq (data : ℕ → BitVec 32) (n : ℕ) (errors : BitVec 32) :
    verifyData data n errors
      = errors + BitVec.ofNat 32 ((List.range' 0 n).countP fun i => data i ≠ 1) := by
  have hrun : ∀ (is : List ℕ) (errors : BitVec 32), (∀ i ∈ is, i < n) →
      is.foldl (fun errors i => if i < n then if data i ≠ 1 then errors + 1 else errors
        else if data i ≠ 0 then errors + 1 else errors) errors
          = errors + BitVec.ofNat 32 (is.countP fun i => data i ≠ 1) := by
    intro is
    induction is with
    | nil => exact fun errors _ => (BitVec.add_zero errors).symm
    | cons i is ih =>
      intro errors hlt
      rw [List.foldl_cons, if_pos (hlt i List.mem_cons_self),
        ih _ fun j hj => hlt j (List.mem_cons_of_mem i hj), List.countP_cons]
      by_cases hdata : data i = 1
      · simp [hdata]
      · rw [if_pos hdata, if_pos (by simpa using hdata), BitVec.ofNat_add, BitVec.add_assoc,
          BitVec.add_comm 1]
        rfl
  exact hrun _ errors fun i hi => by
    rw [List.mem_range'_1] at hi
    omega

/-! ### All passes -/

/-- What is known after so many passes. -/
structure After (executed : l.Executed) (p : ℕ) (s : BitVec 32 × List Window × Bool) : Prop where
  errors : ∃ n ≤ min (l.start p) (4 * l.size) / 4, s.1 = BitVec.ofNat 32 n ∧
    (n = 0 ↔ ∀ q < p, ∀ i < l.checked q, (l.dst executed q).get i = 1)
  windows : s.2.1 = (List.range p).map l.window
  inside : s.2.2 = true ↔ ∀ q < p, (l.dst executed q).inside = true

/-- **One more pass.** -/
theorem After.step {s : BitVec 32 × List Window × Bool} (h : After executed p s)
    (hp : p < l.passes) : After executed (p + 1) (l.pass executed s p) := by
  have hlt (P : ℕ → Prop) : (∀ q < p + 1, P q) ↔ (∀ q < p, P q) ∧ P p := Nat.forall_lt_succ_right
  refine ⟨?_, ?_, ?_⟩
  · obtain ⟨n, hn, herrors, hzero⟩ := h.errors
    have hstart := lt_passes_iff.mp hp
    have hstop := l.stop_eq p
    have hcount := List.countP_le_length (p := fun i => decide ((l.dst executed p).get i ≠ 1))
      (l := List.range' 0 (l.checked p))
    rw [List.length_range', checked] at hcount
    have hsucc := l.start_succ p
    refine ⟨n + (List.range' 0 (l.checked p)).countP fun i => (l.dst executed p).get i ≠ 1,
      ?_, ?_, ?_⟩
    · rw [checked]
      omega
    · rw [pass, verifyData_eq, herrors, BitVec.ofNat_add]
    · rw [hlt, ← hzero, Nat.add_eq_zero_iff, List.countP_eq_zero]
      simp [List.mem_range'_1]
  · rw [pass, h.windows, List.range_succ, List.map_append]
    rfl
  · rw [hlt, ← h.inside, pass]
    exact Bool.and_eq_true_iff

theorem after_passes (executed : l.Executed) :
    After executed l.passes ((List.range' 0 l.passes).foldl (l.pass executed) (0, [], true)) := by
  have h0 : After executed 0 ((0 : BitVec 32), [], true) := by
    refine ⟨⟨0, Nat.zero_le _, rfl, ?_⟩, rfl, ?_⟩
    · simp
    · simp
  have hrun := foldl_invariant (I := After executed) (a := 0) (n := l.passes)
    (fun p s _ hp h => h.step (by omega)) h0
  rwa [Nat.zero_add] at hrun

/-- The pass that an address belongs to. -/
def passOf (l : Launch) (a : ℕ) : ℕ := (4 * a + 3) / l.memorySize

/-- **An address is in one window.** -/
theorem window_has_iff : (l.window p).Has a ↔ p = l.passOf a ∧ a < l.size := by
  have hmemory := l.le_memory
  have hsucc := l.start_succ p
  have hstop := l.stop_eq p
  have hpass : l.passOf a = p ↔ l.start p ≤ 4 * a + 3 ∧ 4 * a + 3 < l.start p + l.memorySize := by
    rw [passOf, Nat.div_eq_iff (by omega), start]
    omega
  rw [eq_comm (a := p), hpass]
  simp only [Window.Has, window]
  omega

theorem passOf_lt (ha : a < l.size) : l.passOf a < l.passes := by
  have hhas : (l.window (l.passOf a)).Has a := window_has_iff.mpr ⟨rfl, ha⟩
  have hstop := l.stop_eq (l.passOf a)
  rw [lt_passes_iff]
  simp only [Window.Has, window] at hhas
  omega

theorem getElem?_windows {s : BitVec 32 × List Window × Bool} (h : After executed l.passes s)
    {w : Window} : (finish s).windows[p]? = some w ↔ p < l.passes ∧ l.window p = w := by
  show s.2.1[p]? = some w ↔ _
  rw [h.windows, List.getElem?_map, Option.map_eq_some_iff]
  simp [List.getElem?_eq_some_iff]

/-- Every address was executed once in its pass, as far as the elements can tell. -/
def CountsOne (l : Launch) (executed : l.Executed) : Prop :=
  ∀ a < l.size, l.count (executed (l.passOf a)) a % 2 ^ 32 = 1

/-- An address was executed `2 ^ 32` times, or a multiple of it, too often. -/
def Wraps (l : Launch) (executed : l.Executed) : Prop :=
  l.CountsOne executed ∧ ∃ a < l.size, l.count (executed (l.passOf a)) a ≠ 1

/-- The windows of a run are a partition, whatever the size of the buffer is. -/
theorem After.exact_iff {s : BitVec 32 × List Window × Bool} (h : After executed l.passes s) :
    l.Exact executed (finish s) ↔ (finish s).inside = true ∧
      ((finish s).errors = 0 ↔ ∀ a < l.size, l.count (executed (l.passOf a)) a = 1) := by
  have hwindows {q : ℕ} {w : Window} := getElem?_windows h (p := q) (w := w)
  have herrors : (∀ a < l.size, ∀ (q : ℕ) (w : Window), (finish s).windows[q]? = some w → w.Has a →
      l.count (executed q) a = 1) ↔ ∀ a < l.size, l.count (executed (l.passOf a)) a = 1 := by
    refine forall₂_congr fun a ha => ⟨fun hall => ?_, fun hone q w hw hhas => ?_⟩
    · exact hall (l.passOf a) _ (hwindows.mpr ⟨passOf_lt ha, rfl⟩) (window_has_iff.mpr ⟨rfl, ha⟩)
    · rw [hwindows] at hw
      rw [← hw.2] at hhas
      rw [(window_has_iff.mp hhas).1]
      exact hone
  constructor
  · intro hexact
    exact ⟨hexact.inside, hexact.errors.trans herrors⟩
  · intro hexact
    refine ⟨fun w hw a hhas => ?_, fun a ha => ?_, hexact.1, hexact.2.trans herrors.symm⟩
    · obtain ⟨q, hq⟩ := List.mem_iff_getElem?.mp hw
      rw [hwindows] at hq
      rw [← hq.2] at hhas
      exact (window_has_iff.mp hhas).2
    · refine ⟨l.passOf a, ⟨_, hwindows.mpr ⟨passOf_lt ha, rfl⟩, window_has_iff.mpr ⟨rfl, ha⟩⟩, ?_⟩
      intro q hq
      obtain ⟨w, hw, hhas⟩ := hq
      rw [hwindows] at hw
      rw [← hw.2] at hhas
      exact (window_has_iff.mp hhas).1

theorem After.errors_eq_zero_iff {s : BitVec 32 × List Window × Bool}
    (h : After executed l.passes s) : (finish s).errors = 0 ↔
      ∀ q < l.passes, ∀ i < l.checked q, (l.dst executed q).get i = 1 := by
  have hsize : l.size < 2 ^ 31 := l.size_lt
  obtain ⟨n, hn, herrors, hzero⟩ := h.errors
  rw [← hzero]
  show s.1.toInt = 0 ↔ n = 0
  rw [herrors, BitVec.toInt_eq_toNat_of_lt (by rw [BitVec.toNat_ofNat]; omega), BitVec.toNat_ofNat,
    Nat.mod_eq_of_lt (by omega)]
  exact Int.natCast_eq_zero

theorem ofNat_eq_one_iff (n : ℕ) : BitVec.ofNat 32 n = 1 ↔ n % 2 ^ 32 = 1 := by
  rw [← BitVec.toNat_inj, BitVec.toNat_ofNat]
  rfl

theorem dst_get {i : ℕ} (hi : i < l.checked p) :
    (l.dst executed p).get i = BitVec.ofNat 32 (l.count (executed p) (l.start p / 4 + i)) := by
  refine runKernel_get _ ?_
  rw [checked] at hi
  show l.start p / 4 + i < l.stop p / 4
  omega

/-! ### Parts that start at elements -/

/-- The parts start at elements, or there is only one. -/
def Aligned (l : Launch) : Prop := 4 ∣ l.memorySize ∨ 4 * l.size ≤ l.memorySize

theorem Aligned.dvd (h : l.Aligned) (hp : p < l.passes) : 4 ∣ l.start p ∧ 4 ∣ l.stop p := by
  have hstart := lt_passes_iff.mp hp
  have hstop := l.stop_eq p
  rcases h with hdvd | hle
  · have h4 : 4 ∣ l.start p := hdvd.mul_left p
    have h4' : 4 ∣ l.start (p + 1) := hdvd.mul_left (p + 1)
    omega
  · have hsucc := l.start_succ p
    have hp0 : p = 0 := by
      by_contra hne
      have := Nat.le_mul_of_pos_left l.memorySize (Nat.pos_of_ne_zero hne)
      rw [start] at hstart
      omega
    have hstart0 : l.start p = 0 := by
      rw [hp0]
      exact Nat.zero_mul _
    omega

/-- **Nothing is left out.** -/
theorem Aligned.countsOne_iff (h : l.Aligned) (executed : l.Executed) :
    (∀ q < l.passes, ∀ i < l.checked q, (l.dst executed q).get i = 1) ↔ l.CountsOne executed := by
  constructor
  · intro hall a ha
    have hp := passOf_lt ha
    obtain ⟨hstart, hstop⟩ := h.dvd hp
    have hhas : (l.window (l.passOf a)).Has a := window_has_iff.mpr ⟨rfl, ha⟩
    simp only [Window.Has, window] at hhas
    have hi : a - l.start (l.passOf a) / 4 < l.checked (l.passOf a) := by
      rw [checked]
      omega
    have hone := hall _ hp _ hi
    rw [dst_get hi, ofNat_eq_one_iff, Nat.add_sub_cancel' hhas.1] at hone
    exact hone
  · intro hall q hq i hi
    have hhas : (l.window q).Has (l.start q / 4 + i) := by
      rw [checked] at hi
      simp only [Window.Has, window]
      omega
    obtain ⟨hpass, ha⟩ := window_has_iff.mp hhas
    rw [dst_get hi, ofNat_eq_one_iff]
    have hone := hall _ ha
    rwa [← hpass] at hone

theorem Aligned.inside (h : l.Aligned) (executed : l.Executed) (hp : p < l.passes) :
    (l.dst executed p).inside = true := by
  obtain ⟨hstart, hstop⟩ := h.dvd hp
  have hstopEq := l.stop_eq p
  have hsucc := l.start_succ p
  refine runKernel_inside _ ?_
  show 4 * (l.stop p / 4 - l.start p / 4) ≤ l.memorySize
  omega

/-- **With such parts the test is exact**, unless a count wraps around. -/
theorem Aligned.exact_iff (h : l.Aligned) {s : BitVec 32 × List Window × Bool}
    (hs : After executed l.passes s) : l.Exact executed (finish s) ↔ ¬ l.Wraps executed := by
  have hinside : (finish s).inside = true := hs.inside.mpr fun q hq => h.inside executed hq
  rw [hs.exact_iff, hs.errors_eq_zero_iff, h.countsOne_iff, Wraps]
  constructor
  · intro hexact hwraps
    obtain ⟨hcounts, a, ha, hne⟩ := hwraps
    exact hne (hexact.2.mp hcounts a ha)
  · intro hnot
    refine ⟨hinside, fun hcounts a ha => ?_, fun hall a ha => ?_⟩
    · by_contra hne
      exact hnot ⟨hcounts, a, ha, hne⟩
    · rw [hall a ha]
      rfl

/-! ### Other parts -/

/-- **An element is left out**: else all parts have the same number of elements, and the last one
starts at an element. -/
theorem exists_unchecked (h : ¬ l.Aligned) :
    ∃ p < l.passes, l.checked p < l.stop p / 4 - l.start p / 4 := by
  obtain ⟨hdvd, hlt⟩ := not_or.mp h
  have hmemory := l.le_memory
  by_contra hnot
  have hall : ∀ p < l.passes, l.stop p / 4 - l.start p / 4 ≤ l.checked p := fun p hp =>
    not_lt.mp fun hlt => hnot ⟨p, hp, hlt⟩
  have hsplit (p : ℕ) : l.start p = 4 * (p * (l.memorySize / 4)) + p * (l.memorySize % 4) := by
    have hdiv := Nat.div_add_mod l.memorySize 4
    calc l.start p = p * (4 * (l.memorySize / 4) + l.memorySize % 4) := by rw [hdiv, start]
      _ = 4 * (p * (l.memorySize / 4)) + p * (l.memorySize % 4) := by ring
  have hstarts : ∀ p < l.passes, l.start p / 4 = p * (l.memorySize / 4) := by
    intro p
    induction p with
    | zero => simp [start]
    | succ p ih =>
      intro hp
      have hih := ih (by omega)
      have hle := hall p (by omega)
      have hstart := lt_passes_iff.mp hp
      have hstop := l.stop_eq p
      have hsucc := l.start_succ p
      have hsplit' := hsplit (p + 1)
      have hmul : (p + 1) * (l.memorySize / 4) = p * (l.memorySize / 4) + l.memorySize / 4 :=
        Nat.succ_mul _ _
      rw [checked] at hle
      omega
  obtain ⟨k, hk⟩ := Nat.exists_eq_succ_of_ne_zero l.passes_pos.ne'
  have hkpos : 0 < k := by
    have hone : 1 < l.passes := by
      rw [lt_passes_iff, start]
      omega
    omega
  have hstart := hstarts k (by omega)
  have hle := hall k (by omega)
  have hstop := stop_eq_iff.mpr hk.le
  have hrest : 0 < k * (l.memorySize % 4) := Nat.mul_pos hkpos (by omega)
  have hsplit' := hsplit k
  have hlt' := lt_passes_iff.mp (show k < l.passes by omega)
  rw [checked, hstop] at hle
  omega

/-- The global id of an address. -/
def idOf (l : Launch) (a : ℕ) : l.Id :=
  (⟨a % l.finalXSize, Nat.mod_lt _ l.x_pos⟩,
    ⟨a / l.finalXSize % l.finalYSize, Nat.mod_lt _ l.y_pos⟩,
    ⟨a / l.finalXSize / l.finalYSize % l.finalZSize, Nat.mod_lt _ l.z_pos⟩)

theorem tAddress_idOf (ha : a < l.size) :
    tAddress l.finalXSize l.finalYSize (l.idOf a).1 (l.idOf a).2.1 (l.idOf a).2.2 = a := by
  have hsize : l.size < 2 ^ 31 := l.size_lt
  have hz : a / l.finalXSize / l.finalYSize < l.finalZSize := by
    rw [Nat.div_div_eq_div_mul]
    exact Nat.div_lt_of_lt_mul ha
  have hsum : a / l.finalXSize / l.finalYSize * l.finalYSize * l.finalXSize
      + a / l.finalXSize % l.finalYSize * l.finalXSize + a % l.finalXSize = a := by
    rw [← Nat.add_mul, Nat.div_add_mod', Nat.div_add_mod']
  rw [tAddress, idOf]
  dsimp only
  rw [Nat.mod_eq_of_lt hz, hsum]
  omega

/-- All global ids but that of one address, in every pass. -/
def allBut (l : Launch) (skipped : ℕ) : l.Executed := fun _ =>
  ((List.range l.size).filter fun a => a ≠ skipped).map l.idOf

theorem count_allBut (l : Launch) (skipped q : ℕ) (ha : a < l.size) :
    l.count (l.allBut skipped q) a = if a = skipped then 0 else 1 := by
  have hcongr : l.count (l.allBut skipped q) a
      = ((List.range l.size).filter fun a => a ≠ skipped).count a := by
    rw [count, allBut, List.countP_map, List.count]
    refine List.countP_congr ?_
    intro b hb
    have hb : b < l.size := List.mem_range.mp (List.mem_filter.mp hb).1
    simp [tAddress_idOf hb]
  rw [hcongr]
  split
  · rename_i heq
    exact List.count_eq_zero.mpr (by simp [heq])
  · rename_i hne
    exact List.count_eq_one_of_mem (List.nodup_range.filter _) (by simp [ha, hne])

/-- **An element that is not executed is not noticed.** -/
theorem not_exact (h : ¬ l.Aligned) : ∃ executed : l.Executed, ¬ l.Wraps executed ∧
    ∀ s, After executed l.passes s → ¬ l.Exact executed (finish s) := by
  obtain ⟨p, hp, hlt⟩ := exists_unchecked h
  have hhas : (l.window p).Has (l.start p / 4 + l.checked p) := by
    simp only [Window.Has, window]
    omega
  obtain ⟨hpass, ha⟩ := window_has_iff.mp hhas
  generalize hskipped : l.start p / 4 + l.checked p = skipped at hpass ha
  have hzero : l.count (l.allBut skipped (l.passOf skipped)) skipped = 0 := by
    rw [count_allBut l skipped _ ha, if_pos rfl]
  refine ⟨l.allBut skipped, fun hwraps => ?_, fun s hs hexact => ?_⟩
  · have hone := hwraps.1 skipped ha
    rw [hzero] at hone
    exact absurd hone (by decide)
  · have herrors : (finish s).errors = 0 := by
      rw [hs.errors_eq_zero_iff]
      intro q hq i hi
      have hhas' : (l.window q).Has (l.start q / 4 + i) := by
        rw [checked] at hi
        simp only [Window.Has, window]
        omega
      obtain ⟨hpass', ha'⟩ := window_has_iff.mp hhas'
      have hne : l.start q / 4 + i ≠ skipped := by
        intro heq
        rw [heq, ← hpass] at hpass'
        rw [hpass'] at heq hi
        omega
      rw [dst_get hi, count_allBut l skipped q ha', if_neg hne]
      rfl
    have hone := (hs.exact_iff.mp hexact).2.mp herrors skipped ha
    rw [hzero] at hone
    exact absurd hone (by decide)

/-! ### The test -/

/-- The loop ends, and the test is exact. -/
def Behaves (l : Launch) (fills : ℕ → Bool) (executed : l.Executed) : Prop :=
  ∃ (r : Result) (rounds : ℕ),
    (∀ extra, l.runTest fills executed (rounds + extra) = some r) ∧ l.Exact executed r

theorem behaves_iff {r : Result} {rounds : ℕ}
    (h : ∀ extra, l.runTest fills executed (rounds + extra) = some r) :
    l.Behaves fills executed ↔ l.Exact executed r := by
  constructor
  · intro hbehaves
    obtain ⟨r', rounds', h', hexact⟩ := hbehaves
    have hr := h rounds'
    rw [Nat.add_comm, h' rounds, Option.some.injEq] at hr
    exact hr ▸ hexact
  · intro hexact
    exact ⟨r, rounds, h, hexact⟩

theorem not_behaves_of_fills (hfills : fills l.memorySize = false) (executed : l.Executed) :
    ¬ l.Behaves fills executed := by
  have hrun : ∀ extra, l.runTest fills executed (1 + extra) = some ⟨-3, [], true⟩ := by
    intro extra
    have hle : (if l.memorySize > l.lastMemoryAddress then l.lastMemoryAddress else l.memorySize)
        ≤ l.lastMemoryAddress := by
      split <;> omega
    rw [Nat.add_comm, runTest, runLoop, if_pos hle, hfills, if_neg Bool.false_ne_true]
  rw [behaves_iff hrun]
  intro hexact
  obtain ⟨p, ⟨w, hw, -⟩, -⟩ := hexact.partition 0 l.size_pos
  exact absurd hw (by simp)

/-- **Windows of elements.**  The test of a launch is exact, whatever is executed, just if the
buffer can be filled and its size is a multiple of that of an element, or there is only one pass.
Then only counts that wrap around are not noticed. -/
theorem runTest_iff (l : Launch) (fills : ℕ → Bool) :
    ((∀ executed, ¬ l.Wraps executed → l.Behaves fills executed) ↔
      fills l.memorySize = true ∧ (4 ∣ l.memorySize ∨ 4 * l.size ≤ l.memorySize)) ∧
    (fills l.memorySize = true ∧ (4 ∣ l.memorySize ∨ 4 * l.size ≤ l.memorySize) →
      ∀ executed, l.Behaves fills executed ↔ ¬ l.Wraps executed) := by
  have haligned : fills l.memorySize = true ∧ l.Aligned →
      ∀ executed, l.Behaves fills executed ↔ ¬ l.Wraps executed := by
    intro h executed
    rw [behaves_iff (runTest_eq h.1 executed)]
    exact h.2.exact_iff (after_passes executed)
  refine ⟨⟨fun hall => ?_, fun h executed => (haligned h executed).mpr⟩, haligned⟩
  have hfills : fills l.memorySize = true := by
    by_contra hnot
    have hwraps : ¬ l.Wraps fun _ => [] := fun hwraps => by
      have hone := hwraps.1 0 l.size_pos
      exact absurd hone (by simp [count])
    exact not_behaves_of_fills (Bool.eq_false_iff.mpr hnot) _ (hall _ hwraps)
  refine ⟨hfills, ?_⟩
  by_contra hnot
  obtain ⟨executed, hwraps, hexact⟩ := not_exact hnot
  have hbehaves := hall executed hwraps
  rw [behaves_iff (runTest_eq hfills executed)] at hbehaves
  exact hexact _ (after_passes executed) hbehaves

/-! ### A buffer of five bytes -/

/-- Two global ids, and a buffer of five bytes. -/
def twoIds : Launch where
  finalXSize := 2
  finalYSize := 1
  finalZSize := 1
  memorySize := 5
  bufferStep := 1
  x_pos := by decide
  y_pos := by decide
  z_pos := by decide
  size_lt := by decide
  le_memory := by decide
  memory_lt := by decide
  step_le := by decide

/-- **The second global id is never executed, and no error is returned.**  The host divides three
bytes by four. -/
theorem not_behaves_twoIds :
    twoIds.runTest (fun _ => true) (twoIds.allBut 1) 2
        = some ⟨0, [⟨0, 1⟩, ⟨1, 2⟩], true⟩ ∧
      ¬ twoIds.Wraps (twoIds.allBut 1) ∧ ¬ twoIds.Behaves (fun _ => true) (twoIds.allBut 1) := by
  have hcount : twoIds.count (twoIds.allBut 1 (twoIds.passOf 1)) 1 = 0 := by decide
  have herrors : (finish ((List.range' 0 twoIds.passes).foldl (twoIds.pass (twoIds.allBut 1))
      (0, [], true))).errors = 0 := by decide
  refine ⟨by decide, fun hwraps => ?_, fun hbehaves => ?_⟩
  · have hone := hwraps.1 1 (by decide)
    rw [hcount] at hone
    exact absurd hone (by decide)
  · rw [behaves_iff (runTest_eq rfl (twoIds.allBut 1)), (after_passes _).exact_iff] at hbehaves
    have hone := hbehaves.2.mp herrors 1 (by decide)
    rw [hcount] at hone
    exact absurd hone (by decide)

end Launch

end OpenCLCTS.ThreadDimensions
