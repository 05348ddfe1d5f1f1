import Mathlib.Data.BitVec
import OpenCLCTS.Lib.Loops
import OpenCLCTS.Lib.Spawning

/-!
# Nested blocks

`nested_blocks.cpp`: work-items enqueue blocks that run on the device and enqueue blocks themselves,
down to a nesting level.  Four of the kernels count with atomic increments which work-items were
there, and the host computes the counts by a recursion.

The work-items of all blocks that have been enqueued are a pool of tasks.  A step is an increment or
an `enqueue_kernel`, which succeeds or fails; if it fails the work-item stores `-1` and the block is
not run.  **However the device schedules them**, the runs end, and the host finds the counts that it
expects just if every `enqueue_kernel` has succeeded (`nestedBlocks_passes`), also if the blocks do
not wait for their parents.

In the fifth kernel only work-item 1 counts, without an atomic operation.  Only one work-item of
all that are in the pool can be about to count (`Single`), so no increment is lost either
(`nestedBlocksSingle_passes`).
-/

namespace OpenCLCTS.DeviceExecution

open Interleaving

/-! ### The kernels with atomic increments -/

/-- What is different in the four kernels. -/
structure NestedBlocks where
  /-- `ndrange_1D(…)` -/
  ndrange : ℕ
  /-- which work-items increment, if there are `globalSize` of them -/
  active : (globalSize tid : ℕ) → Bool
  /-- which of these enqueue a block -/
  deeper : (level tid : ℕ) → Bool

def enqueueNestedBlocksSomeEq : NestedBlocks where
  ndrange := 10
  active globalSize tid := decide (tid < globalSize >>> 1)
  deeper _ _ := true

def enqueueNestedBlocksSomeDiff : NestedBlocks where
  ndrange := 10
  active _ tid := decide (tid % 2 ≠ 0)
  deeper level tid := decide (level ≥ tid)

def enqueueNestedBlocksAllEq : NestedBlocks where
  ndrange := 4
  active _ _ := true
  deeper _ _ := true

def enqueueNestedBlocksAllDiff : NestedBlocks where
  ndrange := 10
  active _ _ := true
  deeper level tid := decide (level ≥ tid)

/-- What a work-item does next. -/
inductive Pc
  /-- from the start of `block_fn` to the increment -/
  | count
  /-- `enqueue_kernel`; here the level is the decremented one -/
  | enqueue
  deriving DecidableEq

structure Task where
  pc : Pc
  globalSize : ℕ
  level : ℕ
  tid : ℕ
  deriving DecidableEq

/-- The results. -/
abbrev Res := ℕ → BitVec 32

/-- `atomic_inc(&res[tid])`, and `++referenceResults[tid]` on the host. -/
def inc (res : Res) (tid : ℕ) : Res := Function.update res tid (res tid + 1)

/-- The work-items of a block. -/
def launch (globalSize level : ℕ) : Multiset Task :=
  (Multiset.range globalSize).map fun tid => ⟨.count, globalSize, level, tid⟩

/-- A step of a work-item in `block_fn`: the results, and what is still to run.  An `enqueue_kernel`
returns `CLK_SUCCESS` or not. -/
def blockFn (k : NestedBlocks) (t : Task) (success : Bool) (res : Res) : Res × Multiset Task :=
  match t.pc, t.level with
  | .count, 0 => (res, 0)
  | .count, level + 1 =>
    if k.active t.globalSize t.tid then
      (inc res t.tid, if k.deeper level t.tid then {⟨.enqueue, t.globalSize, level, t.tid⟩} else 0)
    else (res, 0)
  | .enqueue, level =>
    if success then (res, launch k.ndrange level) else (Function.update res t.tid (-1), 0)

/-- All schedules of a kernel with `len` work-items. -/
def nestedBlocks (k : NestedBlocks) (len nestingLevel : ℕ) :
    System (Pool Task Res) (Task × Bool) :=
  spawning (blockFn k) fun s => s.mem = (fun _ => 0) ∧ s.tasks = launch len nestingLevel

/-- The step is not an `enqueue_kernel` that fails. -/
def Succeeds (e : Task × Bool) : Prop := e.1.pc = .enqueue → e.2 = true

instance : DecidablePred Succeeds := fun _ => inferInstanceAs (Decidable (_ → _))

/-! ### The host -/

/-- `generate_reference_…`. -/
def generateReference (k : NestedBlocks) (len gNestingLevel : ℕ) : ℕ → Res → Res
  | 0, referenceResults => referenceResults
  | nestingLevel + 1, referenceResults =>
    let globalWorkSize := if nestingLevel + 1 = gNestingLevel then len else k.ndrange
    (List.range globalWorkSize).foldl (fun referenceResults tid =>
      if k.active globalWorkSize tid then
        let referenceResults := inc referenceResults tid
        if k.deeper nestingLevel tid then
          generateReference k len gNestingLevel nestingLevel referenceResults
        else referenceResults
      else referenceResults) referenceResults

/-- `fail`: the first index at which `wrong` holds, or `-1`. -/
def fail (wrong : ℕ → Bool) (len : ℕ) : ℤ :=
  match Loops.firstFound (fun i => if wrong i then some i else none) len with
  | some i => i
  | none => -1

theorem fail_eq_iff {wrong : ℕ → Bool} {len : ℕ} :
    fail wrong len = -1 ↔ ∀ i < len, wrong i = false := by
  have hnone : Loops.firstFound (fun i => if wrong i then some i else none) len = none ↔
      ∀ i < len, wrong i = false := by simp [Loops.firstFound_eq_none_iff]
  rw [← hnone, fail]
  cases Loops.firstFound (fun i => if wrong i then some i else none) len with
  | none => simp
  | some i => simp

/-- `check_…`. -/
def check (k : NestedBlocks) (results : Res) (len nestingLevel : ℕ) : ℤ :=
  let referenceResults := generateReference k len nestingLevel nestingLevel fun _ => 0
  fail (fun i => results i != referenceResults i) len

/-! ### What a block does in total -/

/-- The increments of a block and of all that come from it. -/
def increments (k : NestedBlocks) : ℕ → ℕ → Multiset ℕ
  | 0, _ => 0
  | level + 1, globalSize => ((Multiset.range globalSize).map fun tid =>
      if k.active globalSize tid then
        tid ::ₘ if k.deeper level tid then increments k level k.ndrange else 0
      else 0).sum

/-- The increments of a work-item and of all that come from it. -/
def todo (k : NestedBlocks) (t : Task) : Multiset ℕ :=
  match t.pc, t.level with
  | .count, 0 => 0
  | .count, level + 1 =>
    if k.active t.globalSize t.tid then
      t.tid ::ₘ if k.deeper level t.tid then increments k level k.ndrange else 0
    else 0
  | .enqueue, level => increments k level k.ndrange

/-- The steps of a block and of all that come from it. -/
def blockSteps (k : NestedBlocks) : ℕ → ℕ → ℕ
  | 0, globalSize => globalSize
  | level + 1, globalSize => ((Multiset.range globalSize).map fun tid =>
      if k.active globalSize tid ∧ k.deeper level tid then blockSteps k level k.ndrange + 2 else 1).sum

/-- The steps of a work-item and of all that come from it. -/
def steps (k : NestedBlocks) (t : Task) : ℕ :=
  match t.pc, t.level with
  | .count, 0 => 1
  | .count, level + 1 =>
    if k.active t.globalSize t.tid ∧ k.deeper level t.tid then blockSteps k level k.ndrange + 2 else 1
  | .enqueue, level => blockSteps k level k.ndrange + 1

variable {k : NestedBlocks} {len nestingLevel : ℕ} {s s' : Pool Task Res}
  {l : List (Pool Task Res × (Task × Bool))}

theorem sum_todo_launch (k : NestedBlocks) (globalSize level : ℕ) :
    ((launch globalSize level).map (todo k)).sum = increments k level globalSize := by
  rw [launch, Multiset.map_map]
  cases level with
  | zero => simp [Function.comp_def, todo, increments]
  | succ level => rfl

theorem sum_steps_launch (k : NestedBlocks) (globalSize level : ℕ) :
    ((launch globalSize level).map (steps k)).sum = blockSteps k level globalSize := by
  rw [launch, Multiset.map_map]
  cases level with
  | zero => simp [Function.comp_def, steps, blockSteps]
  | succ level => rfl

theorem of_mem_launch {globalSize level : ℕ} {t : Task} (h : t ∈ launch globalSize level) :
    t.pc = .count ∧ t.tid < globalSize := by
  obtain ⟨tid, htid, rfl⟩ := Multiset.mem_map.mp h
  exact ⟨rfl, Multiset.mem_range.mp htid⟩

/-- What a step of a work-item does. -/
inductive Move (k : NestedBlocks) (t : Task) (success : Bool) (res : Res) : Prop
  /-- nothing is counted; what was to be done is handed on -/
  | hand (hmem : (blockFn k t success res).1 = res) (hsuccess : Succeeds (t, success))
      (htodo : todo k t = ((blockFn k t success res).2.map (todo k)).sum)
      (hpc : ∀ u ∈ (blockFn k t success res).2, u.pc = .count)
  | count (hmem : (blockFn k t success res).1 = inc res t.tid) (hsuccess : Succeeds (t, success))
      (htodo : todo k t = t.tid ::ₘ ((blockFn k t success res).2.map (todo k)).sum)
      (htid : ∀ u ∈ (blockFn k t success res).2, u.tid = t.tid)
  /-- `enqueue_kernel` fails -/
  | fail (hmem : (blockFn k t success res).1 = Function.update res t.tid (-1))
      (hpc : t.pc = .enqueue) (hfail : success = false) (hnone : (blockFn k t success res).2 = 0)

theorem blockFn_move (k : NestedBlocks) (t : Task) (success : Bool) (res : Res) :
    Move k t success res := by
  obtain ⟨pc, globalSize, level, tid⟩ := t
  cases pc with
  | enqueue =>
    cases success with
    | true =>
      exact .hand rfl (fun _ => rfl) (sum_todo_launch k k.ndrange level).symm
        fun u hu => (of_mem_launch hu).1
    | false => exact .fail rfl rfl rfl rfl
  | count =>
    have hsuccess : ∀ level, Succeeds (⟨.count, globalSize, level, tid⟩, success) := nofun
    cases level with
    | zero => exact .hand rfl (hsuccess _) rfl fun u hu => absurd hu (Multiset.notMem_zero u)
    | succ level =>
      by_cases hactive : k.active globalSize tid = true
      · by_cases hdeeper : k.deeper level tid = true
        · exact .count (by simp [blockFn, hactive]) (hsuccess _)
            (by simp [todo, blockFn, hactive, hdeeper]) (by simp [blockFn, hactive, hdeeper])
        · exact .count (by simp [blockFn, hactive]) (hsuccess _)
            (by simp [todo, blockFn, hactive, hdeeper]) (by simp [blockFn, hactive, hdeeper])
      · exact .hand (by simp [blockFn, hactive]) (hsuccess _) (by simp [todo, blockFn, hactive])
          (by simp [blockFn, hactive])

theorem blockFn_steps (k : NestedBlocks) (t : Task) (success : Bool) (res : Res) :
    ((blockFn k t success res).2.map (steps k)).sum + 1 ≤ steps k t := by
  obtain ⟨pc, globalSize, level, tid⟩ := t
  cases pc with
  | enqueue =>
    cases success with
    | true => exact (congrArg (· + 1) (sum_steps_launch k k.ndrange level)).le
    | false => exact Nat.succ_le_succ (Nat.zero_le _)
  | count =>
    cases level with
    | zero => exact le_rfl
    | succ level =>
      by_cases hactive : k.active globalSize tid = true
      · by_cases hdeeper : k.deeper level tid = true
        · simp [steps, blockFn, hactive, hdeeper]
        · simp [steps, blockFn, hactive, hdeeper]
      · simp [steps, blockFn, hactive]

theorem blockFn_tid (hndrange : k.ndrange ≤ len) (t : Task) (success : Bool) (res : Res)
    (ht : t.tid < len) : ∀ u ∈ (blockFn k t success res).2, u.tid < len := by
  obtain ⟨pc, globalSize, level, tid⟩ := t
  intro u hu
  cases pc with
  | enqueue =>
    cases success with
    | true => exact (of_mem_launch hu).2.trans_le hndrange
    | false => exact absurd hu (Multiset.notMem_zero u)
  | count =>
    cases level with
    | zero => exact absurd hu (Multiset.notMem_zero u)
    | succ level =>
      simp only [blockFn] at hu
      split at hu
      · split at hu
        · rwa [Multiset.mem_singleton.mp hu]
        · exact absurd hu (Multiset.notMem_zero u)
      · exact absurd hu (Multiset.notMem_zero u)

/-! ### The host does the same increments -/

theorem foldl_count {f : Res → ℕ → Res} {g : ℕ → Multiset ℕ} {i : ℕ}
    (hf : ∀ res tid, f res tid i = res i + BitVec.ofNat 32 ((g tid).count i)) (n : ℕ) (res : Res) :
    (List.range n).foldl f res i
      = res i + BitVec.ofNat 32 (((Multiset.range n).map g).sum.count i) := by
  induction n with
  | zero => simp
  | succ n ih =>
    rw [List.range_succ, List.foldl_append, List.foldl_cons, List.foldl_nil, hf, ih,
      Multiset.range_succ, Multiset.map_cons, Multiset.sum_cons, Multiset.count_add,
      BitVec.ofNat_add, BitVec.add_assoc, BitVec.add_comm (BitVec.ofNat 32 ((g n).count i))]

theorem inc_apply (res : Res) (tid i : ℕ) :
    inc res tid i = res i + if i = tid then 1 else 0 := by
  unfold inc
  by_cases hi : i = tid
  · rw [hi, Function.update_self, if_pos rfl]
  · rw [Function.update_of_ne hi, if_neg hi]
    exact (BitVec.add_zero _).symm

/-- **The recursion of the host** counts the increments of a block, below the top level and at the
top. -/
theorem generateReference_eq (k : NestedBlocks) (len gNestingLevel : ℕ) {level : ℕ}
    (hlevel : level ≤ gNestingLevel) (res : Res) (i : ℕ) :
    generateReference k len gNestingLevel level res i = res i + BitVec.ofNat 32
      ((increments k level (if level = gNestingLevel then len else k.ndrange)).count i) := by
  induction level generalizing res with
  | zero => simp [generateReference, increments]
  | succ level ih =>
    have hne : level ≠ gNestingLevel := by omega
    rw [increments, generateReference]
    generalize (if level + 1 = gNestingLevel then len else k.ndrange) = globalWorkSize
    refine foldl_count (fun res tid => ?_) globalWorkSize res
    have hcount : ∀ m : Multiset ℕ, inc res tid i + BitVec.ofNat 32 (m.count i)
        = res i + BitVec.ofNat 32 ((tid ::ₘ m).count i) := by
      intro m
      rw [inc_apply, Multiset.count_cons, BitVec.ofNat_add, BitVec.add_comm (BitVec.ofNat 32 _),
        BitVec.add_assoc]
      split <;> rfl
    by_cases hactive : k.active globalWorkSize tid = true
    · by_cases hdeeper : k.deeper level tid = true
      · simp only [hactive, hdeeper, if_true]
        rw [ih (by omega), if_neg hne, hcount]
      · simp only [hactive, if_true, if_neg hdeeper]
        rw [← hcount, Multiset.count_zero]
        exact (BitVec.add_zero _).symm
    · simp [hactive]

theorem check_eq_iff {results : Res} : check k results len nestingLevel = -1 ↔
    ∀ i < len, results i = BitVec.ofNat 32 ((increments k nestingLevel len).count i) := by
  have href : ∀ i, generateReference k len nestingLevel nestingLevel (fun _ => 0) i
      = BitVec.ofNat 32 ((increments k nestingLevel len).count i) := by
    intro i
    rw [generateReference_eq k len nestingLevel le_rfl, if_pos rfl]
    exact BitVec.zero_add _
  simp only [check, fail_eq_iff, bne_eq_false_iff_eq, href]

/-! ### Every run -/

/-- How often work-item `i` will be counted, if every `enqueue_kernel` succeeds from now on. -/
def left (k : NestedBlocks) (s : Pool Task Res) (i : ℕ) : ℕ :=
  ((s.tasks.map (todo k)).sum).count i

/-- **What is known of `res[i]`** after the steps `l`: with what is left it is the total, unless an
`enqueue_kernel` has failed, and less than that if it was one of work-item `i`. -/
def Tally (l : List (Pool Task Res × (Task × Bool))) (i total left : ℕ) (x : BitVec 32) : Prop :=
  ∃ v : ℤ, x = BitVec.ofInt 32 v ∧ -1 ≤ v ∧
    ((∀ p ∈ l, Succeeds p.2) → v + left = total) ∧
    ((∃ p ∈ l, ¬ Succeeds p.2 ∧ p.2.1.tid = i) → v + left < total)

/-- The invariant of the runs. -/
structure Counted (k : NestedBlocks) (total : ℕ → ℕ) (l : List (Pool Task Res × (Task × Bool)))
    (s : Pool Task Res) : Prop where
  le : ∀ i, left k s i ≤ total i
  tally : ∀ i, Tally l i (total i) (left k s i) (s.mem i)
  enqueue : ∀ t ∈ s.tasks, t.pc = .enqueue → left k s t.tid < total t.tid

theorem left_step {t : Task} (ht : t ∈ s.tasks) (success : Bool) (i : ℕ) :
    left k ⟨(blockFn k t success s.mem).1, s.tasks.erase t + (blockFn k t success s.mem).2⟩ i
      + (todo k t).count i
      = left k s i + (((blockFn k t success s.mem).2.map (todo k)).sum).count i := by
  have hsum := sum_map_step (todo k) ht (blockFn k t success s.mem).2
  rw [left, left, ← Multiset.count_add, ← Multiset.count_add, hsum]

theorem Tally.succeed {i total left left' : ℕ} {x x' : BitVec 32} (h : Tally l i total left x)
    {e : Task × Bool} (he : Succeeds e) (d : ℕ) (hleft : left' + d = left)
    (hx : x' = x + BitVec.ofNat 32 d) : Tally (l ++ [(s, e)]) i total left' x' := by
  obtain ⟨v, rfl, hv, hall, hfailed⟩ := h
  refine ⟨v + d, ?_, by omega, fun hl => ?_, ?_⟩
  · rw [hx, BitVec.ofInt_add]
    rfl
  · have hsum := hall fun p hp => hl p (List.mem_append_left _ hp)
    omega
  · rintro ⟨p, hp, hno, htid⟩
    rcases List.mem_append.mp hp with hp | hp
    · have hlt := hfailed ⟨p, hp, hno, htid⟩
      omega
    · rw [List.mem_singleton.mp hp] at hno
      exact absurd he hno

/-- A failed `enqueue_kernel` of another work-item leaves `res[i]` as it is. -/
theorem Tally.fail {i total left left' : ℕ} {x : BitVec 32} (h : Tally l i total left x)
    {e : Task × Bool} (he : ¬ Succeeds e) (hle : left' ≤ left) (hlt : left < total ∨ i ≠ e.1.tid) :
    Tally (l ++ [(s, e)]) i total left' (if i = e.1.tid then -1 else x) := by
  have hlast : ¬ ∀ p ∈ l ++ [(s, e)], Succeeds p.2 := fun hl => he (hl (s, e) (by simp))
  by_cases hi : i = e.1.tid
  · rw [if_pos hi]
    refine ⟨-1, rfl, le_rfl, fun hl => absurd hl hlast, fun _ => ?_⟩
    have := hlt.resolve_right (not_not.mpr hi)
    omega
  · rw [if_neg hi]
    obtain ⟨v, hv, hge, -, hfailed⟩ := h
    refine ⟨v, hv, hge, fun hl => absurd hl hlast, ?_⟩
    rintro ⟨p, hp, hno, htid⟩
    rcases List.mem_append.mp hp with hp | hp
    · have := hfailed ⟨p, hp, hno, htid⟩
      omega
    · rw [List.mem_singleton.mp hp] at htid
      exact absurd htid.symm hi

theorem Counted.step {total : ℕ → ℕ} (h : Counted k total l s) {t : Task} (ht : t ∈ s.tasks)
    (success : Bool) : Counted k total (l ++ [(s, (t, success))])
      ⟨(blockFn k t success s.mem).1, s.tasks.erase t + (blockFn k t success s.mem).2⟩ := by
  have hleft := left_step (k := k) ht success
  have hold : ∀ u ∈ s.tasks.erase t, u ∈ s.tasks := fun u => Multiset.mem_of_mem_erase
  generalize hs' : (⟨(blockFn k t success s.mem).1, s.tasks.erase t +
    (blockFn k t success s.mem).2⟩ : Pool Task Res) = s' at hleft ⊢
  have hmem' : s'.mem = (blockFn k t success s.mem).1 := by rw [← hs']
  have htasks' : s'.tasks = s.tasks.erase t + (blockFn k t success s.mem).2 := by rw [← hs']
  cases blockFn_move k t success s.mem with
  | hand hmem hsuccess htodo hpc =>
    have hsame : ∀ i, left k s' i = left k s i := by
      intro i
      have hi := hleft i
      rw [htodo] at hi
      exact Nat.add_right_cancel hi
    refine ⟨fun i => hsame i ▸ h.le i, fun i => ?_, fun u hu hen => ?_⟩
    · rw [hmem', hmem]
      exact (h.tally i).succeed hsuccess 0 (hsame i) (BitVec.add_zero _).symm
    · rw [hsame]
      rcases Multiset.mem_add.mp (htasks' ▸ hu) with hu | hu
      · exact h.enqueue u (hold u hu) hen
      · rw [hpc u hu] at hen
        cases hen
  | count hmem hsuccess htodo htid =>
    have hone : ∀ i, left k s' i + (if i = t.tid then 1 else 0) = left k s i := by
      intro i
      have hi := hleft i
      rw [htodo, Multiset.count_cons] at hi
      omega
    refine ⟨fun i => ?_, fun i => ?_, fun u hu hen => ?_⟩
    · have := hone i
      have := h.le i
      omega
    · rw [hmem', hmem, inc_apply]
      refine (h.tally i).succeed hsuccess _ (hone i) ?_
      split <;> rfl
    · have hu' := hone u.tid
      rcases Multiset.mem_add.mp (htasks' ▸ hu) with hu | hu
      · have := h.enqueue u (hold u hu) hen
        omega
      · rw [if_pos (htid u hu)] at hu'
        have := h.le u.tid
        omega
  | fail hmem hpc hfail hnone =>
    have hle : ∀ i, left k s' i ≤ left k s i := by
      intro i
      have hi := hleft i
      rw [hnone, Multiset.map_zero, Multiset.sum_zero, Multiset.count_zero] at hi
      omega
    have hno : ¬ Succeeds (t, success) := by
      intro hsuccess
      rw [hfail] at hsuccess
      cases hsuccess hpc
    refine ⟨fun i => (hle i).trans (h.le i), fun i => ?_, fun u hu hen => ?_⟩
    · rw [hmem', hmem, Function.update_apply]
      refine (h.tally i).fail hno (hle i) ?_
      by_cases hi : i = t.tid
      · exact .inl (hi ▸ h.enqueue t ht hpc)
      · exact .inr hi
    · rw [htasks', hnone, add_zero] at hu
      exact (hle _).trans_lt (h.enqueue u (hold u hu) hen)

theorem trace_counted (hmem : s.mem = fun _ => 0) (htasks : s.tasks = launch len nestingLevel)
    (h : (nestedBlocks k len nestingLevel).Trace s l s') :
    Counted k (fun i => (increments k nestingLevel len).count i) l s' := by
  induction h with
  | nil =>
    have hleft : ∀ i, left k s i = (increments k nestingLevel len).count i := by
      intro i
      rw [left, htasks, sum_todo_launch]
    refine ⟨fun i => (hleft i).le, fun i => ?_, fun t ht hpc => ?_⟩
    · refine ⟨0, by rw [hmem]; rfl, by decide, fun _ => by rw [hleft, zero_add], ?_⟩
      rintro ⟨p, hp, -⟩
      cases hp
    · rw [htasks] at ht
      rw [(of_mem_launch ht).1] at hpc
      cases hpc
  | snoc e _ hnext ih =>
    obtain ⟨ht, rfl⟩ := spawning_next.mp hnext
    exact ih.step ht e.2

/-- A number that is too small by less than 2³¹ is not the total. -/
theorem ofInt_ne_ofNat {v : ℤ} {total : ℕ} (hv : -1 ≤ v) (hlt : v < total) (htotal : total < 2 ^ 31) :
    BitVec.ofInt 32 v ≠ BitVec.ofNat 32 total := by
  intro h
  have htoInt := congrArg BitVec.toInt h
  rw [← BitVec.ofInt_natCast, BitVec.toInt_ofInt, BitVec.toInt_ofInt] at htoInt
  rw [Int.bmod_eq_of_le (by omega) (by omega), Int.bmod_eq_of_le (by omega) (by omega)] at htoInt
  omega

/-- **The counts of the device are those of the host, just if every `enqueue_kernel` has
succeeded.**  The runs are not longer than the work-items and blocks are many, they do not leave the
results, every run can be finished, and when no task is left the check says whether one has failed. -/
theorem nestedBlocks_passes (hndrange : k.ndrange ≤ len)
    (hcount : ∀ i, (increments k nestingLevel len).count i < 2 ^ 31) (hmem : s.mem = fun _ => 0)
    (htasks : s.tasks = launch len nestingLevel)
    (h : (nestedBlocks k len nestingLevel).Trace s l s') :
    (l.length ≤ blockSteps k nestingLevel len ∧ ∀ p ∈ l, p.2.1.tid < len) ∧
    (s'.tasks = 0 → (check k s'.mem len nestingLevel = -1 ↔ ∀ p ∈ l, Succeeds p.2)) ∧
    ∃ s'', (nestedBlocks k len nestingLevel).Path (fun _ e => Succeeds e) s' s'' ∧
      s''.tasks = 0 := by
  have hlength := spawning_steps (blockFn_steps k) h
  rw [htasks, sum_steps_launch] at hlength
  have htid := (spawning_tasks (P := fun t => t.tid < len) (blockFn_tid hndrange) h
    fun t ht => (of_mem_launch (htasks ▸ ht)).2).2
  refine ⟨⟨by omega, htid⟩, fun hdone => ?_, spawning_finish (blockFn_steps k)
    (fun t => ⟨true, fun _ => rfl⟩) s'⟩
  have hcounted := trace_counted hmem htasks h
  have hzero : ∀ i, left k s' i = 0 := by
    intro i
    rw [left, hdone, Multiset.map_zero, Multiset.sum_zero, Multiset.count_zero]
  rw [check_eq_iff]
  constructor
  · intro heq
    by_contra hno
    push Not at hno
    obtain ⟨p, hp, hp0⟩ := hno
    obtain ⟨v, hv, hge, -, hfailed⟩ := hcounted.tally p.2.1.tid
    have hlt := hfailed ⟨p, hp, hp0, rfl⟩
    rw [hzero] at hlt
    exact ofInt_ne_ofNat hge (by omega) (hcount _) (hv.symm.trans (heq _ (htid p hp)))
  · intro hall i _
    obtain ⟨v, hv, -, hsum, -⟩ := hcounted.tally i
    have htotal := hsum hall
    rw [hzero] at htotal
    rw [hv, show v = ((increments k nestingLevel len).count i : ℤ) by omega]
    exact BitVec.ofInt_natCast ..

/-- Ten work-items of which five count on two levels, with an `enqueue_kernel` that succeeds, and
with one that fails. -/
theorem nestedBlocks_passes_ten : ∃ s s' : Pool Task Res, (s.tasks = 0 ∧
    check enqueueNestedBlocksSomeDiff s.mem 10 2 = -1) ∧
    (s'.tasks = 0 ∧ check enqueueNestedBlocksSomeDiff s'.mem 10 2 ≠ -1) := by
  let s₀ : Pool Task Res := ⟨fun _ => 0, launch 10 2⟩
  let first : List (Task × Bool) := (List.range 10).map fun tid => (⟨.count, 10, 2, tid⟩, true)
  let second : List (Task × Bool) := (List.range 10).map fun tid => (⟨.count, 10, 1, tid⟩, true)
  have hcount : ∀ i, (increments enqueueNestedBlocksSomeDiff 2 10).count i < 2 ^ 31 :=
    fun i => (Multiset.count_le_card _ _).trans_lt (by decide)
  have hrun : ((nestedBlocks enqueueNestedBlocksSomeDiff 10 2).run (fun _ e => Succeeds e) s₀
      (first ++ [(⟨.enqueue, 10, 1, 1⟩, true)] ++ second)).any (fun s => decide (s.tasks = 0))
      = true := by decide +kernel
  have hrun' : ((nestedBlocks enqueueNestedBlocksSomeDiff 10 2).run System.anyStep s₀ first).any
      (fun s => (nestedBlocks enqueueNestedBlocksSomeDiff 10 2).next s
        (⟨.enqueue, 10, 1, 1⟩, false) |>.any fun s => decide (s.tasks = 0)) = true := by
    decide +kernel
  obtain ⟨s, hs, hdone⟩ := (Option.any_eq_true _ _).mp hrun
  obtain ⟨t, ht, hnext⟩ := (Option.any_eq_true _ _).mp hrun'
  obtain ⟨s', hs', hdone'⟩ := (Option.any_eq_true _ _).mp hnext
  obtain ⟨l, htrace, hall⟩ := System.Trace.of_run (.nil s₀) (by simp) hs
  obtain ⟨l', htrace', -⟩ := System.Trace.of_run (.nil s₀) (by simp) ht
  have hpass := (nestedBlocks_passes (by decide) hcount rfl rfl htrace).2.1 (of_decide_eq_true hdone)
  have hfail := (nestedBlocks_passes (by decide) hcount rfl rfl
    (htrace'.snoc _ hs')).2.1 (of_decide_eq_true hdone')
  have hno : ¬ Succeeds ((⟨.enqueue, 10, 1, 1⟩ : Task), false) := by decide
  exact ⟨s, s', ⟨of_decide_eq_true hdone, hpass.mpr hall⟩, of_decide_eq_true hdone', fun h =>
    hno (hfail.mp h _ (List.mem_append_right l' (List.mem_singleton_self _)))⟩

/-! ### The kernel without atomic increments -/

/-- What a work-item of `enqueue_nested_blocks_single` does next. -/
inductive SinglePc
  /-- from the start of `block_fn` to the load of `res[tid]` -/
  | load
  /-- the store of `res[tid]++`, where `value` was loaded -/
  | store (value : BitVec 32)
  | enqueue
  deriving DecidableEq

structure SingleTask where
  pc : SinglePc
  level : ℕ
  tid : ℕ
  deriving DecidableEq

def launchSingle (globalSize level : ℕ) : Multiset SingleTask :=
  (Multiset.range globalSize).map fun tid => ⟨.load, level, tid⟩

/-- `block_fn` of `enqueue_nested_blocks_single`: only work-item 1 counts, and it enqueues a block of
three. -/
def blockFnSingle (t : SingleTask) (success : Bool) (res : Res) : Res × Multiset SingleTask :=
  match t.pc, t.level with
  | .load, 0 => (res, 0)
  | .load, level + 1 => (res, if t.tid = 1 then {⟨.store (res t.tid), level, t.tid⟩} else 0)
  | .store value, level => (Function.update res t.tid (value + 1), {⟨.enqueue, level, t.tid⟩})
  | .enqueue, level =>
    if success then (res, launchSingle 3 level) else (Function.update res t.tid (-1), 0)

/-- All schedules of the kernel with `len` work-items. -/
def nestedBlocksSingle (len nestingLevel : ℕ) :
    System (Pool SingleTask Res) (SingleTask × Bool) :=
  spawning blockFnSingle fun s => s.mem = (fun _ => 0) ∧ s.tasks = launchSingle len nestingLevel

/-- The step is not an `enqueue_kernel` that fails. -/
def SucceedsSingle (e : SingleTask × Bool) : Prop := e.1.pc = .enqueue → e.2 = true

instance : DecidablePred SucceedsSingle := fun _ => inferInstanceAs (Decidable (_ → _))

/-- `check_single`. -/
def checkSingle (results : Res) (len nestingLevel : ℕ) : ℤ :=
  fail (fun i => i ≠ 1 ∧ results i ≠ 0 ∨ i = 1 ∧ results i ≠ BitVec.ofNat 32 nestingLevel) len

/-- The steps of a work-item and of all that come from it. -/
def stepsSingle (t : SingleTask) : ℕ :=
  match t.pc with
  | .load => if t.tid = 1 then 5 * t.level + 1 else 1
  | .store _ => 5 * t.level + 5
  | .enqueue => 5 * t.level + 4

theorem launchSingle_succ (globalSize level : ℕ) : launchSingle (globalSize + 1) level
    = ⟨.load, level, globalSize⟩ ::ₘ launchSingle globalSize level := by
  rw [launchSingle, Multiset.range_succ, Multiset.map_cons]
  rfl

theorem sum_stepsSingle_launch (globalSize level : ℕ) :
    ((launchSingle globalSize level).map stepsSingle).sum
      = if 2 ≤ globalSize then globalSize + 5 * level else globalSize := by
  induction globalSize with
  | zero => rfl
  | succ n ih =>
    rw [launchSingle_succ, Multiset.map_cons, Multiset.sum_cons, ih]
    simp only [stepsSingle]
    split_ifs <;> omega

theorem blockFnSingle_steps (t : SingleTask) (success : Bool) (res : Res) :
    ((blockFnSingle t success res).2.map stepsSingle).sum + 1 ≤ stepsSingle t := by
  obtain ⟨pc, level, tid⟩ := t
  cases pc with
  | load =>
    cases level with
    | zero => simp [blockFnSingle, stepsSingle]
    | succ level =>
      by_cases htid : tid = 1
      · simp [blockFnSingle, stepsSingle, htid]
        omega
      · simp [blockFnSingle, stepsSingle, htid]
  | store value => simp [blockFnSingle, stepsSingle]
  | enqueue =>
    cases success with
    | true =>
      have hsum : ((launchSingle 3 level).map stepsSingle).sum = 3 + 5 * level :=
        sum_stepsSingle_launch 3 level
      simp only [blockFnSingle, stepsSingle, if_true]
      omega
    | false => simp [blockFnSingle, stepsSingle]

/-- Where the one work-item stands that counts: how many levels have been counted. -/
def Counts (nestingLevel : ℕ) (t : SingleTask) (res : Res) : Prop :=
  match t.pc with
  | .load => ∃ done, done + t.level = nestingLevel ∧ res 1 = BitVec.ofNat 32 done
  | .store value => ∃ done, done + t.level + 1 = nestingLevel ∧ value = res 1 ∧
      res 1 = BitVec.ofNat 32 done
  | .enqueue => ∃ done, done + t.level = nestingLevel ∧ res 1 = BitVec.ofNat 32 done

/-- The tasks that are work-item 1 of their block. -/
def ones (tasks : Multiset SingleTask) : Multiset SingleTask := tasks.filter fun t => t.tid = 1

/-- **Only one work-item can be about to count**, and none after an `enqueue_kernel` has failed.
`all` says that none has. -/
structure Single (nestingLevel : ℕ) (all : Prop) (s : Pool SingleTask Res) : Prop where
  other : ∀ i ≠ 1, s.mem i = 0
  load : ∀ t ∈ s.tasks, t.tid ≠ 1 → t.pc = .load
  one : (∃ t, ones s.tasks = {t} ∧ Counts nestingLevel t s.mem ∧ all) ∨
    ones s.tasks = 0 ∧ (all ∧ s.mem 1 = BitVec.ofNat 32 nestingLevel ∨ ¬ all ∧ s.mem 1 = -1)

theorem ones_add (tasks tasks' : Multiset SingleTask) : ones (tasks + tasks') = ones tasks + ones tasks' :=
  Multiset.filter_add ..

theorem ones_cons (t : SingleTask) (tasks : Multiset SingleTask) :
    ones (t ::ₘ tasks) = if t.tid = 1 then t ::ₘ ones tasks else ones tasks := by
  unfold ones
  split
  · rw [Multiset.filter_cons_of_pos (p := fun t : SingleTask => t.tid = 1) _ ‹_›]
  · rw [Multiset.filter_cons_of_neg (p := fun t : SingleTask => t.tid = 1) _ ‹_›]

theorem ones_singleton {t : SingleTask} (h : t.tid = 1) : ones {t} = {t} := by
  rw [← Multiset.cons_zero, ones_cons, if_pos h]
  rfl

theorem ones_launchSingle (globalSize level : ℕ) :
    ones (launchSingle globalSize level) = if 2 ≤ globalSize then {⟨.load, level, 1⟩} else 0 := by
  induction globalSize with
  | zero => rfl
  | succ n ih =>
    rw [launchSingle_succ, ones_cons, ih]
    by_cases hn : n = 1
    · subst hn
      rfl
    · by_cases hle : 2 ≤ n
      · rw [if_neg hn, if_pos hle, if_pos (by omega)]
      · rw [if_neg hn, if_neg hle, if_neg (by omega)]

theorem load_of_mem_launchSingle {globalSize level : ℕ} {t : SingleTask}
    (h : t ∈ launchSingle globalSize level) : t.pc = .load := by
  obtain ⟨tid, -, rfl⟩ := Multiset.mem_map.mp h
  rfl

section Run

variable {all : Prop} {s s' : Pool SingleTask Res} {t : SingleTask}
  {l : List (Pool SingleTask Res × (SingleTask × Bool))}

theorem Single.erase (h : Single nestingLevel all s) (ht : t ∈ s.tasks) (htid : t.tid = 1) :
    ones (s.tasks.erase t) = 0 ∧ Counts nestingLevel t s.mem ∧ all := by
  obtain ⟨rest, hrest⟩ := Multiset.exists_cons_of_mem ht
  have hones : ones s.tasks = t ::ₘ ones rest := by rw [hrest, ones_cons, if_pos htid]
  rw [hrest, Multiset.erase_cons_head]
  rcases h.one with ⟨u, hu, hcounts⟩ | ⟨hzero, -⟩
  · have hcons : t ::ₘ ones rest = u ::ₘ 0 := hones.symm.trans hu
    have hcard := congrArg Multiset.card hcons
    simp only [Multiset.card_cons, Multiset.card_zero, Nat.add_right_cancel_iff,
      Multiset.card_eq_zero] at hcard
    rw [hcard] at hcons
    have htu : t = u := Multiset.singleton_inj.mp hcons
    exact ⟨hcard, htu ▸ hcounts⟩
  · rw [hzero] at hones
    exact absurd hones.symm Multiset.cons_ne_zero

theorem Single.next_other (h : Single nestingLevel all s) (ht : t ∈ s.tasks) (htid : t.tid ≠ 1)
    (success : Bool) : Single nestingLevel (all ∧ SucceedsSingle (t, success))
      ⟨(blockFnSingle t success s.mem).1, s.tasks.erase t + (blockFnSingle t success s.mem).2⟩ := by
  have hpc := h.load t ht htid
  have hstep : blockFnSingle t success s.mem = (s.mem, 0) := by
    obtain ⟨pc, level, tid⟩ := t
    simp only at hpc htid
    subst hpc
    cases level <;> simp [blockFnSingle, htid]
  have hsuccess : SucceedsSingle (t, success) := fun hen => by simp only [hpc, reduceCtorEq] at hen
  obtain ⟨rest, hrest⟩ := Multiset.exists_cons_of_mem ht
  have hones : ones s.tasks = ones (s.tasks.erase t) := by
    rw [hrest, Multiset.erase_cons_head, ones_cons, if_neg htid]
  rw [hstep, add_zero, and_iff_left hsuccess]
  refine ⟨h.other, fun u hu => h.load u (Multiset.mem_of_mem_erase hu), ?_⟩
  have hone := h.one
  rwa [hones] at hone

/-- The one that counts hands over to what it spawns. -/
theorem Single.next_one (h : Single nestingLevel all s) (ht : t ∈ s.tasks) (htid : t.tid = 1)
    (success : Bool) : Single nestingLevel (all ∧ SucceedsSingle (t, success))
      ⟨(blockFnSingle t success s.mem).1, s.tasks.erase t + (blockFnSingle t success s.mem).2⟩ := by
  obtain ⟨hrest, hcounts, hall⟩ := h.erase ht htid
  have hload : ∀ u ∈ s.tasks.erase t, u.tid ≠ 1 → u.pc = .load :=
    fun u hu => h.load u (Multiset.mem_of_mem_erase hu)
  -- a task that is spawned alone is again work-item 1
  have halone : ∀ pc level, (∀ u ∈ s.tasks.erase t + {(⟨pc, level, 1⟩ : SingleTask)},
      u.tid ≠ 1 → u.pc = .load) ∧
      ones (s.tasks.erase t + {(⟨pc, level, 1⟩ : SingleTask)}) = {⟨pc, level, 1⟩} := by
    refine fun pc level => ⟨fun u hu hne => ?_, by rw [ones_add, hrest, ones_singleton rfl, zero_add]⟩
    rcases Multiset.mem_add.mp hu with hu | hu
    · exact hload u hu hne
    · rw [Multiset.mem_singleton.mp hu] at hne
      exact absurd rfl hne
  obtain ⟨pc, level, tid⟩ := t
  simp only at htid
  subst htid
  cases pc with
  | load =>
    obtain ⟨done, hdone, hres⟩ := hcounts
    have hsuccess : ∀ level, SucceedsSingle (⟨.load, level, 1⟩, success) := nofun
    cases level with
    | zero =>
      have hdone' : done = nestingLevel := hdone
      refine ⟨h.other, by simpa [blockFnSingle] using hload, .inr ?_⟩
      simp [blockFnSingle, hrest, hres, hdone', hall, hsuccess]
    | succ level =>
      obtain ⟨hpc, hones⟩ := halone (.store (s.mem 1)) level
      exact ⟨h.other, hpc, .inl ⟨_, hones, ⟨done, (Nat.add_assoc ..).trans hdone, rfl, hres⟩, hall,
        hsuccess _⟩⟩
  | store value =>
    obtain ⟨done, hdone, rfl, hres⟩ := hcounts
    obtain ⟨hpc, hones⟩ := halone .enqueue level
    have hcount : Counts nestingLevel ⟨.enqueue, level, 1⟩
        (Function.update s.mem 1 (s.mem 1 + 1)) := by
      refine ⟨done + 1, by simp only at hdone ⊢; omega, ?_⟩
      simp [hres, BitVec.ofNat_add]
    refine ⟨fun i hi => ?_, hpc, .inl ⟨_, hones, hcount, hall, nofun⟩⟩
    simp only [blockFnSingle, Function.update_of_ne hi]
    exact h.other i hi
  | enqueue =>
    cases success with
    | true =>
      refine ⟨h.other, fun u hu hne => ?_, .inl ⟨⟨.load, level, 1⟩, ?_, hcounts, hall, fun _ => rfl⟩⟩
      · rcases Multiset.mem_add.mp hu with hu | hu
        · exact hload u hu hne
        · exact load_of_mem_launchSingle hu
      · simp only [blockFnSingle, if_true]
        rw [ones_add, hrest, ones_launchSingle, zero_add]
        rfl
    | false =>
      have hno : ¬ SucceedsSingle (⟨.enqueue, level, 1⟩, false) := fun hsuccess => by
        cases hsuccess rfl
      refine ⟨fun i hi => ?_, by simpa [blockFnSingle] using hload, .inr ⟨?_, .inr ⟨?_, ?_⟩⟩⟩
      · simp only [blockFnSingle, Bool.false_eq_true, if_false, Function.update_of_ne hi]
        exact h.other i hi
      · simpa [blockFnSingle] using hrest
      · exact fun hand => hno hand.2
      · simp [blockFnSingle]

theorem trace_single (hlen : 2 ≤ len) (hmem : s.mem = fun _ => 0)
    (htasks : s.tasks = launchSingle len nestingLevel)
    (h : (nestedBlocksSingle len nestingLevel).Trace s l s') :
    Single nestingLevel (∀ p ∈ l, SucceedsSingle p.2) s' := by
  induction h with
  | nil =>
    refine ⟨fun i _ => by rw [hmem], fun t ht _ => load_of_mem_launchSingle (htasks ▸ ht), .inl ?_⟩
    refine ⟨⟨.load, nestingLevel, 1⟩, ?_, ⟨0, Nat.zero_add _, by rw [hmem]; rfl⟩, nofun⟩
    rw [htasks, ones_launchSingle, if_pos hlen]
  | snoc e _ hnext ih =>
    obtain ⟨ht, rfl⟩ := spawning_next.mp hnext
    rw [List.forall_mem_append, List.forall_mem_singleton]
    by_cases htid : e.1.tid = 1
    · exact ih.next_one ht htid e.2
    · exact ih.next_other ht htid e.2

/-- **No increment is lost** although they are not atomic: only `res[1]` is written, the runs are not
longer than the work-items are many, every run can be finished, and when no task is left the check
says whether an `enqueue_kernel` has failed. -/
theorem nestedBlocksSingle_passes (hlen : 2 ≤ len) (hlevel : nestingLevel < 2 ^ 31)
    (hmem : s.mem = fun _ => 0) (htasks : s.tasks = launchSingle len nestingLevel)
    (h : (nestedBlocksSingle len nestingLevel).Trace s l s') :
    (l.length ≤ len + 5 * nestingLevel ∧ ∀ i ≠ 1, s'.mem i = 0) ∧
    (s'.tasks = 0 → (checkSingle s'.mem len nestingLevel = -1 ↔ ∀ p ∈ l, SucceedsSingle p.2)) ∧
    ∃ s'', (nestedBlocksSingle len nestingLevel).Path (fun _ e => SucceedsSingle e) s' s'' ∧
      s''.tasks = 0 := by
  have hlength := spawning_steps blockFnSingle_steps h
  rw [htasks, sum_stepsSingle_launch, if_pos hlen] at hlength
  have hs := trace_single hlen hmem htasks h
  refine ⟨⟨by omega, hs.other⟩, fun hdone => ?_, spawning_finish blockFnSingle_steps
    (fun t => ⟨true, fun _ => rfl⟩) s'⟩
  have hcheck : checkSingle s'.mem len nestingLevel = -1 ↔
      s'.mem 1 = BitVec.ofNat 32 nestingLevel := by
    rw [checkSingle, fail_eq_iff]
    constructor
    · intro hwrong
      simpa using hwrong 1 hlen
    · intro hone i _
      by_cases hi : i = 1
      · simp [hi, hone]
      · have hzero : s'.mem i = 0#32 := hs.other i hi
        simp [hi, hzero]
  rw [hcheck]
  rcases hs.one with ⟨t, ht, -⟩ | ⟨-, ⟨hall, hone⟩ | ⟨hno, hone⟩⟩
  · rw [hdone] at ht
    exact absurd ht.symm (Multiset.singleton_ne_zero t)
  · exact iff_of_true hone hall
  · refine iff_of_false (fun heq => ?_) hno
    exact ofInt_ne_ofNat (v := -1) le_rfl (by omega) hlevel (hone.symm.trans heq)

end Run

/-- Two levels, where the enqueued block of work-item 1 is run before the other work-item of its
parent, and where the second block cannot be enqueued. -/
theorem nestedBlocksSingle_passes_two : ∃ s s' : Pool SingleTask Res,
    (s.tasks = 0 ∧ checkSingle s.mem 2 2 = -1) ∧
    (s'.tasks = 0 ∧ checkSingle s'.mem 2 2 ≠ -1) := by
  let s₀ : Pool SingleTask Res := ⟨fun _ => 0, launchSingle 2 2⟩
  let first : List (SingleTask × Bool) := [(⟨.load, 2, 1⟩, true), (⟨.store 0, 1, 1⟩, true),
    (⟨.enqueue, 1, 1⟩, true), (⟨.load, 1, 2⟩, true), (⟨.load, 1, 1⟩, true), (⟨.load, 2, 0⟩, true),
    (⟨.store 1, 0, 1⟩, true), (⟨.load, 1, 0⟩, true)]
  let second : List (SingleTask × Bool) := [(⟨.enqueue, 0, 1⟩, true), (⟨.load, 0, 1⟩, true),
    (⟨.load, 0, 0⟩, true), (⟨.load, 0, 2⟩, true)]
  have hrun : ((nestedBlocksSingle 2 2).run (fun _ e => SucceedsSingle e) s₀
      (first ++ second)).any (fun s => decide (s.tasks = 0)) = true := by decide +kernel
  have hrun' : ((nestedBlocksSingle 2 2).run System.anyStep s₀ first).any
      (fun s => (nestedBlocksSingle 2 2).next s
        (⟨.enqueue, 0, 1⟩, false) |>.any fun s => decide (s.tasks = 0)) = true := by
    decide +kernel
  obtain ⟨s, hs, hdone⟩ := (Option.any_eq_true _ _).mp hrun
  obtain ⟨t, ht, hnext⟩ := (Option.any_eq_true _ _).mp hrun'
  obtain ⟨s', hs', hdone'⟩ := (Option.any_eq_true _ _).mp hnext
  obtain ⟨l, htrace, hall⟩ := System.Trace.of_run (.nil s₀) (by simp) hs
  obtain ⟨l', htrace', -⟩ := System.Trace.of_run (.nil s₀) (by simp) ht
  have hpass := (nestedBlocksSingle_passes (by decide) (by decide) rfl rfl
    htrace).2.1 (of_decide_eq_true hdone)
  have hfail := (nestedBlocksSingle_passes (by decide) (by decide) rfl rfl
    (htrace'.snoc _ hs')).2.1 (of_decide_eq_true hdone')
  have hno : ¬ SucceedsSingle ((⟨.enqueue, 0, 1⟩ : SingleTask), false) := by decide
  exact ⟨s, s', ⟨of_decide_eq_true hdone, hpass.mpr hall⟩, of_decide_eq_true hdone', fun h =>
    hno (hfail.mp h _ (List.mem_append_right l' (List.mem_singleton_self _)))⟩

end OpenCLCTS.DeviceExecution
