import Mathlib.Data.BitVec
import Mathlib.Data.List.FinRange
import OpenCLCTS.C11Atomics.FetchOp.Tests

/-!
# The bit isolation tests

`CBasicTestFetchOrAnd` and `CBasicTestFetchXor2`: up to 64 threads share a variable,
and each of them sets and clears one bit of it.  The two tests differ in the
operations with which a thread does that (`BitTest`).

* `isolated`: in every interleaving the bit of a thread is what its own program
  counter says, so that no thread ever finds its bit in the wrong state.
* `noticed`: if the variables change by themselves, and a thread finds its bit in the
  wrong state, its counter is no longer 0 at the end.
-/

namespace OpenCLCTS.C11Atomics.BitIsolation

open Interleaving
open FetchOps (Mem setDest_self setOldValue_self setOldValue_of_ne)

variable {T : HostType} {n : ℕ}

/-- What the two classes differ in.  The operand of the first call is `bitMask`. -/
structure BitTest (T : HostType) where
  setOp : FetchOp
  clearOp : FetchOp
  /-- the operand of the second call -/
  clearOperand (bitMask : T.Data) : T.Data
  set_bit : ∀ (a : T.Data) (b j : ℕ), j < T.bits → a.getLsbD b = false →
    (setOp.apply T a (bit T b)).getLsbD j = if j = b then true else a.getLsbD j
  clear_bit : ∀ (a : T.Data) (b j : ℕ), j < T.bits → a.getLsbD b = true →
    (clearOp.apply T a (clearOperand (bit T b))).getLsbD j = if j = b then false else a.getLsbD j

/-- `CBasicTestFetchOrAnd`. -/
def fetchOrAnd (T : HostType) : BitTest T where
  setOp := .or
  clearOp := .and
  clearOperand bitMask := ~~~bitMask
  set_bit a b j hj _ := by
    rw [FetchOp.apply, BitVec.getLsbD_or]
    by_cases h : j = b
    · rw [if_pos h, ← h, getLsbD_bit_self hj, Bool.or_true]
    · rw [if_neg h, getLsbD_bit_of_ne (Ne.symm h), Bool.or_false]
  clear_bit a b j hj _ := by
    rw [FetchOp.apply, BitVec.getLsbD_and, BitVec.getLsbD_not, decide_eq_true hj, Bool.true_and]
    by_cases h : j = b
    · rw [if_pos h, ← h, getLsbD_bit_self hj, Bool.not_true, Bool.and_false]
    · rw [if_neg h, getLsbD_bit_of_ne (Ne.symm h), Bool.not_false, Bool.and_true]

/-- `CBasicTestFetchXor2`. -/
def fetchXor2 (T : HostType) : BitTest T where
  setOp := .xor
  clearOp := .xor
  clearOperand bitMask := bitMask
  set_bit a b j hj ha := by
    rw [FetchOp.apply, BitVec.getLsbD_xor]
    by_cases h : j = b
    · rw [if_pos h, h, ha, getLsbD_bit_self (h ▸ hj), Bool.false_xor]
    · rw [if_neg h, getLsbD_bit_of_ne (Ne.symm h), Bool.xor_false]
  clear_bit a b j hj ha := by
    rw [FetchOp.apply, BitVec.getLsbD_xor]
    by_cases h : j = b
    · rw [if_pos h, h, ha, getLsbD_bit_self (h ▸ hj), Bool.xor_self]
    · rw [if_neg h, getLsbD_bit_of_ne (Ne.symm h), Bool.xor_false]

/-! ### The threads -/

/-- `StartValue`. -/
def startValue (T : HostType) : T.Data := 0

/-- `NumResults`. -/
def numResults (T : HostType) (threadCount : ℕ) : ℕ :=
  (1 + (threadCount + 2 ^ 32 - 1) % 2 ^ 32 / T.bits) % 2 ^ 32

/-- `valueInd`. -/
def valueInd (T : HostType) (tid : ℕ) : ℕ := tid / (T.sizeof * 8)

/-- `tid % bits`. -/
def bitIndex (T : HostType) (tid : ℕ) : ℕ := tid % (T.sizeof * 8)

/-- `bitMask`. -/
def bitMask (T : HostType) (tid : ℕ) : T.Data := bit T (bitIndex T tid)

/-- `oldValues[tid]++`. -/
def increment (m : Mem T n) (tid : Fin n) : Mem T n := m.setOldValue tid (m.oldValues tid + 1)

/-- Where a thread stands in `HostFunction`. -/
inductive Pc (T : HostType)
  /-- before `oldValues[tid] = 0` -/
  | begin
  /-- in the first call of the loop's body -/
  | set (i : ℕ) (call : Call T)
  /-- before `value & bitMask` -/
  | checkSet (i : ℕ) (value : T.Data)
  /-- in the second call -/
  | clear (i : ℕ) (call : Call T)
  /-- before `!(value & bitMask)` -/
  | checkClear (i : ℕ) (value : T.Data)
  | returned

/-- `i < Iterations()`. -/
def Pc.loop (T : HostType) (iterations : ℤ) (tid i : ℕ) : Pc T :=
  if (i : ℤ) < iterations then .set i (.start (bitMask T tid)) else .returned

/-- `HostFunction`. -/
def hostFunction (test : BitTest T) (iterations : ℤ) : Program (Fin n) (Mem T n) (Pc T) :=
  fun tid pc m =>
  match pc with
  | .begin => some (.loop T iterations tid 0, m.setOldValue tid 0)
  | .set i call =>
    match call.step test.setOp (m.destMemory (valueInd T tid)) with
    | (.inl call, a) => some (.set i call, m.setDest (valueInd T tid) a)
    | (.inr value, a) => some (.checkSet i value, m.setDest (valueInd T tid) a)
  | .checkSet i value =>
    some (.clear i (.start (test.clearOperand (bitMask T tid))),
      if value &&& bitMask T tid ≠ 0 then increment m tid else m)
  | .clear i call =>
    match call.step test.clearOp (m.destMemory (valueInd T tid)) with
    | (.inl call, a) => some (.clear i call, m.setDest (valueInd T tid) a)
    | (.inr value, a) => some (.checkClear i value, m.setDest (valueInd T tid) a)
  | .checkClear i value =>
    some (.loop T iterations tid (i + 1),
      if value &&& bitMask T tid = 0 then increment m tid else m)
  | .returned => none

/-- All interleavings of the test; `refValues` are the entries of the threads at
its beginning. -/
abbrev BitTest.runs (test : BitTest T) (iterations : ℤ) (refValues : Fin n → T.Data) :
    System (Conf (Fin n) (Mem T n) (Pc T)) (Fin n) :=
  threads (hostFunction test iterations) fun c =>
    c.mem.oldValues = refValues ∧
      (∀ i, i < numResults T n → c.mem.destMemory i = startValue T) ∧ ∀ t, c.loc t = .begin

/-- A fault: a variable changes by itself. -/
def changeDest (fault : ℕ × T.Data) (c : Conf (Fin n) (Mem T n) (Pc T)) :
    Conf (Fin n) (Mem T n) (Pc T) := { c with mem := c.mem.setDest fault.1 fault.2 }

/-- The interleavings on variables that change by themselves.  A call can return any
value here, if the variable changes right before it and right after it. -/
abbrev BitTest.faultyRuns (test : BitTest T) (iterations : ℤ) (refValues : Fin n → T.Data) :
    System (Conf (Fin n) (Mem T n) (Pc T)) (Fin n ⊕ ℕ × T.Data) :=
  (test.runs iterations refValues).withFaults changeDest

/-! ### The verifier -/

/-- `ExpectedValue`. -/
def expectedValue (T : HostType) : T.Data := 0

/-- `VerifyRefs`. -/
def verifyRefs (refValues : Fin n → T.Data) : Bool :=
  (List.finRange n).foldl (fun correct i => if T.lt 0 (refValues i) then false else correct) true

theorem verifyRefs_iff {refValues : Fin n → T.Data} :
    verifyRefs refValues = true ↔ ∀ t, T.lt 0 (refValues t) = false := by
  have hfold : ∀ (l : List (Fin n)) (correct : Bool),
      l.foldl (fun correct i => if T.lt 0 (refValues i) then false else correct) correct = true ↔
        correct = true ∧ ∀ t ∈ l, T.lt 0 (refValues t) = false := by
    intro l
    induction l with
    | nil => exact fun correct => (and_iff_left (List.forall_mem_nil _)).symm
    | cons t l ih =>
      intro correct
      rw [List.foldl_cons, ih, List.forall_mem_cons]
      cases T.lt 0 (refValues t)
      · simp
      · simp
  rw [verifyRefs, hfold]
  exact ⟨fun h t => h.2 t (List.mem_finRange t), fun h => ⟨rfl, fun t _ => h t⟩⟩

theorem lt_zero_zero : T.lt 0 0 = false := by
  rw [← Bool.not_eq_true, HostType.lt_iff]
  exact lt_irrefl _

/-! ### A thread's bit -/

theorem bitIndex_lt (T : HostType) (tid : ℕ) : bitIndex T tid < T.bits := by
  rw [bitIndex, T.sizeof_mul]
  exact Nat.mod_lt _ T.bits_pos

theorem valueInd_mul_add (T : HostType) (tid : ℕ) :
    valueInd T tid * T.bits + bitIndex T tid = tid := by
  rw [valueInd, bitIndex, T.sizeof_mul, Nat.mul_comm]
  exact Nat.div_add_mod tid T.bits

theorem valueInd_of_bit {i j : ℕ} (hj : j < T.bits) : valueInd T (i * T.bits + j) = i := by
  rw [valueInd, T.sizeof_mul, Nat.mul_comm, Nat.mul_add_div T.bits_pos, Nat.div_eq_of_lt hj,
    Nat.add_zero]

theorem bitIndex_of_bit {i j : ℕ} (hj : j < T.bits) : bitIndex T (i * T.bits + j) = j := by
  rw [bitIndex, T.sizeof_mul, Nat.mul_comm, Nat.mul_add_mod, Nat.mod_eq_of_lt hj]

theorem numResults_eq (hpos : 1 ≤ n) (hlt : n < 2 ^ 32) :
    numResults T n = 1 + (n - 1) / T.bits := by
  have hsub : (n + 2 ^ 32 - 1) % 2 ^ 32 = n - 1 := by omega
  have hdiv : (n - 1) / T.bits < 2 ^ 32 - 1 := by
    rcases T.bits_eq with h | h <;> rw [h] <;> omega
  rw [numResults, hsub, Nat.mod_eq_of_lt (by omega)]

theorem valueInd_lt (hlt : n < 2 ^ 32) (t : Fin n) : valueInd T t < numResults T n := by
  have ht := t.isLt
  rw [numResults_eq (by omega) hlt, valueInd, T.sizeof_mul, Nat.add_comm]
  exact Nat.lt_succ_of_le (Nat.div_le_div_right (by omega))

theorem and_bit_eq_zero_iff (value : T.Data) {b : ℕ} (hb : b < T.bits) :
    value &&& bit T b = 0 ↔ value.getLsbD b = false := by
  constructor
  · intro h
    have hbit := congrArg (fun v : T.Data => v.getLsbD b) h
    simp only [BitVec.getLsbD_and, getLsbD_bit_self hb, getLsbD_zero, Bool.and_true] at hbit
    exact hbit
  · intro h
    apply BitVec.eq_of_getLsbD_eq
    intro j _
    rw [BitVec.getLsbD_and, getLsbD_zero]
    by_cases hj : b = j
    · rw [← hj, h, Bool.false_and]
    · rw [getLsbD_bit_of_ne hj, Bool.and_false]

/-! ### Isolation -/

variable {test : BitTest T} {iterations : ℤ} {refValues : Fin n → T.Data}

/-- The bit of a thread, as the thread has left it. -/
def Pc.holds : Pc T → Bool
  | .checkSet .. | .clear .. => true
  | .begin | .set .. | .checkClear .. | .returned => false

/-- The operand of a thread's call, and the bit in the result of the last one. -/
def Pc.Ok (test : BitTest T) (tid : ℕ) : Pc T → Prop
  | .set _ call => call.operand = bitMask T tid
  | .checkSet _ value => value.getLsbD (bitIndex T tid) = false
  | .clear _ call => call.operand = test.clearOperand (bitMask T tid)
  | .checkClear _ value => value.getLsbD (bitIndex T tid) = true
  | .begin | .returned => True

/-- What holds of a thread all the time. -/
structure Isolated (test : BitTest T) (refValues : Fin n → T.Data) (t : Fin n) (pc : Pc T)
    (m : Mem T n) : Prop where
  own_bit : (m.destMemory (valueInd T t)).getLsbD (bitIndex T t) = pc.holds
  ok : pc.Ok test t
  before : pc = .begin → m.oldValues t = refValues t
  counter : pc ≠ .begin → m.oldValues t = 0

/-- Thread `t` has changed no bit but its own, which is `v` now. -/
def Writes (t : Fin n) (v : Bool) (m m' : Mem T n) : Prop :=
  ∀ i j, j < T.bits → (m'.destMemory i).getLsbD j =
    if i = valueInd T t ∧ j = bitIndex T t then v else (m.destMemory i).getLsbD j

theorem Writes.of_eq {t : Fin n} {v : Bool} {m m' : Mem T n}
    (hbit : (m.destMemory (valueInd T t)).getLsbD (bitIndex T t) = v)
    (hm : m'.destMemory = m.destMemory) : Writes t v m m' := by
  intro i j _
  rw [hm]
  by_cases h : i = valueInd T t ∧ j = bitIndex T t
  · rw [if_pos h, h.1, h.2, hbit]
  · rw [if_neg h]

theorem Writes.of_setDest {t : Fin n} {v : Bool} {m : Mem T n} {a : T.Data}
    (ha : ∀ j, j < T.bits → a.getLsbD j =
      if j = bitIndex T t then v else (m.destMemory (valueInd T t)).getLsbD j) :
    Writes t v m (m.setDest (valueInd T t) a) := by
  intro i j hj
  show (Function.update m.destMemory (valueInd T t) a i).getLsbD j = _
  by_cases hi : i = valueInd T t
  · subst hi
    rw [Function.update_self, ha j hj]
    simp only [true_and]
  · rw [Function.update_of_ne hi, if_neg fun h => hi h.1]

theorem Writes.other {t u : Fin n} (hu : u ≠ t) {v : Bool} {m m' : Mem T n}
    (h : Writes t v m m') : (m'.destMemory (valueInd T u)).getLsbD (bitIndex T u)
      = (m.destMemory (valueInd T u)).getLsbD (bitIndex T u) := by
  rw [h _ _ (bitIndex_lt T u), if_neg]
  rintro ⟨hi, hj⟩
  refine hu (Fin.ext ?_)
  rw [← valueInd_mul_add T u, hi, hj, valueInd_mul_add]

theorem loop_cases (T : HostType) (iterations : ℤ) (tid i : ℕ) :
    (i : ℤ) < iterations ∧ Pc.loop T iterations tid i = .set i (.start (bitMask T tid)) ∨
      ¬ (i : ℤ) < iterations ∧ Pc.loop T iterations tid i = .returned := by
  unfold Pc.loop
  by_cases h : (i : ℤ) < iterations
  · exact .inl ⟨h, if_pos h⟩
  · exact .inr ⟨h, if_neg h⟩

theorem loop_ok (T : HostType) (test : BitTest T) (iterations : ℤ) (tid i : ℕ) :
    (Pc.loop T iterations tid i).holds = false ∧ (Pc.loop T iterations tid i).Ok test tid ∧
      Pc.loop T iterations tid i ≠ .begin := by
  rcases loop_cases T iterations tid i with ⟨_, h⟩ | ⟨_, h⟩
  · rw [h]
    exact ⟨rfl, rfl, nofun⟩
  · rw [h]
    exact ⟨rfl, trivial, nofun⟩

/-- What a step of thread `t` can do. -/
inductive HostMove (test : BitTest T) (iterations : ℤ) (t : Fin n) (m : Mem T n) :
    Pc T → Pc T → Mem T n → Prop
  | begin : HostMove test iterations t m .begin (.loop T iterations t 0) (m.setOldValue t 0)
  /-- the call does not return yet -/
  | inSet (i : ℕ) {call call' : Call T} (h : call'.operand = call.operand) :
      HostMove test iterations t m (.set i call) (.set i call') m
  | set (i : ℕ) (call : Call T) :
      HostMove test iterations t m (.set i call) (.checkSet i (m.destMemory (valueInd T t)))
        (m.setDest (valueInd T t)
          (test.setOp.apply T (m.destMemory (valueInd T t)) call.operand))
  | checkSet (i : ℕ) (value : T.Data) :
      HostMove test iterations t m (.checkSet i value)
        (.clear i (.start (test.clearOperand (bitMask T t))))
        (if value &&& bitMask T t ≠ 0 then increment m t else m)
  | inClear (i : ℕ) {call call' : Call T} (h : call'.operand = call.operand) :
      HostMove test iterations t m (.clear i call) (.clear i call') m
  | clear (i : ℕ) (call : Call T) :
      HostMove test iterations t m (.clear i call) (.checkClear i (m.destMemory (valueInd T t)))
        (m.setDest (valueInd T t)
          (test.clearOp.apply T (m.destMemory (valueInd T t)) call.operand))
  | checkClear (i : ℕ) (value : T.Data) :
      HostMove test iterations t m (.checkClear i value) (.loop T iterations t (i + 1))
        (if value &&& bitMask T t = 0 then increment m t else m)

theorem hostMove_of_step {t : Fin n} {pc pc' : Pc T} {m m' : Mem T n}
    (hP : hostFunction test iterations t pc m = some (pc', m')) :
    HostMove test iterations t m pc pc' m' := by
  cases pc with
  | begin => cases hP; exact .begin
  | set i call =>
    simp only [hostFunction] at hP
    rcases call.step_cases test.setOp (m.destMemory (valueInd T t)) with ⟨call', hc, hs⟩ | hs
    · rw [hs] at hP
      cases hP
      rw [setDest_self]
      exact .inSet i hc
    · rw [hs] at hP
      cases hP
      exact .set i call
  | checkSet i value => cases hP; exact .checkSet i value
  | clear i call =>
    simp only [hostFunction] at hP
    rcases call.step_cases test.clearOp (m.destMemory (valueInd T t)) with ⟨call', hc, hs⟩ | hs
    · rw [hs] at hP
      cases hP
      rw [setDest_self]
      exact .inClear i hc
    · rw [hs] at hP
      cases hP
      exact .clear i call
  | checkClear i value => cases hP; exact .checkClear i value
  | returned => cases hP

theorem hostFunction_frame {t u : Fin n} (hu : u ≠ t) {pc pc' : Pc T} {m m' : Mem T n}
    (hP : hostFunction test iterations t pc m = some (pc', m')) :
    m'.oldValues u = m.oldValues u := by
  cases hostMove_of_step hP with
  | begin => exact setOldValue_of_ne hu _
  | inSet | set | inClear | clear => rfl
  | checkSet | checkClear =>
    split
    · exact setOldValue_of_ne hu _
    · rfl

/-- **A thread's step** keeps the thread's own assertion and all bits but its own. -/
theorem Isolated.own {t : Fin n} {pc pc' : Pc T} {m m' : Mem T n}
    (h : Isolated test refValues t pc m)
    (hP : hostFunction test iterations t pc m = some (pc', m')) :
    Writes t pc'.holds m m' ∧ Isolated test refValues t pc' m' := by
  -- it is enough to know the bits, the locals and the counter
  suffices hstep : Writes t pc'.holds m m' ∧ pc'.Ok test t ∧ pc' ≠ .begin ∧ m'.oldValues t = 0 by
    obtain ⟨hw, hok, hbegin, hcounter⟩ := hstep
    refine ⟨hw, ⟨?_, hok, fun hb => absurd hb hbegin, fun _ => hcounter⟩⟩
    rw [hw _ _ (bitIndex_lt T t), if_pos ⟨rfl, rfl⟩]
  obtain ⟨hbit, hok, hbefore, hcounter⟩ := h
  cases hostMove_of_step hP with
  | begin =>
    obtain ⟨hholds, hok', hbegin⟩ := loop_ok T test iterations t 0
    exact ⟨.of_eq (hbit.trans hholds.symm) rfl, hok', hbegin, setOldValue_self ..⟩
  | inSet i hc => exact ⟨.of_eq hbit rfl, hc.trans hok, nofun, hcounter nofun⟩
  | set i call =>
    refine ⟨.of_setDest fun j hj => ?_, hbit, nofun, hcounter nofun⟩
    rw [show call.operand = bit T (bitIndex T t) from hok]
    exact test.set_bit _ _ j hj hbit
  | checkSet i value =>
    have hclear : value &&& bitMask T t = 0 :=
      (and_bit_eq_zero_iff value (bitIndex_lt T t)).mpr hok
    rw [if_neg (not_not.mpr hclear)]
    exact ⟨.of_eq hbit rfl, rfl, nofun, hcounter nofun⟩
  | inClear i hc => exact ⟨.of_eq hbit rfl, hc.trans hok, nofun, hcounter nofun⟩
  | clear i call =>
    refine ⟨.of_setDest fun j hj => ?_, hbit, nofun, hcounter nofun⟩
    rw [show call.operand = test.clearOperand (bit T (bitIndex T t)) from hok]
    exact test.clear_bit _ _ j hj hbit
  | checkClear i value =>
    have hset : value &&& bitMask T t ≠ 0 := by
      intro hzero
      have hclear := (and_bit_eq_zero_iff value (bitIndex_lt T t)).mp hzero
      rw [show value.getLsbD (bitIndex T t) = true from hok] at hclear
      cases hclear
    obtain ⟨hholds, hok', hbegin⟩ := loop_ok T test iterations t (i + 1)
    rw [if_neg hset]
    exact ⟨.of_eq (hbit.trans hholds.symm) rfl, hok', hbegin, hcounter nofun⟩

theorem Isolated.other {t u : Fin n} (hu : u ≠ t) {pc pc' k : Pc T} {m m' : Mem T n}
    (h : Isolated test refValues t pc m)
    (hP : hostFunction test iterations t pc m = some (pc', m'))
    (hk : Isolated test refValues u k m) : Isolated test refValues u k m' := by
  have hcount := hostFunction_frame hu hP
  refine ⟨?_, hk.ok, fun hb => hcount.trans (hk.before hb), fun hb => hcount.trans (hk.counter hb)⟩
  rw [(h.own hP).1.other hu]
  exact hk.own_bit

/-- The bits that belong to no thread are clear. -/
def SpareBits (m : Mem T n) : Prop :=
  ∀ i j, i < numResults T n → j < T.bits → n ≤ i * T.bits + j →
    (m.destMemory i).getLsbD j = false

/-- **No thread is disturbed by the others**: its bit follows its own program
counter, and its counter stays 0. -/
theorem isolated (hlt : n < 2 ^ 32) {c : Conf (Fin n) (Mem T n) (Pc T)}
    (h : (test.runs iterations refValues).Reach System.anyStep c) :
    SpareBits c.mem ∧ ∀ t, Isolated test refValues t (c.loc t) c.mem := by
  refine threads_invariant (G := SpareBits) (A := Isolated test refValues) ?_ ?_ ?_ h
  · rintro c ⟨hold, hdest, hloc⟩
    refine ⟨fun i j hi _ _ => ?_, fun t => ⟨?_, ?_, fun _ => congrFun hold t, fun hb => ?_⟩⟩
    · rw [hdest i hi]
      exact getLsbD_zero j
    · rw [hdest _ (valueInd_lt hlt t), hloc t]
      exact getLsbD_zero _
    · rw [hloc t]
      trivial
    · exact absurd (hloc t) hb
  · intro t pc m pc' m' hG hA hP
    obtain ⟨hw, hA'⟩ := hA.own hP
    refine ⟨fun i j hi hj hn => ?_, hA'⟩
    rw [hw i j hj, if_neg, hG i j hi hj hn]
    rintro ⟨rfl, rfl⟩
    rw [valueInd_mul_add] at hn
    exact absurd t.isLt (not_lt.mpr hn)
  · intro t u pc m pc' m' k hu _ hA hP hk
    exact hA.other hu hP hk

/-- **At the end all variables are 0.** -/
theorem destMemory_of_returned (hlt : n < 2 ^ 32) {c : Conf (Fin n) (Mem T n) (Pc T)}
    (h : (test.runs iterations refValues).Reach System.anyStep c) (hfin : ∀ t, c.loc t = .returned)
    {i : ℕ} (hi : i < numResults T n) : c.mem.destMemory i = 0 := by
  obtain ⟨hspare, hall⟩ := isolated hlt h
  apply BitVec.eq_of_getLsbD_eq
  intro j hj
  rw [getLsbD_zero]
  by_cases hn : i * T.bits + j < n
  · have hbit := (hall ⟨i * T.bits + j, hn⟩).own_bit
    rw [hfin, valueInd_of_bit hj, bitIndex_of_bit hj] at hbit
    exact hbit
  · exact hspare i j hi hj (not_lt.mp hn)

/-! ### Mismatches -/

/-- The thread is about to find its bit in the wrong state. -/
def Pc.Mismatch (tid : ℕ) : Pc T → Prop
  | .checkSet _ value => value &&& bitMask T tid ≠ 0
  | .checkClear _ value => value &&& bitMask T tid = 0
  | .begin | .set .. | .clear .. | .returned => False

/-- A counter is at most the number of checks that the thread has done. -/
def Pc.Counted (iterations : ℤ) (counter : T.Data) : Pc T → Prop
  | .begin => True
  | .set i _ | .checkSet i _ => (i : ℤ) < iterations ∧ counter.toNat ≤ 2 * i
  | .clear i _ | .checkClear i _ => (i : ℤ) < iterations ∧ counter.toNat ≤ 2 * i + 1
  | .returned => counter.toNat ≤ 2 * iterations.toNat

/-- The thread has counted a mismatch, or is about to do so. -/
def Pc.Noticed (tid : ℕ) (counter : T.Data) (pc : Pc T) : Prop :=
  pc.Mismatch tid ∨ pc ≠ .begin ∧ 0 < counter.toNat

theorem counted_loop {tid i : ℕ} {counter : T.Data} (hi : i ≤ iterations.toNat)
    (hcounter : counter.toNat ≤ 2 * i) :
    (Pc.loop T iterations tid i).Counted iterations counter := by
  rcases loop_cases T iterations tid i with ⟨hlt, h⟩ | ⟨hge, h⟩
  · rw [h]
    exact ⟨hlt, hcounter⟩
  · rw [h]
    exact hcounter.trans (Nat.mul_le_mul_left 2 hi)

theorem noticed_loop {tid i : ℕ} {counter : T.Data} (hcounter : 0 < counter.toNat) :
    (Pc.loop T iterations tid i).Noticed tid counter :=
  .inr ⟨(loop_ok T (fetchOrAnd T) iterations tid i).2.2, hcounter⟩

theorem toNat_succ {counter : T.Data} (h : counter.toNat + 1 < 2 ^ 32) :
    (counter + 1).toNat = counter.toNat + 1 := by
  have hone : (1 : T.Data).toNat = 1 := by
    rcases T.bits_eq with hb | hb
    · exact Nat.mod_eq_of_lt (by rw [hb]; norm_num)
    · exact Nat.mod_eq_of_lt (by rw [hb]; norm_num)
  have hle : 2 ^ 32 ≤ 2 ^ T.bits := by
    rcases T.bits_eq with hb | hb
    · rw [hb]
    · rw [hb]; norm_num
  rw [BitVec.toNat_add, hone, Nat.mod_eq_of_lt (h.trans_le hle)]

/-- **A check** raises the counter by at most one, and raises it if it finds a mismatch. -/
theorem counter_of_check {t : Fin n} {m : Mem T n} (mismatch : Prop) [Decidable mismatch]
    (h : (m.oldValues t).toNat + 1 < 2 ^ 32) :
    ((if mismatch then increment m t else m).oldValues t).toNat ≤ (m.oldValues t).toNat + 1 ∧
      ((m.oldValues t).toNat ≤ ((if mismatch then increment m t else m).oldValues t).toNat) ∧
      (mismatch → 0 < ((if mismatch then increment m t else m).oldValues t).toNat) := by
  have hself : ((increment m t).oldValues t).toNat = (m.oldValues t).toNat + 1 := by
    rw [increment, setOldValue_self, toNat_succ h]
  by_cases hm : mismatch
  · rw [if_pos hm, hself]
    omega
  · rw [if_neg hm]
    exact ⟨Nat.le_succ _, le_rfl, fun h => absurd h hm⟩

/-- **Counting**: whatever the variables hold, a thread's step counts a mismatch once,
and what it has counted stays. -/
theorem counted_step {t : Fin n} (hiter : 2 * iterations < 2 ^ 31) {pc pc' : Pc T}
    {m m' : Mem T n} (hP : hostFunction test iterations t pc m = some (pc', m'))
    (hc : pc.Counted iterations (m.oldValues t)) :
    pc'.Counted iterations (m'.oldValues t) ∧
      (pc.Noticed t (m.oldValues t) → pc'.Noticed t (m'.oldValues t)) := by
  cases hostMove_of_step hP with
  | begin =>
    have hzero : ((m.setOldValue t 0).oldValues t).toNat = 0 := by
      rw [setOldValue_self]
      exact BitVec.toNat_zero
    refine ⟨counted_loop (Nat.zero_le _) hzero.le, ?_⟩
    rintro (⟨⟨⟩⟩ | ⟨hb, _⟩)
    exact absurd rfl hb
  | inSet | set | inClear | clear =>
    refine ⟨hc, ?_⟩
    rintro (⟨⟨⟩⟩ | ⟨_, hpos⟩)
    exact .inr ⟨nofun, hpos⟩
  | checkSet i value =>
    obtain ⟨hi, hle⟩ := hc
    obtain ⟨hup, hmono, hmis⟩ := counter_of_check (t := t) (m := m)
      (value &&& bitMask T t ≠ 0) (by omega)
    refine ⟨⟨hi, by omega⟩, ?_⟩
    rintro (hm | ⟨_, hpos⟩)
    · exact .inr ⟨nofun, hmis hm⟩
    · exact .inr ⟨nofun, hpos.trans_le hmono⟩
  | checkClear i value =>
    obtain ⟨hi, hle⟩ := hc
    obtain ⟨hup, hmono, hmis⟩ := counter_of_check (t := t) (m := m)
      (value &&& bitMask T t = 0) (by omega)
    refine ⟨counted_loop (by omega) (by omega), ?_⟩
    rintro (hm | ⟨_, hpos⟩)
    · exact noticed_loop (hmis hm)
    · exact noticed_loop (hpos.trans_le hmono)

/-- All counters are bounded, and thread `t` has noticed a mismatch. -/
def AllCounted (iterations : ℤ) (c : Conf (Fin n) (Mem T n) (Pc T)) : Prop :=
  ∀ u, (c.loc u).Counted iterations (c.mem.oldValues u)

theorem allCounted_step (hiter : 2 * iterations < 2 ^ 31)
    {c c' : Conf (Fin n) (Mem T n) (Pc T)} {t : Fin n} (hc : AllCounted iterations c)
    (hn : (test.runs iterations refValues).next c t = some c') :
    AllCounted iterations c' ∧ ∀ u, (c.loc u).Noticed u (c.mem.oldValues u) →
      (c'.loc u).Noticed u (c'.mem.oldValues u) := by
  obtain ⟨pc', m', hP, rfl⟩ := threads_next.mp hn
  obtain ⟨hcount, hnotice⟩ := counted_step hiter hP (hc t)
  constructor
  · intro u
    by_cases hu : u = t
    · subst hu
      simpa only [Function.update_self] using hcount
    · simpa only [Function.update_of_ne hu, hostFunction_frame hu hP] using hc u
  · intro u
    by_cases hu : u = t
    · subst hu
      simpa only [Function.update_self] using hnotice
    · simp only [Function.update_of_ne hu, hostFunction_frame hu hP]
      exact id

theorem allCounted (hiter : 2 * iterations < 2 ^ 31) {c : Conf (Fin n) (Mem T n) (Pc T)}
    (h : (test.faultyRuns iterations refValues).Reach System.anyStep c) :
    AllCounted iterations c := by
  refine h.invariant (fun c hinit u => ?_) fun c e c' hc _ hn => ?_
  · rw [hinit.2.2 u]
    trivial
  · exact System.withFaults_step changeDest (S := test.runs iterations refValues)
      (I := AllCounted iterations) (fun c t c' hc hn => (allCounted_step hiter hc hn).1)
      (fun c f hc => hc) hc hn

theorem noticed (hiter : 2 * iterations < 2 ^ 31) {c d : Conf (Fin n) (Mem T n) (Pc T)}
    (hc : AllCounted iterations c) {t : Fin n} (ht : (c.loc t).Noticed t (c.mem.oldValues t))
    (h : (test.faultyRuns iterations refValues).Path System.anyStep c d) :
    AllCounted iterations d ∧ (d.loc t).Noticed t (d.mem.oldValues t) := by
  refine h.invariant (I := fun c => AllCounted iterations c ∧
    (c.loc t).Noticed t (c.mem.oldValues t)) (fun c e c' hI _ hn => ?_) ⟨hc, ht⟩
  refine System.withFaults_step changeDest (S := test.runs iterations refValues)
    (I := fun c => AllCounted iterations c ∧ (c.loc t).Noticed t (c.mem.oldValues t))
    (fun c t' c' hI hn => ?_) (fun c f hI => hI) hI hn
  obtain ⟨hc', hnotice⟩ := allCounted_step hiter hI.1 hn
  exact ⟨hc', hnotice t hI.2⟩

theorem lt_of_toNat_pos {counter : T.Data} (hpos : 0 < counter.toNat)
    (hlt : counter.toNat < 2 ^ 31) : T.lt 0 counter = true := by
  have hle : 2 * 2 ^ 31 ≤ 2 ^ T.bits := by
    rcases T.bits_eq with hb | hb <;> rw [hb] <;> norm_num
  rw [HostType.lt_iff, HostType.key, HostType.key]
  split
  · rw [BitVec.toInt_eq_toNat_of_lt (x := counter) (by omega)]
    exact (BitVec.toInt_zero).trans_lt (Int.natCast_pos.mpr hpos)
  · rw [Int.ofNat_lt]
    exact (BitVec.toNat_zero).trans_lt hpos

theorem not_verifyRefs_of_mismatch (hiter : 2 * iterations < 2 ^ 31)
    {c d : Conf (Fin n) (Mem T n) (Pc T)}
    (hr : (test.faultyRuns iterations refValues).Reach System.anyStep c) {t : Fin n}
    (ht : (c.loc t).Mismatch t)
    (hp : (test.faultyRuns iterations refValues).Path System.anyStep c d)
    (hfin : ∀ u, d.loc u = .returned) : verifyRefs d.mem.oldValues = false := by
  obtain ⟨hcount, hnotice⟩ := noticed hiter (allCounted hiter hr) (.inl ht) hp
  have hbound := hcount t
  rw [hfin t] at hbound hnotice
  have hle : (d.mem.oldValues t).toNat ≤ 2 * iterations.toNat := hbound
  rcases hnotice with ⟨⟨⟩⟩ | ⟨_, hpos⟩
  have hlt : T.lt 0 (d.mem.oldValues t) = true := lt_of_toNat_pos hpos (by omega)
  rw [← Bool.not_eq_true, verifyRefs_iff]
  intro hall
  rw [hall t] at hlt
  cases hlt

/-! ### The tests as a whole -/

/-- What is to hold of a test with `n` threads. -/
structure BitTest.Ok (test : BitTest T) (n : ℕ) (iterations : ℤ) : Prop where
  /-- every thread works on a variable that exists -/
  index : ∀ t : Fin n, valueInd T t < numResults T n
  words : numResults T n = 1 + (n - 1) / T.bits
  /-- a thread's counter is 0, from the moment it has been set to 0 -/
  counter : ∀ (refValues : Fin n → T.Data) (c : Conf (Fin n) (Mem T n) (Pc T)),
    (test.runs iterations refValues).Reach System.anyStep c → ∀ t,
      (c.loc t = .begin → c.mem.oldValues t = refValues t) ∧
      (c.loc t ≠ .begin → c.mem.oldValues t = 0)
  /-- when all threads have finished, the variables hold 0, and the test passes -/
  final : ∀ (refValues : Fin n → T.Data) (c : Conf (Fin n) (Mem T n) (Pc T)),
    (test.runs iterations refValues).Reach System.anyStep c → (∀ t, c.loc t = .returned) →
      (∀ i, i < numResults T n → c.mem.destMemory i = 0 ∧ expectedValue T = 0) ∧
      verifyRefs c.mem.oldValues = true
  /-- on variables that change by themselves, the test fails if a thread has found its
  bit in the wrong state -/
  rejects : 2 * iterations < 2 ^ 31 → ∀ (refValues : Fin n → T.Data)
    (c d : Conf (Fin n) (Mem T n) (Pc T)) (t : Fin n),
    (test.faultyRuns iterations refValues).Reach System.anyStep c → (c.loc t).Mismatch t →
    (test.faultyRuns iterations refValues).Path System.anyStep c d →
    (∀ u, d.loc u = .returned) → verifyRefs d.mem.oldValues = false

theorem ok (test : BitTest T) (iterations : ℤ) (hpos : 1 ≤ n) (hlt : n < 2 ^ 32) :
    test.Ok n iterations where
  index := valueInd_lt hlt
  words := numResults_eq hpos hlt
  counter refValues c h t := by
    have hall := (isolated hlt h).2 t
    exact ⟨hall.before, hall.counter⟩
  final refValues c h hfin := by
    refine ⟨fun i hi => ⟨destMemory_of_returned hlt h hfin hi, rfl⟩, ?_⟩
    rw [verifyRefs_iff]
    intro t
    rw [((isolated hlt h).2 t).counter (by rw [hfin t]; exact nofun)]
    exact lt_zero_zero
  rejects hiter refValues c d t hr ht hp hfin := not_verifyRefs_of_mismatch hiter hr ht hp hfin

/-- **Both tests isolate the threads' bits**, for every number of threads and of
iterations. -/
theorem bitTests_ok (T : HostType) (n : ℕ) (iterations : ℤ) (hpos : 1 ≤ n) (hlt : n < 2 ^ 32) :
    (fetchOrAnd T).Ok n iterations ∧ (fetchXor2 T).Ok n iterations :=
  ⟨ok _ iterations hpos hlt, ok _ iterations hpos hlt⟩

/-- Thirty-three threads on two 32-bit variables. -/
theorem bitTests_ok_33 : (fetchOrAnd .int).Ok 33 5 ∧ (fetchXor2 .int).Ok 33 5 :=
  bitTests_ok .int 33 5 (by decide) (by decide)

end OpenCLCTS.C11Atomics.BitIsolation
