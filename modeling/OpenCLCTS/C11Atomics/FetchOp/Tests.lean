import OpenCLCTS.C11Atomics.FetchOp.Call
import OpenCLCTS.Lib.Updates

/-!
# The tests of the fetch operations

Each of the seven tests is a `FetchTest`: the operation, the variable that a thread
works on, the operands of its calls, and the functions with which the host decides
how many variables there are and what they should hold at the end.  `HostFunction`
is the same for all of them: a thread makes its calls one after the other and
stores the value that the first one returns into its entry of `oldValues`.

`cl_uint` and `size_t` are numbers below `2 ^ 32` and `2 ^ 64`; operations that can
leave the range are written with `%`.
-/

namespace OpenCLCTS.C11Atomics.FetchOps

open Interleaving

variable {T : HostType} {n : ℕ}

/-- A class `CBasicTestFetch…`. -/
structure FetchTest (T : HostType) where
  op : FetchOp
  /-- `StartValue` -/
  startValue : T.Data
  /-- `NumResults` -/
  numResults (threadCount : ℕ) : ℕ
  /-- the index into `destMemory` in `HostFunction` -/
  whichResult (tid : ℕ) : ℕ
  /-- the operands of the calls in `HostFunction`, where `oldValue` is `oldValues[tid]` -/
  operands (threadCount tid : ℕ) (oldValue : T.Data) : List T.Data
  /-- `ExpectedValue` -/
  expectedValue (threadCount : ℕ) (startRefValues : Fin threadCount → T.Data)
    (whichDestValue : ℕ) : T.Data

/-! ### The threads -/

/-- The variables, of which a thread sees a pointer to the first, and the entries
of the threads. -/
structure Mem (T : HostType) (n : ℕ) where
  destMemory : ℕ → T.Data
  oldValues : Fin n → T.Data

def Mem.setDest (m : Mem T n) (i : ℕ) (v : T.Data) : Mem T n :=
  { m with destMemory := Function.update m.destMemory i v }

def Mem.setOldValue (m : Mem T n) (tid : Fin n) (v : T.Data) : Mem T n :=
  { m with oldValues := Function.update m.oldValues tid v }

/-- Where a thread stands in `HostFunction`. -/
inductive Pc (T : HostType)
  | begin
  /-- in a call, with the operands of the calls after it -/
  | call (first : Bool) (current : Call T) (rest : List T.Data)
  /-- behind a call that has returned `value` -/
  | result (first : Bool) (value : T.Data) (rest : List T.Data)
  | returned

/-- The next call, if there is one. -/
def Pc.next (first : Bool) : List T.Data → Pc T
  | [] => .returned
  | c :: rest => .call first (.start c) rest

/-- `HostFunction`. -/
def hostFunction (test : FetchTest T) : Program (Fin n) (Mem T n) (Pc T) := fun tid pc m =>
  match pc with
  | .begin => some (.next true (test.operands n tid (m.oldValues tid)), m)
  | .call first call rest =>
    match call.step test.op (m.destMemory (test.whichResult tid)) with
    | (.inl call, a) => some (.call first call rest, m.setDest (test.whichResult tid) a)
    | (.inr value, a) => some (.result first value rest, m.setDest (test.whichResult tid) a)
  | .result first value rest =>
    some (.next false rest, if first then m.setOldValue tid value else m)
  | .returned => none

/-- All interleavings of the test, with all variables at the start value. -/
abbrev FetchTest.runs (test : FetchTest T) (startRefValues : Fin n → T.Data) :
    System (Conf (Fin n) (Mem T n) (Pc T)) (Fin n) :=
  threads (hostFunction test) fun c =>
    c.mem.oldValues = startRefValues ∧
      (∀ i, i < test.numResults n → c.mem.destMemory i = test.startValue) ∧
      ∀ t, c.loc t = .begin

/-! ### The seven classes -/

/-- A difference of two `size_t`. -/
def sizeSub (a b : ℕ) : ℕ := (a + 2 ^ 64 - b) % 2 ^ 64

/-- `(HostDataType)tid + 3`. -/
def operand3 (T : HostType) (tid : ℕ) : T.Data := ofUint tid + 3

/-- `(sizeof(HostDataType) - 1) * 8`. -/
def topByte (T : HostType) : ℕ := (T.sizeof - 1) * 8

/-- `CBasicTestFetchAdd`. -/
def fetchAdd (T : HostType) : FetchTest T where
  op := .add
  startValue := 255
  numResults _ := 1
  whichResult _ := 0
  operands _ tid _ :=
    [operand3 T tid, operand3 T tid, operand3 T tid, operand3 T tid <<< topByte T]
  expectedValue threadCount _ _ := (List.range threadCount).foldl
    (fun expected i => expected + (operand3 T i * 3 + operand3 T i <<< topByte T)) 255

/-- `CBasicTestFetchSub`. -/
def fetchSub (T : HostType) : FetchTest T where
  op := .sub
  startValue := 255
  numResults _ := 1
  whichResult _ := 0
  operands _ tid _ := [operand3 T tid + operand3 T tid <<< topByte T]
  expectedValue threadCount _ _ := (List.range threadCount).foldl
    (fun expected i => expected - (operand3 T i + operand3 T i <<< topByte T)) 255

/-- `numValues` in `ExpectedValue` of the tests that give each thread a bit. -/
def numValues (T : HostType) (threadCount : ℕ) : ℕ :=
  (threadCount + (T.sizeof * 8 - 1)) / (T.sizeof * 8) % 2 ^ 32

/-- `CBasicTestFetchOr`. -/
def fetchOr (T : HostType) : FetchTest T where
  op := .or
  startValue := 0
  numResults threadCount := (threadCount + T.bits - 1) % 2 ^ 32 / T.bits
  whichResult tid := tid / (T.sizeof * 8)
  operands _ tid _ := [bit T (tid - tid / (T.sizeof * 8) * (T.sizeof * 8))]
  expectedValue threadCount _ whichDestValue :=
    if whichDestValue < (numValues T threadCount + 2 ^ 32 - 1) % 2 ^ 32 then ~~~0
    else
      let numBits := sizeSub threadCount (whichDestValue * (T.sizeof * 8)) % 2 ^ 32
      (List.range numBits).foldl (fun expected i => expected ||| bit T i) 0

/-- `bitIndex` in `HostFunction` and `ExpectedValue` of `CBasicTestFetchXor`. -/
def xorBitIndex (T : HostType) (threadCount tid : ℕ) : ℕ :=
  (T.sizeof * 8 - 1) * (tid + 1) % 2 ^ 32 / threadCount

/-- `CBasicTestFetchXor`. -/
def fetchXor (T : HostType) : FetchTest T where
  op := .xor
  startValue := BitVec.ofNat T.bits 0x2f08ab418ba0541
  numResults _ := 1
  whichResult _ := 0
  operands threadCount tid _ := [bit T (xorBitIndex T threadCount tid)]
  expectedValue threadCount _ _ := (List.range threadCount).foldl
    (fun expected i => expected ^^^ bit T (xorBitIndex T threadCount i))
    (BitVec.ofNat T.bits 0x2f08ab418ba0541)

/-- `CBasicTestFetchAnd`. -/
def fetchAnd (T : HostType) : FetchTest T where
  op := .and
  startValue := ~~~0
  numResults threadCount := (threadCount + T.bits - 1) % 2 ^ 32 / T.bits
  whichResult tid := tid / (T.sizeof * 8)
  operands _ tid _ := [~~~bit T (tid - tid / (T.sizeof * 8) * (T.sizeof * 8))]
  expectedValue threadCount _ whichDestValue :=
    if whichDestValue < (numValues T threadCount + 2 ^ 32 - 1) % 2 ^ 32 then 0
    else
      let numBits := sizeSub threadCount (whichDestValue * (T.sizeof * 8))
      (List.range numBits).foldl (fun expected i => expected &&& ~~~bit T i) (~~~0)

/-- `CBasicTestFetchMin`. -/
def fetchMin (T : HostType) : FetchTest T where
  op := .min
  startValue := T.maxValue
  numResults _ := 1
  whichResult _ := 0
  operands _ _ oldValue := [oldValue]
  expectedValue threadCount startRefValues _ := (List.finRange threadCount).foldl
    (fun expected i => if T.lt (startRefValues i) expected then startRefValues i else expected)
    T.maxValue

/-- `CBasicTestFetchMax`. -/
def fetchMax (T : HostType) : FetchTest T where
  op := .max
  startValue := T.minValue
  numResults _ := 1
  whichResult _ := 0
  operands _ _ oldValue := [oldValue]
  expectedValue threadCount startRefValues _ := (List.finRange threadCount).foldl
    (fun expected i => if T.lt expected (startRefValues i) then startRefValues i else expected)
    T.minValue

/-- The test of an operation. -/
def fetchTest (T : HostType) : FetchOp → FetchTest T
  | .add => fetchAdd T
  | .sub => fetchSub T
  | .or => fetchOr T
  | .xor => fetchXor T
  | .and => fetchAnd T
  | .min => fetchMin T
  | .max => fetchMax T

/-! ### Every run does all updates -/

variable {test : FetchTest T} {startRefValues : Fin n → T.Data}

/-- What the calls make of the variables, one after the other and thread by thread. -/
def FetchTest.sequential (test : FetchTest T) (startRefValues : Fin n → T.Data) (i : ℕ) : T.Data :=
  (List.finRange n).foldl
    (fun a (t : Fin n) => if test.whichResult t = i then
      (test.operands n t (startRefValues t)).foldl (test.op.apply T) a else a)
    test.startValue

/-- The operand of the call that a thread is in. -/
def Pc.operand : Pc T → Option T.Data
  | .call _ current _ => some current.operand
  | _ => none

/-- The value that a thread's call has just returned. -/
def Pc.value : Pc T → Option T.Data
  | .result _ value _ => some value
  | _ => none

/-- The operands of the calls that a thread has not completed. -/
def Pc.remaining (test : FetchTest T) (n tid : ℕ) (oldValue : T.Data) : Pc T → List T.Data
  | .begin => test.operands n tid oldValue
  | .call _ current rest => current.operand :: rest
  | .result _ _ rest => rest
  | .returned => []

theorem next_remaining (first : Bool) (l : List T.Data) (tid : ℕ) (oldValue : T.Data) :
    (Pc.next first l).remaining test n tid oldValue = l := by
  cases l <;> rfl

theorem next_value (first : Bool) (l : List T.Data) : (Pc.next first l).value = none := by
  cases l <;> rfl

theorem setDest_self (m : Mem T n) (i : ℕ) : m.setDest i (m.destMemory i) = m := by
  rw [Mem.setDest, Function.update_eq_self]

theorem setOldValue_self (m : Mem T n) (t : Fin n) (v : T.Data) :
    (m.setOldValue t v).oldValues t = v := Function.update_self ..

theorem setOldValue_of_ne {m : Mem T n} {t u : Fin n} (hu : u ≠ t) (v : T.Data) :
    (m.setOldValue t v).oldValues u = m.oldValues u := Function.update_of_ne hu ..

/-- A step completes no call and leaves the variables alone, or it completes one,
updates the thread's variable and returns the value it had. -/
theorem hostFunction_cases {t : Fin n} {pc pc' : Pc T} {m m' : Mem T n}
    (hP : hostFunction test t pc m = some (pc', m')) :
    (m'.destMemory = m.destMemory ∧ pc'.value = none ∧
        pc'.remaining test n t (m'.oldValues t) = pc.remaining test n t (m.oldValues t)) ∨
      ∃ c, pc.operand = some c ∧
        m' = m.setDest (test.whichResult t)
          (test.op.apply T (m.destMemory (test.whichResult t)) c) ∧
        pc'.value = some (m.destMemory (test.whichResult t)) ∧
        pc.remaining test n t (m.oldValues t) = c :: pc'.remaining test n t (m'.oldValues t) := by
  cases pc with
  | begin =>
    cases hP
    exact .inl ⟨rfl, next_value .., next_remaining ..⟩
  | call first call rest =>
    simp only [hostFunction] at hP
    rcases call.step_cases test.op (m.destMemory (test.whichResult t)) with ⟨call', hc, h⟩ | h
    · rw [h] at hP
      cases hP
      rw [setDest_self]
      exact .inl ⟨rfl, rfl, congrArg (· :: rest) hc⟩
    · rw [h] at hP
      cases hP
      exact .inr ⟨call.operand, rfl, rfl, rfl, rfl⟩
  | result first value rest =>
    cases hP
    refine .inl ⟨?_, next_value .., next_remaining ..⟩
    split <;> rfl
  | returned => cases hP

theorem hostFunction_frame {t u : Fin n} (hu : u ≠ t) {pc pc' : Pc T} {m m' : Mem T n}
    (hP : hostFunction test t pc m = some (pc', m')) : m'.oldValues u = m.oldValues u := by
  cases pc with
  | begin => cases hP; rfl
  | call first call rest =>
    simp only [hostFunction] at hP
    rcases call.step_cases test.op (m.destMemory (test.whichResult t)) with ⟨call', _, h⟩ | h
    · rw [h] at hP
      cases hP
      rfl
    · rw [h] at hP
      cases hP
      rfl
  | result first value rest =>
    cases hP
    cases first
    · rfl
    · exact setOldValue_of_ne hu _
  | returned => cases hP

/-- The updates of variable `i` that thread `t` has not done yet. -/
def remainingAt (test : FetchTest T) (i : ℕ) (t : Fin n) (pc : Pc T) (m : Mem T n) :
    Multiset T.Data :=
  if test.whichResult t = i then ↑(pc.remaining test n t (m.oldValues t)) else 0

/-- **What remains to be done always leads to the sequential result.** -/
theorem remaining_updates {c : Conf (Fin n) (Mem T n) (Pc T)}
    (h : (test.runs startRefValues).Reach System.anyStep c) {i : ℕ} (hi : i < test.numResults n) :
    (∑ t, remainingAt test i t (c.loc t) c.mem).foldl (test.op.apply T) (c.mem.destMemory i)
      = test.sequential startRefValues i := by
  refine threads_updates (test.op.apply T) (fun m => m.destMemory i) (remainingAt test i)
    (J := fun _ => True) (fun _ _ => trivial) ?_ ?_ ?_ h
  · rintro c ⟨hold, hdest, hloc⟩
    rw [hdest i hi, foldl_sum_finRange, FetchTest.sequential]
    refine congrFun (congrFun (congrArg _ ?_) _) _
    funext a t
    rw [remainingAt, hloc t, hold]
    split
    · rfl
    · rfl
  · rintro c t pc' m' _ hP
    rcases hostFunction_cases hP with ⟨hdest, _, hrest⟩ | ⟨v, _, hm, _, hrest⟩
    · refine .inl ⟨congrFun hdest i, ?_⟩
      rw [remainingAt, remainingAt, hrest]
    · by_cases hw : test.whichResult t = i
      · refine .inr ⟨v, ?_, ?_⟩
        · rw [remainingAt, remainingAt, if_pos hw, if_pos hw, hrest]
          rfl
        · rw [hm, hw]
          exact Function.update_self ..
      · refine .inl ⟨?_, ?_⟩
        · rw [hm]
          exact Function.update_of_ne (Ne.symm hw) ..
        · rw [remainingAt, remainingAt, if_neg hw, if_neg hw]
  · rintro c t u pc' m' hu _ hP
    rw [remainingAt, remainingAt, hostFunction_frame hu hP]

/-- **Every interleaving leaves what the calls make of the variables one after the
other.** -/
theorem destMemory_of_returned {c : Conf (Fin n) (Mem T n) (Pc T)}
    (h : (test.runs startRefValues).Reach System.anyStep c) (hfin : ∀ t, c.loc t = .returned)
    {i : ℕ} (hi : i < test.numResults n) :
    c.mem.destMemory i = test.sequential startRefValues i := by
  have hnone : ∑ t, remainingAt test i t (c.loc t) c.mem = 0 := by
    apply Finset.sum_eq_zero
    intro t _
    rw [remainingAt, hfin t]
    split <;> rfl
  have hrem := remaining_updates h hi
  rwa [hnone] at hrem

end OpenCLCTS.C11Atomics.FetchOps
