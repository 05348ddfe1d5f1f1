import Mathlib.Data.Fin.Rev
import Mathlib.Data.List.FinRange
import OpenCLCTS.C11Atomics.HostAtomics
import OpenCLCTS.Lib.Threads

/-!
# The fence test

`CBasicTestFence`: thread `t` works on the counter `destMemory[t]` and watches the
counters of others.  With `memory_order_seq_cst` the threads `t` and `n - 1 - t`
count up side by side until one of them reads another value than its own; with the
other orders each thread publishes 255 array entries, and looks at what the threads
after its partner have published.

Each access to a shared variable is one step.  The counters and the array hold
small non-negative numbers: no counter passes `limit`, or the number of entries of
a thread.  Local memory is not used by host threads, so there is one work group.
-/

namespace OpenCLCTS.C11Atomics.Fence

open Interleaving

/-- The counter value at which both threads of a pair stop. -/
def limit : ℕ := 500000

/-- The number of entries of `oldValues` that belong to one thread. -/
def numNonAtomicVariablesPerThread (memoryOrder : MemoryOrder) : ℕ :=
  if memoryOrder = .seqCst then 1 else 256

/-- The shared variables of `n` threads; `oldValues` is one flat array. -/
structure Mem (n : ℕ) where
  destMemory : Fin n → ℕ
  oldValues : ℕ → ℕ

variable {n : ℕ}

def Mem.store (m : Mem n) (i : Fin n) (c : ℕ) : Mem n :=
  { m with destMemory := Function.update m.destMemory i (hostAtomicStore (m.destMemory i) c) }

def Mem.load (m : Mem n) (i : Fin n) : ℕ := hostAtomicLoad (m.destMemory i)

def Mem.setOldValue (m : Mem n) (i v : ℕ) : Mem n :=
  { m with oldValues := Function.update m.oldValues i v }

/-- `StartValue` and `GenerateRefs`: all variables are zero. -/
def Mem.start (n : ℕ) : Mem n := ⟨fun _ => 0, fun _ => 0⟩

/-! ### Sequentially consistent fences -/

/-- The accesses of `HostFunction` with `memory_order_seq_cst`: each constructor
stands before one of them. -/
inductive SeqCstPc
  /-- the store of 1 -/
  | announce
  /-- the load in the loop that waits for the other thread -/
  | wait
  | store
  | load
  /-- `oldValues[tid] = hisValue` -/
  | record
  | returned
  deriving DecidableEq

structure SeqCst where
  pc : SeqCstPc
  myValue : ℕ
  hisValue : ℕ

/-- `HostFunction` of thread `tid` with `memory_order_seq_cst`. -/
def hostFunctionSeqCst : Program (Fin n) (Mem n) SeqCst := fun tid l m =>
  let hisId := tid.rev
  match l.pc with
  | .announce => some ({ l with pc := .wait }, m.store tid l.myValue)
  | .wait =>
    if m.load hisId = 0 then some (l, m)
    else some ({ l with pc := .store, myValue := l.myValue + 1 }, m)
  | .store => some ({ l with pc := .load }, m.store tid l.myValue)
  | .load =>
    let hisValue := m.load hisId
    if l.myValue = hisValue ∧ hisValue < limit then
      some ({ pc := .store, myValue := l.myValue + 1, hisValue := hisValue }, m)
    else some ({ l with pc := .record, hisValue := hisValue }, m)
  | .record => some ({ l with pc := .returned }, m.setOldValue tid l.hisValue)
  | .returned => none

/-- The threads before their first step, `myValue` already counted up. -/
def SeqCstStart (c : Conf (Fin n) (Mem n) SeqCst) : Prop :=
  c.mem = Mem.start n ∧ ∀ t, (c.loc t).pc = .announce ∧ (c.loc t).myValue = 1

/-- The test with `memory_order_seq_cst`. -/
abbrev seqCst (n : ℕ) : System (Conf (Fin n) (Mem n) SeqCst) (Fin n) :=
  threads hostFunctionSeqCst SeqCstStart

/-! ### Release and acquire -/

/-- The accesses of `HostFunction` with the other memory orders. -/
inductive RelAcqPc
  /-- `oldValues[myId * N + myValue] = myValue` -/
  | storeNonAtomic
  | storeAtomic
  | loadAtomic
  /-- the read of `oldValues[hisId * N + hisAtomicValue]` -/
  | loadNonAtomic
  /-- the store that reports a failure -/
  | fail
  | returned
  deriving DecidableEq

structure RelAcq (n : ℕ) where
  pc : RelAcqPc
  hisId : Fin n
  myValue : ℕ
  hisAtomicValue : ℕ
  hisValue : ℕ

/-- `(hisId + 1) % threadCount`. -/
def nextId (hisId : Fin n) : Fin n := ⟨(hisId + 1) % n, Nat.mod_lt _ hisId.pos⟩

/-- The place of entry `v` of thread `t` in `oldValues`. -/
def index (memoryOrder : MemoryOrder) (t : Fin n) (v : ℕ) : ℕ :=
  t * numNonAtomicVariablesPerThread memoryOrder + v

/-- `HostFunction` of thread `tid` with another memory order. -/
def hostFunctionRelAcq (memoryOrder : MemoryOrder) : Program (Fin n) (Mem n) (RelAcq n) :=
  fun tid l m =>
  match l.pc with
  | .storeNonAtomic =>
    some ({ l with pc := .storeAtomic },
      m.setOldValue (index memoryOrder tid l.myValue) l.myValue)
  | .storeAtomic => some ({ l with pc := .loadAtomic }, m.store tid l.myValue)
  | .loadAtomic =>
    some ({ l with pc := .loadNonAtomic, hisAtomicValue := m.load l.hisId }, m)
  | .loadNonAtomic =>
    let hisValue := m.oldValues (index memoryOrder l.hisId l.hisAtomicValue)
    let l := { l with hisValue := hisValue, hisId := nextId l.hisId }
    if l.hisAtomicValue = hisValue ∧
        l.myValue < numNonAtomicVariablesPerThread memoryOrder - 1 then
      some ({ l with pc := .storeNonAtomic, myValue := l.myValue + 1 }, m)
    else if l.hisAtomicValue ≠ hisValue then some ({ l with pc := .fail }, m)
    else some ({ l with pc := .returned }, m)
  | .fail => some ({ l with pc := .returned }, m.store tid (l.myValue - 1))
  | .returned => none

def RelAcqStart (c : Conf (Fin n) (Mem n) (RelAcq n)) : Prop :=
  c.mem = Mem.start n ∧
    ∀ t, (c.loc t).pc = .storeNonAtomic ∧ (c.loc t).myValue = 1 ∧ (c.loc t).hisId = t.rev

/-- The test with a memory order that is not `memory_order_seq_cst`. -/
abbrev relAcq (memoryOrder : MemoryOrder) (n : ℕ) :
    System (Conf (Fin n) (Mem n) (RelAcq n)) (Fin n) :=
  threads (hostFunctionRelAcq memoryOrder) RelAcqStart

/-! ### The verifier -/

/-- The body of the loop of `VerifyRefs`: whether it goes on after thread `i`. -/
def verifyThread (memoryOrder : MemoryOrder) (refValues : ℕ → ℕ) (finalValues : Fin n → ℕ)
    (i : Fin n) : Bool :=
  let myValue := finalValues i
  if memoryOrder = .seqCst then
    let hisValue := refValues i
    if myValue = hisValue then
      -- a draw: both threads should reach the limit
      decide (myValue = 500000)
    else
      let hisRealValue := finalValues i.rev
      let myValueReadByHim := refValues i.rev
      if myValue = hisRealValue then
        -- forbidden result: the fence does not work
        false
      else if myValue > hisRealValue then
        -- slower: must know the last value of the other
        decide (hisRealValue = hisValue)
      else decide (myValueReadByHim = myValue)
  else decide (myValue = numNonAtomicVariablesPerThread memoryOrder - 1)

/-- `VerifyRefs`, which sets `correct` to false at the first thread that fails. -/
def verifyRefs (memoryOrder : MemoryOrder) (refValues : ℕ → ℕ) (finalValues : Fin n → ℕ) : Bool :=
  (List.finRange n).all (verifyThread memoryOrder refValues finalValues)

theorem verifyRefs_eq_true {memoryOrder : MemoryOrder} {refValues : ℕ → ℕ}
    {finalValues : Fin n → ℕ} :
    verifyRefs memoryOrder refValues finalValues = true ↔
      ∀ i, verifyThread memoryOrder refValues finalValues i = true := by
  rw [verifyRefs, List.all_eq_true]
  exact ⟨fun h i => h i (List.mem_finRange i), fun h i _ => h i⟩

/-! ### Reading and writing the shared variables -/

@[simp] theorem load_eq (m : Mem n) (i : Fin n) : m.load i = m.destMemory i := rfl

@[simp] theorem store_oldValues (m : Mem n) (i : Fin n) (c : ℕ) :
    (m.store i c).oldValues = m.oldValues := rfl

@[simp] theorem setOldValue_destMemory (m : Mem n) (i v : ℕ) :
    (m.setOldValue i v).destMemory = m.destMemory := rfl

theorem store_destMemory_self (m : Mem n) (i : Fin n) (c : ℕ) :
    (m.store i c).destMemory i = c := Function.update_self ..

theorem store_destMemory_of_ne {m : Mem n} {i j : Fin n} (h : j ≠ i) (c : ℕ) :
    (m.store i c).destMemory j = m.destMemory j := Function.update_of_ne h ..

theorem setOldValue_oldValues_self (m : Mem n) (i v : ℕ) :
    (m.setOldValue i v).oldValues i = v := Function.update_self ..

theorem setOldValue_oldValues_of_ne {m : Mem n} {i j : ℕ} (h : j ≠ i) (v : ℕ) :
    (m.setOldValue i v).oldValues j = m.oldValues j := Function.update_of_ne h ..

end OpenCLCTS.C11Atomics.Fence
