import Mathlib.Algebra.Order.Ring.Int
import Mathlib.Logic.Function.Basic
import OpenCLCTS.Lib.System

/-!
# The thread pool

`ThreadPool.cpp` on a POSIX platform, as one transition system.  The parties are
the workers, which run `ThreadPool_WorkerFunc`, and the caller, which runs
`ThreadPool_Init` once and then any number of `ThreadPool_Do` calls.  A program
counter stands before each operation on shared state; what a thread does with
its own variables between two such operations is part of the earlier one.

* A mutex is the thread that holds it, or `none`.
* `pthread_cond_wait` is two steps: `wait` releases the mutex and marks the
  thread as blocked on the condition variable, `inWait` returns once the mark is
  gone and the mutex is free.  A broadcast removes the marks of all blocked
  threads; a spurious wake-up removes one mark with no broadcast.
* The job function is a parameter of the call.  Whatever value it returns is the
  choice of an event, so every job function is covered, one with its own state
  included.
* `handed` and `results` record what the job function was called with and what
  it returned since the current call began.  No step reads them.

Workers are named by the `threadID` they draw, and the `pthread_*` calls that
return an error code only for an invalid object return `0`.  Out of scope are
`ThreadPool_Exit` and the choice of a thread count by `ThreadPool_Init`.
-/

namespace OpenCLCTS.ThreadPool

/-- `MAX_COUNT`. -/
def maxCount : Int := 2 ^ 29

/-- `CL_INT_MIN` and `CL_INT_MAX`. -/
def clIntMin : Int := -2 ^ 31
def clIntMax : Int := 2 ^ 31 - 1

/-- `x--` on a `std::atomic<cl_int>`, which wraps. -/
def decr (x : Int) : Int := if x = clIntMin then clIntMax else x - 1

/-- Where a worker stands in `ThreadPool_WorkerFunc`. -/
inductive WorkerPc
  /-- not launched yet -/
  | notStarted
  /-- before `item = gRunCount--`, at the start and at the end of the loop -/
  | fetch
  /-- no work to do: before `pthread_mutex_lock(&cond_lock)` -/
  | lockCond
  /-- before `remaining = gRunning--` -/
  | decRunning
  /-- last thread out: before `pthread_mutex_lock(&caller_cond_lock)` -/
  | lockCaller
  | broadcastCaller
  | unlockCaller
  /-- before `pthread_cond_wait(&cond_var, &cond_lock)` -/
  | wait
  | inWait
  /-- woken up: before `item = gRunCount--` under `cond_lock` -/
  | refetch
  | unlockExit
  /-- a valid item: before `gRunning++` -/
  | incRunning (item : Int)
  | unlockCond (item : Int)
  /-- before `CL_SUCCESS == jobError` -/
  | checkError (item : Int)
  /-- before the call of the job function -/
  | callJob (item : Int)
  | inJob (item : Int)
  /-- the job failed: before the compare-and-swap on `jobError` -/
  | casError (err : Int)
  /-- before `gRunCount = 0` -/
  | dropRunCount
  /-- before `gThreadCount--` -/
  | exit
  | exited
  deriving DecidableEq, Repr

/-- Where the caller stands in `ThreadPool_Init` and `ThreadPool_Do`. -/
inductive CallerPc
  /-- `ThreadPool_Init` has not run -/
  | uninit
  | initLock
  /-- before `gRunning = gThreadCount` -/
  | initRunning
  /-- before `i < gThreadCount` -/
  | initTest (i : Nat)
  /-- before `pthread_create` number `i` -/
  | initCreate (i : Nat)
  /-- before `threadPoolInitErr = err` -/
  | initErr (i : Nat) (err : Int)
  /-- before `gThreadCount = i` -/
  | initCount (i : Nat)
  | initWait
  | initInWait
  /-- before the two loads of `gRunCount != -gThreadCount` -/
  | initLoad
  | initCompare (runCount : Int)
  | initUnlock
  /-- before `threadPoolInitErr = CL_SUCCESS` -/
  | initSuccess
  /-- outside `ThreadPool_Do`, with the result of the last call -/
  | out (result : Option Int)
  /-- the single threaded loop: before the test `currentJob < count` -/
  | single (currentJob : Nat)
  | singleJob (currentJob : Nat)
  | lockPool
  | lockCond
  | lockCaller
  /-- before `jobError = CL_SUCCESS` -/
  | clearError
  | setJobCount
  | setRunCount
  | setFunc
  | setUserInfo
  | broadcast
  | unlockCond
  /-- before `pthread_cond_wait(&caller_cond_var, &caller_cond_lock)` -/
  | wait
  | inWait
  /-- before `while (gRunning)` -/
  | test
  | unlockCaller
  /-- before `err = jobError` -/
  | readError
  | unlockPool (err : Int)
  deriving DecidableEq, Repr

/-- The owner of a mutex. -/
inductive Thread (N : ℕ)
  | caller
  | worker (i : Fin N)
  deriving DecidableEq, Repr

/-- The arguments of a `ThreadPool_Do` call. -/
structure Call (F U : Type) where
  func : F
  count : ℕ
  userInfo : U
  deriving DecidableEq, Repr

/-- One call of a job function. -/
structure Job (F U : Type) where
  func : F
  userInfo : U
  index : Int
  deriving DecidableEq, Repr

/-- The shared variables, the two condition variables, the threads, and the
record of the current call. -/
structure State (N : ℕ) (F U : Type) where
  gRunCount : Int
  gRunning : Int
  gThreadCount : Int
  gJobCount : Int
  gFuncPtr : Option F
  gUserInfo : Option U
  jobError : Int
  threadPoolInitErr : Int
  gThreadPoolLock : Option (Thread N)
  condLock : Option (Thread N)
  callerCondLock : Option (Thread N)
  /-- the workers blocked on `cond_var` -/
  condVar : Fin N → Bool
  /-- the caller is blocked on `caller_cond_var` -/
  callerCondVar : Bool
  worker : Fin N → WorkerPc
  caller : CallerPc
  call : Option (Call F U)
  handed : List (Job F U)
  results : List Int

/-- What happens next, and what its outcome is where it has several. -/
inductive Event (N : ℕ) (F U : Type)
  /-- `ThreadPool_Init` is entered -/
  | init
  /-- `ThreadPool_Do(func, count, userInfo)` is called -/
  | call (func : F) (count : ℕ) (userInfo : U)
  /-- the caller executes its next operation -/
  | caller
  /-- `pthread_create` returns `err` -/
  | create (err : Int)
  /-- the job function returns `err` to the single threaded loop -/
  | callerJob (err : Int)
  /-- the caller's `pthread_cond_wait` is woken up spuriously -/
  | callerSpurious
  /-- worker `i` executes its next operation -/
  | worker (i : Fin N)
  /-- the job function returns `err` to worker `i` -/
  | job (i : Fin N) (err : Int)
  /-- the `pthread_cond_wait` of worker `i` is woken up spuriously -/
  | spurious (i : Fin N)
  deriving DecidableEq, Repr

variable {N : ℕ} {F U : Type}

/-- Worker `i` moves on to `pc`. -/
def State.goto (s : State N F U) (i : Fin N) (pc : WorkerPc) : State N F U :=
  { s with worker := Function.update s.worker i pc }

/-- The loop test and `0 >= item`, after a fetch outside `cond_lock`. -/
def afterFetch (item : Int) : WorkerPc :=
  if maxCount ≤ item then .exit else if item ≤ 0 then .lockCond else .checkError item

/-- The two tests on a fetch under `cond_lock`. -/
def afterRefetch (item : Int) : WorkerPc :=
  if maxCount ≤ item then .unlockExit else if item ≤ 0 then .wait else .incRunning item

/-- `ThreadPool_WorkerFunc`: the next operation of worker `i`. -/
def threadPoolWorkerFunc (s : State N F U) (i : Fin N) : Option (State N F U) :=
  match s.worker i with
  | .notStarted | .inJob _ | .exited => none
  | .fetch => some ({ s with gRunCount := decr s.gRunCount }.goto i (afterFetch s.gRunCount))
  | .lockCond =>
    if s.condLock = none then some ({ s with condLock := some (.worker i) }.goto i .decRunning)
    else none
  | .decRunning =>
    some ({ s with gRunning := s.gRunning - 1 }.goto i
      (if s.gRunning = 1 then .lockCaller else .wait))
  | .lockCaller =>
    if s.callerCondLock = none then
      some ({ s with callerCondLock := some (.worker i) }.goto i .broadcastCaller)
    else none
  | .broadcastCaller => some ({ s with callerCondVar := false }.goto i .unlockCaller)
  | .unlockCaller => some ({ s with callerCondLock := none }.goto i .wait)
  | .wait =>
    some ({ s with condLock := none, condVar := Function.update s.condVar i true }.goto i .inWait)
  | .inWait =>
    if s.condVar i = false ∧ s.condLock = none then
      some ({ s with condLock := some (.worker i) }.goto i .refetch)
    else none
  | .refetch => some ({ s with gRunCount := decr s.gRunCount }.goto i (afterRefetch s.gRunCount))
  | .unlockExit => some ({ s with condLock := none }.goto i .exit)
  | .incRunning item => some ({ s with gRunning := s.gRunning + 1 }.goto i (.unlockCond item))
  | .unlockCond item => some ({ s with condLock := none }.goto i (.checkError item))
  | .checkError item => some (s.goto i (if s.jobError = 0 then .callJob item else .fetch))
  | .callJob item =>
    match s.gFuncPtr, s.gUserInfo with
    | some f, some u =>
      some ({ s with handed := s.handed ++ [(⟨f, u, item - 1⟩ : Job F U)] }.goto i (.inJob item))
    | _, _ => none
  | .casError err =>
    some ({ s with jobError := if s.jobError = 0 then err else s.jobError }.goto i .dropRunCount)
  | .dropRunCount => some ({ s with gRunCount := 0 }.goto i .fetch)
  | .exit => some ({ s with gThreadCount := s.gThreadCount - 1 }.goto i .exited)

/-- The job function returns `err` to worker `i`, which tests it. -/
def jobReturn (s : State N F U) (i : Fin N) (err : Int) : Option (State N F U) :=
  match s.worker i with
  | .inJob _ =>
    some ({ s with results := s.results ++ [err] }.goto i
      (if err ≠ 0 then .casError err else .fetch))
  | _ => none

/-- `ThreadPool_Init`: the next operation of the caller. -/
def threadPoolInit (s : State N F U) : Option (State N F U) :=
  match s.caller with
  | .initLock =>
    if s.callerCondLock = none then
      some { s with callerCondLock := some .caller, caller := .initRunning }
    else none
  | .initRunning => some { s with gRunning := s.gThreadCount, caller := .initTest 0 }
  | .initTest i =>
    some { s with caller := if (i : Int) < s.gThreadCount then .initCreate i else .initWait }
  | .initErr i err => some { s with threadPoolInitErr := err, caller := .initCount i }
  | .initCount i => some { s with gThreadCount := i, caller := .initWait }
  | .initWait =>
    some { s with callerCondLock := none, callerCondVar := true, caller := .initInWait }
  | .initInWait =>
    if s.callerCondVar = false ∧ s.callerCondLock = none then
      some { s with callerCondLock := some .caller, caller := .initLoad }
    else none
  | .initLoad => some { s with caller := .initCompare s.gRunCount }
  | .initCompare runCount =>
    some { s with caller := if runCount ≠ -s.gThreadCount then .initWait else .initUnlock }
  | .initUnlock => some { s with callerCondLock := none, caller := .initSuccess }
  | .initSuccess => some { s with threadPoolInitErr := 0, caller := .out none }
  | _ => none

/-- `pthread_create` number `i` of `ThreadPool_Init` returns `err`. -/
def createReturn (s : State N F U) (err : Int) : Option (State N F U) :=
  match s.caller with
  | .initCreate i =>
    if err ≠ 0 then some { s with caller := .initErr i err }
    else if h : i < N then some { s.goto ⟨i, h⟩ .fetch with caller := .initTest (i + 1) }
    else none
  | _ => none

/-- `ThreadPool_Do` is entered: the tests before the critical region. -/
def enterDo (s : State N F U) (c : Call F U) : Option (State N F U) :=
  match s.caller with
  | .out _ =>
    some { s with
      call := some c
      handed := []
      results := []
      caller := if s.threadPoolInitErr ≠ 0 then .single 0
        else if maxCount ≤ c.count then .out (some (-1)) else .lockPool }
  | _ => none

/-- `ThreadPool_Do`: the next operation of the caller. -/
def threadPoolDo (s : State N F U) : Option (State N F U) :=
  match s.caller with
  | .single job => s.call.map fun c =>
    if job < c.count then
      { s with
        handed := s.handed ++ [(⟨c.func, c.userInfo, job⟩ : Job F U)]
        caller := .singleJob job }
    else { s with caller := .out (some 0) }
  | .lockPool =>
    if s.gThreadPoolLock = none then
      some { s with gThreadPoolLock := some .caller, caller := .lockCond }
    else none
  | .lockCond =>
    if s.condLock = none then some { s with condLock := some .caller, caller := .lockCaller }
    else none
  | .lockCaller =>
    if s.callerCondLock = none then
      some { s with callerCondLock := some .caller, caller := .clearError }
    else none
  | .clearError => some { s with jobError := 0, caller := .setJobCount }
  | .setJobCount => s.call.map fun c => { s with gJobCount := c.count, caller := .setRunCount }
  | .setRunCount => some { s with gRunCount := s.gJobCount, caller := .setFunc }
  | .setFunc => s.call.map fun c => { s with gFuncPtr := some c.func, caller := .setUserInfo }
  | .setUserInfo => s.call.map fun c =>
    { s with gUserInfo := some c.userInfo, caller := .broadcast }
  | .broadcast => some { s with condVar := fun _ => false, caller := .unlockCond }
  | .unlockCond => some { s with condLock := none, caller := .wait }
  | .wait => some { s with callerCondLock := none, callerCondVar := true, caller := .inWait }
  | .inWait =>
    if s.callerCondVar = false ∧ s.callerCondLock = none then
      some { s with callerCondLock := some .caller, caller := .test }
    else none
  | .test => some { s with caller := if s.gRunning ≠ 0 then .wait else .unlockCaller }
  | .unlockCaller => some { s with callerCondLock := none, caller := .readError }
  | .readError => some { s with caller := .unlockPool s.jobError }
  | .unlockPool err => some { s with gThreadPoolLock := none, caller := .out (some err) }
  | _ => none

/-- The job function returns `err` to the single threaded loop. -/
def callerJobReturn (s : State N F U) (err : Int) : Option (State N F U) :=
  match s.caller with
  | .singleJob job =>
    some { s with
      results := s.results ++ [err]
      caller := if err ≠ 0 then .out (some err) else .single (job + 1) }
  | _ => none

/-- One step of the pool. -/
def next (s : State N F U) : Event N F U → Option (State N F U)
  | .init => if s.caller = .uninit then some { s with caller := .initLock } else none
  | .call func count userInfo => enterDo s ⟨func, count, userInfo⟩
  | .caller => (threadPoolInit s).or (threadPoolDo s)
  | .create err => createReturn s err
  | .callerJob err => callerJobReturn s err
  | .callerSpurious =>
    if s.callerCondVar = true then some { s with callerCondVar := false } else none
  | .worker i => threadPoolWorkerFunc s i
  | .job i err => jobReturn s i err
  | .spurious i =>
    if s.condVar i = true then some { s with condVar := Function.update s.condVar i false }
    else none

end OpenCLCTS.ThreadPool
