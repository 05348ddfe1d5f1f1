import OpenCLCTS.Harness.ThreadPool.Model

/-!
# The moves of the thread pool

`next` is read backwards once, here.  `WorkerMove s i s'` lists what worker `i`
can do in `s`, one constructor for each operation, with the state it leads to;
`InitMove` and `DoMove` do the same for the two halves of the caller.  The
invariants are proved by cases on these and never unfold `next`.
-/

namespace OpenCLCTS.ThreadPool

variable {N : ℕ} {F U : Type} {s s' : State N F U}

/-! ### Moving one worker -/

@[simp] theorem goto_gRunCount (i : Fin N) (pc : WorkerPc) :
    (s.goto i pc).gRunCount = s.gRunCount := rfl
@[simp] theorem goto_gRunning (i : Fin N) (pc : WorkerPc) :
    (s.goto i pc).gRunning = s.gRunning := rfl
@[simp] theorem goto_gThreadCount (i : Fin N) (pc : WorkerPc) :
    (s.goto i pc).gThreadCount = s.gThreadCount := rfl
@[simp] theorem goto_gFuncPtr (i : Fin N) (pc : WorkerPc) :
    (s.goto i pc).gFuncPtr = s.gFuncPtr := rfl
@[simp] theorem goto_gUserInfo (i : Fin N) (pc : WorkerPc) :
    (s.goto i pc).gUserInfo = s.gUserInfo := rfl
@[simp] theorem goto_jobError (i : Fin N) (pc : WorkerPc) :
    (s.goto i pc).jobError = s.jobError := rfl
@[simp] theorem goto_threadPoolInitErr (i : Fin N) (pc : WorkerPc) :
    (s.goto i pc).threadPoolInitErr = s.threadPoolInitErr := rfl
@[simp] theorem goto_condLock (i : Fin N) (pc : WorkerPc) :
    (s.goto i pc).condLock = s.condLock := rfl
@[simp] theorem goto_callerCondLock (i : Fin N) (pc : WorkerPc) :
    (s.goto i pc).callerCondLock = s.callerCondLock := rfl
@[simp] theorem goto_condVar (i : Fin N) (pc : WorkerPc) :
    (s.goto i pc).condVar = s.condVar := rfl
@[simp] theorem goto_callerCondVar (i : Fin N) (pc : WorkerPc) :
    (s.goto i pc).callerCondVar = s.callerCondVar := rfl
@[simp] theorem goto_caller (i : Fin N) (pc : WorkerPc) : (s.goto i pc).caller = s.caller := rfl
@[simp] theorem goto_call (i : Fin N) (pc : WorkerPc) : (s.goto i pc).call = s.call := rfl
@[simp] theorem goto_handed (i : Fin N) (pc : WorkerPc) : (s.goto i pc).handed = s.handed := rfl
@[simp] theorem goto_results (i : Fin N) (pc : WorkerPc) :
    (s.goto i pc).results = s.results := rfl

@[simp] theorem goto_worker_self (i : Fin N) (pc : WorkerPc) : (s.goto i pc).worker i = pc :=
  Function.update_self ..

theorem goto_worker_of_ne {i j : Fin N} (h : j ≠ i) (pc : WorkerPc) :
    (s.goto i pc).worker j = s.worker j := Function.update_of_ne h ..

/-! ### The counter -/

theorem maxCount_pos : 0 < maxCount := by decide

theorem decr_of_pos {x : Int} (h : 0 < x) : decr x = x - 1 :=
  if_neg (by unfold clIntMin; omega)

/-- Decrementing an exhausted counter leaves it exhausted, or wraps it around. -/
theorem decr_of_nonpos {x : Int} (h : x ≤ 0) :
    decr x < 0 ∨ x = clIntMin ∧ decr x = clIntMax := by
  unfold decr
  split
  · rename_i hx; exact .inr ⟨hx, rfl⟩
  · exact .inl (by omega)

/-! ### The workers -/

/-- What worker `i` can do next, with the state after it. -/
inductive WorkerMove (s : State N F U) (i : Fin N) : State N F U → Prop
  | fetchItem (h : s.worker i = .fetch) (h0 : 0 < s.gRunCount) (h1 : s.gRunCount < maxCount) :
      WorkerMove s i ({ s with gRunCount := s.gRunCount - 1 }.goto i (.checkError s.gRunCount))
  | fetchNone (h : s.worker i = .fetch) (h0 : s.gRunCount ≤ 0) :
      WorkerMove s i ({ s with gRunCount := decr s.gRunCount }.goto i .lockCond)
  | fetchExit (h : s.worker i = .fetch) (h1 : maxCount ≤ s.gRunCount) :
      WorkerMove s i ({ s with gRunCount := s.gRunCount - 1 }.goto i .exit)
  | lockCond (h : s.worker i = .lockCond) (hfree : s.condLock = none) :
      WorkerMove s i ({ s with condLock := some (.worker i) }.goto i .decRunning)
  | lastOut (h : s.worker i = .decRunning) (h1 : s.gRunning = 1) :
      WorkerMove s i ({ s with gRunning := s.gRunning - 1 }.goto i .lockCaller)
  | notLast (h : s.worker i = .decRunning) (h1 : s.gRunning ≠ 1) :
      WorkerMove s i ({ s with gRunning := s.gRunning - 1 }.goto i .wait)
  | lockCaller (h : s.worker i = .lockCaller) (hfree : s.callerCondLock = none) :
      WorkerMove s i ({ s with callerCondLock := some (.worker i) }.goto i .broadcastCaller)
  | broadcastCaller (h : s.worker i = .broadcastCaller) :
      WorkerMove s i ({ s with callerCondVar := false }.goto i .unlockCaller)
  | unlockCaller (h : s.worker i = .unlockCaller) :
      WorkerMove s i ({ s with callerCondLock := none }.goto i .wait)
  | wait (h : s.worker i = .wait) :
      WorkerMove s i
        ({ s with condLock := none, condVar := Function.update s.condVar i true }.goto i .inWait)
  | wakeUp (h : s.worker i = .inWait) (hvar : s.condVar i = false) (hfree : s.condLock = none) :
      WorkerMove s i ({ s with condLock := some (.worker i) }.goto i .refetch)
  | refetchItem (h : s.worker i = .refetch) (h0 : 0 < s.gRunCount)
      (h1 : s.gRunCount < maxCount) :
      WorkerMove s i ({ s with gRunCount := s.gRunCount - 1 }.goto i (.incRunning s.gRunCount))
  | refetchNone (h : s.worker i = .refetch) (h0 : s.gRunCount ≤ 0) :
      WorkerMove s i ({ s with gRunCount := decr s.gRunCount }.goto i .wait)
  | refetchExit (h : s.worker i = .refetch) (h1 : maxCount ≤ s.gRunCount) :
      WorkerMove s i ({ s with gRunCount := s.gRunCount - 1 }.goto i .unlockExit)
  | unlockExit (h : s.worker i = .unlockExit) :
      WorkerMove s i ({ s with condLock := none }.goto i .exit)
  | incRunning (item : Int) (h : s.worker i = .incRunning item) :
      WorkerMove s i ({ s with gRunning := s.gRunning + 1 }.goto i (.unlockCond item))
  | unlockCond (item : Int) (h : s.worker i = .unlockCond item) :
      WorkerMove s i ({ s with condLock := none }.goto i (.checkError item))
  | noError (item : Int) (h : s.worker i = .checkError item) (h0 : s.jobError = 0) :
      WorkerMove s i (s.goto i (.callJob item))
  | skip (item : Int) (h : s.worker i = .checkError item) (h0 : s.jobError ≠ 0) :
      WorkerMove s i (s.goto i .fetch)
  | callJob (item : Int) (f : F) (u : U) (h : s.worker i = .callJob item)
      (hf : s.gFuncPtr = some f) (hu : s.gUserInfo = some u) :
      WorkerMove s i
        ({ s with handed := s.handed ++ [(⟨f, u, item - 1⟩ : Job F U)] }.goto i (.inJob item))
  | succeed (item : Int) (h : s.worker i = .inJob item) :
      WorkerMove s i ({ s with results := s.results ++ [0] }.goto i .fetch)
  | fail (item err : Int) (h : s.worker i = .inJob item) (herr : err ≠ 0) :
      WorkerMove s i ({ s with results := s.results ++ [err] }.goto i (.casError err))
  | casError (err : Int) (h : s.worker i = .casError err) :
      WorkerMove s i
        ({ s with jobError := if s.jobError = 0 then err else s.jobError }.goto i .dropRunCount)
  | dropRunCount (h : s.worker i = .dropRunCount) :
      WorkerMove s i ({ s with gRunCount := 0 }.goto i .fetch)
  | exit (h : s.worker i = .exit) :
      WorkerMove s i ({ s with gThreadCount := s.gThreadCount - 1 }.goto i .exited)

theorem workerMove_of_worker {i : Fin N} (h : threadPoolWorkerFunc s i = some s') :
    WorkerMove s i s' := by
  cases hpc : s.worker i <;> simp only [threadPoolWorkerFunc, hpc, reduceCtorEq] at h
  case fetch =>
    cases h
    unfold afterFetch
    split
    · rename_i h1
      rw [decr_of_pos (lt_of_lt_of_le maxCount_pos h1)]
      exact .fetchExit hpc h1
    · rename_i h1
      split
      · rename_i h0; exact .fetchNone hpc h0
      · rename_i h0
        rw [decr_of_pos (not_le.mp h0)]
        exact .fetchItem hpc (not_le.mp h0) (not_le.mp h1)
  case lockCond =>
    split at h
    · rename_i hfree; cases h; exact .lockCond hpc hfree
    · cases h
  case decRunning =>
    cases h
    split
    · rename_i h1; exact .lastOut hpc h1
    · rename_i h1; exact .notLast hpc h1
  case lockCaller =>
    split at h
    · rename_i hfree; cases h; exact .lockCaller hpc hfree
    · cases h
  case broadcastCaller => cases h; exact .broadcastCaller hpc
  case unlockCaller => cases h; exact .unlockCaller hpc
  case wait => cases h; exact .wait hpc
  case inWait =>
    split at h
    · rename_i hc; cases h; exact .wakeUp hpc hc.1 hc.2
    · cases h
  case refetch =>
    cases h
    unfold afterRefetch
    split
    · rename_i h1
      rw [decr_of_pos (lt_of_lt_of_le maxCount_pos h1)]
      exact .refetchExit hpc h1
    · rename_i h1
      split
      · rename_i h0; exact .refetchNone hpc h0
      · rename_i h0
        rw [decr_of_pos (not_le.mp h0)]
        exact .refetchItem hpc (not_le.mp h0) (not_le.mp h1)
  case unlockExit => cases h; exact .unlockExit hpc
  case incRunning item => cases h; exact .incRunning item hpc
  case unlockCond item => cases h; exact .unlockCond item hpc
  case checkError item =>
    cases h
    split
    · rename_i h0; exact .noError item hpc h0
    · rename_i h0; exact .skip item hpc h0
  case callJob item =>
    split at h
    · rename_i f u hf hu; cases h; exact .callJob item f u hpc hf hu
    · cases h
  case casError err => cases h; exact .casError err hpc
  case dropRunCount => cases h; exact .dropRunCount hpc
  case exit => cases h; exact .exit hpc

theorem workerMove_of_job {i : Fin N} {err : Int} (h : jobReturn s i err = some s') :
    WorkerMove s i s' := by
  cases hpc : s.worker i <;> simp only [jobReturn, hpc, reduceCtorEq] at h
  case inJob item =>
    cases h
    by_cases herr : err = 0
    · subst herr; exact .succeed item hpc
    · rw [if_pos herr]; exact .fail item err hpc herr

/-! ### The caller in `ThreadPool_Init` -/

/-- What the caller can do next in `ThreadPool_Init`, with the state after it. -/
inductive InitMove (s : State N F U) : State N F U → Prop
  | enter (h : s.caller = .uninit) : InitMove s { s with caller := .initLock }
  | lock (h : s.caller = .initLock) (hfree : s.callerCondLock = none) :
      InitMove s { s with callerCondLock := some .caller, caller := .initRunning }
  | setRunning (h : s.caller = .initRunning) :
      InitMove s { s with gRunning := s.gThreadCount, caller := .initTest 0 }
  | more (i : ℕ) (h : s.caller = .initTest i) (hi : (i : Int) < s.gThreadCount) :
      InitMove s { s with caller := .initCreate i }
  | noMore (i : ℕ) (h : s.caller = .initTest i) (hi : ¬ (i : Int) < s.gThreadCount) :
      InitMove s { s with caller := .initWait }
  | create (i : ℕ) (hi : i < N) (h : s.caller = .initCreate i) :
      InitMove s { s.goto ⟨i, hi⟩ .fetch with caller := .initTest (i + 1) }
  | createFails (i : ℕ) (err : Int) (h : s.caller = .initCreate i) (herr : err ≠ 0) :
      InitMove s { s with caller := .initErr i err }
  | setErr (i : ℕ) (err : Int) (h : s.caller = .initErr i err) :
      InitMove s { s with threadPoolInitErr := err, caller := .initCount i }
  | setCount (i : ℕ) (h : s.caller = .initCount i) :
      InitMove s { s with gThreadCount := i, caller := .initWait }
  | wait (h : s.caller = .initWait) :
      InitMove s { s with callerCondLock := none, callerCondVar := true, caller := .initInWait }
  | wakeUp (h : s.caller = .initInWait) (hvar : s.callerCondVar = false)
      (hfree : s.callerCondLock = none) :
      InitMove s { s with callerCondLock := some .caller, caller := .initLoad }
  | load (h : s.caller = .initLoad) : InitMove s { s with caller := .initCompare s.gRunCount }
  | again (runCount : Int) (h : s.caller = .initCompare runCount)
      (hne : runCount ≠ -s.gThreadCount) : InitMove s { s with caller := .initWait }
  | leave (runCount : Int) (h : s.caller = .initCompare runCount)
      (heq : runCount = -s.gThreadCount) : InitMove s { s with caller := .initUnlock }
  | unlock (h : s.caller = .initUnlock) :
      InitMove s { s with callerCondLock := none, caller := .initSuccess }
  | success (h : s.caller = .initSuccess) :
      InitMove s { s with threadPoolInitErr := 0, caller := .out none }

theorem initMove_of_init (h : threadPoolInit s = some s') : InitMove s s' := by
  cases hpc : s.caller <;> simp only [threadPoolInit, hpc, reduceCtorEq] at h
  case initLock =>
    split at h
    · rename_i hfree; cases h; exact .lock hpc hfree
    · cases h
  case initRunning => cases h; exact .setRunning hpc
  case initTest i =>
    cases h
    split
    · rename_i hi; exact .more i hpc hi
    · rename_i hi; exact .noMore i hpc hi
  case initErr i err => cases h; exact .setErr i err hpc
  case initCount i => cases h; exact .setCount i hpc
  case initWait => cases h; exact .wait hpc
  case initInWait =>
    split at h
    · rename_i hc; cases h; exact .wakeUp hpc hc.1 hc.2
    · cases h
  case initLoad => cases h; exact .load hpc
  case initCompare rc =>
    cases h
    by_cases hrc : rc = -s.gThreadCount
    · rw [if_neg (not_not.mpr hrc)]; exact .leave rc hpc hrc
    · rw [if_pos hrc]; exact .again rc hpc hrc
  case initUnlock => cases h; exact .unlock hpc
  case initSuccess => cases h; exact .success hpc

theorem initMove_of_create {err : Int} (h : createReturn s err = some s') : InitMove s s' := by
  cases hpc : s.caller <;> simp only [createReturn, hpc, reduceCtorEq] at h
  case initCreate i =>
    split at h
    · rename_i herr; cases h; exact .createFails i err hpc herr
    · split at h
      · rename_i hi; cases h; exact .create i hi hpc
      · cases h

/-! ### The caller in `ThreadPool_Do` -/

/-- What the caller can do next in `ThreadPool_Do`, with the state after it. -/
inductive DoMove (s : State N F U) : State N F U → Prop
  | enter (c : Call F U) (res : Option Int) (h : s.caller = .out res)
      (h0 : s.threadPoolInitErr = 0) (hc : (c.count : Int) < maxCount) :
      DoMove s { s with call := some c, handed := [], results := [], caller := .lockPool }
  | tooMany (c : Call F U) (res : Option Int) (h : s.caller = .out res)
      (h0 : s.threadPoolInitErr = 0) (hc : maxCount ≤ (c.count : Int)) :
      DoMove s { s with call := some c, handed := [], results := [], caller := .out (some (-1)) }
  | enterSingle (c : Call F U) (res : Option Int) (h : s.caller = .out res)
      (h0 : s.threadPoolInitErr ≠ 0) :
      DoMove s { s with call := some c, handed := [], results := [], caller := .single 0 }
  | single (job : ℕ) (c : Call F U) (h : s.caller = .single job) (hc : s.call = some c)
      (hlt : job < c.count) :
      DoMove s { s with
        handed := s.handed ++ [(⟨c.func, c.userInfo, job⟩ : Job F U)]
        caller := .singleJob job }
  | singleDone (job : ℕ) (c : Call F U) (h : s.caller = .single job) (hc : s.call = some c)
      (hge : ¬ job < c.count) : DoMove s { s with caller := .out (some 0) }
  | singleSucceed (job : ℕ) (h : s.caller = .singleJob job) :
      DoMove s { s with results := s.results ++ [0], caller := .single (job + 1) }
  | singleFail (job : ℕ) (err : Int) (h : s.caller = .singleJob job) (herr : err ≠ 0) :
      DoMove s { s with results := s.results ++ [err], caller := .out (some err) }
  | lockPool (h : s.caller = .lockPool) (hfree : s.gThreadPoolLock = none) :
      DoMove s { s with gThreadPoolLock := some .caller, caller := .lockCond }
  | lockCond (h : s.caller = .lockCond) (hfree : s.condLock = none) :
      DoMove s { s with condLock := some .caller, caller := .lockCaller }
  | lockCaller (h : s.caller = .lockCaller) (hfree : s.callerCondLock = none) :
      DoMove s { s with callerCondLock := some .caller, caller := .clearError }
  | clearError (h : s.caller = .clearError) :
      DoMove s { s with jobError := 0, caller := .setJobCount }
  | setJobCount (c : Call F U) (h : s.caller = .setJobCount) (hc : s.call = some c) :
      DoMove s { s with gJobCount := c.count, caller := .setRunCount }
  | setRunCount (h : s.caller = .setRunCount) :
      DoMove s { s with gRunCount := s.gJobCount, caller := .setFunc }
  | setFunc (c : Call F U) (h : s.caller = .setFunc) (hc : s.call = some c) :
      DoMove s { s with gFuncPtr := some c.func, caller := .setUserInfo }
  | setUserInfo (c : Call F U) (h : s.caller = .setUserInfo) (hc : s.call = some c) :
      DoMove s { s with gUserInfo := some c.userInfo, caller := .broadcast }
  | broadcast (h : s.caller = .broadcast) :
      DoMove s { s with condVar := fun _ => false, caller := .unlockCond }
  | unlockCond (h : s.caller = .unlockCond) :
      DoMove s { s with condLock := none, caller := .wait }
  | wait (h : s.caller = .wait) :
      DoMove s { s with callerCondLock := none, callerCondVar := true, caller := .inWait }
  | wakeUp (h : s.caller = .inWait) (hvar : s.callerCondVar = false)
      (hfree : s.callerCondLock = none) :
      DoMove s { s with callerCondLock := some .caller, caller := .test }
  | again (h : s.caller = .test) (hr : s.gRunning ≠ 0) : DoMove s { s with caller := .wait }
  | leave (h : s.caller = .test) (hr : s.gRunning = 0) :
      DoMove s { s with caller := .unlockCaller }
  | unlockCaller (h : s.caller = .unlockCaller) :
      DoMove s { s with callerCondLock := none, caller := .readError }
  | readError (h : s.caller = .readError) :
      DoMove s { s with caller := .unlockPool s.jobError }
  | unlockPool (err : Int) (h : s.caller = .unlockPool err) :
      DoMove s { s with gThreadPoolLock := none, caller := .out (some err) }

theorem doMove_of_enter {c : Call F U} (h : enterDo s c = some s') : DoMove s s' := by
  cases hpc : s.caller <;> simp only [enterDo, hpc, reduceCtorEq] at h
  case out res =>
    cases h
    by_cases h0 : s.threadPoolInitErr = 0
    · rw [if_neg (not_not.mpr h0)]
      split
      · rename_i hc; exact .tooMany c res hpc h0 hc
      · rename_i hc; exact .enter c res hpc h0 (not_le.mp hc)
    · rw [if_pos h0]; exact .enterSingle c res hpc h0

theorem doMove_of_do (h : threadPoolDo s = some s') : DoMove s s' := by
  cases hpc : s.caller <;> simp only [threadPoolDo, hpc, reduceCtorEq] at h
  case single job =>
    obtain ⟨c, hc, rfl⟩ := Option.map_eq_some_iff.mp h
    split
    · rename_i hlt; exact .single job c hpc hc hlt
    · rename_i hge; exact .singleDone job c hpc hc hge
  case lockPool =>
    split at h
    · rename_i hfree; cases h; exact .lockPool hpc hfree
    · cases h
  case lockCond =>
    split at h
    · rename_i hfree; cases h; exact .lockCond hpc hfree
    · cases h
  case lockCaller =>
    split at h
    · rename_i hfree; cases h; exact .lockCaller hpc hfree
    · cases h
  case clearError => cases h; exact .clearError hpc
  case setJobCount =>
    obtain ⟨c, hc, rfl⟩ := Option.map_eq_some_iff.mp h
    exact .setJobCount c hpc hc
  case setRunCount => cases h; exact .setRunCount hpc
  case setFunc =>
    obtain ⟨c, hc, rfl⟩ := Option.map_eq_some_iff.mp h
    exact .setFunc c hpc hc
  case setUserInfo =>
    obtain ⟨c, hc, rfl⟩ := Option.map_eq_some_iff.mp h
    exact .setUserInfo c hpc hc
  case broadcast => cases h; exact .broadcast hpc
  case unlockCond => cases h; exact .unlockCond hpc
  case wait => cases h; exact .wait hpc
  case inWait =>
    split at h
    · rename_i hw; cases h; exact .wakeUp hpc hw.1 hw.2
    · cases h
  case test =>
    cases h
    by_cases hr : s.gRunning = 0
    · rw [if_neg (not_not.mpr hr)]; exact .leave hpc hr
    · rw [if_pos hr]; exact .again hpc hr
  case unlockCaller => cases h; exact .unlockCaller hpc
  case readError => cases h; exact .readError hpc
  case unlockPool err => cases h; exact .unlockPool err hpc

theorem doMove_of_callerJob {err : Int} (h : callerJobReturn s err = some s') : DoMove s s' := by
  cases hpc : s.caller <;> simp only [callerJobReturn, hpc, reduceCtorEq] at h
  case singleJob job =>
    cases h
    by_cases herr : err = 0
    · subst herr; exact .singleSucceed job hpc
    · rw [if_pos herr]; exact .singleFail job err hpc herr

/-! ### What a move leaves alone -/

theorem WorkerMove.frame {i : Fin N} (hm : WorkerMove s i s') :
    s'.caller = s.caller ∧ s'.call = s.call ∧ s'.threadPoolInitErr = s.threadPoolInitErr ∧
      s'.gJobCount = s.gJobCount ∧ s'.gFuncPtr = s.gFuncPtr ∧ s'.gUserInfo = s.gUserInfo := by
  cases hm <;> exact ⟨rfl, rfl, rfl, rfl, rfl, rfl⟩

theorem DoMove.frame (hm : DoMove s s') :
    s'.worker = s.worker ∧ s'.gRunning = s.gRunning ∧
      s'.threadPoolInitErr = s.threadPoolInitErr := by
  cases hm <;> exact ⟨rfl, rfl, rfl⟩

theorem InitMove.call (hm : InitMove s s') : s'.call = s.call := by
  cases hm <;> rfl

theorem call_of_do (h : threadPoolDo s = some s') : s'.call = s.call := by
  cases doMove_of_do h with
  | enter _ _ hpc | tooMany _ _ hpc | enterSingle _ _ hpc =>
    simp only [threadPoolDo, hpc, reduceCtorEq] at h
  | _ => rfl

theorem call_of_callerJob {err : Int} (h : callerJobReturn s err = some s') :
    s'.call = s.call := by
  cases doMove_of_callerJob h with
  | enter _ _ hpc | tooMany _ _ hpc | enterSingle _ _ hpc =>
    simp only [callerJobReturn, hpc, reduceCtorEq] at h
  | _ => rfl

/-! ### All of them -/

/-- Every step of the pool is one of the moves, or a spurious wake-up. -/
inductive Move (s : State N F U) : Event N F U → State N F U → Prop
  | worker {i : Fin N} {s' : State N F U} : WorkerMove s i s' → Move s (.worker i) s'
  | job {i : Fin N} {err : Int} {s' : State N F U} (item : Int) : s.worker i = .inJob item →
      WorkerMove s i s' → Move s (.job i err) s'
  | init {e : Event N F U} {s' : State N F U} : InitMove s s' → Move s e s'
  | call {e : Event N F U} {s' : State N F U} : DoMove s s' → Move s e s'
  | spurious {i : Fin N} : s.condVar i = true →
      Move s (.spurious i) { s with condVar := Function.update s.condVar i false }
  | callerSpurious : s.callerCondVar = true →
      Move s .callerSpurious { s with callerCondVar := false }

theorem move_of_next {e : Event N F U} (h : next s e = some s') : Move s e s' := by
  cases e with
  | init =>
    simp only [next] at h
    split at h
    · rename_i hu; cases h; exact .init (.enter hu)
    · cases h
  | call f n u => exact .call (doMove_of_enter h)
  | caller =>
    simp only [next] at h
    rcases Option.or_eq_some_iff.mp h with h | ⟨_, h⟩
    · exact .init (initMove_of_init h)
    · exact .call (doMove_of_do h)
  | create err => exact .init (initMove_of_create h)
  | callerJob err => exact .call (doMove_of_callerJob h)
  | callerSpurious =>
    simp only [next] at h
    split at h
    · rename_i hc; cases h; exact .callerSpurious hc
    · cases h
  | worker i => exact .worker (workerMove_of_worker h)
  | job i err =>
    cases hpc : s.worker i with
    | inJob item => exact .job item hpc (workerMove_of_job h)
    | _ => simp only [next, jobReturn, hpc, reduceCtorEq] at h
  | spurious i =>
    simp only [next] at h
    split at h
    · rename_i hc; cases h; exact .spurious hc
    · cases h

theorem call_next {e : Event N F U} (h : next s e = some s') :
    s'.call = s.call ∨ ∃ f n u, e = .call f n u ∧ s'.call = some ⟨f, n, u⟩ := by
  cases e with
  | call f n u =>
    refine .inr ⟨f, n, u, rfl, ?_⟩
    cases hpc : s.caller <;> simp only [next, enterDo, hpc, reduceCtorEq] at h
    cases h
    rfl
  | caller =>
    rcases Option.or_eq_some_iff.mp h with h | ⟨_, h⟩
    · exact .inl (initMove_of_init h).call
    · exact .inl (call_of_do h)
  | create err => exact .inl (initMove_of_create h).call
  | callerJob err => exact .inl (call_of_callerJob h)
  | worker i => exact .inl (workerMove_of_worker h).frame.2.1
  | job i err => exact .inl (workerMove_of_job h).frame.2.1
  | init | callerSpurious | spurious =>
    simp only [next] at h
    split at h
    · cases h; exact .inl rfl
    · cases h

end OpenCLCTS.ThreadPool
