import OpenCLCTS.Lib.Mutex
import OpenCLCTS.Harness.ThreadPool.Moves

/-!
# Who holds the two locks

`cond_lock` and `caller_cond_lock` are held by exactly the thread whose program
counter stands between the lock and the unlock, in every state the pool can
reach from any start where that is so.
-/

namespace OpenCLCTS.ThreadPool

open Interleaving

variable {N : ℕ} {F U : Type} {s s' : State N F U} {i : Fin N}

/-- The worker is between `pthread_mutex_lock(&cond_lock)` and the unlock, the
wait included only while it is awake. -/
def WorkerPc.holdsCond : WorkerPc → Bool
  | .decRunning | .lockCaller | .broadcastCaller | .unlockCaller | .wait | .refetch
  | .unlockExit | .incRunning _ | .unlockCond _ => true
  | _ => false

def WorkerPc.holdsCallerCond : WorkerPc → Bool
  | .broadcastCaller | .unlockCaller => true
  | _ => false

def CallerPc.holdsCond : CallerPc → Bool
  | .lockCaller | .clearError | .setJobCount | .setRunCount | .setFunc | .setUserInfo
  | .broadcast | .unlockCond => true
  | _ => false

def CallerPc.holdsCallerCond : CallerPc → Bool
  | .initRunning | .initTest _ | .initCreate _ | .initErr _ _ | .initCount _ | .initWait
  | .initLoad | .initCompare _ | .initUnlock => true
  | .clearError | .setJobCount | .setRunCount | .setFunc | .setUserInfo | .broadcast
  | .unlockCond | .wait | .test | .unlockCaller => true
  | _ => false

def State.holdsCond (s : State N F U) : Thread N → Bool
  | .caller => s.caller.holdsCond
  | .worker i => (s.worker i).holdsCond

def State.holdsCallerCond (s : State N F U) : Thread N → Bool
  | .caller => s.caller.holdsCallerCond
  | .worker i => (s.worker i).holdsCallerCond

@[simp] theorem holdsCond_worker (i : Fin N) :
    s.holdsCond (.worker i) = (s.worker i).holdsCond := rfl

@[simp] theorem holdsCallerCond_worker (i : Fin N) :
    s.holdsCallerCond (.worker i) = (s.worker i).holdsCallerCond := rfl

@[simp] theorem holdsCond_caller : s.holdsCond .caller = s.caller.holdsCond := rfl

@[simp] theorem holdsCallerCond_caller :
    s.holdsCallerCond .caller = s.caller.holdsCallerCond := rfl

/-- How many workers `ThreadPool_Init` has launched so far, while it launches them. -/
def CallerPc.launched : CallerPc → Option ℕ
  | .uninit | .initLock | .initRunning => some 0
  | .initTest i | .initCreate i => some i
  | _ => none

/-- Both locks agree with the program counters, and no worker runs before it is
launched. -/
structure Locks (s : State N F U) : Prop where
  cond : Owned s.condLock s.holdsCond
  callerCond : Owned s.callerCondLock s.holdsCallerCond
  fresh : ∀ n, s.caller.launched = some n → ∀ j : Fin N, n ≤ j → s.worker j = .notStarted

theorem Locks.of_none (h1 : s.condLock = none) (h2 : s.callerCondLock = none)
    (hc : s.caller.holdsCond = false ∧ s.caller.holdsCallerCond = false)
    (hw : ∀ i, (s.worker i).holdsCond = false ∧ (s.worker i).holdsCallerCond = false)
    (hfresh : ∀ n, s.caller.launched = some n → ∀ j : Fin N, n ≤ j → s.worker j = .notStarted) :
    Locks s := by
  refine ⟨?_, ?_, hfresh⟩
  · rw [h1, owned_none]
    rintro (_ | i)
    · exact hc.1
    · exact (hw i).1
  · rw [h2, owned_none]
    rintro (_ | i)
    · exact hc.2
    · exact (hw i).2

theorem update_goto {holds : State N F U → Thread N → Bool} {f : WorkerPc → Bool} {pc : WorkerPc}
    (hw : ∀ s j, holds s (.worker j) = f (s.worker j))
    (hc : holds (s.goto i pc) .caller = holds s .caller) :
    holds (s.goto i pc) = Function.update (holds s) (.worker i) (f pc) := by
  funext t
  rcases t with _ | j
  · simp [hc]
  · by_cases hj : j = i
    · subst hj; simp [hw]
    · simp [hw, goto_worker_of_ne hj, hj]

theorem holdsCond_goto {pc : WorkerPc} :
    (s.goto i pc).holdsCond = Function.update s.holdsCond (.worker i) pc.holdsCond :=
  update_goto (fun _ _ => rfl) rfl

theorem holdsCallerCond_goto {pc : WorkerPc} :
    (s.goto i pc).holdsCallerCond
      = Function.update s.holdsCallerCond (.worker i) pc.holdsCallerCond :=
  update_goto (fun _ _ => rfl) rfl

theorem Locks.launched_ne (h : Locks s) (hi : s.worker i ≠ .notStarted) {n : ℕ}
    (hn : s.caller.launched = some n) : (i : ℕ) < n := by
  by_contra hge
  exact hi (h.fresh n hn i (not_lt.mp hge))

theorem Locks.goto (h : Locks s) (t : State N F U) {pc : WorkerPc}
    (hi : s.worker i ≠ .notStarted) (hw : t.worker = s.worker) (hc : t.caller = s.caller)
    (h1 : Owned t.condLock (Function.update s.holdsCond (.worker i) pc.holdsCond))
    (h2 : Owned t.callerCondLock
      (Function.update s.holdsCallerCond (.worker i) pc.holdsCallerCond)) :
    Locks (t.goto i pc) := by
  have e1 : t.holdsCond = s.holdsCond := by
    funext u
    rcases u with _ | j <;> simp [hw, hc]
  have e2 : t.holdsCallerCond = s.holdsCallerCond := by
    funext u
    rcases u with _ | j <;> simp [hw, hc]
  refine ⟨?_, ?_, fun n hn j hj => ?_⟩
  · rw [holdsCond_goto, e1]; exact h1
  · rw [holdsCallerCond_goto, e2]; exact h2
  · rw [goto_caller, hc] at hn
    have hlt := h.launched_ne hi hn
    have hne : j ≠ i := by rintro rfl; omega
    rw [goto_worker_of_ne hne, hw]
    exact h.fresh n hn j hj

theorem Locks.goto_keep (h : Locks s) (t : State N F U) {p pc : WorkerPc}
    (hi : s.worker i = p) (hp : p ≠ .notStarted) (hw : t.worker = s.worker)
    (hc : t.caller = s.caller) (h1 : t.condLock = s.condLock)
    (h2 : t.callerCondLock = s.callerCondLock) (e1 : pc.holdsCond = p.holdsCond)
    (e2 : pc.holdsCallerCond = p.holdsCallerCond) : Locks (t.goto i pc) := by
  refine h.goto t (hi ▸ hp) hw hc ?_ ?_
  · rw [h1]; exact h.cond.keep (by rw [holdsCond_worker, hi, e1])
  · rw [h2]; exact h.callerCond.keep (by rw [holdsCallerCond_worker, hi, e2])

theorem Locks.caller (h : Locks s) (t : State N F U) (hw : t.worker = s.worker)
    (h1 : Owned t.condLock (Function.update s.holdsCond .caller t.caller.holdsCond))
    (h2 : Owned t.callerCondLock
      (Function.update s.holdsCallerCond .caller t.caller.holdsCallerCond))
    (h3 : t.caller.launched = none ∨ t.caller.launched = s.caller.launched) :
    Locks t := by
  have e1 : t.holdsCond = Function.update s.holdsCond .caller t.caller.holdsCond := by
    funext u
    rcases u with _ | j <;> simp [hw]
  have e2 : t.holdsCallerCond
      = Function.update s.holdsCallerCond .caller t.caller.holdsCallerCond := by
    funext u
    rcases u with _ | j <;> simp [hw]
  refine ⟨e1 ▸ h1, e2 ▸ h2, ?_⟩
  intro n hn j hj
  rcases h3 with h3 | h3
  · rw [h3] at hn; cases hn
  · rw [hw]; exact h.fresh n (h3 ▸ hn) j hj

theorem Locks.caller_keep (h : Locks s) (t : State N F U) {p : CallerPc} (hp : s.caller = p)
    (hw : t.worker = s.worker) (h1 : t.condLock = s.condLock)
    (h2 : t.callerCondLock = s.callerCondLock) (e1 : t.caller.holdsCond = p.holdsCond)
    (e2 : t.caller.holdsCallerCond = p.holdsCallerCond)
    (h3 : t.caller.launched = none ∨ t.caller.launched = p.launched) : Locks t := by
  refine h.caller t hw ?_ ?_ (hp ▸ h3)
  · rw [h1]; exact h.cond.keep (by rw [holdsCond_caller, hp, e1])
  · rw [h2]; exact h.callerCond.keep (by rw [holdsCallerCond_caller, hp, e2])

theorem WorkerMove.locks (hm : WorkerMove s i s') (h : Locks s) : Locks s' := by
  have h1 := h.cond
  have h2 := h.callerCond
  cases hm with
  | lockCond hpc hfree =>
    exact h.goto _ (by simp [hpc]) rfl rfl (h1.acquire hfree)
      (h2.keep (by rw [holdsCallerCond_worker, hpc]; rfl))
  | wakeUp hpc _ hfree =>
    exact h.goto _ (by simp [hpc]) rfl rfl (h1.acquire hfree)
      (h2.keep (by rw [holdsCallerCond_worker, hpc]; rfl))
  | wait hpc =>
    exact h.goto _ (by simp [hpc]) rfl rfl (h1.release (by rw [holdsCond_worker, hpc]; rfl))
      (h2.keep (by rw [holdsCallerCond_worker, hpc]; rfl))
  | unlockExit hpc =>
    exact h.goto _ (by simp [hpc]) rfl rfl (h1.release (by rw [holdsCond_worker, hpc]; rfl))
      (h2.keep (by rw [holdsCallerCond_worker, hpc]; rfl))
  | unlockCond item hpc =>
    exact h.goto _ (by simp [hpc]) rfl rfl (h1.release (by rw [holdsCond_worker, hpc]; rfl))
      (h2.keep (by rw [holdsCallerCond_worker, hpc]; rfl))
  | lockCaller hpc hfree =>
    exact h.goto _ (by simp [hpc]) rfl rfl (h1.keep (by rw [holdsCond_worker, hpc]; rfl))
      (h2.acquire hfree)
  | unlockCaller hpc =>
    exact h.goto _ (by simp [hpc]) rfl rfl (h1.keep (by rw [holdsCond_worker, hpc]; rfl))
      (h2.release (by rw [holdsCallerCond_worker, hpc]; rfl))
  -- the other operations touch neither lock
  | fetchItem hpc | fetchNone hpc | fetchExit hpc | refetchItem hpc | refetchNone hpc
  | refetchExit hpc | lastOut hpc | notLast hpc | broadcastCaller hpc | incRunning _ hpc | noError _ hpc | skip _ hpc
  | callJob _ _ _ hpc | succeed _ hpc | fail _ _ hpc | casError _ hpc | dropRunCount hpc
  | exit hpc =>
    exact h.goto_keep _ hpc nofun rfl rfl rfl rfl rfl rfl

theorem Locks.launch (h : Locks s) {j : ℕ} (hj : j < N) (hpc : s.caller = .initCreate j) :
    Locks { s.goto ⟨j, hj⟩ .fetch with caller := .initTest (j + 1) } := by
  have hnew : s.worker ⟨j, hj⟩ = .notStarted := h.fresh j (by rw [hpc]; rfl) _ le_rfl
  refine ⟨?_, ?_, fun n hn k hk => ?_⟩
  · intro t
    rw [goto_condLock, h.cond t]
    rcases t with _ | k
    · rw [holdsCond_caller, hpc]; rfl
    · by_cases hk : k = ⟨j, hj⟩
      · subst hk; simp [hnew, WorkerPc.holdsCond]
      · simp [goto_worker_of_ne hk]
  · intro t
    rw [goto_callerCondLock, h.callerCond t]
    rcases t with _ | k
    · rw [holdsCallerCond_caller, hpc]; rfl
    · by_cases hk : k = ⟨j, hj⟩
      · subst hk; simp [hnew, WorkerPc.holdsCallerCond]
      · simp [goto_worker_of_ne hk]
  · cases hn
    have hne : k ≠ ⟨j, hj⟩ := by rintro rfl; exact absurd hk (by simp)
    show (s.goto ⟨j, hj⟩ .fetch).worker k = .notStarted
    rw [goto_worker_of_ne hne]
    exact h.fresh j (by rw [hpc]; rfl) k (by omega)

theorem InitMove.locks (hm : InitMove s s') (h : Locks s) : Locks s' := by
  have h1 := h.cond
  have h2 := h.callerCond
  cases hm with
  | create j hj hpc => exact h.launch hj hpc
  | lock hpc hfree =>
    exact h.caller _ rfl (h1.keep (by rw [holdsCond_caller, hpc]; rfl)) (h2.acquire hfree)
      (.inr (by rw [hpc]; rfl))
  | wakeUp hpc _ hfree =>
    exact h.caller _ rfl (h1.keep (by rw [holdsCond_caller, hpc]; rfl)) (h2.acquire hfree)
      (.inl rfl)
  | wait hpc | unlock hpc =>
    exact h.caller _ rfl (h1.keep (by rw [holdsCond_caller, hpc]; rfl))
      (h2.release (by rw [holdsCallerCond_caller, hpc]; rfl)) (.inl rfl)
  | enter hpc | setRunning hpc | more _ hpc =>
    exact h.caller_keep _ hpc rfl rfl rfl rfl rfl (.inr rfl)
  | noMore _ hpc | createFails _ _ hpc | setErr _ _ hpc | setCount _ hpc | load hpc | again _ hpc
  | leave _ hpc | success hpc =>
    exact h.caller_keep _ hpc rfl rfl rfl rfl rfl (.inl rfl)

theorem DoMove.locks (hm : DoMove s s') (h : Locks s) : Locks s' := by
  have h1 := h.cond
  have h2 := h.callerCond
  cases hm with
  | lockCond hpc hfree =>
    exact h.caller _ rfl (h1.acquire hfree) (h2.keep (by rw [holdsCallerCond_caller, hpc]; rfl))
      (.inl rfl)
  | unlockCond hpc =>
    exact h.caller _ rfl (h1.release (by rw [holdsCond_caller, hpc]; rfl))
      (h2.keep (by rw [holdsCallerCond_caller, hpc]; rfl)) (.inl rfl)
  | lockCaller hpc hfree | wakeUp hpc _ hfree =>
    exact h.caller _ rfl (h1.keep (by rw [holdsCond_caller, hpc]; rfl)) (h2.acquire hfree)
      (.inl rfl)
  | wait hpc | unlockCaller hpc =>
    exact h.caller _ rfl (h1.keep (by rw [holdsCond_caller, hpc]; rfl))
      (h2.release (by rw [holdsCallerCond_caller, hpc]; rfl)) (.inl rfl)
  | enter _ _ hpc | tooMany _ _ hpc | enterSingle _ _ hpc | single _ _ hpc | singleDone _ _ hpc
  | singleSucceed _ hpc | singleFail _ _ hpc | lockPool hpc | clearError hpc | setJobCount _ hpc
  | setRunCount hpc | setFunc _ hpc | setUserInfo _ hpc | broadcast hpc | again hpc | leave hpc
  | readError hpc | unlockPool _ hpc =>
    exact h.caller_keep _ hpc rfl rfl rfl rfl rfl (.inl rfl)

theorem Locks.congr (h : Locks s) (hw : s'.worker = s.worker) (hc : s'.caller = s.caller)
    (h1 : s'.condLock = s.condLock) (h2 : s'.callerCondLock = s.callerCondLock) : Locks s' :=
  h.caller_keep s' rfl hw h1 h2 (by rw [hc]) (by rw [hc]) (.inr (by rw [hc]))

/-- **The locks are held by whoever the program counters say**, after every step. -/
theorem locks_next {e : Event N F U} (hn : next s e = some s') (h : Locks s) : Locks s' := by
  cases move_of_next hn with
  | worker hm => exact hm.locks h
  | job _ _ hm => exact hm.locks h
  | init hm => exact hm.locks h
  | call hm => exact hm.locks h
  | spurious => exact h.congr rfl rfl rfl rfl
  | callerSpurious => exact h.congr rfl rfl rfl rfl

end OpenCLCTS.ThreadPool
