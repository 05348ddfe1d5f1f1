import OpenCLCTS.Harness.ThreadPool.Running

/-!
# The launch of the workers

`ThreadPool_Init` waits for the signal of the worker that moves `gRunning` from
one to zero and then wants `gRunCount` to be exactly `-gThreadCount`.  Both agree
when every `pthread_create` succeeds and no worker fetches a second time before
the caller has looked.  When a launch fails, `gRunning` keeps counting the worker
that never came, so no worker is ever the last one, and the caller waits forever.
-/

namespace OpenCLCTS.ThreadPool

open Interleaving

variable {N : ℕ} {F U : Type} {s s' : State N F U} {i : Fin N}

/-! ### The start and the steps -/

/-- The state before `ThreadPool_Init`, with `gThreadCount` chosen. -/
structure Unlaunched (s : State N F U) : Prop where
  worker : ∀ i, s.worker i = .notStarted
  caller : s.caller = .uninit
  gRunCount : s.gRunCount = 0
  gThreadCount : s.gThreadCount = N
  condLock : s.condLock = none
  callerCondLock : s.callerCondLock = none

/-- `ThreadPool_Init`, and whatever comes after it. -/
def launch (N : ℕ) (F U : Type) : System (State N F U) (Event N F U) := ⟨Unlaunched, next⟩

/-- `pthread_create` succeeds for exactly the first `k` threads. -/
def Creates (k : ℕ) (s : State N F U) (e : Event N F U) : Prop :=
  ∀ j err, s.caller = .initCreate j → e = .create err → (err = 0 ↔ j < k)

/-- The caller has seen `gRunCount == -gThreadCount`, or has left `ThreadPool_Init`. -/
def CallerPc.launchDone (N : ℕ) : CallerPc → Bool
  | .uninit | .initLock | .initRunning | .initTest _ | .initCreate _ | .initErr _ _
  | .initCount _ | .initWait | .initInWait | .initLoad => false
  | .initCompare runCount => runCount = -N
  | _ => true

/-- Until the caller has seen the right `gRunCount`, no worker is woken up while
another one has yet to go to sleep, and none that was woken up fetches again; and
no worker leaves while the caller compares. -/
def Asleep (s : State N F U) (e : Event N F U) : Prop :=
  ∀ i, e = .worker i →
    (s.caller.launchDone N = false →
      (s.worker i = .inWait → s.gRunning = 0) ∧ s.worker i ≠ .refetch) ∧
    (s.caller = .initCompare (-N) → s.worker i ≠ .exit)

/-- The caller waits for the launch, and will wait until it is woken up by
something else than a signal: whatever happens, it does not leave its loop. -/
def LaunchStuck (k : ℕ) (s : State N F U) : Prop :=
  s.caller = .initInWait ∧ s.callerCondVar = true ∧
    ¬ ∃ t, (launch N F U).Path (fun s e => Creates k s e ∧ e ≠ .callerSpurious) s t ∧
      t.caller = .initUnlock

/-- **What `ThreadPool_Init` promises.**  It does not get stuck, and after a failed
launch it returns with the error recorded. -/
structure LaunchOk (k : ℕ) (s : State N F U) : Prop where
  notStuck : ¬ LaunchStuck k s
  reported : k < N → s.caller = .out none → s.threadPoolInitErr ≠ 0

theorem Unlaunched.locks (h : Unlaunched s) : Locks s := by
  refine .of_none h.condLock h.callerCondLock ?_ (fun i => ?_) fun n hn j hj => h.worker j
  · rw [h.caller]; exact ⟨rfl, rfl⟩
  · rw [h.worker]; exact ⟨rfl, rfl⟩

/-! ### A failed launch -/

/-- The worker is counted by the `gRunning` of the launch. -/
def WorkerPc.awaited : WorkerPc → Int
  | .notStarted => 1
  | pc => pc.counted

/-- The caller is blocked, a worker is missing, and no other one is the last. -/
structure Abandoned (s : State N F U) : Prop where
  caller : s.caller = .initInWait
  callerCondVar : s.callerCondVar = true
  missing : ∃ j, s.worker j = .notStarted
  awaited : ∑ j, (s.worker j).awaited ≤ s.gRunning
  silent : ∀ j, s.worker j ≠ .lockCaller ∧ s.worker j ≠ .broadcastCaller

theorem awaited_nonneg (pc : WorkerPc) : 0 ≤ pc.awaited := by
  unfold WorkerPc.awaited
  split
  · decide
  · exact counted_nonneg _

/-- With a worker missing, a worker about to leave is not the last. -/
theorem Abandoned.not_last (h : Abandoned s) (hpc : s.worker i = .decRunning) :
    s.gRunning ≠ 1 := by
  obtain ⟨j, hj⟩ := h.missing
  have hij : i ≠ j := by
    rintro rfl
    rw [hpc] at hj
    cases hj
  have hsum : (s.worker i).awaited + (s.worker j).awaited ≤ ∑ k, (s.worker k).awaited := by
    rw [← Finset.sum_pair (f := fun k => (s.worker k).awaited) hij]
    exact Finset.sum_le_sum_of_subset_of_nonneg (Finset.subset_univ _) fun k _ _ =>
      awaited_nonneg _
  have h1 : (s.worker i).awaited = 1 := by rw [hpc]; rfl
  have h2 : (s.worker j).awaited = 1 := by rw [hj]; rfl
  have := h.awaited
  omega

theorem Abandoned.goto (h : Abandoned s) (t : State N F U) {p pc : WorkerPc} (hi : s.worker i = p)
    (hp : p ≠ .notStarted) (hw : t.worker = s.worker) (hc : t.caller = s.caller)
    (hv : t.callerCondVar = s.callerCondVar)
    (hpc : pc ≠ .lockCaller ∧ pc ≠ .broadcastCaller)
    (hr : s.gRunning + pc.awaited ≤ t.gRunning + p.awaited) : Abandoned (t.goto i pc) := by
  refine ⟨hc.trans h.caller, hv.trans h.callerCondVar, ?_, ?_, fun j => ?_⟩
  · obtain ⟨j, hj⟩ := h.missing
    have hji : j ≠ i := by
      rintro rfl
      exact hp (hi.symm.trans hj)
    exact ⟨j, by rw [goto_worker_of_ne hji, hw]; exact hj⟩
  · have hsum := sum_goto (s := t) (i := i) WorkerPc.awaited pc
    rw [hw, hi] at hsum
    have := h.awaited
    rw [goto_gRunning]
    omega
  · by_cases hji : j = i
    · subst hji; rw [goto_worker_self]; exact hpc
    · rw [goto_worker_of_ne hji, hw]; exact h.silent j

theorem WorkerMove.abandoned (hm : WorkerMove s i s') (h : Abandoned s) : Abandoned s' := by
  cases hm with
  | lastOut hpc h1 => exact absurd h1 (h.not_last hpc)
  | lockCaller hpc => exact absurd hpc (h.silent i).1
  | broadcastCaller hpc => exact absurd hpc (h.silent i).2
  | fetchItem hpc | fetchNone hpc | fetchExit hpc | lockCond hpc | unlockCaller hpc | wait hpc
  | wakeUp hpc | refetchItem hpc | refetchNone hpc | refetchExit hpc | unlockExit hpc
  | notLast hpc | incRunning _ hpc | unlockCond _ hpc | noError _ hpc | skip _ hpc
  | callJob _ _ _ hpc | succeed _ hpc | fail _ _ hpc | casError _ hpc | dropRunCount hpc
  | exit hpc =>
    exact h.goto _ hpc (by simp) rfl rfl rfl (by simp) (by
      simp [WorkerPc.awaited, WorkerPc.counted])

theorem blocked_next {e : Event N F U} (hn : next s e = some s') (he : e ≠ .callerSpurious)
    (hc : s.caller = .initInWait) (hv : s.callerCondVar = true) :
    (∃ i, WorkerMove s i s') ∨ ∃ condVar, s' = { s with condVar := condVar } := by
  cases move_of_next hn with
  | worker hm => exact .inl ⟨_, hm⟩
  | job _ _ hm => exact .inl ⟨_, hm⟩
  | init hm =>
    cases hm with
    | wakeUp _ hf => rw [hv] at hf; cases hf
    | enter hpc | lock hpc | setRunning hpc | more _ hpc | noMore _ hpc | create _ _ hpc
    | createFails _ _ hpc | setErr _ _ hpc | setCount _ hpc | wait hpc | load hpc | again _ hpc
    | leave _ hpc | unlock hpc | success hpc => rw [hpc] at hc; cases hc
  | call hm =>
    cases hm with
    | enter _ _ hpc | tooMany _ _ hpc | enterSingle _ _ hpc | single _ _ hpc | singleDone _ _ hpc
    | singleSucceed _ hpc | singleFail _ _ hpc | lockPool hpc | lockCond hpc | lockCaller hpc
    | clearError hpc | setJobCount _ hpc | setRunCount hpc | setFunc _ hpc | setUserInfo _ hpc
    | broadcast hpc | unlockCond hpc | wait hpc | wakeUp hpc | again hpc | leave hpc
    | unlockCaller hpc | readError hpc | unlockPool _ hpc => rw [hpc] at hc; cases hc
  | spurious => exact .inr ⟨_, rfl⟩
  | callerSpurious => exact absurd rfl he

theorem abandoned_next {e : Event N F U} (hn : next s e = some s') (he : e ≠ .callerSpurious)
    (h : Abandoned s) : Abandoned s' := by
  rcases blocked_next hn he h.caller h.callerCondVar with ⟨i, hm⟩ | ⟨condVar, rfl⟩
  · exact hm.abandoned h
  · exact ⟨h.caller, h.callerCondVar, h.missing, h.awaited, h.silent⟩

theorem Abandoned.stuck (h : Abandoned s) (k : ℕ) : LaunchStuck k s := by
  refine ⟨h.caller, h.callerCondVar, fun ⟨t, hp, ht⟩ => ?_⟩
  have ha : Abandoned t := hp.invariant (I := Abandoned)
    (fun _ _ _ hI hok hn => abandoned_next hn hok.2 hI) h
  rw [ha.caller] at ht
  cases ht

/-! ### A run in which only the caller moves -/

/-- The caller has launched `j` workers, none of which has moved yet. -/
structure AtTest (j : ℕ) (s : State N F U) : Prop where
  caller : s.caller = .initTest j
  gThreadCount : s.gThreadCount = N
  gRunning : s.gRunning = N
  worker : ∀ i : Fin N, s.worker i = if (i : ℕ) < j then .fetch else .notStarted

section CallerOnly

variable {k : ℕ} {P : State N F U → Event N F U → Prop}
  (hok : ∀ s e, (∀ i, e ≠ .worker i) → Creates k s e → P s e)

include hok

theorem reach_init (hr : (launch N F U).Reach P s) (h : threadPoolInit s = some s') :
    (launch N F U).Reach P s' := by
  refine .step .caller hr (hok _ _ nofun fun _ _ _ => nofun) ?_
  show (threadPoolInit s).or (threadPoolDo s) = some s'
  rw [h, Option.some_or]

theorem reach_create {j : ℕ} {err : Int} (hr : (launch N F U).Reach P s)
    (hc : s.caller = .initCreate j) (hj : err = 0 ↔ j < k) (h : createReturn s err = some s') :
    (launch N F U).Reach P s' := by
  refine .step (.create err) hr (hok _ _ nofun fun j' err' hc' he => ?_) h
  rw [hc] at hc'
  cases hc'
  cases he
  exact hj

theorem reach_atTest {s₀ : State N F U} (h0 : Unlaunched s₀) (j : ℕ) (hj : j ≤ k) (hk : k ≤ N) :
    ∃ s : State N F U, (launch N F U).Reach P s ∧ AtTest j s := by
  induction j with
  | zero =>
    have r0 : (launch N F U).Reach P { s₀ with caller := .initLock } := by
      refine .step .init (.start h0) (hok _ _ nofun fun _ _ _ => nofun) ?_
      show next s₀ .init = _
      rw [next, if_pos h0.caller]
    have r1 := reach_init hok r0 (if_pos h0.callerCondLock)
    have r2 := reach_init hok r1 rfl
    exact ⟨_, r2, rfl, h0.gThreadCount, h0.gThreadCount, fun i => by
      rw [if_neg (Nat.not_lt_zero _)]
      exact h0.worker i⟩
  | succ j ih =>
    obtain ⟨s, hr, hs⟩ := ih (by omega)
    have hjN : j < N := by omega
    have r1 : (launch N F U).Reach P { s with caller := .initCreate j } := by
      refine reach_init hok hr ?_
      simp only [threadPoolInit, hs.caller, hs.gThreadCount]
      rw [if_pos (by exact_mod_cast hjN)]
    have r2 : (launch N F U).Reach P
        { ({ s with caller := .initCreate j } : State N F U).goto ⟨j, hjN⟩ .fetch with
          caller := .initTest (j + 1) } := by
      refine reach_create hok r1 rfl (iff_of_true rfl (by omega)) ?_
      simp only [createReturn, ne_eq, not_true_eq_false, if_false, dif_pos hjN]
    refine ⟨_, r2, rfl, hs.gThreadCount, hs.gRunning, ?_⟩
    intro i
    show (({ s with caller := .initCreate j } : State N F U).goto ⟨j, hjN⟩ .fetch).worker i = _
    by_cases hi : i = ⟨j, hjN⟩
    · subst hi
      rw [goto_worker_self, if_pos (by simp)]
    · rw [goto_worker_of_ne hi]
      show s.worker i = _
      have hne : (i : ℕ) ≠ j := fun he => hi (Fin.ext he)
      rw [hs.worker i]
      by_cases hlt : (i : ℕ) < j
      · rw [if_pos hlt, if_pos (by omega)]
      · rw [if_neg hlt, if_neg (by omega)]

/-- **A failed launch strands the caller**: it gets to its wait before any worker
has moved, and from then on nobody will be the last. -/
theorem reach_abandoned {s₀ : State N F U} (h0 : Unlaunched s₀) (hk : k < N) :
    ∃ s : State N F U, (launch N F U).Reach P s ∧ Abandoned s := by
  obtain ⟨s, hr, hs⟩ := reach_atTest hok h0 k le_rfl hk.le
  have r1 : (launch N F U).Reach P { s with caller := .initCreate k } := by
    refine reach_init hok hr ?_
    simp only [threadPoolInit, hs.caller, hs.gThreadCount]
    rw [if_pos (by exact_mod_cast hk)]
  have r2 : (launch N F U).Reach P { s with caller := .initErr k 1 } :=
    reach_create hok r1 rfl (iff_of_false one_ne_zero (lt_irrefl k)) rfl
  have r3 := reach_init hok r2 rfl
  have r4 := reach_init hok r3 rfl
  have r5 := reach_init hok r4 rfl
  refine ⟨_, r5, rfl, rfl, ⟨⟨k, hk⟩, ?_⟩, ?_, fun j => ?_⟩
  · exact (hs.worker _).trans (if_neg (lt_irrefl k))
  · have hone : ∀ j, (s.worker j).awaited = 1 := by
      intro j
      rw [hs.worker j]
      split <;> rfl
    show ∑ j, (s.worker j).awaited ≤ s.gRunning
    simp [hone, hs.gRunning]
  · show s.worker j ≠ _ ∧ s.worker j ≠ _
    rw [hs.worker j]
    split <;> simp

end CallerOnly

end OpenCLCTS.ThreadPool
