import Mathlib.Algebra.Order.BigOperators.Group.Finset
import Mathlib.Data.Fintype.BigOperators
import OpenCLCTS.Lib.Dispenser
import OpenCLCTS.Lib.Threads
import OpenCLCTS.Harness.ThreadPool.Locks

/-!
# The pool between calls, and the two counters

The pool starts here where `ThreadPool_Init` leaves it: every worker is parked in
`pthread_cond_wait`.  From there on `gRunning` follows the program counters of
the workers, whatever the schedule.  `gRunCount` can only be decremented so often
after it wrapped around, because each worker that sees the large value leaves.
-/

namespace OpenCLCTS.ThreadPool

open Interleaving

variable {N : ℕ} {F U : Type} {s s' : State N F U} {i : Fin N}

/-! ### The start -/

/-- The state `ThreadPool_Init` leaves behind: all workers are parked. -/
structure Initialised (s : State N F U) : Prop where
  worker : ∀ i, s.worker i = .inWait
  condVar : ∀ i, s.condVar i = true
  caller : s.caller = .out none
  call : s.call = none
  handed : s.handed = []
  results : s.results = []
  condLock : s.condLock = none
  callerCondLock : s.callerCondLock = none
  gRunning : s.gRunning = 0
  gRunCount : s.gRunCount ≤ 0
  threadPoolInitErr : s.threadPoolInitErr = 0

/-- The initialised pool and any sequence of `ThreadPool_Do` calls. -/
def pool (N : ℕ) (F U : Type) : System (State N F U) (Event N F U) := ⟨Initialised, next⟩

/-- A pool of `N` workers after `ThreadPool_Init`. -/
def parked (N : ℕ) (F U : Type) : State N F U where
  gRunCount := -N
  gRunning := 0
  gThreadCount := N
  gJobCount := 0
  gFuncPtr := none
  gUserInfo := none
  jobError := 0
  threadPoolInitErr := 0
  gThreadPoolLock := none
  condLock := none
  callerCondLock := none
  condVar := fun _ => true
  callerCondVar := false
  worker := fun _ => .inWait
  caller := .out none
  call := none
  handed := []
  results := []

theorem parked_initialised : Initialised (parked N F U) := by
  constructor <;> simp [parked]

theorem Initialised.locks (h : Initialised s) : Locks s := by
  refine .of_none h.condLock h.callerCondLock ?_ (fun i => ?_) fun n hn => ?_
  · rw [h.caller]; exact ⟨rfl, rfl⟩
  · rw [h.worker]; exact ⟨rfl, rfl⟩
  · rw [h.caller] at hn; cases hn

/-! ### Where the caller can be -/

/-- The caller is in the multi-threaded part of `ThreadPool_Do`. -/
def CallerPc.serving : CallerPc → Bool
  | .lockPool | .lockCond | .lockCaller | .clearError | .setJobCount | .setRunCount | .setFunc
  | .setUserInfo | .broadcast | .unlockCond | .wait | .inWait | .test | .unlockCaller
  | .readError | .unlockPool _ => true
  | _ => false

/-- The caller makes calls to an initialised pool, and each call that got as far
as the critical region has passed the test of its count. -/
structure Ready (s : State N F U) : Prop where
  initErr : s.threadPoolInitErr = 0
  caller : (∃ res, s.caller = .out res) ∨ s.caller.serving
  call : s.caller.serving → ∃ c, s.call = some c ∧ (c.count : Int) < maxCount
  jobCount : s.caller = .setRunCount → ∀ c, s.call = some c → s.gJobCount = c.count

theorem Initialised.ready (h : Initialised s) : Ready s where
  initErr := h.threadPoolInitErr
  caller := .inl ⟨none, h.caller⟩
  call hs := by rw [h.caller] at hs; cases hs
  jobCount hs := by rw [h.caller] at hs; cases hs

theorem Ready.not_init (h : Ready s) : ¬ InitMove s s' := by
  intro hm
  have hc := h.caller
  cases hm <;> simp_all [CallerPc.serving]

theorem WorkerMove.ready (hm : WorkerMove s i s') (h : Ready s) : Ready s' := by
  obtain ⟨hc, hcall, hi, hj, -⟩ := hm.frame
  exact ⟨hi ▸ h.initErr, hc ▸ h.caller, hc ▸ hcall ▸ h.call, hc ▸ hcall ▸ hj ▸ h.jobCount⟩

theorem Ready.serve (h : Ready s) {t : State N F U} (hs : s.caller.serving)
    (hi : t.threadPoolInitErr = s.threadPoolInitErr) (hcall : t.call = s.call)
    (hc : t.caller.serving) (hj : t.caller ≠ .setRunCount) : Ready t where
  initErr := hi ▸ h.initErr
  caller := .inr hc
  call _ := hcall ▸ h.call hs
  jobCount hr := absurd hr hj

theorem DoMove.ready (hm : DoMove s s') (h : Ready s) : Ready s' := by
  have h0 := h.initErr
  cases hm with
  | enter c _ _ _ hlt =>
    exact ⟨h0, .inr rfl, fun _ => ⟨c, rfl, hlt⟩, nofun⟩
  | tooMany => exact ⟨h0, .inl ⟨_, rfl⟩, nofun, nofun⟩
  | enterSingle _ _ _ hne => exact absurd h0 hne
  | single _ _ hpc | singleDone _ _ hpc | singleSucceed _ hpc | singleFail _ _ hpc =>
    have hc := h.caller
    rw [hpc] at hc
    simp [CallerPc.serving] at hc
  | setJobCount c hpc hc =>
    exact ⟨h0, .inr rfl, fun _ => h.call (by rw [hpc]; rfl), fun _ c' hc' => by
      rw [hc, Option.some.injEq] at hc'
      exact hc' ▸ rfl⟩
  | unlockPool => exact ⟨h0, .inl ⟨_, rfl⟩, nofun, nofun⟩
  | lockPool hpc | lockCond hpc | lockCaller hpc | clearError hpc | setRunCount hpc | setFunc _ hpc
  | setUserInfo _ hpc | broadcast hpc | unlockCond hpc | wait hpc | wakeUp hpc | again hpc
  | leave hpc | unlockCaller hpc | readError hpc =>
    exact h.serve (by rw [hpc]; rfl) rfl rfl rfl nofun

theorem Ready.congr {t : State N F U} (h : Ready s)
    (hi : t.threadPoolInitErr = s.threadPoolInitErr) (hc : t.caller = s.caller)
    (hcall : t.call = s.call) (hj : t.gJobCount = s.gJobCount) : Ready t :=
  ⟨hi ▸ h.initErr, hc ▸ h.caller, hc ▸ hcall ▸ h.call, hc ▸ hcall ▸ hj ▸ h.jobCount⟩

/-! ### `gRunning` -/

/-- The worker is one of those `gRunning` counts. -/
def WorkerPc.counted : WorkerPc → Int
  | .fetch | .lockCond | .decRunning | .unlockCond _ | .checkError _ | .callJob _ | .inJob _
  | .casError _ | .dropRunCount => 1
  | _ => 0

/-- The worker has seen a value of `MAX_COUNT` or more and leaves its loop. -/
def WorkerPc.exiting : WorkerPc → Int
  | .unlockExit | .exit | .exited => 1
  | _ => 0

theorem sum_goto {A : Type*} [AddCommMonoid A] (f : WorkerPc → A) (pc : WorkerPc) :
    ∑ j, f ((s.goto i pc).worker j) + f (s.worker i) = ∑ j, f (s.worker j) + f pc :=
  sum_update (fun _ => f) s.worker i pc

/-- `gRunning` counts the running workers, and those that left while running. -/
structure Running (s : State N F U) : Prop where
  lower : ∑ j, (s.worker j).counted ≤ s.gRunning
  upper : s.gRunning ≤ ∑ j, (s.worker j).counted + ∑ j, (s.worker j).exiting

theorem Initialised.running (h : Initialised s) : Running s := by
  constructor <;> simp [h.worker, h.gRunning, WorkerPc.counted, WorkerPc.exiting]

theorem Running.goto (h : Running s) (t : State N F U) {p pc : WorkerPc} (hi : s.worker i = p)
    (hw : t.worker = s.worker)
    (h1 : s.gRunning + pc.counted ≤ t.gRunning + p.counted)
    (h2 : t.gRunning + p.counted + p.exiting ≤ s.gRunning + pc.counted + pc.exiting) :
    Running (t.goto i pc) := by
  have hc := sum_goto (s := t) (i := i) WorkerPc.counted pc
  have he := sum_goto (s := t) (i := i) WorkerPc.exiting pc
  rw [hw, hi] at hc he
  have hlo := h.lower
  have hup := h.upper
  constructor
  · rw [goto_gRunning]; omega
  · rw [goto_gRunning]; omega

theorem WorkerMove.running (hm : WorkerMove s i s') (h : Running s) : Running s' := by
  cases hm with
  | fetchItem hpc | fetchNone hpc | fetchExit hpc | lockCond hpc | lockCaller hpc
  | broadcastCaller hpc | unlockCaller hpc | wait hpc | wakeUp hpc | refetchItem hpc
  | refetchNone hpc | refetchExit hpc | unlockExit hpc | lastOut hpc | notLast hpc
  | incRunning _ hpc | unlockCond _ hpc | noError _ hpc | skip _ hpc | callJob _ _ _ hpc
  | succeed _ hpc | fail _ _ hpc | casError _ hpc | dropRunCount hpc | exit hpc =>
    refine h.goto _ hpc rfl ?_ ?_ <;> simp [WorkerPc.counted, WorkerPc.exiting]

theorem Running.congr {t : State N F U} (h : Running s) (hw : t.worker = s.worker)
    (hr : t.gRunning = s.gRunning) : Running t :=
  ⟨hw ▸ hr ▸ h.lower, hw ▸ hr ▸ h.upper⟩

theorem counted_nonneg (pc : WorkerPc) : 0 ≤ pc.counted := by
  unfold WorkerPc.counted
  split <;> decide

theorem exiting_nonneg (pc : WorkerPc) : 0 ≤ pc.exiting := by
  unfold WorkerPc.exiting
  split <;> decide

theorem exiting_le_one (pc : WorkerPc) : pc.exiting ≤ 1 := by
  unfold WorkerPc.exiting
  split <;> decide

theorem sum_exiting_le : ∑ j, (s.worker j).exiting ≤ N := by
  have h := Finset.sum_le_card_nsmul Finset.univ (fun j => (s.worker j).exiting) 1
    fun j _ => exiting_le_one _
  simpa using h

theorem Running.nonneg (h : Running s) : 0 ≤ s.gRunning :=
  (Finset.sum_nonneg fun _ _ => counted_nonneg _).trans h.lower

theorem Running.counted_eq_zero (h : Running s) (h0 : s.gRunning = 0) (j : Fin N) :
    (s.worker j).counted = 0 := by
  have hle := Finset.single_le_sum (f := fun k => (s.worker k).counted)
    (fun k _ => counted_nonneg _) (Finset.mem_univ j)
  have hlo := h.lower
  have hge := counted_nonneg (s.worker j)
  omega

/-! ### `gRunCount` after it wrapped around -/

/-- `gRunCount` is a number of the current call or below, or it has wrapped
around and every decrement since then made one worker leave. -/
def Wrap (s : State N F U) : Prop :=
  s.gRunCount < maxCount ∨
    N + 2 ^ 29 < 2 ^ 31 ∧ clIntMax ≤ s.gRunCount + ∑ j, (s.worker j).exiting

/-- The pool is small enough for a wrapped `gRunCount` to stay above `MAX_COUNT`,
or the step does not wrap it. -/
def NoWrap (s : State N F U) (i : Fin N) : Prop :=
  s.worker i = .fetch ∨ s.worker i = .refetch → s.gRunCount = clIntMin → N + 2 ^ 29 < 2 ^ 31

instance (s : State N F U) (i : Fin N) : Decidable (NoWrap s i) :=
  inferInstanceAs (Decidable (_ → _ → _))

theorem Initialised.wrap (h : Initialised s) : Wrap s :=
  .inl (lt_of_le_of_lt h.gRunCount maxCount_pos)

/-- While some worker is still there to read it, a wrapped counter stays large,
one more decrement included. -/
theorem Wrap.lt (h : Wrap s) (hge : maxCount ≤ s.gRunCount) (hi : (s.worker i).exiting = 0) :
    maxCount < s.gRunCount := by
  obtain ⟨hN, h⟩ := h.resolve_left (not_lt.mpr hge)
  have he := sum_goto (s := s) (i := i) WorkerPc.exiting .exited
  have hle := sum_exiting_le (s := s.goto i .exited)
  have h1 : WorkerPc.exited.exiting = 1 := rfl
  unfold clIntMax maxCount at *
  omega

theorem Wrap.goto (h : Wrap s) (t : State N F U) {p pc : WorkerPc} (hi : s.worker i = p)
    (hw : t.worker = s.worker)
    (ht : t.gRunCount < maxCount ∨
      maxCount ≤ s.gRunCount ∧ s.gRunCount + p.exiting ≤ t.gRunCount + pc.exiting ∨
      N + 2 ^ 29 < 2 ^ 31 ∧ t.gRunCount = clIntMax) :
    Wrap (t.goto i pc) := by
  have he := sum_goto (s := t) (i := i) WorkerPc.exiting pc
  rw [hw, hi] at he
  rcases ht with ht | ⟨hge, ht⟩ | ⟨hN, ht⟩
  · exact .inl ht
  · obtain ⟨hN, h⟩ := h.resolve_left (not_lt.mpr hge)
    refine .inr ⟨hN, ?_⟩
    rw [goto_gRunCount]
    omega
  · refine .inr ⟨hN, ?_⟩
    have hnn : 0 ≤ ∑ j, ((t.goto i pc).worker j).exiting :=
      Finset.sum_nonneg fun j _ => exiting_nonneg _
    rw [goto_gRunCount, ht]
    omega

theorem Wrap.goto_keep (h : Wrap s) (t : State N F U) {p pc : WorkerPc} (hi : s.worker i = p)
    (hw : t.worker = s.worker) (hr : t.gRunCount = s.gRunCount)
    (he : p.exiting ≤ pc.exiting) : Wrap (t.goto i pc) := by
  refine h.goto t hi hw ?_
  by_cases hlt : s.gRunCount < maxCount
  · exact .inl (hr ▸ hlt)
  · exact .inr (.inl ⟨not_lt.mp hlt, by omega⟩)

/-- What a fetch that finds nothing leaves on the counter. -/
theorem NoWrap.decr (hok : NoWrap s i) (hpc : s.worker i = .fetch ∨ s.worker i = .refetch)
    (h0 : s.gRunCount ≤ 0) :
    decr s.gRunCount < maxCount ∨ N + 2 ^ 29 < 2 ^ 31 ∧ decr s.gRunCount = clIntMax := by
  rcases decr_of_nonpos h0 with hlt | ⟨hmin, hmax⟩
  · exact .inl (hlt.trans maxCount_pos)
  · exact .inr ⟨hok hpc hmin, hmax⟩

theorem WorkerMove.wrap (hm : WorkerMove s i s') (hok : NoWrap s i) (h : Wrap s) : Wrap s' := by
  cases hm with
  | fetchItem hpc h0 h1 | refetchItem hpc h0 h1 => exact h.goto _ hpc rfl (.inl (by simp; omega))
  | fetchNone hpc h0 =>
    exact h.goto _ hpc rfl ((hok.decr (.inl hpc) h0).imp_right .inr)
  | refetchNone hpc h0 =>
    exact h.goto _ hpc rfl ((hok.decr (.inr hpc) h0).imp_right .inr)
  | fetchExit hpc h1 | refetchExit hpc h1 =>
    exact h.goto _ hpc rfl (.inr (.inl ⟨h1, by simp [WorkerPc.exiting]⟩))
  | dropRunCount hpc => exact h.goto _ hpc rfl (.inl maxCount_pos)
  | lockCond hpc | lockCaller hpc | broadcastCaller hpc | unlockCaller hpc | wait hpc | wakeUp hpc
  | unlockExit hpc | lastOut hpc | notLast hpc | incRunning _ hpc | unlockCond _ hpc
  | noError _ hpc | skip _ hpc | callJob _ _ _ hpc | succeed _ hpc | fail _ _ hpc | casError _ hpc
  | exit hpc =>
    exact h.goto_keep _ hpc rfl rfl (by simp [WorkerPc.exiting])

theorem Wrap.congr {t : State N F U} (h : Wrap s) (hw : t.worker = s.worker)
    (hr : t.gRunCount = s.gRunCount) : Wrap t := by
  unfold Wrap at *
  rwa [hw, hr]

theorem DoMove.wrap (hm : DoMove s s') (hready : Ready s) (h : Wrap s) : Wrap s' := by
  cases hm with
  | setRunCount hpc =>
    obtain ⟨c, hc, hlt⟩ := hready.call (by rw [hpc]; rfl)
    exact .inl (by simpa only [hready.jobCount hpc c hc] using hlt)
  | _ => exact h.congr rfl rfl

/-! ### All of them, in every run -/

/-- What is known of every state of the pool, whatever else happens. -/
structure Base (s : State N F U) : Prop where
  locks : Locks s
  ready : Ready s
  running : Running s

theorem base_next {e : Event N F U} (hn : next s e = some s') (h : Base s) : Base s' := by
  refine ⟨locks_next hn h.locks, ?_, ?_⟩
  · cases move_of_next hn with
    | worker hm => exact hm.ready h.ready
    | job _ _ hm => exact hm.ready h.ready
    | init hm => exact absurd hm h.ready.not_init
    | call hm => exact hm.ready h.ready
    | spurious => exact h.ready.congr rfl rfl rfl rfl
    | callerSpurious => exact h.ready.congr rfl rfl rfl rfl
  · cases move_of_next hn with
    | worker hm => exact hm.running h.running
    | job _ _ hm => exact hm.running h.running
    | init hm => exact absurd hm h.ready.not_init
    | call hm => exact h.running.congr hm.frame.1 hm.frame.2.1
    | spurious => exact h.running.congr rfl rfl
    | callerSpurious => exact h.running.congr rfl rfl

theorem pool_base {ok : State N F U → Event N F U → Prop} (h : (pool N F U).Reach ok s) :
    Base s :=
  h.invariant (I := Base)
    (fun _ hi => ⟨Initialised.locks hi, Initialised.ready hi, Initialised.running hi⟩)
    fun _ _ _ hb _ hn => base_next hn hb

end OpenCLCTS.ThreadPool
