import OpenCLCTS.Harness.ThreadPool.Launch
import OpenCLCTS.Harness.ThreadPool.Ledger

/-!
# The launch of all workers

When every `pthread_create` succeeds and no worker fetches a second time too
early, `gRunning` counts the workers that have yet to go to sleep and
`-gRunCount` those that have fetched.  The last worker to go to sleep therefore
signals a caller that finds the value it waits for.
-/

namespace OpenCLCTS.ThreadPool

open Interleaving

variable {N : ℕ} {F U : Type} {s s' : State N F U} {i : Fin N}

/-! ### The counters during the launch -/

/-- The worker has decremented `gRunCount`. -/
def WorkerPc.fetched : WorkerPc → Int
  | .notStarted | .fetch => 0
  | _ => 1

/-- The worker goes through its first round. -/
def WorkerPc.launching : WorkerPc → Bool
  | .notStarted | .fetch | .lockCond | .decRunning | .lockCaller | .broadcastCaller
  | .unlockCaller | .wait | .inWait | .refetch => true
  | _ => false

/-- The signal of the launch is yet to come from this worker, or a later one. -/
def WorkerPc.owes : WorkerPc → Bool
  | .notStarted | .fetch | .lockCond | .decRunning | .lockCaller | .broadcastCaller => true
  | _ => false

/-- The worker is the last one, and about to signal. -/
def WorkerPc.signals : WorkerPc → Bool
  | .lockCaller | .broadcastCaller => true
  | _ => false

/-- `ThreadPool_Init` has set `gRunning`. -/
def CallerPc.counting : CallerPc → Bool
  | .initTest _ | .initCreate _ | .initWait | .initInWait | .initLoad | .initCompare _ => true
  | _ => false

/-- The caller relies on a signal that has not been sent yet. -/
def CallerPc.needy (blocked : Bool) : CallerPc → Bool
  | .initTest _ | .initCreate _ | .initWait | .initCompare _ => true
  | .initInWait => blocked
  | _ => false

def State.needy (s : State N F U) : Prop := s.caller.needy s.callerCondVar = true

theorem needy_of_needy_false {pc : CallerPc} (b : Bool) (h : pc.needy false = true) :
    pc.needy b = true := by
  cases pc <;> first | rfl | cases h

/-- How many workers the caller has launched, at least. -/
def CallerPc.launchedAtLeast (N : ℕ) : CallerPc → ℕ
  | .initTest j | .initCreate j => j
  | .initWait | .initInWait | .initLoad | .initCompare _ => N
  | _ => 0

/-- The launch before the caller has seen the right `gRunCount`. -/
structure Launching (s : State N F U) : Prop where
  gThreadCount : s.gThreadCount = N
  gRunCount : s.gRunCount = -∑ j, (s.worker j).fetched
  gRunning : s.caller.counting → s.gRunning = ∑ j, (s.worker j).awaited
  started : ∀ j : Fin N, (j : ℕ) < s.caller.launchedAtLeast N → s.worker j ≠ .notStarted
  fresh : s.caller.counting = false → ∀ j, s.worker j = .notStarted
  creating : ∀ j, s.caller = .initCreate j → j < N
  noErr : ∀ j err, s.caller ≠ .initErr j err ∧ s.caller ≠ .initCount j
  launching : ∀ j, (s.worker j).launching
  last : ∀ j, s.worker j = .refetch ∨ (s.worker j).signals → s.gRunning = 0
  needy : s.needy → ∃ j, (s.worker j).owes

theorem Unlaunched.launching (h : Unlaunched s) : Launching s where
  gThreadCount := h.gThreadCount
  gRunCount := by simp [h.worker, h.gRunCount, WorkerPc.fetched]
  gRunning hc := by rw [h.caller] at hc; cases hc
  started j hj := by rw [h.caller] at hj; exact absurd hj (Nat.not_lt_zero _)
  fresh _ := h.worker
  creating j hj := by rw [h.caller] at hj; cases hj
  noErr j err := by rw [h.caller]; exact ⟨nofun, nofun⟩
  launching j := by rw [h.worker]; rfl
  last j hj := by rw [h.worker] at hj; rcases hj with hj | hj <;> cases hj
  needy hn := by unfold State.needy at hn; rw [h.caller] at hn; cases hn

theorem sum_fetched_le : ∑ j, (s.worker j).fetched ≤ N := by
  have h := Finset.sum_le_card_nsmul Finset.univ (fun j => (s.worker j).fetched) 1 fun j _ => by
    unfold WorkerPc.fetched
    split <;> decide
  simpa using h

theorem fetched_nonneg (pc : WorkerPc) : 0 ≤ pc.fetched := by
  unfold WorkerPc.fetched
  split <;> decide

theorem owes_of_awaited {pc : WorkerPc} (hl : pc.launching = true) (ha : pc.awaited ≠ 0) :
    pc.owes = true := by
  cases pc with
  | notStarted | fetch | lockCond | decRunning | lockCaller | broadcastCaller => rfl
  | unlockCaller | wait | inWait | refetch => exact absurd rfl ha
  | _ => cases hl

theorem gRunning_pos (h : s.gRunning = ∑ j, (s.worker j).awaited) (hi : (s.worker i).awaited = 1) :
    1 ≤ s.gRunning := by
  have hle := Finset.single_le_sum (f := fun k => (s.worker k).awaited)
    (fun k _ => awaited_nonneg _) (Finset.mem_univ i)
  omega

theorem Launching.goto (h : Launching s) (t : State N F U) {p pc : WorkerPc} (hi : s.worker i = p)
    (hp : p ≠ .notStarted) (hw : t.worker = s.worker) (hc : t.caller = s.caller)
    (hth : t.gThreadCount = s.gThreadCount)
    (hrc : t.gRunCount + pc.fetched = s.gRunCount + p.fetched)
    (hr : t.gRunning + p.awaited = s.gRunning + pc.awaited) (hpc : pc.launching = true)
    (hne : pc ≠ .notStarted) (hlast : pc = .refetch ∨ pc.signals = true → t.gRunning = 0)
    (hz : s.gRunning = 0 → t.gRunning = 0)
    (hneedy : t.needy → ∃ j, ((t.goto i pc).worker j).owes) : Launching (t.goto i pc) where
  gThreadCount := hth.trans h.gThreadCount
  gRunCount := by
    have hsum := sum_goto (s := t) (i := i) WorkerPc.fetched pc
    rw [hw, hi] at hsum
    have := h.gRunCount
    rw [goto_gRunCount]
    omega
  gRunning hcc := by
    rw [goto_caller, hc] at hcc
    have hsum := sum_goto (s := t) (i := i) WorkerPc.awaited pc
    rw [hw, hi] at hsum
    have := h.gRunning hcc
    rw [goto_gRunning]
    omega
  started j hj := by
    by_cases hji : j = i
    · subst hji; rw [goto_worker_self]; exact hne
    · rw [goto_worker_of_ne hji, hw]
      rw [goto_caller, hc] at hj
      exact h.started j hj
  fresh hcc := by
    rw [goto_caller, hc] at hcc
    exact absurd (hi.symm.trans (h.fresh hcc i)) hp
  creating j hj := h.creating j (hc ▸ hj)
  noErr j err := by rw [goto_caller, hc]; exact h.noErr j err
  launching j := by
    by_cases hji : j = i
    · subst hji; rw [goto_worker_self]; exact hpc
    · rw [goto_worker_of_ne hji, hw]; exact h.launching j
  last j hj := by
    by_cases hji : j = i
    · subst hji
      rw [goto_worker_self] at hj
      exact hlast hj
    · rw [goto_worker_of_ne hji, hw] at hj
      exact hz (h.last j hj)
  needy := hneedy

/-- The signal is still owed after a move of a worker that did not owe it. -/
theorem Launching.owes_goto (h : Launching s) (t : State N F U) {p pc : WorkerPc}
    (hi : s.worker i = p) (hw : t.worker = s.worker) (hn : t.needy → s.needy)
    (ho : p.owes = false ∨ pc.owes = true) (ht : t.needy) :
    ∃ j, ((t.goto i pc).worker j).owes := by
  rcases ho with ho | ho
  · obtain ⟨j, hj⟩ := h.needy (hn ht)
    have hji : j ≠ i := by
      rintro rfl
      rw [hi, ho] at hj
      cases hj
    exact ⟨j, by rw [goto_worker_of_ne hji, hw]; exact hj⟩
  · exact ⟨i, by rw [goto_worker_self]; exact ho⟩

/-- A caller that holds `caller_cond_lock` or is blocked is not signalled twice. -/
theorem Launching.not_needy_broadcast (hl : Locks s) (hpc : s.worker i = .broadcastCaller) :
    ¬ State.needy ({ s with callerCondVar := false } : State N F U) := by
  have hh : s.holdsCallerCond (.worker i) = true := by rw [holdsCallerCond_worker, hpc]; rfl
  have hno : s.caller.holdsCallerCond ≠ true := by
    intro hcc
    cases hl.callerCond.unique hh (show s.holdsCallerCond .caller = true from hcc)
  intro hn
  have hn' : s.caller.needy false = true := hn
  cases hc : s.caller with
  | initTest | initCreate | initWait | initCompare => rw [hc] at hno; exact hno rfl
  | _ => rw [hc] at hn'; cases hn'

theorem WorkerMove.launching (hm : WorkerMove s i s') (hN : (N : Int) ≤ clIntMax) (hl : Locks s)
    (hw : s.worker i = .inWait → s.gRunning = 0) (hrf : s.worker i ≠ .refetch)
    (h : Launching s) : Launching s' := by
  have hle := sum_fetched_le (s := s)
  have hnn : 0 ≤ ∑ j, (s.worker j).fetched := Finset.sum_nonneg fun j _ => fetched_nonneg _
  have hrc := h.gRunCount
  have hlau := h.launching i
  have hcount : s.worker i ≠ .notStarted → s.caller.counting = true := by
    intro hne
    by_contra hc
    exact hne (h.fresh (by simpa using hc) i)
  cases hm with
  | fetchItem hpc h0 => omega
  | fetchExit hpc h1 => have := maxCount_pos; omega
  | fetchNone hpc h0 =>
    have hlt : decr s.gRunCount = s.gRunCount - 1 := by
      apply if_neg
      intro hmin
      have hsum := sum_goto (s := s) (i := i) WorkerPc.fetched .lockCond
      have hle' := sum_fetched_le (s := s.goto i .lockCond)
      have h1 : WorkerPc.lockCond.fetched = 1 := rfl
      have h2 : WorkerPc.fetch.fetched = 0 := rfl
      rw [hpc] at hsum
      unfold clIntMin clIntMax at *
      omega
    exact h.goto _ hpc (by simp) rfl rfl rfl (by simp [WorkerPc.fetched, hlt])
      (by simp [WorkerPc.awaited, WorkerPc.counted]) rfl (by simp) (by simp [WorkerPc.signals]) id
      (h.owes_goto _ hpc rfl id (.inr rfl))
  | lockCond hpc =>
    exact h.goto _ hpc (by simp) rfl rfl rfl rfl rfl rfl (by simp) (by simp [WorkerPc.signals]) id
      (h.owes_goto _ hpc rfl id (.inr rfl))
  | lastOut hpc h1 =>
    exact h.goto _ hpc (by simp) rfl rfl rfl rfl (by simp [WorkerPc.awaited, WorkerPc.counted]) rfl
      (by simp) (fun _ => by simp [h1]) (by omega) (h.owes_goto _ hpc rfl id (.inr rfl))
  | notLast hpc h1 =>
    have hc := hcount (by rw [hpc]; simp)
    have hpos := gRunning_pos (h.gRunning hc) (by rw [hpc]; rfl)
    have hsum := sum_goto (s := s) (i := i) WorkerPc.awaited .wait
    have hg := h.gRunning hc
    have ha1 : WorkerPc.decRunning.awaited = 1 := rfl
    have ha0 : WorkerPc.wait.awaited = 0 := rfl
    rw [hpc] at hsum
    refine h.goto _ hpc (by simp) rfl rfl rfl rfl (by simp [WorkerPc.awaited, WorkerPc.counted]) rfl
      (by simp) (by simp [WorkerPc.signals]) (by omega) fun _ => ?_
    obtain ⟨j, -, hj⟩ := Finset.exists_ne_zero_of_sum_ne_zero
      (show ∑ j, ((s.goto i .wait).worker j).awaited ≠ 0 by omega)
    have hji : j ≠ i := by
      rintro rfl
      rw [goto_worker_self] at hj
      exact hj rfl
    rw [goto_worker_of_ne hji] at hj
    exact ⟨j, by rw [goto_worker_of_ne hji]; exact owes_of_awaited (h.launching j) hj⟩
  | lockCaller hpc =>
    have h0 := h.last i (.inr (by rw [hpc]; rfl))
    exact h.goto _ hpc (by simp) rfl rfl rfl rfl rfl rfl (by simp) (fun _ => h0) id
      (h.owes_goto _ hpc rfl id (.inr rfl))
  | broadcastCaller hpc =>
    exact h.goto _ hpc (by simp) rfl rfl rfl rfl rfl rfl (by simp) (by simp [WorkerPc.signals]) id
      fun hn => absurd hn (Launching.not_needy_broadcast hl hpc)
  | unlockCaller hpc | wait hpc =>
    exact h.goto _ hpc (by simp) rfl rfl rfl rfl rfl rfl (by simp) (by simp [WorkerPc.signals]) id
      (h.owes_goto _ hpc rfl id (.inl rfl))
  | wakeUp hpc =>
    exact h.goto _ hpc (by simp) rfl rfl rfl rfl rfl rfl (by simp) (fun _ => hw hpc) id
      (h.owes_goto _ hpc rfl id (.inl rfl))
  | refetchItem hpc | refetchNone hpc | refetchExit hpc => exact absurd hpc hrf
  | unlockExit hpc | incRunning _ hpc | unlockCond _ hpc | noError _ hpc | skip _ hpc
  | callJob _ _ _ hpc | succeed _ hpc | fail _ _ hpc | casError _ hpc | dropRunCount hpc
  | exit hpc => rw [hpc] at hlau; cases hlau

theorem Launching.caller (h : Launching s) {t : State N F U} {p : CallerPc} (hpc : s.caller = p)
    (hw : t.worker = s.worker) (hth : t.gThreadCount = s.gThreadCount)
    (hrc : t.gRunCount = s.gRunCount) (hr : t.gRunning = s.gRunning)
    (hcc : t.caller.counting = p.counting)
    (hst : ∀ j : Fin N, (j : ℕ) < t.caller.launchedAtLeast N → (j : ℕ) < p.launchedAtLeast N)
    (hcr : ∀ j, t.caller = .initCreate j → j < N)
    (hne : ∀ j err, t.caller ≠ .initErr j err ∧ t.caller ≠ .initCount j)
    (hn : t.needy → ∃ j, (s.worker j).owes) : Launching t := by
  subst hpc
  exact ⟨hth.trans h.gThreadCount, hw ▸ hrc.trans h.gRunCount,
    fun hc => hw ▸ hr.trans (h.gRunning (hcc ▸ hc)), fun j hj => hw ▸ h.started j (hst j hj),
    fun hc => hw ▸ h.fresh (hcc ▸ hc), hcr, hne, hw ▸ h.launching, hw ▸ hr ▸ h.last, hw ▸ hn⟩

theorem Launching.create (h : Launching s) {j : ℕ} (hj : j < N) (hpc : s.caller = .initCreate j)
    (hnew : s.worker ⟨j, hj⟩ = .notStarted) :
    Launching { s.goto ⟨j, hj⟩ .fetch with caller := .initTest (j + 1) } := by
  have hf := sum_goto (s := s) (i := ⟨j, hj⟩) WorkerPc.fetched .fetch
  have ha := sum_goto (s := s) (i := ⟨j, hj⟩) WorkerPc.awaited .fetch
  rw [hnew] at hf ha
  have hg := h.gRunning (by rw [hpc]; rfl)
  have hrc := h.gRunCount
  have hf1 : WorkerPc.notStarted.fetched = WorkerPc.fetch.fetched := rfl
  have ha1 : WorkerPc.notStarted.awaited = WorkerPc.fetch.awaited := rfl
  refine ⟨h.gThreadCount, ?_, fun _ => ?_, fun k hk => ?_, nofun, nofun, fun _ _ => ⟨nofun, nofun⟩,
    fun k => ?_, fun k hk => ?_, fun _ => ⟨⟨j, hj⟩, ?_⟩⟩
  · show s.gRunCount = -∑ k, ((s.goto ⟨j, hj⟩ .fetch).worker k).fetched
    omega
  · show s.gRunning = ∑ k, ((s.goto ⟨j, hj⟩ .fetch).worker k).awaited
    omega
  · show (s.goto ⟨j, hj⟩ .fetch).worker k ≠ .notStarted
    by_cases hkj : k = ⟨j, hj⟩
    · subst hkj; rw [goto_worker_self]; nofun
    · rw [goto_worker_of_ne hkj]
      have hne : (k : ℕ) ≠ j := fun he => hkj (Fin.ext he)
      have hlt : (k : ℕ) < j + 1 := hk
      exact h.started k (by rw [hpc]; show (k : ℕ) < j; omega)
  · show ((s.goto ⟨j, hj⟩ .fetch).worker k).launching = true
    by_cases hkj : k = ⟨j, hj⟩
    · subst hkj; rw [goto_worker_self]; rfl
    · rw [goto_worker_of_ne hkj]; exact h.launching k
  · have hk' : (s.goto ⟨j, hj⟩ .fetch).worker k = .refetch ∨
        ((s.goto ⟨j, hj⟩ .fetch).worker k).signals = true := hk
    by_cases hkj : k = ⟨j, hj⟩
    · subst hkj
      rw [goto_worker_self] at hk'
      rcases hk' with hk' | hk' <;> cases hk'
    · rw [goto_worker_of_ne hkj] at hk'
      exact h.last k hk'
  · show ((s.goto ⟨j, hj⟩ .fetch).worker ⟨j, hj⟩).owes = true
    rw [goto_worker_self]; rfl

theorem Launching.exists_not_fetched (h : Launching s) (hne : s.gRunCount ≠ -N) :
    ∃ j, (s.worker j).fetched = 0 := by
  by_contra hno
  have hall : ∀ j, (s.worker j).fetched = 1 := by
    intro j
    cases hpc : s.worker j with
    | notStarted | fetch => exact absurd ⟨j, by rw [hpc]; rfl⟩ hno
    | _ => rfl
  have hrc := h.gRunCount
  simp only [hall, Finset.sum_const, Finset.card_univ, Fintype.card_fin, nsmul_eq_mul,
    mul_one] at hrc
  exact hne hrc

theorem owes_of_not_fetched {pc : WorkerPc} (h : pc.fetched = 0) :
    pc.owes = true ∧ pc.awaited = 1 := by
  cases pc <;> first | exact ⟨rfl, rfl⟩ | cases h

theorem Launching.exists_owes (h : Launching s) (hne : s.gRunCount ≠ -N) :
    ∃ j, (s.worker j).owes := by
  obtain ⟨j, hj⟩ := h.exists_not_fetched hne
  exact ⟨j, (owes_of_not_fetched hj).1⟩

/-- Once all workers have gone to sleep, the caller finds what it waits for. -/
theorem Launching.gRunCount_eq (h : Launching s) (hc : s.caller.counting = true)
    (h0 : s.gRunning = 0) : s.gRunCount = -N := by
  by_contra hne
  obtain ⟨j, hj⟩ := h.exists_not_fetched hne
  have := gRunning_pos (h.gRunning hc) (owes_of_not_fetched hj).2
  omega

theorem InitMove.launching (hm : InitMove s s') (hN : 0 < N) (hl : Locks s)
    (hok : ∀ j err, s.caller = .initCreate j → s'.caller ≠ .initErr j err)
    (hd : s'.caller.launchDone N = false) (h : Launching s) : Launching s' := by
  cases hm with
  | enter hpc | lock hpc =>
    exact h.caller hpc rfl rfl rfl rfl rfl (fun _ hj => hj) (by simp) (fun _ _ => by simp)
      fun hn => by cases hn
  | setRunning hpc =>
    have hnew := h.fresh (by rw [hpc]; rfl)
    refine ⟨h.gThreadCount, h.gRunCount, fun _ => ?_, fun _ hk => absurd hk (Nat.not_lt_zero _),
      fun hc => (by cases hc), by simp,
      fun _ _ => by simp, h.launching, fun j hj => ?_, fun _ => ⟨⟨0, hN⟩, ?_⟩⟩
    · show s.gThreadCount = ∑ j, (s.worker j).awaited
      simp [hnew, h.gThreadCount, WorkerPc.awaited]
    · have hj' : s.worker j = .refetch ∨ (s.worker j).signals = true := hj
      rw [hnew j] at hj'
      rcases hj' with hj' | hj' <;> cases hj'
    · show (s.worker ⟨0, hN⟩).owes = true
      rw [hnew]; rfl
  | more j hpc hj =>
    have hn : s.needy := by unfold State.needy; rw [hpc]; rfl
    have hjN : j < N := by rw [h.gThreadCount] at hj; exact_mod_cast hj
    exact h.caller hpc rfl rfl rfl rfl rfl (fun _ hj => hj) (fun _ hc => by cases hc; exact hjN)
      (fun _ _ => by simp) fun _ => h.needy hn
  | noMore j hpc hj =>
    have hn : s.needy := by unfold State.needy; rw [hpc]; rfl
    rw [h.gThreadCount] at hj
    exact h.caller hpc rfl rfl rfl rfl rfl (fun k _ => by show (k : ℕ) < j; omega) (by simp)
      (fun _ _ => by simp) fun _ => h.needy hn
  | create j hj hpc => exact h.create hj hpc (hl.fresh j (by rw [hpc]; rfl) _ le_rfl)
  | createFails j err hpc => exact absurd rfl (hok j err hpc)
  | setErr j err hpc => exact absurd hpc (h.noErr j err).1
  | setCount j hpc => exact absurd hpc (h.noErr j 0).2
  | wait hpc =>
    have hn : s.needy := by unfold State.needy; rw [hpc]; rfl
    exact h.caller hpc rfl rfl rfl rfl rfl (fun _ hj => hj) (by simp) (fun _ _ => by simp)
      fun _ => h.needy hn
  | wakeUp hpc =>
    exact h.caller hpc rfl rfl rfl rfl rfl (fun _ hj => hj) (by simp) (fun _ _ => by simp)
      fun hn => by cases hn
  | load hpc =>
    have hne : s.gRunCount ≠ -N := by simpa [CallerPc.launchDone] using hd
    exact h.caller hpc rfl rfl rfl rfl rfl (fun _ hj => hj) (by simp) (fun _ _ => by simp)
      fun _ => h.exists_owes hne
  | again runCount hpc =>
    have hn : s.needy := by unfold State.needy; rw [hpc]; rfl
    exact h.caller hpc rfl rfl rfl rfl rfl (fun _ hj => hj) (by simp) (fun _ _ => by simp)
      fun _ => h.needy hn
  | leave | unlock | success => cases hd

/-! ### In every run -/

theorem create_of_next {e : Event N F U} {j j' : ℕ} {err : Int} (hn : next s e = some s')
    (hc : s.caller = .initCreate j) (hs : s'.caller = .initErr j' err) :
    ∃ err', e = .create err' ∧ err' ≠ 0 := by
  have hkeep : s'.caller ≠ s.caller := by rw [hc, hs]; nofun
  cases e with
  | create err' =>
    refine ⟨err', rfl, ?_⟩
    rintro rfl
    simp only [next, createReturn, hc, ne_eq, not_true_eq_false, if_false] at hn
    split at hn <;> cases hn
    cases hs
  | init => simp only [next, hc, reduceCtorEq, if_false] at hn
  | call f n u => simp only [next, enterDo, hc, reduceCtorEq] at hn
  | caller => simp only [next, threadPoolInit, threadPoolDo, hc, Option.none_or, reduceCtorEq] at hn
  | callerJob err' => simp only [next, callerJobReturn, hc, reduceCtorEq] at hn
  | worker i => exact absurd (workerMove_of_worker hn).frame.1 hkeep
  | job i err' => exact absurd (workerMove_of_job hn).frame.1 hkeep
  | callerSpurious | spurious =>
    simp only [next] at hn
    split at hn <;> cases hn
    exact absurd rfl hkeep

/-- What holds in every run of a launch that succeeds.  Once the caller has seen
the right value, it leaves. -/
structure LaunchInv (s : State N F U) : Prop where
  locks : Locks s
  launching : s.caller.launchDone N = false → Launching s
  threads : s.caller = .initCompare (-N) → s.gThreadCount = N

theorem WorkerMove.gThreadCount (hm : WorkerMove s i s') (hne : s.worker i ≠ .exit) :
    s'.gThreadCount = s.gThreadCount := by
  cases hm with
  | exit hpc => exact absurd hpc hne
  | _ => rfl

theorem InitMove.launchDone (hm : InitMove s s') (h : LaunchInv s)
    (hd : s.caller.launchDone N = true) : s'.caller.launchDone N = true := by
  cases hm with
  | leave | unlock | success => rfl
  | again runCount hpc hne =>
    rw [hpc] at hd
    have hrc : runCount = -N := by simpa [CallerPc.launchDone] using hd
    rw [h.threads (hrc ▸ hpc), hrc] at hne
    exact absurd rfl hne
  | enter hpc | lock hpc | setRunning hpc | more _ hpc | noMore _ hpc | create _ _ hpc
  | createFails _ _ hpc | setErr _ _ hpc | setCount _ hpc | wait hpc | wakeUp hpc | load hpc =>
    rw [hpc] at hd; cases hd

theorem DoMove.launchDone (hm : DoMove s s') : s'.caller.launchDone N = true := by
  cases hm <;> rfl

theorem Launching.congr (h : Launching s) {t : State N F U} (hw : t.worker = s.worker)
    (hth : t.gThreadCount = s.gThreadCount) (hrc : t.gRunCount = s.gRunCount)
    (hr : t.gRunning = s.gRunning) (hc : t.caller = s.caller) (hn : t.needy → s.needy) :
    Launching t :=
  h.caller rfl hw hth hrc hr (by rw [hc]) (fun _ hj => hc ▸ hj) (fun j hj => h.creating j (hc ▸ hj))
    (fun j err => hc ▸ h.noErr j err) fun ht => h.needy (hn ht)

theorem launchInv_next {e : Event N F U} (hn : next s e = some s') (hN : 0 < N)
    (hN' : (N : Int) ≤ clIntMax) (hcr : Creates N s e) (hok : Asleep s e) (h : LaunchInv s) :
    LaunchInv s' := by
  have hl := locks_next hn h.locks
  have hcreate : s.caller.launchDone N = false → ∀ j err, s.caller = .initCreate j →
      s'.caller ≠ .initErr j err := by
    intro hd j err hc hs
    obtain ⟨err', rfl, hne⟩ := create_of_next hn hc hs
    exact hne ((hcr j err' hc rfl).mpr ((h.launching hd).creating j hc))
  cases move_of_next hn with
  | @worker i _ hm =>
    obtain ⟨h1, h2⟩ := hok i rfl
    have hc := hm.frame.1
    refine ⟨hl, fun hd => ?_, fun hcmp => ?_⟩
    · rw [hc] at hd
      exact hm.launching hN' h.locks (h1 hd).1 (h1 hd).2 (h.launching hd)
    · rw [hc] at hcmp
      exact (hm.gThreadCount (h2 hcmp)).trans (h.threads hcmp)
  | @job i _ _ item hpc hm =>
    have hc := hm.frame.1
    refine ⟨hl, fun hd => ?_, fun hcmp => ?_⟩
    · rw [hc] at hd
      have hlau := (h.launching hd).launching i
      rw [hpc] at hlau
      cases hlau
    · rw [hc] at hcmp
      exact (hm.gThreadCount (by rw [hpc]; nofun)).trans (h.threads hcmp)
  | init hm =>
    refine ⟨hl, fun hd => ?_, fun hcmp => ?_⟩
    · have hd' : s.caller.launchDone N = false := by
        by_contra hne
        have := hm.launchDone h (by simpa using hne)
        rw [hd] at this
        cases this
      exact hm.launching hN h.locks (hcreate hd') hd (h.launching hd')
    · cases hm with
      | load hpc => exact (h.launching (by rw [hpc]; rfl)).gThreadCount
      | _ => cases hcmp
  | call hm =>
    have hd := hm.launchDone
    refine ⟨hl, fun hd' => ?_, fun hcmp => ?_⟩
    · rw [hd] at hd'; cases hd'
    · cases hm <;> cases hcmp
  | spurious => exact ⟨hl, fun hd => (h.launching hd).congr rfl rfl rfl rfl rfl id, h.threads⟩
  | callerSpurious =>
    refine ⟨hl, fun hd => (h.launching hd).congr rfl rfl rfl rfl rfl fun hn => ?_, h.threads⟩
    exact needy_of_needy_false s.callerCondVar hn

/-! ### The launch comes to its end -/

/-- How many operations a worker has before it sleeps. -/
def WorkerPc.rank : WorkerPc → ℕ
  | .fetch => 8
  | .lockCond => 7
  | .decRunning => 6
  | .lockCaller => 5
  | .broadcastCaller => 4
  | .unlockCaller => 3
  | .wait => 2
  | .inWait => 1
  | _ => 0

def CallerPc.rank : CallerPc → ℕ
  | .initInWait => 3
  | .initLoad => 2
  | .initCompare _ => 1
  | _ => 0

/-- How far the launch is from its end. -/
def State.rank (s : State N F U) : ℕ := ∑ j, (s.worker j).rank + s.caller.rank

/-- The end of a launch whose last signal is on its way, has been sent, or has
been received. -/
inductive Ending (s : State N F U) : Prop
  | blocked (hc : s.caller = .initInWait) (hv : s.callerCondVar = true) (hl : Locks s)
      (h : Launching s)
  | signalled (hc : s.caller = .initInWait) (hv : s.callerCondVar = false) (hl : Locks s)
      (h : Launching s) (h0 : s.gRunning = 0)
  | awake (hc : s.caller = .initLoad) (h : Launching s) (h0 : s.gRunning = 0)
  | seen (hc : s.caller = .initCompare (-N)) (ht : s.gThreadCount = N)
  | left (hc : s.caller = .initUnlock)

theorem exists_next_worker (hl : (s.worker i).launching = true)
    (hne : s.worker i ≠ .notStarted ∧ s.worker i ≠ .inWait ∧ s.worker i ≠ .refetch)
    (h1 : s.worker i = .lockCond → s.condLock = none)
    (h2 : s.worker i = .lockCaller → s.callerCondLock = none) :
    ∃ s', next s (.worker i) = some s' := by
  show ∃ s', threadPoolWorkerFunc s i = some s'
  cases hpc : s.worker i with
  | lockCond => simp only [threadPoolWorkerFunc, hpc, if_pos (h1 hpc)]; exact ⟨_, rfl⟩
  | lockCaller => simp only [threadPoolWorkerFunc, hpc, if_pos (h2 hpc)]; exact ⟨_, rfl⟩
  | fetch | decRunning | broadcastCaller | unlockCaller | wait =>
    simp only [threadPoolWorkerFunc, hpc]; exact ⟨_, rfl⟩
  | notStarted => exact absurd hpc hne.1
  | inWait => exact absurd hpc hne.2.1
  | refetch => exact absurd hpc hne.2.2
  | _ => rw [hpc] at hl; cases hl

/-- Every such move brings the worker closer to its sleep. -/
theorem WorkerMove.rank_lt (hm : WorkerMove s i s') (hl : (s.worker i).launching = true)
    (h : Launching s) (hne : s.worker i ≠ .inWait ∧ s.worker i ≠ .refetch) : s'.rank < s.rank := by
  have key : ∀ (t : State N F U) (pc : WorkerPc), t.worker = s.worker → t.caller = s.caller →
      pc.rank < (s.worker i).rank → (t.goto i pc).rank < s.rank := by
    intro t pc hw hc hlt
    have hsum := sum_goto (s := t) (i := i) WorkerPc.rank pc
    rw [hw] at hsum
    unfold State.rank
    rw [goto_caller, hc]
    omega
  have hrc := h.gRunCount
  have hnn : 0 ≤ ∑ j, (s.worker j).fetched := Finset.sum_nonneg fun j _ => fetched_nonneg _
  cases hm with
  | fetchItem _ h0 => omega
  | fetchExit _ h1 => have := maxCount_pos; omega
  | fetchNone hpc | lockCond hpc | lastOut hpc | notLast hpc | lockCaller hpc
  | broadcastCaller hpc | unlockCaller hpc | wait hpc =>
    exact key _ _ rfl rfl (by rw [hpc]; decide)
  | wakeUp hpc => exact absurd hpc hne.1
  | refetchItem hpc | refetchNone hpc | refetchExit hpc => exact absurd hpc hne.2
  | unlockExit hpc | incRunning _ hpc | unlockCond _ hpc | noError _ hpc | skip _ hpc
  | callJob _ _ _ hpc | succeed _ hpc | fail _ _ hpc | casError _ hpc | dropRunCount hpc
  | exit hpc => rw [hpc] at hl; cases hl

/-- Only the last worker out, at its broadcast, wakes the caller. -/
theorem WorkerMove.callerCondVar (hm : WorkerMove s i s') :
    s'.callerCondVar = s.callerCondVar ∨
      s.worker i = .broadcastCaller ∧ s'.callerCondVar = false ∧ s'.gRunning = s.gRunning := by
  cases hm with
  | broadcastCaller hpc => exact .inr ⟨hpc, rfl, rfl⟩
  | _ => exact .inl rfl

/-- While the caller is blocked, some worker that has yet to sleep can move. -/
theorem Launching.exists_movable (h : Launching s) (hl : Locks s) (hc : s.caller = .initInWait)
    (hv : s.callerCondVar = true) :
    ∃ j, (s.worker j ≠ .notStarted ∧ s.worker j ≠ .inWait ∧ s.worker j ≠ .refetch) ∧
      (s.worker j = .lockCond → s.condLock = none) ∧
      (s.worker j = .lockCaller → s.callerCondLock = none) := by
  obtain ⟨j, hj⟩ := h.needy (by unfold State.needy; rw [hc, hv]; rfl)
  have hst : ∀ k, s.worker k ≠ .notStarted := fun k => h.started k (by rw [hc]; exact k.isLt)
  -- a holder of `caller_cond_lock` also holds `cond_lock`
  have hnone : ∀ k, (s.worker k).holdsCond = true → s.worker k = .lockCaller →
      s.callerCondLock = none := by
    intro k hk hpk
    cases hcl : s.callerCondLock with
    | none => rfl
    | some t =>
      have ht := (hl.callerCond t).mp hcl
      cases t with
      | caller => rw [holdsCallerCond_caller, hc] at ht; cases ht
      | worker m =>
        have hm : s.holdsCond (.worker m) = true := by
          rw [holdsCallerCond_worker] at ht
          rw [holdsCond_worker]
          cases hpm : s.worker m <;> rw [hpm] at ht <;> first | rfl | cases ht
        obtain rfl : m = k := by
          have := hl.cond.unique hm (show s.holdsCond (.worker k) = true from hk)
          cases this
          rfl
        rw [holdsCallerCond_worker, hpk] at ht
        cases ht
  by_cases hfree : s.condLock = none
  · refine ⟨j, ⟨hst j, ?_, ?_⟩, fun _ => hfree, fun hpj => ?_⟩
    · intro hpj; rw [hpj] at hj; cases hj
    · intro hpj; rw [hpj] at hj; cases hj
    · exact hnone j (by rw [hpj]; rfl) hpj
  · obtain ⟨t, ht⟩ := Option.ne_none_iff_exists'.mp hfree
    have hh := (hl.cond t).mp ht
    cases t with
    | caller => rw [holdsCond_caller, hc] at hh; cases hh
    | worker k =>
      rw [holdsCond_worker] at hh
      refine ⟨k, ⟨hst k, ?_, ?_⟩, fun hpk => ?_, hnone k hh⟩
      · intro hpk; rw [hpk] at hh; cases hh
      · -- a worker that was woken up leaves nobody owing the signal
        intro hpk
        have h0 := h.last k (.inl hpk)
        have hsig : (s.worker j).signals = true ∨ (s.worker j).awaited = 1 := by
          cases hpj : s.worker j <;> rw [hpj] at hj <;>
            first | exact .inl rfl | exact .inr rfl | cases hj
        rcases hsig with hsig | haw
        · have hjc : s.holdsCond (.worker j) = true := by
            rw [holdsCond_worker]
            cases hpj : s.worker j <;> rw [hpj] at hsig <;> first | rfl | cases hsig
          have := hl.cond.unique hjc (show s.holdsCond (.worker k) = true from hh)
          cases this
          rw [hpk] at hj
          cases hj
        · have := gRunning_pos (h.gRunning (by rw [hc]; rfl)) haw
          omega
      · rw [hpk] at hh; cases hh

theorem creates_worker (k : ℕ) : Creates k s (.worker i) := fun _ _ _ => nofun

theorem creates_caller (k : ℕ) : Creates k s .caller := fun _ _ _ => nofun

theorem next_caller_of_init (h : threadPoolInit s = some s') : next s .caller = some s' := by
  show (threadPoolInit s).or (threadPoolDo s) = some s'
  rw [h, Option.some_or]

theorem Ending.step (hN' : (N : Int) ≤ clIntMax) (h : Ending s) (hgoal : s.caller ≠ .initUnlock) :
    ∃ e s', (Creates N s e ∧ e ≠ .callerSpurious) ∧ next s e = some s' ∧ Ending s' ∧
      s'.rank < s.rank := by
  cases h with
  | blocked hc hv hl hlau =>
    obtain ⟨j, hne, h1, h2⟩ := hlau.exists_movable hl hc hv
    obtain ⟨t, ht⟩ := exists_next_worker (hlau.launching j) hne h1 h2
    have hm := workerMove_of_worker ht
    have hl' := locks_next ht hl
    have hlau' := hm.launching hN' hl (fun hw => absurd hw hne.2.1) hne.2.2 hlau
    have hc' : t.caller = .initInWait := hm.frame.1.trans hc
    refine ⟨.worker j, t, ⟨creates_worker N, by simp⟩, ht, ?_,
      hm.rank_lt (hlau.launching j) hlau hne.2⟩
    rcases hm.callerCondVar with hsame | ⟨hpj, hv', hr⟩
    · exact .blocked hc' (hsame.trans hv) hl' hlau'
    · exact .signalled hc' hv' hl' hlau' (hr.trans (hlau.last j (.inr (by rw [hpj]; rfl))))
  | signalled hc hv hl hlau h0 =>
    cases hcl : s.callerCondLock with
    | none =>
      have ht : threadPoolInit s =
          some { s with callerCondLock := some .caller, caller := .initLoad } := by
        simp only [threadPoolInit, hc]
        rw [if_pos ⟨hv, hcl⟩]
      refine ⟨.caller, _, ⟨creates_caller N, by simp⟩, next_caller_of_init ht, .awake rfl ?_ h0, ?_⟩
      · exact hlau.caller hc rfl rfl rfl rfl rfl (fun _ hj => hj) (by simp)
          (fun _ _ => by simp) (fun hn => by cases hn)
      · simp [State.rank, hc, CallerPc.rank]
    | some t =>
      have hh := (hl.callerCond t).mp hcl
      cases t with
      | caller => rw [holdsCallerCond_caller, hc] at hh; cases hh
      | worker j =>
        rw [holdsCallerCond_worker] at hh
        have hpj : s.worker j = .broadcastCaller ∨ s.worker j = .unlockCaller := by
          cases hpj : s.worker j <;> rw [hpj] at hh <;> first | exact .inl rfl | exact .inr rfl | cases hh
        have hne : s.worker j ≠ .notStarted ∧ s.worker j ≠ .inWait ∧ s.worker j ≠ .refetch := by
          rcases hpj with hpj | hpj <;> rw [hpj] <;> exact ⟨by simp, by simp, by simp⟩
        obtain ⟨t, ht⟩ := exists_next_worker (hlau.launching j) hne
          (fun hp => by rcases hpj with hpj | hpj <;> rw [hpj] at hp <;> cases hp)
          (fun hp => by rcases hpj with hpj | hpj <;> rw [hpj] at hp <;> cases hp)
        have hm := workerMove_of_worker ht
        have hlau' := hm.launching hN' hl (fun hw => absurd hw hne.2.1) hne.2.2 hlau
        have hr : t.gRunning = s.gRunning := by
          cases hm with
          | lastOut hp | notLast hp | incRunning _ hp =>
            rcases hpj with hpj | hpj <;> rw [hpj] at hp <;> cases hp
          | _ => rfl
        refine ⟨.worker j, t, ⟨creates_worker N, by simp⟩, ht, ?_,
          hm.rank_lt (hlau.launching j) hlau hne.2⟩
        refine .signalled (hm.frame.1.trans hc) ?_ (locks_next ht hl) hlau' (hr.trans h0)
        rcases hm.callerCondVar with hsame | ⟨_, hv', _⟩
        · exact hsame.trans hv
        · exact hv'
  | awake hc hlau h0 =>
    have hrc := hlau.gRunCount_eq (by rw [hc]; rfl) h0
    have ht : threadPoolInit s = some { s with caller := .initCompare s.gRunCount } := by
      simp only [threadPoolInit, hc]
    refine ⟨.caller, _, ⟨creates_caller N, by simp⟩, next_caller_of_init ht,
      .seen (by rw [hrc]) hlau.gThreadCount, ?_⟩
    simp [State.rank, hc, CallerPc.rank]
  | seen hc ht =>
    have hnx : threadPoolInit s = some { s with caller := .initUnlock } := by
      simp only [threadPoolInit, hc]
      rw [if_neg (by rw [ht]; exact fun hne => hne rfl)]
    refine ⟨.caller, _, ⟨creates_caller N, by simp⟩, next_caller_of_init hnx, .left rfl, ?_⟩
    simp [State.rank, hc, CallerPc.rank]
  | left hc => exact absurd hc hgoal

theorem LaunchInv.not_stuck (h : LaunchInv s) (hN' : (N : Int) ≤ clIntMax) : ¬ LaunchStuck N s := by
  rintro ⟨hc, hv, hno⟩
  have hend : Ending s := .blocked hc hv h.locks (h.launching (by rw [hc]; rfl))
  obtain ⟨t, hp, -, ht⟩ := System.Path.of_measure (S := launch N F U) (I := Ending) State.rank
    (fun u hu hg => hu.step hN' hg) hend
  exact hno ⟨t, hp, ht⟩

/-! ### The launch as a whole -/

/-- `ThreadPool_Init` before its first operation, with `n` threads to launch. -/
def unlaunched (N : ℕ) (F U : Type) : State N F U :=
  { parked N F U with
    gRunCount := 0
    threadPoolInitErr := -1
    condVar := fun _ => false
    worker := fun _ => .notStarted
    caller := .uninit }

theorem unlaunched_spec : Unlaunched (unlaunched N F U) := by
  constructor <;> simp [unlaunched, parked]

/-- **`ThreadPool_Init` keeps its promise exactly when all threads can be launched.**
Of the runs in which no worker fetches a second time before the caller has seen
the first round, all are fine if `k = N`, and for every smaller `k` one is not. -/
theorem launchOk_iff (hN : 0 < N) (hN' : (N : Int) ≤ clIntMax) {k : ℕ} (hk : k ≤ N) :
    (∀ s, (launch N F U).Reach (fun s e => Creates k s e ∧ Asleep s e) s → LaunchOk k s) ↔
      k = N := by
  constructor
  · intro hall
    by_contra hne
    obtain ⟨s, hr, ha⟩ := reach_abandoned (N := N) (F := F) (U := U) (k := k)
      (P := fun s e => Creates k s e ∧ Asleep s e)
      (fun s e he hc => ⟨hc, fun i hi => absurd hi (he i)⟩) unlaunched_spec (by omega)
    exact (hall s hr).notStuck (ha.stuck k)
  · rintro rfl s hr
    have hinv : LaunchInv s := hr.invariant (I := LaunchInv)
      (fun s hi => ⟨Unlaunched.locks hi, fun _ => Unlaunched.launching hi, fun hc => by
        rw [Unlaunched.caller hi] at hc; cases hc⟩)
      fun _ _ _ hI hok hn => launchInv_next hn hN hN' hok.1 hok.2 hI
    exact ⟨hinv.not_stuck hN', fun hlt => absurd hlt (lt_irrefl _)⟩

/-- Two threads can be launched, or not. -/
theorem launchOk_iff_two :
    (0 < 2 ∧ ((2 : ℕ) : Int) ≤ clIntMax ∧ 1 ≤ 2) ∧
      ((∀ s, (launch 2 Unit Unit).Reach (fun s e => Creates 1 s e ∧ Asleep s e) s →
        LaunchOk 1 s) ↔ 1 = 2) :=
  ⟨⟨by decide, by decide, by decide⟩, launchOk_iff (by decide) (by decide) (by decide)⟩

/-- **A failed launch is not survived.**  The second of two threads cannot be
launched, and the caller waits for ever. -/
theorem not_launchOk_create_fails :
    ∃ s, (launch 2 Unit Unit).Reach (fun s e => Creates 1 s e) s ∧ ¬ LaunchOk 1 s := by
  obtain ⟨s, hr, ha⟩ := reach_abandoned (F := Unit) (U := Unit) (k := 1)
    (P := fun s e => Creates 1 s e) (fun _ _ _ hc => hc) (unlaunched_spec (N := 2)) (by decide)
  exact ⟨s, hr, fun h => h.notStuck (ha.stuck 1)⟩

/-! ### A second fetch -/

/-- The caller is blocked, and all workers have had their first round. -/
structure Overlooked (s : State N F U) : Prop where
  caller : s.caller = .initInWait
  callerCondVar : s.callerCondVar = true
  wrap : Wrap s
  drained : Drained s
  silent : ∀ j, (s.worker j).signalling = false

theorem overlooked_next (hN : N + 2 ^ 29 < 2 ^ 31) {e : Event N F U} (hn : next s e = some s')
    (he : e ≠ .callerSpurious) (h : Overlooked s) : Overlooked s' := by
  rcases blocked_next hn he h.caller h.callerCondVar with ⟨i, hm⟩ | ⟨condVar, rfl⟩
  · have hb := h.drained.2 i
    have hs := h.silent i
    refine ⟨hm.frame.1.trans h.caller, ?_, hm.wrap (fun _ _ => hN) h.wrap,
      hm.drained h.wrap h.drained, fun j => ?_⟩
    · cases hm with
      | broadcastCaller hpc => rw [hpc] at hs; cases hs
      | _ => exact h.callerCondVar
    · by_cases hj : j = i
      · subst hj
        cases hm with
        | lastOut hpc => rw [hpc] at hb; cases hb
        | lockCaller hpc => rw [hpc] at hs; cases hs
        | _ => rw [goto_worker_self]; rfl
      · rw [hm.worker_of_ne hj]
        exact h.silent j
  · exact ⟨h.caller, h.callerCondVar, h.wrap.congr rfl rfl, h.drained, h.silent⟩

theorem Overlooked.stuck (h : Overlooked s) (hN : N + 2 ^ 29 < 2 ^ 31) (k : ℕ) :
    LaunchStuck k s := by
  refine ⟨h.caller, h.callerCondVar, fun ⟨t, hp, ht⟩ => ?_⟩
  have ho : Overlooked t := hp.invariant (I := Overlooked)
    (fun _ _ _ hI hok hn => overlooked_next hN hn hok.2 hI) h
  rw [ho.caller] at ht
  cases ht

instance (s : State N F U) : Decidable (Drained s) := inferInstanceAs (Decidable (_ ∧ _))

/-- `Creates`, as a test of the event. -/
def creates (k : ℕ) (s : State N F U) (e : Event N F U) : Bool :=
  match s.caller, e with
  | .initCreate j, .create err => decide (err = 0 ↔ j < k)
  | _, _ => true

theorem creates_of_test {k : ℕ} {e : Event N F U} (h : creates k s e = true) : Creates k s e := by
  rintro j err hc rfl
  simpa only [creates, hc, decide_eq_true_eq] using h

/-- **Nor is a spurious wake-up.**  Both threads are launched, but the first one is woken up and
fetches again before the second one goes to sleep: the caller finds -3 instead of -2, and from then
on nobody wakes it up. -/
theorem not_launchOk_spurious :
    ∃ s, (launch 2 Unit Unit).Reach (fun s e => Creates 2 s e) s ∧ ¬ LaunchOk 2 s := by
  obtain ⟨s, hr, ⟨hc, hv⟩, hlt, hd, hs⟩ := System.Reach.exists_of_run (S := launch 2 Unit Unit)
    (fun s e => creates 2 s e = true)
    (fun s => (s.caller = .initInWait ∧ s.callerCondVar = true) ∧ s.gRunCount < maxCount ∧
      Drained s ∧ ∀ j, (s.worker j).signalling = false)
    (s := unlaunched 2 Unit Unit) unlaunched_spec
    ([.init] ++ List.replicate 3 .caller ++ [.create 0, .caller, .create 0] ++
      List.replicate 2 .caller ++ List.replicate 4 (.worker 0) ++ [.spurious 0] ++
      List.replicate 3 (.worker 0) ++ List.replicate 7 (.worker 1) ++ List.replicate 4 .caller)
    (by decide +kernel)
  have ho : Overlooked s := ⟨hc, hv, .inl hlt, hd, hs⟩
  exact ⟨s, hr.mono fun _ _ => creates_of_test, fun h => h.notStuck (ho.stuck (by decide) 2)⟩

end OpenCLCTS.ThreadPool
