import OpenCLCTS.Harness.ThreadPool.Results

/-!
# The caller is woken up

While the caller is blocked on `caller_cond_var` some worker is still active, or
there is work left and a worker about to fetch it.  An active worker only stops
being active when it has broadcast to the caller or when another one is left, so
the pool never falls asleep under a waiting caller, provided the call had any
work to begin with.
-/

namespace OpenCLCTS.ThreadPool

open Interleaving

variable {N : ℕ} {F U : Type} {s s' : State N F U} {i : Fin N}

/-- The caller is blocked for its job, and so is every worker for work.  A worker that has left the pool
is not parked: a pool that one has left is not stranded in this sense. -/
def Stranded (s : State N F U) : Prop :=
  s.caller = .inWait ∧ s.callerCondVar = true ∧
    ∀ i, s.worker i = .inWait ∧ s.condVar i = true

instance (s : State N F U) : Decidable (Stranded s) := inferInstanceAs (Decidable (_ ∧ _))

/-- The worker runs, is about to signal the caller, or has left the pool. -/
def WorkerPc.active : WorkerPc → Bool
  | .notStarted | .unlockCaller | .wait | .inWait | .refetch => false
  | _ => true

/-- Some worker is active, or there is work and a worker on its way to it. -/
def Alive (s : State N F U) : Prop :=
  (∃ j, (s.worker j).active) ∨
    0 < s.gRunCount ∧ ∃ j, s.worker j = .refetch ∨ s.worker j = .inWait ∧ s.condVar j = false

/-- The caller has set up its call but not yet woken the workers. -/
def CallerPc.publishing : CallerPc → Bool
  | .setFunc | .setUserInfo | .broadcast => true
  | _ => false

/-- The caller needs a signal to go on. -/
def State.waiting (s : State N F U) : Prop :=
  s.caller = .unlockCond ∨ s.caller = .wait ∨ s.caller = .inWait ∧ s.callerCondVar = true

/-- A waiting caller will be signalled. -/
structure Wakeable (s : State N F U) : Prop where
  started : ∀ i, s.worker i ≠ .notStarted
  count : ∀ c, s.call = some c → c.count ≠ 0
  publishing : s.caller.publishing → 0 < s.gRunCount ∨ ∃ j, (s.worker j).active
  waiting : s.waiting → Alive s

theorem Initialised.wakeable (h : Initialised s) : Wakeable s where
  started j := by rw [h.worker]; nofun
  count c hc := by rw [h.call] at hc; cases hc
  publishing hp := by rw [h.caller] at hp; cases hp
  waiting hw := by
    rcases hw with hw | hw | ⟨hw, -⟩ <;> rw [h.caller] at hw <;> cases hw

/-- While `gRunning` is not zero, some worker runs, or left while running. -/
theorem Running.active (h : Running s) (h0 : s.gRunning ≠ 0) : ∃ j, (s.worker j).active := by
  have hex : ∃ j ∈ Finset.univ, (s.worker j).counted + (s.worker j).exiting ≠ 0 := by
    refine Finset.exists_ne_zero_of_sum_ne_zero ?_
    have hnn : 0 ≤ ∑ j, (s.worker j).counted := Finset.sum_nonneg fun j _ => counted_nonneg _
    have hlo := h.lower
    have hup := h.upper
    rw [Finset.sum_add_distrib]
    omega
  obtain ⟨j, -, hj⟩ := hex
  refine ⟨j, ?_⟩
  cases hpc : s.worker j with
  | notStarted | unlockCaller | wait | inWait | refetch => rw [hpc] at hj; exact absurd rfl hj
  | _ => rfl

theorem Alive.of_active (t : State N F U) {pc : WorkerPc} (h : pc.active = true) :
    Alive (t.goto i pc) :=
  .inl ⟨i, by rw [goto_worker_self]; exact h⟩

/-- A move of a worker that was not active, and did not carry the hope either. -/
theorem Alive.goto (h : Alive s) (t : State N F U) {p pc : WorkerPc} (hi : s.worker i = p)
    (hp : p.active = false) (hw : t.worker = s.worker) (hr : t.gRunCount = s.gRunCount)
    (hv : ∀ j, j ≠ i → t.condVar j = s.condVar j)
    (hpc : p ≠ .refetch ∧ p ≠ .inWait ∨ pc = .refetch) : Alive (t.goto i pc) := by
  rcases h with ⟨j, hj⟩ | ⟨h0, j, hj⟩
  · have hji : j ≠ i := by
      rintro rfl
      rw [hi, hp] at hj
      cases hj
    exact .inl ⟨j, by rw [goto_worker_of_ne hji, hw]; exact hj⟩
  · by_cases hji : j = i
    · subst hji
      rcases hpc with ⟨h1, h2⟩ | hpc
      · rcases hj with hj | ⟨hj, -⟩
        · exact absurd (hi.symm.trans hj) h1
        · exact absurd (hi.symm.trans hj) h2
      · exact .inr ⟨hr ▸ h0, j, .inl (by rw [goto_worker_self, hpc])⟩
    · refine .inr ⟨hr ▸ h0, j, ?_⟩
      rw [goto_worker_of_ne hji, hw, goto_condVar, hv j hji]
      exact hj

theorem WorkerMove.started (hm : WorkerMove s i s') (h : ∀ j, s.worker j ≠ .notStarted) (j : Fin N) :
    s'.worker j ≠ .notStarted := by
  by_cases hj : j = i
  · subst hj
    cases hm <;> rw [goto_worker_self] <;> nofun
  · cases hm <;> rw [goto_worker_of_ne hj] <;> exact h j

/-- The worker stops being active, or goes on without having been, with a move
under `cond_lock`. -/
theorem WorkerMove.active_or (hm : WorkerMove s i s') :
    (s'.worker i).active = true ∨ (s.worker i).holdsCond = true ∨ s.condLock = none := by
  cases hm with
  | notLast hpc | broadcastCaller hpc | unlockCaller hpc | wait hpc | refetchNone hpc =>
    exact .inr (.inl (by rw [hpc]; rfl))
  | wakeUp _ _ hfree => exact .inr (.inr hfree)
  | _ => exact .inl (by rw [goto_worker_self]; rfl)

theorem CallerPc.holdsCond_of_publishing {pc : CallerPc} (h : pc.publishing = true) :
    pc.holdsCond = true := by
  cases pc <;> first | rfl | cases h

theorem WorkerMove.active_of_locked (hm : WorkerMove s i s') (hl : Locks s)
    (hc : s.caller.holdsCond = true) : (s'.worker i).active = true := by
  have hown : s.condLock = some .caller := (hl.cond .caller).mpr hc
  rcases hm.active_or with ha | hh | hfree
  · exact ha
  · have hw : s.holdsCond (.worker i) = true := hh
    cases hl.cond.unique (show s.holdsCond .caller = true from hc) hw
  · rw [hown] at hfree; cases hfree

/-- A worker that signals holds both locks, so the caller is blocked. -/
theorem Locks.inWait_of_broadcast (h : Locks s) (hpc : s.worker i = .broadcastCaller)
    (hw : s.waiting) : s.caller = .inWait := by
  have hh : s.holdsCallerCond (.worker i) = true := by rw [holdsCallerCond_worker, hpc]; rfl
  rcases hw with hc | hc | ⟨hc, -⟩
  · have hcc : s.holdsCallerCond .caller = true := by rw [holdsCallerCond_caller, hc]; rfl
    cases h.callerCond.unique hh hcc
  · have hcc : s.holdsCallerCond .caller = true := by rw [holdsCallerCond_caller, hc]; rfl
    cases h.callerCond.unique hh hcc
  · exact hc

theorem WorkerMove.alive (hm : WorkerMove s i s') (hl : Locks s) (hr : Running s')
    (h : s.waiting → Alive s) (hw : s'.waiting) : Alive s' := by
  cases hm with
  | notLast hpc h1 =>
    by_cases h0 : s.gRunning - 1 = 0
    · omega
    · exact .inl (hr.active h0)
  | broadcastCaller hpc =>
    have hws : s.waiting := by
      rcases hw with hc | hc | ⟨_, hv⟩
      · exact .inl hc
      · exact .inr (.inl hc)
      · cases hv
    have hin := hl.inWait_of_broadcast hpc hws
    rcases hw with hc | hc | ⟨_, hv⟩
    · rw [goto_caller] at hc; rw [hin] at hc; cases hc
    · rw [goto_caller] at hc; rw [hin] at hc; cases hc
    · cases hv
  | unlockCaller hpc => exact (h hw).goto _ hpc rfl rfl rfl (fun _ _ => rfl) (.inl ⟨nofun, nofun⟩)
  | wait hpc =>
    exact (h hw).goto _ hpc rfl rfl rfl (fun j hj => Function.update_of_ne hj ..)
      (.inl ⟨nofun, nofun⟩)
  | wakeUp hpc => exact (h hw).goto _ hpc rfl rfl rfl (fun _ _ => rfl) (.inr rfl)
  | refetchNone hpc h0 =>
    rcases h hw with ⟨j, hj⟩ | ⟨hpos, -⟩
    · have hji : j ≠ i := by
        rintro rfl
        rw [hpc] at hj
        cases hj
      exact .inl ⟨j, by rw [goto_worker_of_ne hji]; exact hj⟩
    · omega
  | _ => exact .of_active _ rfl

theorem WorkerMove.wakeable (hm : WorkerMove s i s') (hb : Base s) (hb' : Base s')
    (h : Wakeable s) : Wakeable s' where
  started := hm.started h.started
  count c hc := h.count c (hm.frame.2.1 ▸ hc)
  publishing hp := by
    rw [hm.frame.1] at hp
    exact .inr ⟨i, hm.active_of_locked hb.locks (CallerPc.holdsCond_of_publishing hp)⟩
  waiting := hm.alive hb.locks hb'.running h.waiting

theorem Wakeable.congr (h : Wakeable s) {t : State N F U} (hw : t.worker = s.worker)
    (hcall : t.call = s.call) (hr : t.gRunCount = s.gRunCount)
    (hp : t.caller.publishing = true → s.caller.publishing = true)
    (hwt : t.waiting → Alive t) : Wakeable t :=
  ⟨hw ▸ h.started, hcall ▸ h.count, fun ht => hw ▸ hr ▸ h.publishing (hp ht), hwt⟩

theorem Wakeable.done (h : Wakeable s) {t : State N F U} (hw : t.worker = s.worker)
    (hc : ∀ c, t.call = some c → c.count ≠ 0) (hp : t.caller.publishing = false)
    (h1 : t.caller ≠ .unlockCond) (h2 : t.caller ≠ .wait) (h3 : t.caller ≠ .inWait) :
    Wakeable t where
  started := hw ▸ h.started
  count := hc
  publishing ht := by rw [hp] at ht; cases ht
  waiting hwt := by
    rcases hwt with hwt | hwt | ⟨hwt, -⟩
    · exact absurd hwt h1
    · exact absurd hwt h2
    · exact absurd hwt h3

/-- The broadcast of the caller reaches some worker, or finds an active one. -/
theorem Wakeable.broadcast (h : Wakeable s) (hb : Base s) (hN : 0 < N)
    (hpc : s.caller = .broadcast) {t : State N F U} (hw : t.worker = s.worker)
    (hr : t.gRunCount = s.gRunCount) (hv : ∀ j, t.condVar j = false) : Alive t := by
  rcases h.publishing (by rw [hpc]; rfl) with h0 | ⟨j, hj⟩
  · have hidle : (s.worker ⟨0, hN⟩).active = true ∨ s.worker ⟨0, hN⟩ = .inWait := by
      have hl : s.condLock = some .caller := (hb.locks.cond .caller).mpr (by
        rw [holdsCond_caller, hpc]; rfl)
      have hno : (s.worker ⟨0, hN⟩).holdsCond ≠ true := by
        intro hh
        have heq := (hb.locks.cond (.worker ⟨0, hN⟩)).mpr hh
        rw [hl] at heq
        cases heq
      have hst := h.started ⟨0, hN⟩
      cases hp0 : s.worker ⟨0, hN⟩ with
      | notStarted => exact absurd hp0 hst
      | unlockCaller | wait | refetch => rw [hp0] at hno; exact absurd rfl hno
      | inWait => exact .inr rfl
      | _ => exact .inl rfl
    rcases hidle with ha | hin
    · exact .inl ⟨_, hw ▸ ha⟩
    · exact .inr ⟨hr ▸ h0, _, .inr ⟨hw ▸ hin, hv _⟩⟩
  · exact .inl ⟨j, hw ▸ hj⟩

theorem Alive.congr (h : Alive s) {t : State N F U} (hw : t.worker = s.worker)
    (hr : t.gRunCount = s.gRunCount) (hv : t.condVar = s.condVar) : Alive t := by
  unfold Alive at *
  rwa [hw, hr, hv]

theorem DoMove.wakeable (hm : DoMove s s') (hN : 0 < N) (hb : Base s)
    (hcount : ∀ c, s'.call = some c → c.count ≠ 0) (h : Wakeable s) : Wakeable s' := by
  cases hm with
  | setRunCount hpc =>
    refine ⟨h.started, h.count, fun _ => ?_, fun hw => ?_⟩
    · obtain ⟨c, hc, -⟩ := hb.ready.call (by rw [hpc]; rfl)
      have hj := hb.ready.jobCount hpc c hc
      have hne := h.count c hc
      exact .inl (by show 0 < s.gJobCount; omega)
    · rcases hw with hw | hw | ⟨hw, -⟩ <;> cases hw
  | setFunc _ hpc | setUserInfo _ hpc =>
    refine h.congr rfl rfl rfl (fun _ => by rw [hpc]; rfl) ?_
    intro hw
    rcases hw with hw | hw | ⟨hw, -⟩ <;> cases hw
  | broadcast hpc =>
    exact h.congr rfl rfl rfl nofun fun _ => h.broadcast hb hN hpc rfl rfl fun _ => rfl
  | unlockCond hpc =>
    exact h.congr rfl rfl rfl nofun fun _ => (h.waiting (.inl hpc)).congr rfl rfl rfl
  | wait hpc =>
    exact h.congr rfl rfl rfl nofun fun _ => (h.waiting (.inr (.inl hpc))).congr rfl rfl rfl
  | again hpc hr => exact h.congr rfl rfl rfl nofun fun _ => .inl (hb.running.active hr)
  | enter | tooMany | enterSingle | single | singleDone | singleSucceed | singleFail | lockPool
  | lockCond | lockCaller | clearError | setJobCount | wakeUp | leave | unlockCaller | readError
  | unlockPool =>
    exact h.done rfl hcount rfl nofun nofun nofun

/-- The count of the call that is made. -/
def Event.count : Event N F U → Option ℕ
  | .call _ count _ => some count
  | _ => none

/-- The call that is made, if any, has some work. -/
def HasWork (_ : State N F U) (e : Event N F U) : Prop := e.count ≠ some 0

instance (s : State N F U) (e : Event N F U) : Decidable (HasWork s e) :=
  inferInstanceAs (Decidable (_ ≠ _))

theorem count_next {e : Event N F U} (hn : next s e = some s') (hok : HasWork s e)
    (h : ∀ c, s.call = some c → c.count ≠ 0) : ∀ c, s'.call = some c → c.count ≠ 0 := by
  rcases call_next hn with hc | ⟨f, n, u, rfl, hc⟩
  · rw [hc]; exact h
  · rw [hc]
    rintro c ⟨⟩
    exact fun h0 => hok (congrArg some h0)

theorem wakeable_next {e : Event N F U} (hN : 0 < N) (hn : next s e = some s')
    (hok : HasWork s e) (hb : Base s) (h : Wakeable s) : Wakeable s' := by
  have hb' := base_next hn hb
  have hcount := count_next hn hok h.count
  cases move_of_next hn with
  | worker hm => exact hm.wakeable hb hb' h
  | job _ _ hm => exact hm.wakeable hb hb' h
  | init hm => exact absurd hm hb.ready.not_init
  | call hm => exact hm.wakeable hN hb hcount h
  | @spurious i hv =>
    refine h.congr rfl rfl rfl id ?_
    intro hw
    rcases h.waiting hw with ha | ⟨h0, j, hj⟩
    · exact .inl ha
    · refine .inr ⟨h0, j, hj.imp_right fun ⟨h1, h2⟩ => ⟨h1, ?_⟩⟩
      by_cases hji : j = i
      · subst hji; exact Function.update_self ..
      · exact (Function.update_of_ne hji ..).trans h2
  | callerSpurious =>
    refine h.congr rfl rfl rfl id ?_
    intro hw
    rcases hw with hw | hw | ⟨-, hw⟩
    · exact (h.waiting (.inl hw)).congr rfl rfl rfl
    · exact (h.waiting (.inr (.inl hw))).congr rfl rfl rfl
    · cases hw

/-- **No lost wake-up.**  If every call has some work, the pool never sleeps
while its caller waits, in every run, spurious wake-ups included. -/
theorem not_stranded_of_hasWork (hN : 0 < N) (h : (pool N F U).Reach HasWork s) : ¬ Stranded s := by
  have hw : Wakeable s := h.invariant_of (I := Wakeable) (fun _ hr => pool_base hr)
    (fun _ hi => Initialised.wakeable hi) fun _ _ _ hb hI hok hn => wakeable_next hN hn hok hb hI
  rintro ⟨hc, hv, hall⟩
  rcases hw.waiting (.inr (.inr ⟨hc, hv⟩)) with ⟨j, hj⟩ | ⟨-, j, hj | ⟨-, hj⟩⟩
  · rw [(hall j).1] at hj; cases hj
  · rw [(hall j).1] at hj; cases hj
  · rw [(hall j).2] at hj; cases hj

/-- Two workers of three are asleep under a waiting caller, the third works. -/
theorem not_stranded_waiting :
    ∃ s, (pool 3 Unit Unit).Reach HasWork s ∧
      (s.caller = .inWait ∧ s.callerCondVar = true ∧ s.worker 0 = .inWait) ∧ ¬ Stranded s := by
  obtain ⟨s, hr, hs⟩ := System.Reach.exists_of_run (S := pool 3 Unit Unit) HasWork
    (fun s => s.caller = .inWait ∧ s.callerCondVar = true ∧ s.worker 0 = .inWait)
    parked_initialised
    ([.call () 1 ()] ++ List.replicate 11 .caller ++ List.replicate 4 (.worker 2) ++
      List.replicate 3 (.worker 0)) (by decide +kernel)
  exact ⟨s, hr, hs, not_stranded_of_hasWork (by decide) hr⟩

/-- **A call without work is never finished.**  With `count = 0` both workers are
woken up, find nothing and go back to sleep, and nobody signals the caller. -/
theorem stranded_of_count_zero :
    ∃ s, (pool 2 Unit Unit).Reach System.anyStep s ∧ Stranded s := by
  obtain ⟨s, hr, hs⟩ := System.Reach.exists_of_run (S := pool 2 Unit Unit) System.anyStep Stranded
    parked_initialised
    ([.call () 0 ()] ++ List.replicate 11 .caller ++ List.replicate 3 (.worker 0) ++
      List.replicate 3 (.worker 1)) (by decide +kernel)
  exact ⟨s, hr, hs⟩

end OpenCLCTS.ThreadPool
