import OpenCLCTS.Harness.ThreadPool.Ledger

/-!
# What a call of `ThreadPool_Do` achieves

Over the claims of `Ledger.lean`: every item is claimed at most once and, unless
the call has failed, at least once; every job runs with the function and the
argument of the current call; and `jobError` is one of the errors that the jobs
of the call returned.  `calls_ok` collects what a user of the pool sees.
-/

namespace OpenCLCTS.ThreadPool

open Interleaving

variable {N : ℕ} {F U : Type} {s s' : State N F U} {i : Fin N}

/-! ### Items and jobs -/

/-- The items of the current call are claimed at most once, and the jobs that
ran belong to it. -/
structure Ledger (s : State N F U) : Prop where
  fresh : s.caller.stage = .preparing → s.handed = [] ∧ s.results = []
  dispensed : ∀ c, s.call = some c → Dispensed c.count maxCount s.gRunCount s.claims
  jobs : ∀ c, s.call = some c → ∀ j ∈ s.handed, j.func = c.func ∧ j.userInfo = c.userInfo
  func : s.caller.hasFunc → ∀ c, s.call = some c → s.gFuncPtr = some c.func
  userInfo : s.caller.hasUserInfo → ∀ c, s.call = some c → s.gUserInfo = some c.userInfo

theorem Initialised.ledger (h : Initialised s) : Ledger s where
  fresh hs := by rw [h.caller] at hs; cases hs
  dispensed c hc := by rw [h.call] at hc; cases hc
  jobs c hc := by rw [h.call] at hc; cases hc
  func hs := by rw [h.caller] at hs; cases hs
  userInfo hs := by rw [h.caller] at hs; cases hs

theorem Ledger.goto (h : Ledger s) (t : State N F U) {pc : WorkerPc} (hc : t.caller = s.caller)
    (hcall : t.call = s.call) (hh : t.handed = s.handed) (hq : Quiet s)
    (hres : t.results = s.results ∨ (s.worker i).busy = true)
    (hf : t.gFuncPtr = s.gFuncPtr) (hu : t.gUserInfo = s.gUserInfo)
    (hd : ∀ c, s.call = some c → Dispensed c.count maxCount s.gRunCount s.claims →
      Dispensed c.count maxCount t.gRunCount (t.goto i pc).claims) : Ledger (t.goto i pc) where
  fresh hs := by
    rw [goto_caller, hc] at hs
    obtain ⟨h1, h2⟩ := h.fresh hs
    refine ⟨hh.trans h1, ?_⟩
    rcases hres with hres | hbusy
    · exact hres.trans h2
    · rw [hq.quiet (by rw [hs]; nofun) i] at hbusy; cases hbusy
  dispensed c hcc := hd c (hcall ▸ hcc) (h.dispensed c (hcall ▸ hcc))
  jobs c hcc := by rw [goto_handed, hh]; exact h.jobs c (hcall ▸ hcc)
  func hs c hcc := hf ▸ h.func (hc ▸ hs) c (hcall ▸ hcc)
  userInfo hs c hcc := hu ▸ h.userInfo (hc ▸ hs) c (hcall ▸ hcc)

theorem Ledger.goto_keep (h : Ledger s) (t : State N F U) {p pc : WorkerPc} (hi : s.worker i = p)
    (hw : t.worker = s.worker) (hc : t.caller = s.caller) (hcall : t.call = s.call)
    (hh : t.handed = s.handed) (hq : Quiet s) (hres : t.results = s.results ∨ p.busy = true)
    (hf : t.gFuncPtr = s.gFuncPtr) (hu : t.gUserInfo = s.gUserInfo)
    (hr : t.gRunCount = s.gRunCount) (hp : pc.pending = p.pending) : Ledger (t.goto i pc) := by
  refine h.goto t hc hcall hh hq (hi ▸ hres) hf hu ?_
  intro c _ hd
  rw [claims_keep t hi hw hh hp, hr]
  exact hd

theorem Ledger.goto_exhaust (h : Ledger s) (t : State N F U) {p pc : WorkerPc}
    (hi : s.worker i = p) (hw : t.worker = s.worker) (hc : t.caller = s.caller)
    (hcall : t.call = s.call) (hh : t.handed = s.handed) (hq : Quiet s)
    (hres : t.results = s.results) (hf : t.gFuncPtr = s.gFuncPtr)
    (hu : t.gUserInfo = s.gUserInfo) (hp : pc.pending = p.pending)
    (hx : Exhausted maxCount t.gRunCount) : Ledger (t.goto i pc) := by
  refine h.goto t hc hcall hh hq (.inl hres) hf hu ?_
  intro c _ hd
  rw [claims_keep t hi hw hh hp]
  exact hd.exhaust (Int.natCast_nonneg _) hx

theorem Ledger.goto_take (h : Ledger s) (t : State N F U) {p pc : WorkerPc} (hi : s.worker i = p)
    (hw : t.worker = s.worker) (hc : t.caller = s.caller) (hcall : t.call = s.call)
    (hh : t.handed = s.handed) (hq : Quiet s) (hres : t.results = s.results)
    (hf : t.gFuncPtr = s.gFuncPtr) (hu : t.gUserInfo = s.gUserInfo) (hp : p.pending = 0)
    (hpc : pc.pending = {s.gRunCount}) (h0 : 0 < s.gRunCount) (h1 : s.gRunCount < maxCount)
    (hr : t.gRunCount = s.gRunCount - 1) : Ledger (t.goto i pc) := by
  refine h.goto t hc hcall hh hq (.inl hres) hf hu ?_
  intro c _ hd
  rw [claims_take t hi hw hh hp hpc, hr]
  exact hd.take h0 h1

theorem WorkerMove.ledger (hm : WorkerMove s i s') (hwr : Wrap s) (hq : Quiet s) (h : Ledger s) :
    Ledger s' := by
  cases hm with
  | fetchItem hpc h0 h1 | refetchItem hpc h0 h1 =>
    exact h.goto_take _ hpc rfl rfl rfl rfl hq rfl rfl rfl rfl rfl h0 h1 rfl
  | fetchNone hpc h0 | refetchNone hpc h0 =>
    exact h.goto_exhaust _ hpc rfl rfl rfl rfl hq rfl rfl rfl rfl (exhausted_decr h0)
  | fetchExit hpc h1 | refetchExit hpc h1 =>
    have hlt := hwr.lt (i := i) h1 (by rw [hpc]; rfl)
    exact h.goto_exhaust _ hpc rfl rfl rfl rfl hq rfl rfl rfl rfl (.inr (by simp only; omega))
  | dropRunCount hpc =>
    exact h.goto_exhaust _ hpc rfl rfl rfl rfl hq rfl rfl rfl rfl (.inl le_rfl)
  | skip item hpc =>
    refine h.goto _ rfl rfl rfl hq (.inl rfl) rfl rfl ?_
    intro c _ hd
    exact hd.mono (claims_drop s hpc rfl rfl rfl rfl)
  | callJob item f u hpc hf hu =>
    have hs := hq.waiting hpc rfl
    refine ⟨fun hp => absurd (hs.symm.trans hp) nofun, fun c hc => ?_, fun c hc j hj => ?_,
      h.func, h.userInfo⟩
    · have hcl := claims_hand { s with handed := s.handed ++ [(⟨f, u, item - 1⟩ : Job F U)] } hpc
        rfl rfl rfl
      rw [hcl]
      exact h.dispensed c hc
    · rcases List.mem_append.mp hj with hj | hj
      · exact h.jobs c hc j hj
      · rw [List.mem_singleton.mp hj]
        have h1 := h.func (hasFunc_of_waiting hs).1 c hc
        have h2 := h.userInfo (hasFunc_of_waiting hs).2 c hc
        rw [hf, Option.some.injEq] at h1
        rw [hu, Option.some.injEq] at h2
        exact ⟨h1, h2⟩
  | succeed _ hpc | fail _ _ hpc =>
    exact h.goto_keep _ hpc rfl rfl rfl rfl hq (.inr rfl) rfl rfl rfl rfl
  | lockCond hpc | lockCaller hpc | broadcastCaller hpc | unlockCaller hpc | wait hpc | wakeUp hpc
  | unlockExit hpc | lastOut hpc | notLast hpc | incRunning _ hpc | unlockCond _ hpc
  | noError _ hpc | casError _ hpc | exit hpc =>
    exact h.goto_keep _ hpc rfl rfl rfl rfl hq (.inl rfl) rfl rfl rfl rfl

theorem Ledger.congr (h : Ledger s) {t : State N F U} {p : CallerPc} (hpc : s.caller = p)
    (hw : t.worker = s.worker) (hr : t.gRunCount = s.gRunCount) (hcall : t.call = s.call)
    (hh : t.handed = s.handed) (hres : t.results = s.results) (hf : t.gFuncPtr = s.gFuncPtr)
    (hu : t.gUserInfo = s.gUserInfo)
    (hs : t.caller.stage = .preparing → p.stage = .preparing)
    (hsf : t.caller.hasFunc = true → p.hasFunc = true)
    (hsu : t.caller.hasUserInfo = true → p.hasUserInfo = true) : Ledger t := by
  subst hpc
  have hcl : t.claims = s.claims := by rw [State.claims, State.ran, hw, hh, State.claims, State.ran]
  exact ⟨fun ht => hh ▸ hres ▸ h.fresh (hs ht), fun c hc => hcl ▸ hr ▸ h.dispensed c (hcall ▸ hc),
    fun c hc => hh ▸ h.jobs c (hcall ▸ hc), fun ht c hc => hf ▸ h.func (hsf ht) c (hcall ▸ hc),
    fun ht c hc => hu ▸ h.userInfo (hsu ht) c (hcall ▸ hc)⟩

theorem Ledger.enter {t : State N F U} (hs : s.caller.stage = .outside) (hq : Quiet s)
    (hw : t.worker = s.worker) (hr : t.gRunCount = s.gRunCount) (hh : t.handed = [])
    (hres : t.results = []) (hf : t.caller.hasFunc = false) (hu : t.caller.hasUserInfo = false) :
    Ledger t := by
  have hcl : t.claims = 0 := by
    rw [claims_of_quiet fun j => hw ▸ hq.quiet (by rw [hs]; intro hp; cases hp) j, State.ran, hh]
    rfl
  refine ⟨fun _ => ⟨hh, hres⟩, fun c _ => ?_, fun c _ j hj => ?_, fun hx => ?_, fun hx => ?_⟩
  · rw [hcl, hr]
    exact .empty ((hq.drained (by rw [hs]; intro hp; cases hp) (by rw [hs]; intro hp; cases hp)).imp_left fun h0 =>
      h0.trans (Int.natCast_nonneg _))
  · rw [hh] at hj; exact absurd hj List.not_mem_nil
  · rw [hf] at hx; cases hx
  · rw [hu] at hx; cases hx

theorem DoMove.ledger (hm : DoMove s s') (hb : Base s) (hq : Quiet s) (h : Ledger s) :
    Ledger s' := by
  cases hm with
  | enter _ _ hpc | tooMany _ _ hpc | enterSingle _ _ hpc =>
    exact .enter (by rw [hpc]; rfl) hq rfl rfl rfl rfl rfl rfl
  | single _ _ hpc | singleDone _ _ hpc | singleSucceed _ hpc | singleFail _ _ hpc =>
    have hc := hb.ready.caller
    rw [hpc] at hc
    simp [CallerPc.serving] at hc
  | setRunCount hpc =>
    have hs : s.caller.stage = .preparing := by rw [hpc]; rfl
    obtain ⟨hh, -⟩ := h.fresh hs
    refine ⟨fun hp => (by cases hp), fun c hc => ?_, h.jobs, fun hf => (by cases hf),
      fun hu => (by cases hu)⟩
    have hcl : s.claims = 0 := by
      rw [claims_of_quiet (hq.quiet (by rw [hs]; intro hp; cases hp)), State.ran, hh]
      rfl
    exact hcl ▸ .empty (.inl (hb.ready.jobCount hpc c hc).le)
  | setFunc c hpc hc =>
    refine ⟨fun hp => (by cases hp), h.dispensed, h.jobs, fun _ c' hc' => ?_,
      fun hu => (by cases hu)⟩
    rw [hc, Option.some.injEq] at hc'
    exact hc' ▸ rfl
  | setUserInfo c hpc hc =>
    refine ⟨fun hp => (by cases hp), h.dispensed, h.jobs, fun _ => h.func (by rw [hpc]; rfl),
      fun _ c' hc' => ?_⟩
    rw [hc, Option.some.injEq] at hc'
    exact hc' ▸ rfl
  | lockPool hpc | lockCond hpc | lockCaller hpc | clearError hpc | setJobCount _ hpc
  | broadcast hpc | unlockCond hpc | wait hpc | wakeUp hpc | again hpc | leave hpc
  | unlockCaller hpc | readError hpc | unlockPool _ hpc =>
    exact h.congr hpc rfl rfl rfl rfl rfl rfl rfl (by simp [CallerPc.stage])
      (by simp [CallerPc.hasFunc]) (by simp [CallerPc.hasUserInfo])

end OpenCLCTS.ThreadPool
