import OpenCLCTS.Harness.ThreadPool.Calls

/-!
# What a call of `ThreadPool_Do` returns

`jobError` is the first error that a job of the current call returned, unless all
of them succeeded, and in that case every item has been claimed.  `CallsOk` is
what a user of the pool sees, and `callsOk_of_orderly` says that every orderly run
of the pool provides it.
-/

namespace OpenCLCTS.ThreadPool

open Interleaving

variable {N : ℕ} {F U : Type} {s s' : State N F U} {i : Fin N}

/-! ### Errors -/

/-- `jobError` has been cleared for the current call. -/
def CallerPc.cleared : CallerPc → Bool
  | .setJobCount | .setRunCount | .setFunc | .setUserInfo | .broadcast | .unlockCond | .wait
  | .inWait | .test | .unlockCaller | .readError | .unlockPool _ => true
  | _ => false

/-- The worker is about to store the error of its job, or has done so. -/
def WorkerPc.failing : WorkerPc → Bool
  | .casError _ | .dropRunCount => true
  | _ => false

/-- The errors on their way from the jobs to `jobError`. -/
structure Errors (s : State N F U) : Prop where
  cas : ∀ i err, s.worker i = .casError err → err ≠ 0 ∧ err ∈ s.results
  drop : ∀ i, s.worker i = .dropRunCount → s.jobError ≠ 0
  reported : s.caller.cleared → s.jobError ≠ 0 → s.jobError ∈ s.results
  recorded : s.caller.cleared → (∃ r ∈ s.results, r ≠ 0) →
    s.jobError ≠ 0 ∨ ∃ i err, s.worker i = .casError err

theorem Initialised.errors (h : Initialised s) : Errors s where
  cas j err hj := by rw [h.worker] at hj; cases hj
  drop j hj := by rw [h.worker] at hj; cases hj
  reported hs := by rw [h.caller] at hs; cases hs
  recorded hs := by rw [h.caller] at hs; cases hs

theorem Errors.goto (h : Errors s) (t : State N F U) {p pc : WorkerPc} (hi : s.worker i = p)
    (hw : t.worker = s.worker) (hc : t.caller = s.caller) (he : t.jobError = s.jobError)
    (hsub : ∀ r ∈ s.results, r ∈ t.results) (hnew : ∀ r ∈ t.results, r ≠ 0 → r ∈ s.results)
    (hp : ∀ err, p ≠ .casError err) (hpc : pc.failing = false) : Errors (t.goto i pc) := by
  refine ⟨fun j err hj => ?_, fun j hj => ?_, fun hs hne => ?_, fun hs ⟨r, hr, hr0⟩ => ?_⟩
  · by_cases hji : j = i
    · subst hji
      rw [goto_worker_self] at hj
      rw [hj] at hpc; cases hpc
    · rw [goto_worker_of_ne hji, hw] at hj
      exact ⟨(h.cas j err hj).1, hsub err (h.cas j err hj).2⟩
  · by_cases hji : j = i
    · subst hji
      rw [goto_worker_self] at hj
      rw [hj] at hpc; cases hpc
    · rw [goto_worker_of_ne hji, hw] at hj
      rw [goto_jobError, he]
      exact h.drop j hj
  · rw [goto_caller, hc] at hs
    rw [goto_jobError, he] at hne ⊢
    exact hsub _ (h.reported hs hne)
  · rw [goto_caller, hc] at hs
    rw [goto_jobError, he]
    refine (h.recorded hs ⟨r, hnew r hr hr0, hr0⟩).imp_right ?_
    rintro ⟨j, err, hj⟩
    have hji : j ≠ i := by
      rintro rfl
      exact hp err (hi.symm.trans hj)
    exact ⟨j, err, by rw [goto_worker_of_ne hji, hw]; exact hj⟩

theorem WorkerMove.errors (hm : WorkerMove s i s') (h : Errors s) : Errors s' := by
  cases hm with
  | fail item err hpc herr =>
    refine ⟨fun j e hj => ?_, fun j hj => ?_, fun hs hne => ?_, fun _ _ => ?_⟩
    · by_cases hji : j = i
      · subst hji
        rw [goto_worker_self, WorkerPc.casError.injEq] at hj
        exact ⟨hj ▸ herr, List.mem_append_right _ (by rw [hj]; exact List.mem_singleton_self _)⟩
      · rw [goto_worker_of_ne hji] at hj
        exact ⟨(h.cas j e hj).1, List.mem_append_left _ (h.cas j e hj).2⟩
    · by_cases hji : j = i
      · subst hji; rw [goto_worker_self] at hj; cases hj
      · rw [goto_worker_of_ne hji] at hj
        exact h.drop j hj
    · exact List.mem_append_left _ (h.reported hs hne)
    · exact .inr ⟨i, err, goto_worker_self ..⟩
  | casError err hpc =>
    obtain ⟨herr, hmem⟩ := h.cas i err hpc
    have hne : (if s.jobError = 0 then err else s.jobError) ≠ 0 := by
      split
      · exact herr
      · assumption
    refine ⟨fun j e hj => ?_, fun _ _ => hne, fun hs _ => ?_, fun _ _ => .inl hne⟩
    · by_cases hji : j = i
      · subst hji; rw [goto_worker_self] at hj; cases hj
      · rw [goto_worker_of_ne hji] at hj
        exact h.cas j e hj
    · show (if s.jobError = 0 then err else s.jobError) ∈ s.results
      split
      · exact hmem
      · rename_i h0; exact h.reported hs h0
  | succeed item hpc =>
    refine h.goto _ hpc rfl rfl rfl (fun r hr => List.mem_append_left _ hr) ?_ nofun rfl
    intro r hr hr0
    rcases List.mem_append.mp hr with hr | hr
    · exact hr
    · exact absurd (List.mem_singleton.mp hr) hr0
  | fetchItem hpc | fetchNone hpc | fetchExit hpc | refetchItem hpc | refetchNone hpc
  | refetchExit hpc | skip _ hpc | callJob _ _ _ hpc | dropRunCount hpc | lockCond hpc
  | lockCaller hpc | broadcastCaller hpc | unlockCaller hpc | wait hpc | wakeUp hpc
  | unlockExit hpc | lastOut hpc | notLast hpc | incRunning _ hpc | unlockCond _ hpc
  | noError _ hpc | exit hpc =>
    exact h.goto _ hpc rfl rfl rfl (fun _ hr => hr) (fun _ hr _ => hr) nofun rfl

theorem Errors.congr (h : Errors s) {t : State N F U} {p : CallerPc} (hpc : s.caller = p)
    (hw : t.worker = s.worker) (he : t.jobError = s.jobError) (hres : t.results = s.results)
    (hs : t.caller.cleared = true → p.cleared = true) : Errors t := by
  subst hpc
  exact ⟨hw ▸ hres ▸ h.cas, hw ▸ he ▸ h.drop, fun ht => hres ▸ he ▸ h.reported (hs ht),
    fun ht => hres ▸ he ▸ hw ▸ h.recorded (hs ht)⟩

theorem Errors.idle {t : State N F U} (hq : ∀ j, (t.worker j).busy = false)
    (hs : t.caller.cleared = true → t.jobError = 0 ∧ t.results = []) : Errors t := by
  refine ⟨fun j err hj => ?_, fun j hj => ?_, fun ht hne => absurd (hs ht).1 hne,
    fun ht ⟨r, hr, _⟩ => ?_⟩
  · have hb := hq j; rw [hj] at hb; cases hb
  · have hb := hq j; rw [hj] at hb; cases hb
  · rw [(hs ht).2] at hr; exact absurd hr List.not_mem_nil

theorem DoMove.errors (hm : DoMove s s') (hb : Base s) (hq : Quiet s) (hl : Ledger s)
    (h : Errors s) : Errors s' := by
  cases hm with
  | enter _ _ hpc | tooMany _ _ hpc | enterSingle _ _ hpc =>
    exact .idle (hq.quiet (by rw [hpc]; intro hp; cases hp)) fun hp => by cases hp
  | single _ _ hpc | singleDone _ _ hpc | singleSucceed _ hpc | singleFail _ _ hpc =>
    have hc := hb.ready.caller
    rw [hpc] at hc
    simp [CallerPc.serving] at hc
  | clearError hpc =>
    have hs : s.caller.stage = .preparing := by rw [hpc]; rfl
    exact .idle (hq.quiet (by rw [hs]; intro hp; cases hp)) fun _ => ⟨rfl, (hl.fresh hs).2⟩
  | setRunCount hpc | setFunc _ hpc | setUserInfo _ hpc | lockPool hpc | lockCond hpc
  | lockCaller hpc | setJobCount _ hpc | broadcast hpc | unlockCond hpc | wait hpc | wakeUp hpc
  | again hpc | leave hpc | unlockCaller hpc | readError hpc | unlockPool _ hpc =>
    exact h.congr hpc rfl rfl rfl (by simp [CallerPc.cleared])

/-! ### Every item is claimed -/

/-- From the publication on and as long as the call has not failed, every item
is claimed or still on the counter. -/
def Complete (s : State N F U) : Prop :=
  s.caller.stage ≠ .outside → s.caller.stage ≠ .preparing → s.jobError = 0 →
    ∀ c, s.call = some c → Covered c.count maxCount s.gRunCount s.claims

theorem Initialised.complete (h : Initialised s) : Complete s := by
  intro hs
  rw [h.caller] at hs
  exact absurd rfl hs

theorem Complete.goto (h : Complete s) (t : State N F U) {pc : WorkerPc}
    (hc : t.caller = s.caller) (hcall : t.call = s.call)
    (hd : t.jobError = 0 → s.jobError = 0 ∧ ∀ c : Call F U,
      Covered c.count maxCount s.gRunCount s.claims →
        Covered c.count maxCount t.gRunCount (t.goto i pc).claims) : Complete (t.goto i pc) := by
  intro h1 h2 h0 c hcc
  rw [goto_caller, hc] at h1 h2
  obtain ⟨h0', hd⟩ := hd h0
  exact hd c (h h1 h2 h0' c (hcall ▸ hcc))

theorem Complete.goto_keep (h : Complete s) (t : State N F U) {p pc : WorkerPc}
    (hi : s.worker i = p) (hw : t.worker = s.worker) (hc : t.caller = s.caller)
    (hcall : t.call = s.call) (hh : t.handed = s.handed) (he : t.jobError = s.jobError)
    (hr : t.gRunCount = s.gRunCount) (hp : pc.pending = p.pending) : Complete (t.goto i pc) := by
  refine h.goto t hc hcall fun h0 => ⟨he ▸ h0, ?_⟩
  intro c hd
  rw [claims_keep t hi hw hh hp, hr]
  exact hd

theorem Complete.goto_take (h : Complete s) (t : State N F U) {p pc : WorkerPc}
    (hi : s.worker i = p) (hw : t.worker = s.worker) (hc : t.caller = s.caller)
    (hcall : t.call = s.call) (hh : t.handed = s.handed) (he : t.jobError = s.jobError)
    (hp : p.pending = 0) (hpc : pc.pending = {s.gRunCount})
    (hr : t.gRunCount = s.gRunCount - 1) : Complete (t.goto i pc) := by
  refine h.goto t hc hcall fun h0 => ⟨he ▸ h0, ?_⟩
  intro c hd
  rw [claims_take t hi hw hh hp hpc, hr]
  exact hd.take

theorem Complete.goto_none (h : Complete s) (t : State N F U) {p pc : WorkerPc}
    (hi : s.worker i = p) (hw : t.worker = s.worker) (hc : t.caller = s.caller)
    (hcall : t.call = s.call) (hh : t.handed = s.handed) (he : t.jobError = s.jobError)
    (hp : pc.pending = p.pending) (hx : Exhausted maxCount s.gRunCount) :
    Complete (t.goto i pc) := by
  refine h.goto t hc hcall fun h0 => ⟨he ▸ h0, ?_⟩
  intro c hd
  rw [claims_keep t hi hw hh hp]
  exact hd.exhaust hx

theorem WorkerMove.complete (hm : WorkerMove s i s') (he : Errors s) (h : Complete s) :
    Complete s' := by
  cases hm with
  | fetchItem hpc | refetchItem hpc =>
    exact h.goto_take _ hpc rfl rfl rfl rfl rfl rfl rfl rfl
  | fetchNone hpc h0 | refetchNone hpc h0 =>
    exact h.goto_none _ hpc rfl rfl rfl rfl rfl rfl (.inl h0)
  | fetchExit hpc h1 | refetchExit hpc h1 =>
    exact h.goto_none _ hpc rfl rfl rfl rfl rfl rfl (.inr h1)
  -- with an error nothing is promised
  | dropRunCount hpc => exact h.goto _ rfl rfl fun h0 => absurd h0 (he.drop i hpc)
  | skip item hpc hne => exact h.goto _ rfl rfl fun h0 => absurd h0 hne
  | casError err hpc =>
    refine h.goto _ rfl rfl fun h0 => absurd h0 ?_
    show (if s.jobError = 0 then err else s.jobError) ≠ 0
    split
    · exact (he.cas i err hpc).1
    · assumption
  | callJob item f u hpc =>
    refine h.goto _ rfl rfl fun h0 => ⟨h0, ?_⟩
    intro c hd
    have hcl := claims_hand { s with handed := s.handed ++ [(⟨f, u, item - 1⟩ : Job F U)] } hpc
      rfl rfl rfl
    rw [hcl]
    exact hd
  | succeed _ hpc | fail _ _ hpc | lockCond hpc | lockCaller hpc | broadcastCaller hpc
  | unlockCaller hpc | wait hpc | wakeUp hpc | unlockExit hpc | lastOut hpc | notLast hpc
  | incRunning _ hpc | unlockCond _ hpc | noError _ hpc | exit hpc =>
    exact h.goto_keep _ hpc rfl rfl rfl rfl rfl rfl rfl

theorem Complete.congr (h : Complete s) {t : State N F U} {p : CallerPc} (hpc : s.caller = p)
    (hw : t.worker = s.worker) (hr : t.gRunCount = s.gRunCount) (hcall : t.call = s.call)
    (hh : t.handed = s.handed) (he : t.jobError = s.jobError)
    (hs : t.caller.stage ≠ .outside → t.caller.stage ≠ .preparing →
      p.stage ≠ .outside ∧ p.stage ≠ .preparing) : Complete t := by
  subst hpc
  intro h1 h2 h0 c hc
  have hcl : t.claims = s.claims := by rw [State.claims, State.ran, hw, hh, State.claims, State.ran]
  rw [hcl, hr]
  exact h (hs h1 h2).1 (hs h1 h2).2 (he ▸ h0) c (hcall ▸ hc)

theorem DoMove.complete (hm : DoMove s s') (hb : Base s) (h : Complete s) : Complete s' := by
  cases hm with
  | enter | lockPool | lockCond | lockCaller | clearError | setJobCount =>
    exact fun _ hs => absurd rfl hs
  | tooMany | enterSingle | single | singleDone | singleSucceed | singleFail | unlockPool =>
    exact fun hs => absurd rfl hs
  | setRunCount hpc =>
    intro _ _ _ c hc
    obtain ⟨c', hc', hlt⟩ := hb.ready.call (by rw [hpc]; rfl)
    obtain rfl : c' = c := Option.some.inj (hc'.symm.trans hc)
    show Covered c'.count maxCount s.gJobCount s.claims
    rw [hb.ready.jobCount hpc c' hc]
    exact .start hlt
  | setFunc _ hpc | setUserInfo _ hpc | broadcast hpc | unlockCond hpc | wait hpc | wakeUp hpc
  | again hpc | leave hpc | unlockCaller hpc | readError hpc =>
    exact h.congr hpc rfl rfl rfl rfl rfl (by simp [CallerPc.stage])

/-! ### The result -/

/-- What the result `err` of call `c` says about its jobs. -/
structure Outcome (s : State N F U) (c : Call F U) (err : Int) : Prop where
  reported : err ≠ 0 → err ∈ s.results
  recorded : (∃ r ∈ s.results, r ≠ 0) → err ≠ 0
  all : err = 0 → ∀ x : Int, 0 < x → x ≤ c.count → x ∈ s.ran

/-- The caller has read the result of its call. -/
def Finished (s : State N F U) : Prop :=
  ∀ c err, s.call = some c →
    s.caller = .unlockPool err ∨ s.caller = .out (some err) ∧ (c.count : Int) < maxCount →
    Outcome s c err

theorem Initialised.finished (h : Initialised s) : Finished s := by
  intro c err hc
  rw [h.call] at hc
  cases hc

/-- A worker that is not busy leaves the record of the call alone. -/
theorem WorkerMove.record (hm : WorkerMove s i s') (hb : (s.worker i).busy = false) :
    s'.handed = s.handed ∧ s'.results = s.results := by
  cases hm with
  | callJob _ _ _ hpc | succeed _ hpc | fail _ _ hpc => rw [hpc] at hb; cases hb
  | _ => exact ⟨rfl, rfl⟩

theorem Outcome.congr {t : State N F U} {c : Call F U} {err : Int} (h : Outcome s c err)
    (hh : t.handed = s.handed) (hr : t.results = s.results) : Outcome t c err :=
  ⟨hr ▸ h.reported, hr ▸ h.recorded, by
    have hran : t.ran = s.ran := by rw [State.ran, hh, State.ran]
    rw [hran]; exact h.all⟩

theorem WorkerMove.finished (hm : WorkerMove s i s') (hq : Quiet s) (h : Finished s) :
    Finished s' := by
  intro c err hc hs
  obtain ⟨h1, h2, -⟩ := hm.frame
  rw [h2] at hc
  rw [h1] at hs
  have hst : s.caller.stage ≠ .waiting := by
    rcases hs with hs | ⟨hs, -⟩ <;> rw [hs] <;> nofun
  obtain ⟨hh, hr⟩ := hm.record (hq.quiet hst i)
  exact (h c err hc hs).congr hh hr

theorem Finished.congr (h : Finished s) {t : State N F U} (hc : t.caller = s.caller)
    (hcall : t.call = s.call) (hh : t.handed = s.handed) (hr : t.results = s.results) :
    Finished t :=
  fun c err hcc hs => (h c err (hcall ▸ hcc) (hc ▸ hs)).congr hh hr

theorem DoMove.finished (hm : DoMove s s') (hb : Base s) (hq : Quiet s) (he : Errors s)
    (hcm : Complete s) (h : Finished s) : Finished s' := by
  intro c err hc hs
  cases hm with
  | readError hpc =>
    have hst : s.caller.stage = .returning := by rw [hpc]; rfl
    obtain rfl : s.jobError = err := by
      rcases hs with hs | ⟨hs, -⟩ <;> cases hs
      rfl
    have hquiet := hq.quiet (by rw [hst]; nofun)
    have hx := hq.drained (by rw [hst]; nofun) (by rw [hst]; nofun)
    refine ⟨he.reported (by rw [hpc]; rfl), fun hr => ?_, fun h0 x hx0 hxc => ?_⟩
    · refine (he.recorded (by rw [hpc]; rfl) hr).resolve_right ?_
      rintro ⟨j, e, hj⟩
      have hbusy := hquiet j
      rw [hj] at hbusy
      cases hbusy
    · have hcov := hcm (by rw [hst]; nofun) (by rw [hst]; nofun) h0 c hc
      have hmem := hcov.all hx hx0 hxc
      rwa [claims_of_quiet hquiet] at hmem
  | unlockPool err' hpc =>
    rcases hs with hs | ⟨hs, hlt⟩
    · cases hs
    · cases hs
      exact (h c err hc (.inl hpc)).congr rfl rfl
  | tooMany c' _ _ _ hge =>
    cases hc
    rcases hs with hs | ⟨hs, hlt⟩
    · cases hs
    · omega
  | single _ _ hpc | singleDone _ _ hpc | singleSucceed _ hpc | singleFail _ _ hpc =>
    have hc := hb.ready.caller
    rw [hpc] at hc
    simp [CallerPc.serving] at hc
  | _ => rcases hs with hs | ⟨hs, -⟩ <;> cases hs

/-! ### The pool as its users see it -/

/-- **What the pool promises.**  No job of a call is run twice, only jobs of the
current call are run, and a call that returns has run all of them and returns
`CL_SUCCESS`, unless one of them failed: then it returns the error of a job. -/
structure CallsOk (s : State N F U) : Prop where
  once : (s.handed.map Job.index).Nodup
  current : ∀ c, s.call = some c → ∀ j ∈ s.handed,
    j.func = c.func ∧ j.userInfo = c.userInfo ∧ 0 ≤ j.index ∧ j.index < c.count
  idle : ∀ c err, s.call = some c → (c.count : Int) < maxCount → s.caller = .out (some err) →
    ∀ i item, s.worker i ≠ .inJob item
  success : ∀ c err, s.call = some c → (c.count : Int) < maxCount →
    s.caller = .out (some err) → (∀ r ∈ s.results, r = 0) →
    err = 0 ∧ ∀ k : ℕ, k < c.count → (s.handed.map Job.index).count (k : Int) = 1
  failure : ∀ c err, s.call = some c → (c.count : Int) < maxCount →
    s.caller = .out (some err) → (∃ r ∈ s.results, r ≠ 0) → err ∈ s.results ∧ err ≠ 0

/-- All invariants of an orderly run. -/
structure Inv (s : State N F U) : Prop where
  base : Base s
  wrap : Wrap s
  quiet : Quiet s
  signal : Signal s
  ledger : Ledger s
  errors : Errors s
  complete : Complete s
  finished : Finished s
  noCall : s.call = none → s.handed = []

theorem Initialised.inv (h : Initialised s) : Inv s :=
  ⟨⟨h.locks, h.ready, h.running⟩, h.wrap, h.quietPool, h.signal, h.ledger, h.errors, h.complete, h.finished,
    fun _ => h.handed⟩

theorem serving_of_waiting {pc : CallerPc} (h : pc.stage = .waiting) : pc.serving = true := by
  cases pc <;> first | rfl | cases h

theorem WorkerMove.inv (hm : WorkerMove s i s') (hok : NoWrap s i) (hb : Base s') (h : Inv s) :
    Inv s' where
  base := hb
  wrap := hm.wrap hok h.wrap
  quiet := hm.quiet h.base h.wrap h.quiet
  signal := hm.signal h.base h.wrap h.signal
  ledger := hm.ledger h.wrap h.quiet h.ledger
  errors := hm.errors h.errors
  complete := hm.complete h.errors h.complete
  finished := hm.finished h.quiet h.finished
  noCall hc := by
    rw [hm.frame.2.1] at hc
    have hnw : s.caller.stage ≠ .waiting := fun hs => by
      obtain ⟨c, hcc, -⟩ := h.base.ready.call (serving_of_waiting hs)
      rw [hc] at hcc
      cases hcc
    rw [(hm.record (h.quiet.quiet hnw i)).1]
    exact h.noCall hc

theorem DoMove.inv (hm : DoMove s s') (hb : Base s') (h : Inv s) : Inv s' where
  base := hb
  wrap := hm.wrap h.base.ready h.wrap
  quiet := hm.quiet h.signal h.quiet
  signal := hm.signal h.base h.quiet h.signal
  ledger := hm.ledger h.base h.quiet h.ledger
  errors := hm.errors h.base h.quiet h.ledger h.errors
  complete := hm.complete h.base h.complete
  finished := hm.finished h.base h.quiet h.errors h.complete h.finished
  noCall hc := by
    cases hm with
    | enter | tooMany | enterSingle => rfl
    | single _ _ _ hcc => exact absurd (hcc.symm.trans hc) nofun
    | _ => exact h.noCall hc

theorem Inv.wakeUp (h : Inv s) {v : Fin N → Bool} {b : Bool}
    (hb : Base { s with condVar := v, callerCondVar := b })
    (hs : Signal { s with condVar := v, callerCondVar := b }) :
    Inv { s with condVar := v, callerCondVar := b } where
  base := hb
  wrap := h.wrap.congr rfl rfl
  quiet := h.quiet.congr rfl rfl rfl (.inr (.inl rfl))
  signal := hs
  ledger := h.ledger.congr rfl rfl rfl rfl rfl rfl rfl rfl id id id
  errors := h.errors.congr rfl rfl rfl rfl id
  complete := h.complete.congr rfl rfl rfl rfl rfl rfl fun h1 h2 => ⟨h1, h2⟩
  finished := h.finished.congr rfl rfl rfl rfl
  noCall := h.noCall

theorem inv_next {e : Event N F U} (hn : next s e = some s') (hok : Orderly s e) (h : Inv s) :
    Inv s' := by
  have hb := base_next hn h.base
  cases move_of_next hn with
  | worker hm => exact hm.inv (hok.noWrap (.inl rfl)) hb h
  | job item hpc hm => exact hm.inv (hok.noWrap (.inr ⟨item, hpc⟩)) hb h
  | init hm => exact absurd hm h.base.ready.not_init
  | call hm => exact hm.inv hb h
  | spurious => exact h.wakeUp hb (h.signal.congr rfl rfl rfl fun hw _ => hw)
  | callerSpurious =>
    exact h.wakeUp hb (h.signal.congr rfl rfl rfl fun _ h0 => absurd h0 (hok.1 rfl))

theorem pool_inv (h : (pool N F U).Reach Orderly s) : Inv s :=
  h.invariant (I := Inv) (fun _ hi => Initialised.inv hi) fun _ _ _ hI hok hn => inv_next hn hok hI

/-! ### From the invariants to the promise -/

theorem ran_nodup_iff : s.ran.Nodup ↔ (s.handed.map Job.index).Nodup := by
  have he : s.handed.map (fun j => j.index + 1) = (s.handed.map Job.index).map (· + 1) := by
    rw [List.map_map]; rfl
  rw [State.ran, Multiset.coe_nodup, he]
  exact List.nodup_map_iff (add_left_injective 1)

theorem mem_ran {x : Int} : x ∈ s.ran ↔ x - 1 ∈ s.handed.map Job.index := by
  rw [State.ran, Multiset.mem_coe, List.mem_map, List.mem_map]
  constructor
  · rintro ⟨j, hj, he⟩
    exact ⟨j, hj, by omega⟩
  · rintro ⟨j, hj, he⟩
    exact ⟨j, hj, by omega⟩

theorem ran_le_claims : s.ran ≤ s.claims := Multiset.le_add_left _ _

theorem Inv.callsOk (h : Inv s) : CallsOk s := by
  have hran : s.ran.Nodup := by
    cases hc : s.call with
    | none => rw [State.ran, h.noCall hc]; exact Multiset.nodup_zero
    | some c => exact Multiset.nodup_of_le ran_le_claims (h.ledger.dispensed c hc).nodup
  have hquiet : ∀ err, s.caller = .out (some err) → ∀ j, (s.worker j).busy = false :=
    fun err hout => h.quiet.quiet (by rw [hout]; intro hp; cases hp)
  refine ⟨ran_nodup_iff.mp hran, fun c hc j hj => ?_, fun c err _ _ hout j item hj => ?_,
    fun c err hc hlt hout hres => ?_, fun c err hc hlt hout hres => ?_⟩
  · obtain ⟨hf, hu⟩ := h.ledger.jobs c hc j hj
    have hmem : j.index + 1 ∈ s.ran := mem_ran.mpr (List.mem_map.mpr ⟨j, hj, by omega⟩)
    have hr := (h.ledger.dispensed c hc).range _ (Multiset.mem_of_le ran_le_claims hmem)
    exact ⟨hf, hu, by omega, by omega⟩
  · have hb := hquiet err hout j
    rw [hj] at hb
    cases hb
  · have ho := h.finished c err hc (.inr ⟨hout, hlt⟩)
    have h0 : err = 0 := by
      by_contra hne
      exact hne (hres err (ho.reported hne))
    refine ⟨h0, ?_⟩
    intro k hk
    have hmem := mem_ran.mp (ho.all h0 (k + 1) (by omega) (by omega))
    rw [add_sub_cancel_right] at hmem
    exact List.count_eq_one_of_mem (ran_nodup_iff.mp hran) hmem
  · have ho := h.finished c err hc (.inr ⟨hout, hlt⟩)
    exact ⟨ho.reported (ho.recorded hres), ho.recorded hres⟩

/-- **Every orderly run of the pool keeps its promise**, whatever the jobs return
and however many calls are made. -/
theorem callsOk_of_orderly (h : (pool N F U).Reach Orderly s) : CallsOk s :=
  (pool_inv h).callsOk

/-- Two workers and one call with a single job, from the call to its return. -/
theorem callsOk_single_job :
    ∃ s, (pool 2 Unit Unit).Reach Orderly s ∧
      (s.caller = .out (some 0) ∧ s.handed = [⟨(), (), 0⟩]) ∧ CallsOk s := by
  obtain ⟨s, hr, hs⟩ := System.Reach.exists_of_run (S := pool 2 Unit Unit) Orderly
    (fun s => s.caller = .out (some 0) ∧ s.handed = [⟨(), (), 0⟩]) parked_initialised
    ([.call () 1 ()] ++ List.replicate 11 .caller ++ List.replicate 6 (.worker 0) ++
      [.job 0 0] ++ List.replicate 7 (.worker 0) ++ List.replicate 5 .caller) (by decide +kernel)
  exact ⟨s, hr, hs, callsOk_of_orderly hr⟩

/-- **A spurious wake-up breaks the promise.**  The caller of a single job is woken
up before any worker has been, finds `gRunning` at zero and returns
`CL_SUCCESS` with the job not run. -/
theorem not_callsOk_spurious :
    ∃ s, (pool 2 Unit Unit).Reach System.anyStep s ∧ ¬ CallsOk s := by
  obtain ⟨s, hr, hcall, hout, hh, hres⟩ := System.Reach.exists_of_run (S := pool 2 Unit Unit)
    System.anyStep
    (fun s => s.call = some ⟨(), 1, ()⟩ ∧ s.caller = .out (some 0) ∧ s.handed = [] ∧
      s.results = []) parked_initialised
    ([.call () 1 ()] ++ List.replicate 11 .caller ++ [.callerSpurious] ++
      List.replicate 5 .caller) (by decide +kernel)
  refine ⟨s, hr, ?_⟩
  intro h
  have h1 := (h.success _ 0 hcall (by decide) hout (by simp [hres])).2 0 (by decide)
  rw [hh] at h1
  cases h1

end OpenCLCTS.ThreadPool
