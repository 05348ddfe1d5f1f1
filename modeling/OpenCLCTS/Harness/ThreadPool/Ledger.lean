import OpenCLCTS.Harness.ThreadPool.Running

/-!
# Which items have been fetched

An item is fetched by decrementing `gRunCount` and handed to the job function
some steps later.  `State.claims` collects the items of the current call that are
in either of these two places.  The invariants say that no worker is between the
two outside the wait of `ThreadPool_Do`, and that no item is claimed twice.

They hold as long as the caller's `pthread_cond_wait` does not return spuriously
while `gRunning` is zero: that is the side condition `Orderly` on the steps of a
run.  A broadcast comes from the last worker out, and by then nothing is left.
-/

namespace OpenCLCTS.ThreadPool

open Interleaving

variable {N : ℕ} {F U : Type} {s s' : State N F U} {i : Fin N}

/-! ### The stages of a call -/

/-- How far the caller is with its call. -/
inductive Stage
  | outside
  /-- before `gRunCount = gJobCount` -/
  | preparing
  /-- the work is there, but the workers cannot have seen it yet -/
  | published
  | waiting
  /-- the wait loop is left -/
  | returning
  deriving DecidableEq

def CallerPc.stage : CallerPc → Stage
  | .lockPool | .lockCond | .lockCaller | .clearError | .setJobCount | .setRunCount => .preparing
  | .setFunc | .setUserInfo | .broadcast | .unlockCond => .published
  | .wait | .inWait | .test => .waiting
  | .unlockCaller | .readError | .unlockPool _ => .returning
  | _ => .outside

/-- `gFuncPtr` is the function of the current call. -/
def CallerPc.hasFunc : CallerPc → Bool
  | .setUserInfo | .broadcast | .unlockCond | .wait | .inWait | .test => true
  | _ => false

/-- `gUserInfo` is the argument of the current call. -/
def CallerPc.hasUserInfo : CallerPc → Bool
  | .broadcast | .unlockCond | .wait | .inWait | .test => true
  | _ => false

theorem holdsCond_of_published {pc : CallerPc} (h : pc.stage = .published) :
    pc.holdsCond = true := by
  cases pc <;> first | rfl | cases h

theorem hasFunc_of_waiting {pc : CallerPc} (h : pc.stage = .waiting) :
    pc.hasFunc = true ∧ pc.hasUserInfo = true := by
  cases pc <;> first | exact ⟨rfl, rfl⟩ | cases h

/-- The worker has work to do, or does not know yet that it has none. -/
def WorkerPc.busy : WorkerPc → Bool
  | .fetch | .lockCond | .decRunning | .incRunning _ | .unlockCond _ | .checkError _ | .callJob _
  | .inJob _ | .casError _ | .dropRunCount => true
  | _ => false

/-- The worker has fetched an item under `cond_lock` and is not counted yet. -/
def WorkerPc.starting : WorkerPc → Bool
  | .incRunning _ => true
  | _ => false

theorem holdsCond_of_starting {pc : WorkerPc} (h : pc.starting = true) : pc.holdsCond = true := by
  cases pc <;> first | rfl | cases h

theorem busy_of_not_counted {pc : WorkerPc} (h0 : pc.counted = 0) (h : pc.starting = false) :
    pc.busy = false := by
  cases pc with
  | incRunning item => cases h
  | _ => first | rfl | cases h0

/-! ### The side condition -/

/-- The caller's `pthread_cond_wait` does not return spuriously while `gRunning`
is zero, and `gRunCount` wraps around in a pool of moderate size only. -/
def Orderly (s : State N F U) (e : Event N F U) : Prop :=
  (e = .callerSpurious → s.gRunning ≠ 0) ∧ ∀ i, e = .worker i → NoWrap s i

instance [DecidableEq F] [DecidableEq U] (s : State N F U) (e : Event N F U) :
    Decidable (Orderly s e) := inferInstanceAs (Decidable (_ ∧ _))

theorem Orderly.noWrap {e : Event N F U} (hok : Orderly s e)
    (he : e = .worker i ∨ ∃ item, s.worker i = .inJob item) : NoWrap s i := by
  rcases he with he | ⟨item, hpc⟩
  · exact hok.2 i he
  · rintro (h | h) <;> rw [hpc] at h <;> cases h

/-! ### Outside the wait the workers are idle -/

theorem exhausted_decr {x : Int} (h : x ≤ 0) : Exhausted maxCount (decr x) := by
  rcases decr_of_nonpos h with hlt | ⟨_, hmax⟩
  · exact .inl hlt.le
  · exact .inr (by rw [hmax]; decide)

/-- Outside the wait no worker is busy, and outside the wait and its preparation
nothing is left on `gRunCount`. -/
structure Quiet (s : State N F U) : Prop where
  quiet : s.caller.stage ≠ .waiting → ∀ i, (s.worker i).busy = false
  drained : s.caller.stage ≠ .waiting → s.caller.stage ≠ .published →
    Exhausted maxCount s.gRunCount

theorem Initialised.quietPool (h : Initialised s) : Quiet s where
  quiet _ i := by rw [h.worker]; rfl
  drained _ _ := .inl h.gRunCount

/-- While `cond_lock` is the caller's, no worker fetches under it. -/
theorem Locks.not_refetch (h : Locks s) (hp : s.caller.stage = .published) :
    s.worker i ≠ .refetch := by
  intro hpc
  have h1 : s.holdsCond .caller = true := holdsCond_of_published hp
  have h2 : s.holdsCond (.worker i) = true := by rw [holdsCond_worker, hpc]; rfl
  cases h.cond.unique h1 h2

theorem Quiet.goto (h : Quiet s) (t : State N F U) {pc : WorkerPc} (hw : t.worker = s.worker)
    (hc : t.caller = s.caller) (hpc : s.caller.stage ≠ .waiting → pc.busy = false)
    (hr : s.caller.stage ≠ .waiting → s.caller.stage ≠ .published →
      Exhausted maxCount s.gRunCount → Exhausted maxCount t.gRunCount) :
    Quiet (t.goto i pc) := by
  refine ⟨fun hs j => ?_, fun hs hp => ?_⟩
  · rw [goto_caller, hc] at hs
    by_cases hj : j = i
    · subst hj; rw [goto_worker_self]; exact hpc hs
    · rw [goto_worker_of_ne hj, hw]; exact h.quiet hs j
  · rw [goto_caller, hc] at hs hp
    exact hr hs hp (h.drained hs hp)

theorem Quiet.waiting (h : Quiet s) {p : WorkerPc} (hi : s.worker i = p) (hp : p.busy = true) :
    s.caller.stage = .waiting := by
  by_contra hs
  rw [← hi, h.quiet hs i] at hp
  cases hp

theorem Quiet.goto_busy (h : Quiet s) (t : State N F U) {p pc : WorkerPc} (hi : s.worker i = p)
    (hp : p.busy = true) (hw : t.worker = s.worker) (hc : t.caller = s.caller) :
    Quiet (t.goto i pc) := by
  have hs := h.waiting hi hp
  exact h.goto t hw hc (fun hne => absurd hs hne) fun hne => absurd hs hne

theorem WorkerMove.quiet (hm : WorkerMove s i s') (hb : Base s) (hwr : Wrap s) (h : Quiet s) :
    Quiet s' := by
  cases hm with
  | fetchItem hpc | fetchNone hpc | fetchExit hpc | lockCond hpc | lastOut hpc | notLast hpc
  | incRunning _ hpc | unlockCond _ hpc | noError _ hpc | skip _ hpc | callJob _ _ _ hpc
  | succeed _ hpc | fail _ _ hpc | casError _ hpc | dropRunCount hpc =>
    exact h.goto_busy _ hpc rfl rfl rfl
  | lockCaller | broadcastCaller | unlockCaller | wait | wakeUp | unlockExit | exit =>
    exact h.goto _ rfl rfl (fun _ => rfl) fun _ _ hx => hx
  | refetchItem hpc h0 h1 =>
    have hs : s.caller.stage = .waiting := by
      by_contra hs
      by_cases hp : s.caller.stage = .published
      · exact hb.locks.not_refetch hp hpc
      · rcases h.drained hs hp with hx | hx <;> omega
    exact h.goto _ rfl rfl (fun hne => absurd hs hne) fun hne => absurd hs hne
  | refetchNone hpc h0 =>
    exact h.goto _ rfl rfl (fun _ => rfl) fun _ _ _ => exhausted_decr h0
  | refetchExit hpc h1 =>
    refine h.goto _ rfl rfl (fun _ => rfl) fun _ _ _ => .inr ?_
    have hlt := hwr.lt (i := i) h1 (by rw [hpc]; rfl)
    show maxCount ≤ s.gRunCount - 1
    omega

/-- A step that starts the wait, or does not change the stage, or is outside the
wait and after the publication. -/
theorem Quiet.congr (h : Quiet s) {t : State N F U} {p : CallerPc} (hpc : s.caller = p)
    (hw : t.worker = s.worker) (hr : t.gRunCount = s.gRunCount)
    (hs : t.caller.stage = .waiting ∨ t.caller.stage = p.stage ∨
      p.stage ≠ .waiting ∧ p.stage ≠ .published) : Quiet t := by
  subst hpc
  refine ⟨fun ht => ?_, fun ht hp => ?_⟩
  · rw [hw]
    rcases hs with hs | hs | hs
    · exact absurd hs ht
    · exact h.quiet (hs ▸ ht)
    · exact h.quiet hs.1
  · rw [hr]
    rcases hs with hs | hs | hs
    · exact absurd hs ht
    · exact h.drained (hs ▸ ht) (hs ▸ hp)
    · exact h.drained hs.1 hs.2

/-! ### The last worker out -/

/-- Nothing is left on `gRunCount` and no worker is busy. -/
def Drained (s : State N F U) : Prop :=
  Exhausted maxCount s.gRunCount ∧ ∀ j, (s.worker j).busy = false

/-- The worker has found nothing and is about to count itself out. -/
def WorkerPc.leaving : WorkerPc → Bool
  | .lockCond | .decRunning => true
  | _ => false

/-- The worker was the last one out and has not woken up the caller yet. -/
def WorkerPc.signalling : WorkerPc → Bool
  | .lockCaller | .broadcastCaller => true
  | _ => false

theorem busy_of_leaving {pc : WorkerPc} (h : pc.leaving = true) : pc.busy = true := by
  cases pc <;> first | rfl | cases h

theorem holdsCond_of_signalling {pc : WorkerPc} (h : pc.signalling = true) :
    pc.holdsCond = true := by
  cases pc <;> first | rfl | cases h

/-- The caller's `pthread_cond_wait` has returned, or has been told to. -/
def State.Woken (s : State N F U) : Prop :=
  s.caller = .test ∨ s.caller = .inWait ∧ s.callerCondVar = false

/-- A worker counts itself out only when nothing is left on `gRunCount`, so when
the last one does, the pool is drained, and it stays so until the caller is back. -/
structure Signal (s : State N F U) : Prop where
  leaving : ∀ j, (s.worker j).leaving = true → Exhausted maxCount s.gRunCount
  signalling : ∀ j, (s.worker j).signalling = true → Drained s
  woken : s.Woken → s.gRunning = 0 → Drained s

theorem Initialised.signal (h : Initialised s) : Signal s where
  leaving j hj := by rw [h.worker] at hj; cases hj
  signalling j hj := by rw [h.worker] at hj; cases hj
  woken hw := by
    rcases hw with hw | ⟨hw, -⟩ <;> rw [h.caller] at hw <;> cases hw

theorem WorkerMove.worker_of_ne (hm : WorkerMove s i s') {j : Fin N} (hj : j ≠ i) :
    s'.worker j = s.worker j := by
  cases hm <;> exact goto_worker_of_ne hj _

theorem WorkerMove.exhausted (hm : WorkerMove s i s') (hwr : Wrap s)
    (hx : Exhausted maxCount s.gRunCount) : Exhausted maxCount s'.gRunCount := by
  cases hm with
  | fetchItem _ h0 h1 | refetchItem _ h0 h1 => rcases hx with hx | hx <;> omega
  | fetchNone _ h0 | refetchNone _ h0 => exact exhausted_decr h0
  | fetchExit hpc h1 | refetchExit hpc h1 =>
    have hlt := hwr.lt (i := i) h1 (by rw [hpc]; rfl)
    exact .inr (by simp only [goto_gRunCount]; omega)
  | dropRunCount => exact .inl le_rfl
  | _ => exact hx

theorem WorkerMove.drained (hm : WorkerMove s i s') (hwr : Wrap s) (h : Drained s) :
    Drained s' := by
  refine ⟨hm.exhausted hwr h.1, fun j => ?_⟩
  by_cases hj : j = i
  · subst hj
    have hb := h.2 j
    cases hm with
    | fetchItem hpc | fetchNone hpc | fetchExit hpc | lockCond hpc | lastOut hpc | notLast hpc
    | incRunning _ hpc | unlockCond _ hpc | noError _ hpc | skip _ hpc | callJob _ _ _ hpc
    | succeed _ hpc | fail _ _ hpc | casError _ hpc | dropRunCount hpc => rw [hpc] at hb; cases hb
    | refetchItem _ h0 h1 => rcases h.1 with hx | hx <;> omega
    | _ => rw [goto_worker_self]; rfl
  · rw [hm.worker_of_ne hj]
    exact h.2 j

/-- When the last worker counts itself out, the others have done so, and nobody
is about to count itself in: that needs `cond_lock`. -/
theorem Signal.drained (h : Signal s) (hb : Base s) (hpc : s.worker i = .decRunning)
    (h1 : s.gRunning = 1) : Drained ({ s with gRunning := s.gRunning - 1 }.goto i .lockCaller) := by
  refine ⟨h.leaving i (by rw [hpc]; rfl), fun j => ?_⟩
  by_cases hj : j = i
  · subst hj; rw [goto_worker_self]; rfl
  · have hm := (WorkerMove.lastOut hpc h1).running hb.running
    have h0 : s.gRunning - 1 = 0 := by omega
    refine busy_of_not_counted (hm.counted_eq_zero h0 j) ?_
    rw [goto_worker_of_ne hj, Bool.eq_false_iff]
    intro hst
    have hi : s.holdsCond (.worker i) = true := by rw [holdsCond_worker, hpc]; rfl
    have hj' : s.holdsCond (.worker j) = true := holdsCond_of_starting hst
    exact hj (Thread.worker.inj (hb.locks.cond.unique hj' hi))

theorem WorkerMove.signal (hm : WorkerMove s i s') (hb : Base s) (hwr : Wrap s)
    (h : Signal s) : Signal s' := by
  have hd := hm.drained hwr
  refine ⟨fun j hj => ?_, fun j hj => ?_, fun hw h0 => ?_⟩
  · by_cases hji : j = i
    · subst hji
      cases hm with
      | fetchNone _ h0 => exact exhausted_decr h0
      | lockCond hpc => exact h.leaving j (by rw [hpc]; rfl)
      | _ => rw [goto_worker_self] at hj; cases hj
    · rw [hm.worker_of_ne hji] at hj
      exact hm.exhausted hwr (h.leaving j hj)
  · by_cases hji : j = i
    · subst hji
      cases hm with
      | lastOut hpc h1 => exact h.drained hb hpc h1
      | lockCaller hpc => exact hd (h.signalling j (by rw [hpc]; rfl))
      | _ => rw [goto_worker_self] at hj; cases hj
    · rw [hm.worker_of_ne hji] at hj
      exact hd (h.signalling j hj)
  · cases hm with
    | lastOut hpc h1 => exact h.drained hb hpc h1
    | broadcastCaller hpc => exact hd (h.signalling i (by rw [hpc]; rfl))
    | notLast _ h1 => exact absurd h0 (by simp only [goto_gRunning]; omega)
    | incRunning item hpc =>
      have hnn := hb.running.nonneg
      exact absurd h0 (by simp only [goto_gRunning]; omega)
    | _ => exact hd (h.woken hw h0)

/-- A wake-up, of which the caller's happen only while `gRunning` is not zero. -/
theorem Signal.congr (h : Signal s) {t : State N F U} (hw : t.worker = s.worker)
    (hr : t.gRunCount = s.gRunCount) (hg : t.gRunning = s.gRunning)
    (hs : t.Woken → s.gRunning = 0 → s.Woken) : Signal t := by
  have hd : Drained s → Drained t := by rw [Drained, Drained, hw, hr]; exact id
  refine ⟨fun j hj => ?_, fun j hj => ?_, fun ht h0 => ?_⟩
  · rw [hr]; exact h.leaving j (hw ▸ hj)
  · exact hd (h.signalling j (hw ▸ hj))
  · rw [hg] at h0
    exact hd (h.woken (hs ht h0) h0)

theorem DoMove.signal (hm : DoMove s s') (hb : Base s) (hq : Quiet s) (h : Signal s) :
    Signal s' := by
  cases hm with
  | wakeUp hpc hvar => exact ⟨h.leaving, h.signalling, fun _ h0 => h.woken (.inr ⟨hpc, hvar⟩) h0⟩
  | setRunCount hpc =>
    -- a leaving worker is busy, and a signalling one has the `cond_lock` of the caller
    refine ⟨fun j hj => ?_, fun j hj => ?_, ?_⟩
    · have hs := hq.waiting rfl (busy_of_leaving hj)
      rw [hpc] at hs; cases hs
    · have hc : s.holdsCond .caller = true := by rw [holdsCond_caller, hpc]; rfl
      have hj' : s.holdsCond (.worker j) = true := holdsCond_of_signalling hj
      cases hb.locks.cond.unique hc hj'
    · rintro (hw | ⟨hw, -⟩) <;> cases hw
  | wait hpc =>
    refine ⟨h.leaving, h.signalling, ?_⟩
    rintro (hw | ⟨-, hv⟩)
    · cases hw
    · cases hv
  | _ =>
    refine ⟨h.leaving, h.signalling, ?_⟩
    rintro (hw | ⟨hw, -⟩) <;> cases hw

theorem DoMove.quiet (hm : DoMove s s') (hsig : Signal s) (h : Quiet s) : Quiet s' := by
  cases hm with
  | leave hpc hr =>
    obtain ⟨hx, hq⟩ := hsig.woken (.inl hpc) hr
    exact ⟨fun _ => hq, fun _ _ => hx⟩
  | setRunCount hpc =>
    have hs : s.caller.stage = .preparing := by rw [hpc]; rfl
    exact ⟨fun _ => h.quiet (by rw [hs]; nofun), fun _ hp => absurd rfl hp⟩
  | enter _ _ hpc | tooMany _ _ hpc | enterSingle _ _ hpc | single _ _ hpc | singleDone _ _ hpc
  | singleSucceed _ hpc | singleFail _ _ hpc | lockPool hpc | lockCond hpc | lockCaller hpc
  | clearError hpc | setJobCount _ hpc | setFunc _ hpc | setUserInfo _ hpc | broadcast hpc
  | unlockCond hpc | wait hpc | wakeUp hpc | again hpc | unlockCaller hpc | readError hpc
  | unlockPool _ hpc =>
    exact h.congr hpc rfl rfl (by simp [CallerPc.stage])

/-! ### The claims -/

/-- The item the worker has fetched and not handed over yet. -/
def WorkerPc.pending : WorkerPc → Multiset Int
  | .incRunning item | .unlockCond item | .checkError item | .callJob item => {item}
  | _ => 0

/-- The items that were handed to the job function. -/
def State.ran (s : State N F U) : Multiset Int := s.handed.map fun j => j.index + 1

/-- The items of the current call that have been fetched, and not thrown away
because of an error. -/
def State.claims (s : State N F U) : Multiset Int := ∑ j, (s.worker j).pending + s.ran

theorem pending_of_not_busy {pc : WorkerPc} (h : pc.busy = false) : pc.pending = 0 := by
  cases pc <;> first | rfl | cases h

theorem claims_of_quiet (hq : ∀ j, (s.worker j).busy = false) : s.claims = s.ran := by
  rw [State.claims, Finset.sum_eq_zero fun j _ => pending_of_not_busy (hq j), zero_add]

theorem claims_goto (t : State N F U) (pc : WorkerPc) {p : WorkerPc} (hi : s.worker i = p)
    (hw : t.worker = s.worker) :
    (t.goto i pc).claims + p.pending = ∑ j, (s.worker j).pending + pc.pending + t.ran := by
  have hsum := sum_goto (s := t) (i := i) WorkerPc.pending pc
  rw [hw, hi] at hsum
  have hran : (t.goto i pc).ran = t.ran := rfl
  rw [State.claims, hran, add_right_comm, hsum]

theorem claims_keep (t : State N F U) {p pc : WorkerPc} (hi : s.worker i = p)
    (hw : t.worker = s.worker) (hh : t.handed = s.handed) (hp : pc.pending = p.pending) :
    (t.goto i pc).claims = s.claims := by
  have hran : t.ran = s.ran := by rw [State.ran, hh, State.ran]
  have h := claims_goto t pc hi hw
  rw [hp, hran, add_right_comm] at h
  exact add_right_cancel h

theorem claims_take (t : State N F U) {p pc : WorkerPc} {item : Int} (hi : s.worker i = p)
    (hw : t.worker = s.worker) (hh : t.handed = s.handed) (hp : p.pending = 0)
    (hpc : pc.pending = {item}) : (t.goto i pc).claims = item ::ₘ s.claims := by
  have hran : t.ran = s.ran := by rw [State.ran, hh, State.ran]
  have h := claims_goto t pc hi hw
  rw [hp, hpc, hran, add_zero, add_right_comm] at h
  rw [h, Multiset.add_comm, Multiset.singleton_add, State.claims]

theorem claims_drop (t : State N F U) {p pc : WorkerPc} {item : Int} (hi : s.worker i = p)
    (hw : t.worker = s.worker) (hh : t.handed = s.handed) (hp : p.pending = {item})
    (hpc : pc.pending = 0) : (t.goto i pc).claims ≤ s.claims := by
  have hran : t.ran = s.ran := by rw [State.ran, hh, State.ran]
  have h := claims_goto t pc hi hw
  rw [hp, hpc, hran, add_zero] at h
  calc (t.goto i pc).claims ≤ (t.goto i pc).claims + {item} := Multiset.le_add_right _ _
    _ = s.claims := h

theorem claims_hand (t : State N F U) {j : Job F U} {item : Int} (hi : s.worker i = .callJob item)
    (hw : t.worker = s.worker) (hh : t.handed = s.handed ++ [j]) (hj : j.index = item - 1) :
    (t.goto i (.inJob item)).claims = s.claims := by
  have hran : t.ran = s.ran + {item} := by
    rw [State.ran, hh, State.ran, List.map_append, ← Multiset.coe_add]
    simp [hj]
  have h := claims_goto t (.inJob item) hi hw
  rw [hran] at h
  have hz : (WorkerPc.inJob item).pending = 0 := rfl
  have hp : (WorkerPc.callJob item).pending = {item} := rfl
  rw [hz, hp, add_zero, ← add_assoc] at h
  exact add_right_cancel h

end OpenCLCTS.ThreadPool
