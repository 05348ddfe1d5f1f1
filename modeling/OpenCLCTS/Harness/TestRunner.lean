import Mathlib.Data.Fintype.Basic
import Mathlib.Data.Multiset.Filter
import Mathlib.Tactic.Abel
import OpenCLCTS.Lib.Threads

/-!
# Running the selected tests

`callTestFunctions` of `testHarness.cpp` runs the selected tests one after the
other, or puts their indices into `gTestQueue` and lets `numWorkerThreads` threads
take them out again.  A worker takes an index in one critical section, runs the
test outside, and stores the status in another; each critical section of
`gTestStateMutex` is one step.

The status of a test is a function of the test, `callSingleTestFunction`; the
device and the configuration are the same for all tests of a call and are part of
that function.  `executed` and `stored` record which tests were run and whose
status was stored.  No step reads them.
-/

namespace OpenCLCTS.TestRunner

open Interleaving

/-- The arguments of `callTestFunctions`, with `testNum` tests. -/
structure Config (T S : Type) (testNum : ℕ) where
  callSingleTestFunction : T → S
  testList : Fin testNum → T
  selectedTestList : Fin testNum → Bool
  /-- what `resultTestList` holds before the call -/
  resultTestList : Fin testNum → S

/-- Where a worker stands in `test_function_runner`. -/
inductive WorkerPc (T S : Type) (testNum : ℕ)
  /-- not spawned yet -/
  | notStarted
  /-- before the first critical section -/
  | getTest
  /-- before the call of the test -/
  | execute (testID : Fin testNum) (test : T)
  /-- before the second critical section -/
  | storeResult (testID : Fin testNum) (status : S)
  | returned
  deriving DecidableEq

/-- Where `callTestFunctions` stands in its parallel branch. -/
inductive MainPc
  /-- before `i < testNum` in the loop that fills the queue -/
  | queue (i : ℕ)
  /-- before `i < numWorkerThreads` -/
  | spawn (i : ℕ)
  /-- before the join of worker `i` -/
  | join (i : ℕ)
  | returned
  deriving DecidableEq

structure State (T S : Type) (testNum W : ℕ) where
  gTestQueue : List (Fin testNum)
  results : Fin testNum → S
  main : MainPc
  worker : Fin W → WorkerPc T S testNum
  executed : List (Fin testNum)
  stored : List (Fin testNum)

/-- Who moves. -/
inductive Event (W : ℕ)
  | main
  | worker (w : Fin W)
  deriving DecidableEq

variable {T S : Type} {n W : ℕ} (cfg : Config T S n)

/-- One round of the serial loop. -/
def serialStep (results : Fin n → S) (i : Fin n) : Fin n → S :=
  if cfg.selectedTestList i then
    Function.update results i (cfg.callSingleTestFunction (cfg.testList i))
  else results

/-- What the serial branch (`numWorkerThreads == 0`) leaves in `resultTestList`. -/
def serial : Fin n → S := (List.finRange n).foldl (serialStep cfg) cfg.resultTestList

/-- `test_function_runner`: the next step of worker `w`. -/
def testFunctionRunner (s : State T S n W) (w : Fin W) : Option (State T S n W) :=
  match s.worker w with
  | .notStarted | .returned => none
  | .getTest =>
    match s.gTestQueue with
    | [] => some { s with worker := Function.update s.worker w .returned }
    | testID :: rest =>
      some { s with
        gTestQueue := rest
        worker := Function.update s.worker w (.execute testID (cfg.testList testID)) }
  | .execute testID test =>
    some { s with
      executed := s.executed ++ [testID]
      worker := Function.update s.worker w
        (.storeResult testID (cfg.callSingleTestFunction test)) }
  | .storeResult testID status =>
    some { s with
      results := Function.update s.results testID status
      stored := s.stored ++ [testID]
      worker := Function.update s.worker w .getTest }

/-- `callTestFunctions`, parallel branch: the next step of the main thread. -/
def callTestFunctions (s : State T S n W) : Option (State T S n W) :=
  match s.main with
  | .queue i =>
    if h : i < n then
      some { s with
        gTestQueue :=
          if cfg.selectedTestList ⟨i, h⟩ then s.gTestQueue ++ [⟨i, h⟩] else s.gTestQueue
        main := .queue (i + 1) }
    else some { s with main := .spawn 0 }
  | .spawn i =>
    if h : i < W then
      some { s with
        worker := Function.update s.worker ⟨i, h⟩ .getTest
        main := .spawn (i + 1) }
    else some { s with main := .join 0 }
  | .join i =>
    if h : i < W then
      match s.worker ⟨i, h⟩ with
      | .returned => some { s with main := .join (i + 1) }
      | _ => none
    else some { s with main := .returned }
  | .returned => none

/-- The state in which the parallel branch is entered. -/
def start : State T S n W where
  gTestQueue := []
  results := cfg.resultTestList
  main := .queue 0
  worker := fun _ => .notStarted
  executed := []
  stored := []

/-- The parallel branch with `W` worker threads. -/
def runner (W : ℕ) : System (State T S n W) (Event W) where
  init s := s = start cfg
  next s e :=
    match e with
    | .main => callTestFunctions cfg s
    | .worker w => testFunctionRunner cfg s w

/-! ### The serial loop -/

theorem serialStep_apply (results : Fin n → S) (i j : Fin n) :
    serialStep cfg results i j =
      if i = j ∧ cfg.selectedTestList j then cfg.callSingleTestFunction (cfg.testList j)
      else results j := by
  unfold serialStep
  by_cases hij : i = j
  · subst hij
    by_cases hs : cfg.selectedTestList i <;> simp [hs]
  · by_cases hs : cfg.selectedTestList i <;> simp [hs, hij, Function.update_of_ne (Ne.symm hij)]

theorem foldl_serialStep_apply (l : List (Fin n)) (results : Fin n → S) (j : Fin n) :
    l.foldl (serialStep cfg) results j =
      if j ∈ l ∧ cfg.selectedTestList j then cfg.callSingleTestFunction (cfg.testList j)
      else results j := by
  induction l generalizing results with
  | nil => simp
  | cons i l ih =>
    rw [List.foldl_cons, ih, serialStep_apply]
    by_cases hs : cfg.selectedTestList j
    · by_cases hl : j ∈ l
      · simp [hs, hl]
      · rcases eq_or_ne j i with rfl | hij
        · simp [hs]
        · simp [hs, hl, hij, Ne.symm hij]
    · simp [hs]

theorem serial_apply (j : Fin n) :
    serial cfg j = if cfg.selectedTestList j then cfg.callSingleTestFunction (cfg.testList j)
      else cfg.resultTestList j := by
  rw [serial, foldl_serialStep_apply]
  simp

/-! ### Moves -/

variable {cfg} {s s' : State T S n W} {w : Fin W}

/-- What worker `w` can do next, with the state after it. -/
inductive WorkerMove (cfg : Config T S n) (s : State T S n W) (w : Fin W) :
    State T S n W → Prop
  | leave (h : s.worker w = .getTest) (hq : s.gTestQueue = []) :
      WorkerMove cfg s w { s with worker := Function.update s.worker w .returned }
  | take (testID : Fin n) (rest : List (Fin n)) (h : s.worker w = .getTest)
      (hq : s.gTestQueue = testID :: rest) :
      WorkerMove cfg s w { s with
        gTestQueue := rest
        worker := Function.update s.worker w (.execute testID (cfg.testList testID)) }
  | execute (testID : Fin n) (test : T) (h : s.worker w = .execute testID test) :
      WorkerMove cfg s w { s with
        executed := s.executed ++ [testID]
        worker := Function.update s.worker w
          (.storeResult testID (cfg.callSingleTestFunction test)) }
  | store (testID : Fin n) (status : S) (h : s.worker w = .storeResult testID status) :
      WorkerMove cfg s w { s with
        results := Function.update s.results testID status
        stored := s.stored ++ [testID]
        worker := Function.update s.worker w .getTest }

theorem workerMove_of_next (h : testFunctionRunner cfg s w = some s') : WorkerMove cfg s w s' := by
  cases hpc : s.worker w <;> simp only [testFunctionRunner, hpc, reduceCtorEq] at h
  case getTest =>
    split at h
    · rename_i hq; cases h; exact .leave hpc hq
    · rename_i testID rest hq; cases h; exact .take testID rest hpc hq
  case execute testID test => cases h; exact .execute testID test hpc
  case storeResult testID status => cases h; exact .store testID status hpc

/-- What the main thread can do next, with the state after it. -/
inductive MainMove (cfg : Config T S n) (s : State T S n W) : State T S n W → Prop
  | push (i : ℕ) (hi : i < n) (h : s.main = .queue i) (hs : cfg.selectedTestList ⟨i, hi⟩ = true) :
      MainMove cfg s { s with gTestQueue := s.gTestQueue ++ [⟨i, hi⟩], main := .queue (i + 1) }
  | pass (i : ℕ) (hi : i < n) (h : s.main = .queue i) (hs : cfg.selectedTestList ⟨i, hi⟩ = false) :
      MainMove cfg s { s with main := .queue (i + 1) }
  | queued (i : ℕ) (hi : ¬ i < n) (h : s.main = .queue i) :
      MainMove cfg s { s with main := .spawn 0 }
  | spawn (i : ℕ) (hi : i < W) (h : s.main = .spawn i) :
      MainMove cfg s { s with
        worker := Function.update s.worker ⟨i, hi⟩ .getTest
        main := .spawn (i + 1) }
  | spawned (i : ℕ) (hi : ¬ i < W) (h : s.main = .spawn i) :
      MainMove cfg s { s with main := .join 0 }
  | join (i : ℕ) (hi : i < W) (h : s.main = .join i) (hr : s.worker ⟨i, hi⟩ = .returned) :
      MainMove cfg s { s with main := .join (i + 1) }
  | joined (i : ℕ) (hi : ¬ i < W) (h : s.main = .join i) :
      MainMove cfg s { s with main := .returned }

theorem mainMove_of_next (h : callTestFunctions cfg s = some s') : MainMove cfg s s' := by
  cases hpc : s.main <;> simp only [callTestFunctions, hpc, reduceCtorEq] at h
  case queue i =>
    split at h
    · rename_i hi
      cases h
      split
      · rename_i hs; exact .push i hi hpc hs
      · rename_i hs; exact .pass i hi hpc (by simpa using hs)
    · rename_i hi; cases h; exact .queued i hi hpc
  case spawn i =>
    split at h
    · rename_i hi; cases h; exact .spawn i hi hpc
    · rename_i hi; cases h; exact .spawned i hi hpc
  case join i =>
    split at h
    · rename_i hi
      split at h
      · rename_i hr; cases h; exact .join i hi hpc hr
      · cases h
    · rename_i hi; cases h; exact .joined i hi hpc

/-! ### Where each selected test is -/

/-- The test a worker has taken out of the queue and not run yet. -/
def WorkerPc.running : WorkerPc T S n → Multiset (Fin n)
  | .execute testID _ => {testID}
  | _ => 0

/-- The test a worker has run and whose status it has not stored yet. -/
def WorkerPc.storing : WorkerPc T S n → Multiset (Fin n)
  | .storeResult testID _ => {testID}
  | _ => 0

/-- How far the queue has been filled. -/
def MainPc.filled (n : ℕ) : MainPc → ℕ
  | .queue i => min i n
  | _ => n

/-- How many workers have been spawned. -/
def MainPc.spawned (W : ℕ) : MainPc → ℕ
  | .queue _ => 0
  | .spawn i => i
  | _ => W

/-- How many workers have been joined. -/
def MainPc.joined (W : ℕ) : MainPc → ℕ
  | .queue _ | .spawn _ => 0
  | .join i => i
  | .returned => W

/-- The selected tests among the first `i`. -/
def selectedUpTo (cfg : Config T S n) (i : ℕ) : Multiset (Fin n) :=
  ((List.finRange n).filter fun j => (j : ℕ) < i ∧ cfg.selectedTestList j : List (Fin n))

/-- **Every selected test is in one place**: in the queue, with one worker that is
about to run it, or run; and a test that was run is with one worker that is about
to store its status, or stored. -/
structure Inv (cfg : Config T S n) (s : State T S n W) : Prop where
  taken : (s.gTestQueue : Multiset (Fin n)) + ∑ v, (s.worker v).running + s.executed =
    selectedUpTo cfg (s.main.filled n)
  ran : ∑ v, (s.worker v).storing + s.stored = (s.executed : Multiset (Fin n))
  test : ∀ v testID test, s.worker v = .execute testID test → test = cfg.testList testID
  status : ∀ v testID status, s.worker v = .storeResult testID status →
    status = cfg.callSingleTestFunction (cfg.testList testID)
  results : ∀ j, s.results j =
    if j ∈ s.stored then cfg.callSingleTestFunction (cfg.testList j) else cfg.resultTestList j
  spawned : ∀ v : Fin W, s.worker v = .notStarted ↔ s.main.spawned W ≤ v
  joined : ∀ v : Fin W, (v : ℕ) < s.main.joined W → s.worker v = .returned
  empty : (∃ v, s.worker v = .returned) → s.gTestQueue = []
  bound : s.main.spawned W ≤ W

theorem sum_worker (f : WorkerPc T S n → Multiset (Fin n)) (pc : WorkerPc T S n) :
    ∑ v, f (Function.update s.worker w pc v) + f (s.worker w) = ∑ v, f (s.worker v) + f pc :=
  sum_update (fun _ => f) s.worker w pc

theorem start_inv : Inv cfg (start cfg : State T S n W) where
  taken := by simp [start, selectedUpTo, MainPc.filled, WorkerPc.running]
  ran := by simp [start, WorkerPc.storing]
  test v _ _ hv := by cases hv
  status v _ _ hv := by cases hv
  results j := by simp [start]
  spawned v := by simp [start, MainPc.spawned]
  joined v hv := absurd hv (Nat.not_lt_zero _)
  empty := fun ⟨v, hv⟩ => by cases hv
  bound := Nat.zero_le _

theorem Inv.started (h : Inv cfg s) (hw : s.worker w ≠ .notStarted) :
    (w : ℕ) < s.main.spawned W := by
  by_contra hge
  exact hw ((h.spawned w).mpr (not_lt.mp hge))

/-- What stays of the invariant when worker `w`, which had not returned, moves on
to `pc`. -/
theorem Inv.spawned_update (h : Inv cfg s) {pc : WorkerPc T S n} (hw : s.worker w ≠ .notStarted)
    (hpc : pc ≠ .notStarted) (v : Fin W) :
    Function.update s.worker w pc v = .notStarted ↔ s.main.spawned W ≤ v := by
  rcases eq_or_ne v w with rfl | hv
  · rw [Function.update_self]
    have := h.started hw
    exact ⟨fun he => absurd he hpc, fun hle => by omega⟩
  · rw [Function.update_of_ne hv]
    exact h.spawned v

theorem Inv.joined_update (h : Inv cfg s) {pc : WorkerPc T S n} (hw : s.worker w ≠ .returned)
    (v : Fin W) (hv : (v : ℕ) < s.main.joined W) :
    Function.update s.worker w pc v = .returned := by
  have hr := h.joined v hv
  rw [Function.update_of_ne (by rintro rfl; exact hw hr)]
  exact hr

theorem Inv.goto (h : Inv cfg s) {t : State T S n W} {p pc : WorkerPc T S n}
    (hw : s.worker w = p) (hp : p ≠ .notStarted ∧ p ≠ .returned)
    (htw : t.worker = Function.update s.worker w pc) (hpc : pc ≠ .notStarted) (hmain : t.main = s.main)
    (htaken : (t.gTestQueue : Multiset (Fin n)) + pc.running + t.executed =
      s.gTestQueue + p.running + s.executed)
    (hran : pc.storing + t.stored + s.executed = p.storing + s.stored + t.executed)
    (htest : ∀ testID test, pc = .execute testID test → test = cfg.testList testID)
    (hstatus : ∀ testID status, pc = .storeResult testID status →
      status = cfg.callSingleTestFunction (cfg.testList testID))
    (hresults : ∀ j, t.results j =
      if j ∈ t.stored then cfg.callSingleTestFunction (cfg.testList j) else cfg.resultTestList j)
    (hempty : t.gTestQueue = [] ∨ pc ≠ .returned ∧ (s.gTestQueue = [] → t.gTestQueue = [])) :
    Inv cfg t where
  taken := by
    have hsum := sum_worker (s := s) (w := w) WorkerPc.running pc
    have hs := h.taken
    rw [hw] at hsum
    rw [htw, hmain]
    ext a
    have h1 := congrArg (Multiset.count a) hsum
    have h2 := congrArg (Multiset.count a) hs
    have h3 := congrArg (Multiset.count a) htaken
    simp only [Multiset.count_add] at h1 h2 h3 ⊢
    omega
  ran := by
    have hsum := sum_worker (s := s) (w := w) WorkerPc.storing pc
    have hs := h.ran
    rw [hw] at hsum
    rw [htw]
    ext a
    have h1 := congrArg (Multiset.count a) hsum
    have h2 := congrArg (Multiset.count a) hs
    have h3 := congrArg (Multiset.count a) hran
    simp only [Multiset.count_add] at h1 h2 h3 ⊢
    omega
  test v testID test hv := by
    rw [htw] at hv
    rcases eq_or_ne v w with rfl | hvw
    · rw [Function.update_self] at hv; exact htest testID test hv
    · rw [Function.update_of_ne hvw] at hv; exact h.test v testID test hv
  status v testID status hv := by
    rw [htw] at hv
    rcases eq_or_ne v w with rfl | hvw
    · rw [Function.update_self] at hv; exact hstatus testID status hv
    · rw [Function.update_of_ne hvw] at hv; exact h.status v testID status hv
  results := hresults
  spawned v := by rw [htw, hmain]; exact h.spawned_update (hw ▸ hp.1) hpc v
  joined v hv := by
    rw [hmain] at hv
    rw [htw]
    exact h.joined_update (hw ▸ hp.2) v hv
  empty := by
    rintro ⟨v, hv⟩
    rcases hempty with hempty | ⟨hne, hmono⟩
    · exact hempty
    · rw [htw] at hv
      rcases eq_or_ne v w with rfl | hvw
      · rw [Function.update_self] at hv; exact absurd hv hne
      · rw [Function.update_of_ne hvw] at hv; exact hmono (h.empty ⟨v, hv⟩)
  bound := hmain ▸ h.bound

theorem WorkerMove.inv (hm : WorkerMove cfg s w s') (h : Inv cfg s) : Inv cfg s' := by
  cases hm with
  | leave hpc hq =>
    exact h.goto hpc ⟨nofun, nofun⟩ rfl nofun rfl rfl rfl nofun nofun h.results (.inl hq)
  | take testID rest hpc hq =>
    refine h.goto hpc ⟨nofun, nofun⟩ rfl nofun rfl ?_ rfl ?_ nofun h.results
      (.inr ⟨nofun, fun he => by rw [hq] at he; cases he⟩)
    · simp only [hq, WorkerPc.running, ← Multiset.cons_coe, ← Multiset.singleton_add]
      abel
    · rintro _ _ ⟨⟩; rfl
  | execute testID test hpc =>
    refine h.goto hpc ⟨nofun, nofun⟩ rfl nofun rfl ?_ ?_ nofun ?_ h.results (.inr ⟨nofun, id⟩)
    · simp only [WorkerPc.running, ← Multiset.coe_add, Multiset.coe_singleton]
      abel
    · simp only [WorkerPc.storing, ← Multiset.coe_add, Multiset.coe_singleton]
      abel
    · rintro _ _ ⟨⟩
      rw [h.test w testID test hpc]
  | store testID status hpc =>
    refine h.goto hpc ⟨nofun, nofun⟩ rfl nofun rfl rfl ?_ nofun nofun (fun j => ?_)
      (.inr ⟨nofun, id⟩)
    · simp only [WorkerPc.storing, ← Multiset.coe_add, Multiset.coe_singleton]
      abel
    · show Function.update s.results testID status j = if j ∈ s.stored ++ [testID] then _ else _
      rcases eq_or_ne j testID with rfl | hj
      · rw [Function.update_self, if_pos (by simp), h.status w j status hpc]
      · rw [Function.update_of_ne hj, h.results j]
        simp [hj]

theorem Inv.congr (h : Inv cfg s) {t : State T S n W} (hw : t.worker = s.worker)
    (he : t.executed = s.executed) (hst : t.stored = s.stored) (hr : t.results = s.results)
    (htaken : (t.gTestQueue : Multiset (Fin n)) + selectedUpTo cfg (s.main.filled n) =
      s.gTestQueue + selectedUpTo cfg (t.main.filled n))
    (hsp : t.main.spawned W = s.main.spawned W)
    (hj : ∀ v : Fin W, (v : ℕ) < t.main.joined W → s.worker v = .returned)
    (hempty : (∃ v, s.worker v = .returned) → t.gTestQueue = []) : Inv cfg t where
  taken := by
    rw [hw, he]
    ext a
    have h1 := congrArg (Multiset.count a) h.taken
    have h2 := congrArg (Multiset.count a) htaken
    simp only [Multiset.count_add] at h1 h2 ⊢
    omega
  ran := hw ▸ he ▸ hst ▸ h.ran
  test := hw ▸ h.test
  status := hw ▸ h.status
  results := hr ▸ hst ▸ h.results
  spawned := hw ▸ hsp ▸ h.spawned
  joined := hw ▸ hj
  empty := hw ▸ hempty
  bound := hsp ▸ h.bound

theorem count_selectedUpTo (i : ℕ) (j : Fin n) :
    (selectedUpTo cfg i).count j = if (j : ℕ) < i ∧ cfg.selectedTestList j then 1 else 0 := by
  rw [selectedUpTo, Multiset.coe_count, ((List.nodup_finRange n).filter _).count]
  simp

theorem selectedUpTo_succ {i : ℕ} (hi : i < n) :
    selectedUpTo cfg (i + 1) =
      selectedUpTo cfg i + if cfg.selectedTestList ⟨i, hi⟩ then {⟨i, hi⟩} else 0 := by
  ext j
  rw [Multiset.count_add, count_selectedUpTo, count_selectedUpTo]
  rcases eq_or_ne j ⟨i, hi⟩ with rfl | hj
  · by_cases hs : cfg.selectedTestList ⟨i, hi⟩ <;> simp [hs]
  · have hne : (j : ℕ) ≠ i := fun he => hj (Fin.ext he)
    have hz : (if cfg.selectedTestList ⟨i, hi⟩ then {⟨i, hi⟩} else 0 : Multiset (Fin n)).count j
        = 0 := by
      split
      · exact Multiset.count_singleton j _ ▸ if_neg hj
      · exact Multiset.count_zero j
    have hiff : (j : ℕ) < i + 1 ↔ (j : ℕ) < i := by omega
    simp only [hz, hiff, add_zero]

theorem MainMove.inv (hm : MainMove cfg s s') (h : Inv cfg s) : Inv cfg s' := by
  have hnobody : s.main.spawned W = 0 → ∀ v, s.worker v ≠ .returned := by
    intro h0 v hv
    have := (h.spawned v).mpr (h0 ▸ Nat.zero_le _)
    rw [hv] at this
    cases this
  cases hm with
  | push i hi hpc hs =>
    refine h.congr rfl rfl rfl rfl ?_ (by rw [hpc]; rfl) (fun v hv => absurd hv (Nat.not_lt_zero _))
      fun ⟨v, hv⟩ => absurd hv (hnobody (by rw [hpc]; rfl) v)
    have h1 : s.main.filled n = i := by rw [hpc]; exact min_eq_left hi.le
    have h2 : (MainPc.queue (i + 1)).filled n = i + 1 := min_eq_left hi
    simp only [h1, h2, selectedUpTo_succ hi, hs, if_true, ← Multiset.coe_add,
      Multiset.coe_singleton]
    abel
  | pass i hi hpc hs =>
    refine h.congr rfl rfl rfl rfl ?_ (by rw [hpc]; rfl) (fun v hv => absurd hv (Nat.not_lt_zero _))
      fun ⟨v, hv⟩ => absurd hv (hnobody (by rw [hpc]; rfl) v)
    have h1 : s.main.filled n = i := by rw [hpc]; exact min_eq_left hi.le
    have h2 : (MainPc.queue (i + 1)).filled n = i + 1 := min_eq_left hi
    simp only [h1, h2, selectedUpTo_succ hi, hs, Bool.false_eq_true, if_false, add_zero]
  | queued i hi hpc =>
    refine h.congr rfl rfl rfl rfl ?_ (by rw [hpc]; rfl) (fun v hv => absurd hv (Nat.not_lt_zero _))
      h.empty
    have h1 : s.main.filled n = n := by rw [hpc]; exact min_eq_right (not_lt.mp hi)
    rw [h1]
    rfl
  | spawn i hi hpc =>
    have h1 : s.main.spawned W = i := by rw [hpc]; rfl
    have hnew : s.worker ⟨i, hi⟩ = .notStarted := (h.spawned _).mpr h1.le
    have hr := sum_worker (s := s) (w := ⟨i, hi⟩) WorkerPc.running .getTest
    have hst := sum_worker (s := s) (w := ⟨i, hi⟩) WorkerPc.storing .getTest
    rw [hnew] at hr hst
    have htaken := h.taken
    rw [hpc] at htaken
    have hold : ∀ {v : Fin W} {pc : WorkerPc T S n}, pc ≠ .getTest →
        Function.update s.worker ⟨i, hi⟩ .getTest v = pc → s.worker v = pc := by
      intro v pc hne hv
      rcases eq_or_ne v ⟨i, hi⟩ with rfl | hvi
      · rw [Function.update_self] at hv; exact absurd hv.symm hne
      · rwa [Function.update_of_ne hvi] at hv
    refine ⟨add_right_cancel hr ▸ htaken, add_right_cancel hst ▸ h.ran,
      fun v id test hv => h.test v id test (hold nofun hv),
      fun v id st hv => h.status v id st (hold nofun hv), h.results, fun v => ?_,
      fun v hv => absurd hv (Nat.not_lt_zero _), fun ⟨v, hv⟩ => h.empty ⟨v, hold nofun hv⟩, hi⟩
    show Function.update s.worker ⟨i, hi⟩ .getTest v = .notStarted ↔ i + 1 ≤ (v : ℕ)
    rcases eq_or_ne v ⟨i, hi⟩ with rfl | hvi
    · rw [Function.update_self]
      exact ⟨nofun, fun hle => absurd hle (by simp)⟩
    · have hne : (v : ℕ) ≠ i := fun he => hvi (Fin.ext he)
      rw [Function.update_of_ne hvi, h.spawned v, h1]
      omega
  | spawned i hi hpc =>
    have hb := h.bound
    have h1 : s.main.spawned W = i := by rw [hpc]; rfl
    refine h.congr rfl rfl rfl rfl (by rw [hpc]; rfl) ?_ (fun v hv => absurd hv (Nat.not_lt_zero _))
      h.empty
    show W = s.main.spawned W
    omega
  | join i hi hpc hr =>
    refine h.congr rfl rfl rfl rfl (by rw [hpc]; rfl) (by rw [hpc]; rfl) (fun v hv => ?_) h.empty
    have hv' : (v : ℕ) < i + 1 := hv
    rcases eq_or_ne v ⟨i, hi⟩ with rfl | hne
    · exact hr
    · have : (v : ℕ) ≠ i := fun he => hne (Fin.ext he)
      exact h.joined v (by rw [hpc]; show (v : ℕ) < i; omega)
  | joined i hi hpc =>
    refine h.congr rfl rfl rfl rfl (by rw [hpc]; rfl) (by rw [hpc]; rfl) (fun v _ => ?_) h.empty
    exact h.joined v (by rw [hpc]; show (v : ℕ) < i; omega)

theorem inv_next {e : Event W} (hn : (runner cfg W).next s e = some s') (h : Inv cfg s) :
    Inv cfg s' := by
  cases e with
  | main => exact (mainMove_of_next hn).inv h
  | worker w => exact (workerMove_of_next hn).inv h

theorem runner_inv (h : (runner cfg W).Reach System.anyStep s) : Inv cfg s :=
  h.invariant (I := Inv cfg) (fun s hs => by
    have hs' : s = start cfg := hs
    exact hs' ▸ start_inv) fun _ _ _ hI _ hn => inv_next hn hI

/-! ### The end of a run -/

/-- What the call leaves behind. -/
structure Outcome (cfg : Config T S n) (s : State T S n W) : Prop where
  results : s.results = serial cfg
  selected : ∀ j, cfg.selectedTestList j = true →
    s.executed.count j = 1 ∧ s.results j = cfg.callSingleTestFunction (cfg.testList j)
  unselected : ∀ j, cfg.selectedTestList j = false →
    s.executed.count j = 0 ∧ s.results j = cfg.resultTestList j
  empty : s.gTestQueue = []

theorem Inv.outcome (h : Inv cfg s) (hW : 0 < W) (hm : s.main = .returned) : Outcome cfg s := by
  have hret : ∀ v, s.worker v = .returned := fun v => h.joined v (by rw [hm]; exact v.isLt)
  have hq : s.gTestQueue = [] := h.empty ⟨⟨0, hW⟩, hret _⟩
  have hfill : s.main.filled n = n := by rw [hm]; rfl
  have hex : (s.executed : Multiset (Fin n)) = selectedUpTo cfg n := by
    have ht := h.taken
    rw [hfill, hq, Finset.sum_eq_zero fun v _ => by rw [hret v]; rfl] at ht
    simpa using ht
  have hst : (s.stored : Multiset (Fin n)) = selectedUpTo cfg n := by
    have ht := h.ran
    rw [Finset.sum_eq_zero fun v _ => by rw [hret v]; rfl, zero_add] at ht
    exact ht.trans hex
  have hcount : ∀ j, s.executed.count j = if cfg.selectedTestList j then 1 else 0 := by
    intro j
    rw [← Multiset.coe_count, hex, count_selectedUpTo]
    simp
  have hres : ∀ j, s.results j = serial cfg j := by
    intro j
    have hmem : j ∈ s.stored ↔ cfg.selectedTestList j = true := by
      rw [← Multiset.mem_coe, hst, ← Multiset.count_pos, count_selectedUpTo]
      by_cases hs : cfg.selectedTestList j <;> simp [hs]
    rw [h.results j, serial_apply]
    simp only [hmem]
  refine ⟨funext hres, fun j hj => ⟨?_, ?_⟩, fun j hj => ⟨?_, ?_⟩, hq⟩
  · rw [hcount, if_pos hj]
  · rw [hres, serial_apply, if_pos hj]
  · rw [hcount, hj]; rfl
  · rw [hres, serial_apply, hj]; rfl

/-! ### Every run ends -/

/-- How many steps a worker has before it looks at the queue again. -/
def WorkerPc.rank : WorkerPc T S n → ℕ
  | .notStarted => 2
  | .getTest => 1
  | .execute _ _ => 3
  | .storeResult _ _ => 2
  | .returned => 0

def MainPc.rank (n W : ℕ) : MainPc → ℕ
  | .queue i => 4 * (n - i) + 2 * W + 3
  | .spawn i => W - i + W + 2
  | .join i => W - i + 1
  | .returned => 0

/-- A bound on the steps that are left. -/
def State.rank (s : State T S n W) : ℕ :=
  s.main.rank n W + 3 * s.gTestQueue.length + ∑ v, (s.worker v).rank

theorem sum_rank (pc : WorkerPc T S n) :
    ∑ v, (Function.update s.worker w pc v).rank + (s.worker w).rank =
      ∑ v, (s.worker v).rank + pc.rank :=
  sum_update (fun _ => WorkerPc.rank) s.worker w pc

theorem WorkerMove.rank_lt (hm : WorkerMove cfg s w s') : s'.rank < s.rank := by
  cases hm with
  | leave hpc =>
    have hs := sum_rank (s := s) (w := w) .returned
    rw [hpc] at hs
    simp only [State.rank, WorkerPc.rank] at hs ⊢
    omega
  | take testID rest hpc hq =>
    have hs := sum_rank (s := s) (w := w) (.execute testID (cfg.testList testID))
    rw [hpc] at hs
    simp only [State.rank, WorkerPc.rank, hq, List.length_cons] at hs ⊢
    omega
  | execute testID test hpc =>
    have hs := sum_rank (s := s) (w := w) (.storeResult testID (cfg.callSingleTestFunction test))
    rw [hpc] at hs
    simp only [State.rank, WorkerPc.rank] at hs ⊢
    omega
  | store testID status hpc =>
    have hs := sum_rank (s := s) (w := w) .getTest
    rw [hpc] at hs
    simp only [State.rank, WorkerPc.rank] at hs ⊢
    omega

theorem MainMove.rank_lt (hm : MainMove cfg s s') (h : Inv cfg s) : s'.rank < s.rank := by
  cases hm with
  | push i hi hpc =>
    simp only [State.rank, hpc, MainPc.rank, List.length_append, List.length_singleton]
    omega
  | pass i hi hpc | queued i hi hpc | spawned i hi hpc | join i hi hpc | joined i hi hpc =>
    simp only [State.rank, hpc, MainPc.rank]
    omega
  | spawn i hi hpc =>
    have hnew : s.worker ⟨i, hi⟩ = .notStarted := (h.spawned _).mpr (by rw [hpc]; exact le_rfl)
    have hs := sum_rank (s := s) (w := ⟨i, hi⟩) .getTest
    rw [hnew] at hs
    simp only [State.rank, hpc, MainPc.rank, WorkerPc.rank] at hs ⊢
    omega

/-- **No run goes on for ever**: every step lowers the rank. -/
theorem rank_lt_of_next {e : Event W} (hn : (runner cfg W).next s e = some s') (h : Inv cfg s) :
    s'.rank < s.rank := by
  cases e with
  | main => exact (mainMove_of_next hn).rank_lt h
  | worker w => exact (workerMove_of_next hn).rank_lt

theorem exists_next_worker (h0 : s.worker w ≠ .notStarted) (h1 : s.worker w ≠ .returned) :
    ∃ t, (runner cfg W).next s (.worker w) = some t := by
  show ∃ t, testFunctionRunner cfg s w = some t
  cases hpc : s.worker w with
  | notStarted => exact absurd hpc h0
  | returned => exact absurd hpc h1
  | getTest =>
    simp only [testFunctionRunner, hpc]
    split <;> exact ⟨_, rfl⟩
  | execute | storeResult => simp only [testFunctionRunner, hpc]; exact ⟨_, rfl⟩

/-- **No deadlock**: until the call has returned, some thread can move. -/
theorem Inv.exists_next (h : Inv cfg s) (hm : s.main ≠ .returned) :
    ∃ e t, (runner cfg W).next s e = some t := by
  cases hpc : s.main with
  | queue i =>
    refine ⟨.main, ?_⟩
    show ∃ t, callTestFunctions cfg s = some t
    simp only [callTestFunctions, hpc]
    split <;> exact ⟨_, rfl⟩
  | spawn i =>
    refine ⟨.main, ?_⟩
    show ∃ t, callTestFunctions cfg s = some t
    simp only [callTestFunctions, hpc]
    split <;> exact ⟨_, rfl⟩
  | join i =>
    by_cases hi : i < W
    · by_cases hr : s.worker ⟨i, hi⟩ = .returned
      · refine ⟨.main, { s with main := .join (i + 1) }, ?_⟩
        show callTestFunctions cfg s = _
        simp only [callTestFunctions, hpc, dif_pos hi, hr]
      · refine ⟨.worker ⟨i, hi⟩, exists_next_worker (fun h0 => ?_) hr⟩
        have hle := (h.spawned _).mp h0
        rw [hpc] at hle
        exact absurd hle (not_le.mpr hi)
    · refine ⟨.main, { s with main := .returned }, ?_⟩
      show callTestFunctions cfg s = _
      simp only [callTestFunctions, hpc, dif_neg hi]
  | returned => exact absurd hpc hm

/-- **Scheduling in parallel is scheduling in series.**  Every state that some
interleaving reaches can be continued to the return of the call, and whenever the
call has returned, it leaves what the serial branch leaves. -/
theorem parallel_eq_serial (cfg : Config T S n) (hW : 0 < W) (s : State T S n W)
    (h : (runner cfg W).Reach System.anyStep s) :
    (s.main = .returned → Outcome cfg s) ∧
      ∃ t, (runner cfg W).Path System.anyStep s t ∧ t.main = .returned := by
  refine ⟨(runner_inv h).outcome hW, ?_⟩
  obtain ⟨t, hp, -, ht⟩ := System.Path.of_measure (S := runner cfg W) (I := Inv cfg) State.rank
    (fun u hu hg => by
      obtain ⟨e, t, ht⟩ := hu.exists_next hg
      exact ⟨e, t, trivial, ht, inv_next ht hu, rank_lt_of_next ht hu⟩) (runner_inv h)
  exact ⟨t, hp, ht⟩

/-- Two of three tests, two workers: the second one finishes first. -/
theorem parallel_eq_serial_three :
    ∃ (cfg : Config ℕ ℕ 3) (s : State ℕ ℕ 3 2), (0 < 2 ∧ (runner cfg 2).Reach System.anyStep s ∧
      s.main = .returned ∧ s.stored = [2, 0]) ∧ Outcome cfg s := by
  obtain ⟨s, hr, hm, hs⟩ := System.Reach.exists_of_run
    (S := runner (⟨(· + 10), Fin.val, fun i => i != 1, fun _ => 0⟩ : Config ℕ ℕ 3) 2)
    System.anyStep (fun s => s.main = .returned ∧ s.stored = [2, 0]) rfl
    (List.replicate 7 .main ++ [.worker 0, .worker 1, .worker 1, .worker 1, .worker 0, .worker 1,
      .worker 0, .worker 0] ++ List.replicate 3 .main) (by decide +kernel)
  exact ⟨_, s, ⟨by decide, hr, hm, hs⟩, (parallel_eq_serial _ (by decide) s hr).1 hm⟩

end OpenCLCTS.TestRunner
