import Mathlib.Algebra.Order.BigOperators.Group.Finset
import Mathlib.Tactic.Ring
import OpenCLCTS.Lib.Threads

/-!
# The completion barrier of the conversion tests

One block of `ConversionsTest::DoTest`: the main thread starts a kernel for each of the
`K` vector sizes, registers a callback for each and waits for the user event
`doneBarrier`; the callbacks run when the main thread has set `calcReferenceValues`, in
any order and interleaved, and the last one sets `doneBarrier`.

`RunKernel`, `clEnqueueMapBuffer` and `clSetEventCallback` can report an error, and a
callback can be delivered with a status other than `CL_SUCCESS`.  The other calls succeed
here, and the map buffer that a callback gives back is left out.
-/

namespace OpenCLCTS.Conversions

open Interleaving

/-- Where the main thread is.  `v` counts vector sizes, from `gMinVectorSize`. -/
inductive Main (K : ℕ)
  -- `DoTest`
  | create
  | retain (v : ℕ)
  | createDone
  | retainDone
  -- `WriteInputBufferComplete`
  | setCount
  | runKernel (v : ℕ)
  | mapBuffer (v : Fin K)
  -- `MapResultValuesComplete`
  | setCallback (v : ℕ)
  | releaseCalc (v : Fin K)
  -- `DoTest`
  | complete
  | wait
  | releaseRef
  | releaseDone
  | finished
  deriving DecidableEq

/-- Where `CalcReferenceValuesComplete` is for a vector size. -/
inductive Callback
  | unregistered
  | registered
  | check
  | decrement
  | setDone
  | releaseDone
  | released
  | finished
  | aborted
  deriving DecidableEq

/-- The state of a block.  `calcRefs` and `doneRefs` are the reference counts of the two
events, `doneSets` says how often `doneBarrier` has been set, and `written` which of the
`result` fields have been. -/
structure Block (K : ℕ) where
  main : Main K
  calcRefs : ℕ
  calcSet : Bool
  doneRefs : ℕ
  doneSets : ℕ
  barrierCount : ℤ
  callback : Fin K → Callback
  written : Fin K → Bool

variable {K : ℕ}

/-- The main thread goes on. -/
def Block.goto (s : Block K) (pc : Main K) : Block K := { s with main := pc }

/-- A callback goes on. -/
def Block.setPc (s : Block K) (i : Fin K) (pc : Callback) : Block K :=
  { s with callback := Function.update s.callback i pc }

/-- A step of the main thread; `ok` says whether the call succeeds. -/
def mainStep (s : Block K) (ok : Bool) : Option (Block K) :=
  match s.main, ok with
  | .create, true => some { s with main := .retain 0, calcRefs := 1, calcSet := false }
  | .retain v, true =>
    some (if v < K then { s with main := .retain (v + 1), calcRefs := s.calcRefs + 1 }
      else s.goto .createDone)
  | .createDone, true => some { s with main := .retainDone, doneRefs := 1, doneSets := 0 }
  | .retainDone, true => some { s with main := .setCount, doneRefs := s.doneRefs + 1 }
  | .setCount, true => some { s with main := .runKernel 0, barrierCount := K }
  | .runKernel v, true =>
    some (if h : v < K then s.goto (.mapBuffer ⟨v, h⟩) else s.goto (.setCallback 0))
  -- `WriteInputBufferComplete` returns
  | .runKernel v, false => if v < K then some (s.goto .complete) else none
  | .mapBuffer v, true => some (s.goto (.runKernel (v + 1)))
  | .mapBuffer _, false => some (s.goto .complete)
  | .setCallback v, true =>
    some (if h : v < K then (s.setPc ⟨v, h⟩ .registered).goto (.releaseCalc ⟨v, h⟩)
      else s.goto .complete)
  -- the error is counted, and the loop goes on
  | .setCallback v, false => if h : v < K then some (s.goto (.releaseCalc ⟨v, h⟩)) else none
  | .releaseCalc v, true =>
    some { s with main := .setCallback (v + 1), calcRefs := s.calcRefs - 1 }
  | .complete, true => some { s with main := .wait, calcSet := true }
  | .wait, true => if 0 < s.doneSets then some (s.goto .releaseRef) else none
  | .releaseRef, true => some { s with main := .releaseDone, calcRefs := s.calcRefs - 1 }
  | .releaseDone, true => some { s with main := .finished, doneRefs := s.doneRefs - 1 }
  | _, _ => none

/-- A step of the callback for a vector size; `ok` says whether its status is
`CL_SUCCESS`. -/
def callbackStep (s : Block K) (i : Fin K) (ok : Bool) : Option (Block K) :=
  match s.callback i, ok with
  | .registered, true => if s.calcSet then some (s.setPc i .check) else none
  | .registered, false => if s.calcSet then some (s.setPc i .aborted) else none
  | .check, true =>
    some ({ s with written := Function.update s.written i true }.setPc i .decrement)
  | .decrement, true =>
    some ({ s with barrierCount := s.barrierCount - 1 }.setPc i
      (if s.barrierCount = 1 then .setDone else .finished))
  | .setDone, true => some ({ s with doneSets := s.doneSets + 1 }.setPc i .releaseDone)
  | .releaseDone, true => some ({ s with doneRefs := s.doneRefs - 1 }.setPc i .released)
  | _, _ => none

/-- Who makes a step, and whether what it calls or is called with is a success. -/
structure Event (K : ℕ) where
  callback : Option (Fin K)
  ok : Bool
  deriving DecidableEq

/-- The start of a block; the counter is left from the block before. -/
def start (K : ℕ) (barrierCount : ℤ) : Block K where
  main := .create
  calcRefs := 0
  calcSet := false
  doneRefs := 0
  doneSets := 0
  barrierCount := barrierCount
  callback _ := .unregistered
  written _ := false

/-- A block of `DoTest`. -/
def block (K : ℕ) : System (Block K) (Event K) where
  init s := ∃ barrierCount, s = start K barrierCount
  next s e := match e.callback with
    | none => mainStep s e.ok
    | some i => callbackStep s i e.ok

/-- A step in which nothing fails. -/
def NoFailure (_ : Block K) (e : Event K) : Prop := e.ok = true

/-! ### What the barrier is for -/

/-- The main thread is about to use `calcReferenceValues`. -/
def Main.UsesCalc : Main K → Prop
  | .retain v | .setCallback v => v < K
  | .releaseCalc _ | .complete | .releaseRef => True
  | _ => False

/-- The main thread is about to use `doneBarrier`. -/
def Main.UsesDone : Main K → Prop
  | .retainDone | .wait | .releaseDone => True
  | _ => False

/-- A callback is about to use `doneBarrier`. -/
def Callback.UsesDone : Callback → Prop
  | .setDone | .releaseDone => True
  | _ => False

/-- `doneBarrier` is set once and after all results, and no event is used when its
reference count is 0. -/
structure Safe (s : Block K) : Prop where
  set_once : s.doneSets ≤ 1
  set_after : 0 < s.doneSets → ∀ i, s.written i = true
  calc_alive : s.main.UsesCalc → 0 < s.calcRefs
  done_alive : (s.main.UsesDone ∨ ∃ i, (s.callback i).UsesDone) → 0 < s.doneRefs

/-- The main thread waits for `doneBarrier`, and nothing will set it. -/
def Deadlock (s : Block K) : Prop :=
  s.main = .wait ∧ ∀ s', (block K).Path System.anyStep s s' → s'.doneSets = 0

/-! ### What a step can do -/

/-- What a step of the main thread can do. -/
inductive MainMove (s : Block K) : Bool → Block K → Prop
  | create : s.main = .create →
      MainMove s true { s with main := .retain 0, calcRefs := 1, calcSet := false }
  | retain (v : ℕ) : s.main = .retain v → v < K →
      MainMove s true { s with main := .retain (v + 1), calcRefs := s.calcRefs + 1 }
  | retained (v : ℕ) : s.main = .retain v → K ≤ v → MainMove s true (s.goto .createDone)
  | createDone : s.main = .createDone →
      MainMove s true { s with main := .retainDone, doneRefs := 1, doneSets := 0 }
  | retainDone : s.main = .retainDone →
      MainMove s true { s with main := .setCount, doneRefs := s.doneRefs + 1 }
  | setCount : s.main = .setCount →
      MainMove s true { s with main := .runKernel 0, barrierCount := K }
  | runKernel (v : Fin K) : s.main = .runKernel v → MainMove s true (s.goto (.mapBuffer v))
  | started (v : ℕ) : s.main = .runKernel v → K ≤ v → MainMove s true (s.goto (.setCallback 0))
  | runFailed (v : Fin K) : s.main = .runKernel v → MainMove s false (s.goto .complete)
  | mapBuffer (v : Fin K) : s.main = .mapBuffer v → MainMove s true (s.goto (.runKernel (v + 1)))
  | mapFailed (v : Fin K) : s.main = .mapBuffer v → MainMove s false (s.goto .complete)
  | setCallback (v : Fin K) : s.main = .setCallback v →
      MainMove s true ((s.setPc v .registered).goto (.releaseCalc v))
  | setFailed (v : Fin K) : s.main = .setCallback v → MainMove s false (s.goto (.releaseCalc v))
  | callbacksSet (v : ℕ) : s.main = .setCallback v → K ≤ v → MainMove s true (s.goto .complete)
  | releaseCalc (v : Fin K) : s.main = .releaseCalc v →
      MainMove s true { s with main := .setCallback (v + 1), calcRefs := s.calcRefs - 1 }
  | complete : s.main = .complete → MainMove s true { s with main := .wait, calcSet := true }
  | wait : s.main = .wait → 0 < s.doneSets → MainMove s true (s.goto .releaseRef)
  | releaseRef : s.main = .releaseRef →
      MainMove s true { s with main := .releaseDone, calcRefs := s.calcRefs - 1 }
  | releaseDone : s.main = .releaseDone →
      MainMove s true { s with main := .finished, doneRefs := s.doneRefs - 1 }

theorem mainStep_cases {s s' : Block K} {ok : Bool} (h : mainStep s ok = some s') :
    MainMove s ok s' := by
  unfold mainStep at h
  split at h
  case h_1 hpc => cases h; exact .create hpc
  case h_2 v hpc =>
    cases h
    split
    · exact .retain v hpc ‹_›
    · exact .retained v hpc (not_lt.mp ‹_›)
  case h_3 hpc => cases h; exact .createDone hpc
  case h_4 hpc => cases h; exact .retainDone hpc
  case h_5 hpc => cases h; exact .setCount hpc
  case h_6 v hpc =>
    cases h
    split
    · exact .runKernel ⟨v, ‹_›⟩ hpc
    · exact .started v hpc (not_lt.mp ‹_›)
  case h_7 v hpc =>
    split at h
    · cases h; exact .runFailed ⟨v, ‹_›⟩ hpc
    · cases h
  case h_8 v hpc => cases h; exact .mapBuffer v hpc
  case h_9 v hpc => cases h; exact .mapFailed v hpc
  case h_10 v hpc =>
    cases h
    split
    · exact .setCallback ⟨v, ‹_›⟩ hpc
    · exact .callbacksSet v hpc (not_lt.mp ‹_›)
  case h_11 v hpc =>
    split at h
    · cases h; exact .setFailed ⟨v, ‹_›⟩ hpc
    · cases h
  case h_12 v hpc => cases h; exact .releaseCalc v hpc
  case h_13 hpc => cases h; exact .complete hpc
  case h_14 hpc =>
    split at h
    · cases h; exact .wait hpc ‹_›
    · cases h
  case h_15 hpc => cases h; exact .releaseRef hpc
  case h_16 hpc => cases h; exact .releaseDone hpc
  case h_17 => cases h

/-- What a step of a callback can do. -/
inductive CallbackMove (s : Block K) (i : Fin K) : Bool → Block K → Prop
  | deliver : s.callback i = .registered → s.calcSet = true →
      CallbackMove s i true (s.setPc i .check)
  | abort : s.callback i = .registered → s.calcSet = true →
      CallbackMove s i false (s.setPc i .aborted)
  | check : s.callback i = .check →
      CallbackMove s i true
        ({ s with written := Function.update s.written i true }.setPc i .decrement)
  | last : s.callback i = .decrement → s.barrierCount = 1 →
      CallbackMove s i true ({ s with barrierCount := s.barrierCount - 1 }.setPc i .setDone)
  | notLast : s.callback i = .decrement → s.barrierCount ≠ 1 →
      CallbackMove s i true ({ s with barrierCount := s.barrierCount - 1 }.setPc i .finished)
  | setDone : s.callback i = .setDone →
      CallbackMove s i true ({ s with doneSets := s.doneSets + 1 }.setPc i .releaseDone)
  | releaseDone : s.callback i = .releaseDone →
      CallbackMove s i true ({ s with doneRefs := s.doneRefs - 1 }.setPc i .released)

theorem callbackStep_cases {s s' : Block K} {i : Fin K} {ok : Bool}
    (h : callbackStep s i ok = some s') : CallbackMove s i ok s' := by
  unfold callbackStep at h
  split at h
  case h_1 hpc =>
    split at h
    · cases h; exact .deliver hpc ‹_›
    · cases h
  case h_2 hpc =>
    split at h
    · cases h; exact .abort hpc ‹_›
    · cases h
  case h_3 hpc => cases h; exact .check hpc
  case h_4 hpc =>
    cases h
    split
    · exact .last hpc ‹_›
    · exact .notLast hpc ‹_›
  case h_5 hpc => cases h; exact .setDone hpc
  case h_6 hpc => cases h; exact .releaseDone hpc
  case h_7 => cases h

end OpenCLCTS.Conversions
