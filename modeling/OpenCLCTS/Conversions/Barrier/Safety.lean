import OpenCLCTS.Conversions.Barrier.Model

/-!
# The barrier is set once, and no event is used after its end

What holds in every run, whatever fails (`Inv`).  The callbacks are counted by where
they are: those that have not decremented the counter, the one that has taken it to 0,
and whether this one has set and released `doneBarrier`.
-/

namespace OpenCLCTS.Conversions

open Interleaving

variable {K : ℕ}

theorem setPc_self (s : Block K) (i : Fin K) (pc : Callback) : (s.setPc i pc).callback i = pc :=
  Function.update_self ..

theorem setPc_of_ne {s : Block K} {i j : Fin K} (pc : Callback) (h : j ≠ i) :
    (s.setPc i pc).callback j = s.callback j := Function.update_of_ne h ..

theorem goto_callback (s : Block K) (pc : Main K) : (s.goto pc).callback = s.callback := rfl

/-! ### Counting callbacks -/

/-- The counter has not been decremented. -/
def Callback.pending : Callback → ℕ
  | .unregistered | .registered | .check | .decrement | .aborted => 1
  | .setDone | .releaseDone | .released | .finished => 0

/-- The counter has been decremented to 0. -/
def Callback.last : Callback → ℕ
  | .setDone | .releaseDone | .released => 1
  | .unregistered | .registered | .check | .decrement | .aborted | .finished => 0

/-- `doneBarrier` has been set. -/
def Callback.set : Callback → ℕ
  | .releaseDone | .released => 1
  | .unregistered | .registered | .check | .decrement | .aborted | .finished | .setDone => 0

/-- `doneBarrier` has been released. -/
def Callback.freed : Callback → ℕ
  | .released => 1
  | .unregistered | .registered | .check | .decrement | .aborted | .finished | .setDone
  | .releaseDone => 0

/-- A count over all callbacks. -/
def Block.count (s : Block K) (f : Callback → ℕ) : ℕ := ∑ i, f (s.callback i)

theorem count_setPc (s : Block K) (f : Callback → ℕ) (i : Fin K) (pc : Callback) :
    (s.setPc i pc).count f + f (s.callback i) = s.count f + f pc :=
  sum_update (fun _ => f) s.callback i pc

theorem count_setPc_of_eq {s : Block K} {f : Callback → ℕ} {i : Fin K} {pc : Callback}
    (h : f pc = f (s.callback i)) : (s.setPc i pc).count f = s.count f := by
  have := count_setPc s f i pc
  omega

theorem count_mono {s : Block K} {f g : Callback → ℕ} (h : ∀ c, f c ≤ g c) :
    s.count f ≤ s.count g := Finset.sum_le_sum fun _ _ => h _

theorem le_count (s : Block K) (f : Callback → ℕ) (i : Fin K) : f (s.callback i) ≤ s.count f :=
  Finset.single_le_sum (f := fun i => f (s.callback i)) (fun _ _ => Nat.zero_le _)
    (Finset.mem_univ i)

theorem count_eq_zero {s : Block K} {f : Callback → ℕ} (h : ∀ i, f (s.callback i) = 0) :
    s.count f = 0 := Finset.sum_eq_zero fun i _ => h i

theorem freed_le_set : ∀ c : Callback, c.freed ≤ c.set := by
  intro c
  cases c <;> decide

theorem set_le_last : ∀ c : Callback, c.set ≤ c.last := by
  intro c
  cases c <;> decide

/-! ### The invariant -/

/-- The main thread has come past the registration of callback `i`. -/
def Main.Past (i : Fin K) : Main K → Prop
  | .setCallback v => (i : ℕ) < v
  | .releaseCalc v => i ≤ v
  | .complete | .wait | .releaseRef | .releaseDone | .finished => True
  | _ => False

/-- The main thread has set the counter. -/
def Main.Counts : Main K → Prop
  | .create | .retain _ | .createDone | .retainDone | .setCount => False
  | _ => True

/-- The references to `calcReferenceValues` that are still to be given back, at least. -/
def Main.calcHeld : Main K → ℕ
  | .create => 0
  | .retain v => 1 + v
  | .createDone | .retainDone | .setCount | .runKernel _ | .mapBuffer _ => 1 + K
  | .setCallback v => 1 + (K - v)
  | .releaseCalc v => 1 + (K - v)
  | .complete | .wait | .releaseRef => 1
  | .releaseDone | .finished => 0

/-- The references to `doneBarrier`, that of the callbacks included. -/
def Main.doneHeld : Main K → ℕ
  | .create | .retain _ | .createDone => 0
  | .retainDone => 1
  | .finished => 1
  | _ => 2

/-- The main thread has come past the wait. -/
def Main.Waited : Main K → Prop
  | .releaseRef | .releaseDone | .finished => True
  | _ => False

/-- The result of the callback has been written. -/
def Callback.Wrote : Callback → Prop
  | .unregistered | .registered | .check | .aborted => False
  | .decrement | .setDone | .releaseDone | .released | .finished => True

/-- The counter and the counts, and `doneBarrier`. -/
structure Counted (s : Block K) : Prop where
  count : s.main.Counts → s.barrierCount = s.count Callback.pending
  last : s.count Callback.pending = 0 ∧ s.count Callback.last = 1 ∨
    0 < s.count Callback.pending ∧ s.count Callback.last = 0
  sets : s.doneSets = s.count Callback.set
  refs : s.doneRefs + s.count Callback.freed = s.main.doneHeld

/-- What holds in every run. -/
structure Inv (s : Block K) : Prop where
  counted : Counted s
  held : s.main.calcHeld ≤ s.calcRefs
  idle : ∀ i, ¬ s.main.Past i → s.callback i = .unregistered
  wrote : ∀ i, (s.callback i).Wrote → s.written i = true
  calcSet : s.main = .wait → s.calcSet = true
  waited : s.main.Waited → 0 < s.doneSets

theorem start_inv (hK : 0 < K) (barrierCount : ℤ) : Inv (start K barrierCount) where
  counted := by
    have hzero : ∀ f : Callback → ℕ, f .unregistered = 0 → (start K barrierCount).count f = 0 :=
      fun f hf => count_eq_zero fun _ => hf
    refine ⟨nofun, ?_, (hzero _ rfl).symm, by rw [hzero _ rfl]; rfl⟩
    have hpending : (start K barrierCount).count Callback.pending = K := by
      exact (Finset.sum_const 1).trans ((Nat.mul_one _).trans (Finset.card_fin K))
    exact .inr ⟨by omega, hzero _ rfl⟩
  held := le_rfl
  idle _ _ := rfl
  wrote _ := nofun
  calcSet := nofun
  waited := nofun

/-! ### The main thread keeps it -/

theorem Inv.count_early {s : Block K} (h : Inv s) (hpast : ∀ i, ¬ s.main.Past i)
    {f : Callback → ℕ} (hf : f .unregistered = 0) : s.count f = 0 :=
  count_eq_zero fun i => by rw [h.idle i (hpast i), hf]

theorem held_main {s s' : Block K} {ok : Bool} (hm : MainMove s ok s')
    (h : s.main.calcHeld ≤ s.calcRefs) : s'.main.calcHeld ≤ s'.calcRefs := by
  cases hm <;> simp only [‹s.main = _›, Main.calcHeld, Block.goto, Block.setPc] at h ⊢ <;> omega

theorem count_main {s s' : Block K} {ok : Bool} (h : Inv s) (hm : MainMove s ok s')
    {f : Callback → ℕ} (hf : f .registered = f .unregistered) : s'.count f = s.count f := by
  cases hm with
  | setCallback v hpc =>
    have hidle : s.callback v = .unregistered := h.idle v (by simp only [hpc, Main.Past, lt_irrefl,
      not_false_eq_true])
    exact count_setPc_of_eq (f := f) (by rw [hidle, hf])
  | _ => rfl

theorem Counted.last_le {s : Block K} (h : Counted s) : s.count Callback.last ≤ 1 := by
  have := h.last
  omega

theorem Counted.freed_le {s : Block K} (h : Counted s) : s.count Callback.freed ≤ 1 :=
  (count_mono fun c => (freed_le_set c).trans (set_le_last c)).trans h.last_le

theorem Inv.count_pending {s : Block K} (h : Inv s) (hpast : ∀ i, ¬ s.main.Past i) :
    s.count Callback.pending = K := by
  have hone : ∀ i, (s.callback i).pending = 1 := fun i => by rw [h.idle i (hpast i)]; rfl
  exact (Finset.sum_congr rfl fun i _ => hone i).trans
    ((Finset.sum_const 1).trans ((Nat.mul_one _).trans (Finset.card_fin K)))

theorem counted_main {s s' : Block K} {ok : Bool} (h : Inv s) (hm : MainMove s ok s') :
    Counted s' := by
  have hset := count_main h hm (f := Callback.set) rfl
  have hfreed := count_main h hm (f := Callback.freed) rfl
  have hpending := count_main h hm (f := Callback.pending) rfl
  have hlast := count_main h hm (f := Callback.last) rfl
  obtain ⟨hc, hl, hs, hr⟩ := h.counted
  refine ⟨fun hcounts => ?_, by rwa [hpending, hlast], ?_, ?_⟩
  · rw [hpending]
    cases hm with
    | create | retain | retained | createDone | retainDone => exact hcounts.elim
    | setCount hpc =>
      rw [h.count_pending fun i => by rw [hpc]; exact id]
    | _ => exact hc (by rw [‹s.main = _›]; trivial)
  · rw [hset]
    cases hm with
    | createDone hpc => exact (h.count_early (fun i => by rw [hpc]; exact id) rfl).symm
    | _ => exact hs
  · have hle := h.counted.freed_le
    rw [hfreed]
    cases hm <;> simp only [‹s.main = _›, Main.doneHeld, Block.goto, Block.setPc] at hr ⊢ <;> omega

/-- Only the registration changes a callback, and it comes past it. -/
theorem idle_main {s s' : Block K} {ok : Bool} (h : Inv s) (hm : MainMove s ok s') (i : Fin K)
    (hi : ¬ s'.main.Past i) : s'.callback i = .unregistered := by
  cases hm with
  | setCallback v hpc =>
    have hne : i ≠ v := fun he => hi (he ▸ le_rfl)
    have hpast : ¬ s.main.Past i := by
      rw [hpc]
      exact fun hlt => hi (le_of_lt hlt)
    exact (Function.update_of_ne hne ..).trans (h.idle i hpast)
  | releaseCalc v hpc =>
    refine h.idle i ?_
    rw [hpc]
    exact fun hle => hi (Nat.lt_succ_of_le hle)
  | callbacksSet | complete | wait | releaseRef | releaseDone | runFailed | mapFailed =>
    exact absurd trivial hi
  | setFailed v hpc =>
    refine h.idle i ?_
    rw [hpc]
    exact fun hlt => hi (le_of_lt hlt)
  | _ =>
    refine h.idle i ?_
    rw [‹s.main = _›]
    exact id

theorem wrote_main {s s' : Block K} {ok : Bool} (h : Inv s) (hm : MainMove s ok s') (i : Fin K)
    (hi : (s'.callback i).Wrote) : s'.written i = true := by
  cases hm with
  | setCallback v hpc =>
    rw [goto_callback] at hi
    by_cases hv : i = v
    · rw [hv, setPc_self] at hi
      exact hi.elim
    · rw [setPc_of_ne _ hv] at hi
      exact h.wrote i hi
  | _ => exact h.wrote i hi

theorem main_inv {s s' : Block K} {ok : Bool} (h : Inv s) (hm : MainMove s ok s') : Inv s' where
  counted := counted_main h hm
  held := held_main hm h.held
  idle := idle_main h hm
  wrote := wrote_main h hm
  calcSet hw := by
    cases hm with
    | complete => rfl
    | _ => cases hw
  waited hw := by
    cases hm with
    | wait _ hset => exact hset
    | releaseRef hpc | releaseDone hpc => exact h.waited (by rw [hpc]; trivial)
    | _ => exact hw.elim

/-! ### The callbacks keep it -/

theorem callback_main {s s' : Block K} {i : Fin K} {ok : Bool} (hm : CallbackMove s i ok s') :
    s'.main = s.main ∧ s'.calcRefs = s.calcRefs ∧ s'.calcSet = s.calcSet := by
  cases hm <;> exact ⟨rfl, rfl, rfl⟩

theorem callback_of_ne {s s' : Block K} {i : Fin K} {ok : Bool} (hm : CallbackMove s i ok s')
    {j : Fin K} (hj : j ≠ i) : s'.callback j = s.callback j ∧ s'.written j = s.written j := by
  cases hm with
  | check => exact ⟨setPc_of_ne _ hj, Function.update_of_ne hj ..⟩
  | _ => exact ⟨setPc_of_ne _ hj, rfl⟩

theorem callback_past {s s' : Block K} (h : Inv s) {i : Fin K} {ok : Bool}
    (hm : CallbackMove s i ok s') : s.main.Past i := by
  by_contra hpast
  have hidle := h.idle i hpast
  cases hm <;> · rw [hidle] at *; contradiction

theorem callback_count {s s' : Block K} {i : Fin K} {ok : Bool} (hm : CallbackMove s i ok s')
    (f : Callback → ℕ) : s'.count f + f (s.callback i) = s.count f + f (s'.callback i) := by
  cases hm <;> · rw [setPc_self]; exact count_setPc _ f i _

theorem Main.Past.counts {i : Fin K} {pc : Main K} (h : pc.Past i) : pc.Counts ∧ 0 < pc.doneHeld := by
  cases pc <;> first | exact h.elim | exact ⟨trivial, Nat.succ_pos _⟩

theorem counted_callback {s s' : Block K} (h : Inv s) {i : Fin K} {ok : Bool}
    (hm : CallbackMove s i ok s') : Counted s' := by
  obtain ⟨hcounts, hheld⟩ := (callback_past h hm).counts
  have hpending := callback_count hm Callback.pending
  have hlast := callback_count hm Callback.last
  have hset := callback_count hm Callback.set
  have hfreed := callback_count hm Callback.freed
  have hle : s'.count Callback.freed ≤ s'.count Callback.last :=
    count_mono fun c => (freed_le_set c).trans (set_le_last c)
  obtain ⟨hc, hl, hs, hr⟩ := h.counted
  have hc := hc hcounts
  suffices hnew : s'.barrierCount = s'.count Callback.pending ∧
      (s'.count Callback.pending = 0 ∧ s'.count Callback.last = 1 ∨
        0 < s'.count Callback.pending ∧ s'.count Callback.last = 0) ∧
      s'.doneSets = s'.count Callback.set ∧
      s'.doneRefs + s'.count Callback.freed = s.main.doneHeld from
    ⟨fun _ => hnew.1, hnew.2.1, hnew.2.2.1, by rw [(callback_main hm).1]; exact hnew.2.2.2⟩
  generalize s'.count Callback.pending = p' at *
  generalize s'.count Callback.last = l' at *
  generalize s'.count Callback.set = r' at *
  generalize s'.count Callback.freed = f' at *
  cases hm <;>
    · simp only [‹s.callback i = _›, setPc_self, Callback.pending, Callback.last, Callback.set,
        Callback.freed] at hpending hlast hset hfreed
      simp only [Block.setPc]
      omega

theorem wrote_callback {s s' : Block K} (h : Inv s) {i : Fin K} {ok : Bool}
    (hm : CallbackMove s i ok s') (j : Fin K) (hj : (s'.callback j).Wrote) :
    s'.written j = true := by
  by_cases hji : j = i
  · subst hji
    cases hm with
    | deliver | abort =>
      rw [setPc_self] at hj
      exact hj.elim
    | check => exact Function.update_self ..
    | last hpc | notLast hpc | setDone hpc | releaseDone hpc =>
      exact h.wrote j (by rw [hpc]; trivial)
  · obtain ⟨hc, hw⟩ := callback_of_ne hm hji
    rw [hw]
    exact h.wrote j (hc ▸ hj)

theorem callback_inv {s s' : Block K} (h : Inv s) {i : Fin K} {ok : Bool}
    (hm : CallbackMove s i ok s') : Inv s' := by
  obtain ⟨hmain, hrefs, hset⟩ := callback_main hm
  refine ⟨counted_callback h hm, by rw [hmain, hrefs]; exact h.held, fun j hj => ?_,
    wrote_callback h hm, fun hw => ?_, fun hw => ?_⟩
  · have hne : j ≠ i := fun he => hj (by rw [hmain, he]; exact callback_past h hm)
    rw [(callback_of_ne hm hne).1]
    exact h.idle j (hmain ▸ hj)
  · rw [hset]
    exact h.calcSet (hmain ▸ hw)
  · have hw' := h.waited (hmain ▸ hw)
    cases hm with
    | setDone => exact Nat.succ_pos _
    | _ => exact hw'

/-! ### In every run -/

theorem step_inv {s s' : Block K} {e : Event K} (h : Inv s) (hn : (block K).next s e = some s') :
    Inv s' := by
  obtain ⟨_ | i, ok⟩ := e
  · exact main_inv h (mainStep_cases hn)
  · exact callback_inv h (callbackStep_cases hn)

theorem reach_inv (hK : 0 < K) {s : Block K} (h : (block K).Reach System.anyStep s) : Inv s := by
  refine h.invariant ?_ fun s e s' hI _ hn => step_inv hI hn
  rintro s ⟨barrierCount, rfl⟩
  exact start_inv hK barrierCount

/-- If the callback that has taken the counter to 0 has not released `doneBarrier`, no
callback has. -/
theorem Inv.freed_eq_zero {s : Block K} (h : Inv s) {i : Fin K} (hi : (s.callback i).UsesDone) :
    s.count Callback.freed = 0 := by
  have hlast := count_setPc s Callback.last i .released
  have hfreed := count_setPc s Callback.freed i .released
  have hle : (s.setPc i .released).count Callback.freed ≤ (s.setPc i .released).count Callback.last :=
    count_mono fun c => (freed_le_set c).trans (set_le_last c)
  have hone := h.counted.last_le
  have hvals : (s.callback i).last = 1 ∧ (s.callback i).freed = 0 := by
    cases hc : s.callback i <;> rw [hc] at hi <;> first | exact hi.elim | exact ⟨rfl, rfl⟩
  rw [hvals.1] at hlast
  rw [hvals.2] at hfreed
  simp only [Callback.last, Callback.freed] at hlast hfreed
  omega

theorem Inv.past_of_registered {s : Block K} (h : Inv s) {i : Fin K}
    (hi : s.callback i ≠ .unregistered) : s.main.Past i := by
  by_contra hpast
  exact hi (h.idle i hpast)

/-- **The barrier is safe** in every run, whatever fails. -/
theorem Inv.safe {s : Block K} (h : Inv s) : Safe s where
  set_once := by
    rw [h.counted.sets]
    exact (count_mono set_le_last).trans h.counted.last_le
  set_after hset i := by
    have hle := count_mono (s := s) set_le_last
    have hsets := h.counted.sets
    have hlast := h.counted.last
    have hpending := le_count s Callback.pending i
    refine h.wrote i ?_
    have hzero : (s.callback i).pending = 0 := by omega
    cases hc : s.callback i <;> rw [hc] at hzero <;> trivial
  calc_alive hu := by
    refine lt_of_lt_of_le ?_ h.held
    cases hpc : s.main <;> rw [hpc] at hu <;>
      first | exact hu.elim | (simp only [Main.calcHeld]; omega)
  done_alive hu := by
    have hrefs := h.counted.refs
    rcases hu with hu | ⟨i, hi⟩
    · have hle := h.counted.freed_le
      cases hpc : s.main <;> rw [hpc] at hu hrefs <;> try exact hu.elim
      case retainDone =>
        rw [h.count_early (fun i => by rw [hpc]; exact id) rfl] at hrefs
        simp only [Main.doneHeld] at hrefs
        omega
      all_goals
        simp only [Main.doneHeld] at hrefs
        omega
    · have hne : s.callback i ≠ .unregistered := fun he => by rw [he] at hi; exact hi
      rw [h.freed_eq_zero hi] at hrefs
      have := (h.past_of_registered hne).counts.2
      omega

end OpenCLCTS.Conversions
