import OpenCLCTS.Conversions.Barrier.Safety

/-!
# When the main thread waits forever

A failure of `RunKernel`, `clEnqueueMapBuffer` or `clSetEventCallback`, or a callback with
another status than `CL_SUCCESS`, leaves a callback that will not decrement the counter
(`Poisoned`), so that `doneBarrier` is not set and the main thread waits for it forever.
Without a failure it is set (`barrier_safe_and_deadlock_iff`).
-/

namespace OpenCLCTS.Conversions

open Interleaving

variable {K : ℕ}

/-! ### Callbacks that are lost -/

/-- Some callback has been aborted, or has not been registered and will not be. -/
def Poisoned (s : Block K) : Prop :=
  ∃ i, s.callback i = .aborted ∨ s.callback i = .unregistered ∧ s.main.Past i

theorem Inv.doneSets_eq_zero {s : Block K} (h : Inv s) (hp : Poisoned s) : s.doneSets = 0 := by
  obtain ⟨i, hi⟩ := hp
  have hpending := le_count s Callback.pending i
  have hone : (s.callback i).pending = 1 := by
    rcases hi with hi | ⟨hi, _⟩ <;> rw [hi] <;> rfl
  have hle := count_mono (s := s) set_le_last
  have hsets := h.counted.sets
  have hlast := h.counted.last
  omega

theorem past_main {s s' : Block K} {ok : Bool} (hm : MainMove s ok s') {i : Fin K}
    (h : s.main.Past i) : s'.main.Past i := by
  cases hm with
  | setCallback v hpc | setFailed v hpc =>
    rw [hpc] at h
    exact le_of_lt h
  | releaseCalc v hpc =>
    rw [hpc] at h
    exact Nat.lt_succ_of_le h
  | callbacksSet | complete | wait | releaseRef | releaseDone => trivial
  | _ =>
    rw [‹s.main = _›] at h
    exact h.elim

theorem callback_eq_of_past {s s' : Block K} {ok : Bool} (hm : MainMove s ok s') {i : Fin K}
    (h : s.main.Past i) : s'.callback i = s.callback i := by
  cases hm with
  | setCallback v hpc =>
    rw [hpc] at h
    exact setPc_of_ne _ fun he => (he ▸ h).false
  | _ => rfl

theorem poisoned_step {s s' : Block K} {e : Event K} (hI : Inv s) (h : Poisoned s)
    (hn : (block K).next s e = some s') : Poisoned s' := by
  obtain ⟨i, hi⟩ := h
  obtain ⟨_ | j, ok⟩ := e
  · have hm := mainStep_cases hn
    have hpast : s.main.Past i := by
      rcases hi with hi | ⟨_, hi⟩
      · exact hI.past_of_registered (by rw [hi]; nofun)
      · exact hi
    refine ⟨i, ?_⟩
    rw [callback_eq_of_past hm hpast]
    exact hi.imp id fun hi => ⟨hi.1, past_main hm hpast⟩
  · have hm := callbackStep_cases hn
    refine ⟨i, ?_⟩
    by_cases hij : i = j
    · subst hij
      rcases hi with hi | ⟨hi, _⟩ <;> cases hm <;> · rw [hi] at *; contradiction
    · rw [(callback_of_ne hm hij).1, (callback_main hm).1]
      exact hi

/-- **A failure loses a callback.** -/
theorem poisoned_of_failure {s s' : Block K} {e : Event K} (hI : Inv s)
    (hn : (block K).next s e = some s') (hfail : ¬ NoFailure s e) : Poisoned s' := by
  obtain ⟨c, ok⟩ := e
  cases ok with
  | true => exact absurd rfl hfail
  | false =>
    cases c with
    | none =>
      have hm : MainMove s false s' := mainStep_cases hn
      cases hm with
      | runFailed v hpc | mapFailed v hpc =>
        exact ⟨v, .inr ⟨hI.idle v (by rw [hpc]; exact id), trivial⟩⟩
      | setFailed v hpc =>
        exact ⟨v, .inr ⟨hI.idle v (by rw [hpc]; exact lt_irrefl _), le_refl v⟩⟩
    | some i =>
      have hm : CallbackMove s i false s' := callbackStep_cases hn
      cases hm with
      | abort => exact ⟨i, .inl (setPc_self ..)⟩

theorem not_poisoned_step {s s' : Block K} {e : Event K} (h : ¬ Poisoned s)
    (hn : (block K).next s e = some s') (hok : NoFailure s e) : ¬ Poisoned s' := by
  rintro ⟨i, hi⟩
  obtain ⟨c, ok⟩ := e
  obtain rfl : ok = true := hok
  cases c with
  | none =>
    have hm : MainMove s true s' := mainStep_cases hn
    refine h ⟨i, ?_⟩
    cases hm with
    | setCallback v hpc =>
      rw [goto_callback] at hi
      by_cases hv : i = v
      · rw [hv, setPc_self] at hi
        rcases hi with hi | ⟨hi, _⟩ <;> cases hi
      · rw [setPc_of_ne _ hv] at hi
        refine hi.imp id fun hi => ⟨hi.1, ?_⟩
        rw [hpc]
        exact lt_of_le_of_ne hi.2 fun he => hv (Fin.ext he)
    | releaseCalc v hpc =>
      refine hi.imp id fun hi => ⟨hi.1, ?_⟩
      rw [hpc]
      exact Nat.le_of_lt_succ hi.2
    | callbacksSet v hpc hv =>
      refine hi.imp id fun hi => ⟨hi.1, ?_⟩
      rw [hpc]
      exact i.isLt.trans_le hv
    | complete hpc | wait hpc | releaseRef hpc | releaseDone hpc =>
      refine hi.imp id fun hi => ⟨hi.1, ?_⟩
      rw [hpc]
      trivial
    | started =>
      exact hi.imp id fun hi => absurd hi.2 (Nat.not_lt_zero _)
    | _ => exact hi.imp id fun hi => hi.2.elim
  | some j =>
    have hm : CallbackMove s j true s' := callbackStep_cases hn
    refine h ⟨i, ?_⟩
    by_cases hij : i = j
    · subst hij
      cases hm <;> · rw [setPc_self] at hi; rcases hi with hi | ⟨hi, _⟩ <;> cases hi
    · rwa [(callback_of_ne hm hij).1, (callback_main hm).1] at hi

/-- **Some callback is lost exactly if something has failed.** -/
theorem poisoned_iff (hK : 0 < K) {s₀ s : Block K} {l : List (Block K × Event K)}
    (hr : (block K).Reach System.anyStep s₀) (h₀ : ¬ Poisoned s₀) (h : (block K).Trace s₀ l s) :
    ¬ Poisoned s ↔ ∀ p ∈ l, NoFailure p.1 p.2 := by
  induction h with
  | nil => exact iff_of_true h₀ fun p hp => absurd hp List.not_mem_nil
  | @snoc t u l e htr hn ih =>
    have hI : Inv t := reach_inv hK (htr.reach hr fun _ _ => trivial)
    constructor
    · intro hu p hp
      have ht : ¬ Poisoned t := fun ht => hu (poisoned_step hI ht hn)
      rcases List.mem_append.mp hp with hp | hp
      · exact ih.mp ht p hp
      · rw [List.mem_singleton.mp hp]
        by_contra hfail
        exact hu (poisoned_of_failure hI hn hfail)
    · intro hall
      refine not_poisoned_step (ih.mpr fun p hp => ?_) hn (hall (t, e) ?_)
      · exact hall p (List.mem_append_left _ hp)
      · exact List.mem_append_right _ List.mem_cons_self

theorem start_not_poisoned (barrierCount : ℤ) : ¬ Poisoned (start K barrierCount) := by
  rintro ⟨i, hi | ⟨_, hi⟩⟩
  · cases hi
  · exact hi

/-! ### Progress -/

/-- How many steps the main thread has before it, at most. -/
def Main.rank : Main K → ℕ
  | .create => 11 + 5 * K
  | .retain v => 10 + 4 * K + (K - v)
  | .createDone => 9 + 4 * K
  | .retainDone => 8 + 4 * K
  | .setCount => 7 + 4 * K
  | .runKernel v => 6 + 2 * K + 2 * (K - v)
  | .mapBuffer v => 5 + 2 * K + 2 * (K - v)
  | .setCallback v => 5 + 2 * (K - v)
  | .releaseCalc v => 4 + 2 * (K - v)
  | .complete => 4
  | .wait => 3
  | .releaseRef => 2
  | .releaseDone => 1
  | .finished => 0

/-- How many steps a callback has before it, at most. -/
def Callback.rank : Callback → ℕ
  | .unregistered => 6
  | .registered => 5
  | .check => 4
  | .decrement => 3
  | .setDone => 2
  | .releaseDone => 1
  | .released | .finished | .aborted => 0

/-- How many steps a block has before it, at most. -/
def Block.rank (s : Block K) : ℕ := s.main.rank + s.count Callback.rank

theorem rank_main {s s' : Block K} (h : Inv s) (hm : MainMove s true s') : s'.rank < s.rank := by
  cases hm with
  | setCallback v hpc =>
    have hidle : s.callback v = .unregistered := h.idle v (by rw [hpc]; exact lt_irrefl _)
    have hcount := count_setPc s Callback.rank v .registered
    rw [hidle] at hcount
    simp only [Callback.rank] at hcount
    show Main.rank (.releaseCalc v) + (s.setPc v .registered).count Callback.rank < s.rank
    rw [Block.rank, hpc]
    simp only [Main.rank]
    omega
  | _ =>
    refine Nat.add_lt_add_right ?_ _
    simp only [‹s.main = _›, Main.rank, Block.goto]
    omega

theorem rank_callback {s s' : Block K} {i : Fin K} (hm : CallbackMove s i true s') :
    s'.rank < s.rank := by
  have hcount := callback_count hm Callback.rank
  rw [Block.rank, Block.rank, (callback_main hm).1]
  cases hm <;>
    · simp only [‹s.callback i = _›, setPc_self, Callback.rank] at hcount
      omega

theorem exists_main {s : Block K} (hw : s.main ≠ .wait) (hf : s.main ≠ .finished) :
    ∃ s', mainStep s true = some s' := by
  unfold mainStep
  cases hpc : s.main <;> first | exact absurd hpc hw | exact absurd hpc hf | exact ⟨_, rfl⟩

/-- If the main thread waits, no callback is lost and all that run have finished, the
last one has set `doneBarrier`. -/
theorem Inv.doneSets_pos {s : Block K} (h : Inv s)
    (hdone : ∀ i, s.callback i = .released ∨ s.callback i = .finished) : 0 < s.doneSets := by
  have hpending : s.count Callback.pending = 0 :=
    count_eq_zero fun i => by rcases hdone i with hi | hi <;> rw [hi] <;> rfl
  have hset : s.count Callback.set = s.count Callback.last :=
    Finset.sum_congr rfl fun i _ => by rcases hdone i with hi | hi <;> rw [hi] <;> rfl
  have hsets := h.counted.sets
  have hlast := h.counted.last
  omega

theorem exists_callback {s : Block K} (h : Inv s) (hp : ¬ Poisoned s) (hw : s.main = .wait)
    (hset : s.doneSets = 0) : ∃ i s', callbackStep s i true = some s' := by
  by_contra hnone
  refine hset.not_gt (h.doneSets_pos fun i => ?_)
  by_contra hi
  obtain ⟨hreleased, hfinished⟩ := not_or.mp hi
  refine hnone ⟨i, ?_⟩
  have hcalc := h.calcSet hw
  unfold callbackStep
  cases hpc : s.callback i with
  | unregistered => exact absurd ⟨i, .inr ⟨hpc, by rw [hw]; trivial⟩⟩ hp
  | aborted => exact absurd ⟨i, .inl hpc⟩ hp
  | released => exact absurd hpc hreleased
  | finished => exact absurd hpc hfinished
  | registered => exact ⟨_, if_pos hcalc⟩
  | _ => exact ⟨_, rfl⟩

/-- **Without a failure `doneBarrier` gets set.** -/
theorem exists_set {s : Block K} (h : Inv s) (hp : ¬ Poisoned s) :
    ∃ s', (block K).Path NoFailure s s' ∧ 0 < s'.doneSets := by
  have hstep : ∀ s : Block K, Inv s ∧ ¬ Poisoned s → ¬ 0 < s.doneSets →
      ∃ e s', NoFailure s e ∧ (block K).next s e = some s' ∧ (Inv s' ∧ ¬ Poisoned s') ∧
        s'.rank < s.rank := by
    rintro s ⟨h, hp⟩ hset
    by_cases hw : s.main = .wait
    · obtain ⟨i, s', hs'⟩ := exists_callback h hp hw (Nat.eq_zero_of_not_pos hset)
      have hm := callbackStep_cases hs'
      exact ⟨⟨some i, true⟩, s', rfl, hs', ⟨callback_inv h hm, not_poisoned_step hp
        (e := ⟨some i, true⟩) hs' rfl⟩, rank_callback hm⟩
    · have hf : s.main ≠ .finished := fun hf => hset (h.waited (by rw [hf]; trivial))
      obtain ⟨s', hs'⟩ := exists_main hw hf
      have hm := mainStep_cases hs'
      exact ⟨⟨none, true⟩, s', rfl, hs', ⟨main_inv h hm, not_poisoned_step hp
        (e := ⟨none, true⟩) hs' rfl⟩, rank_main h hm⟩
  obtain ⟨s', hpath, _, hset⟩ := System.Path.of_measure Block.rank hstep ⟨h, hp⟩
  exact ⟨s', hpath, hset⟩

/-- What is lost stays lost, and `doneBarrier` is not set any more. -/
theorem Inv.never_set {s s' : Block K} (h : Inv s) (hp : Poisoned s)
    (hpath : (block K).Path System.anyStep s s') : s'.doneSets = 0 := by
  have hI := hpath.invariant (I := fun s => Inv s ∧ Poisoned s)
    (fun s e s' hs _ hn => ⟨step_inv hs.1 hn, poisoned_step hs.1 hs.2 hn⟩) ⟨h, hp⟩
  exact hI.1.doneSets_eq_zero hI.2

/-- **After a failure the main thread comes to wait forever.** -/
theorem exists_deadlock {s : Block K} (h : Inv s) (hp : Poisoned s) :
    ∃ s', (block K).Path NoFailure s s' ∧ Deadlock s' := by
  have hstep : ∀ s : Block K, Inv s ∧ Poisoned s → ¬ s.main = .wait →
      ∃ e s', NoFailure s e ∧ (block K).next s e = some s' ∧ (Inv s' ∧ Poisoned s') ∧
        s'.rank < s.rank := by
    rintro s ⟨h, hp⟩ hw
    have hf : s.main ≠ .finished := fun hf => by
      have := h.waited (by rw [hf]; trivial)
      have := h.doneSets_eq_zero hp
      omega
    obtain ⟨s', hs'⟩ := exists_main hw hf
    have hm := mainStep_cases hs'
    exact ⟨⟨none, true⟩, s', rfl, hs', ⟨main_inv h hm, poisoned_step h hp
      (e := ⟨none, true⟩) hs'⟩, rank_main h hm⟩
  obtain ⟨s', hpath, ⟨h', hp'⟩, hw⟩ := System.Path.of_measure Block.rank hstep ⟨h, hp⟩
  exact ⟨s', hpath, hw, fun _ => h'.never_set hp'⟩

/-! ### All runs -/

/-- **The barrier is safe in every run, and it is without deadlock exactly as long as
nothing fails.** -/
theorem barrier_safe_and_deadlock_iff (hK : 0 < K) {barrierCount : ℤ}
    {l : List (Block K × Event K)} {s : Block K}
    (h : (block K).Trace (start K barrierCount) l s) :
    Safe s ∧ ((∀ p ∈ l, NoFailure p.1 p.2) ↔
      ∀ s', (block K).Path NoFailure s s' → ¬ Deadlock s') := by
  have hstart : (block K).Reach System.anyStep (start K barrierCount) := .start ⟨barrierCount, rfl⟩
  have hI : Inv s := reach_inv hK (h.reach hstart fun _ _ => trivial)
  refine ⟨hI.safe, ?_⟩
  rw [← poisoned_iff hK hstart (start_not_poisoned barrierCount) h]
  constructor
  · rintro hp s' hpath ⟨_, hnever⟩
    have hI' := hpath.invariant (I := fun s => Inv s ∧ ¬ Poisoned s)
      (fun s e s' hs hok hn => ⟨step_inv hs.1 hn, not_poisoned_step hs.2 hn hok⟩) ⟨hI, hp⟩
    obtain ⟨t, ht, hset⟩ := exists_set hI'.1 hI'.2
    exact hset.ne' (hnever t (ht.mono fun _ _ _ => trivial))
  · intro hno hp
    obtain ⟨s', hpath, hdead⟩ := exists_deadlock hI hp
    exact hno s' hpath hdead

/-- Two vector sizes, with nothing that fails. -/
theorem barrier_safe_two : ∃ l s, (block 2).Trace (start 2 0) l s ∧ s.main = .finished ∧
    Safe s ∧ ((∀ p ∈ l, NoFailure p.1 p.2) ↔
      ∀ s', (block 2).Path NoFailure s s' → ¬ Deadlock s') := by
  let main : ℕ → List (Event 2) := fun n => List.replicate n ⟨none, true⟩
  let callback : Fin 2 → ℕ → List (Event 2) := fun i n => List.replicate n ⟨some i, true⟩
  let events := main 18 ++ callback 1 1 ++ callback 0 3 ++ callback 1 3 ++ main 1
    ++ callback 1 1 ++ main 2
  have hfinished : (((block 2).run System.anyStep (start 2 0) events).map Block.main)
      = some .finished := by decide +kernel
  obtain ⟨s, hrun, hs⟩ := Option.map_eq_some_iff.mp hfinished
  obtain ⟨l, htrace, _⟩ := System.Trace.of_run (.nil _) (fun _ hp => absurd hp List.not_mem_nil) hrun
  exact ⟨l, s, htrace, hs, barrier_safe_and_deadlock_iff (by decide) htrace⟩

/-- The first kernel cannot be run. -/
theorem not_barrier_ok : ¬ ∀ K, 0 < K → ∀ s, (block K).Reach System.anyStep s →
    Safe s ∧ ¬ Deadlock s := by
  intro hall
  let events : List (Event 1) := List.replicate 6 ⟨none, true⟩ ++ [⟨none, false⟩, ⟨none, true⟩]
  obtain ⟨s, hr, hw, hidle⟩ := System.Reach.exists_of_run (S := block 1) System.anyStep
    (fun s => s.main = .wait ∧ s.callback 0 = .unregistered) (s := start 1 0) ⟨0, rfl⟩ events
    (by decide +kernel)
  have hp : Poisoned s := ⟨0, .inr ⟨hidle, by rw [hw]; trivial⟩⟩
  exact (hall 1 Nat.one_pos s hr).2 ⟨hw, fun _ => (reach_inv Nat.one_pos hr).never_set hp⟩

end OpenCLCTS.Conversions
