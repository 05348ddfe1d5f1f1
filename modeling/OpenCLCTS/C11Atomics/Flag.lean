import Mathlib.Data.Fintype.EquivFin
import Mathlib.Data.List.FinRange
import OpenCLCTS.C11Atomics.HostAtomics
import OpenCLCTS.Lib.Distinct
import OpenCLCTS.Lib.Mutex
import OpenCLCTS.Lib.Threads

/-!
# The flag test

`CBasicTestFlag`: `n` threads go through `n` critical sections, each guarded by a
flag, and each thread wants to be the first visitor of one of them.  A thread that
finds a flag set skips the section for good.

That it nevertheless wins a section is a matter of counting: a section that a
thread has passed is taken, by the thread that won it or by the one that is just
about to win it, and no thread takes two.

The flags and `oldValues` are `cl_int`; they hold the numbers 0 and 1, and the
numbers of threads and `notVisited`.
-/

namespace OpenCLCTS.C11Atomics.Flag

open Interleaving

/-- `CRITICAL_SECTION_NOT_VISITED`. -/
def notVisited : ℕ := 1000000000

/-- `StartValue`. -/
def startValue : ℕ := 0

/-- The flags, and the winner of each critical section. -/
structure Mem (n : ℕ) where
  destMemory : Fin n → ℕ
  oldValues : Fin n → ℕ

variable {n : ℕ}

/-- `StartValue` and `GenerateRefs`. -/
def Mem.start (n : ℕ) : Mem n := ⟨fun _ => startValue, fun _ => notVisited⟩

def Mem.setFlag (m : Mem n) (cnt : Fin n) (v : ℕ) : Mem n :=
  { m with destMemory := Function.update m.destMemory cnt v }

def Mem.setOldValue (m : Mem n) (cnt : Fin n) (v : ℕ) : Mem n :=
  { m with oldValues := Function.update m.oldValues cnt v }

/-- `host_atomic_flag_test_and_set`: the result, and the flag afterwards. -/
def hostAtomicFlagTestAndSet (a : ℕ) : Bool × ℕ :=
  let (old, a) := hostAtomicExchange a 1
  (decide (old ≠ 0), a)

/-- `host_atomic_flag_clear`. -/
def hostAtomicFlagClear (a : ℕ) : ℕ := hostAtomicStore a 0

/-- Where a thread stands in the loop over the critical sections. -/
inductive Pc (n : ℕ)
  | testAndSet (cnt : Fin n)
  /-- before `oldValues[csIndex] == CRITICAL_SECTION_NOT_VISITED` -/
  | read (cnt : Fin n)
  /-- before `oldValues[csIndex] = tid` -/
  | write (cnt : Fin n)
  | clear (cnt : Fin n) (stop : Bool)
  | returned
  deriving DecidableEq

/-- `!stop && cnt < threadCount`. -/
def Pc.loop (n cnt : ℕ) (stop : Bool) : Pc n :=
  if h : stop = false ∧ cnt < n then .testAndSet ⟨cnt, h.2⟩ else .returned

/-- `CBasicTestFlag::HostFunction`. -/
def hostFunction : Program (Fin n) (Mem n) (Pc n) := fun tid pc m =>
  match pc with
  | .testAndSet cnt =>
    let (set, flag) := hostAtomicFlagTestAndSet (m.destMemory cnt)
    some (if set then .loop n (cnt + 1) false else .read cnt, m.setFlag cnt flag)
  | .read cnt =>
    some (if m.oldValues cnt = notVisited then .write cnt else .clear cnt false, m)
  | .write cnt => some (.clear cnt true, m.setOldValue cnt tid)
  | .clear cnt stop =>
    some (.loop n (cnt + 1) stop, m.setFlag cnt (hostAtomicFlagClear (m.destMemory cnt)))
  | .returned => none

/-- All interleavings of the test with `n` threads. -/
abbrev flagTest (n : ℕ) : System (Conf (Fin n) (Mem n) (Pc n)) (Fin n) :=
  threads hostFunction fun c => c = ⟨Mem.start n, fun _ => .loop n 0 false⟩

/-- `ExpectedValue`. -/
def expectedValue : ℕ := startValue

/-- The body of the loop of `VerifyRefs`; `none` where it sets `correct` to false
and returns. -/
def verifyValue (tidFound : Fin n → Bool) (value : ℕ) : Option (Fin n → Bool) :=
  if value = notVisited then none
  else if h : value < n then
    if tidFound ⟨value, h⟩ then none else some (Function.update tidFound ⟨value, h⟩ true)
  else none

/-- `VerifyRefs`. -/
def verifyRefs (refValues : Fin n → ℕ) : Bool :=
  (((List.finRange n).map refValues).foldlM verifyValue fun _ : Fin n => false).isSome

/-! ### The verifier -/

def Fresh (tidFound : Fin n → Bool) (value : ℕ) : Prop :=
  value ≠ notVisited ∧ ∃ h : value < n, tidFound ⟨value, h⟩ = false

theorem verifyValue_checks : Distinct.Checks (verifyValue (n := n)) Fresh where
  accept := by
    rintro tidFound value ⟨hv, h, hf⟩
    refine ⟨_, by rw [verifyValue, if_neg hv, dif_pos h, if_neg (by simp [hf])], ?_⟩
    intro w
    have hne : ∀ hlt : w < n, w ≠ value → (⟨w, hlt⟩ : Fin n) ≠ ⟨value, h⟩ :=
      fun hlt hne he => hne (Fin.mk.inj_iff.mp he)
    constructor
    · rintro ⟨hw, hlt, hw'⟩
      have hwv : w ≠ value := by
        rintro rfl
        rw [Function.update_self] at hw'
        cases hw'
      rw [Function.update_of_ne (hne hlt hwv)] at hw'
      exact ⟨⟨hw, hlt, hw'⟩, hwv⟩
    · rintro ⟨⟨hw, hlt, hw'⟩, hwv⟩
      exact ⟨hw, hlt, by rw [Function.update_of_ne (hne hlt hwv)]; exact hw'⟩
  reject := by
    intro tidFound value hfresh
    rw [verifyValue]
    by_cases hv : value = notVisited
    · rw [if_pos hv]
    · rw [if_neg hv]
      by_cases h : value < n
      · rw [dif_pos h, if_pos (by_contra fun hf => hfresh ⟨hv, h, Bool.eq_false_iff.mpr hf⟩)]
      · rw [dif_neg h]

/-- **What `VerifyRefs` accepts**: distinct numbers of threads. -/
theorem verifyRefs_iff {refValues : Fin n → ℕ} :
    verifyRefs refValues = true ↔
      Function.Injective refValues ∧ ∀ i, refValues i ≠ notVisited ∧ refValues i < n := by
  rw [verifyRefs, verifyValue_checks.foldlM_isSome, List.nodup_map_iff_inj_on (List.nodup_finRange n)]
  refine and_congr ⟨fun h i j he => h i (List.mem_finRange i) j (List.mem_finRange j) he,
    fun h i _ j _ he => h he⟩ ?_
  rw [List.forall_mem_map]
  exact ⟨fun h i => ⟨(h i (List.mem_finRange i)).1, (h i (List.mem_finRange i)).2.1⟩,
    fun h i _ => ⟨(h i).1, (h i).2, rfl⟩⟩

/-! ### Steps -/

/-- What a step does. -/
inductive Moves (t : Fin n) (m : Mem n) : Pc n → Pc n → Mem n → Prop
  | skip (cnt : Fin n) : m.destMemory cnt ≠ 0 →
      Moves t m (.testAndSet cnt) (.loop n (cnt + 1) false) (m.setFlag cnt 1)
  | enter (cnt : Fin n) : m.destMemory cnt = 0 →
      Moves t m (.testAndSet cnt) (.read cnt) (m.setFlag cnt 1)
  | first (cnt : Fin n) : m.oldValues cnt = notVisited → Moves t m (.read cnt) (.write cnt) m
  | late (cnt : Fin n) : m.oldValues cnt ≠ notVisited →
      Moves t m (.read cnt) (.clear cnt false) m
  | win (cnt : Fin n) : Moves t m (.write cnt) (.clear cnt true) (m.setOldValue cnt t)
  | leave (cnt : Fin n) (stop : Bool) :
      Moves t m (.clear cnt stop) (.loop n (cnt + 1) stop) (m.setFlag cnt 0)

theorem moves {t : Fin n} {pc pc' : Pc n} {m m' : Mem n}
    (hP : hostFunction t pc m = some (pc', m')) : Moves t m pc pc' m' := by
  cases pc with
  | testAndSet cnt =>
    replace hP : some (if decide (m.destMemory cnt ≠ 0) then .loop n (cnt + 1) false
      else .read cnt, m.setFlag cnt 1) = some (pc', m') := hP
    by_cases h : m.destMemory cnt = 0
    · rw [if_neg (by simp [h])] at hP
      cases hP
      exact .enter cnt h
    · rw [if_pos (by simp [h])] at hP
      cases hP
      exact .skip cnt h
  | read cnt =>
    simp only [hostFunction] at hP
    by_cases h : m.oldValues cnt = notVisited
    · rw [if_pos h] at hP
      cases hP
      exact .first cnt h
    · rw [if_neg h] at hP
      cases hP
      exact .late cnt h
  | write cnt => cases hP; exact .win cnt
  | clear cnt stop => cases hP; exact .leave cnt stop
  | returned => cases hP

/-! ### Mutual exclusion -/

/-- The thread is inside critical section `cnt`. -/
def Pc.inSection (cnt : Fin n) : Pc n → Bool
  | .read k | .write k | .clear k _ => decide (k = cnt)
  | .testAndSet _ | .returned => false

@[simp] theorem loop_inSection (k stop) (cnt : Fin n) :
    (Pc.loop n k stop).inSection cnt = false := by
  unfold Pc.loop
  split <;> rfl

/-- Each flag is a mutex: it is set as long as some thread is in the section. -/
structure Guarded (lock : Fin n → Option (Fin n)) (c : Conf (Fin n) (Mem n) (Pc n)) : Prop where
  flag : ∀ cnt, c.mem.destMemory cnt = 0 ↔ lock cnt = none
  owned : ∀ cnt, Owned (lock cnt) fun t => (c.loc t).inSection cnt

theorem inSection_update (c : Conf (Fin n) (Mem n) (Pc n)) (t : Fin n) (pc : Pc n) (cnt : Fin n) :
    (fun u => (Function.update c.loc t pc u).inSection cnt)
      = Function.update (fun u => (c.loc u).inSection cnt) t (pc.inSection cnt) := by
  funext u
  by_cases hu : u = t
  · subst hu
    rw [Function.update_self, Function.update_self]
  · rw [Function.update_of_ne hu, Function.update_of_ne hu]

/-- A step that leaves every flag as clear as it was and takes the thread into no
section and out of none. -/
theorem Guarded.keep {lock : Fin n → Option (Fin n)} {c : Conf (Fin n) (Mem n) (Pc n)}
    {t : Fin n} {pc' : Pc n} {m' : Mem n} (h : Guarded lock c)
    (hflag : ∀ cnt, m'.destMemory cnt = 0 ↔ c.mem.destMemory cnt = 0)
    (hin : ∀ cnt, pc'.inSection cnt = (c.loc t).inSection cnt) :
    Guarded lock ⟨m', Function.update c.loc t pc'⟩ := by
  refine ⟨fun cnt => (hflag cnt).trans (h.flag cnt), ?_⟩
  intro cnt
  simp only [inSection_update]
  exact (h.owned cnt).keep (hin cnt)

/-- A step that sets a clear flag and takes the thread into its section, or clears
the flag and takes it out. -/
theorem Guarded.change {lock : Fin n → Option (Fin n)} {c : Conf (Fin n) (Mem n) (Pc n)}
    {t cnt : Fin n} {pc' : Pc n} {v : ℕ} {o : Option (Fin n)} (h : Guarded lock c)
    (hv : v = 0 ↔ o = none) (hin : ∀ k, k ≠ cnt → pc'.inSection k = (c.loc t).inSection k)
    (ho : Owned o (Function.update (fun u => (c.loc u).inSection cnt) t (pc'.inSection cnt))) :
    Guarded (Function.update lock cnt o)
      ⟨c.mem.setFlag cnt v, Function.update c.loc t pc'⟩ := by
  refine ⟨fun k => ?_, fun k => ?_⟩
  · by_cases hk : k = cnt
    · subst hk
      simp only [Mem.setFlag, Function.update_self]
      exact hv
    · simp only [Mem.setFlag, Function.update_of_ne hk]
      exact h.flag k
  · simp only [inSection_update]
    by_cases hk : k = cnt
    · subst hk
      rw [Function.update_self]
      exact ho
    · rw [Function.update_of_ne hk]
      exact (h.owned k).keep (hin k hk)

theorem guarded_step {c : Conf (Fin n) (Mem n) (Pc n)} {t : Fin n} {pc' : Pc n} {m' : Mem n}
    (h : ∃ lock, Guarded lock c) (hm : Moves t c.mem (c.loc t) pc' m') :
    ∃ lock, Guarded lock ⟨m', Function.update c.loc t pc'⟩ := by
  obtain ⟨lock, h⟩ := h
  generalize hpc : c.loc t = pc at hm
  cases hm with
  | skip cnt hset =>
    refine ⟨lock, h.keep (fun k => ?_) fun k => by rw [hpc, loop_inSection]; rfl⟩
    by_cases hk : k = cnt
    · subst hk
      simp only [Mem.setFlag, Function.update_self, hset, one_ne_zero]
    · simp only [Mem.setFlag, Function.update_of_ne hk]
  | enter cnt hclear =>
    refine ⟨_, h.change (o := some t) (by simp) (fun k hk => ?_) ?_⟩
    · rw [hpc]
      exact decide_eq_false (Ne.symm hk)
    · have hin : (Pc.read cnt).inSection cnt = true := decide_eq_true rfl
      rw [hin]
      exact (h.owned cnt).acquire ((h.flag cnt).mp hclear)
  | first cnt _ => exact ⟨lock, h.keep (fun _ => Iff.rfl) fun k => by rw [hpc]; rfl⟩
  | late cnt _ => exact ⟨lock, h.keep (fun _ => Iff.rfl) fun k => by rw [hpc]; rfl⟩
  | win cnt => exact ⟨lock, h.keep (fun _ => Iff.rfl) fun k => by rw [hpc]; rfl⟩
  | leave cnt stop =>
    refine ⟨_, h.change (o := none) (by simp) (fun k hk => ?_) ?_⟩
    · rw [hpc, loop_inSection]
      exact (decide_eq_false (Ne.symm hk)).symm
    · have hin : (c.loc t).inSection cnt = true := by
        rw [hpc]
        exact decide_eq_true rfl
      rw [loop_inSection]
      exact (h.owned cnt).release hin

theorem guarded {c : Conf (Fin n) (Mem n) (Pc n)} (h : (flagTest n).Reach System.anyStep c) :
    ∃ lock, Guarded lock c := by
  refine h.invariant (I := fun c => ∃ lock, Guarded lock c) ?_ ?_
  · rintro c rfl
    refine ⟨fun _ => none, fun _ => ⟨fun _ => rfl, fun _ => rfl⟩, fun cnt => owned_none.mpr ?_⟩
    exact fun t => loop_inSection _ _ _
  · rintro c t c' hI _ hn
    obtain ⟨pc', m', hP, rfl⟩ := threads_next.mp hn
    exact guarded_step hI (moves hP)

/-- **At most one thread is inside each critical section**, in every reachable
state. -/
theorem mutual_exclusion {c : Conf (Fin n) (Mem n) (Pc n)}
    (h : (flagTest n).Reach System.anyStep c) {t u cnt : Fin n}
    (ht : (c.loc t).inSection cnt = true) (hu : (c.loc u).inSection cnt = true) : t = u := by
  obtain ⟨lock, hg⟩ := guarded h
  exact (hg.owned cnt).unique ht hu

theorem exists_inSection {c : Conf (Fin n) (Mem n) (Pc n)}
    (h : (flagTest n).Reach System.anyStep c) {cnt : Fin n} (hset : c.mem.destMemory cnt ≠ 0) :
    ∃ u, (c.loc u).inSection cnt = true := by
  obtain ⟨lock, hg⟩ := guarded h
  obtain ⟨u, hu⟩ := Option.ne_none_iff_exists'.mp fun hnone => hset ((hg.flag cnt).mpr hnone)
  exact ⟨u, (hg.owned cnt u).mp hu⟩

/-! ### Won sections -/

/-- What a thread has to do with the section it is in, and whether it has won one. -/
def SlotAt (t : Fin n) (pc : Pc n) (m : Mem n) : Prop :=
  match pc with
  | .testAndSet _ | .read _ => ∀ k, m.oldValues k ≠ t
  | .write cnt => m.oldValues cnt = notVisited ∧ ∀ k, m.oldValues k ≠ t
  | .clear cnt false => m.oldValues cnt ≠ notVisited ∧ ∀ k, m.oldValues k ≠ t
  | .clear cnt true => m.oldValues cnt = t
  | .returned => True

/-- Each section is not visited or won by a thread, and no thread has won two. -/
structure Slots (c : Conf (Fin n) (Mem n) (Pc n)) : Prop where
  known : ∀ k, c.mem.oldValues k = notVisited ∨ ∃ u : Fin n, c.mem.oldValues k = u
  unique : ∀ (t : Fin n) k k', c.mem.oldValues k = t → c.mem.oldValues k' = t → k = k'
  at_pc : ∀ t, SlotAt t (c.loc t) c.mem

theorem slotAt_loop {t : Fin n} {m : Mem n} {k : ℕ} {stop : Bool}
    (h : stop = false → ∀ k, m.oldValues k ≠ t) : SlotAt t (.loop n k stop) m := by
  unfold Pc.loop
  split
  · rename_i hgo
    exact h hgo.1
  · trivial

variable {c c' : Conf (Fin n) (Mem n) (Pc n)} {t : Fin n} {pc' : Pc n} {m' : Mem n}

theorem Slots.keep (h : Slots c) (hold : m'.oldValues = c.mem.oldValues)
    (hpc : SlotAt t pc' c.mem) : Slots ⟨m', Function.update c.loc t pc'⟩ := by
  have hat : ∀ (u : Fin n) (pc : Pc n), SlotAt u pc c.mem → SlotAt u pc m' := by
    intro u pc hu
    unfold SlotAt at hu ⊢
    rwa [hold]
  refine ⟨fun k => ?_, fun u k k' => ?_, fun u => ?_⟩
  · rw [hold]
    exact h.known k
  · rw [hold]
    exact h.unique u k k'
  · by_cases hu : u = t
    · subst hu
      simp only [Function.update_self]
      exact hat u pc' hpc
    · simp only [Function.update_of_ne hu]
      exact hat u _ (h.at_pc u)

theorem oldValues_of_setOldValue {m : Mem n} {cnt k t u : Fin n} (hu : u ≠ t)
    (h : (m.setOldValue cnt t).oldValues k = u) : m.oldValues k = u := by
  by_cases hk : k = cnt
  · rw [hk] at h
    have hself : (m.setOldValue cnt t).oldValues cnt = t := Function.update_self ..
    exact absurd (Fin.ext (h.symm.trans hself)) hu
  · have hother : (m.setOldValue cnt t).oldValues k = m.oldValues k := Function.update_of_ne hk ..
    exact hother.symm.trans h

/-- A thread `u` outside the section stands as it did when `t` wins it. -/
theorem SlotAt.win {m : Mem n} {cnt t u : Fin n} {pc : Pc n} (h : SlotAt u pc m) (hu : u ≠ t)
    (hpc : pc.inSection cnt = false) : SlotAt u pc (m.setOldValue cnt t) := by
  have hother : ∀ k, k ≠ cnt → (m.setOldValue cnt t).oldValues k = m.oldValues k :=
    fun k hk => Function.update_of_ne hk ..
  have hnone : (∀ k, m.oldValues k ≠ u) → ∀ k, (m.setOldValue cnt t).oldValues k ≠ u := by
    intro hno k hk
    exact hno k (oldValues_of_setOldValue hu hk)
  cases pc with
  | testAndSet k => exact hnone h
  | read k => exact hnone h
  | returned => trivial
  | write k =>
    have hk : k ≠ cnt := of_decide_eq_false hpc
    exact ⟨(hother k hk).trans h.1, hnone h.2⟩
  | clear k stop =>
    have hk : k ≠ cnt := of_decide_eq_false hpc
    cases stop with
    | false => exact ⟨(hother k hk).trans_ne h.1, hnone h.2⟩
    | true => exact (hother k hk).trans h

theorem Slots.win (h : Slots c) {cnt : Fin n} (hpc : c.loc t = .write cnt)
    (hexcl : ∀ u, (c.loc u).inSection cnt = true → u = t) :
    Slots ⟨c.mem.setOldValue cnt t, Function.update c.loc t (.clear cnt true)⟩ := by
  have hat := h.at_pc t
  rw [hpc] at hat
  obtain ⟨_, hnone⟩ := hat
  have hself : (c.mem.setOldValue cnt t).oldValues cnt = t := Function.update_self ..
  have hother : ∀ k, k ≠ cnt → (c.mem.setOldValue cnt t).oldValues k = c.mem.oldValues k :=
    fun k hk => Function.update_of_ne hk ..
  have hmine : ∀ k, (c.mem.setOldValue cnt t).oldValues k = t → k = cnt := by
    intro k hk
    by_contra he
    rw [hother k he] at hk
    exact hnone k hk
  refine ⟨fun k => ?_, fun u k k' hk hk' => ?_, fun u => ?_⟩
  · by_cases he : k = cnt
    · exact .inr ⟨t, he ▸ hself⟩
    · simp only [hother k he]
      exact h.known k
  · by_cases hu : u = t
    · subst hu
      rw [hmine k hk, hmine k' hk']
    · exact h.unique u k k' (oldValues_of_setOldValue hu hk) (oldValues_of_setOldValue hu hk')
  · by_cases hu : u = t
    · subst hu
      simp only [Function.update_self]
      exact hself
    · simp only [Function.update_of_ne hu]
      refine (h.at_pc u).win hu ?_
      by_contra hin
      exact hu (hexcl u (Bool.not_eq_false _ ▸ hin))

variable (hn : n ≤ notVisited)
include hn

theorem ne_notVisited (t : Fin n) : (t : ℕ) ≠ notVisited := (t.isLt.trans_le hn).ne

/-- **No thread wins two sections**, in every reachable state. -/
theorem slots (h : (flagTest n).Reach System.anyStep c) : Slots c := by
  refine h.invariant_of
    (J := fun c => ∀ t u cnt, (c.loc t).inSection cnt = true → (c.loc u).inSection cnt = true →
      t = u) (fun c hc t u cnt => mutual_exclusion hc) ?_ ?_
  · rintro c rfl
    exact ⟨fun _ => .inl rfl, fun t k _ hk => absurd hk.symm (ne_notVisited hn t),
      fun t => slotAt_loop fun _ k hk => ne_notVisited hn t hk.symm⟩
  · rintro c t c' hexcl hI _ hstep
    obtain ⟨pc', m', hP, rfl⟩ := threads_next.mp hstep
    have hm := moves hP
    have hat := hI.at_pc t
    generalize hpc : c.loc t = pc at hm hat
    cases hm with
    | skip cnt _ => exact hI.keep rfl (slotAt_loop fun _ => hat)
    | enter cnt _ => exact hI.keep rfl hat
    | first cnt hfree => exact hI.keep rfl ⟨hfree, hat⟩
    | late cnt hvis => exact hI.keep rfl ⟨hvis, hat⟩
    | win cnt =>
      refine hI.win hpc fun u hu => hexcl u t cnt hu ?_
      rw [hpc]
      exact decide_eq_true rfl
    | leave cnt stop =>
      refine hI.keep rfl (slotAt_loop ?_)
      rintro rfl
      exact hat.2

omit hn in
/-- **A slot once won is never overwritten.** -/
theorem oldValues_step (hs : Slots c) (hP : hostFunction t (c.loc t) c.mem = some (pc', m'))
    {k : Fin n} (hk : c.mem.oldValues k ≠ notVisited) : m'.oldValues k = c.mem.oldValues k := by
  have hm := moves hP
  have hat := hs.at_pc t
  generalize hpc : c.loc t = pc at hm hat
  cases hm with
  | win cnt =>
    have hne : k ≠ cnt := by
      rintro rfl
      exact hk hat.1
    exact Function.update_of_ne hne ..
  | skip | enter | first | late | leave => rfl

/-! ### Every thread wins -/

/-- Thread `u` has won the section or is inside it on its way to winning it. -/
def Takes (c : Conf (Fin n) (Mem n) (Pc n)) (u k : Fin n) : Prop :=
  c.mem.oldValues k = u ∨ c.loc u = .read k ∨ c.loc u = .write k

/-- The number of sections that a thread has behind it. -/
def Pc.passed : Pc n → ℕ
  | .testAndSet cnt | .read cnt | .write cnt | .clear cnt _ => cnt
  | .returned => n

omit hn in
theorem loop_passed {k : Fin n} {cnt : ℕ} {stop : Bool} (h : stop = false)
    (hk : (k : ℕ) < (Pc.loop n cnt stop).passed) : (k : ℕ) < cnt := by
  unfold Pc.loop at hk
  split at hk
  · exact hk
  · rename_i hend
    exact k.isLt.trans_le (not_lt.mp fun hlt => hend ⟨h, hlt⟩)

omit hn in
theorem Takes.unique (h : Slots c) {u k k' : Fin n} (hk : Takes c u k) (hk' : Takes c u k') :
    k = k' := by
  have hat := h.at_pc u
  have hvalue : ∀ {i j}, c.mem.oldValues i = u → c.loc u = .read j ∨ c.loc u = .write j → False := by
    intro i j hi hj
    rcases hj with hj | hj
    · rw [hj] at hat
      exact hat i hi
    · rw [hj] at hat
      exact hat.2 i hi
  rcases hk with hk | hk
  · rcases hk' with hk' | hk'
    · exact h.unique u k k' hk hk'
    · exact (hvalue hk hk').elim
  · rcases hk' with hk' | hk'
    · exact (hvalue hk' hk).elim
    · rcases hk with hk | hk <;> rw [hk] at hk' <;> simpa using hk'

omit hn in
/-- Whoever is inside a section takes it or has found it taken. -/
theorem exists_takes_of_inSection (h : Slots c) {u cnt : Fin n}
    (hu : (c.loc u).inSection cnt = true) : ∃ v, Takes c v cnt := by
  have hat := h.at_pc u
  cases hpc : c.loc u with
  | testAndSet k => rw [hpc] at hu; cases hu
  | returned => rw [hpc] at hu; cases hu
  | read k =>
    rw [hpc] at hu
    obtain rfl : k = cnt := of_decide_eq_true hu
    exact ⟨u, .inr (.inl hpc)⟩
  | write k =>
    rw [hpc] at hu
    obtain rfl : k = cnt := of_decide_eq_true hu
    exact ⟨u, .inr (.inr hpc)⟩
  | clear k stop =>
    rw [hpc] at hu hat
    obtain rfl : k = cnt := of_decide_eq_true hu
    cases stop with
    | false =>
      obtain ⟨v, hv⟩ := (h.known k).resolve_left hat.1
      exact ⟨v, .inl hv⟩
    | true => exact ⟨u, .inl hat⟩

/-- **A section that is taken stays taken.** -/
theorem exists_takes_step (h : Slots c) (hP : hostFunction t (c.loc t) c.mem = some (pc', m'))
    {k : Fin n} (hk : ∃ u, Takes c u k) :
    ∃ u, Takes ⟨m', Function.update c.loc t pc'⟩ u k := by
  obtain ⟨u, hk | hk⟩ := hk
  · have hvis : c.mem.oldValues k ≠ notVisited := by
      rw [hk]
      exact ne_notVisited hn u
    exact ⟨u, .inl ((oldValues_step h hP hvis).trans hk)⟩
  · by_cases hu : u = t
    · subst hu
      have hm := moves hP
      rcases hk with hk | hk
      · rw [hk] at hm
        cases hm with
        | first => exact ⟨u, .inr (.inr (Function.update_self ..))⟩
        | late _ hvis =>
          obtain ⟨v, hv⟩ := (h.known k).resolve_left hvis
          exact ⟨v, .inl hv⟩
      · rw [hk] at hm
        cases hm with
        | win => exact ⟨u, .inl (Function.update_self ..)⟩
    · refine ⟨u, .inr ?_⟩
      simp only [Function.update_of_ne hu]
      exact hk

/-- The thread has won a section, or every section behind it is taken. -/
def Passing (c : Conf (Fin n) (Mem n) (Pc n)) (t : Fin n) : Prop :=
  (∃ k, c.mem.oldValues k = t) ∨ ∀ k : Fin n, (k : ℕ) < (c.loc t).passed → ∃ u, Takes c u k

/-- **What a thread has behind it is taken**, in every reachable state. -/
theorem passing (h : (flagTest n).Reach System.anyStep c) (t : Fin n) : Passing c t := by
  refine h.invariant_of (J := fun c => (flagTest n).Reach System.anyStep c)
    (I := fun c => ∀ t, Passing c t) (fun c hc => hc) ?_ ?_ t
  · rintro c rfl t
    exact .inr fun k hk => absurd (loop_passed rfl hk) (Nat.not_lt_zero _)
  · rintro c u c' hr hI _ hstep t
    have hs := slots hn hr
    obtain ⟨pc', m', hP, rfl⟩ := threads_next.mp hstep
    rcases hI t with ⟨k, hk⟩ | hpass
    · have hvis : c.mem.oldValues k ≠ notVisited := by
        rw [hk]
        exact ne_notVisited hn t
      exact .inl ⟨k, (oldValues_step hs hP hvis).trans hk⟩
    · by_cases htu : t = u
      · subst htu
        -- the section just left behind, if there is one, is taken as well
        suffices hnew : (∃ k, c.mem.oldValues k = t) ∨
            ∀ k : Fin n, (k : ℕ) < pc'.passed → ∃ v, Takes c v k by
          rcases hnew with ⟨k, hk⟩ | hnew
          · have hvis : c.mem.oldValues k ≠ notVisited := by
              rw [hk]
              exact ne_notVisited hn t
            exact .inl ⟨k, (oldValues_step hs hP hvis).trans hk⟩
          · refine .inr fun k hk => exists_takes_step hn hs hP (hnew k ?_)
            simpa only [Function.update_self] using hk
        have hleft : ∀ cnt : Fin n, (c.loc t).passed = cnt → (∃ v, Takes c v cnt) →
            ∀ k : Fin n, (k : ℕ) < (Pc.loop n (cnt + 1) false).passed → ∃ v, Takes c v k := by
          intro cnt hcnt htaken k hk
          rcases Nat.lt_succ_iff_lt_or_eq.mp (loop_passed rfl hk) with hlt | heq
          · exact hpass k (hcnt.symm ▸ hlt)
          · rw [Fin.ext heq]
            exact htaken
        have hm := moves hP
        have hat := hs.at_pc t
        generalize hpc : c.loc t = pc at hm hat hleft hpass
        cases hm with
        | skip cnt hset =>
          obtain ⟨v, hv⟩ := exists_inSection hr hset
          exact .inr (hleft cnt rfl (exists_takes_of_inSection hs hv))
        | enter => exact .inr hpass
        | first => exact .inr hpass
        | late => exact .inr hpass
        | win => exact .inr hpass
        | leave cnt stop =>
          cases stop with
          | false =>
            have hin : (c.loc t).inSection cnt = true := by
              rw [hpc]
              exact decide_eq_true rfl
            exact .inr (hleft cnt rfl (exists_takes_of_inSection hs hin))
          | true => exact .inl ⟨cnt, hat⟩
      · refine .inr fun k hk => exists_takes_step hn hs hP (hpass k ?_)
        simpa only [Function.update_of_ne htu] using hk

/-- **A thread that has returned has won a section.**  Otherwise all sections are
taken, by threads that take one each; then all threads take one, this one too. -/
theorem won_of_returned (h : (flagTest n).Reach System.anyStep c) {t : Fin n}
    (hret : c.loc t = .returned) : ∃ k, c.mem.oldValues k = t := by
  have hs := slots hn h
  rcases passing hn h t with hwon | hpass
  · exact hwon
  · rw [hret] at hpass
    choose f hf using fun k : Fin n => hpass k k.isLt
    have hinj : Function.Injective f := by
      intro k k' he
      exact Takes.unique hs (hf k) (he ▸ hf k')
    obtain ⟨k, hk⟩ := Finite.injective_iff_surjective.mp hinj t
    have htk : Takes c t k := hk ▸ hf k
    rcases htk with htk | htk | htk
    · exact ⟨k, htk⟩
    · rw [hret] at htk
      cases htk
    · rw [hret] at htk
      cases htk

/-! ### The test as a whole -/

/-- What the test leaves when all threads have returned. -/
structure Completed (c : Conf (Fin n) (Mem n) (Pc n)) : Prop where
  won : ∀ t : Fin n, ∃! k, c.mem.oldValues k = t
  perm : ∃ σ : Equiv.Perm (Fin n), ∀ k, c.mem.oldValues k = σ k
  clear : ∀ k, c.mem.destMemory k = expectedValue
  accepted : verifyRefs c.mem.oldValues = true

theorem completed (h : (flagTest n).Reach System.anyStep c) (hfin : ∀ t, c.loc t = .returned) :
    Completed c := by
  have hs := slots hn h
  have hwon : ∀ t : Fin n, ∃ k, c.mem.oldValues k = t := fun t => won_of_returned hn h (hfin t)
  choose f hf using hwon
  have hinj : Function.Injective f := by
    intro t u he
    have htu : (t : ℕ) = u := by rw [← hf t, he, hf u]
    exact Fin.ext htu
  have hbij : Function.Bijective f := Finite.injective_iff_bijective.mp hinj
  have hperm : ∀ k, c.mem.oldValues k = (Equiv.ofBijective f hbij).symm k := by
    intro k
    obtain ⟨t, rfl⟩ := hbij.2 k
    rw [hf t, Equiv.ofBijective_symm_apply_apply]
  refine ⟨fun t => ⟨f t, hf t, fun k hk => hs.unique t k (f t) hk (hf t)⟩, ⟨_, hperm⟩,
    fun k => ?_, verifyRefs_iff.mpr ⟨fun i j he => ?_, fun i => ?_⟩⟩
  · by_contra hset
    obtain ⟨u, hu⟩ := exists_inSection h hset
    rw [hfin u] at hu
    cases hu
  · rw [hperm, hperm] at he
    exact (Equiv.injective _) (Fin.ext he)
  · rw [hperm]
    exact ⟨ne_notVisited hn _, Fin.isLt _⟩

/-- **The flag test.**  At most one thread is in each critical section, a slot once
won keeps its winner, and when all threads have returned each has won exactly one
slot, the winners are a permutation, the flags are clear and `VerifyRefs` accepts. -/
theorem flag_test (h : (flagTest n).Reach System.anyStep c) :
    (∀ t u cnt, (c.loc t).inSection cnt = true → (c.loc u).inSection cnt = true → t = u) ∧
    (∀ c', (flagTest n).Path System.anyStep c c' → ∀ k, c.mem.oldValues k ≠ notVisited →
      c'.mem.oldValues k = c.mem.oldValues k) ∧
    ((∀ t, c.loc t = .returned) → Completed c) := by
  refine ⟨fun t u cnt => mutual_exclusion h, fun c' hp k hk => ?_, completed hn h⟩
  refine (hp.invariant (I := fun d => (flagTest n).Reach System.anyStep d ∧
    d.mem.oldValues k = c.mem.oldValues k) ?_ ⟨h, rfl⟩).2
  rintro d t d' ⟨hr, hd⟩ _ hstep
  refine ⟨.step t hr trivial hstep, ?_⟩
  obtain ⟨pc', m', hP, rfl⟩ := threads_next.mp hstep
  exact (oldValues_step (slots hn hr) hP (hd ▸ hk)).trans hd

omit hn in
/-- A complete run with two threads, the second of which finds the first flag set. -/
theorem flag_test_pair : ∃ c, (flagTest 2).Reach System.anyStep c ∧ Completed c := by
  obtain ⟨c, hr, hfin⟩ := System.Reach.exists_of_run (S := flagTest 2) System.anyStep
    (fun c => ∀ t, c.loc t = .returned) rfl [0, 1, 1, 1, 1, 1, 0, 0, 0] (by decide +kernel)
  exact ⟨c, hr, (flag_test (by decide) hr).2.2 hfin⟩

end OpenCLCTS.C11Atomics.Flag
