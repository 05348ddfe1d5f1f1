import OpenCLCTS.C11Atomics.Fence.Model

/-!
# The sequentially consistent fence test

Two threads of a pair never get more than one apart.  A thread that has stopped
knows its own value or the one before it; if it knows the one before it, then its
partner goes past it or stays behind, unless there is nowhere further to go: at
the limit both can end with the same value, and `VerifyRefs` takes that for a
fence that does not work.
-/

namespace OpenCLCTS.C11Atomics.Fence

open Interleaving

variable {n : ℕ}

theorem two_lt_limit : 2 < limit := by decide

/-- The value of a thread's own counter. -/
def SeqCst.counter (l : SeqCst) : ℕ :=
  match l.pc with
  | .announce | .store => l.myValue - 1
  | _ => l.myValue

/-- The loop is over. -/
def SeqCst.Stopped (l : SeqCst) : Prop := l.pc = .record ∨ l.pc = .returned

instance (l : SeqCst) : Decidable l.Stopped := inferInstanceAs (Decidable (_ ∨ _))

theorem not_stopped {l : SeqCst} (h1 : l.pc ≠ .record) (h2 : l.pc ≠ .returned) : ¬ l.Stopped :=
  fun h => h.elim h1 h2

/-- What a thread knows about its own counter and its partner's. -/
structure Paced (t : Fin n) (l : SeqCst) (m : Mem n) : Prop where
  counter : m.destMemory t = l.counter
  le_limit : l.myValue ≤ limit
  early : l.pc = .announce ∨ l.pc = .wait → l.myValue = 1
  late : l.pc ≠ .announce → l.pc ≠ .wait →
    2 ≤ l.myValue ∧ l.myValue ≤ m.destMemory t.rev + 1
  stopped : l.Stopped → l.hisValue ≤ m.destMemory t.rev ∧ l.myValue ≤ l.hisValue + 1 ∧
    (l.myValue = l.hisValue → limit ≤ l.hisValue)
  recorded : l.pc = .returned → m.oldValues t = l.hisValue

theorem wait_cases {t : Fin n} {l l' : SeqCst} {m m' : Mem n} (hpc : l.pc = .wait)
    (hP : hostFunctionSeqCst t l m = some (l', m')) :
    m' = m ∧ (l' = l ∨
      m.destMemory t.rev ≠ 0 ∧ l' = { l with pc := .store, myValue := l.myValue + 1 }) := by
  simp only [hostFunctionSeqCst, hpc] at hP
  by_cases h0 : m.load t.rev = 0
  · rw [if_pos h0] at hP
    cases hP
    exact ⟨rfl, .inl rfl⟩
  · rw [if_neg h0] at hP
    cases hP
    exact ⟨rfl, .inr ⟨h0, rfl⟩⟩

theorem load_cases {t : Fin n} {l l' : SeqCst} {m m' : Mem n} (hpc : l.pc = .load)
    (hP : hostFunctionSeqCst t l m = some (l', m')) :
    m' = m ∧
      (l.myValue = m.destMemory t.rev ∧ l.myValue < limit ∧
          l' = ⟨.store, l.myValue + 1, m.destMemory t.rev⟩ ∨
        (l.myValue = m.destMemory t.rev → limit ≤ l.myValue) ∧
          l' = ⟨.record, l.myValue, m.destMemory t.rev⟩) := by
  simp only [hostFunctionSeqCst, hpc] at hP
  by_cases hgo : l.myValue = m.load t.rev ∧ m.load t.rev < limit
  · rw [if_pos hgo] at hP
    cases hP
    exact ⟨rfl, .inl ⟨hgo.1, hgo.1.trans_lt hgo.2, rfl⟩⟩
  · rw [if_neg hgo] at hP
    cases hP
    exact ⟨rfl, .inr ⟨fun he => not_lt.mp fun hlt => hgo ⟨he, he.symm.trans_lt hlt⟩, rfl⟩⟩

theorem destMemory_cases {t : Fin n} {l l' : SeqCst} {m m' : Mem n}
    (hP : hostFunctionSeqCst t l m = some (l', m')) :
    m'.destMemory = m.destMemory ∨
      (l.pc = .announce ∨ l.pc = .store) ∧ m' = m.store t l.myValue := by
  cases hpc : l.pc with
  | announce =>
    simp only [hostFunctionSeqCst, hpc] at hP
    cases hP
    exact .inr ⟨.inl rfl, rfl⟩
  | wait => exact .inl (congrArg _ (wait_cases hpc hP).1)
  | store =>
    simp only [hostFunctionSeqCst, hpc] at hP
    cases hP
    exact .inr ⟨.inr rfl, rfl⟩
  | load => exact .inl (congrArg _ (load_cases hpc hP).1)
  | record =>
    simp only [hostFunctionSeqCst, hpc] at hP
    cases hP
    exact .inl rfl
  | returned =>
    simp only [hostFunctionSeqCst, hpc] at hP
    cases hP

theorem destMemory_le {t : Fin n} {l l' : SeqCst} {m m' : Mem n} (h : Paced t l m)
    (hP : hostFunctionSeqCst t l m = some (l', m')) (u : Fin n) :
    m.destMemory u ≤ m'.destMemory u := by
  rcases destMemory_cases hP with he | ⟨hpc, rfl⟩
  · rw [he]
  · by_cases hu : u = t
    · have hcount : l.counter ≤ l.myValue := by
        rcases hpc with hpc | hpc <;> simp only [SeqCst.counter, hpc] <;> omega
      rw [hu, store_destMemory_self, h.counter]
      exact hcount
    · rw [store_destMemory_of_ne hu]

theorem seqCst_frame {t u : Fin n} (hu : u ≠ t) {l l' : SeqCst} {m m' : Mem n}
    (hP : hostFunctionSeqCst t l m = some (l', m')) :
    m'.destMemory u = m.destMemory u ∧ m'.oldValues u = m.oldValues u := by
  have hne : (u : ℕ) ≠ t := fun h => hu (Fin.ext h)
  refine ⟨?_, ?_⟩
  · rcases destMemory_cases hP with he | ⟨_, rfl⟩
    · rw [he]
    · exact store_destMemory_of_ne hu _
  · cases hpc : l.pc with
    | wait => rw [(wait_cases hpc hP).1]
    | load => rw [(load_cases hpc hP).1]
    | announce | store | returned =>
      simp only [hostFunctionSeqCst, hpc] at hP
      cases hP
      try rfl
    | record =>
      simp only [hostFunctionSeqCst, hpc] at hP
      cases hP
      exact setOldValue_oldValues_of_ne hne _

theorem Paced.own {t : Fin n} {l l' : SeqCst} {m m' : Mem n} (h : Paced t l m)
    (hP : hostFunctionSeqCst t l m = some (l', m')) : Paced t l' m' := by
  have hgrow := destMemory_le h hP t.rev
  obtain ⟨pc, my, his⟩ := l
  cases pc with
  | announce =>
    cases hP
    exact ⟨store_destMemory_self _ _ _, h.le_limit, fun _ => h.early (.inl rfl), nofun, nofun,
      nofun⟩
  | wait =>
    have hmy : my = 1 := h.early (.inr rfl)
    have hdest : m.destMemory t = my := h.counter
    obtain ⟨rfl, rfl | ⟨h0, rfl⟩⟩ := wait_cases rfl hP
    · exact h
    · subst hmy
      exact ⟨hdest, two_lt_limit.le, nofun,
        fun _ _ => ⟨le_rfl, Nat.succ_le_succ (Nat.pos_of_ne_zero h0)⟩, nofun, nofun⟩
  | store =>
    cases hP
    have hlate := h.late nofun nofun
    refine ⟨store_destMemory_self _ _ _, h.le_limit, nofun, fun _ _ => ⟨hlate.1, ?_⟩, nofun, nofun⟩
    exact hlate.2.trans (Nat.succ_le_succ hgrow)
  | load =>
    have hlate := h.late nofun nofun
    have hdest : m.destMemory t = my := h.counter
    obtain ⟨rfl, ⟨he, hlt, rfl⟩ | ⟨hstop, rfl⟩⟩ := load_cases rfl hP
    · refine ⟨hdest, hlt, nofun, fun _ _ => ⟨Nat.le_succ_of_le hlate.1, ?_⟩, nofun, nofun⟩
      exact Nat.succ_le_succ he.le
    · exact ⟨hdest, h.le_limit, nofun, fun _ _ => hlate,
        fun _ => ⟨le_rfl, hlate.2, fun he => (hstop he).trans he.le⟩, nofun⟩
  | record =>
    cases hP
    have hlate := h.late nofun nofun
    exact ⟨h.counter, h.le_limit, nofun, fun _ _ => hlate, fun _ => h.stopped (.inl rfl),
      fun _ => setOldValue_oldValues_self _ _ _⟩
  | returned => cases hP

theorem Paced.other {t u : Fin n} (hu : u ≠ t) {l l' k : SeqCst} {m m' : Mem n}
    (h : Paced t l m) (hP : hostFunctionSeqCst t l m = some (l', m')) (hk : Paced u k m) :
    Paced u k m' := by
  obtain ⟨hdest, hold⟩ := seqCst_frame hu hP
  have hgrow := destMemory_le h hP u.rev
  refine ⟨hdest.trans hk.counter, hk.le_limit, hk.early, fun h1 h2 => ?_, fun hs => ?_,
    fun hr => hold.trans (hk.recorded hr)⟩
  · obtain ⟨h3, h4⟩ := hk.late h1 h2
    exact ⟨h3, h4.trans (Nat.succ_le_succ hgrow)⟩
  · obtain ⟨h3, h4, h5⟩ := hk.stopped hs
    exact ⟨h3.trans hgrow, h4, h5⟩

/-- **The counters of a pair stay within one of each other**, in every reachable
state. -/
theorem paced {ok : Conf (Fin n) (Mem n) SeqCst → Fin n → Prop} {c : Conf (Fin n) (Mem n) SeqCst}
    (h : (seqCst n).Reach ok c) (t : Fin n) : Paced t (c.loc t) c.mem := by
  have hinv := threads_invariant (G := fun _ => True) (A := Paced) (fun c hc => ⟨trivial, ?_⟩)
    (fun t l m l' m' _ hA hP => ⟨trivial, hA.own hP⟩)
    (fun t u l m l' m' k hu _ hA hP hk => hA.other hu hP hk) h
  · exact hinv.2 t
  · intro t
    obtain ⟨hm, hloc⟩ := hc
    obtain ⟨hpc, hmy⟩ := hloc t
    refine ⟨?_, ?_, fun _ => hmy, fun hne => absurd hpc hne, fun hs => ?_, fun hr => ?_⟩
    · rw [hm, SeqCst.counter, hpc, hmy]
      rfl
    · rw [hmy]
      decide
    · rcases hs with hs | hs <;> rw [hs] at hpc <;> cases hpc
    · rw [hr] at hpc
      cases hpc

theorem Paced.counter_of_stopped {t : Fin n} {l : SeqCst} {m : Mem n} (h : Paced t l m)
    (hs : l.Stopped) : m.destMemory t = l.myValue := by
  rw [h.counter]
  rcases hs with hs | hs <;> rw [SeqCst.counter, hs]

theorem stopped_cases {t : Fin n} {l l' : SeqCst} {m m' : Mem n} (hs : l.Stopped)
    (hP : hostFunctionSeqCst t l m = some (l', m')) :
    l'.Stopped ∧ l'.myValue = l.myValue ∧ l'.hisValue = l.hisValue := by
  rcases hs with hs | hs
  · simp only [hostFunctionSeqCst, hs] at hP
    cases hP
    exact ⟨.inr rfl, rfl, rfl⟩
  · simp only [hostFunctionSeqCst, hs] at hP
    cases hP

/-! ### The pair at the limit -/

/-- Thread `t` is about to look at its partner, which is about to store the limit
as `t` has done already. -/
def AtLimit (c : Conf (Fin n) (Mem n) SeqCst) (t : Fin n) : Prop :=
  (c.loc t).pc = .load ∧ (c.loc t).myValue = limit ∧
    (c.loc t.rev).pc = .store ∧ (c.loc t.rev).myValue = limit

instance (c : Conf (Fin n) (Mem n) SeqCst) (t : Fin n) : Decidable (AtLimit c t) :=
  inferInstanceAs (Decidable (_ ∧ _))

/-- No thread looks at its partner at such a moment. -/
abbrev orderly (c : Conf (Fin n) (Mem n) SeqCst) (t : Fin n) : Prop := ¬ AtLimit c t

/-- Thread `t` has stopped because its partner was behind. -/
def StoppedAhead (l : SeqCst) : Prop := l.Stopped ∧ l.hisValue < l.myValue

/-- If a thread has stopped because its partner was behind, then the partner does
not stop with the same value. -/
def Apart (l k : SeqCst) : Prop :=
  StoppedAhead l → k.myValue = l.myValue → ¬ k.Stopped ∧ l.myValue < limit

/-- A thread that has just stopped is the one that just looked at its partner. -/
theorem stop_cases {t : Fin n} {l l' : SeqCst} {m m' : Mem n} (hs : ¬ l.Stopped)
    (hs' : l'.Stopped) (hP : hostFunctionSeqCst t l m = some (l', m')) :
    l.pc = .load ∧ l'.myValue = l.myValue ∧ l'.hisValue = m.destMemory t.rev := by
  cases hpc : l.pc with
  | record => exact absurd (.inl hpc) hs
  | returned => exact absurd (.inr hpc) hs
  | announce | store =>
    simp only [hostFunctionSeqCst, hpc] at hP
    cases hP
    exact absurd hs' (not_stopped nofun nofun)
  | wait =>
    obtain ⟨_, rfl | ⟨_, rfl⟩⟩ := wait_cases hpc hP
    · exact absurd hs' hs
    · exact absurd hs' (not_stopped nofun nofun)
  | load =>
    obtain ⟨_, ⟨_, _, rfl⟩ | ⟨_, rfl⟩⟩ := load_cases hpc hP
    · exact absurd hs' (not_stopped nofun nofun)
    · exact ⟨rfl, rfl, rfl⟩

theorem Apart.of_stop {t : Fin n} {l l' k : SeqCst} {m m' : Mem n} (h : Apart l k)
    (hok : ¬ (l.pc = .load ∧ l.myValue = limit ∧ k.pc = .store ∧ k.myValue = limit))
    (hl : Paced t l m) (hk : Paced t.rev k m)
    (hP : hostFunctionSeqCst t l m = some (l', m')) : Apart l' k := by
  rintro ⟨hstop, hlt⟩ he
  by_cases hs : l.Stopped
  · obtain ⟨_, hmy, hhis⟩ := stopped_cases hs hP
    rw [hmy]
    exact h ⟨hs, by omega⟩ (he.trans hmy)
  · obtain ⟨hpc, hmy, hhis⟩ := stop_cases hs hstop hP
    have hbehind : k.counter < k.myValue := by
      rw [← hk.counter, he, ← hhis]
      exact hlt
    refine ⟨fun hks => ?_, lt_of_le_of_ne (hmy ▸ hl.le_limit) fun hlim => ?_⟩
    · rw [← hk.counter, hk.counter_of_stopped hks] at hbehind
      exact lt_irrefl _ hbehind
    · cases hkpc : k.pc with
      | store => exact hok ⟨hpc, hmy ▸ hlim, hkpc, he.trans hlim⟩
      | announce =>
        have h1 := hk.early (.inl hkpc)
        have h2 := two_lt_limit
        omega
      | wait | load | record | returned =>
        simp only [SeqCst.counter, hkpc] at hbehind
        exact lt_irrefl _ hbehind

theorem Apart.of_self {t : Fin n} {l l' : SeqCst} {m m' : Mem n} (h : Apart l l)
    (hrev : t.rev = t) (hl : Paced t l m)
    (hP : hostFunctionSeqCst t l m = some (l', m')) : Apart l' l' := by
  rintro ⟨hstop, hlt⟩ _
  by_cases hs : l.Stopped
  · obtain ⟨_, hmy, hhis⟩ := stopped_cases hs hP
    exact absurd hs (h ⟨hs, by omega⟩ rfl).1
  · obtain ⟨hpc, hmy, hhis⟩ := stop_cases hs hstop hP
    have hown : m.destMemory t = l.myValue := by rw [hl.counter, SeqCst.counter, hpc]
    rw [hrev, hown] at hhis
    omega

theorem Apart.of_partner {t : Fin n} {l k k' : SeqCst} {m m' : Mem n} (h : Apart l k)
    (hl : Paced t l m) (hk : Paced t.rev k m)
    (hP : hostFunctionSeqCst t.rev k m = some (k', m')) : Apart l k' := by
  rintro ⟨hs, hlt⟩ he
  have hdest : m.destMemory t.rev.rev = l.myValue := by
    rw [Fin.rev_rev]
    exact hl.counter_of_stopped hs
  cases hpc : k.pc with
  | announce =>
    simp only [hostFunctionSeqCst, hpc] at hP
    cases hP
    exact ⟨not_stopped nofun nofun, (h ⟨hs, hlt⟩ he).2⟩
  | wait =>
    obtain ⟨_, rfl | ⟨_, rfl⟩⟩ := wait_cases hpc hP
    · exact h ⟨hs, hlt⟩ he
    · have h1 := hk.early (.inr hpc)
      have h2 := two_lt_limit
      refine ⟨not_stopped nofun nofun, ?_⟩
      simp only at he
      omega
  | store =>
    simp only [hostFunctionSeqCst, hpc] at hP
    cases hP
    exact ⟨not_stopped nofun nofun, (h ⟨hs, hlt⟩ he).2⟩
  | load =>
    obtain ⟨_, ⟨he', _, rfl⟩ | ⟨hstop, rfl⟩⟩ := load_cases hpc hP
    · simp only at he
      omega
    · have h1 := (h ⟨hs, hlt⟩ he).2
      have h2 := hstop (he.trans hdest.symm)
      simp only at he
      omega
  | record => exact absurd (.inl hpc) (h ⟨hs, hlt⟩ ((stopped_cases (.inl hpc) hP).2.1 ▸ he)).1
  | returned =>
    simp only [hostFunctionSeqCst, hpc] at hP
    cases hP

/-- **A thread that stopped ahead of its partner is not caught up with**, as long as
no thread looks at its partner when both are about to be at the limit. -/
theorem apart {c : Conf (Fin n) (Mem n) SeqCst} (h : (seqCst n).Reach orderly c) (t : Fin n) :
    Apart (c.loc t) (c.loc t.rev) := by
  refine h.invariant_of (J := fun c => ∀ t, Paced t (c.loc t) c.mem)
    (I := fun c => ∀ t, Apart (c.loc t) (c.loc t.rev)) (fun c hc t => paced hc t) ?_ ?_ t
  · rintro c ⟨_, hloc⟩ t ⟨hs, _⟩
    rcases hs with hs | hs <;> rw [(hloc t).1] at hs <;> cases hs
  · rintro c u c' hp hA hok hn t
    obtain ⟨l', m', hP, rfl⟩ := threads_next.mp hn
    by_cases htu : t = u
    · subst htu
      by_cases hself : t.rev = t
      · have hA' := hA t
        rw [hself] at hA'
        simp only [hself, Function.update_self]
        exact hA'.of_self hself (hp t) hP
      · simp only [Function.update_self, Function.update_of_ne hself]
        exact (hA t).of_stop hok (hp t) (hp _) hP
    · simp only [Function.update_of_ne htu]
      by_cases hrev : t.rev = u
      · subst hrev
        rw [Function.update_self]
        exact (hA t).of_partner (hp t) (hp _) hP
      · rw [Function.update_of_ne hrev]
        exact hA t

/-! ### What the verifier says -/

/-- All threads have returned. -/
def Finished (c : Conf (Fin n) (Mem n) SeqCst) : Prop := ∀ t, (c.loc t).pc = .returned

instance (c : Conf (Fin n) (Mem n) SeqCst) : Decidable (Finished c) :=
  inferInstanceAs (Decidable (∀ _, _))

/-- `VerifyRefs` on the shared variables as they are. -/
def accepts (memoryOrder : MemoryOrder) (m : Mem n) : Bool :=
  verifyRefs memoryOrder m.oldValues m.destMemory

theorem verifyThread_of_apart {t : Fin n} {l k : SeqCst} {m : Mem n} (hl : Paced t l m)
    (hk : Paced t.rev k m) (hlr : l.pc = .returned) (hkr : k.pc = .returned) (h : Apart l k) :
    verifyThread .seqCst m.oldValues m.destMemory t = true := by
  obtain ⟨h1, h2, h3⟩ := hl.stopped (.inr hlr)
  obtain ⟨h4, h5, _⟩ := hk.stopped (.inr hkr)
  rw [Fin.rev_rev, hl.counter_of_stopped (.inr hlr)] at h4
  rw [hk.counter_of_stopped (.inr hkr)] at h1
  have hne : l.hisValue < l.myValue → k.myValue ≠ l.myValue :=
    fun hlt he => (h ⟨.inr hlr, hlt⟩ he).1 (.inr hkr)
  simp only [verifyThread, if_pos, hl.counter_of_stopped (.inr hlr), hl.recorded hlr,
    hk.counter_of_stopped (.inr hkr), hk.recorded hkr]
  by_cases hdraw : l.myValue = l.hisValue
  · have hlim : l.myValue = limit := le_antisymm hl.le_limit (hdraw ▸ h3 hdraw)
    rw [if_pos hdraw]
    exact decide_eq_true hlim
  · have hab : l.myValue ≠ k.myValue := fun he => hne (by omega) he.symm
    rw [if_neg hdraw, if_neg hab]
    by_cases hgt : l.myValue > k.myValue
    · rw [if_pos hgt]
      exact decide_eq_true (by omega)
    · rw [if_neg hgt]
      exact decide_eq_true (by omega)

/-- **`VerifyRefs` accepts** what a run leaves in which no thread looks at its
partner when both are about to be at the limit. -/
theorem accepts_of_orderly {c : Conf (Fin n) (Mem n) SeqCst} (h : (seqCst n).Reach orderly c)
    (hfin : Finished c) : accepts .seqCst c.mem = true := by
  rw [accepts, verifyRefs_eq_true]
  intro t
  exact verifyThread_of_apart (paced h t) (paced h t.rev) (hfin t) (hfin t.rev) (apart h t)

/-- Thread `t` has stopped ahead of its partner at the limit, and its partner will
stop there too. -/
structure Doomed (l k : SeqCst) : Prop where
  ahead : StoppedAhead l
  my : l.myValue = limit
  his : k.myValue = limit
  late : k.pc ≠ .announce ∧ k.pc ≠ .wait

/-- The step that `orderly` excludes. -/
theorem Doomed.of_atLimit {t : Fin n} {l l' k : SeqCst} {m m' : Mem n}
    (hat : l.pc = .load ∧ l.myValue = limit ∧ k.pc = .store ∧ k.myValue = limit)
    (hk : Paced t.rev k m) (hP : hostFunctionSeqCst t l m = some (l', m')) : Doomed l' k := by
  obtain ⟨hpc, hmy, hkpc, hhis⟩ := hat
  have hcount : m.destMemory t.rev = limit - 1 := by
    rw [hk.counter, SeqCst.counter, hkpc, hhis]
  have hpos := two_lt_limit
  obtain ⟨_, ⟨he, _⟩ | ⟨_, rfl⟩⟩ := load_cases hpc hP
  · omega
  · refine ⟨⟨.inl rfl, ?_⟩, hmy, hhis, by rw [hkpc]; exact ⟨nofun, nofun⟩⟩
    simp only
    omega

theorem Doomed.of_stop {t : Fin n} {l l' k : SeqCst} {m m' : Mem n} (h : Doomed l k)
    (hP : hostFunctionSeqCst t l m = some (l', m')) : Doomed l' k := by
  obtain ⟨hs, hmy, hhis⟩ := stopped_cases h.ahead.1 hP
  have hlt := h.ahead.2
  exact ⟨⟨hs, by omega⟩, hmy.trans h.my, h.his, h.late⟩

theorem Doomed.of_partner {t : Fin n} {l k k' : SeqCst} {m m' : Mem n} (h : Doomed l k)
    (hl : Paced t l m) (hP : hostFunctionSeqCst t.rev k m = some (k', m')) : Doomed l k' := by
  have hdest : m.destMemory t.rev.rev = l.myValue := by
    rw [Fin.rev_rev]
    exact hl.counter_of_stopped h.ahead.1
  have hmy := h.my
  have hhis := h.his
  suffices hk : k'.myValue = limit ∧ k'.pc ≠ .announce ∧ k'.pc ≠ .wait from
    ⟨h.ahead, hmy, hk.1, hk.2⟩
  cases hpc : k.pc with
  | announce => exact absurd hpc h.late.1
  | wait => exact absurd hpc h.late.2
  | load =>
    obtain ⟨_, ⟨_, hlt, _⟩ | ⟨_, rfl⟩⟩ := load_cases hpc hP
    · omega
    · exact ⟨hhis, nofun, nofun⟩
  | store | record | returned =>
    simp only [hostFunctionSeqCst, hpc] at hP
    cases hP
    try exact ⟨hhis, nofun, nofun⟩

theorem doomed_step {c c' : Conf (Fin n) (Mem n) SeqCst} {u : Fin n}
    (hp : ∀ t, Paced t (c.loc t) c.mem) (hn : (seqCst n).next c u = some c') {t : Fin n}
    (hne : t.rev ≠ t) (h : Doomed (c.loc t) (c.loc t.rev)) :
    Doomed (c'.loc t) (c'.loc t.rev) := by
  obtain ⟨l', m', hP, rfl⟩ := threads_next.mp hn
  by_cases htu : t = u
  · subst htu
    simp only [Function.update_self, Function.update_of_ne hne]
    exact h.of_stop hP
  · by_cases hrev : t.rev = u
    · subst hrev
      simp only [Function.update_self, Function.update_of_ne htu]
      exact h.of_partner (hp t) hP
    · simp only [Function.update_of_ne htu, Function.update_of_ne hrev]
      exact h

/-- A pair that ends with the same value, one of them ahead, is rejected. -/
theorem not_accepts_of_doomed {t : Fin n} {c : Conf (Fin n) (Mem n) SeqCst}
    (hp : ∀ t, Paced t (c.loc t) c.mem) (hfin : Finished c)
    (h : Doomed (c.loc t) (c.loc t.rev)) : accepts .seqCst c.mem = false := by
  have hrej : verifyThread .seqCst c.mem.oldValues c.mem.destMemory t = false := by
    have hlt := h.ahead.2
    have hmy := (hp t).counter_of_stopped (.inr (hfin t))
    have hhis := (hp t.rev).counter_of_stopped (.inr (hfin t.rev))
    have he : (c.loc t).myValue = (c.loc t.rev).myValue := h.my.trans h.his.symm
    simp only [verifyThread, if_pos, hmy, hhis, (hp t).recorded (hfin t)]
    rw [if_neg (by omega), if_pos he]
  rw [Bool.eq_false_iff, accepts, Ne, verifyRefs_eq_true]
  intro hall
  rw [hall t] at hrej
  cases hrej

/-- **`VerifyRefs` rejects** what a run leaves in which some thread looks at its
partner when both are about to be at the limit. -/
theorem not_accepts_of_atLimit {c c' d : Conf (Fin n) (Mem n) SeqCst} {t : Fin n}
    (h : (seqCst n).Reach System.anyStep c) (hat : AtLimit c t)
    (hn : (seqCst n).next c t = some c') (hp : (seqCst n).Path System.anyStep c' d)
    (hfin : Finished d) : accepts .seqCst d.mem = false := by
  have hne : t.rev ≠ t := by
    intro he
    have h1 := hat.1
    have h2 := hat.2.2.1
    rw [he, h1] at h2
    cases h2
  have hc' : (seqCst n).Reach System.anyStep c' := .step t h trivial hn
  have hdoom : Doomed (c'.loc t) (c'.loc t.rev) := by
    obtain ⟨l', m', hP, rfl⟩ := threads_next.mp hn
    simp only [Function.update_self, Function.update_of_ne hne]
    exact .of_atLimit hat (paced h _) hP
  have hinv := hp.invariant
    (I := fun c => (seqCst n).Reach System.anyStep c ∧ Doomed (c.loc t) (c.loc t.rev))
    (fun s e s' hs _ hn => ⟨.step e hs.1 trivial hn, doomed_step (paced hs.1) hn hne hs.2⟩)
    ⟨hc', hdoom⟩
  exact not_accepts_of_doomed (paced hinv.1) hfin hinv.2

/-- **When the verifier accepts a run**: exactly if no step of it is one of a thread
that looks at its partner when both are about to be at the limit. -/
theorem accepts_iff_orderly {c d : Conf (Fin n) (Mem n) SeqCst}
    {l : List (Conf (Fin n) (Mem n) SeqCst × Fin n)} (h0 : SeqCstStart c)
    (h : (seqCst n).Trace c l d) (hfin : Finished d) :
    accepts .seqCst d.mem = true ↔ ∀ p ∈ l, orderly p.1 p.2 := by
  constructor
  · intro hacc
    by_contra hl
    obtain ⟨a, t, a', hr, hno, hna, hp⟩ := h.exists_first_not (.start h0) hl
    rw [not_accepts_of_atLimit hr (not_not.mp hno) hna hp hfin] at hacc
    cases hacc
  · intro hl
    exact accepts_of_orderly (h.reach (.start h0) hl) hfin

/-! ### A pair in lockstep -/

/-- Two threads that are both about to store `v`. -/
def lockstep (v : ℕ) : Conf (Fin 2) (Mem 2) SeqCst :=
  ⟨⟨fun _ => v - 1, fun _ => 0⟩, fun _ => ⟨.store, v, v - 1⟩⟩

theorem update_pair {α : Type*} (f : Fin 2 → α) (a : α) :
    Function.update (Function.update f 0 a) 1 a = fun _ => a :=
  funext (Fin.forall_fin_two.mpr ⟨rfl, rfl⟩)

theorem lockstep_next {v : ℕ} (hlt : v < limit) :
    (seqCst 2).run System.anyStep (lockstep v) [0, 1, 0, 1] = some (lockstep (v + 1)) := by
  have hrev0 : Fin.rev (0 : Fin 2) = 1 := by decide
  have hrev1 : Fin.rev (1 : Fin 2) = 0 := by decide
  simp [System.run, threads, hostFunctionSeqCst, lockstep, Mem.store, Mem.load, hrev0, hrev1, hlt,
    update_pair, -Fin.isValue]

/-- Two threads before their first step. -/
def pairStart : Conf (Fin 2) (Mem 2) SeqCst := ⟨Mem.start 2, fun _ => ⟨.announce, 1, 1⟩⟩

theorem pairStart_run :
    (seqCst 2).run System.anyStep pairStart [0, 1, 0, 1] = some (lockstep 2) := by
  have hrev0 : Fin.rev (0 : Fin 2) = 1 := by decide
  have hrev1 : Fin.rev (1 : Fin 2) = 0 := by decide
  simp [System.run, threads, hostFunctionSeqCst, lockstep, pairStart, Mem.start, Mem.store,
    Mem.load, hrev0, hrev1, update_pair, -Fin.isValue]

theorem lockstep_reach {v : ℕ} (h2 : 2 ≤ v) (hle : v ≤ limit) :
    (seqCst 2).Reach System.anyStep (lockstep v) := by
  induction v, h2 using Nat.le_induction with
  | base =>
    have hstart : (seqCst 2).Reach System.anyStep pairStart := .start ⟨rfl, fun _ => ⟨rfl, rfl⟩⟩
    exact hstart.of_run pairStart_run
  | succ v hv ih => exact (ih (by omega)).of_run (lockstep_next (by omega))

/-- **A correct fence can be reported as broken.**  Two threads run in lockstep up
to the limit; there one of them stores and looks at the other before it stores. -/
theorem not_accepts_lockstep :
    ∃ c, (seqCst 2).Reach System.anyStep c ∧ Finished c ∧ accepts .seqCst c.mem = false :=
  (lockstep_reach two_lt_limit.le le_rfl).exists_run _ [0, 0, 1, 1, 0, 1] (by decide)

end OpenCLCTS.C11Atomics.Fence
