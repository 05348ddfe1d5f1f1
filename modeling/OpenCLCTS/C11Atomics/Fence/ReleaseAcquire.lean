import OpenCLCTS.C11Atomics.Fence.SeqCst

/-!
# The release-acquire fence test

A thread stores the entry before it raises its counter, so whoever reads the
counter finds the entry written.  No thread ever fails, each of them counts up to
the last of its entries, and `VerifyRefs` accepts.
-/

namespace OpenCLCTS.C11Atomics.Fence

open Interleaving

variable {n : ℕ} {o : MemoryOrder}

theorem numNonAtomic_eq (ho : o ≠ .seqCst) : numNonAtomicVariablesPerThread o = 256 := if_neg ho

/-- The slice of `oldValues` that belongs to thread `t`. -/
def InSlice (o : MemoryOrder) (t : Fin n) (i : ℕ) : Prop :=
  t * numNonAtomicVariablesPerThread o ≤ i ∧ i < (t + 1) * numNonAtomicVariablesPerThread o

theorem index_inSlice {v : ℕ} (t : Fin n) (hv : v < numNonAtomicVariablesPerThread o) :
    InSlice o t (index o t v) := by
  refine ⟨Nat.le_add_right _ _, ?_⟩
  rw [index, Nat.succ_mul]
  exact Nat.add_lt_add_left hv _

theorem index_injective {t u : Fin n} {v w : ℕ} (hv : v < numNonAtomicVariablesPerThread o)
    (hw : w < numNonAtomicVariablesPerThread o) (h : index o t v = index o u w) :
    t = u ∧ v = w := by
  have hpos : 0 < numNonAtomicVariablesPerThread o := Nat.zero_lt_of_lt hv
  have hdiv := congrArg (· / numNonAtomicVariablesPerThread o) h
  have hmod := congrArg (· % numNonAtomicVariablesPerThread o) h
  simp only [index, Nat.mul_comm _ (numNonAtomicVariablesPerThread o), Nat.mul_add_div hpos,
    Nat.mul_add_mod, Nat.div_eq_of_lt hv, Nat.div_eq_of_lt hw, Nat.mod_eq_of_lt hv,
    Nat.mod_eq_of_lt hw, Nat.add_zero] at hdiv hmod
  exact ⟨Fin.ext hdiv, hmod⟩

/-- Every counter stands for written entries. -/
structure Published (o : MemoryOrder) (m : Mem n) : Prop where
  lt : ∀ t, m.destMemory t < numNonAtomicVariablesPerThread o
  entry : ∀ t k, k ≤ m.destMemory t → m.oldValues (index o t k) = k

/-- The value of a thread's own counter. -/
def RelAcq.counter (l : RelAcq n) : ℕ :=
  match l.pc with
  | .storeNonAtomic | .storeAtomic => l.myValue - 1
  | _ => l.myValue

/-- What a thread knows at each of its steps. -/
structure Publishing (o : MemoryOrder) (t : Fin n) (l : RelAcq n) (m : Mem n) : Prop where
  counter : m.destMemory t = l.counter
  pos : 1 ≤ l.myValue
  lt : l.myValue < numNonAtomicVariablesPerThread o
  stored : l.pc = .storeAtomic → m.oldValues (index o t l.myValue) = l.myValue
  seen : l.pc = .loadNonAtomic → l.hisAtomicValue ≤ m.destMemory l.hisId
  not_fail : l.pc ≠ .fail
  agreed : l.pc = .storeNonAtomic ∧ 1 < l.myValue ∨ l.pc = .returned →
    l.hisAtomicValue = l.hisValue
  last : l.pc = .returned → l.myValue = numNonAtomicVariablesPerThread o - 1

theorem Publishing.entry {t : Fin n} {l : RelAcq n} {m : Mem n} (hG : Published o m)
    (h : Publishing o t l m) (hpc : l.pc = .loadNonAtomic) :
    m.oldValues (index o l.hisId l.hisAtomicValue) = l.hisAtomicValue :=
  hG.entry _ _ (h.seen hpc)

theorem loadNonAtomic_cases {t : Fin n} {l l' : RelAcq n} {m m' : Mem n} (hG : Published o m)
    (h : Publishing o t l m) (hpc : l.pc = .loadNonAtomic)
    (hP : hostFunctionRelAcq o t l m = some (l', m')) :
    m' = m ∧
      (l.myValue < numNonAtomicVariablesPerThread o - 1 ∧
          l' = ⟨.storeNonAtomic, nextId l.hisId, l.myValue + 1, l.hisAtomicValue,
            l.hisAtomicValue⟩ ∨
        l.myValue = numNonAtomicVariablesPerThread o - 1 ∧
          l' = ⟨.returned, nextId l.hisId, l.myValue, l.hisAtomicValue, l.hisAtomicValue⟩) := by
  have hlt := h.lt
  simp only [hostFunctionRelAcq, hpc, h.entry hG hpc, true_and, ne_eq, not_true_eq_false,
    if_false] at hP
  by_cases hgo : l.myValue < numNonAtomicVariablesPerThread o - 1
  · rw [if_pos hgo] at hP
    cases hP
    exact ⟨rfl, .inl ⟨hgo, rfl⟩⟩
  · rw [if_neg hgo] at hP
    cases hP
    exact ⟨rfl, .inr ⟨by omega, rfl⟩⟩

theorem Publishing.own {t : Fin n} {l l' : RelAcq n} {m m' : Mem n} (hG : Published o m)
    (h : Publishing o t l m) (hP : hostFunctionRelAcq o t l m = some (l', m')) :
    Published o m' ∧ Publishing o t l' m' := by
  obtain ⟨pc, hisId, my, hisAtomic, his⟩ := l
  have hpos : 1 ≤ my := h.pos
  have hlt : my < numNonAtomicVariablesPerThread o := h.lt
  cases pc with
  | storeNonAtomic =>
    cases hP
    have hdest : m.destMemory t = my - 1 := h.counter
    refine ⟨⟨hG.lt, fun u k hk => ?_⟩, hdest, hpos, hlt,
      fun _ => setOldValue_oldValues_self _ _ _, nofun, nofun, by rintro (⟨⟨⟩, _⟩ | ⟨⟨⟩⟩), nofun⟩
    have hne : index o u k ≠ index o t my := by
      intro he
      obtain ⟨rfl, rfl⟩ := index_injective (lt_of_le_of_lt hk (hG.lt u)) hlt he
      rw [setOldValue_destMemory, hdest] at hk
      omega
    exact (setOldValue_oldValues_of_ne hne _).trans (hG.entry u k hk)
  | storeAtomic =>
    cases hP
    have hdest : m.destMemory t = my - 1 := h.counter
    refine ⟨⟨fun u => ?_, fun u k hk => ?_⟩, store_destMemory_self _ _ _, hpos, hlt, nofun, nofun,
      nofun, by rintro (⟨⟨⟩, _⟩ | ⟨⟨⟩⟩), nofun⟩
    · by_cases hu : u = t
      · rw [hu, store_destMemory_self]
        exact hlt
      · rw [store_destMemory_of_ne hu]
        exact hG.lt u
    · by_cases hu : u = t
      · subst hu
        rw [store_destMemory_self] at hk
        rcases Nat.lt_or_eq_of_le hk with hk | rfl
        · exact hG.entry u k (hdest ▸ Nat.le_pred_of_lt hk)
        · exact h.stored rfl
      · rw [store_destMemory_of_ne hu] at hk
        exact hG.entry u k hk
  | loadAtomic =>
    cases hP
    exact ⟨hG, h.counter, hpos, hlt, nofun, fun _ => le_rfl, nofun,
      by rintro (⟨⟨⟩, _⟩ | ⟨⟨⟩⟩), nofun⟩
  | loadNonAtomic =>
    have hdest : m.destMemory t = my := h.counter
    obtain ⟨rfl, ⟨hgo, rfl⟩ | ⟨hend, rfl⟩⟩ := loadNonAtomic_cases hG h rfl hP
    · exact ⟨hG, hdest, by simp only; omega, by simp only at hgo ⊢; omega, nofun, nofun, nofun,
        fun _ => rfl, nofun⟩
    · exact ⟨hG, hdest, hpos, hlt, nofun, nofun, nofun, fun _ => rfl, fun _ => hend⟩
  | fail => exact absurd rfl h.not_fail
  | returned => cases hP

theorem Publishing.other {t u : Fin n} (hu : u ≠ t) {l l' k : RelAcq n} {m m' : Mem n}
    (hG : Published o m) (h : Publishing o t l m)
    (hP : hostFunctionRelAcq o t l m = some (l', m')) (hk : Publishing o u k m) :
    Publishing o u k m' := by
  obtain ⟨pc, hisId, my, hisAtomic, his⟩ := l
  cases pc with
  | storeNonAtomic =>
    cases hP
    have hne : index o u k.myValue ≠ index o t my :=
      fun he => hu (index_injective hk.lt h.lt he).1
    exact ⟨hk.counter, hk.pos, hk.lt,
      fun hpc => (setOldValue_oldValues_of_ne hne _).trans (hk.stored hpc), hk.seen, hk.not_fail,
      hk.agreed, hk.last⟩
  | storeAtomic =>
    cases hP
    refine ⟨(store_destMemory_of_ne hu _).trans hk.counter, hk.pos, hk.lt, hk.stored,
      fun hpc => ?_, hk.not_fail, hk.agreed, hk.last⟩
    have hseen := hk.seen hpc
    by_cases hid : k.hisId = t
    · have hdest : m.destMemory t = my - 1 := h.counter
      rw [hid, hdest] at hseen
      rw [hid, store_destMemory_self]
      simp only
      omega
    · rw [store_destMemory_of_ne hid]
      exact hseen
  | loadAtomic =>
    cases hP
    exact hk
  | loadNonAtomic =>
    obtain ⟨rfl, _⟩ := loadNonAtomic_cases hG h rfl hP
    exact hk
  | fail => exact absurd rfl h.not_fail
  | returned => cases hP

/-- **Every counter stands for written entries**, in every reachable state. -/
theorem publishing (ho : o ≠ .seqCst) {c : Conf (Fin n) (Mem n) (RelAcq n)}
    (h : (relAcq o n).Reach System.anyStep c) :
    Published o c.mem ∧ ∀ t, Publishing o t (c.loc t) c.mem := by
  refine threads_invariant (fun c hc => ?_) (fun t l m l' m' hG hA hP => hA.own hG hP)
    (fun t u l m l' m' k hu hG hA hP hk => hA.other hu hG hP hk) h
  obtain ⟨hm, hloc⟩ := hc
  rw [hm]
  have hN := numNonAtomic_eq ho
  refine ⟨⟨fun t => ?_, fun t k hk => ?_⟩, fun t => ?_⟩
  · rw [hN]
    exact Nat.zero_lt_succ _
  · exact (Nat.le_zero.mp hk).symm
  · obtain ⟨hpc, hmy, _⟩ := hloc t
    refine ⟨?_, hmy.ge, ?_, ?_, ?_, ?_, ?_, ?_⟩
    · rw [RelAcq.counter, hpc, hmy]
      rfl
    · rw [hmy, hN]
      decide
    · rw [hpc]
      exact nofun
    · rw [hpc]
      exact nofun
    · rw [hpc]
      exact nofun
    · rw [hpc, hmy]
      rintro (⟨_, h1⟩ | h1)
      · exact absurd h1 (lt_irrefl _)
      · cases h1
    · rw [hpc]
      exact nofun

/-! ### The test as a whole -/

/-- What holds of the test with a memory order that is not sequentially
consistent. -/
structure RelAcqOk (o : MemoryOrder) (c : Conf (Fin n) (Mem n) (RelAcq n)) : Prop where
  /-- the entry a thread writes is its own -/
  write_inSlice : ∀ t, (c.loc t).pc = .storeNonAtomic →
    InSlice o t (index o t (c.loc t).myValue)
  /-- the entry it reads belongs to the thread it looks at -/
  read_inSlice : ∀ t, (c.loc t).pc = .loadNonAtomic →
    InSlice o (c.loc t).hisId (index o (c.loc t).hisId (c.loc t).hisAtomicValue)
  /-- the value it reads there is the value of the counter -/
  agree : ∀ t, (c.loc t).pc = .loadNonAtomic →
    c.mem.oldValues (index o (c.loc t).hisId (c.loc t).hisAtomicValue) = (c.loc t).hisAtomicValue
  not_fail : ∀ t, (c.loc t).pc ≠ .fail
  /-- at the end -/
  final : (∀ t, (c.loc t).pc = .returned) →
    (∀ t, (c.loc t).hisAtomicValue = (c.loc t).hisValue ∧
      c.mem.destMemory t = numNonAtomicVariablesPerThread o - 1) ∧
    accepts o c.mem = true

theorem relAcqOk (ho : o ≠ .seqCst) {c : Conf (Fin n) (Mem n) (RelAcq n)}
    (h : (relAcq o n).Reach System.anyStep c) : RelAcqOk o c := by
  obtain ⟨hG, hA⟩ := publishing ho h
  refine ⟨fun t _ => index_inSlice t (hA t).lt, fun t hpc => ?_, fun t hpc => (hA t).entry hG hpc,
    fun t => (hA t).not_fail, fun hfin => ?_⟩
  · exact index_inSlice _ (lt_of_le_of_lt ((hA t).seen hpc) (hG.lt _))
  · have hdest : ∀ t, c.mem.destMemory t = numNonAtomicVariablesPerThread o - 1 := by
      intro t
      rw [(hA t).counter, RelAcq.counter, hfin t]
      exact (hA t).last (hfin t)
    refine ⟨fun t => ⟨(hA t).agreed (.inr (hfin t)), hdest t⟩, ?_⟩
    rw [accepts, verifyRefs_eq_true]
    intro t
    rw [verifyThread, if_neg ho]
    exact decide_eq_true (hdest t)

/-- **The fence test and its verifier.**  A complete run with sequentially
consistent fences is accepted exactly if no thread looks at its partner when both
are about to be at the limit; with the other memory orders every run is as it
should be and every complete run is accepted. -/
theorem fence_accepts_iff (n : ℕ) :
    (∀ (c d : Conf (Fin n) (Mem n) SeqCst) (l : List (Conf (Fin n) (Mem n) SeqCst × Fin n)),
      SeqCstStart c → (seqCst n).Trace c l d → Finished d →
        (accepts .seqCst d.mem = true ↔ ∀ p ∈ l, orderly p.1 p.2)) ∧
    ∀ (o : MemoryOrder) (c : Conf (Fin n) (Mem n) (RelAcq n)), o ≠ .seqCst →
      (relAcq o n).Reach System.anyStep c → RelAcqOk o c :=
  ⟨fun _ _ _ h0 h hfin => accepts_iff_orderly h0 h hfin, fun _ _ ho h => relAcqOk ho h⟩

/-- A run in which the second thread is one ahead of the first at the end. -/
theorem fence_accepts_pair :
    ∃ (d : Conf (Fin 2) (Mem 2) SeqCst) (l : List (Conf (Fin 2) (Mem 2) SeqCst × Fin 2)),
      (seqCst 2).Trace pairStart l d ∧ Finished d ∧ accepts .seqCst d.mem = true := by
  have hrun : ((seqCst 2).run orderly pairStart [0, 1, 0, 1, 0, 0, 1, 1, 1, 1, 0, 1]).any
      (fun d => decide (Finished d)) = true := by decide
  cases hd : (seqCst 2).run orderly pairStart [0, 1, 0, 1, 0, 0, 1, 1, 1, 1, 0, 1] with
  | none => rw [hd] at hrun; cases hrun
  | some d =>
    rw [hd, Option.any_some] at hrun
    have hfin : Finished d := of_decide_eq_true hrun
    obtain ⟨l, ht, hl⟩ := (System.Trace.nil pairStart).of_run (fun _ h => nomatch h) hd
    exact ⟨d, l, ht, hfin, ((fence_accepts_iff 2).1 _ _ l ⟨rfl, fun _ => ⟨rfl, rfl⟩⟩ ht hfin).mpr hl⟩

end OpenCLCTS.C11Atomics.Fence
