import Mathlib.Data.Fintype.Basic
import Mathlib.Data.List.FinRange
import OpenCLCTS.C11Atomics.HostAtomics
import OpenCLCTS.Lib.Distinct
import OpenCLCTS.Lib.Threads

/-!
# The exchange and compare-exchange tests

`CBasicTestExchange` and `CBasicTestCompareStrong`: `n` threads, each of which puts
its number into one shared variable and takes out what it finds there.  Whatever a
thread has taken out it holds, in a local variable first and then in its entry of
`oldValues`; no value is lost or doubled, so at the end `VerifyRefs` finds the
numbers of all threads and the start value.

The steps are those of the source: the builtin, and the store of its result.
-/

namespace OpenCLCTS.C11Atomics.Exchange

open Interleaving

/-- `StartValue` of both tests. -/
def startValue : ℕ := 123456

/-- The shared variable and the entries of the threads. -/
structure Mem (α : Type*) (n : ℕ) where
  destMemory : α
  oldValues : Fin n → α

variable {α : Type*} {n : ℕ}

def Mem.setOldValue (m : Mem α n) (tid : Fin n) (v : α) : Mem α n :=
  { m with oldValues := Function.update m.oldValues tid v }

theorem setOldValue_self (m : Mem α n) (t : Fin n) (v : α) : (m.setOldValue t v).oldValues t = v :=
  Function.update_self ..

theorem setOldValue_of_ne {m : Mem α n} {t u : Fin n} (hu : u ≠ t) (v : α) :
    (m.setOldValue t v).oldValues u = m.oldValues u := Function.update_of_ne hu ..

/-! ### The two programs -/

inductive ExchangePc
  /-- the exchange of `tid` -/
  | first
  /-- `oldValues[tid] =` its result -/
  | storeFirst
  /-- the exchange in the loop -/
  | exchange
  /-- `oldValues[tid] =` its result -/
  | store
  | returned
  deriving DecidableEq

structure ExchangeLocals (α : Type*) where
  pc : ExchangePc
  i : ℕ
  result : α

/-- `i < Iterations()`. -/
def ExchangeLocals.loop (iterations : ℤ) (i : ℕ) (l : ExchangeLocals α) : ExchangeLocals α :=
  if (i : ℤ) < iterations then { l with pc := .exchange, i := i }
  else { l with pc := .returned, i := i }

/-- `CBasicTestExchange::HostFunction`. -/
def exchangeHostFunction [HostDataType α] (iterations : ℤ) :
    Program (Fin n) (Mem α n) (ExchangeLocals α) := fun tid l m =>
  match l.pc with
  | .first =>
    let (result, dest) := hostAtomicExchange m.destMemory (ofUint tid)
    some ({ l with pc := .storeFirst, result := result }, { m with destMemory := dest })
  | .storeFirst => some (l.loop iterations 0, m.setOldValue tid l.result)
  | .exchange =>
    let (result, dest) := hostAtomicExchange m.destMemory (m.oldValues tid)
    some ({ l with pc := .store, result := result }, { m with destMemory := dest })
  | .store => some (l.loop iterations (l.i + 1), m.setOldValue tid l.result)
  | .returned => none

inductive CompareStrongPc
  /-- `oldValues[tid] = tid` -/
  | announce
  /-- the swap -/
  | swap
  /-- the comparison of its result with `expected` -/
  | compare
  /-- `oldValues[tid] = expected` -/
  | storeExpected
  /-- `oldValues[tid] = threadCount`, after a spurious failure -/
  | markFail
  | returned
  deriving DecidableEq

structure CompareStrongLocals (α : Type*) where
  pc : CompareStrongPc
  i : ℕ
  expected : α
  previous : α
  tmp : α

/-- `i < Iterations()`. -/
def CompareStrongLocals.loop (iterations : ℤ) (i : ℕ) (l : CompareStrongLocals α) : CompareStrongLocals α :=
  if (i : ℤ) < iterations then { l with pc := .swap, i := i }
  else { l with pc := .returned, i := i }

/-- `CBasicTestCompareStrong::HostFunction`. -/
def compareStrongHostFunction [HostDataType α] [DecidableEq α] (iterations : ℤ) :
    Program (Fin n) (Mem α n) (CompareStrongLocals α) := fun tid l m =>
  match l.pc with
  | .announce => some (l.loop iterations 0, m.setOldValue tid (ofUint tid))
  | .swap =>
    let (tmp, dest) := syncValCompareAndSwap m.destMemory l.expected (m.oldValues tid)
    some ({ l with pc := .compare, previous := l.expected, tmp := tmp },
      { m with destMemory := dest })
  | .compare =>
    let (success, expected) := compareExchangeResult l.tmp l.expected
    if success then some ({ l with pc := .storeExpected, expected := expected }, m)
    else if l.previous = expected then some ({ l with pc := .markFail, expected := expected }, m)
    else some ({ l with expected := expected }.loop iterations (l.i + 1), m)
  | .storeExpected => some (l.loop iterations (l.i + 1), m.setOldValue tid l.expected)
  | .markFail => some (l.loop iterations (l.i + 1), m.setOldValue tid (ofUint n))
  | .returned => none

/-- All interleavings of `CBasicTestExchange`. -/
abbrev exchange (α : Type*) [HostDataType α] (n : ℕ) (iterations : ℤ) :
    System (Conf (Fin n) (Mem α n) (ExchangeLocals α)) (Fin n) :=
  threads (exchangeHostFunction iterations) fun c =>
    c.mem.destMemory = ofUint startValue ∧ ∀ t, (c.loc t).pc = .first

/-- All interleavings of `CBasicTestCompareStrong`. -/
abbrev compareStrong (α : Type*) [HostDataType α] [DecidableEq α] (n : ℕ) (iterations : ℤ) :
    System (Conf (Fin n) (Mem α n) (CompareStrongLocals α)) (Fin n) :=
  threads (compareStrongHostFunction iterations) fun c =>
    c.mem.destMemory = ofUint startValue ∧
      ∀ t, (c.loc t).pc = .announce ∧ (c.loc t).expected = ofUint startValue

/-! ### The verifier -/

/-- `tidFound` and `startValueFound`. -/
structure Found (n : ℕ) where
  tidFound : Fin n → Bool
  startValueFound : Bool

/-- The body of the loop of `VerifyRefs`; `none` where it sets `correct` to false
and returns. -/
def verifyValue (found : Found n) (value : ℕ) : Option (Found n) :=
  if value = startValue then
    if found.startValueFound then none else some { found with startValueFound := true }
  else if h : value < n then
    if found.tidFound ⟨value, h⟩ then none
    else some { found with tidFound := Function.update found.tidFound ⟨value, h⟩ true }
  else none

/-- The values that `VerifyRefs` goes through, as `cl_uint`. -/
def verifiedValues [HostDataType α] (refValues : Fin n → α) (finalValue : α) : List ℕ :=
  ((List.finRange n).map fun i => toUint (refValues i)) ++ [toUint finalValue]

/-- `VerifyRefs` of both tests, which differ only in what they print. -/
def verifyRefs [HostDataType α] (refValues : Fin n → α) (finalValue : α) : Bool :=
  ((verifiedValues refValues finalValue).foldlM verifyValue
    (⟨fun _ => false, false⟩ : Found n)).isSome

/-- The value is valid and was not found yet. -/
def Fresh (found : Found n) (value : ℕ) : Prop :=
  value = startValue ∧ found.startValueFound = false ∨
    value ≠ startValue ∧ ∃ h : value < n, found.tidFound ⟨value, h⟩ = false

theorem verifyValue_checks : Distinct.Checks (verifyValue (n := n)) Fresh where
  accept := by
    rintro found value (⟨hv, hf⟩ | ⟨hv, h, hf⟩)
    · refine ⟨{ found with startValueFound := true }, by simp [verifyValue, hv, hf], ?_⟩
      intro w
      constructor
      · rintro (⟨_, hw⟩ | ⟨hw, hw'⟩)
        · cases hw
        · exact ⟨.inr ⟨hw, hw'⟩, fun he => hw (he.trans hv)⟩
      · rintro ⟨⟨hw, _⟩ | hw, hne⟩
        · exact absurd (hw.trans hv.symm) hne
        · exact .inr hw
    · refine ⟨_, by rw [verifyValue, if_neg hv, dif_pos h, if_neg (by simp [hf])], ?_⟩
      intro w
      constructor
      · rintro (⟨hw, hw'⟩ | ⟨hw, hlt, hw'⟩)
        · exact ⟨.inl ⟨hw, hw'⟩, fun he => hv (he.symm.trans hw)⟩
        · have hne : w ≠ value := by
            rintro rfl
            simp only [Function.update_self] at hw'
            cases hw'
          have hne' : (⟨w, hlt⟩ : Fin n) ≠ ⟨value, h⟩ := fun he => hne (Fin.mk.inj_iff.mp he)
          simp only [Function.update_of_ne hne'] at hw'
          exact ⟨.inr ⟨hw, hlt, hw'⟩, hne⟩
      · rintro ⟨hw | ⟨hw, hlt, hw'⟩, hne⟩
        · exact .inl hw
        · have hne' : (⟨w, hlt⟩ : Fin n) ≠ ⟨value, h⟩ := fun he => hne (Fin.mk.inj_iff.mp he)
          refine .inr ⟨hw, hlt, ?_⟩
          simp only [Function.update_of_ne hne']
          exact hw'
  reject := by
    intro found value hfresh
    rw [verifyValue]
    by_cases hv : value = startValue
    · rw [if_pos hv, if_pos (by_contra fun hf => hfresh (.inl ⟨hv, Bool.eq_false_iff.mpr hf⟩))]
    · rw [if_neg hv]
      by_cases h : value < n
      · rw [dif_pos h,
          if_pos (by_contra fun hf => hfresh (.inr ⟨hv, h, Bool.eq_false_iff.mpr hf⟩))]
      · rw [dif_neg h]

/-- **What `VerifyRefs` accepts**: distinct values, each of them the start value or
the number of a thread. -/
theorem verifyRefs_iff [HostDataType α] {refValues : Fin n → α} {finalValue : α} :
    verifyRefs refValues finalValue = true ↔
      (verifiedValues refValues finalValue).Nodup ∧
        ∀ v ∈ verifiedValues refValues finalValue, v = startValue ∨ v < n := by
  rw [verifyRefs, verifyValue_checks.foldlM_isSome]
  refine and_congr_right fun _ => forall₂_congr ?_
  intro v _
  constructor
  · rintro (⟨hv, _⟩ | ⟨_, hv, _⟩)
    · exact .inl hv
    · exact .inr hv
  · intro hv
    by_cases hs : v = startValue
    · exact .inl ⟨hs, rfl⟩
    · exact .inr ⟨hs, hv.resolve_left hs, rfl⟩

/-! ### Conserved values -/

/-- The numbers of the threads that have started and the start value: the values
that the shared variable and the entries of those threads have, each of them once. -/
structure Conserved [HostDataType α] (started : Finset (Fin n)) (m : Mem α n) : Prop where
  values : m.destMemory ::ₘ started.val.map m.oldValues
    = ofUint startValue ::ₘ started.val.map fun t : Fin n => ofUint t
  nodup : (m.destMemory ::ₘ started.val.map m.oldValues).Nodup

theorem sum_ite_singleton (started : Fin n → Prop) [DecidablePred started] (f : Fin n → α) :
    (∑ t, if started t then ({f t} : Multiset α) else 0)
      = (Finset.univ.filter started).val.map f := by
  rw [← Finset.sum_filter, Finset.sum_eq_multiset_sum]
  exact (congrArg Multiset.sum (Multiset.map_map _ _ _).symm).trans (Multiset.sum_map_singleton _)

theorem nodup_numbers [HostDataType α] (hn : n ≤ startValue) (started : Finset (Fin n)) :
    (ofUint startValue ::ₘ started.val.map fun t : Fin n => (ofUint t : α)).Nodup := by
  have hstart : startValue ≤ 2 ^ 24 := by decide
  have hle : ∀ t : Fin n, (t : ℕ) ≤ 2 ^ 24 := fun t => t.isLt.le.trans (hn.trans hstart)
  rw [Multiset.nodup_cons]
  refine ⟨fun hmem => ?_, started.nodup.map_on fun t _ u _ h => ?_⟩
  · obtain ⟨t, _, ht⟩ := Multiset.mem_map.mp hmem
    have heq := ofUint_injective (hle t) hstart ht
    omega
  · exact Fin.ext (ofUint_injective (hle t) (hle u) h)

theorem conserved_of_sum [HostDataType α] (hn : n ≤ startValue) {m : Mem α n}
    (started : Fin n → Prop) [DecidablePred started]
    (h : {m.destMemory} + (∑ t, if started t then ({m.oldValues t} : Multiset α) else 0)
      = {ofUint startValue} + ∑ t : Fin n, if started t then ({ofUint t} : Multiset α) else 0) :
    Conserved (Finset.univ.filter started) m := by
  rw [sum_ite_singleton, sum_ite_singleton, Multiset.singleton_add, Multiset.singleton_add] at h
  exact ⟨h, h ▸ nodup_numbers hn _⟩

/-- **What is conserved is accepted**, once all threads have started. -/
theorem Conserved.accepted [HostDataType α] (hn : n ≤ startValue) {m : Mem α n}
    (h : Conserved Finset.univ m) : verifyRefs m.oldValues m.destMemory = true := by
  have hstart : startValue ≤ 2 ^ 24 := by decide
  have hle : ∀ t : Fin n, (t : ℕ) ≤ 2 ^ 24 := fun t => t.isLt.le.trans (hn.trans hstart)
  have hfin : ∀ {β : Type} (f : Fin n → β), Finset.univ.val.map f = ↑((List.finRange n).map f) :=
    fun f => rfl
  have hvalues : (↑(verifiedValues m.oldValues m.destMemory) : Multiset ℕ)
      = startValue ::ₘ Finset.univ.val.map fun t : Fin n => (t : ℕ) := by
    have hmap := congrArg (Multiset.map toUint) h.values
    rw [Multiset.map_cons, Multiset.map_cons, Multiset.map_map, Multiset.map_map,
      toUint_ofUint _ hstart] at hmap
    rw [verifiedValues, ← Multiset.coe_add, add_comm, Multiset.coe_singleton,
      Multiset.singleton_add]
    refine hmap.trans (congrArg _ (Multiset.map_congr rfl fun t _ => ?_))
    exact toUint_ofUint _ (hle t)
  rw [verifyRefs_iff, ← Multiset.coe_nodup]
  refine ⟨?_, fun v hv => ?_⟩
  · rw [hvalues, Multiset.nodup_cons]
    refine ⟨fun hmem => ?_, Finset.univ.nodup.map Fin.val_injective⟩
    obtain ⟨t, _, ht⟩ := Multiset.mem_map.mp hmem
    omega
  · rw [← Multiset.mem_coe, hvalues, Multiset.mem_cons, Multiset.mem_map] at hv
    rcases hv with hv | ⟨t, _, rfl⟩
    · exact .inl hv
    · exact .inr t.isLt

/-! ### The exchange test -/

def ExchangeLocals.Started (l : ExchangeLocals α) : Prop := l.pc ≠ .first

/-- Between the exchange and the store of its result. -/
def ExchangeLocals.InFlight (l : ExchangeLocals α) : Prop := l.pc = .storeFirst ∨ l.pc = .store

instance (l : ExchangeLocals α) : Decidable l.Started := inferInstanceAs (Decidable (¬ _))

/-- What a thread holds, if its entry is `old`. -/
def ExchangeLocals.held (l : ExchangeLocals α) (old : α) : Multiset α :=
  match l.pc with
  | .first => 0
  | .storeFirst | .store => {l.result}
  | .exchange | .returned => {old}

/-- What a thread has brought with it. -/
def ExchangeLocals.brought [HostDataType α] (t : Fin n) (l : ExchangeLocals α) : Multiset α :=
  match l.pc with
  | .first => 0
  | _ => {ofUint t}

theorem ExchangeLocals.held_of_not_inFlight {l : ExchangeLocals α} (h : ¬ l.InFlight) (old : α) :
    l.held old = if l.Started then {old} else 0 := by
  obtain ⟨pc, i, result⟩ := l
  cases pc with
  | first => exact (if_neg (not_not.mpr rfl)).symm
  | storeFirst => exact absurd (.inl rfl) h
  | store => exact absurd (.inr rfl) h
  | exchange | returned => exact (if_pos nofun).symm

theorem ExchangeLocals.brought_eq [HostDataType α] (t : Fin n) (l : ExchangeLocals α) :
    l.brought t = if l.Started then {ofUint t} else 0 := by
  obtain ⟨pc, i, result⟩ := l
  cases pc with
  | first => exact (if_neg (not_not.mpr rfl)).symm
  | storeFirst | exchange | store | returned => exact (if_pos nofun).symm

theorem ExchangeLocals.loop_cases (l : ExchangeLocals α) (iterations : ℤ) (i : ℕ) :
    (l.loop iterations i).pc = .exchange ∨ (l.loop iterations i).pc = .returned := by
  unfold loop
  split
  · exact .inl rfl
  · exact .inr rfl

theorem ExchangeLocals.loop_held (l : ExchangeLocals α) (iterations : ℤ) (i : ℕ) (old : α) :
    (l.loop iterations i).held old = {old} := by
  rcases l.loop_cases iterations i with h | h <;> rw [held, h]

theorem ExchangeLocals.loop_brought [HostDataType α] (l : ExchangeLocals α) (iterations : ℤ)
    (i : ℕ) (t : Fin n) : (l.loop iterations i).brought t = {ofUint t} := by
  rcases l.loop_cases iterations i with h | h <;> rw [brought, h]

section Exchange

variable [HostDataType α] {iterations : ℤ}

theorem exchange_frame {t u : Fin n} (hu : u ≠ t) {l l' : ExchangeLocals α} {m m' : Mem α n}
    (hP : exchangeHostFunction iterations t l m = some (l', m')) :
    m'.oldValues u = m.oldValues u := by
  obtain ⟨pc, i, result⟩ := l
  cases pc with
  | first | exchange => cases hP; rfl
  | storeFirst | store => cases hP; exact setOldValue_of_ne hu _
  | returned => cases hP

theorem exchange_step {t : Fin n} {l l' : ExchangeLocals α} {m m' : Mem α n}
    (hP : exchangeHostFunction iterations t l m = some (l', m')) :
    {m'.destMemory} + l'.held (m'.oldValues t) + l.brought t
      = {m.destMemory} + l.held (m.oldValues t) + l'.brought t := by
  obtain ⟨pc, i, result⟩ := l
  cases pc with
  | first =>
    cases hP
    show ({ofUint t} + {m.destMemory} + 0 : Multiset α) = {m.destMemory} + 0 + {ofUint t}
    rw [add_zero, add_zero, add_comm]
  | exchange =>
    cases hP
    exact congrArg (· + _) (add_comm _ _)
  | storeFirst | store =>
    cases hP
    rw [ExchangeLocals.loop_held, ExchangeLocals.loop_brought, setOldValue_self]
    rfl
  | returned => cases hP

/-- **No value is lost or doubled** by the exchanges. -/
theorem exchange_sum {c : Conf (Fin n) (Mem α n) (ExchangeLocals α)}
    (h : (exchange α n iterations).Reach System.anyStep c) :
    {c.mem.destMemory} + ∑ t, (c.loc t).held (c.mem.oldValues t)
      = {ofUint startValue} + ∑ t, (c.loc t).brought t := by
  refine threads_conserved (fun m => {m.destMemory}) (fun t l m => l.held (m.oldValues t))
    (fun t l => l.brought t) (J := fun _ => True) (fun _ _ => trivial) ?_
    (fun c t l' m' _ hP => exchange_step hP)
    (fun c t u l' m' hu _ hP => by rw [exchange_frame hu hP]) h
  rintro c ⟨hdest, hloc⟩
  rw [hdest]
  congr 1
  refine Finset.sum_congr rfl ?_
  intro t _
  rw [ExchangeLocals.held, hloc t, ExchangeLocals.brought, hloc t]

/-- The threads that have started. -/
def exchangeStarted (c : Conf (Fin n) (Mem α n) (ExchangeLocals α)) : Finset (Fin n) :=
  Finset.univ.filter fun t => (c.loc t).Started

theorem exchange_conserved (hn : n ≤ startValue) {c : Conf (Fin n) (Mem α n) (ExchangeLocals α)}
    (h : (exchange α n iterations).Reach System.anyStep c)
    (hquiet : ∀ t, ¬ (c.loc t).InFlight) : Conserved (exchangeStarted c) c.mem := by
  have hsum := exchange_sum h
  simp only [fun t => ExchangeLocals.held_of_not_inFlight (hquiet t),
    ExchangeLocals.brought_eq] at hsum
  exact conserved_of_sum hn (fun t => (c.loc t).Started) hsum

theorem exchange_accepted (hn : n ≤ startValue) {c : Conf (Fin n) (Mem α n) (ExchangeLocals α)}
    (h : (exchange α n iterations).Reach System.anyStep c)
    (hfin : ∀ t, (c.loc t).pc = .returned) :
    verifyRefs c.mem.oldValues c.mem.destMemory = true := by
  have hall : exchangeStarted c = Finset.univ := by
    apply Finset.filter_true_of_mem
    intro t _
    rw [ExchangeLocals.Started, hfin t]
    exact nofun
  have hcons := exchange_conserved hn h fun t => by
    rw [ExchangeLocals.InFlight, hfin t]
    exact nofun
  exact (hall ▸ hcons).accepted hn

end Exchange

/-! ### The compare-exchange test -/

def CompareStrongLocals.Started (l : CompareStrongLocals α) : Prop := l.pc ≠ .announce

/-- Between a swap that succeeded and the store of its result. -/
def CompareStrongLocals.InFlight (l : CompareStrongLocals α) : Prop :=
  l.pc = .compare ∧ l.tmp = l.expected ∨ l.pc = .storeExpected

instance (l : CompareStrongLocals α) : Decidable l.Started := inferInstanceAs (Decidable (¬ _))

/-- What a thread holds, if its entry is `old`: after a swap that succeeded, the
value that it has taken out. -/
def CompareStrongLocals.held [DecidableEq α] (l : CompareStrongLocals α) (old : α) : Multiset α :=
  match l.pc with
  | .announce => 0
  | .compare => if l.tmp = l.expected then {l.tmp} else {old}
  | .storeExpected => {l.expected}
  | .swap | .markFail | .returned => {old}

/-- What a thread has brought with it. -/
def CompareStrongLocals.brought [HostDataType α] (t : Fin n) (l : CompareStrongLocals α) :
    Multiset α :=
  match l.pc with
  | .announce => 0
  | _ => {ofUint t}

theorem CompareStrongLocals.held_of_not_inFlight [DecidableEq α] {l : CompareStrongLocals α}
    (h : ¬ l.InFlight) (old : α) : l.held old = if l.Started then {old} else 0 := by
  obtain ⟨pc, i, expected, previous, tmp⟩ := l
  cases pc with
  | announce => exact (if_neg (not_not.mpr rfl)).symm
  | compare => exact (if_neg fun he => h (.inl ⟨rfl, he⟩)).trans (if_pos nofun).symm
  | storeExpected => exact absurd (.inr rfl) h
  | swap | markFail | returned => exact (if_pos nofun).symm

theorem CompareStrongLocals.brought_eq [HostDataType α] (t : Fin n) (l : CompareStrongLocals α) :
    l.brought t = if l.Started then {ofUint t} else 0 := by
  obtain ⟨pc, i, expected, previous, tmp⟩ := l
  cases pc with
  | announce => exact (if_neg (not_not.mpr rfl)).symm
  | swap | compare | storeExpected | markFail | returned => exact (if_pos nofun).symm

theorem CompareStrongLocals.loop_cases (l : CompareStrongLocals α) (iterations : ℤ) (i : ℕ) :
    (l.loop iterations i).pc = .swap ∨ (l.loop iterations i).pc = .returned := by
  unfold loop
  split
  · exact .inl rfl
  · exact .inr rfl

theorem CompareStrongLocals.loop_held [DecidableEq α] (l : CompareStrongLocals α) (iterations : ℤ)
    (i : ℕ) (old : α) : (l.loop iterations i).held old = {old} := by
  rcases l.loop_cases iterations i with h | h <;> rw [held, h]

theorem CompareStrongLocals.loop_brought [HostDataType α] (l : CompareStrongLocals α)
    (iterations : ℤ) (i : ℕ) (t : Fin n) : (l.loop iterations i).brought t = {ofUint t} := by
  rcases l.loop_cases iterations i with h | h <;> rw [brought, h]

/-- What excludes the spurious failure. -/
structure NotSpurious (l : CompareStrongLocals α) : Prop where
  previous : l.pc = .compare → l.previous = l.expected
  not_markFail : l.pc ≠ .markFail

theorem notSpurious_loop (l : CompareStrongLocals α) (iterations : ℤ) (i : ℕ) :
    NotSpurious (l.loop iterations i) := by
  rcases l.loop_cases iterations i with h | h
  · refine ⟨fun hc => ?_, by rw [h]; exact nofun⟩
    rw [h] at hc
    cases hc
  · refine ⟨fun hc => ?_, by rw [h]; exact nofun⟩
    rw [h] at hc
    cases hc

section CompareStrong

variable [HostDataType α] [DecidableEq α] {iterations : ℤ}

theorem compare_cases {t : Fin n} {l l' : CompareStrongLocals α} {m m' : Mem α n}
    (h : NotSpurious l) (hpc : l.pc = .compare)
    (hP : compareStrongHostFunction iterations t l m = some (l', m')) :
    m' = m ∧
      (l.tmp = l.expected ∧ l' = { l with pc := .storeExpected } ∨
        l.tmp ≠ l.expected ∧
          l' = CompareStrongLocals.loop iterations (l.i + 1) { l with expected := l.tmp }) := by
  simp only [compareStrongHostFunction, hpc, compareExchangeResult] at hP
  by_cases he : l.tmp = l.expected
  · rw [if_pos he] at hP
    cases hP
    exact ⟨rfl, .inl ⟨he, rfl⟩⟩
  · have hprev : l.previous ≠ l.tmp := fun hp => he (hp.symm.trans (h.previous hpc))
    simp only [if_neg he, if_neg hprev] at hP
    cases hP
    exact ⟨rfl, .inr ⟨he, rfl⟩⟩

theorem NotSpurious.own {t : Fin n} {l l' : CompareStrongLocals α} {m m' : Mem α n}
    (h : NotSpurious l) (hP : compareStrongHostFunction iterations t l m = some (l', m')) :
    NotSpurious l' := by
  cases hpc : l.pc with
  | announce | storeExpected | markFail =>
    simp only [compareStrongHostFunction, hpc] at hP
    cases hP
    exact notSpurious_loop _ _ _
  | swap =>
    simp only [compareStrongHostFunction, hpc] at hP
    cases hP
    exact ⟨fun _ => rfl, nofun⟩
  | compare =>
    obtain ⟨_, ⟨_, rfl⟩ | ⟨_, rfl⟩⟩ := compare_cases h hpc hP
    · exact ⟨nofun, nofun⟩
    · exact notSpurious_loop _ _ _
  | returned =>
    simp only [compareStrongHostFunction, hpc] at hP
    cases hP

/-- **There is no spurious failure**, in every reachable state. -/
theorem notSpurious {c : Conf (Fin n) (Mem α n) (CompareStrongLocals α)}
    (h : (compareStrong α n iterations).Reach System.anyStep c) (t : Fin n) :
    NotSpurious (c.loc t) := by
  have hinv := threads_invariant (G := fun _ => True) (A := fun _ l _ => NotSpurious l)
    (fun c hc => ⟨trivial, fun t => ⟨fun hp => ?_, ?_⟩⟩)
    (fun t l m l' m' _ hA hP => ⟨trivial, hA.own hP⟩) (fun _ _ _ _ _ _ _ _ _ _ _ hk => hk) h
  · exact hinv.2 t
  · rw [(hc.2 t).1] at hp
    cases hp
  · rw [(hc.2 t).1]
    exact nofun

theorem compareStrong_frame {t u : Fin n} (hu : u ≠ t) {l l' : CompareStrongLocals α}
    {m m' : Mem α n} (h : NotSpurious l)
    (hP : compareStrongHostFunction iterations t l m = some (l', m')) :
    m'.oldValues u = m.oldValues u := by
  cases hpc : l.pc with
  | compare => rw [(compare_cases h hpc hP).1]
  | announce | storeExpected | markFail =>
    simp only [compareStrongHostFunction, hpc] at hP
    cases hP
    exact setOldValue_of_ne hu _
  | swap =>
    simp only [compareStrongHostFunction, hpc] at hP
    cases hP
    rfl
  | returned =>
    simp only [compareStrongHostFunction, hpc] at hP
    cases hP

/-- A thread's step moves values between the shared variable and the thread. -/
theorem compareStrong_step {t : Fin n} {l l' : CompareStrongLocals α} {m m' : Mem α n}
    (h : NotSpurious l) (hP : compareStrongHostFunction iterations t l m = some (l', m')) :
    {m'.destMemory} + l'.held (m'.oldValues t) + l.brought t
      = {m.destMemory} + l.held (m.oldValues t) + l'.brought t := by
  obtain ⟨pc, i, expected, previous, tmp⟩ := l
  cases pc with
  | announce =>
    cases hP
    rw [CompareStrongLocals.loop_held, CompareStrongLocals.loop_brought, setOldValue_self]
    show ({m.destMemory} + {ofUint t} + 0 : Multiset α) = {m.destMemory} + 0 + {ofUint t}
    rw [add_zero, add_zero]
  | swap =>
    cases hP
    refine congrArg (· + {ofUint t}) ?_
    by_cases he : m.destMemory = expected
    · -- the swap succeeds: the two values change places
      show ({if m.destMemory = expected then m.oldValues t else m.destMemory}
        + if m.destMemory = expected then {m.destMemory} else {m.oldValues t} : Multiset α)
        = {m.destMemory} + {m.oldValues t}
      rw [if_pos he, if_pos he, add_comm]
    · show ({if m.destMemory = expected then m.oldValues t else m.destMemory}
        + if m.destMemory = expected then {m.destMemory} else {m.oldValues t} : Multiset α)
        = {m.destMemory} + {m.oldValues t}
      rw [if_neg he, if_neg he]
  | compare =>
    obtain ⟨rfl, ⟨he, rfl⟩ | ⟨he, rfl⟩⟩ := compare_cases h rfl hP
    · simp only [CompareStrongLocals.held, CompareStrongLocals.brought, if_pos he]
      exact congrArg (fun x => {m'.destMemory} + ({x} : Multiset α) + {ofUint t}) he.symm
    · rw [CompareStrongLocals.loop_held, CompareStrongLocals.loop_brought]
      simp only [CompareStrongLocals.held, CompareStrongLocals.brought, if_neg he]
  | storeExpected =>
    cases hP
    rw [CompareStrongLocals.loop_held, CompareStrongLocals.loop_brought, setOldValue_self]
    rfl
  | markFail => exact absurd rfl h.not_markFail
  | returned => cases hP

/-- **No value is lost or doubled** by the swaps. -/
theorem compareStrong_sum {c : Conf (Fin n) (Mem α n) (CompareStrongLocals α)}
    (h : (compareStrong α n iterations).Reach System.anyStep c) :
    {c.mem.destMemory} + ∑ t, (c.loc t).held (c.mem.oldValues t)
      = {ofUint startValue} + ∑ t, (c.loc t).brought t := by
  refine threads_conserved (fun m => {m.destMemory}) (fun t l m => l.held (m.oldValues t))
    (fun t l => l.brought t) (J := fun c => ∀ t, NotSpurious (c.loc t))
    (fun c hc => notSpurious hc) ?_ (fun c t l' m' hJ hP => compareStrong_step (hJ t) hP)
    (fun c t u l' m' hu hJ hP => by rw [compareStrong_frame hu (hJ t) hP]) h
  rintro c ⟨hdest, hloc⟩
  rw [hdest]
  congr 1
  refine Finset.sum_congr rfl ?_
  intro t _
  rw [CompareStrongLocals.held, (hloc t).1, CompareStrongLocals.brought, (hloc t).1]

/-- The threads that have started. -/
def compareStrongStarted (c : Conf (Fin n) (Mem α n) (CompareStrongLocals α)) : Finset (Fin n) :=
  Finset.univ.filter fun t => (c.loc t).Started

theorem compareStrong_conserved (hn : n ≤ startValue)
    {c : Conf (Fin n) (Mem α n) (CompareStrongLocals α)}
    (h : (compareStrong α n iterations).Reach System.anyStep c)
    (hquiet : ∀ t, ¬ (c.loc t).InFlight) : Conserved (compareStrongStarted c) c.mem := by
  have hsum := compareStrong_sum h
  simp only [fun t => CompareStrongLocals.held_of_not_inFlight (hquiet t),
    CompareStrongLocals.brought_eq] at hsum
  exact conserved_of_sum hn (fun t => (c.loc t).Started) hsum

theorem compareStrong_accepted (hn : n ≤ startValue)
    {c : Conf (Fin n) (Mem α n) (CompareStrongLocals α)}
    (h : (compareStrong α n iterations).Reach System.anyStep c)
    (hfin : ∀ t, (c.loc t).pc = .returned) :
    verifyRefs c.mem.oldValues c.mem.destMemory = true := by
  have hall : compareStrongStarted c = Finset.univ := by
    apply Finset.filter_true_of_mem
    intro t _
    rw [CompareStrongLocals.Started, hfin t]
    exact nofun
  have hcons := compareStrong_conserved hn h fun t => by
    rw [CompareStrongLocals.InFlight, hfin t]
    rintro (⟨⟨⟩, _⟩ | ⟨⟨⟩⟩)
  exact (hall ▸ hcons).accepted hn

end CompareStrong

/-! ### The two tests -/

/-- **Exchange and compare-exchange conserve the values.**  Whenever no thread is
between an atomic step and the store of its result, the entries of the threads
that have started and the shared variable hold the numbers of these threads and the
start value, each of them once; no failure of a swap is spurious; and `VerifyRefs`
accepts when all threads have returned. -/
theorem exchange_tests_conserve (α : Type*) [HostDataType α] [DecidableEq α] (n : ℕ)
    (iterations : ℤ) (hn : n ≤ startValue) :
    (∀ c, (exchange α n iterations).Reach System.anyStep c →
      ((∀ t, ¬ (c.loc t).InFlight) → Conserved (exchangeStarted c) c.mem) ∧
      ((∀ t, (c.loc t).pc = .returned) → verifyRefs c.mem.oldValues c.mem.destMemory = true)) ∧
    ∀ c, (compareStrong α n iterations).Reach System.anyStep c →
      ((∀ t, ¬ (c.loc t).InFlight) → Conserved (compareStrongStarted c) c.mem) ∧
      ((∀ t, (c.loc t).pc = .returned) → verifyRefs c.mem.oldValues c.mem.destMemory = true) ∧
      ∀ t, (c.loc t).pc ≠ .markFail :=
  ⟨fun _ h => ⟨exchange_conserved hn h, exchange_accepted hn h⟩,
    fun _ h => ⟨compareStrong_conserved hn h, compareStrong_accepted hn h,
      fun t => (notSpurious h t).not_markFail⟩⟩

/-- A complete run of each test with two threads and one iteration. -/
theorem exchange_tests_conserve_pair :
    (∃ c, (exchange HostType.int.Data 2 1).Reach System.anyStep c ∧
      (∀ t, (c.loc t).pc = .returned) ∧ verifyRefs c.mem.oldValues c.mem.destMemory = true) ∧
    ∃ c, (compareStrong HostType.int.Data 2 1).Reach System.anyStep c ∧
      (∀ t, (c.loc t).pc = .returned) ∧ verifyRefs c.mem.oldValues c.mem.destMemory = true := by
  obtain ⟨h1, h2⟩ := exchange_tests_conserve HostType.int.Data 2 1 (by decide)
  constructor
  · obtain ⟨c, hr, hfin⟩ := System.Reach.exists_of_run (S := exchange HostType.int.Data 2 1)
      System.anyStep (fun c => ∀ t, (c.loc t).pc = .returned)
      (s := ⟨⟨ofUint startValue, fun _ => 0⟩, fun _ => ⟨.first, 0, 0⟩⟩) ⟨rfl, fun _ => rfl⟩
      [0, 1, 0, 1, 1, 0, 1, 0] (by decide +kernel)
    exact ⟨c, hr, hfin, (h1 c hr).2 hfin⟩
  · obtain ⟨c, hr, hfin⟩ := System.Reach.exists_of_run (S := compareStrong HostType.int.Data 2 1)
      System.anyStep (fun c => ∀ t, (c.loc t).pc = .returned)
      (s := ⟨⟨ofUint startValue, fun _ => 0⟩, fun _ => ⟨.announce, 0, ofUint startValue, 0, 0⟩⟩)
      ⟨rfl, fun _ => ⟨rfl, rfl⟩⟩ [0, 1, 0, 1, 0, 0, 1] (by decide +kernel)
    exact ⟨c, hr, hfin, (h2 c hr).2.1 hfin⟩

end OpenCLCTS.C11Atomics.Exchange
