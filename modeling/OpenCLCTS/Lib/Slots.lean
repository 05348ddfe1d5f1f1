import Mathlib.Data.Fintype.Card
import Mathlib.Data.Set.Function
import Mathlib.Order.Interval.Finset.Nat
import OpenCLCTS.Lib.Threads

/-!
# Slots that are handed out by counters

There is a counter for each key.  A thread that has a key adds one to the counter of its key and
writes its value to the slot that the old value of the counter names.  A thread without a key does
nothing.

`Slots` is what holds in between: the threads of a key have taken different numbers below its
counter, and only the slots of those that have written have changed.  When all threads are done, the
numbers that the threads of a key have taken are exactly those below the number of these threads
(`Slots.bijOn`), whatever the interleaving was.
-/

namespace Interleaving

variable {τ κ V : Type*} [Fintype τ] [DecidableEq κ]

structure SlotMem (κ V : Type*) where
  counter : κ → BitVec 32
  slot : ℕ → V

/-- Where a thread stands. -/
inductive SlotPc
  | add
  | write (index : ℕ)
  | returned
  deriving DecidableEq

/-- Add one to the counter of the key, and write to the slot. -/
def slotKernel (key : τ → Option κ) (place : κ → ℕ → ℕ) (value : τ → V) :
    Program τ (SlotMem κ V) SlotPc := fun t pc m =>
  match key t, pc with
  | some k, .add =>
    some (.write (m.counter k).toNat, ⟨Function.update m.counter k (m.counter k + 1), m.slot⟩)
  | some k, .write index =>
    some (.returned, ⟨m.counter, Function.update m.slot (place k index) (value t)⟩)
  | none, .add => some (.returned, m)
  | none, .write _ => none
  | _, .returned => none

/-- The threads of a key. -/
def withKey (key : τ → Option κ) (k : κ) : Finset τ := Finset.univ.filter fun t => key t = some k

/-- The threads of a key that have a number. -/
def claimed (key : τ → Option κ) (loc : τ → SlotPc) (k : κ) : Finset τ :=
  (withKey key k).filter fun t => loc t ≠ .add

/-- **The slots while they are handed out**: thread `t` has taken the number `taken t`. -/
structure Slots (key : τ → Option κ) (place : κ → ℕ → ℕ) (value : τ → V) (slot₀ : ℕ → V)
    (m : SlotMem κ V) (loc : τ → SlotPc) (taken : τ → ℕ) : Prop where
  counter : ∀ k, (m.counter k).toNat = (claimed key loc k).card
  index : ∀ t i, loc t = .write i → i = taken t
  keyed : ∀ t i, loc t = .write i → (key t).isSome
  lt : ∀ k, ∀ t ∈ claimed key loc k, taken t < (claimed key loc k).card
  inj : ∀ k, Set.InjOn taken (claimed key loc k)
  written : ∀ t k, key t = some k → loc t = .returned → m.slot (place k (taken t)) = value t
  untouched : ∀ a, (∀ t k, key t = some k → loc t = .returned → a ≠ place k (taken t)) →
    m.slot a = slot₀ a

variable {key : τ → Option κ} {place : κ → ℕ → ℕ} {value : τ → V} {slot₀ : ℕ → V}
  {m m' : SlotMem κ V} {loc : τ → SlotPc} {taken : τ → ℕ} {t : τ} {k : κ} {l' : SlotPc}

theorem mem_withKey : t ∈ withKey key k ↔ key t = some k := by simp [withKey]

theorem mem_claimed : t ∈ claimed key loc k ↔ key t = some k ∧ loc t ≠ .add := by
  simp [claimed, mem_withKey]

theorem card_claimed_le (key : τ → Option κ) (loc : τ → SlotPc) (k : κ) :
    (claimed key loc k).card ≤ (withKey key k).card :=
  Finset.card_le_card (Finset.filter_subset _ _)

theorem Slots.start (h : ∀ k, m.counter k = 0) (hloc : ∀ t, loc t = .add) :
    Slots key place value m.slot m loc taken := by
  have hempty : ∀ k, claimed key loc k = ∅ := by
    intro k
    simp [claimed, hloc]
  refine ⟨fun k => by simp [h, hempty], ?_, ?_, fun k => ?_, fun k => ?_, ?_, fun a _ => rfl⟩
  · simp [hloc]
  · simp [hloc]
  · simp [hempty]
  · simp [hempty]
  · simp [hloc]

/-! ### The steps -/

section Steps

variable [DecidableEq τ]

theorem claimed_add (hk : key t = some k) (hadd : loc t = .add) {l' : SlotPc} (hl : l' ≠ .add) :
    claimed key (Function.update loc t l') k = insert t (claimed key loc k) ∧
      t ∉ claimed key loc k := by
  refine ⟨?_, by simp [mem_claimed, hadd]⟩
  ext u
  rw [Finset.mem_insert, mem_claimed, mem_claimed]
  by_cases hu : u = t
  · subst hu
    simp [hk, hl]
  · simp [hu]

theorem claimed_same {k' : κ} (h : key t ≠ some k' ∨ (loc t ≠ .add ∧ l' ≠ .add)) :
    claimed key (Function.update loc t l') k' = claimed key loc k' := by
  ext u
  rw [mem_claimed, mem_claimed]
  by_cases hu : u = t
  · subst hu
    rcases h with h | ⟨h, hl⟩
    · simp [h]
    · simp [h, hl]
  · simp [hu]

theorem Slots.skip (h : Slots key place value slot₀ m loc taken) (hkey : key t = none) :
    Slots key place value slot₀ m (Function.update loc t .returned) taken := by
  have hclaimed : ∀ k, claimed key (Function.update loc t .returned) k = claimed key loc k :=
    fun k => claimed_same (.inl (by simp [hkey]))
  refine ⟨fun k => ?_, fun u i hu => ?_, fun u i hu => ?_, fun k => ?_, fun k => ?_,
    fun u k hk hu => ?_, fun a ha => ?_⟩
  · rw [hclaimed]
    exact h.counter k
  · by_cases hut : u = t
    · subst hut
      simp at hu
    · exact h.index u i (by simpa [hut] using hu)
  · by_cases hut : u = t
    · subst hut
      simp at hu
    · exact h.keyed u i (by simpa [hut] using hu)
  · rw [hclaimed]
    exact h.lt k
  · rw [hclaimed]
    exact h.inj k
  · have hut : u ≠ t := by
      rintro rfl
      rw [hkey] at hk
      cases hk
    exact h.written u k hk (by simpa [hut] using hu)
  · refine h.untouched a fun u k hk hu => ha u k hk ?_
    have hut : u ≠ t := by
      rintro rfl
      rw [hkey] at hk
      cases hk
    simpa [hut] using hu

theorem Slots.add (h : Slots key place value slot₀ m loc taken) (hcard : Fintype.card τ < 2 ^ 32)
    (hk : key t = some k) (hadd : loc t = .add) :
    Slots key place value slot₀ ⟨Function.update m.counter k (m.counter k + 1), m.slot⟩
      (Function.update loc t (.write (m.counter k).toNat))
      (Function.update taken t (m.counter k).toNat) := by
  have hwrite : SlotPc.write (m.counter k).toNat ≠ .add := by simp
  obtain ⟨hself, hnot⟩ := claimed_add hk hadd hwrite
  have hother : ∀ k' ≠ k, claimed key (Function.update loc t (.write (m.counter k).toNat)) k'
      = claimed key loc k' := by
    intro k' hk'
    refine claimed_same (.inl ?_)
    rw [hk]
    exact fun heq => hk' (Option.some.inj heq).symm
  have hne : ∀ k', ∀ u ∈ claimed key loc k', u ≠ t := by
    rintro k' u hu rfl
    exact (mem_claimed.mp hu).2 hadd
  have hlt : (claimed key loc k).card + 1 ≤ Fintype.card τ := by
    have := Finset.card_le_univ (insert t (claimed key loc k))
    rwa [Finset.card_insert_of_notMem hnot] at this
  have hreturned : ∀ u, Function.update loc t (.write (m.counter k).toNat) u = .returned →
      u ≠ t ∧ loc u = .returned := by
    intro u hu
    by_cases hut : u = t
    · subst hut
      simp at hu
    · exact ⟨hut, by simpa [hut] using hu⟩
  refine ⟨fun k' => ?_, fun u i hu => ?_, fun u i hu => ?_, fun k' u hu => ?_, fun k' => ?_,
    fun u k' hk' hu => ?_, fun a ha => ?_⟩
  · by_cases hkk : k' = k
    · subst hkk
      simp only [hself, Finset.card_insert_of_notMem hnot, Function.update_self]
      rw [BitVec.toNat_add, h.counter, show (1 : BitVec 32).toNat = 1 from rfl,
        Nat.mod_eq_of_lt (by omega)]
    · simp only [hother k' hkk, Function.update_of_ne hkk]
      exact h.counter k'
  · by_cases hut : u = t
    · subst hut
      simpa using hu.symm
    · rw [Function.update_of_ne hut]
      exact h.index u i (by simpa [hut] using hu)
  · by_cases hut : u = t
    · subst hut
      simp [hk]
    · exact h.keyed u i (by simpa [hut] using hu)
  · by_cases hkk : k' = k
    · subst hkk
      rw [hself] at hu ⊢
      rw [Finset.card_insert_of_notMem hnot]
      rcases Finset.mem_insert.mp hu with rfl | hu
      · rw [Function.update_self, h.counter]
        exact Nat.lt_succ_self _
      · rw [Function.update_of_ne (hne k' u hu)]
        exact (h.lt k' u hu).trans (Nat.lt_succ_self _)
    · rw [hother k' hkk] at hu ⊢
      rw [Function.update_of_ne (hne k' u hu)]
      exact h.lt k' u hu
  · by_cases hkk : k' = k
    · subst hkk
      intro u hu v hv heq
      simp only [Finset.mem_coe, hself] at hu hv
      rcases Finset.mem_insert.mp hu with hut | hu <;>
        rcases Finset.mem_insert.mp hv with hvt | hv
      · exact hut.trans hvt.symm
      · rw [hut, Function.update_self, Function.update_of_ne (hne k' v hv), h.counter] at heq
        exact absurd heq (h.lt k' v hv).ne'
      · rw [hvt, Function.update_self, Function.update_of_ne (hne k' u hu), h.counter] at heq
        exact absurd heq (h.lt k' u hu).ne
      · rw [Function.update_of_ne (hne k' u hu), Function.update_of_ne (hne k' v hv)] at heq
        exact h.inj k' hu hv heq
    · rw [hother k' hkk]
      refine (h.inj k').congr fun u hu => ?_
      rw [Function.update_of_ne (hne k' u hu)]
  · obtain ⟨hut, hu⟩ := hreturned u hu
    rw [Function.update_of_ne hut]
    exact h.written u k' hk' hu
  · refine h.untouched a fun u k' hk' hu => ?_
    have hut : u ≠ t := by
      rintro rfl
      rw [hadd] at hu
      cases hu
    have := ha u k' hk' (by simpa [hut] using hu)
    rwa [Function.update_of_ne hut] at this

theorem Slots.write (h : Slots key place value slot₀ m loc taken) (hk : key t = some k) {i : ℕ}
    (hwrite : loc t = .write i)
    (hplace : ∀ k k' i i', i < (withKey key k).card → i' < (withKey key k').card →
      place k i = place k' i' → k = k' ∧ i = i') :
    Slots key place value slot₀ ⟨m.counter, Function.update m.slot (place k i) (value t)⟩
      (Function.update loc t .returned) taken := by
  have hclaimed : ∀ k, claimed key (Function.update loc t .returned) k = claimed key loc k :=
    fun k => claimed_same (.inr ⟨by simp [hwrite], by simp⟩)
  have hi := h.index t i hwrite
  have hmem : t ∈ claimed key loc k := mem_claimed.mpr ⟨hk, by simp [hwrite]⟩
  have hbound : ∀ k', ∀ u ∈ claimed key loc k', taken u < (withKey key k').card :=
    fun k' u hu => (h.lt k' u hu).trans_le (card_claimed_le key loc k')
  refine ⟨fun k' => ?_, fun u j hu => ?_, fun u j hu => ?_, fun k' => ?_, fun k' => ?_,
    fun u k' hk' hu => ?_, fun a ha => ?_⟩
  · rw [hclaimed]
    exact h.counter k'
  · by_cases hut : u = t
    · subst hut
      simp at hu
    · exact h.index u j (by simpa [hut] using hu)
  · by_cases hut : u = t
    · subst hut
      simp at hu
    · exact h.keyed u j (by simpa [hut] using hu)
  · rw [hclaimed]
    exact h.lt k'
  · rw [hclaimed]
    exact h.inj k'
  · by_cases hut : u = t
    · subst hut
      obtain rfl : k = k' := Option.some.inj (hk.symm.trans hk')
      simp [← hi]
    · have hu' : loc u = .returned := by simpa [hut] using hu
      have hmem' : u ∈ claimed key loc k' := mem_claimed.mpr ⟨hk', by simp [hu']⟩
      have hne : place k' (taken u) ≠ place k i := by
        intro heq
        obtain ⟨rfl, htaken⟩ := hplace k' k _ _ (hbound k' u hmem') (hi ▸ hbound k t hmem) heq
        exact hut (h.inj k' hmem' hmem (htaken.trans hi))
      simp only [Function.update_of_ne hne]
      exact h.written u k' hk' hu'
  · have hne : a ≠ place k i := hi ▸ ha t k hk (by simp)
    simp only [Function.update_of_ne hne]
    refine h.untouched a fun u k' hk' hu => ha u k' hk' ?_
    by_cases hut : u = t
    · subst hut
      simp
    · simpa [hut] using hu

/-- **Every step keeps the slots.** -/
theorem Slots.next (h : Slots key place value slot₀ m loc taken) (hcard : Fintype.card τ < 2 ^ 32)
    (hplace : ∀ k k' i i', i < (withKey key k).card → i' < (withKey key k').card →
      place k i = place k' i' → k = k' ∧ i = i')
    (hP : slotKernel key place value t (loc t) m = some (l', m')) :
    ∃ taken', Slots key place value slot₀ m' (Function.update loc t l') taken' := by
  unfold slotKernel at hP
  cases hk : key t with
  | none =>
    cases hl : loc t with
    | add =>
      simp only [hk, hl, Option.some.injEq, Prod.mk.injEq] at hP
      obtain ⟨rfl, rfl⟩ := hP
      exact ⟨taken, h.skip hk⟩
    | write i => simp [hk, hl] at hP
    | returned => simp [hk, hl] at hP
  | some k =>
    cases hl : loc t with
    | add =>
      simp only [hk, hl, Option.some.injEq, Prod.mk.injEq] at hP
      obtain ⟨rfl, rfl⟩ := hP
      exact ⟨_, h.add hcard hk hl⟩
    | write i =>
      simp only [hk, hl, Option.some.injEq, Prod.mk.injEq] at hP
      obtain ⟨rfl, rfl⟩ := hP
      exact ⟨taken, h.write hk hl hplace⟩
    | returned => simp [hk, hl] at hP

omit [DecidableEq τ] in
/-- **A slot changes only once.** -/
theorem Slots.slot_stable (h : Slots key place value slot₀ m loc taken)
    (hplace : ∀ k k' i i', i < (withKey key k).card → i' < (withKey key k').card →
      place k i = place k' i' → k = k' ∧ i = i')
    (hP : slotKernel key place value t (loc t) m = some (l', m')) {a : ℕ} (ha : m.slot a ≠ slot₀ a) :
    m'.slot a = m.slot a := by
  unfold slotKernel at hP
  cases hk : key t with
  | none => cases hl : loc t <;> simp_all
  | some k =>
    cases hl : loc t with
    | add =>
      simp only [hk, hl, Option.some.injEq, Prod.mk.injEq] at hP
      obtain ⟨-, rfl⟩ := hP
      rfl
    | returned => simp [hk, hl] at hP
    | write i =>
      simp only [hk, hl, Option.some.injEq, Prod.mk.injEq] at hP
      obtain ⟨-, rfl⟩ := hP
      -- somebody else has written to the slot, and has another number
      obtain ⟨u, k', hk', hu, rfl⟩ : ∃ u k', key u = some k' ∧ loc u = .returned ∧
          a = place k' (taken u) := by
        by_contra hnone
        refine ha (h.untouched a fun u k' hk' hu heq => hnone ⟨u, k', hk', hu, heq⟩)
      have hmem : t ∈ claimed key loc k := mem_claimed.mpr ⟨hk, by simp [hl]⟩
      have hmem' : u ∈ claimed key loc k' := mem_claimed.mpr ⟨hk', by simp [hu]⟩
      have hne : place k' (taken u) ≠ place k i := by
        intro heq
        rw [h.index t i hl] at heq
        obtain ⟨rfl, htaken⟩ := hplace k' k _ _ ((h.lt k' u hmem').trans_le (card_claimed_le ..))
          ((h.lt k t hmem).trans_le (card_claimed_le ..)) heq
        obtain rfl := h.inj k' hmem' hmem htaken
        rw [hl] at hu
        cases hu
      simp [Function.update_of_ne hne]

end Steps

/-! ### When all are done -/

theorem claimed_of_returned (hret : ∀ t, loc t = .returned) (k : κ) :
    claimed key loc k = withKey key k := by
  simp [claimed, hret]

/-- **The numbers that the threads of a key have taken** are those below the number of these
threads. -/
theorem Slots.bijOn (h : Slots key place value slot₀ m loc taken) (hret : ∀ t, loc t = .returned)
    (k : κ) : Set.BijOn taken (withKey key k) (Finset.range (withKey key k).card) := by
  have hlt := h.lt k
  have hinj := h.inj k
  rw [claimed_of_returned hret] at hlt hinj
  have hmaps : Set.MapsTo taken (withKey key k) (Finset.range (withKey key k).card) :=
    fun t ht => by simpa using hlt t ht
  refine ⟨hmaps, hinj, ?_⟩
  exact Finset.surjOn_of_injOn_of_card_le taken hmaps hinj (by simp)

theorem Slots.counter_eq (h : Slots key place value slot₀ m loc taken)
    (hret : ∀ t, loc t = .returned) (k : κ) : (m.counter k).toNat = (withKey key k).card := by
  rw [h.counter, claimed_of_returned hret]

theorem Slots.slot_eq_of_ge (h : Slots key place value slot₀ m loc taken)
    (hret : ∀ t, loc t = .returned) {a : ℕ}
    (ha : ∀ k, ∀ i < (withKey key k).card, a ≠ place k i) : m.slot a = slot₀ a := by
  refine h.untouched a fun t k hk _ => ha k _ ?_
  have hlt := h.lt k t (mem_claimed.mpr ⟨hk, by simp [hret]⟩)
  exact hlt.trans_le (card_claimed_le key loc k)

/-- **The slots of a key hold the values of its threads**, each of them once. -/
theorem Slots.map_slot (h : Slots key place value slot₀ m loc taken)
    (hret : ∀ t, loc t = .returned) (k : κ) :
    (Multiset.range (withKey key k).card).map (fun i => m.slot (place k i))
      = (withKey key k).val.map value := by
  classical
  have hbij := h.bijOn hret k
  have himage : (withKey key k).image taken = Finset.range (withKey key k).card := by
    rw [← Finset.coe_inj, Finset.coe_image]
    exact hbij.image_eq
  have hval : Multiset.range (withKey key k).card = (withKey key k).val.map taken := by
    rw [← Finset.range_val, ← himage, Finset.image_val_of_injOn hbij.injOn]
  rw [hval, Multiset.map_map]
  refine Multiset.map_congr rfl fun t ht => ?_
  exact h.written t k (mem_withKey.mp ht) (hret t)

theorem ofNat_ne_neg_one {i : ℕ} (h : i < 2 ^ 32 - 1) : BitVec.ofNat 32 i ≠ -1 := by
  intro heq
  rw [← BitVec.toNat_inj, BitVec.toNat_ofNat, Nat.mod_eq_of_lt (by omega)] at heq
  rw [heq] at h
  exact absurd h (by decide)

end Interleaving
