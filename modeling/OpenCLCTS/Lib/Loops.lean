import Mathlib.Data.List.Range
import Mathlib.Tactic.Common

/-!
# Counting loops

`for (i = a; i < a + n; i++)` over a state is a fold over `List.range' a n`, in the
option monad if the body can fail.  An invariant of such a loop is a family `I i`,
what holds before the body runs for `i`.  `collect` is a loop that stores an element in every
turn, and `firstFound` one that returns from the first turn that finds something.
-/

namespace Loops

variable {σ : Type*}

/-- **The invariant rule of a loop.** -/
theorem foldl_invariant {f : σ → ℕ → σ} {I : ℕ → σ → Prop} {a n : ℕ}
    (hstep : ∀ i s, a ≤ i → i < a + n → I i s → I (i + 1) (f s i)) {s : σ} (h0 : I a s) :
    I (a + n) ((List.range' a n).foldl f s) := by
  induction n generalizing a s with
  | zero => exact h0
  | succ n ih =>
    rw [List.range'_succ, List.foldl_cons, Nat.add_succ, ← Nat.succ_add]
    refine ih (fun i s hi hlt => hstep i s (by omega) (by omega)) ?_
    exact hstep a s le_rfl (by omega) h0

/-- The same for a loop whose body can fail, if it does not. -/
theorem foldlM_invariant {f : σ → ℕ → Option σ} {I : ℕ → σ → Prop} {a n : ℕ}
    (hstep : ∀ i s s', a ≤ i → i < a + n → I i s → f s i = some s' → I (i + 1) s') {s s' : σ}
    (h0 : I a s) (h : (List.range' a n).foldlM f s = some s') : I (a + n) s' := by
  induction n generalizing a s with
  | zero =>
    cases h
    exact h0
  | succ n ih =>
    rw [List.range'_succ, List.foldlM_cons] at h
    obtain ⟨t, ht, h⟩ := Option.bind_eq_some_iff.mp h
    rw [Nat.add_succ, ← Nat.succ_add]
    refine ih (fun i s s' hi hlt => hstep i s s' (by omega) (by omega)) ?_ h
    exact hstep a s t le_rfl (by omega) h0 ht

/-- The same with the proof that the loop does not fail. -/
theorem foldlM_total {f : σ → ℕ → Option σ} {I : ℕ → σ → Prop} {a n : ℕ}
    (hstep : ∀ i s, a ≤ i → i < a + n → I i s → ∃ s', f s i = some s' ∧ I (i + 1) s') {s : σ}
    (h0 : I a s) : ∃ s', (List.range' a n).foldlM f s = some s' ∧ I (a + n) s' := by
  induction n generalizing a s with
  | zero => exact ⟨s, rfl, h0⟩
  | succ n ih =>
    obtain ⟨t, ht, hI⟩ := hstep a s le_rfl (by omega) h0
    obtain ⟨s', hs', hI'⟩ := ih (fun i s hi hlt => hstep i s (by omega) (by omega)) hI
    rw [List.range'_succ, List.foldlM_cons, ht]
    exact ⟨s', hs', (show a + (n + 1) = a + 1 + n by omega) ▸ hI'⟩

theorem foldl_update {P : ℕ → Prop} [DecidablePred P] {filler : σ} {out : ℕ → σ} {count i : ℕ}
    (hi : i < count) :
    (List.range' 0 count).foldl (fun result i =>
      if P i then Function.update result i filler else result) out i
        = if P i then filler else out i := by
  have hinv : ∀ j, (List.range' 0 count).foldl (fun result i =>
      if P i then Function.update result i filler else result) out j
        = if j < 0 + count ∧ P j then filler else out j := by
    let I (k : ℕ) (result : ℕ → σ) : Prop := ∀ j, result j = if j < k ∧ P j then filler else out j
    refine foldl_invariant (I := I) ?_ (fun j => by simp)
    intro k result _ _ hI j
    rcases eq_or_ne j k with rfl | hne
    · by_cases hP : P j
      · simp [hP]
      · simp [hP, hI j]
    · have hlt : j < k + 1 ↔ j < k := by omega
      rw [if_congr (and_congr_left' hlt) rfl rfl, ← hI j]
      split
      · exact Function.update_of_ne hne _ _
      · rfl
  rw [hinv i, Nat.zero_add]
  simp [hi]

variable {ι β : Type*}

/-- A loop that stores an element in every turn, and fails if a turn does. -/
def collect (turn : ι → σ → Option (β × σ)) : List ι → σ → Option (List β × σ)
  | [], s => some ([], s)
  | i :: is, s => (turn i s).bind fun r => (collect turn is r.2).map fun rs => (r.1 :: rs.1, rs.2)

/-- **The rule of a loop that stores elements.**  If it depends on the index alone whether a turn
stores what it should, then it does in every turn. -/
theorem collect_iff {turn : ι → σ → Option (β × σ)} {P : β → Prop} {Q : ι → Prop}
    (hturn : ∀ i s, (∃ r, turn i s = some r ∧ P r.1) ↔ Q i) (is : List ι) (s : σ) :
    (∃ rs, collect turn is s = some rs ∧ ∀ b ∈ rs.1, P b) ↔ ∀ i ∈ is, Q i := by
  induction is generalizing s with
  | nil => simp [collect]
  | cons i is ih =>
    rw [List.forall_mem_cons, ← hturn i s, collect]
    constructor
    · rintro ⟨rs, hrs, hP⟩
      obtain ⟨r, hr, hrs⟩ := Option.bind_eq_some_iff.mp hrs
      obtain ⟨rest, hrest, rfl⟩ := Option.map_eq_some_iff.mp hrs
      rw [List.forall_mem_cons] at hP
      exact ⟨⟨r, hr, hP.1⟩, (ih r.2).mp ⟨rest, hrest, hP.2⟩⟩
    · rintro ⟨⟨r, hr, hP⟩, hQ⟩
      obtain ⟨rest, hrest, hall⟩ := (ih r.2).mpr hQ
      refine ⟨(r.1 :: rest.1, rest.2), ?_, List.forall_mem_cons.mpr ⟨hP, hall⟩⟩
      rw [hr, Option.bind_some, hrest, Option.map_some]

/-- A loop that returns what the first turn finds that finds something. -/
def firstFound (turn : ℕ → Option β) (n : ℕ) : Option β := (List.range n).findSome? turn

variable {turn : ℕ → Option β} {n : ℕ} {b : β}

theorem firstFound_eq_none_iff : firstFound turn n = none ↔ ∀ i < n, turn i = none := by
  simp [firstFound]

theorem firstFound_zero : firstFound turn 0 = none := rfl

theorem firstFound_succ : firstFound turn (n + 1) = (firstFound turn n).or (turn n) := by
  simp [firstFound, List.range_succ]

/-- **The turn that returns is the first one that finds something.** -/
theorem firstFound_eq_some_iff : firstFound turn n = some b ↔
    ∃ i < n, turn i = some b ∧ ∀ j < i, turn j = none := by
  induction n with
  | zero => simp [firstFound_zero]
  | succ n ih =>
    rw [firstFound_succ, Option.or_eq_some_iff, ih, firstFound_eq_none_iff]
    constructor
    · intro h
      rcases h with ⟨i, hi, hb⟩ | ⟨hnone, hb⟩
      · exact ⟨i, Nat.lt_succ_of_lt hi, hb⟩
      · exact ⟨n, Nat.lt_succ_self n, hb, hnone⟩
    · intro h
      obtain ⟨i, hi, hb, hnone⟩ := h
      rcases Nat.lt_succ_iff_lt_or_eq.mp hi with hlt | heq
      · exact .inl ⟨i, hlt, hb, hnone⟩
      · subst heq
        exact .inr ⟨hnone, hb⟩

end Loops
