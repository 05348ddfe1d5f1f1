import Mathlib.Data.Int.Notation
import Mathlib.Tactic.Ring
import OpenCLCTS.Lib.Loops

/-!
# Comparing rows in two memories

A check of two addresses says whether something is as it should be, or cannot say (`none`).
`firstBad` looks for the first element of a row that is not; `scanRows` goes over the rows
of slices with a pointer into each of the memories, and stops where the check does not hold.

`scanRows_scanned`: if the loop comes to its end, all rows were as they should be, and
otherwise there is a row for which the check was false or could not say.
-/

namespace Scan

open Loops

/-! ### Elements of a row -/

/-- The first of `n` elements, which have numbers from `column` on, for which `bad` holds; the
number behind the last one if there is none. -/
def firstBad (bad : ℤ → ℤ → Option Bool) (size : ℕ) : (n column : ℕ) → ℤ → ℤ → Option ℕ
  | 0, column, _, _ => some column
  | n + 1, column, a, b => do
    if ← bad a b then return column
    firstBad bad size n (column + 1) (a + size) (b + size)

variable {bad : ℤ → ℤ → Option Bool} {size n m column : ℕ} {a b : ℤ}

theorem firstBad_succ (hbad : bad a b = some false) :
    firstBad bad size (n + 1) column a b
      = firstBad bad size n (column + 1) (a + size) (b + size) := by
  rw [firstBad, hbad]
  rfl

theorem firstBad_add (hgood : ∀ c < m, bad (a + c * size) (b + c * size) = some false) :
    firstBad bad size (m + n) column a b
      = firstBad bad size n (column + m) (a + m * size) (b + m * size) := by
  induction m generalizing column a b with
  | zero => simp
  | succ m ih =>
    have hfirst : bad a b = some false := by simpa using hgood 0 (Nat.succ_pos m)
    rw [Nat.succ_add, firstBad_succ hfirst, ih fun c hc => by
      have := hgood (c + 1) (Nat.succ_lt_succ hc)
      rwa [Nat.cast_succ, add_mul, one_mul, add_comm _ (size : ℤ), ← add_assoc, ← add_assoc] at this]
    rw [Nat.cast_succ, show column + 1 + m = column + (m + 1) by omega,
      show a + size + m * size = a + (m + 1) * size by ring,
      show b + size + m * size = b + (m + 1) * size by ring]

theorem firstBad_of_good (hgood : ∀ c < n, bad (a + c * size) (b + c * size) = some false) :
    firstBad bad size n 0 a b = some n := by
  have h : firstBad bad size (n + 0) 0 a b = _ := firstBad_add hgood
  rwa [Nat.add_zero, firstBad, Nat.zero_add] at h

theorem firstBad_of_bad {c : ℕ} (hc : c < n) (hbad : bad (a + c * size) (b + c * size) = some true)
    (hgood : ∀ d < c, bad (a + d * size) (b + d * size) = some false) :
    firstBad bad size n 0 a b = some c := by
  obtain ⟨k, rfl⟩ : ∃ k, n = c + (k + 1) := ⟨n - c - 1, by omega⟩
  rw [firstBad_add hgood, firstBad, hbad, Nat.zero_add]
  rfl

theorem firstBad_of_none {c : ℕ} (hc : c < n) (hbad : bad (a + c * size) (b + c * size) = none)
    (hgood : ∀ d < c, bad (a + d * size) (b + d * size) = some false) :
    firstBad bad size n 0 a b = none := by
  obtain ⟨k, rfl⟩ : ∃ k, n = c + (k + 1) := ⟨n - c - 1, by omega⟩
  rw [firstBad_add hgood, firstBad, hbad]
  rfl

theorem firstBad_of_ne_true (h : ∀ c : ℕ, bad (a + c * size) (b + c * size) ≠ some true) :
    firstBad bad size n column a b = none ∨ firstBad bad size n column a b = some (column + n) := by
  induction n generalizing column a b with
  | zero => exact .inr rfl
  | succ n ih =>
    have hfirst : bad a b ≠ some true := by simpa using h 0
    have hrest (c : ℕ) : bad (a + size + c * size) (b + size + c * size) ≠ some true := by
      have := h (c + 1)
      rwa [Nat.cast_succ, add_mul, one_mul, add_comm _ (size : ℤ), ← add_assoc, ← add_assoc] at this
    cases hb : bad a b with
    | none =>
      rw [firstBad, hb]
      exact .inl rfl
    | some differs =>
      obtain rfl : differs = false := Bool.eq_false_of_not_eq_true fun he => hfirst (he ▸ hb)
      rw [firstBad_succ hb, show column + (n + 1) = column + 1 + n by omega]
      exact ih hrest

/-! ### Rows -/

/-- Where the loop is and how many rows are behind it, or how it has been left. -/
inductive Progress
  | running (src dest : ℤ) (passed : ℕ)
  | failed
  | unknown
  deriving DecidableEq

/-- Compares two rows and goes on to the next ones. -/
def Progress.row (check : ℤ → ℤ → Option Bool) (srcRow destRow : ℤ) : Progress → Progress
  | .running src dest passed =>
    match check src dest with
    | some true => .running (src + srcRow) (dest + destRow) (passed + 1)
    | some false => .failed
    | none => .unknown
  | p => p

/-- Moves the pointers behind a slice. -/
def Progress.skip (srcSkip destSkip : ℤ) : Progress → Progress
  | .running src dest passed => .running (src + srcSkip) (dest + destSkip) passed
  | p => p

/-- The numbers of rows and slices, and how far the pointers are moved. -/
structure Steps where
  rows : ℕ
  slices : ℕ
  srcRow : ℤ
  srcSkip : ℤ
  destRow : ℤ
  destSkip : ℤ

/-- The loops over the slices and their rows. -/
def scanRows (s : Steps) (check : ℤ → ℤ → Option Bool) (src dest : ℤ) : Progress :=
  (List.range' 0 s.slices).foldl (fun p _ =>
    ((List.range' 0 s.rows).foldl (fun p _ => p.row check s.srcRow s.destRow) p).skip
      s.srcSkip s.destSkip) (.running src dest 0)

/-- Row `y` of slice `z` of the first memory. -/
def Steps.srcAt (s : Steps) (src : ℤ) (z y : ℕ) : ℤ :=
  src + z * (s.rows * s.srcRow + s.srcSkip) + y * s.srcRow

/-- Row `y` of slice `z` of the second memory. -/
def Steps.destAt (s : Steps) (dest : ℤ) (z y : ℕ) : ℤ :=
  dest + z * (s.rows * s.destRow + s.destSkip) + y * s.destRow

/-- The rows before row `y` of slice `z`. -/
def Steps.Before (s : Steps) (z y z' y' : ℕ) : Prop := z' < z ∧ y' < s.rows ∨ z' = z ∧ y' < y

/-- What is known in front of row `y` of slice `z`. -/
def Scanned (s : Steps) (check : ℤ → ℤ → Option Bool) (src dest : ℤ) (z y : ℕ) : Progress → Prop
  | .running a b passed => a = s.srcAt src z y ∧ b = s.destAt dest z y ∧
    passed = z * s.rows + y ∧ ∀ z' y', s.Before z y z' y' → check (s.srcAt src z' y') (s.destAt dest z' y') = some true
  | .failed => ∃ z' y', z' < s.slices ∧ y' < s.rows ∧
    check (s.srcAt src z' y') (s.destAt dest z' y') = some false
  | .unknown => ∃ z' y', z' < s.slices ∧ y' < s.rows ∧
    check (s.srcAt src z' y') (s.destAt dest z' y') = none

variable {s : Steps} {check : ℤ → ℤ → Option Bool} {src dest : ℤ} {z y : ℕ} {p : Progress}

/-- **One more row.** -/
theorem Scanned.row (h : Scanned s check src dest z y p) (hz : z < s.slices) (hy : y < s.rows) :
    Scanned s check src dest z (y + 1) (p.row check s.srcRow s.destRow) := by
  cases p with
  | failed => exact h
  | unknown => exact h
  | running a b passed =>
    obtain ⟨rfl, rfl, rfl, hbefore⟩ := h
    rw [Progress.row]
    cases hc : check (s.srcAt src z y) (s.destAt dest z y) with
    | none => exact ⟨z, y, hz, hy, hc⟩
    | some ok =>
      cases ok with
      | false => exact ⟨z, y, hz, hy, hc⟩
      | true =>
        refine ⟨?_, ?_, rfl, ?_⟩
        · simp only [Steps.srcAt, Nat.cast_succ]
          ring
        · simp only [Steps.destAt, Nat.cast_succ]
          ring
        · rintro z' y' (hlt | ⟨rfl, hlt⟩)
          · exact hbefore z' y' (.inl hlt)
          · rcases Nat.lt_succ_iff_lt_or_eq.mp hlt with hlt | rfl
            · exact hbefore z' y' (.inr ⟨rfl, hlt⟩)
            · exact hc

/-- **One more slice.** -/
theorem Scanned.slice (h : Scanned s check src dest z 0 p) (hz : z < s.slices) :
    Scanned s check src dest (z + 1) 0
      (((List.range' 0 s.rows).foldl (fun p _ => p.row check s.srcRow s.destRow) p).skip
        s.srcSkip s.destSkip) := by
  have hloop := foldl_invariant (f := fun p _ => p.row check s.srcRow s.destRow)
    (I := fun y p => Scanned s check src dest z y p) (a := 0) (n := s.rows)
    (fun y p _ hy hp => hp.row hz (show y < s.rows by omega)) h
  rw [Nat.zero_add] at hloop
  revert hloop
  cases (List.range' 0 s.rows).foldl (fun p _ => p.row check s.srcRow s.destRow) p with
  | failed => exact id
  | unknown => exact id
  | running a b passed =>
    rintro ⟨rfl, rfl, rfl, hbefore⟩
    refine ⟨?_, ?_, by rw [Nat.succ_mul, Nat.add_zero], ?_⟩
    · simp only [Steps.srcAt, Nat.cast_succ, Nat.cast_zero]
      ring
    · simp only [Steps.destAt, Nat.cast_succ, Nat.cast_zero]
      ring
    · rintro z' y' (⟨hlt, hy⟩ | ⟨rfl, hy⟩)
      · rcases Nat.lt_succ_iff_lt_or_eq.mp hlt with hlt | rfl
        · exact hbefore z' y' (.inl ⟨hlt, hy⟩)
        · exact hbefore z' y' (.inr ⟨rfl, hy⟩)
      · exact absurd hy (Nat.not_lt_zero y')

/-- **What the loop says about the rows.** -/
theorem scanRows_scanned (s : Steps) (check : ℤ → ℤ → Option Bool) (src dest : ℤ) :
    Scanned s check src dest s.slices 0 (scanRows s check src dest) := by
  have hloop := foldl_invariant (f := fun p _ =>
      ((List.range' 0 s.rows).foldl (fun p _ => p.row check s.srcRow s.destRow) p).skip
        s.srcSkip s.destSkip)
    (I := fun z p => Scanned s check src dest z 0 p) (a := 0) (n := s.slices)
    (fun z p _ hz hp => hp.slice (show z < s.slices by omega)) (s := .running src dest 0) ?_
  · rwa [Nat.zero_add] at hloop
  · refine ⟨by simp [Steps.srcAt], by simp [Steps.destAt], by rw [Nat.zero_mul], ?_⟩
    rintro z' y' (⟨hlt, _⟩ | ⟨_, hlt⟩)
    · exact absurd hlt (Nat.not_lt_zero z')
    · exact absurd hlt (Nat.not_lt_zero y')

/-- Whether the loop came to its end, if the check could always say. -/
def Progress.verdict : Progress → Option Bool
  | .running _ _ _ => some true
  | .failed => some false
  | .unknown => none

theorem of_verdict_true (h : (scanRows s check src dest).verdict = some true) {z y : ℕ}
    (hz : z < s.slices) (hy : y < s.rows) :
    check (s.srcAt src z y) (s.destAt dest z y) = some true := by
  have hs := scanRows_scanned s check src dest
  cases hp : scanRows s check src dest with
  | running a b passed =>
    rw [hp] at hs
    exact hs.2.2.2 z y (.inl ⟨hz, hy⟩)
  | failed => simp [hp, Progress.verdict] at h
  | unknown => simp [hp, Progress.verdict] at h

theorem of_verdict_false (h : (scanRows s check src dest).verdict = some false) :
    ∃ z y, z < s.slices ∧ y < s.rows ∧
      check (s.srcAt src z y) (s.destAt dest z y) = some false := by
  have hs := scanRows_scanned s check src dest
  cases hp : scanRows s check src dest with
  | running a b passed => simp [hp, Progress.verdict] at h
  | failed => rwa [hp] at hs
  | unknown => simp [hp, Progress.verdict] at h

theorem of_verdict_none (h : (scanRows s check src dest).verdict = none) :
    ∃ z y, z < s.slices ∧ y < s.rows ∧
      check (s.srcAt src z y) (s.destAt dest z y) = none := by
  have hs := scanRows_scanned s check src dest
  cases hp : scanRows s check src dest with
  | running a b passed => simp [hp, Progress.verdict] at h
  | failed => simp [hp, Progress.verdict] at h
  | unknown => rwa [hp] at hs

theorem passed_eq {a b : ℤ} {passed : ℕ} (h : scanRows s check src dest = .running a b passed) :
    passed = s.slices * s.rows := by
  have hs := scanRows_scanned s check src dest
  rw [h] at hs
  exact hs.2.2.1

end Scan
