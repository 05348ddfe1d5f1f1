import Mathlib.Data.Nat.Bitwise
import Mathlib.Tactic.Common

/-!
# Fields of a word

A field of a word is a number of bits that start at a shift.  Numbers are put into fields that
do not meet; what is got from a field is what was put into it (`get_putFields`).
-/

namespace Fields

structure Field where
  shift : ℕ
  bits : ℕ

/-- `(word >> shift) & (2 ** bits - 1)`. -/
def Field.get (f : Field) (word : ℕ) : ℕ := word >>> f.shift &&& (2 ^ f.bits - 1)

/-- `(v & (2 ** bits - 1)) << shift`. -/
def Field.put (f : Field) (v : ℕ) : ℕ := (v &&& (2 ^ f.bits - 1)) <<< f.shift

/-- Puts the numbers for `i`, `i + 1`, … into fields. -/
def putFields (value : Field → ℕ → ℕ) : List Field → ℕ → ℕ
  | [], _ => 0
  | f :: fs, i => f.put (value f i) ||| putFields value fs (i + 1)

/-- Every field is above the ones that follow. -/
def Above (f g : Field) : Prop := g.shift + g.bits ≤ f.shift

instance : DecidableRel Above := fun f g => inferInstanceAs (Decidable (g.shift + g.bits ≤ f.shift))

variable {f g : Field} {fs : List Field} {value : Field → ℕ → ℕ} {i j k v word : ℕ}

theorem testBit_get : (f.get word).testBit j = (word.testBit (f.shift + j) && decide (j < f.bits)) := by
  rw [Field.get, Nat.testBit_and, Nat.testBit_shiftRight, Nat.testBit_two_pow_sub_one]

theorem testBit_put : (f.put v).testBit j
    = (decide (f.shift ≤ j) && (v.testBit (j - f.shift) && decide (j - f.shift < f.bits))) := by
  rw [Field.put, Nat.testBit_shiftLeft, Nat.testBit_and, Nat.testBit_two_pow_sub_one]

theorem get_put_self : f.get (f.put v) = v % 2 ^ f.bits := by
  apply Nat.eq_of_testBit_eq
  intro j
  rw [testBit_get, testBit_put, Nat.add_sub_cancel_left, Nat.testBit_mod_two_pow]
  simp only [Nat.le_add_right, decide_true, Bool.true_and]
  cases v.testBit j <;> simp

theorem get_put_of_apart (h : Above f g ∨ Above g f) : f.get (g.put v) = 0 := by
  apply Nat.eq_of_testBit_eq
  intro j
  rw [testBit_get, testBit_put, Nat.zero_testBit]
  rcases h with h | h
  · simp only [Above] at h
    simp
    omega
  · simp only [Above] at h
    simp
    omega

theorem get_or (a b : ℕ) : f.get (a ||| b) = f.get a ||| f.get b := by
  apply Nat.eq_of_testBit_eq
  intro j
  rw [testBit_get, Nat.testBit_or, Nat.testBit_or, testBit_get, testBit_get, Bool.and_or_distrib_right]

theorem get_zero : f.get 0 = 0 := by
  rw [Field.get, Nat.zero_shiftRight, Nat.zero_and]

/-- The bits above the field do not matter. -/
theorem get_mod_two_pow {n : ℕ} (h : f.shift + f.bits ≤ n) : f.get (word % 2 ^ n) = f.get word := by
  apply Nat.eq_of_testBit_eq
  intro j
  rw [testBit_get, testBit_get, Nat.testBit_mod_two_pow]
  by_cases hj : j < f.bits
  · rw [decide_eq_true (show f.shift + j < n by omega), Bool.true_and]
  · rw [decide_eq_false hj, Bool.and_false, Bool.and_false]

theorem get_putFields_of_apart (h : ∀ g ∈ fs, Above f g ∨ Above g f) :
    f.get (putFields value fs i) = 0 := by
  induction fs generalizing i with
  | nil => exact get_zero
  | cons g fs ih =>
    rw [putFields, get_or, get_put_of_apart (h g List.mem_cons_self),
      ih fun g' hg' => h g' (List.mem_cons_of_mem g hg'), Nat.zero_or]

/-- **What is got from a field is what was put into it.** -/
theorem get_putFields (h : fs.Pairwise Above) (hf : fs[k]? = some f) :
    f.get (putFields value fs i) = value f (i + k) % 2 ^ f.bits := by
  induction fs generalizing i k with
  | nil => cases hf
  | cons g fs ih =>
    obtain ⟨habove, hrest⟩ := List.pairwise_cons.mp h
    rw [putFields, get_or]
    cases k with
    | zero =>
      obtain rfl : g = f := Option.some.inj hf
      rw [get_put_self, get_putFields_of_apart fun g' hg' => .inl (habove g' hg'), Nat.or_zero,
        Nat.add_zero]
    | succ k =>
      have hmem : f ∈ fs := List.mem_of_getElem? hf
      rw [get_put_of_apart (.inr (habove f hmem)), ih hrest hf, Nat.zero_or,
        Nat.add_right_comm, Nat.add_assoc]

end Fields
