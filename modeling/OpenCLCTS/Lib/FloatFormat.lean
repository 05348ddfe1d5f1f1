import Mathlib.Algebra.Order.Ring.Rat
import Mathlib.Data.Rat.Floor

/-!
# Binary interchange formats

The fields of a number, its class, and the rational number it stands for.
`floatClass_eq_normal`: the numbers whose exponent has a bit that is set and one that is not are
the normal ones.
-/

/-- A format with a sign, an exponent and a mantissa. -/
structure FloatFormat where
  exponentBits : ℕ
  mantissaBits : ℕ

namespace FloatFormat

def binary16 : FloatFormat := ⟨5, 10⟩

def binary32 : FloatFormat := ⟨8, 23⟩

def binary64 : FloatFormat := ⟨11, 52⟩

/-- What a number is. -/
inductive Class
  | zero
  | subnormal
  | normal
  | infinite
  | nan
  deriving DecidableEq

variable (f : FloatFormat) {w : ℕ} (b : BitVec w)

def exponent : BitVec f.exponentBits := b.extractLsb' f.mantissaBits f.exponentBits

def mantissa : BitVec f.mantissaBits := b.extractLsb' 0 f.mantissaBits

def floatClass : Class :=
  if f.exponent b = BitVec.allOnes f.exponentBits then
    if f.mantissa b = 0#f.mantissaBits then .infinite else .nan
  else if f.exponent b = 0#f.exponentBits then
    if f.mantissa b = 0#f.mantissaBits then .zero else .subnormal
  else .normal

variable {f b}

theorem floatClass_of_allOnes (h : f.exponent b = BitVec.allOnes f.exponentBits) :
    f.floatClass b = if f.mantissa b = 0#f.mantissaBits then .infinite else .nan := by
  rw [floatClass, if_pos h]

theorem floatClass_of_ne (h : f.exponent b ≠ BitVec.allOnes f.exponentBits) :
    f.floatClass b = if f.exponent b = 0#f.exponentBits then
      if f.mantissa b = 0#f.mantissaBits then .zero else .subnormal else .normal := by
  rw [floatClass, if_neg h]

theorem exponent_eq_iff {e : BitVec f.exponentBits} {c : Bool}
    (he : ∀ i < f.exponentBits, e.getLsbD i = c) :
    f.exponent b = e ↔ ∀ i < f.exponentBits, b.getLsbD (f.mantissaBits + i) = c := by
  have hbit : ∀ i < f.exponentBits, (f.exponent b).getLsbD i = b.getLsbD (f.mantissaBits + i) := by
    intro i hi
    rw [exponent, BitVec.getLsbD_extractLsb', decide_eq_true hi, Bool.true_and]
  constructor
  · intro h i hi
    rw [← hbit i hi, h, he i hi]
  · intro h
    apply BitVec.eq_of_getLsbD_eq
    intro i hi
    rw [hbit i hi, h i hi, he i hi]

theorem exponent_eq_allOnes : f.exponent b = BitVec.allOnes f.exponentBits ↔
    ∀ i < f.exponentBits, b.getLsbD (f.mantissaBits + i) = true :=
  exponent_eq_iff fun i hi => by rw [BitVec.getLsbD_allOnes, decide_eq_true hi]

theorem exponent_eq_zero : f.exponent b = 0#f.exponentBits ↔
    ∀ i < f.exponentBits, b.getLsbD (f.mantissaBits + i) = false :=
  exponent_eq_iff fun _ _ => BitVec.getLsbD_zero

/-- **The normal numbers.** -/
theorem floatClass_eq_normal : f.floatClass b = .normal ↔
    (∃ i < f.exponentBits, b.getLsbD (f.mantissaBits + i) = false) ∧
      ∃ i < f.exponentBits, b.getLsbD (f.mantissaBits + i) = true := by
  have hiff : f.floatClass b = .normal ↔ ¬ f.exponent b = BitVec.allOnes f.exponentBits ∧
      ¬ f.exponent b = 0#f.exponentBits := by
    by_cases h : f.exponent b = BitVec.allOnes f.exponentBits
    · rw [floatClass_of_allOnes h]
      split <;> simp [h]
    · rw [floatClass_of_ne h]
      split
      · rename_i h0
        split <;> simp [h0]
      · rename_i h0
        simp [h, h0]
  rw [hiff, exponent_eq_allOnes, exponent_eq_zero]
  push Not
  simp only [ne_eq, Bool.not_eq_true, Bool.not_eq_false]

/-! ### Magnitudes -/

theorem mod_eq (f : FloatFormat) (b : BitVec w) : b.toNat % 2 ^ (f.mantissaBits + f.exponentBits)
    = (f.exponent b).toNat * 2 ^ f.mantissaBits + (f.mantissa b).toNat := by
  have hextract (start len : ℕ) : (b.extractLsb' start len).toNat = b.toNat / 2 ^ start % 2 ^ len := by
    rw [BitVec.extractLsb'_toNat, Nat.shiftRight_eq_div_pow]
  rw [exponent, mantissa, hextract, hextract, Nat.pow_add, Nat.mod_mul, Nat.pow_zero, Nat.div_one,
    Nat.mul_comm, Nat.add_comm]

/-- **What is not a number** is above infinity. -/
theorem floatClass_eq_nan : f.floatClass b = .nan ↔
    (2 ^ f.exponentBits - 1) * 2 ^ f.mantissaBits
      < b.toNat % 2 ^ (f.mantissaBits + f.exponentBits) := by
  have hexp := (f.exponent b).isLt
  have hman := (f.mantissa b).isLt
  have hiff : f.floatClass b = .nan ↔
      f.exponent b = BitVec.allOnes f.exponentBits ∧ f.mantissa b ≠ 0#f.mantissaBits := by
    by_cases h : f.exponent b = BitVec.allOnes f.exponentBits
    · rw [floatClass_of_allOnes h]
      simp [h]
    · rw [floatClass_of_ne h]
      split
      · split <;> simp [h]
      · simp [h]
  rw [hiff, mod_eq, ← BitVec.toNat_inj, ne_eq, ← BitVec.toNat_inj, BitVec.toNat_allOnes,
    show (0#f.mantissaBits).toNat = 0 by simp]
  constructor
  · intro h
    rw [h.1]
    omega
  · intro h
    have hall : (f.exponent b).toNat = 2 ^ f.exponentBits - 1 := by
      by_contra hne
      have hle := Nat.mul_le_mul_right (2 ^ f.mantissaBits)
        (show (f.exponent b).toNat + 1 ≤ 2 ^ f.exponentBits - 1 by omega)
      rw [Nat.succ_mul] at hle
      omega
    refine ⟨hall, ?_⟩
    rw [hall] at h
    omega

theorem floatClass_iff_of_exponent (hbits : 0 < f.exponentBits) :
    (f.floatClass b = .zero ↔ f.exponent b = 0#f.exponentBits ∧ f.mantissa b = 0#f.mantissaBits) ∧
      (f.floatClass b = .subnormal ↔
        f.exponent b = 0#f.exponentBits ∧ f.mantissa b ≠ 0#f.mantissaBits) := by
  have hne : (0#f.exponentBits) ≠ BitVec.allOnes f.exponentBits := by
    have hpow : 1 < 2 ^ f.exponentBits := Nat.one_lt_two_pow hbits.ne'
    rw [ne_eq, ← BitVec.toNat_inj, BitVec.toNat_allOnes]
    simp
    omega
  by_cases h : f.exponent b = BitVec.allOnes f.exponentBits
  · rw [floatClass_of_allOnes h, h]
    split <;> simp [hne.symm]
  · rw [floatClass_of_ne h]
    by_cases h0 : f.exponent b = 0#f.exponentBits
    · simp [h0]
    · simp [h0]

/-- **The zeros.** -/
theorem floatClass_eq_zero (hbits : 0 < f.exponentBits) : f.floatClass b = .zero ↔
    b.toNat % 2 ^ (f.mantissaBits + f.exponentBits) = 0 := by
  rw [(floatClass_iff_of_exponent hbits).1, mod_eq, ← BitVec.toNat_inj, ← BitVec.toNat_inj]
  simp

end FloatFormat
