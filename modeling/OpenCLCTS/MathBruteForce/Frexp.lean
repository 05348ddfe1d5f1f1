import OpenCLCTS.IntegerOps.Arithmetic
import OpenCLCTS.MathBruteForce.Fmal
import OpenCLCTS.MathBruteForce.Scalbn

/-!
# Fractions and exponents

`fallback_frexpf`, `fallback_frexp` and `reference_frexp` take numbers apart in their bits, and
leave only subnormal numbers to a subtraction or a conversion; `extractf` and `extract` use the
first two if the library's function does not pass a test.

* `exact_fallbackFrexpWith`: **the fraction and the exponent are exact**, for any format.
* `frexp_exact`: so are those of the three functions, and what is computed from them.
-/

namespace OpenCLCTS.MathBruteForce

open FloatFormat

/-! ### The functions -/

/-- The constants of `fallback_frexpf` and `fallback_frexp`. -/
structure FallbackConstants (w : ℕ) where
  exponentMask : BitVec w
  /-- What is added to the exponent. -/
  one : BitVec w
  limit : BitVec w
  /-- The bits of 0.5. -/
  half : BitVec w
  topMask : BitVec w
  shift : ℕ
  subnormalBias : ℤ
  bias : ℤ

/-- `*iptr`: an unsigned sum that is converted to `int`. -/
def storedExponent {w : ℕ} (shift : ℕ) (exponent : BitVec w) (bias : ℤ) : ℤ :=
  ((exponent >>> shift + BitVec.ofInt w bias).setWidth 32).toInt

/-- The two functions, with their constants. -/
def fallbackFrexpWith (f : FloatFormat) {w : ℕ} (c : FallbackConstants w) (x : BitVec w) :
    Flagged (BitVec w × ℤ) :=
  let exponent := (x &&& c.exponentMask) + c.one
  let mantissa := x &&& ~~~c.exponentMask
  if exponent.slt c.limit then do
    -- subnormal, NaN, Inf
    let u := mantissa ||| c.half
    let v := u &&& c.topMask
    let u ← f.sub u v
    pure (u &&& ~~~c.exponentMask ||| c.half,
      storedExponent c.shift (u &&& c.exponentMask) c.subnormalBias)
  else pure (mantissa ||| c.half, storedExponent c.shift exponent c.bias)

def frexpfConstants : FallbackConstants 32 where
  exponentMask := 0x7f800000
  one := 0x00800000
  limit := 0x01000000
  half := 0x3f000000
  topMask := 0xff800000
  shift := 23
  subnormalBias := -126 + 1 - 126
  bias := -127

def frexpConstants : FallbackConstants 64 where
  exponentMask := 0x7ff0000000000000
  one := 0x0010000000000000
  limit := 0x0020000000000000
  half := 0x3fe0000000000000
  topMask := 0xfff0000000000000
  shift := 52
  subnormalBias := -1022 + 1 - 1022
  bias := -1023

/-- `fallback_frexpf`. -/
def fallbackFrexpf := fallbackFrexpWith binary32 frexpfConstants

/-- `fallback_frexp`. -/
def fallbackFrexp := fallbackFrexpWith binary64 frexpConstants

/-- `u` and `bias`, for the bits of an absolute value; those of a subnormal number are converted
from an integer. -/
def biasedBits (l : BitVec 64) : Flagged (BitVec 64 × ℤ) :=
  if l &&& 0x7ff0000000000000 = 0 then do
    let d ← binary64.rounded false l.toNat
    pure (d, -1022 - 1074)
  else pure (l, -1022)

/-- The mantissa of `u` with the exponent of 0.5 and the sign of `a`. -/
def setHalf (u a : BitVec 64) : BitVec 64 :=
  let mask : BitVec 64 := 0x000fffffffffffff
  let msb : BitVec 64 := 0x8000000000000000
  (u &&& mask) ||| (1022#64 <<< 52) ||| (a &&& msb)

/-- `reference_frexp`. -/
def referenceFrexp (a : BitVec 64) : Flagged (BitVec 64 × ℤ) :=
  if binary64.floatClass a = .nan ∨ binary64.floatClass a = .infinite ∨
      binary64.floatClass a = .zero then pure (a, 0)
  else do
    let u ← biasedBits (a &&& 0x7fffffffffffffff)
    pure (setHalf u.1 a, exponentField u.1 + u.2)

/-- `frexppf` and `frexpp`: the function of the library, if it passes the test, or the other one. -/
def verifiedFrexp {w : ℕ} (fallback : BitVec w → Flagged (BitVec w × ℤ))
    (library : BitVec w → BitVec w × ℤ) (probe half : BitVec w) (e : ℤ) (x : BitVec w) :
    Flagged (BitVec w × ℤ) :=
  if (library probe).1 = half ∧ (library probe).2 = e then pure (library x) else fallback x

/-- What is computed from the fraction, which is multiplied by a power of two. -/
def extractWith (f : FloatFormat) {w : ℕ} (frexpp : BitVec w → Flagged (BitVec w × ℤ))
    (power x : BitVec w) : Flagged (BitVec w × ℤ) := do
  let r ← frexpp x
  let product ← f.mul power (f.fabs r.1)
  pure (BitVec.ofInt w ⌊f.value product⌋, r.2 - 1)

/-- `extractf`, with `frexpf` of the library. -/
def extractfChecked (frexpf : BitVec 32 → BitVec 32 × ℤ) (x : BitVec 32) :
    Flagged (BitVec 32 × ℤ) :=
  extractWith binary32 (verifiedFrexp fallbackFrexpf frexpf 0x00080000 0x3f000000 (-129)) 0x4f800000
    x

/-- `extract`, with `frexp` of the library. -/
def extractChecked (frexp : BitVec 64 → BitVec 64 × ℤ) (x : BitVec 64) :
    Flagged (BitVec 64 × ℤ) :=
  extractWith binary64
    (verifiedFrexp fallbackFrexp frexp 0x0000100000000000 0x3fe0000000000000 (-1029))
    0x43f0000000000000 x

/-! ### Fractions -/

/-- The fraction and the exponent of a number. -/
structure IsFrexp (f : FloatFormat) {w : ℕ} (x : BitVec w) (r : BitVec w × ℤ) : Prop where
  finite : f.Finite r.1
  half_le : 1 / 2 ≤ |f.value r.1|
  lt_one : |f.value r.1| < 1
  sign : f.signBit r.1 = f.signBit x
  value : f.value x = f.value r.1 * 2 ^ r.2

/-- The constants belong to a format; `h` is the exponent of 0.5. -/
structure FallbackConstants.Of {w : ℕ} (c : FallbackConstants w) (f : FloatFormat) (h : ℕ) :
    Prop where
  width : w = f.mantissaBits + f.exponentBits + 1
  exponentMask : c.exponentMask.toNat = 2 ^ f.mantissaBits * (2 ^ f.exponentBits - 1)
  one : c.one.toNat = 2 ^ f.mantissaBits
  limit : c.limit.toNat = 2 ^ f.mantissaBits * 2
  half : c.half.toNat = 2 ^ f.mantissaBits * h
  topMask : c.topMask.toNat = 2 ^ f.mantissaBits * (2 ^ (f.exponentBits + 1) - 1)
  shift : c.shift = f.mantissaBits
  subnormalBias : c.subnormalBias = 2 * f.minExp + 1
  bias : c.bias = f.minExp - 1
  minExp : f.minExp = -h
  lt_half : f.mantissaBits < h
  half_lt : h + 1 < 2 ^ f.exponentBits
  small : f.exponentBits ≤ 30
  wide : 32 ≤ w

theorem frexpfConstants_of : frexpfConstants.Of binary32 126 := by
  constructor <;> decide

theorem frexpConstants_of : frexpConstants.Of binary64 1022 := by
  constructor <;> decide

section

variable {f : FloatFormat} {w h : ℕ} {c : FallbackConstants w} {x y : BitVec w}

theorem testBit_mask (t n i : ℕ) :
    (2 ^ t * (2 ^ n - 1)).testBit i = decide (t ≤ i ∧ i < t + n) := by
  rw [Nat.testBit_two_pow_mul, Nat.testBit_two_pow_sub_one]
  by_cases hi : t ≤ i
  · simp [hi]
    omega
  · simp [hi]

theorem FallbackConstants.Of.and_exponentMask (hc : c.Of f h) (x : BitVec w) :
    (x &&& c.exponentMask).toNat
      = 2 ^ f.mantissaBits * (f.magnitudeBits x / 2 ^ f.mantissaBits) := by
  refine Nat.eq_of_testBit_eq ?_
  intro i
  rw [BitVec.toNat_and, Nat.testBit_and, hc.exponentMask, testBit_mask, Nat.testBit_two_pow_mul,
    Nat.testBit_div_two_pow, magnitudeBits, Nat.testBit_mod_two_pow]
  by_cases hi : f.mantissaBits ≤ i
  · rw [Nat.sub_add_cancel hi]
    simp [hi, Bool.and_comm]
  · simp [hi]

/-- **A mantissa with the exponent of 0.5.** -/
theorem FallbackConstants.Of.or_half (hc : c.Of f h) (x : BitVec w) :
    f.magnitudeBits (x &&& ~~~c.exponentMask ||| c.half)
        = 2 ^ f.mantissaBits * h + f.magnitudeBits x % 2 ^ f.mantissaBits ∧
      f.signBit (x &&& ~~~c.exponentMask ||| c.half) = f.signBit x := by
  have hmask (i : ℕ) : c.exponentMask.getLsbD i
      = decide (f.mantissaBits ≤ i ∧ i < f.mantissaBits + f.exponentBits) := by
    rw [BitVec.getLsbD, hc.exponentMask, testBit_mask]
  have hhalf (i : ℕ) : c.half.getLsbD i
      = (decide (f.mantissaBits ≤ i) && h.testBit (i - f.mantissaBits)) := by
    rw [BitVec.getLsbD, hc.half, Nat.testBit_two_pow_mul]
  have hh {i : ℕ} (hi : f.exponentBits ≤ i) : h.testBit i = false :=
    Nat.testBit_lt_two_pow (lt_of_lt_of_le (by have := hc.half_lt; omega)
      (Nat.pow_le_pow_right two_pos hi))
  have hbit {i : ℕ} (hi : i < w) : (x &&& ~~~c.exponentMask ||| c.half).getLsbD i
      = (x.getLsbD i && !decide (f.mantissaBits ≤ i ∧ i < f.mantissaBits + f.exponentBits)
        || (decide (f.mantissaBits ≤ i) && h.testBit (i - f.mantissaBits))) := by
    rw [BitVec.getLsbD_or, BitVec.getLsbD_and, BitVec.getLsbD_not, hmask, hhalf, decide_eq_true hi,
      Bool.true_and]
  have hw := hc.width
  constructor
  · refine Nat.eq_of_testBit_eq ?_
    intro i
    have hlt := Nat.mod_lt (f.magnitudeBits x) (Nat.two_pow_pos f.mantissaBits)
    rw [Nat.testBit_two_pow_mul_add _ hlt, Nat.testBit_mod_two_pow, magnitudeBits, magnitudeBits,
      Nat.testBit_mod_two_pow, Nat.testBit_mod_two_pow, ← BitVec.getLsbD, ← BitVec.getLsbD]
    by_cases hi : i < f.mantissaBits + f.exponentBits
    · rw [hbit (by omega)]
      by_cases hm : i < f.mantissaBits
      · simp [hm, hi, not_le.mpr hm]
      · simp [hm, hi, not_lt.mp hm]
    · rw [if_neg (by omega), hh (by omega)]
      simp [hi]
  · rw [signBit, signBit, hbit (by omega), Nat.add_sub_cancel_left, hh le_rfl]
    simp

theorem FallbackConstants.Of.and_topMask (hc : c.Of f h) (x : BitVec w) :
    f.magnitudeBits (x &&& c.topMask)
        = 2 ^ f.mantissaBits * (f.magnitudeBits x / 2 ^ f.mantissaBits) + 0 ∧
      f.signBit (x &&& c.topMask) = f.signBit x := by
  have hmask (i : ℕ) : c.topMask.toNat.testBit i
      = decide (f.mantissaBits ≤ i ∧ i < f.mantissaBits + (f.exponentBits + 1)) := by
    rw [hc.topMask, testBit_mask]
  have hw := hc.width
  constructor
  · refine Nat.eq_of_testBit_eq ?_
    intro i
    rw [Nat.add_zero, magnitudeBits, magnitudeBits, Nat.testBit_mod_two_pow, BitVec.toNat_and,
      Nat.testBit_and, hmask, Nat.testBit_two_pow_mul, Nat.testBit_div_two_pow,
      Nat.testBit_mod_two_pow]
    by_cases hi : f.mantissaBits ≤ i
    · rw [Nat.sub_add_cancel hi]
      by_cases hlt : i < f.mantissaBits + f.exponentBits
      · simp [hi, hlt]
        omega
      · simp [hlt]
    · simp [hi]
  · rw [signBit, signBit, BitVec.getLsbD_and, BitVec.getLsbD, BitVec.getLsbD, hmask]
    simp

theorem storedExponent_eq (hw : 32 ≤ w) {shift k : ℕ} {b : ℤ} {e : BitVec w}
    (he : e.toNat = 2 ^ shift * k) (hlo : -2 ^ 31 ≤ k + b) (hhi : k + b < 2 ^ 31) :
    storedExponent shift e b = k + b := by
  have hshift : e >>> shift = BitVec.ofNat w k := by
    refine BitVec.eq_of_toNat_eq ?_
    have hlt := (e >>> shift).isLt
    rw [BitVec.toNat_ushiftRight, he, Nat.shiftRight_eq_div_pow,
      Nat.mul_div_cancel_left _ (Nat.two_pow_pos shift)] at hlt ⊢
    rw [BitVec.toNat_ofNat, Nat.mod_eq_of_lt hlt]
  rw [storedExponent, hshift, ← BitVec.ofInt_natCast, ← BitVec.ofInt_add,
    Conversions.CType.setWidth_ofInt hw,
    BitVec.toInt_ofInt_eq_self (by decide) (by omega) (by omega)]

theorem FallbackConstants.Of.half_value (hc : c.Of f h) {m : ℕ} (hm : m < 2 ^ f.mantissaBits)
    (hy : f.magnitudeBits y = 2 ^ f.mantissaBits * h + m) : f.Finite y ∧
      |f.value y| = (2 ^ f.mantissaBits + m : ℕ) * 2 ^ (-1 - f.mantissaBits : ℤ) := by
  have hone : 1 ≤ h := Nat.one_le_of_lt hc.lt_half
  constructor
  · have hlt := hc.half_lt
    have hmul := Nat.mul_le_mul_left (2 ^ f.mantissaBits)
      (show h + 1 ≤ 2 ^ f.exponentBits - 1 by omega)
    rw [finite_iff, hy, finiteCount, Nat.mul_comm (2 ^ f.exponentBits - 1)]
    rw [Nat.mul_add, Nat.mul_one] at hmul
    omega
  · rw [abs_value_eq, hy, magnitude_mul_add hm, if_neg (by omega), Nat.max_eq_left hone, hc.minExp]
    congr 2
    ring

/-- **A fraction** is at least 1/2 and less than 1. -/
theorem fraction_mem {t m : ℕ} (hm : m < 2 ^ t) :
    1 / 2 ≤ ((2 ^ t + m : ℕ) : ℚ) * 2 ^ (-1 - t : ℤ) ∧
      ((2 ^ t + m : ℕ) : ℚ) * 2 ^ (-1 - t : ℤ) < 1 := by
  have hpos := two_zpow_pos (-1 - t : ℤ)
  have hlow : (2 ^ t : ℚ) * 2 ^ (-1 - t : ℤ) = 1 / 2 := by
    rw [← zpow_natCast, ← zpow_add₀ two_ne_zero, add_sub_cancel, zpow_neg_one, one_div]
  have hle : (2 ^ t : ℚ) ≤ (2 ^ t + m : ℕ) := by
    exact_mod_cast Nat.le_add_right _ _
  have hlt : ((2 ^ t + m : ℕ) : ℚ) < 2 * 2 ^ t := by
    exact_mod_cast (by omega : 2 ^ t + m < 2 * 2 ^ t)
  have hmul := mul_le_mul_of_nonneg_right hle hpos.le
  have hmul' := mul_lt_mul_of_pos_right hlt hpos
  rw [hlow] at hmul
  rw [mul_assoc, hlow] at hmul'
  constructor
  · exact hmul
  · linarith

/-- **The fraction in the bits of a word** and an exponent, of a number with the same sign. -/
theorem FallbackConstants.Of.isFrexp (hc : c.Of f h) {m : ℕ} {e : ℤ}
    (hm : m < 2 ^ f.mantissaBits) (hy : f.magnitudeBits y = 2 ^ f.mantissaBits * h + m)
    (hsign : f.signBit y = f.signBit x)
    (hvalue : |f.value x| = (2 ^ f.mantissaBits + m : ℕ) * 2 ^ (-1 - f.mantissaBits + e)) :
    IsFrexp f x (y, e) := by
  obtain ⟨hfinite, hvalue'⟩ := hc.half_value hm hy
  obtain ⟨hhalf, hone⟩ := fraction_mem hm
  rw [← hvalue'] at hhalf hone
  refine ⟨hfinite, hhalf, hone, hsign, ?_⟩
  have hx := value_eq_sgn f x
  have hy := value_eq_sgn f y
  rw [signBit, signBit] at hsign
  rw [hx, hy, hsign, hvalue, hvalue', zpow_add₀ two_ne_zero]
  ring

theorem FallbackConstants.Of.represents (hc : c.Of f h) {m : ℕ} (hm : m < 2 ^ f.mantissaBits)
    (hy : f.magnitudeBits y = 2 ^ f.mantissaBits * h + m) :
    f.Represents y (sgn (f.signBit y)
      * ((2 ^ f.mantissaBits + m : ℕ) * 2 ^ (-1 - f.mantissaBits : ℤ))) := by
  obtain ⟨hfinite, hvalue⟩ := hc.half_value hm hy
  have hpos := (fraction_mem hm).1
  have hy := value_eq_sgn f y
  rw [hvalue] at hy
  rw [signBit, ← hy]
  refine .of_ne_zero hfinite ?_
  rw [← abs_pos, hvalue]
  linarith

theorem exponent_lt (hx : f.Finite x) :
    f.magnitudeBits x / 2 ^ f.mantissaBits + 1 < 2 ^ f.exponentBits := by
  have hlt := (f.finite_iff x).mp hx
  rw [finiteCount, ← Nat.div_lt_iff_lt_mul (Nat.two_pow_pos _)] at hlt
  generalize f.magnitudeBits x / 2 ^ f.mantissaBits = e at hlt ⊢
  omega

theorem FallbackConstants.Of.slt_limit (hc : c.Of f h) (hx : f.Finite x) :
    ((x &&& c.exponentMask) + c.one).toNat
        = 2 ^ f.mantissaBits * (f.magnitudeBits x / 2 ^ f.mantissaBits + 1) ∧
      (((x &&& c.exponentMask) + c.one).slt c.limit = true ↔
        f.magnitudeBits x / 2 ^ f.mantissaBits = 0) := by
  have hexp := exponent_lt hx
  have hmask := hc.and_exponentMask x
  generalize f.magnitudeBits x / 2 ^ f.mantissaBits = e at hexp hmask ⊢
  have hpos := Nat.two_pow_pos f.mantissaBits
  have hdouble : 2 ^ w = 2 * (2 ^ f.mantissaBits * 2 ^ f.exponentBits) := by
    rw [hc.width, Nat.pow_succ, Nat.pow_add, Nat.mul_comm]
  have hsum : 2 ^ f.mantissaBits * (e + 1) < 2 ^ f.mantissaBits * 2 ^ f.exponentBits :=
    Nat.mul_lt_mul_of_pos_left hexp hpos
  have htwo : 2 ^ f.mantissaBits * 2 < 2 ^ f.mantissaBits * 2 ^ f.exponentBits := by
    have hlow := hc.lt_half
    have hhalf := hc.half_lt
    exact Nat.mul_lt_mul_of_pos_left (by omega) hpos
  have hlimit := hc.limit
  have hexponent : ((x &&& c.exponentMask) + c.one).toNat = 2 ^ f.mantissaBits * (e + 1) := by
    rw [BitVec.toNat_add, hmask, hc.one, ← Nat.mul_add_one, Nat.mod_eq_of_lt (by omega)]
  refine ⟨hexponent, ?_⟩
  rw [BitVec.slt_iff_toInt_lt, BitVec.toInt_eq_toNat_of_lt (by omega),
    BitVec.toInt_eq_toNat_of_lt (by omega), hexponent, hlimit, Nat.cast_lt,
    Nat.mul_lt_mul_left hpos]
  omega

/-- **A subnormal number**: what is left of a mantissa without its leading bit. -/
theorem exact_subnormal (hc : c.Of f h)
    (hsub : f.magnitudeBits x / 2 ^ f.mantissaBits = 0) :
    Exact (f.sub (x &&& ~~~c.exponentMask ||| c.half)
        ((x &&& ~~~c.exponentMask ||| c.half) &&& c.topMask) : Flagged (BitVec w))
      fun r => f.Represents r (f.value x * 2 ^ (h - 1 : ℤ)) := by
  obtain ⟨hbits, hsign⟩ := hc.or_half x
  obtain ⟨hbits', hsign'⟩ := hc.and_topMask (x &&& ~~~c.exponentMask ||| c.half)
  have hm := Nat.mod_lt (f.magnitudeBits x) (Nat.two_pow_pos f.mantissaBits)
  have hmag := magnitude_mul_add (f := f) (e := 0) hm
  have hdiv := Nat.div_add_mod (f.magnitudeBits x) (2 ^ f.mantissaBits)
  rw [hsub] at hdiv
  rw [hdiv, if_pos rfl, Nat.zero_add, Nat.max_eq_right (by omega), hc.minExp] at hmag
  rw [hbits, Nat.mul_add_div (Nat.two_pow_pos _), Nat.div_eq_of_lt hm, Nat.add_zero] at hbits'
  have hu := hc.represents hm hbits
  have hv := hc.represents (Nat.two_pow_pos _) hbits'
  obtain ⟨m, hmdef⟩ : ∃ m, m = f.magnitudeBits x % 2 ^ f.mantissaBits := ⟨_, rfl⟩
  rw [hsign', hsign] at hv
  rw [hsign] at hu
  rw [← hmdef] at hm hmag hu
  have hdiff : sgn (f.signBit x) * ((2 ^ f.mantissaBits + m : ℕ) * 2 ^ (-1 - f.mantissaBits : ℤ))
      - sgn (f.signBit x) * ((2 ^ f.mantissaBits + 0 : ℕ) * 2 ^ (-1 - f.mantissaBits : ℤ))
        = f.value x * 2 ^ (h - 1 : ℤ) := by
    rw [value_eq_sgn f x, abs_value_eq, hmag, mul_assoc, mul_assoc, ← zpow_add₀ two_ne_zero,
      ← mul_sub, ← sub_mul, Nat.add_zero, Nat.cast_add, add_sub_cancel_left, signBit]
    congr 3
    push_cast
    ring
  have hfits : f.Fits (f.value x * 2 ^ (h - 1 : ℤ)) := by
    have hlow := hc.lt_half
    refine ⟨(number_value x f).mul_two_zpow (by omega), lt_of_le_of_lt ?_ hu.fits.2⟩
    have hpos := two_zpow_pos (-1 - f.mantissaBits : ℤ)
    have hle : (m : ℚ) ≤ ((2 ^ f.mantissaBits : ℕ) : ℚ) + m :=
      le_add_of_nonneg_left (Nat.cast_nonneg (2 ^ f.mantissaBits))
    rw [← hdiff, ← mul_sub, ← sub_mul, abs_sgn_mul, abs_sgn_mul, Nat.add_zero, Nat.cast_add,
      add_sub_cancel_left,
      abs_of_nonneg (mul_nonneg (Nat.cast_nonneg m) hpos.le),
      abs_of_nonneg (mul_nonneg ((Nat.cast_nonneg m).trans hle) hpos.le)]
    exact mul_le_mul_of_nonneg_right hle hpos.le
  rw [← hdiff] at hfits ⊢
  exact exact_sub hc.width hu hv hfits

/-- **The fraction and the exponent of a finite number that is not 0 are exact.** -/
theorem exact_fallbackFrexpWith (hc : c.Of f h) (hx : f.Finite x) (h0 : f.value x ≠ 0) :
    Exact (fallbackFrexpWith f c x) (IsFrexp f x) := by
  obtain ⟨hexponent, hslt⟩ := hc.slt_limit hx
  have hwide := Nat.pow_le_pow_right two_pos hc.small
  have hhalf := hc.half_lt
  have hmin := hc.minExp
  rw [fallbackFrexpWith, hc.shift, hc.subnormalBias, hc.bias]
  refine .ite ?_ ?_
  · intro hlt
    refine (exact_subnormal hc (hslt.mp hlt)).bind ?_
    intro r hr
    obtain ⟨hbits, hsign⟩ := hc.or_half r
    have hpow := two_zpow_pos (h - 1)
    have hleast : 2 ^ f.minExp ≤ |f.value r| := by
      have hlow := hc.lt_half
      have hle := mul_le_mul_of_nonneg_right ((number_value x f).le_abs h0) hpow.le
      rw [← zpow_add₀ two_ne_zero] at hle
      rw [hr.value, abs_mul, abs_of_pos hpow]
      exact (zpow_le_zpow_right₀ one_le_two (by omega)).trans hle
    obtain ⟨e, m, he, hm, hfields, hvalue⟩ := exists_fields hleast
    have hdiv : f.magnitudeBits r / 2 ^ f.mantissaBits = e := by
      rw [hfields, Nat.mul_add_div (Nat.two_pow_pos _), Nat.div_eq_of_lt hm, Nat.add_zero]
    have hr' := exponent_lt hr.finite
    have hmask := hc.and_exponentMask r
    rw [hdiv] at hr' hmask
    rw [hfields, Nat.mul_add_mod, Nat.mod_eq_of_lt hm] at hbits
    refine .of_pure ?_
    rw [storedExponent_eq hc.wide hmask (by omega) (by omega)]
    refine hc.isFrexp hm hbits ?_ ?_
    · rw [hsign, hr.signBit_eq, (Represents.of_ne_zero hx h0).signBit_eq]
      simp only [mul_neg_iff, hpow, hpow.not_gt]
      simp
    · rw [hr.value, abs_mul, abs_of_pos hpow] at hvalue
      rw [← mul_left_inj' hpow.ne', hvalue, mul_assoc, ← zpow_add₀ two_ne_zero, hmin]
      congr 2
      ring
  · intro hge
    obtain ⟨hbits, hsign⟩ := hc.or_half x
    have hmod := Nat.mod_lt (f.magnitudeBits x) (Nat.two_pow_pos f.mantissaBits)
    have hmag := magnitude_mul_add (f := f) (e := f.magnitudeBits x / 2 ^ f.mantissaBits) hmod
    have hne := hslt.not.mp hge
    have hexp := exponent_lt hx
    rw [Nat.div_add_mod, if_neg hne, ← abs_value_eq] at hmag
    obtain ⟨e, he⟩ : ∃ e, e = f.magnitudeBits x / 2 ^ f.mantissaBits := ⟨_, rfl⟩
    rw [← he] at hexponent hmag hne hexp
    rw [Nat.max_eq_left (by omega)] at hmag
    refine .of_pure ?_
    rw [storedExponent_eq hc.wide hexponent (by omega) (by omega)]
    refine hc.isFrexp hmod hbits hsign ?_
    rw [hmag]
    congr 2
    push_cast
    ring

theorem exact_fallbackFrexpf {x : BitVec 32} (hx : binary32.Finite x) (h0 : binary32.value x ≠ 0) :
    Exact (fallbackFrexpf x) (IsFrexp binary32 x) :=
  exact_fallbackFrexpWith frexpfConstants_of hx h0

theorem exact_fallbackFrexp {x : BitVec 64} (hx : binary64.Finite x) (h0 : binary64.value x ≠ 0) :
    Exact (fallbackFrexp x) (IsFrexp binary64 x) :=
  exact_fallbackFrexpWith frexpConstants_of hx h0

/-- **The exponent** of a number is the logarithm and 1. -/
theorem IsFrexp.log {r : BitVec w × ℤ} (hr : IsFrexp f x r) :
    Int.log 2 |f.value x| = r.2 - 1 := by
  have hpow := two_zpow_pos r.2
  have hle := mul_le_mul_of_nonneg_right hr.half_le hpow.le
  have hlt := mul_lt_mul_of_pos_right hr.lt_one hpow
  have habs : |f.value x| = |f.value r.1| * 2 ^ r.2 := by
    rw [hr.value, abs_mul, abs_of_pos hpow]
  rw [← habs, one_div, ← zpow_neg_one, ← zpow_add₀ two_ne_zero] at hle
  rw [← habs, one_mul] at hlt
  have hpos : 0 < |f.value x| := (two_zpow_pos _).trans_le hle
  have hle' := (Int.zpow_le_iff_le_log one_lt_two hpos).mp hle
  have hlt' := (Int.lt_zpow_iff_log_lt one_lt_two hpos).mp hlt
  omega

/-- **There is one fraction and one exponent** of a number. -/
theorem IsFrexp.unique (hw : w = f.mantissaBits + f.exponentBits + 1) {r r' : BitVec w × ℤ}
    (hr : IsFrexp f x r) (hr' : IsFrexp f x r') : r = r' := by
  have hexp : r.2 = r'.2 := by
    have hlog := hr.log
    rw [hr'.log] at hlog
    omega
  have hvalue : f.value r.1 = f.value r'.1 := by
    have heq := hr.value
    rw [hr'.value, hexp] at heq
    exact (mul_right_cancel₀ (two_zpow_pos r'.2).ne' heq).symm
  have hbits : f.magnitudeBits r.1 = f.magnitudeBits r'.1 := by
    apply f.magnitude_strictMono.injective
    rw [← abs_value_eq, ← abs_value_eq, hvalue]
  have hsign : f.signBit r.1 = f.signBit r'.1 := by
    rw [hr.sign, hr'.sign]
  refine Prod.ext (BitVec.eq_of_toNat_eq ?_) hexp
  rw [signBit, signBit] at hsign
  rw [toNat_eq_add hw, toNat_eq_add hw, hbits, hsign]

/-! ### Mantissas as words -/

theorem exact_verifiedFrexp {fallback : BitVec w → Flagged (BitVec w × ℤ)}
    {library : BitVec w → BitVec w × ℤ} {probe half : BitVec w} {e : ℤ}
    (hlibrary : (library probe).1 = half ∧ (library probe).2 = e → IsFrexp f x (library x))
    (hfallback : Exact (fallback x) (IsFrexp f x)) :
    Exact (verifiedFrexp fallback library probe half e x) (IsFrexp f x) := by
  rw [verifiedFrexp]
  refine .ite ?_ ?_
  · intro h
    exact .of_pure (hlibrary h)
  · intro _
    exact hfallback

/-- **The mantissa and the exponent** of a number whose fraction is found. -/
theorem exact_extractWith {frexpp : BitVec w → Flagged (BitVec w × ℤ)} {power : BitVec w}
    (hw : w = f.mantissaBits + f.exponentBits + 1) (hfrexpp : Exact (frexpp x) (IsFrexp f x))
    (hpower : f.Represents power (2 ^ w)) :
    Exact (extractWith f frexpp power x) fun r => r = extractWord f w x := by
  refine hfrexpp.bind ?_
  intro r hr
  have hfabs := represents_fabs hw hr.finite
  have hpos : 0 < |f.value r.1| := by
    linarith [hr.half_le]
  have htwo : (0 : ℚ) < 2 ^ w := by positivity
  have hfits : f.Fits (2 ^ w * |f.value r.1|) := by
    constructor
    · rw [mul_comm, ← zpow_natCast, ← hfabs.value]
      exact (number_value _ f).mul_two_zpow (Int.natCast_nonneg w)
    · rw [abs_of_pos (mul_pos htwo hpos)]
      have hbound := hpower.fits.2
      rw [abs_of_pos htwo] at hbound
      exact (mul_lt_of_lt_one_right htwo hr.lt_one).trans hbound
  refine (exact_mul hw hpower hfabs hfits hpos).bind ?_
  intro product hproduct
  refine .of_pure ?_
  have hfraction : f.value x / 2 ^ (Int.log 2 |f.value x| + 1) = f.value r.1 := by
    rw [hr.log, sub_add_cancel, hr.value, mul_div_cancel_right₀ _ (two_zpow_pos _).ne']
  rw [extractWord, frexp, hproduct.value]
  dsimp only
  rw [hfraction, hr.log, sub_add_cancel]

theorem IsFrexp.extractWord_eq {t : ℕ} {r : BitVec w × ℤ} (hr : IsFrexp f x r)
    (ht : f.mantissaBits ≤ t) : 2 ^ t ≤ (extractWord f (t + 1) x).1.toNat ∧
      ((extractWord f (t + 1) x).1.toNat : ℚ) = 2 ^ (t + 1) * |f.value r.1| ∧
      (extractWord f (t + 1) x).2 = r.2 - 1 := by
  have hpow := two_zpow_pos r.2
  have hexp : (extractWord f (t + 1) x).2 = r.2 - 1 := by
    rw [extractWord, frexp, hr.log, sub_add_cancel]
  have h0 : f.value x ≠ 0 := by
    rw [hr.value, mul_ne_zero_iff, ← abs_pos]
    exact ⟨by linarith [hr.half_le], hpow.ne'⟩
  obtain ⟨hm, -, hvalue⟩ := MathBruteForce.extractWord_eq h0 ht
  refine ⟨hm, ?_, hexp⟩
  rw [hr.value, abs_mul, abs_of_pos hpow, hexp] at hvalue
  have hsplit : (2 : ℚ) ^ r.2 = 2 ^ (t + 1) * 2 ^ (r.2 - 1 - t) := by
    rw [← zpow_natCast, ← zpow_add₀ two_ne_zero]
    congr 1
    push_cast
    ring
  rw [hsplit, ← mul_assoc, mul_left_inj' (two_zpow_pos _).ne', mul_comm] at hvalue
  exact hvalue.symm

end

/-! ### `reference_frexp` -/

section

variable {x u : BitVec 64}

theorem setHalf_fields (u a : BitVec 64) :
    binary64.magnitudeBits (setHalf u a) = 2 ^ 52 * 1022 + binary64.magnitudeBits u % 2 ^ 52 ∧
      binary64.signBit (setHalf u a) = binary64.signBit a := by
  have hbit (i : ℕ) : (setHalf u a).toNat.testBit i
      = (u.toNat.testBit i && decide (0 ≤ i ∧ i < 0 + 52)
        || (decide (52 ≤ i) && (1022 : ℕ).testBit (i - 52))
        || a.toNat.testBit i && decide (63 ≤ i ∧ i < 63 + 1)) := by
    rw [setHalf, BitVec.toNat_or, BitVec.toNat_or, BitVec.toNat_and, BitVec.toNat_and,
      Nat.testBit_or, Nat.testBit_or, Nat.testBit_and, Nat.testBit_and,
      show (0x000fffffffffffff : BitVec 64).toNat = 2 ^ 0 * (2 ^ 52 - 1) from rfl,
      show (0x8000000000000000 : BitVec 64).toNat = 2 ^ 63 * (2 ^ 1 - 1) from rfl,
      show (1022#64 <<< 52).toNat = 2 ^ 52 * 1022 from rfl, testBit_mask, testBit_mask,
      Nat.testBit_two_pow_mul]
  have hhalf {i : ℕ} (hi : 63 ≤ i) : (1022 : ℕ).testBit (i - 52) = false :=
    Nat.testBit_lt_two_pow (lt_of_lt_of_le (by decide : 1022 < 2 ^ 11)
      (Nat.pow_le_pow_right two_pos (by omega)))
  constructor
  · refine Nat.eq_of_testBit_eq ?_
    intro i
    rw [Nat.testBit_two_pow_mul_add _ (Nat.mod_lt _ (Nat.two_pow_pos 52)), magnitudeBits,
      magnitudeBits, show binary64.mantissaBits + binary64.exponentBits = 63 from rfl,
      Nat.testBit_mod_two_pow, Nat.testBit_mod_two_pow, Nat.testBit_mod_two_pow, hbit]
    by_cases hi : i < 63
    · by_cases hm : i < 52
      · simp [hm, hi, not_le.mpr hm, not_le.mpr hi]
      · simp [hm, hi, not_lt.mp hm, not_le.mpr hi]
    · rw [if_neg (by omega), hhalf (by omega)]
      simp [hi]
  · rw [signBit, signBit, show binary64.mantissaBits + binary64.exponentBits = 63 from rfl,
      BitVec.getLsbD, BitVec.getLsbD, hbit, hhalf le_rfl]
    simp

theorem and_not_msb (x : BitVec 64) :
    (x &&& 0x7fffffffffffffff).toNat = binary64.magnitudeBits x := by
  rw [BitVec.toNat_and, show (0x7fffffffffffffff : BitVec 64).toNat = 2 ^ 63 - 1 from rfl,
    Nat.and_two_pow_sub_one_eq_mod]
  rfl

theorem fits_natCast {m : ℕ} (hm : m < 2 ^ 52) : binary64.Fits (m : ℚ) := by
  refine ⟨⟨m, 0, by decide, ?_, by simp⟩, ?_⟩
  · rw [abs_of_nonneg (Int.natCast_nonneg m)]
    exact_mod_cast hm.trans (by decide)
  · have hlt : (m : ℚ) < 2 ^ (52 : ℤ) := by
      exact_mod_cast hm
    rw [abs_of_nonneg (Nat.cast_nonneg m), magnitude_finiteCount_binary64]
    exact hlt.trans_le (zpow_le_zpow_right₀ one_le_two (by decide))

theorem exact_rounded_natCast {m : ℕ} (hm : m < 2 ^ 52) (hne : m ≠ 0) :
    Exact (binary64.rounded false m : Flagged (BitVec 64)) fun r =>
      (m : ℚ) = (2 ^ 52 + binary64.magnitudeBits r % 2 ^ 52 : ℕ)
        * 2 ^ (exponentField r - 1023 - (52 : ℕ) : ℤ) := by
  have hcast : |(m : ℚ)| = m := abs_of_nonneg (Nat.cast_nonneg m)
  have hle : (2 : ℚ) ^ (-1022 : ℤ) ≤ |(m : ℚ)| := by
    have hone : (1 : ℚ) ≤ m := by
      exact_mod_cast Nat.one_le_iff_ne_zero.mpr hne
    rw [hcast]
    exact (zpow_le_one_of_nonpos₀ one_le_two (by decide)).trans hone
  refine Exact.mono (exact_rounded (w := 64) rfl (fits_natCast hm) fun _ => rfl) ?_
  intro r hr
  obtain ⟨e', m', -, -, hm', hfields, hfield, hvalue⟩ := exists_fields_binary64 hr hle
  rw [hcast] at hvalue
  rw [hfield, hfields, Nat.mul_add_mod, Nat.mod_eq_of_lt hm']
  exact hvalue

/-- **The bits of a number with a leading bit**, and its exponent. -/
theorem exact_biasedBits (hx : binary64.Finite x) (h0 : binary64.value x ≠ 0) :
    Exact (biasedBits (x &&& 0x7fffffffffffffff)) fun p => |binary64.value x|
      = (2 ^ 52 + binary64.magnitudeBits p.1 % 2 ^ 52 : ℕ)
        * 2 ^ (-1 - (52 : ℕ) + (exponentField p.1 + p.2) : ℤ) := by
  have hl := and_not_msb x
  generalize x &&& 0x7fffffffffffffff = l at hl ⊢
  have hfinite := (binary64.finite_iff x).mp hx
  rw [show binary64.finiteCount = 2 ^ 52 * 2047 from rfl] at hfinite
  have hmag : binary64.magnitudeBits l = binary64.magnitudeBits x := by
    rw [magnitudeBits, hl]
    exact Nat.mod_eq_of_lt magnitudeBits_lt
  have hmask : (l &&& 0x7ff0000000000000).toNat = 2 ^ 52 * (binary64.magnitudeBits x / 2 ^ 52) := by
    rw [← hmag]
    exact frexpConstants_of.and_exponentMask l
  have hzero : l &&& 0x7ff0000000000000 = 0 ↔ binary64.magnitudeBits x / 2 ^ 52 = 0 := by
    rw [← BitVec.toNat_inj, hmask]
    simp
  have hbits := (Nat.div_add_mod (binary64.magnitudeBits x) (2 ^ 52)).symm
  have hm := Nat.mod_lt (binary64.magnitudeBits x) (Nat.two_pow_pos 52)
  rw [biasedBits]
  refine .ite ?_ ?_
  · intro hsub
    rw [hzero] at hsub
    have hrep := Represents.of_ne_zero hx h0
    obtain ⟨hm52, habs, -⟩ := abs_of_exponentField hrep (by rw [exponentField_eq, hsub]; rfl)
    have hne : binary64.magnitudeBits x ≠ 0 := by
      intro h
      rw [h, Nat.cast_zero, zero_mul, abs_eq_zero] at habs
      exact h0 habs
    rw [hl]
    refine (exact_rounded_natCast hm52 hne).bind ?_
    intro r hr
    refine .of_pure ?_
    rw [habs, hr, mul_assoc, ← zpow_add₀ two_ne_zero]
    congr 2
    push_cast
    ring
  · intro hnormal
    rw [hzero] at hnormal
    have hvalue := (value_of_fields hbits hm (by omega) (by omega)).2
    refine .of_pure ?_
    rw [hvalue, exponentField_eq, hmag]
    congr 2
    push_cast
    ring

/-- **`reference_frexp` is exact.** -/
theorem exact_referenceFrexp (hx : binary64.Finite x) (h0 : binary64.value x ≠ 0) :
    Exact (referenceFrexp x) (IsFrexp binary64 x) := by
  obtain ⟨hnan, hinf, hzero⟩ := hx.floatClass_eq (by decide)
  rw [referenceFrexp, if_neg (by rw [hzero]; tauto)]
  refine (exact_biasedBits hx h0).bind ?_
  intro u hu
  obtain ⟨hbits, hsign⟩ := setHalf_fields u.1 x
  exact .of_pure (frexpConstants_of.isFrexp (Nat.mod_lt _ (Nat.two_pow_pos 52)) hbits hsign hu)

end

/-! ### All functions -/

/-- A function of the library that passes the test is right for all numbers. -/
def VerifiedBy (f : FloatFormat) {w : ℕ} (library : BitVec w → BitVec w × ℤ) (probe half : BitVec w)
    (e : ℤ) : Prop :=
  (library probe).1 = half ∧ (library probe).2 = e →
    ∀ x, f.Finite x → f.value x ≠ 0 → IsFrexp f x (library x)

/-- **The fractions and the exponents are exact**, those of `fallback_frexp` and `reference_frexp`
are the same, and the exponents of `reference_ilogbl`, `extractf` and `extract` are less by 1. -/
theorem frexp_exact (gDeviceILogb0 gDeviceILogbNaN : ℤ) (frexpf : BitVec 32 → BitVec 32 × ℤ)
    (frexp : BitVec 64 → BitVec 64 × ℤ)
    (hfrexpf : VerifiedBy binary32 frexpf 0x00080000 0x3f000000 (-129))
    (hfrexp : VerifiedBy binary64 frexp 0x0000100000000000 0x3fe0000000000000 (-1029)) :
    (∀ x : BitVec 32, binary32.Finite x → binary32.value x ≠ 0 →
      Exact (fallbackFrexpf x) fun r => IsFrexp binary32 x r ∧
        Exact (extractfChecked frexpf x) fun m => 2 ^ 31 ≤ m.1.toNat ∧
          (m.1.toNat : ℚ) = 2 ^ 32 * |binary32.value r.1| ∧ m.2 = r.2 - 1) ∧
    (∀ x : BitVec 64, binary64.Finite x → binary64.value x ≠ 0 →
      Exact (fallbackFrexp x) fun r => IsFrexp binary64 x r ∧
        Exact (referenceFrexp x) (fun r' => r' = r) ∧
        Exact (referenceIlogbl gDeviceILogb0 gDeviceILogbNaN x) (fun e => e = r.2 - 1) ∧
        Exact (extractChecked frexp x) fun m => 2 ^ 63 ≤ m.1.toNat ∧
          (m.1.toNat : ℚ) = 2 ^ 64 * |binary64.value r.1| ∧ m.2 = r.2 - 1) := by
  constructor
  · intro x hx h0
    have hfallback := exact_fallbackFrexpf hx h0
    have hpower : binary32.Represents (0x4f800000 : BitVec 32) (2 ^ 32) :=
      ⟨by decide, by decide +kernel, fun h => absurd h (by norm_num)⟩
    have hextract := exact_extractWith rfl
      (exact_verifiedFrexp (fun h => hfrexpf h x hx h0) hfallback) hpower
    refine hfallback.mono fun r hr => ⟨hr, hextract.mono ?_⟩
    rintro m rfl
    exact hr.extractWord_eq (t := 31) (by decide)
  · intro x hx h0
    have hfallback := exact_fallbackFrexp hx h0
    have hpower : binary64.Represents (0x43f0000000000000 : BitVec 64) (2 ^ 64) :=
      ⟨by decide, by decide +kernel, fun h => absurd h (by norm_num)⟩
    have hextract := exact_extractWith rfl
      (exact_verifiedFrexp (fun h => hfrexp h x hx h0) hfallback) hpower
    have hrep := Represents.of_ne_zero hx h0
    refine hfallback.mono fun r hr => ⟨hr, ?_, ?_, hextract.mono ?_⟩
    · exact (exact_referenceFrexp hx h0).mono fun r' hr' => hr'.unique rfl hr
    · refine (exact_ilogbBits_abs gDeviceILogb0 gDeviceILogbNaN hrep hrep h0).mono ?_
      rintro e rfl
      exact hr.log
    · rintro m rfl
      exact hr.extractWord_eq (t := 63) (by decide)

theorem verifiedBy_of_exact {f : FloatFormat} {w : ℕ} {g : BitVec w → Flagged (BitVec w × ℤ)}
    (hg : ∀ x, f.Finite x → f.value x ≠ 0 → Exact (g x) (IsFrexp f x)) (probe half : BitVec w)
    (e : ℤ) : VerifiedBy f (fun x => (g x false).1) probe half e := by
  intro _ x hx h0
  obtain ⟨r, hr, hfrexp⟩ := hg x hx h0 false
  show IsFrexp f x (g x false).1
  rw [hr]
  exact hfrexp

/-- The least subnormal numbers. -/
theorem frexp_exact_least :
    (Exact (fallbackFrexpf 1) fun r => IsFrexp binary32 (1 : BitVec 32) r ∧
      Exact (extractfChecked (fun x => (fallbackFrexpf x false).1) 1) fun m =>
        2 ^ 31 ≤ m.1.toNat ∧ (m.1.toNat : ℚ) = 2 ^ 32 * |binary32.value r.1| ∧ m.2 = r.2 - 1) ∧
    (Exact (fallbackFrexp 1) fun r => IsFrexp binary64 (1 : BitVec 64) r ∧
      Exact (referenceFrexp 1) (fun r' => r' = r) ∧
      Exact (referenceIlogbl 0 0 1) (fun e => e = r.2 - 1) ∧
      Exact (extractChecked (fun x => (fallbackFrexp x false).1) 1) fun m =>
        2 ^ 63 ≤ m.1.toNat ∧ (m.1.toNat : ℚ) = 2 ^ 64 * |binary64.value r.1| ∧ m.2 = r.2 - 1) := by
  have h32 : binary32.Finite (1 : BitVec 32) := by decide
  have h64 : binary64.Finite (1 : BitVec 64) := by decide
  have h32' := (h32.floatClass_eq (by decide)).2.2.not.mp (by decide)
  have h64' := (h64.floatClass_eq (by decide)).2.2.not.mp (by decide)
  have hboth := frexp_exact 0 0 (fun x => (fallbackFrexpf x false).1)
    (fun x => (fallbackFrexp x false).1)
    (verifiedBy_of_exact (fun _ => exact_fallbackFrexpf) _ _ _)
    (verifiedBy_of_exact (fun _ => exact_fallbackFrexp) _ _ _)
  exact ⟨hboth.1 1 h32 h32', hboth.2 1 h64 h64'⟩

end OpenCLCTS.MathBruteForce
