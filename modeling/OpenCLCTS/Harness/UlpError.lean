import OpenCLCTS.Lib.Binary32

/-!
# Errors in units of the last place

`Ulp_Error` and `Ulp_Error_Half_Float`: how far a result is from its reference, in units of the
last place that the reference has in the format of the result.

`ulpError_iff`: when the arithmetic of the exponents does not overflow, and the error is the
difference divided by the unit.
-/

namespace OpenCLCTS.Harness

open FloatFormat

/-- What the two functions have different: `FLT_MANT_DIG` and `FLT_MIN_EXP`, or those of halves,
and the exponent of the number that stands for an infinite result. -/
structure UlpFormat where
  mantDig : ℤ
  minExp : ℤ
  overflowExp : ℤ

def ulpFormatHalf : UlpFormat := ⟨11, -13, 16⟩

def ulpFormatFloat : UlpFormat := ⟨24, -125, 128⟩

/-- The result of arithmetic on `int`, if it does not overflow. -/
def checked (x : ℤ) : Option ℤ := if -2 ^ 31 ≤ x ∧ x < 2 ^ 31 then some x else none

/-- `ilogb`; it gives `ilogbZero` for 0. -/
def ilogb (ilogbZero : ℤ) (q : ℚ) : ℤ := if q = 0 then ilogbZero else Int.log 2 |q|

/-- The value of a double. -/
def doubleValue (b : BitVec 64) : Binary32 :=
  match binary64.floatClass b with
  | .nan => .nan
  | .infinite => .inf b.msb
  | _ => .finite (binary64.value b)

section

variable (format : UlpFormat) (ilogbZero : ℤ)

/-- `ulp_exp`, by whether the reference has a mantissa. -/
def ulpExp (reference : BitVec 64) (q : ℚ) : Option ℤ :=
  if binary64.mantissa reference ≠ 0 then
    checked (format.mantDig - 1 - max (ilogb ilogbZero q) (format.minExp - 1))
  else
    (checked (ilogb ilogbZero q - 1)).bind fun e =>
      checked (format.mantDig - 1 - max e (format.minExp - 1))

/-- The body of both functions, before the error becomes a float.  Results of double arithmetic are
rounded by `double`; there is none if the arithmetic of the exponents overflows. -/
def ulpErrorIn (double : ℚ → ℚ) (test : Binary32) (reference : BitVec 64) : Option Binary32 :=
  match doubleValue reference with
  | .inf negative =>
    some (if test = .inf negative then .finite 0 else test.sub (.inf negative))
  | .nan => some (if test = .nan then .finite 0 else .nan)
  | .finite q =>
    (ulpExp format ilogbZero reference q).map fun (e : ℤ) =>
      let scalbn (testVal : ℚ) : Binary32 := .finite (double (double (testVal - q) * 2 ^ e))
      match test with
      | .nan => .nan
      | .inf negative => scalbn (if negative then -2 ^ format.overflowExp else 2 ^ format.overflowExp)
      | .finite testVal => scalbn testVal

end

/-- `Ulp_Error_Half_Float`. -/
def ulpErrorHalfFloat : ℤ → (ℚ → ℚ) → Binary32 → BitVec 64 → Option Binary32 :=
  ulpErrorIn ulpFormatHalf

/-- `Ulp_Error`. -/
def ulpError : ℤ → (ℚ → ℚ) → Binary32 → BitVec 64 → Option Binary32 := ulpErrorIn ulpFormatFloat

/-! ### Units -/

/-- The binary exponent of a reference, one less for powers of two; 0 has the least one. -/
def referenceExp (format : UlpFormat) (q : ℚ) : ℤ :=
  if q = 0 then format.minExp - 1
  else if |q| = 2 ^ Int.log 2 |q| then Int.log 2 |q| - 1
  else Int.log 2 |q|

/-- The unit of the last place. -/
def unit (format : UlpFormat) (q : ℚ) : ℚ :=
  2 ^ (max (referenceExp format q) (format.minExp - 1) - (format.mantDig - 1))

/-- Formats that doubles are more precise than. -/
structure Narrow (format : UlpFormat) : Prop where
  mantDig : 1 ≤ format.mantDig ∧ format.mantDig ≤ 53
  minExp : binary64.minExp ≤ format.minExp - 1 ∧ format.minExp ≤ 0

theorem narrow_half : Narrow ulpFormatHalf := ⟨by decide, by decide⟩

theorem narrow_float : Narrow ulpFormatFloat := ⟨by decide, by decide⟩

variable {format : UlpFormat} {ilogbZero : ℤ} {reference : BitVec 64} {q : ℚ}

theorem checked_of_mem {x : ℤ} (hlo : -2 ^ 31 ≤ x) (hhi : x < 2 ^ 31) : checked x = some x :=
  if_pos ⟨hlo, hhi⟩

/-- The exponents of doubles are far from the limits of `int`. -/
theorem log_bounds (hfinite : binary64.Finite reference) (hq : binary64.value reference ≠ 0) :
    -1074 ≤ Int.log 2 |binary64.value reference| ∧ Int.log 2 |binary64.value reference| < 1024 := by
  have hpos := abs_pos.mpr hq
  have hle : (2 : ℚ) ^ (-1074 : ℤ) ≤ |binary64.value reference| :=
    (binary64.number_value reference).le_abs hq
  have hlt : |binary64.value reference| < (2 : ℚ) ^ (1024 : ℤ) :=
    hfinite.abs_value_lt (by decide)
  exact ⟨(Int.zpow_le_iff_le_log one_lt_two hpos).mp hle,
    (Int.lt_zpow_iff_log_lt one_lt_two hpos).mp hlt⟩

/-- **The exponent of the unit**, and the reference for which it overflows. -/
theorem ulpExp_eq (hformat : Narrow format) (hzero : ilogbZero = -2 ^ 31 ∨ ilogbZero = -(2 ^ 31 - 1))
    (hfinite : binary64.Finite reference) (hq : q = binary64.value reference) :
    ulpExp format ilogbZero reference q =
      if q = 0 ∧ ilogbZero = -2 ^ 31 then none
      else some (-(max (referenceExp format q) (format.minExp - 1) - (format.mantDig - 1))) := by
  obtain ⟨⟨hdig, hdig'⟩, hmin, hmin'⟩ := hformat
  rw [show binary64.minExp = -1022 from rfl] at hmin
  by_cases h0 : q = 0
  · -- a zero reference has no mantissa
    have hmantissa : ¬ binary64.mantissa reference ≠ 0 := fun h => value_ne_zero _ h (hq ▸ h0)
    rw [ulpExp, if_neg hmantissa, ilogb, if_pos h0, referenceExp, if_pos h0, max_self]
    rcases hzero with hzero | hzero
    · rw [if_pos ⟨h0, hzero⟩, hzero]
      rfl
    · have hne : ¬ (q = 0 ∧ ilogbZero = -2 ^ 31) := fun h => by omega
      rw [if_neg hne, checked_of_mem (by omega) (by omega), Option.bind_some,
        max_eq_right (by omega), checked_of_mem (by omega) (by omega)]
      exact congrArg some (by omega)
  · have hne : ¬ (q = 0 ∧ ilogbZero = -2 ^ 31) := fun h => h0 h.1
    have hbounds := log_bounds hfinite (hq ▸ h0)
    rw [← hq] at hbounds
    rw [ulpExp, ilogb, if_neg h0, if_neg hne, referenceExp, if_neg h0]
    by_cases hmantissa : binary64.mantissa reference ≠ 0
    · -- only subnormal powers of two have a mantissa, and their exponents are not used
      have hmax : max (if |q| = 2 ^ Int.log 2 |q| then Int.log 2 |q| - 1 else Int.log 2 |q|)
          (format.minExp - 1) = max (Int.log 2 |q|) (format.minExp - 1) := by
        split
        · rename_i hpow
          rw [hq] at hpow
          have hlt := lt_minExp_of_mantissa reference hmantissa hpow
          rw [show binary64.minExp = -1022 from rfl, ← hq] at hlt
          omega
        · rfl
      rw [if_pos hmantissa, hmax, checked_of_mem (by omega) (by omega)]
      exact congrArg some (by omega)
    · have hpow : |q| = 2 ^ Int.log 2 |q| := by
        obtain ⟨k, hk⟩ := exists_two_zpow reference (not_not.mp hmantissa) (hq ▸ h0)
        have hlog : Int.log 2 ((2 : ℚ) ^ k) = k := Int.log_zpow one_lt_two k
        rw [hq, hk, hlog]
      rw [if_neg hmantissa, if_pos hpow, checked_of_mem (by omega) (by omega), Option.bind_some,
        checked_of_mem (by omega) (by omega)]
      exact congrArg some (by omega)

theorem doubleValue_of_finite (hfinite : binary64.Finite reference) :
    doubleValue reference = .finite (binary64.value reference) := by
  rw [doubleValue, floatClass, if_neg hfinite]
  split_ifs <;> rfl

theorem doubleValue_eq_finite (h : doubleValue reference = .finite q) :
    binary64.Finite reference ∧ binary64.value reference = q := by
  by_cases hfinite : binary64.Finite reference
  · rw [doubleValue_of_finite hfinite] at h
    exact ⟨hfinite, Binary32.finite.inj h⟩
  · rw [doubleValue, floatClass, if_pos (not_not.mp hfinite)] at h
    split_ifs at h

/-- **The error of a finite result.** -/
theorem ulpErrorIn_eq (hformat : Narrow format)
    (hzero : ilogbZero = -2 ^ 31 ∨ ilogbZero = -(2 ^ 31 - 1)) (double : ℚ → ℚ) (test : ℚ)
    (hfinite : binary64.Finite reference) (hq : q = binary64.value reference) :
    ulpErrorIn format ilogbZero double (.finite test) reference =
      if q = 0 ∧ ilogbZero = -2 ^ 31 then none
      else some (.finite (double (double (test - q) / unit format q))) := by
  rw [ulpErrorIn, doubleValue_of_finite hfinite, ← hq]
  simp only [ulpExp_eq hformat hzero hfinite hq]
  split
  · rfl
  · rw [Option.map_some, zpow_neg, ← div_eq_mul_inv, unit]

theorem ulpErrorIn_iff (hformat : Narrow format)
    (hzero : ilogbZero = -2 ^ 31 ∨ ilogbZero = -(2 ^ 31 - 1)) (double : ℚ → ℚ) (test : ℚ)
    (hfinite : binary64.Finite reference) :
    ulpErrorIn format ilogbZero double (.finite test) reference = some (.finite (double
        (double (test - binary64.value reference) / unit format (binary64.value reference)))) ↔
      ¬ (binary64.value reference = 0 ∧ ilogbZero = -2 ^ 31) := by
  rw [ulpErrorIn_eq hformat hzero double test hfinite rfl]
  split
  · rename_i h
    simp [h]
  · rename_i h
    simp only [h, not_false_eq_true]

/-- **When the errors are defined, and what they are.**  Whatever rounding double arithmetic has,
and none if it is exact, for every finite result and every finite reference the exponents do not
overflow and the error is the difference in units of the reference, if the reference is not 0 or
`ilogb(0)` is not `INT_MIN`. -/
theorem ulpError_iff (ilogbZero : ℤ) (hzero : ilogbZero = -2 ^ 31 ∨ ilogbZero = -(2 ^ 31 - 1))
    (double : ℚ → ℚ) (test : ℚ) (reference : BitVec 64) (hfinite : binary64.Finite reference) :
    (ulpError ilogbZero double (.finite test) reference = some (.finite (double
        (double (test - binary64.value reference)
          / unit ulpFormatFloat (binary64.value reference)))) ↔
      ¬ (binary64.value reference = 0 ∧ ilogbZero = -2 ^ 31)) ∧
    (ulpErrorHalfFloat ilogbZero double (.finite test) reference = some (.finite (double
        (double (test - binary64.value reference)
          / unit ulpFormatHalf (binary64.value reference)))) ↔
      ¬ (binary64.value reference = 0 ∧ ilogbZero = -2 ^ 31)) :=
  ⟨ulpErrorIn_iff narrow_float hzero double test hfinite,
    ulpErrorIn_iff narrow_half hzero double test hfinite⟩

/-- 1.5 for 1 is off by `2 ^ 23` units of floats. -/
theorem ulpError_iff_one : ulpError (-2 ^ 31) id (.finite (3 / 2)) 0x3ff0000000000000#64
    = some (.finite ((3 / 2 - binary64.value 0x3ff0000000000000#64)
      / unit ulpFormatFloat (binary64.value 0x3ff0000000000000#64))) := by
  refine (ulpError_iff (-2 ^ 31) (.inl rfl) id (3 / 2) 0x3ff0000000000000#64 (by decide)).1.mpr ?_
  rintro ⟨h, _⟩
  have hone : binary64.value 0x3ff0000000000000#64 = 1 := by decide +kernel
  rw [hone] at h
  exact absurd h one_ne_zero

/-- The result 1 for 0 is off by `2 ^ 149` units, but the exponent overflows. -/
theorem not_defined : binary64.value 0#64 = 0 ∧ (1 - 0) / unit ulpFormatFloat 0 = 2 ^ 149 ∧
    ulpError (-2 ^ 31) id (.finite 1) 0#64 = none ∧
    ulpErrorHalfFloat (-2 ^ 31) id (.finite 1) 0#64 = none := by
  decide +kernel

end OpenCLCTS.Harness
