import Mathlib.Data.Nat.Bitwise
import Mathlib.Tactic.NormNum
import Mathlib.Tactic.Positivity
import Mathlib.Tactic.Zify
import OpenCLCTS.Harness.ExplicitTypes

/-!
# Integer conversions

The cases of `convert_explicit_value` that take an integer to an integer, as the three macros
make them, and which macro each pair of types has.

`convertInteger_iff`: when the result is what saturation, or reduction modulo a power of two, says.
-/

namespace OpenCLCTS.Conversions

/-- The macro that a pair of types has, or `memcpy`. -/
inductive CastCase
  | memcpy
  | simpleCast
  | downCast
  | uDownCast
  deriving DecidableEq

namespace ExplicitType

/-- The inner switches of `convert_explicit_value`. -/
def castCase : ExplicitType → ExplicitType → CastCase
  | kChar, kChar => .memcpy
  | kChar, kUChar => .downCast
  | kChar, _ => .simpleCast
  | kUChar, kUChar | kUChar, kUnsignedChar => .memcpy
  | kUChar, kChar => .downCast
  | kUChar, _ => .simpleCast
  | kUnsignedChar, kUChar | kUnsignedChar, kUnsignedChar => .memcpy
  | kUnsignedChar, kChar => .downCast
  | kUnsignedChar, _ => .simpleCast
  | kShort, kShort => .memcpy
  | kShort, kChar | kShort, kUChar | kShort, kUnsignedChar | kShort, kUShort
  | kShort, kUnsignedShort => .downCast
  | kShort, _ => .simpleCast
  | kUShort, kUShort | kUShort, kUnsignedShort => .memcpy
  | kUShort, kChar | kUShort, kUChar | kUShort, kUnsignedChar | kUShort, kShort => .downCast
  | kUShort, _ => .simpleCast
  | kUnsignedShort, kUShort | kUnsignedShort, kUnsignedShort => .memcpy
  | kUnsignedShort, kChar | kUnsignedShort, kUChar | kUnsignedShort, kUnsignedChar
  | kUnsignedShort, kShort => .downCast
  | kUnsignedShort, _ => .simpleCast
  | kInt, kInt => .memcpy
  | kInt, kLong | kInt, kULong | kInt, kUnsignedLong => .simpleCast
  | kInt, _ => .downCast
  | kUInt, kUInt | kUInt, kUnsignedInt => .memcpy
  | kUInt, kLong | kUInt, kULong | kUInt, kUnsignedLong => .simpleCast
  | kUInt, _ => .downCast
  | kUnsignedInt, kUInt | kUnsignedInt, kUnsignedInt => .memcpy
  | kUnsignedInt, kLong | kUnsignedInt, kULong | kUnsignedInt, kUnsignedLong => .simpleCast
  | kUnsignedInt, _ => .downCast
  | kLong, kLong => .memcpy
  | kLong, _ => .downCast
  | kULong, kULong | kULong, kUnsignedLong => .memcpy
  | kULong, _ => .uDownCast
  | kUnsignedLong, kULong | kUnsignedLong, kUnsignedLong => .memcpy
  | kUnsignedLong, _ => .uDownCast

end ExplicitType

/-! ### The macros -/

/-- `x & (0xffffffffffffffffLL >> (64 - (sizeof(outType) * 8)))`. -/
def masked (bits : ℕ) (x : ℤ) : BitVec 64 :=
  BitVec.ofInt 64 x &&& (0xffffffffffffffff#64 >>> (64 - bits))

section

variable (outEnum : ExplicitType)

/-- `SIMPLE_CAST_CASE`. -/
def simpleCastCase (x : ℤ) : BitVec outEnum.cType.bits := BitVec.ofInt _ x

/-- The branches of `DOWN_CAST_CASE` with saturation; the rounding macros have them as well. -/
def saturateLong (x : ℤ) : BitVec outEnum.cType.bits :=
  if (outEnum.lowerLimit < 0 ∧ (BitVec.ofNat 64 outEnum.upperLimit).toInt < x) ∨
      (outEnum.lowerLimit = 0 ∧ outEnum.upperLimit < (BitVec.ofInt 64 x).toNat) then
    BitVec.ofNat _ outEnum.upperLimit
  else if x < outEnum.lowerLimit then BitVec.ofInt _ outEnum.lowerLimit
  else BitVec.ofInt _ x

/-- The branch of the macros without saturation. -/
def reduceLong (x : ℤ) : BitVec outEnum.cType.bits :=
  BitVec.ofNat _ (masked outEnum.cType.bits x).toNat

/-- `DOWN_CAST_CASE`. -/
def downCastCase (sat : Bool) (x : ℤ) : BitVec outEnum.cType.bits :=
  if sat then saturateLong outEnum x else reduceLong outEnum x

/-- `U_DOWN_CAST_CASE`. -/
def uDownCastCase (sat : Bool) (x : ℤ) : BitVec outEnum.cType.bits :=
  if sat then
    if outEnum.upperLimit < (BitVec.ofInt 64 x).toNat then BitVec.ofNat _ outEnum.upperLimit
    else BitVec.ofInt _ x
  else reduceLong outEnum x

end

/-- `convert_explicit_value` for integers. -/
def convertInteger (inType : ExplicitType) (inRaw : BitVec inType.cType.bits) (saturate : Bool)
    (outType : ExplicitType) : BitVec outType.cType.bits :=
  let x := inType.cType.value inRaw
  match inType.castCase outType with
  | .memcpy => BitVec.ofNat _ inRaw.toNat
  | .simpleCast => simpleCastCase outType x
  | .downCast => downCastCase outType saturate x
  | .uDownCast => uDownCastCase outType saturate x

/-! ### What the macros store -/

variable {t : ExplicitType} {x : ℤ}

theorem ofNat_upperLimit (t : ExplicitType) (w : ℕ) :
    BitVec.ofNat w t.upperLimit = BitVec.ofInt w t.cType.greatest := by
  rw [← upperLimit_eq, BitVec.ofInt_natCast]

theorem value_greatest (t : CType) : t.value (BitVec.ofInt _ t.greatest) = t.greatest := by
  have := t.least_le_zero
  have := t.greatest_pos
  rw [CType.value_ofInt, CType.wrap_eq_self (by omega) le_rfl]

theorem value_least (t : CType) : t.value (BitVec.ofInt _ t.least) = t.least := by
  have := t.least_le_zero
  have := t.greatest_pos
  rw [CType.value_ofInt, CType.wrap_eq_self le_rfl (by omega)]

theorem value_reduceLong (t : ExplicitType) (x : ℤ) :
    t.cType.value (reduceLong t x) = t.cType.wrap x := by
  have hmask : (0xffffffffffffffff#64 >>> (64 - t.cType.bits)).toNat = 2 ^ t.cType.bits - 1 := by
    cases t <;> decide
  have hdvd : (2 : ℤ) ^ t.cType.bits ∣ 2 ^ 64 := pow_dvd_pow 2 (by cases t <;> decide)
  have hreduce : reduceLong t x = BitVec.ofInt _ x := by
    refine BitVec.eq_of_toNat_eq ?_
    rw [reduceLong, masked, BitVec.toNat_ofNat, BitVec.toNat_and, hmask,
      Nat.and_two_pow_sub_one_eq_mod, Nat.mod_mod, BitVec.toNat_ofInt, BitVec.toNat_ofInt]
    have h64 : 0 ≤ x % 2 ^ 64 := Int.emod_nonneg _ (by decide)
    zify
    rw [Int.toNat_of_nonneg h64, Int.toNat_of_nonneg (Int.emod_nonneg _ (by positivity))]
    push_cast
    exact Int.emod_emod_of_dvd x hdvd
  rw [hreduce, CType.value_ofInt]

theorem value_saturateLong_of_signed (hsigned : t.cType.signed = true) (x : ℤ) :
    t.cType.value (saturateLong t x) = t.cType.clamp x := by
  have hlimits : t.cType.least < 0 ∧
      (BitVec.ofInt 64 t.cType.greatest).toInt = t.cType.greatest := by
    revert hsigned
    cases t <;> decide
  obtain ⟨hleast, hgreatest⟩ := hlimits
  have hcond : ((t.lowerLimit < 0 ∧ (BitVec.ofNat 64 t.upperLimit).toInt < x) ∨
      (t.lowerLimit = 0 ∧ t.upperLimit < (BitVec.ofInt 64 x).toNat)) ↔ t.cType.greatest < x := by
    rw [lowerLimit_eq, ofNat_upperLimit, hgreatest]
    omega
  simp only [saturateLong, hcond]
  split
  · rename_i h
    rw [ofNat_upperLimit, value_greatest, CType.clamp_of_ge h.le]
  · rename_i hle
    rw [lowerLimit_eq]
    split
    · rename_i h
      rw [value_least, CType.clamp_of_le h.le]
    · rename_i hge
      rw [CType.value_ofInt, CType.wrap_eq_self (by omega) (by omega),
        CType.clamp_eq_self (by omega) (by omega)]

theorem value_saturateLong_of_unsigned (hsigned : t.cType.signed = false) (hlo : -2 ^ 63 ≤ x)
    (hhi : x < 2 ^ 63) : t.cType.value (saturateLong t x) =
      if t.cType.bits < 64 ∧ x < 0 then t.cType.greatest else t.cType.clamp x := by
  have hlimits : t.cType.least = 0 ∧ (t.cType.bits < 64 → t.cType.greatest < 2 ^ 63) ∧
      (¬ t.cType.bits < 64 → t.cType.greatest = 2 ^ 64 - 1) := by
    revert hsigned
    cases t <;> decide
  obtain ⟨hleast, hnarrow, hwide⟩ := hlimits
  have hupper := upperLimit_eq t
  have hulong : ((BitVec.ofInt 64 x).toNat : ℤ) = x % 2 ^ 64 := by
    rw [BitVec.toNat_ofInt, Int.toNat_of_nonneg (Int.emod_nonneg _ (by decide))]
    rfl
  have hcond : ((t.lowerLimit < 0 ∧ (BitVec.ofNat 64 t.upperLimit).toInt < x) ∨
      (t.lowerLimit = 0 ∧ t.upperLimit < (BitVec.ofInt 64 x).toNat)) ↔
        t.cType.greatest < x % 2 ^ 64 := by
    rw [lowerLimit_eq, hleast]
    omega
  simp only [saturateLong, hcond]
  rw [lowerLimit_eq, hleast]
  by_cases hneg : x < 0
  · have hmod : x % 2 ^ 64 = x + 2 ^ 64 := by omega
    rw [hmod]
    by_cases hbits : t.cType.bits < 64
    · have := hnarrow hbits
      rw [if_pos (by omega), if_pos ⟨hbits, hneg⟩, ofNat_upperLimit, value_greatest]
    · have := hwide hbits
      rw [if_neg (by omega), if_pos hneg, if_neg fun h => hbits h.1, ← hleast, value_least,
        CType.clamp_of_le (by omega)]
  · have hmod : x % 2 ^ 64 = x := by omega
    have hneg' : ¬ (t.cType.bits < 64 ∧ x < 0) := fun h => hneg h.2
    rw [hmod, if_neg hneg', if_neg hneg]
    split
    · rename_i h
      rw [ofNat_upperLimit, value_greatest, CType.clamp_of_ge h.le]
    · rw [CType.value_ofInt, CType.wrap_eq_self (by omega) (by omega),
        CType.clamp_eq_self (by omega) (by omega)]

/-- **Saturation of a `Long`**: a negative number becomes the upper limit of the types without a
sign, unless they have 64 bits. -/
theorem value_saturateLong (hlo : -2 ^ 63 ≤ x) (hhi : x < 2 ^ 63) :
    t.cType.value (saturateLong t x) =
      if t.cType.signed = false ∧ t.cType.bits < 64 ∧ x < 0 then t.cType.greatest
      else t.cType.clamp x := by
  cases hsigned : t.cType.signed with
  | true =>
    rw [value_saturateLong_of_signed hsigned, if_neg]
    rintro ⟨h, _⟩
    cases h
  | false =>
    rw [value_saturateLong_of_unsigned hsigned hlo hhi]
    simp only [true_and]

theorem value_uDownCastCase (h0 : 0 ≤ x) (h : x < 2 ^ 64) :
    t.cType.value (uDownCastCase t true x) = t.cType.clamp x := by
  have htoNat : ((BitVec.ofInt 64 x).toNat : ℤ) = x := by
    rw [BitVec.toNat_ofInt, Int.emod_eq_of_lt h0 (by exact_mod_cast h), Int.toNat_of_nonneg h0]
  have hiff : t.upperLimit < (BitVec.ofInt 64 x).toNat ↔ t.cType.greatest < x := by
    rw [← upperLimit_eq]
    omega
  have hleast := t.cType.least_le_zero
  rw [uDownCastCase, if_pos rfl]
  split
  · rename_i hgt
    rw [ofNat_upperLimit, value_greatest, CType.clamp_of_ge (hiff.mp hgt).le]
  · rename_i hle
    have hle' : x ≤ t.cType.greatest := not_lt.mp fun hgt => hle (hiff.mpr hgt)
    rw [CType.value_ofInt, CType.wrap_eq_self (by omega) hle', CType.clamp_eq_self (by omega) hle']

/-! ### Pairs of types -/

namespace ExplicitType

variable {i o : ExplicitType}

theorem cType_eq_of_memcpy (h : i.castCase o = .memcpy) : i.cType = o.cType := by
  revert h
  cases i <;> cases o <;> decide

theorem limits_of_simpleCast (h : i.castCase o = .simpleCast) :
    i.cType.greatest ≤ o.cType.greatest ∧
      (o.cType.signed = true → o.cType.least ≤ i.cType.least) ∧
      (o.cType.signed = false → -2 ^ o.cType.bits < i.cType.least) ∧ i ≠ kLong := by
  revert h
  cases i <;> cases o <;> decide

theorem limits_of_downCast (h : i.castCase o = .downCast) : -2 ^ 63 ≤ i.cType.least ∧
    i.cType.greatest < 2 ^ 63 ∧ (i ≠ kLong → o.cType.bits < 64) := by
  revert h
  cases i <;> cases o <;> decide

theorem limits_of_uDownCast (h : i.castCase o = .uDownCast) :
    i.cType.least = 0 ∧ i.cType.greatest < 2 ^ 64 := by
  revert h
  cases i <;> cases o <;> decide

end ExplicitType

theorem value_memcpy {s t : CType} (h : s = t) (b : BitVec s.bits) :
    t.value (BitVec.ofNat t.bits b.toNat) = s.value b := by
  subst h
  rw [BitVec.ofNat_toNat, BitVec.setWidth_eq]

theorem least_of_unsigned {t : CType} (h : t.signed = false) : t.least = 0 := by
  rw [CType.least, h, if_neg Bool.false_ne_true]

variable {inType outType : ExplicitType} (inRaw : BitVec inType.cType.bits)

/-- **Without saturation the value is reduced.** -/
theorem value_convertInteger_false :
    outType.cType.value (convertInteger inType inRaw false outType)
      = outType.cType.wrap (inType.cType.value inRaw) := by
  rw [convertInteger]
  cases h : inType.castCase outType with
  | memcpy =>
    have heq := ExplicitType.cType_eq_of_memcpy h
    have hvalue := value_memcpy heq inRaw
    obtain ⟨hlo, hhi⟩ := outType.cType.value_mem (BitVec.ofNat _ inRaw.toNat)
    rw [hvalue] at hlo hhi
    exact hvalue.trans (CType.wrap_eq_self hlo hhi).symm
  | simpleCast => exact CType.value_ofInt
  | downCast => exact value_reduceLong _ _
  | uDownCast => exact value_reduceLong _ _

/-- A pair of types whose negative numbers are not clamped to 0. -/
def KeepsNegative (inType outType : ExplicitType) : Prop :=
  outType.cType.signed = false ∧ (inType = .kLong → outType.cType.bits < 64)

instance (inType outType : ExplicitType) : Decidable (KeepsNegative inType outType) :=
  inferInstanceAs (Decidable (_ ∧ _))

/-- **With saturation the value is clamped, unless it is negative and the destination has no
sign.** -/
theorem value_convertInteger_true :
    outType.cType.value (convertInteger inType inRaw true outType)
        = outType.cType.clamp (inType.cType.value inRaw) ↔
      ¬ (inType.cType.value inRaw < 0 ∧ KeepsNegative inType outType) := by
  obtain ⟨x, hx⟩ : ∃ x, x = inType.cType.value inRaw := ⟨_, rfl⟩
  obtain ⟨hlo, hhi⟩ := inType.cType.value_mem inRaw
  rw [convertInteger, KeepsNegative]
  rw [← hx] at hlo hhi ⊢
  cases h : inType.castCase outType with
  | memcpy =>
    have heq := ExplicitType.cType_eq_of_memcpy h
    rw [heq] at hlo hhi
    have hvalue : outType.cType.value (BitVec.ofNat _ inRaw.toNat) = outType.cType.clamp x := by
      rw [value_memcpy heq, ← hx, CType.clamp_eq_self hlo hhi]
    simp only [hvalue, true_iff]
    rintro ⟨hneg, hsigned, _⟩
    rw [least_of_unsigned hsigned] at hlo
    omega
  | simpleCast =>
    obtain ⟨hgreatest, hleast, hrange, hlong⟩ := ExplicitType.limits_of_simpleCast h
    simp only [simpleCastCase, CType.value_ofInt, hlong, false_implies, and_true]
    cases hsigned : outType.cType.signed with
    | true =>
      have := hleast hsigned
      rw [CType.wrap_eq_self (by omega) (by omega), CType.clamp_eq_self (by omega) (by omega)]
      simp
    | false =>
      have := hrange hsigned
      have h0 := least_of_unsigned hsigned
      by_cases hneg : x < 0
      · rw [CType.clamp_of_le (by omega), h0, CType.wrap, hsigned, if_neg Bool.false_ne_true]
        have hmod : x % 2 ^ outType.cType.bits = x + 2 ^ outType.cType.bits := by
          rw [← Int.add_emod_right, Int.emod_eq_of_lt (by omega) (by omega)]
        simp only [hneg, hmod, and_true, not_true_eq_false, iff_false]
        omega
      · rw [CType.wrap_eq_self (by omega) (by omega), CType.clamp_eq_self (by omega) (by omega)]
        simp only [hneg, false_and, not_false_eq_true]
  | downCast =>
    obtain ⟨hleast, hgreatest, hlong⟩ := ExplicitType.limits_of_downCast h
    have hbits : (inType = .kLong → outType.cType.bits < 64) ↔ outType.cType.bits < 64 := by
      by_cases hk : inType = .kLong
      · simp only [hk, true_implies]
      · simp only [hlong hk, implies_true]
    simp only [downCastCase, if_true, value_saturateLong (t := outType) (show -2 ^ 63 ≤ x by omega)
      (by omega), hbits]
    by_cases hwrong : x < 0 ∧ outType.cType.signed = false ∧ outType.cType.bits < 64
    · have := outType.cType.greatest_pos
      have h0 := least_of_unsigned hwrong.2.1
      rw [if_pos ⟨hwrong.2.1, hwrong.2.2, hwrong.1⟩, CType.clamp_of_le (by omega)]
      simp only [hwrong, and_self, not_true_eq_false, iff_false]
      omega
    · rw [if_neg fun h => hwrong ⟨h.2.2, h.1, h.2.1⟩]
      simp only [hwrong, not_false_eq_true]
  | uDownCast =>
    obtain ⟨hleast, hgreatest⟩ := ExplicitType.limits_of_uDownCast h
    simp only [value_uDownCastCase (t := outType) (show 0 ≤ x by omega) (by omega), true_iff]
    rintro ⟨hneg, _⟩
    omega

/-- **When a conversion of integers saturates, and when it reduces, as it should.** -/
theorem convertInteger_iff (inType outType : ExplicitType) (inRaw : BitVec inType.cType.bits)
    (saturate : Bool) :
    outType.cType.value (convertInteger inType inRaw saturate outType)
        = (if saturate then outType.cType.clamp (inType.cType.value inRaw)
          else outType.cType.wrap (inType.cType.value inRaw)) ↔
      ¬ (saturate = true ∧ inType.cType.value inRaw < 0 ∧ KeepsNegative inType outType) := by
  cases saturate with
  | true =>
    simp only [if_true, true_and]
    exact value_convertInteger_true inRaw
  | false =>
    simp only [value_convertInteger_false, Bool.false_eq_true, if_false, false_and,
      not_false_eq_true]

/-- A `short` of -1 is stored as 255 in a `uchar`, by a comparison of it as a `ULong`; a `char` of
-1 is not compared at all. -/
theorem not_saturated :
    CType.uchar.value (convertInteger .kShort 0xffff#16 true .kUChar) = 255 ∧
      CType.uchar.value (convertInteger .kChar 0xff#8 true .kUnsignedChar) = 255 ∧
      CType.short.value 0xffff#16 = -1 ∧ CType.schar.value 0xff#8 = -1 ∧
      CType.uchar.clamp (-1) = 0 := by
  decide

end OpenCLCTS.Conversions
