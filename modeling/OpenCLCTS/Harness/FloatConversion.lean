import OpenCLCTS.Harness.IntegerConversion
import OpenCLCTS.Lib.RoundingMode

/-!
# Conversions of floating types to integers

The cases of `convert_explicit_value` that take a half, a float or a double to an integer.  The
number is made an integer by a cast, and the rounding modes are applied to what the cast has cut
off; a half is cut off before.

* `roundWhole_eq`: the arithmetic of the macros is exact.
* `convertFloating_iff`: when the result is what the rounding mode and saturation say, and when
  the three types agree.
-/

namespace OpenCLCTS.Conversions

open FloatFormat

inductive RoundingType
  | kRoundToEven
  | kRoundToZero
  | kRoundToPosInf
  | kRoundToNegInf
  | kRoundToNearest
  deriving DecidableEq

/-- The floating types of `ExplicitTypes`. -/
inductive FloatingType
  | kHalf
  | kFloat
  | kDouble
  deriving DecidableEq

namespace FloatingType

def format : FloatingType → FloatFormat
  | kHalf => binary16
  | kFloat => binary32
  | kDouble => binary64

def bits : FloatingType → ℕ
  | kHalf => 16
  | kFloat => 32
  | kDouble => 64

variable (t : FloatingType) (b : BitVec t.bits)

def Finite : Prop := t.format.Finite b

instance : Decidable (t.Finite b) := inferInstanceAs (Decidable (t.format.Finite b))

def value : ℚ := t.format.value b

end FloatingType

/-! ### The macros -/

/-- The two functions that round to a `long`; it has 64 bits.  Both cut off what the sum with
`magic` has left. -/
def clampedRint (format : FloatFormat) (magic : ℚ) (f : ℚ) : ℤ :=
  if 2 ^ 63 ≤ f then 2 ^ 63 - 1
  else if f ≤ -2 ^ 63 then -2 ^ 63
  else if |f| < magic then
    let magicVal := if f < 0 then -magic else magic
    truncate (format.round (format.round (f + magicVal) - magicVal))
  else truncate f

def lrintfClamped : ℚ → ℤ := clampedRint binary32 (2 ^ 23)

def lrintClamped : ℚ → ℤ := clampedRint binary64 (2 ^ 52)

/-- `wholeValue` after the branches for the rounding modes. -/
def roundWhole (format : FloatFormat) (lrint : ℚ → ℤ) (rounding : RoundingType) (x : ℚ) : ℤ :=
  let wholeValue := truncate x
  let largeRemainder := format.round (format.round (x - format.round wholeValue) * 10)
  match rounding with
  | .kRoundToEven => if wholeValue % 2 = 1 then wholeValue + 1 else wholeValue
  | .kRoundToZero => wholeValue
  | .kRoundToPosInf =>
    if largeRemainder ≠ 0 ∧ 0 ≤ wholeValue then wholeValue + 1 else wholeValue
  | .kRoundToNegInf =>
    if largeRemainder ≠ 0 ∧ wholeValue < 0 then wholeValue - 1 else wholeValue
  | .kRoundToNearest => lrint x

section

variable (outEnum : ExplicitType) (rounding : RoundingType) (sat : Bool) (x : ℚ)

/-- `HALF_ROUND_CASE`. -/
def halfRoundCase : BitVec outEnum.cType.bits :=
  let fltEq := binary32.round (truncate x)
  downCastCase outEnum sat (roundWhole binary32 lrintfClamped rounding fltEq)

/-- `FLOAT_ROUND_CASE`. -/
def floatRoundCase : BitVec outEnum.cType.bits :=
  downCastCase outEnum sat (roundWhole binary32 lrintfClamped rounding x)

/-- `DOUBLE_ROUND_CASE`. -/
def doubleRoundCase : BitVec outEnum.cType.bits :=
  downCastCase outEnum sat (roundWhole binary64 lrintClamped rounding x)

end

/-- `convert_explicit_value` for floating types, to an integer. -/
def convertFloating (inType : FloatingType) (inRaw : BitVec inType.bits) (saturate : Bool)
    (roundType : RoundingType) (outType : ExplicitType) : BitVec outType.cType.bits :=
  let x := inType.value inRaw
  match inType with
  | .kHalf => halfRoundCase outType roundType saturate x
  | .kFloat => floatRoundCase outType roundType saturate x
  | .kDouble => doubleRoundCase outType roundType saturate x

/-! ### The arithmetic of the macros -/

/-- The branches for the rounding modes, without rounding errors. -/
def wholeOf (rounding : RoundingType) (x : ℚ) : ℤ :=
  match rounding with
  | .kRoundToEven => if truncate x % 2 = 1 then truncate x + 1 else truncate x
  | .kRoundToZero => truncate x
  | .kRoundToPosInf =>
    if (truncate x : ℚ) ≠ x ∧ 0 ≤ truncate x then truncate x + 1 else truncate x
  | .kRoundToNegInf =>
    if (truncate x : ℚ) ≠ x ∧ truncate x < 0 then truncate x - 1 else truncate x
  | .kRoundToNearest => nearest x

variable {format : FloatFormat} {rounding : RoundingType} {x : ℚ}

/-- **The remainder is 0 exactly for integers.** -/
theorem largeRemainder_ne_zero (hf : format.HasFractions) (hx : format.Number x) :
    format.round (format.round (x - format.round (truncate x)) * 10) ≠ 0 ↔
      (truncate x : ℚ) ≠ x := by
  rw [(number_truncate hf hx).round_eq]
  have hfraction := number_sub_truncate hf hx
  rw [hfraction.round_eq]
  constructor
  · intro h heq
    rw [heq, sub_self, zero_mul, round_zero] at h
    exact h rfl
  · intro hne
    refine round_ne_zero ((hfraction.le_abs (sub_ne_zero.mpr hne.symm)).trans ?_)
    rw [abs_mul]
    exact le_mul_of_one_le_right (abs_nonneg _) (by norm_num)

/-- **The functions that round to a `long` are exact.** -/
theorem clampedRint_eq {magic : ℚ} (hf : format.HasFractions) (hbits : 0 < format.mantissaBits)
    (hmagic : magic = 2 ^ format.mantissaBits) (hx : format.Number x) (hlt : |x| < 2 ^ 63) :
    clampedRint format magic x = nearest x := by
  have hrange := abs_lt.mp hlt
  rw [clampedRint, if_neg (not_le.mpr hrange.2), if_neg (not_le.mpr hrange.1), hmagic]
  split
  · rename_i h
    have hcast : (if x < 0 then -2 ^ format.mantissaBits else 2 ^ format.mantissaBits : ℚ)
        = ((if x < 0 then -2 ^ format.mantissaBits else 2 ^ format.mantissaBits : ℤ) : ℚ) := by
      split <;> push_cast <;> rfl
    have hsum := round_add_sub hf hbits rfl h
    simp only [hcast, hsum, truncate_intCast]
  · rename_i h
    obtain ⟨n, rfl⟩ := hx.isInt (not_lt.mp h)
    rw [truncate_intCast, nearest_intCast]

theorem roundWhole_eq {magic : ℚ} (hf : format.HasFractions) (hbits : 0 < format.mantissaBits)
    (hmagic : magic = 2 ^ format.mantissaBits) (hx : format.Number x) (hlt : |x| < 2 ^ 63) :
    roundWhole format (clampedRint format magic) rounding x = wholeOf rounding x := by
  cases rounding with
  | kRoundToEven => rfl
  | kRoundToZero => rfl
  | kRoundToPosInf => simp only [roundWhole, wholeOf, largeRemainder_ne_zero hf hx]
  | kRoundToNegInf => simp only [roundWhole, wholeOf, largeRemainder_ne_zero hf hx]
  | kRoundToNearest => exact clampedRint_eq hf hbits hmagic hx hlt

theorem abs_wholeOf_sub_le (rounding : RoundingType) (x : ℚ) : |(wholeOf rounding x : ℚ) - x| ≤ 2 := by
  have htruncate := abs_lt.mp (abs_truncate_sub_lt x)
  have hnear := abs_le.mp (abs_nearest_sub_le x)
  rw [abs_le]
  cases rounding with
  | kRoundToZero => exact ⟨by rw [wholeOf]; linarith, by rw [wholeOf]; linarith⟩
  | kRoundToNearest => exact ⟨by rw [wholeOf]; linarith, by rw [wholeOf]; linarith⟩
  | _ =>
    rw [wholeOf]
    split <;> push_cast <;> constructor <;> linarith

/-- The whole values of numbers of a format fit into a `Long`. -/
theorem wholeOf_mem (hbits : format.mantissaBits ≤ 52) (hx : format.Number x) (hlt : |x| < 2 ^ 63)
    (hrounding : rounding ≠ .kRoundToEven) :
    -2 ^ 63 ≤ wholeOf rounding x ∧ wholeOf rounding x < 2 ^ 63 := by
  rcases hx.cases with ⟨n, rfl⟩ | h
  · have hn : |n| < 2 ^ 63 := by exact_mod_cast hlt
    have heq : wholeOf rounding n = n := by
      cases rounding <;> simp_all [wholeOf, truncate_intCast, nearest_intCast]
    rw [heq]
    exact ⟨(abs_lt.mp hn).1.le, (abs_lt.mp hn).2⟩
  · have hle : (2 : ℚ) ^ format.mantissaBits ≤ 2 ^ 52 := pow_le_pow_right₀ one_le_two hbits
    have hx' := abs_lt.mp (lt_of_lt_of_le h hle)
    have hwhole := abs_le.mp (abs_wholeOf_sub_le rounding x)
    have hlo : -2 ^ 63 ≤ (wholeOf rounding x : ℚ) := by linarith
    have hhi : (wholeOf rounding x : ℚ) < 2 ^ 63 := by linarith
    exact ⟨by exact_mod_cast hlo, by exact_mod_cast hhi⟩

/-! ### Saturation -/

/-- The function that a rounding mode stands for; `kRoundToEven` has none. -/
def RoundingType.function : RoundingType → Option (ℚ → ℤ)
  | .kRoundToEven => none
  | .kRoundToZero => some truncate
  | .kRoundToPosInf => some Int.ceil
  | .kRoundToNegInf => some Int.floor
  | .kRoundToNearest => some nearest

/-- The types whose upper limit takes the place of negative numbers. -/
def CType.TakesNegative (t : CType) : Prop := t.signed = false ∧ t.bits < 64

instance (t : CType) : Decidable t.TakesNegative := inferInstanceAs (Decidable (_ ∧ _))

variable {t : ExplicitType} {r s : ℤ}

theorem CType.TakesNegative.least_eq {t : CType} (h : t.TakesNegative) : t.least = 0 :=
  least_of_unsigned h.1

theorem value_saturateLong_of_pos (hlo : -2 ^ 63 ≤ r) (hhi : r < 2 ^ 63)
    (h : ¬ (t.cType.TakesNegative ∧ r < 0)) :
    t.cType.value (saturateLong t r) = t.cType.clamp r := by
  rw [value_saturateLong hlo hhi, if_neg fun h' => h ⟨⟨h'.1, h'.2.1⟩, h'.2.2⟩]

/-- **What is stored is the value nearest to `s`**, if `s` is not positive where `r` is negative. -/
theorem value_saturateLong_iff (hlo : -2 ^ 63 ≤ r) (hhi : r < 2 ^ 63) (hs : r < 0 → s ≤ 0) :
    t.cType.value (saturateLong t r) = t.cType.clamp s ↔
      ¬ (t.cType.TakesNegative ∧ r < 0) ∧ t.cType.clamp r = t.cType.clamp s := by
  by_cases h : t.cType.TakesNegative ∧ r < 0
  · have hgreatest := t.cType.greatest_pos
    have hleast := h.1.least_eq
    rw [value_saturateLong hlo hhi, if_pos ⟨h.1.1, h.1.2, h.2⟩,
      CType.clamp_of_le (x := s) (by rw [hleast]; exact hs h.2)]
    simp only [h, and_self, not_true_eq_false, false_and, iff_false]
    omega
  · rw [value_saturateLong_of_pos hlo hhi h]
    simp only [h, not_false_eq_true, true_and]

/-- An integer next to `x`: no integer lies between them. -/
def Adjacent (x : ℚ) (r : ℤ) : Prop := ∀ n : ℤ, (x ≤ n → r ≤ n) ∧ ((n : ℚ) ≤ x → n ≤ r)

theorem adjacent_truncate (x : ℚ) : Adjacent x (truncate x) := by
  intro n
  rcases le_total 0 x with h | h
  · rw [truncate_of_nonneg h]
    exact ⟨fun hn => by exact_mod_cast (Int.floor_le x).trans hn, fun hn => Int.le_floor.mpr hn⟩
  · rw [truncate_of_nonpos h]
    exact ⟨fun hn => Int.ceil_le.mpr hn, fun hn => by exact_mod_cast hn.trans (Int.le_ceil x)⟩

/-- The rounding modes choose an integer next to the number. -/
theorem adjacent_function {round : ℚ → ℤ} (h : round ∈ rounding.function) (x : ℚ) :
    Adjacent x (round x) := by
  cases rounding with
  | kRoundToEven => simp [RoundingType.function] at h
  | kRoundToZero =>
    obtain rfl := Option.some.inj h
    exact adjacent_truncate x
  | kRoundToPosInf =>
    obtain rfl := Option.some.inj h
    intro n
    exact ⟨fun hn => Int.ceil_le.mpr hn, fun hn => by exact_mod_cast hn.trans (Int.le_ceil x)⟩
  | kRoundToNegInf =>
    obtain rfl := Option.some.inj h
    intro n
    exact ⟨fun hn => by exact_mod_cast (Int.floor_le x).trans hn, fun hn => Int.le_floor.mpr hn⟩
  | kRoundToNearest =>
    obtain rfl := Option.some.inj h
    intro n
    exact ⟨nearest_le_of_le, le_nearest_of_le⟩

theorem clamp_eq_clamp_iff {t : CType} : t.clamp r = t.clamp s ↔
    r = s ∨ r ≤ t.least ∧ s ≤ t.least ∨ t.greatest ≤ r ∧ t.greatest ≤ s := by
  have := t.least_le_zero
  have := t.greatest_pos
  rw [CType.clamp, CType.clamp]
  omega

/-- **Integers next to a number are clamped to one value if the number is not between the
limits.** -/
theorem Adjacent.clamp_eq_clamp_iff {t : CType} (hr : Adjacent x r) (hs : Adjacent x s) :
    t.clamp r = t.clamp s ↔ r = s ∨ x ≤ t.least ∨ t.greatest ≤ x := by
  rw [Conversions.clamp_eq_clamp_iff]
  constructor
  · rintro (h | ⟨hr', hs'⟩ | ⟨hr', hs'⟩)
    · exact .inl h
    · rcases le_total x t.least with h | h
      · exact .inr (.inl h)
      · exact .inl ((le_antisymm hr' ((hr _).2 h)).trans (le_antisymm ((hs _).2 h) hs'))
    · rcases le_total (t.greatest : ℚ) x with h | h
      · exact .inr (.inr h)
      · exact .inl ((le_antisymm ((hr _).1 h) hr').trans (le_antisymm hs' ((hs _).1 h)))
  · rintro (h | h | h)
    · exact .inl h
    · exact .inr (.inl ⟨(hr _).1 h, (hs _).1 h⟩)
    · exact .inr (.inr ⟨(hr _).2 h, (hs _).2 h⟩)

theorem Adjacent.nonpos_of_neg (hr : Adjacent x r) (hs : Adjacent x s) (h : r < 0) : s ≤ 0 := by
  have hx : x ≤ ((0 : ℤ) : ℚ) := by
    by_contra hgt
    have := (hr 0).2 (not_le.mp hgt).le
    omega
  exact (hs 0).1 hx

/-! ### Floats and doubles -/

/-- When a float or a double becomes what the rounding mode and saturation say: where the upper
limit is taken for negative numbers, and where the fractions above -1 are rounded the wrong
way. -/
def Saturates (rounding : RoundingType) (t : CType) (x : ℚ) : Prop :=
  match rounding with
  | .kRoundToEven | .kRoundToZero => ¬ (t.TakesNegative ∧ x ≤ -1)
  | .kRoundToPosInf => ¬ (t.TakesNegative ∧ x ≤ -1) ∧ ¬ (-1 < x ∧ x < 0)
  | .kRoundToNegInf => ¬ (t.TakesNegative ∧ x ≤ -1) ∧ ¬ (-1 < x ∧ x < 0 ∧ t.signed = true)
  | .kRoundToNearest => ¬ (t.TakesNegative ∧ x < -1 / 2)

theorem truncate_of_fraction (h : -1 < x) (h' : x < 0) : truncate x = 0 := by
  have hneg := truncate_neg_iff (q := x)
  have hle := (adjacent_truncate x 0).1 (by exact_mod_cast h'.le)
  have hge : ¬ truncate x < 0 := fun hlt => by linarith [hneg.mp hlt]
  omega

theorem nearest_neg_iff : nearest x < 0 ↔ x < -1 / 2 := by
  rw [← Int.le_sub_one_iff, nearest_le_iff]
  norm_num

theorem value_wholeOf_ceil_iff
    (hmem : -2 ^ 63 ≤ wholeOf .kRoundToPosInf x ∧ wholeOf .kRoundToPosInf x < 2 ^ 63) :
    t.cType.value (saturateLong t (wholeOf .kRoundToPosInf x)) = t.cType.clamp ⌈x⌉ ↔
      Saturates .kRoundToPosInf t.cType x := by
  have hgreatest := t.cType.greatest_pos
  rw [Saturates]
  by_cases hx : -1 < x ∧ x < 0
  · have htruncate := truncate_of_fraction hx.1 hx.2
    have hwhole : wholeOf .kRoundToPosInf x = 1 := by
      rw [wholeOf, htruncate, if_pos ⟨by exact_mod_cast hx.2.ne', le_rfl⟩, zero_add]
    have hceil : ⌈x⌉ = 0 := by rw [← truncate_of_nonpos hx.2.le, htruncate]
    rw [hwhole, hceil, value_saturateLong_iff (by norm_num) (by norm_num) (by norm_num),
      clamp_eq_clamp_iff]
    have := t.cType.least_le_zero
    simp only [hx, and_self, not_true_eq_false, and_false, iff_false]
    omega
  · have hwhole : wholeOf .kRoundToPosInf x = ⌈x⌉ := by
      have hiff : 0 ≤ truncate x ↔ 0 ≤ x := by
        rw [← not_lt, truncate_neg_iff, not_le]
        exact ⟨fun hlt => not_lt.mp fun h0 => hx ⟨hlt, h0⟩, fun hle => by linarith⟩
      simp only [wholeOf, ceil_eq_truncate, hiff]
    have hneg : ⌈x⌉ < 0 ↔ x ≤ -1 := by
      rw [← Int.le_sub_one_iff, Int.ceil_le]
      norm_num
    rw [hwhole] at hmem ⊢
    rw [value_saturateLong_iff hmem.1 hmem.2 le_of_lt, hneg]
    simp only [hx, not_false_eq_true]

theorem value_wholeOf_floor_iff
    (hmem : -2 ^ 63 ≤ wholeOf .kRoundToNegInf x ∧ wholeOf .kRoundToNegInf x < 2 ^ 63) :
    t.cType.value (saturateLong t (wholeOf .kRoundToNegInf x)) = t.cType.clamp ⌊x⌋ ↔
      Saturates .kRoundToNegInf t.cType x := by
  have hgreatest := t.cType.greatest_pos
  rw [Saturates]
  by_cases hx : -1 < x ∧ x < 0
  · have htruncate := truncate_of_fraction hx.1 hx.2
    have hwhole : wholeOf .kRoundToNegInf x = 0 := by
      rw [wholeOf, htruncate, if_neg fun h => absurd h.2 (lt_irrefl 0)]
    have hfloor : ⌊x⌋ = -1 := by
      rw [floor_eq_truncate, htruncate, if_pos ⟨by exact_mod_cast hx.2.ne', hx.2⟩, zero_sub]
    have hleast : t.cType.least < 0 ↔ t.cType.signed = true := by
      cases t <;> decide
    rw [hwhole, hfloor, value_saturateLong_iff (by norm_num) (by norm_num) (by norm_num),
      clamp_eq_clamp_iff, ← hleast]
    have hlt : ¬ x ≤ -1 := not_le.mpr hx.1
    simp only [hx, hlt, and_false, not_false_eq_true, true_and]
    omega
  · have hwhole : wholeOf .kRoundToNegInf x = ⌊x⌋ := by
      have hiff : truncate x < 0 ↔ x < 0 := by
        rw [truncate_neg_iff]
        exact ⟨fun hle => by linarith, fun h0 => not_lt.mp fun hlt => hx ⟨hlt, h0⟩⟩
      simp only [wholeOf, floor_eq_truncate, hiff]
    have hneg : ⌊x⌋ < 0 ↔ x ≤ -1 := by
      rw [Int.floor_lt, Int.cast_zero]
      exact ⟨fun h0 => not_lt.mp fun hlt => hx ⟨hlt, h0⟩, fun hle => by linarith⟩
    have hx' : ¬ (-1 < x ∧ x < 0 ∧ t.cType.signed = true) := fun h' => hx ⟨h'.1, h'.2.1⟩
    rw [hwhole] at hmem ⊢
    rw [value_saturateLong_iff hmem.1 hmem.2 le_of_lt, hneg]
    simp only [hx', not_false_eq_true]

/-- **What is stored for the whole value, by rounding mode.** -/
theorem value_wholeOf_iff {round : ℚ → ℤ} (h : round ∈ rounding.function)
    (hmem : -2 ^ 63 ≤ wholeOf rounding x ∧ wholeOf rounding x < 2 ^ 63) :
    t.cType.value (saturateLong t (wholeOf rounding x)) = t.cType.clamp (round x) ↔
      Saturates rounding t.cType x := by
  cases rounding with
  | kRoundToEven => simp [RoundingType.function] at h
  | kRoundToZero =>
    obtain rfl := Option.some.inj h
    rw [wholeOf] at hmem ⊢
    rw [value_saturateLong_iff hmem.1 hmem.2 le_of_lt, truncate_neg_iff, Saturates]
    simp only [and_true]
  | kRoundToPosInf =>
    obtain rfl := Option.some.inj h
    exact value_wholeOf_ceil_iff hmem
  | kRoundToNegInf =>
    obtain rfl := Option.some.inj h
    exact value_wholeOf_floor_iff hmem
  | kRoundToNearest =>
    obtain rfl := Option.some.inj h
    rw [wholeOf] at hmem ⊢
    rw [value_saturateLong_iff hmem.1 hmem.2 le_of_lt, nearest_neg_iff, Saturates]
    simp only [and_true]

/-! ### Halves -/

/-- **A half is stored as its integer part.** -/
theorem value_truncate_iff {round : ℚ → ℤ} (h : round ∈ rounding.function)
    (hlt : |x| < 2 ^ 63) : t.cType.value (saturateLong t (truncate x)) = t.cType.clamp (round x) ↔
      ¬ (t.cType.TakesNegative ∧ x ≤ -1) ∧
        (truncate x = round x ∨ x ≤ t.cType.least ∨ t.cType.greatest ≤ x) := by
  have htruncate := adjacent_truncate x
  have hround := adjacent_function h x
  obtain ⟨hlo, hhi⟩ : -2 ^ 63 < truncate x ∧ truncate x < 2 ^ 63 := by
    have habs := lt_of_le_of_lt (abs_truncate_le x) hlt
    exact abs_lt.mp (by exact_mod_cast habs)
  rw [value_saturateLong_iff hlo.le hhi (htruncate.nonpos_of_neg hround), truncate_neg_iff,
    htruncate.clamp_eq_clamp_iff hround]

theorem value_injective {t : CType} {a b : BitVec t.bits} : t.value a = t.value b ↔ a = b := by
  constructor
  · intro h
    rw [CType.value, CType.value] at h
    split at h
    · exact BitVec.eq_of_toInt_eq h
    · exact BitVec.eq_of_toNat_eq (by exact_mod_cast h)
  · rintro rfl
    rfl

/-- From here on negative numbers are stored as different values. -/
def CType.low (t : CType) : ℤ := if t.TakesNegative then -1 else t.least

/-- When halves are stored as floats are: where nothing is rounded, or both are saturated. -/
def HalfAgrees (rounding : RoundingType) (t : CType) (x : ℚ) : Prop :=
  match rounding with
  | .kRoundToEven | .kRoundToZero => True
  | .kRoundToPosInf => ¬ ((truncate x : ℚ) ≠ x ∧ -1 < x ∧ x < t.greatest)
  | .kRoundToNegInf => ¬ ((truncate x : ℚ) ≠ x ∧ t.low < x ∧ x < -1)
  | .kRoundToNearest => ¬ (nearest x ≠ truncate x ∧ t.low < x ∧ x < t.greatest)

theorem saturateLong_of_neg (h : t.cType.TakesNegative) (hr : r < 0) (hlo : -2 ^ 63 ≤ r) :
    t.cType.value (saturateLong t r) = t.cType.greatest := by
  rw [value_saturateLong hlo (by omega), if_pos ⟨h.1, h.2, hr⟩]

theorem saturateLong_truncate_ceil_iff (hlo : -2 ^ 62 < truncate x) (hhi : truncate x < 2 ^ 62) :
    saturateLong t (truncate x) = saturateLong t (wholeOf .kRoundToPosInf x) ↔
      HalfAgrees .kRoundToPosInf t.cType x := by
  have hgreatest := t.cType.greatest_pos
  have hleast := t.cType.least_le_zero
  have htruncate := adjacent_truncate x
  have hpos : 0 ≤ truncate x ↔ -1 < x := by rw [← not_lt, truncate_neg_iff, not_le]
  rw [← value_injective, HalfAgrees]
  by_cases h : (truncate x : ℚ) ≠ x ∧ 0 ≤ truncate x
  · have hwhole : wholeOf .kRoundToPosInf x = truncate x + 1 := if_pos h
    have hle : t.cType.greatest ≤ truncate x ↔ (t.cType.greatest : ℚ) ≤ x := by
      refine ⟨fun hle => ?_, (htruncate _).2⟩
      have hx : 0 ≤ x := by
        by_contra hneg
        have := (htruncate 0).1 (by exact_mod_cast (not_le.mp hneg).le)
        omega
      rw [truncate_of_nonneg hx] at hle
      exact Int.le_floor.mp hle
    rw [hwhole, value_saturateLong_of_pos (by omega) (by omega) (by omega),
      value_saturateLong_of_pos (by omega) (by omega) (by omega), clamp_eq_clamp_iff,
      ← not_le (b := x), ← hle]
    simp only [h, hpos.mp h.2, ne_eq, not_false_eq_true, true_and, not_not]
    omega
  · have hwhole : wholeOf .kRoundToPosInf x = truncate x := if_neg h
    rw [hwhole]
    simp only [true_iff]
    exact fun h' => h ⟨h'.1, hpos.mpr h'.2.1⟩

theorem saturateLong_truncate_floor_iff (hlo : -2 ^ 62 < truncate x) (hhi : truncate x < 2 ^ 62) :
    saturateLong t (truncate x) = saturateLong t (wholeOf .kRoundToNegInf x) ↔
      HalfAgrees .kRoundToNegInf t.cType x := by
  have hgreatest := t.cType.greatest_pos
  have hleast := t.cType.least_le_zero
  rw [← value_injective, HalfAgrees]
  by_cases h : (truncate x : ℚ) ≠ x ∧ truncate x < 0
  · have hwhole : wholeOf .kRoundToNegInf x = truncate x - 1 := if_pos h
    have hneg := truncate_neg_iff.mp h.2
    have hlt : x < -1 := by
      refine lt_of_le_of_ne hneg fun heq => h.1 ?_
      have hint := truncate_intCast (-1)
      push_cast at hint
      rw [heq, hint]
      norm_num
    have hle : truncate x ≤ t.cType.least ↔ x ≤ t.cType.least := by
      rw [truncate_of_nonpos (by linarith)]
      exact Int.ceil_le
    rw [hwhole]
    by_cases htakes : t.cType.TakesNegative
    · rw [saturateLong_of_neg htakes h.2 (by omega),
        saturateLong_of_neg htakes (by omega) (by omega), CType.low, if_pos htakes]
      simp only [true_iff]
      push_cast
      rintro ⟨_, hgt, _⟩
      linarith
    · rw [value_saturateLong_of_pos (by omega) (by omega) fun h' => htakes h'.1,
        value_saturateLong_of_pos (by omega) (by omega) fun h' => htakes h'.1, clamp_eq_clamp_iff,
        CType.low, if_neg htakes, ← not_le (a := x) (b := (t.cType.least : ℚ)), ← hle]
      simp only [h, hlt, ne_eq, not_false_eq_true, true_and, and_true, not_not]
      omega
  · have hwhole : wholeOf .kRoundToNegInf x = truncate x := if_neg h
    rw [hwhole]
    simp only [true_iff]
    exact fun h' => h ⟨h'.1, truncate_neg_iff.mpr h'.2.2.le⟩

/-- Types whose upper limit takes the place of negative numbers: those that are rounded to -1 are
stored there, but not those whose integer part is 0. -/
theorem saturateLong_truncate_nearest_of_takes (htakes : t.cType.TakesNegative)
    (hlo : -2 ^ 63 ≤ truncate x) (hhi : truncate x < 2 ^ 63) (hlo' : -2 ^ 63 ≤ nearest x)
    (hhi' : nearest x < 2 ^ 63) :
    t.cType.value (saturateLong t (truncate x)) = t.cType.value (saturateLong t (nearest x)) ↔
      ¬ (nearest x ≠ truncate x ∧ -1 < x ∧ x < t.cType.greatest) := by
  have hgreatest := t.cType.greatest_pos
  have hzero := htakes.least_eq
  have htruncate := adjacent_truncate x
  have hnear := adjacent_function
    (show nearest ∈ RoundingType.function .kRoundToNearest from rfl) x
  by_cases hneg : truncate x < 0
  · have hx := truncate_neg_iff.mp hneg
    have hnear' : nearest x < 0 := nearest_neg_iff.mpr (by linarith)
    rw [saturateLong_of_neg htakes hneg hlo, saturateLong_of_neg htakes hnear' hlo']
    simp only [true_iff]
    rintro ⟨_, hgt, _⟩
    linarith
  · have hx : -1 < x := not_le.mp fun hle => hneg (truncate_neg_iff.mpr hle)
    rw [value_saturateLong_of_pos hlo hhi fun h' => hneg h'.2]
    by_cases hnear' : nearest x < 0
    · have hhalf := nearest_neg_iff.mp hnear'
      have hfraction := truncate_of_fraction hx (by linarith)
      have hlt : x < t.cType.greatest := by
        have : (0 : ℚ) < t.cType.greatest := by exact_mod_cast hgreatest
        linarith
      rw [saturateLong_of_neg htakes hnear' hlo', hfraction, CType.clamp_of_le (by omega), hzero]
      exact iff_of_false (by omega) (not_not.mpr ⟨by omega, hx, hlt⟩)
    · rw [value_saturateLong_of_pos hlo' hhi' fun h' => hnear' h'.2,
        htruncate.clamp_eq_clamp_iff hnear, hzero]
      have hle : x ≤ (0 : ℤ) → truncate x = nearest x := by
        intro h0
        have := (htruncate 0).1 h0
        have := (hnear 0).1 h0
        omega
      simp only [hx, true_and, not_and, not_lt]
      constructor
      · rintro (h | h | h) hne
        · exact absurd h.symm hne
        · exact absurd (hle h).symm hne
        · exact h
      · intro h
        by_cases heq : nearest x = truncate x
        · exact .inl heq.symm
        · exact .inr (.inr (h heq))

theorem saturateLong_truncate_nearest_iff (hlo : -2 ^ 63 ≤ truncate x) (hhi : truncate x < 2 ^ 63)
    (hlo' : -2 ^ 63 ≤ nearest x) (hhi' : nearest x < 2 ^ 63) :
    saturateLong t (truncate x) = saturateLong t (nearest x) ↔
      HalfAgrees .kRoundToNearest t.cType x := by
  rw [← value_injective, HalfAgrees, CType.low]
  by_cases htakes : t.cType.TakesNegative
  · rw [if_pos htakes, saturateLong_truncate_nearest_of_takes htakes hlo hhi hlo' hhi']
    push_cast
    rfl
  · have hnear := adjacent_function
      (show nearest ∈ RoundingType.function .kRoundToNearest from rfl) x
    rw [value_saturateLong_of_pos hlo hhi fun h' => htakes h'.1,
      value_saturateLong_of_pos hlo' hhi' fun h' => htakes h'.1,
      (adjacent_truncate x).clamp_eq_clamp_iff hnear, if_neg htakes, ← not_le, ← not_le]
    constructor
    · rintro (h | h | h) ⟨hne, hlow, hhigh⟩
      · exact hne h.symm
      · exact hlow h
      · exact hhigh h
    · intro h
      by_contra hor
      push Not at hor
      exact h ⟨hor.1.symm, not_le.mpr hor.2.1, not_le.mpr hor.2.2⟩

/-- **When a half is stored as its whole value is.** -/
theorem saturateLong_truncate_iff (hlt : |x| < 2 ^ 62) (hrounding : rounding ≠ .kRoundToEven) :
    saturateLong t (truncate x) = saturateLong t (wholeOf rounding x) ↔
      HalfAgrees rounding t.cType x := by
  obtain ⟨hlo, hhi⟩ : -2 ^ 62 < truncate x ∧ truncate x < 2 ^ 62 := by
    have habs := lt_of_le_of_lt (abs_truncate_le x) hlt
    exact abs_lt.mp (by exact_mod_cast habs)
  cases rounding with
  | kRoundToEven => exact absurd rfl hrounding
  | kRoundToZero => exact iff_of_true rfl trivial
  | kRoundToPosInf => exact saturateLong_truncate_ceil_iff hlo hhi
  | kRoundToNegInf => exact saturateLong_truncate_floor_iff hlo hhi
  | kRoundToNearest =>
    have hx := abs_lt.mp hlt
    refine saturateLong_truncate_nearest_iff (by omega) (by omega) ?_ ?_
    · exact le_nearest_of_le (by push_cast; linarith)
    · exact lt_of_le_of_lt (nearest_le_of_le (n := 2 ^ 62) (by push_cast; linarith)) (by norm_num)

/-! ### Conversions -/

theorem hasFractions (inType : FloatingType) :
    inType.format.HasFractions ∧ 0 < inType.format.mantissaBits ∧
      inType.format.mantissaBits ≤ 52 := by
  cases inType <;> decide

variable {inType : FloatingType} (inRaw : BitVec inType.bits) (roundType : RoundingType)
  (outType : ExplicitType)

/-- **What a float or a double is stored as.** -/
theorem convertFloating_of_ne (hType : inType ≠ .kHalf)
    (hlt : |inType.value inRaw| < 2 ^ 63) :
    convertFloating inType inRaw true roundType outType =
      saturateLong outType (wholeOf roundType (inType.value inRaw)) := by
  have hnumber := inType.format.number_value inRaw
  obtain ⟨hf, hbits, _⟩ := hasFractions inType
  cases inType with
  | kHalf => exact absurd rfl hType
  | kFloat => exact congrArg (saturateLong outType) (roundWhole_eq hf hbits rfl hnumber hlt)
  | kDouble => exact congrArg (saturateLong outType) (roundWhole_eq hf hbits rfl hnumber hlt)

theorem wholeOf_intCast {n : ℤ} (h : rounding ≠ .kRoundToEven) : wholeOf rounding n = n := by
  cases rounding <;> simp_all [wholeOf, truncate_intCast, nearest_intCast]

theorem abs_half_lt {half : BitVec FloatingType.kHalf.bits} (h : FloatingType.kHalf.Finite half) :
    |FloatingType.kHalf.value half| < 2 ^ 16 := by
  have hlt := FloatFormat.Finite.abs_value_lt h (by decide)
  exact hlt

/-- **What a half is stored as.** -/
theorem convertFloating_kHalf (inRaw : BitVec FloatingType.kHalf.bits)
    (hfinite : FloatingType.kHalf.Finite inRaw) :
    convertFloating .kHalf inRaw true roundType outType = saturateLong outType
      (if roundType = .kRoundToEven then wholeOf .kRoundToEven (FloatingType.kHalf.value inRaw)
        else truncate (FloatingType.kHalf.value inRaw)) := by
  obtain ⟨x, hx⟩ : ∃ x, x = FloatingType.kHalf.value inRaw := ⟨_, rfl⟩
  have hlt : |x| < 2 ^ 16 := by
    rw [hx]
    exact abs_half_lt hfinite
  have htruncate : |truncate x| < 2 ^ 16 := by
    have habs := lt_of_le_of_lt (abs_truncate_le x) hlt
    exact_mod_cast habs
  have hnumber : binary32.Number (truncate x) :=
    number_intCast (by decide) (lt_trans htruncate (by decide))
  have hround : binary32.round (truncate x) = truncate x := hnumber.round_eq
  have hwhole : roundWhole binary32 lrintfClamped roundType (truncate x)
      = wholeOf roundType (truncate x) := by
    refine roundWhole_eq (by decide) (by decide) rfl hnumber ?_
    have habs : |((truncate x : ℤ) : ℚ)| < 2 ^ 16 := by exact_mod_cast htruncate
    linarith
  have hcase : convertFloating .kHalf inRaw true roundType outType
      = halfRoundCase outType roundType true x := by
    rw [hx]
    rfl
  rw [hcase, halfRoundCase, hround, hwhole, downCastCase, if_pos rfl, ← hx]
  split
  · rename_i h
    rw [h, wholeOf, wholeOf, truncate_intCast]
  · rename_i h
    rw [wholeOf_intCast h]

/-- **When floating types are converted as they should be, and when they agree.**  With
saturation, a float or a double is stored as the rounding mode says in the cases of
`Saturates`, a half where its integer part is what the rounding mode says or lies outside the
limits; floats and doubles always agree, and halves with them in the cases of `HalfAgrees`. -/
theorem convertFloating_iff (roundType : RoundingType) (outType : ExplicitType) :
    (∀ (inType : FloatingType) (inRaw : BitVec inType.bits) (round : ℚ → ℤ),
      inType.Finite inRaw → |inType.value inRaw| < 2 ^ 63 →
      round ∈ roundType.function →
      (outType.cType.value (convertFloating inType inRaw true roundType outType)
          = outType.cType.clamp (round (inType.value inRaw)) ↔
        if inType = .kHalf then
          ¬ (outType.cType.TakesNegative ∧ inType.value inRaw ≤ -1) ∧
            (truncate (inType.value inRaw) = round (inType.value inRaw) ∨
              inType.value inRaw ≤ outType.cType.least ∨
              outType.cType.greatest ≤ inType.value inRaw)
        else Saturates roundType outType.cType (inType.value inRaw))) ∧
    ∀ (half : BitVec FloatingType.kHalf.bits) (float : BitVec FloatingType.kFloat.bits)
      (double : BitVec FloatingType.kDouble.bits),
      FloatingType.kHalf.Finite half → FloatingType.kFloat.Finite float →
      FloatingType.kDouble.Finite double →
      FloatingType.kHalf.value half = FloatingType.kFloat.value float →
      FloatingType.kHalf.value half = FloatingType.kDouble.value double →
      convertFloating .kFloat float true roundType outType
          = convertFloating .kDouble double true roundType outType ∧
        (convertFloating .kHalf half true roundType outType
            = convertFloating .kFloat float true roundType outType ↔
          HalfAgrees roundType outType.cType (FloatingType.kHalf.value half)) := by
  constructor
  · intro inType inRaw round hfinite hlt hround
    have heven : roundType ≠ .kRoundToEven := by
      rintro rfl
      simp [RoundingType.function] at hround
    split
    · rename_i h
      subst h
      rw [convertFloating_kHalf roundType outType inRaw hfinite, if_neg heven]
      exact value_truncate_iff hround hlt
    · rename_i h
      rw [convertFloating_of_ne inRaw roundType outType h hlt]
      exact value_wholeOf_iff hround
        (wholeOf_mem (hasFractions inType).2.2 (inType.format.number_value inRaw) hlt heven)
  · intro half float double hhalf _ _ hfloat hdouble
    have hlt := abs_half_lt hhalf
    have hfloat' : |FloatingType.kFloat.value float| < 2 ^ 63 := by
      rw [← hfloat]
      linarith
    have hdouble' : |FloatingType.kDouble.value double| < 2 ^ 63 := by
      rw [← hdouble]
      linarith
    rw [convertFloating_kHalf roundType outType half hhalf,
      convertFloating_of_ne float roundType outType (by decide) hfloat',
      convertFloating_of_ne double roundType outType (by decide) hdouble', ← hfloat, ← hdouble]
    refine ⟨rfl, ?_⟩
    by_cases heven : roundType = .kRoundToEven
    · rw [if_pos heven, heven, HalfAgrees]
      exact iff_of_true rfl trivial
    · rw [if_neg heven]
      exact saturateLong_truncate_iff (by linarith) heven

/-- 1.5 in the three types, rounded down to a `schar`. -/
theorem convertFloating_iff_schar :
    CType.schar.value (convertFloating .kFloat 0x3fc00000#32 true .kRoundToNegInf .kChar)
        = CType.schar.clamp ⌊FloatingType.kFloat.value 0x3fc00000#32⌋ ∧
      convertFloating .kFloat 0x3fc00000#32 true .kRoundToNegInf .kChar
        = convertFloating .kDouble 0x3ff8000000000000#64 true .kRoundToNegInf .kChar ∧
      convertFloating .kHalf 0x3e00#16 true .kRoundToNegInf .kChar
        = convertFloating .kFloat 0x3fc00000#32 true .kRoundToNegInf .kChar := by
  obtain ⟨hround, hagree⟩ := convertFloating_iff .kRoundToNegInf .kChar
  have hfinite : binary32.Finite 0x3fc00000#32 := by decide
  obtain ⟨hdouble, hhalf⟩ := hagree 0x3e00#16 0x3fc00000#32 0x3ff8000000000000#64
    (show binary16.Finite 0x3e00#16 by decide) hfinite
    (show binary64.Finite 0x3ff8000000000000#64 by decide) (by decide +kernel) (by decide +kernel)
  have hvalue : FloatingType.kFloat.value 0x3fc00000#32 = 3 / 2 := by decide +kernel
  refine ⟨(hround .kFloat 0x3fc00000#32 Int.floor hfinite ?_ rfl).mpr ?_, hdouble, hhalf.mpr ?_⟩
  · rw [hvalue]
    norm_num
  · rw [if_neg (by decide), hvalue, Saturates]
    norm_num
  · have hvalue' : FloatingType.kHalf.value 0x3e00#16 = 3 / 2 := by decide +kernel
    rw [HalfAgrees, hvalue']
    norm_num

/-- The half 0.5 is stored as 0 when it is rounded up, and the float 0.5 as 1; the float -0.5 is
stored as 1 when it is rounded up and as 0 when it is rounded down, and -1 as 255. -/
theorem not_rounded :
    FloatingType.kHalf.value 0x3800#16 = 1 / 2 ∧ FloatingType.kFloat.value 0x3f000000#32 = 1 / 2 ∧
      FloatingType.kFloat.value 0xbf000000#32 = -1 / 2 ∧
      FloatingType.kFloat.value 0xbf800000#32 = -1 ∧
      CType.schar.value (convertFloating .kHalf 0x3800#16 true .kRoundToPosInf .kChar) = 0 ∧
      CType.schar.value (convertFloating .kFloat 0x3f000000#32 true .kRoundToPosInf .kChar) = 1 ∧
      CType.schar.value (convertFloating .kFloat 0xbf000000#32 true .kRoundToPosInf .kChar) = 1 ∧
      CType.schar.value (convertFloating .kFloat 0xbf000000#32 true .kRoundToNegInf .kChar) = 0 ∧
      CType.uchar.value (convertFloating .kFloat 0xbf800000#32 true .kRoundToZero .kUChar) = 255 ∧
      CType.schar.clamp ⌈(1 / 2 : ℚ)⌉ = 1 ∧ CType.schar.clamp ⌈(-1 / 2 : ℚ)⌉ = 0 ∧
      CType.schar.clamp ⌊(-1 / 2 : ℚ)⌋ = -1 ∧ CType.uchar.clamp (truncate (-1)) = 0 := by
  decide +kernel

end OpenCLCTS.Conversions
