import OpenCLCTS.Conversions.ConvSat

/-!
# The inputs of unsaturated conversions

Where a conversion to an integer type does not saturate, the inputs are clamped to the numbers for
which it is defined.  The bounds are written by hand, for every pair of types and rounding mode,
and computed in the type of the source.

* `clamp_holds`: the numbers that remain are rounded to integers of the type.
* `above_iff`, `below_iff`: the numbers that are clamped although they are rounded to such integers.
* `clamp_iff`: **the bounds are exact just outside of the numbers that are lost.**
-/

namespace OpenCLCTS.Conversions

open FloatFormat

/-- `RoundingMode`. -/
inductive RoundingMode
  | kDefaultRoundingMode
  | kRoundToNearestEven
  | kRoundUp
  | kRoundDown
  | kRoundTowardZero
  deriving DecidableEq

/-- A value of a floating type; the two zeros are not told apart. -/
inductive FloatValue
  | nan
  | infinite (negative : Bool)
  | finite (q : ℚ)
  deriving DecidableEq

/-- `a < b`, which is false for NaN. -/
def FloatValue.lt : FloatValue → FloatValue → Bool
  | .finite a, .finite b => decide (a < b)
  | .infinite s, .infinite t => s && !t
  | .infinite s, .finite _ => s
  | .finite _, .infinite s => !s
  | .nan, _ | _, .nan => false

/-- `fclamp` and `dclamp`. -/
def fclamp (lo v hi : FloatValue) : FloatValue :=
  if (if v.lt lo then lo else v).lt hi then (if v.lt lo then lo else v) else hi

/-! ### `clamp_ranges` -/

section

variable (f : FloatFormat) (outMin outMax eps : ℚ) (signed : Bool)

/-- `outMin-0.5f`. -/
def halfBelow : ℚ := f.round (outMin - 1 / 2)

/-- `outMin-1.0f+(std::is_signed<OutType>::value?outMax:0.5f)*eps`. -/
def oneBelow : ℚ :=
  f.round (f.round (outMin - 1) + f.round ((if signed then outMax else 1 / 2) * eps))

/-- `outMax * 0.5f * eps`. -/
def halfEps : ℚ := f.round (f.round (outMax * (1 / 2)) * eps)

/-- The bounds for the types of at most 16 bits. -/
def smallRanges : RoundingMode → ℚ × ℚ
  | .kDefaultRoundingMode | .kRoundToNearestEven =>
    (halfBelow f outMin, f.round (f.round (outMax + 1 / 2) - halfEps f outMax eps))
  | .kRoundUp => (oneBelow f outMin outMax eps signed, f.round (outMax - 1))
  | .kRoundDown => (f.round (outMin - 0), f.round (outMax - halfEps f outMax eps))
  | .kRoundTowardZero =>
    (oneBelow f outMin outMax eps signed, f.round (outMax - halfEps f outMax eps))

/-- The bounds for the wider unsigned types, whose upper bounds are constants. -/
def unsignedRanges (upper : RoundingMode → ℚ) (round : RoundingMode) : ℚ × ℚ :=
  match round with
  | .kDefaultRoundingMode | .kRoundToNearestEven => (halfBelow f outMin, upper round)
  | .kRoundUp | .kRoundTowardZero => (oneBelow f outMin outMax eps false, upper round)
  | .kRoundDown => (f.round (outMin - 0), upper round)

end

/-- `FLT_EPSILON`. -/
def fltEpsilon : ℚ := 1 / 2 ^ 23

/-- `DBL_EPSILON`. -/
def dblEpsilon : ℚ := 1 / 2 ^ 52

def clHalfEpsilon : ℚ := 1 / 2 ^ 10

def clHalfMax : ℚ := 65504

/-- The bounds from `float`. -/
def floatRanges (t : CType) (round : RoundingMode) : ℚ × ℚ :=
  let outMin := binary32.round t.least
  let outMax := binary32.round t.greatest
  match t with
  | .schar | .uchar | .short | .ushort =>
    smallRanges binary32 outMin outMax fltEpsilon t.signed round
  | .uint => unsignedRanges binary32 outMin outMax fltEpsilon (fun _ => 0x1fffffe * 2 ^ 7) round
  | .int => (outMin, 0x1fffffe * 2 ^ 6)
  | .ulong => unsignedRanges binary32 outMin outMax fltEpsilon (fun _ => 0x1fffffe * 2 ^ 39) round
  | .long => (-2 ^ 63, 0x1fffffe * 2 ^ 38)

/-- The upper bounds from `double` to `uint`. -/
def doubleUintUpper (outMax : ℚ) : RoundingMode → ℚ
  | .kDefaultRoundingMode | .kRoundToNearestEven =>
    binary64.round (binary64.round (outMax + 1 / 2) - binary64.round (2 ^ 31 * dblEpsilon))
  | .kRoundUp => outMax
  | .kRoundDown | .kRoundTowardZero => 0x1fffffffffffff / 2 ^ 21

/-- The bounds from `double` to `int`. -/
def doubleIntRanges (outMin outMax : ℚ) : RoundingMode → ℚ × ℚ
  | .kDefaultRoundingMode | .kRoundToNearestEven =>
    (halfBelow binary64 outMin,
      binary64.round (binary64.round (outMax + 1 / 2) - binary64.round (2 ^ 30 * dblEpsilon)))
  | .kRoundUp => (oneBelow binary64 outMin outMax dblEpsilon true, outMax)
  | .kRoundDown => (binary64.round (outMin - 0),
      binary64.round (binary64.round (outMax + 1) - binary64.round (2 ^ 30 * dblEpsilon)))
  | .kRoundTowardZero => (oneBelow binary64 outMin outMax dblEpsilon true,
      binary64.round (binary64.round (outMax + 1) - binary64.round (2 ^ 30 * dblEpsilon)))

/-- The bounds from `double`. -/
def doubleRanges (t : CType) (round : RoundingMode) : ℚ × ℚ :=
  let outMin := binary64.round t.least
  let outMax := binary64.round t.greatest
  match t with
  | .schar | .uchar | .short | .ushort =>
    smallRanges binary64 outMin outMax dblEpsilon t.signed round
  | .uint => unsignedRanges binary64 outMin outMax dblEpsilon (doubleUintUpper outMax) round
  | .int => doubleIntRanges outMin outMax round
  | .ulong =>
    unsignedRanges binary64 outMin outMax dblEpsilon (fun _ => 0x1fffffffffffff * 2 ^ 11) round
  | .long => (-2 ^ 63, 0x1fffffffffffff * 2 ^ 10)

/-- The bounds from `half`, as they are given to `HFF`. -/
def halfRanges (t : CType) (round : RoundingMode) : ℚ × ℚ :=
  let outMin := binary32.round t.least
  let outMax := binary32.round t.greatest
  match t with
  | .schar | .uchar | .short => smallRanges binary32 outMin outMax clHalfEpsilon t.signed round
  | .int | .long => (-clHalfMax, clHalfMax)
  | .ushort | .uint | .ulong => (outMin, clHalfMax)

section

variable (HTF : FloatValue → FloatValue) (HFF : Mode → FloatValue → FloatValue)
  (halfRoundingMode : Mode) (inType : FloatingType) (outType : CType) (round : RoundingMode)

/-- `clamp_ranges[round]`. -/
def clampRanges : FloatValue × FloatValue :=
  match inType with
  | .kHalf => (HFF .towardZero (.finite (halfRanges outType round).1),
      HFF .towardZero (.finite (halfRanges outType round).2))
  | .kFloat => (.finite (floatRanges outType round).1, .finite (floatRanges outType round).2)
  | .kDouble => (.finite (doubleRanges outType round).1, .finite (doubleRanges outType round).2)

/-- `clamp`, for integers; `HTF` and `HFF` convert a half to a float and back. -/
def clamp (x : FloatValue) : FloatValue :=
  match inType with
  | .kHalf => HFF halfRoundingMode (fclamp (HTF (clampRanges HFF .kHalf outType round).1) (HTF x)
      (HTF (clampRanges HFF .kHalf outType round).2))
  | .kFloat | .kDouble => fclamp (clampRanges HFF inType outType round).1 x
      (clampRanges HFF inType outType round).2

end

/-! ### The bounds -/

/-- What the rounding mode of a conversion takes a number to, by default toward zero. -/
def RoundingMode.mode : RoundingMode → Mode
  | .kDefaultRoundingMode | .kRoundTowardZero => .towardZero
  | .kRoundToNearestEven => .toNearest
  | .kRoundUp => .upward
  | .kRoundDown => .downward

/-- The bounds as numbers. -/
def bounds (inType : FloatingType) (outType : CType) (round : RoundingMode) : ℚ × ℚ :=
  match inType with
  | .kHalf => (binary16.roundIn .towardZero (halfRanges outType round).1,
      binary16.roundIn .towardZero (halfRanges outType round).2)
  | .kFloat => floatRanges outType round
  | .kDouble => doubleRanges outType round

/-- **The bounds are rounded to integers of the type.** -/
theorem bounds_holds (inType : FloatingType) (outType : CType) (round : RoundingMode) :
    (bounds inType outType round).1 ≤ (bounds inType outType round).2 ∧
      outType.Holds (round.mode.toInt (bounds inType outType round).1) ∧
      outType.Holds (round.mode.toInt (bounds inType outType round).2) := by
  cases inType <;> cases outType <;> cases round <;> decide +kernel

theorem bounds_round (inType : FloatingType) (outType : CType) (round : RoundingMode) :
    inType.format.round (bounds inType outType round).1 = (bounds inType outType round).1 ∧
      inType.format.round (bounds inType outType round).2 = (bounds inType outType round).2 := by
  cases inType <;> cases outType <;> cases round <;> decide +kernel

theorem bounds_number (inType : FloatingType) (outType : CType) (round : RoundingMode) :
    inType.format.Number (bounds inType outType round).1 ∧
      inType.format.Number (bounds inType outType round).2 := by
  obtain ⟨hlo, hhi⟩ := bounds_round inType outType round
  rw [← hlo, ← hhi]
  exact ⟨inType.format.number_roundIn .toNearest _, inType.format.number_roundIn .toNearest _⟩

theorem abs_halfRanges_le (outType : CType) (round : RoundingMode) :
    |(halfRanges outType round).1| ≤ 65504 ∧ |(halfRanges outType round).2| ≤ 65504 ∧
      |(bounds .kHalf outType round).1| ≤ 65504 ∧ |(bounds .kHalf outType round).2| ≤ 65504 := by
  cases outType <;> cases round <;> decide +kernel

/-! ### The numbers that are lost -/

section

variable (inType : FloatingType) (outType : CType) (round : RoundingMode) (q : ℚ)

/-- The numbers above the upper bound that are rounded to integers of the type. -/
def LostAbove : Prop :=
  if inType = .kHalf ∧ outType = .short then
    (round = .kRoundToNearestEven ∨ round = .kRoundDown ∨ round = .kRoundTowardZero) ∧ q = 32752
  else if outType.bits ≤ 16 ∧ ¬ (inType = .kHalf ∧ outType = .ushort) then
    match round with
    | .kDefaultRoundingMode | .kRoundToNearestEven => False
    | .kRoundUp => (outType.greatest : ℚ) - 1 < q ∧ q ≤ outType.greatest
    | .kRoundDown | .kRoundTowardZero =>
      (outType.greatest : ℚ) ≤ q ∧ q < (outType.greatest : ℚ) + 1
  else False

/-- The numbers below the lower bound. -/
def LostBelow : Prop :=
  if inType = .kHalf ∧ outType = .short then
    (round = .kRoundUp ∨ round = .kRoundTowardZero) ∧ -32768 ≤ q ∧ q < -32736
  else if inType = .kHalf ∧ outType ∈ [.ushort, .uint, .ulong] then
    match round with
    | .kDefaultRoundingMode | .kRoundDown => False
    | .kRoundToNearestEven => -1 / 2 ≤ q ∧ q < 0
    | .kRoundUp | .kRoundTowardZero => -1 < q ∧ q < 0
  else False

/-- Bounds above which the next number is too large. -/
def ExactAbove : Prop :=
  2 ^ inType.format.minExp ≤ (bounds inType outType round).2 ∧
    (outType.greatest < round.mode.toInt ((bounds inType outType round).2
        + 2 ^ inType.format.ulp (bounds inType outType round).2) ∨
      2 ^ 2 ^ (inType.format.exponentBits - 1) ≤ (bounds inType outType round).2
        + 2 ^ inType.format.ulp (bounds inType outType round).2)

instance : Decidable (ExactAbove inType outType round) := inferInstanceAs (Decidable (_ ∧ _))

/-- Bounds below which the next number is too small. -/
def ExactBelow : Prop :=
  (round = .kRoundDown ∧ (bounds inType outType round).1 = outType.least) ∨
    (bounds inType outType round).1 ≤ -2 ^ inType.format.minExp ∧
      (round.mode.toInt ((bounds inType outType round).1
          - 2 ^ inType.format.ulp (bounds inType outType round).1) < outType.least ∨
        (bounds inType outType round).1 - 2 ^ inType.format.ulp (bounds inType outType round).1
          ≤ -2 ^ 2 ^ (inType.format.exponentBits - 1))

instance : Decidable (ExactBelow inType outType round) := inferInstanceAs (Decidable (_ ∨ _))

end

section

variable {inType : FloatingType} {outType : CType} {round : RoundingMode} {q : ℚ}

theorem exactAbove_of (hround : round ≠ .kDefaultRoundingMode)
    (h : (inType = .kHalf ∧ outType = .short ∧ round = .kRoundUp) ∨
      ¬ (inType = .kHalf ∧ outType = .short) ∧ (round = .kRoundToNearestEven ∨
        ¬ (outType.bits ≤ 16 ∧ ¬ (inType = .kHalf ∧ outType = .ushort)))) :
    ExactAbove inType outType round := by
  revert hround h
  cases inType <;> cases outType <;> cases round <;> decide +kernel

theorem exactBelow_of (hround : round ≠ .kDefaultRoundingMode)
    (h : (inType = .kHalf ∧ outType = .short ∧ ¬ (round = .kRoundUp ∨ round = .kRoundTowardZero)) ∨
      ¬ (inType = .kHalf ∧ outType = .short) ∧
        ¬ (inType = .kHalf ∧ outType ∈ [CType.ushort, .uint, .ulong])) :
    ExactBelow inType outType round := by
  revert hround h
  cases inType <;> cases outType <;> cases round <;> decide +kernel

/-- The bounds of the types of at most 16 bits: the greatest integer itself lies above. -/
theorem small_upper (hsmall : outType.bits ≤ 16 ∧ ¬ (inType = .kHalf ∧ outType = .ushort))
    (hshort : ¬ (inType = .kHalf ∧ outType = .short)) :
    (bounds inType outType .kRoundUp).2 = outType.greatest - 1 ∧
      (∀ r ∈ [RoundingMode.kRoundDown, .kRoundTowardZero],
        2 ^ inType.format.minExp ≤ (bounds inType outType r).2 ∧
        (bounds inType outType r).2 < outType.greatest ∧
        (bounds inType outType r).2 + 2 ^ inType.format.ulp (bounds inType outType r).2
          = outType.greatest) := by
  revert hsmall hshort
  cases inType <;> cases outType <;> decide +kernel

theorem short_bounds :
    (∀ r ∈ [RoundingMode.kRoundToNearestEven, .kRoundDown, .kRoundTowardZero],
      (bounds .kHalf .short r).2 = 32736) ∧
    (∀ r ∈ [RoundingMode.kRoundUp, .kRoundTowardZero], (bounds .kHalf .short r).1 = -32736) ∧
    ∀ outType ∈ [CType.ushort, .uint, .ulong], ∀ r ∈ [RoundingMode.kRoundToNearestEven, .kRoundUp,
      .kRoundDown, .kRoundTowardZero], (bounds .kHalf outType r).1 = 0 := by
  decide +kernel

/-! ### Above and below -/

theorem number_of_mem (hq : q ∈ inType.format.values) :
    inType.format.Number q ∧ |q| < 2 ^ 2 ^ (inType.format.exponentBits - 1) := by
  obtain ⟨b, hb, rfl⟩ := hq
  exact ⟨inType.format.number_value b, hb.abs_value_lt (by cases inType <;> decide)⟩

theorem ExactAbove.not_holds (h : ExactAbove inType outType round) (hq : q ∈ inType.format.values)
    (hlt : (bounds inType outType round).2 < q) : ¬ outType.Holds (round.mode.toInt q) := by
  obtain ⟨hnumber, hmax⟩ := number_of_mem hq
  obtain ⟨hnormal, hnext⟩ := h
  have habove := hnumber.above_le (bounds_number inType outType round).2 hnormal hlt
  intro hholds
  rcases hnext with hnext | hnext
  · exact absurd (hnext.trans_le (round.mode.toInt_mono habove)) (not_lt.mpr hholds.2)
  · exact absurd (hnext.trans (habove.trans (le_abs_self q))) (not_le.mpr hmax)

theorem ExactBelow.not_holds (h : ExactBelow inType outType round) (hq : q ∈ inType.format.values)
    (hlt : q < (bounds inType outType round).1) : ¬ outType.Holds (round.mode.toInt q) := by
  obtain ⟨hnumber, hmax⟩ := number_of_mem hq
  intro hholds
  rcases h with ⟨rfl, hleast⟩ | ⟨hnormal, hnext⟩
  · have hfloor : outType.least ≤ ⌊q⌋ := hholds.1
    rw [hleast] at hlt
    exact absurd (Int.le_floor.mp hfloor) (not_le.mpr hlt)
  · have hbelow := hnumber.le_below (bounds_number inType outType round).1 hnormal hlt
    rcases hnext with hnext | hnext
    · exact absurd ((round.mode.toInt_mono hbelow).trans_lt hnext) (not_lt.mpr hholds.1)
    · have hneg := hbelow.trans hnext
      have habs := (abs_lt.mp hmax).1
      exact absurd hneg (not_le.mpr habs)

theorem short_above (mode : Mode) (hq : q ∈ binary16.values) :
    32736 < q ∧ CType.short.Holds (mode.toInt q) ↔ q = 32752 := by
  have hulp : (32736 : ℚ) + 2 ^ binary16.ulp 32736 = 32752 ∧
      (32752 : ℚ) + 2 ^ binary16.ulp 32752 = 32768 ∧ (2 : ℚ) ^ binary16.minExp ≤ 32736 ∧
      binary16.round 32736 = 32736 ∧ binary16.round 32752 = 32752 := by decide +kernel
  obtain ⟨hfirst, hsecond, hnormal, hround, hround'⟩ := hulp
  have hnumber : binary16.Number q := (@number_of_mem .kHalf q hq).1
  have hlo : binary16.Number 32736 := hround ▸ binary16.number_roundIn .toNearest 32736
  have hhi : binary16.Number 32752 := hround' ▸ binary16.number_roundIn .toNearest 32752
  constructor
  · intro h
    have hle := hnumber.above_le hlo hnormal h.1
    rw [hfirst] at hle
    by_contra hne
    have hnext := hnumber.above_le hhi (hnormal.trans (by norm_num)) (lt_of_le_of_ne hle (Ne.symm hne))
    rw [hsecond] at hnext
    have hint : 32768 ≤ mode.toInt q := mode.le_toInt (by exact_mod_cast hnext)
    exact absurd (hint.trans h.2.2) (by decide)
  · intro h
    have hint : mode.toInt q = 32752 := by
      rw [h]
      exact_mod_cast mode.toInt_intCast 32752
    rw [hint, h]
    exact ⟨by norm_num, by decide⟩

/-- The integer that is greatest is lost where the conversion cuts off. -/
theorem cut_above {t : CType} {mode : Mode} (hmode : mode = .downward ∨ mode = .towardZero)
    (hq : (t.greatest : ℚ) ≤ q) : t.Holds (mode.toInt q) ↔ q < (t.greatest : ℚ) + 1 := by
  have hpos : (0 : ℚ) < t.greatest := by exact_mod_cast t.greatest_pos
  have hleast := t.least_le_zero
  have hgreatest := t.greatest_pos
  have hfloor : mode.toInt q = ⌊q⌋ := by
    rcases hmode with rfl | rfl
    · rfl
    · exact truncate_of_nonneg (hpos.le.trans hq)
  have hle : t.greatest ≤ ⌊q⌋ := Int.le_floor.mpr hq
  have hupper : ⌊q⌋ ≤ t.greatest ↔ q < (t.greatest : ℚ) + 1 := by
    rw [← Int.lt_add_one_iff, Int.floor_lt]
    push_cast
    rfl
  rw [hfloor, CType.Holds, hupper]
  exact and_iff_right (by omega)

theorem up_above {t : CType} (hq : (t.greatest : ℚ) - 1 < q) :
    t.Holds (Mode.upward.toInt q) ↔ q ≤ t.greatest := by
  have hleast := t.least_le_zero
  have hgreatest := t.greatest_pos
  have hle : t.greatest ≤ ⌈q⌉ := Int.le_ceil_iff.mpr hq
  rw [CType.Holds, Mode.toInt, Int.ceil_le]
  exact and_iff_right (by omega)

theorem small_cut_above (hsmall : outType.bits ≤ 16 ∧ ¬ (inType = .kHalf ∧ outType = .ushort))
    (hshort : ¬ (inType = .kHalf ∧ outType = .short))
    (hround : round ∈ [RoundingMode.kRoundDown, .kRoundTowardZero])
    (hq : q ∈ inType.format.values) :
    (bounds inType outType round).2 < q ∧ outType.Holds (round.mode.toInt q) ↔
      (outType.greatest : ℚ) ≤ q ∧ q < (outType.greatest : ℚ) + 1 := by
  obtain ⟨hnormal, hlt, hnext⟩ := (small_upper hsmall hshort).2 round hround
  have habove : (bounds inType outType round).2 < q ↔ (outType.greatest : ℚ) ≤ q := by
    constructor
    · intro h
      have hle := (number_of_mem hq).1.above_le (bounds_number inType outType round).2 hnormal h
      rwa [hnext] at hle
    · exact hlt.trans_le
  have hmode : round.mode = .downward ∨ round.mode = .towardZero := by
    revert hround
    cases round <;> decide
  rw [habove]
  exact and_congr_right (cut_above hmode)

/-- **What is lost above.** -/
theorem above_iff (hround : round ≠ .kDefaultRoundingMode) (hq : q ∈ inType.format.values) :
    (bounds inType outType round).2 < q ∧ outType.Holds (round.mode.toInt q) ↔
      LostAbove inType outType round q := by
  have hexact (h : ExactAbove inType outType round) :
      ¬ ((bounds inType outType round).2 < q ∧ outType.Holds (round.mode.toInt q)) :=
    fun h' => h.not_holds hq h'.1 h'.2
  unfold LostAbove
  split
  · rename_i hshort
    obtain ⟨rfl, rfl⟩ := hshort
    have hbounds := short_bounds.1
    cases round with
    | kDefaultRoundingMode => exact absurd rfl hround
    | kRoundUp =>
      exact iff_of_false (hexact (exactAbove_of hround (.inl ⟨rfl, rfl, rfl⟩))) (by simp)
    | kRoundToNearestEven | kRoundDown | kRoundTowardZero =>
      rw [hbounds _ (by simp), short_above _ hq]
      simp
  · rename_i hshort
    split
    · rename_i hsmall
      have hup := (small_upper hsmall hshort).1
      cases round with
      | kDefaultRoundingMode => exact absurd rfl hround
      | kRoundToNearestEven =>
        exact iff_of_false (hexact (exactAbove_of hround (.inr ⟨hshort, .inl rfl⟩))) id
      | kRoundUp =>
        rw [hup]
        exact and_congr_right up_above
      | kRoundDown | kRoundTowardZero =>
        exact small_cut_above hsmall hshort (by simp) hq
    · rename_i hwide
      exact iff_of_false (hexact (exactAbove_of hround (.inr ⟨hshort, .inr hwide⟩))) id

theorem short_below (mode : Mode) (hq : q ∈ binary16.values) :
    q < -32736 ∧ CType.short.Holds (mode.toInt q) ↔ -32768 ≤ q ∧ q < -32736 := by
  have hulp : (-32768 : ℚ) - 2 ^ binary16.ulp (-32768) = -32800 ∧
      (-32768 : ℚ) ≤ -2 ^ binary16.minExp ∧ binary16.round (-32768) = -32768 := by decide +kernel
  obtain ⟨hnext, hnormal, hround⟩ := hulp
  have hnumber : binary16.Number q := (@number_of_mem .kHalf q hq).1
  have hlo : binary16.Number (-32768) := hround ▸ binary16.number_roundIn .toNearest (-32768)
  rw [and_comm]
  refine and_congr_left ?_
  intro hlt
  constructor
  · intro h
    by_contra hbelow
    have hle := hnumber.le_below hlo hnormal (not_le.mp hbelow)
    rw [hnext] at hle
    have hint : mode.toInt q ≤ -32800 := mode.toInt_le (by exact_mod_cast hle)
    exact absurd (h.1.trans hint) (by decide)
  · intro h
    have hlow : -32768 ≤ mode.toInt q := mode.le_toInt (by exact_mod_cast h)
    have hhigh : mode.toInt q ≤ -32736 := mode.toInt_le (by exact_mod_cast hlt.le)
    exact ⟨le_trans (by decide) hlow, hhigh.trans (by decide)⟩

theorem zero_below {t : CType} (ht : t ∈ [CType.ushort, .uint, .ulong]) (hlt : q < 0) :
    (t.Holds (Mode.toNearest.toInt q) ↔ -1 / 2 ≤ q) ∧ (t.Holds (Mode.upward.toInt q) ↔ -1 < q) ∧
      (t.Holds (Mode.towardZero.toInt q) ↔ -1 < q) ∧ ¬ t.Holds (Mode.downward.toInt q) := by
  have hzero : t.least = 0 := by
    revert ht
    cases t <;> decide
  have hgreatest := t.greatest_pos
  have hholds (mode : Mode) : t.Holds (mode.toInt q) ↔ 0 ≤ mode.toInt q := by
    have hle : mode.toInt q ≤ 0 := mode.toInt_le (by exact_mod_cast hlt.le)
    rw [CType.Holds, hzero]
    exact and_iff_left (by omega)
  rw [hholds, hholds, hholds, hholds]
  refine ⟨?_, ?_, ?_, ?_⟩
  · rw [Mode.toInt, ← not_lt, nearest_neg_iff, not_lt]
  · rw [Mode.toInt, Int.le_ceil_iff]
    push_cast
    rw [zero_sub]
  · rw [Mode.toInt, ← not_lt, truncate_neg_iff, not_le]
  · rw [Mode.toInt, Int.floor_nonneg, not_le]
    exact hlt

/-- **What is lost below.** -/
theorem below_iff (hround : round ≠ .kDefaultRoundingMode) (hq : q ∈ inType.format.values) :
    q < (bounds inType outType round).1 ∧ outType.Holds (round.mode.toInt q) ↔
      LostBelow inType outType round q := by
  have hexact (h : ExactBelow inType outType round) :
      ¬ (q < (bounds inType outType round).1 ∧ outType.Holds (round.mode.toInt q)) :=
    fun h' => h.not_holds hq h'.1 h'.2
  obtain ⟨-, hshort_bounds, hzero_bounds⟩ := short_bounds
  unfold LostBelow
  split
  · rename_i hshort
    obtain ⟨rfl, rfl⟩ := hshort
    cases round with
    | kDefaultRoundingMode => exact absurd rfl hround
    | kRoundToNearestEven | kRoundDown =>
      exact iff_of_false (hexact (exactBelow_of hround (.inl ⟨rfl, rfl, by simp⟩))) (by simp)
    | kRoundUp | kRoundTowardZero =>
      rw [hshort_bounds _ (by simp), short_below _ hq]
      simp
  · rename_i hshort
    split
    · rename_i hunsigned
      obtain ⟨rfl, hunsigned⟩ := hunsigned
      have hzero := hzero_bounds outType hunsigned round (by cases round <;> simp_all)
      rw [hzero, and_comm]
      cases round with
      | kDefaultRoundingMode => exact absurd rfl hround
      | kRoundToNearestEven => exact and_congr_left fun hlt => (zero_below hunsigned hlt).1
      | kRoundUp => exact and_congr_left fun hlt => (zero_below hunsigned hlt).2.1
      | kRoundTowardZero => exact and_congr_left fun hlt => (zero_below hunsigned hlt).2.2.1
      | kRoundDown => exact iff_of_false (fun h => (zero_below hunsigned h.2).2.2.2 h.1) id
    · rename_i hother
      exact iff_of_false (hexact (exactBelow_of hround (.inr ⟨hshort, hother⟩))) id

theorem not_lost_default : ¬ LostAbove inType outType .kDefaultRoundingMode q ∧
    ¬ LostBelow inType outType .kDefaultRoundingMode q := by
  unfold LostAbove LostBelow
  constructor
  · split
    · simp
    · split <;> exact id
  · split
    · simp
    · split <;> exact id

end

/-! ### `clamp` -/

/-- What is known of the conversions of a half: to a `float` it is exact, and what is not too large
is rounded in the mode. -/
structure HalfFunctions (HTF : FloatValue → FloatValue) (HFF : Mode → FloatValue → FloatValue) :
    Prop where
  toFloat : ∀ q, binary16.Number q → |q| ≤ 65504 → HTF (.finite q) = .finite q
  toFloat_infinite : ∀ s, HTF (.infinite s) = .infinite s
  fromFloat : ∀ mode q, |q| ≤ 65504 → HFF mode (.finite q) = .finite (binary16.roundIn mode q)

/-- The values of a type, but NaN. -/
def IsInput (inType : FloatingType) : FloatValue → Prop
  | .finite q => q ∈ inType.format.values
  | .infinite _ => True
  | .nan => False

section

variable {lo hi : ℚ} {x : FloatValue}

theorem fclamp_spec (h : lo ≤ hi) (hx : x ≠ .nan) :
    ∃ y, fclamp (.finite lo) x (.finite hi) = .finite y ∧ lo ≤ y ∧ y ≤ hi ∧
      (∀ q, x = .finite q → (y = q ↔ lo ≤ q ∧ q ≤ hi)) ∧
      (y = lo ∨ y = hi ∨ x = .finite y) := by
  have hbound : (if (FloatValue.finite lo).lt (.finite hi) then FloatValue.finite lo else .finite hi)
      = .finite lo := by
    rcases lt_or_eq_of_le h with hlt | heq
    · rw [FloatValue.lt, decide_eq_true hlt, if_pos rfl]
    · rw [heq, ite_self]
  cases x with
  | nan => exact absurd rfl hx
  | infinite negative =>
    cases negative with
    | true =>
      refine ⟨lo, hbound, le_rfl, h, ?_, .inl rfl⟩
      intro q hq
      cases hq
    | false =>
      refine ⟨hi, rfl, h, le_rfl, ?_, .inr (.inl rfl)⟩
      intro q hq
      cases hq
  | finite q =>
    rw [fclamp]
    by_cases hlow : q < lo
    · have hlt : (FloatValue.finite q).lt (.finite lo) = true := decide_eq_true hlow
      refine ⟨lo, by rw [if_pos hlt, hbound], le_rfl, h, ?_, .inl rfl⟩
      intro r hr
      obtain rfl := FloatValue.finite.inj hr
      exact iff_of_false hlow.ne' fun h' => absurd h'.1 (not_le.mpr hlow)
    · have hlt : ¬ (FloatValue.finite q).lt (.finite lo) = true := by
        rw [FloatValue.lt, decide_eq_true_eq]
        exact hlow
      rw [if_neg hlt]
      by_cases hhigh : q < hi
      · have hlt' : (FloatValue.finite q).lt (.finite hi) = true := decide_eq_true hhigh
        refine ⟨q, by rw [if_pos hlt'], not_lt.mp hlow, hhigh.le, ?_, .inr (.inr rfl)⟩
        intro r hr
        obtain rfl := FloatValue.finite.inj hr
        exact iff_of_true rfl ⟨not_lt.mp hlow, hhigh.le⟩
      · have hlt' : ¬ (FloatValue.finite q).lt (.finite hi) = true := by
          rw [FloatValue.lt, decide_eq_true_eq]
          exact hhigh
        refine ⟨hi, by rw [if_neg hlt'], h, le_rfl, ?_, .inr (.inl rfl)⟩
        intro r hr
        obtain rfl := FloatValue.finite.inj hr
        constructor
        · intro heq
          exact ⟨not_lt.mp hlow, heq.ge⟩
        · intro h'
          exact le_antisymm (not_lt.mp hhigh) h'.2

end

section

variable {HTF : FloatValue → FloatValue} {HFF : Mode → FloatValue → FloatValue}
  {halfRoundingMode : Mode} {inType : FloatingType} {outType : CType} {round : RoundingMode}
  {x : FloatValue}

theorem half_le {q : ℚ} (hq : q ∈ binary16.values) : binary16.Number q ∧ |q| ≤ 65504 := by
  obtain ⟨hnumber, hmax⟩ := @number_of_mem .kHalf q hq
  have hgap (r : ℚ) (hr : binary16.Number r) (hlt : |r| < 2 ^ 2 ^ 4) : r ≤ 65504 := by
    have hlt' : r < ((2047 + 1 : ℤ) : ℚ) * 2 ^ (5 : ℤ) :=
      (le_abs_self r).trans_lt (hlt.trans_le (by norm_num))
    have hle := hr.le_of_lt (n := 2047) (by decide) hlt'
    norm_num at hle
    exact hle
  have hbelow := hgap (-q) hnumber.neg (by rw [abs_neg]; exact hmax)
  exact ⟨hnumber, abs_le.mpr ⟨by linarith, hgap q hnumber hmax⟩⟩

theorem HalfFunctions.clampRanges_eq (h : HalfFunctions HTF HFF) :
    HTF (clampRanges HFF .kHalf outType round).1 = .finite (bounds .kHalf outType round).1 ∧
      HTF (clampRanges HFF .kHalf outType round).2 = .finite (bounds .kHalf outType round).2 := by
  obtain ⟨hlo, hhi, hlo', hhi'⟩ := abs_halfRanges_le outType round
  obtain ⟨hnumber, hnumber'⟩ := bounds_number .kHalf outType round
  rw [clampRanges, h.fromFloat _ _ hlo, h.fromFloat _ _ hhi]
  exact ⟨h.toFloat _ hnumber hlo', h.toFloat _ hnumber' hhi'⟩

/-- **What `clamp` returns** lies between the bounds. -/
theorem clamp_spec (h : HalfFunctions HTF HFF) (hx : IsInput inType x) :
    ∃ y, clamp HTF HFF halfRoundingMode inType outType round x = .finite y ∧
      (bounds inType outType round).1 ≤ y ∧ y ≤ (bounds inType outType round).2 ∧
      ∀ q, x = .finite q →
        (y = q ↔ (bounds inType outType round).1 ≤ q ∧ q ≤ (bounds inType outType round).2) := by
  have hle := (bounds_holds inType outType round).1
  have hne : x ≠ .nan := by
    rintro rfl
    exact hx
  obtain ⟨y, hy, hlo, hhi, hiff, hcases⟩ := fclamp_spec hle hne
  refine ⟨y, ?_, hlo, hhi, hiff⟩
  cases inType with
  | kFloat => exact hy
  | kDouble => exact hy
  | kHalf =>
    obtain ⟨hfirst, hsecond⟩ := @HalfFunctions.clampRanges_eq HTF HFF outType round h
    obtain ⟨-, -, hlo', hhi'⟩ := abs_halfRanges_le outType round
    obtain ⟨hnumber, hnumber'⟩ := bounds_number .kHalf outType round
    have hinput : HTF x = x := by
      cases x with
      | nan => exact absurd rfl hne
      | infinite s => exact h.toFloat_infinite s
      | finite q => exact h.toFloat q (half_le hx).1 (half_le hx).2
    have hresult : binary16.Number y ∧ |y| ≤ 65504 := by
      rcases hcases with rfl | rfl | rfl
      · exact ⟨hnumber, hlo'⟩
      · exact ⟨hnumber', hhi'⟩
      · exact half_le hx
    rw [clamp, hfirst, hsecond, hinput, hy, h.fromFloat _ _ hresult.2, hresult.1.roundIn_eq]

/-- What is returned is rounded to an integer of the type, and in an explicit mode no input that
is rounded so is changed. -/
def ClampsExactly (HTF : FloatValue → FloatValue) (HFF : Mode → FloatValue → FloatValue)
    (halfRoundingMode : Mode) (inType : FloatingType) (outType : CType) (round : RoundingMode)
    (x : FloatValue) : Prop :=
  (∃ y, clamp HTF HFF halfRoundingMode inType outType round x = .finite y ∧
      outType.Holds (round.mode.toInt y)) ∧
    (round ≠ .kDefaultRoundingMode → ∀ q, x = .finite q → outType.Holds (round.mode.toInt q) →
      clamp HTF HFF halfRoundingMode inType outType round x = x)

/-- **The numbers that remain are rounded to integers of the type.** -/
theorem clamp_holds (h : HalfFunctions HTF HFF) (hx : IsInput inType x) :
    ∃ y, clamp HTF HFF halfRoundingMode inType outType round x = .finite y ∧
      outType.Holds (round.mode.toInt y) := by
  obtain ⟨y, hy, hlo, hhi, -⟩ := @clamp_spec HTF HFF halfRoundingMode inType outType round x h hx
  obtain ⟨-, hleast, hgreatest⟩ := bounds_holds inType outType round
  exact ⟨y, hy, hleast.1.trans (round.mode.toInt_mono hlo),
    (round.mode.toInt_mono hhi).trans hgreatest.2⟩

/-- **The bounds are exact just outside of the numbers that are lost.** -/
theorem clamp_iff (h : HalfFunctions HTF HFF) (hx : IsInput inType x) :
    ClampsExactly HTF HFF halfRoundingMode inType outType round x ↔
      ∀ q, x = .finite q →
        ¬ LostAbove inType outType round q ∧ ¬ LostBelow inType outType round q := by
  obtain ⟨y, hy, hlo, hhi, hiff⟩ := @clamp_spec HTF HFF halfRoundingMode inType outType round x h hx
  rw [ClampsExactly, and_iff_right (clamp_holds h hx)]
  by_cases hround : round = .kDefaultRoundingMode
  · subst hround
    exact iff_of_true (fun hne => absurd rfl hne) fun q _ => not_lost_default
  · constructor
    · intro hexact q hq
      subst hq
      rw [← above_iff hround hx, ← below_iff hround hx]
      have hsame (hholds : outType.Holds (round.mode.toInt q)) :=
        (hiff q rfl).mp (FloatValue.finite.inj (hy.symm.trans (hexact hround q rfl hholds)))
      constructor
      · intro habove
        exact absurd habove.1 (not_lt.mpr (hsame habove.2).2)
      · intro hbelow
        exact absurd hbelow.1 (not_lt.mpr (hsame hbelow.2).1)
    · intro hlost _ q hq hholds
      subst hq
      obtain ⟨habove, hbelow⟩ := hlost q rfl
      rw [← above_iff hround hx] at habove
      rw [← below_iff hround hx] at hbelow
      have hmem : (bounds inType outType round).1 ≤ q ∧ q ≤ (bounds inType outType round).2 :=
        ⟨not_lt.mp fun hlt => hbelow ⟨hlt, hholds⟩, not_lt.mp fun hlt => habove ⟨hlt, hholds⟩⟩
      rw [hy, (hiff q rfl).mpr hmem]

/-- A function of numbers, for values. -/
def FloatValue.map (g : ℚ → ℚ) : FloatValue → FloatValue
  | .nan => .nan
  | .infinite s => .infinite s
  | .finite q => .finite (g q)

/-- The half 0.5 is rounded up to 1, and not clamped. -/
theorem clamp_iff_half : IsInput .kHalf (.finite (1 / 2)) ∧ ClampsExactly id
    (fun mode => FloatValue.map (binary16.roundIn mode)) .toNearest .kHalf .schar .kRoundUp
    (.finite (1 / 2)) := by
  have hfinite : binary16.Finite 0x3800#16 := by decide
  have hvalue : binary16.value 0x3800#16 = 1 / 2 := by decide +kernel
  have hinput : IsInput .kHalf (.finite (1 / 2)) := ⟨0x3800#16, hfinite, hvalue⟩
  refine ⟨hinput, (clamp_iff ⟨fun _ _ _ => rfl, fun _ => rfl, fun _ _ _ => rfl⟩ hinput).mpr ?_⟩
  intro q hq
  obtain rfl := FloatValue.finite.inj hq
  have hgreatest : CType.schar.greatest = 127 := rfl
  unfold LostAbove LostBelow
  simp [CType.bits, hgreatest]
  norm_num

/-- The float 127 is the greatest `char`, and clamped to a number below it when it is rounded
down. -/
theorem clamp_loses : IsInput .kFloat (.finite 127) ∧ ¬ ClampsExactly id
    (fun mode => FloatValue.map (binary16.roundIn mode)) .toNearest .kFloat .schar .kRoundDown
    (.finite 127) := by
  have hfinite : binary32.Finite 0x42fe0000#32 := by decide
  have hvalue : binary32.value 0x42fe0000#32 = 127 := by decide +kernel
  have hlost : clamp id (fun mode => FloatValue.map (binary16.roundIn mode)) .toNearest .kFloat
      .schar .kRoundDown (.finite 127) ≠ .finite 127 := by decide +kernel
  refine ⟨⟨0x42fe0000#32, hfinite, hvalue⟩, ?_⟩
  intro hexact
  exact hlost (hexact.2 (by decide) 127 rfl (by decide +kernel))

end

end OpenCLCTS.Conversions
