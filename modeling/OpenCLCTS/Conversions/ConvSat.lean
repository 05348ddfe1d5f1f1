import OpenCLCTS.Harness.FloatConversion
import OpenCLCTS.IntegerOps.Arithmetic
import OpenCLCTS.Lib.FloatOrder

/-!
# The reference of saturated conversions

`DataInfoSpec::conv_sat`, for integers to integers and for floating types to integers.  One template
serves all types, so that the operands of the macro `CLAMP` have the types that C converts them to.

* `value_clampMacro`: when the conversions of the operands do no harm.
* `convSatInteger_eq`, `convSatFloating_eq`: what is stored.
* `convSat_exact`: **the reference is the nearest value of the type**, in every rounding mode.
-/

namespace OpenCLCTS.Conversions

open FloatFormat

namespace CType

/-! ### Operands of two types -/

/-- The type in which an operator with operands of two types computes. -/
def common (s t : CType) : CType :=
  match s.promoted, t.promoted with
  | .ulong, _ | _, .ulong => .ulong
  | .long, _ | _, .long => .long
  | .uint, _ | _, .uint => .uint
  | _, _ => .int

/-- `x < y`. -/
def ltCommon (s t : CType) (x : BitVec s.bits) (y : BitVec t.bits) : Bool :=
  (common s t).lt (convert s _ x) (convert t _ y)

/-- The numbers of a type. -/
def Holds (t : CType) (z : ℤ) : Prop := t.least ≤ z ∧ z ≤ t.greatest

instance (t : CType) (z : ℤ) : Decidable (t.Holds z) := inferInstanceAs (Decidable (_ ∧ _))

variable {s t : CType} {z : ℤ}

theorem holds_value (x : BitVec t.bits) : t.Holds (t.value x) := value_mem x

theorem common_comm (s t : CType) : common s t = common t s := by
  cases s <;> cases t <;> rfl

theorem common_limits (s t : CType) : s.greatest ≤ (common s t).greatest ∧
    ((common s t).signed = true → (common s t).least ≤ s.least) := by
  cases s <;> cases t <;> decide

/-- **The common type has the number**, if it is not negative or the type has a sign. -/
theorem Holds.common_left (h : s.Holds z) (t : CType) (hz : 0 ≤ z ∨ (common s t).signed = true) :
    (common s t).Holds z := by
  obtain ⟨hgreatest, hleast⟩ := common_limits s t
  have hzero := (common s t).least_le_zero
  refine ⟨?_, h.2.trans hgreatest⟩
  rcases hz with hz | hz
  · exact hzero.trans hz
  · exact (hleast hz).trans h.1

theorem Holds.common_right (h : t.Holds z) (s : CType) (hz : 0 ≤ z ∨ (common s t).signed = true) :
    (common s t).Holds z := by
  rw [common_comm] at hz ⊢
  exact h.common_left s hz

theorem value_convert_of_holds {x : BitVec s.bits} (h : t.Holds (s.value x)) :
    t.value (convert s t x) = s.value x := value_convert h.1 h.2

theorem ltCommon_iff {x : BitVec s.bits} {y : BitVec t.bits}
    (h : 0 ≤ s.value x ∧ 0 ≤ t.value y ∨ (common s t).signed = true) :
    ltCommon s t x y = true ↔ s.value x < t.value y := by
  have hx := (holds_value x).common_left t (h.imp_left And.left)
  have hy := (holds_value y).common_right s (h.imp_left And.right)
  rw [ltCommon, lt_iff, value_convert_of_holds hx, value_convert_of_holds hy]

/-! ### `CLAMP` -/

section

variable (l s h : CType) (lo : BitVec l.bits) (x : BitVec s.bits) (hi : BitVec h.bits)

/-- `CLAMP`, with the type of the expression. -/
def clampMacro : BitVec (common l (common h s)).bits :=
  if ltCommon s l x lo then convert l _ lo
  else convert (common h s) _ (if ltCommon h s hi x then convert h _ hi else convert s _ x)

end

section

variable {l s h : CType} {lo : BitVec l.bits} {x : BitVec s.bits} {hi : BitVec h.bits}

/-- **The conversions of the operands do no harm** where they are not negative or have a sign. -/
theorem value_clampMacro (hpos : 0 ≤ h.value hi)
    (hlow : 0 ≤ s.value x ∧ 0 ≤ l.value lo ∨ (common s l).signed = true)
    (hhigh : l.value lo ≤ s.value x → 0 ≤ s.value x ∨ (common h s).signed = true)
    (hall : 0 ≤ l.value lo ∨ (common l (common h s)).signed = true) :
    (common l (common h s)).value (clampMacro l s h lo x hi) =
      if s.value x < l.value lo then l.value lo
      else if h.value hi < s.value x then h.value hi else s.value x := by
  rw [clampMacro]
  by_cases hlt : s.value x < l.value lo
  · rw [if_pos ((ltCommon_iff hlow).mpr hlt), if_pos hlt]
    exact value_convert_of_holds ((holds_value lo).common_left _ hall)
  · have hle := not_lt.mp hlt
    have hx := hhigh hle
    have hcompare : ltCommon h s hi x = true ↔ h.value hi < s.value x :=
      ltCommon_iff (hx.imp_left fun h0 => ⟨hpos, h0⟩)
    have hresult : ∀ z, (common h s).Holds z → l.value lo ≤ z ∨ 0 ≤ z →
        (common l (common h s)).Holds z := by
      intro z hz hlo
      refine hz.common_right l ?_
      rcases hall with hall | hall
      · exact .inl (hlo.elim (fun h => hall.trans h) id)
      · exact .inr hall
    rw [if_neg fun h' => hlt ((ltCommon_iff hlow).mp h'), if_neg hlt]
    by_cases hgt : h.value hi < s.value x
    · have hvalue : (common h s).value (convert h (common h s) hi) = h.value hi :=
        value_convert_of_holds ((holds_value hi).common_left s (.inl hpos))
      rw [if_pos (hcompare.mpr hgt), if_pos hgt, value_convert_of_holds, hvalue]
      exact hresult _ (holds_value _) (.inr (by rw [hvalue]; exact hpos))
    · have hvalue : (common h s).value (convert s (common h s) x) = s.value x :=
        value_convert_of_holds ((holds_value x).common_right h hx)
      rw [if_neg fun h' => hgt (hcompare.mp h'), if_neg hgt, value_convert_of_holds, hvalue]
      exact hresult _ (holds_value _) (.inl (by rw [hvalue]; exact hle))

end

/-- A cast of a number of a floating type; out of the range of the type it is not defined. -/
def castTo (t : CType) (f : ℚ) : Option (BitVec t.bits) :=
  if t.Holds (truncate f) then some (BitVec.ofInt t.bits (truncate f)) else none

theorem castTo_intCast {t : CType} {n : ℤ} (h : t.Holds n) :
    ∃ r, t.castTo n = some r ∧ t.value r = n := by
  refine ⟨BitVec.ofInt t.bits n, ?_, by rw [value_ofInt, wrap_eq_self h.1 h.2]⟩
  rw [castTo, truncate_intCast, if_pos h]

/-- `ranges`. -/
def ranges : (t : CType) → BitVec t.bits × BitVec t.bits
  | .uchar => (0#8, 255#8)
  | .schar => (-128#8, 127#8)
  | .ushort => (0#16, 65535#16)
  | .short => (-32768#16, 32767#16)
  | .uint => (0#32, 0xffffffff#32)
  | .int => (0x80000000#32, 0x7fffffff#32)
  | .ulong => (0#64, 0xffffffffffffffff#64)
  | .long => (0x8000000000000000#64, 0x7fffffffffffffff#64)

theorem value_ranges (t : CType) :
    t.value t.ranges.1 = t.least ∧ t.value t.ranges.2 = t.greatest := by
  cases t <;> decide

theorem clamp_eq_ite (t : CType) (z : ℤ) :
    t.clamp z = if z < t.least then t.least else if t.greatest < z then t.greatest else z := by
  have := t.least_le_zero
  have := t.greatest_pos
  rw [clamp]
  split <;> try split
  all_goals omega

theorem holds_clamp (t : CType) (z : ℤ) : t.Holds (t.clamp z) := by
  have := t.least_le_zero
  have := t.greatest_pos
  rw [Holds, clamp]
  omega

end CType

/-! ### `round_to_int` and `round_to_int_and_clamp` -/

section

variable (mode : Mode)

/-- `round_to_int`. -/
def roundToInt (f : ℚ) : ℚ :=
  if |f| < 2 ^ 23 then
    binary32.roundIn mode (binary32.roundIn mode
      (f + (if f < 0 then -2 ^ 23 else 2 ^ 23 : ℤ)) - (if f < 0 then -2 ^ 23 else 2 ^ 23 : ℤ))
  else f

/-- `round_to_int_and_clamp`. -/
def roundToIntAndClamp (f : ℚ) : Option (BitVec CType.long.bits) :=
  if 2 ^ 63 ≤ f then some 0x7fffffffffffffff#64
  else if f ≤ -2 ^ 63 then some 0x8000000000000000#64
  else CType.long.castTo (if |f| < 2 ^ 52 then
      binary64.roundIn mode (binary64.roundIn mode
        (f + (if f < 0 then -2 ^ 52 else 2 ^ 52 : ℤ)) - (if f < 0 then -2 ^ 52 else 2 ^ 52 : ℤ))
    else f)

/-- The library function. -/
def rint (f : ℚ) : ℚ := mode.toInt f

end

/-! ### `conv_sat` -/

/-- `conv_sat` for integers. -/
def convSatInteger (s t : CType) (x : BitVec s.bits) : BitVec t.bits :=
  if (s.signed && t.signed) || (!s.signed && !t.signed) then
    if s.bits ≤ t.bits then CType.convert s t x
    else CType.convert _ t (CType.clampMacro t s t t.ranges.1 x t.ranges.2)
  else if s.bits < t.bits then
    -- the type of the conditional expression
    CType.convert (CType.common t (CType.common .int (CType.common t s))) t
      (if !s.signed then CType.convert t _ (CType.convert s t x)
        else CType.convert _ _ (CType.clampMacro .int s t 0#32 x t.ranges.2))
  else CType.convert _ t (CType.clampMacro .int s t 0#32 x t.ranges.2)

/-- What is stored in a type of 64 bits: the limits, outside of `low` and `high`. -/
def storeWide (t : CType) (high low : ℚ) (greatest least : BitVec t.bits) (f : ℚ) :
    Option (BitVec t.bits) :=
  if high ≤ f then some greatest
  else if f < low then some least
  else t.castTo f

/-- What is stored in a `cl_ulong`. -/
def storeUlong := storeWide .ulong (2 ^ 64) 0 0xffffffffffffffff#64 0#64

/-- What is stored in a `cl_long`. -/
def storeLong := storeWide .long (2 ^ 63) (-2 ^ 63) 0x7fffffffffffffff#64 0x8000000000000000#64

/-- What is stored in the smaller types. -/
def storeClamped (mode : Mode) (t : CType) (f : ℚ) : Option (BitVec t.bits) :=
  (roundToIntAndClamp mode f).map fun r =>
    CType.convert _ t (CType.clampMacro t .long t t.ranges.1 r t.ranges.2)

section

variable (mode : Mode) (HTF : BitVec 16 → ℚ)

/-- `inVal`, or `*in`. -/
def inValue : (inType : FloatingType) → BitVec inType.bits → ℚ
  | .kHalf, x => HTF x
  | .kFloat, x => FloatingType.kFloat.value x
  | .kDouble, x => FloatingType.kDouble.value x

/-- The function that rounds to an integer of 64 bits. -/
def roundWide : FloatingType → ℚ → ℚ
  | .kHalf | .kFloat => roundToInt mode
  | .kDouble => rint mode

/-- `conv_sat` for floating types, to integers.  The arithmetic is in the mode `mode`, and `HTF` is
the number that a half becomes as a `float`. -/
def convSatFloating (inType : FloatingType) (t : CType) (x : BitVec inType.bits) :
    Option (BitVec t.bits) :=
  match t with
  | .ulong => storeUlong (roundWide mode inType (inValue HTF inType x))
  | .long => storeLong (roundWide mode inType (inValue HTF inType x))
  | .schar | .uchar | .short | .ushort | .int | .uint =>
    storeClamped mode _ (inValue HTF inType x)

end

/-! ### Integers -/

namespace CType

section

variable {l s t : CType} {lo : BitVec l.bits} {x : BitVec s.bits}

theorem value_clampMacro_ranges (hlo : l.value lo = t.least ∨ l.value lo = 0 ∧ 0 ≤ s.value x)
    (hlow : 0 ≤ s.value x ∧ 0 ≤ l.value lo ∨ (common s l).signed = true)
    (hhigh : l.value lo ≤ s.value x → 0 ≤ s.value x ∨ (common t s).signed = true)
    (hall : 0 ≤ l.value lo ∨ (common l (common t s)).signed = true) :
    (common l (common t s)).value (clampMacro l s t lo x t.ranges.2) = t.clamp (s.value x) := by
  have hzero := t.least_le_zero
  have hpos := t.greatest_pos
  have hgreatest := t.value_ranges.2
  rw [value_clampMacro (by omega) hlow hhigh hall, hgreatest, clamp_eq_ite]
  rcases hlo with hlo | ⟨hlo, hx⟩
  · rw [hlo]
  · have hleast : ¬ s.value x < t.least := not_lt.mpr (hzero.trans hx)
    rw [hlo, if_neg (not_lt.mpr hx), if_neg hleast]

theorem value_convert_clampMacro (hlo : l.value lo = t.least ∨ l.value lo = 0 ∧ 0 ≤ s.value x)
    (hlow : 0 ≤ s.value x ∧ 0 ≤ l.value lo ∨ (common s l).signed = true)
    (hhigh : l.value lo ≤ s.value x → 0 ≤ s.value x ∨ (common t s).signed = true)
    (hall : 0 ≤ l.value lo ∨ (common l (common t s)).signed = true) :
    t.value (convert _ t (clampMacro l s t lo x t.ranges.2)) = t.clamp (s.value x) := by
  have hvalue := value_clampMacro_ranges hlo hlow hhigh hall
  rw [value_convert_of_holds, hvalue]
  rw [hvalue]
  exact holds_clamp t _

theorem common_signed (hs : s.signed = true) (ht : t.signed = true) :
    (common s t).signed = true := by
  revert hs ht
  cases s <;> cases t <;> decide

theorem value_nonneg (hs : s.signed = false) (x : BitVec s.bits) : 0 ≤ s.value x := by
  rw [value, hs, if_neg Bool.false_ne_true]
  exact Int.natCast_nonneg _

theorem clamp_of_holds {z : ℤ} (h : t.Holds z) : t.clamp z = z := clamp_eq_self h.1 h.2

theorem Holds.of_bits_le {z : ℤ} (h : s.Holds z) (hsigned : s.signed = t.signed)
    (hbits : s.bits ≤ t.bits) : t.Holds z := by
  have hlimits : t.least ≤ s.least ∧ s.greatest ≤ t.greatest := by
    revert hsigned hbits
    cases s <;> cases t <;> decide
  exact ⟨hlimits.1.trans h.1, h.2.trans hlimits.2⟩

theorem Holds.of_bits_lt {z : ℤ} (h : s.Holds z) (hsigned : s.signed = false)
    (hbits : s.bits < t.bits) : t.Holds z := by
  have hlimits : t.least ≤ s.least ∧ s.greatest ≤ t.greatest := by
    revert hsigned hbits
    cases s <;> cases t <;> decide
  exact ⟨hlimits.1.trans h.1, h.2.trans hlimits.2⟩

/-- **Types of the same sign.** -/
theorem value_clampMacro_same (hsigned : s.signed = t.signed) :
    t.value (convert _ t (clampMacro t s t t.ranges.1 x t.ranges.2)) = t.clamp (s.value x) := by
  have hleast := t.value_ranges.1
  cases hs : s.signed with
  | true =>
    have ht : t.signed = true := hsigned.symm.trans hs
    exact value_convert_clampMacro (.inl hleast) (.inr (common_signed hs ht))
      (fun _ => .inr (common_signed ht hs)) (.inr (common_signed ht (common_signed ht hs)))
  | false =>
    have ht : t.signed = false := hsigned.symm.trans hs
    have hx := value_nonneg hs x
    have hlo := value_nonneg ht t.ranges.1
    exact value_convert_clampMacro (.inl hleast) (.inl ⟨hx, hlo⟩) (fun _ => .inl hx) (.inl hlo)

theorem least_of_mixed (hsigned : s.signed ≠ t.signed) (hs : s.signed = true) : t.least = 0 := by
  have ht : t.signed = false := Bool.eq_false_of_not_eq_true fun h => hsigned (hs.trans h.symm)
  rw [least, ht, if_neg Bool.false_ne_true]

/-- **Types of which one has a sign.** -/
theorem value_clampMacro_mixed (hsigned : s.signed ≠ t.signed) :
    (common .int (common t s)).value (clampMacro .int s t 0#32 x t.ranges.2)
      = t.clamp (s.value x) := by
  have hzero : CType.int.value 0#32 = 0 := rfl
  cases hs : s.signed with
  | true =>
    have hlo := least_of_mixed hsigned hs
    exact value_clampMacro_ranges (.inl (hzero.trans hlo.symm)) (.inr (common_signed hs rfl))
      (fun hle => .inl (hzero.symm.le.trans hle)) (.inl hzero.ge)
  | false =>
    have hx := value_nonneg hs x
    exact value_clampMacro_ranges (.inr ⟨hzero, hx⟩) (.inl ⟨hx, hzero.ge⟩) (fun _ => .inl hx)
      (.inl hzero.ge)

end

end CType

open CType in
/-- **Integers are clamped.** -/
theorem convSatInteger_eq (s t : CType) (x : BitVec s.bits) :
    t.value (convSatInteger s t x) = t.clamp (s.value x) := by
  have hholds := holds_value x
  rw [convSatInteger]
  by_cases hsigned : s.signed = t.signed
  · have hsame : ((s.signed && t.signed) || (!s.signed && !t.signed)) = true := by
      rw [hsigned]
      cases t.signed <;> rfl
    rw [if_pos hsame]
    split
    · rename_i hbits
      have ht := hholds.of_bits_le hsigned hbits
      rw [value_convert_of_holds ht, clamp_of_holds ht]
    · exact value_clampMacro_same hsigned
  · have hmixed : ¬ ((s.signed && t.signed) || (!s.signed && !t.signed)) = true := by
      revert hsigned
      cases s.signed <;> cases t.signed <;> decide
    have hclamp_value := value_clampMacro_mixed (x := x) hsigned
    have hstore : t.value (convert _ t (clampMacro .int s t 0#32 x t.ranges.2))
        = t.clamp (s.value x) := by
      rw [value_convert_of_holds, hclamp_value]
      rw [hclamp_value]
      exact holds_clamp t _
    rw [if_neg hmixed]
    split
    · rename_i hbits
      cases hs : s.signed with
      | true =>
        have hnonneg : 0 ≤ t.clamp (s.value x) := by
          have hclamp := (holds_clamp t (s.value x)).1
          rwa [least_of_mixed hsigned hs] at hclamp
        have hcommon : (common t (common .int (common t s))).value (convert _ _
            (clampMacro .int s t 0#32 x t.ranges.2)) = t.clamp (s.value x) := by
          rw [value_convert_of_holds, hclamp_value]
          exact (holds_value _).common_right t (.inl (by rw [hclamp_value]; exact hnonneg))
        rw [Bool.not_true, if_neg Bool.false_ne_true, value_convert_of_holds, hcommon]
        rw [hcommon]
        exact holds_clamp t _
      | false =>
        have ht := hholds.of_bits_lt hs hbits
        have hvalue := value_convert_of_holds ht
        have hcommon : (common t (common .int (common t s))).value
            (convert t _ (convert s t x)) = s.value x := by
          rw [value_convert_of_holds, hvalue]
          exact (holds_value _).common_left _ (.inl (by rw [hvalue]; exact value_nonneg hs x))
        rw [Bool.not_false, if_pos rfl, value_convert_of_holds, hcommon, clamp_of_holds ht]
        rw [hcommon]
        exact ht
    · exact hstore

/-! ### Floating types -/

section

variable {mode : Mode} {f : ℚ} {n : ℤ}

/-- **`round_to_int` is exact.** -/
theorem roundToInt_eq (hf : binary32.Number f) : roundToInt mode f = mode.toInt f :=
  hf.magic_eq mode (by decide) (by decide) rfl

/-- **`round_to_int_and_clamp` is exact.** -/
theorem roundToIntAndClamp_eq (hf : binary64.Number f) :
    ∃ r, roundToIntAndClamp mode f = some r ∧
      CType.long.value r = CType.long.clamp (mode.toInt f) := by
  rw [roundToIntAndClamp]
  by_cases hhigh : 2 ^ 63 ≤ f
  · have hint : 2 ^ 63 ≤ mode.toInt f := mode.le_toInt (by exact_mod_cast hhigh)
    refine ⟨_, if_pos hhigh, ?_⟩
    rw [CType.clamp_of_ge (show CType.long.greatest ≤ mode.toInt f from le_trans (by decide) hint)]
    rfl
  · rw [if_neg hhigh]
    by_cases hlow : f ≤ -2 ^ 63
    · have hint : mode.toInt f ≤ -2 ^ 63 := mode.toInt_le (by exact_mod_cast hlow)
      refine ⟨_, if_pos hlow, ?_⟩
      rw [CType.clamp_of_le (show mode.toInt f ≤ CType.long.least from hint)]
      rfl
    · rw [if_neg hlow]
      have hinteger : (if |f| < 2 ^ 52 then
          binary64.roundIn mode (binary64.roundIn mode
            (f + (if f < 0 then -2 ^ 52 else 2 ^ 52 : ℤ)) - (if f < 0 then -2 ^ 52 else 2 ^ 52 : ℤ))
          else f) = mode.toInt f := hf.magic_eq mode (by decide) (by decide) rfl
      have hholds : CType.long.Holds (mode.toInt f) := by
        rcases lt_or_ge |f| (2 ^ 52) with h | h
        · have habs := abs_le.mp (mode.abs_toInt_le (n := 2 ^ 52) (by exact_mod_cast h.le))
          exact ⟨le_trans (by decide) habs.1, habs.2.trans (by decide)⟩
        · obtain ⟨n, rfl⟩ := hf.isInt h
          have hn : n < 2 ^ 63 := by exact_mod_cast not_le.mp hhigh
          have hn' : -2 ^ 63 < n := by exact_mod_cast not_le.mp hlow
          rw [Mode.toInt_intCast]
          exact ⟨hn'.le, Int.le_sub_one_of_lt hn⟩
      rw [hinteger, CType.clamp_of_holds hholds]
      exact CType.castTo_intCast hholds

/-- **Integers are clamped**, if `low` and `high` are the limits of the type. -/
theorem storeWide_intCast {t : CType} {high low : ℤ} {greatest least : BitVec t.bits}
    (hhigh : high = t.greatest + 1) (hlow : low = t.least) (hgreatest : t.value greatest = t.greatest)
    (hleast : t.value least = t.least) (n : ℤ) :
    ∃ r, storeWide t high low greatest least n = some r ∧ t.value r = t.clamp n := by
  rw [storeWide]
  by_cases habove : (high : ℚ) ≤ n
  · have hn : high ≤ n := by exact_mod_cast habove
    refine ⟨greatest, if_pos habove, ?_⟩
    rw [hgreatest, CType.clamp_of_ge (by omega)]
  · rw [if_neg habove]
    by_cases hbelow : (n : ℚ) < low
    · have hn : n < low := by exact_mod_cast hbelow
      refine ⟨least, if_pos hbelow, ?_⟩
      rw [hleast, CType.clamp_of_le (by omega)]
    · have hn : n < high := by exact_mod_cast not_le.mp habove
      have hn' : low ≤ n := by exact_mod_cast not_lt.mp hbelow
      have hholds : t.Holds n := ⟨by omega, by omega⟩
      rw [if_neg hbelow, CType.clamp_of_holds hholds]
      exact CType.castTo_intCast hholds

theorem storeUlong_intCast (n : ℤ) :
    ∃ r, storeUlong n = some r ∧ CType.ulong.value r = CType.ulong.clamp n := by
  have h := @storeWide_intCast .ulong (2 ^ 64) 0 0xffffffffffffffff#64 0#64 rfl rfl rfl rfl n
  push_cast at h
  exact h

theorem storeLong_intCast (n : ℤ) :
    ∃ r, storeLong n = some r ∧ CType.long.value r = CType.long.clamp n := by
  have h := @storeWide_intCast .long (2 ^ 63) (-2 ^ 63) 0x7fffffffffffffff#64 0x8000000000000000#64
    rfl rfl rfl rfl n
  push_cast at h
  exact h

theorem common_long_signed {t : CType} (ht : t.bits < 64) :
    (CType.common .long t).signed = true ∧ (CType.common t .long).signed = true ∧
      (CType.common t (CType.common t .long)).signed = true := by
  revert ht
  cases t <;> decide

theorem clamp_clamp_long {t : CType} (ht : t.bits < 64) (n : ℤ) :
    t.clamp (CType.long.clamp n) = t.clamp n := by
  have hlimits : CType.long.least ≤ t.least ∧ t.greatest ≤ CType.long.greatest := by
    revert ht
    cases t <;> decide
  have := t.least_le_zero
  have := t.greatest_pos
  rw [CType.clamp, CType.clamp, CType.clamp]
  omega

theorem storeClamped_eq {t : CType} (ht : t.bits < 64) (hf : binary64.Number f) :
    ∃ r, storeClamped mode t f = some r ∧ t.value r = t.clamp (mode.toInt f) := by
  obtain ⟨r, hr, hvalue⟩ := @roundToIntAndClamp_eq mode f hf
  obtain ⟨hlow, hhigh, hall⟩ := common_long_signed ht
  refine ⟨_, by rw [storeClamped, hr, Option.map_some], ?_⟩
  rw [CType.value_convert_clampMacro (.inl t.value_ranges.1) (.inr hlow) (fun _ => .inr hhigh)
    (.inr hall), hvalue, clamp_clamp_long ht]

end

section

variable {HTF : BitVec 16 → ℚ}

theorem number_inValue (hHTF : ∀ h, binary16.Finite h → HTF h = binary16.value h)
    {inType : FloatingType} {x : BitVec inType.bits} (hx : inType.Finite x) :
    inValue HTF inType x = inType.value x ∧ binary64.Number (inType.value x) ∧
      (inType ≠ .kDouble → binary32.Number (inType.value x)) := by
  have hnumber := inType.format.number_value x
  cases inType with
  | kHalf =>
    exact ⟨hHTF x hx, hnumber.widen (by decide) (by decide),
      fun _ => hnumber.widen (by decide) (by decide)⟩
  | kFloat => exact ⟨rfl, hnumber.widen (by decide) (by decide), fun _ => hnumber⟩
  | kDouble => exact ⟨rfl, hnumber, fun h => absurd rfl h⟩

theorem roundWide_eq (mode : Mode) {inType : FloatingType} {f : ℚ}
    (hf : inType ≠ .kDouble → binary32.Number f) : roundWide mode inType f = mode.toInt f := by
  cases inType with
  | kHalf => exact roundToInt_eq (hf (by decide))
  | kFloat => exact roundToInt_eq (hf (by decide))
  | kDouble => rfl

/-- **Finite numbers are rounded and clamped.** -/
theorem convSatFloating_eq (mode : Mode) (hHTF : ∀ h, binary16.Finite h → HTF h = binary16.value h)
    (inType : FloatingType) (t : CType) (x : BitVec inType.bits) (hx : inType.Finite x) :
    ∃ r, convSatFloating mode HTF inType t x = some r ∧
      t.value r = t.clamp (mode.toInt (inType.value x)) := by
  obtain ⟨hvalue, hdouble, hfloat⟩ := number_inValue hHTF hx
  cases t with
  | ulong =>
    rw [convSatFloating, hvalue, roundWide_eq mode hfloat]
    exact storeUlong_intCast _
  | long =>
    rw [convSatFloating, hvalue, roundWide_eq mode hfloat]
    exact storeLong_intCast _
  | schar | uchar | short | ushort | int | uint =>
    rw [convSatFloating, hvalue]
    exact storeClamped_eq (by decide) hdouble

/-- **The three functions that round agree** on the numbers that all types have. -/
theorem round_agree (mode : Mode) {v : ℚ} (hv : v ∈ binary16.values) :
    roundToInt mode v = mode.toInt v ∧ rint mode v = mode.toInt v ∧
      ∃ r, roundToIntAndClamp mode v = some r ∧ CType.long.value r = mode.toInt v := by
  obtain ⟨h, hfinite, rfl⟩ := hv
  have hnumber := binary16.number_value h
  have hlt : |binary16.value h| < 2 ^ 16 := hfinite.abs_value_lt (by decide)
  have habs := abs_le.mp (mode.abs_toInt_le (n := 2 ^ 16) (by exact_mod_cast hlt.le))
  have hholds : CType.long.Holds (mode.toInt (binary16.value h)) :=
    ⟨le_trans (by decide) habs.1, habs.2.trans (by decide)⟩
  have hdouble : binary64.Number (binary16.value h) := hnumber.widen (by decide) (by decide)
  obtain ⟨r, hr, hvalue⟩ := @roundToIntAndClamp_eq mode _ hdouble
  refine ⟨roundToInt_eq (hnumber.widen (by decide) (by decide)), rfl, r, hr, ?_⟩
  rw [hvalue, CType.clamp_of_holds hholds]

/-- **The reference of saturated conversions is exact**: what is stored is the nearest value of the
type, for integers and for numbers that are rounded in any mode. -/
theorem convSat_exact (mode : Mode) (HTF : BitVec 16 → ℚ)
    (hHTF : ∀ h, binary16.Finite h → HTF h = binary16.value h) :
    (∀ (s t : CType) (x : BitVec s.bits),
      t.value (convSatInteger s t x) = t.clamp (s.value x)) ∧
    (∀ (inType : FloatingType) (t : CType) (x : BitVec inType.bits), inType.Finite x →
      ∃ r, convSatFloating mode HTF inType t x = some r ∧
        t.value r = t.clamp (mode.toInt (inType.value x))) ∧
    (∀ v ∈ binary32.values, roundToInt mode v = rint mode v) ∧
    (∀ v ∈ binary64.values, ∃ r, roundToIntAndClamp mode v = some r ∧
      CType.long.value r = CType.long.clamp (mode.toInt v)) ∧
    ∀ v ∈ binary16.values, roundToInt mode v = mode.toInt v ∧ rint mode v = mode.toInt v ∧
      ∃ r, roundToIntAndClamp mode v = some r ∧ CType.long.value r = mode.toInt v :=
  ⟨convSatInteger_eq, convSatFloating_eq mode hHTF,
    fun _ ⟨b, _, hb⟩ => roundToInt_eq (hb ▸ binary32.number_value b),
    fun _ ⟨b, _, hb⟩ => roundToIntAndClamp_eq (hb ▸ binary64.number_value b),
    fun _ hv => round_agree mode hv⟩

/-- The half 0.5 is rounded up to 1. -/
theorem convSat_exact_half : ∃ r, convSatFloating .upward binary16.value .kHalf .schar 0x3800#16
    = some r ∧ CType.schar.value r = 1 := by
  obtain ⟨-, hfloating, -⟩ := convSat_exact .upward binary16.value fun _ _ => rfl
  obtain ⟨r, hr, hvalue⟩ := hfloating .kHalf .schar 0x3800#16
    (show binary16.Finite 0x3800#16 by decide)
  refine ⟨r, hr, ?_⟩
  have hhalf : FloatingType.kHalf.value 0x3800#16 = 1 / 2 := by decide +kernel
  rw [hvalue, hhalf]
  decide +kernel

end

end OpenCLCTS.Conversions
