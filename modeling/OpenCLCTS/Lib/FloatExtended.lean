import Mathlib.Order.WithBot
import OpenCLCTS.Lib.FloatEncode

/-!
# Numbers and infinities

The values of a format with its two infinities, in the order of what they count; `±0` is one value.

* `extended_lt_iff`, `extended_eq_iff`: they are compared by what they count.
* `Steps`: a step to the adjacent value.
* `steps_of_index`: the adjacent value counts one more or one less.
* `convert_exact`: a conversion to a larger format.
-/

namespace FloatFormat

variable (f : FloatFormat) {w : ℕ}

/-- What bits stand for that are not NaN. -/
def extended (b : BitVec w) : WithBot (WithTop ℚ) :=
  if f.floatClass b = .infinite then
    if b.getLsbD (f.mantissaBits + f.exponentBits) then ⊥ else ((⊤ : WithTop ℚ) : WithBot (WithTop ℚ))
  else ((f.value b : WithTop ℚ) : WithBot (WithTop ℚ))

/-- What is counted, from one infinity to the other. -/
def extendedAt (k : ℤ) : WithBot (WithTop ℚ) :=
  if k ≤ -f.finiteCount then ⊥
  else if f.finiteCount ≤ k then ((⊤ : WithTop ℚ) : WithBot (WithTop ℚ))
  else ((f.numberAt k : WithTop ℚ) : WithBot (WithTop ℚ))

/-- The values and infinities of a format. -/
def extendedValues : Set (WithBot (WithTop ℚ)) :=
  {v | ∃ b : BitVec (f.mantissaBits + f.exponentBits + 1),
    f.floatClass b ≠ .nan ∧ f.extended b = v}

/-- `r` is adjacent to `x` in the direction of `y`, or `y` if they are equal. -/
structure Steps (x y r : BitVec w) : Prop where
  eq : f.extended x = f.extended y → r = y
  above : f.extended x < f.extended y →
    f.floatClass r ≠ .nan ∧ IsLeast {v ∈ f.extendedValues | f.extended x < v} (f.extended r)
  below : f.extended y < f.extended x →
    f.floatClass r ≠ .nan ∧ IsGreatest {v ∈ f.extendedValues | v < f.extended x} (f.extended r)

/-- The bits of another format for the same number, or the one that it is rounded to. -/
def convert (g : FloatFormat) {v : ℕ} (mode : Mode) (b : BitVec w) : BitVec v :=
  let s := b.getLsbD (f.mantissaBits + f.exponentBits)
  match f.floatClass b with
  | .nan => g.ofMagnitude s (g.finiteCount + 1)
  | .infinite => g.ofMagnitude s g.finiteCount
  | _ => g.ofRat mode s (f.value b)

section

variable {f} {b x y r : BitVec w} {k : ℤ}

theorem magnitudeBits_le_iff : f.magnitudeBits b ≤ f.finiteCount ↔ f.floatClass b ≠ .nan := by
  rw [ne_eq, floatClass_eq_nan, not_lt]
  rfl

/-- **The infinities** are counted next to the finite numbers. -/
theorem floatClass_eq_infinite :
    f.floatClass b = .infinite ↔ f.magnitudeBits b = f.finiteCount := by
  have hnan := magnitudeBits_le_iff (f := f) (b := b)
  have hfinite := f.finite_iff b
  constructor
  · intro h
    have hle := hnan.mpr (by rw [h]; decide)
    have hge : ¬ f.magnitudeBits b < f.finiteCount := by
      rw [← hfinite]
      intro hfin
      rw [floatClass, if_neg hfin] at h
      split at h <;> try split at h
      all_goals cases h
    omega
  · intro h
    have hne : ¬ f.Finite b := by
      rw [hfinite]
      omega
    have hall := not_not.mp hne
    have hclass := hnan.mp h.le
    rw [floatClass_of_allOnes hall] at hclass ⊢
    split
    · rfl
    · rename_i hmant
      rw [if_neg hmant] at hclass
      exact absurd rfl hclass

/-- **The subnormal numbers** are counted before the first exponent. -/
theorem floatClass_eq_subnormal (hf : 0 < f.exponentBits) : f.floatClass b = .subnormal ↔
    0 < f.magnitudeBits b ∧ f.magnitudeBits b < 2 ^ f.mantissaBits := by
  have hmant := (f.mantissa b).isLt
  rw [(floatClass_iff_of_exponent hf).2, magnitudeBits_eq, ne_eq, ← BitVec.toNat_inj, ← BitVec.toNat_inj, BitVec.toNat_ofNat,
    BitVec.toNat_ofNat, Nat.zero_mod, Nat.zero_mod]
  constructor
  · intro h
    rw [h.1]
    omega
  · intro h
    have h0 : (f.exponent b).toNat = 0 := by
      by_contra hne
      have hle := Nat.le_mul_of_pos_right (2 ^ f.mantissaBits) (Nat.pos_of_ne_zero hne)
      omega
    rw [h0] at h
    exact ⟨h0, by omega⟩

theorem finite_of_class (hnan : f.floatClass b ≠ .nan) (hinf : f.floatClass b ≠ .infinite) :
    f.Finite b := by
  rw [ne_eq, floatClass_eq_infinite] at hinf
  rw [← magnitudeBits_le_iff] at hnan
  rw [finite_iff]
  omega

theorem finiteCount_pos (hf : 0 < f.exponentBits) : 0 < f.finiteCount :=
  Nat.mul_pos (Nat.sub_pos_of_lt (Nat.one_lt_two_pow hf.ne')) (Nat.two_pow_pos _)

theorem abs_index_le (h : f.floatClass b ≠ .nan) : |f.index b| ≤ f.finiteCount := by
  rw [index, abs_sign_mul, abs_of_nonneg (Int.natCast_nonneg _)]
  exact_mod_cast magnitudeBits_le_iff.mpr h

/-- **What bits stand for is what they count.** -/
theorem extended_eq_extendedAt (hf : 0 < f.exponentBits) (h : f.floatClass b ≠ .nan) :
    f.extended b = f.extendedAt (f.index b) := by
  have hpos := finiteCount_pos hf
  have hindex := f.index_eq b
  rw [extended, extendedAt]
  split
  · rename_i hinf
    rw [floatClass_eq_infinite] at hinf
    rw [hinf] at hindex
    split
    · rename_i hbit
      rw [if_pos hbit] at hindex
      rw [if_pos (by omega)]
    · rename_i hbit
      rw [if_neg hbit] at hindex
      rw [if_neg (by omega), if_pos (by omega)]
  · rename_i hinf
    have hlt := abs_lt.mp (finite_iff_abs_index.mp (finite_of_class h hinf))
    rw [if_neg (by omega), if_neg (by omega), value_eq_numberAt]

/-- **The values in the order in which they are counted.** -/
theorem extendedAt_strictMonoOn (hf : 0 < f.exponentBits) :
    StrictMonoOn f.extendedAt (Set.Icc (-f.finiteCount) f.finiteCount) := by
  intro j hj k hk hlt
  have hpos := finiteCount_pos hf
  rw [Set.mem_Icc] at hj hk
  rw [extendedAt, extendedAt, if_neg (show ¬ k ≤ -f.finiteCount by omega),
    if_neg (show ¬ (f.finiteCount : ℤ) ≤ j by omega)]
  by_cases hbot : j ≤ -f.finiteCount
  · rw [if_pos hbot]
    split <;> exact WithBot.bot_lt_coe _
  · rw [if_neg hbot]
    split
    · exact WithBot.coe_lt_coe.mpr (WithTop.coe_lt_top _)
    · exact WithBot.coe_lt_coe.mpr (WithTop.coe_lt_coe.mpr (f.numberAt_strictMono hlt))

theorem index_mem (h : f.floatClass b ≠ .nan) :
    f.index b ∈ Set.Icc (-f.finiteCount : ℤ) f.finiteCount := by
  have hle := abs_le.mp (abs_index_le h)
  exact Set.mem_Icc.mpr hle

/-- **Values are compared** by what they count. -/
theorem extended_lt_iff (hf : 0 < f.exponentBits) (hx : f.floatClass x ≠ .nan)
    (hy : f.floatClass y ≠ .nan) : f.extended x < f.extended y ↔ f.index x < f.index y := by
  rw [extended_eq_extendedAt hf hx, extended_eq_extendedAt hf hy]
  exact (extendedAt_strictMonoOn hf).lt_iff_lt (index_mem hx) (index_mem hy)

theorem extended_eq_iff (hf : 0 < f.exponentBits) (hx : f.floatClass x ≠ .nan)
    (hy : f.floatClass y ≠ .nan) : f.extended x = f.extended y ↔ f.index x = f.index y := by
  rw [extended_eq_extendedAt hf hx, extended_eq_extendedAt hf hy]
  exact (extendedAt_strictMonoOn hf).eq_iff_eq (index_mem hx) (index_mem hy)

theorem mem_extendedValues (hw : w = f.mantissaBits + f.exponentBits + 1)
    (h : f.floatClass b ≠ .nan) : f.extended b ∈ f.extendedValues := by
  subst hw
  exact ⟨b, h, rfl⟩

theorem floatClass_ne_nan_of_index (h : |f.index b| ≤ f.finiteCount) : f.floatClass b ≠ .nan := by
  rw [index, abs_sign_mul, abs_of_nonneg (Int.natCast_nonneg _)] at h
  rw [← magnitudeBits_le_iff]
  exact_mod_cast h

/-- **A step** counts one more or one less. -/
theorem steps_of_index (hf : 0 < f.exponentBits) (hw : w = f.mantissaBits + f.exponentBits + 1)
    (hx : f.floatClass x ≠ .nan) (hy : f.floatClass y ≠ .nan)
    (heq : f.index x = f.index y → r = y)
    (hup : f.index x < f.index y → f.index r = f.index x + 1)
    (hdown : f.index y < f.index x → f.index r = f.index x - 1) : f.Steps x y r := by
  have hxle := abs_le.mp (abs_index_le hx)
  have hyle := abs_le.mp (abs_index_le hy)
  constructor
  · intro h
    exact heq ((extended_eq_iff hf hx hy).mp h)
  · intro h
    have hindex := hup ((extended_lt_iff hf hx hy).mp h)
    have hlt := (extended_lt_iff hf hx hy).mp h
    have hr : f.floatClass r ≠ .nan := floatClass_ne_nan_of_index (abs_le.mpr (by omega))
    refine ⟨hr, ⟨mem_extendedValues hw hr, (extended_lt_iff hf hx hr).mpr (by omega)⟩, ?_⟩
    intro v hv
    obtain ⟨⟨c, hc, rfl⟩, hlt⟩ := hv
    subst hw
    rw [extended_lt_iff hf hx hc] at hlt
    refine not_lt.mp ?_
    intro h
    rw [extended_lt_iff hf hc hr] at h
    omega
  · intro h
    have hindex := hdown ((extended_lt_iff hf hy hx).mp h)
    have hlt := (extended_lt_iff hf hy hx).mp h
    have hr : f.floatClass r ≠ .nan := floatClass_ne_nan_of_index (abs_le.mpr (by omega))
    refine ⟨hr, ⟨mem_extendedValues hw hr, (extended_lt_iff hf hr hx).mpr (by omega)⟩, ?_⟩
    intro v hv
    obtain ⟨⟨c, hc, rfl⟩, hlt⟩ := hv
    subst hw
    rw [extended_lt_iff hf hc hx] at hlt
    refine not_lt.mp ?_
    intro h
    rw [extended_lt_iff hf hr hc] at h
    omega

/-! ### Conversions -/

/-- The numbers of a format are numbers of a larger one. -/
structure Widens (f g : FloatFormat) : Prop where
  mantissaBits : f.mantissaBits ≤ g.mantissaBits
  lastBit : g.minExp - g.mantissaBits ≤ f.minExp - f.mantissaBits
  finite : f.magnitude f.finiteCount ≤ g.magnitude g.finiteCount

variable {g : FloatFormat} {v : ℕ} {mode mode' : Mode}

theorem abs_value_lt_of_finite (h : f.Finite b) : |f.value b| < f.magnitude f.finiteCount := by
  rw [abs_value_eq, f.magnitude_strictMono.lt_iff_lt]
  exact (f.finite_iff b).mp h

theorem convert_of_finite (h : f.Finite b) : (f.convert g mode b : BitVec v)
    = g.ofRat mode (b.getLsbD (f.mantissaBits + f.exponentBits)) (f.value b) := by
  have hclass : f.floatClass b ≠ .nan ∧ f.floatClass b ≠ .infinite := by
    rw [floatClass, if_neg h]
    split <;> try split
    all_goals exact ⟨by decide, by decide⟩
  rw [convert]
  split
  · rename_i hnan
    exact absurd hnan hclass.1
  · rename_i hinf
    exact absurd hinf hclass.2
  · rfl

theorem convert_of_infinite (h : f.floatClass b = .infinite) : (f.convert g mode b : BitVec v)
    = g.ofMagnitude (b.getLsbD (f.mantissaBits + f.exponentBits)) g.finiteCount := by
  rw [convert, h]

theorem floatClass_ofMagnitude_finiteCount {s : Bool} (hw : w = f.mantissaBits + f.exponentBits + 1) :
    f.floatClass (f.ofMagnitude s f.finiteCount : BitVec w) = .infinite := by
  rw [floatClass_eq_infinite, (index_ofMagnitude hw finiteCount_lt).1]

/-- **A conversion to a larger format** does not change what the bits stand for. -/
theorem convert_exact (h : f.Widens g) (hv : v = g.mantissaBits + g.exponentBits + 1)
    (hb : f.floatClass b ≠ .nan) : g.floatClass (f.convert g mode b : BitVec v) ≠ .nan ∧
      g.extended (f.convert g mode b : BitVec v) = f.extended b := by
  by_cases hinf : f.floatClass b = .infinite
  · have hclass := floatClass_ofMagnitude_finiteCount
      (s := b.getLsbD (f.mantissaBits + f.exponentBits)) hv
    rw [convert_of_infinite hinf, extended, extended, hclass, hinf, if_pos rfl, if_pos rfl,
      getLsbD_ofMagnitude hv finiteCount_lt]
    exact ⟨by decide, rfl⟩
  · have hfinite := finite_of_class hb hinf
    have hvalue := value_ofRat (w := v) (s := b.getLsbD (f.mantissaBits + f.exponentBits)) mode hv
      ((number_value b f).widen h.mantissaBits h.lastBit)
      (lt_of_lt_of_le (abs_value_lt_of_finite hfinite) h.finite)
    rw [convert_of_finite hfinite]
    refine ⟨hvalue.2.ne_nan, ?_⟩
    rw [extended, extended, if_neg hinf, if_neg, hvalue.1]
    intro hclass
    rw [floatClass_eq_infinite] at hclass
    have hlt := (g.finite_iff _).mp hvalue.2
    omega

/-- **A conversion to a larger format and back** gives the same bits. -/
theorem convert_convert (h : f.Widens g) (hw : w = f.mantissaBits + f.exponentBits + 1)
    (hv : v = g.mantissaBits + g.exponentBits + 1) (hb : f.floatClass b ≠ .nan) :
    g.convert f mode (f.convert g mode' b : BitVec v) = b := by
  by_cases hinf : f.floatClass b = .infinite
  · have hclass := floatClass_ofMagnitude_finiteCount
      (s := b.getLsbD (f.mantissaBits + f.exponentBits)) hv
    rw [convert_of_infinite hinf, convert_of_infinite hclass,
      getLsbD_ofMagnitude hv finiteCount_lt, ← floatClass_eq_infinite.mp hinf,
      ofMagnitude_magnitudeBits hw]
  · have hfinite := finite_of_class hb hinf
    have hvalue := value_ofRat (w := v) (s := b.getLsbD (f.mantissaBits + f.exponentBits)) mode' hv
      ((number_value b f).widen h.mantissaBits h.lastBit)
      (lt_of_lt_of_le (abs_value_lt_of_finite hfinite) h.finite)
    rw [convert_of_finite hfinite, convert_of_finite hvalue.2, hvalue.1, getLsbD_ofRat mode' hv,
      sign_value, ofRat_value mode hw hfinite]

end

end FloatFormat
