import OpenCLCTS.Lib.FloatFlags
import OpenCLCTS.Lib.Significand

/-!
# Scaling by powers of two

`reference_scalbn` changes the exponent of a number in its bits and leaves only the last step, to a
subnormal result, to a multiplication; `reference_ilogb` reads the exponent from the bits.

* `exact_scalbn`: the result is exact, but for subnormal numbers that are negative.
* `exact_ilogbBits_abs`: the exponent is the logarithm.
-/

namespace OpenCLCTS.MathBruteForce

open FloatFormat

/-! ### `reference_scalbn` and `reference_ilogb` -/

/-- `(u.u >> 52) & 0x7ff`, or `(u.l & 0x7ff0000000000000LL) >> 52`. -/
def exponentField (u : BitVec 64) : ℤ := ((u &&& 0x7ff0000000000000) >>> 52).toNat

/-- `reference_copysign`. -/
def referenceCopysign (x y : BitVec 64) : BitVec 64 :=
  let mask : BitVec 64 := 0x7fffffffffffffff
  let msb : BitVec 64 := 0x8000000000000000
  x &&& mask ||| y &&& msb

/-- The bits with a leading bit, and the exponent that belongs to them. -/
def scalbnNormalize (x : BitVec 64) : Flagged (BitVec 64 × ℤ) :=
  if exponentField x = 0 then do
    let u ← binary64.sub (x ||| 1023#64 <<< 52) (0x3ff0000000000000 : BitVec 64)
    pure (u, exponentField u - 1022)
  else pure (x, exponentField x)

/-- `u.l`, with another exponent. -/
def setExponent (u : BitVec 64) (e : ℤ) : BitVec 64 :=
  let mask : BitVec 64 := 0x800fffffffffffff
  u &&& mask ||| BitVec.ofInt 64 e <<< 52

/-- `reference_scalbn`. -/
def referenceScalbn (x : BitVec 64) (n : ℤ) : Flagged (BitVec 64) :=
  if binary64.floatClass x = .infinite ∨ binary64.floatClass x = .nan ∨
      binary64.floatClass x = .zero then pure x
  else do
    let u ← scalbnNormalize x
    let e := u.2 + n
    if 2047 ≤ e ∨ 2098 ≤ n then pure (referenceCopysign 0x7ff0000000000000 x)
    else if e < -51 ∨ n < -2097 then pure (referenceCopysign 0 x)
    else
      let bias : ℤ := if e ≤ 0 then 1023 + (e - 1) else 1023
      let e := if e ≤ 0 then 1 else e
      binary64.mul (setExponent u.1 e) (BitVec.ofInt 64 bias <<< 52)

/-- `reference_ldexp`. -/
def referenceLdexp (value : BitVec 64) (exponent : ℤ) : Flagged (BitVec 64) :=
  referenceScalbn value exponent

section

variable (gDeviceILogb0 gDeviceILogbNaN : ℤ)

/-- The exponent of `u`, and of `x` if it is subnormal. -/
def ilogbBits (u x : BitVec 64) : Flagged ℤ :=
  if exponentField u = 0x7ff then
    let mask : BitVec 64 := 0x000fffffffffffff
    pure (if u &&& mask ≠ 0 then gDeviceILogbNaN else 2 ^ 31 - 1)
  else if exponentField u = 0 then do
    let u ← binary64.mul x (0x43f0000000000000 : BitVec 64)
    pure (if exponentField u = 0 then gDeviceILogb0 else exponentField u - (1023 + 64))
  else pure (exponentField u - 1023)

/-- `reference_ilogb`. -/
def referenceIlogb (x : BitVec 64) : Flagged ℤ := do
  let u : BitVec 32 ← binary64.converted binary32 x
  let u ← binary32.converted binary64 u
  ilogbBits gDeviceILogb0 gDeviceILogbNaN u x

/-- `reference_ilogbl`; the product in extended precision is exact, too. -/
def referenceIlogbl (x : BitVec 64) : Flagged ℤ := ilogbBits gDeviceILogb0 gDeviceILogbNaN x x

end

/-! ### Scaling is exact -/

section

variable {x u : BitVec 64} {v : ℚ} {n : ℤ} {e m : ℕ}

theorem exponentField_eq (u : BitVec 64) :
    exponentField u = (binary64.magnitudeBits u / 2 ^ 52 : ℕ) := by
  have hdiv : ((u &&& 0x7ff0000000000000) >>> 52).toNat = u.toNat / 2 ^ 52 % 2 ^ 11 := by
    rw [BitVec.toNat_ushiftRight, Nat.shiftRight_eq_div_pow, BitVec.toNat_and, Nat.and_div_two_pow,
      show (0x7ff0000000000000 : BitVec 64).toNat / 2 ^ 52 = 2 ^ 11 - 1 from rfl,
      Nat.and_two_pow_sub_one_eq_mod]
  rw [exponentField, hdiv, magnitudeBits, show binary64.mantissaBits + binary64.exponentBits = 63 from rfl]
  omega

/-- **The fields of a normal number**, and its exponent. -/
theorem exists_fields_binary64 (hu : binary64.Represents u v) (hv : 2 ^ (-1022 : ℤ) ≤ |v|) :
    ∃ e m : ℕ, 1 ≤ e ∧ e < 2047 ∧ m < 2 ^ 52 ∧ binary64.magnitudeBits u = 2 ^ 52 * e + m ∧
      exponentField u = e ∧ |v| = (2 ^ 52 + m : ℕ) * 2 ^ (e - 1023 - (52 : ℕ) : ℤ) := by
  rw [← hu.value] at hv ⊢
  obtain ⟨e, m, he, hm, hbits, hvalue⟩ := exists_fields (f := binary64) hv
  have hfinite := (binary64.finite_iff u).mp hu.finite
  have hexp := exponentField_eq u
  rw [show binary64.mantissaBits = 52 from rfl] at hm hbits hvalue
  rw [show binary64.minExp = -1022 from rfl, show (e - 1 + -1022 - (52 : ℕ) : ℤ) = e - 1023 - (52 : ℕ) by ring]
    at hvalue
  rw [hbits, show (2 ^ 52 * e + m) / 2 ^ 52 = e by omega] at hexp
  rw [hbits, show binary64.finiteCount = 2 ^ 52 * 2047 from rfl] at hfinite
  exact ⟨e, m, he, by omega, hm, hbits, hexp, hvalue⟩

theorem represents_sgn {a : ℚ} (hu : binary64.Finite u) (h : |binary64.value u| = a) (ha : 0 < a) :
    binary64.Represents u (sgn (binary64.signBit u) * a) := by
  have hsgn := value_eq_sgn binary64 u
  rw [h] at hsgn
  have hne : binary64.value u ≠ 0 := by
    rw [← abs_pos, h]
    exact ha
  rw [signBit, ← hsgn]
  exact .of_ne_zero hu hne

theorem value_of_fields (hbits : binary64.magnitudeBits u = 2 ^ 52 * e + m) (hm : m < 2 ^ 52)
    (he : 1 ≤ e) (he' : e < 2047) : binary64.Finite u ∧
      |binary64.value u| = (2 ^ 52 + m : ℕ) * 2 ^ (e - 1023 - (52 : ℕ) : ℤ) := by
  have hmag := magnitude_mul_add (f := binary64) (e := e) hm
  have hvalue := abs_value_eq binary64 u
  rw [finite_iff, hbits, show binary64.finiteCount = 2 ^ 52 * 2047 from rfl]
  refine ⟨by omega, ?_⟩
  rw [hvalue, hbits]
  refine hmag.trans ?_
  rw [if_neg (by omega), Nat.max_eq_left he, show binary64.minExp = -1022 from rfl]
  congr 2
  show (e - 1 + -1022 - (52 : ℕ) : ℤ) = e - 1023 - (52 : ℕ)
  ring

theorem setExponent_fields (u : BitVec 64) (he : e < 2 ^ 11) :
    binary64.magnitudeBits (setExponent u e) = 2 ^ 52 * e + binary64.magnitudeBits u % 2 ^ 52 ∧
      binary64.signBit (setExponent u e) = binary64.signBit u := by
  have hshift : (BitVec.ofInt 64 e <<< 52).toNat = 2 ^ 52 * e := by
    rw [BitVec.toNat_shiftLeft, BitVec.ofInt_natCast, BitVec.toNat_ofNat, Nat.shiftLeft_eq]
    omega
  constructor
  · have hmask : (0x800fffffffffffff : BitVec 64).toNat % 2 ^ 63 = 2 ^ 52 - 1 := rfl
    have hor := Nat.two_pow_add_eq_or_of_lt (Nat.mod_lt (u.toNat % 2 ^ 63) (Nat.two_pow_pos 52)) e
    rw [magnitudeBits, magnitudeBits, show binary64.mantissaBits + binary64.exponentBits = 63 from rfl,
      setExponent, BitVec.toNat_or, BitVec.toNat_and, hshift, Nat.or_mod_two_pow, Nat.and_mod_two_pow, hmask,
      Nat.and_two_pow_sub_one_eq_mod, Nat.mod_eq_of_lt (a := 2 ^ 52 * e) (by omega), Nat.or_comm, hor]
  · have hbit : (BitVec.ofInt 64 e <<< 52).getLsbD 63 = false := by
      rw [BitVec.getLsbD, hshift]
      exact Nat.testBit_lt_two_pow (by omega)
    rw [signBit, signBit, show binary64.mantissaBits + binary64.exponentBits = 63 from rfl,
      setExponent, BitVec.getLsbD_or, BitVec.getLsbD_and, hbit, Bool.or_false]
    exact Bool.and_true _

theorem represents_powerOfTwo (he : 1 ≤ e) (he' : e < 2047) :
    binary64.Represents (BitVec.ofInt 64 e <<< 52) (2 ^ (e - 1023 : ℤ)) := by
  obtain ⟨hbits, hsign⟩ := setExponent_fields (0 : BitVec 64) (e := e) (by omega)
  have hzero : setExponent 0 e = BitVec.ofInt 64 e <<< 52 := BitVec.zero_or
  rw [hzero, show binary64.signBit (0 : BitVec 64) = false by decide] at hsign
  rw [hzero, show binary64.magnitudeBits (0 : BitVec 64) % 2 ^ 52 = 0 by decide] at hbits
  obtain ⟨hfinite, hvalue⟩ := value_of_fields hbits (by decide) he he'
  have hpow : (2 ^ 52 + 0 : ℕ) * (2 : ℚ) ^ (e - 1023 - (52 : ℕ) : ℤ) = 2 ^ (e - 1023 : ℤ) := by
    rw [Nat.add_zero, Nat.cast_pow, Nat.cast_ofNat, ← zpow_natCast, ← zpow_add₀ two_ne_zero,
      add_sub_cancel]
  have hsgn := represents_sgn hfinite (hvalue.trans hpow) (two_zpow_pos _)
  rwa [hsign, sgn, if_neg Bool.false_ne_true, one_mul] at hsgn

theorem abs_of_exponentField (hx : binary64.Represents x v) (h : exponentField x = 0) :
    binary64.magnitudeBits x < 2 ^ 52 ∧ |v| = binary64.magnitudeBits x * 2 ^ (-1074 : ℤ) ∧
      |v| < 2 ^ (-1022 : ℤ) := by
  rw [exponentField_eq] at h
  have hm52 : binary64.magnitudeBits x < 2 ^ 52 := by omega
  have hmag := magnitude_mul_add (f := binary64) (e := 0) hm52
  have hvalue := abs_value_eq binary64 x
  generalize binary64.magnitudeBits x = m at hm52 hmag hvalue ⊢
  have habs : |v| = m * 2 ^ (-1074 : ℤ) := by
    rw [← hx.value, hvalue]
    rw [Nat.mul_zero, Nat.zero_add] at hmag
    rw [hmag]
    simp [minExp, binary64]
  have hlt : (m : ℚ) < 2 ^ 52 := by exact_mod_cast hm52
  have hmul := mul_lt_mul_of_pos_right hlt (two_zpow_pos (-1074))
  rw [← zpow_natCast, ← zpow_add₀ two_ne_zero, ← habs] at hmul
  exact ⟨hm52, habs, hmul⟩

theorem represents_one : binary64.Represents (0x3ff0000000000000 : BitVec 64) 1 :=
  ⟨by decide, by decide +kernel, fun h => absurd h one_ne_zero⟩

/-- The bits of a subnormal number are those of a mantissa above 1. -/
theorem represents_or (hm : binary64.magnitudeBits x = m) (hm52 : m < 2 ^ 52) (hsign : binary64.signBit x = false) :
    binary64.Represents (x ||| 1023#64 <<< 52) (1 + (m : ℚ) * 2 ^ (-52 : ℤ)) := by
  have hx63 : x.toNat = m := by
    have hadd := toNat_eq_add (f := binary64) (b := x) rfl
    rw [signBit] at hsign
    rw [hadd, hsign, hm, if_neg Bool.false_ne_true, Nat.zero_add]
  have hor := Nat.two_pow_add_eq_or_of_lt hm52 1023
  have hnat : (x ||| 1023#64 <<< 52).toNat = 2 ^ 52 * 1023 + m := by
    rw [BitVec.toNat_or, hx63, show (1023#64 <<< 52).toNat = 2 ^ 52 * 1023 from rfl, Nat.or_comm, hor]
  have hbits : binary64.magnitudeBits (x ||| 1023#64 <<< 52) = 2 ^ 52 * 1023 + m := by
    rw [magnitudeBits, hnat, show binary64.mantissaBits + binary64.exponentBits = 63 from rfl]
    omega
  have hsign' : binary64.signBit (x ||| 1023#64 <<< 52) = false := by
    rw [signBit, BitVec.getLsbD, hnat, show binary64.mantissaBits + binary64.exponentBits = 63 from rfl]
    exact Nat.testBit_lt_two_pow (by omega)
  obtain ⟨hfinite, hvalue⟩ := value_of_fields hbits hm52 (by decide) (by decide)
  have hone : ((2 ^ 52 + m : ℕ) : ℚ) * 2 ^ (((1023 : ℕ) : ℤ) - 1023 - (52 : ℕ)) = 1 + m * 2 ^ (-52 : ℤ) := by
    rw [show (((1023 : ℕ) : ℤ) - 1023 - (52 : ℕ)) = -52 by norm_num]
    push_cast
    rw [add_mul]
    norm_num
  have hsgn := represents_sgn hfinite (hvalue.trans hone) (by positivity)
  rwa [hsign', sgn, if_neg Bool.false_ne_true, one_mul] at hsgn

/-- **A subnormal number** times a large power of two is normal. -/
theorem normal_of_subnormal (hv : binary64.Fits v) (hv0 : v ≠ 0) (hsmall : |v| < 2 ^ (-1022 : ℤ))
    (hn : 52 ≤ n) (hn' : n ≤ 2046) :
    2 ^ (-1022 : ℤ) ≤ |v * 2 ^ n| ∧ binary64.Fits (v * 2 ^ n) := by
  have hpos := two_zpow_pos n
  have hleast : 2 ^ (-1074 : ℤ) ≤ |v| := hv.1.le_abs hv0
  have hge := mul_le_mul_of_nonneg_right hleast hpos.le
  have hlt := mul_lt_mul_of_pos_right hsmall hpos
  rw [← zpow_add₀ two_ne_zero] at hge hlt
  rw [Fits, abs_mul, abs_of_pos hpos, magnitude_finiteCount_binary64]
  refine ⟨(zpow_le_zpow_right₀ one_le_two (by omega)).trans hge, ?_, ?_⟩
  · exact hv.1.mul_two_zpow (by omega)
  · exact hlt.trans_le (zpow_le_zpow_right₀ one_le_two (by omega))

/-- **A number with a leading bit** that stands for another one. -/
theorem exact_scalbnNormalize (hx : binary64.Represents x v) (h : 0 < v ∨ 2 ^ (-1022 : ℤ) ≤ |v|) :
    Exact (scalbnNormalize x) fun p => binary64.signBit p.1 = binary64.signBit x ∧
      |v| = (2 ^ 52 + binary64.magnitudeBits p.1 % 2 ^ 52 : ℕ) * 2 ^ (p.2 - 1023 - (52 : ℕ) : ℤ) := by
  have hexp := exponentField_eq x
  have hmod (e m : ℕ) (hm : m < 2 ^ 52) : (2 ^ 52 * e + m) % 2 ^ 52 = m := by omega
  rw [scalbnNormalize]
  refine .ite ?_ ?_
  · intro hzero
    -- a subnormal number: 1 is added to its bits, and subtracted from its value
    obtain ⟨hm52, habs, hsmall⟩ := abs_of_exponentField hx hzero
    have hv : 0 < v := h.resolve_right (not_le.mpr hsmall)
    have hpos := mul_pos hv (two_zpow_pos 1022)
    have hsign : binary64.signBit x = false := by
      rw [hx.signBit_eq, decide_eq_false hv.not_gt]
    have hdiff : 1 + (binary64.magnitudeBits x : ℚ) * 2 ^ (-52 : ℤ) - 1 = v * 2 ^ (1022 : ℤ) := by
      rw [abs_of_pos hv] at habs
      rw [add_sub_cancel_left, habs, mul_assoc, ← zpow_add₀ two_ne_zero]
      rfl
    obtain ⟨hle, hfits⟩ := normal_of_subnormal hx.fits hv.ne' hsmall (n := 1022) (by decide) (by decide)
    rw [← hdiff] at hfits
    refine (exact_sub (w := 64) rfl (represents_or rfl hm52 hsign) represents_one hfits).bind ?_
    intro r hr
    rw [hdiff] at hr
    obtain ⟨e', m', -, -, hm', hbits, hfield, hvalue⟩ := exists_fields_binary64 hr hle
    refine .of_pure ⟨?_, ?_⟩
    · rw [hr.signBit_eq, decide_eq_false hpos.not_gt, hsign]
    · rw [hbits, hmod e' m' hm', hfield]
      calc |v| = |v * 2 ^ (1022 : ℤ)| * 2 ^ (-1022 : ℤ) := by
            rw [abs_mul, abs_of_pos (two_zpow_pos 1022), mul_assoc, ← zpow_add₀ two_ne_zero,
              add_neg_cancel, zpow_zero, mul_one]
        _ = (2 ^ 52 + m' : ℕ) * 2 ^ (e' - 1022 - 1023 - (52 : ℕ) : ℤ) := by
            rw [hvalue, mul_assoc, ← zpow_add₀ two_ne_zero]
            congr 2
            ring
  · intro hexp'
    refine .of_pure ⟨rfl, ?_⟩
    have hfinite := (binary64.finite_iff x).mp hx.finite
    rw [show binary64.finiteCount = 2 ^ 52 * 2047 from rfl] at hfinite
    have hbits := (Nat.div_add_mod (binary64.magnitudeBits x) (2 ^ 52)).symm
    have hm := Nat.mod_lt (binary64.magnitudeBits x) (Nat.two_pow_pos 52)
    have hvalue := (value_of_fields hbits hm (by omega) (by omega)).2
    rw [hx.value] at hvalue
    rw [hvalue, hexp]

theorem exponent_bounds {k : ℤ} (hq : binary64.Fits v) (hv : v ≠ 0) (hm : m < 2 ^ 52)
    (h : |v| = (2 ^ 52 + m : ℕ) * 2 ^ (k - 1023 - (52 : ℕ))) : -51 ≤ k ∧ k < 2047 := by
  have hlog := log_significand (t := 52) (m := 2 ^ 52 + m) (by omega) (by omega) (k - 1023)
  have hpos := abs_pos.mpr hv
  rw [← h] at hlog
  have hge : 2 ^ (-1074 : ℤ) ≤ |v| := hq.1.le_abs hv
  have hlt : |v| < 2 ^ (1024 : ℤ) := by
    rw [← magnitude_finiteCount_binary64]
    exact hq.2
  have hge' : -1074 ≤ Int.log 2 |v| := (Int.zpow_le_iff_le_log one_lt_two hpos).mp hge
  have hlt' : Int.log 2 |v| < 1024 := (Int.lt_zpow_iff_log_lt one_lt_two hpos).mp hlt
  omega

/-- **`reference_scalbn` is exact**, for numbers that are not subnormal and negative, if there is such
a result. -/
theorem exact_scalbn (hx : binary64.Represents x v) (h : 0 ≤ v ∨ 2 ^ (-1022 : ℤ) ≤ |v|)
    (hfits : binary64.Fits (v * 2 ^ n)) :
    Exact (referenceScalbn x n) fun r => binary64.Represents r (v * 2 ^ n) := by
  obtain ⟨hnan, hinf, hzero⟩ := hx.finite.floatClass_eq (by decide)
  rw [hx.value] at hzero
  rw [referenceScalbn]
  refine .ite ?_ ?_
  · intro hclass
    have hv := hzero.mp ((hclass.resolve_left hinf).resolve_left hnan)
    rw [hv, zero_mul]
    exact .of_pure (hv ▸ hx)
  · intro hclass
    have hv : v ≠ 0 := fun hv => hclass (.inr (.inr (hzero.mpr hv)))
    refine (exact_scalbnNormalize hx (h.imp_left fun h => h.lt_of_ne hv.symm)).bind ?_
    intro u hu
    obtain ⟨hsign, hu⟩ := hu
    obtain ⟨m, hm⟩ : ∃ m, m = binary64.magnitudeBits u.1 % 2 ^ 52 := ⟨_, rfl⟩
    have hm52 : m < 2 ^ 52 := hm ▸ Nat.mod_lt _ (Nat.two_pow_pos 52)
    rw [← hm] at hu
    have hpow : v * 2 ^ n ≠ 0 := mul_ne_zero hv (two_zpow_pos n).ne'
    have habs : |v * 2 ^ n| = (2 ^ 52 + m : ℕ) * 2 ^ (u.2 + n - 1023 - (52 : ℕ)) := by
      rw [abs_mul, abs_of_pos (two_zpow_pos n), hu, mul_assoc, ← zpow_add₀ two_ne_zero]
      congr 2
      ring
    obtain ⟨hlow, hhigh⟩ := exponent_bounds hx.fits hv hm52 hu
    obtain ⟨hlow', hhigh'⟩ := exponent_bounds hfits hpow hm52 habs
    dsimp only
    rw [if_neg (by omega), if_neg (by omega)]
    obtain ⟨e, he⟩ : ∃ e : ℕ, (e : ℤ) = if u.2 + n ≤ 0 then 1 else u.2 + n :=
      ⟨(if u.2 + n ≤ 0 then 1 else u.2 + n).toNat, by omega⟩
    obtain ⟨bias, hbias⟩ : ∃ bias : ℕ, (bias : ℤ) = if u.2 + n ≤ 0 then 1023 + (u.2 + n - 1) else 1023 :=
      ⟨(if u.2 + n ≤ 0 then 1023 + (u.2 + n - 1) else 1023).toNat, by omega⟩
    have he' : 1 ≤ e ∧ e < 2047 := by omega
    have hbias' : 1 ≤ bias ∧ bias < 2047 := by omega
    have hexp : (e : ℤ) + (bias - 1023) = u.2 + n := by
      rw [he, hbias]
      split <;> ring
    rw [← he, ← hbias]
    obtain ⟨hbits, hsign'⟩ := setExponent_fields u.1 (e := e) (by omega)
    rw [← hm] at hbits
    obtain ⟨hfinite, hvalue⟩ := value_of_fields hbits hm52 he'.1 he'.2
    have hl := represents_sgn hfinite hvalue (significand_pos (t := 52) (by omega) _)
    have hd := represents_powerOfTwo hbias'.1 hbias'.2
    have hproduct : sgn (binary64.signBit (setExponent u.1 e))
        * ((2 ^ 52 + m : ℕ) * 2 ^ (e - 1023 - (52 : ℕ) : ℤ)) * 2 ^ (bias - 1023 : ℤ) = v * 2 ^ n := by
      have hsgn : v = sgn (binary64.signBit x) * |v| := by
        rw [← hx.value]
        exact value_eq_sgn binary64 x
      rw [hsign', hsign]
      conv_rhs => rw [hsgn, hu]
      rw [mul_assoc, mul_assoc, mul_assoc, mul_assoc, ← zpow_add₀ two_ne_zero, ← zpow_add₀ two_ne_zero,
        show (e - 1023 - (52 : ℕ) + (bias - 1023) : ℤ) = u.2 - 1023 - (52 : ℕ) + n by omega]
    have hmul := exact_mul (w := 64) rfl hl hd (by rw [hproduct]; exact hfits) (two_zpow_pos _)
    rwa [hproduct] at hmul

/-- **`reference_ilogb` is exact**; `u` and `x` are two words of the same number. -/
theorem exact_ilogbBits_abs (gDeviceILogb0 gDeviceILogbNaN : ℤ) (hu : binary64.Represents u v)
    (hx : binary64.Represents x v) (hv : v ≠ 0) :
    Exact (ilogbBits gDeviceILogb0 gDeviceILogbNaN u x) fun e => e = Int.log 2 |v| := by
  have hfinite := (binary64.finite_iff u).mp hu.finite
  have hexp := exponentField_eq u
  have hbits := (Nat.div_add_mod (binary64.magnitudeBits u) (2 ^ 52)).symm
  have hm := Nat.mod_lt (binary64.magnitudeBits u) (Nat.two_pow_pos 52)
  rw [show binary64.finiteCount = 2 ^ 52 * 2047 from rfl] at hfinite
  have hlog {e' : ℤ} {m' : ℕ} (hm' : m' < 2 ^ 52) (h : |v| = (2 ^ 52 + m' : ℕ) * 2 ^ (e' - (52 : ℕ))) :
      Int.log 2 |v| = e' := by
    rw [h]
    exact log_significand (by omega) (by omega) e'
  rw [ilogbBits, if_neg (by omega)]
  refine .ite ?_ ?_
  · intro hzero
    obtain ⟨-, -, hsmall⟩ := abs_of_exponentField hu hzero
    have hpow := represents_powerOfTwo (e := 1087) (by decide) (by decide)
    rw [show BitVec.ofInt 64 (1087 : ℕ) <<< 52 = 0x43f0000000000000 by decide] at hpow
    obtain ⟨hle, hfits⟩ := normal_of_subnormal hu.fits hv hsmall
      (n := ((1087 : ℕ) : ℤ) - 1023) (by decide) (by decide)
    refine (exact_mul (w := 64) rfl hx hpow hfits (two_zpow_pos _)).bind ?_
    intro r hr
    obtain ⟨e', m', he', -, hm', -, hfield, hvalue⟩ := exists_fields_binary64 hr hle
    refine .of_pure ?_
    rw [hfield, if_neg (by omega)]
    refine (hlog hm' ?_).symm
    have hw := two_zpow_pos (((1087 : ℕ) : ℤ) - 1023)
    rw [abs_mul, abs_of_pos hw] at hvalue
    rw [← mul_left_inj' hw.ne', hvalue, mul_assoc, ← zpow_add₀ two_ne_zero]
    congr 2
    push_cast
    ring
  · intro hnormal
    refine .of_pure ?_
    have hvalue := (value_of_fields hbits hm (by omega) (by omega)).2
    rw [hu.value] at hvalue
    rw [hlog hm hvalue, hexp]

theorem exact_ilogbBits (gDeviceILogb0 gDeviceILogbNaN : ℤ) (hu : binary64.Represents u v)
    (hx : binary64.Represents x v) (hv : 0 < v) :
    Exact (ilogbBits gDeviceILogb0 gDeviceILogbNaN u x) fun e => e = Int.log 2 v := by
  have hexact := exact_ilogbBits_abs gDeviceILogb0 gDeviceILogbNaN hu hx hv.ne'
  rwa [abs_of_pos hv] at hexact

end

end OpenCLCTS.MathBruteForce
