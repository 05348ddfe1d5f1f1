import OpenCLCTS.Lib.FloatOrder
import OpenCLCTS.Lib.RoundingMode

/-!
# The bits of a number

What the arithmetic of a format returns: the bits of the number that a mode takes an exact result
to, with the sign of a zero and with what stands for numbers that are too large.

* `magnitude_magnitudeOf`: the bits of a number below the sign.
* `magnitudeOf_roundIn`: the bits of a rounded number, from the last bit of the exact one.
* `value_ofRat`: numbers of the format are not changed.
-/

namespace FloatFormat

variable (f : FloatFormat) {w : ℕ}

/-- The bits of a sign and a magnitude. -/
def ofMagnitude (s : Bool) (n : ℕ) : BitVec w :=
  BitVec.ofNat w ((if s then 2 ^ (f.mantissaBits + f.exponentBits) else 0) + n)

/-- The bits of a number below the sign. -/
def magnitudeOf (q : ℚ) : ℕ :=
  if q = 0 then 0
  else (f.ulp q + f.mantissaBits - f.minExp).toNat * 2 ^ f.mantissaBits
    + ⌊|q| / 2 ^ f.ulp q⌋.toNat

/-- What a mode takes numbers to that are too large: infinity or the largest finite number. -/
def overflow : Mode → Bool → ℕ
  | .toNearest, _ | .upward, false | .downward, true => f.finiteCount
  | .towardZero, _ | .upward, true | .downward, false => f.finiteCount - 1

/-- The bits of an exact result; `s` is the sign of a result that is 0. -/
def ofRat (mode : Mode) (s : Bool) (q : ℚ) : BitVec w :=
  let sign := if q = 0 then s else decide (q < 0)
  let n := f.magnitudeOf (f.roundIn mode q)
  f.ofMagnitude sign (if n < f.finiteCount then n else f.overflow mode sign)

section

variable {f} {q : ℚ} {n : ℕ} {s : Bool} {mode : Mode}

/-! ### Magnitudes -/

/-- The magnitudes around a number: multiples of its last bit. -/
theorem magnitude_grid {k m : ℕ} (hm : m ≤ 2 ^ (f.mantissaBits + 1))
    (h : k = 0 ∨ 2 ^ f.mantissaBits ≤ m) :
    f.magnitude (k * 2 ^ f.mantissaBits + m) = m * 2 ^ (k + f.minExp - f.mantissaBits : ℤ) := by
  have hpow : 2 ^ (f.mantissaBits + 1) = 2 * 2 ^ f.mantissaBits := Nat.pow_succ'
  have hpos := Nat.two_pow_pos f.mantissaBits
  rcases Nat.lt_or_ge m (2 ^ f.mantissaBits) with hlt | hge
  · obtain rfl : k = 0 := h.resolve_right (not_le.mpr hlt)
    have heq : 0 * 2 ^ f.mantissaBits + m = 2 ^ f.mantissaBits * 0 + m := by rw [Nat.mul_comm]
    rw [heq, magnitude_mul_add hlt, if_pos rfl]
    simp
  · rcases Nat.lt_or_ge m (2 ^ (f.mantissaBits + 1)) with hlt' | hge'
    · have heq : k * 2 ^ f.mantissaBits + m
          = 2 ^ f.mantissaBits * (k + 1) + (m - 2 ^ f.mantissaBits) := by
        rw [Nat.mul_succ, Nat.mul_comm]
        omega
      rw [heq, magnitude_mul_add (by omega), if_neg (Nat.succ_ne_zero k), Nat.add_sub_cancel' hge,
        Nat.max_eq_left (by omega)]
      push_cast
      ring_nf
    · -- the next power of two
      have heq : k * 2 ^ f.mantissaBits + m = 2 ^ f.mantissaBits * (k + 2) + 0 := by
        rw [Nat.mul_add, Nat.mul_comm]
        omega
      have hm2 : m = 2 ^ f.mantissaBits * 2 := by omega
      have hexp : ((max (k + 2) 1 : ℕ) - 1 + f.minExp - f.mantissaBits : ℤ)
          = (k + f.minExp - f.mantissaBits : ℤ) + 1 := by omega
      rw [heq, magnitude_mul_add hpos, if_neg (by omega), hexp, zpow_add_one₀ two_ne_zero, hm2]
      push_cast
      ring

theorem ulp_ge (f : FloatFormat) (q : ℚ) : f.minExp - f.mantissaBits ≤ f.ulp q := by
  rw [ulp]
  omega

theorem toNat_ulp (f : FloatFormat) (q : ℚ) :
    ((f.ulp q + f.mantissaBits - f.minExp).toNat : ℤ) + f.minExp - f.mantissaBits = f.ulp q := by
  have hge := f.ulp_ge q
  omega

/-- How many last bits a number has. -/
theorem abs_div_ulp_lt (f : FloatFormat) (q : ℚ) :
    |q| / 2 ^ f.ulp q < (2 ^ (f.mantissaBits + 1) : ℕ) := by
  have hlt := f.abs_lt_two_zpow_ulp q
  rw [add_assoc, zpow_add₀ two_ne_zero, mul_comm] at hlt
  rw [div_lt_iff₀ (two_zpow_pos _)]
  exact_mod_cast hlt

/-- **Normal numbers** have a leading bit. -/
theorem le_abs_div_ulp (hq : q ≠ 0) (h : f.minExp < f.ulp q + f.mantissaBits) :
    (2 ^ f.mantissaBits : ℕ) ≤ |q| / 2 ^ f.ulp q := by
  have hlog : Int.log 2 |q| = f.mantissaBits + f.ulp q := by
    rw [ulp] at h ⊢
    omega
  have hle := Int.zpow_log_le_self (r := |q|) one_lt_two (abs_pos.mpr hq)
  rw [hlog, Nat.cast_ofNat, zpow_add₀ two_ne_zero, zpow_natCast] at hle
  rw [le_div_iff₀ (two_zpow_pos _)]
  exact_mod_cast hle

theorem magnitude_ulp {m : ℕ} (hm : m ≤ 2 ^ (f.mantissaBits + 1))
    (h : f.minExp < f.ulp q + f.mantissaBits → 2 ^ f.mantissaBits ≤ m) :
    f.magnitude ((f.ulp q + f.mantissaBits - f.minExp).toNat * 2 ^ f.mantissaBits + m)
      = m * 2 ^ f.ulp q := by
  have hk : (f.ulp q + f.mantissaBits - f.minExp).toNat = 0 ∨ 2 ^ f.mantissaBits ≤ m := by
    rcases le_or_gt (f.ulp q + f.mantissaBits) f.minExp with hle | hlt
    · exact .inl (by omega)
    · exact .inr (h hlt)
  rw [magnitude_grid hm hk, toNat_ulp]

theorem magnitudeOf_neg (f : FloatFormat) (q : ℚ) : f.magnitudeOf (-q) = f.magnitudeOf q := by
  rw [magnitudeOf, magnitudeOf, ulp_neg, abs_neg]
  simp only [neg_eq_zero]

theorem magnitudeOf_abs (f : FloatFormat) (q : ℚ) : f.magnitudeOf |q| = f.magnitudeOf q := by
  rcases abs_choice q with h | h
  · rw [h]
  · rw [h, magnitudeOf_neg]

/-- **The bits of a number** below the sign. -/
theorem magnitude_magnitudeOf (h : f.Number q) : f.magnitude (f.magnitudeOf q) = |q| := by
  rcases eq_or_ne q 0 with rfl | hq
  · rw [magnitudeOf, if_pos rfl, magnitude_zero, abs_zero]
  · have hpos := two_zpow_pos (f.ulp q)
    obtain ⟨n, hn⟩ := h.exists_ulp
    have hint : |q| / 2 ^ f.ulp q = (n.natAbs : ℕ) := by
      rw [div_eq_iff hpos.ne']
      conv_lhs => rw [hn]
      rw [abs_mul, abs_of_pos hpos, ← Int.cast_abs, Int.abs_eq_natAbs]
      rfl
    have hlt := f.abs_div_ulp_lt q
    rw [hint, Nat.cast_lt] at hlt
    rw [magnitudeOf, if_neg hq, hint, Int.floor_natCast, Int.toNat_natCast,
      magnitude_ulp hlt.le, ← hint, div_mul_cancel₀ _ hpos.ne']
    intro hnormal
    have hle := le_abs_div_ulp hq hnormal
    rw [hint, Nat.cast_le] at hle
    exact hle

theorem significand_lt (f : FloatFormat) (n : ℕ) : f.significand n < 2 ^ (f.mantissaBits + 1) := by
  have hmod := Nat.mod_lt n (Nat.two_pow_pos f.mantissaBits)
  rw [significand, Nat.pow_succ]
  split <;> omega

theorem number_magnitude (f : FloatFormat) (n : ℕ) : f.Number (f.magnitude n) := by
  refine ⟨f.significand n, f.lastBit n, ?_, ?_, ?_⟩
  · rw [lastBit]
    omega
  · rw [abs_of_nonneg (Int.natCast_nonneg _)]
    exact_mod_cast f.significand_lt n
  · rw [magnitude, Int.cast_natCast]

theorem magnitude_nonneg (f : FloatFormat) (n : ℕ) : 0 ≤ f.magnitude n :=
  mul_nonneg (Nat.cast_nonneg _) (two_zpow_pos _).le

theorem magnitudeOf_magnitude (f : FloatFormat) (n : ℕ) : f.magnitudeOf (f.magnitude n) = n := by
  apply f.magnitude_strictMono.injective
  rw [magnitude_magnitudeOf (f.number_magnitude n), abs_of_nonneg (f.magnitude_nonneg n)]

/-! ### Rounded numbers -/

theorem Mode.toInt_nonneg (mode : Mode) (hq : 0 ≤ q) : 0 ≤ mode.toInt q :=
  mode.le_toInt (by exact_mod_cast hq)

/-- **The bits of a rounded number**, from the last bit of the exact one.  The mantissa may be the
next power of two; it then counts as the next exponent. -/
theorem magnitudeOf_roundIn (mode : Mode) (hq : 0 < q) : f.magnitudeOf (f.roundIn mode q)
    = (f.ulp q + f.mantissaBits - f.minExp).toNat * 2 ^ f.mantissaBits
      + (mode.toInt (q / 2 ^ f.ulp q)).toNat := by
  have hpos := two_zpow_pos (f.ulp q)
  have hnonneg := mode.toInt_nonneg (div_nonneg hq.le hpos.le)
  have hcast : (((mode.toInt (q / 2 ^ f.ulp q)).toNat : ℕ) : ℚ) = mode.toInt (q / 2 ^ f.ulp q) := by
    exact_mod_cast Int.toNat_of_nonneg hnonneg
  apply f.magnitude_strictMono.injective
  rw [magnitude_magnitudeOf (number_roundIn f mode q), magnitude_ulp, hcast, ← roundIn,
    abs_of_nonneg]
  · exact mul_nonneg (by exact_mod_cast hnonneg) hpos.le
  · have hlt := f.abs_div_ulp_lt q
    rw [abs_of_pos hq] at hlt
    have hle := mode.toInt_le (n := (2 ^ (f.mantissaBits + 1) : ℕ)) hlt.le
    omega
  · intro hnormal
    have hle := le_abs_div_ulp hq.ne' hnormal
    rw [abs_of_pos hq] at hle
    have hle' := mode.le_toInt (n := (2 ^ f.mantissaBits : ℕ)) hle
    omega

theorem Number.exists_of_le_ulp (h : f.Number q) {u : ℤ} (hu : u ≤ f.ulp q) :
    ∃ n : ℤ, q = n * 2 ^ u := by
  obtain ⟨n, hn⟩ := h.exists_ulp
  obtain ⟨d, hd⟩ : ∃ d : ℕ, f.ulp q = d + u := ⟨(f.ulp q - u).toNat, by omega⟩
  refine ⟨n * 2 ^ d, ?_⟩
  rw [hd, zpow_add₀ two_ne_zero, zpow_natCast] at hn
  conv_lhs => rw [hn]
  push_cast
  ring

theorem abs_roundIn_le {y : ℚ} (mode : Mode) (hy : f.Number y) (h : |q| ≤ y) :
    |f.roundIn mode q| ≤ y := by
  rcases eq_or_ne q 0 with rfl | hq
  · have hzero : f.Number 0 := f.magnitude_zero ▸ f.number_magnitude 0
    rwa [hzero.roundIn_eq]
  · have hpos := two_zpow_pos (f.ulp q)
    have hlog : Int.log 2 |q| ≤ Int.log 2 |y| :=
      Int.log_mono_right (abs_pos.mpr hq) (h.trans (le_abs_self y))
    obtain ⟨n, hn⟩ := hy.exists_of_le_ulp (u := f.ulp q) (by rw [ulp, ulp]; omega)
    rw [hn, ← div_le_iff₀ hpos, ← abs_of_pos hpos, ← abs_div] at h
    have hle : ((|mode.toInt (q / 2 ^ f.ulp q)| : ℤ) : ℚ) ≤ n :=
      Int.cast_le.mpr (mode.abs_toInt_le h)
    rw [Int.cast_abs] at hle
    rw [roundIn, abs_mul, abs_of_pos hpos, hn]
    exact mul_le_mul_of_nonneg_right hle hpos.le

theorem Mode.le_abs_toInt (mode : Mode) {n : ℤ} (h : n ≤ |q|) : n ≤ |mode.toInt q| := by
  rcases le_total 0 q with hq | hq
  · rw [abs_of_nonneg hq] at h
    exact (mode.le_toInt h).trans (le_abs_self _)
  · rw [abs_of_nonpos hq, le_neg] at h
    have hle := mode.toInt_le (n := -n) (by push_cast; exact h)
    exact (le_neg.mp hle).trans (neg_le_abs _)

theorem le_abs_roundIn {y : ℚ} (mode : Mode) (hy : f.Number y) (hy0 : 0 < y) (hle : y ≤ |q|) :
    y ≤ |f.roundIn mode q| := by
  have hq : q ≠ 0 := abs_pos.mp (hy0.trans_le hle)
  have hpos := two_zpow_pos (f.ulp q)
  have hround {n : ℤ} (h : n ≤ |q| / 2 ^ f.ulp q) : n * 2 ^ f.ulp q ≤ |f.roundIn mode q| := by
    rw [← abs_of_pos hpos, ← abs_div] at h
    have hint : (n : ℚ) ≤ (|mode.toInt (q / 2 ^ f.ulp q)| : ℤ) := Int.cast_le.mpr (mode.le_abs_toInt h)
    rw [Int.cast_abs] at hint
    rw [roundIn, abs_mul, abs_of_pos hpos]
    exact mul_le_mul_of_nonneg_right hint hpos.le
  rcases le_or_gt (f.ulp q) (f.ulp y) with hulp | hulp
  · obtain ⟨n, hn⟩ := hy.exists_of_le_ulp hulp
    rw [hn, ← le_div_iff₀ hpos] at hle
    rw [hn]
    exact hround hle
  · -- the number is below the leading bit
    have hge := f.ulp_ge y
    have hlead := hround (le_abs_div_ulp hq (by omega))
    have hlt := f.abs_lt_two_zpow_ulp y
    have hpow : (2 : ℚ) ^ (f.ulp y + f.mantissaBits + 1) ≤ 2 ^ f.mantissaBits * 2 ^ f.ulp q := by
      rw [← zpow_natCast, ← zpow_add₀ two_ne_zero]
      exact zpow_le_zpow_right₀ one_le_two (by omega)
    push_cast at hlead
    exact (le_abs_self y).trans (hlt.le.trans (hpow.trans hlead))

/-! ### Bits -/

variable {b : BitVec w}

theorem toNat_ofMagnitude (hw : w = f.mantissaBits + f.exponentBits + 1)
    (hn : n < 2 ^ (f.mantissaBits + f.exponentBits)) : (f.ofMagnitude s n : BitVec w).toNat
      = (if s then 2 ^ (f.mantissaBits + f.exponentBits) else 0) + n := by
  have hpow : 2 ^ w = 2 * 2 ^ (f.mantissaBits + f.exponentBits) := by rw [hw, Nat.pow_succ']
  rw [ofMagnitude, BitVec.toNat_ofNat, Nat.mod_eq_of_lt]
  split <;> omega

theorem index_ofMagnitude (hw : w = f.mantissaBits + f.exponentBits + 1)
    (hn : n < 2 ^ (f.mantissaBits + f.exponentBits)) :
    f.magnitudeBits (f.ofMagnitude s n : BitVec w) = n ∧
      f.index (f.ofMagnitude s n : BitVec w) = if s then -(n : ℤ) else n :=
  index_of_toNat hw hn (toNat_ofMagnitude hw hn)

theorem value_ofMagnitude (hw : w = f.mantissaBits + f.exponentBits + 1)
    (hn : n < 2 ^ (f.mantissaBits + f.exponentBits)) : f.value (f.ofMagnitude s n : BitVec w)
      = if s then -f.magnitude n else f.magnitude n := by
  rw [value_eq_numberAt, (index_ofMagnitude hw hn).2]
  split
  · rw [numberAt_neg, numberAt_natCast]
  · rw [numberAt_natCast]

theorem ofMagnitude_magnitudeBits (hw : w = f.mantissaBits + f.exponentBits + 1) (b : BitVec w) :
    f.ofMagnitude (b.getLsbD (f.mantissaBits + f.exponentBits)) (f.magnitudeBits b) = b := by
  apply BitVec.eq_of_toNat_eq
  rw [toNat_ofMagnitude hw magnitudeBits_lt, toNat_eq_add hw]

theorem abs_value_eq (f : FloatFormat) (b : BitVec w) :
    |f.value b| = f.magnitude (f.magnitudeBits b) := by
  rw [value_eq_magnitude, sign]
  split
  · rw [Int.cast_neg, Int.cast_one, neg_one_mul, abs_neg, abs_of_nonneg (f.magnitude_nonneg _)]
  · rw [Int.cast_one, one_mul, abs_of_nonneg (f.magnitude_nonneg _)]

theorem getLsbD_ofMagnitude (hw : w = f.mantissaBits + f.exponentBits + 1)
    (hn : n < 2 ^ (f.mantissaBits + f.exponentBits)) :
    (f.ofMagnitude s n : BitVec w).getLsbD (f.mantissaBits + f.exponentBits) = s := by
  have hnat := toNat_ofMagnitude (s := s) hw hn
  have hadd := toNat_eq_add (b := (f.ofMagnitude s n : BitVec w)) hw
  have hlt := magnitudeBits_lt (f := f) (b := (f.ofMagnitude s n : BitVec w))
  rw [hnat] at hadd
  cases hbit : (f.ofMagnitude s n : BitVec w).getLsbD (f.mantissaBits + f.exponentBits) <;>
    cases s <;> simp only [hbit, if_true, if_false, Bool.false_eq_true] at hadd ⊢ <;> omega

theorem sign_value (f : FloatFormat) (b : BitVec w) :
    (if f.value b = 0 then b.getLsbD (f.mantissaBits + f.exponentBits)
      else decide (f.value b < 0)) = b.getLsbD (f.mantissaBits + f.exponentBits) := by
  split
  · rfl
  · rename_i hne
    have hpos : 0 < f.magnitude (f.magnitudeBits b) := by
      rw [← abs_value_eq]
      exact abs_pos.mpr hne
    rw [value_eq_magnitude, FloatFormat.sign]
    cases hbit : b.getLsbD (f.mantissaBits + f.exponentBits) with
    | true =>
      rw [if_pos rfl, Int.cast_neg, Int.cast_one, neg_one_mul]
      exact decide_eq_true (neg_neg_of_pos hpos)
    | false =>
      rw [if_neg Bool.false_ne_true, Int.cast_one, one_mul]
      exact decide_eq_false hpos.not_gt

theorem overflow_le (f : FloatFormat) (mode : Mode) (s : Bool) :
    f.overflow mode s ≤ f.finiteCount := by
  cases mode <;> cases s <;> simp [overflow]

theorem getLsbD_ofRat (mode : Mode) (hw : w = f.mantissaBits + f.exponentBits + 1) (s : Bool)
    (q : ℚ) : (f.ofRat mode s q : BitVec w).getLsbD (f.mantissaBits + f.exponentBits)
      = if q = 0 then s else decide (q < 0) := by
  rw [ofRat, getLsbD_ofMagnitude hw]
  split
  · rename_i h
    exact h.trans finiteCount_lt
  · exact lt_of_le_of_lt (f.overflow_le mode _) finiteCount_lt

/-- **Numbers of the format are not changed**, the sign of a zero included. -/
theorem ofRat_value (mode : Mode) (hw : w = f.mantissaBits + f.exponentBits + 1)
    (h : f.Finite b) :
    f.ofRat mode (b.getLsbD (f.mantissaBits + f.exponentBits)) (f.value b) = b := by
  have hbits := (f.finite_iff b).mp h
  have hmag : f.magnitudeOf (f.value b) = f.magnitudeBits b := by
    rw [← magnitudeOf_abs, abs_value_eq, magnitudeOf_magnitude]
  rw [ofRat, (number_value b f).roundIn_eq, hmag, if_pos hbits, sign_value,
    ofMagnitude_magnitudeBits hw]

theorem value_ofRat (mode : Mode) (hw : w = f.mantissaBits + f.exponentBits + 1)
    (h : f.Number q) (hlt : |q| < f.magnitude f.finiteCount) :
    f.value (f.ofRat mode s q : BitVec w) = q ∧ f.Finite (f.ofRat mode s q : BitVec w) := by
  have hmag := magnitude_magnitudeOf h
  rw [← hmag, f.magnitude_strictMono.lt_iff_lt] at hlt
  have hlt' := hlt.trans finiteCount_lt
  rw [ofRat, h.roundIn_eq, if_pos hlt]
  refine ⟨?_, ?_⟩
  · rw [value_ofMagnitude hw hlt', hmag]
    rcases lt_trichotomy q 0 with h0 | rfl | h0
    · rw [if_neg h0.ne, if_pos (decide_eq_true h0), abs_of_neg h0, neg_neg]
    · simp
    · rw [if_neg h0.ne', if_neg (by simpa using h0.le), abs_of_pos h0]
  · rw [finite_iff, (index_ofMagnitude hw hlt').1]
    exact hlt

/-- The last number is followed by 2 ^ 1024. -/
theorem magnitude_finiteCount_binary64 :
    binary64.magnitude binary64.finiteCount = 2 ^ (1024 : ℤ) := by
  have hcount : binary64.finiteCount = 2 ^ binary64.mantissaBits * 2047 + 0 := rfl
  rw [hcount, magnitude_mul_add (Nat.two_pow_pos _), if_neg (by decide), Nat.add_zero, Nat.cast_pow,
    Nat.cast_ofNat, ← zpow_natCast, ← zpow_add₀ two_ne_zero]
  rfl

end

end FloatFormat
