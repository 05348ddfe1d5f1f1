import Mathlib.Data.Int.Log
import Mathlib.Tactic.Linarith
import Mathlib.Tactic.NormNum
import Mathlib.Tactic.Ring
import OpenCLCTS.Lib.FloatFormat

/-!
# Rounding to a binary format

The numbers of a format, as rational numbers, and the nearest one of them, ties to even, with
gradual underflow.  How large the numbers are is not limited here.

* `Number.round_eq`: numbers are not changed by rounding.
* `abs_round_sub_le`: how far a rounded number is from the exact one.
* `number_sub_truncate`, `Number.isInt`: the fraction of a number; large numbers are integers.
* `value_eq`: what the bits of a format stand for.
-/

/-! ### The nearest integer -/

/-- The nearest integer, ties to even. -/
def nearest (q : ℚ) : ℤ :=
  if 1 / 2 < q - ⌊q⌋ ∨ q - ⌊q⌋ = 1 / 2 ∧ ⌊q⌋ % 2 = 1 then ⌊q⌋ + 1 else ⌊q⌋

theorem abs_nearest_sub_le (q : ℚ) : |(nearest q : ℚ) - q| ≤ 1 / 2 := by
  have hle := Int.floor_le q
  have hlt := Int.lt_floor_add_one q
  rw [nearest, abs_le]
  split
  · rename_i h
    push_cast
    rcases h with h | ⟨h, _⟩
    · constructor <;> linarith
    · constructor <;> linarith
  · rename_i h
    have hhalf : q - ⌊q⌋ ≤ 1 / 2 := not_lt.mp fun hgt => h (.inl hgt)
    constructor <;> linarith

theorem nearest_intCast (n : ℤ) : nearest (n : ℚ) = n := by
  rw [nearest, Int.floor_intCast, sub_self, if_neg]
  rintro (h | ⟨h, _⟩)
  · exact absurd h (by norm_num)
  · exact absurd h (by norm_num)

theorem nearest_le_iff {q : ℚ} {m : ℤ} :
    nearest q ≤ m ↔ q < m + 1 / 2 ∨ q = m + 1 / 2 ∧ m % 2 = 0 := by
  have hle := Int.floor_le q
  have hlt := Int.lt_floor_add_one q
  rw [nearest]
  rcases lt_trichotomy ⌊q⌋ m with h | h | h
  · have hq : (⌊q⌋ : ℚ) + 1 ≤ m := by exact_mod_cast h
    refine iff_of_true ?_ (.inl (by linarith))
    split <;> omega
  · subst h
    by_cases hhalf : 1 / 2 < q - ⌊q⌋ ∨ q - ⌊q⌋ = 1 / 2 ∧ ⌊q⌋ % 2 = 1
    · rw [if_pos hhalf]
      refine iff_of_false (by omega) ?_
      rintro (h | ⟨h, h'⟩)
      · rcases hhalf with hhalf | ⟨hhalf, _⟩ <;> linarith
      · rcases hhalf with hhalf | ⟨_, hhalf⟩
        · linarith
        · omega
    · rw [if_neg hhalf]
      refine iff_of_true le_rfl ?_
      push Not at hhalf
      rcases lt_or_eq_of_le hhalf.1 with h | h
      · exact .inl (by linarith)
      · exact .inr ⟨by linarith, by have := hhalf.2 h; omega⟩
  · have hq : (m : ℚ) + 1 ≤ ⌊q⌋ := by exact_mod_cast h
    refine iff_of_false ?_ ?_
    · split <;> omega
    · rintro (h | ⟨h, _⟩) <;> linarith

theorem nearest_le_of_le {q : ℚ} {n : ℤ} (h : q ≤ n) : nearest q ≤ n :=
  nearest_le_iff.mpr (.inl (by linarith))

theorem le_nearest_of_le {q : ℚ} {n : ℤ} (h : (n : ℚ) ≤ q) : n ≤ nearest q := by
  by_contra hlt
  have hle : nearest q ≤ n - 1 := by omega
  rcases nearest_le_iff.mp hle with h' | ⟨h', _⟩
  · push_cast at h'
    linarith
  · push_cast at h'
    linarith

/-- The integer part. -/
def truncate (q : ℚ) : ℤ := if q < 0 then ⌈q⌉ else ⌊q⌋

theorem truncate_intCast (n : ℤ) : truncate (n : ℚ) = n := by
  rw [truncate, Int.ceil_intCast, Int.floor_intCast, ite_self]

theorem abs_truncate_le (q : ℚ) : |(truncate q : ℚ)| ≤ |q| := by
  rw [truncate]
  split
  · rename_i h
    have hceil : (⌈q⌉ : ℚ) ≤ 0 := by exact_mod_cast Int.ceil_le.mpr (by exact_mod_cast h.le)
    rw [abs_of_nonpos hceil, abs_of_neg h]
    linarith [Int.le_ceil q]
  · rename_i h
    have hq : 0 ≤ q := not_lt.mp h
    have hfloor : (0 : ℚ) ≤ ⌊q⌋ := by exact_mod_cast Int.floor_nonneg.mpr hq
    rw [abs_of_nonneg hfloor, abs_of_nonneg hq]
    exact Int.floor_le q

theorem abs_sub_truncate_le (q : ℚ) : |q - truncate q| ≤ |q| := by
  rw [truncate]
  split
  · rename_i h
    have hceil : (⌈q⌉ : ℚ) ≤ 0 := by exact_mod_cast Int.ceil_le.mpr (by exact_mod_cast h.le)
    have hle := Int.le_ceil q
    rw [abs_of_nonpos (by linarith), abs_of_neg h]
    linarith
  · rename_i h
    have hq : 0 ≤ q := not_lt.mp h
    have hfloor : (0 : ℚ) ≤ ⌊q⌋ := by exact_mod_cast Int.floor_nonneg.mpr hq
    have hle := Int.floor_le q
    rw [abs_of_nonneg (by linarith), abs_of_nonneg hq]
    linarith

theorem truncate_of_nonneg {q : ℚ} (h : 0 ≤ q) : truncate q = ⌊q⌋ := if_neg (not_lt.mpr h)

theorem truncate_of_nonpos {q : ℚ} (h : q ≤ 0) : truncate q = ⌈q⌉ := by
  rcases lt_or_eq_of_le h with h | rfl
  · exact if_pos h
  · rw [← Int.cast_zero, truncate_intCast, Int.ceil_intCast]

theorem truncate_neg_iff {q : ℚ} : truncate q < 0 ↔ q ≤ -1 := by
  rcases le_total 0 q with h | h
  · rw [truncate_of_nonneg h]
    have := Int.floor_nonneg.mpr h
    exact iff_of_false (by omega) (by linarith)
  · rw [truncate_of_nonpos h, ← Int.le_sub_one_iff, Int.ceil_le]
    norm_num

/-- Rounding up changes the integer part of the numbers that are not negative. -/
theorem ceil_eq_truncate (q : ℚ) :
    ⌈q⌉ = if (truncate q : ℚ) ≠ q ∧ 0 ≤ q then truncate q + 1 else truncate q := by
  split
  · rename_i h
    rw [truncate_of_nonneg h.2] at h ⊢
    have hlt : (⌊q⌋ : ℚ) < q := lt_of_le_of_ne (Int.floor_le q) h.1
    rw [Int.ceil_eq_iff]
    push_cast
    exact ⟨by linarith, (Int.lt_floor_add_one q).le⟩
  · rename_i h
    rcases le_or_gt q 0 with h0 | h0
    · exact (truncate_of_nonpos h0).symm
    · have hq : (truncate q : ℚ) = q := not_not.mp fun hne => h ⟨hne, h0.le⟩
      conv_lhs => rw [← hq, Int.ceil_intCast]

theorem floor_eq_truncate (q : ℚ) :
    ⌊q⌋ = if (truncate q : ℚ) ≠ q ∧ q < 0 then truncate q - 1 else truncate q := by
  split
  · rename_i h
    rw [truncate_of_nonpos h.2.le] at h ⊢
    have hlt : q < ⌈q⌉ := lt_of_le_of_ne (Int.le_ceil q) h.1.symm
    rw [Int.floor_eq_iff]
    push_cast
    exact ⟨by linarith [Int.ceil_lt_add_one q], by linarith⟩
  · rename_i h
    rcases le_or_gt 0 q with h0 | h0
    · exact (truncate_of_nonneg h0).symm
    · have hq : (truncate q : ℚ) = q := not_not.mp fun hne => h ⟨hne, h0⟩
      conv_lhs => rw [← hq, Int.floor_intCast]

theorem abs_truncate_sub_lt (q : ℚ) : |(truncate q : ℚ) - q| < 1 := by
  rw [truncate, abs_lt]
  split
  · constructor <;> linarith [Int.le_ceil q, Int.ceil_lt_add_one q]
  · constructor <;> linarith [Int.floor_le q, Int.lt_floor_add_one q]

theorem two_zpow_pos (k : ℤ) : (0 : ℚ) < 2 ^ k := zpow_pos two_pos k

namespace FloatFormat

variable (f : FloatFormat)

/-- The exponent of the least normal numbers. -/
def minExp : ℤ := 2 - 2 ^ (f.exponentBits - 1)

/-- The exponent of the last bit of the numbers around `q`. -/
def ulp (q : ℚ) : ℤ := max (Int.log 2 |q|) f.minExp - f.mantissaBits

/-- The nearest number. -/
def round (q : ℚ) : ℚ := nearest (q / 2 ^ f.ulp q) * 2 ^ f.ulp q

/-- The numbers that have a mantissa and an exponent of the format. -/
def Number (q : ℚ) : Prop :=
  ∃ m e : ℤ, f.minExp - f.mantissaBits ≤ e ∧ |m| < 2 ^ (f.mantissaBits + 1) ∧ q = m * 2 ^ e

variable {f} {q u : ℚ} {n : ℤ}

theorem round_zero (f : FloatFormat) : f.round 0 = 0 := by
  rw [round, zero_div, ← Int.cast_zero, nearest_intCast, Int.cast_zero, zero_mul]

theorem ulp_le {k : ℤ} (hq : q ≠ 0) (hk : f.minExp ≤ k) (h : |q| < 2 ^ (k + 1)) :
    f.ulp q ≤ k - f.mantissaBits := by
  have hlog : Int.log 2 |q| < k + 1 :=
    (Int.lt_zpow_iff_log_lt one_lt_two (abs_pos.mpr hq)).mp h
  rw [ulp]
  omega

/-- **How far a rounded number is from the exact one.** -/
theorem abs_round_sub_le_ulp (f : FloatFormat) (q : ℚ) : |f.round q - q| ≤ 2 ^ f.ulp q / 2 := by
  have hpos := two_zpow_pos (f.ulp q)
  have hq : q = q / 2 ^ f.ulp q * 2 ^ f.ulp q := (div_mul_cancel₀ q hpos.ne').symm
  calc |f.round q - q|
      = |((nearest (q / 2 ^ f.ulp q) : ℚ) - q / 2 ^ f.ulp q) * 2 ^ f.ulp q| := by
        rw [sub_mul, ← hq, round]
    _ = |(nearest (q / 2 ^ f.ulp q) : ℚ) - q / 2 ^ f.ulp q| * 2 ^ f.ulp q := by
        rw [abs_mul, abs_of_pos hpos]
    _ ≤ 1 / 2 * 2 ^ f.ulp q := mul_le_mul_of_nonneg_right (abs_nearest_sub_le _) hpos.le
    _ = 2 ^ f.ulp q / 2 := by ring

theorem abs_round_sub_le {k : ℤ} (hk : f.minExp ≤ k) (h : |q| < 2 ^ (k + 1)) :
    |f.round q - q| ≤ 2 ^ (k - f.mantissaBits) / 2 := by
  rcases eq_or_ne q 0 with rfl | hq
  · rw [round_zero, sub_zero, abs_zero]
    have := two_zpow_pos (k - f.mantissaBits)
    linarith
  · refine (f.abs_round_sub_le_ulp q).trans ?_
    have hle : (2 : ℚ) ^ f.ulp q ≤ 2 ^ (k - f.mantissaBits) :=
      zpow_le_zpow_right₀ one_le_two (ulp_le hq hk h)
    linarith

theorem two_zpow_ulp_le (h : 2 ^ f.minExp ≤ |q|) : (2 : ℚ) ^ f.ulp q ≤ |q| / 2 ^ f.mantissaBits := by
  have hpos : 0 < |q| := lt_of_lt_of_le (two_zpow_pos _) h
  have hlog : f.minExp ≤ Int.log 2 |q| := (Int.zpow_le_iff_le_log one_lt_two hpos).mp h
  have hle : (2 : ℚ) ^ Int.log 2 |q| ≤ |q| := Int.zpow_log_le_self one_lt_two hpos
  rw [ulp, max_eq_left hlog, zpow_sub₀ two_ne_zero, zpow_natCast]
  exact div_le_div_of_nonneg_right hle (by positivity)

/-- **A number is a multiple of its last bit.** -/
theorem Number.exists_ulp (h : f.Number q) : ∃ n : ℤ, q = n * 2 ^ f.ulp q := by
  obtain ⟨m, e, he, hm, hq⟩ := h
  rcases eq_or_ne q 0 with h0 | hne
  · exact ⟨0, by rw [Int.cast_zero, zero_mul, h0]⟩
  · have hpos := two_zpow_pos e
    have hlt : |q| < 2 ^ (f.mantissaBits + e + 1) := by
      have hm' : |(m : ℚ)| < 2 ^ (f.mantissaBits + 1) := by exact_mod_cast hm
      rw [hq, abs_mul, abs_of_pos hpos, show (f.mantissaBits : ℤ) + e + 1
        = ((f.mantissaBits + 1 : ℕ) : ℤ) + e by push_cast; ring, zpow_add₀ two_ne_zero, zpow_natCast]
      exact mul_lt_mul_of_pos_right hm' hpos
    have hulp : f.ulp q ≤ f.mantissaBits + e - f.mantissaBits := ulp_le hne (by omega) hlt
    obtain ⟨d, hd⟩ : ∃ d : ℕ, e = d + f.ulp q := ⟨(e - f.ulp q).toNat, by omega⟩
    refine ⟨m * 2 ^ d, ?_⟩
    conv_lhs => rw [hq, hd, zpow_add₀ two_ne_zero, zpow_natCast]
    push_cast
    ring

/-- **Numbers are not changed by rounding.** -/
theorem Number.round_eq (h : f.Number q) : f.round q = q := by
  have hpos := two_zpow_pos (f.ulp q)
  obtain ⟨n, hn⟩ := h.exists_ulp
  have hint : q / 2 ^ f.ulp q = n := (div_eq_iff hpos.ne').mpr hn
  rw [round, hint, nearest_intCast, ← hn]

theorem ulp_neg (f : FloatFormat) (q : ℚ) : f.ulp (-q) = f.ulp q := by
  rw [ulp, ulp, abs_neg]

theorem abs_lt_two_zpow_ulp (f : FloatFormat) (q : ℚ) : |q| < 2 ^ (f.ulp q + f.mantissaBits + 1) := by
  rcases eq_or_ne q 0 with rfl | hne
  · rw [abs_zero]
    exact two_zpow_pos _
  · refine (Int.lt_zpow_iff_log_lt one_lt_two (abs_pos.mpr hne)).mpr ?_
    rw [ulp]
    omega

/-! ### Gaps -/

/-- Below a mantissa that is not the least one there are multiples of the last bit only. -/
theorem Number.le_of_lt {e : ℤ} (h : f.Number q) (hn : 2 ^ f.mantissaBits ≤ n)
    (hlt : q < (n + 1 : ℤ) * 2 ^ e) : q ≤ n * 2 ^ e := by
  have hpos := two_zpow_pos e
  obtain ⟨m, hm⟩ := h.exists_ulp
  by_cases hulp : e ≤ f.ulp q
  · obtain ⟨d, hd⟩ : ∃ d : ℕ, f.ulp q = d + e := ⟨(f.ulp q - e).toNat, by omega⟩
    have hmul : q = ((m * 2 ^ d : ℤ) : ℚ) * 2 ^ e := by
      conv_lhs => rw [hm, hd, zpow_add₀ two_ne_zero, zpow_natCast]
      push_cast
      ring
    rw [hmul] at hlt ⊢
    have hint : m * 2 ^ d < n + 1 := by exact_mod_cast lt_of_mul_lt_mul_right hlt hpos.le
    exact mul_le_mul_of_nonneg_right (by exact_mod_cast Int.lt_add_one_iff.mp hint) hpos.le
  · calc q ≤ |q| := le_abs_self q
      _ ≤ 2 ^ (f.mantissaBits + e) := (f.abs_lt_two_zpow_ulp q).le.trans
          (zpow_le_zpow_right₀ one_le_two (by omega))
      _ = 2 ^ f.mantissaBits * 2 ^ e := by rw [zpow_add₀ two_ne_zero, zpow_natCast]
      _ ≤ n * 2 ^ e := mul_le_mul_of_nonneg_right (by exact_mod_cast hn) hpos.le

/-- **The next number is one last bit away**: nothing lies above a normal number and below it. -/
theorem Number.above_le {h : ℚ} (hq : f.Number q) (hh : f.Number h) (hnormal : 2 ^ f.minExp ≤ h)
    (hlt : h < q) : h + 2 ^ f.ulp h ≤ q := by
  have hpos := two_zpow_pos (f.ulp h)
  have hh0 : 0 < h := lt_of_lt_of_le (two_zpow_pos _) hnormal
  obtain ⟨n, hn⟩ := hh.exists_ulp
  have hlog : f.ulp h + f.mantissaBits = Int.log 2 |h| := by
    have hle : f.minExp ≤ Int.log 2 |h| := by
      rw [abs_of_pos hh0]
      exact (Int.zpow_le_iff_le_log one_lt_two hh0).mp hnormal
    rw [ulp]
    omega
  have hmant : 2 ^ f.mantissaBits ≤ n := by
    have hle := Int.zpow_log_le_self (r := |h|) one_lt_two (abs_pos.mpr hh0.ne')
    rw [← hlog, abs_of_pos hh0, Nat.cast_ofNat, zpow_add₀ two_ne_zero, mul_comm] at hle
    conv_rhs at hle => rw [hn]
    have hcast := le_of_mul_le_mul_right hle hpos
    rw [zpow_natCast] at hcast
    exact_mod_cast hcast
  by_contra hbetween
  have hle := hq.le_of_lt hmant (e := f.ulp h) (by
    push_cast
    rw [add_mul, one_mul, ← hn]
    exact not_le.mp hbetween)
  rw [← hn] at hle
  exact absurd hlt (not_lt.mpr hle)

/-- Formats whose last bits are fractions. -/
def HasFractions (f : FloatFormat) : Prop := f.minExp < f.mantissaBits

instance (f : FloatFormat) : Decidable f.HasFractions := inferInstanceAs (Decidable (_ < _))

theorem number_intCast (hf : f.HasFractions) (h : |n| < 2 ^ (f.mantissaBits + 1)) :
    f.Number n :=
  ⟨n, 0, by rw [HasFractions] at hf; omega, h, by rw [zpow_zero, mul_one]⟩

theorem Number.neg (h : f.Number q) : f.Number (-q) := by
  obtain ⟨m, e, he, hm, rfl⟩ := h
  exact ⟨-m, e, he, by rwa [abs_neg], by push_cast; ring⟩

/-- The next number below a negative one is one last bit away as well. -/
theorem Number.le_below {h : ℚ} (hq : f.Number q) (hh : f.Number h) (hnormal : h ≤ -2 ^ f.minExp)
    (hlt : q < h) : q ≤ h - 2 ^ f.ulp h := by
  have habove := hq.neg.above_le hh.neg (by linarith) (neg_lt_neg hlt)
  rw [ulp_neg] at habove
  linarith

theorem Number.widen {g : FloatFormat} (h : f.Number q) (hm : f.mantissaBits ≤ g.mantissaBits)
    (he : g.minExp - g.mantissaBits ≤ f.minExp - f.mantissaBits) : g.Number q := by
  obtain ⟨m, e, he', hm', hq⟩ := h
  have hpow : (2 : ℤ) ^ (f.mantissaBits + 1) ≤ 2 ^ (g.mantissaBits + 1) :=
    pow_le_pow_right₀ one_le_two (by omega)
  exact ⟨m, e, he.trans he', lt_of_lt_of_le hm' hpow, hq⟩

theorem Number.cases (h : f.Number q) : (∃ n : ℤ, q = n) ∨ |q| < 2 ^ f.mantissaBits := by
  obtain ⟨m, e, he, hm, rfl⟩ := h
  by_cases h0 : 0 ≤ e
  · obtain ⟨d, rfl⟩ := Int.eq_ofNat_of_zero_le h0
    exact .inl ⟨m * 2 ^ d, by push_cast; rfl⟩
  · refine .inr ?_
    have hpos := two_zpow_pos e
    have hm' : |(m : ℚ)| < 2 ^ (f.mantissaBits + 1) := by exact_mod_cast hm
    have hle : (2 : ℚ) ^ e ≤ 2 ^ (-1 : ℤ) := zpow_le_zpow_right₀ one_le_two (by omega)
    calc |(m : ℚ) * 2 ^ e| = |(m : ℚ)| * 2 ^ e := by rw [abs_mul, abs_of_pos hpos]
      _ < 2 ^ (f.mantissaBits + 1) * 2 ^ e := mul_lt_mul_of_pos_right hm' hpos
      _ ≤ 2 ^ (f.mantissaBits + 1) * 2 ^ (-1 : ℤ) := mul_le_mul_of_nonneg_left hle (by positivity)
      _ = 2 ^ f.mantissaBits := by rw [pow_succ, zpow_neg_one]; ring

/-- **Large numbers are integers.** -/
theorem Number.isInt (h : f.Number q) (hq : 2 ^ f.mantissaBits ≤ |q|) : ∃ n : ℤ, q = n :=
  h.cases.resolve_right (not_lt.mpr hq)

/-! ### Fractions -/

theorem number_truncate (hf : f.HasFractions) (h : f.Number q) : f.Number (truncate q) := by
  rcases h.cases with ⟨n, rfl⟩ | hlt
  · rwa [truncate_intCast]
  · refine number_intCast hf ?_
    have hq : |(truncate q : ℚ)| < 2 ^ (f.mantissaBits + 1) :=
      lt_of_le_of_lt ((abs_truncate_le q).trans hlt.le)
        (pow_lt_pow_right₀ one_lt_two (Nat.lt_succ_self _))
    exact_mod_cast hq

/-- **Fractions are numbers.** -/
theorem number_sub_truncate (hf : f.HasFractions) (h : f.Number q) :
    f.Number (q - truncate q) := by
  rcases h.cases with ⟨n, rfl⟩ | hlt
  · rw [truncate_intCast, sub_self, ← Int.cast_zero]
    exact number_intCast hf (by rw [abs_zero]; positivity)
  · obtain ⟨m, e, he, hm, rfl⟩ := h
    by_cases h0 : 0 ≤ e
    · obtain ⟨d, rfl⟩ := Int.eq_ofNat_of_zero_le h0
      have hint : (m : ℚ) * 2 ^ (d : ℤ) = ((m * 2 ^ d : ℤ) : ℚ) := by
        rw [zpow_natCast]
        push_cast
        rfl
      rw [hint, truncate_intCast, sub_self, ← Int.cast_zero]
      exact number_intCast hf (by rw [abs_zero]; positivity)
    · -- the fraction is a multiple of the same power of two, and it is not larger
      obtain ⟨d, rfl⟩ : ∃ d : ℕ, e = -d := ⟨(-e).toNat, by omega⟩
      obtain ⟨t, ht⟩ : ∃ t, t = truncate ((m : ℚ) * 2 ^ (-(d : ℤ))) := ⟨_, rfl⟩
      have hpos := two_zpow_pos (-(d : ℤ))
      have hcancel : (2 : ℚ) ^ d * 2 ^ (-(d : ℤ)) = 1 := by
        rw [zpow_neg, zpow_natCast]
        exact mul_inv_cancel₀ (by positivity)
      have hfraction : (m : ℚ) * 2 ^ (-(d : ℤ)) - t = ((m - t * 2 ^ d : ℤ) : ℚ) * 2 ^ (-(d : ℤ)) := by
        push_cast
        rw [sub_mul, mul_assoc (t : ℚ), hcancel, mul_one]
      have hle := abs_sub_truncate_le ((m : ℚ) * 2 ^ (-(d : ℤ)))
      rw [← ht, hfraction, abs_mul, abs_mul, abs_of_pos hpos] at hle
      have hm' : |m - t * 2 ^ d| ≤ |m| := by exact_mod_cast le_of_mul_le_mul_right hle hpos
      exact ⟨m - t * 2 ^ d, -d, he, lt_of_le_of_lt hm' hm, by rw [← ht, hfraction]⟩

theorem Number.le_abs (h : f.Number q) (hq : q ≠ 0) : 2 ^ (f.minExp - f.mantissaBits) ≤ |q| := by
  obtain ⟨m, e, he, _, rfl⟩ := h
  have hpos := two_zpow_pos e
  have hm : 1 ≤ |m| := Int.one_le_abs fun h0 => hq (by rw [h0, Int.cast_zero, zero_mul])
  have hm' : (1 : ℚ) ≤ |(m : ℚ)| := by exact_mod_cast hm
  calc (2 : ℚ) ^ (f.minExp - f.mantissaBits) ≤ 2 ^ e := zpow_le_zpow_right₀ one_le_two he
    _ = 1 * 2 ^ e := (one_mul _).symm
    _ ≤ |(m : ℚ)| * 2 ^ e := mul_le_mul_of_nonneg_right hm' hpos.le
    _ = |(m : ℚ) * 2 ^ e| := by rw [abs_mul, abs_of_pos hpos]

/-! ### Bounds -/

theorem abs_round (q : ℚ) : |f.round q| = |(nearest (q / 2 ^ f.ulp q) : ℚ)| * 2 ^ f.ulp q := by
  rw [round, abs_mul, abs_of_pos (two_zpow_pos _)]

theorem two_zpow_eq_mul {j : ℤ} (h : f.ulp q ≤ j) :
    ∃ n : ℤ, (n : ℚ) * 2 ^ f.ulp q = 2 ^ j ∧ 0 ≤ n := by
  obtain ⟨d, hd⟩ : ∃ d : ℕ, j = d + f.ulp q := ⟨(j - f.ulp q).toNat, by omega⟩
  refine ⟨2 ^ d, ?_, by positivity⟩
  rw [hd, zpow_add₀ two_ne_zero, zpow_natCast]
  push_cast
  rfl

theorem abs_div_ulp (q : ℚ) : |q / 2 ^ f.ulp q| * 2 ^ f.ulp q = |q| := by
  have hpos := two_zpow_pos (f.ulp q)
  rw [abs_div, abs_of_pos hpos, div_mul_cancel₀ _ hpos.ne']

theorem two_zpow_le_abs_sub {m n k : ℤ} (h : m ≠ n) :
    (2 : ℚ) ^ k ≤ |(m : ℚ) * 2 ^ k - n * 2 ^ k| := by
  have hpos := two_zpow_pos k
  have hone : 1 ≤ |m - n| := Int.one_le_abs (sub_ne_zero.mpr h)
  have hone' : (1 : ℚ) ≤ |(m : ℚ) - n| := by exact_mod_cast hone
  rw [← sub_mul, abs_mul, abs_of_pos hpos]
  exact le_mul_of_one_le_left hpos.le hone'

/-- **Powers of two are bounds of rounded numbers.** -/
theorem abs_round_le {k : ℤ} (hk : f.minExp - f.mantissaBits ≤ k) (h : |q| ≤ 2 ^ k) :
    |f.round q| ≤ 2 ^ k := by
  rcases eq_or_ne q 0 with rfl | hq
  · rw [round_zero, abs_zero]
    exact (two_zpow_pos k).le
  · have hlog : Int.log 2 |q| < k + 1 :=
      (Int.lt_zpow_iff_log_lt one_lt_two (abs_pos.mpr hq)).mp
        (lt_of_le_of_lt h (zpow_lt_zpow_right₀ one_lt_two (lt_add_one k)))
    have hpos := two_zpow_pos (f.ulp q)
    obtain ⟨n, hn, _⟩ := two_zpow_eq_mul (f := f) (q := q) (j := k) (by rw [ulp]; omega)
    rw [← hn, ← abs_div_ulp (f := f) q] at h
    have hle := abs_le.mp (le_of_mul_le_mul_right h hpos)
    rw [← hn, abs_round]
    refine mul_le_mul_of_nonneg_right (abs_le.mpr ⟨?_, ?_⟩) hpos.le
    · exact_mod_cast le_nearest_of_le (n := -n) (by push_cast; exact hle.1)
    · exact_mod_cast nearest_le_of_le hle.2

theorem le_abs_round_of_ulp {j : ℤ} (hj : f.ulp q ≤ j) (h : 2 ^ j ≤ |q|) : 2 ^ j ≤ |f.round q| := by
  have hpos := two_zpow_pos (f.ulp q)
  obtain ⟨n, hn, hn0⟩ := two_zpow_eq_mul hj
  rw [← hn, ← abs_div_ulp (f := f) q] at h
  have hle := le_of_mul_le_mul_right h hpos
  rw [← hn, abs_round]
  refine mul_le_mul_of_nonneg_right ?_ hpos.le
  rcases le_abs.mp hle with hle | hle
  · have hnear : n ≤ nearest (q / 2 ^ f.ulp q) := le_nearest_of_le hle
    exact_mod_cast hnear.trans (le_abs_self _)
  · have hnear : nearest (q / 2 ^ f.ulp q) ≤ -n := nearest_le_of_le (by push_cast; linarith)
    exact_mod_cast (show n ≤ -nearest (q / 2 ^ f.ulp q) by omega).trans (neg_le_abs _)

theorem le_abs_round {k : ℤ} (hk : f.minExp - f.mantissaBits ≤ k) (h : 2 ^ k ≤ |q|) :
    2 ^ k ≤ |f.round q| := by
  have hq : 0 < |q| := lt_of_lt_of_le (two_zpow_pos k) h
  by_cases hulp : f.ulp q ≤ k
  · exact le_abs_round_of_ulp hulp h
  · -- the number is normal, and the power of two below it is a bound
    have hlog : f.ulp q ≤ Int.log 2 |q| := by
      rw [ulp] at hulp ⊢
      omega
    have hk' : k ≤ Int.log 2 |q| := (Int.zpow_le_iff_le_log one_lt_two hq).mp h
    exact (zpow_le_zpow_right₀ one_le_two hk').trans
      (le_abs_round_of_ulp hlog (Int.zpow_log_le_self one_lt_two hq))

theorem round_ne_zero (h : 2 ^ (f.minExp - f.mantissaBits) ≤ |q|) : f.round q ≠ 0 :=
  abs_pos.mp (lt_of_lt_of_le (two_zpow_pos _) (le_abs_round le_rfl h))

/-! ### Values -/

variable {w : ℕ} (b : BitVec w)

def Finite (f : FloatFormat) : Prop := f.exponent b ≠ BitVec.allOnes f.exponentBits

instance (f : FloatFormat) : Decidable (f.Finite b) := inferInstanceAs (Decidable (_ ≠ _))

def sign (f : FloatFormat) : ℤ := if b.getLsbD (f.mantissaBits + f.exponentBits) then -1 else 1

/-- The number that the bits of a finite number stand for. -/
def value (f : FloatFormat) : ℚ :=
  let m := (f.mantissa b).toNat
  let e := (f.exponent b).toNat
  if e = 0 then (f.sign b * m : ℤ) * 2 ^ (f.minExp - f.mantissaBits)
  else (f.sign b * (2 ^ f.mantissaBits + m) : ℤ) * 2 ^ (e - 1 + f.minExp - f.mantissaBits)

theorem abs_sign_mul (f : FloatFormat) (n : ℤ) : |f.sign b * n| = |n| := by
  rw [sign]
  split
  · rw [neg_one_mul, abs_neg]
  · rw [one_mul]

theorem Finite.exponent_lt {b : BitVec w} {f : FloatFormat} (h : f.Finite b) :
    ((f.exponent b).toNat : ℤ) < 2 ^ f.exponentBits - 1 := by
  have hne : (f.exponent b).toNat ≠ 2 ^ f.exponentBits - 1 := fun heq =>
    h (BitVec.eq_of_toNat_eq (by rw [heq, BitVec.toNat_allOnes]))
  have hlt : (f.exponent b).toNat < 2 ^ f.exponentBits - 1 := by
    have := (f.exponent b).isLt
    omega
  zify [Nat.one_le_two_pow (n := f.exponentBits)] at hlt
  exact hlt

/-- A value has a mantissa, and an exponent that is not larger than those of the format. -/
theorem value_eq (f : FloatFormat) : ∃ m e : ℤ, f.minExp - f.mantissaBits ≤ e ∧
    |m| < 2 ^ (f.mantissaBits + 1) ∧ f.value b = m * 2 ^ e ∧
    (f.Finite b → 2 ≤ f.exponentBits → e < 2 ^ (f.exponentBits - 1) - f.mantissaBits) := by
  have hpow : (2 : ℤ) ^ (f.mantissaBits + 1) = 2 * 2 ^ f.mantissaBits := by rw [pow_succ]; ring
  have hm : ((f.mantissa b).toNat : ℤ) < 2 ^ f.mantissaBits := by
    exact_mod_cast (f.mantissa b).isLt
  have hbias : 2 ≤ f.exponentBits → (2 : ℤ) ^ f.exponentBits = 2 * 2 ^ (f.exponentBits - 1) ∧
      (2 : ℤ) ≤ 2 ^ (f.exponentBits - 1) := by
    intro h
    refine ⟨by rw [← pow_succ', Nat.sub_add_cancel (by omega)], ?_⟩
    exact_mod_cast Nat.pow_le_pow_right two_pos (show 1 ≤ f.exponentBits - 1 by omega)
  rw [value]
  split
  · refine ⟨_, f.minExp - f.mantissaBits, le_rfl, ?_, rfl, ?_⟩
    · rw [abs_sign_mul, abs_of_nonneg (Int.natCast_nonneg _)]
      omega
    · intro _ h
      have := hbias h
      rw [minExp]
      omega
  · rename_i he
    refine ⟨_, (f.exponent b).toNat - 1 + f.minExp - f.mantissaBits, by omega, ?_, rfl, ?_⟩
    · rw [abs_sign_mul, abs_of_nonneg (by positivity)]
      omega
    · intro hfinite h
      have := hfinite.exponent_lt
      have := hbias h
      rw [minExp]
      omega

theorem number_value (f : FloatFormat) : f.Number (f.value b) := by
  obtain ⟨m, e, he, hm, hq, _⟩ := f.value_eq b
  exact ⟨m, e, he, hm, hq⟩

theorem Finite.abs_value_lt {b : BitVec w} {f : FloatFormat} (h : f.Finite b) (hbits : 2 ≤ f.exponentBits) :
    |f.value b| < 2 ^ (2 ^ (f.exponentBits - 1)) := by
  obtain ⟨m, e, he, hm, hq, hlt⟩ := f.value_eq b
  have hpos := two_zpow_pos e
  have hm' : |(m : ℚ)| < 2 ^ (f.mantissaBits + 1) := by exact_mod_cast hm
  rw [hq, abs_mul, abs_of_pos hpos]
  calc |(m : ℚ)| * 2 ^ e < 2 ^ (f.mantissaBits + 1) * 2 ^ e := mul_lt_mul_of_pos_right hm' hpos
    _ = 2 ^ ((f.mantissaBits + 1 : ℕ) + e) := by rw [zpow_add₀ two_ne_zero, zpow_natCast]
    _ ≤ 2 ^ ((2 ^ (f.exponentBits - 1) : ℕ) : ℤ) := by
        refine zpow_le_zpow_right₀ one_le_two ?_
        have := hlt h hbits
        push_cast
        omega
    _ = 2 ^ (2 ^ (f.exponentBits - 1)) := zpow_natCast _ _

/-! ### Powers of two -/

theorem abs_value (f : FloatFormat) : |f.value b| =
    if (f.exponent b).toNat = 0 then
      ((f.mantissa b).toNat : ℚ) * 2 ^ (f.minExp - f.mantissaBits : ℤ)
    else (2 ^ f.mantissaBits + (f.mantissa b).toNat : ℚ)
      * 2 ^ ((f.exponent b).toNat - 1 + f.minExp - f.mantissaBits : ℤ) := by
  rw [value]
  split
  · rw [abs_mul, abs_of_pos (two_zpow_pos _), ← Int.cast_abs, abs_sign_mul,
      abs_of_nonneg (Int.natCast_nonneg _), Int.cast_natCast]
  · rw [abs_mul, abs_of_pos (two_zpow_pos _), ← Int.cast_abs, abs_sign_mul,
      abs_of_nonneg (by positivity)]
    push_cast
    rfl

/-- **Without a mantissa, a number is a power of two.** -/
theorem exists_two_zpow {f : FloatFormat} (hm : f.mantissa b = 0#f.mantissaBits)
    (hq : f.value b ≠ 0) : ∃ k : ℤ, |f.value b| = 2 ^ k := by
  have habs := abs_value b f
  rw [hm, BitVec.toNat_ofNat, Nat.zero_mod, Nat.cast_zero, zero_mul, add_zero] at habs
  split at habs
  · exact absurd (abs_eq_zero.mp habs) hq
  · refine ⟨f.mantissaBits + ((f.exponent b).toNat - 1 + f.minExp - f.mantissaBits), ?_⟩
    rw [habs, zpow_add₀ two_ne_zero, zpow_natCast]

theorem mantissa_pos {f : FloatFormat} (hm : f.mantissa b ≠ 0#f.mantissaBits) :
    (0 : ℚ) < (f.mantissa b).toNat := by
  refine Nat.cast_pos.mpr (Nat.pos_of_ne_zero fun h => hm (BitVec.eq_of_toNat_eq ?_))
  rw [h, BitVec.toNat_ofNat, Nat.zero_mod]

theorem value_ne_zero {f : FloatFormat} (hm : f.mantissa b ≠ 0#f.mantissaBits) : f.value b ≠ 0 := by
  have hpos := mantissa_pos b hm
  rw [← abs_pos, abs_value b f]
  split
  · exact mul_pos hpos (two_zpow_pos _)
  · exact mul_pos (add_pos (by positivity) hpos) (two_zpow_pos _)

/-- **With a mantissa, only subnormal numbers are powers of two.** -/
theorem lt_minExp_of_mantissa {f : FloatFormat} (hm : f.mantissa b ≠ 0#f.mantissaBits) {k : ℤ}
    (hk : |f.value b| = 2 ^ k) : k < f.minExp := by
  have hpos := mantissa_pos b hm
  have hlt : ((f.mantissa b).toNat : ℚ) < 2 ^ f.mantissaBits := by exact_mod_cast (f.mantissa b).isLt
  have habs := (abs_value b f).symm.trans hk
  split at habs
  · have hlt' : (2 : ℚ) ^ k < 2 ^ f.minExp := by
      rw [← habs]
      calc ((f.mantissa b).toNat : ℚ) * 2 ^ (f.minExp - f.mantissaBits)
          < 2 ^ f.mantissaBits * 2 ^ (f.minExp - f.mantissaBits) :=
            mul_lt_mul_of_pos_right hlt (two_zpow_pos _)
        _ = 2 ^ f.minExp := by
            rw [← zpow_natCast, ← zpow_add₀ two_ne_zero, add_sub_cancel]
    exact (zpow_lt_zpow_iff_right₀ one_lt_two).mp hlt'
  · -- the mantissa lies between two powers of two
    exfalso
    obtain ⟨e, he⟩ : ∃ e : ℤ, e = (f.exponent b).toNat - 1 + f.minExp - f.mantissaBits := ⟨_, rfl⟩
    rw [← he] at habs
    have hmul : (2 : ℚ) ^ f.mantissaBits + (f.mantissa b).toNat = 2 ^ (k - e) := by
      rw [zpow_sub₀ two_ne_zero, eq_div_iff (two_zpow_pos e).ne', habs]
    have hgt : (2 : ℚ) ^ (f.mantissaBits : ℤ) < 2 ^ (k - e) := by
      rw [← hmul, zpow_natCast]
      linarith
    have hlt' : (2 : ℚ) ^ (k - e) < 2 ^ ((f.mantissaBits : ℤ) + 1) := by
      rw [← hmul, zpow_add_one₀ two_ne_zero, zpow_natCast]
      linarith
    have h1 := (zpow_lt_zpow_iff_right₀ one_lt_two).mp hgt
    have h2 := (zpow_lt_zpow_iff_right₀ one_lt_two).mp hlt'
    omega

end FloatFormat
