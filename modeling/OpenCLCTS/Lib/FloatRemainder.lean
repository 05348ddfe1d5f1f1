import OpenCLCTS.Lib.FloatFlags
import OpenCLCTS.Lib.Sticky

/-!
# Remainders

What is left by a division whose quotient is rounded to the nearest integer is a number of the
format, if the dividend is not much smaller than the divisor.

* `OnGrid.fits`, `onGrid_scaled`: mantissas that are scaled to [1, 2).
* `nearest_add`: the nearest integer, from a quotient that is rounded down.
* `fits_remainder`: the remainder.
-/

namespace FloatFormat

/-- Multiples of the last bits of mantissas, for `k = 0`, and of half of them, for `k = 1`. -/
def OnGrid (f : FloatFormat) (k : ℤ) (q : ℚ) : Prop := ∃ n : ℤ, q = n * 2 ^ (-f.mantissaBits - k)

/-- There is room for mantissas. -/
structure HasRoom (f : FloatFormat) : Prop where
  small : f.minExp + f.mantissaBits + 1 ≤ 0
  large : 4 ≤ f.magnitude f.finiteCount

section

variable {f : FloatFormat} {k : ℤ} {q t X Y : ℚ}

namespace OnGrid

theorem sub (hq : OnGrid f k q) (ht : OnGrid f k t) : OnGrid f k (q - t) := by
  obtain ⟨m, rfl⟩ := hq
  obtain ⟨n, rfl⟩ := ht
  exact ⟨m - n, by push_cast; ring⟩

theorem of_mul_two (hq : OnGrid f (k - 1) (2 * q)) : OnGrid f k q := by
  obtain ⟨n, hn⟩ := hq
  refine ⟨n, ?_⟩
  rw [show -(f.mantissaBits : ℤ) - (k - 1) = -f.mantissaBits - k + 1 by ring,
    zpow_add_one₀ two_ne_zero] at hn
  linarith

theorem mul_two (hq : OnGrid f k q) : OnGrid f (k - 1) (2 * q) := by
  obtain ⟨n, rfl⟩ := hq
  refine ⟨n, ?_⟩
  rw [show -(f.mantissaBits : ℤ) - (k - 1) = -f.mantissaBits - k + 1 by ring,
    zpow_add_one₀ two_ne_zero]
  ring

theorem succ (hq : OnGrid f k q) : OnGrid f (k + 1) q := by
  obtain ⟨n, rfl⟩ := hq
  refine ⟨2 * n, ?_⟩
  rw [show -(f.mantissaBits : ℤ) - k = -f.mantissaBits - (k + 1) + 1 by ring,
    zpow_add_one₀ two_ne_zero]
  push_cast
  ring

/-- **Mantissas fit.** -/
theorem fits (hf : HasRoom f) (hk : -1 ≤ k) (hk' : k ≤ 1) (hq : OnGrid f k q)
    (h : |q| < 2 ^ (1 - k)) : f.Fits q := by
  obtain ⟨n, rfl⟩ := hq
  have hsmall := hf.small
  refine ⟨number_of_lt (by omega) ?_, ?_⟩
  · rwa [show -(f.mantissaBits : ℤ) - k + f.mantissaBits + 1 = 1 - k by ring]
  · have hle : (2 : ℚ) ^ (1 - k) ≤ 2 ^ (2 : ℤ) := zpow_le_zpow_right₀ one_le_two (by omega)
    have hlarge := hf.large
    have hfour : (2 : ℚ) ^ (2 : ℤ) = 4 := by norm_num
    linarith

theorem le_abs (hf : HasRoom f) (hq : OnGrid f 1 q) (h : q ≠ 0) : 2 ^ f.minExp ≤ |q| := by
  obtain ⟨n, rfl⟩ := hq
  have hsmall := hf.small
  have hpos := two_zpow_pos (-f.mantissaBits - 1)
  have hn : n ≠ 0 := by
    rintro rfl
    exact h (by rw [Int.cast_zero, zero_mul])
  have hone : (1 : ℚ) ≤ |(n : ℚ)| := by exact_mod_cast Int.one_le_abs hn
  rw [abs_mul, abs_of_pos hpos]
  exact (zpow_le_zpow_right₀ one_le_two (by omega)).trans (le_mul_of_one_le_left hpos.le hone)

end OnGrid

/-- **A mantissa** that is scaled. -/
theorem onGrid_scaled (h : f.Number X) (hX : 0 < X) : OnGrid f 0 (X * 2 ^ (-Int.log 2 X)) ∧
    1 ≤ X * 2 ^ (-Int.log 2 X) ∧ X * 2 ^ (-Int.log 2 X) < 2 := by
  have hle := Int.zpow_log_le_self (r := X) one_lt_two hX
  have hlt := Int.lt_zpow_succ_log_self one_lt_two X
  obtain ⟨n, hn⟩ := h.exists_of_le_ulp (u := Int.log 2 X - f.mantissaBits)
    (by rw [ulp, abs_of_pos hX]; omega)
  generalize Int.log 2 X = e at hle hlt hn ⊢
  have hpos := two_zpow_pos (-e)
  have hcancel : (2 : ℚ) ^ e * 2 ^ (-e) = 1 := by
    rw [← zpow_add₀ two_ne_zero, add_neg_cancel, zpow_zero]
  refine ⟨⟨n, ?_⟩, ?_, ?_⟩
  · rw [hn, mul_assoc, ← zpow_add₀ two_ne_zero]
    congr 2
    ring
  · have hmul := mul_le_mul_of_nonneg_right hle hpos.le
    rw [Nat.cast_ofNat, hcancel] at hmul
    exact hmul
  · have hmul := mul_lt_mul_of_pos_right hlt hpos
    rw [Nat.cast_ofNat, zpow_add_one₀ two_ne_zero, mul_right_comm, hcancel, one_mul] at hmul
    exact hmul

theorem nearest_add (Q : ℕ) (h0 : 0 ≤ t) (h1 : t ≤ 1) :
    nearest (Q + t) = Q + if 1 / 2 < t ∨ t = 1 / 2 ∧ Q % 2 = 1 then 1 else 0 := by
  rcases lt_or_eq_of_le h1 with hlt | rfl
  · have hfloor : ⌊(Q : ℚ) + t⌋ = Q := by
      rw [Int.floor_eq_iff]
      constructor
      · push_cast
        linarith
      · push_cast
        linarith
    have hodd : (Q : ℤ) % 2 = 1 ↔ Q % 2 = 1 := by omega
    rw [nearest, hfloor, Int.cast_natCast, add_sub_cancel_left]
    simp only [hodd]
    split
    · rfl
    · rw [add_zero]
  · rw [if_pos (.inl (by norm_num))]
    exact_mod_cast nearest_intCast (Q + 1)

/-- **The remainder fits**, if the dividend is not too small. -/
theorem fits_remainder (hX : f.Fits X) (hY : f.Fits Y) (hX0 : 0 < X) (hY0 : 0 < Y)
    (hlog : Int.log 2 Y ≤ Int.log 2 X + 1) : f.Fits (X - nearest (X / Y) * Y) := by
  have hle : |X - nearest (X / Y) * Y| ≤ Y / 2 := by
    have habs := mul_le_mul_of_nonneg_right (abs_nearest_sub_le (X / Y)) hY0.le
    have hmul : ((nearest (X / Y) : ℚ) - X / Y) * Y = -(X - nearest (X / Y) * Y) := by
      rw [sub_mul, div_mul_cancel₀ _ hY0.ne']
      ring
    have hdist : |(nearest (X / Y) : ℚ) - X / Y| * Y = |X - nearest (X / Y) * Y| := by
      rw [← abs_neg (X - _), ← hmul, abs_mul, abs_of_pos hY0]
    linarith
  obtain ⟨u, hu⟩ : ∃ u, u = min (f.ulp X) (f.ulp Y) := ⟨_, rfl⟩
  have hulp : f.ulp Y ≤ u + 1 := by
    rw [hu, ulp, ulp, abs_of_pos hX0, abs_of_pos hY0]
    omega
  have hgeX := f.ulp_ge X
  have hgeY := f.ulp_ge Y
  obtain ⟨a, ha⟩ := hX.1.exists_of_le_ulp (u := u) (by omega)
  obtain ⟨b, hb⟩ := hY.1.exists_of_le_ulp (u := u) (by omega)
  have hlt : |X - nearest (X / Y) * Y| < 2 ^ (u + f.mantissaBits + 1) := by
    have hltY := f.abs_lt_two_zpow_ulp Y
    have hpow : (2 : ℚ) ^ (f.ulp Y + f.mantissaBits) ≤ 2 ^ (u + f.mantissaBits + 1) :=
      zpow_le_zpow_right₀ one_le_two (by omega)
    rw [abs_of_pos hY0, zpow_add_one₀ two_ne_zero] at hltY
    linarith
  have hrest : X - nearest (X / Y) * Y = (a - nearest (X / Y) * b : ℤ) * 2 ^ u := by
    generalize nearest (X / Y) = n
    rw [ha, hb]
    push_cast
    ring
  refine ⟨?_, hle.trans_lt (lt_of_lt_of_le ?_ ((le_abs_self Y).trans hY.2.le))⟩
  · rw [hrest] at hlt ⊢
    exact number_of_lt (by omega) hlt
  · linarith

theorem remainder_eq (x y : ℚ) : (nearest (x / y)).natAbs = (nearest (|x| / |y|)).natAbs ∧
    x - nearest (x / y) * y = if x < 0 then -(|x| - nearest (|x| / |y|) * |y|)
      else |x| - nearest (|x| / |y|) * |y| := by
  rcases lt_or_ge x 0 with hx | hx
  · rw [if_pos hx, abs_of_neg hx]
    rcases lt_or_ge y 0 with hy | hy
    · rw [abs_of_neg hy, neg_div_neg_eq]
      exact ⟨rfl, by ring⟩
    · rw [abs_of_nonneg hy, neg_div, nearest_neg, Int.natAbs_neg]
      exact ⟨rfl, by push_cast; ring⟩
  · rw [if_neg hx.not_gt, abs_of_nonneg hx]
    rcases lt_or_ge y 0 with hy | hy
    · rw [abs_of_neg hy, div_neg, nearest_neg, Int.natAbs_neg]
      exact ⟨rfl, by push_cast; ring⟩
    · rw [abs_of_nonneg hy]
      exact ⟨rfl, rfl⟩

theorem div_neg_iff_decide {x y : ℚ} (hx : x ≠ 0) (hy : y ≠ 0) :
    x / y < 0 ↔ decide (x < 0) ≠ decide (y < 0) := by
  rw [div_neg_iff, ne_eq, decide_eq_decide]
  rcases lt_or_gt_of_ne hx with hx | hx
  · rcases lt_or_gt_of_ne hy with hy | hy
    · simp [hx, hy, hx.not_gt, hy.not_gt]
    · simp [hx, hy, hy.not_gt]
  · rcases lt_or_gt_of_ne hy with hy | hy
    · simp [hx, hy, hx.not_gt]
    · simp [hx.not_gt, hy.not_gt]

end

end FloatFormat
