import Mathlib.Data.Int.ConditionallyCompleteOrder
import Mathlib.Order.CompletePartialOrder
import OpenCLCTS.Lib.FloatRounding

/-!
# Rounding modes

The four modes in which the arithmetic of a binary format rounds, and integers in these modes.

* `Number.roundIn_eq`: numbers are not changed by rounding.
* `roundIn_add_sub`, `Number.magic_eq`: adding and subtracting a magic number rounds to an integer,
  in every mode.
-/

namespace FloatFormat

/-- The modes of the arithmetic. -/
inductive Mode
  | toNearest
  | upward
  | downward
  | towardZero
  deriving DecidableEq

/-- The integer that a mode takes a number to. -/
def Mode.toInt : Mode → ℚ → ℤ
  | .toNearest => nearest
  | .upward => Int.ceil
  | .downward => Int.floor
  | .towardZero => truncate

/-- The number of the format that a mode takes a number to. -/
def roundIn (f : FloatFormat) (mode : Mode) (q : ℚ) : ℚ :=
  mode.toInt (q / 2 ^ f.ulp q) * 2 ^ f.ulp q

variable {f : FloatFormat} {mode : Mode} {q : ℚ} {n : ℤ}

/-! ### Integers -/

@[simp]
theorem Mode.toInt_intCast (mode : Mode) (n : ℤ) : mode.toInt n = n := by
  cases mode with
  | toNearest => exact nearest_intCast n
  | upward => exact Int.ceil_intCast n
  | downward => exact Int.floor_intCast n
  | towardZero => exact truncate_intCast n

theorem Mode.le_toInt (mode : Mode) (h : (n : ℚ) ≤ q) : n ≤ mode.toInt q := by
  cases mode with
  | toNearest => exact le_nearest_of_le h
  | upward => exact_mod_cast h.trans (Int.le_ceil q)
  | downward => exact Int.le_floor.mpr h
  | towardZero =>
    rw [Mode.toInt, truncate]
    split
    · exact_mod_cast h.trans (Int.le_ceil q)
    · exact Int.le_floor.mpr h

theorem Mode.toInt_le (mode : Mode) (h : q ≤ n) : mode.toInt q ≤ n := by
  cases mode with
  | toNearest => exact nearest_le_of_le h
  | upward => exact Int.ceil_le.mpr h
  | downward => exact_mod_cast (Int.floor_le q).trans h
  | towardZero =>
    rw [Mode.toInt, truncate]
    split
    · exact Int.ceil_le.mpr h
    · exact_mod_cast (Int.floor_le q).trans h

theorem Mode.toInt_mono (mode : Mode) : Monotone mode.toInt := by
  intro q r h
  cases mode with
  | toNearest =>
    rw [Mode.toInt, nearest_le_iff]
    rcases nearest_le_iff.mp (le_refl (nearest r)) with hr | ⟨hr, heven⟩
    · exact .inl (h.trans_lt hr)
    · rcases lt_or_eq_of_le h with hlt | heq
      · exact .inl (hr ▸ hlt)
      · exact .inr ⟨heq.trans hr, heven⟩
  | upward => exact Int.ceil_mono h
  | downward => exact Int.floor_mono h
  | towardZero =>
    rw [Mode.toInt]
    rcases le_total 0 r with hr | hr
    · rcases le_total 0 q with hq | hq
      · rw [truncate_of_nonneg hq, truncate_of_nonneg hr]
        exact Int.floor_mono h
      · rw [truncate_of_nonpos hq, truncate_of_nonneg hr]
        exact (Int.ceil_le.mpr (by exact_mod_cast hq)).trans (Int.floor_nonneg.mpr hr)
    · rw [truncate_of_nonpos (h.trans hr), truncate_of_nonpos hr]
      exact Int.ceil_mono h

theorem Mode.abs_toInt_le (mode : Mode) (h : |q| ≤ n) : |mode.toInt q| ≤ n := by
  rw [abs_le] at h ⊢
  exact ⟨mode.le_toInt (by push_cast; exact h.1), mode.toInt_le h.2⟩

/-- **Numbers are not changed by rounding.** -/
theorem Number.roundIn_eq (h : f.Number q) : f.roundIn mode q = q := by
  have hpos := two_zpow_pos (f.ulp q)
  obtain ⟨n, hn⟩ := h.exists_ulp
  have hint : q / 2 ^ f.ulp q = n := (div_eq_iff hpos.ne').mpr hn
  rw [roundIn, hint, Mode.toInt_intCast, ← hn]

/-- **What is rounded is a number.** -/
theorem number_roundIn (f : FloatFormat) (mode : Mode) (q : ℚ) : f.Number (f.roundIn mode q) := by
  have hpos := two_zpow_pos (f.ulp q)
  have hulp : f.minExp - f.mantissaBits ≤ f.ulp q := by
    rw [ulp]
    omega
  have hlt : |q / 2 ^ f.ulp q| ≤ (2 ^ (f.mantissaBits + 1) : ℤ) := by
    have habs := f.abs_lt_two_zpow_ulp q
    rw [add_assoc, zpow_add₀ two_ne_zero, mul_comm] at habs
    rw [abs_div, abs_of_pos hpos, div_le_iff₀ hpos]
    push_cast
    exact_mod_cast habs.le
  have hmant := mode.abs_toInt_le hlt
  rcases lt_or_eq_of_le hmant with hmant | hmant
  · exact ⟨_, f.ulp q, hulp, hmant, rfl⟩
  · -- the last bit of a power of two is the next one
    obtain ⟨s, hs, hsign⟩ : ∃ s : ℤ, |s| = 1 ∧
        mode.toInt (q / 2 ^ f.ulp q) = s * 2 ^ f.mantissaBits * 2 := by
      rw [pow_succ] at hmant
      rcases abs_choice (mode.toInt (q / 2 ^ f.ulp q)) with h | h
      · exact ⟨1, rfl, by rw [← h, hmant, one_mul]⟩
      · exact ⟨-1, rfl, by rw [← neg_eq_iff_eq_neg.mpr h, hmant]; ring⟩
    refine ⟨s * 2 ^ f.mantissaBits, f.ulp q + 1, by omega, ?_, ?_⟩
    · rw [abs_mul, hs, one_mul, abs_of_nonneg (by positivity)]
      exact pow_lt_pow_right₀ one_lt_two (Nat.lt_succ_self _)
    · rw [roundIn, hsign, zpow_add_one₀ two_ne_zero]
      push_cast
      ring

/-! ### Magic numbers -/

theorem nearest_add_even (q : ℚ) (k : ℤ) : nearest (q + (2 * k : ℤ)) = nearest q + 2 * k := by
  have hmod : (⌊q⌋ + 2 * k) % 2 = ⌊q⌋ % 2 := by omega
  rw [nearest, nearest, Int.floor_add_intCast, hmod, Int.cast_add, add_sub_add_right_eq_sub]
  split <;> ring

theorem truncate_add_intCast (h : q < 0 ↔ q + n < 0) : truncate (q + n) = truncate q + n := by
  rw [truncate, truncate, Int.ceil_add_intCast, Int.floor_add_intCast]
  by_cases hq : q < 0
  · rw [if_pos hq, if_pos (h.mp hq)]
  · rw [if_neg hq, if_neg fun h' => hq (h.mpr h')]

/-- Even integers with the sign of a number do not change how it is rounded. -/
theorem Mode.toInt_add (mode : Mode) (k : ℤ) (h : q < 0 ↔ q + (2 * k : ℤ) < 0) :
    mode.toInt (q + (2 * k : ℤ)) = mode.toInt q + 2 * k := by
  cases mode with
  | toNearest => exact nearest_add_even q k
  | upward => exact Int.ceil_add_intCast q (2 * k)
  | downward => exact Int.floor_add_intCast q (2 * k)
  | towardZero => exact truncate_add_intCast h

theorem roundIn_eq_toInt (hf : f.HasFractions) (h : 2 ^ f.mantissaBits ≤ |q|)
    (h' : |q| < 2 ^ (f.mantissaBits + 1)) : f.roundIn mode q = mode.toInt q := by
  rw [HasFractions] at hf
  have hpos : 0 < |q| := lt_of_lt_of_le (by positivity) h
  have hlt : Int.log 2 |q| < (f.mantissaBits : ℤ) + 1 :=
    (Int.lt_zpow_iff_log_lt one_lt_two hpos).mp (by exact_mod_cast h')
  have hle : (f.mantissaBits : ℤ) ≤ Int.log 2 |q| :=
    (Int.zpow_le_iff_le_log one_lt_two hpos).mp (by exact_mod_cast h)
  have hulp : f.ulp q = 0 := by
    rw [ulp]
    omega
  rw [roundIn, hulp, zpow_zero, div_one, mul_one]

/-- **Adding a large number and subtracting it again leaves an integer**, the one of the mode, if
the large number has the sign of the small one. -/
theorem roundIn_add_sub (mode : Mode) (hf : f.HasFractions) (hbits : 0 < f.mantissaBits) {magic : ℤ}
    (hmagic : magic = if q < 0 then -2 ^ f.mantissaBits else 2 ^ f.mantissaBits)
    (hq : |q| < 2 ^ f.mantissaBits) :
    f.roundIn mode (f.roundIn mode (q + magic) - magic) = mode.toInt q := by
  have heven : ∃ k : ℤ, magic = 2 * k := by
    obtain ⟨d, hd⟩ : ∃ d, f.mantissaBits = d + 1 := ⟨f.mantissaBits - 1, by omega⟩
    rw [hmagic, hd]
    split
    · exact ⟨-2 ^ d, by ring⟩
    · exact ⟨2 ^ d, by ring⟩
  obtain ⟨k, hk⟩ := heven
  have hpow : (2 : ℚ) ^ (f.mantissaBits + 1) = 2 * 2 ^ f.mantissaBits := by rw [pow_succ]; ring
  have hsum : 2 ^ f.mantissaBits ≤ |q + magic| ∧ |q + magic| < 2 ^ (f.mantissaBits + 1) ∧
      (q < 0 ↔ q + magic < 0) := by
    rw [hpow]
    rw [abs_lt] at hq
    rw [hmagic]
    split
    · rename_i h
      push_cast
      rw [abs_of_neg (by linarith)]
      exact ⟨by linarith, by linarith, iff_of_true h (by linarith)⟩
    · rename_i h
      push_cast
      rw [abs_of_pos (by linarith)]
      exact ⟨by linarith, by linarith, iff_of_false h (by linarith)⟩
  have hint : |mode.toInt q| ≤ 2 ^ f.mantissaBits := mode.abs_toInt_le (by exact_mod_cast hq.le)
  rw [hk] at hsum
  rw [hk, roundIn_eq_toInt hf hsum.1 hsum.2.1, mode.toInt_add k hsum.2.2, Int.cast_add,
    add_sub_cancel_right]
  refine (number_intCast hf (lt_of_le_of_lt hint ?_)).roundIn_eq
  exact pow_lt_pow_right₀ one_lt_two (Nat.lt_succ_self _)

/-- Numbers that are too large for this are integers already. -/
theorem Number.magic_eq (mode : Mode) (hf : f.HasFractions) (hbits : 0 < f.mantissaBits) {magic : ℤ}
    (hmagic : magic = if q < 0 then -2 ^ f.mantissaBits else 2 ^ f.mantissaBits)
    (h : f.Number q) :
    (if |q| < 2 ^ f.mantissaBits then f.roundIn mode (f.roundIn mode (q + magic) - magic) else q)
      = mode.toInt q := by
  split
  · rename_i hlt
    exact roundIn_add_sub mode hf hbits hmagic hlt
  · rename_i hge
    obtain ⟨n, rfl⟩ := h.isInt (not_lt.mp hge)
    rw [Mode.toInt_intCast]

theorem round_add_sub (hf : f.HasFractions) (hbits : 0 < f.mantissaBits) {magic : ℤ}
    (hmagic : magic = if q < 0 then -2 ^ f.mantissaBits else 2 ^ f.mantissaBits)
    (hq : |q| < 2 ^ f.mantissaBits) :
    f.round (f.round (q + magic) - magic) = nearest q :=
  roundIn_add_sub .toNearest hf hbits hmagic hq

end FloatFormat
