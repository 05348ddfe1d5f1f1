import OpenCLCTS.Lib.Sticky

/-!
# Sums of significands

Significands of `t + 1` bits with their leading bit are added or subtracted after the smaller one is
shifted to the right with a sticky bit.  The result is normalized, and rounded to a format.

* `Aligned.add`, `Aligned.add_carry`, `Aligned.sub`: the exact result is on the same side.
* `normalizeLoop_eq`: the leading bit is found by bisection.
* `magnitudeOf_normal`, `magnitudeOf_subnormal`: the bits of a significand that is rounded.
-/

open FloatFormat

/-! ### Addition and subtraction -/

/-- A significand `m`, and the exact one and the shifted one of the other summand. -/
structure Aligned (t i m : ℕ) (x : ℚ) (n : ℕ) : Prop where
  lead : 2 ^ t ≤ m
  lt : m < 2 ^ (t + 1)
  unit : 1 ≤ i
  unit_lt : i < t
  dvd : 2 ^ i ∣ m
  side : SameSide (2 ^ i) x n
  small : x = n ∨ x < 2 ^ (t - 1)

namespace Aligned

variable {t i m n j : ℕ} {x : ℚ}

theorem sideInt (h : Aligned t i m x n) : SameSide (2 ^ (i : ℤ)) x n := by
  rw [zpow_natCast]
  exact h.side

theorem add (h : Aligned t i m x n) : SameSide (2 ^ i) (m + x) (m + n : ℕ) := by
  obtain ⟨k, hk⟩ := h.dvd
  have hadd := h.side.add k
  have hm : ((k : ℤ) : ℚ) * 2 ^ i = m := by
    rw [hk]
    push_cast
    ring
  rw [hm] at hadd
  push_cast
  exact hadd

/-- **The exact sum**, if there is a carry. -/
theorem add_carry (h : Aligned t i m x n) : SameSide (2 ^ i) ((m + x) / 2) (jam (m + n) 1) := by
  obtain ⟨k, hk⟩ : ∃ k, i = k + 1 := ⟨i - 1, by have := h.unit; omega⟩
  have hhalf := (h.add.mul_right (k := 1 / 2) (by norm_num)).of_mul 2
  have hjam := (sameSide_jam (m + n) 1).of_mul (2 ^ k)
  have hunit : ((2 : ℤ) : ℚ) * (2 ^ i * (1 / 2)) = 2 ^ i := by
    push_cast
    ring
  have hunit' : ((2 ^ k : ℤ) : ℚ) * 2 = 2 ^ i := by
    rw [hk]
    push_cast
    ring
  rw [hunit, mul_one_div, mul_one_div] at hhalf
  rw [hunit', pow_one] at hjam
  exact hhalf.trans hjam

theorem lt_of_ne (h : Aligned t i m x n) (hx : x ≠ n) : x < 2 ^ (t - 1) ∧ n < 2 ^ (t - 1) := by
  have hlt := h.small.resolve_left hx
  have hunit := h.unit_lt
  refine ⟨hlt, ?_⟩
  rw [← zpow_natCast, h.sideInt.lt_zpow_iff (by omega), zpow_natCast] at hlt
  exact_mod_cast hlt

theorem lt_iff (h : Aligned t i m x n) : (m < n ↔ (m : ℚ) < x) ∧ (m = n ↔ (m : ℚ) = x) := by
  by_cases hx : x = n
  · rw [hx, Nat.cast_lt, Nat.cast_inj]
    exact ⟨Iff.rfl, Iff.rfl⟩
  · obtain ⟨hlt, hlt'⟩ := h.lt_of_ne hx
    have hpow : (2 : ℕ) ^ (t - 1) ≤ m :=
      (Nat.pow_le_pow_right two_pos (Nat.sub_le t 1)).trans h.lead
    have hpow' : (2 : ℚ) ^ (t - 1) ≤ m := by exact_mod_cast hpow
    exact ⟨iff_of_false (by omega) (by linarith), iff_of_false (by omega) (by linarith)⟩

/-- **The exact difference**, after the leading bit is at its place. -/
theorem sub (h : Aligned t i m x n) (hlt : (m - n : ℤ).natAbs * 2 ^ j < 2 ^ (t + 1)) :
    SameSide (2 ^ (i + 1)) (|m - x| * 2 ^ j) ((m - n : ℤ).natAbs * 2 ^ j : ℕ) := by
  have hcast : (((m - n : ℤ).natAbs * 2 ^ j : ℕ) : ℚ) = |(m : ℚ) - n| * 2 ^ j := by
    push_cast
    rw [← Int.cast_natCast, Int.natCast_natAbs]
    push_cast
    rfl
  rw [hcast]
  by_cases hx : x = n
  · rw [hx]
  · -- at most one bit is cancelled
    obtain ⟨-, hn⟩ := h.lt_of_ne hx
    have hlead := h.lead
    have hunit := h.unit_lt
    have hj : j ≤ 1 := by
      by_contra hj
      have htwo : 2 ^ (t + 1) = 2 ^ (t - 1) * 2 ^ 2 := by rw [← Nat.pow_add]; congr 1; omega
      have hone : 2 ^ t = 2 ^ (t - 1) * 2 := by rw [← Nat.pow_succ]; congr 1; omega
      have hge : 2 ^ (t - 1) * 2 ^ 2 ≤ (m - n : ℤ).natAbs * 2 ^ j :=
        Nat.mul_le_mul (by omega) (Nat.pow_le_pow_right two_pos (by omega))
      omega
    obtain ⟨k, hk⟩ := h.dvd
    have hsub := ((h.side.sub k).abs.mul_right (k := 2 ^ j) (by positivity)).of_mul (2 ^ (1 - j))
    have hm : ((k : ℤ) : ℚ) * 2 ^ i = m := by
      rw [hk]
      push_cast
      ring
    have hpow : (((2 : ℤ) ^ (1 - j) : ℤ) : ℚ) * (2 ^ i * 2 ^ j) = 2 ^ (i + 1) := by
      push_cast
      rw [← pow_add, ← pow_add]
      congr 1
      omega
    rwa [hm, hpow] at hsub

end Aligned

/-- The factor of a sign. -/
def sgn (neg : Bool) : ℚ := if neg then -1 else 1

/-- A normalized significand with its sign and exponent that is as good as the exact sum `v`, for
roundings to multiples of `2 ^ (e - t + k + 1)` and more. -/
structure IsSum (t k : ℕ) (v : ℚ) (m : ℕ) (neg : Bool) (e : ℤ) : Prop where
  lead : 2 ^ t ≤ m
  lt : m < 2 ^ (t + 1)
  ne_zero : v ≠ 0
  neg_eq : neg = decide (v < 0)
  side : SameSide (2 ^ (e - t + k)) |v| (m * 2 ^ (e - t))

theorem sgn_xor (s s' : Bool) : sgn (s ^^ s') = sgn s * sgn s' := by
  cases s <;> cases s' <;> simp [sgn]

theorem abs_sgn_mul (neg : Bool) (x : ℚ) : |sgn neg * x| = |x| := by
  cases neg <;> simp [sgn]

theorem sgn_mul_neg_iff {x : ℚ} (hx : 0 < x) (neg : Bool) :
    (sgn neg * x ≠ 0) ∧ neg = decide (sgn neg * x < 0) := by
  cases neg with
  | true => exact ⟨by simp [sgn, hx.ne'], by simp [sgn, hx]⟩
  | false => exact ⟨by simp [sgn, hx.ne'], by simp [sgn, hx.le]⟩

namespace Aligned

variable {t i m n j : ℕ} {x : ℚ} {e : ℤ}

theorem side_mul {k : ℕ} {y z : ℚ} (h : SameSide (2 ^ k) y z) (c : ℤ) :
    SameSide (2 ^ (c + k)) (y * 2 ^ c) (z * 2 ^ c) := by
  have hmul := h.mul_right (two_zpow_pos c)
  rwa [← zpow_natCast, ← zpow_add₀ two_ne_zero, add_comm (k : ℤ)] at hmul

theorem pos (h : Aligned t i m x n) : (0 : ℚ) < m := by
  exact_mod_cast lt_of_lt_of_le (Nat.two_pow_pos t) h.lead

/-- **A sum without a carry.** -/
theorem isSum_add (h : Aligned t i m x n) (hx : 0 ≤ x) (neg : Bool) (e : ℤ)
    (hlt : m + n < 2 ^ (t + 1)) :
    IsSum t (i + 1) ((sgn neg * m + sgn neg * x) * 2 ^ (e - t)) (m + n) neg e := by
  have hpos := mul_pos (add_pos_of_pos_of_nonneg h.pos hx) (two_zpow_pos (e - t))
  have hsign := sgn_mul_neg_iff hpos neg
  rw [← mul_add, mul_assoc]
  refine ⟨h.lead.trans (Nat.le_add_right m n), hlt, hsign.1, hsign.2, ?_⟩
  rw [abs_sgn_mul, abs_of_pos hpos]
  exact (side_mul h.add (e - t)).of_zpow (by push_cast; omega)

/-- **A sum with a carry.** -/
theorem isSum_carry (h : Aligned t i m x n) (hx : 0 ≤ x) (neg : Bool) (e : ℤ)
    (hle : 2 ^ (t + 1) ≤ m + n) (hlt : jam (m + n) 1 < 2 ^ (t + 1)) :
    IsSum t (i + 1) ((sgn neg * m + sgn neg * x) * 2 ^ (e - t)) (jam (m + n) 1) neg (e + 1) := by
  have hpos := mul_pos (add_pos_of_pos_of_nonneg h.pos hx) (two_zpow_pos (e - t))
  have hsign := sgn_mul_neg_iff hpos neg
  have hlead : 2 ^ t ≤ jam (m + n) 1 := by
    have hor : (m + n) / 2 ^ 1 ≤ jam (m + n) 1 := Nat.left_le_or
    rw [Nat.pow_succ] at hle
    omega
  have hexp : (m + x) * 2 ^ (e - t) = (m + x) / 2 * 2 ^ (e + 1 - t) := by
    rw [show e + 1 - (t : ℤ) = e - t + 1 by ring, zpow_add_one₀ two_ne_zero]
    ring
  rw [← mul_add, mul_assoc]
  refine ⟨hlead, hlt, hsign.1, hsign.2, ?_⟩
  rw [abs_sgn_mul, abs_of_pos hpos, hexp]
  exact (side_mul h.add_carry (e + 1 - t)).of_zpow (by push_cast; omega)

/-- **A sum**, where a carry is shifted into the significand. -/
theorem isSum_of_add (h : Aligned t i m x n) (hx : 0 ≤ x) (neg : Bool) {r : ℕ} {e' : ℤ}
    (hlt : r < 2 ^ (t + 1)) (hadd : m + n < 2 ^ (t + 1) → r = m + n ∧ e' = e)
    (hcarry : 2 ^ (t + 1) ≤ m + n → r = jam (m + n) 1 ∧ e' = e + 1) :
    IsSum t (i + 1) ((sgn neg * m + sgn neg * x) * 2 ^ (e - t)) r neg e' := by
  rcases Nat.lt_or_ge (m + n) (2 ^ (t + 1)) with hsmall | hlarge
  · obtain ⟨rfl, rfl⟩ := hadd hsmall
    exact h.isSum_add hx neg e' hlt
  · obtain ⟨rfl, rfl⟩ := hcarry hlarge
    exact h.isSum_carry hx neg e hlarge hlt

/-- **A difference.** -/
theorem isSum_sub (h : Aligned t i m x n) (neg : Bool) (e : ℤ)
    (hne : m ≠ n) (hle : 2 ^ t ≤ (m - n : ℤ).natAbs * 2 ^ j)
    (hlt : (m - n : ℤ).natAbs * 2 ^ j < 2 ^ (t + 1)) :
    IsSum t (i + 1) ((sgn neg * m + sgn (!neg) * x) * 2 ^ (e - t)) ((m - n : ℤ).natAbs * 2 ^ j)
      (if m < n then !neg else neg) (e - j) := by
  have hw := two_zpow_pos (e - t)
  have hneg : sgn (!neg) = -sgn neg := by cases neg <;> simp [sgn]
  have hx : (m : ℚ) - x ≠ 0 := sub_ne_zero.mpr fun hx => hne (h.lt_iff.2.mpr hx)
  have hvalue : (sgn neg * m + sgn (!neg) * x) * 2 ^ (e - t)
      = sgn (if m < n then !neg else neg) * (|m - x| * 2 ^ (e - t)) := by
    rw [hneg]
    by_cases hmn : m < n
    · have hlt' := h.lt_iff.1.mp hmn
      rw [if_pos hmn, hneg, abs_of_neg (sub_neg_of_lt hlt')]
      ring
    · have hge : x ≤ m := not_lt.mp fun hlt' => hmn (h.lt_iff.1.mpr hlt')
      rw [if_neg hmn, abs_of_nonneg (sub_nonneg_of_le hge)]
      ring
  have hpos := mul_pos (abs_pos.mpr hx) hw
  have hsign := sgn_mul_neg_iff hpos (if m < n then !neg else neg)
  have hexp : |m - x| * 2 ^ (e - t) = |m - x| * 2 ^ j * 2 ^ (e - j - t) := by
    rw [mul_assoc, ← zpow_natCast, ← zpow_add₀ two_ne_zero]
    congr 2
    ring
  rw [hvalue]
  refine ⟨hle, hlt, hsign.1, hsign.2, ?_⟩
  rw [abs_sgn_mul, abs_of_pos hpos, hexp]
  exact side_mul (h.sub hlt) (e - j - t)

theorem sub_eq_zero (h : Aligned t i m x n) (neg : Bool) (heq : m = n) :
    (sgn neg * m + sgn (!neg) * x) * 2 ^ (e - t) = 0 := by
  have hneg : sgn (!neg) = -sgn neg := by cases neg <;> simp [sgn]
  rw [hneg, ← h.lt_iff.2.mp heq]
  ring

end Aligned

/-- What is lost of an even number by a shift of one bit is nothing, and by more bits it gets
small. -/
theorem jam_small {t d m : ℕ} (hm : m < 2 ^ (t + 1)) (hd : 0 < d) (h2 : 2 ∣ m) :
    (m : ℚ) / 2 ^ d = jam m d ∨ (m : ℚ) / 2 ^ d < 2 ^ (t - 1) := by
  rcases Nat.eq_or_lt_of_le (show 1 ≤ d from hd) with rfl | hd
  · obtain ⟨k, rfl⟩ := h2
    left
    rw [jam, Nat.pow_one, pow_one, Nat.mul_mod_right, if_pos rfl, Nat.or_zero, Nat.mul_div_cancel_left k two_pos]
    push_cast
    ring
  · right
    have hpow : (2 : ℚ) ^ (t + 1) ≤ 2 ^ (t - 1) * 2 ^ d := by
      rw [← pow_add]
      exact pow_le_pow_right₀ one_le_two (by omega)
    rw [div_lt_iff₀ (by positivity)]
    exact lt_of_lt_of_le (by exact_mod_cast hm) hpow

/-- **A summand that is shifted** with a sticky bit. -/
theorem aligned_jam {t m c : ℕ} (ht : 1 < t) (hm : 2 ^ t ≤ m) (hm' : m < 2 ^ (t + 1)) (hm2 : 2 ∣ m)
    (hc : c < 2 ^ (t + 1)) (hc2 : 2 ∣ c) (d : ℕ) : Aligned t 1 m ((c : ℚ) / 2 ^ d) (jam c d) := by
  refine ⟨hm, hm', le_rfl, ht, hm2, ?_, ?_⟩
  · rw [pow_one]
    exact sameSide_jam c d
  · rcases Nat.eq_zero_or_pos d with rfl | hpos
    · left
      rw [jam_zero, pow_zero, div_one]
    · exact jam_small hc hpos hc2

theorem add_significands (t : ℕ) (a b : ℚ) (m c : ℕ) {e eC : ℤ} {d : ℕ} (he : e = eC + d) :
    a * (m * 2 ^ (e - t)) + b * (c * 2 ^ (eC - t)) = (a * m + b * ((c : ℚ) / 2 ^ d)) * 2 ^ (e - t) := by
  have hpow : (2 : ℚ) ^ (e - t) = 2 ^ d * 2 ^ (eC - t) := by
    rw [he, show eC + d - (t : ℤ) = d + (eC - t) by ring, zpow_add₀ two_ne_zero, zpow_natCast]
  rw [hpow]
  field_simp

/-! ### Normalization -/

section

variable {S : Type*} (top : S → BitVec 64) (shiftLeft : S → ℕ → S)

/-- The loop that moves the leading bit to the top, by halves, and counts the exponent down. -/
def normalizeLoop : ℕ → ℕ → BitVec 64 → S → ℤ → Option (S × ℤ)
  | 0, _, _, _, _ => none
  | fuel + 1, shift, test, p, e =>
    if top p &&& 0x8000000000000000 = 0 then
      let shifted := if top p < test then (shiftLeft p shift, e - shift) else (p, e)
      let shift := shift >>> 1
      normalizeLoop fuel shift (test <<< shift) shifted.1 shifted.2
    else some (p, e)

theorem and_msb_eq_zero_iff (a : BitVec 64) :
    a &&& 0x8000000000000000 = 0 ↔ a.toNat < 2 ^ 63 := by
  have hmsb := BitVec.msb_eq_decide a
  rw [BitVec.msb_eq_getLsbD_last] at hmsb
  have hpow : (0x8000000000000000 : BitVec 64) = BitVec.twoPow 64 63 := by decide
  rw [hpow, BitVec.and_twoPow]
  split
  · rename_i h
    rw [show a.getLsbD 63 = true from h] at hmsb
    have hle := of_decide_eq_true hmsb.symm
    exact iff_of_false (by decide) (not_lt.mpr hle)
  · rename_i h
    have hfalse : a.getLsbD 63 = false := Bool.eq_false_of_not_eq_true h
    rw [show a.getLsbD (64 - 1) = false from hfalse] at hmsb
    exact iff_of_true rfl (not_le.mp (of_decide_eq_false hmsb.symm))

variable {top shiftLeft} {val : S → ℕ} {c : ℕ}

/-- The result of the loop. -/
def Normalized (top : S → BitVec 64) (val : S → ℕ) (p : S) (e : ℤ) (r : Option (S × ℤ)) : Prop :=
  ∃ p' j, r = some (p', e - (j : ℕ)) ∧ val p' = val p * 2 ^ j ∧ 2 ^ 63 ≤ (top p').toNat

theorem Normalized.of_shift {p p' : S} {e : ℤ} {j : ℕ} {r : Option (S × ℤ)}
    (h : Normalized top val p' (e - j) r) (hp' : val p' = val p * 2 ^ j) :
    Normalized top val p e r := by
  obtain ⟨p'', j', hr, hval, hlead⟩ := h
  refine ⟨p'', j + j', ?_, ?_, hlead⟩
  · rw [hr, Nat.cast_add, sub_sub]
  · rw [hval, hp', Nat.pow_add, Nat.mul_assoc]

theorem normalizeLoop_done {p : S} (e : ℤ) (fuel shift : ℕ) (test : BitVec 64)
    (hp : 2 ^ 63 ≤ (top p).toNat) :
    Normalized top val p e (normalizeLoop top shiftLeft (fuel + 1) shift test p e) := by
  refine ⟨p, 0, ?_, ?_, hp⟩
  · rw [normalizeLoop, if_neg (by rw [and_msb_eq_zero_iff]; omega), Nat.cast_zero, sub_zero]
  · rw [Nat.pow_zero, Nat.mul_one]

theorem normalizeLoop_step (htop : ∀ p, (top p).toNat = val p / 2 ^ c)
    (hshift : ∀ p s, 0 < s → s ≤ 32 → (top p).toNat < 2 ^ (64 - s) →
      val (shiftLeft p s) = val p * 2 ^ s)
    {k : ℕ} (hk : k ≤ 5) {p : S} (e : ℤ) (fuel : ℕ)
    (hp : 2 ^ (64 - 2 ^ (k + 1)) ≤ (top p).toNat) (hmsb : (top p).toNat < 2 ^ 63) :
    ∃ p' j, val p' = val p * 2 ^ j ∧ 2 ^ (64 - 2 ^ k) ≤ (top p').toNat ∧
      normalizeLoop top shiftLeft (fuel + 1) (2 ^ k) (BitVec.twoPow 64 (64 - 2 ^ k)) p e
        = normalizeLoop top shiftLeft fuel (2 ^ k >>> 1)
          (BitVec.twoPow 64 (64 - 2 ^ k) <<< (2 ^ k >>> 1)) p' (e - (j : ℕ)) := by
  have hpos := Nat.two_pow_pos k
  have hk' : 2 ^ k ≤ 2 ^ 5 := Nat.pow_le_pow_right two_pos hk
  have htest : (BitVec.twoPow 64 (64 - 2 ^ k)).toNat = 2 ^ (64 - 2 ^ k) :=
    BitVec.toNat_twoPow_of_lt (by omega)
  rw [normalizeLoop, if_pos (by rw [and_msb_eq_zero_iff]; exact hmsb)]
  simp only [BitVec.lt_def, htest]
  by_cases hlt : (top p).toNat < 2 ^ (64 - 2 ^ k)
  · have hval := hshift p (2 ^ k) hpos hk' hlt
    refine ⟨shiftLeft p (2 ^ k), 2 ^ k, hval, ?_, ?_⟩
    · have hexp : 64 - 2 ^ k = 64 - 2 ^ (k + 1) + 2 ^ k := by
        rw [Nat.pow_succ]
        omega
      rw [htop, Nat.le_div_iff_mul_le (Nat.two_pow_pos c)] at hp
      rw [htop, hval, Nat.le_div_iff_mul_le (Nat.two_pow_pos c), hexp, Nat.pow_add,
        Nat.mul_right_comm]
      exact Nat.mul_le_mul_right _ hp
    · rw [if_pos hlt]
  · refine ⟨p, 0, by rw [Nat.pow_zero, Nat.mul_one], not_lt.mp hlt, ?_⟩
    rw [if_neg hlt, Nat.cast_zero, sub_zero]

/-- **The leading bit is moved to the top.** -/
theorem normalizeLoop_eq (htop : ∀ p, (top p).toNat = val p / 2 ^ c)
    (hshift : ∀ p s, 0 < s → s ≤ 32 → (top p).toNat < 2 ^ (64 - s) →
      val (shiftLeft p s) = val p * 2 ^ s)
    {k : ℕ} (hk : k ≤ 5) (p : S) (e : ℤ) (hp : 2 ^ (64 - 2 ^ (k + 1)) ≤ (top p).toNat) :
    Normalized top val p e
      (normalizeLoop top shiftLeft (k + 2) (2 ^ k) (BitVec.twoPow 64 (64 - 2 ^ k)) p e) := by
  induction k generalizing p e with
  | zero =>
    rcases Nat.lt_or_ge (top p).toNat (2 ^ 63) with hmsb | hmsb
    · obtain ⟨p', j, hval, hp', heq⟩ := normalizeLoop_step htop hshift hk e 1 hp hmsb
      rw [heq]
      exact (normalizeLoop_done _ 0 _ _ hp').of_shift hval
    · exact normalizeLoop_done e 1 _ _ hmsb
  | succ k ih =>
    rcases Nat.lt_or_ge (top p).toNat (2 ^ 63) with hmsb | hmsb
    · obtain ⟨p', j, hval, hp', heq⟩ := normalizeLoop_step htop hshift hk e (k + 2) hp hmsb
      have hhalf : 2 ^ (k + 1) >>> 1 = 2 ^ k := by
        rw [Nat.shiftRight_eq_div_pow, Nat.pow_one, Nat.pow_succ, Nat.mul_div_cancel _ two_pos]
      have htest : BitVec.twoPow 64 (64 - 2 ^ (k + 1)) <<< 2 ^ k = BitVec.twoPow 64 (64 - 2 ^ k) := by
        have hle : 2 ^ (k + 1) ≤ 2 ^ 5 := Nat.pow_le_pow_right two_pos hk
        have hpow : 2 ^ (k + 1) = 2 * 2 ^ k := Nat.pow_succ'
        rw [BitVec.twoPow_eq, BitVec.twoPow_eq, ← BitVec.shiftLeft_add]
        congr 1
        omega
      rw [hhalf, htest] at heq
      rw [heq]
      exact (ih (by omega) p' _ hp').of_shift hval
    · exact normalizeLoop_done e (k + 2) _ _ hmsb

end

/-! ### Rounding -/

/-- A shift to the right, rounded to the nearest integer, ties to even. -/
def nearestShift (n s : ℕ) : ℕ :=
  n / 2 ^ s + if 2 ^ s < 2 * (n % 2 ^ s) ∨ 2 ^ s = 2 * (n % 2 ^ s) ∧ n / 2 ^ s % 2 = 1 then 1 else 0

theorem floor_div_two_pow (n s : ℕ) : ⌊(n : ℚ) / 2 ^ s⌋ = (n / 2 ^ s : ℕ) := by
  have h := Rat.floor_natCast_div_natCast n (2 ^ s)
  rw [Nat.cast_pow, Nat.cast_ofNat] at h
  exact_mod_cast h

theorem nearest_div_two_pow (n s : ℕ) : nearest ((n : ℚ) / 2 ^ s) = nearestShift n s := by
  have hpos : (0 : ℚ) < 2 ^ s := by positivity
  have hrest : (n : ℚ) / 2 ^ s - (n / 2 ^ s : ℕ) = (n % 2 ^ s : ℕ) / 2 ^ s := by
    have hadd : ((2 ^ s * (n / 2 ^ s) + n % 2 ^ s : ℕ) : ℚ) = n := by rw [Nat.div_add_mod]
    rw [← hadd]
    push_cast
    rw [add_div, mul_div_cancel_left₀ _ hpos.ne', add_sub_cancel_left]
  have hgt : 1 / 2 < ((n % 2 ^ s : ℕ) : ℚ) / 2 ^ s ↔ 2 ^ s < 2 * (n % 2 ^ s) := by
    rw [div_lt_div_iff₀ two_pos hpos, one_mul, mul_comm]
    exact_mod_cast Iff.rfl
  have heq : ((n % 2 ^ s : ℕ) : ℚ) / 2 ^ s = 1 / 2 ↔ 2 ^ s = 2 * (n % 2 ^ s) := by
    rw [div_eq_div_iff hpos.ne' two_ne_zero, one_mul, mul_comm, eq_comm]
    exact_mod_cast Iff.rfl
  rw [nearest, floor_div_two_pow, Int.cast_natCast, hrest, nearestShift]
  simp only [hgt, heq]
  split
  · rename_i h
    rw [if_pos (by omega)]
    push_cast
    rfl
  · rename_i h
    rw [if_neg (by omega), Nat.add_zero]

theorem nearestShift_le (m s : ℕ) : m / 2 ^ s ≤ nearestShift m s ∧
    nearestShift m s ≤ m / 2 ^ s + 1 := by
  rw [nearestShift]
  split <;> omega

/-- Numbers that are smaller than a half of the last bit, or equal to it, and larger ones. -/
theorem nearestShift_of_lt {t m s : ℕ} (hm : 2 ^ t ≤ m) (hm' : m < 2 ^ (t + 1)) (hs : t + 1 ≤ s) :
    nearestShift m s = if s = t + 1 ∧ 2 ^ t < m then 1 else 0 := by
  have hpow : 2 ^ (t + 1) ≤ 2 ^ s := Nat.pow_le_pow_right two_pos hs
  have hdouble : 2 ^ (t + 1) = 2 * 2 ^ t := Nat.pow_succ'
  rw [nearestShift, Nat.div_eq_of_lt (by omega), Nat.mod_eq_of_lt (by omega), Nat.zero_add]
  rcases Nat.eq_or_lt_of_le hs with h | h
  · rw [← h]
    split <;> split <;> omega
  · have hpow' : 2 ^ (t + 1 + 1) ≤ 2 ^ s := Nat.pow_le_pow_right two_pos h
    have hdouble' : 2 ^ (t + 1 + 1) = 2 * 2 ^ (t + 1) := Nat.pow_succ'
    rw [if_neg (by omega), if_neg (by omega)]

namespace FloatFormat

variable {f : FloatFormat} {t m w : ℕ} {e i : ℤ} {mode : Mode} {q r : ℚ} {s : Bool}

theorem Number.exists_significand (h : f.Number q) (hq : q ≠ 0) (ht : f.mantissaBits ≤ t) :
    ∃ m : ℕ, 2 ^ t ≤ m ∧ m < 2 ^ (t + 1) ∧ 2 ^ (t - f.mantissaBits) ∣ m ∧
      |q| = m * 2 ^ (Int.log 2 |q| - t) := by
  obtain ⟨n, hn⟩ := h.exists_ulp
  obtain ⟨d, hd⟩ : ∃ d : ℕ, f.ulp q = Int.log 2 |q| - f.mantissaBits + d :=
    ⟨(f.ulp q - (Int.log 2 |q| - f.mantissaBits)).toNat, by rw [ulp]; omega⟩
  obtain ⟨c, hc⟩ : ∃ c, t = f.mantissaBits + c := ⟨t - f.mantissaBits, by omega⟩
  have hw := two_zpow_pos (Int.log 2 |q| - t)
  have heq : |q| = (n.natAbs * 2 ^ d * 2 ^ c : ℕ) * 2 ^ (Int.log 2 |q| - t) := by
    have habs := abs_intCast_mul_zpow n (f.ulp q)
    rw [← hn, hd] at habs
    rw [show (Int.log 2 |q| - f.mantissaBits + d : ℤ) = d + c + (Int.log 2 |q| - t) by
      rw [hc]; push_cast; ring, zpow_add₀ two_ne_zero, zpow_add₀ two_ne_zero, zpow_natCast,
      zpow_natCast] at habs
    conv_lhs => rw [habs]
    push_cast
    ring
  have hle := Int.zpow_log_le_self (r := |q|) one_lt_two (abs_pos.mpr hq)
  have hlt := Int.lt_zpow_succ_log_self one_lt_two |q|
  refine ⟨n.natAbs * 2 ^ d * 2 ^ c, ?_, ?_, ?_, heq⟩
  · have hle' : (2 ^ t : ℚ) * 2 ^ (Int.log 2 |q| - t) ≤ |q| := by
      rw [← zpow_natCast, ← zpow_add₀ two_ne_zero, add_sub_cancel]
      exact hle
    conv_rhs at hle' => rw [heq]
    exact_mod_cast le_of_mul_le_mul_right hle' hw
  · have hlt' : |q| < (2 ^ (t + 1) : ℚ) * 2 ^ (Int.log 2 |q| - t) := by
      rw [← zpow_natCast, ← zpow_add₀ two_ne_zero, Nat.cast_succ, add_right_comm, add_sub_cancel]
      exact hlt
    conv_lhs at hlt' => rw [heq]
    exact_mod_cast lt_of_mul_lt_mul_right hlt' hw.le
  · rw [hc, Nat.add_sub_cancel_left]
    exact Nat.dvd_mul_left _ _

theorem log_significand (hm : 2 ^ t ≤ m) (hm' : m < 2 ^ (t + 1)) (e : ℤ) :
    Int.log 2 ((m : ℚ) * 2 ^ (e - t)) = e := by
  have hpos := Nat.two_pow_pos t
  have hlog : Nat.log 2 m = t := (Nat.log_eq_iff (.inr ⟨one_lt_two, by omega⟩)).mpr ⟨hm, hm'⟩
  rw [log_mul_zpow (by omega), hlog, add_sub_cancel]

theorem ulp_significand (f : FloatFormat) (hm : 2 ^ t ≤ m) (hm' : m < 2 ^ (t + 1)) (e : ℤ) :
    f.ulp ((m : ℚ) * 2 ^ (e - t)) = max e f.minExp - f.mantissaBits := by
  have hnonneg : (0 : ℚ) ≤ (m : ℚ) * 2 ^ (e - t) :=
    mul_nonneg (Nat.cast_nonneg _) (two_zpow_pos _).le
  rw [ulp, abs_of_nonneg hnonneg, log_significand hm hm']

theorem significand_pos (hm : 2 ^ t ≤ m) (e : ℤ) : (0 : ℚ) < (m : ℚ) * 2 ^ (e - t) := by
  have hpos := Nat.two_pow_pos t
  exact mul_pos (by exact_mod_cast lt_of_lt_of_le hpos hm) (two_zpow_pos _)

/-- **The bits of a normal number**, from a significand that is rounded. -/
theorem magnitudeOf_normal (mode : Mode) (hm : 2 ^ t ≤ m) (hm' : m < 2 ^ (t + 1))
    (ht : f.mantissaBits ≤ t) (he : f.minExp ≤ e) :
    f.magnitudeOf (f.roundIn mode ((m : ℚ) * 2 ^ (e - t)))
      = (e - f.minExp).toNat * 2 ^ f.mantissaBits
        + (mode.toInt ((m : ℚ) / 2 ^ (t - f.mantissaBits))).toNat := by
  obtain ⟨d, hd⟩ : ∃ d, t = f.mantissaBits + d := ⟨t - f.mantissaBits, by omega⟩
  have hdiv : (m : ℚ) * 2 ^ (e - t) / 2 ^ (e - f.mantissaBits) = m / 2 ^ d := by
    rw [mul_div_assoc, ← zpow_sub₀ two_ne_zero, hd,
      show e - ((f.mantissaBits + d : ℕ) : ℤ) - (e - f.mantissaBits) = -(d : ℤ) by push_cast; ring,
      zpow_neg, zpow_natCast, div_eq_mul_inv]
  rw [magnitudeOf_roundIn mode (significand_pos hm e), ulp_significand f hm hm', max_eq_left he,
    hdiv, sub_add_cancel, hd, Nat.add_sub_cancel_left]

theorem magnitudeOf_subnormal (mode : Mode) (hm : 2 ^ t ≤ m) (hm' : m < 2 ^ (t + 1))
    (ht : f.mantissaBits ≤ t) {d : ℕ} (he : f.minExp = e + d) :
    f.magnitudeOf (f.roundIn mode ((m : ℚ) * 2 ^ (e - t)))
      = (mode.toInt ((m : ℚ) / 2 ^ (t - f.mantissaBits + d))).toNat := by
  obtain ⟨c, hc⟩ : ∃ c, t = f.mantissaBits + c := ⟨t - f.mantissaBits, by omega⟩
  have hdiv : (m : ℚ) * 2 ^ (e - t) / 2 ^ (f.minExp - f.mantissaBits) = m / 2 ^ (c + d) := by
    rw [mul_div_assoc, ← zpow_sub₀ two_ne_zero, hc, he,
      show e - ((f.mantissaBits + c : ℕ) : ℤ) - (e + d - f.mantissaBits) = -((c + d : ℕ) : ℤ) by
        push_cast; ring, zpow_neg, zpow_natCast, div_eq_mul_inv]
  rw [magnitudeOf_roundIn mode (significand_pos hm e), ulp_significand f hm hm',
    max_eq_right (by omega), hdiv, sub_add_cancel, sub_self, Int.toNat_zero, Nat.zero_mul,
    Nat.zero_add, hc, Nat.add_sub_cancel_left]

theorem ofRat_of_pos (f : FloatFormat) (mode : Mode) (s : Bool) (hq : 0 < q) :
    (f.ofRat mode s q : BitVec w) = f.ofMagnitude false
      (if f.magnitudeOf (f.roundIn mode q) < f.finiteCount then f.magnitudeOf (f.roundIn mode q)
        else f.overflow mode false) := by
  rw [ofRat, if_neg hq.ne', decide_eq_false hq.not_gt]

theorem toNat_ofRat_of_pos (mode : Mode) (s : Bool) (hw : w = f.mantissaBits + f.exponentBits + 1)
    (hq : 0 < q) {n : ℕ} (hn : f.magnitudeOf (f.roundIn mode q) = n) :
    (f.ofRat mode s q : BitVec w).toNat
      = if n < f.finiteCount then n else f.overflow mode false := by
  rw [ofRat_of_pos f mode s hq, hn, toNat_ofMagnitude hw, if_neg Bool.false_ne_true, Nat.zero_add]
  split
  · rename_i h
    exact h.trans finiteCount_lt
  · exact lt_of_le_of_lt (f.overflow_le mode _) finiteCount_lt

/-- **The bits of a significand**, rounded to nearest; too many of them are those of infinity. -/
theorem toNat_ofRat_toNearest (s : Bool) (hw : w = f.mantissaBits + f.exponentBits + 1)
    (hm : 2 ^ t ≤ m) (hm' : m < 2 ^ (t + 1)) (ht : f.mantissaBits ≤ t) (e : ℤ) :
    (f.ofRat .toNearest s ((m : ℚ) * 2 ^ (e - t)) : BitVec w).toNat = min f.finiteCount
      ((e - f.minExp).toNat * 2 ^ f.mantissaBits
        + nearestShift m (t - f.mantissaBits + (f.minExp - e).toNat)) := by
  have hround (k : ℕ) : (Mode.toInt .toNearest ((m : ℚ) / 2 ^ k)).toNat = nearestShift m k := by
    rw [Mode.toInt, nearest_div_two_pow, Int.toNat_natCast]
  have hmag : f.magnitudeOf (f.roundIn .toNearest ((m : ℚ) * 2 ^ (e - t)))
      = (e - f.minExp).toNat * 2 ^ f.mantissaBits
        + nearestShift m (t - f.mantissaBits + (f.minExp - e).toNat) := by
    rcases le_or_gt f.minExp e with he | he
    · rw [magnitudeOf_normal .toNearest hm hm' ht he, hround, show (f.minExp - e).toNat = 0 by omega,
        Nat.add_zero]
    · rw [magnitudeOf_subnormal .toNearest hm hm' ht (d := (f.minExp - e).toNat) (by omega), hround,
        show (e - f.minExp).toNat = 0 by omega, Nat.zero_mul, Nat.zero_add]
  rw [toNat_ofRat_of_pos .toNearest s hw (significand_pos hm e) hmag, overflow]
  split
  · rename_i h
    rw [Nat.min_eq_right h.le]
  · rename_i h
    rw [Nat.min_eq_left (not_lt.mp h)]

theorem ofRat_zero (f : FloatFormat) (mode : Mode) (s : Bool) :
    (f.ofRat mode s 0 : BitVec w) = f.ofMagnitude s 0 := by
  have hzero : f.Number 0 := by
    rw [← f.magnitude_zero]
    exact f.number_magnitude 0
  have hmag : f.magnitudeOf (f.roundIn mode 0) = 0 := by
    rw [hzero.roundIn_eq, magnitudeOf, if_pos rfl]
  rw [ofRat, if_pos rfl, hmag]
  split
  · rfl
  · rename_i h
    have hcount : f.finiteCount = 0 := by omega
    have hover := f.overflow_le mode s
    rw [hcount, Nat.le_zero] at hover
    rw [hover]

theorem ofMagnitude_true (hw : w = f.mantissaBits + f.exponentBits + 1) {n : ℕ}
    (hn : n < 2 ^ (f.mantissaBits + f.exponentBits)) : (f.ofMagnitude true n : BitVec w)
      = f.ofMagnitude false n ||| BitVec.twoPow w (f.mantissaBits + f.exponentBits) := by
  have hor := Nat.two_pow_add_eq_or_of_lt hn 1
  rw [Nat.mul_one] at hor
  apply BitVec.eq_of_toNat_eq
  rw [BitVec.toNat_or, toNat_ofMagnitude hw hn, toNat_ofMagnitude hw hn,
    BitVec.toNat_twoPow_of_lt (by omega), if_pos rfl, if_neg Bool.false_ne_true, Nat.zero_add,
    Nat.or_comm, hor]

/-- **The sign is set at last**, in the modes that treat both signs alike. -/
theorem ofRat_eq_or (hw : w = f.mantissaBits + f.exponentBits + 1) (hmode : mode.neg = mode)
    (s : Bool) (hq : q ≠ 0) : (f.ofRat mode s q : BitVec w) = f.ofRat mode false |q| |||
      if q < 0 then BitVec.twoPow w (f.mantissaBits + f.exponentBits) else 0#w := by
  have hmag : f.magnitudeOf (f.roundIn mode q) = f.magnitudeOf (f.roundIn mode |q|) := by
    rcases abs_choice q with h | h
    · rw [h]
    · rw [h, roundIn_neg, hmode, magnitudeOf_neg]
  have hover : f.overflow mode (decide (q < 0)) = f.overflow mode false := by
    cases mode with
    | toNearest => rfl
    | upward => cases hmode
    | downward => cases hmode
    | towardZero => rfl
  rw [ofRat_of_pos f mode false (abs_pos.mpr hq), ofRat, if_neg hq, hmag, hover]
  rcases lt_or_gt_of_ne hq with h | h
  · rw [if_pos h, decide_eq_true h, ofMagnitude_true hw]
    split
    · rename_i hlt
      exact hlt.trans finiteCount_lt
    · exact lt_of_le_of_lt (f.overflow_le mode _) finiteCount_lt
  · rw [if_neg h.not_gt, decide_eq_false h.not_gt, BitVec.or_zero]

theorem value_eq_sgn (f : FloatFormat) (b : BitVec w) :
    f.value b = sgn (b.getLsbD (f.mantissaBits + f.exponentBits)) * |f.value b| := by
  rw [abs_value_eq, value_eq_magnitude, sign, sgn]
  split <;> push_cast <;> rfl

/-- What is on the same side of half of the last bits has the same bits. -/
theorem ofRat_eq_of_sameSide (h : SameSide (2 ^ i) q r) (hi : i + 1 ≤ f.ulp q) (mode : Mode)
    (s : Bool) : (f.ofRat mode s q : BitVec w) = f.ofRat mode s r := by
  have hzero := h.eq_zero_iff
  have hneg := h.neg_iff
  rw [ofRat, ofRat, h.roundIn_eq hi]
  simp only [hzero, hneg]

theorem magnitudeOf_roundIn_finiteCount (f : FloatFormat) (mode : Mode) (q : ℚ) :
    (|q| ≤ f.magnitude f.finiteCount → f.magnitudeOf (f.roundIn mode q) ≤ f.finiteCount) ∧
      (f.magnitude f.finiteCount ≤ |q| → f.finiteCount ≤ f.magnitudeOf (f.roundIn mode q)) := by
  have hmag := magnitude_magnitudeOf (number_roundIn f mode q)
  have hnumber := f.number_magnitude f.finiteCount
  constructor
  · intro h
    rw [← f.magnitude_strictMono.le_iff_le, hmag]
    exact abs_roundIn_le mode hnumber h
  · intro h
    rcases Nat.eq_zero_or_pos f.finiteCount with h0 | h0
    · rw [h0]
      exact Nat.zero_le _
    · have hpos : 0 < f.magnitude f.finiteCount := by
        rw [← f.magnitude_zero]
        exact f.magnitude_strictMono h0
      rw [← f.magnitude_strictMono.le_iff_le, hmag]
      exact le_abs_roundIn mode hnumber hpos h

theorem ofRat_toNearest (f : FloatFormat) (s : Bool) (hq : q ≠ 0) :
    (f.ofRat .toNearest s q : BitVec w) = f.ofMagnitude (decide (q < 0))
      (min (f.magnitudeOf (f.roundIn .toNearest q)) f.finiteCount) := by
  rw [ofRat, if_neg hq, overflow]
  split
  · rename_i h
    rw [Nat.min_eq_left h.le]
  · rename_i h
    rw [Nat.min_eq_right (not_lt.mp h)]

theorem roundIn_eq_of_abs {mode' : Mode} (h : |f.roundIn mode q| = |f.roundIn mode' q|) :
    f.roundIn mode q = f.roundIn mode' q := by
  have hpos := two_zpow_pos (f.ulp q)
  rcases le_total 0 q with hq | hq
  · have hnonneg (mode : Mode) : 0 ≤ f.roundIn mode q :=
      mul_nonneg (Int.cast_nonneg (mode.toInt_nonneg (div_nonneg hq hpos.le))) hpos.le
    rwa [abs_of_nonneg (hnonneg _), abs_of_nonneg (hnonneg _)] at h
  · have hnonpos (mode : Mode) : f.roundIn mode q ≤ 0 := by
      have hint := mode.toInt_le (n := 0) (by push_cast; exact div_nonpos_of_nonpos_of_nonneg hq hpos.le)
      exact mul_nonpos_of_nonpos_of_nonneg (Int.cast_nonpos.mpr hint) hpos.le
    rw [abs_of_nonpos (hnonpos _), abs_of_nonpos (hnonpos _)] at h
    exact neg_injective h

/-- **What is a little off a tie** has other bits, if the tie is not rounded to this side; numbers
that are too large have the bits of infinity. -/
theorem ofRat_off_iff (hw : w = f.mantissaBits + f.exponentBits + 1) (hq : q ≠ 0) (hr : r ≠ 0)
    (hneg : r < 0 ↔ q < 0) (hround : f.roundIn .toNearest r
      = if f.IsTie q then f.roundIn mode q else f.roundIn .toNearest q) (s : Bool) :
    (f.ofRat .toNearest s r : BitVec w) = f.ofRat .toNearest s q ↔
      ¬ (|q| < f.magnitude f.finiteCount ∧ f.IsTie q ∧
        f.roundIn .toNearest q ≠ f.roundIn mode q) := by
  rw [ofRat_toNearest f s hr, ofRat_toNearest f s hq, hround]
  simp only [hneg]
  by_cases htie : f.IsTie q ∧ f.roundIn .toNearest q ≠ f.roundIn mode q
  · obtain ⟨hle, hge⟩ := f.magnitudeOf_roundIn_finiteCount .toNearest q
    obtain ⟨hle', hge'⟩ := f.magnitudeOf_roundIn_finiteCount mode q
    rw [if_pos htie.1]
    rcases lt_or_ge |q| (f.magnitude f.finiteCount) with hlt | hlarge
    · refine iff_of_false ?_ (not_not.mpr ⟨hlt, htie⟩)
      intro hbits
      have hbits' := congrArg f.magnitudeBits hbits
      have hcount := finiteCount_lt (f := f)
      rw [(index_ofMagnitude hw (lt_of_le_of_lt (Nat.min_le_right _ _) hcount)).1,
        (index_ofMagnitude hw (lt_of_le_of_lt (Nat.min_le_right _ _) hcount)).1,
        Nat.min_eq_left (hle hlt.le), Nat.min_eq_left (hle' hlt.le)] at hbits'
      have habs := congrArg f.magnitude hbits'
      rw [magnitude_magnitudeOf (number_roundIn f mode q),
        magnitude_magnitudeOf (number_roundIn f .toNearest q)] at habs
      exact htie.2 (roundIn_eq_of_abs habs).symm
    · refine iff_of_true ?_ (fun h => absurd h.1 (not_lt.mpr hlarge))
      rw [Nat.min_eq_right (hge hlarge), Nat.min_eq_right (hge' hlarge)]
  · refine iff_of_true ?_ (fun h => htie h.2)
    split
    · rename_i h
      rw [not_and, not_not] at htie
      rw [htie h]
    · rfl

end FloatFormat

namespace IsSum

variable {f : FloatFormat} {t k m w : ℕ} {v : ℚ} {neg : Bool} {e : ℤ} {mode : Mode}

theorem log_eq (h : IsSum t k v m neg e) (hk : k ≤ t) : Int.log 2 |v| = e := by
  have hv := abs_pos.mpr h.ne_zero
  have hm := significand_pos h.lead e
  have hlog := log_significand h.lead h.lt e
  have hiff {j : ℤ} (hj : e ≤ j) : Int.log 2 |v| < j ↔ e < j := by
    rw [← Int.lt_zpow_iff_log_lt one_lt_two hv, Nat.cast_ofNat, h.side.lt_zpow_iff (by omega)]
    conv_rhs => rw [← hlog]
    rw [← Int.lt_zpow_iff_log_lt one_lt_two hm, Nat.cast_ofNat]
  have h1 := hiff (le_refl e)
  have h2 := hiff (Int.le_add_one (le_refl e))
  omega

/-- **The rounded significand** with its sign is the exact sum, rounded. -/
theorem ofRat_eq (h : IsSum t k v m neg e) (hk : k + 1 + f.mantissaBits ≤ t)
    (hw : w = f.mantissaBits + f.exponentBits + 1) (hmode : mode.neg = mode) (s : Bool) :
    (f.ofRat mode s v : BitVec w) = f.ofRat mode false ((m : ℚ) * 2 ^ (e - t)) |||
      if neg then BitVec.twoPow w (f.mantissaBits + f.exponentBits) else 0#w := by
  have hulp := f.ulp_significand h.lead h.lt e
  have hround : (f.ofRat mode false ((m : ℚ) * 2 ^ (e - t)) : BitVec w) = f.ofRat mode false |v| :=
    ofRat_eq_of_sameSide h.side.symm (by rw [hulp]; omega) mode false
  rw [hround, ofRat_eq_or hw hmode s h.ne_zero, h.neg_eq]
  simp only [decide_eq_true_eq]

end IsSum
