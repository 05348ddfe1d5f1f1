import Mathlib.Data.Int.ConditionallyCompleteOrder
import Mathlib.Order.Bounds.Basic
import Mathlib.Order.CompletePartialOrder
import Mathlib.Order.SuccPred.Archimedean
import OpenCLCTS.Lib.FloatRounding

/-!
# The order of the numbers of a format

The bits below the sign count the numbers of a format in their order, from 0 up.  With the sign, the
finite numbers are counted by a range of integers.

* `numberAt_strictMono`: the numbers in the order in which they are counted.
* `value_eq_numberAt`: the value of bits is the number that they count.
* `nextAfter_of_lt`, `nextAfter_of_gt`: the next number.
* `roundsDown_of_lt`, `roundsUp_of_lt`: directed rounding.
-/

namespace FloatFormat

variable (f : FloatFormat)

/-! ### Magnitudes -/

/-- The exponent of the last bit of a magnitude. -/
def lastBit (n : ℕ) : ℤ := max (n / 2 ^ f.mantissaBits : ℕ) 1 - 1 + f.minExp - f.mantissaBits

/-- The mantissa of a magnitude, with the bit that is not stored. -/
def significand (n : ℕ) : ℕ :=
  (if n / 2 ^ f.mantissaBits = 0 then 0 else 2 ^ f.mantissaBits) + n % 2 ^ f.mantissaBits

/-- The number with these bits below the sign. -/
def magnitude (n : ℕ) : ℚ := f.significand n * 2 ^ f.lastBit n

theorem magnitude_zero : f.magnitude 0 = 0 := by
  simp [magnitude, significand]

variable {f} in
theorem magnitude_mul_add {e m : ℕ} (hm : m < 2 ^ f.mantissaBits) :
    f.magnitude (2 ^ f.mantissaBits * e + m) =
      ((if e = 0 then 0 else 2 ^ f.mantissaBits) + m : ℕ)
        * 2 ^ (max e 1 - 1 + f.minExp - f.mantissaBits : ℤ) := by
  have hdiv : (2 ^ f.mantissaBits * e + m) / 2 ^ f.mantissaBits = e := by
    rw [Nat.mul_add_div (Nat.two_pow_pos _), Nat.div_eq_of_lt hm, Nat.add_zero]
  have hmod : (2 ^ f.mantissaBits * e + m) % 2 ^ f.mantissaBits = m := by
    rw [Nat.mul_add_mod, Nat.mod_eq_of_lt hm]
  rw [magnitude, significand, lastBit, hdiv, hmod]

/-- **The next magnitude** is one last bit larger. -/
theorem magnitude_succ (n : ℕ) : f.magnitude (n + 1) = f.magnitude n + 2 ^ f.lastBit n := by
  have hpos := Nat.two_pow_pos f.mantissaBits
  obtain ⟨e, he⟩ : ∃ e, e = n / 2 ^ f.mantissaBits := ⟨_, rfl⟩
  obtain ⟨m, hm⟩ : ∃ m, m = n % 2 ^ f.mantissaBits := ⟨_, rfl⟩
  have hmod : m < 2 ^ f.mantissaBits := by
    rw [hm]
    exact Nat.mod_lt n hpos
  have hn : n = 2 ^ f.mantissaBits * e + m := by rw [he, hm, Nat.div_add_mod]
  rw [lastBit, ← he]
  by_cases hlast : m + 1 < 2 ^ f.mantissaBits
  · rw [hn, Nat.add_assoc, magnitude_mul_add hlast, magnitude_mul_add hmod]
    push_cast
    ring
  · -- the exponent is the next one, and the mantissa is 0
    have hsucc : n + 1 = 2 ^ f.mantissaBits * (e + 1) + 0 := by
      rw [hn, Nat.mul_succ]
      omega
    have hmant : (m : ℚ) = 2 ^ f.mantissaBits - 1 := by
      rw [eq_sub_iff_add_eq]
      exact_mod_cast le_antisymm hmod (not_lt.mp hlast)
    rw [hsucc, magnitude_mul_add hpos, hn, magnitude_mul_add hmod, if_neg (Nat.succ_ne_zero e)]
    rcases Nat.eq_zero_or_pos e with rfl | h
    · rw [if_pos rfl]
      push_cast
      rw [hmant, max_eq_right (zero_le_one' ℤ), zero_add, max_self]
      ring
    · have hexp : ((max (e + 1) 1 : ℕ) - 1 + f.minExp - f.mantissaBits : ℤ)
          = ((max e 1 : ℕ) - 1 + f.minExp - f.mantissaBits : ℤ) + 1 := by omega
      rw [if_neg h.ne', hexp, zpow_add_one₀ two_ne_zero]
      push_cast
      rw [hmant]
      ring

theorem magnitude_strictMono : StrictMono f.magnitude := by
  apply strictMono_nat_of_lt_succ
  intro n
  rw [magnitude_succ]
  exact lt_add_of_pos_right _ (two_zpow_pos _)

/-! ### With the sign -/

/-- The number that is counted by `k`. -/
def numberAt (k : ℤ) : ℚ := k.sign * f.magnitude k.natAbs

theorem numberAt_natCast (n : ℕ) : f.numberAt n = f.magnitude n := by
  rw [numberAt, Int.natAbs_natCast]
  rcases Nat.eq_zero_or_pos n with rfl | h
  · rw [magnitude_zero, mul_zero]
  · rw [Int.sign_eq_one_of_pos (by omega), Int.cast_one, one_mul]

theorem numberAt_neg (k : ℤ) : f.numberAt (-k) = -f.numberAt k := by
  rw [numberAt, numberAt, Int.sign_neg, Int.natAbs_neg, Int.cast_neg, neg_mul]

/-- **The numbers in the order in which they are counted.** -/
theorem numberAt_strictMono : StrictMono f.numberAt := by
  apply strictMono_int_of_lt_succ
  intro k
  cases k with
  | ofNat n =>
    have hlt := f.magnitude_strictMono (Nat.lt_succ_self n)
    rwa [← numberAt_natCast, ← numberAt_natCast] at hlt
  | negSucc n =>
    have hlt := f.magnitude_strictMono (Nat.lt_succ_self n)
    rw [← numberAt_natCast, ← numberAt_natCast] at hlt
    rw [Int.negSucc_eq, neg_add, add_assoc, neg_add_cancel, add_zero, ← neg_add, numberAt_neg,
      numberAt_neg]
    exact neg_lt_neg hlt

variable {w : ℕ} (b : BitVec w)

/-- The bits below the sign. -/
def magnitudeBits : ℕ := b.toNat % 2 ^ (f.mantissaBits + f.exponentBits)

/-- What the bits count. -/
def index : ℤ := f.sign b * f.magnitudeBits b

/-- The number of finite numbers that are not negative. -/
def finiteCount : ℕ := (2 ^ f.exponentBits - 1) * 2 ^ f.mantissaBits

theorem magnitudeBits_eq : f.magnitudeBits b
    = 2 ^ f.mantissaBits * (f.exponent b).toNat + (f.mantissa b).toNat := by
  rw [magnitudeBits, mod_eq, Nat.mul_comm]

theorem finite_iff : f.Finite b ↔ f.magnitudeBits b < f.finiteCount := by
  have hmant := (f.mantissa b).isLt
  have hexp := (f.exponent b).isLt
  rw [Finite, finiteCount, magnitudeBits_eq, Nat.mul_comm (2 ^ f.exponentBits - 1), ne_eq,
    ← BitVec.toNat_inj, BitVec.toNat_allOnes]
  constructor
  · intro h
    have hle := Nat.mul_le_mul_left (2 ^ f.mantissaBits)
      (show (f.exponent b).toNat + 1 ≤ 2 ^ f.exponentBits - 1 by omega)
    rw [Nat.mul_succ] at hle
    omega
  · intro h heq
    rw [heq] at h
    omega

theorem value_eq_magnitude : f.value b = f.sign b * f.magnitude (f.magnitudeBits b) := by
  rw [magnitudeBits_eq, magnitude_mul_add (f.mantissa b).isLt, value]
  split
  · rename_i h
    rw [h]
    push_cast
    rw [max_eq_right (zero_le_one' ℤ)]
    ring_nf
  · rename_i h
    rw [Nat.max_eq_left (Nat.pos_of_ne_zero h)]
    push_cast
    ring

/-- **The value of bits is the number that they count.** -/
theorem value_eq_numberAt : f.value b = f.numberAt (f.index b) := by
  rw [value_eq_magnitude, index, sign]
  split
  · rw [neg_one_mul, numberAt_neg, numberAt_natCast, Int.cast_neg, Int.cast_one, neg_one_mul]
  · rw [one_mul, numberAt_natCast, Int.cast_one, one_mul]

/-! ### The next number -/

/-- The finite numbers of a format. -/
def values : Set ℚ :=
  {q | ∃ b : BitVec (f.mantissaBits + f.exponentBits + 1), f.Finite b ∧ f.value b = q}

/-- The bits that count one more. -/
def nextUp : BitVec w :=
  if f.index b = 0 then 1#w
  else if b.getLsbD (f.mantissaBits + f.exponentBits) then b - 1#w else b + 1#w

/-- The bits that count one less. -/
def nextDown : BitVec w :=
  if f.index b = 0 then BitVec.twoPow w (f.mantissaBits + f.exponentBits) + 1#w
  else if b.getLsbD (f.mantissaBits + f.exponentBits) then b + 1#w else b - 1#w

/-- The next number in the direction of another one. -/
def nextAfter (x y : BitVec w) : BitVec w :=
  if f.floatClass x = .nan then x
  else if f.floatClass y = .nan then y
  else if f.index x = f.index y then y
  else if f.index x < f.index y then f.nextUp x
  else f.nextDown x

section

variable {f} {b c : BitVec w}

theorem magnitudeBits_lt : f.magnitudeBits b < 2 ^ (f.mantissaBits + f.exponentBits) :=
  Nat.mod_lt _ (Nat.two_pow_pos _)

theorem finiteCount_lt : f.finiteCount < 2 ^ (f.mantissaBits + f.exponentBits) := by
  have hpos := Nat.two_pow_pos f.mantissaBits
  have hexp := Nat.two_pow_pos f.exponentBits
  rw [finiteCount, Nat.pow_add, Nat.mul_comm]
  exact Nat.mul_lt_mul_of_pos_left (by omega) hpos

theorem toNat_eq_add (hw : w = f.mantissaBits + f.exponentBits + 1) : b.toNat
    = (if b.getLsbD (f.mantissaBits + f.exponentBits) then 2 ^ (f.mantissaBits + f.exponentBits)
      else 0) + f.magnitudeBits b := by
  subst hw
  have hlt := b.isLt
  have hdiv := Nat.div_add_mod b.toNat (2 ^ (f.mantissaBits + f.exponentBits))
  rw [Nat.pow_succ] at hlt
  have hbit : b.getLsbD (f.mantissaBits + f.exponentBits)
      = decide (2 ^ (f.mantissaBits + f.exponentBits) ≤ b.toNat) := by
    have := BitVec.msb_eq_decide b
    rwa [BitVec.msb_eq_getLsbD_last, Nat.add_sub_cancel] at this
  rw [hbit, magnitudeBits]
  generalize 2 ^ (f.mantissaBits + f.exponentBits) = n at *
  by_cases hle : n ≤ b.toNat
  · have hone : b.toNat / n = 1 := by
      rw [Nat.div_eq_iff (by omega)]
      omega
    rw [hone, Nat.mul_one] at hdiv
    rw [if_pos (decide_eq_true hle), hdiv]
  · rw [if_neg (by simpa using hle), Nat.mod_eq_of_lt (not_le.mp hle), Nat.zero_add]

theorem index_of_toNat (hw : w = f.mantissaBits + f.exponentBits + 1) {s : Bool} {m : ℕ}
    (hm : m < 2 ^ (f.mantissaBits + f.exponentBits))
    (h : b.toNat = (if s then 2 ^ (f.mantissaBits + f.exponentBits) else 0) + m) :
    f.magnitudeBits b = m ∧ f.index b = if s then -(m : ℤ) else m := by
  have hb := toNat_eq_add (b := b) hw
  have hlt := magnitudeBits_lt (f := f) (b := b)
  rw [index, sign]
  cases hbit : b.getLsbD (f.mantissaBits + f.exponentBits) <;> cases s <;>
    simp only [hbit, if_true, if_false, Bool.false_eq_true] at hb h ⊢ <;> omega

theorem index_eq (b : BitVec w) : f.index b = if b.getLsbD (f.mantissaBits + f.exponentBits) then
    -(f.magnitudeBits b : ℤ) else f.magnitudeBits b := by
  rw [index, sign]
  split
  · rw [neg_one_mul]
  · rw [one_mul]

theorem toNat_one (hw : w = f.mantissaBits + f.exponentBits + 1) : (1#w).toNat = 1 := by
  rw [BitVec.toNat_ofNat, Nat.mod_eq_of_lt (Nat.one_lt_two_pow (by omega))]

theorem toNat_add_one (hw : w = f.mantissaBits + f.exponentBits + 1)
    (h : f.magnitudeBits b < f.finiteCount) : (b + 1#w).toNat = b.toNat + 1 := by
  have hb := toNat_eq_add (b := b) hw
  have hcount := finiteCount_lt (f := f)
  have hpow : 2 ^ w = 2 * 2 ^ (f.mantissaBits + f.exponentBits) := by rw [hw, Nat.pow_succ']
  rw [BitVec.toNat_add, toNat_one hw, Nat.mod_eq_of_lt]
  split at hb <;> omega

theorem toNat_sub_one (hw : w = f.mantissaBits + f.exponentBits + 1)
    (h : 0 < f.magnitudeBits b) : (b - 1#w).toNat = b.toNat - 1 := by
  have hb := toNat_eq_add (b := b) hw
  have hle : 1#w ≤ b := by
    rw [BitVec.le_def, toNat_one hw]
    omega
  rw [BitVec.toNat_sub_of_le hle, toNat_one hw]

/-- **One more is counted**, as long as there is a number left. -/
theorem index_nextUp (hw : w = f.mantissaBits + f.exponentBits + 1)
    (hpos : 0 < f.mantissaBits + f.exponentBits) (h : f.index b < f.finiteCount) :
    f.index (f.nextUp b) = f.index b + 1 := by
  have hb := toNat_eq_add (b := b) hw
  have hlt := magnitudeBits_lt (f := f) (b := b)
  have hcount := finiteCount_lt (f := f)
  rw [nextUp]
  split
  · rename_i h0
    have hone := (index_of_toNat (b := 1#w) (s := false) hw (Nat.one_lt_two_pow hpos.ne')
      (by rw [toNat_one hw, if_neg Bool.false_ne_true, Nat.zero_add])).2
    rw [hone, h0]
    rfl
  · rename_i h0
    have hindex := f.index_eq b
    split
    · rename_i hbit
      rw [if_pos hbit] at hindex hb
      have hsub := (index_of_toNat (b := b - 1#w) (s := true) (m := f.magnitudeBits b - 1) hw
        (by omega) (by rw [toNat_sub_one hw (by omega), hb, if_pos rfl]; omega)).2
      rw [hsub, hindex, if_pos rfl]
      omega
    · rename_i hbit
      rw [if_neg hbit] at hindex hb
      have hadd := (index_of_toNat (b := b + 1#w) (s := false) (m := f.magnitudeBits b + 1) hw
        (by omega) (by rw [toNat_add_one hw (by omega), hb, if_neg Bool.false_ne_true]; omega)).2
      rw [hadd, hindex, if_neg Bool.false_ne_true]
      push_cast
      rfl

theorem index_nextDown (hw : w = f.mantissaBits + f.exponentBits + 1)
    (hpos : 0 < f.mantissaBits + f.exponentBits) (h : -(f.finiteCount : ℤ) < f.index b) :
    f.index (f.nextDown b) = f.index b - 1 := by
  have hb := toNat_eq_add (b := b) hw
  have hlt := magnitudeBits_lt (f := f) (b := b)
  have hcount := finiteCount_lt (f := f)
  rw [nextDown]
  split
  · rename_i h0
    have hone := (index_of_toNat (b := BitVec.twoPow w (f.mantissaBits + f.exponentBits) + 1#w)
      (s := true) (m := 1) hw (Nat.one_lt_two_pow hpos.ne') ?_).2
    · rw [hone, h0]
      rfl
    · have hpow : 2 ^ w = 2 * 2 ^ (f.mantissaBits + f.exponentBits) := by rw [hw, Nat.pow_succ']
      have hone := Nat.one_lt_two_pow hpos.ne'
      rw [BitVec.toNat_add, toNat_one hw, BitVec.toNat_twoPow_of_lt (by omega), if_pos rfl,
        Nat.mod_eq_of_lt (by omega)]
  · rename_i h0
    have hindex := f.index_eq b
    split
    · rename_i hbit
      rw [if_pos hbit] at hindex hb
      have hadd := (index_of_toNat (b := b + 1#w) (s := true) (m := f.magnitudeBits b + 1) hw
        (by omega) (by rw [toNat_add_one hw (by omega), hb, if_pos rfl]; omega)).2
      rw [hadd, hindex, if_pos rfl]
      push_cast
      ring
    · rename_i hbit
      rw [if_neg hbit] at hindex hb
      have hsub := (index_of_toNat (b := b - 1#w) (s := false) (m := f.magnitudeBits b - 1) hw
        (by omega)
        (by rw [toNat_sub_one hw (by omega), hb, if_neg Bool.false_ne_true]; omega)).2
      rw [hsub, hindex, if_neg Bool.false_ne_true]
      omega

theorem finite_iff_abs_index : f.Finite b ↔ |f.index b| < f.finiteCount := by
  rw [finite_iff, index, abs_sign_mul, abs_of_nonneg (Int.natCast_nonneg _), Nat.cast_lt]

theorem Finite.ne_nan (h : f.Finite b) : f.floatClass b ≠ .nan := by
  rw [floatClass, if_neg h]
  split <;> try split
  all_goals decide

theorem mem_values (hw : w = f.mantissaBits + f.exponentBits + 1) (h : f.Finite b) :
    f.value b ∈ f.values := by
  subst hw
  exact ⟨b, h, rfl⟩

theorem nextAfter_of_lt (hw : w = f.mantissaBits + f.exponentBits + 1)
    (hpos : 0 < f.mantissaBits + f.exponentBits) (hb : f.Finite b) (hc : f.Finite c)
    (h : f.index b < f.index c) :
    f.index (f.nextAfter b c) = f.index b + 1 ∧ f.Finite (f.nextAfter b c) := by
  have hbc := abs_lt.mp (finite_iff_abs_index.mp hb)
  have hcc := abs_lt.mp (finite_iff_abs_index.mp hc)
  have hindex := index_nextUp hw hpos hbc.2
  rw [nextAfter, if_neg hb.ne_nan, if_neg hc.ne_nan, if_neg h.ne, if_pos h]
  refine ⟨hindex, ?_⟩
  rw [finite_iff_abs_index, hindex, abs_lt]
  omega

theorem nextAfter_of_gt (hw : w = f.mantissaBits + f.exponentBits + 1)
    (hpos : 0 < f.mantissaBits + f.exponentBits) (hb : f.Finite b) (hc : f.Finite c)
    (h : f.index c < f.index b) :
    f.index (f.nextAfter b c) = f.index b - 1 ∧ f.Finite (f.nextAfter b c) := by
  have hbc := abs_lt.mp (finite_iff_abs_index.mp hb)
  have hcc := abs_lt.mp (finite_iff_abs_index.mp hc)
  have hindex := index_nextDown hw hpos hbc.1
  rw [nextAfter, if_neg hb.ne_nan, if_neg hc.ne_nan, if_neg h.ne', if_neg h.not_gt]
  refine ⟨hindex, ?_⟩
  rw [finite_iff_abs_index, hindex, abs_lt]
  omega

/-! ### Directed rounding -/

/-- `x` is the greatest number that is not above `q`. -/
def RoundsDown (f : FloatFormat) (q x : ℚ) : Prop := IsGreatest {y ∈ f.values | y ≤ q} x

/-- `x` is the least number that is not below `q`. -/
def RoundsUp (f : FloatFormat) (q x : ℚ) : Prop := IsLeast {y ∈ f.values | q ≤ y} x

def RoundsTowardZero (f : FloatFormat) (q x : ℚ) : Prop :=
  if 0 ≤ q then f.RoundsDown q x else f.RoundsUp q x

/-- **A number is rounded down** to the last one before a larger number. -/
theorem roundsDown_of_lt (hw : w = f.mantissaBits + f.exponentBits + 1) (hb : f.Finite b) {q : ℚ}
    (hle : f.value b ≤ q) (hlt : q < f.numberAt (f.index b + 1)) :
    f.RoundsDown q (f.value b) := by
  refine ⟨⟨mem_values hw hb, hle⟩, ?_⟩
  intro y hy
  obtain ⟨⟨d, -, rfl⟩, hd⟩ := hy
  have hnext := lt_of_le_of_lt hd hlt
  rw [value_eq_numberAt, f.numberAt_strictMono.lt_iff_lt] at hnext
  rw [value_eq_numberAt, value_eq_numberAt, f.numberAt_strictMono.le_iff_le]
  exact Int.lt_add_one_iff.mp hnext

theorem roundsUp_of_lt (hw : w = f.mantissaBits + f.exponentBits + 1) (hb : f.Finite b) {q : ℚ}
    (hle : q ≤ f.value b) (hlt : f.numberAt (f.index b - 1) < q) : f.RoundsUp q (f.value b) := by
  refine ⟨⟨mem_values hw hb, hle⟩, ?_⟩
  intro y hy
  obtain ⟨⟨d, -, rfl⟩, hd⟩ := hy
  have hnext := lt_of_lt_of_le hlt hd
  rw [value_eq_numberAt, f.numberAt_strictMono.lt_iff_lt] at hnext
  rw [value_eq_numberAt, value_eq_numberAt, f.numberAt_strictMono.le_iff_le]
  omega

end

end FloatFormat
