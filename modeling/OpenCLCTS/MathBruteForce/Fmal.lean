import OpenCLCTS.MathBruteForce.Fma

/-!
# The reference of fma in double precision

`reference_fmal` does with pairs of words what `reference_fma` does with one word.  A shift by 64 bits
and more sets the sticky bit in any case: `shift_right_sticky_128` compares a pointer with 0 and not
the low word.

* `shiftRightSticky128_toNat`: what is shifted.
* `roundToNearestEvenDouble_eq`: the rounding.
* `referenceFmal_iff`: when the result is the exact one, rounded.
-/

namespace OpenCLCTS.MathBruteForce

open FloatFormat

/-! ### The reference -/

/-- The words of a number of 128 bits. -/
structure Wide where
  hi : BitVec 64
  lo : BitVec 64
  deriving DecidableEq

/-- `(hi << 64) + lo`. -/
def Wide.toNat (p : Wide) : ℕ := p.hi.toNat * 2 ^ 64 + p.lo.toNat

/-- `extract`. -/
def extract (x : BitVec 64) : BitVec 64 × ℤ := extractWord binary64 64 x

/-- `mul128`. -/
def mul128 (a b : BitVec 64) : Wide :=
  let mask : BitVec 64 := 0xffffffff
  let alo := a &&& mask
  let ahi := a >>> 32
  let blo := b &&& mask
  let bhi := b >>> 32
  let aloblo := alo * blo
  let ahiblo := ahi * blo
  let alobhi := alo * bhi + ((aloblo >>> 32) + (ahiblo &&& mask))
  ⟨ahi * bhi + (alobhi >>> 32) + (ahiblo >>> 32), aloblo &&& mask ||| alobhi <<< 32⟩

/-- `shift_right_sticky_128`. -/
def shiftRightSticky128 (p : Wide) (shift : ℕ) : Wide :=
  if 64 ≤ shift then
    -- `0 != lo` compares the pointer
    let sticky : BitVec 64 := 1
    let shift := shift - 64
    let sticky := sticky |||
      if 64 ≤ shift then if p.hi ≠ 0 then 1 else 0
      else if p.hi <<< (64 - shift) ≠ 0 then 1 else 0
    let l := if 64 ≤ shift then 0 else p.hi >>> shift
    ⟨0, l ||| sticky⟩
  else
    let sticky : BitVec 64 := if p.lo <<< (64 - shift) ≠ 0 then 1 else 0
    ⟨p.hi >>> shift, p.lo >>> shift ||| p.hi <<< (64 - shift) ||| sticky⟩

/-- `add128`. -/
def add128 (p c : Wide) (exponent : ℤ) : Wide × ℤ :=
  let low := addCarry p.lo c.lo
  let high := addCarry p.hi c.hi
  let sum := addCarry high.1 low.2
  if sum.2 ≠ 0 ∨ high.2 ≠ 0 then
    let carry := low.1 &&& 1
    (⟨sum.1 >>> 1 ||| 0x8000000000000000, low.1 >>> 1 ||| carry ||| sum.1 <<< 63⟩, exponent + 1)
  else (⟨sum.1, low.1⟩, exponent)

/-- `rHi <<= shift` with the bits that come from `rLo`. -/
def Wide.shiftLeft (p : Wide) (shift : ℕ) : Wide :=
  ⟨p.hi <<< shift ||| p.lo >>> (64 - shift), p.lo <<< shift⟩

/-- `sub128`; the loop is left after at most seven tests. -/
def sub128 (c p : Wide) (signC : BitVec 64) (expC : ℤ) : Option (Wide × BitVec 64 × ℤ) :=
  let low := subCarry c.lo p.lo
  let high := subCarry c.hi p.hi
  let difference := subCarry high.1 low.2
  let flip := difference.2 ≠ 0 ∨ high.2 ≠ 0
  let signC := if flip then signC ^^^ 0x8000000000000000 else signC
  let rLo := if flip then (low.1 ^^^ 0xffffffffffffffff) + 1 else low.1
  let rHi := if flip then
      (difference.1 ^^^ 0xffffffffffffffff) + if 0 = rLo then 1 else 0
    else difference.1
  let r : Wide := if rHi = 0 then ⟨rLo, 0⟩ else ⟨rHi, rLo⟩
  let expC := if rHi = 0 then expC - 64 else expC
  if r.hi ≠ 0 then
    (normalizeLoop Wide.hi Wide.shiftLeft 7 32 (1#64 <<< 32) r expC).map fun r =>
      (r.1, signC, r.2)
  else some (r, 0, -2 ^ 31)

/-- `round_to_nearest_even_double`. -/
def roundToNearestEvenDouble (p : Wide) (exponent : ℤ) : BitVec 64 :=
  if 1023 < exponent then 0x7ff0000000000000
  else if exponent = -1075 ∧ 0x8000000000000000 < p.hi ||| (if p.lo ≠ 0 then 1 else 0) then 1
  else if exponent ≤ -1075 then 0
  else
    let shift := if exponent < -1022 then (11 - (1022 + exponent)).toNat else 11
    let hi := if exponent < -1022 then p.hi else p.hi &&& 0x7fffffffffffffff
    let exponent := if exponent < -1022 then -1023 else exponent
    let u := assemble 64 52 1023 hi shift exponent
    let hi := hi <<< (64 - shift) ||| p.lo >>> shift
    let hi := hi ||| if p.lo <<< (64 - shift) ≠ 0 then 1 else 0
    if hi < 0x8000000000000000 then u
    else if hi = 0x8000000000000000 then u + (u &&& 1)
    else u + 1

/-- The infinite precision sum of a significand and one whose exponent is not greater. -/
def addAligned128 (product : Wide) (sign : BitVec 64) (exponent : ℤ) (addend : Wide)
    (signC : BitVec 64) (expC : ℤ) : Option (Wide × BitVec 64 × ℤ) :=
  let addend :=
    if expC < exponent then shiftRightSticky128 addend (exponent - expC).toNat else addend
  if sign ^^^ signC ≠ 0 then sub128 product addend sign exponent
  else
    let sum := add128 product addend exponent
    some (sum.1, sign, sum.2)

/-- The infinite precision sum; the two branches are the same, with the summands exchanged. -/
def infinitePrecisionAdd128 (product : Wide) (sign : BitVec 64) (exponent : ℤ) (addend : Wide)
    (signC : BitVec 64) (expC : ℤ) : Option (Wide × BitVec 64 × ℤ) :=
  if expC ≤ exponent then addAligned128 product sign exponent addend signC expC
  else addAligned128 addend signC expC product sign exponent

/-- The product with its leading bit at the top. -/
def renormalize128 (product : Wide) (exponent : ℤ) : Wide × ℤ :=
  if 0x8000000000000000 &&& product.hi = 0 then
    (⟨product.hi <<< 1 ||| product.lo >>> 63, product.lo <<< 1⟩, exponent)
  else (product, exponent + 1)

/-- `reference_fmal`; `hardware` is what it does with NaNs, infinities and zeros. -/
def referenceFmal (hardware : BitVec 64 → BitVec 64 → BitVec 64 → BitVec 64) (a b c : BitVec 64) :
    Option (BitVec 64) :=
  let kMSB : BitVec 64 := 0x8000000000000000
  if ¬ binary64.Finite a ∨ ¬ binary64.Finite b ∨ ¬ binary64.Finite c ∨ a &&& ~~~kMSB = 0 ∨
      b &&& ~~~kMSB = 0 ∨ c &&& ~~~kMSB = 0 then some (hardware a b c)
  else
    let mantA := (extract a).1
    let mantB := (extract b).1
    let mantC := (extract c).1
    let expC := (extract c).2
    let signC := c &&& kMSB
    let sign := (a ^^^ b) &&& kMSB
    let product := renormalize128 (mul128 mantA mantB) ((extract a).2 + (extract b).2)
    let sum := infinitePrecisionAdd128 product.1 sign product.2 ⟨mantC, 0⟩ signC expC
    sum.map fun r => roundToNearestEvenDouble r.1 r.2.2 ||| r.2.1

/-! ### Pairs of words -/

section

variable {p c : Wide} {n : ℕ} {e eC : ℤ}

theorem Wide.toNat_lt (p : Wide) : p.toNat < 2 ^ 128 := by
  have hhi := p.hi.isLt
  have hlo := p.lo.isLt
  rw [toNat]
  omega

theorem Wide.toNat_inj {p c : Wide} : p.toNat = c.toNat ↔ p = c := by
  have hp := p.lo.isLt
  have hc := c.lo.isLt
  constructor
  · intro h
    rw [toNat, toNat] at h
    obtain ⟨phi, plo⟩ := p
    obtain ⟨chi, clo⟩ := c
    simp only [mk.injEq, ← BitVec.toNat_inj] at h hp hc ⊢
    omega
  · intro h
    rw [h]

theorem Wide.lead_iff (p : Wide) : 2 ^ 127 ≤ p.toNat ↔ 2 ^ 63 ≤ p.hi.toNat := by
  have hlo := p.lo.isLt
  rw [toNat]
  omega

theorem Wide.hi_toNat (p : Wide) : p.hi.toNat = p.toNat / 2 ^ 64 := by
  have hlo := p.lo.isLt
  rw [toNat]
  omega

theorem or_toNat_eq_add {a b : ℕ} (k : ℕ) (hb : b < 2 ^ k) : a * 2 ^ k ||| b = a * 2 ^ k + b := by
  rw [Nat.mul_comm, Nat.two_pow_add_eq_or_of_lt hb]

theorem low_toNat (a : BitVec 64) : (a &&& 0xffffffff).toNat = a.toNat % 2 ^ 32 := by
  rw [BitVec.toNat_and, show (0xffffffff : BitVec 64).toNat = 2 ^ 32 - 1 from rfl,
    Nat.and_two_pow_sub_one_eq_mod]

theorem mul_toNat {a b : BitVec 64} (ha : a.toNat < 2 ^ 32) (hb : b.toNat < 2 ^ 32) :
    (a * b).toNat = a.toNat * b.toNat ∧ a.toNat * b.toNat ≤ (2 ^ 32 - 1) * (2 ^ 32 - 1) := by
  have hle : a.toNat * b.toNat ≤ (2 ^ 32 - 1) * (2 ^ 32 - 1) :=
    Nat.mul_le_mul (by omega) (by omega)
  rw [BitVec.toNat_mul, Nat.mod_eq_of_lt (by omega)]
  exact ⟨rfl, hle⟩

/-- **The product** of 128 bits. -/
theorem mul128_toNat (a b : BitVec 64) : (mul128 a b).toNat = a.toNat * b.toNat := by
  have ha := a.isLt
  have hb := b.isLt
  have hloA := low_toNat a
  have hloB := low_toNat b
  have hhiA := shiftRight_toNat a 32
  have hhiB := shiftRight_toNat b 32
  have haB : a.toNat = (a >>> 32).toNat * 2 ^ 32 + (a &&& 0xffffffff).toNat := by omega
  have hbB : b.toNat = (b >>> 32).toNat * 2 ^ 32 + (b &&& 0xffffffff).toNat := by omega
  have hprod : a.toNat * b.toNat = (a >>> 32).toNat * (b >>> 32).toNat * 2 ^ 64
      + ((a &&& 0xffffffff).toNat * (b >>> 32).toNat + (a >>> 32).toNat * (b &&& 0xffffffff).toNat)
        * 2 ^ 32 + (a &&& 0xffffffff).toNat * (b &&& 0xffffffff).toNat := by
    conv_lhs => rw [haB, hbB]
    ring
  obtain ⟨hll, hll'⟩ := mul_toNat (a := a &&& 0xffffffff) (b := b &&& 0xffffffff) (by omega) (by omega)
  obtain ⟨hlh, hlh'⟩ := mul_toNat (a := a &&& 0xffffffff) (b := b >>> 32) (by omega) (by omega)
  obtain ⟨hhl, hhl'⟩ := mul_toNat (a := a >>> 32) (b := b &&& 0xffffffff) (by omega) (by omega)
  obtain ⟨hhh, hhh'⟩ := mul_toNat (a := a >>> 32) (b := b >>> 32) (by omega) (by omega)
  rw [hprod, Wide.toNat, mul128]
  dsimp only
  generalize (a &&& 0xffffffff) * (b &&& 0xffffffff) = ll at *
  generalize (a &&& 0xffffffff) * (b >>> 32) = lh at *
  generalize (a >>> 32) * (b &&& 0xffffffff) = hl at *
  generalize (a >>> 32) * (b >>> 32) = hh at *
  rw [← hll, ← hlh, ← hhl, ← hhh]
  rw [← hll] at hll'
  rw [← hlh] at hlh'
  rw [← hhl] at hhl'
  rw [← hhh] at hhh'
  have hmid : (lh + ((ll >>> 32) + (hl &&& 0xffffffff))).toNat
      = lh.toNat + (ll.toNat / 2 ^ 32 + hl.toNat % 2 ^ 32) := by
    rw [BitVec.toNat_add, BitVec.toNat_add, shiftRight_toNat, low_toNat,
      Nat.mod_eq_of_lt (a := ll.toNat / 2 ^ 32 + hl.toNat % 2 ^ 32) (by omega),
      Nat.mod_eq_of_lt (by omega)]
  generalize lh + ((ll >>> 32) + (hl &&& 0xffffffff)) = mid at *
  have hhigh : (hh + (mid >>> 32) + (hl >>> 32)).toNat
      = hh.toNat + mid.toNat / 2 ^ 32 + hl.toNat / 2 ^ 32 := by
    rw [BitVec.toNat_add, BitVec.toNat_add, shiftRight_toNat, shiftRight_toNat,
      Nat.mod_eq_of_lt (a := hh.toNat + mid.toNat / 2 ^ 32) (by omega), Nat.mod_eq_of_lt (by omega)]
  have hlow : (ll &&& (0xffffffff : BitVec 64) ||| mid <<< 32).toNat
      = mid.toNat % 2 ^ 32 * 2 ^ 32 + ll.toNat % 2 ^ 32 := by
    rw [BitVec.toNat_or, low_toNat, show mid <<< 32 = mid <<< (64 - 32) from rfl,
      shiftLeft_toNat mid (by decide), Nat.or_comm, or_toNat_eq_add 32 (Nat.mod_lt _ (by decide))]
  rw [hhigh, hlow]
  omega

/-! ### Shifts -/

theorem Wide.or_low (hi lo b : BitVec 64) :
    (⟨hi, lo ||| b⟩ : Wide).toNat = (⟨hi, lo⟩ : Wide).toNat ||| b.toNat := by
  rw [toNat, toNat, BitVec.toNat_or, ← or_toNat_eq_add 64 lo.isLt, Nat.or_assoc, ← BitVec.toNat_or,
    or_toNat_eq_add 64 (lo ||| b).isLt]

theorem Wide.toNat_div (p : Wide) (n : ℕ) (hn : n ≤ 64) : p.toNat / 2 ^ n
    = p.hi.toNat / 2 ^ n * 2 ^ 64 + (p.hi.toNat % 2 ^ n * 2 ^ (64 - n) + p.lo.toNat / 2 ^ n) := by
  have hpow : 2 ^ 64 = 2 ^ (64 - n) * 2 ^ n := by rw [← Nat.pow_add, Nat.sub_add_cancel hn]
  have hhi := Nat.div_add_mod p.hi.toNat (2 ^ n)
  have hsplit : p.toNat = p.lo.toNat + 2 ^ n * (p.hi.toNat / 2 ^ n * 2 ^ 64
      + p.hi.toNat % 2 ^ n * 2 ^ (64 - n)) := by
    rw [toNat]
    conv_lhs => rw [← hhi]
    rw [Nat.mul_add, Nat.add_mul]
    conv_lhs => arg 1; arg 2; rw [hpow]
    ring
  rw [hsplit, Nat.add_mul_div_left _ _ (Nat.two_pow_pos n)]
  ring

theorem Wide.toNat_mod (p : Wide) (n : ℕ) (hn : n ≤ 64) :
    p.toNat % 2 ^ n = p.lo.toNat % 2 ^ n := by
  rw [toNat, Nat.add_mod, Nat.mod_eq_zero_of_dvd ((Nat.pow_dvd_pow 2 hn).mul_left _), Nat.zero_add,
    Nat.mod_mod]

theorem shiftInto_toNat (p : Wide) {n : ℕ} (hn : n ≤ 64) :
    (p.lo >>> n ||| p.hi <<< (64 - n)).toNat
      = p.hi.toNat % 2 ^ n * 2 ^ (64 - n) + p.lo.toNat / 2 ^ n := by
  have hlt : p.lo.toNat / 2 ^ n < 2 ^ (64 - n) := by
    rw [Nat.div_lt_iff_lt_mul (Nat.two_pow_pos n), ← Nat.pow_add, Nat.sub_add_cancel hn]
    exact p.lo.isLt
  rw [BitVec.toNat_or, shiftRight_toNat, shiftLeft_toNat _ hn, Nat.or_comm,
    or_toNat_eq_add _ hlt]

/-- **A short shift** to the right. -/
theorem shiftRightSticky128_toNat (p : Wide) {n : ℕ} (hn : n < 64) :
    (shiftRightSticky128 p n).toNat = jam p.toNat n := by
  have hzero := not_congr (shiftLeft_eq_zero_iff p.lo (n := n) hn.le)
  rw [← Wide.toNat_mod p n hn.le] at hzero
  rw [shiftRightSticky128, if_neg (not_le.mpr hn), Wide.or_low, toNat_ite_one hzero, Wide.toNat,
    shiftRight_toNat, shiftInto_toNat p hn.le, ← Wide.toNat_div p n hn.le, jam]

/-- **A long shift** to the right: the sticky bit is always set. -/
theorem shiftRightSticky128_of_le (p : Wide) {n : ℕ} (hn : 64 ≤ n) :
    (shiftRightSticky128 p n).toNat = p.toNat / 2 ^ n ||| 1 := by
  have hpow : 2 ^ n = 2 ^ 64 * 2 ^ (n - 64) := by rw [← Nat.pow_add, Nat.add_sub_cancel' hn]
  have hhigh : (if 64 ≤ n - 64 then 0 else p.hi >>> (n - 64)).toNat = p.toNat / 2 ^ n := by
    rw [hpow, ← Nat.div_div_eq_div_mul, ← Wide.hi_toNat]
    split
    · rename_i h
      rw [Nat.div_eq_of_lt (lt_of_lt_of_le p.hi.isLt (Nat.pow_le_pow_right two_pos h))]
      rfl
    · exact shiftRight_toNat _ _
  have hsticky (P : Prop) [Decidable P] :
      ((1 : BitVec 64) ||| if P then 1 else 0).toNat = 1 := by
    split <;> rfl
  have hite : (if 64 ≤ n - 64 then if p.hi ≠ 0 then (1 : BitVec 64) else 0
      else if p.hi <<< (64 - (n - 64)) ≠ 0 then 1 else 0)
      = if (if 64 ≤ n - 64 then p.hi ≠ 0 else p.hi <<< (64 - (n - 64)) ≠ 0) then 1 else 0 := by
    split <;> rfl
  rw [shiftRightSticky128, if_pos hn]
  dsimp only
  rw [Wide.or_low, hite, hsticky, Wide.toNat, hhigh]
  simp

/-- **A shift to the left**. -/
theorem Wide.shiftLeft_toNat (p : Wide) {n : ℕ} (hn : n ≤ 64) (hlt : p.hi.toNat < 2 ^ (64 - n)) :
    (p.shiftLeft n).toNat = p.toNat * 2 ^ n := by
  have hsub : 64 - (64 - n) = n := by omega
  have hmod : p.hi.toNat % 2 ^ (64 - n) = p.hi.toNat := Nat.mod_eq_of_lt hlt
  have hhigh := shiftInto_toNat ⟨p.hi, p.lo⟩ (n := 64 - n) (by omega)
  have hlow := MathBruteForce.shiftLeft_toNat p.lo (n := 64 - n) (by omega)
  have hlo := Nat.div_add_mod p.lo.toNat (2 ^ (64 - n))
  have hpow : 2 ^ 64 = 2 ^ (64 - n) * 2 ^ n := by rw [← Nat.pow_add, Nat.sub_add_cancel hn]
  rw [hsub] at hhigh hlow
  rw [hmod, BitVec.or_comm] at hhigh
  rw [shiftLeft, toNat, hhigh, hlow, toNat]
  conv_rhs => rw [← hlo]
  rw [hpow]
  ring

/-! ### Addition and subtraction -/

theorem carry_toNat (a b : BitVec 64) :
    (addCarry a b).2.toNat = (a.toNat + b.toNat) / 2 ^ 64 := by
  obtain ⟨-, hcarry⟩ := addCarry_eq a b
  have ha := a.isLt
  have hb := b.isLt
  have hbit : (addCarry a b).2 = 0 ∨ (addCarry a b).2 = 1 := by
    rw [addCarry]
    split
    · exact .inr rfl
    · exact .inl rfl
  rcases hbit with hbit | hbit
  · have hsmall := mt hcarry.mpr (not_not.mpr hbit)
    rw [hbit, show (0 : BitVec 64).toNat = 0 from rfl]
    omega
  · have hlarge := hcarry.mp (by rw [hbit]; decide)
    rw [hbit, show (1 : BitVec 64).toNat = 1 from rfl]
    omega

theorem borrow_toNat (a b : BitVec 64) :
    (subCarry a b).2.toNat = if a.toNat < b.toNat then 1 else 0 := by
  obtain ⟨-, hcarry⟩ := subCarry_eq a b
  have hbit : (subCarry a b).2 = 0 ∨ (subCarry a b).2 = 1 := by
    rw [subCarry]
    split
    · exact .inr rfl
    · exact .inl rfl
  rcases hbit with hbit | hbit
  · rw [hbit, if_neg (mt hcarry.mpr (not_not.mpr hbit))]
    rfl
  · rw [hbit, if_pos (hcarry.mp (by rw [hbit]; decide))]
    rfl

/-- **A sum** without its carry, and with it. -/
theorem add128_eq (p c : Wide) (e : ℤ) :
    (p.toNat + c.toNat < 2 ^ 128 →
      (add128 p c e).1.toNat = p.toNat + c.toNat ∧ (add128 p c e).2 = e) ∧
    (2 ^ 128 ≤ p.toNat + c.toNat →
      (add128 p c e).1.toNat = jam (p.toNat + c.toNat) 1 ∧ (add128 p c e).2 = e + 1) := by
  obtain ⟨hlow, -⟩ := addCarry_eq p.lo c.lo
  obtain ⟨hhigh, hhighCarry⟩ := addCarry_eq p.hi c.hi
  obtain ⟨hsum, hsumCarry⟩ := addCarry_eq (addCarry p.hi c.hi).1 (addCarry p.lo c.lo).2
  have hcarry := carry_toNat p.lo c.lo
  have hphi := p.hi.isLt
  have hplo := p.lo.isLt
  have hchi := c.hi.isLt
  have hclo := c.lo.isLt
  rw [add128]
  dsimp only
  generalize (addCarry p.lo c.lo).1 = low at *
  generalize (addCarry p.lo c.lo).2 = lowCarry at *
  generalize (addCarry p.hi c.hi).2 = highCarry at *
  generalize addCarry (addCarry p.hi c.hi).1 lowCarry = sum at *
  rw [hhigh, hcarry] at hsum hsumCarry
  have hcarries : sum.2 ≠ 0 ∨ highCarry ≠ 0 ↔ 2 ^ 128 ≤ p.toNat + c.toNat := by
    rw [hsumCarry, hhighCarry, Wide.toNat, Wide.toNat]
    omega
  constructor
  · intro h
    rw [if_neg (fun h' => by have := hcarries.mp h'; omega)]
    refine ⟨?_, rfl⟩
    rw [Wide.toNat, Wide.toNat] at h
    rw [Wide.toNat, Wide.toNat, Wide.toNat, hsum, hlow]
    omega
  · intro h
    rw [if_pos (hcarries.mpr h)]
    refine ⟨?_, rfl⟩
    -- the last bit of the high word goes to the low one
    have hinto : (low >>> 1 ||| sum.1 <<< 63).toNat = _ :=
      shiftInto_toNat ⟨sum.1, low⟩ (n := 1) (by decide)
    have hor (carry : BitVec 64) :
        low >>> 1 ||| carry ||| sum.1 <<< 63 = low >>> 1 ||| sum.1 <<< 63 ||| carry := by
      rw [BitVec.or_assoc, BitVec.or_comm carry, ← BitVec.or_assoc]
    have htop : (sum.1 >>> 1 ||| 0x8000000000000000).toNat = 2 ^ 63 + sum.1.toNat / 2 := by
      have hlt := sum.1.isLt
      have hadd := Nat.two_pow_add_eq_or_of_lt (i := 63) (b := sum.1.toNat / 2) (by omega) 1
      rw [BitVec.toNat_or, shiftRight_toNat, Nat.pow_one, Nat.or_comm]
      rw [Nat.mul_one] at hadd
      exact hadd.symm
    have hand : (low &&& 1).toNat = if (p.toNat + c.toNat) % 2 ^ 1 = 0 then 0 else 1 := by
      rw [BitVec.toNat_and, show (1 : BitVec 64).toNat = 1 from rfl, Nat.and_one_is_mod, Wide.toNat,
        Wide.toNat]
      split <;> omega
    rw [hor, Wide.or_low, hand, jam]
    congr 1
    rw [Wide.toNat, htop, hinto]
    rw [Wide.toNat, Wide.toNat] at h ⊢
    dsimp only
    omega

theorem normalizeLoop_wide {p : Wide} (hp : p.hi ≠ 0) (e : ℤ) : Normalized Wide.hi Wide.toNat p e
    (normalizeLoop Wide.hi Wide.shiftLeft 7 32 (1#64 <<< 32) p e) := by
  have hpos : p.hi.toNat ≠ 0 := fun h => hp (BitVec.eq_of_toNat_eq h)
  exact normalizeLoop_eq (c := 64) (k := 5) Wide.hi_toNat
    (fun p s _ hs hlt => p.shiftLeft_toNat (by omega) hlt) le_rfl p e (Nat.pos_of_ne_zero hpos)

theorem Wide.toNat_neg (p : Wide) : (⟨(p.hi ^^^ 0xffffffffffffffff)
      + if 0 = (p.lo ^^^ 0xffffffffffffffff) + 1 then 1 else 0,
      (p.lo ^^^ 0xffffffffffffffff) + 1⟩ : Wide).toNat = (2 ^ 128 - p.toNat) % 2 ^ 128 := by
  have hneg (a : BitVec 64) : (a ^^^ 0xffffffffffffffff).toNat = 2 ^ 64 - 1 - a.toNat := by
    rw [show (0xffffffffffffffff : BitVec 64) = BitVec.allOnes 64 from rfl, BitVec.xor_allOnes,
      BitVec.toNat_not]
  have hlo : ((p.lo ^^^ 0xffffffffffffffff) + 1).toNat = (2 ^ 64 - p.lo.toNat) % 2 ^ 64 := by
    have hlt := p.lo.isLt
    rw [BitVec.toNat_add, hneg, show (1 : BitVec 64).toNat = 1 from rfl]
    omega
  have hzero : 0 = (p.lo ^^^ 0xffffffffffffffff) + 1 ↔ p.lo.toNat = 0 := by
    have hlt := p.lo.isLt
    rw [← BitVec.toNat_inj, hlo, show (0 : BitVec 64).toNat = 0 from rfl]
    omega
  have hplo := p.lo.isLt
  have hphi := p.hi.isLt
  simp only [hzero]
  rw [toNat, toNat, hlo, BitVec.toNat_add, hneg]
  split
  · rw [show (1 : BitVec 64).toNat = 1 from rfl]
    omega
  · rw [show (0 : BitVec 64).toNat = 0 from rfl]
    omega

theorem subCarry128 (c p : Wide) : ∃ low high difference : BitVec 64 × BitVec 64,
    low = subCarry c.lo p.lo ∧ high = subCarry c.hi p.hi ∧
    difference = subCarry high.1 low.2 ∧
    (difference.2 ≠ 0 ∨ high.2 ≠ 0 ↔ c.toNat < p.toNat) ∧
    (⟨difference.1, low.1⟩ : Wide).toNat = (c.toNat + (2 ^ 128 - p.toNat)) % 2 ^ 128 := by
  obtain ⟨hlow, hlowCarry⟩ := subCarry_eq c.lo p.lo
  obtain ⟨hhigh, hhighCarry⟩ := subCarry_eq c.hi p.hi
  obtain ⟨hsum, hsumCarry⟩ := subCarry_eq (subCarry c.hi p.hi).1 (subCarry c.lo p.lo).2
  have hborrow := borrow_toNat c.lo p.lo
  have hphi := p.hi.isLt
  have hplo := p.lo.isLt
  have hchi := c.hi.isLt
  have hclo := c.lo.isLt
  refine ⟨_, _, _, rfl, rfl, rfl, ?_, ?_⟩
  · rw [hsumCarry, hhighCarry, hborrow, hhigh, BitVec.toNat_sub, Wide.toNat, Wide.toNat]
    split <;> omega
  · rw [Wide.toNat, Wide.toNat, Wide.toNat, hsum, hhigh, hlow, BitVec.toNat_sub, BitVec.toNat_sub,
      BitVec.toNat_sub, hborrow]
    split <;> omega

/-- **A difference**, normalized. -/
theorem sub128_eq (c p : Wide) (signC : BitVec 64) (e : ℤ) :
    (c = p → sub128 c p signC e = some (⟨0, 0⟩, 0, -2 ^ 31)) ∧
    (c ≠ p → ∃ r j, sub128 c p signC e = some (r,
        if c.toNat < p.toNat then signC ^^^ 0x8000000000000000 else signC, e - (j : ℕ)) ∧
      r.toNat = (c.toNat - p.toNat : ℤ).natAbs * 2 ^ j ∧ 2 ^ 127 ≤ r.toNat) := by
  obtain ⟨low, high, difference, hlow, hhigh, hdifference, hflip, hwide⟩ := subCarry128 c p
  have hc := c.toNat_lt
  have hp := p.toNat_lt
  obtain ⟨r, hr⟩ : ∃ r : Wide, r = if c.toNat < p.toNat then
      ⟨(difference.1 ^^^ 0xffffffffffffffff)
        + if 0 = (low.1 ^^^ 0xffffffffffffffff) + 1 then 1 else 0,
        (low.1 ^^^ 0xffffffffffffffff) + 1⟩ else ⟨difference.1, low.1⟩ := ⟨_, rfl⟩
  have hdist : r.toNat = (c.toNat - p.toNat : ℤ).natAbs := by
    rw [hr]
    split
    · rw [Wide.toNat_neg ⟨difference.1, low.1⟩, hwide]
      omega
    · rw [hwide]
      omega
  -- a high word that is 0 is skipped
  obtain ⟨r', hr'⟩ : ∃ r' : Wide, r' = if r.hi = 0 then ⟨r.lo, 0⟩ else r := ⟨_, rfl⟩
  obtain ⟨signC', hsignC'⟩ : ∃ signC',
    signC' = if c.toNat < p.toNat then signC ^^^ 0x8000000000000000 else signC := ⟨_, rfl⟩
  have hunfold : sub128 c p signC e = if r'.hi ≠ 0 then
      (normalizeLoop Wide.hi Wide.shiftLeft 7 32 (1#64 <<< 32) r'
        (if r.hi = 0 then e - 64 else e)).map fun r => (r.1, signC', r.2)
      else some (r', 0, -2 ^ 31) := by
    rw [sub128, ← hlow, ← hhigh, ← hdifference]
    simp only [hflip, hr', hr, hsignC']
    by_cases h : c.toNat < p.toNat
    · simp only [if_pos h]
    · simp only [if_neg h]
  rw [hunfold]
  constructor
  · intro h
    rw [h, sub_self, Int.natAbs_zero] at hdist
    have hzero : r = ⟨0, 0⟩ := Wide.toNat_inj.mp hdist
    rw [hzero, if_pos rfl] at hr'
    rw [hr', if_neg (not_not.mpr rfl)]
  · intro h
    have hne : c.toNat ≠ p.toNat := fun h' => h (Wide.toNat_inj.mp h')
    obtain ⟨k, hk, hexp, hhi⟩ : ∃ k : ℕ, r'.toNat = r.toNat * 2 ^ k ∧
        (if r.hi = 0 then e - 64 else e) = e - (k : ℕ) ∧ r'.hi ≠ 0 := by
      by_cases hzero : r.hi = 0
      · refine ⟨64, ?_, if_pos hzero, ?_⟩
        · rw [hr', if_pos hzero, Wide.toNat, Wide.toNat, hzero]
          simp
        · rw [hr', if_pos hzero]
          intro hlo
          have hlo : r.lo = 0 := hlo
          rw [Wide.toNat, hzero, hlo, show (0 : BitVec 64).toNat = 0 from rfl] at hdist
          omega
      · refine ⟨0, ?_, ?_, ?_⟩
        · rw [hr', if_neg hzero, Nat.pow_zero, Nat.mul_one]
        · rw [if_neg hzero, Nat.cast_zero, sub_zero]
        · rwa [hr', if_neg hzero]
    obtain ⟨r'', j, hloop, hval, hlead⟩ := (normalizeLoop_wide hhi (e - (k : ℕ))).of_shift hk
    rw [if_pos hhi, hexp, hloop, ← hsignC']
    exact ⟨r'', j, rfl, by rw [hval, hdist], (Wide.lead_iff r'').mpr hlead⟩

/-! ### Rounding -/

/-- The number of a significand of two words. -/
def wideValue (p : Wide) (e : ℤ) : ℚ := (p.toNat : ℚ) * 2 ^ (e - 127)

theorem log_wideValue (hp : 2 ^ 127 ≤ p.toNat) (e : ℤ) : Int.log 2 (wideValue p e) = e := by
  have hlog := log_significand (t := 127) hp p.toNat_lt e
  rwa [Nat.cast_ofNat] at hlog

/-- **The bits that are lost**, compared with half of the last one; `h` is the high word, with or
without its leading bit. -/
theorem lostWide_iff (p : Wide) {h : BitVec 64} (hn : n ≤ 64)
    (hh : h.toNat % 2 ^ n = p.hi.toNat % 2 ^ n) (q : BitVec 64)
    (hq : q = h <<< (64 - n) ||| p.lo >>> n ||| if p.lo <<< (64 - n) ≠ 0 then 1 else 0) :
    (2 ^ 63 < q.toNat ↔ 2 ^ (n + 64) < 2 * (p.toNat % 2 ^ (n + 64))) ∧
      (2 ^ 63 = q.toNat ↔ 2 ^ (n + 64) = 2 * (p.toNat % 2 ^ (n + 64))) := by
  have hpow : 2 ^ (n + 64) = 2 * (2 * 2 ^ 62 * 2 ^ n) := by
    rw [Nat.pow_add]
    omega
  have hjam : q.toNat = jam (p.toNat % 2 ^ (n + 64)) n := by
    have hlo : p.toNat % 2 ^ 64 = p.lo.toNat := by
      rw [p.toNat_mod 64 le_rfl, Nat.mod_eq_of_lt p.lo.isLt]
    have hrest : p.toNat % 2 ^ (n + 64)
        = p.lo.toNat + 2 ^ n * (p.hi.toNat % 2 ^ n * 2 ^ (64 - n)) := by
      have hsplit : 2 ^ 64 = 2 ^ n * 2 ^ (64 - n) := by rw [← Nat.pow_add, Nat.add_sub_cancel' hn]
      rw [Nat.add_comm n, Nat.pow_add, Nat.mod_mul, hlo, ← p.hi_toNat, Nat.mul_left_comm, ← hsplit,
        Nat.mul_comm]
    have hzero := not_congr (shiftLeft_eq_zero_iff p.lo hn)
    have hinto := shiftInto_toNat ⟨h, p.lo⟩ hn
    rw [BitVec.or_comm] at hinto
    rw [hq, BitVec.toNat_or, toNat_ite_one hzero, hinto, hh, jam, hrest,
      Nat.add_mul_div_left _ _ (Nat.two_pow_pos n), Nat.add_mul_mod_self_left, Nat.add_comm]
  have hcompare := jam_compare (p.toNat % 2 ^ (n + 64)) n (2 ^ 62)
  rw [← hjam, ← Nat.pow_succ'] at hcompare
  rw [hcompare.1, hcompare.2, hpow]
  omega

theorem lt_or_sticky (hp : 2 ^ 127 ≤ p.toNat) :
    0x8000000000000000 < p.hi ||| (if p.lo ≠ 0 then 1 else 0) ↔ 2 ^ 127 < p.toNat := by
  have hlead := p.lead_iff.mp hp
  have hlo := p.lo.isLt
  have hzero : p.lo ≠ 0 ↔ ¬ p.lo.toNat = 0 := by
    rw [ne_eq, ← BitVec.toNat_inj]
    rfl
  rw [BitVec.lt_def, BitVec.toNat_or, toNat_ite_one hzero, Wide.toNat,
    show (0x8000000000000000 : BitVec 64).toNat = 2 ^ 63 from rfl]
  split
  · rename_i h
    rw [Nat.or_zero]
    omega
  · rename_i h
    have hle : p.hi.toNat ≤ p.hi.toNat ||| 1 := Nat.left_le_or
    have hodd := Nat.or_mod_two_eq_one (a := p.hi.toNat) (b := 1)
    exact iff_of_true (by omega) (by omega)

/-- **The rounding to nearest** is right. -/
theorem roundToNearestEvenDouble_eq (hp : 2 ^ 127 ≤ p.toNat) (e : ℤ) :
    roundToNearestEvenDouble p e = binary64.ofRat .toNearest false (wideValue p e) := by
  have hlt := p.toNat_lt
  have hlead := p.lead_iff.mp hp
  have hhi := p.hi.isLt
  have hround := toNat_ofRat_toNearest (f := binary64) (w := 64) false rfl hp hlt (by decide) e
  have hcount : binary64.finiteCount = 0x7ff0000000000000 := rfl
  apply BitVec.eq_of_toNat_eq
  rw [show binary64.minExp = -1022 from rfl, show binary64.mantissaBits = 52 from rfl, hcount] at hround
  refine Eq.trans ?_ hround.symm
  rw [roundToNearestEvenDouble]
  have hdiv (s : ℕ) : p.toNat / 2 ^ (s + 64) = p.hi.toNat / 2 ^ s := by
    rw [Nat.add_comm, Nat.pow_add, ← Nat.div_div_eq_div_mul, ← p.hi_toNat]
  by_cases hnormal : -1022 ≤ e
  · have hbounds := nearestShift_le p.toNat 75
    have hdiv' := hdiv 11
    have hsub : 127 - 52 + (-1022 - e).toNat = 75 := by omega
    rw [hsub]
    split
    · rename_i hlarge
      rw [Nat.min_eq_left (by omega)]
      rfl
    · rename_i hsmall
      have hmant := toNat_and_mantissa hlead
      have hassemble : (assemble 64 52 1023 (p.hi &&& 0x7fffffffffffffff) 11 e).toNat
          = 2 * ((e + 1022).toNat * 2 ^ 51) + p.toNat / 2 ^ 75 := by
        rw [assemble_toNat (by decide) (by rw [hmant]; omega) (by omega) (by norm_num; omega), hmant]
        omega
      have hlost := lostWide_iff p (h := p.hi &&& 0x7fffffffffffffff) (n := 11) (by decide)
        (by rw [hmant]; omega) _ rfl
      rw [if_neg (by omega), if_neg (by omega)]
      simp only [if_neg (not_lt.mpr hnormal)]
      rw [roundUp_eq_nearestShift (n := (e + 1022).toNat * 2 ^ 51) (m := p.toNat) (s := 75)
        (by decide) hassemble (by rw [hassemble]; omega) hlost, Nat.min_eq_right (by omega)]
      omega
  · obtain ⟨s, hs⟩ : ∃ s, s = (-1011 - e).toNat := ⟨_, rfl⟩
    have hsub : 127 - 52 + (-1022 - e).toNat = s + 64 := by omega
    rw [hsub, show (e - -1022).toNat = 0 by omega, Nat.zero_mul, Nat.zero_add, if_neg (by omega)]
    by_cases hleast : e ≤ -1075
    · have hshift := nearestShift_of_lt (t := 127) (s := s + 64) hp hlt (by omega)
      have hless : (e = -1075 ∧ 0x8000000000000000 < p.hi ||| if p.lo ≠ 0 then 1 else 0) ↔
          s + 64 = 128 ∧ 2 ^ 127 < p.toNat :=
        and_congr (by omega) (lt_or_sticky hp)
      rw [hshift]
      by_cases habove : s + 64 = 128 ∧ 2 ^ 127 < p.toNat
      · rw [if_pos (hless.mpr habove), if_pos habove]
        rfl
      · rw [if_neg (fun h => habove (hless.mp h)), if_pos hleast, if_neg habove]
        rfl
    · have hshift : (11 - (1022 + e)).toNat = s := by omega
      have hbounds := nearestShift_le p.toNat (s + 64)
      have hdiv' := hdiv s
      have hsmall : p.hi.toNat / 2 ^ s < 2 ^ 52 := by
        rw [Nat.div_lt_iff_lt_mul (Nat.two_pow_pos s), ← Nat.pow_add]
        exact lt_of_lt_of_le hhi (Nat.pow_le_pow_right two_pos (by omega))
      have hassemble : (assemble 64 52 1023 p.hi s (-1023)).toNat = p.hi.toNat / 2 ^ s := by
        rw [assemble_toNat (by decide) hsmall (by decide) (by decide)]
        simp
      have hlost := lostWide_iff p (h := p.hi) (n := s) (by omega) rfl _ rfl
      rw [if_neg (by omega), if_neg hleast]
      simp only [if_pos (not_le.mp hnormal), hshift]
      rw [roundUp_eq_nearestShift (n := 0) (m := p.toNat) (s := s + 64) (by decide)
        (by rw [hassemble]; omega) (by rw [hassemble]; omega) hlost, Nat.min_eq_right (by omega)]
      omega

/-! ### The sum -/

variable {neg negC : Bool} {i d : ℕ} {x : ℚ}

/-- **The sum of aligned significands**, rounded. -/
theorem sum_round {p n : Wide} (halign : Aligned 127 i p.toNat x n.toNat) (hx : 0 ≤ x) (hi : i ≤ 73)
    (neg negC : Bool) (e : ℤ) :
    ((if signWord 64 neg ^^^ signWord 64 negC ≠ 0 then sub128 p n (signWord 64 neg) e
      else some ((add128 p n e).1, signWord 64 neg, (add128 p n e).2)).map fun r =>
        roundToNearestEvenDouble r.1 r.2.2 ||| r.2.1)
      = some (binary64.ofRat .toNearest false
        ((sgn neg * p.toNat + sgn negC * x) * 2 ^ (e - (127 : ℕ)))) := by
  have hround {v : ℚ} {r : Wide} {neg' : Bool} {e' : ℤ} (h : IsSum 127 (i + 1) v r.toNat neg' e') :
      roundToNearestEvenDouble r e' ||| signWord 64 neg' = binary64.ofRat .toNearest false v := by
    have hmode : Mode.neg .toNearest = .toNearest := rfl
    have hof := h.ofRat_eq (f := binary64) (w := 64)
      (by rw [show binary64.mantissaBits = 52 from rfl]; omega) rfl hmode false
    rw [roundToNearestEvenDouble_eq h.lead, hof]
    rfl
  by_cases hsign : neg = negC
  · rw [if_neg (by rw [signWord_xor_ne_zero (by decide)]; exact not_not.mpr hsign)]
    subst hsign
    obtain ⟨hadd, hcarry⟩ := add128_eq p n e
    rw [Option.map_some, Option.some_inj]
    exact hround (halign.isSum_of_add hx neg (add128 p n e).1.toNat_lt hadd hcarry)
  · have hneg : negC = !neg := by cases neg <;> cases negC <;> simp_all
    rw [if_pos (by rw [signWord_xor_ne_zero (by decide)]; exact hsign)]
    subst hneg
    obtain ⟨hzero, hsub⟩ := sub128_eq p n (signWord 64 neg) e
    by_cases heq : p = n
    · rw [hzero heq, halign.sub_eq_zero neg (congrArg Wide.toNat heq), ofRat_zero]
      rfl
    · obtain ⟨r, j, hr, hval, hlead⟩ := hsub heq
      have hmsb : (0x8000000000000000 : BitVec 64) = BitVec.twoPow 64 (64 - 1) := by decide
      have hsigns : (if p.toNat < n.toNat then signWord 64 !neg else signWord 64 neg)
          = signWord 64 (if p.toNat < n.toNat then !neg else neg) := by
        split <;> rfl
      rw [hr, Option.map_some, Option.some_inj, hmsb, signWord_xor, hsigns]
      refine hround ?_
      rw [hval]
      exact halign.isSum_sub neg e (fun h => heq (Wide.toNat_inj.mp h)) (hval ▸ hlead)
        (hval ▸ Wide.toNat_lt r)

/-- The sum of two significands, with their exponents. -/
def sumValue (neg : Bool) (p : Wide) (e : ℤ) (negC : Bool) (c : Wide) (eC : ℤ) : ℚ :=
  sgn neg * wideValue p e + sgn negC * wideValue c eC

theorem sumValue_eq (neg : Bool) (p : Wide) (e : ℤ) (negC : Bool) (c : Wide) (hd : e = eC + d) :
    sumValue neg p e negC c eC
      = (sgn neg * p.toNat + sgn negC * ((c.toNat : ℚ) / 2 ^ d)) * 2 ^ (e - (127 : ℕ)) :=
  add_significands 127 (sgn neg) (sgn negC) p.toNat c.toNat hd

/-- What the addition returns, rounded. -/
def roundedSum (neg : Bool) (p : Wide) (e : ℤ) (negC : Bool) (c : Wide) (eC : ℤ) :
    Option (BitVec 64) :=
  (addAligned128 p (signWord 64 neg) e c (signWord 64 negC) eC).map fun r =>
    roundToNearestEvenDouble r.1 r.2.2 ||| r.2.1

/-- **Exponents that are close.** -/
theorem roundedSum_close (hp : 2 ^ 127 ≤ p.toNat) (hp2 : 2 ∣ p.toNat) (hc2 : 2 ∣ c.toNat)
    (hd : e = eC + d) (hd64 : d < 64) : roundedSum neg p e negC c eC
      = some (binary64.ofRat .toNearest false (sumValue neg p e negC c eC)) := by
  obtain ⟨n, hn⟩ : ∃ n, n = if eC < e then shiftRightSticky128 c (e - eC).toNat else c := ⟨_, rfl⟩
  have hshift : n.toNat = jam c.toNat d := by
    rcases Nat.eq_zero_or_pos d with rfl | hpos
    · rw [hn, if_neg (by omega), jam_zero]
    · rw [hn, if_pos (by omega), show (e - eC).toNat = d by omega, shiftRightSticky128_toNat c hd64]
  have halign := aligned_jam (t := 127) (by decide) hp p.toNat_lt hp2 c.toNat_lt hc2 d
  rw [← hshift] at halign
  have hx : (0 : ℚ) ≤ (c.toNat : ℚ) / 2 ^ d := div_nonneg (Nat.cast_nonneg _) (pow_nonneg zero_le_two d)
  rw [roundedSum, addAligned128, ← hn, sumValue_eq neg p e negC c hd]
  exact sum_round halign hx (by decide) neg negC e

theorem div_two_pow_lt (c : Wide) (hd : 64 ≤ d) : (c.toNat : ℚ) / 2 ^ d < 2 ^ 64 := by
  have hlt : (c.toNat : ℚ) < 2 ^ 128 := by exact_mod_cast c.toNat_lt
  have hle : (2 : ℚ) ^ 128 ≤ 2 ^ 64 * 2 ^ d := by
    rw [← pow_add]
    exact pow_le_pow_right₀ one_le_two (by omega)
  rw [div_lt_iff₀ (pow_pos two_pos d)]
  exact hlt.trans_le hle

theorem roundedSum_far {n : Wide} (hd : e = eC + d) (hd64 : 64 ≤ d)
    (hn : n = shiftRightSticky128 c d) (halign : Aligned 127 i p.toNat x n.toNat) (hx : 0 ≤ x)
    (hi : i ≤ 73) : roundedSum neg p e negC c eC = some (binary64.ofRat .toNearest false
      ((sgn neg * p.toNat + sgn negC * x) * 2 ^ (e - (127 : ℕ)))) := by
  rw [roundedSum, addAligned128, if_pos (show eC < e by omega),
    show (e - eC).toNat = d by omega, ← hn]
  exact sum_round halign hx hi neg negC e

/-- **The product is far below**: it is smaller than half of the last bits, and so is 1. -/
theorem roundedSum_product (hp : 2 ^ 127 ≤ p.toNat) (hp65 : 2 ^ 65 ∣ p.toNat) (hc : 0 < c.toNat)
    (hd : e = eC + d) (hd64 : 64 ≤ d) : roundedSum neg p e negC c eC
      = some (binary64.ofRat .toNearest false (sumValue neg p e negC c eC)) := by
  obtain ⟨n, hn⟩ : ∃ n, n = shiftRightSticky128 c d := ⟨_, rfl⟩
  have hshift := shiftRightSticky128_of_le c hd64
  have hlt := div_two_pow_lt c hd64
  have hpos : (0 : ℚ) < (c.toNat : ℚ) / 2 ^ d :=
    div_pos (by exact_mod_cast hc) (pow_pos two_pos d)
  have hdiv : c.toNat / 2 ^ d < 2 ^ 64 := by
    have hle : 2 ^ 128 ≤ 2 ^ 64 * 2 ^ d := by
      rw [← Nat.pow_add]
      exact Nat.pow_le_pow_right two_pos (by omega)
    rw [Nat.div_lt_iff_lt_mul (Nat.two_pow_pos d)]
    exact c.toNat_lt.trans_le hle
  have hsmall : 0 < n.toNat ∧ n.toNat < 2 ^ 64 := by
    have hge : 1 ≤ c.toNat / 2 ^ d ||| 1 := Nat.right_le_or
    have hle := Nat.or_lt_two_pow hdiv (show 1 < 2 ^ 64 by decide)
    rw [hn, hshift]
    exact ⟨hge, hle⟩
  have hnq : (0 : ℚ) < n.toNat ∧ (n.toNat : ℚ) < 2 ^ 64 := by exact_mod_cast hsmall
  rw [sumValue_eq neg p e negC c hd]
  refine roundedSum_far hd hd64 hn ⟨hp, p.toNat_lt, by decide, by decide, hp65, ?_, ?_⟩ hpos.le
    (by decide)
  · refine .of_between 0 (by norm_num) ?_ ?_ ?_ ?_ <;> push_cast <;> linarith
  · exact .inr (by linarith)

/-- The sticky bit is the right one, but for even numbers from which nothing is lost. -/
theorem sticky_eq_jam (m : ℕ) (h : ¬ ∃ k : ℕ, (m : ℚ) / 2 ^ d = 2 * k) : m / 2 ^ d ||| 1 = jam m d := by
  have hpos := Nat.two_pow_pos d
  rw [jam]
  split
  · rename_i hzero
    have hodd : m / 2 ^ d % 2 = 1 := by
      by_contra heven
      refine h ⟨m / 2 ^ d / 2, ?_⟩
      have hm : m = 2 * (m / 2 ^ d / 2) * 2 ^ d := by
        have hadd := Nat.div_add_mod m (2 ^ d)
        have htwo : 2 * (m / 2 ^ d / 2) = m / 2 ^ d := by omega
        rw [htwo, Nat.mul_comm]
        omega
      rw [div_eq_iff (by positivity)]
      exact_mod_cast hm
    have hhalf := Nat.or_div_two (a := m / 2 ^ d) (b := 1)
    have hmod := Nat.or_mod_two_eq_one (a := m / 2 ^ d) (b := 1)
    have hone : m / 2 ^ d / 2 ||| 1 / 2 = m / 2 ^ d / 2 := Nat.or_zero _
    rw [Nat.or_zero]
    omega
  · rfl

/-- **The addend is far below**, and the sticky bit is the right one. -/
theorem roundedSum_addend (hp : 2 ^ 127 ≤ p.toNat) (hp2 : 2 ∣ p.toNat) (hc2 : 2 ∣ c.toNat)
    (hd : e = eC + d) (hd64 : 64 ≤ d) (h : ¬ ∃ k : ℕ, (c.toNat : ℚ) / 2 ^ d = 2 * k) :
    roundedSum neg p e negC c eC
      = some (binary64.ofRat .toNearest false (sumValue neg p e negC c eC)) := by
  have hn : (shiftRightSticky128 c d).toNat = jam c.toNat d := by
    rw [shiftRightSticky128_of_le c hd64, sticky_eq_jam c.toNat h]
  have halign := aligned_jam (t := 127) (by decide) hp p.toNat_lt hp2 c.toNat_lt hc2 d
  rw [← hn] at halign
  rw [sumValue_eq neg p e negC c hd]
  exact roundedSum_far hd hd64 rfl halign
    (div_nonneg (Nat.cast_nonneg _) (pow_nonneg zero_le_two d)) (by decide)

/-- **An even addend far below** gets a sticky bit. -/
theorem roundedSum_even {k : ℕ} (hp : 2 ^ 127 ≤ p.toNat) (hp2 : 2 ∣ p.toNat)
    (hd : e = eC + d) (hd64 : 64 ≤ d) (h : (c.toNat : ℚ) / 2 ^ d = 2 * k) :
    roundedSum neg p e negC c eC = some (binary64.ofRat .toNearest false
      ((sgn neg * p.toNat + sgn negC * (2 * k + 1 : ℕ)) * 2 ^ (e - (127 : ℕ)))) := by
  have hn : (shiftRightSticky128 c d).toNat = 2 * k + 1 := by
    have hm : c.toNat = 2 * k * 2 ^ d := by
      rw [div_eq_iff (by positivity)] at h
      exact_mod_cast h
    have hor := Nat.two_pow_add_eq_or_of_lt (i := 1) (b := 1) (by decide) k
    rw [shiftRightSticky128_of_le c hd64, hm, Nat.mul_div_cancel _ (Nat.two_pow_pos d), ← Nat.pow_one 2,
      ← hor]
  refine roundedSum_far hd hd64 rfl ⟨hp, p.toNat_lt, le_rfl, by decide, hp2, ?_, ?_⟩
    (Nat.cast_nonneg _) (by decide)
  · rw [hn]
  · rw [hn]
    exact .inl rfl

/-! ### Ties -/

/-- At most one leading bit is cancelled. -/
theorem ulp_sum_ge (hp : 2 ^ 127 ≤ p.toNat) (hx : 0 ≤ x) (hx' : x ≤ 2 ^ 126) (neg negC : Bool) (e : ℤ) :
    2 ^ 126 ≤ |sgn neg * p.toNat + sgn negC * x| ∧
      e - 53 ≤ binary64.ulp ((sgn neg * p.toNat + sgn negC * x) * 2 ^ (e - (127 : ℕ))) := by
  have hp' : (2 : ℚ) ^ 127 ≤ p.toNat := by exact_mod_cast hp
  have hsum : (2 : ℚ) ^ 126 ≤ |sgn neg * p.toNat + sgn negC * x| := by
    rw [le_abs]
    cases neg <;> cases negC <;> simp only [sgn, if_true, if_false, Bool.false_eq_true] <;>
      first | (left; linarith) | (right; linarith)
  refine ⟨hsum, ?_⟩
  have hw := two_zpow_pos (e - (127 : ℕ))
  have hle : (2 : ℚ) ^ (e - 1) ≤ |(sgn neg * p.toNat + sgn negC * x) * 2 ^ (e - (127 : ℕ))| := by
    have hmul := mul_le_mul_of_nonneg_right hsum hw.le
    rw [← zpow_natCast, ← zpow_add₀ two_ne_zero] at hmul
    rw [abs_mul, abs_of_pos hw]
    rwa [show ((126 : ℕ) : ℤ) + (e - (127 : ℕ)) = e - 1 by omega] at hmul
  have hpos : 0 < |(sgn neg * p.toNat + sgn negC * x) * 2 ^ (e - (127 : ℕ))| :=
    (two_zpow_pos (e - 1)).trans_le hle
  have hlog := (Int.zpow_le_iff_le_log (b := 2) one_lt_two hpos).mp (by exact_mod_cast hle)
  rw [ulp, show binary64.mantissaBits = 52 from rfl]
  omega

theorem exists_sgn (neg : Bool) : ∃ s : ℤ, sgn neg = s ∧ s = if neg then -1 else 1 := by
  cases neg with
  | true => exact ⟨-1, by simp [sgn], rfl⟩
  | false => exact ⟨1, by simp [sgn], rfl⟩

/-- **A tie has an even addend**, if the addend is far below. -/
theorem exists_even_of_isTie (hp : 2 ^ 127 ≤ p.toNat) (hp2 : 2 ∣ p.toNat) (hx : 0 ≤ x)
    (hx' : x ≤ 2 ^ 126)
    (htie : binary64.IsTie ((sgn neg * p.toNat + sgn negC * x) * 2 ^ (e - (127 : ℕ)))) :
    ∃ k : ℕ, x = 2 * k := by
  obtain ⟨hsum, hulp⟩ := ulp_sum_ge hp hx hx' neg negC e
  obtain ⟨s, hs, -⟩ := exists_sgn neg
  obtain ⟨sC, hsC, hsC'⟩ := exists_sgn negC
  obtain ⟨P, hP⟩ := hp2
  obtain ⟨u, hu⟩ : ∃ u, u = binary64.ulp ((sgn neg * p.toNat + sgn negC * x) * 2 ^ (e - (127 : ℕ))) :=
    ⟨_, rfl⟩
  rw [IsTie, ← hu] at htie
  obtain ⟨m, hm⟩ : ∃ m : ℕ, u = m + 2 + (e - (127 : ℕ)) := ⟨(u - 2 - (e - (127 : ℕ))).toNat, by omega⟩
  have hw := two_zpow_pos (e - (127 : ℕ))
  rw [hm, zpow_add₀ two_ne_zero, mul_div_mul_right _ _ hw.ne', Int.fract] at htie
  generalize ⌊(sgn neg * p.toNat + sgn negC * x) / 2 ^ ((m : ℤ) + 2)⌋ = N at htie
  have hval : sgn neg * p.toNat + sgn negC * x = 2 * ((2 * N + 1) * 2 ^ m : ℤ) := by
    have hpow : (2 : ℚ) ^ ((m : ℤ) + 2) = 4 * 2 ^ m := by
      rw [zpow_add₀ two_ne_zero, zpow_natCast]
      ring
    rw [hpow, sub_eq_iff_eq_add, div_eq_iff (by positivity)] at htie
    rw [htie]
    push_cast
    ring
  generalize (2 * N + 1) * 2 ^ m = K at hval
  have hsCq : (sC : ℚ) * sC = 1 := by
    rw [hsC']
    split <;> norm_num
  have hxz : x = 2 * (sC * (K - s * P) : ℤ) := by
    have hx2 : (sC : ℚ) * x = 2 * K - s * (2 * P) := by
      rw [← hval, hs, hsC, hP]
      push_cast
      ring
    calc x = sC * sC * x := by rw [hsCq, one_mul]
      _ = 2 * (sC * (K - s * P) : ℤ) := by rw [mul_assoc, hx2]; push_cast; ring
  have hz : 0 ≤ sC * (K - s * P) := by
    rw [hxz] at hx
    exact_mod_cast nonneg_of_mul_nonneg_right hx two_pos
  refine ⟨(sC * (K - s * P)).toNat, ?_⟩
  rw [hxz]
  congr 1
  exact_mod_cast (Int.toNat_of_nonneg hz).symm

/-- Where a tie is not rounded to the side that a mode takes it to. -/
theorem tie_ne_iff {f : FloatFormat} {q : ℚ} (htie : f.IsTie q) (negC : Bool) :
    f.roundIn .toNearest q ≠ f.roundIn (if negC then .downward else .upward) q ↔
      (⌊q / 2 ^ f.ulp q⌋ % 2 = 0 ↔ negC = false) := by
  have hw := two_zpow_pos (f.ulp q)
  rw [IsTie] at htie
  rw [roundIn, roundIn, ne_eq, mul_left_inj' hw.ne', Int.cast_inj, Mode.toInt, nearest,
    Int.self_sub_floor, htie]
  generalize hy : q / 2 ^ f.ulp q = y at htie ⊢
  have hceil : ⌈y⌉ = ⌊y⌋ + 1 := by
    rw [Int.ceil_eq_iff]
    have hfloor := Int.self_sub_floor y
    push_cast
    constructor <;> linarith
  cases negC with
  | true =>
    simp only [if_true, Mode.toInt, lt_irrefl, false_or, true_and]
    split
    · simp
      omega
    · simp
      omega
  | false =>
    simp only [Bool.false_eq_true, if_false, Mode.toInt, hceil, lt_irrefl, false_or, true_and]
    split
    · simp
      omega
    · simp
      omega

/-- **An even addend far below**: only a tie is rounded in another way. -/
theorem roundedSum_even_iff {k : ℕ} (hp : 2 ^ 127 ≤ p.toNat) (hp2 : 2 ∣ p.toNat)
    (hd : e = eC + d) (hd64 : 64 ≤ d) (h : (c.toNat : ℚ) / 2 ^ d = 2 * k) :
    roundedSum neg p e negC c eC
        = some (binary64.ofRat .toNearest false (sumValue neg p e negC c eC)) ↔
      ¬ (|sumValue neg p e negC c eC| < binary64.magnitude binary64.finiteCount ∧
        binary64.IsTie (sumValue neg p e negC c eC) ∧
        binary64.roundIn .toNearest (sumValue neg p e negC c eC)
          ≠ binary64.roundIn (if negC then .downward else .upward) (sumValue neg p e negC c eC)) := by
  obtain ⟨s, hs, hs'⟩ := exists_sgn neg
  obtain ⟨sC, hsC, hsC'⟩ := exists_sgn negC
  obtain ⟨P, hP⟩ := hp2
  have hk64 : 2 * k < 2 ^ 64 := by
    have hlt := div_two_pow_lt c hd64
    rw [h] at hlt
    exact_mod_cast hlt
  have hulp := (ulp_sum_ge (x := (2 * k + 1 : ℕ)) hp (Nat.cast_nonneg _)
    (by exact_mod_cast (show 2 * k + 1 ≤ 2 ^ 126 by omega)) neg negC e).2
  have hq : sumValue neg p e negC c eC = (2 * (s * P + sC * k) : ℤ) * 2 ^ (e - (127 : ℕ)) := by
    rw [sumValue_eq neg p e negC c hd, h, hs, hsC, hP]
    push_cast
    ring
  have hr : (sgn neg * p.toNat + sgn negC * (2 * k + 1 : ℕ)) * 2 ^ (e - (127 : ℕ))
      = (2 * (s * P + sC * k) + sC : ℤ) * 2 ^ (e - (127 : ℕ)) := by
    rw [hs, hsC, hP]
    push_cast
    ring
  have hK : s * P + sC * k ≠ 0 := by
    rw [hs', hsC']
    cases neg <;> cases negC <;> simp only [if_true, if_false, Bool.false_eq_true] <;> omega
  rw [roundedSum_even hp ⟨P, hP⟩ hd hd64 h, Option.some_inj]
  rw [hr] at hulp ⊢
  rw [hq]
  generalize s * P + sC * k = K at hK hulp ⊢
  have hw := two_zpow_pos (e - (127 : ℕ))
  have hsign : sC = 1 ∨ sC = -1 := by
    rw [hsC']
    cases negC <;> simp
  have hodd : ((2 * K + sC : ℤ) : ℚ) * 2 ^ (e - (127 : ℕ)) ≠ 0 :=
    mul_ne_zero (Int.cast_ne_zero.mpr (by omega)) hw.ne'
  have heven : ((2 * K : ℤ) : ℚ) * 2 ^ (e - (127 : ℕ)) ≠ 0 :=
    mul_ne_zero (Int.cast_ne_zero.mpr (by omega)) hw.ne'
  have hneg : ((2 * K + sC : ℤ) : ℚ) * 2 ^ (e - (127 : ℕ)) < 0 ↔
      ((2 * K : ℤ) : ℚ) * 2 ^ (e - (127 : ℕ)) < 0 := by
    rw [← not_le, ← not_le, mul_nonneg_iff_of_pos_right hw, mul_nonneg_iff_of_pos_right hw,
      Int.cast_nonneg_iff, Int.cast_nonneg_iff]
    omega
  refine ofRat_off_iff (f := binary64) (w := 64) rfl heven hodd hneg ?_ false
  rw [hsC'] at hulp ⊢
  cases negC with
  | true =>
    have hulp' : e - 53 ≤ binary64.ulp ((2 * K - 1 : ℤ) * 2 ^ (e - (127 : ℕ))) := hulp
    exact roundIn_nearest_pred hK (by omega)
  | false =>
    have hulp' : e - 53 ≤ binary64.ulp ((2 * K + 1 : ℤ) * 2 ^ (e - (127 : ℕ))) := hulp
    exact roundIn_nearest_succ hK (by omega)

end

/-! ### The result -/

section

variable {a b c : BitVec 64}

theorem extract_eq {x : BitVec 64} (hx : binary64.value x ≠ 0) :
    2 ^ 63 ≤ (extract x).1.toNat ∧ 2 ^ 11 ∣ (extract x).1.toNat ∧
      |binary64.value x| = (extract x).1.toNat * 2 ^ ((extract x).2 - 63) :=
  extractWord_eq (f := binary64) (t := 63) hx (by decide)

theorem renormalize128_eq {mA mB : BitVec 64} (hA : 2 ^ 63 ≤ mA.toNat) (hB : 2 ^ 63 ≤ mB.toNat)
    (hA2 : 2 ∣ mA.toNat) (eA eB : ℤ) :
    2 ^ 127 ≤ (renormalize128 (mul128 mA mB) (eA + eB)).1.toNat ∧
      2 ∣ (renormalize128 (mul128 mA mB) (eA + eB)).1.toNat ∧
      wideValue (renormalize128 (mul128 mA mB) (eA + eB)).1
          (renormalize128 (mul128 mA mB) (eA + eB)).2
        = mA.toNat * 2 ^ (eA - 63) * (mB.toNat * 2 ^ (eB - 63)) := by
  have hge : 2 ^ 63 * 2 ^ 63 ≤ mA.toNat * mB.toNat := Nat.mul_le_mul hA hB
  have hproduct := mul128_toNat mA mB
  have hexp : (mA.toNat * 2 ^ (eA - 63) : ℚ) * (mB.toNat * 2 ^ (eB - 63))
      = (mA.toNat * mB.toNat : ℕ) * 2 ^ (eA + eB + 1 - 127) := by
    rw [show eA + eB + 1 - 127 = (eA - 63) + (eB - 63) by ring, zpow_add₀ two_ne_zero]
    push_cast
    ring
  have hlead := (mul128 mA mB).lead_iff
  have hmsb := and_msb_eq_zero_iff (mul128 mA mB).hi
  rw [BitVec.and_comm] at hmsb
  rw [hproduct] at hlead
  rw [hexp, renormalize128]
  split
  · rename_i h
    have hsmall := hmsb.mp h
    have hshift := (mul128 mA mB).shiftLeft_toNat (n := 1) (by decide) hsmall
    rw [hproduct, Nat.pow_one] at hshift
    have hshift' : (⟨(mul128 mA mB).hi <<< 1 ||| (mul128 mA mB).lo >>> 63,
        (mul128 mA mB).lo <<< 1⟩ : Wide).toNat = mA.toNat * mB.toNat * 2 := hshift
    rw [wideValue, hshift', show eA + eB + 1 - 127 = eA + eB - 127 + 1 by ring,
      zpow_add_one₀ two_ne_zero]
    refine ⟨by omega, Nat.dvd_mul_left 2 _, ?_⟩
    push_cast
    ring
  · rename_i h
    have hlarge := not_lt.mp fun h' => h (hmsb.mpr h')
    rw [wideValue, hproduct]
    exact ⟨hlead.mpr hlarge, hA2.mul_right _, rfl⟩

/-- The exact value. -/
def fmalValue (a b c : BitVec 64) : ℚ := binary64.value a * binary64.value b + binary64.value c

/-- **What is added**: the significands of the product and of the addend. -/
theorem referenceFmal_eq (hardware : BitVec 64 → BitVec 64 → BitVec 64 → BitVec 64)
    (ha : binary64.Finite a) (hb : binary64.Finite b) (hc : binary64.Finite c)
    (ha0 : binary64.value a ≠ 0) (hb0 : binary64.value b ≠ 0) (hc0 : binary64.value c ≠ 0) :
    ∃ neg p e d eC, 2 ^ 127 ≤ p.toNat ∧ 2 ∣ p.toNat ∧ 2 ^ 127 ≤ d.toNat ∧ 2 ^ 65 ∣ d.toNat ∧
      Int.log 2 |binary64.value a * binary64.value b| = e ∧ Int.log 2 |binary64.value c| = eC ∧
      fmalValue a b c = sumValue neg p e (c.getLsbD 63) d eC ∧
      referenceFmal hardware a b c = if eC ≤ e then roundedSum neg p e (c.getLsbD 63) d eC
        else roundedSum (c.getLsbD 63) d eC neg p e := by
  have hmsb : (0x8000000000000000 : BitVec 64) = BitVec.twoPow 64 (64 - 1) := by decide
  obtain ⟨hA, hA2, hAv⟩ := extract_eq ha0
  obtain ⟨hB, -, hBv⟩ := extract_eq hb0
  obtain ⟨hC, ⟨mC, hmC⟩, hCv⟩ := extract_eq hc0
  obtain ⟨hp, hp2, hpv⟩ := renormalize128_eq hA hB ((show 2 ∣ 2 ^ 11 by decide).trans hA2)
    (extract a).2 (extract b).2
  obtain ⟨p, hpdef⟩ : ∃ p, p = renormalize128 (mul128 (extract a).1 (extract b).1)
    ((extract a).2 + (extract b).2) := ⟨_, rfl⟩
  obtain ⟨d, hddef⟩ : ∃ d : Wide, d = ⟨(extract c).1, 0⟩ := ⟨_, rfl⟩
  have hd : d.toNat = (extract c).1.toNat * 2 ^ 64 := by
    rw [hddef, Wide.toNat, show (0 : BitVec 64).toNat = 0 from rfl, Nat.add_zero]
  have hdv : wideValue d (extract c).2 = |binary64.value c| := by
    rw [wideValue, hd, hCv, show (extract c).2 - 63 = 64 + ((extract c).2 - 127) by ring,
      zpow_add₀ two_ne_zero]
    push_cast
    ring
  rw [← hpdef] at hp hp2 hpv
  have hpv' : wideValue p.1 p.2 = |binary64.value a * binary64.value b| := by
    rw [hpv, abs_mul, hAv, hBv]
  have hd127 : 2 ^ 127 ≤ d.toNat := by omega
  refine ⟨a.getLsbD 63 ^^ b.getLsbD 63, p.1, p.2, d, (extract c).2, hp, hp2, hd127, ?_, ?_, ?_, ?_, ?_⟩
  · exact ⟨mC * 2 ^ 10, by omega⟩
  · rw [← hpv']
    exact log_wideValue hp p.2
  · rw [← hdv]
    exact log_wideValue hd127 (extract c).2
  · have hsign (x : BitVec 64) : binary64.value x = sgn (x.getLsbD 63) * |binary64.value x| :=
      value_eq_sgn binary64 x
    rw [fmalValue, sumValue, hpv', hdv, sgn_xor, abs_mul]
    conv_lhs => rw [hsign a, hsign b, hsign c]
    ring
  · rw [referenceFmal, if_neg, hmsb, and_signBit, and_signBit, BitVec.getLsbD_xor]
    · dsimp only
      rw [← hpdef, ← hddef, infinitePrecisionAdd128]
      split
      · rfl
      · rfl
    · push Not
      exact ⟨ha, hb, hc, and_not_msb_ne_zero (f := binary64) rfl ha0,
        and_not_msb_ne_zero (f := binary64) rfl hb0, and_not_msb_ne_zero (f := binary64) rfl hc0⟩

/-- **`reference_fmal` rounds the exact value**, just if the addend is not far below the product or
there is no tie, or the tie is rounded to the side of the addend. -/
theorem referenceFmal_iff (hardware : BitVec 64 → BitVec 64 → BitVec 64 → BitVec 64)
    (a b c : BitVec 64) (ha : binary64.Finite a) (hb : binary64.Finite b) (hc : binary64.Finite c)
    (ha0 : binary64.value a ≠ 0) (hb0 : binary64.value b ≠ 0) (hc0 : binary64.value c ≠ 0) :
    referenceFmal hardware a b c = some (binary64.ofRat .toNearest false (fmalValue a b c)) ↔
    ¬ (64 ≤ Int.log 2 |binary64.value a * binary64.value b| - Int.log 2 |binary64.value c| ∧
      |fmalValue a b c| < 2 ^ (1024 : ℤ) ∧ binary64.IsTie (fmalValue a b c) ∧
      (⌊fmalValue a b c / 2 ^ binary64.ulp (fmalValue a b c)⌋ % 2 = 0 ↔ 0 < binary64.value c)) := by
  obtain ⟨neg, p, e, d, eC, hp, hp2, hd, hd65, he, heC, hvalue, heq⟩ :=
    referenceFmal_eq hardware ha hb hc ha0 hb0 hc0
  have hd2 : 2 ∣ d.toNat := (show 2 ∣ 2 ^ 65 by decide).trans hd65
  have hdpos : 0 < d.toNat := lt_of_lt_of_le (by decide) hd
  have hsign : 0 < binary64.value c ↔ c.getLsbD 63 = false := by
    have hsgn : binary64.value c = sgn (c.getLsbD 63) * |binary64.value c| := value_eq_sgn binary64 c
    have hpos := abs_pos.mpr hc0
    cases hbit : c.getLsbD 63 with
    | true =>
      rw [hbit, sgn, if_pos rfl] at hsgn
      exact iff_of_false (by linarith) (by decide)
    | false =>
      rw [hbit, sgn, if_neg (by decide)] at hsgn
      exact iff_of_true (by linarith) rfl
  rw [heq, he, heC, hvalue, hsign, ← magnitude_finiteCount_binary64]
  by_cases hle : eC ≤ e
  · rw [if_pos hle]
    obtain ⟨s, hs⟩ : ∃ s : ℕ, e = eC + s := ⟨(e - eC).toNat, by omega⟩
    by_cases hfar : 64 ≤ s
    · have hfar' : 64 ≤ e - eC := by omega
      by_cases heven : ∃ k : ℕ, (d.toNat : ℚ) / 2 ^ s = 2 * k
      · obtain ⟨k, hk⟩ := heven
        rw [roundedSum_even_iff hp hp2 hs hfar hk]
        refine not_congr ?_
        rw [and_iff_right hfar']
        refine and_congr_right fun _ => and_congr_right ?_
        intro htie
        exact tie_ne_iff htie _
      · refine iff_of_true (roundedSum_addend hp hp2 hd2 hs hfar heven) fun h => heven ?_
        have hlt := div_two_pow_lt d hfar
        have htie := h.2.2.1
        rw [sumValue_eq neg p e _ d hs] at htie
        exact exists_even_of_isTie hp hp2 (div_nonneg (Nat.cast_nonneg _) (pow_nonneg zero_le_two s))
          (by linarith) htie
    · exact iff_of_true (roundedSum_close hp hp2 hd2 hs (by omega)) (fun h => absurd h.1 (by omega))
  · -- the addend is the larger one
    rw [if_neg hle]
    obtain ⟨s, hs⟩ : ∃ s : ℕ, eC = e + s := ⟨(eC - e).toNat, by omega⟩
    have hcomm : sumValue neg p e (c.getLsbD 63) d eC = sumValue (c.getLsbD 63) d eC neg p e := by
      rw [sumValue, sumValue, add_comm]
    rw [hcomm]
    refine iff_of_true ?_ (fun h => absurd h.1 (by omega))
    by_cases hfar : 64 ≤ s
    · exact roundedSum_product hd hd65 (lt_of_lt_of_le (by decide) hp) hs hfar
    · exact roundedSum_close hd hd2 hp2 hs (by omega)

/-- 1 * 2 + 1. -/
theorem referenceFmal_three :
    referenceFmal (fun a _ _ => a) 0x3ff0000000000000 0x4000000000000000 0x3ff0000000000000
      = some (binary64.ofRat .toNearest false
        (fmalValue 0x3ff0000000000000 0x4000000000000000 0x3ff0000000000000)) ↔
    ¬ (64 ≤ Int.log 2 |binary64.value (0x3ff0000000000000 : BitVec 64)
          * binary64.value (0x4000000000000000 : BitVec 64)|
        - Int.log 2 |binary64.value (0x3ff0000000000000 : BitVec 64)| ∧
      |fmalValue 0x3ff0000000000000 0x4000000000000000 0x3ff0000000000000| < 2 ^ (1024 : ℤ) ∧
      binary64.IsTie (fmalValue 0x3ff0000000000000 0x4000000000000000 0x3ff0000000000000) ∧
      (⌊fmalValue 0x3ff0000000000000 0x4000000000000000 0x3ff0000000000000
          / 2 ^ binary64.ulp (fmalValue 0x3ff0000000000000 0x4000000000000000 0x3ff0000000000000)⌋ % 2
        = 0 ↔ 0 < binary64.value (0x3ff0000000000000 : BitVec 64))) :=
  referenceFmal_iff (fun a _ _ => a) _ _ _ (by decide) (by decide) (by decide)
    (by decide +kernel) (by decide +kernel) (by decide +kernel)

/-- (1 + 2⁻⁵²) * (3 / 2 - 2⁻⁵²) + 2⁻¹⁰⁴ is a tie, and is not rounded to the even number. -/
theorem referenceFmal_tie : ¬ ∀ (hardware : BitVec 64 → BitVec 64 → BitVec 64 → BitVec 64)
    (a b c : BitVec 64), binary64.Finite a → binary64.Finite b → binary64.Finite c →
    binary64.value a ≠ 0 → binary64.value b ≠ 0 → binary64.value c ≠ 0 →
    referenceFmal hardware a b c = some (binary64.ofRat .toNearest false (fmalValue a b c)) := by
  intro h
  have hright := h (fun a _ _ => a) 0x3ff0000000000001 0x3ff7ffffffffffff 0x3970000000000000
    (by decide) (by decide) (by decide) (by decide +kernel) (by decide +kernel) (by decide +kernel)
  have hcode : referenceFmal (fun a _ _ => a) 0x3ff0000000000001 0x3ff7ffffffffffff
      0x3970000000000000 = some 0x3ff8000000000001 := by decide +kernel
  have hrounded : (binary64.ofRat .toNearest false
      (fmalValue 0x3ff0000000000001 0x3ff7ffffffffffff 0x3970000000000000) : BitVec 64)
      = 0x3ff8000000000000 := by decide +kernel
  rw [hcode, hrounded] at hright
  exact absurd (Option.some.inj hright) (by decide)

end

end OpenCLCTS.MathBruteForce
