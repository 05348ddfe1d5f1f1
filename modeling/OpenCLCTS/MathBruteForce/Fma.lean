import OpenCLCTS.Lib.Significand

/-!
# The reference of fma in single precision

`reference_fma` multiplies the mantissas to 64 bits, aligns the smaller summand with a sticky bit,
adds or subtracts, and rounds the result by hand.

* `addAligned_spec`: the sum is on the same side of half of the last bits as the exact one.
* `roundToNearestEvenFloat_eq`, `roundTowardZeroFloat_eq`: the roundings.
* `referenceFma_iff`: when the result is the exact one, rounded.
-/

namespace OpenCLCTS.MathBruteForce

open FloatFormat

/-! ### The reference -/

/-- `add_carry`. -/
def addCarry (a b : BitVec 64) : BitVec 64 × BitVec 64 :=
  let result := a + b
  (result, if result < a then 1 else 0)

/-- `sub_carry`. -/
def subCarry (a b : BitVec 64) : BitVec 64 × BitVec 64 :=
  let result := a - b
  (result, if result > a then 1 else 0)

/-- `frexp`, for the numbers that are not 0. -/
def frexp (q : ℚ) : ℚ × ℤ := (q / 2 ^ (Int.log 2 |q| + 1), Int.log 2 |q| + 1)

/-- The exponent, and the mantissa with its leading bit at the top of a word. -/
def extractWord (f : FloatFormat) (w : ℕ) {v : ℕ} (x : BitVec v) : BitVec w × ℤ :=
  let m := frexp (f.value x)
  (BitVec.ofInt w ⌊2 ^ w * |m.1|⌋, m.2 - 1)

/-- `extractf`. -/
def extractf (x : BitVec 32) : BitVec 32 × ℤ := extractWord binary32 32 x

/-- `shift_right_sticky_64`. -/
def shiftRightSticky64 (p : BitVec 64) (shift : ℕ) : BitVec 64 :=
  if 64 ≤ shift then if p ≠ 0 then 1 else 0
  else p >>> shift ||| if p <<< (64 - shift) ≠ 0 then 1 else 0

/-- `add64`. -/
def add64 (p c : BitVec 64) (exponent : ℤ) : BitVec 64 × ℤ :=
  let sum := addCarry c p
  let c := sum.1
  if sum.2 ≠ 0 then (c >>> 1 ||| (c &&& 1 ||| 0x8000000000000000), exponent + 1)
  else (c, exponent)

/-- `sub64`; the loop is left after at most seven tests. -/
def sub64 (c p : BitVec 64) (signC : BitVec 32) (expC : ℤ) : Option (BitVec 64 × BitVec 32 × ℤ) :=
  let difference := subCarry c p
  let signC := if difference.2 ≠ 0 then signC ^^^ 0x80000000 else signC
  let p := if difference.2 ≠ 0 then -difference.1 else difference.1
  if p ≠ 0 then
    (normalizeLoop id (fun p shift => p <<< shift) 7 32 (1#64 <<< 32) p expC).map fun r =>
      (r.1, signC, r.2)
  else some (p, 0, -200)

/-- `u.u`, before it is rounded; `shift` is the number of bits that are not in it. -/
def assemble (w mantissaBits : ℕ) (bias : ℤ) (p : BitVec 64) (shift : ℕ) (exponent : ℤ) :
    BitVec w :=
  (p >>> shift).setWidth w ||| BitVec.ofInt w (exponent + bias) <<< mantissaBits

/-- `round_to_nearest_even_float`. -/
def roundToNearestEvenFloat (p : BitVec 64) (exponent : ℤ) : BitVec 32 :=
  if p = 0 then 0
  -- `exponent * CL_FLT_MAX` overflows
  else if 127 < exponent then 0x7f800000
  else if exponent = -150 ∧ 0x8000000000000000 < p then 1
  else if exponent ≤ -150 then 0
  else
    let shift := if exponent < -126 then (40 - (126 + exponent)).toNat else 40
    let p := if exponent < -126 then p else p &&& 0x7fffffffffffffff
    let exponent := if exponent < -126 then -127 else exponent
    let u := assemble 32 23 127 p shift exponent
    let p := p <<< (64 - shift)
    if p < 0x8000000000000000 then u
    else if p = 0x8000000000000000 then u + (u &&& 1)
    else u + 1

/-- `round_to_nearest_even_float_ftz`. -/
def roundToNearestEvenFloatFtz (gCheckTininessBeforeRounding : ℤ) (p : BitVec 64) (exponent : ℤ) :
    BitVec 32 :=
  if p = 0 then 0
  else if 127 < exponent then 0x7f800000
  else if exponent < gCheckTininessBeforeRounding - 127 then 0
  else
    let q := if exponent = -127 then p &&& 1#64 ||| p >>> 1 else p &&& 0x7fffffffffffffff
    let u := assemble 32 23 127 q 40 exponent
    let q := q <<< 24
    let u := if q > 0x8000000000000000 then u + 1
      else if q = 0x8000000000000000 then u + (u &&& 1) else u
    if u &&& 0x7f800000 = 0 then 0 else u

/-- `round_toward_zero_float`. -/
def roundTowardZeroFloat (p : BitVec 64) (exponent : ℤ) : BitVec 32 :=
  if p = 0 then 0
  else if 127 < exponent then 0x7f7fffff
  else if exponent ≤ -149 then 0
  else if exponent < -126 then assemble 32 23 127 p (40 - (126 + exponent)).toNat (-127)
  else assemble 32 23 127 (p &&& 0x7fffffffffffffff) 40 exponent

/-- `round_toward_zero_float_ftz`. -/
def roundTowardZeroFloatFtz (p : BitVec 64) (exponent : ℤ) : BitVec 32 :=
  if p = 0 then 0
  else if 127 < exponent then 0x7f7fffff
  else if exponent < -126 then 0
  else assemble 32 23 127 (p &&& 0x7fffffffffffffff) 40 exponent

/-- The infinite precision sum of a significand and one whose exponent is not greater. -/
def addAligned (product : BitVec 64) (sign : BitVec 32) (exponent : ℤ) (addend : BitVec 64)
    (signC : BitVec 32) (expC : ℤ) : Option (BitVec 64 × BitVec 32 × ℤ) :=
  let addend :=
    if expC < exponent then shiftRightSticky64 addend (exponent - expC).toNat else addend
  if sign ^^^ signC ≠ 0 then sub64 product addend sign exponent
  else
    let sum := add64 product addend exponent
    some (sum.1, sign, sum.2)

/-- The infinite precision sum; the two branches are the same, with the summands exchanged. -/
def infinitePrecisionAdd (product : BitVec 64) (sign : BitVec 32) (exponent : ℤ) (addend : BitVec 64)
    (signC : BitVec 32) (expC : ℤ) : Option (BitVec 64 × BitVec 32 × ℤ) :=
  if expC ≤ exponent then addAligned product sign exponent addend signC expC
  else addAligned addend signC expC product sign exponent

/-- The product with its leading bit at the top. -/
def renormalize (product : BitVec 64) (exponent : ℤ) : BitVec 64 × ℤ :=
  if 0x8000000000000000 &&& product = 0 then (product <<< 1, exponent)
  else (product, exponent + 1)

/-- The rounding to the result. -/
def roundResult (gIsInRTZMode : Bool) (gCheckTininessBeforeRounding : ℤ) (shouldFlush : Bool)
    (product : BitVec 64) (exponent : ℤ) : BitVec 32 :=
  if gIsInRTZMode then
    if shouldFlush then roundTowardZeroFloatFtz product exponent
    else roundTowardZeroFloat product exponent
  else if shouldFlush then
    roundToNearestEvenFloatFtz gCheckTininessBeforeRounding product exponent
  else roundToNearestEvenFloat product exponent

/-- `reference_fma`; `hardware` is what it does with NaNs, infinities and zeros. -/
def referenceFma (hardware : BitVec 32 → BitVec 32 → BitVec 32 → BitVec 32) (gIsInRTZMode : Bool)
    (gCheckTininessBeforeRounding : ℤ) (a b c : BitVec 32) (shouldFlush : Bool) :
    Option (BitVec 32) :=
  let kMSB : BitVec 32 := 0x80000000
  if ¬ binary32.Finite a ∨ ¬ binary32.Finite b ∨ ¬ binary32.Finite c ∨ a &&& ~~~kMSB = 0 ∨
      b &&& ~~~kMSB = 0 ∨ c &&& ~~~kMSB = 0 then some (hardware a b c)
  else
    let mantA := (extractf a).1
    let mantB := (extractf b).1
    let mantC := (extractf c).1
    let expC := (extractf c).2
    let signC := c &&& kMSB
    let sign := (a ^^^ b) &&& kMSB
    let product :=
      renormalize (mantA.setWidth 64 * mantB.setWidth 64) ((extractf a).2 + (extractf b).2)
    let addend := mantC.setWidth 64 <<< 32
    let sum := infinitePrecisionAdd product.1 sign product.2 addend signC expC
    sum.map fun r =>
      roundResult gIsInRTZMode gCheckTininessBeforeRounding shouldFlush r.1 r.2.2 ||| r.2.1

/-! ### Words -/

section

variable {a b c p : BitVec 64} {n : ℕ} {e : ℤ}

theorem shiftLeft_toNat (p : BitVec 64) (hn : n ≤ 64) :
    (p <<< (64 - n)).toNat = p.toNat % 2 ^ n * 2 ^ (64 - n) := by
  have hpow : 2 ^ 64 = 2 ^ n * 2 ^ (64 - n) := by rw [← Nat.pow_add, Nat.add_sub_cancel' hn]
  rw [BitVec.toNat_shiftLeft, Nat.shiftLeft_eq, hpow, Nat.mul_mod_mul_right]

theorem shiftLeft_eq_zero_iff (p : BitVec 64) (hn : n ≤ 64) :
    p <<< (64 - n) = 0 ↔ p.toNat % 2 ^ n = 0 := by
  rw [← BitVec.toNat_inj, shiftLeft_toNat p hn]
  exact mul_eq_zero.trans (or_iff_left (Nat.two_pow_pos _).ne')

theorem shiftRight_toNat (p : BitVec 64) (n : ℕ) : (p >>> n).toNat = p.toNat / 2 ^ n := by
  rw [BitVec.toNat_ushiftRight, Nat.shiftRight_eq_div_pow]

theorem toNat_ite_one {P Q : Prop} [Decidable P] [Decidable Q] (h : P ↔ ¬ Q) :
    (if P then 1 else 0 : BitVec 64).toNat = if Q then 0 else 1 := by
  by_cases hQ : Q
  · rw [if_pos hQ, if_neg (fun hP => h.mp hP hQ)]
    rfl
  · rw [if_neg hQ, if_pos (h.mpr hQ)]
    rfl

theorem ite_one_ne_zero {P : Prop} [Decidable P] : (if P then 1 else 0 : BitVec 64) ≠ 0 ↔ P := by
  split
  · exact iff_of_true (by decide) ‹_›
  · exact iff_of_false (by decide) ‹_›

theorem addCarry_eq (a b : BitVec 64) : (addCarry a b).1.toNat = (a.toNat + b.toNat) % 2 ^ 64 ∧
    ((addCarry a b).2 ≠ 0 ↔ 2 ^ 64 ≤ a.toNat + b.toNat) := by
  have ha := a.isLt
  have hb := b.isLt
  refine ⟨BitVec.toNat_add a b, ?_⟩
  rw [addCarry, ite_one_ne_zero, BitVec.lt_def, BitVec.toNat_add]
  omega

theorem subCarry_eq (a b : BitVec 64) :
    (subCarry a b).1 = a - b ∧ ((subCarry a b).2 ≠ 0 ↔ a.toNat < b.toNat) := by
  have ha := a.isLt
  have hb := b.isLt
  refine ⟨rfl, ?_⟩
  rw [subCarry, ite_one_ne_zero, gt_iff_lt, BitVec.lt_def, BitVec.toNat_sub]
  omega

/-! ### Sticky bits, addition and subtraction -/

theorem shiftRightSticky64_toNat (p : BitVec 64) (n : ℕ) :
    (shiftRightSticky64 p n).toNat = jam p.toNat n := by
  have hp := p.isLt
  rw [shiftRightSticky64, jam]
  split
  · rename_i hn
    have hlt : p.toNat < 2 ^ n := lt_of_lt_of_le hp (Nat.pow_le_pow_right two_pos hn)
    have hzero : p ≠ 0 ↔ ¬ p.toNat = 0 := by
      rw [ne_eq, ← BitVec.toNat_inj]
      rfl
    rw [toNat_ite_one hzero, Nat.div_eq_of_lt hlt, Nat.mod_eq_of_lt hlt, Nat.zero_or]
  · rename_i hn
    have hzero := not_congr (shiftLeft_eq_zero_iff p (n := n) (by omega))
    rw [BitVec.toNat_or, shiftRight_toNat, toNat_ite_one hzero]

theorem add64_eq (p c : BitVec 64) (e : ℤ) :
    (p.toNat + c.toNat < 2 ^ 64 → (add64 p c e).1.toNat = p.toNat + c.toNat ∧ (add64 p c e).2 = e) ∧
    (2 ^ 64 ≤ p.toNat + c.toNat →
      (add64 p c e).1.toNat = jam (p.toNat + c.toNat) 1 ∧ (add64 p c e).2 = e + 1) := by
  obtain ⟨hsum, hcarry⟩ := addCarry_eq c p
  have hc := c.isLt
  have hp := p.isLt
  rw [Nat.add_comm c.toNat] at hsum hcarry
  rw [add64]
  constructor
  · intro h
    rw [if_neg (fun h' => by have := hcarry.mp h'; omega)]
    exact ⟨by rw [hsum, Nat.mod_eq_of_lt h], rfl⟩
  · intro h
    rw [if_pos (hcarry.mpr h)]
    refine ⟨?_, rfl⟩
    obtain ⟨n, hn⟩ : ∃ n, n = (addCarry c p).1.toNat := ⟨_, rfl⟩
    have hn' : p.toNat + c.toNat = 2 ^ 64 + n := by omega
    have hlt : n / 2 < 2 ^ 63 := by omega
    have hhalf : (2 ^ 64 + n) / 2 = n / 2 ||| 2 ^ 63 := by
      have hor := Nat.two_pow_add_eq_or_of_lt hlt 1
      rw [Nat.mul_one, Nat.or_comm] at hor
      omega
    have hand : n &&& 1 = if (2 ^ 64 + n) % 2 = 0 then 0 else 1 := by
      rw [Nat.and_one_is_mod]
      split <;> omega
    dsimp only
    rw [BitVec.toNat_or, BitVec.toNat_or, BitVec.toNat_and, shiftRight_toNat, ← hn, hn', jam,
      Nat.pow_one, hhalf, show (1 : BitVec 64).toNat = 1 from rfl, hand,
      show (0x8000000000000000 : BitVec 64).toNat = 2 ^ 63 from rfl, Nat.or_assoc,
      Nat.or_comm (2 ^ 63)]

theorem normalizeLoop_word {p : BitVec 64} (hp : p ≠ 0) (e : ℤ) : Normalized id BitVec.toNat p e
    (normalizeLoop id (fun p shift => p <<< shift) 7 32 (1#64 <<< 32) p e) := by
  have hpos : p.toNat ≠ 0 := fun h => hp (BitVec.eq_of_toNat_eq h)
  refine normalizeLoop_eq (c := 0) (k := 5) ?_ ?_ le_rfl p e ?_
  · intro p
    rw [Nat.pow_zero, Nat.div_one]
    rfl
  · intro p s hs hle hlt
    have hpow : 2 ^ 64 = 2 ^ (64 - s) * 2 ^ s := by rw [← Nat.pow_add, Nat.sub_add_cancel (by omega)]
    rw [BitVec.toNat_shiftLeft, Nat.shiftLeft_eq, Nat.mod_eq_of_lt]
    rw [hpow]
    exact Nat.mul_lt_mul_of_pos_right hlt (Nat.two_pow_pos s)
  · exact Nat.pos_of_ne_zero hpos

/-- **A difference**, normalized. -/
theorem sub64_eq (c p : BitVec 64) (signC : BitVec 32) (e : ℤ) :
    (c = p → sub64 c p signC e = some (0, 0, -200)) ∧
    (c ≠ p → ∃ r j, sub64 c p signC e = some (r,
        if c.toNat < p.toNat then signC ^^^ 0x80000000 else signC, e - (j : ℕ)) ∧
      r.toNat = (c.toNat - p.toNat : ℤ).natAbs * 2 ^ j ∧ 2 ^ 63 ≤ r.toNat) := by
  obtain ⟨hdiff, hcarry⟩ := subCarry_eq c p
  have hc := c.isLt
  have hp := p.isLt
  rw [sub64]
  simp only [hcarry, hdiff]
  constructor
  · intro h
    subst h
    rw [if_neg (lt_irrefl _), BitVec.sub_self, if_neg (show ¬ (0#64 ≠ 0) from not_not.mpr rfl)]
    rfl
  · intro h
    have hne : c.toNat ≠ p.toNat := fun h' => h (BitVec.eq_of_toNat_eq h')
    obtain ⟨d, hd⟩ : ∃ d, d = if c.toNat < p.toNat then -(c - p) else c - p := ⟨_, rfl⟩
    have hdist : d.toNat = (c.toNat - p.toNat : ℤ).natAbs := by
      rw [hd]
      split
      · rw [BitVec.toNat_neg, BitVec.toNat_sub]
        omega
      · rw [BitVec.toNat_sub]
        omega
    have hd0 : d ≠ 0 := by
      intro h0
      rw [h0] at hdist
      have hzero : (0 : BitVec 64).toNat = 0 := rfl
      omega
    obtain ⟨r, j, hr, hval, hlead⟩ := normalizeLoop_word hd0 e
    refine ⟨r, j, ?_, by rw [hval, hdist], hlead⟩
    rw [← hd, if_pos hd0, hr]
    rfl

end

/-! ### Rounding -/

section

variable {w mb s : ℕ} {bias e : ℤ} {p q : BitVec 64} {m : ℕ}

theorem assemble_toNat (hmb : mb < w) (hs : p.toNat / 2 ^ s < 2 ^ mb)
    (he : 0 ≤ e + bias) (he' : e + bias < 2 ^ (w - mb)) :
    (assemble w mb bias p s e).toNat = (e + bias).toNat * 2 ^ mb + p.toNat / 2 ^ s := by
  obtain ⟨n, hn⟩ := Int.eq_ofNat_of_zero_le he
  rw [hn] at he' ⊢
  have hn' : n < 2 ^ (w - mb) := by exact_mod_cast he'
  have hpow : 2 ^ w = 2 ^ (w - mb) * 2 ^ mb := by rw [← Nat.pow_add, Nat.sub_add_cancel hmb.le]
  have hmul : n * 2 ^ mb < 2 ^ w := by
    rw [hpow]
    exact Nat.mul_lt_mul_of_pos_right hn' (Nat.two_pow_pos mb)
  have hlt : n < 2 ^ w := lt_of_lt_of_le hn' (Nat.pow_le_pow_right two_pos (Nat.sub_le w mb))
  have hmant : p.toNat / 2 ^ s < 2 ^ w := hs.trans (Nat.pow_lt_pow_right one_lt_two hmb)
  have hor := Nat.two_pow_add_eq_or_of_lt hs n
  rw [assemble, hn, BitVec.ofInt_natCast, BitVec.toNat_or, BitVec.toNat_setWidth, shiftRight_toNat,
    BitVec.toNat_shiftLeft, BitVec.toNat_ofNat, Nat.mod_eq_of_lt hlt, Nat.shiftLeft_eq,
    Nat.mod_eq_of_lt hmul, Nat.mod_eq_of_lt hmant, Nat.or_comm, Int.toNat_natCast, Nat.mul_comm n,
    hor]

/-- The last step of a rounding to nearest; `q` has the bits that are lost at its top. -/
theorem roundUp_toNat {u : BitVec w} (hw : 1 < w) (hu : u.toNat + 1 < 2 ^ w) (q : BitVec 64) :
    (if q < 0x8000000000000000 then u else if q = 0x8000000000000000 then u + (u &&& 1) else u + 1).toNat
      = u.toNat + if 2 ^ 63 < q.toNat ∨ 2 ^ 63 = q.toNat ∧ u.toNat % 2 = 1 then 1 else 0 := by
  have hhalf : (0x8000000000000000 : BitVec 64).toNat = 2 ^ 63 := rfl
  have hone : (1 : BitVec w).toNat = 1 := by
    show (BitVec.ofNat w 1).toNat = 1
    rw [BitVec.toNat_ofNat, Nat.mod_eq_of_lt (Nat.one_lt_two_pow (by omega))]
  have hand : (u + (u &&& 1)).toNat = u.toNat + u.toNat % 2 := by
    rw [BitVec.toNat_add, BitVec.toNat_and, hone, Nat.and_one_is_mod, Nat.mod_eq_of_lt (by omega)]
  have hadd : (u + 1).toNat = u.toNat + 1 := by
    rw [BitVec.toNat_add, hone, Nat.mod_eq_of_lt hu]
  simp only [BitVec.lt_def, ← BitVec.toNat_inj, hhalf]
  rcases lt_trichotomy q.toNat (2 ^ 63) with h | h | h
  · rw [if_pos h, if_neg (by omega), Nat.add_zero]
  · rw [if_neg (by omega), if_pos h, hand]
    split <;> omega
  · rw [if_neg (by omega), if_neg (by omega), if_pos (.inl h), hadd]

theorem lost_iff (hs : s ≤ 64) : (2 ^ 63 < m % 2 ^ s * 2 ^ (64 - s) ↔ 2 ^ s < 2 * (m % 2 ^ s)) ∧
    (2 ^ 63 = m % 2 ^ s * 2 ^ (64 - s) ↔ 2 ^ s = 2 * (m % 2 ^ s)) := by
  have hpow : 2 ^ 63 * 2 = 2 ^ s * 2 ^ (64 - s) := by
    rw [← Nat.pow_add, Nat.add_sub_cancel' hs, ← Nat.pow_succ]
  have hpos := Nat.two_pow_pos (64 - s)
  constructor
  · have hmul : 2 ^ s * 2 ^ (64 - s) < 2 * (m % 2 ^ s) * 2 ^ (64 - s) ↔ _ :=
      Nat.mul_lt_mul_right hpos
    rw [← hmul, ← hpow, Nat.mul_assoc]
    omega
  · have hmul : 2 ^ s * 2 ^ (64 - s) = 2 * (m % 2 ^ s) * 2 ^ (64 - s) ↔ _ :=
      Nat.mul_left_inj hpos.ne'
    rw [← hmul, ← hpow, Nat.mul_assoc]
    omega

/-- **A rounding to nearest** of what has been assembled; `q` is compared as what is lost is. -/
theorem roundUp_eq_nearestShift {u : BitVec w} {n : ℕ} (hw : 1 < w)
    (hu : u.toNat = 2 * n + m / 2 ^ s) (hlt : u.toNat + 1 < 2 ^ w)
    (hq : (2 ^ 63 < q.toNat ↔ 2 ^ s < 2 * (m % 2 ^ s)) ∧
      (2 ^ 63 = q.toNat ↔ 2 ^ s = 2 * (m % 2 ^ s))) :
    (if q < 0x8000000000000000 then u else if q = 0x8000000000000000 then u + (u &&& 1)
      else u + 1).toNat = 2 * n + nearestShift m s := by
  have hodd : (2 * n + m / 2 ^ s) % 2 = 1 ↔ m / 2 ^ s % 2 = 1 := by omega
  rw [roundUp_toNat hw hlt, nearestShift]
  simp only [hq.1, hq.2, hu, hodd]
  rw [Nat.add_assoc]

end

section

variable {p : BitVec 64} {e : ℤ}

/-- The number of a significand. -/
def significandValue (p : BitVec 64) (e : ℤ) : ℚ := (p.toNat : ℚ) * 2 ^ (e - 63)

theorem significandValue_pos (hp : 2 ^ 63 ≤ p.toNat) (e : ℤ) : 0 < significandValue p e :=
  significand_pos (t := 63) hp e

theorem magnitudeOf_of_le (hp : 2 ^ 63 ≤ p.toNat) (mode : Mode) (he : -126 ≤ e) :
    binary32.magnitudeOf (binary32.roundIn mode (significandValue p e))
      = (e + 126).toNat * 2 ^ 23 + (mode.toInt ((p.toNat : ℚ) / 2 ^ 40)).toNat :=
  magnitudeOf_normal (f := binary32) mode hp p.isLt (by decide) he

theorem magnitudeOf_of_lt (hp : 2 ^ 63 ≤ p.toNat) (mode : Mode) {d : ℕ} (he : -126 = e + d) :
    binary32.magnitudeOf (binary32.roundIn mode (significandValue p e))
      = (mode.toInt ((p.toNat : ℚ) / 2 ^ (40 + d))).toNat :=
  magnitudeOf_subnormal (f := binary32) mode hp p.isLt (by decide) he

theorem toNat_and_mantissa (hp : 2 ^ 63 ≤ p.toNat) :
    (p &&& 0x7fffffffffffffff).toNat = p.toNat - 2 ^ 63 := by
  have hlt := p.isLt
  rw [BitVec.toNat_and, show (0x7fffffffffffffff : BitVec 64).toNat = 2 ^ 63 - 1 from rfl,
    Nat.and_two_pow_sub_one_eq_mod]
  omega

theorem assemble_normal (hp : 2 ^ 63 ≤ p.toNat) (he : -126 ≤ e) (he' : e ≤ 127) :
    (assemble 32 23 127 (p &&& 0x7fffffffffffffff) 40 e).toNat
      = 2 * ((e + 126).toNat * 2 ^ 22) + p.toNat / 2 ^ 40 := by
  have hlt := p.isLt
  have hmant := toNat_and_mantissa hp
  rw [assemble_toNat (by decide) (by rw [hmant]; omega) (by omega) (by norm_num; omega), hmant]
  omega

theorem assemble_subnormal {s : ℕ} (hs : 41 ≤ s) :
    (assemble 32 23 127 p s (-127)).toNat = p.toNat / 2 ^ s := by
  have hlt : p.toNat / 2 ^ s < 2 ^ 23 := by
    rw [Nat.div_lt_iff_lt_mul (Nat.two_pow_pos s), ← Nat.pow_add]
    exact lt_of_lt_of_le p.isLt (Nat.pow_le_pow_right two_pos (by omega))
  rw [assemble_toNat (by decide) hlt (by decide) (by decide)]
  simp

theorem ne_zero_of_lead (hp : 2 ^ 63 ≤ p.toNat) : p ≠ 0 := by
  intro h
  rw [h] at hp
  exact absurd hp (by decide)

/-- **The rounding to nearest** is right. -/
theorem roundToNearestEvenFloat_eq (hp : 2 ^ 63 ≤ p.toNat) (e : ℤ) :
    roundToNearestEvenFloat p e = binary32.ofRat .toNearest false (significandValue p e) := by
  have hlt := p.isLt
  have hround := toNat_ofRat_toNearest (f := binary32) (w := 32) false rfl hp hlt (by decide) e
  have hcount : binary32.finiteCount = 0x7f800000 := rfl
  apply BitVec.eq_of_toNat_eq
  rw [show binary32.minExp = -126 from rfl, show binary32.mantissaBits = 23 from rfl, hcount] at hround
  refine Eq.trans ?_ hround.symm
  rw [roundToNearestEvenFloat, if_neg (ne_zero_of_lead hp)]
  by_cases hnormal : -126 ≤ e
  · have hbounds := nearestShift_le p.toNat 40
    have hsub : 63 - 23 + (-126 - e).toNat = 40 := by omega
    rw [hsub]
    split
    · rename_i hlarge
      rw [Nat.min_eq_left (by omega)]
      rfl
    · rename_i hsmall
      have hmod : (p.toNat - 2 ^ 63) % 2 ^ 40 = p.toNat % 2 ^ 40 := by omega
      have hassemble := assemble_normal hp hnormal (by omega)
      have hlost := lost_iff (m := (p &&& 0x7fffffffffffffff).toNat) (s := 40) (by decide)
      rw [← shiftLeft_toNat _ (by decide), toNat_and_mantissa hp, hmod] at hlost
      rw [if_neg (by omega), if_neg (by omega)]
      simp only [if_neg (not_lt.mpr hnormal)]
      rw [roundUp_eq_nearestShift (n := (e + 126).toNat * 2 ^ 22) (m := p.toNat) (s := 40)
        (by decide) hassemble (by rw [hassemble]; omega) hlost, Nat.min_eq_right (by omega)]
      omega
  · obtain ⟨s, hs⟩ : ∃ s, s = (-86 - e).toNat := ⟨_, rfl⟩
    have hsub : 63 - 23 + (-126 - e).toNat = s := by omega
    rw [hsub, show (e - -126).toNat = 0 by omega, Nat.zero_mul, Nat.zero_add, if_neg (by omega)]
    by_cases hleast : e ≤ -150
    · have hshift := nearestShift_of_lt (t := 63) (s := s) hp hlt (by omega)
      have hless : (e = -150 ∧ (0x8000000000000000 : BitVec 64) < p) ↔ s = 64 ∧ 2 ^ 63 < p.toNat :=
        and_congr (by omega) BitVec.lt_def
      rw [hshift]
      by_cases habove : s = 64 ∧ 2 ^ 63 < p.toNat
      · rw [if_pos (hless.mpr habove), if_pos habove]
        rfl
      · rw [if_neg (fun h => habove (hless.mp h)), if_pos hleast, if_neg habove]
        rfl
    · have hshift : (40 - (126 + e)).toNat = s := by omega
      have hbounds := nearestShift_le p.toNat s
      have hassemble := assemble_subnormal (p := p) (s := s) (by omega)
      have hsmall : p.toNat / 2 ^ s < 2 ^ 23 := by
        rw [Nat.div_lt_iff_lt_mul (Nat.two_pow_pos _), ← Nat.pow_add]
        exact lt_of_lt_of_le hlt (Nat.pow_le_pow_right two_pos (by omega))
      have hlost := lost_iff (m := p.toNat) (s := s) (by omega)
      rw [← shiftLeft_toNat p (by omega)] at hlost
      rw [if_neg (by omega), if_neg hleast]
      simp only [if_pos (not_le.mp hnormal), hshift]
      rw [roundUp_eq_nearestShift (n := 0) (m := p.toNat) (s := s) (by decide)
        (by rw [hassemble]; omega) (by rw [hassemble]; omega) hlost, Nat.min_eq_right (by omega)]
      omega

/-- The rounding to nearest that flushes numbers that are subnormal before they are rounded. -/
theorem roundToNearestEvenFloatFtz_eq (hp : 2 ^ 63 ≤ p.toNat) (e : ℤ) :
    roundToNearestEvenFloatFtz 1 p e = if e < -126 then 0
      else binary32.ofRat .toNearest false (significandValue p e) := by
  have heq := roundToNearestEvenFloat_eq hp e
  rw [roundToNearestEvenFloatFtz, if_neg (ne_zero_of_lead hp)]
  by_cases hlarge : 127 < e
  · rw [if_pos hlarge, if_neg (by omega), ← heq, roundToNearestEvenFloat,
      if_neg (ne_zero_of_lead hp), if_pos hlarge]
  · rw [if_neg hlarge]
    by_cases hsmall : e < -126
    · rw [if_pos hsmall, if_pos (by omega)]
    · have hle : -126 ≤ e := not_lt.mp hsmall
      have hassemble := assemble_normal hp hle (not_lt.mp hlarge)
      have hlt := p.isLt
      obtain ⟨u, hu⟩ : ∃ u, u = assemble 32 23 127 (p &&& 0x7fffffffffffffff) 40 e := ⟨_, rfl⟩
      obtain ⟨q, hq⟩ : ∃ q, q = (p &&& 0x7fffffffffffffff) <<< 24 := ⟨_, rfl⟩
      have hunfold : roundToNearestEvenFloat p e = if q < 0x8000000000000000 then u
          else if q = 0x8000000000000000 then u + (u &&& 1) else u + 1 := by
        rw [roundToNearestEvenFloat, if_neg (ne_zero_of_lead hp), if_neg hlarge,
          if_neg (by omega), if_neg (by omega)]
        simp only [if_neg hsmall, ← hu, ← hq]
      have horder : (if q > 0x8000000000000000 then u + 1
          else if q = 0x8000000000000000 then u + (u &&& 1) else u)
          = roundToNearestEvenFloat p e := by
        rw [hunfold]
        simp only [gt_iff_lt, BitVec.lt_def, ← BitVec.toNat_inj (x := q)]
        rcases lt_trichotomy q.toNat (0x8000000000000000 : BitVec 64).toNat with h | h | h
        · rw [if_neg h.not_gt, if_neg h.ne, if_pos h]
        · rw [if_neg h.not_gt, if_pos h, if_neg h.not_lt, if_pos h]
        · rw [if_pos h, if_neg h.not_gt, if_neg h.ne']
      -- the exponent is not 0
      have hnormal : roundToNearestEvenFloat p e &&& 0x7f800000 ≠ 0 := by
        have hround := roundUp_toNat (u := u) (by decide) (by rw [hu, hassemble]; omega) q
        rw [← hunfold, hu, hassemble] at hround
        have hge : 2 ^ 23 ≤ (roundToNearestEvenFloat p e).toNat := by omega
        have hlt' : (roundToNearestEvenFloat p e).toNat < 2 ^ 31 := by
          split at hround <;> omega
        intro hzero
        have hdiv : (roundToNearestEvenFloat p e &&& 0x7f800000).toNat / 2 ^ 23
            = (roundToNearestEvenFloat p e).toNat / 2 ^ 23 % 2 ^ 8 := by
          rw [BitVec.toNat_and, Nat.and_div_two_pow,
            show (0x7f800000 : BitVec 32).toNat / 2 ^ 23 = 2 ^ 8 - 1 from rfl,
            Nat.and_two_pow_sub_one_eq_mod]
        rw [hzero, show (0 : BitVec 32).toNat / 2 ^ 23 = 0 from rfl] at hdiv
        omega
      rw [if_neg (by omega), if_neg hsmall]
      simp only [if_neg (show ¬ e = -127 by omega), ← hu, ← hq, horder]
      rw [if_neg hnormal, heq]

/-- **The rounding toward zero** is right, but for the least numbers. -/
theorem roundTowardZeroFloat_eq (hp : 2 ^ 63 ≤ p.toNat) (e : ℤ) :
    roundTowardZeroFloat p e = if e = -149 then 0
      else binary32.ofRat .towardZero false (significandValue p e) := by
  have hlt := p.isLt
  have hpos := significandValue_pos hp e
  have hcount : binary32.finiteCount = 0x7f800000 := rfl
  have hover : binary32.overflow .towardZero false = 0x7f7fffff := rfl
  have hround (s : ℕ) : (Mode.toInt .towardZero ((p.toNat : ℚ) / 2 ^ s)).toNat
      = p.toNat / 2 ^ s := by
    rw [Mode.toInt, truncate_of_nonneg (by positivity), floor_div_two_pow, Int.toNat_natCast]
  split
  · rename_i he
    rw [he, roundTowardZeroFloat]
    simp
  · rename_i he
    apply BitVec.eq_of_toNat_eq
    rw [roundTowardZeroFloat, if_neg (ne_zero_of_lead hp)]
    by_cases hnormal : -126 ≤ e
    · have hn := magnitudeOf_of_le hp .towardZero hnormal
      rw [hround] at hn
      rw [toNat_ofRat_of_pos (w := 32) .towardZero false rfl hpos hn, hover, hcount]
      split
      · rename_i hlarge
        rw [if_neg (by omega)]
        rfl
      · rename_i hsmall
        rw [if_neg (by omega), if_neg (by omega), assemble_normal hp hnormal (by omega),
          if_pos (by omega)]
        omega
    · obtain ⟨d, hd⟩ : ∃ d : ℕ, -126 = e + d := ⟨(-126 - e).toNat, by omega⟩
      have hn := magnitudeOf_of_lt hp .towardZero hd
      rw [hround] at hn
      rw [toNat_ofRat_of_pos (w := 32) .towardZero false rfl hpos hn, hover, hcount, if_neg (by omega)]
      by_cases hleast : e ≤ -149
      · have hzero : p.toNat / 2 ^ (40 + d) = 0 :=
          Nat.div_eq_of_lt (lt_of_lt_of_le hlt (Nat.pow_le_pow_right two_pos (by omega)))
        rw [if_pos hleast, hzero, if_pos (by decide)]
        rfl
      · have hshift : (40 - (126 + e)).toNat = 40 + d := by omega
        have hsmall : p.toNat / 2 ^ (40 + d) < 2 ^ 23 := by
          rw [Nat.div_lt_iff_lt_mul (Nat.two_pow_pos _), ← Nat.pow_add]
          exact lt_of_lt_of_le hlt (Nat.pow_le_pow_right two_pos (by omega))
        rw [if_neg hleast, if_pos (not_le.mp hnormal), hshift, assemble_subnormal (by omega),
          if_pos (by omega)]

theorem roundTowardZeroFloatFtz_eq (hp : 2 ^ 63 ≤ p.toNat) (e : ℤ) :
    roundTowardZeroFloatFtz p e = if e < -126 then 0
      else binary32.ofRat .towardZero false (significandValue p e) := by
  have heq := roundTowardZeroFloat_eq hp e
  split
  · rename_i he
    rw [roundTowardZeroFloatFtz, if_neg (ne_zero_of_lead hp), if_neg (by omega), if_pos he]
  · rename_i he
    rw [if_neg (by omega)] at heq
    rw [← heq, roundTowardZeroFloatFtz, roundTowardZeroFloat, if_neg he, if_neg he,
      if_neg (show ¬ e ≤ -149 by omega)]

end

/-! ### Mantissas and signs -/

/-- The word of a sign. -/
def signWord (w : ℕ) (neg : Bool) : BitVec w := if neg then BitVec.twoPow w (w - 1) else 0#w

section

variable {f : FloatFormat} {t v w : ℕ} {x : BitVec v} {a b c p : BitVec 64} {e eC : ℤ}
  {neg negC : Bool}

/-- **The mantissa** that is extracted. -/
theorem extractWord_eq (hx : f.value x ≠ 0) (ht : f.mantissaBits ≤ t) :
    2 ^ t ≤ (extractWord f (t + 1) x).1.toNat ∧
      2 ^ (t - f.mantissaBits) ∣ (extractWord f (t + 1) x).1.toNat ∧
      |f.value x| = (extractWord f (t + 1) x).1.toNat * 2 ^ ((extractWord f (t + 1) x).2 - t) := by
  obtain ⟨m, hm, hm', hdvd, heq⟩ := (number_value x f).exists_significand hx ht
  have hexp : (extractWord f (t + 1) x).2 = Int.log 2 |f.value x| := by
    rw [extractWord, frexp, add_sub_cancel_right]
  have hmant : (2 : ℚ) ^ (t + 1) * |f.value x / 2 ^ (Int.log 2 |f.value x| + 1)| = m := by
    obtain ⟨k, hk⟩ : ∃ k, k = Int.log 2 |f.value x| := ⟨_, rfl⟩
    have hpow : (2 : ℚ) ^ (t + 1) * 2 ^ (k - t) = 2 ^ (k + 1) := by
      rw [← zpow_natCast, ← zpow_add₀ two_ne_zero]
      congr 1
      push_cast
      ring
    rw [← hk] at heq ⊢
    rw [abs_div, abs_of_pos (two_zpow_pos _), heq, ← mul_div_assoc, mul_left_comm, hpow,
      mul_div_cancel_right₀ _ (two_zpow_pos _).ne']
  have hword : (extractWord f (t + 1) x).1.toNat = m := by
    rw [extractWord, frexp]
    dsimp only
    rw [hmant, Int.floor_natCast, BitVec.ofInt_natCast, BitVec.toNat_ofNat, Nat.mod_eq_of_lt hm']
  rw [hexp, hword]
  exact ⟨hm, hdvd, heq⟩

theorem extractf_eq {x : BitVec 32} (hx : binary32.value x ≠ 0) :
    2 ^ 31 ≤ (extractf x).1.toNat ∧ 2 ∣ (extractf x).1.toNat ∧
      |binary32.value x| = (extractf x).1.toNat * 2 ^ ((extractf x).2 - 31) := by
  obtain ⟨hm, hdvd, heq⟩ := extractWord_eq (f := binary32) (t := 31) hx (by decide)
  exact ⟨hm, (show 2 ∣ 2 ^ (31 - binary32.mantissaBits) by decide).trans hdvd, heq⟩

theorem signWord_xor_ne_zero (hw : 0 < w) :
    signWord w neg ^^^ signWord w negC ≠ 0 ↔ neg ≠ negC := by
  have hne : BitVec.twoPow w (w - 1) ≠ 0#w := by
    rw [ne_eq, ← BitVec.toNat_inj, BitVec.toNat_twoPow_of_lt (by omega), BitVec.toNat_ofNat,
      Nat.zero_mod]
    exact (Nat.two_pow_pos _).ne'
  cases neg <;> cases negC <;> simp [signWord, hne]

theorem signWord_xor (neg : Bool) :
    signWord w neg ^^^ BitVec.twoPow w (w - 1) = signWord w !neg := by
  cases neg <;> simp [signWord]

theorem and_signBit (a : BitVec w) :
    a &&& BitVec.twoPow w (w - 1) = signWord w (a.getLsbD (w - 1)) := BitVec.and_twoPow a (w - 1)

theorem toNat_and_not_msb (x : BitVec w) (hw : w = f.mantissaBits + f.exponentBits + 1) :
    (x &&& ~~~BitVec.twoPow w (w - 1)).toNat = f.magnitudeBits x := by
  have hpow : 2 ^ w - 1 - 2 ^ (w - 1) = 2 ^ (w - 1) - 1 := by
    have hdouble : 2 ^ w = 2 * 2 ^ (w - 1) := by rw [← Nat.pow_succ', show (w - 1).succ = w by omega]
    omega
  rw [BitVec.toNat_and, BitVec.toNat_not, BitVec.toNat_twoPow_of_lt (by omega), hpow,
    Nat.and_two_pow_sub_one_eq_mod, magnitudeBits, show w - 1 = f.mantissaBits + f.exponentBits by omega]

theorem and_not_msb_ne_zero {x : BitVec w} (hw : w = f.mantissaBits + f.exponentBits + 1)
    (h : f.value x ≠ 0) : x &&& ~~~BitVec.twoPow w (w - 1) ≠ 0#w := by
  intro hzero
  have habs := abs_value_eq f x
  rw [← toNat_and_not_msb x hw, hzero, BitVec.toNat_ofNat, Nat.zero_mod, magnitude_zero,
    abs_eq_zero] at habs
  exact h habs

/-- **The sum** is as good as the exact one. -/
theorem addAligned_spec {p c : BitVec 64} (hp : 2 ^ 63 ≤ p.toNat) (hc : 2 ^ 63 ≤ c.toNat)
    (hp2 : 2 ∣ p.toNat) (hc2 : 2 ∣ c.toNat) (he : eC ≤ e) {v : ℚ}
    (hv : v = sgn neg * significandValue p e + sgn negC * significandValue c eC) :
    (v = 0 ∧ addAligned p (signWord 32 neg) e c (signWord 32 negC) eC = some (0, 0, -200)) ∨
      ∃ r neg' e', addAligned p (signWord 32 neg) e c (signWord 32 negC) eC
        = some (r, signWord 32 neg', e') ∧ IsSum 63 2 v r.toNat neg' e' := by
  obtain ⟨d, hd⟩ : ∃ d : ℕ, e = eC + d := ⟨(e - eC).toNat, by omega⟩
  obtain ⟨n, hn⟩ : ∃ n, n = if eC < e then shiftRightSticky64 c (e - eC).toNat else c := ⟨_, rfl⟩
  have hx : (0 : ℚ) ≤ (c.toNat : ℚ) / 2 ^ d := by positivity
  have hshift : n.toNat = jam c.toNat d := by
    rcases Nat.eq_zero_or_pos d with rfl | hpos
    · rw [hn, if_neg (by omega), jam_zero]
    · rw [hn, if_pos (by omega), show (e - eC).toNat = d by omega, shiftRightSticky64_toNat]
  have halign := aligned_jam (t := 63) (by decide) hp p.isLt hp2 c.isLt hc2 d
  have hvalue := hv.trans (add_significands 63 (sgn neg) (sgn negC) p.toNat c.toNat hd)
  rw [← hshift] at halign
  rw [addAligned, ← hn]
  by_cases hsign : neg = negC
  · rw [if_neg (by rw [signWord_xor_ne_zero (by decide)]; exact not_not.mpr hsign)]
    subst hsign
    obtain ⟨hadd, hcarry⟩ := add64_eq p n e
    refine .inr ⟨_, neg, _, rfl, ?_⟩
    rw [hvalue]
    exact halign.isSum_of_add hx neg (add64 p n e).1.isLt hadd hcarry
  · have hneg : negC = !neg := by cases neg <;> cases negC <;> simp_all
    rw [if_pos (by rw [signWord_xor_ne_zero (by decide)]; exact hsign)]
    subst hneg
    obtain ⟨hzero, hsub⟩ := sub64_eq p n (signWord 32 neg) e
    by_cases heq : p = n
    · left
      rw [hvalue]
      exact ⟨halign.sub_eq_zero neg (congrArg BitVec.toNat heq), hzero heq⟩
    · right
      obtain ⟨r, j, hr, hval, hlead⟩ := hsub heq
      refine ⟨r, if p.toNat < n.toNat then !neg else neg, e - j, ?_, ?_⟩
      · have hmsb : (0x80000000 : BitVec 32) = BitVec.twoPow 32 (32 - 1) := by decide
        rw [hr, hmsb, signWord_xor]
        split <;> rfl
      · rw [hvalue, hval]
        exact halign.isSum_sub neg e (fun h => heq (BitVec.eq_of_toNat_eq h)) (hval ▸ hlead)
          (hval ▸ r.isLt)

/-- **The exact sum**, or one that is as good. -/
theorem infinitePrecisionAdd_spec (hp : 2 ^ 63 ≤ p.toNat) (hc : 2 ^ 63 ≤ c.toNat)
    (hp2 : 2 ∣ p.toNat) (hc2 : 2 ∣ c.toNat) {v : ℚ}
    (hv : v = sgn neg * significandValue p e + sgn negC * significandValue c eC) :
    (v = 0 ∧ infinitePrecisionAdd p (signWord 32 neg) e c (signWord 32 negC) eC
      = some (0, 0, -200)) ∨
    ∃ r neg' e', infinitePrecisionAdd p (signWord 32 neg) e c (signWord 32 negC) eC
      = some (r, signWord 32 neg', e') ∧ IsSum 63 2 v r.toNat neg' e' := by
  rw [infinitePrecisionAdd]
  split
  · rename_i he
    exact addAligned_spec hp hc hp2 hc2 he hv
  · rename_i he
    exact addAligned_spec hc hp hc2 hp2 (le_of_not_ge he) (hv.trans (add_comm _ _))

end

/-! ### The result -/

section

variable {a b c : BitVec 32} {rtz flush : Bool}

/-- The exact value. -/
def fmaValue (a b c : BitVec 32) : ℚ := binary32.value a * binary32.value b + binary32.value c

/-- The exact value, rounded; numbers that are subnormal before are flushed. -/
def roundedFma (rtz flush : Bool) (a b c : BitVec 32) : BitVec 32 :=
  let q := fmaValue a b c
  if flush ∧ q ≠ 0 ∧ |q| < 2 ^ (-126 : ℤ) then binary32.ofMagnitude (decide (q < 0)) 0
  else binary32.ofRat (if rtz then .towardZero else .toNearest) false q

theorem renormalize_eq {mA mB : BitVec 32} (hA : 2 ^ 31 ≤ mA.toNat) (hB : 2 ^ 31 ≤ mB.toNat)
    (hA2 : 2 ∣ mA.toNat) (eA eB : ℤ) :
    2 ^ 63 ≤ (renormalize (mA.setWidth 64 * mB.setWidth 64) (eA + eB)).1.toNat ∧
      2 ∣ (renormalize (mA.setWidth 64 * mB.setWidth 64) (eA + eB)).1.toNat ∧
      significandValue (renormalize (mA.setWidth 64 * mB.setWidth 64) (eA + eB)).1
          (renormalize (mA.setWidth 64 * mB.setWidth 64) (eA + eB)).2
        = mA.toNat * 2 ^ (eA - 31) * (mB.toNat * 2 ^ (eB - 31)) := by
  have hA' := mA.isLt
  have hB' := mB.isLt
  have hlt : mA.toNat * mB.toNat < 2 ^ 32 * 2 ^ 32 := Nat.mul_lt_mul'' hA' hB'
  have hge : 2 ^ 31 * 2 ^ 31 ≤ mA.toNat * mB.toNat := Nat.mul_le_mul hA hB
  have hproduct : (mA.setWidth 64 * mB.setWidth 64).toNat = mA.toNat * mB.toNat := by
    rw [BitVec.toNat_mul, BitVec.toNat_setWidth_of_le (by decide),
      BitVec.toNat_setWidth_of_le (by decide), Nat.mod_eq_of_lt (by omega)]
  have hexp : (mA.toNat * 2 ^ (eA - 31) : ℚ) * (mB.toNat * 2 ^ (eB - 31))
      = (mA.toNat * mB.toNat : ℕ) * 2 ^ (eA + eB + 1 - 63) := by
    rw [show eA + eB + 1 - 63 = (eA - 31) + (eB - 31) by ring, zpow_add₀ two_ne_zero]
    push_cast
    ring
  have hmsb := and_msb_eq_zero_iff (mA.setWidth 64 * mB.setWidth 64)
  rw [hproduct, BitVec.and_comm] at hmsb
  rw [hexp, renormalize]
  split
  · rename_i h
    have hsmall := hmsb.mp h
    have hshift : ((mA.setWidth 64 * mB.setWidth 64) <<< 1).toNat = mA.toNat * mB.toNat * 2 := by
      rw [BitVec.toNat_shiftLeft, Nat.shiftLeft_eq, hproduct, Nat.mod_eq_of_lt (by omega)]
    rw [significandValue, hshift, show eA + eB + 1 - 63 = eA + eB - 63 + 1 by ring,
      zpow_add_one₀ two_ne_zero]
    refine ⟨by omega, Nat.dvd_mul_left 2 _, ?_⟩
    push_cast
    ring
  · rename_i h
    have hlarge := not_lt.mp fun h' => h (hmsb.mpr h')
    rw [significandValue, hproduct]
    exact ⟨hlarge, hA2.mul_right _, rfl⟩

variable (rtz flush) in
/-- **What is rounded**: the exact sum, or one that is as good. -/
theorem referenceFma_eq (hardware : BitVec 32 → BitVec 32 → BitVec 32 → BitVec 32) (check : ℤ)
    (ha : binary32.Finite a) (hb : binary32.Finite b) (hc : binary32.Finite c)
    (ha0 : binary32.value a ≠ 0) (hb0 : binary32.value b ≠ 0) (hc0 : binary32.value c ≠ 0) :
    (fmaValue a b c = 0 ∧ referenceFma hardware rtz check a b c flush
      = some (roundResult rtz check flush 0 (-200) ||| 0)) ∨
    ∃ r neg e, referenceFma hardware rtz check a b c flush
      = some (roundResult rtz check flush r e ||| signWord 32 neg) ∧
        IsSum 63 2 (fmaValue a b c) r.toNat neg e := by
  have hmsb : (0x80000000 : BitVec 32) = BitVec.twoPow 32 (32 - 1) := by decide
  obtain ⟨hA, hA2, hAv⟩ := extractf_eq ha0
  obtain ⟨hB, -, hBv⟩ := extractf_eq hb0
  obtain ⟨hC, -, hCv⟩ := extractf_eq hc0
  obtain ⟨hp, hp2, hpv⟩ := renormalize_eq hA hB hA2 (extractf a).2 (extractf b).2
  obtain ⟨p, hpdef⟩ : ∃ p, p = renormalize ((extractf a).1.setWidth 64 * (extractf b).1.setWidth 64)
    ((extractf a).2 + (extractf b).2) := ⟨_, rfl⟩
  obtain ⟨d, hddef⟩ : ∃ d, d = (extractf c).1.setWidth 64 <<< 32 := ⟨_, rfl⟩
  have hd : d.toNat = (extractf c).1.toNat * 2 ^ 32 := by
    have hlt := (extractf c).1.isLt
    rw [hddef, BitVec.toNat_shiftLeft, Nat.shiftLeft_eq, BitVec.toNat_setWidth_of_le (by decide),
      Nat.mod_eq_of_lt (by omega)]
  have hdv : significandValue d (extractf c).2 = |binary32.value c| := by
    rw [significandValue, hd, hCv]
    rw [show (extractf c).2 - 31 = 32 + ((extractf c).2 - 63) by ring, zpow_add₀ two_ne_zero]
    push_cast
    ring
  have hvalue : fmaValue a b c = sgn (a.getLsbD 31 ^^ b.getLsbD 31) * significandValue p.1 p.2
      + sgn (c.getLsbD 31) * significandValue d (extractf c).2 := by
    rw [← hpdef, ← hAv, ← hBv] at hpv
    have hsign (x : BitVec 32) : binary32.value x = sgn (x.getLsbD 31) * |binary32.value x| :=
      value_eq_sgn binary32 x
    rw [fmaValue, hdv, hpv, sgn_xor]
    conv_lhs => rw [hsign a, hsign b, hsign c]
    ring
  have hspec := infinitePrecisionAdd_spec (hpdef ▸ hp) (by omega) (hpdef ▸ hp2) (by omega) hvalue
  rw [referenceFma, if_neg, hmsb, and_signBit, and_signBit, BitVec.getLsbD_xor]
  · dsimp only
    rw [← hpdef, ← hddef]
    rcases hspec with ⟨hzero, hsum⟩ | ⟨r, neg, e, hsum, h⟩
    · left
      rw [hsum]
      exact ⟨hzero, rfl⟩
    · right
      rw [hsum]
      exact ⟨r, neg, e, rfl, h⟩
  · push Not
    exact ⟨ha, hb, hc, and_not_msb_ne_zero (f := binary32) rfl ha0,
      and_not_msb_ne_zero (f := binary32) rfl hb0, and_not_msb_ne_zero (f := binary32) rfl hc0⟩

theorem ofMagnitude_zero (neg : Bool) :
    (binary32.ofMagnitude neg 0 : BitVec 32) = 0 ||| signWord 32 neg := by
  cases neg <;> decide

theorem roundResult_zero (rtz flush : Bool) (check e : ℤ) : roundResult rtz check flush 0 e = 0 := by
  cases rtz <;> cases flush <;> rfl

/-- **The four roundings**: where they are right. -/
theorem roundResult_eq {check : ℤ} (hcheck : flush = true → check = 1) {p : BitVec 64}
    (hp : 2 ^ 63 ≤ p.toNat) (e : ℤ) : roundResult rtz check flush p e =
      if flush = true ∧ e < -126 ∨ rtz = true ∧ flush = false ∧ e = -149 then 0
      else binary32.ofRat (if rtz then .towardZero else .toNearest) false (significandValue p e) := by
  cases rtz with
  | true =>
    cases flush with
    | true => simp [roundResult, roundTowardZeroFloatFtz_eq hp]
    | false => simp [roundResult, roundTowardZeroFloat_eq hp]
  | false =>
    cases flush with
    | true => simp [roundResult, hcheck rfl, roundToNearestEvenFloatFtz_eq hp]
    | false => simp [roundResult, roundToNearestEvenFloat_eq hp]

theorem ofRat_least {p : BitVec 64} (hp : 2 ^ 63 ≤ p.toNat) :
    (binary32.ofRat .towardZero false (significandValue p (-149)) : BitVec 32) = 1 := by
  have hlt := p.isLt
  have hn := magnitudeOf_of_lt hp .towardZero (show (-126 : ℤ) = -149 + (23 : ℕ) by norm_num)
  have hone : p.toNat / 2 ^ (40 + 23) = 1 := by
    rw [Nat.div_eq_iff (Nat.two_pow_pos _)]
    omega
  rw [Mode.toInt, truncate_of_nonneg (by positivity), floor_div_two_pow, Int.toNat_natCast, hone]
    at hn
  apply BitVec.eq_of_toNat_eq
  rw [toNat_ofRat_of_pos (w := 32) .towardZero false rfl (significandValue_pos hp _) hn,
    if_pos (by decide)]
  rfl

theorem roundedFma_eq {r : BitVec 64} {neg : Bool} {e : ℤ}
    (h : IsSum 63 2 (fmaValue a b c) r.toNat neg e) : roundedFma rtz flush a b c =
      (if flush = true ∧ e < -126 then 0
        else binary32.ofRat (if rtz then .towardZero else .toNearest) false (significandValue r e))
      ||| signWord 32 neg := by
  have hsmall : (flush = true ∧ fmaValue a b c ≠ 0 ∧ |fmaValue a b c| < 2 ^ (-126 : ℤ)) ↔
      flush = true ∧ e < -126 := by
    have hlog : |fmaValue a b c| < 2 ^ (-126 : ℤ) ↔ Int.log 2 |fmaValue a b c| < -126 :=
      Int.lt_zpow_iff_log_lt one_lt_two (abs_pos.mpr h.ne_zero)
    rw [hlog, h.log_eq (by decide)]
    exact and_congr_right fun _ => and_iff_right h.ne_zero
  have hmode : (if rtz then Mode.towardZero else .toNearest).neg
      = if rtz then .towardZero else .toNearest := by cases rtz <;> rfl
  have hround := h.ofRat_eq (f := binary32) (by decide) (w := 32) rfl hmode false
  rw [roundedFma]
  simp only [hsmall]
  split
  · rw [← h.neg_eq, ofMagnitude_zero]
  · exact hround

/-- **`reference_fma` rounds the exact value**, just if it is not one of the least numbers that is
rounded toward zero and not flushed. -/
theorem referenceFma_iff (hardware : BitVec 32 → BitVec 32 → BitVec 32 → BitVec 32)
    (gIsInRTZMode shouldFlush : Bool) (gCheckTininessBeforeRounding : ℤ)
    (hcheck : shouldFlush = true → gCheckTininessBeforeRounding = 1) (a b c : BitVec 32)
    (ha : binary32.Finite a) (hb : binary32.Finite b) (hc : binary32.Finite c)
    (ha0 : binary32.value a ≠ 0) (hb0 : binary32.value b ≠ 0) (hc0 : binary32.value c ≠ 0) :
    referenceFma hardware gIsInRTZMode gCheckTininessBeforeRounding a b c shouldFlush
      = some (roundedFma gIsInRTZMode shouldFlush a b c) ↔
    ¬ (gIsInRTZMode = true ∧ shouldFlush = false ∧ 2 ^ (-149 : ℤ) ≤ |fmaValue a b c| ∧
      |fmaValue a b c| < 2 ^ (-148 : ℤ)) := by
  rcases referenceFma_eq gIsInRTZMode shouldFlush hardware
    gCheckTininessBeforeRounding ha hb hc ha0 hb0 hc0 with ⟨hzero, heq⟩ | ⟨r, neg, e, heq, h⟩
  · rw [heq, hzero, abs_zero, roundedFma, hzero, ofRat_zero, roundResult_zero]
    simp only [ne_eq, not_true, false_and, and_false, if_false]
    refine iff_of_true rfl ?_
    intro hleast
    exact absurd (two_zpow_pos (-149)) (not_lt.mpr hleast.2.2.1)
  · rw [heq, Option.some_inj, roundedFma_eq h, roundResult_eq hcheck h.lead]
    have hpos := abs_pos.mpr h.ne_zero
    have hleast : 2 ^ (-149 : ℤ) ≤ |fmaValue a b c| ∧ |fmaValue a b c| < 2 ^ (-148 : ℤ) ↔
        e = -149 := by
      have hle : 2 ^ (-149 : ℤ) ≤ |fmaValue a b c| ↔ -149 ≤ Int.log 2 |fmaValue a b c| :=
        Int.zpow_le_iff_le_log one_lt_two hpos
      have hlt : |fmaValue a b c| < 2 ^ (-148 : ℤ) ↔ Int.log 2 |fmaValue a b c| < -148 :=
        Int.lt_zpow_iff_log_lt one_lt_two hpos
      rw [hle, hlt, h.log_eq (by decide)]
      omega
    rw [hleast]
    by_cases hbug : gIsInRTZMode = true ∧ shouldFlush = false ∧ e = -149
    · obtain ⟨rfl, rfl, rfl⟩ := hbug
      refine iff_of_false ?_ (not_not.mpr ⟨rfl, rfl, rfl⟩)
      rw [if_pos (.inr ⟨rfl, rfl, rfl⟩), if_neg (by simp), if_pos rfl, ofRat_least h.lead]
      cases neg <;> decide
    · refine iff_of_true ?_ hbug
      simp only [hbug, or_false]

/-- 1 * 2 + 1, toward zero. -/
theorem referenceFma_three :
    referenceFma (fun a _ _ => a) true 0 0x3f800000 0x40000000 0x3f800000 false
      = some (roundedFma true false 0x3f800000 0x40000000 0x3f800000) ↔
    ¬ (true = true ∧ false = false ∧
      2 ^ (-149 : ℤ) ≤ |fmaValue 0x3f800000 0x40000000 0x3f800000| ∧
      |fmaValue 0x3f800000 0x40000000 0x3f800000| < 2 ^ (-148 : ℤ)) :=
  referenceFma_iff (fun a _ _ => a) true false 0 (fun h => absurd h Bool.false_ne_true) _ _ _
    (by decide) (by decide) (by decide) (by decide +kernel) (by decide +kernel) (by decide +kernel)

/-- The least number, from the difference of the next one and itself, is returned as 0. -/
theorem referenceFma_least : ¬ ∀ (hardware : BitVec 32 → BitVec 32 → BitVec 32 → BitVec 32)
    (gIsInRTZMode shouldFlush : Bool) (gCheckTininessBeforeRounding : ℤ),
    (shouldFlush = true → gCheckTininessBeforeRounding = 1) → ∀ a b c : BitVec 32,
    binary32.Finite a → binary32.Finite b → binary32.Finite c →
    binary32.value a ≠ 0 → binary32.value b ≠ 0 → binary32.value c ≠ 0 →
    referenceFma hardware gIsInRTZMode gCheckTininessBeforeRounding a b c shouldFlush
      = some (roundedFma gIsInRTZMode shouldFlush a b c) := by
  intro h
  have hright := h (fun a _ _ => a) true false 0 (fun h => absurd h Bool.false_ne_true)
    0x00000002 0x3f800000 0x80000001 (by decide) (by decide) (by decide) (by decide +kernel)
    (by decide +kernel) (by decide +kernel)
  have hcode : referenceFma (fun a _ _ => a) true 0 0x00000002 0x3f800000 0x80000001 false
      = some 0 := by decide +kernel
  have hrounded : roundedFma true false 0x00000002 0x3f800000 0x80000001 = 1 := by decide +kernel
  rw [hcode, hrounded] at hright
  exact absurd (Option.some.inj hright) (by decide)

end

end OpenCLCTS.MathBruteForce
