import Mathlib.Tactic.Linarith
import OpenCLCTS.IntegerOps.Arithmetic

/-!
# Products of 128 bits

`multiply_unsigned_64_by_64` assembles a product from four partial products of 32-bit halves, and
`multiply_signed_64_by_64` negates the product of the absolute values.  The verifiers of `mul_hi`
and `mad_hi` store the high half.

* `multiplyUnsigned_exact`, `multiplySigned_exact`: the pair is the product.
* `verifyIntegerMulHi_value`, `verifyIntegerMadHi_value`: what the verifiers store, for each of the
  eight types.
-/

namespace OpenCLCTS.IntegerOps

open Conversions

/-- `destLow` and `destHi`. -/
structure Product where
  destLow : BitVec 64
  destHi : BitVec 64
  deriving DecidableEq

/-! ### The partial products -/

section

variable (sourceA sourceB : BitVec 64)

/-- `lowA` and `lowB`. -/
def low (source : BitVec 64) : BitVec 64 := source &&& 0xffffffff

/-- `highA` and `highB`. -/
def high (source : BitVec 64) : BitVec 64 := source >>> 32

def aHibHi : BitVec 64 := high sourceA * high sourceB

def aHibLo : BitVec 64 := high sourceA * low sourceB

def aLobHi : BitVec 64 := low sourceA * high sourceB

def aLobLo : BitVec 64 := low sourceA * low sourceB

def aLobLoHi : BitVec 64 := aLobLo sourceA sourceB >>> 32

def aLobHiLo : BitVec 64 := low (aLobHi sourceA sourceB)

/-- `aHibLo` after `aHibLo += aLobLoHi + aLobHiLo`. -/
def aHibLoSum : BitVec 64 :=
  aHibLo sourceA sourceB + (aLobLoHi sourceA sourceB + aLobHiLo sourceA sourceB)

/-- `multiply_unsigned_64_by_64`. -/
def multiplyUnsigned64By64 : Product where
  destHi := aHibHi sourceA sourceB + (aHibLoSum sourceA sourceB >>> 32)
    + (aLobHi sourceA sourceB >>> 32)
  destLow := (aHibLoSum sourceA sourceB <<< 32) ||| low (aLobLo sourceA sourceB)

/-- `multiply_signed_64_by_64`; `destHi` is signed. -/
def multiplySigned64By64 : Product :=
  let aSign := sourceA.sshiftRight 63
  let bSign := sourceB.sshiftRight 63
  let resultSign := aSign ^^^ bSign
  let product := multiplyUnsigned64By64 ((sourceA ^^^ aSign) - aSign) ((sourceB ^^^ bSign) - bSign)
  if resultSign ≠ 0 then
    let destLow := (product.destLow ^^^ resultSign) - resultSign
    let hi := product.destHi ^^^ resultSign
    { destLow := destLow, destHi := if destLow = 0 then hi - resultSign else hi }
  else product

end

/-! ### The product of unsigned numbers -/

section

variable (a b : BitVec 64)

@[simp] theorem low_toNat : (low a).toNat = a.toNat % 2 ^ 32 := by
  rw [low, BitVec.toNat_and]
  exact Nat.and_two_pow_sub_one_eq_mod a.toNat 32

@[simp] theorem high_toNat : (high a).toNat = a.toNat / 2 ^ 32 := by
  rw [high, BitVec.toNat_ushiftRight, Nat.shiftRight_eq_div_pow]

/-- A product of two numbers of 32 bits, to which two more can be added. -/
theorem mul_le_of_lt {x y : ℕ} (hx : x < 2 ^ 32) (hy : y < 2 ^ 32) :
    x * y ≤ (2 ^ 32 - 1) * (2 ^ 32 - 1) :=
  Nat.mul_le_mul (Nat.le_sub_one_of_lt hx) (Nat.le_sub_one_of_lt hy)

theorem toNat_mul_of_lt {x y : BitVec 64} (hx : x.toNat < 2 ^ 32) (hy : y.toNat < 2 ^ 32) :
    (x * y).toNat = x.toNat * y.toNat := by
  have hle := mul_le_of_lt hx hy
  rw [BitVec.toNat_mul]
  exact Nat.mod_eq_of_lt (by omega)

theorem low_lt : a.toNat % 2 ^ 32 < 2 ^ 32 := Nat.mod_lt _ (Nat.two_pow_pos 32)

theorem high_lt : a.toNat / 2 ^ 32 < 2 ^ 32 := by
  have := a.isLt
  omega

theorem aHibHi_toNat : (aHibHi a b).toNat = (a.toNat / 2 ^ 32) * (b.toNat / 2 ^ 32) := by
  rw [aHibHi, toNat_mul_of_lt, high_toNat, high_toNat]
  · exact (high_toNat a).trans_lt (high_lt a)
  · exact (high_toNat b).trans_lt (high_lt b)

theorem aHibLo_toNat : (aHibLo a b).toNat = (a.toNat / 2 ^ 32) * (b.toNat % 2 ^ 32) := by
  rw [aHibLo, toNat_mul_of_lt, high_toNat, low_toNat]
  · exact (high_toNat a).trans_lt (high_lt a)
  · exact (low_toNat b).trans_lt (low_lt b)

theorem aLobHi_toNat : (aLobHi a b).toNat = (a.toNat % 2 ^ 32) * (b.toNat / 2 ^ 32) := by
  rw [aLobHi, toNat_mul_of_lt, high_toNat, low_toNat]
  · exact (low_toNat a).trans_lt (low_lt a)
  · exact (high_toNat b).trans_lt (high_lt b)

theorem aLobLo_toNat : (aLobLo a b).toNat = (a.toNat % 2 ^ 32) * (b.toNat % 2 ^ 32) := by
  rw [aLobLo, toNat_mul_of_lt, low_toNat, low_toNat]
  · exact (low_toNat a).trans_lt (low_lt a)
  · exact (low_toNat b).trans_lt (low_lt b)

/-- The sums of `multiply_unsigned_64_by_64` as numbers, none of which needs more than 64 bits. -/
structure SumsFit : Prop where
  carries : (aLobLoHi a b).toNat + (aLobHiLo a b).toNat < 2 ^ 64
  middle : (aHibLo a b).toNat + ((aLobLoHi a b).toNat + (aLobHiLo a b).toNat) < 2 ^ 64
  upper : (aHibHi a b).toNat + (aHibLoSum a b >>> 32).toNat < 2 ^ 64
  top : (aHibHi a b).toNat + (aHibLoSum a b >>> 32).toNat + (aLobHi a b >>> 32).toNat < 2 ^ 64

theorem aLobLoHi_toNat :
    (aLobLoHi a b).toNat = (a.toNat % 2 ^ 32) * (b.toNat % 2 ^ 32) / 2 ^ 32 := by
  rw [aLobLoHi, BitVec.toNat_ushiftRight, Nat.shiftRight_eq_div_pow, aLobLo_toNat]

theorem aLobHiLo_toNat :
    (aLobHiLo a b).toNat = (a.toNat % 2 ^ 32) * (b.toNat / 2 ^ 32) % 2 ^ 32 := by
  rw [aLobHiLo, low_toNat, aLobHi_toNat]

theorem aHibLoSum_toNat : (aHibLoSum a b).toNat = (a.toNat / 2 ^ 32) * (b.toNat % 2 ^ 32)
    + ((a.toNat % 2 ^ 32) * (b.toNat % 2 ^ 32) / 2 ^ 32
      + (a.toNat % 2 ^ 32) * (b.toNat / 2 ^ 32) % 2 ^ 32) := by
  have hq := mul_le_of_lt (high_lt a) (low_lt b)
  have hs := mul_le_of_lt (low_lt a) (low_lt b)
  rw [aHibLoSum, BitVec.toNat_add, BitVec.toNat_add, aHibLo_toNat, aLobLoHi_toNat, aLobHiLo_toNat,
    Nat.add_mod_mod]
  exact Nat.mod_eq_of_lt (by omega)

/-- **No sum overflows.** -/
theorem sumsFit : SumsFit a b := by
  have hp := mul_le_of_lt (high_lt a) (high_lt b)
  have hq := mul_le_of_lt (high_lt a) (low_lt b)
  have hr := mul_le_of_lt (low_lt a) (high_lt b)
  have hs := mul_le_of_lt (low_lt a) (low_lt b)
  constructor
  · rw [aLobLoHi_toNat, aLobHiLo_toNat]
    omega
  · rw [aHibLo_toNat, aLobLoHi_toNat, aLobHiLo_toNat]
    omega
  · rw [BitVec.toNat_ushiftRight, Nat.shiftRight_eq_div_pow, aHibLoSum_toNat, aHibHi_toNat]
    omega
  · rw [BitVec.toNat_ushiftRight, BitVec.toNat_ushiftRight, Nat.shiftRight_eq_div_pow,
      Nat.shiftRight_eq_div_pow, aHibLoSum_toNat, aHibHi_toNat, aLobHi_toNat]
    omega

theorem destHi_toNat : (multiplyUnsigned64By64 a b).destHi.toNat
    = (aHibHi a b).toNat + (aHibLoSum a b).toNat / 2 ^ 32 + (aLobHi a b).toNat / 2 ^ 32 := by
  have htop := (sumsFit a b).top
  rw [multiplyUnsigned64By64, BitVec.toNat_add, BitVec.toNat_add, Nat.mod_add_mod,
    Nat.mod_eq_of_lt htop, BitVec.toNat_ushiftRight, BitVec.toNat_ushiftRight,
    Nat.shiftRight_eq_div_pow, Nat.shiftRight_eq_div_pow]

theorem destLow_toNat : (multiplyUnsigned64By64 a b).destLow.toNat
    = 2 ^ 32 * ((aHibLoSum a b).toNat % 2 ^ 32) + (aLobLo a b).toNat % 2 ^ 32 := by
  have hshift : (aHibLoSum a b <<< 32).toNat = 2 ^ 32 * ((aHibLoSum a b).toNat % 2 ^ 32) := by
    rw [BitVec.toNat_shiftLeft, Nat.shiftLeft_eq]
    omega
  rw [multiplyUnsigned64By64, BitVec.toNat_or, low_toNat, hshift,
    Nat.two_pow_add_eq_or_of_lt (low_lt _)]

/-- **The pair is the product of the unsigned numbers.** -/
theorem multiplyUnsigned_exact : (multiplyUnsigned64By64 a b).destHi.toNat * 2 ^ 64
    + (multiplyUnsigned64By64 a b).destLow.toNat = a.toNat * b.toNat := by
  have hsplit : ∀ x : ℕ, x = 2 ^ 32 * (x / 2 ^ 32) + x % 2 ^ 32 := fun x => (Nat.div_add_mod _ _).symm
  have hmul : a.toNat * b.toNat = 2 ^ 64 * (a.toNat / 2 ^ 32 * (b.toNat / 2 ^ 32))
      + 2 ^ 32 * (a.toNat / 2 ^ 32 * (b.toNat % 2 ^ 32))
      + 2 ^ 32 * (a.toNat % 2 ^ 32 * (b.toNat / 2 ^ 32))
      + a.toNat % 2 ^ 32 * (b.toNat % 2 ^ 32) := by
    calc a.toNat * b.toNat
        = (2 ^ 32 * (a.toNat / 2 ^ 32) + a.toNat % 2 ^ 32)
          * (2 ^ 32 * (b.toNat / 2 ^ 32) + b.toNat % 2 ^ 32) := by
          rw [← hsplit a.toNat, ← hsplit b.toNat]
      _ = _ := by ring
  rw [destHi_toNat, destLow_toNat, hmul, aHibHi_toNat, aHibLoSum_toNat, aLobHi_toNat, aLobLo_toNat]
  omega

end

/-! ### The product of signed numbers -/

section

variable (a b : BitVec 64)

theorem sign_eq : a.sshiftRight 63 = if a.toInt < 0 then BitVec.allOnes 64 else 0#64 := by
  have hlo := BitVec.le_toInt a
  have hhi := BitVec.toInt_lt (x := a)
  apply BitVec.eq_of_toInt_eq
  rw [BitVec.toInt_sshiftRight, Int.shiftRight_eq_div_pow]
  split
  · rw [BitVec.toInt_allOnes]
    norm_num at hlo ⊢
    omega
  · rw [BitVec.toInt_zero]
    norm_num at hhi ⊢
    omega

theorem toInt_eq_ite : a.toInt = if a.toNat < 2 ^ 63 then (a.toNat : ℤ) else a.toNat - 2 ^ 64 := by
  rw [BitVec.toInt_eq_toNat_cond]
  norm_num
  split <;> split <;> omega

theorem magnitude_toNat :
    ((a ^^^ a.sshiftRight 63) - a.sshiftRight 63).toNat = a.toInt.natAbs := by
  have hint := toInt_eq_ite a
  have hlt := a.isLt
  rw [sign_eq]
  split
  · rw [BitVec.xor_allOnes, BitVec.toNat_sub, BitVec.toNat_not, BitVec.toNat_allOnes]
    split at hint <;> omega
  · rw [BitVec.xor_zero, BitVec.sub_zero]
    split at hint <;> omega

theorem natAbs_le : a.toInt.natAbs ≤ 2 ^ 63 := by
  have hlo := BitVec.le_toInt a
  have hhi := BitVec.toInt_lt (x := a)
  norm_num at hlo hhi
  omega

theorem resultSign_eq : a.sshiftRight 63 ^^^ b.sshiftRight 63
    = if (a.toInt < 0) ↔ (b.toInt < 0) then 0#64 else BitVec.allOnes 64 := by
  rw [sign_eq, sign_eq]
  by_cases ha : a.toInt < 0
  · by_cases hb : b.toInt < 0
    · simp [ha, hb]
    · simp [ha, hb]
  · by_cases hb : b.toInt < 0
    · simp [ha, hb]
    · simp [ha, hb]

/-- The integer of a pair with a signed high half. -/
def Product.value (p : Product) : ℤ := p.destHi.toInt * 2 ^ 64 + p.destLow.toNat

/-- A product of absolute values, with its sign. -/
theorem mul_eq_natAbs (x y : ℤ) : x * y
    = if (x < 0) ↔ (y < 0) then ((x.natAbs * y.natAbs : ℕ) : ℤ)
      else -((x.natAbs * y.natAbs : ℕ) : ℤ) := by
  rcases lt_or_ge x 0 with hx | hx
  · rcases lt_or_ge y 0 with hy | hy
    · rw [if_pos (by simp [hx, hy]), Nat.cast_mul, Int.ofNat_natAbs_of_nonpos hx.le,
        Int.ofNat_natAbs_of_nonpos hy.le, neg_mul_neg]
    · rw [if_neg (by simp [hx, hy]), Nat.cast_mul, Int.ofNat_natAbs_of_nonpos hx.le,
        Int.natAbs_of_nonneg hy, neg_mul, neg_neg]
  · rcases lt_or_ge y 0 with hy | hy
    · rw [if_neg (by simp [hx, hy]), Nat.cast_mul, Int.natAbs_of_nonneg hx,
        Int.ofNat_natAbs_of_nonpos hy.le, mul_neg, neg_neg]
    · rw [if_pos (by simp [hx.not_gt, hy.not_gt]), Nat.cast_mul, Int.natAbs_of_nonneg hx,
        Int.natAbs_of_nonneg hy]

/-- The negation of a pair: the complement, and 1 is added. -/
theorem value_negated {p : Product} (hp : p.destHi.toNat * 2 ^ 64 + p.destLow.toNat ≤ 2 ^ 126) :
    (let destLow := (p.destLow ^^^ BitVec.allOnes 64) - BitVec.allOnes 64
     let hi := p.destHi ^^^ BitVec.allOnes 64
     (⟨destLow, if destLow = 0 then hi - BitVec.allOnes 64 else hi⟩ : Product)).value
      = -((p.destHi.toNat * 2 ^ 64 + p.destLow.toNat : ℕ) : ℤ) := by
  have hlow := p.destLow.isLt
  have hneg : ((p.destLow ^^^ BitVec.allOnes 64) - BitVec.allOnes 64).toNat
      = (2 ^ 64 - p.destLow.toNat) % 2 ^ 64 := by
    rw [BitVec.xor_allOnes, BitVec.toNat_sub, BitVec.toNat_not, BitVec.toNat_allOnes]
    omega
  have hnot : (p.destHi ^^^ BitVec.allOnes 64).toNat = 2 ^ 64 - 1 - p.destHi.toNat := by
    rw [BitVec.xor_allOnes, BitVec.toNat_not]
  have hcarry : (p.destLow ^^^ BitVec.allOnes 64) - BitVec.allOnes 64 = 0 ↔ p.destLow.toNat = 0 := by
    rw [← BitVec.toNat_inj, hneg, show (0 : BitVec 64).toNat = 0 from rfl]
    omega
  have hhigh : (if (p.destLow ^^^ BitVec.allOnes 64) - BitVec.allOnes 64 = 0
      then (p.destHi ^^^ BitVec.allOnes 64) - BitVec.allOnes 64
      else p.destHi ^^^ BitVec.allOnes 64).toNat
      = if p.destLow.toNat = 0 then (2 ^ 64 - p.destHi.toNat) % 2 ^ 64
        else 2 ^ 64 - 1 - p.destHi.toNat := by
    rw [if_congr hcarry rfl rfl]
    split
    · rw [BitVec.toNat_sub, hnot, BitVec.toNat_allOnes]
      omega
    · exact hnot
  rw [Product.value]
  dsimp only
  rw [hneg, toInt_eq_ite, hhigh]
  split <;> split <;> push_cast <;> omega

/-- **The pair is the product of the signed numbers.** -/
theorem multiplySigned_exact : (multiplySigned64By64 a b).value = a.toInt * b.toInt := by
  have hexact := multiplyUnsigned_exact ((a ^^^ a.sshiftRight 63) - a.sshiftRight 63)
    ((b ^^^ b.sshiftRight 63) - b.sshiftRight 63)
  rw [magnitude_toNat, magnitude_toNat] at hexact
  have hle : a.toInt.natAbs * b.toInt.natAbs ≤ 2 ^ 126 :=
    (Nat.mul_le_mul (natAbs_le a) (natAbs_le b)).trans (by norm_num)
  rw [mul_eq_natAbs, ← hexact, multiplySigned64By64]
  rw [← hexact] at hle
  dsimp only
  rw [resultSign_eq]
  split
  · rw [if_neg (by simp), Product.value, toInt_eq_ite]
    split <;> push_cast <;> omega
  · rw [if_pos (by decide)]
    exact value_negated hle

end

/-! ### `mul_hi` and `mad_hi` -/

/-- The types of the `switch` statements; the others return false or abort. -/
def vecTypes : List ExplicitType :=
  [.kChar, .kUChar, .kShort, .kUShort, .kInt, .kUInt, .kLong, .kULong]

section

variable (t : CType) (a b : BitVec t.bits)

/-- The conversion to `cl_ulong`. -/
def toUlong : BitVec 64 := CType.convert t .ulong a

/-- The conversion to `cl_long`. -/
def toLong : BitVec 64 := CType.convert t .long a

/-- The product of two operands that are converted to `cl_ulong`. -/
def unsignedProduct : Product := multiplyUnsigned64By64 (toUlong t a) (toUlong t b)

/-- The product of two operands that are converted to `cl_long`. -/
def signedProduct : Product := multiplySigned64By64 (toLong t a) (toLong t b)

/-- The cases of `verify_integer_mul_hi` that multiply numbers of type `cl_long`. -/
def mulHiNarrow : BitVec t.bits :=
  CType.convert .long t ((toLong t a * toLong t b).sshiftRight t.bits)

end

/-- `verify_integer_mul_hi`; `none` if it returns false. -/
def verifyIntegerMulHi : (vecType : ExplicitType) →
    (sourceA sourceB : BitVec vecType.cType.bits) → Option (BitVec vecType.cType.bits)
  | .kChar, a, b => some (mulHiNarrow .schar a b)
  | .kUChar, a, b => some (mulHiNarrow .uchar a b)
  | .kShort, a, b => some (mulHiNarrow .short a b)
  | .kUShort, a, b => some (mulHiNarrow .ushort a b)
  | .kInt, a, b => some (mulHiNarrow .int a b)
  | .kUInt, a, b => some (mulHiNarrow .uint a b)
  | .kLong, a, b => some (signedProduct .long a b).destHi
  -- the operands are kept in variables of type `cl_long`, with the same bits
  | .kULong, a, b => some (unsignedProduct .ulong a b).destHi
  | _, _, _ => none

/-- `verify_integer_mad_hi`; `none` if it aborts. -/
def verifyIntegerMadHi : (vecType : ExplicitType) →
    (sourceA sourceB sourceC : BitVec vecType.cType.bits) → Option (BitVec vecType.cType.bits)
  | .kULong, a, b, c => some ((unsignedProduct .ulong a b).destHi + toUlong .ulong c)
  | .kUInt, a, b, c => some (CType.convert .ulong .uint
      (((unsignedProduct .uint a b).destLow >>> 32) + toUlong .uint c))
  | .kUShort, a, b, c => some (CType.convert .ulong .ushort
      (((unsignedProduct .ushort a b).destLow >>> 16) + toUlong .ushort c))
  | .kUChar, a, b, c => some (CType.convert .ulong .uchar
      (((unsignedProduct .uchar a b).destLow >>> 8) + toUlong .uchar c))
  | .kLong, a, b, c => some ((signedProduct .long a b).destHi + toLong .long c)
  | .kInt, a, b, c => some (CType.convert .ulong .int
      (((signedProduct .int a b).destLow >>> 32) + toLong .int c))
  | .kShort, a, b, c => some (CType.convert .int .short (CType.convert .ulong .int
      (((signedProduct .short a b).destLow >>> 16) + toLong .short c)))
  | .kChar, a, b, c => some (CType.convert .int .schar (CType.convert .ulong .int
      (((signedProduct .schar a b).destLow >>> 8) + toLong .schar c)))
  | _, _, _, _ => none

section

variable {t : CType} (a b c : BitVec t.bits)

theorem wrap_congr {x y : ℤ} (h : x % 2 ^ t.bits = y % 2 ^ t.bits) : t.wrap x = t.wrap y := by
  rw [CType.wrap, CType.wrap]
  split
  · rw [← Int.emod_bmod x, ← Int.emod_bmod y]
    push_cast
    rw [h]
  · exact h

theorem long_limits (ht : t ≠ .ulong) :
    CType.long.least ≤ t.least ∧ t.greatest ≤ CType.long.greatest := by
  revert ht
  cases t <;> decide

theorem ulong_limits (ht : t.signed = false) :
    CType.ulong.least ≤ t.least ∧ t.greatest ≤ CType.ulong.greatest := by
  revert ht
  cases t <;> decide

theorem toLong_toInt (ht : t ≠ .ulong) : (toLong t a).toInt = t.value a := by
  have hmem := CType.value_mem a
  have hlimits := long_limits ht
  have hvalue : CType.long.value (CType.convert t .long a) = t.value a := by
    rw [CType.convert, CType.value_ofInt]
    exact CType.wrap_eq_self (hlimits.1.trans hmem.1) (hmem.2.trans hlimits.2)
  exact hvalue

theorem toUlong_toNat (ht : t.signed = false) : ((toUlong t a).toNat : ℤ) = t.value a := by
  have hmem := CType.value_mem a
  have hlimits := ulong_limits ht
  have hvalue : CType.ulong.value (CType.convert t .ulong a) = t.value a := by
    rw [CType.convert, CType.value_ofInt]
    exact CType.wrap_eq_self (hlimits.1.trans hmem.1) (hmem.2.trans hlimits.2)
  exact hvalue

/-- **The product of two operands of an unsigned type.** -/
theorem unsignedProduct_exact (ht : t.signed = false) :
    ((unsignedProduct t a b).destHi.toNat : ℤ) * 2 ^ 64 + (unsignedProduct t a b).destLow.toNat
      = t.value a * t.value b := by
  rw [← toUlong_toNat a ht, ← toUlong_toNat b ht]
  exact_mod_cast multiplyUnsigned_exact _ _

/-- **The product of two operands of a signed type.** -/
theorem signedProduct_exact (ht : t.signed = true) :
    (signedProduct t a b).value = t.value a * t.value b := by
  have hne : t ≠ .ulong := by
    rintro rfl
    cases ht
  rw [← toLong_toInt a hne, ← toLong_toInt b hne]
  exact multiplySigned_exact _ _

theorem product_mem : t.least * t.greatest ≤ t.value a * t.value b ∧
    t.value a * t.value b ≤ max (t.least * t.least) (t.greatest * t.greatest) := by
  obtain ⟨hlo, hhi⟩ := CType.value_mem a
  obtain ⟨hlo', hhi'⟩ := CType.value_mem b
  have hleast := t.least_le_zero
  have hgreatest := t.greatest_pos
  constructor
  · rcases le_total 0 (t.value a) with ha | ha
    · nlinarith
    · nlinarith
  · rcases le_total 0 (t.value a) with ha | ha
    · rcases le_total 0 (t.value b) with hb | hb
      · exact le_max_of_le_right (by nlinarith)
      · exact le_max_of_le_left (by nlinarith)
    · rcases le_total 0 (t.value b) with hb | hb
      · exact le_max_of_le_left (by nlinarith)
      · exact le_max_of_le_left (by nlinarith)

theorem high_mem : t.least ≤ t.value a * t.value b / 2 ^ t.bits ∧
    t.value a * t.value b / 2 ^ t.bits ≤ t.greatest := by
  obtain ⟨hlo, hhi⟩ := product_mem a b
  generalize t.value a * t.value b = product at hlo hhi ⊢
  cases t <;> simp only [CType.least, CType.greatest, CType.signed, CType.bits] at hlo hhi ⊢ <;>
    norm_num at hlo hhi ⊢ <;> omega

/-- **The high half of a product of narrow numbers**, which is computed modulo `2 ^ 64`. -/
theorem mulHiNarrow_value (ht : t.bits ≤ 32) :
    t.value (mulHiNarrow t a b) = t.value a * t.value b / 2 ^ t.bits := by
  have hne : t ≠ .ulong := by
    rintro rfl
    exact absurd ht (by decide)
  have hmem := high_mem a b
  show t.value (BitVec.ofInt t.bits ((toLong t a * toLong t b).sshiftRight t.bits).toInt) = _
  rw [CType.value_ofInt]
  refine Eq.trans (wrap_congr ?_) (CType.wrap_eq_self hmem.1 hmem.2)
  rw [BitVec.toInt_sshiftRight, Int.shiftRight_eq_div_pow, BitVec.toInt_mul, toLong_toInt a hne,
    toLong_toInt b hne]
  have hmod := Int.bmod_emod (x := t.value a * t.value b) (m := 2 ^ 64)
  generalize (t.value a * t.value b).bmod (2 ^ 64) = wrapped at hmod ⊢
  generalize t.value a * t.value b = product at hmod ⊢
  revert ht
  cases t <;> simp only [CType.bits] <;> norm_num at hmod ⊢ <;> omega

theorem wrap_madHi (ht : t.bits ≤ 32) {destLow valueC : BitVec 64} {product third : ℤ}
    (hlow : (destLow.toNat : ℤ) % 2 ^ 64 = product % 2 ^ 64)
    (hthird : (valueC.toNat : ℤ) % 2 ^ 64 = third % 2 ^ 64) :
    t.wrap ((destLow >>> t.bits) + valueC).toNat = t.wrap (product / 2 ^ t.bits + third) := by
  apply wrap_congr
  rw [BitVec.toNat_add, BitVec.toNat_ushiftRight, Nat.shiftRight_eq_div_pow]
  have hlt := destLow.isLt
  revert ht
  cases t <;> simp only [CType.bits] <;> norm_num at hlow hthird ⊢ <;> omega

theorem unsignedProduct_destLow (ht : t.signed = false) :
    ((unsignedProduct t a b).destLow.toNat : ℤ) % 2 ^ 64 = (t.value a * t.value b) % 2 ^ 64 := by
  rw [← unsignedProduct_exact a b ht]
  omega

theorem signedProduct_destLow (ht : t.signed = true) :
    ((signedProduct t a b).destLow.toNat : ℤ) % 2 ^ 64 = (t.value a * t.value b) % 2 ^ 64 := by
  rw [← signedProduct_exact a b ht, Product.value]
  omega

theorem toUlong_mod (ht : t.signed = false) :
    ((toUlong t c).toNat : ℤ) % 2 ^ 64 = t.value c % 2 ^ 64 := by
  rw [toUlong_toNat c ht]

theorem toLong_mod (ht : t ≠ .ulong) :
    ((toLong t c).toNat : ℤ) % 2 ^ 64 = t.value c % 2 ^ 64 := by
  rw [← toLong_toInt c ht, toInt_eq_ite]
  split <;> omega

theorem unsignedProduct_destHi (a b : BitVec 64) :
    ((unsignedProduct .ulong a b).destHi.toNat : ℤ)
      = CType.value .ulong a * CType.value .ulong b / 2 ^ 64 := by
  have hlt := (unsignedProduct .ulong a b).destLow.isLt
  rw [← unsignedProduct_exact (t := .ulong) a b rfl]
  omega

theorem signedProduct_destHi (a b : BitVec 64) :
    (signedProduct .long a b).destHi.toInt
      = CType.value .long a * CType.value .long b / 2 ^ 64 := by
  have hlt := (signedProduct .long a b).destLow.isLt
  rw [← signedProduct_exact (t := .long) a b rfl, Product.value]
  omega

theorem madHi_unsigned (ht : t.bits ≤ 32) (hs : t.signed = false) :
    t.value (CType.convert .ulong t
      (((unsignedProduct t a b).destLow >>> t.bits) + toUlong t c))
      = t.wrap (t.value a * t.value b / 2 ^ t.bits + t.value c) := by
  refine CType.value_ofInt.trans ?_
  exact wrap_madHi ht (unsignedProduct_destLow a b hs) (toUlong_mod c hs)

theorem madHi_signed (ht : t.bits ≤ 32) (hs : t.signed = true) :
    t.value (CType.convert .ulong t
      (((signedProduct t a b).destLow >>> t.bits) + toLong t c))
      = t.wrap (t.value a * t.value b / 2 ^ t.bits + t.value c) := by
  have hne : t ≠ .ulong := by
    rintro rfl
    cases hs
  refine CType.value_ofInt.trans ?_
  exact wrap_madHi ht (signedProduct_destLow a b hs) (toLong_mod c hne)

theorem convert_int (ht : t.bits ≤ 32) (x : BitVec 64) :
    CType.convert .int t (CType.convert .ulong .int x) = CType.convert .ulong t x := by
  show BitVec.ofInt t.bits (CType.int.value (BitVec.ofInt CType.int.bits (CType.ulong.value x))) = _
  rw [CType.value_ofInt, CType.ofInt_wrap ht]
  rfl

theorem madHi_ulong (a b c : BitVec 64) :
    CType.value .ulong ((unsignedProduct .ulong a b).destHi + toUlong .ulong c)
      = CType.wrap .ulong
        (CType.value .ulong a * CType.value .ulong b / 2 ^ 64 + CType.value .ulong c) := by
  rw [← unsignedProduct_destHi, ← toUlong_toNat (t := .ulong) c rfl]
  exact CType.respects_add .ulong _ _

theorem madHi_long (a b c : BitVec 64) :
    CType.value .long ((signedProduct .long a b).destHi + toLong .long c)
      = CType.wrap .long
        (CType.value .long a * CType.value .long b / 2 ^ 64 + CType.value .long c) := by
  rw [← signedProduct_destHi, ← toLong_toInt (t := .long) c (by decide)]
  exact CType.respects_add .long _ _

end

/-- **What `verify_integer_mul_hi` stores.** -/
theorem verifyIntegerMulHi_value (vecType : ExplicitType) (a b : BitVec vecType.cType.bits) :
    (verifyIntegerMulHi vecType a b).map vecType.cType.value
      = if vecType ∈ vecTypes then
          some (vecType.cType.value a * vecType.cType.value b / 2 ^ vecType.cType.bits)
        else none := by
  cases vecType with
  | kChar => exact congrArg some (mulHiNarrow_value (t := .schar) a b (by decide))
  | kUChar => exact congrArg some (mulHiNarrow_value (t := .uchar) a b (by decide))
  | kShort => exact congrArg some (mulHiNarrow_value (t := .short) a b (by decide))
  | kUShort => exact congrArg some (mulHiNarrow_value (t := .ushort) a b (by decide))
  | kInt => exact congrArg some (mulHiNarrow_value (t := .int) a b (by decide))
  | kUInt => exact congrArg some (mulHiNarrow_value (t := .uint) a b (by decide))
  | kLong => exact congrArg some (signedProduct_destHi a b)
  | kULong => exact congrArg some (unsignedProduct_destHi a b)
  | kUnsignedChar | kUnsignedShort | kUnsignedInt | kUnsignedLong => rfl

/-- **What `verify_integer_mad_hi` stores.** -/
theorem verifyIntegerMadHi_value (vecType : ExplicitType) (a b c : BitVec vecType.cType.bits) :
    (verifyIntegerMadHi vecType a b c).map vecType.cType.value
      = if vecType ∈ vecTypes then
          some (vecType.cType.wrap (vecType.cType.value a * vecType.cType.value b
            / 2 ^ vecType.cType.bits + vecType.cType.value c))
        else none := by
  cases vecType with
  | kChar =>
    have hstore := madHi_signed (t := .schar) a b c (by decide) rfl
    rw [← convert_int (by decide)] at hstore
    exact congrArg some hstore
  | kUChar => exact congrArg some (madHi_unsigned (t := .uchar) a b c (by decide) rfl)
  | kShort =>
    have hstore := madHi_signed (t := .short) a b c (by decide) rfl
    rw [← convert_int (by decide)] at hstore
    exact congrArg some hstore
  | kUShort => exact congrArg some (madHi_unsigned (t := .ushort) a b c (by decide) rfl)
  | kInt => exact congrArg some (madHi_signed (t := .int) a b c (by decide) rfl)
  | kUInt => exact congrArg some (madHi_unsigned (t := .uint) a b c (by decide) rfl)
  | kLong => exact congrArg some (madHi_long a b c)
  | kULong => exact congrArg some (madHi_ulong a b c)
  | kUnsignedChar | kUnsignedShort | kUnsignedInt | kUnsignedLong => rfl

/-- **Products are exact, and so are the high halves that the verifiers store.** -/
theorem multiply_exact :
    (∀ a b : BitVec 64, SumsFit a b ∧
      (multiplyUnsigned64By64 a b).destHi.toNat * 2 ^ 64
        + (multiplyUnsigned64By64 a b).destLow.toNat = a.toNat * b.toNat) ∧
    (∀ a b : BitVec 64, (multiplySigned64By64 a b).value = a.toInt * b.toInt) ∧
    (∀ (vecType : ExplicitType) (a b : BitVec vecType.cType.bits),
      (verifyIntegerMulHi vecType a b).map vecType.cType.value
        = if vecType ∈ vecTypes then
            some (vecType.cType.value a * vecType.cType.value b / 2 ^ vecType.cType.bits)
          else none) ∧
    (∀ (vecType : ExplicitType) (a b c : BitVec vecType.cType.bits),
      (verifyIntegerMadHi vecType a b c).map vecType.cType.value
        = if vecType ∈ vecTypes then
            some (vecType.cType.wrap (vecType.cType.value a * vecType.cType.value b
              / 2 ^ vecType.cType.bits + vecType.cType.value c))
          else none) :=
  ⟨fun a b => ⟨sumsFit a b, multiplyUnsigned_exact a b⟩, multiplySigned_exact,
    verifyIntegerMulHi_value, verifyIntegerMadHi_value⟩

end OpenCLCTS.IntegerOps
