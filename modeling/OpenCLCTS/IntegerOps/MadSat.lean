import OpenCLCTS.IntegerOps.Multiply

/-!
# The verifier of `mad_sat`

`verify_integer_mad_sat` adds the third operand to a product of 128 bits and decides from the high
word of the sum whether it saturates.

* `addThird_value`: the sum is exact.
* `madSatSigned_value`: if the high word is 0 or -1, the low word is taken as it is.
* `verifyIntegerMadSat_iff`: the sum is clamped, but for numbers of type `cl_long` whose high word
  is 0 or -1 and which are no numbers of 64 bits.
-/

namespace OpenCLCTS.IntegerOps

open Conversions

/-- `CL_LONG_MAX`. -/
def longMax : BitVec 64 := BitVec.intMax 64

/-- `CL_LONG_MIN`. -/
def longMin : BitVec 64 := BitVec.intMin 64

/-- The sum of the unsigned types, before it is stored. -/
def madSatUnsigned (valueA valueB valueC : BitVec 64) : BitVec 64 :=
  let product := multiplyUnsigned64By64 valueA valueB
  let multLo := product.destLow + valueC
  let multHi := product.destHi + if multLo < valueC then 1 else 0
  if multHi ≠ 0 then BitVec.allOnes 64 else multLo

/-- `sum` and `multHi`, after the carry. -/
def addThird (product : Product) (valueC : BitVec 64) : Product :=
  let sum := product.destLow + valueC
  if 0 ≤ valueC.toInt then
    if sum < product.destLow then
      let multHi := product.destHi + 1
      if multHi = longMin then ⟨BitVec.allOnes 64, longMax⟩ else ⟨sum, multHi⟩
    else ⟨sum, product.destHi⟩
  else
    if product.destLow < sum then
      let multHi := product.destHi - 1
      if multHi = longMax then ⟨0, longMin⟩ else ⟨sum, multHi⟩
    else ⟨sum, product.destHi⟩

/-- "saturate" -/
def saturate (sum : Product) : BitVec 64 :=
  if 0 < sum.destHi.toInt then longMax
  else if sum.destHi.toInt < -1 then longMin
  else sum.destLow

/-- `result` of the signed types, before it is stored. -/
def madSatSigned (valueA valueB valueC : BitVec 64) : BitVec 64 :=
  saturate (addThird (multiplySigned64By64 valueA valueB) valueC)

/-- `std::min` for `cl_ulong`. -/
def minUlong (a b : BitVec 64) : BitVec 64 := if b < a then b else a

section

variable (t : CType)

/-- `std::min(multLo, limit)`, stored. -/
def storeMin (multLo : BitVec 64) : BitVec t.bits :=
  CType.convert .ulong t (minUlong multLo (BitVec.ofInt 64 t.greatest))

/-- `std::min` and `std::max` of `result` and the limits, stored. -/
def storeClamped (result : BitVec 64) : BitVec t.bits :=
  CType.convert .long t
    (stdMax (stdMin result (BitVec.ofInt 64 t.greatest)) (BitVec.ofInt 64 t.least))

variable (a b c : BitVec t.bits)

def madSatOfUnsigned : BitVec 64 := madSatUnsigned (toUlong t a) (toUlong t b) (toUlong t c)

def madSatOfSigned : BitVec 64 := madSatSigned (toLong t a) (toLong t b) (toLong t c)

end

/-- `verify_integer_mad_sat`; `none` if it aborts. -/
def verifyIntegerMadSat : (vecType : ExplicitType) →
    (sourceA sourceB sourceC : BitVec vecType.cType.bits) → Option (BitVec vecType.cType.bits)
  | .kULong, a, b, c => some (madSatOfUnsigned .ulong a b c)
  | .kUInt, a, b, c => some (storeMin .uint (madSatOfUnsigned .uint a b c))
  | .kUShort, a, b, c => some (storeMin .ushort (madSatOfUnsigned .ushort a b c))
  | .kUChar, a, b, c => some (storeMin .uchar (madSatOfUnsigned .uchar a b c))
  | .kLong, a, b, c => some (madSatOfSigned .long a b c)
  | .kInt, a, b, c => some (storeClamped .int (madSatOfSigned .int a b c))
  | .kShort, a, b, c => some (storeClamped .short (madSatOfSigned .short a b c))
  | .kChar, a, b, c => some (storeClamped .schar (madSatOfSigned .schar a b c))
  | _, _, _, _ => none

/-! ### The unsigned types -/

/-- **The carry is detected**: the sum saturates just if it needs more than 64 bits. -/
theorem madSatUnsigned_toNat (a b c : BitVec 64) :
    (madSatUnsigned a b c).toNat = min (2 ^ 64 - 1) (a.toNat * b.toNat + c.toNat) := by
  have hexact := multiplyUnsigned_exact a b
  have ha := Nat.le_sub_one_of_lt a.isLt
  have hb := Nat.le_sub_one_of_lt b.isLt
  have hle := Nat.mul_le_mul ha hb
  rw [madSatUnsigned]
  generalize multiplyUnsigned64By64 a b = product at hexact ⊢
  rw [← hexact] at hle ⊢
  have hlo := product.destLow.isLt
  have hc := c.isLt
  have hhi : product.destHi.toNat ≤ 2 ^ 64 - 2 := by omega
  have hcarry : product.destLow + c < c ↔ 2 ^ 64 ≤ product.destLow.toNat + c.toNat := by
    rw [BitVec.lt_def, BitVec.toNat_add]
    omega
  have hzero : product.destHi + (if product.destLow + c < c then 1 else 0) ≠ 0 ↔
      2 ^ 64 ≤ product.destHi.toNat * 2 ^ 64 + product.destLow.toNat + c.toNat := by
    rw [ne_eq, ← BitVec.toNat_inj, BitVec.toNat_add, if_congr hcarry rfl rfl]
    split
    · rw [show (1 : BitVec 64).toNat = 1 from rfl, show (0 : BitVec 64).toNat = 0 from rfl]
      omega
    · rw [show (0 : BitVec 64).toNat = 0 from rfl]
      omega
  rw [if_congr hzero rfl rfl]
  split
  · rw [BitVec.toNat_allOnes]
    omega
  · rw [BitVec.toNat_add]
    omega

/-! ### The signed types -/

/-- **The third operand is added exactly**, with its carry or borrow. -/
theorem addThird_value {product : Product} (hlo : -2 ^ 126 ≤ product.value)
    (hhi : product.value ≤ 2 ^ 126) (c : BitVec 64) :
    (addThird product c).value = product.value + c.toInt := by
  have hlow := product.destLow.isLt
  have hhigh := product.destHi.isLt
  have hc := c.isLt
  have hcint := toInt_eq_ite c
  have hint := toInt_eq_ite product.destHi
  rw [Product.value] at hlo hhi
  rw [addThird]
  dsimp only
  split
  · rename_i hnonneg
    split
    · rename_i hcarry
      rw [BitVec.lt_def, BitVec.toNat_add] at hcarry
      have hne : product.destHi + 1 ≠ longMin := by
        rw [ne_eq, ← BitVec.toNat_inj, BitVec.toNat_add, show (1 : BitVec 64).toNat = 1 from rfl,
          show longMin.toNat = 2 ^ 63 from rfl]
        split at hint <;> omega
      rw [if_neg hne, Product.value, Product.value, toInt_eq_ite (product.destHi + 1),
        BitVec.toNat_add, BitVec.toNat_add, show (1 : BitVec 64).toNat = 1 from rfl]
      split at hcint <;> split at hint <;> split <;> push_cast <;> omega
    · rename_i hcarry
      rw [BitVec.lt_def, BitVec.toNat_add] at hcarry
      rw [Product.value, Product.value, BitVec.toNat_add]
      split at hcint <;> push_cast <;> omega
  · rename_i hneg
    split
    · rename_i hborrow
      rw [BitVec.lt_def, BitVec.toNat_add] at hborrow
      have hne : product.destHi - 1 ≠ longMax := by
        rw [ne_eq, ← BitVec.toNat_inj, BitVec.toNat_sub, show (1 : BitVec 64).toNat = 1 from rfl,
          show longMax.toNat = 2 ^ 63 - 1 from rfl]
        split at hint <;> omega
      rw [if_neg hne, Product.value, Product.value, toInt_eq_ite (product.destHi - 1),
        BitVec.toNat_sub, BitVec.toNat_add, show (1 : BitVec 64).toNat = 1 from rfl]
      split at hcint <;> split at hint <;> split <;> push_cast <;> omega
    · rename_i hborrow
      rw [BitVec.lt_def, BitVec.toNat_add] at hborrow
      rw [Product.value, Product.value, BitVec.toNat_add]
      split at hcint <;> push_cast <;> omega

/-- The sum that the high word lets pass, which has 65 bits. -/
def unsaturated (sum : ℤ) : ℤ :=
  if 2 ^ 64 ≤ sum then 2 ^ 63 - 1
  else if sum < -2 ^ 64 then -2 ^ 63
  else if 2 ^ 63 ≤ sum then sum - 2 ^ 64
  else if sum < -2 ^ 63 then sum + 2 ^ 64
  else sum

theorem saturate_value (sum : Product) : (saturate sum).toInt = unsaturated sum.value := by
  have hlow := sum.destLow.isLt
  have hint := toInt_eq_ite sum.destLow
  rw [saturate, unsaturated, Product.value]
  split
  · rw [if_pos (by omega)]
    rfl
  · split
    · rw [if_neg (by omega), if_pos (by omega)]
      rfl
    · rw [if_neg (by omega), if_neg (by omega)]
      split at hint <;> split <;> try split
      all_goals omega

/-- **What the signed types store**, before it is clamped to a narrow type. -/
theorem madSatSigned_value (a b c : BitVec 64) :
    (madSatSigned a b c).toInt = unsaturated (a.toInt * b.toInt + c.toInt) := by
  have hexact := multiplySigned_exact a b
  have hle := product_mem (t := .long) a b
  have hbounds : -2 ^ 126 ≤ a.toInt * b.toInt ∧ a.toInt * b.toInt ≤ 2 ^ 126 := by
    refine ⟨le_trans ?_ hle.1, hle.2.trans ?_⟩
    · decide
    · decide
  rw [← hexact] at hbounds
  rw [madSatSigned, saturate_value, addThird_value hbounds.1 hbounds.2, hexact]

/-! ### What is stored -/

section

variable {t : CType} (a b c : BitVec t.bits)

theorem ofInt_greatest_toNat (ht : t.signed = false) :
    ((BitVec.ofInt 64 t.greatest).toNat : ℤ) = t.greatest := by
  revert ht
  cases t <;> decide

theorem ofInt_greatest_toInt (ht : t ≠ .ulong) : (BitVec.ofInt 64 t.greatest).toInt = t.greatest := by
  revert ht
  cases t <;> decide

theorem ofInt_least_toInt (t : CType) : (BitVec.ofInt 64 t.least).toInt = t.least := by
  cases t <;> decide

theorem minUlong_toNat (a b : BitVec 64) : (minUlong a b).toNat = min a.toNat b.toNat := by
  rw [minUlong]
  split
  · rename_i h
    exact (min_eq_right (BitVec.lt_def.mp h).le).symm
  · rename_i h
    exact (min_eq_left (not_lt.mp (mt BitVec.lt_def.mpr h))).symm

theorem clamp_mem (t : CType) (x : ℤ) : t.least ≤ t.clamp x ∧ t.clamp x ≤ t.greatest := by
  have hleast := t.least_le_zero
  have hgreatest := t.greatest_pos
  rw [CType.clamp]
  omega

theorem storeMin_value (ht : t.signed = false) (multLo : BitVec 64) :
    t.value (storeMin t multLo) = t.clamp multLo.toNat := by
  have hleast : t.least = 0 := by
    rw [CType.least, ht]
    rfl
  have hclamp : ((minUlong multLo (BitVec.ofInt 64 t.greatest)).toNat : ℤ) = t.clamp multLo.toNat := by
    have hgreatest := t.greatest_pos
    rw [minUlong_toNat, Nat.cast_min, ofInt_greatest_toNat ht, CType.clamp, hleast]
    omega
  have hmem := clamp_mem t multLo.toNat
  refine CType.value_ofInt.trans ?_
  show t.wrap ((minUlong multLo (BitVec.ofInt 64 t.greatest)).toNat : ℤ) = _
  rw [hclamp]
  exact CType.wrap_eq_self hmem.1 hmem.2

theorem storeClamped_value (ht : t ≠ .ulong) (result : BitVec 64) :
    t.value (storeClamped t result) = t.clamp result.toInt := by
  have hmem := clamp_mem t result.toInt
  refine CType.value_ofInt.trans ?_
  show t.wrap (stdMax (stdMin result (BitVec.ofInt 64 t.greatest)) (BitVec.ofInt 64 t.least)).toInt = _
  rw [stdMax_toInt, stdMin_toInt, ofInt_greatest_toInt ht, ofInt_least_toInt, max_comm, min_comm]
  exact CType.wrap_eq_self hmem.1 hmem.2

/-- **The unsigned types saturate.** -/
theorem madSatOfUnsigned_toNat (ht : t.signed = false) : ((madSatOfUnsigned t a b c).toNat : ℤ)
    = min (2 ^ 64 - 1) (t.value a * t.value b + t.value c) := by
  rw [madSatOfUnsigned, madSatUnsigned_toNat, ← toUlong_toNat a ht, ← toUlong_toNat b ht,
    ← toUlong_toNat c ht]
  push_cast
  rfl

theorem madSatOfSigned_toInt (ht : t.signed = true) : (madSatOfSigned t a b c).toInt
    = unsaturated (t.value a * t.value b + t.value c) := by
  have hne : t ≠ .ulong := by
    rintro rfl
    cases ht
  rw [madSatOfSigned, madSatSigned_value, toLong_toInt a hne, toLong_toInt b hne,
    toLong_toInt c hne]

/-- **An unsigned sum is clamped.** -/
theorem unsigned_clamped (ht : t.signed = false) : t.clamp (madSatOfUnsigned t a b c).toNat
    = t.clamp (t.value a * t.value b + t.value c) := by
  have hlimit := (ulong_limits ht).2
  have hmin : min t.greatest (2 ^ 64 - 1) = t.greatest := min_eq_left hlimit
  rw [madSatOfUnsigned_toNat a b c ht, CType.clamp, CType.clamp, ← min_assoc, hmin]

/-- **A sum of narrow numbers is clamped**: it has less than 64 bits. -/
theorem narrow_clamped (hs : t.signed = true) (ht : t.bits ≤ 32) :
    t.clamp (madSatOfSigned t a b c).toInt = t.clamp (t.value a * t.value b + t.value c) := by
  obtain ⟨hlo, hhi⟩ := product_mem a b
  obtain ⟨hlo', hhi'⟩ := CType.value_mem c
  rw [madSatOfSigned_toInt a b c hs]
  congr 1
  generalize t.value a * t.value b = product at hlo hhi ⊢
  generalize t.value c = third at hlo' hhi' ⊢
  have hsmall : -2 ^ 63 ≤ product + third ∧ product + third < 2 ^ 63 := by
    revert hs ht
    cases t <;> simp only [CType.least, CType.greatest, CType.signed, CType.bits]
      at hlo hhi hlo' hhi' ⊢ <;> norm_num at hlo hhi hlo' hhi' ⊢ <;> omega
  rw [unsaturated, if_neg (by omega), if_neg (by omega), if_neg (by omega), if_neg (by omega)]

end

/-- The sums with high word 0 or -1 that are no numbers of 64 bits. -/
def LowWordDisagrees (sum : ℤ) : Prop :=
  2 ^ 63 ≤ sum ∧ sum < 2 ^ 64 ∨ -2 ^ 64 ≤ sum ∧ sum < -2 ^ 63

theorem unsaturated_eq_clamp_iff (sum : ℤ) :
    unsaturated sum = CType.long.clamp sum ↔ ¬ LowWordDisagrees sum := by
  have hclamp : CType.long.clamp sum = max (-2 ^ 63) (min (2 ^ 63 - 1) sum) := rfl
  rw [hclamp, unsaturated, LowWordDisagrees]
  constructor
  · intro h hwrong
    rcases hwrong with hwrong | hwrong
    · rw [if_neg (by omega), if_neg (by omega), if_pos (by omega)] at h
      omega
    · rw [if_neg (by omega), if_neg (by omega), if_neg (by omega), if_pos (by omega)] at h
      omega
  · intro h
    split
    · omega
    · split
      · omega
      · rw [if_neg (by omega), if_neg (by omega)]
        omega

/-- **When `verify_integer_mad_sat` stores the clamped sum.** -/
theorem verifyIntegerMadSat_iff (vecType : ExplicitType) (a b c : BitVec vecType.cType.bits) :
    ((verifyIntegerMadSat vecType a b c).map vecType.cType.value
      = if vecType ∈ vecTypes then
          some (vecType.cType.clamp
            (vecType.cType.value a * vecType.cType.value b + vecType.cType.value c))
        else none) ↔
      ¬ (vecType = .kLong ∧ LowWordDisagrees
        (vecType.cType.value a * vecType.cType.value b + vecType.cType.value c)) := by
  cases vecType with
  | kChar =>
    refine iff_of_true (congrArg some ?_) (by simp)
    exact (storeClamped_value (t := .schar) (by decide) _).trans
      (narrow_clamped (t := .schar) a b c rfl (by decide))
  | kShort =>
    refine iff_of_true (congrArg some ?_) (by simp)
    exact (storeClamped_value (t := .short) (by decide) _).trans
      (narrow_clamped (t := .short) a b c rfl (by decide))
  | kInt =>
    refine iff_of_true (congrArg some ?_) (by simp)
    exact (storeClamped_value (t := .int) (by decide) _).trans
      (narrow_clamped (t := .int) a b c rfl (by decide))
  | kUChar =>
    refine iff_of_true (congrArg some ?_) (by simp)
    exact (storeMin_value (t := .uchar) rfl _).trans (unsigned_clamped (t := .uchar) a b c rfl)
  | kUShort =>
    refine iff_of_true (congrArg some ?_) (by simp)
    exact (storeMin_value (t := .ushort) rfl _).trans (unsigned_clamped (t := .ushort) a b c rfl)
  | kUInt =>
    refine iff_of_true (congrArg some ?_) (by simp)
    exact (storeMin_value (t := .uint) rfl _).trans (unsigned_clamped (t := .uint) a b c rfl)
  | kULong =>
    refine iff_of_true (congrArg some ?_) (by simp)
    have hmem := CType.value_mem (t := .ulong) (madSatOfUnsigned .ulong a b c)
    exact (CType.clamp_eq_self hmem.1 hmem.2).symm.trans (unsigned_clamped (t := .ulong) a b c rfl)
  | kLong =>
    have hvalue : CType.long.value (madSatOfSigned .long a b c) = _ :=
      madSatOfSigned_toInt (t := .long) a b c rfl
    show some (CType.long.value (madSatOfSigned .long a b c)) = some _ ↔ _
    rw [Option.some_inj, hvalue]
    exact (unsaturated_eq_clamp_iff _).trans (not_congr (by simp [ExplicitType.cType]))
  | kUnsignedChar | kUnsignedShort | kUnsignedInt | kUnsignedLong =>
    exact iff_of_true rfl (by simp)

/-- The product of 2 and `2 ^ 62` is stored as the least number. -/
theorem verifyIntegerMadSat_wraps :
    (verifyIntegerMadSat .kLong 2 0x4000000000000000 0).map CType.long.value = some (-2 ^ 63) ∧
      (verifyIntegerMadSat .kLong 2 0x4000000000000000 0).map CType.long.value
        ≠ some (CType.long.clamp (CType.long.value 2 * CType.long.value 0x4000000000000000
          + CType.long.value 0)) := by
  decide

end OpenCLCTS.IntegerOps
