import Mathlib.Tactic.Ring
import OpenCLCTS.Harness.ExplicitTypes

/-!
# Arithmetic of C

The operators of C on the bits of an integer type, and the promotion of the types that are
narrower than `int`.  Overflow of signed numbers wraps.

`narrow_op`: an operation that is done in the promoted type and truncated is the operation of the
type itself.
-/

namespace OpenCLCTS.Conversions.CType

/-- The type in which the operators compute. -/
def promoted : CType → CType
  | .schar | .uchar | .short | .ushort | .int => .int
  | .uint => .uint
  | .long => .long
  | .ulong => .ulong

/-- The conversion of a value to a type. -/
def convert (s t : CType) (x : BitVec s.bits) : BitVec t.bits := BitVec.ofInt t.bits (s.value x)

/-- An operand. -/
def promote (t : CType) (x : BitVec t.bits) : BitVec t.promoted.bits := convert t t.promoted x

/-- A result that is assigned to a variable of the type. -/
def narrow (t : CType) (x : BitVec t.promoted.bits) : BitVec t.bits := convert t.promoted t x

section

variable (t : CType) (x y : BitVec t.bits)

def div : BitVec t.bits := if t.signed then x.sdiv y else x / y

def mod : BitVec t.bits := if t.signed then x.srem y else x % y

def shiftRight (k : ℕ) : BitVec t.bits := if t.signed then x.sshiftRight k else x >>> k

def lt : Bool := if t.signed then x.slt y else x.ult y

def le : Bool := if t.signed then x.sle y else x.ule y

end

variable {t : CType} {x y : BitVec t.bits}

theorem bits_le_promoted (t : CType) : t.bits ≤ t.promoted.bits := by
  cases t <;> decide

theorem value_inj (h : t.value x = t.value y) : x = y := by
  rw [value, value] at h
  cases hs : t.signed with
  | true =>
    rw [hs, if_pos rfl, if_pos rfl] at h
    exact BitVec.eq_of_toInt_eq h
  | false =>
    rw [hs, if_neg Bool.false_ne_true, if_neg Bool.false_ne_true] at h
    exact BitVec.eq_of_toNat_eq (by exact_mod_cast h)

theorem value_eq_iff : t.value x = t.value y ↔ x = y :=
  ⟨value_inj, fun h => congrArg t.value h⟩

theorem wrap_value (x : BitVec t.bits) : t.wrap (t.value x) = t.value x :=
  wrap_eq_self (value_mem x).1 (value_mem x).2

theorem ofInt_value (x : BitVec t.bits) : BitVec.ofInt t.bits (t.value x) = x :=
  value_inj (by rw [value_ofInt, wrap_value])

theorem setWidth_ofInt {m n : ℕ} (h : n ≤ m) (z : ℤ) :
    (BitVec.ofInt m z).setWidth n = BitVec.ofInt n z := by
  have hdvd : ((2 ^ n : ℕ) : ℤ) ∣ ((2 ^ m : ℕ) : ℤ) := by
    exact_mod_cast pow_dvd_pow 2 h
  have hpos (k : ℕ) : ((2 ^ k : ℕ) : ℤ) ≠ 0 := by
    exact_mod_cast (Nat.two_pow_pos k).ne'
  refine BitVec.eq_of_toNat_eq ?_
  rw [BitVec.toNat_setWidth, BitVec.toNat_ofInt, BitVec.toNat_ofInt]
  have hz : ((((z % ((2 ^ m : ℕ) : ℤ)).toNat % 2 ^ n : ℕ)) : ℤ)
      = ((z % ((2 ^ n : ℕ) : ℤ)).toNat : ℤ) := by
    rw [Int.natCast_emod, Int.toNat_of_nonneg (Int.emod_nonneg _ (hpos m)),
      Int.toNat_of_nonneg (Int.emod_nonneg _ (hpos n)), Int.emod_emod_of_dvd _ hdvd]
  exact_mod_cast hz

theorem ofInt_wrap {n : ℕ} (hn : n ≤ t.bits) (z : ℤ) :
    BitVec.ofInt n (t.wrap z) = BitVec.ofInt n z := by
  have hdvd : ((2 ^ n : ℕ) : ℤ) ∣ ((2 ^ t.bits : ℕ) : ℤ) := by
    exact_mod_cast pow_dvd_pow 2 hn
  refine BitVec.eq_of_toNat_eq ?_
  rw [BitVec.toNat_ofInt, BitVec.toNat_ofInt, wrap]
  split
  · rw [← Int.emod_emod_of_dvd _ hdvd, Int.bmod_emod, Int.emod_emod_of_dvd _ hdvd]
  · rw [show (2 : ℤ) ^ t.bits = ((2 ^ t.bits : ℕ) : ℤ) by push_cast; rfl,
      Int.emod_emod_of_dvd _ hdvd]

theorem value_convert {s : CType} {x : BitVec s.bits} (hlo : t.least ≤ s.value x)
    (hhi : s.value x ≤ t.greatest) : t.value (convert s t x) = s.value x := by
  rw [convert, value_ofInt, wrap_eq_self hlo hhi]

/-- **Promotion keeps the value.** -/
theorem value_promote (x : BitVec t.bits) : t.promoted.value (t.promote x) = t.value x := by
  obtain ⟨hlo, hhi⟩ := value_mem x
  have hlimits : t.promoted.least ≤ t.least ∧ t.greatest ≤ t.promoted.greatest := by
    cases t <;> decide
  exact value_convert (by omega) (by omega)

/-- An operation on the bits that is an operation on the integers, up to wrapping. -/
def Respects (f : (t : CType) → BitVec t.bits → BitVec t.bits → BitVec t.bits) (g : ℤ → ℤ → ℤ) :
    Prop :=
  ∀ (t : CType) (x y : BitVec t.bits), t.value (f t x y) = t.wrap (g (t.value x) (t.value y))

/-- **The operation may be done in the promoted type.** -/
theorem narrow_op {f : (t : CType) → BitVec t.bits → BitVec t.bits → BitVec t.bits}
    {g : ℤ → ℤ → ℤ} (h : Respects f g) (x y : BitVec t.bits) :
    t.narrow (f t.promoted (t.promote x) (t.promote y)) = f t x y := by
  rw [narrow, convert, h, value_promote, value_promote, ofInt_wrap (bits_le_promoted t)]
  refine value_inj ?_
  rw [value_ofInt, h]

theorem respects_add : Respects (fun _ x y => x + y) (· + ·) := by
  intro t x y
  rw [value, value, value, wrap]
  split
  · exact BitVec.toInt_add x y
  · rw [BitVec.toNat_add]
    push_cast
    rfl

theorem respects_sub : Respects (fun _ x y => x - y) (· - ·) := by
  intro t x y
  rw [value, value, value, wrap]
  split
  · exact BitVec.toInt_sub
  · have hy := y.isLt
    rw [BitVec.toNat_sub]
    push_cast [Nat.cast_sub hy.le]
    rw [show (2 : ℤ) ^ t.bits - y.toNat + x.toNat = x.toNat - y.toNat + 2 ^ t.bits by ring,
      Int.add_emod_right]

theorem respects_mul : Respects (fun _ x y => x * y) (· * ·) := by
  intro t x y
  rw [value, value, value, wrap]
  split
  · exact BitVec.toInt_mul x y
  · rw [BitVec.toNat_mul]
    push_cast
    rfl

theorem value_div_of_unsigned (hs : t.signed = false) :
    t.value (t.div x y) = (t.value x).tdiv (t.value y) := by
  simp only [div, value, hs, Bool.false_eq_true, if_false]
  rw [BitVec.toNat_udiv, Int.natCast_ediv, Int.tdiv_eq_ediv_of_nonneg (Int.natCast_nonneg _)]

theorem value_div (h : t.signed = true → x ≠ BitVec.intMin _ ∨ y ≠ -1#t.bits) :
    t.value (t.div x y) = (t.value x).tdiv (t.value y) := by
  cases hs : t.signed with
  | true =>
    simp only [div, value, hs, if_true]
    exact BitVec.toInt_sdiv_of_ne_or_ne x y (h hs)
  | false => exact value_div_of_unsigned hs

theorem respects_div : Respects div Int.tdiv := by
  intro t x y
  cases hs : t.signed with
  | true =>
    simp only [div, value, wrap, hs, if_true]
    exact BitVec.toInt_sdiv x y
  | false => rw [← value_div_of_unsigned hs, wrap_value]

theorem value_mod : t.value (t.mod x y) = (t.value x).tmod (t.value y) := by
  cases hs : t.signed with
  | true =>
    simp only [mod, value, hs, if_true]
    exact BitVec.toInt_srem x y
  | false =>
    simp only [mod, value, hs, Bool.false_eq_true, if_false]
    rw [BitVec.toNat_umod, Int.natCast_emod, Int.tmod_eq_emod_of_nonneg (Int.natCast_nonneg _)]

theorem respects_mod : Respects mod Int.tmod := by
  intro t x y
  rw [← value_mod, wrap_value]

theorem value_shiftRight (k : ℕ) : t.value (t.shiftRight x k) = t.value x >>> k := by
  rw [shiftRight, value, value]
  cases t.signed with
  | true => exact BitVec.toInt_sshiftRight
  | false =>
    simp only [Bool.false_eq_true, if_false]
    rw [BitVec.toNat_ushiftRight]
    rfl

theorem respects_shiftRight (k : ℕ) : Respects (fun t x _ => t.shiftRight x k) fun x _ => x >>> k := by
  intro t x y
  show t.value (t.shiftRight x k) = t.wrap (t.value x >>> k)
  rw [← value_shiftRight, wrap_value]

/-- A shift to the right may be done before the promotion. -/
theorem shiftRight_promote (k : ℕ) :
    t.promoted.shiftRight (t.promote x) k = t.promote (t.shiftRight x k) :=
  value_inj (by rw [value_shiftRight, value_promote, value_promote, value_shiftRight])

theorem narrow_eq_setWidth (x : BitVec t.promoted.bits) : t.narrow x = x.setWidth t.bits := by
  rw [narrow, convert, ← setWidth_ofInt (bits_le_promoted t), ofInt_value]

theorem narrow_promote (x : BitVec t.bits) : t.narrow (t.promote x) = x := by
  rw [narrow, convert, value_promote, ofInt_value]

theorem getLsbD_convert {s : CType} {k : ℕ} (hs : k < s.bits) (ht : k < t.bits) (x : BitVec s.bits) :
    (convert s t x).getLsbD k = x.getLsbD k := by
  have hbit {n : ℕ} (hn : k < n) (z : ℤ) :
      (BitVec.ofInt n z).getLsbD k = (BitVec.ofInt (k + 1) z).getLsbD k := by
    rw [← setWidth_ofInt hn, BitVec.getLsbD_setWidth]
    simp
  rw [convert, hbit ht, ← hbit hs, ofInt_value]

theorem lt_iff : t.lt x y = true ↔ t.value x < t.value y := by
  rw [lt, value, value]
  cases t.signed with
  | true => exact BitVec.slt_iff_toInt_lt
  | false =>
    simp only [Bool.false_eq_true, if_false]
    rw [BitVec.ult_iff_toNat_lt]
    exact Int.ofNat_lt.symm

theorem le_iff : t.le x y = true ↔ t.value x ≤ t.value y := by
  rw [le, value, value]
  cases t.signed with
  | true => exact BitVec.sle_iff_toInt_le
  | false =>
    simp only [Bool.false_eq_true, if_false]
    rw [BitVec.ule_iff_toNat_le]
    exact Int.ofNat_le.symm

/-- **Comparisons may be done in the promoted type.** -/
theorem lt_promote (x y : BitVec t.bits) : t.promoted.lt (t.promote x) (t.promote y) = t.lt x y := by
  rw [Bool.eq_iff_iff, lt_iff, lt_iff, value_promote, value_promote]

theorem le_promote (x y : BitVec t.bits) : t.promoted.le (t.promote x) (t.promote y) = t.le x y := by
  rw [Bool.eq_iff_iff, le_iff, le_iff, value_promote, value_promote]

theorem promote_inj : t.promote x = t.promote y ↔ x = y := by
  rw [← value_eq_iff, value_promote, value_promote, value_eq_iff]

end OpenCLCTS.Conversions.CType

namespace OpenCLCTS.IntegerOps

/-! ### The smaller and the larger number -/

variable {w : ℕ} {a b : BitVec w}

/-- `std::max`, for signed numbers. -/
def stdMax (a b : BitVec w) : BitVec w := if a.slt b then b else a

/-- `std::min`, for signed numbers. -/
def stdMin (a b : BitVec w) : BitVec w := if b.slt a then b else a

theorem stdMax_toInt : (stdMax a b).toInt = max a.toInt b.toInt := by
  rw [stdMax]
  split
  · rename_i h
    exact (max_eq_right (BitVec.slt_iff_toInt_lt.mp h).le).symm
  · rename_i h
    exact (max_eq_left (not_lt.mp (mt BitVec.slt_iff_toInt_lt.mpr h))).symm

theorem stdMin_toInt : (stdMin a b).toInt = min a.toInt b.toInt := by
  rw [stdMin]
  split
  · rename_i h
    exact (min_eq_right (BitVec.slt_iff_toInt_lt.mp h).le).symm
  · rename_i h
    exact (min_eq_left (not_lt.mp (mt BitVec.slt_iff_toInt_lt.mpr h))).symm

end OpenCLCTS.IntegerOps
