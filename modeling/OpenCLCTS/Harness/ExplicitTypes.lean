import Mathlib.Algebra.Order.Ring.Int
import Mathlib.Tactic.Common

/-!
# Explicit types

The integer types of `conversions.h`, with the tables of their limits, and the values that their
bits stand for.
-/

namespace OpenCLCTS.Conversions

/-- The types of integers that the pointers of `convert_explicit_value` have. -/
inductive CType
  | schar
  | uchar
  | short
  | ushort
  | int
  | uint
  | long
  | ulong
  deriving DecidableEq

def CType.bits : CType → ℕ
  | .schar | .uchar => 8
  | .short | .ushort => 16
  | .int | .uint => 32
  | .long | .ulong => 64

def CType.signed : CType → Bool
  | .schar | .short | .int | .long => true
  | .uchar | .ushort | .uint | .ulong => false

/-- The integers of `ExplicitTypes`. -/
inductive ExplicitType
  | kChar
  | kUChar
  | kUnsignedChar
  | kShort
  | kUShort
  | kUnsignedShort
  | kInt
  | kUInt
  | kUnsignedInt
  | kLong
  | kULong
  | kUnsignedLong
  deriving DecidableEq

namespace ExplicitType

/-- The number of an enumerator; 0 is `kBool`, and the floating types come last. -/
def index : ExplicitType → ℕ
  | kChar => 1
  | kUChar => 2
  | kUnsignedChar => 3
  | kShort => 4
  | kUShort => 5
  | kUnsignedShort => 6
  | kInt => 7
  | kUInt => 8
  | kUnsignedInt => 9
  | kLong => 10
  | kULong => 11
  | kUnsignedLong => 12

def cType : ExplicitType → CType
  | kChar => .schar
  | kUChar | kUnsignedChar => .uchar
  | kShort => .short
  | kUShort | kUnsignedShort => .ushort
  | kInt => .int
  | kUInt | kUnsignedInt => .uint
  | kLong => .long
  | kULong | kUnsignedLong => .ulong

end ExplicitType

def sUpperLimits : List (BitVec 64) :=
  [0, 127, 255, 255, 32767, 65535, 65535, 0x7fffffff, 0xffffffff, 0xffffffff,
    0x7fffffffffffffff, 0xffffffffffffffff, 0xffffffffffffffff, 0, 0]

def sLowerLimits : List (BitVec 64) :=
  [-1, -128, 0, 0, -32768, 0, 0, 0xffffffff80000000, 0, 0, 0x8000000000000000, 0, 0, 0, 0]

namespace ExplicitType

/-- `sUpperLimits[type]`. -/
def upperLimit (t : ExplicitType) : ℕ := (sUpperLimits[t.index]?.getD 0).toNat

/-- `sLowerLimits[type]`. -/
def lowerLimit (t : ExplicitType) : ℤ := (sLowerLimits[t.index]?.getD 0).toInt

end ExplicitType

namespace CType

variable (t : CType)

/-- The integer that the bits stand for. -/
def value (b : BitVec t.bits) : ℤ := if t.signed then b.toInt else b.toNat

/-- The least value. -/
def least : ℤ := if t.signed then -2 ^ (t.bits - 1) else 0

/-- The greatest value. -/
def greatest : ℤ := if t.signed then 2 ^ (t.bits - 1) - 1 else 2 ^ t.bits - 1

/-- The value that is congruent to `x` modulo `2 ^ bits`. -/
def wrap (x : ℤ) : ℤ := if t.signed then x.bmod (2 ^ t.bits) else x % 2 ^ t.bits

/-- The value that is nearest to `x`. -/
def clamp (x : ℤ) : ℤ := max t.least (min t.greatest x)

theorem bits_pos : 0 < t.bits := by
  cases t <;> decide

theorem two_pow_bits : (2 : ℤ) ^ t.bits = 2 * 2 ^ (t.bits - 1) := by
  rw [← pow_succ', Nat.sub_add_cancel t.bits_pos]

theorem least_le_zero : t.least ≤ 0 := by
  cases t <;> decide

theorem greatest_pos : 0 < t.greatest := by
  cases t <;> decide

variable {t} {x : ℤ}

theorem value_ofInt : t.value (BitVec.ofInt t.bits x) = t.wrap x := by
  rw [value, wrap]
  split
  · exact BitVec.toInt_ofInt x
  · have hpos : (0 : ℤ) < 2 ^ t.bits := pow_pos two_pos _
    rw [BitVec.toNat_ofInt, Nat.cast_pow, Nat.cast_ofNat, Int.toNat_of_nonneg (Int.emod_nonneg x hpos.ne')]

theorem wrap_eq_self (hlo : t.least ≤ x) (hhi : x ≤ t.greatest) : t.wrap x = x := by
  have htwo := t.two_pow_bits
  rw [least] at hlo
  rw [greatest] at hhi
  rw [wrap]
  split
  · rename_i h
    rw [if_pos h] at hlo hhi
    exact Int.bmod_eq_of_le (by push_cast; omega) (by push_cast; omega)
  · rename_i h
    rw [if_neg h] at hlo hhi
    exact Int.emod_eq_of_lt hlo (by omega)

theorem value_mem (b : BitVec t.bits) : t.least ≤ t.value b ∧ t.value b ≤ t.greatest := by
  rw [least, greatest, value]
  cases t.signed with
  | true =>
    exact ⟨BitVec.le_toInt b, BitVec.toInt_le⟩
  | false =>
    have hlt : (b.toNat : ℤ) < 2 ^ t.bits := by exact_mod_cast b.isLt
    refine ⟨Int.natCast_nonneg _, ?_⟩
    simp only [Bool.false_eq_true, if_false]
    omega

theorem clamp_eq_self (hlo : t.least ≤ x) (hhi : x ≤ t.greatest) : t.clamp x = x := by
  rw [clamp, min_eq_right hhi, max_eq_right hlo]

theorem clamp_of_le (h : x ≤ t.least) : t.clamp x = t.least := by
  have := t.least_le_zero
  have := t.greatest_pos
  rw [clamp, min_eq_right (by omega), max_eq_left h]

theorem clamp_of_ge (h : t.greatest ≤ x) : t.clamp x = t.greatest := by
  have := t.least_le_zero
  have := t.greatest_pos
  rw [clamp, min_eq_left h, max_eq_right (by omega)]

end CType

theorem upperLimit_eq (t : ExplicitType) : (t.upperLimit : ℤ) = t.cType.greatest := by
  cases t <;> decide

theorem lowerLimit_eq (t : ExplicitType) : t.lowerLimit = t.cType.least := by
  cases t <;> decide

end OpenCLCTS.Conversions
