import OpenCLCTS.IntegerOps.Multiply
import OpenCLCTS.IntegerOps.Verify
import OpenCLCTS.Lib.Loops

/-!
# Division and assignment

The check of `/=` and `%=`.  A denominator of 0 and a quotient that overflows are left out twice:
`patchup_divide_results` overwrites the output of the device, and the reference is guarded.

* `hostOp_defined`: what the guards leave over is defined in the promoted type.
* `checkAssign_eq`: **no division is undefined, and the output is accepted just if every quotient
  that is defined is right.**
-/

namespace OpenCLCTS.IntegerOps

open Conversions Loops

/-- `divide` and `modulo`. -/
inductive AssignOp
  | divide
  | modulo
  deriving DecidableEq

namespace AssignOp

/-- `/` and `%`. -/
def apply (op : AssignOp) (t : CType) (x y : BitVec t.bits) : BitVec t.bits :=
  match op with
  | divide => t.div x y
  | modulo => t.mod x y

/-- The quotient, rounded to zero, and its remainder, which has the sign of the numerator. -/
def exact (op : AssignOp) (x y : ℤ) : ℤ :=
  match op with
  | divide => x.tdiv y
  | modulo => x.tmod y

end AssignOp

section

variable (op : AssignOp) (t : CType)

/-- An operator of the host, in a promoted type; `none` where it is undefined. -/
def hostOp (x y : BitVec t.bits) : Option (BitVec t.bits) :=
  if y = 0#t.bits ∨ t.signed = true ∧ x = BitVec.intMin _ ∧ y = BitVec.ofInt _ (-1) then none
  else some (op.apply t x y)

/-- `*d op= *s`. -/
def assign (d s : BitVec t.bits) : Option (BitVec t.bits) :=
  (hostOp op t.promoted (t.promote d) (t.promote s)).map t.narrow

/-- `OP_CASE_GUARD`. -/
def opCaseGuard (d s : BitVec t.bits) : Option (BitVec t.bits) :=
  if s = 0#t.bits then some (BitVec.ofInt _ (-1)) else assign op t d s

/-- `OP_CASE_GUARD_SIGNED`. -/
def opCaseGuardSigned (minVal : ℤ) (d s : BitVec t.bits) : Option (BitVec t.bits) :=
  if s = 0#t.bits ∨ d = BitVec.ofInt _ minVal ∧ s = BitVec.ofInt _ (-1) then
    some (BitVec.ofInt _ (-1 - minVal))
  else assign op t d s

/-- `PATCH_CASE`. -/
def patchCase (out src : ℕ → BitVec t.bits) (count : ℕ) : ℕ → BitVec t.bits :=
  (List.range' 0 count).foldl (fun result i =>
    if src i = 0#t.bits then Function.update result i (BitVec.ofInt _ (-1)) else result) out

/-- `PATCH_CASE_SIGNED`. -/
def patchCaseSigned (out src dest : ℕ → BitVec t.bits) (count : ℕ) (minVal : ℤ) :
    ℕ → BitVec t.bits :=
  (List.range' 0 count).foldl (fun result i =>
    if src i = 0#t.bits ∨ dest i = BitVec.ofInt _ minVal ∧ src i = BitVec.ofInt _ (-1) then
      Function.update result i (BitVec.ofInt _ (-1 - minVal))
    else result) out

end

/-- `CL_CHAR_MIN`. -/
def clCharMin : ℤ := -128

/-- `CL_SHRT_MIN`. -/
def clShrtMin : ℤ := -32768

/-- `CL_INT_MIN`. -/
def clIntMin : ℤ := -2147483648

/-- `CL_LONG_MIN`. -/
def clLongMin : ℤ := -9223372036854775808

/-- `verify_integer_divideAssign` and `verify_integer_moduloAssign`: what `destination` holds
afterwards. -/
def verifyIntegerAssign (op : AssignOp) : (vecType : ExplicitType) →
    (source destination : BitVec vecType.cType.bits) → Option (BitVec vecType.cType.bits)
  | .kChar, s, d => opCaseGuardSigned op .schar clCharMin d s
  | .kUChar, s, d => opCaseGuard op .uchar d s
  | .kShort, s, d => opCaseGuardSigned op .short clShrtMin d s
  | .kUShort, s, d => opCaseGuard op .ushort d s
  | .kInt, s, d => opCaseGuardSigned op .int clIntMin d s
  | .kUInt, s, d => opCaseGuard op .uint d s
  | .kLong, s, d => opCaseGuardSigned op .long clLongMin d s
  | .kULong, s, d => opCaseGuard op .ulong d s
  | _, _, d => some d

/-- `patchup_divide_results`. -/
def patchupDivideResults : (vecType : ExplicitType) →
    (outData inDataA inDataB : ℕ → BitVec vecType.cType.bits) → (count : ℕ) →
    ℕ → BitVec vecType.cType.bits
  | .kChar, out, a, b, count => patchCaseSigned .schar out a b count clCharMin
  | .kUChar, out, a, _, count => patchCase .uchar out a count
  | .kShort, out, a, b, count => patchCaseSigned .short out a b count clShrtMin
  | .kUShort, out, a, _, count => patchCase .ushort out a count
  | .kInt, out, a, b, count => patchCaseSigned .int out a b count clIntMin
  | .kUInt, out, a, _, count => patchCase .uint out a count
  | .kLong, out, a, b, count => patchCaseSigned .long out a b count clLongMin
  | .kULong, out, a, _, count => patchCase .ulong out a count
  | _, out, _, _, _ => out

section

variable (op : AssignOp) (vecType : ExplicitType)
  (inDataA inDataB outData : ℕ → BitVec vecType.cType.bits)

/-- The loop of the comparison, with the elements that are left and the index; `none` if the host
divides where it is undefined. -/
def compareFrom : ℕ → ℕ → Option ℤ
  | 0, _ => some 0
  | n + 1, i =>
    -- `expected` is a copy of `in2`
    (verifyIntegerAssign op vecType (inDataA i) (inDataB i)).bind fun expected =>
      if expected ≠ outData i then some (-1) else compareFrom n (i + 1)

/-- The end of `test_single_param_integer_kernel`, for `count` elements. -/
def checkAssign (count : ℕ) : Option ℤ :=
  compareFrom op vecType inDataA inDataB
    (patchupDivideResults vecType outData inDataA inDataB count) count 0

end

/-! ### The guards -/

section

variable {t : CType}

/-- What the guards leave out: a denominator of 0, and a quotient that overflows. -/
def Excluded (t : CType) (num denom : BitVec t.bits) : Prop :=
  t.value denom = 0 ∨ t.signed = true ∧ t.value num = t.least ∧ t.value denom = -1

instance (t : CType) (num denom : BitVec t.bits) : Decidable (Excluded t num denom) :=
  inferInstanceAs (Decidable (_ ∨ _ ∧ _ ∧ _))

theorem eq_ofInt_iff {c : ℤ} (hlo : t.least ≤ c) (hhi : c ≤ t.greatest) (x : BitVec t.bits) :
    x = BitVec.ofInt _ c ↔ t.value x = c := by
  rw [← CType.value_eq_iff, CType.value_ofInt, CType.wrap_eq_self hlo hhi]

theorem eq_zero_iff (x : BitVec t.bits) : x = 0#t.bits ↔ t.value x = 0 := by
  rw [← CType.value_eq_iff, show t.value 0#t.bits = 0 by cases t <;> decide]

theorem excluded_iff_of_unsigned (ht : t.signed = false) (d s : BitVec t.bits) :
    s = 0#t.bits ↔ Excluded t d s := by
  simp [Excluded, ht, eq_zero_iff]

theorem excluded_iff_of_signed (ht : t.signed = true) {minVal : ℤ} (hmin : minVal = t.least)
    (d s : BitVec t.bits) :
    (s = 0#t.bits ∨ d = BitVec.ofInt _ minVal ∧ s = BitVec.ofInt _ (-1)) ↔ Excluded t d s := by
  have hneg : t.least ≤ -1 := by
    revert ht
    cases t <;> decide
  have hgreatest := t.greatest_pos
  rw [Excluded, eq_zero_iff, eq_ofInt_iff (by omega) (by omega), eq_ofInt_iff hneg (by omega), hmin]
  simp [ht]

/-- **The host divides only where it is defined.**  In the promoted type nothing else overflows. -/
theorem hostOp_defined {d s : BitVec t.bits} (h : ¬ Excluded t d s) (op : AssignOp) :
    hostOp op t.promoted (t.promote d) (t.promote s)
      = some (op.apply t.promoted (t.promote d) (t.promote s)) := by
  refine if_neg fun hundefined => h ?_
  rcases hundefined with hzero | ⟨hsigned, hnum, hdenom⟩
  · rw [eq_zero_iff, CType.value_promote] at hzero
    exact .inl hzero
  · have hlimits : t.promoted.least ≤ t.least ∧ t.promoted.least < 0 := by
      revert hsigned
      cases t <;> decide
    have hmem := CType.value_mem d
    have hmin : t.promoted.value (BitVec.intMin _) = t.promoted.least := by
      revert hsigned
      cases t <;> decide
    have hgreatest := t.promoted.greatest_pos
    rw [← CType.value_eq_iff, CType.value_promote, hmin] at hnum
    rw [eq_ofInt_iff (by omega) (by omega), CType.value_promote] at hdenom
    have hs : t.signed = true := by
      by_contra hunsigned
      have hleast : t.least = 0 := if_neg hunsigned
      omega
    exact .inr ⟨hs, by omega, hdenom⟩

/-- **The quotient is exact** where it is defined. -/
theorem apply_value {d s : BitVec t.bits} (h : ¬ Excluded t d s) (op : AssignOp) :
    t.value (op.apply t d s) = op.exact (t.value d) (t.value s) := by
  cases op with
  | divide =>
    refine CType.value_div ?_
    intro hs
    by_contra hoverflow
    push Not at hoverflow
    have hmin : t.value (BitVec.intMin _) = t.least := by
      revert hs
      cases t <;> decide
    have hneg : t.value (-1#t.bits) = -1 := by
      revert hs
      cases t <;> decide
    refine h (.inr ⟨hs, ?_, ?_⟩)
    · rw [hoverflow.1, hmin]
    · rw [hoverflow.2, hneg]
  | modulo => exact CType.value_mod

theorem assign_eq {d s : BitVec t.bits} (h : ¬ Excluded t d s) (op : AssignOp) :
    assign op t d s = some (op.apply t d s) := by
  rw [assign, hostOp_defined h, Option.map_some]
  cases op with
  | divide => exact congrArg some (CType.narrow_op CType.respects_div d s)
  | modulo => exact congrArg some (CType.narrow_op CType.respects_mod d s)

/-! ### The filler -/

/-- What is written instead of a quotient that is not defined. -/
def filler (t : CType) : BitVec t.bits :=
  if t.signed then BitVec.ofInt _ (-1 - t.least) else BitVec.ofInt _ (-1)

theorem opCaseGuard_eq (ht : t.signed = false) (op : AssignOp) (d s : BitVec t.bits) :
    opCaseGuard op t d s = some (if Excluded t d s then filler t else op.apply t d s) := by
  rw [opCaseGuard, if_congr (excluded_iff_of_unsigned ht d s) rfl rfl, filler, ht,
    if_neg Bool.false_ne_true]
  split
  · rfl
  · rename_i h
    exact assign_eq h op

theorem opCaseGuardSigned_eq (ht : t.signed = true) {minVal : ℤ} (hmin : minVal = t.least)
    (op : AssignOp) (d s : BitVec t.bits) :
    opCaseGuardSigned op t minVal d s
      = some (if Excluded t d s then filler t else op.apply t d s) := by
  rw [opCaseGuardSigned, if_congr (excluded_iff_of_signed ht hmin d s) rfl rfl, filler, if_pos ht,
    hmin]
  split
  · rfl
  · rename_i h
    exact assign_eq h op

theorem patchCase_apply (ht : t.signed = false) (out src dest : ℕ → BitVec t.bits) {count i : ℕ}
    (hi : i < count) : patchCase t out src count i
      = if Excluded t (dest i) (src i) then filler t else out i := by
  rw [patchCase, foldl_update hi, filler, ht, if_neg Bool.false_ne_true]
  exact if_congr (excluded_iff_of_unsigned ht (dest i) (src i)) rfl rfl

theorem patchCaseSigned_apply (ht : t.signed = true) {minVal : ℤ} (hmin : minVal = t.least)
    (out src dest : ℕ → BitVec t.bits) {count i : ℕ} (hi : i < count) :
    patchCaseSigned t out src dest count minVal i
      = if Excluded t (dest i) (src i) then filler t else out i := by
  rw [patchCaseSigned, foldl_update hi, filler, if_pos ht, hmin]
  exact if_congr (excluded_iff_of_signed ht rfl (dest i) (src i)) rfl rfl

end

/-! ### All types -/

section

variable {vecType : ExplicitType} {inDataA inDataB outData : ℕ → BitVec vecType.cType.bits}

/-- **The reference is the filler, or exact.** -/
theorem verifyIntegerAssign_eq (hvec : vecType ∈ vecTypes) (op : AssignOp)
    (s d : BitVec vecType.cType.bits) : verifyIntegerAssign op vecType s d
      = some (if Excluded vecType.cType d s then filler vecType.cType
        else op.apply vecType.cType d s) := by
  cases vecType with
  | kChar => exact opCaseGuardSigned_eq (t := .schar) rfl rfl op d s
  | kUChar => exact opCaseGuard_eq (t := .uchar) rfl op d s
  | kShort => exact opCaseGuardSigned_eq (t := .short) rfl rfl op d s
  | kUShort => exact opCaseGuard_eq (t := .ushort) rfl op d s
  | kInt => exact opCaseGuardSigned_eq (t := .int) rfl rfl op d s
  | kUInt => exact opCaseGuard_eq (t := .uint) rfl op d s
  | kLong => exact opCaseGuardSigned_eq (t := .long) rfl rfl op d s
  | kULong => exact opCaseGuard_eq (t := .ulong) rfl op d s
  | kUnsignedChar | kUnsignedShort | kUnsignedInt | kUnsignedLong => exact absurd hvec (by decide)

/-- **The output is overwritten at the same indices.** -/
theorem patchupDivideResults_apply (hvec : vecType ∈ vecTypes) {count i : ℕ} (hi : i < count) :
    patchupDivideResults vecType outData inDataA inDataB count i
      = if Excluded vecType.cType (inDataB i) (inDataA i) then filler vecType.cType
        else outData i := by
  cases vecType with
  | kChar => exact patchCaseSigned_apply (t := .schar) rfl rfl _ _ _ hi
  | kUChar => exact patchCase_apply (t := .uchar) rfl _ _ _ hi
  | kShort => exact patchCaseSigned_apply (t := .short) rfl rfl _ _ _ hi
  | kUShort => exact patchCase_apply (t := .ushort) rfl _ _ _ hi
  | kInt => exact patchCaseSigned_apply (t := .int) rfl rfl _ _ _ hi
  | kUInt => exact patchCase_apply (t := .uint) rfl _ _ _ hi
  | kLong => exact patchCaseSigned_apply (t := .long) rfl rfl _ _ _ hi
  | kULong => exact patchCase_apply (t := .ulong) rfl _ _ _ hi
  | kUnsignedChar | kUnsignedShort | kUnsignedInt | kUnsignedLong => exact absurd hvec (by decide)

theorem compareFrom_eq {op : AssignOp} {expected : ℕ → BitVec vecType.cType.bits}
    (hexpected : ∀ i, verifyIntegerAssign op vecType (inDataA i) (inDataB i) = some (expected i))
    (n i : ℕ) : compareFrom op vecType inDataA inDataB outData n i
      = some (if ∀ j < n, expected (i + j) = outData (i + j) then 0 else -1) := by
  induction n generalizing i with
  | zero => simp [compareFrom]
  | succ n ih =>
    rw [compareFrom, hexpected, Option.bind_some, ih]
    by_cases heq : expected i = outData i
    · rw [if_neg (not_not.mpr heq)]
      refine congrArg some (if_congr (Iff.trans ?_ Nat.forall_lt_succ_left.symm) rfl rfl)
      simp only [Nat.add_zero, heq, true_and, Nat.add_assoc, Nat.add_comm 1]
    · rw [if_pos heq, if_neg]
      intro h
      exact heq (h 0 (Nat.succ_pos n))

/-- **No division is undefined, and the output is accepted just if every quotient that is defined
is right.** -/
theorem checkAssign_eq (op : AssignOp) (hvec : vecType ∈ vecTypes)
    (inDataA inDataB outData : ℕ → BitVec vecType.cType.bits) (count : ℕ) :
    checkAssign op vecType inDataA inDataB outData count
      = some (if ∀ i < count, Excluded vecType.cType (inDataB i) (inDataA i) ∨
          vecType.cType.value (outData i)
            = op.exact (vecType.cType.value (inDataB i)) (vecType.cType.value (inDataA i))
        then 0 else -1) := by
  rw [checkAssign, compareFrom_eq fun i => verifyIntegerAssign_eq hvec op (inDataA i) (inDataB i)]
  refine congrArg some (if_congr (forall₂_congr fun i hi => ?_) rfl rfl)
  rw [Nat.zero_add, patchupDivideResults_apply hvec hi]
  by_cases hexcluded : Excluded vecType.cType (inDataB i) (inDataA i)
  · simp only [hexcluded, if_true, true_or]
  · simp only [hexcluded, if_false, false_or]
    rw [← CType.value_eq_iff, apply_value hexcluded]
    exact eq_comm

/-- Bytes `7 / 2`, `-7 / 2`, `5 / 0` and `-128 / -1`. -/
theorem checkAssign_eq_char :
    checkAssign .divide .kChar (chars [2, 2, 0, -1]) (chars [7, -7, 5, -128]) (chars [3, -3, 1, 1]) 4
      = some 0 :=
  (@checkAssign_eq .kChar .divide (by decide) _ _ _ 4).trans (by decide)

end

end OpenCLCTS.IntegerOps
