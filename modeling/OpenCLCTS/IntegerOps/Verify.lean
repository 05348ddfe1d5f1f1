import Mathlib.Tactic.IntervalCases
import OpenCLCTS.IntegerOps.Arithmetic

/-!
# Verifiers of the integer operations

The eight functions `verify_long` … `verify_uchar` are one function of the type: they compute the
result of each element, as C computes it, and count the elements that are different.

* `roundOf_eq`: what is computed is `reference`, the operation of the type itself.
* `verify_iff`: **a verifier returns 0 just if every element whose operation is defined is right.**
-/

namespace OpenCLCTS.IntegerOps

open Conversions

/-- `MAX_ERRORS_TO_PRINT`. -/
def maxErrorsToPrint : ℕ := 10

/-- What the `switch` does: `continue`, `return -1`, or `r` is set. -/
inductive Round (t : CType)
  | skip
  | invalid
  | value (r : BitVec t.bits)
  deriving DecidableEq

section

variable (t : CType)

/-- `shift_mask`. -/
def shiftMask (vectorSize : ℕ) : ℕ := if t.bits < 32 ∧ vectorSize = 1 then 31 else t.bits - 1

/-- `b & shift_mask`. -/
def shiftAmount (vectorSize : ℕ) (b : BitVec t.bits) : ℕ :=
  (t.promote b &&& BitVec.ofNat _ (shiftMask t vectorSize)).toNat

/-- A truth value: scalars are set to 1/0, vectors to -1/0. -/
def truth (vectorSize : ℕ) (c : Bool) : BitVec t.bits :=
  let r := if c then 1#t.bits else 0#t.bits
  if vectorSize ≠ 1 ∧ r ≠ 0#t.bits then BitVec.ofInt _ (-1) else r

/-- The divisions that are left out. -/
def leftOut (a b : BitVec t.bits) : Bool :=
  if t.signed then b == 0#t.bits || (b == BitVec.ofInt _ (-1) && a == BitVec.intMin _)
  else b == 0#t.bits

/-- The `switch`; `a` and `b` are the elements, and `aj` and `bj` the first ones of the vectors. -/
def roundOf (test vectorSize : ℕ) (a b aj bj : BitVec t.bits) : Round t :=
  let x := t.promote a
  let y := t.promote b
  match test with
  | 0 => .value (t.narrow (x + y))
  | 1 => .value (t.narrow (x - y))
  | 2 => .value (t.narrow (x * y))
  | 3 => if leftOut t a b then .skip else .value (t.narrow (t.promoted.div x y))
  | 4 => if leftOut t a b then .skip else .value (t.narrow (t.promoted.mod x y))
  | 5 => .value (t.narrow (x &&& y))
  | 6 => .value (t.narrow (x ||| y))
  | 7 => .value (t.narrow (x ^^^ y))
  | 8 => .value (t.narrow (t.promoted.shiftRight x (shiftAmount t vectorSize b)))
  | 9 => .value (t.narrow (x <<< shiftAmount t vectorSize b))
  | 10 => .value (t.narrow (t.promoted.shiftRight x (shiftAmount t vectorSize bj)))
  | 11 => .value (t.narrow (x <<< shiftAmount t vectorSize bj))
  | 12 => .value (t.narrow (~~~x))
  | 13 => .value (t.narrow (if t.promoted.lt (t.promote aj) (t.promote bj) then x else y))
  | 14 => .value (truth t vectorSize (a != 0#t.bits && b != 0#t.bits))
  | 15 => .value (truth t vectorSize (a != 0#t.bits || b != 0#t.bits))
  | 16 => .value (truth t vectorSize (t.promoted.lt x y))
  | 17 => .value (truth t vectorSize (t.promoted.lt y x))
  | 18 => .value (truth t vectorSize (t.promoted.le x y))
  | 19 => .value (truth t vectorSize (t.promoted.le y x))
  | 20 => .value (truth t vectorSize (x == y))
  | 21 => .value (truth t vectorSize (x != y))
  | 22 => .value (truth t vectorSize (a == 0#t.bits))
  | _ => .invalid

/-- The loops, with the indices that are left and `count`. -/
def scan (test vectorSize : ℕ) (inptrA inptrB outptr : ℕ → BitVec t.bits) :
    List (ℕ × ℕ) → ℕ → ℤ
  | [], count => if count ≠ 0 then -1 else 0
  | (j, i) :: rest, count =>
    match roundOf t test vectorSize (inptrA i) (inptrB i) (inptrA j) (inptrB j) with
    | .invalid => -1
    | .skip => scan test vectorSize inptrA inptrB outptr rest count
    | .value r =>
      if r ≠ outptr i then
        if maxErrorsToPrint ≤ count + 1 then -1
        else scan test vectorSize inptrA inptrB outptr rest (count + 1)
      else scan test vectorSize inptrA inptrB outptr rest count

/-- The indices `j` and `i`, in the order of the loops. -/
def indices (vectorSize n : ℕ) : List (ℕ × ℕ) :=
  (List.range' 0 ((n + vectorSize - 1) / vectorSize) vectorSize).flatMap fun j =>
    (List.range' j vectorSize).map fun i => (j, i)

def verify (test vectorSize : ℕ) (inptrA inptrB outptr : ℕ → BitVec t.bits) (n : ℕ) : ℤ :=
  scan t test vectorSize inptrA inptrB outptr (indices vectorSize n) 0

end

/-- `verify_long`. -/
def verifyLong := verify .long

/-- `verify_ulong`. -/
def verifyUlong := verify .ulong

/-- `verify_int`. -/
def verifyInt := verify .int

/-- `verify_uint`. -/
def verifyUint := verify .uint

/-- `verify_short`. -/
def verifyShort := verify .short

/-- `verify_ushort`. -/
def verifyUshort := verify .ushort

/-- `verify_char`. -/
def verifyChar := verify .schar

/-- `verify_uchar`. -/
def verifyUchar := verify .uchar

/-- `verify_<type>`. -/
def verifier : (t : CType) → ℕ → ℕ → (inptrA inptrB outptr : ℕ → BitVec t.bits) → ℕ → ℤ
  | .long => verifyLong
  | .ulong => verifyUlong
  | .int => verifyInt
  | .uint => verifyUint
  | .short => verifyShort
  | .ushort => verifyUshort
  | .schar => verifyChar
  | .uchar => verifyUchar

theorem verifier_eq (t : CType) : verifier t = verify t := by
  cases t <;> rfl

/-! ### The reference -/

section

variable (t : CType)

/-- The number of bits that shifts count modulo. -/
def shiftModulus (vectorSize : ℕ) : ℕ := if vectorSize = 1 then max t.bits 32 else t.bits

/-- One or zero, or all bits or none. -/
def truthValue (vectorSize : ℕ) (c : Bool) : BitVec t.bits :=
  if c then if vectorSize = 1 then 1#t.bits else BitVec.allOnes _ else 0#t.bits

/-- The operation on the type, for the elements `a` and `b` of vectors that start with `aj` and
`bj`. -/
def reference (test vectorSize : ℕ) (a b aj bj : BitVec t.bits) : BitVec t.bits :=
  let modulus := shiftModulus t vectorSize
  let truth := truthValue t vectorSize
  match test with
  | 0 => a + b
  | 1 => a - b
  | 2 => a * b
  | 3 => t.div a b
  | 4 => t.mod a b
  | 5 => a &&& b
  | 6 => a ||| b
  | 7 => a ^^^ b
  | 8 => t.shiftRight a (b.toNat % modulus)
  | 9 => a <<< (b.toNat % modulus)
  | 10 => t.shiftRight a (bj.toNat % modulus)
  | 11 => a <<< (bj.toNat % modulus)
  | 12 => ~~~a
  | 13 => if t.lt aj bj then a else b
  | 14 => truth (a ≠ 0#t.bits ∧ b ≠ 0#t.bits)
  | 15 => truth (a ≠ 0#t.bits ∨ b ≠ 0#t.bits)
  | 16 => truth (t.lt a b)
  | 17 => truth (t.lt b a)
  | 18 => truth (t.le a b)
  | 19 => truth (t.le b a)
  | 20 => truth (a = b)
  | 21 => truth (a ≠ b)
  | _ => truth (a = 0#t.bits)

/-- A division is defined, if it is not by 0 and does not overflow. -/
def Defined (test : ℕ) (a b : BitVec t.bits) : Prop :=
  test = 3 ∨ test = 4 →
    t.value b ≠ 0 ∧ ¬ (t.signed = true ∧ t.value a = t.least ∧ t.value b = -1)

instance (test : ℕ) (a b : BitVec t.bits) : Decidable (Defined t test a b) :=
  inferInstanceAs (Decidable (_ ∨ _ → _ ∧ ¬ (_ ∧ _ ∧ _)))

end

/-! ### Elements -/

variable {t : CType} {a b aj bj : BitVec t.bits} {test vectorSize : ℕ}

theorem shiftModulus_eq (t : CType) (vectorSize : ℕ) : ∃ k, shiftModulus t vectorSize = 2 ^ k ∧
    shiftMask t vectorSize = 2 ^ k - 1 ∧ k ≤ t.bits := by
  rw [shiftModulus, shiftMask]
  by_cases h : vectorSize = 1
  · simp only [h, and_true, if_true]
    cases t
    case long | ulong => exact ⟨6, by decide, by decide, by decide⟩
    all_goals exact ⟨5, by decide, by decide, by decide⟩
  · simp only [h, and_false, if_false]
    cases t
    case schar | uchar => exact ⟨3, by decide, by decide, by decide⟩
    case short | ushort => exact ⟨4, by decide, by decide, by decide⟩
    case int | uint => exact ⟨5, by decide, by decide, by decide⟩
    case long | ulong => exact ⟨6, by decide, by decide, by decide⟩

theorem shiftAmount_eq (b : BitVec t.bits) :
    shiftAmount t vectorSize b = b.toNat % shiftModulus t vectorSize := by
  obtain ⟨k, hmodulus, hmask, hk⟩ := shiftModulus_eq t vectorSize
  have hlow : (t.promote b).toNat % 2 ^ t.bits = b.toNat := by
    rw [← BitVec.toNat_setWidth, ← CType.narrow_eq_setWidth, CType.narrow_promote]
  have hlt : 2 ^ k - 1 < 2 ^ t.promoted.bits :=
    lt_of_lt_of_le (Nat.sub_lt (Nat.two_pow_pos k) Nat.one_pos)
      (Nat.pow_le_pow_right two_pos (hk.trans (CType.bits_le_promoted t)))
  rw [shiftAmount, hmask, hmodulus, BitVec.toNat_and, BitVec.toNat_ofNat, Nat.mod_eq_of_lt hlt,
    Nat.and_two_pow_sub_one_eq_mod, ← Nat.mod_mod_of_dvd _ (pow_dvd_pow 2 hk), hlow]

theorem truth_eq (c : Bool) : truth t vectorSize c = truthValue t vectorSize c := by
  have hne : 1#t.bits ≠ 0#t.bits := by
    cases t <;> decide
  have hones : BitVec.ofInt t.bits (-1) = BitVec.allOnes t.bits := by
    cases t <;> decide
  rw [truth, truthValue]
  cases c with
  | false => simp
  | true =>
    by_cases h : vectorSize = 1
    · simp [h]
    · simp [h, hne, hones]

theorem leftOut_iff (hdiv : test = 3 ∨ test = 4) :
    leftOut t a b = true ↔ ¬ Defined t test a b := by
  have hzero : t.value b = 0 ↔ b = 0#t.bits := by
    rw [← CType.value_eq_iff, show t.value 0#t.bits = 0 by cases t <;> decide]
  rw [leftOut, Defined]
  cases hs : t.signed with
  | false => simp [hdiv, hzero]
  | true =>
    have hlimits : t.value (BitVec.ofInt _ (-1)) = -1 ∧ t.value (BitVec.intMin _) = t.least := by
      revert hs
      cases t <;> decide
    have hminus : t.value b = -1 ↔ b = BitVec.ofInt _ (-1) := by
      rw [← CType.value_eq_iff, hlimits.1]
    have hleast : t.value a = t.least ↔ a = BitVec.intMin _ := by
      rw [← CType.value_eq_iff, hlimits.2]
    simp [hdiv, hzero, hminus, hleast]
    tauto

theorem roundOf_eq_value (htest : test < 23) (hdiv : ¬ (test = 3 ∨ test = 4)) (vectorSize : ℕ)
    (a b aj bj : BitVec t.bits) : roundOf t test vectorSize a b aj bj
      = .value (reference t test vectorSize a b aj bj) := by
  have hle := CType.bits_le_promoted t
  interval_cases test
  · exact congrArg Round.value (CType.narrow_op CType.respects_add a b)
  · exact congrArg Round.value (CType.narrow_op CType.respects_sub a b)
  · exact congrArg Round.value (CType.narrow_op CType.respects_mul a b)
  · exact absurd (.inl rfl) hdiv
  · exact absurd (.inr rfl) hdiv
  · rw [roundOf, reference, CType.narrow_eq_setWidth, BitVec.setWidth_and,
      ← CType.narrow_eq_setWidth, ← CType.narrow_eq_setWidth, CType.narrow_promote,
      CType.narrow_promote]
  · rw [roundOf, reference, CType.narrow_eq_setWidth, BitVec.setWidth_or,
      ← CType.narrow_eq_setWidth, ← CType.narrow_eq_setWidth, CType.narrow_promote,
      CType.narrow_promote]
  · rw [roundOf, reference, CType.narrow_eq_setWidth, BitVec.setWidth_xor,
      ← CType.narrow_eq_setWidth, ← CType.narrow_eq_setWidth, CType.narrow_promote,
      CType.narrow_promote]
  · rw [roundOf, reference, shiftAmount_eq]
    exact congrArg Round.value (CType.narrow_op (CType.respects_shiftRight _) a b)
  · rw [roundOf, reference, shiftAmount_eq, CType.narrow_eq_setWidth,
      BitVec.setWidth_shiftLeft_of_le hle, ← CType.narrow_eq_setWidth, CType.narrow_promote]
  · rw [roundOf, reference, shiftAmount_eq]
    exact congrArg Round.value (CType.narrow_op (CType.respects_shiftRight _) a b)
  · rw [roundOf, reference, shiftAmount_eq, CType.narrow_eq_setWidth,
      BitVec.setWidth_shiftLeft_of_le hle, ← CType.narrow_eq_setWidth, CType.narrow_promote]
  · rw [roundOf, reference, CType.narrow_eq_setWidth, BitVec.setWidth_not hle,
      ← CType.narrow_eq_setWidth, CType.narrow_promote]
  · rw [roundOf, reference, CType.lt_promote, apply_ite t.narrow, CType.narrow_promote,
      CType.narrow_promote]
  · simp only [roundOf, reference, truth_eq, bne, Bool.decide_and, decide_not, beq_eq_decide]
  · simp only [roundOf, reference, truth_eq, bne, Bool.decide_or, decide_not, beq_eq_decide]
  · simp only [roundOf, reference, truth_eq, CType.lt_promote]
  · simp only [roundOf, reference, truth_eq, CType.lt_promote]
  · simp only [roundOf, reference, truth_eq, CType.le_promote]
  · simp only [roundOf, reference, truth_eq, CType.le_promote]
  · simp only [roundOf, reference, truth_eq, beq_eq_decide, CType.promote_inj]
  · simp only [roundOf, reference, truth_eq, bne, beq_eq_decide, CType.promote_inj, decide_not,
      ne_eq]
  · simp only [roundOf, reference, truth_eq, beq_eq_decide]

/-- **What is computed is the reference**, where the operation is defined. -/
theorem roundOf_eq (htest : test < 23) (vectorSize : ℕ) (a b aj bj : BitVec t.bits) :
    roundOf t test vectorSize a b aj bj = if Defined t test a b then
      .value (reference t test vectorSize a b aj bj) else .skip := by
  by_cases hdiv : test = 3 ∨ test = 4
  · by_cases hleft : leftOut t a b
    · rw [if_neg ((leftOut_iff hdiv).mp hleft)]
      rcases hdiv with rfl | rfl
      · rw [roundOf, if_pos hleft]
      · rw [roundOf, if_pos hleft]
    · rw [if_pos (not_not.mp ((leftOut_iff hdiv).not.mp hleft))]
      rcases hdiv with rfl | rfl
      · rw [roundOf, if_neg hleft]
        exact congrArg Round.value (CType.narrow_op CType.respects_div a b)
      · rw [roundOf, if_neg hleft]
        exact congrArg Round.value (CType.narrow_op CType.respects_mod a b)
  · have hdefined : Defined t test a b := fun h => absurd h hdiv
    rw [if_pos hdefined]
    exact roundOf_eq_value htest hdiv vectorSize a b aj bj

/-! ### The loops -/

variable {inptrA inptrB outptr : ℕ → BitVec t.bits} {n : ℕ}

/-- An element that is right. -/
def Right (t : CType) (test vectorSize : ℕ) (inptrA inptrB outptr : ℕ → BitVec t.bits) (j i : ℕ) :
    Prop :=
  Defined t test (inptrA i) (inptrB i) →
    outptr i = reference t test vectorSize (inptrA i) (inptrB i) (inptrA j) (inptrB j)

theorem scan_eq_zero_iff (htest : test < 23) (l : List (ℕ × ℕ)) (count : ℕ) :
    scan t test vectorSize inptrA inptrB outptr l count = 0 ↔
      count = 0 ∧ ∀ p ∈ l, Right t test vectorSize inptrA inptrB outptr p.1 p.2 := by
  induction l generalizing count with
  | nil => simp [scan]
  | cons p rest ih =>
    obtain ⟨j, i⟩ := p
    rw [scan, roundOf_eq htest, List.forall_mem_cons]
    by_cases hdefined : Defined t test (inptrA i) (inptrB i)
    · rw [if_pos hdefined]
      have hright : Right t test vectorSize inptrA inptrB outptr j i ↔
          reference t test vectorSize (inptrA i) (inptrB i) (inptrA j) (inptrB j) = outptr i :=
        ⟨fun h => (h hdefined).symm, fun h _ => h.symm⟩
      simp only [hright]
      by_cases heq : reference t test vectorSize (inptrA i) (inptrB i) (inptrA j) (inptrB j)
          = outptr i
      · simp only [heq, ne_eq, not_true_eq_false, if_false, true_and]
        exact ih count
      · simp only [heq, ne_eq, not_false_eq_true, if_true, false_and, and_false, iff_false]
        split
        · decide
        · rw [ih]
          omega
    · rw [if_neg hdefined]
      have hright : Right t test vectorSize inptrA inptrB outptr j i := fun h => absurd h hdefined
      simp only [hright, true_and]
      exact ih count

theorem mem_indices {j i : ℕ} (hdvd : vectorSize ∣ n) :
    (j, i) ∈ indices vectorSize n ↔ i < n ∧ j = i / vectorSize * vectorSize := by
  obtain ⟨q, rfl⟩ := hdvd
  rcases Nat.eq_zero_or_pos vectorSize with rfl | hsize
  · simp [indices]
  have hrounds : (vectorSize * q + vectorSize - 1) / vectorSize = q := by
    rw [Nat.add_sub_assoc hsize, Nat.mul_add_div hsize, Nat.div_eq_of_lt (by omega), Nat.add_zero]
  simp only [indices, hrounds, List.mem_flatMap, List.mem_map, List.mem_range', Prod.mk.injEq,
    Nat.zero_add, Nat.one_mul]
  constructor
  · rintro ⟨_, ⟨k, hk, rfl⟩, _, ⟨o, ho, rfl⟩, rfl, rfl⟩
    constructor
    · calc vectorSize * k + o < vectorSize * k + vectorSize := by omega
        _ = vectorSize * (k + 1) := by ring
        _ ≤ vectorSize * q := Nat.mul_le_mul_left _ hk
    · rw [Nat.mul_add_div hsize, Nat.div_eq_of_lt ho, Nat.add_zero, Nat.mul_comm]
  · rintro ⟨hi, rfl⟩
    refine ⟨_, ⟨i / vectorSize, Nat.div_lt_of_lt_mul hi, Nat.mul_comm _ _⟩, i,
      ⟨i % vectorSize, Nat.mod_lt i hsize, ?_⟩, rfl, rfl⟩
    rw [Nat.mul_comm, Nat.div_add_mod]

/-- **A verifier returns 0 just if every element whose operation is defined is the reference.** -/
theorem verify_iff (t : CType) (htest : test < 23) (hdvd : vectorSize ∣ n)
    (inptrA inptrB outptr : ℕ → BitVec t.bits) :
    verifier t test vectorSize inptrA inptrB outptr n = 0 ↔
      ∀ i < n, Defined t test (inptrA i) (inptrB i) →
        outptr i = reference t test vectorSize (inptrA i) (inptrB i)
          (inptrA (i / vectorSize * vectorSize)) (inptrB (i / vectorSize * vectorSize)) := by
  rw [verifier_eq, verify, scan_eq_zero_iff htest, eq_self, true_and, Prod.forall]
  simp only [mem_indices hdvd]
  constructor
  · intro h i hi
    exact h _ i ⟨hi, rfl⟩
  · rintro h j i ⟨hi, rfl⟩
    exact h i hi

/-- Elements of type `char`. -/
def chars (l : List ℤ) (i : ℕ) : BitVec CType.schar.bits := BitVec.ofInt _ (l.getD i 0)

/-- `%` of two vectors; the second one has a divisor of 0, and -128 over -1. -/
theorem verify_iff_char : verifyChar 4 2 (chars [7, -7, 3, -128]) (chars [3, 3, 0, -1])
    (chars [1, -1, 9, 9]) 4 = 0 :=
  (verify_iff .schar (by decide) (by decide) _ _ _).mpr (by decide)

end OpenCLCTS.IntegerOps
