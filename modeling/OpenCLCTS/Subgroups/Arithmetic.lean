import OpenCLCTS.IntegerOps.Arithmetic

/-!
# The operations of scans and reductions

`calculate` for the integer types, which computes in the promoted type, and the tables of
`identify_limits`.

* `calculate_add`, `value_calculate_max`: the operations, on the bits of the type and on values.
* `calculate_identity`: the identities of the tables are identities, except that the logical
  operations take every number that is not 0 to 1.
* `reduceFirst_eq_foldl`: a fold that starts with the first element.
-/

namespace OpenCLCTS.Subgroups

open Conversions

inductive ArithmeticOp
  | add
  | max
  | min
  | mul
  | and
  | or
  | xor
  | logicalAnd
  | logicalOr
  | logicalXor
  deriving DecidableEq

namespace ArithmeticOp

def isLogical : ArithmeticOp → Bool
  | logicalAnd | logicalOr | logicalXor => true
  | _ => false

end ArithmeticOp

section

variable (Ty : CType)

/-- A `bool` that becomes a number. -/
def ofBool (b : Bool) : BitVec Ty.bits := if b then 1 else 0

/-- `calculate`. -/
def calculate (a b : BitVec Ty.bits) : ArithmeticOp → BitVec Ty.bits
  | .add => Ty.narrow (Ty.promote a + Ty.promote b)
  | .max => if Ty.promoted.lt (Ty.promote b) (Ty.promote a) then a else b
  | .min => if Ty.promoted.lt (Ty.promote a) (Ty.promote b) then a else b
  | .mul => Ty.narrow (Ty.promote a * Ty.promote b)
  | .and => Ty.narrow (Ty.promote a &&& Ty.promote b)
  | .or => Ty.narrow (Ty.promote a ||| Ty.promote b)
  | .xor => Ty.narrow (Ty.promote a ^^^ Ty.promote b)
  | .logicalAnd => ofBool Ty (a ≠ 0 && b ≠ 0)
  | .logicalOr => ofBool Ty (a ≠ 0 || b ≠ 0)
  | .logicalXor => ofBool Ty (!(a ≠ 0) ^^ !(b ≠ 0))

/-- `identify_limits`; the logical operations are only in the table of `cl_int`. -/
def identifyLimits : ArithmeticOp → BitVec Ty.bits
  | .add => 0
  | .max => BitVec.ofInt _ Ty.least
  | .min => BitVec.ofInt _ Ty.greatest
  | .mul => 1
  | .and => CType.convert .int Ty (~~~0#32)
  | .or => 0
  | .xor => 0
  | .logicalAnd => if Ty = .int then 1 else 0
  | .logicalOr => 0
  | .logicalXor => 0

/-- The operations that are instantiated for a type. -/
def Instantiated (operation : ArithmeticOp) : Prop := operation.isLogical = true → Ty = .int

end

/-! ### The operations on the bits -/

section

variable {Ty : CType} (a b : BitVec Ty.bits)

theorem calculate_add : calculate Ty a b .add = a + b := CType.narrow_op CType.respects_add a b

theorem calculate_mul : calculate Ty a b .mul = a * b := CType.narrow_op CType.respects_mul a b

theorem calculate_and : calculate Ty a b .and = a &&& b := by
  rw [calculate, CType.narrow_eq_setWidth, BitVec.setWidth_and, ← CType.narrow_eq_setWidth,
    ← CType.narrow_eq_setWidth, CType.narrow_promote, CType.narrow_promote]

theorem calculate_or : calculate Ty a b .or = a ||| b := by
  rw [calculate, CType.narrow_eq_setWidth, BitVec.setWidth_or, ← CType.narrow_eq_setWidth,
    ← CType.narrow_eq_setWidth, CType.narrow_promote, CType.narrow_promote]

theorem calculate_xor : calculate Ty a b .xor = a ^^^ b := by
  rw [calculate, CType.narrow_eq_setWidth, BitVec.setWidth_xor, ← CType.narrow_eq_setWidth,
    ← CType.narrow_eq_setWidth, CType.narrow_promote, CType.narrow_promote]

theorem value_calculate_max : Ty.value (calculate Ty a b .max) = max (Ty.value a) (Ty.value b) := by
  rw [calculate, CType.lt_promote]
  by_cases h : Ty.lt b a = true
  · rw [if_pos h, max_eq_left (CType.lt_iff.mp h).le]
  · rw [if_neg h, max_eq_right (not_lt.mp fun h' => h (CType.lt_iff.mpr h'))]

theorem value_calculate_min : Ty.value (calculate Ty a b .min) = min (Ty.value a) (Ty.value b) := by
  rw [calculate, CType.lt_promote]
  by_cases h : Ty.lt a b = true
  · rw [if_pos h, min_eq_left (CType.lt_iff.mp h).le]
  · rw [if_neg h, min_eq_right (not_lt.mp fun h' => h (CType.lt_iff.mpr h'))]

end

/-! ### Identities -/

section

variable {Ty : CType}

theorem convert_allOnes (Ty : CType) : CType.convert .int Ty (~~~0#32) = BitVec.allOnes Ty.bits := by
  cases Ty <;> decide

theorem value_limit {z : ℤ} (hlo : Ty.least ≤ z) (hhi : z ≤ Ty.greatest) :
    Ty.value (BitVec.ofInt Ty.bits z) = z := by
  rw [CType.value_ofInt, CType.wrap_eq_self hlo hhi]

/-- **The identities** of the operations that are not logical. -/
theorem calculate_identity {operation : ArithmeticOp} (h : operation.isLogical = false)
    (v : BitVec Ty.bits) : calculate Ty (identifyLimits Ty operation) v operation = v := by
  have hlimits := Ty.least_le_zero.trans Ty.greatest_pos.le
  obtain ⟨hleast, hgreatest⟩ := CType.value_mem v
  cases operation with
  | add => exact (calculate_add _ v).trans (BitVec.zero_add v)
  | max =>
    apply CType.value_inj
    rw [value_calculate_max, identifyLimits, value_limit le_rfl hlimits, max_eq_right hleast]
  | min =>
    apply CType.value_inj
    rw [value_calculate_min, identifyLimits, value_limit hlimits le_rfl, min_eq_right hgreatest]
  | mul => exact (calculate_mul _ v).trans (BitVec.one_mul v)
  | and =>
    rw [calculate_and, identifyLimits, convert_allOnes, BitVec.allOnes_and]
  | or => exact (calculate_or _ v).trans BitVec.zero_or
  | xor => exact (calculate_xor _ v).trans BitVec.zero_xor
  | logicalAnd | logicalOr | logicalXor => cases h

/-- **The logical operations** make a number that is not 0 to 1. -/
theorem calculate_logical {operation : ArithmeticOp} (h : operation.isLogical = true)
    (v : BitVec CType.int.bits) :
    calculate .int (identifyLimits .int operation) v operation = ofBool .int (v ≠ 0) := by
  cases operation with
  | logicalAnd => exact congrArg (ofBool .int) (Bool.true_and _)
  | logicalOr => simp [calculate, identifyLimits]
  | logicalXor => simp [calculate, identifyLimits]
  | add | max | min | mul | and | or | xor => cases h

theorem ofBool_int_ne_zero (b : Bool) : ofBool .int b ≠ 0 ↔ b = true := by
  cases b <;> decide

/-- The identity has no effect if another element follows. -/
theorem calculate_absorb {operation : ArithmeticOp} (hinst : Instantiated Ty operation)
    (v w : BitVec Ty.bits) :
    calculate Ty (calculate Ty (identifyLimits Ty operation) v operation) w operation
      = calculate Ty v w operation := by
  cases hlogical : operation.isLogical with
  | false => rw [calculate_identity hlogical]
  | true =>
    obtain rfl := hinst hlogical
    have hiff : ofBool .int (decide (v ≠ 0)) ≠ 0 ↔ v ≠ 0 := by
      rw [ofBool_int_ne_zero, decide_eq_true_eq]
    rw [calculate_logical hlogical]
    cases operation with
    | logicalAnd => rw [calculate, calculate, decide_eq_decide.mpr hiff]
    | logicalOr => rw [calculate, calculate, decide_eq_decide.mpr hiff]
    | logicalXor => rw [calculate, calculate, decide_eq_decide.mpr hiff]
    | add | max | min | mul | and | or | xor => cases hlogical

/-- **When the identity is one**: for logical operations the element has to be 0 or 1. -/
theorem calculate_identity_iff {operation : ArithmeticOp} (hinst : Instantiated Ty operation)
    (v : BitVec Ty.bits) : calculate Ty (identifyLimits Ty operation) v operation = v ↔
      (operation.isLogical = true → v = 0 ∨ v = 1) := by
  cases hlogical : operation.isLogical with
  | false =>
    refine iff_of_true (calculate_identity hlogical v) ?_
    intro h
    cases h
  | true =>
    obtain rfl := hinst hlogical
    rw [calculate_logical hlogical]
    constructor
    · intro h _
      rw [← h]
      cases decide (v ≠ 0) with
      | false => exact .inl rfl
      | true => exact .inr rfl
    · intro h
      rcases h rfl with rfl | rfl <;> rfl

end

/-! ### Folds -/

section

variable {α : Type} {f : α → α → α} {e d : α}

/-- A fold that starts with the first element. -/
def reduceFirst (f : α → α → α) (d : α) : List α → α
  | [] => d
  | v :: vs => vs.foldl f v

theorem reduceFirst_concat {vs : List α} (h : vs ≠ []) (v : α) :
    reduceFirst f d (vs ++ [v]) = f (reduceFirst f d vs) v := by
  cases vs with
  | nil => exact absurd rfl h
  | cons w ws => exact List.foldl_append ..

/-- A reduction from the first element on is the fold from `e`, if there is more than one. -/
theorem reduceFirst_eq_foldl (habsorb : ∀ v w, f (f e v) w = f v w) {vs : List α}
    (hvs : 2 ≤ vs.length) : reduceFirst f d vs = vs.foldl f e := by
  match vs, hvs with
  | v :: w :: ws, _ =>
    show ws.foldl f (f v w) = ws.foldl f (f (f e v) w)
    rw [habsorb]

end

end OpenCLCTS.Subgroups
