import Mathlib.Data.Int.Order.Basic
import Mathlib.Logic.OpClass
import Mathlib.Order.MinMax
import OpenCLCTS.C11Atomics.HostAtomics

/-!
# The calls of `host_atomic_fetch_*`

Addition and subtraction are one builtin.  The other operations load the variable,
compute the new value, and try to swap it in until the variable still has the value
that the new one was computed from.  `Call.step_cases` is what the tests need to
know of this: a step of a call leaves the variable alone, or it is the last one, and
then it updates the variable and returns the value it had.
-/

namespace OpenCLCTS.C11Atomics

/-- `sizeof(HostDataType)`. -/
def HostType.sizeof (T : HostType) : ℕ := T.bits / 8

/-- `MaxValue` and `MinValue` of the type. -/
def HostType.maxValue (T : HostType) : T.Data :=
  if T.signed then BitVec.intMax T.bits else BitVec.allOnes T.bits

def HostType.minValue (T : HostType) : T.Data := if T.signed then BitVec.intMin T.bits else 0

/-- `<` of the type. -/
def HostType.lt (T : HostType) (a b : T.Data) : Bool := if T.signed then a.slt b else a.ult b

/-- `(HostDataType)1 << i`. -/
def bit (T : HostType) (i : ℕ) : T.Data := (1 : T.Data) <<< i

inductive FetchOp
  | add
  | sub
  | or
  | xor
  | and
  | min
  | max
  deriving DecidableEq

/-- The new value of a variable that holds `a`. -/
def FetchOp.apply (T : HostType) (op : FetchOp) (a c : T.Data) : T.Data :=
  match op with
  | .add => a + c
  | .sub => a - c
  | .or => a ||| c
  | .xor => a ^^^ c
  | .and => a &&& c
  | .min => if T.lt a c then a else c
  | .max => if T.lt c a then a else c

/-- `__sync_fetch_and_add` and `__sync_fetch_and_sub`: the result, and the variable
afterwards. -/
def syncFetchAndAdd {T : HostType} (a c : T.Data) : T.Data × T.Data := (a, a + c)
def syncFetchAndSub {T : HostType} (a c : T.Data) : T.Data × T.Data := (a, a - c)

/-- Where a call with operand `c` stands. -/
inductive Call (T : HostType)
  /-- before the builtin, or before the load -/
  | start (c : T.Data)
  /-- before the swap -/
  | swap (c expected : T.Data)

def Call.operand {T : HostType} : Call T → T.Data
  | .start c | .swap c _ => c

/-- The next atomic step of a call on a variable that holds `a`: where the call
stands then, or the value it returns, and the variable afterwards. -/
def Call.step {T : HostType} (op : FetchOp) (call : Call T) (a : T.Data) :
    (Call T ⊕ T.Data) × T.Data :=
  match op, call with
  | .add, .start c =>
    let (value, a) := syncFetchAndAdd a c
    (.inr value, a)
  | .sub, .start c =>
    let (value, a) := syncFetchAndSub a c
    (.inr value, a)
  | _, .start c => (.inl (.swap c (hostAtomicLoad a)), a)
  | _, .swap c expected =>
    let desired := op.apply T expected c
    let (tmp, a) := syncValCompareAndSwap a expected desired
    let (success, expected) := compareExchangeResult tmp expected
    if success then (.inr expected, a) else (.inl (.swap c expected), a)

variable {T : HostType}

theorem Call.step_swap (op : FetchOp) (c expected a : T.Data) :
    (Call.swap c expected).step op a =
      if a = expected then (.inr a, op.apply T a c) else (.inl (.swap c a), a) := by
  have hstep : (Call.swap c expected).step op a =
      if (compareExchangeResult a expected).1 then
        (.inr (compareExchangeResult a expected).2, if a = expected then op.apply T expected c else a)
      else (.inl (.swap c (compareExchangeResult a expected).2),
        if a = expected then op.apply T expected c else a) := by
    cases op <;> rfl
  rw [hstep, compareExchangeResult]
  by_cases h : a = expected
  · subst h
    simp only [if_pos]
  · simp only [if_neg h, Bool.false_eq_true, if_false]

/-- **A call takes effect in its last step**, which returns the value the variable
had; the steps before it change nothing. -/
theorem Call.step_cases (op : FetchOp) (call : Call T) (a : T.Data) :
    (∃ call', call'.operand = call.operand ∧ call.step op a = (.inl call', a)) ∨
      call.step op a = (.inr a, op.apply T a call.operand) := by
  cases call with
  | start c =>
    cases op with
    | add | sub => exact .inr rfl
    | or | xor | and | min | max => exact .inl ⟨.swap c a, rfl, rfl⟩
  | swap c expected =>
    rw [Call.step_swap]
    by_cases h : a = expected
    · exact .inr (if_pos h)
    · exact .inl ⟨.swap c a, rfl, if_neg h⟩

theorem HostType.sizeof_mul (T : HostType) : T.sizeof * 8 = T.bits := by
  rcases T.bits_eq with h | h <;> rw [sizeof, h]

theorem HostType.bits_pos (T : HostType) : 0 < T.bits := by
  rcases T.bits_eq with h | h <;> omega

theorem getLsbD_bit (i j : ℕ) : (bit T i).getLsbD j = (decide (i < T.bits) && decide (i = j)) := by
  rw [bit, ← BitVec.getLsbD_twoPow, BitVec.twoPow_eq]
  rfl

theorem getLsbD_bit_self {j : ℕ} (hj : j < T.bits) : (bit T j).getLsbD j = true := by
  rw [getLsbD_bit, decide_eq_true hj, decide_eq_true rfl, Bool.and_self]

theorem getLsbD_bit_of_ne {i j : ℕ} (h : i ≠ j) : (bit T i).getLsbD j = false := by
  rw [getLsbD_bit, decide_eq_false h, Bool.and_false]

theorem getLsbD_zero (j : ℕ) : (0 : T.Data).getLsbD j = false := BitVec.getLsbD_zero

/-! ### The operations commute -/

/-- The number that a value stands for. -/
def HostType.key (T : HostType) (a : T.Data) : ℤ := if T.signed then a.toInt else a.toNat

theorem HostType.key_injective (T : HostType) : Function.Injective T.key := by
  intro a b h
  unfold key at h
  split at h
  · exact BitVec.eq_of_toInt_eq h
  · exact BitVec.eq_of_toNat_eq (Int.natCast_inj.mp h)

theorem HostType.lt_iff (T : HostType) (a b : T.Data) : T.lt a b = true ↔ T.key a < T.key b := by
  unfold lt key
  split
  · exact BitVec.slt_iff_toInt_lt
  · rw [BitVec.ult_iff_lt, BitVec.lt_def, Int.ofNat_lt]

theorem key_min (a c : T.Data) :
    T.key (FetchOp.min.apply T a c) = min (T.key a) (T.key c) := by
  by_cases h : T.lt a c = true
  · rw [FetchOp.apply, if_pos h, min_eq_left ((T.lt_iff a c).mp h).le]
  · rw [FetchOp.apply, if_neg h, min_eq_right (not_lt.mp fun hlt => h ((T.lt_iff a c).mpr hlt))]

theorem key_max (a c : T.Data) :
    T.key (FetchOp.max.apply T a c) = max (T.key a) (T.key c) := by
  by_cases h : T.lt c a = true
  · rw [FetchOp.apply, if_pos h, max_eq_left ((T.lt_iff c a).mp h).le]
  · rw [FetchOp.apply, if_neg h, max_eq_right (not_lt.mp fun hlt => h ((T.lt_iff c a).mpr hlt))]

/-- **Two operations of the same kind can change places.** -/
theorem FetchOp.apply_right_comm (op : FetchOp) (a b c : T.Data) :
    op.apply T (op.apply T a b) c = op.apply T (op.apply T a c) b := by
  cases op with
  | add =>
    show a + b + c = a + c + b
    rw [BitVec.add_assoc, BitVec.add_comm b c, BitVec.add_assoc]
  | sub =>
    show a - b - c = a - c - b
    simp only [BitVec.sub_eq_add_neg]
    rw [BitVec.add_assoc, BitVec.add_comm (-b), BitVec.add_assoc]
  | or =>
    show a ||| b ||| c = a ||| c ||| b
    rw [BitVec.or_assoc, BitVec.or_comm b c, BitVec.or_assoc]
  | xor =>
    show a ^^^ b ^^^ c = a ^^^ c ^^^ b
    rw [BitVec.xor_assoc, BitVec.xor_comm b c, BitVec.xor_assoc]
  | and =>
    show a &&& b &&& c = a &&& c &&& b
    rw [BitVec.and_assoc, BitVec.and_comm b c, BitVec.and_assoc]
  | min =>
    apply T.key_injective
    rw [key_min, key_min, key_min, key_min, min_right_comm]
  | max =>
    apply T.key_injective
    rw [key_max, key_max, key_max, key_max, max_right_comm]

instance (op : FetchOp) : RightCommutative (op.apply T) := ⟨op.apply_right_comm⟩

end OpenCLCTS.C11Atomics
