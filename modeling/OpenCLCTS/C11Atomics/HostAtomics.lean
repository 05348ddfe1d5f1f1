import Mathlib.Logic.Function.Basic
import Mathlib.Tactic.Common
import Mathlib.Tactic.NormNum

/-!
# The host's atomic functions

`host_atomics.h` maps its functions to builtins of the compiler.  Each builtin is
one atomic step on one variable; here it is a function of the variable's value
that returns the builtin's result and the value it leaves behind.  A function that
calls more than one builtin is a loop of such steps, and belongs to the program of
the thread that runs it.

In interleavings of such steps the memory order of an access has no effect, and a
fence is no step.
-/

namespace OpenCLCTS.C11Atomics

/-- `TExplicitMemoryOrderType`. -/
inductive MemoryOrder
  | empty
  | relaxed
  | acquire
  | release
  | acqRel
  | seqCst
  deriving DecidableEq

/-! ### Data types -/

/-- The integer types on which the tests run: `HOST_INT`, `HOST_UINT`, `HOST_LONG`,
`HOST_ULONG` and their aliases. -/
structure HostType where
  bits : ℕ
  signed : Bool
  bits_eq : bits = 32 ∨ bits = 64

def HostType.int : HostType := ⟨32, true, .inl rfl⟩
def HostType.uint : HostType := ⟨32, false, .inl rfl⟩
def HostType.long : HostType := ⟨64, true, .inr rfl⟩
def HostType.ulong : HostType := ⟨64, false, .inr rfl⟩

/-- A value of the type, as its bits. -/
abbrev HostType.Data (T : HostType) := BitVec T.bits

/-- What the tests need of the template parameter `HostDataType`: the conversions
from and to `cl_uint`, a number below `2 ^ 32`.  `cl_float` holds the numbers up to
`2 ^ 24`, and the other types hold more. -/
class HostDataType (α : Type*) where
  ofUint : ℕ → α
  toUint : α → ℕ
  toUint_ofUint : ∀ x ≤ 2 ^ 24, toUint (ofUint x) = x

export HostDataType (ofUint toUint toUint_ofUint)

instance (T : HostType) : HostDataType T.Data where
  ofUint x := BitVec.ofNat T.bits x
  toUint v := v.toNat % 2 ^ 32
  toUint_ofUint x hx := by
    rw [BitVec.toNat_ofNat]
    rcases T.bits_eq with h | h <;> rw [h] <;> norm_num at hx ⊢ <;> omega

theorem ofUint_injective {α : Type*} [HostDataType α] {x y : ℕ} (hx : x ≤ 2 ^ 24)
    (hy : y ≤ 2 ^ 24) (h : ofUint x = (ofUint y : α)) : x = y := by
  rw [← toUint_ofUint (α := α) x hx, ← toUint_ofUint (α := α) y hy, h]

/-! ### The builtins -/

variable {α : Type*}

/-- `__sync_lock_test_and_set`, which is `host_atomic_exchange`. -/
def hostAtomicExchange (a c : α) : α × α := (a, c)

/-- `__sync_add_and_fetch` of zero. -/
def hostAtomicLoad (a : α) : α := a

/-- `host_atomic_store` drops the result of the exchange. -/
def hostAtomicStore (a c : α) : α := (hostAtomicExchange a c).2

/-- `__sync_val_compare_and_swap`. -/
def syncValCompareAndSwap [DecidableEq α] (a expected desired : α) : α × α :=
  (a, if a = expected then desired else a)

/-- What `host_atomic_compare_exchange` does with `tmp`, the value the swap
returned: the result, and `*expected` afterwards. -/
def compareExchangeResult [DecidableEq α] (tmp expected : α) : Bool × α :=
  if tmp = expected then (true, expected) else (false, tmp)

@[simp] theorem hostAtomicLoad_eq (a : α) : hostAtomicLoad a = a := rfl
@[simp] theorem hostAtomicStore_eq (a c : α) : hostAtomicStore a c = c := rfl
@[simp] theorem hostAtomicExchange_eq (a c : α) : hostAtomicExchange a c = (a, c) := rfl

end OpenCLCTS.C11Atomics
