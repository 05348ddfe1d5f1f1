import Mathlib.Algebra.BigOperators.Fin
import Mathlib.Data.BitVec
import OpenCLCTS.IntegerOps.Arithmetic
import OpenCLCTS.Lib.Loops

/-!
# The verifiers of pipes

Packets leave a pipe in any order, and the verifiers compare sums of what was written and of what
was read.  Sums do not depend on the order, and a packet that is changed changes the sum.

* `sums_eq`: what the loop computes.
* `verifyReadwrite_iff`: **a packet that is changed is found, but in the struct**, where both sums
  have to be wrong.
-/

namespace OpenCLCTS.Pipes

open Conversions Loops

/-! ### The verifiers -/

section

variable (acc t : CType) (inptr outptr : ℕ → BitVec t.bits) (n : ℕ)

/-- `sum_input` and `sum_output`, in variables of type `acc`. -/
def sums : BitVec acc.bits × BitVec acc.bits :=
  (List.range' 0 n).foldl (fun s i =>
    (s.1 + CType.convert t acc (inptr i), s.2 + CType.convert t acc (outptr i))) (0, 0)

/-- The verifiers of numbers. -/
def verifySums : ℤ :=
  let s := sums acc t inptr outptr n
  if s.1 ≠ s.2 then -1 else 0

end

/-- `verify_readwrite_int`. -/
def verifyReadwriteInt := verifySums .int .int

/-- `verify_readwrite_uint`. -/
def verifyReadwriteUint := verifySums .int .uint

/-- `verify_readwrite_short`. -/
def verifyReadwriteShort := verifySums .int .short

/-- `verify_readwrite_ushort`. -/
def verifyReadwriteUshort := verifySums .int .ushort

/-- `verify_readwrite_char`. -/
def verifyReadwriteChar := verifySums .int .schar

/-- `verify_readwrite_uchar`. -/
def verifyReadwriteUchar := verifySums .int .uchar

/-- `verify_readwrite_float`, which reads the bits as integers. -/
def verifyReadwriteFloat := verifySums .int .int

/-- `verify_readwrite_half`. -/
def verifyReadwriteHalf := verifySums .int .ushort

/-- `verify_readwrite_long`. -/
def verifyReadwriteLong := verifySums .long .long

/-- `verify_readwrite_ulong`. -/
def verifyReadwriteUlong := verifySums .ulong .ulong

/-- `verify_readwrite_double`, which reads the bits as integers. -/
def verifyReadwriteDouble := verifySums .long .long

structure TestStruct where
  a : BitVec 8
  b : BitVec 32
  deriving DecidableEq

/-- `verify_readwrite_struct`. -/
def verifyReadwriteStruct (inptr outptr : ℕ → TestStruct) (n : ℕ) : ℤ :=
  let chars := sums .int .schar (fun i => (inptr i).a) (fun i => (outptr i).a) n
  let ints := sums .int .int (fun i => (inptr i).b) (fun i => (outptr i).b) n
  if chars.1 ≠ chars.2 ∧ ints.1 ≠ ints.2 then -1 else 0

/-- The types of packets. -/
inductive Packet
  | int
  | uint
  | short
  | ushort
  | char
  | uchar
  | float
  | half
  | long
  | ulong
  | double
  | struct
  deriving DecidableEq

/-- The bits of a packet. -/
def Packet.Value : Packet → Type
  | .int | .uint | .float => BitVec 32
  | .short | .ushort | .half => BitVec 16
  | .char | .uchar => BitVec 8
  | .long | .ulong | .double => BitVec 64
  | .struct => TestStruct

/-- `verify_readwrite_<type>`. -/
def verifyReadwrite : (p : Packet) → (inptr outptr : ℕ → p.Value) → (n : ℕ) → ℤ
  | .int => verifyReadwriteInt
  | .uint => verifyReadwriteUint
  | .short => verifyReadwriteShort
  | .ushort => verifyReadwriteUshort
  | .char => verifyReadwriteChar
  | .uchar => verifyReadwriteUchar
  | .float => verifyReadwriteFloat
  | .half => verifyReadwriteHalf
  | .long => verifyReadwriteLong
  | .ulong => verifyReadwriteUlong
  | .double => verifyReadwriteDouble
  | .struct => verifyReadwriteStruct

/-! ### Sums -/

section

variable {M : Type*} [AddCommGroup M] {α : Type*} {n k : ℕ}

/-- The packets in another order. -/
def Reordered (n : ℕ) (x y : ℕ → α) : Prop := ∃ σ : Equiv.Perm (Fin n), ∀ i : Fin n, y i = x (σ i)

/-- **A sum does not depend on the order.** -/
theorem sum_reordered {x y : ℕ → α} (h : Reordered n x y) (g : α → M) :
    ∑ i ∈ Finset.range n, g (y i) = ∑ i ∈ Finset.range n, g (x i) := by
  obtain ⟨σ, hσ⟩ := h
  rw [Finset.sum_range, Finset.sum_range, ← Equiv.sum_comp σ fun i : Fin n => g (x i)]
  exact Finset.sum_congr rfl fun i _ => congrArg g (hσ i)

/-- **A sum with another summand is the same, just if the summand is.** -/
theorem sum_update_eq_iff (hk : k < n) (f : ℕ → M) (b : M) :
    ∑ i ∈ Finset.range n, Function.update f k b i = ∑ i ∈ Finset.range n, f i ↔ b = f k := by
  have hmem := Finset.mem_range.mpr hk
  rw [Finset.sum_update_of_mem hmem, Finset.sum_eq_add_sum_sdiff_singleton_of_mem hmem f,
    add_left_inj]

end

section

variable {acc t : CType} {inptr outptr : ℕ → BitVec t.bits} {n : ℕ}

/-- **What the loop computes.** -/
theorem sums_eq (acc : CType) (inptr outptr : ℕ → BitVec t.bits) (n : ℕ) :
    sums acc t inptr outptr n = (∑ i ∈ Finset.range n, CType.convert t acc (inptr i),
      ∑ i ∈ Finset.range n, CType.convert t acc (outptr i)) := by
  have hloop := foldl_invariant
    (f := fun (s : BitVec acc.bits × BitVec acc.bits) i =>
      (s.1 + CType.convert t acc (inptr i), s.2 + CType.convert t acc (outptr i)))
    (I := fun k s => s = (∑ i ∈ Finset.range k, CType.convert t acc (inptr i),
      ∑ i ∈ Finset.range k, CType.convert t acc (outptr i))) (a := 0) (n := n) ?_ (s := (0, 0)) ?_
  · rwa [Nat.zero_add] at hloop
  · rintro k s _ _ rfl
    rw [Finset.sum_range_succ, Finset.sum_range_succ]
  · simp

theorem convert_injective (h : t.bits ≤ acc.bits) : Function.Injective (CType.convert t acc) := by
  intro x y hxy
  refine BitVec.eq_of_getLsbD_eq ?_
  intro i hi
  rw [← CType.getLsbD_convert hi (lt_of_lt_of_le hi h) x, hxy,
    CType.getLsbD_convert hi (lt_of_lt_of_le hi h) y]

theorem sums_reordered (acc t : CType) {inptr outptr : ℕ → BitVec t.bits}
    (h : Reordered n inptr outptr) :
    (sums acc t inptr outptr n).1 = (sums acc t inptr outptr n).2 := by
  rw [sums_eq]
  exact (sum_reordered h (CType.convert t acc)).symm

/-- **The sums are different, if one packet was changed.** -/
theorem sums_update (acc t : CType) {inptr outptr : ℕ → BitVec t.bits}
    (h : Reordered n inptr outptr) (ht : t.bits ≤ acc.bits) {k : ℕ} (hk : k < n)
    (v : BitVec t.bits) :
    (sums acc t inptr (Function.update outptr k v) n).1
        = (sums acc t inptr (Function.update outptr k v) n).2 ↔ v = outptr k := by
  have hcomp : (fun i => CType.convert t acc (Function.update outptr k v i))
      = Function.update (fun i => CType.convert t acc (outptr i)) k (CType.convert t acc v) :=
    Function.comp_update (CType.convert t acc) outptr k v
  rw [sums_eq, ← sum_reordered h (CType.convert t acc), eq_comm, hcomp, sum_update_eq_iff hk]
  exact (convert_injective ht).eq_iff

theorem verifySums_reordered (h : Reordered n inptr outptr) : verifySums acc t inptr outptr n = 0 :=
  if_neg (not_not.mpr (sums_reordered acc t h))

theorem verifySums_update (h : Reordered n inptr outptr) (ht : t.bits ≤ acc.bits) {k : ℕ}
    (hk : k < n) {v : BitVec t.bits} (hv : v ≠ outptr k) :
    verifySums acc t inptr (Function.update outptr k v) n = -1 :=
  if_pos ((sums_update acc t h ht hk v).not.mpr hv)

end

/-! ### The struct -/

section

variable {inptr outptr : ℕ → TestStruct} {n k : ℕ} {v : TestStruct}

theorem Reordered.map {α β : Type*} {x y : ℕ → α} (h : Reordered n x y) (g : α → β) :
    Reordered n (fun i => g (x i)) fun i => g (y i) := by
  obtain ⟨σ, hσ⟩ := h
  exact ⟨σ, fun i => congrArg g (hσ i)⟩

theorem verifyStruct_reordered (h : Reordered n inptr outptr) :
    verifyReadwriteStruct inptr outptr n = 0 :=
  if_neg fun hne => hne.1 (sums_reordered .int .schar (h.map TestStruct.a))

/-- **A packet of the struct that was changed is found, if both of its fields were.** -/
theorem verifyStruct_update (h : Reordered n inptr outptr) (hk : k < n) :
    verifyReadwriteStruct inptr (Function.update outptr k v) n
      = if v.a ≠ (outptr k).a ∧ v.b ≠ (outptr k).b then -1 else 0 := by
  have ha := sums_update .int .schar (h.map TestStruct.a) (by decide) hk v.a
  have hb := sums_update .int .int (h.map TestStruct.b) (by decide) hk v.b
  have hcomp {β : Type} (g : TestStruct → β) : (fun i => g (Function.update outptr k v i))
      = Function.update (fun i => g (outptr i)) k (g v) := Function.comp_update g outptr k v
  rw [verifyReadwriteStruct, hcomp TestStruct.a, hcomp TestStruct.b]
  exact if_congr (and_congr ha.not hb.not) rfl rfl

end

/-! ### All packets -/

/-- A packet, or one field of it, has another value. -/
def Corrupted : (p : Packet) → (x v : p.Value) → Prop
  | .struct, x, v => (v.a ≠ x.a ∧ v.b = x.b) ∨ (v.a = x.a ∧ v.b ≠ x.b)
  | .int, x, v | .uint, x, v | .short, x, v | .ushort, x, v | .char, x, v | .uchar, x, v
  | .float, x, v | .half, x, v | .long, x, v | .ulong, x, v | .double, x, v => v ≠ x

/-- **Packets in any order are accepted; one that was changed is found just if it is no struct.** -/
theorem verifyReadwrite_iff (p : Packet) (n : ℕ) (inptr outptr : ℕ → p.Value)
    (h : Reordered n inptr outptr) :
    verifyReadwrite p inptr outptr n = 0 ∧
      ∀ k < n, ∀ v, Corrupted p (outptr k) v →
        (verifyReadwrite p inptr (Function.update outptr k v) n = -1 ↔ p ≠ .struct) := by
  cases p with
  | struct =>
    refine ⟨verifyStruct_reordered h, fun k hk v hv => iff_of_false ?_ (not_not.mpr rfl)⟩
    have hone : ¬ (v.a ≠ (outptr k).a ∧ v.b ≠ (outptr k).b) := by
      rintro ⟨ha, hb⟩
      rcases hv with hv | hv
      · exact hb hv.2
      · exact ha hv.1
    have haccept : verifyReadwrite .struct inptr (Function.update outptr k v) n = 0 :=
      (verifyStruct_update h hk).trans (if_neg hone)
    rw [haccept]
    decide
  | int | uint | short | ushort | char | uchar | float | half | long | ulong | double =>
    refine ⟨verifySums_reordered h, fun k hk v hv => iff_of_true ?_ (by decide)⟩
    exact verifySums_update h (by decide) hk hv

/-- Two packets of type `short` that are read the other way round. -/
theorem verifyReadwrite_iff_short :
    verifyReadwrite .short (fun i => BitVec.ofNat 16 i) (fun i => BitVec.ofNat 16 (1 - i)) 2 = 0 ∧
      ∀ k < 2, ∀ v, Corrupted .short (BitVec.ofNat 16 (1 - k)) v →
        (verifyReadwrite .short (fun i => BitVec.ofNat 16 i)
          (Function.update (fun i => BitVec.ofNat 16 (1 - i)) k v) 2 = -1 ↔
            Packet.short ≠ .struct) :=
  verifyReadwrite_iff .short 2 (fun i => BitVec.ofNat 16 i) (fun i => BitVec.ofNat 16 (1 - i))
    ⟨Equiv.swap 0 1, Fin.forall_fin_two.mpr ⟨rfl, rfl⟩⟩

/-- A struct whose first field is changed is accepted. -/
theorem not_rejected_struct : ¬ ∀ (p : Packet) (n : ℕ) (inptr outptr : ℕ → p.Value),
    Reordered n inptr outptr → verifyReadwrite p inptr outptr n = 0 ∧
      ∀ k < n, ∀ v, Corrupted p (outptr k) v →
        verifyReadwrite p inptr (Function.update outptr k v) n = -1 := by
  intro h
  have hreject := (h .struct 1 (fun _ => ⟨1, 2⟩) (fun _ => ⟨1, 2⟩) ⟨Equiv.refl _, fun _ => rfl⟩).2 0
    one_pos ⟨5, 2⟩ (.inl ⟨by decide, rfl⟩)
  exact absurd hreject (by decide)

end OpenCLCTS.Pipes
