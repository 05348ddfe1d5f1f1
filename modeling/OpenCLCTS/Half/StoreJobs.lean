import Mathlib.Algebra.Order.Ring.Nat
import Mathlib.Data.Set.Lattice
import Mathlib.Order.CompletePartialOrder
import Mathlib.Order.Interval.Set.Basic
import Mathlib.Tactic.Ring
import OpenCLCTS.Lib.Loops

/-!
# The jobs of `vstore_half`

A block of elements is divided among the jobs of the thread pool, each of which finds its range from
its number.  All numbers are of type `cl_uint`.

* `isPartition_iff`: **the ranges are a partition of the block just if no job starts behind it and
  no range ends behind `2 ^ 32`.**
* `references_block`: what the jobs compute together, in any order.
* `checks_iff`: the jobs accept the output just if every element is accepted.
-/

namespace OpenCLCTS.Half

open Loops

/-! ### The jobs -/

/-- `fref.count`, of which the sum has the type `size_t`. -/
def partCount (blockCount threadCount : BitVec 32) : BitVec 32 :=
  BitVec.ofNat 32 ((blockCount.toNat + threadCount.toNat - 1) / threadCount.toNat)

section

variable (lim count jid : BitVec 32)

/-- `off`. -/
def off : BitVec 32 := jid * count

/-- `count`, after `if (off + count > lim) count = lim - off;`. -/
def trimmed : BitVec 32 := if lim < off count jid + count then lim - off count jid else count

/-- The elements of a job. -/
def elements : Set ℕ :=
  Set.Ico (off count jid).toNat ((off count jid).toNat + (trimmed lim count jid).toNat)

end

/-- The arrays `x` and `r` of a `ComputeReferenceInfo`. -/
structure Arrays (X : Type*) where
  x : ℕ → X
  r : ℕ → BitVec 16

section

variable {X : Type*} (input : BitVec 32 → X) (f : X → BitVec 16)

/-- `x[j] = ...; r[j] = f(x[j]);`, where `j` is counted from the start of the arrays. -/
def storeReference (i : BitVec 64) (arrays : Arrays X) (j : ℕ) : Arrays X where
  x := Function.update arrays.x j (input ((i + BitVec.ofNat 64 j).setWidth 32))
  r := Function.update arrays.r j (f (input ((i + BitVec.ofNat 64 j).setWidth 32)))

/-- `ReferenceF` and `ReferenceD`. -/
def reference (i : BitVec 64) (lim count jid : BitVec 32) (arrays : Arrays X) : Arrays X :=
  (List.range' (off count jid).toNat (trimmed lim count jid).toNat).foldl (storeReference input f i)
    arrays

variable (embedded : Bool) (subnormal : X → Bool)

/-- `IsHalfSubnormal`. -/
def isHalfSubnormal (x : BitVec 16) : Bool := (x &&& 0x7fff).setWidth 32 - 1#32 < 0x03ff#32

/-- The elements for which the loop of the check goes on. -/
def accepted (x : X) (r s : BitVec 16) (correct2 correct3 : BitVec 16) : Bool :=
  s == r || (0x7c00 < s &&& 0x7fff && 0x7c00 < r &&& 0x7fff)
    || (subnormal x && (s == correct2 || s == correct3))
    || (embedded && isHalfSubnormal r && (s == 0x0000 || s == 0x8000))

/-- `CheckF` and `CheckD`; `zero` and `minusZero` are the two zeros. -/
def check (zero minusZero : X) (arrays : Arrays X) (s : ℕ → BitVec 16) (lim count jid : BitVec 32) :
    ℤ :=
  let start := (off count jid).toNat
  let n := (trimmed lim count jid).toNat
  if (List.range' start n).all fun j => arrays.r j == s j then 0
  else if (List.range' start n).all fun j =>
    accepted embedded subnormal (arrays.x j) (arrays.r j) (s j) (f zero) (f minusZero) then 0
  else 1

end

/-- `IsFloatSubnormal`. -/
def isFloatSubnormal (x : BitVec 32) : Bool := (x &&& 0x7fffffff) - 1 < 0x007fffff

/-- `IsDoubleSubnormal`. -/
def isDoubleSubnormal (x : BitVec 64) : Bool := (x &&& 0x7fffffffffffffff) - 1 < 0x000fffffffffffff

/-- `DoubleFromUInt`. -/
def doubleFromUInt (bits : BitVec 32) : BitVec 64 :=
  (((bits &&& ~~~0xff).setWidth 64 <<< 32) ||| (bits &&& 0xff).setWidth 64)
    - ((bits &&& 0x80) <<< 1).setWidth 64

/-- `ReferenceF`. -/
def referenceF := reference (X := BitVec 32) id

/-- `ReferenceD`. -/
def referenceD := reference doubleFromUInt

/-- `CheckF`. -/
def checkF (f : BitVec 32 → BitVec 16) (embedded : Bool) :=
  check f embedded isFloatSubnormal 0 0x80000000

/-- `CheckD`. -/
def checkD (f : BitVec 64 → BitVec 16) (embedded : Bool) :=
  check f embedded isDoubleSubnormal 0 0x8000000000000000

/-! ### The partition -/

/-- The ranges of the jobs are a partition of the block. -/
structure IsPartition (lim count threadCount : BitVec 32) : Prop where
  disjoint : ∀ jid jid', jid < threadCount → jid' < threadCount → jid ≠ jid' →
    Disjoint (elements lim count jid) (elements lim count jid')
  inside : ∀ jid < threadCount, ∀ k ∈ elements lim count jid, k < lim.toNat
  union : ∀ k < lim.toNat, ∃ jid < threadCount, k ∈ elements lim count jid

section

variable {lim threadCount count jid : BitVec 32} {j : ℕ}

theorem off_toNat : (off count jid).toNat = jid.toNat * count.toNat % 2 ^ 32 :=
  BitVec.toNat_mul ..

theorem trimmed_toNat : (trimmed lim count jid).toNat
    = if lim.toNat < ((off count jid).toNat + count.toNat) % 2 ^ 32 then
        (2 ^ 32 - (off count jid).toNat + lim.toNat) % 2 ^ 32
      else count.toNat := by
  rw [trimmed, apply_ite BitVec.toNat, BitVec.toNat_sub]
  exact if_congr (by rw [BitVec.lt_def, BitVec.toNat_add]) rfl rfl

theorem partCount_bounds (hlim : 0 < lim.toNat) (hT : 0 < threadCount.toNat) :
    0 < (partCount lim threadCount).toNat ∧ (partCount lim threadCount).toNat ≤ lim.toNat ∧
      lim.toNat ≤ threadCount.toNat * (partCount lim threadCount).toNat := by
  have hlt := lim.isLt
  have hdiv := Nat.div_add_mod (lim.toNat + threadCount.toNat - 1) threadCount.toNat
  have hmod := Nat.mod_lt (lim.toNat + threadCount.toNat - 1) hT
  have hle : (lim.toNat + threadCount.toNat - 1) / threadCount.toNat ≤ lim.toNat := by
    rw [Nat.div_le_iff_le_mul_add_pred hT]
    have := Nat.le_mul_of_pos_left lim.toNat hT
    omega
  have hpos : 0 < (lim.toNat + threadCount.toNat - 1) / threadCount.toNat :=
    Nat.div_pos (by omega) hT
  have htoNat : (partCount lim threadCount).toNat
      = (lim.toNat + threadCount.toNat - 1) / threadCount.toNat := by
    rw [partCount, BitVec.toNat_ofNat, Nat.mod_eq_of_lt (by omega)]
  rw [htoNat]
  exact ⟨hpos, hle, by omega⟩

/-- What the ranges need: no job starts behind the block, and no range ends behind `2 ^ 32`. -/
def Fits (lim count threadCount : BitVec 32) : Prop :=
  count.toNat * (threadCount.toNat - 1) ≤ lim.toNat ∧ count.toNat * threadCount.toNat < 2 ^ 32

/-- **A range is a part of the block**, cut off at its end. -/
theorem elements_eq (hfits : Fits lim count threadCount) (hjid : jid < threadCount) :
    elements lim count jid
      = Set.Ico (jid.toNat * count.toNat) (min ((jid.toNat + 1) * count.toNat) lim.toNat) := by
  have hlt := lim.isLt
  have hjid : jid.toNat < threadCount.toNat := BitVec.lt_def.mp hjid
  have hstart : jid.toNat * count.toNat ≤ lim.toNat := by
    refine le_trans ?_ hfits.1
    rw [Nat.mul_comm]
    exact Nat.mul_le_mul_left _ (by omega)
  have hend : (jid.toNat + 1) * count.toNat < 2 ^ 32 := by
    refine lt_of_le_of_lt ?_ hfits.2
    rw [Nat.mul_comm]
    exact Nat.mul_le_mul_left _ (by omega)
  rw [Nat.succ_mul] at hend ⊢
  rw [elements, trimmed_toNat, off_toNat, Nat.mod_eq_of_lt (by omega), Nat.mod_eq_of_lt hend]
  congr 1
  split
  · omega
  · omega

theorem not_inside_of_behind (hcount : 0 < count.toNat) (hlt : lim.toNat < jid.toNat * count.toNat)
    (hoff : jid.toNat * count.toNat < 2 ^ 32) :
    ∃ k ∈ elements lim count jid, lim.toNat ≤ k := by
  refine ⟨jid.toNat * count.toNat, ?_, hlt.le⟩
  rw [elements, trimmed_toNat, off_toNat, Nat.mod_eq_of_lt hoff]
  constructor
  · exact le_rfl
  · split
    · rw [Nat.mod_eq_of_lt (by omega)]
      omega
    · omega

/-- A range that ends behind `2 ^ 32`, which is not seen. -/
theorem not_inside_of_overflow (hcount : 0 < count.toNat) (hle : count.toNat ≤ lim.toNat)
    (hoff : jid.toNat * count.toNat ≤ lim.toNat) (hend : 2 ^ 32 ≤ (jid.toNat + 1) * count.toNat) :
    ∃ k ∈ elements lim count jid, lim.toNat ≤ k := by
  have hlt := lim.isLt
  rw [Nat.succ_mul] at hend
  refine ⟨jid.toNat * count.toNat + count.toNat - 1, ?_, by omega⟩
  rw [elements, trimmed_toNat, off_toNat, Nat.mod_eq_of_lt (by omega : _ < 2 ^ 32), if_neg]
  · constructor
    · omega
    · omega
  · rw [Nat.mod_eq_sub_mod hend, Nat.mod_eq_of_lt (by omega)]
    omega

/-- **Otherwise some job leaves the block.** -/
theorem exists_outside (hlim : 0 < lim.toNat) (hT : 0 < threadCount.toNat)
    (hfits : ¬ Fits lim (partCount lim threadCount) threadCount) :
    ∃ jid < threadCount, ∃ k ∈ elements lim (partCount lim threadCount) jid, lim.toNat ≤ k := by
  obtain ⟨hcount, hle, -⟩ := partCount_bounds hlim hT
  generalize partCount lim threadCount = count at hcount hle hfits ⊢
  have hTlt := threadCount.isLt
  -- the last job that does not start behind the block
  have hdiv := Nat.div_mul_le_self lim.toNat count.toNat
  have hnext : lim.toNat < (lim.toNat / count.toNat + 1) * count.toNat := by
    rw [Nat.mul_comm]
    exact Nat.lt_mul_div_succ lim.toNat hcount
  have hofNat (j : ℕ) (hj : j < threadCount.toNat) :
      BitVec.ofNat 32 j < threadCount ∧ (BitVec.ofNat 32 j).toNat = j := by
    have htoNat : (BitVec.ofNat 32 j).toNat = j := by
      rw [BitVec.toNat_ofNat, Nat.mod_eq_of_lt (by omega)]
    exact ⟨by rwa [BitVec.lt_def, htoNat], htoNat⟩
  by_cases hbehind : lim.toNat / count.toNat + 1 < threadCount.toNat
  · rcases Nat.lt_or_ge ((lim.toNat / count.toNat + 1) * count.toNat) (2 ^ 32) with hoff | hend
    · obtain ⟨hjid, htoNat⟩ := hofNat _ hbehind
      exact ⟨_, hjid, not_inside_of_behind hcount (by rwa [htoNat]) (by rwa [htoNat])⟩
    · obtain ⟨hjid, htoNat⟩ := hofNat (lim.toNat / count.toNat) (by omega)
      exact ⟨_, hjid, not_inside_of_overflow hcount hle (by rwa [htoNat]) (by rwa [htoNat])⟩
  · have hlast : (threadCount.toNat - 1) * count.toNat ≤ lim.toNat :=
      (Nat.mul_le_mul_right _ (by omega)).trans hdiv
    have hend : 2 ^ 32 ≤ (threadCount.toNat - 1 + 1) * count.toNat := by
      rw [Nat.sub_add_cancel hT, Nat.mul_comm]
      by_contra hlt
      exact hfits ⟨by rwa [Nat.mul_comm], not_le.mp hlt⟩
    obtain ⟨hjid, htoNat⟩ := hofNat (threadCount.toNat - 1) (by omega)
    exact ⟨_, hjid, not_inside_of_overflow hcount hle (by rwa [htoNat]) (by rwa [htoNat])⟩

/-- **The ranges are a partition of the block just if they fit.** -/
theorem isPartition_iff (hlim : 1 ≤ lim) (hT : 1 ≤ threadCount) :
    IsPartition lim (partCount lim threadCount) threadCount ↔
      Fits lim (partCount lim threadCount) threadCount := by
  have hlim : 0 < lim.toNat := BitVec.le_def.mp hlim
  have hT : 0 < threadCount.toNat := BitVec.le_def.mp hT
  obtain ⟨hcount, -, hcover⟩ := partCount_bounds hlim hT
  constructor
  · intro h
    by_contra hfits
    obtain ⟨jid, hjid, k, hk, hle⟩ := exists_outside hlim hT hfits
    exact absurd (h.inside jid hjid k hk) (not_lt.mpr hle)
  · intro hfits
    generalize partCount lim threadCount = count at hcount hcover hfits ⊢
    refine ⟨?_, ?_, ?_⟩
    · intro jid jid' hjid hjid' hne
      rw [elements_eq hfits hjid, elements_eq hfits hjid', Set.disjoint_left]
      rintro k ⟨hle, hlt⟩ ⟨hle', hlt'⟩
      have h1 : jid.toNat < jid'.toNat + 1 :=
        Nat.lt_of_mul_lt_mul_right (hle.trans_lt (hlt'.trans_le (min_le_left _ _)))
      have h2 : jid'.toNat < jid.toNat + 1 :=
        Nat.lt_of_mul_lt_mul_right (hle'.trans_lt (hlt.trans_le (min_le_left _ _)))
      exact hne (BitVec.eq_of_toNat_eq (by omega))
    · intro jid hjid k hk
      rw [elements_eq hfits hjid] at hk
      exact hk.2.trans_le (min_le_right _ _)
    · intro k hk
      have hTlt := threadCount.isLt
      have hj : k / count.toNat < threadCount.toNat :=
        (Nat.div_lt_iff_lt_mul hcount).mpr (hk.trans_le hcover)
      have htoNat : (BitVec.ofNat 32 (k / count.toNat)).toNat = k / count.toNat := by
        rw [BitVec.toNat_ofNat, Nat.mod_eq_of_lt (by omega)]
      have hjid : BitVec.ofNat 32 (k / count.toNat) < threadCount := by
        rwa [BitVec.lt_def, htoNat]
      refine ⟨_, hjid, ?_⟩
      rw [elements_eq hfits hjid, htoNat]
      refine ⟨Nat.div_mul_le_self _ _, lt_min ?_ hk⟩
      rw [Nat.mul_comm]
      exact Nat.lt_mul_div_succ k hcount

/-- The block of the test, with 8 threads. -/
theorem isPartition_eight : IsPartition 524288 (partCount 524288 8) 8 :=
  (isPartition_iff (by decide) (by decide)).mpr ⟨by decide, by decide⟩

/-- The block of the test, with 750 threads: job 749 starts behind it. -/
theorem not_isPartition : ¬ IsPartition 524288 (partCount 524288 750) 750 := by
  intro h
  have hmem : 524300 ∈ elements 524288 (partCount 524288 750) 749 := by
    constructor
    · decide
    · decide
  exact absurd (h.inside 749 (by decide) 524300 hmem) (by decide)

end

/-! ### What the jobs compute -/

section

variable {X : Type*} {input : BitVec 32 → X} {f : X → BitVec 16} {i : BitVec 64}
  {lim threadCount count jid : BitVec 32}

/-- The input of element `k`. -/
def inputAt (input : BitVec 32 → X) (i : BitVec 64) (k : ℕ) : X :=
  input ((i + BitVec.ofNat 64 k).setWidth 32)

/-- The elements of a set have been stored. -/
def Stored (input : BitVec 32 → X) (f : X → BitVec 16) (i : BitVec 64) (old : Arrays X) (S : Set ℕ)
    (arrays : Arrays X) : Prop :=
  (∀ k ∈ S, arrays.x k = inputAt input i k ∧ arrays.r k = f (inputAt input i k)) ∧
    ∀ k ∉ S, arrays.x k = old.x k ∧ arrays.r k = old.r k

theorem storeReference_stored (arrays : Arrays X) (j : ℕ) :
    Stored input f i arrays {j} (storeReference input f i arrays j) := by
  constructor
  · intro k hk
    have hk : k = j := hk
    subst hk
    exact ⟨Function.update_self .., Function.update_self ..⟩
  · intro k hk
    exact ⟨Function.update_of_ne hk .., Function.update_of_ne hk ..⟩

theorem Stored.trans {old mid arrays : Arrays X} {S T : Set ℕ} (h : Stored input f i old S mid)
    (h' : Stored input f i mid T arrays) : Stored input f i old (S ∪ T) arrays := by
  constructor
  · intro k hk
    by_cases hT : k ∈ T
    · exact h'.1 k hT
    · obtain ⟨hx, hr⟩ := h'.2 k hT
      rw [hx, hr]
      exact h.1 k (hk.resolve_right hT)
  · intro k hk
    obtain ⟨hx, hr⟩ := h'.2 k fun hT => hk (.inr hT)
    rw [hx, hr]
    exact h.2 k fun hS => hk (.inl hS)

theorem Stored.refl (arrays : Arrays X) : Stored input f i arrays ∅ arrays :=
  ⟨fun _ hk => hk.elim, fun _ _ => ⟨rfl, rfl⟩⟩

theorem reference_stored (arrays : Arrays X) : Stored input f i arrays (elements lim count jid)
    (reference input f i lim count jid arrays) := by
  have hstep : ∀ m s, (off count jid).toNat ≤ m →
      m < (off count jid).toNat + (trimmed lim count jid).toNat →
      Stored input f i arrays (Set.Ico (off count jid).toNat m) s →
      Stored input f i arrays (Set.Ico (off count jid).toNat (m + 1)) (storeReference input f i s m) := by
    intro m s hle _ hI
    have hset : Set.Ico (off count jid).toNat (m + 1) = Set.Ico (off count jid).toNat m ∪ {m} := by
      ext k
      simp only [Set.mem_Ico, Set.mem_union, Set.mem_singleton_iff]
      omega
    rw [hset]
    exact hI.trans (storeReference_stored s m)
  have hempty : Stored input f i arrays (Set.Ico (off count jid).toNat (off count jid).toNat) arrays := by
    rw [Set.Ico_self]
    exact Stored.refl arrays
  exact foldl_invariant hstep hempty

/-- The jobs, one behind the other in some order. -/
def references (input : BitVec 32 → X) (f : X → BitVec 16) (i : BitVec 64) (lim count : BitVec 32)
    (jobs : List (BitVec 32)) (arrays : Arrays X) : Arrays X :=
  jobs.foldl (fun arrays jid => reference input f i lim count jid arrays) arrays

theorem references_stored (jobs : List (BitVec 32)) (arrays : Arrays X) :
    Stored input f i arrays { k | ∃ jid ∈ jobs, k ∈ elements lim count jid }
      (references input f i lim count jobs arrays) := by
  induction jobs generalizing arrays with
  | nil =>
    have hempty : { k | ∃ jid ∈ ([] : List (BitVec 32)), k ∈ elements lim count jid } = ∅ := by simp
    rw [hempty]
    exact Stored.refl arrays
  | cons jid jobs ih =>
    have hset : { k | ∃ jid' ∈ jid :: jobs, k ∈ elements lim count jid' }
        = elements lim count jid ∪ { k | ∃ jid ∈ jobs, k ∈ elements lim count jid } := by
      ext k
      simp
    rw [hset]
    exact (reference_stored arrays).trans (ih _)

/-- **The block is stored, in any order of the jobs**, and nothing else is changed. -/
theorem references_block (hpart : IsPartition lim count threadCount) {jobs : List (BitVec 32)}
    (hjobs : ∀ jid, jid ∈ jobs ↔ jid < threadCount) (arrays : Arrays X) :
    Stored input f i arrays (Set.Iio lim.toNat) (references input f i lim count jobs arrays) := by
  have hset : { k | ∃ jid ∈ jobs, k ∈ elements lim count jid } = Set.Iio lim.toNat := by
    ext k
    simp only [hjobs, Set.mem_ofPred_eq, Set.mem_Iio]
    constructor
    · rintro ⟨jid, hjid, hk⟩
      exact hpart.inside jid hjid k hk
    · exact hpart.union k
  rw [← hset]
  exact references_stored jobs arrays

variable {embedded : Bool} {subnormal : X → Bool} {zero minusZero : X} {arrays : Arrays X}
  {s : ℕ → BitVec 16}

theorem check_eq_zero_iff : check f embedded subnormal zero minusZero arrays s lim count jid = 0 ↔
    ∀ k ∈ elements lim count jid, accepted embedded subnormal (arrays.x k) (arrays.r k) (s k) (f zero)
      (f minusZero) = true := by
  have hall (P : ℕ → Bool) :
      (List.range' (off count jid).toNat (trimmed lim count jid).toNat).all P = true ↔
        ∀ k ∈ elements lim count jid, P k = true := by
    simp only [List.all_eq_true, List.mem_range'_1, elements, Set.mem_Ico]
  rw [check]
  split
  · rename_i hsame
    refine iff_of_true rfl ?_
    intro k hk
    have heq : s k = arrays.r k := (beq_iff_eq.mp ((hall _).mp hsame k hk)).symm
    simp [accepted, heq]
  · split
    · rename_i hacc
      exact iff_of_true rfl ((hall _).mp hacc)
    · rename_i hacc
      exact iff_of_false (by decide) (mt (hall _).mpr hacc)

/-- **All jobs accept just if every element of the block is accepted.** -/
theorem checks_iff (hpart : IsPartition lim count threadCount) :
    (∀ jid < threadCount,
      check f embedded subnormal zero minusZero arrays s lim count jid = 0) ↔
      ∀ k < lim.toNat, accepted embedded subnormal (arrays.x k) (arrays.r k) (s k) (f zero)
        (f minusZero) = true := by
  simp only [check_eq_zero_iff]
  constructor
  · intro h k hk
    obtain ⟨jid, hjid, hmem⟩ := hpart.union k hk
    exact h jid hjid k hmem
  · intro h jid hjid k hk
    exact h k (hpart.inside jid hjid k hk)

end

end OpenCLCTS.Half
