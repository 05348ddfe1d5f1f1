import Mathlib.Data.List.Basic
import OpenCLCTS.Conversions.Coverage

/-!
# Kernels of three components

The kernel that `MakeProgram` generates for vectors of size 3.  Its last work-item does not know how
many elements are left, and concludes it from the parity of its index.

* `allReads_perm`, `allWrites_eq`: each element is read and written once if the parity is right.
* `parity_two_pow`: it is right for powers of two from 2 on.
* `count_eq_two_pow`: `DoTest` uses no other sizes.
-/

namespace OpenCLCTS.Conversions

/-! ### The kernel -/

/-- A vector; `none` is a component that is not set. -/
structure Vec3 (α : Type*) where
  x : Option α
  y : Option α
  z : Option α

/-- `convert_<type>3`. -/
def Vec3.convert {α β : Type*} (convert : α → β) (v : Vec3 α) : Vec3 β where
  x := v.x.map convert
  y := v.y.map convert
  z := v.z.map convert

/-- The elements of `src` that are read, and those of `dest` that are written, with their values. -/
structure Accesses (β : Type*) where
  reads : List ℕ
  writes : List (ℕ × Option β)

section

variable {α β : Type*} (convert : α → β) (src : ℕ → α)

/-- The kernel, for the work-item `i`. -/
def kernel (i globalSize : ℕ) : Accesses β :=
  if i + 1 < globalSize then
    -- `vload3( i, src )` and `vstore3( ..., i, dest )`
    let out := Vec3.convert convert
      ⟨some (src (3 * i)), some (src (3 * i + 1)), some (src (3 * i + 2))⟩
    ⟨[3 * i, 3 * i + 1, 3 * i + 2], [(3 * i, out.x), (3 * i + 1, out.y), (3 * i + 2, out.z)]⟩
  else
    let even := 0 = i &&& 1
    let out := Vec3.convert convert
      ⟨some (src (3 * i)), if even then some (src (3 * i + 1)) else none, none⟩
    ⟨(if even then [3 * i + 1] else []) ++ [3 * i],
      (3 * i, out.x) :: if even then [(3 * i + 1, out.y)] else []⟩

/-- `workItemCount`. -/
def workItemCount (count vectorSize : ℕ) : ℕ := (count + vectorSize - 1) / vectorSize

/-- What all work-items read. -/
def allReads (count : ℕ) : List ℕ :=
  (List.range (workItemCount count 3)).flatMap fun i =>
    (kernel convert src i (workItemCount count 3)).reads

/-- What all work-items write. -/
def allWrites (count : ℕ) : List (ℕ × Option β) :=
  (List.range (workItemCount count 3)).flatMap fun i =>
    (kernel convert src i (workItemCount count 3)).writes

end

/-! ### What is accessed -/

section

variable {α β : Type*} {convert : α → β} {src : ℕ → α} {q count k : ℕ}

/-- The elements that a work-item should write. -/
def converted (convert : α → β) (src : ℕ → α) (j : ℕ) : ℕ × Option β := (j, some (convert (src j)))

theorem kernel_full {i : ℕ} (hi : i < q) : kernel convert src i (q + 1)
    = ⟨[3 * i, 3 * i + 1, 3 * i + 2],
      [converted convert src (3 * i), converted convert src (3 * i + 1),
        converted convert src (3 * i + 2)]⟩ := by
  rw [kernel, if_pos (by omega)]
  rfl

theorem kernel_last_even (hq : q % 2 = 0) : kernel convert src q (q + 1)
    = ⟨[3 * q + 1, 3 * q], [converted convert src (3 * q), converted convert src (3 * q + 1)]⟩ := by
  have heven : 0 = q &&& 1 := by rw [Nat.and_one_is_mod, hq]
  rw [kernel, if_neg (lt_irrefl _)]
  simp only [heven, if_true]
  rfl

theorem kernel_last_odd (hq : q % 2 = 1) : kernel convert src q (q + 1)
    = ⟨[3 * q], [converted convert src (3 * q)]⟩ := by
  have hodd : ¬ 0 = q &&& 1 := by
    rw [Nat.and_one_is_mod, hq]
    decide
  rw [kernel, if_neg (lt_irrefl _)]
  simp only [hodd, if_false]
  rfl

theorem flatMap_three {γ : Type*} (f : ℕ → γ) (q : ℕ) :
    (List.range q).flatMap (fun i => [f (3 * i), f (3 * i + 1), f (3 * i + 2)])
      = (List.range (3 * q)).map f := by
  induction q with
  | zero => rfl
  | succ q ih =>
    rw [List.range_succ, List.flatMap_append, ih, show 3 * (q + 1) = 3 * q + 1 + 1 + 1 by omega]
    simp [List.range_succ]

/-- The number of elements behind the last group of three, as the last work-item concludes it. -/
def ParityRight (count : ℕ) : Prop :=
  count % 3 = 2 ∧ count / 3 % 2 = 0 ∨ count % 3 = 1 ∧ count / 3 % 2 = 1

theorem workItemCount_eq (h : count % 3 ≠ 0) : workItemCount count 3 = count / 3 + 1 := by
  rw [workItemCount]
  omega

theorem allReads_split (h : count % 3 ≠ 0) : allReads convert src count
    = List.range (3 * (count / 3)) ++ (kernel convert src (count / 3) (count / 3 + 1)).reads := by
  have hfull : (List.range (count / 3)).flatMap
      (fun i => (kernel convert src i (count / 3 + 1)).reads) = List.range (3 * (count / 3)) := by
    rw [← List.map_id (List.range (3 * (count / 3))), ← flatMap_three]
    refine List.flatMap_congr ?_
    intro i hi
    rw [kernel_full (List.mem_range.mp hi)]
    rfl
  rw [allReads, workItemCount_eq h, List.range_succ, List.flatMap_append, hfull,
    List.flatMap_singleton]

theorem allWrites_split (h : count % 3 ≠ 0) : allWrites convert src count
    = (List.range (3 * (count / 3))).map (converted convert src)
      ++ (kernel convert src (count / 3) (count / 3 + 1)).writes := by
  have hfull : (List.range (count / 3)).flatMap
      (fun i => (kernel convert src i (count / 3 + 1)).writes)
        = (List.range (3 * (count / 3))).map (converted convert src) := by
    rw [← flatMap_three]
    refine List.flatMap_congr ?_
    intro i hi
    rw [kernel_full (List.mem_range.mp hi)]
  rw [allWrites, workItemCount_eq h, List.range_succ, List.flatMap_append, hfull,
    List.flatMap_singleton]

/-- **Each element is read once** if the parity is right. -/
theorem allReads_perm (h : ParityRight count) :
    (allReads convert src count).Perm (List.range count) := by
  rcases h with ⟨hrest, hparity⟩ | ⟨hrest, hparity⟩
  · have hcount : count = 3 * (count / 3) + 1 + 1 := by omega
    rw [allReads_split (by omega), kernel_last_even hparity]
    conv_rhs => rw [hcount, List.range_succ, List.range_succ, List.append_assoc]
    exact (List.Perm.swap _ _ _).append_left _
  · have hcount : count = 3 * (count / 3) + 1 := by omega
    rw [allReads_split (by omega), kernel_last_odd hparity]
    conv_rhs => rw [hcount, List.range_succ]

/-- **Each element is written once** if the parity is right. -/
theorem allWrites_eq (h : ParityRight count) :
    allWrites convert src count = (List.range count).map (converted convert src) := by
  rcases h with ⟨hrest, hparity⟩ | ⟨hrest, hparity⟩
  · have hcount : count = 3 * (count / 3) + 1 + 1 := by omega
    rw [allWrites_split (by omega), kernel_last_even hparity]
    conv_rhs => rw [hcount, List.range_succ, List.range_succ]
    simp
  · have hcount : count = 3 * (count / 3) + 1 := by omega
    rw [allWrites_split (by omega), kernel_last_odd hparity]
    conv_rhs => rw [hcount, List.range_succ]
    simp

/-- **Powers of two have 1 and 2 elements left in turn**, and so has the parity. -/
theorem parity_two_pow (hk : 1 ≤ k) : ParityRight (2 ^ k) := by
  induction k, hk using Nat.le_induction with
  | base => exact .inl (by decide)
  | succ k _ ih =>
    rw [ParityRight, Nat.pow_succ]
    rw [ParityRight] at ih
    omega

/-- **The kernel reads and writes every element once.**  The work-items come in some order. -/
theorem kernel_exact (convert : α → β) (src : ℕ → α) (hk : 1 ≤ k) :
    (allReads convert src (2 ^ k)).Perm (List.range (2 ^ k)) ∧
      (allWrites convert src (2 ^ k)).Perm
        ((List.range (2 ^ k)).map fun j => (j, some (convert (src j)))) :=
  ⟨allReads_perm (parity_two_pow hk), List.Perm.of_eq (allWrites_eq (parity_two_pow hk))⟩

theorem kernel_exact_four :
    (allReads Nat.succ id 4).Perm (List.range 4) ∧
      (allWrites Nat.succ id 4).Perm ((List.range 4).map fun j => (j, some (j + 1))) :=
  @kernel_exact ℕ ℕ 2 Nat.succ id (by decide)

end

/-! ### The sizes of `DoTest` -/

theorem blockCount_eq_two_pow (inType outType : Ty) :
    ∃ a, 17 ≤ a ∧ blockCount inType outType = 2 ^ a := by
  have hsize : max (gTypeSizes inType) (gTypeSizes outType) ∈ [2 ^ 0, 2 ^ 1, 2 ^ 2, 2 ^ 3] := by
    cases inType <;> cases outType <;> decide
  rw [blockCount, bufferSize]
  simp only [List.mem_cons, List.not_mem_nil, or_false] at hsize
  rcases hsize with h | h | h | h
  · exact ⟨20, by decide, by rw [h]; decide⟩
  · exact ⟨19, by decide, by rw [h]; decide⟩
  · exact ⟨18, by decide, by rw [h]; decide⟩
  · exact ⟨17, by decide, by rw [h]; decide⟩

theorem lastCase_eq_two_pow (inType : Ty) : ∃ b, 1 ≤ b ∧ lastCase inType = 2 ^ b := by
  cases inType
  case kuchar | kchar => exact ⟨8, by decide, by decide⟩
  case kushort | kshort | khalf => exact ⟨16, by decide, by decide⟩
  all_goals exact ⟨32, by decide, by decide⟩

/-- **The sizes are powers of two**, for blocks that start at multiples of their size: the steps of
the loop are multiples of it in all modes. -/
theorem count_eq_two_pow {inType outType : Ty} {start : ℕ}
    (hstart : blockCount inType outType ∣ start) (hlt : start < lastCase inType) :
    ∃ k, 1 ≤ k ∧ count inType outType start = 2 ^ k := by
  obtain ⟨a, ha, hblock⟩ := blockCount_eq_two_pow inType outType
  obtain ⟨b, hb, hlast⟩ := lastCase_eq_two_pow inType
  rw [hblock] at hstart
  rw [hlast] at hlt
  rw [count, hblock, hlast]
  obtain ⟨c, hc⟩ := hstart
  subst hc
  rcases Nat.le_total b a with hle | hle
  · have hpow : 2 ^ b ≤ 2 ^ a := Nat.pow_le_pow_right two_pos hle
    have hzero : c = 0 := by
      by_contra hne
      have := Nat.le_mul_of_pos_right (2 ^ a) (Nat.pos_of_ne_zero hne)
      omega
    subst hzero
    exact ⟨b, hb, by rw [Nat.mul_zero, Nat.sub_zero, min_eq_right hpow]⟩
  · obtain ⟨d, hd⟩ := Nat.pow_dvd_pow 2 hle
    refine ⟨a, by omega, min_eq_left ?_⟩
    rw [hd] at hlt ⊢
    have hcd : c + 1 ≤ d := Nat.lt_of_mul_lt_mul_left hlt
    have := Nat.mul_le_mul_left (2 ^ a) hcd
    rw [Nat.mul_succ] at this
    omega

end OpenCLCTS.Conversions
