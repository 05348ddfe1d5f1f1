import Mathlib.Tactic.Linarith
import OpenCLCTS.IntegerOps.Saturate

/-!
# Dot products

`calculate_reference` adds the products of a group of elements to an accumulator, in a `cl_long`.
It is clamped at the upper limit only.

* `accumulate_value`: the sum is exact.
* `calculateReference_iff`: **the sums are clamped just if none is below the lower limit.**
-/

namespace OpenCLCTS.IntegerOps

open Conversions

/-- `DstType`, `SrcTypeA` and `SrcTypeB` of `test_vectype` and `test_vectype_packed`. -/
def instances : List (CType × CType × CType) :=
  [(.uint, .uchar, .uchar), (.int, .schar, .schar), (.int, .uchar, .schar), (.int, .schar, .uchar)]

section

variable (D A B : CType) (N : ℕ) (a : List (BitVec A.bits)) (b : List (BitVec B.bits))

/-- `a[i] * b[i]`, which is an `int`, as a `cl_long`. -/
def productAt (i : ℕ) : BitVec CType.long.bits :=
  CType.convert .int .long
    (CType.convert A .int (a.getD i 0) * CType.convert B .int (b.getD i 0))

/-- The loop over the elements of group `r`. -/
def accumulate (r : ℕ) (result : BitVec CType.long.bits) : BitVec CType.long.bits :=
  (List.range N).foldl (fun result c => result + productAt A B a b (r * N + c)) result

/-- What is stored for a group. -/
def groupResult (accSat : Bool) (acc : List (BitVec D.bits)) (r : ℕ) : BitVec D.bits :=
  let result := accumulate A B N a b r (if accSat then CType.convert D .long (acc.getD r 0) else 0)
  let limit := BitVec.ofInt CType.long.bits D.greatest
  CType.convert .long D (if accSat && CType.long.lt limit result then limit else result)

/-- `calculate_reference`; `none` if an assertion fails. -/
def calculateReference (accSat : Bool) (acc : List (BitVec D.bits)) : Option (List (BitVec D.bits)) :=
  if a.length = b.length ∧ (accSat = false ∨ acc.length = a.length / N) then
    some ((List.range (a.length / N)).map (groupResult D A B N a b accSat acc))
  else none

/-- The sum of the first `n` products from element `i` on. -/
def dot (i : ℕ) : ℕ → ℤ
  | 0 => 0
  | n + 1 => dot i n + A.value (a.getD (i + n) 0) * B.value (b.getD (i + n) 0)

/-- The sum of a group and its accumulator. -/
def groupSum (accSat : Bool) (acc : List (BitVec D.bits)) (r : ℕ) : ℤ :=
  (if accSat then D.value (acc.getD r 0) else 0) + dot A B a b (r * N) N

/-- What should be stored. -/
def expectedResult (accSat : Bool) (acc : List (BitVec D.bits)) (r : ℕ) : ℤ :=
  let sum := groupSum D A B N a b accSat acc r
  if accSat then D.clamp sum else sum

end

/-! ### The sum -/

section

variable {D A B : CType} {N : ℕ} {a : List (BitVec A.bits)} {b : List (BitVec B.bits)}

theorem product_bounds (h : (D, A, B) ∈ instances) (x : BitVec A.bits) (y : BitVec B.bits) :
    (if D.signed then -2 ^ 15 else 0) ≤ A.value x * B.value y ∧ A.value x * B.value y < 2 ^ 16 := by
  have hx := CType.value_mem x
  have hy := CType.value_mem y
  generalize A.value x = u at hx
  generalize B.value y = v at hy
  simp only [instances, List.mem_cons, Prod.mk.injEq, List.not_mem_nil, or_false] at h
  rcases h with ⟨rfl, rfl, rfl⟩ | ⟨rfl, rfl, rfl⟩ | ⟨rfl, rfl, rfl⟩ | ⟨rfl, rfl, rfl⟩
  all_goals
    norm_num [CType.least, CType.greatest, CType.signed, CType.bits] at hx hy ⊢
    constructor
    · nlinarith
    · nlinarith

/-- The narrow types, and the results of 32 bits. -/
theorem instances_bits (h : (D, A, B) ∈ instances) :
    A.bits < 32 ∧ B.bits < 32 ∧ D.least = (if D.signed then -2 ^ 31 else 0) ∧
      2 ^ 31 ≤ D.greatest + 1 ∧ D.greatest < 2 ^ 32 := by
  simp only [instances, List.mem_cons, Prod.mk.injEq, List.not_mem_nil, or_false] at h
  rcases h with ⟨rfl, rfl, rfl⟩ | ⟨rfl, rfl, rfl⟩ | ⟨rfl, rfl, rfl⟩ | ⟨rfl, rfl, rfl⟩
  all_goals decide

theorem clInt_limits : CType.int.least = -2 ^ 31 ∧ CType.int.greatest = 2 ^ 31 - 1 := by
  decide

theorem clLong_limits : CType.long.least = -2 ^ 63 ∧ CType.long.greatest = 2 ^ 63 - 1 := by
  decide

/-- **A product is exact.** -/
theorem productAt_value (h : (D, A, B) ∈ instances) (i : ℕ) :
    CType.long.value (productAt A B a b i) = A.value (a.getD i 0) * B.value (b.getD i 0) := by
  obtain ⟨hA, hB, -⟩ := instances_bits h
  obtain ⟨hlo, hhi⟩ := product_bounds h (a.getD i 0) (b.getD i 0)
  have hlo' : -2 ^ 15 ≤ A.value (a.getD i 0) * B.value (b.getD i 0) := by
    split at hlo
    · exact hlo
    · omega
  have hfactors : CType.int.value (CType.convert A .int (a.getD i 0)) = A.value (a.getD i 0) ∧
      CType.int.value (CType.convert B .int (b.getD i 0)) = B.value (b.getD i 0) :=
    ⟨toClInt_toInt hA _, toClInt_toInt hB _⟩
  have hproduct : CType.int.value
      (CType.convert A .int (a.getD i 0) * CType.convert B .int (b.getD i 0))
        = A.value (a.getD i 0) * B.value (b.getD i 0) := by
    refine (CType.respects_mul .int _ _).trans ?_
    simp only [hfactors.1, hfactors.2]
    exact CType.wrap_eq_self (by rw [clInt_limits.1]; omega) (by rw [clInt_limits.2]; omega)
  rw [productAt, CType.value_convert, hproduct]
  · rw [hproduct, clLong_limits.1]
    omega
  · rw [hproduct, clLong_limits.2]
    omega

theorem dot_bounds (h : (D, A, B) ∈ instances) (i n : ℕ) :
    (if D.signed then -2 ^ 15 * (n : ℤ) else 0) ≤ dot A B a b i n ∧
      dot A B a b i n ≤ 2 ^ 16 * (n : ℤ) := by
  induction n with
  | zero => simp [dot]
  | succ n ih =>
    have hproduct := product_bounds h (a.getD (i + n) 0) (b.getD (i + n) 0)
    rw [dot]
    push_cast
    cases hs : D.signed with
    | true =>
      simp only [hs, if_true] at ih hproduct ⊢
      omega
    | false =>
      simp only [hs, Bool.false_eq_true, if_false] at ih hproduct ⊢
      omega

/-- **The sum of a group is exact** as long as it has 64 bits. -/
theorem accumulate_value (h : (D, A, B) ∈ instances) (r : ℕ)
    {result : BitVec CType.long.bits}
    (hlo : -2 ^ 31 ≤ CType.long.value result) (hhi : CType.long.value result < 2 ^ 32)
    (hN : N < 2 ^ 32) : CType.long.value (accumulate A B N a b r result)
      = CType.long.value result + dot A B a b (r * N) N := by
  suffices hsum : ∀ n ≤ N, CType.long.value
      ((List.range n).foldl (fun result c => result + productAt A B a b (r * N + c)) result)
        = CType.long.value result + dot A B a b (r * N) n from hsum N le_rfl
  intro n hn
  induction n with
  | zero => simp [dot]
  | succ n ih =>
    have hbounds := dot_bounds (a := a) (b := b) h (r * N) (n + 1)
    have hlo' : -2 ^ 15 * ((n + 1 : ℕ) : ℤ) ≤ dot A B a b (r * N) (n + 1) := by
      have hlo' := hbounds.1
      split at hlo'
      · exact hlo'
      · omega
    rw [dot] at hbounds hlo' ⊢
    rw [List.range_succ, List.foldl_append, List.foldl_cons, List.foldl_nil]
    refine (CType.respects_add .long _ _).trans ?_
    simp only [ih (by omega), productAt_value h, add_assoc]
    exact CType.wrap_eq_self (by rw [clLong_limits.1]; omega) (by rw [clLong_limits.2]; omega)

/-! ### The result of a group -/

variable {accSat : Bool} {acc : List (BitVec D.bits)}

theorem accumulator_value (h : (D, A, B) ∈ instances) (r : ℕ) :
    CType.long.value (if accSat then CType.convert D .long (acc.getD r 0) else 0)
        = (if accSat then D.value (acc.getD r 0) else 0) ∧
      -2 ^ 31 ≤ (if accSat then D.value (acc.getD r 0) else 0) ∧
      (if accSat then D.value (acc.getD r 0) else 0) < 2 ^ 32 := by
  obtain ⟨-, -, hleast, -, hgreatest⟩ := instances_bits h
  have hmem := CType.value_mem (acc.getD r 0)
  have hlo : -2 ^ 31 ≤ D.least := by
    rw [hleast]
    split
    · exact le_rfl
    · decide
  cases accSat with
  | true =>
    simp only [if_true]
    rw [CType.value_convert (by rw [clLong_limits.1]; omega) (by rw [clLong_limits.2]; omega)]
    exact ⟨rfl, by omega, by omega⟩
  | false => exact ⟨value_zero .long, by simp, by simp⟩

theorem groupResult_value (h : (D, A, B) ∈ instances) (hN : N < 2 ^ 32) (r : ℕ) :
    D.value (groupResult D A B N a b accSat acc r)
      = D.wrap (if accSat then min D.greatest (groupSum D A B N a b accSat acc r)
        else groupSum D A B N a b accSat acc r) := by
  obtain ⟨-, -, -, -, hgreatest⟩ := instances_bits h
  obtain ⟨hacc, hlo, hhi⟩ := @accumulator_value _ _ _ accSat acc h r
  have hpos := D.greatest_pos
  have hlimit : CType.long.value (BitVec.ofInt CType.long.bits D.greatest) = D.greatest := by
    rw [CType.value_ofInt]
    exact CType.wrap_eq_self (by rw [clLong_limits.1]; omega) (by rw [clLong_limits.2]; omega)
  have hsum : CType.long.value (accumulate A B N a b r
      (if accSat then CType.convert D .long (acc.getD r 0) else 0))
        = groupSum D A B N a b accSat acc r := by
    rw [accumulate_value h r (by rw [hacc]; exact hlo) (by rw [hacc]; exact hhi) hN, hacc, groupSum]
  rw [groupResult]
  refine CType.value_ofInt.trans (congrArg D.wrap ?_)
  simp only [apply_ite CType.long.value, Bool.and_eq_true, CType.lt_iff, hlimit, hsum]
  cases accSat with
  | true =>
    simp only [true_and, if_true]
    split
    · omega
    · omega
  | false => simp

/-- **A sum below the lower limit wraps**, and is stored as another number. -/
theorem groupResult_iff (h : (D, A, B) ∈ instances) (r : ℕ) :
    D.value (groupResult D A B 4 a b accSat acc r) = expectedResult D A B 4 a b accSat acc r ↔
      (accSat = true → D.least ≤ groupSum D A B 4 a b accSat acc r) := by
  obtain ⟨-, -, hleast, hgreatest, -⟩ := instances_bits h
  obtain ⟨hdotlo, hdothi⟩ := dot_bounds (a := a) (b := b) h (r * 4) 4
  have hdot : D.least ≤ dot A B a b (r * 4) 4 ∧ -2 ^ 17 ≤ dot A B a b (r * 4) 4 := by
    rw [hleast]
    split at hdotlo
    · rename_i hs
      rw [if_pos hs]
      omega
    · rename_i hs
      rw [if_neg hs]
      omega
  have hpos := D.greatest_pos
  have hnonpos := D.least_le_zero
  have hrange := two_pow_eq D
  rw [groupResult_value h (by decide), expectedResult, groupSum]
  generalize dot A B a b (r * 4) 4 = products at hdothi hdot
  cases accSat with
  | true =>
    have hmem := CType.value_mem (acc.getD r 0)
    simp only [if_true, true_imp_iff, CType.clamp]
    rw [wrap_cases (by omega) (by omega)]
    split_ifs <;> omega
  | false =>
    simp only [Bool.false_eq_true, if_false, false_imp_iff, iff_true, zero_add]
    exact CType.wrap_eq_self (by omega) (by omega)

/-- **`calculate_reference` stores the clamped sums just if none is below the lower limit.** -/
theorem calculateReference_iff (h : (D, A, B) ∈ instances) (accSat : Bool)
    (a : List (BitVec A.bits)) (b : List (BitVec B.bits)) (acc : List (BitVec D.bits))
    (hb : a.length = b.length) (hacc : accSat = true → acc.length = a.length / 4) :
    (calculateReference D A B 4 a b accSat acc).map (·.map D.value)
        = some ((List.range (a.length / 4)).map (expectedResult D A B 4 a b accSat acc)) ↔
      (accSat = true → ∀ r < a.length / 4, D.least ≤ groupSum D A B 4 a b accSat acc r) := by
  have hassert : a.length = b.length ∧ (accSat = false ∨ acc.length = a.length / 4) := by
    refine ⟨hb, ?_⟩
    cases accSat with
    | true => exact .inr (hacc rfl)
    | false => exact .inl rfl
  rw [calculateReference, if_pos hassert, Option.map_some, Option.some_inj, List.map_map,
    List.map_inj_left]
  simp only [List.mem_range, Function.comp_apply, groupResult_iff h]
  exact ⟨fun hall hsat r hr => hall r hr hsat, fun hall r hr hsat => hall hsat r hr⟩

end

/-- A group that is not below the limit, and one of unsigned numbers. -/
theorem calculateReference_clamps :
    (calculateReference .int .schar .schar 4 [127, 127, 0, 0] [127, 127, 0, 0] true [0x7fffffff]).map
        (·.map CType.int.value)
      = some ((List.range 1).map (expectedResult .int .schar .schar 4 [127, 127, 0, 0]
          [127, 127, 0, 0] true [0x7fffffff])) :=
  (@calculateReference_iff .int .schar .schar (by decide) true [127, 127, 0, 0] [127, 127, 0, 0]
    [0x7fffffff] rfl (by decide)).mpr (by decide)

/-- The least number and a product of -1 are stored as the greatest number. -/
theorem calculateReference_wraps :
    (calculateReference .int .schar .schar 4 [1, 0, 0, 0] [-1, 0, 0, 0] true [0x80000000]).map
        (·.map CType.int.value) = some [2 ^ 31 - 1] ∧
      (calculateReference .int .schar .schar 4 [1, 0, 0, 0] [-1, 0, 0, 0] true [0x80000000]).map
        (·.map CType.int.value) ≠ some ((List.range 1).map (expectedResult .int .schar .schar 4
          [1, 0, 0, 0] [-1, 0, 0, 0] true [0x80000000])) := by
  decide

end OpenCLCTS.IntegerOps
