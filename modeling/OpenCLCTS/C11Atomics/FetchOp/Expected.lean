import Mathlib.Data.BitVec
import Mathlib.Tactic.Ring
import OpenCLCTS.C11Atomics.FetchOp.Tests

/-!
# The expected values

`ExpectedValue` computes in its own loop what the calls of all threads make of a
variable.  For most operations it is the same loop; the tests that give each thread
a bit of its own (`or`, `and`) are compared bit by bit: bit `j` of variable `i` is
touched exactly if there is a thread `i * w + j`.

The number of these variables is computed in `cl_uint`, which overflows if the
number of threads is within the width of the type of `2 ^ 32`.
-/

namespace OpenCLCTS.C11Atomics.FetchOps

open Interleaving

variable {T : HostType} {n : ℕ}

theorem foldl_finRange {α : Type*} (g : α → ℕ → α) (n : ℕ) (a : α) :
    (List.finRange n).foldl (fun a (t : Fin n) => g a t) a = (List.range n).foldl g a := by
  rw [← List.map_coe_finRange_eq_range, List.foldl_map]

theorem sequential_single {test : FetchTest T} (hwhich : ∀ t, test.whichResult t = 0)
    (startRefValues : Fin n → T.Data) :
    test.sequential startRefValues 0 = (List.finRange n).foldl
      (fun a (t : Fin n) => (test.operands n t (startRefValues t)).foldl (test.op.apply T) a)
      test.startValue := by
  simp only [FetchTest.sequential, hwhich, if_true]

theorem fetchAdd_expected (startRefValues : Fin n → T.Data) :
    (fetchAdd T).sequential startRefValues 0 = (fetchAdd T).expectedValue n startRefValues 0 := by
  rw [sequential_single fun _ => rfl]
  refine (foldl_finRange (fun a i => a + operand3 T i + operand3 T i + operand3 T i
    + operand3 T i <<< topByte T) n 255).trans (congrFun (congrFun (congrArg _ ?_) _) _)
  funext a i
  ring

theorem fetchSub_expected (startRefValues : Fin n → T.Data) :
    (fetchSub T).sequential startRefValues 0 = (fetchSub T).expectedValue n startRefValues 0 := by
  rw [sequential_single fun _ => rfl]
  exact foldl_finRange (fun a i => a - (operand3 T i + operand3 T i <<< topByte T)) n 255

theorem fetchXor_expected (startRefValues : Fin n → T.Data) :
    (fetchXor T).sequential startRefValues 0 = (fetchXor T).expectedValue n startRefValues 0 := by
  rw [sequential_single fun _ => rfl]
  exact foldl_finRange (fun a i => a ^^^ bit T (xorBitIndex T n i)) n _

theorem fetchMin_expected (startRefValues : Fin n → T.Data) :
    (fetchMin T).sequential startRefValues 0 = (fetchMin T).expectedValue n startRefValues 0 := by
  rw [sequential_single fun _ => rfl]
  refine congrFun (congrFun (congrArg _ ?_) _) _
  funext a t
  apply T.key_injective
  refine (key_min a (startRefValues t)).trans ?_
  rw [min_comm]
  exact (key_min (startRefValues t) a).symm

theorem fetchMax_expected (startRefValues : Fin n → T.Data) :
    (fetchMax T).sequential startRefValues 0 = (fetchMax T).expectedValue n startRefValues 0 := by
  rw [sequential_single fun _ => rfl]
  refine congrFun (congrFun (congrArg _ ?_) _) _
  funext a t
  apply T.key_injective
  refine (key_max a (startRefValues t)).trans ?_
  rw [max_comm]
  exact (key_max (startRefValues t) a).symm

/-! ### A bit for each thread -/

theorem getLsbD_foldl_or {τ : Type*} (p : τ → Prop) [DecidablePred p] (g : τ → ℕ) (l : List τ)
    (a : T.Data) {j : ℕ} (hj : j < T.bits) :
    (l.foldl (fun a t => if p t then a ||| bit T (g t) else a) a).getLsbD j = true ↔
      a.getLsbD j = true ∨ ∃ t ∈ l, p t ∧ g t = j := by
  induction l generalizing a with
  | nil => simp
  | cons t l ih =>
    rw [List.foldl_cons, ih, List.exists_mem_cons_iff, ← or_assoc]
    refine or_congr ?_ Iff.rfl
    by_cases hp : p t
    · rw [if_pos hp, BitVec.getLsbD_or, getLsbD_bit, Bool.or_eq_true, Bool.and_eq_true,
        decide_eq_true_iff, decide_eq_true_iff]
      refine or_congr Iff.rfl ⟨fun h => ⟨hp, h.2⟩, fun h => ⟨h.2 ▸ hj, h.2⟩⟩
    · rw [if_neg hp]
      exact (or_iff_left fun h => hp h.1).symm

/-- Clearing bits in a loop is setting them in the complement. -/
theorem foldl_and_eq {τ : Type*} (p : τ → Prop) [DecidablePred p] (g : τ → ℕ) (l : List τ)
    (a : T.Data) :
    l.foldl (fun a t => if p t then a &&& ~~~bit T (g t) else a) (~~~a)
      = ~~~(l.foldl (fun a t => if p t then a ||| bit T (g t) else a) a) := by
  refine List.foldl_hom (fun a : T.Data => ~~~a) ?_
  intro a t
  split
  · exact BitVec.not_or.symm
  · rfl

theorem exists_tid_iff {w i j n : ℕ} (hw : w = 32 ∨ w = 64) (hj : j < w) :
    (∃ t ∈ List.range n, t / w = i ∧ t - t / w * w = j) ↔ i * w + j < n := by
  constructor
  · rintro ⟨t, ht, rfl, rfl⟩
    have hlt := List.mem_range.mp ht
    have hdiv := Nat.div_mul_le_self t w
    omega
  · intro h
    have hdiv : (i * w + j) / w = i := by
      rcases hw with rfl | rfl <;> omega
    exact ⟨i * w + j, List.mem_range.mpr h, hdiv, by rw [hdiv]; omega⟩

/-- What `NumResults` and `ExpectedValue` agree on if nothing overflows. -/
theorem numValues_eq {w n : ℕ} (hw : w = 32 ∨ w = 64) (hpos : 1 ≤ n) (hn : n + w ≤ 2 ^ 32) :
    ((n + (w - 1)) / w % 2 ^ 32 + 2 ^ 32 - 1) % 2 ^ 32 = (n - 1) / w ∧
      (n + w - 1) % 2 ^ 32 / w = (n - 1) / w + 1 := by
  rcases hw with rfl | rfl <;> omega

theorem fetchOr_sequential (startRefValues : Fin n → T.Data) (i : ℕ) :
    (fetchOr T).sequential startRefValues i = (List.range n).foldl
      (fun a t => if t / (T.sizeof * 8) = i then
        a ||| bit T (t - t / (T.sizeof * 8) * (T.sizeof * 8)) else a) 0 :=
  foldl_finRange (fun a t => if t / (T.sizeof * 8) = i then
    a ||| bit T (t - t / (T.sizeof * 8) * (T.sizeof * 8)) else a) n 0

theorem fetchOr_sequential_bit (startRefValues : Fin n → T.Data) {i j : ℕ} (hj : j < T.bits) :
    ((fetchOr T).sequential startRefValues i).getLsbD j = true ↔ i * T.bits + j < n := by
  rw [fetchOr_sequential, getLsbD_foldl_or _ _ _ _ hj, T.sizeof_mul, exists_tid_iff T.bits_eq hj]
  exact or_iff_right (by rw [getLsbD_zero]; exact nofun)

theorem numBits_eq {w n : ℕ} (hw : w = 32 ∨ w = 64) (hpos : 1 ≤ n) (hn : n + w ≤ 2 ^ 32) :
    sizeSub n ((n - 1) / w * w) = n - (n - 1) / w * w ∧
      sizeSub n ((n - 1) / w * w) % 2 ^ 32 = n - (n - 1) / w * w := by
  unfold sizeSub
  rcases hw with rfl | rfl <;> omega

theorem fetchOr_expected_bit (startRefValues : Fin n → T.Data) {i j : ℕ} (hpos : 1 ≤ n)
    (hn : n + T.bits ≤ 2 ^ 32) (hi : i < (fetchOr T).numResults n) (hj : j < T.bits) :
    ((fetchOr T).expectedValue n startRefValues i).getLsbD j = true ↔ i * T.bits + j < n := by
  obtain ⟨hvalues, hresults⟩ := numValues_eq T.bits_eq hpos hn
  have hi' : i < (n - 1) / T.bits + 1 := hresults ▸ hi
  have hlast : (n - 1) / T.bits * T.bits ≤ n - 1 := Nat.div_mul_le_self _ _
  simp only [fetchOr, numValues, T.sizeof_mul, hvalues]
  by_cases hfull : i < (n - 1) / T.bits
  · -- a variable all of whose bits have a thread
    have hnext : (i + 1) * T.bits ≤ (n - 1) / T.bits * T.bits := Nat.mul_le_mul_right _ hfull
    rw [Nat.succ_mul] at hnext
    rw [if_pos hfull, BitVec.getLsbD_not, getLsbD_zero]
    simp only [hj, decide_true, Bool.not_false, Bool.and_true, true_iff]
    omega
  · obtain rfl : i = (n - 1) / T.bits := by omega
    have hbits : (List.range (n - (n - 1) / T.bits * T.bits)).foldl
        (fun a i => a ||| bit T i) 0 = (List.range (n - (n - 1) / T.bits * T.bits)).foldl
        (fun a i => if True then a ||| bit T i else a) 0 := by
      simp only [if_true]
    rw [if_neg hfull, (numBits_eq T.bits_eq hpos hn).2, hbits, getLsbD_foldl_or _ _ _ _ hj]
    constructor
    · rintro (h | ⟨k, hk, _, rfl⟩)
      · rw [getLsbD_zero] at h
        cases h
      · have := List.mem_range.mp hk
        omega
    · intro h
      exact .inr ⟨j, List.mem_range.mpr (by omega), trivial, rfl⟩

theorem fetchOr_expected (startRefValues : Fin n → T.Data) {i : ℕ} (hpos : 1 ≤ n)
    (hn : n + T.bits ≤ 2 ^ 32) (hi : i < (fetchOr T).numResults n) :
    (fetchOr T).sequential startRefValues i = (fetchOr T).expectedValue n startRefValues i := by
  apply BitVec.eq_of_getLsbD_eq
  intro j hj
  rw [Bool.eq_iff_iff, fetchOr_sequential_bit startRefValues hj,
    fetchOr_expected_bit startRefValues hpos hn hi hj]

theorem fetchAnd_sequential (startRefValues : Fin n → T.Data) (i : ℕ) :
    (fetchAnd T).sequential startRefValues i = ~~~(fetchOr T).sequential startRefValues i := by
  rw [fetchOr_sequential, ← foldl_and_eq]
  exact foldl_finRange (fun a t => if t / (T.sizeof * 8) = i then
    a &&& ~~~bit T (t - t / (T.sizeof * 8) * (T.sizeof * 8)) else a) n (~~~0)

theorem fetchAnd_expectedValue (startRefValues : Fin n → T.Data) {i : ℕ} (hpos : 1 ≤ n)
    (hn : n + T.bits ≤ 2 ^ 32) (hi : i < (fetchAnd T).numResults n) :
    (fetchAnd T).expectedValue n startRefValues i
      = ~~~(fetchOr T).expectedValue n startRefValues i := by
  obtain ⟨hvalues, hresults⟩ := numValues_eq T.bits_eq hpos hn
  have hi' : i < (n - 1) / T.bits + 1 := hresults ▸ hi
  simp only [fetchAnd, fetchOr, numValues, T.sizeof_mul, hvalues]
  by_cases hfull : i < (n - 1) / T.bits
  · rw [if_pos hfull, if_pos hfull, BitVec.not_not]
  · obtain rfl : i = (n - 1) / T.bits := by omega
    obtain ⟨h1, h2⟩ := numBits_eq T.bits_eq hpos hn
    rw [if_neg hfull, if_neg hfull, h2, h1]
    have hand := foldl_and_eq (T := T) (fun _ => True) (fun i => i)
      (List.range (n - (n - 1) / T.bits * T.bits)) 0
    simpa only [if_true] using hand

theorem fetchAnd_expected (startRefValues : Fin n → T.Data) {i : ℕ} (hpos : 1 ≤ n)
    (hn : n + T.bits ≤ 2 ^ 32) (hi : i < (fetchAnd T).numResults n) :
    (fetchAnd T).sequential startRefValues i = (fetchAnd T).expectedValue n startRefValues i := by
  rw [fetchAnd_sequential, fetchAnd_expectedValue startRefValues hpos hn hi,
    fetchOr_expected startRefValues hpos hn hi]

/-! ### The tests as a whole -/

/-- In `NumResults` of the tests that give each thread a bit, nothing overflows. -/
def Fits (T : HostType) (op : FetchOp) (n : ℕ) : Prop :=
  op = .or ∨ op = .and → n + T.bits ≤ 2 ^ 32

/-- What is to hold of a test with `n` threads. -/
structure FetchTest.Ok (test : FetchTest T) (n : ℕ) : Prop where
  /-- every thread works on a variable that exists -/
  index : ∀ t : Fin n, test.whichResult t < test.numResults n
  /-- a step of a thread leaves the variables alone and completes no call; or it completes
  the call, updates the variable and returns the value from right before the update -/
  returns : ∀ (startRefValues : Fin n → T.Data) (c c' : Conf (Fin n) (Mem T n) (Pc T)) (t : Fin n),
    (test.runs startRefValues).Reach System.anyStep c →
    (test.runs startRefValues).next c t = some c' →
      c'.mem.destMemory = c.mem.destMemory ∧ (c'.loc t).value = none ∨
        ∃ v, (c.loc t).operand = some v ∧
          (c'.loc t).value = some (c.mem.destMemory (test.whichResult t)) ∧
          c'.mem.destMemory = Function.update c.mem.destMemory (test.whichResult t)
            (test.op.apply T (c.mem.destMemory (test.whichResult t)) v)
  /-- when all threads have finished, the variables hold the expected values -/
  final : ∀ (startRefValues : Fin n → T.Data) (c : Conf (Fin n) (Mem T n) (Pc T)),
    (test.runs startRefValues).Reach System.anyStep c → (∀ t, c.loc t = .returned) →
      ∀ i, i < test.numResults n → c.mem.destMemory i = test.expectedValue n startRefValues i

theorem returns (test : FetchTest T) {startRefValues : Fin n → T.Data}
    {c c' : Conf (Fin n) (Mem T n) (Pc T)} {t : Fin n}
    (hn : (test.runs startRefValues).next c t = some c') :
    c'.mem.destMemory = c.mem.destMemory ∧ (c'.loc t).value = none ∨
      ∃ v, (c.loc t).operand = some v ∧
        (c'.loc t).value = some (c.mem.destMemory (test.whichResult t)) ∧
        c'.mem.destMemory = Function.update c.mem.destMemory (test.whichResult t)
          (test.op.apply T (c.mem.destMemory (test.whichResult t)) v) := by
  obtain ⟨pc', m', hP, rfl⟩ := threads_next.mp hn
  simp only [Function.update_self]
  rcases hostFunction_cases hP with ⟨hdest, hvalue, _⟩ | ⟨v, hoperand, hm, hvalue, _⟩
  · exact .inl ⟨hdest, hvalue⟩
  · exact .inr ⟨v, hoperand, hvalue, by rw [hm]; rfl⟩

theorem expected (op : FetchOp) (startRefValues : Fin n → T.Data) (hpos : 1 ≤ n)
    (hfit : Fits T op n) {i : ℕ} (hi : i < (fetchTest T op).numResults n) :
    (fetchTest T op).sequential startRefValues i
      = (fetchTest T op).expectedValue n startRefValues i := by
  cases op with
  | or => exact fetchOr_expected startRefValues hpos (hfit (.inl rfl)) hi
  | and => exact fetchAnd_expected startRefValues hpos (hfit (.inr rfl)) hi
  | add =>
    obtain rfl := Nat.lt_one_iff.mp hi
    exact fetchAdd_expected startRefValues
  | sub =>
    obtain rfl := Nat.lt_one_iff.mp hi
    exact fetchSub_expected startRefValues
  | xor =>
    obtain rfl := Nat.lt_one_iff.mp hi
    exact fetchXor_expected startRefValues
  | min =>
    obtain rfl := Nat.lt_one_iff.mp hi
    exact fetchMin_expected startRefValues
  | max =>
    obtain rfl := Nat.lt_one_iff.mp hi
    exact fetchMax_expected startRefValues

/-- The index of a thread that has a bit of its own. -/
theorem index_lt {w n t : ℕ} (hw : w = 32 ∨ w = 64) (ht : t < n) (hn : n + w ≤ 2 ^ 32) :
    t / w < (n + w - 1) % 2 ^ 32 / w := by
  rcases hw with rfl | rfl <;> omega

/-- Without room for the sum there is no variable at all. -/
theorem numResults_eq_zero {w n : ℕ} (hw : w = 32 ∨ w = 64) (hlt : n < 2 ^ 32)
    (hn : 2 ^ 32 < n + w) : (n + w - 1) % 2 ^ 32 / w = 0 := by
  rcases hw with rfl | rfl <;> omega

theorem index (op : FetchOp) (hfit : Fits T op n) (t : Fin n) :
    (fetchTest T op).whichResult t < (fetchTest T op).numResults n := by
  have ht := t.isLt
  cases op with
  | or =>
    show (t : ℕ) / (T.sizeof * 8) < (n + T.bits - 1) % 2 ^ 32 / T.bits
    rw [T.sizeof_mul]
    exact index_lt T.bits_eq ht (hfit (.inl rfl))
  | and =>
    show (t : ℕ) / (T.sizeof * 8) < (n + T.bits - 1) % 2 ^ 32 / T.bits
    rw [T.sizeof_mul]
    exact index_lt T.bits_eq ht (hfit (.inr rfl))
  | add | sub | xor | min | max => exact Nat.zero_lt_one

/-- **When the tests of the fetch operations are as they should be**: for `or` and
`and` if the number of threads plus the width of the type fits into `2 ^ 32`, and
for the other operations always. -/
theorem fetchTest_ok_iff (T : HostType) (op : FetchOp) (n : ℕ) (hpos : 1 ≤ n) (hlt : n < 2 ^ 32) :
    (fetchTest T op).Ok n ↔ Fits T op n := by
  constructor
  · intro h hop
    by_contra hn
    have hzero := numResults_eq_zero T.bits_eq hlt (not_le.mp hn)
    have hindex : 0 / (T.sizeof * 8) < (n + T.bits - 1) % 2 ^ 32 / T.bits := by
      rcases hop with rfl | rfl
      · exact h.index ⟨0, hpos⟩
      · exact h.index ⟨0, hpos⟩
    rw [hzero] at hindex
    exact Nat.not_lt_zero _ hindex
  · intro hfit
    refine ⟨index op hfit, fun s c c' t _ hn => returns _ hn, ?_⟩
    intro s c hr hfin i hi
    rw [destMemory_of_returned hr hfin hi, expected op s hpos hfit hi]

/-- Thirty-three threads with a bit each, on two 32-bit variables. -/
theorem fetchTest_ok_or_33 : (fetchTest .int .or).Ok 33 :=
  (fetchTest_ok_iff .int .or 33 (by decide) (by decide)).mpr fun _ => by decide

/-- **With `2 ^ 32 - 1` threads there is no variable** for the threads to work on. -/
theorem not_fetchTest_ok_or : ¬ (fetchTest .int .or).Ok (2 ^ 32 - 1) := by
  intro h
  have hindex := h.index ⟨0, by decide⟩
  exact absurd hindex (by decide)

end OpenCLCTS.C11Atomics.FetchOps
