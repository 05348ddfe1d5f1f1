import Mathlib.Algebra.Order.Ring.Int
import OpenCLCTS.Lib.Bitset

/-!
# Ballots

A ballot is a `cl_uint4` whose words make up a number of 128 bits, one for each lane.  The verifiers
compute what they expect by a `std::bitset` of 128 bits, or word by word.

* `getLsbD_toBs128`: bit `j` is bit `j % 32` of word `j / 32`.
* `expectedResult_count`, `expectedResult_findLsb`, `expectedResult_findMsb`: counts, scans and
  searches, by the numbers of set bits.
* `getLsbD_generateBitMask`: the masks of a lane.
* `bitExtract_reads`: the reference of `bit_extract` takes the word of the lane.
* `references_iff`: the references are right just if this word does not matter.
-/

namespace OpenCLCTS.Subgroups

structure ClUint4 where
  s0 : BitVec 32
  s1 : BitVec 32
  s2 : BitVec 32
  s3 : BitVec 32
  deriving DecidableEq

/-- `bs128`. -/
abbrev Bs128 := BitVec 128

inductive BallotOp
  | ballot
  | inverseBallot
  | ballotBitExtract
  | ballotBitCount
  | ballotInclusiveScan
  | ballotExclusiveScan
  | ballotFindLsb
  | ballotFindMsb
  | eqMask
  | geMask
  | gtMask
  | leMask
  | ltMask
  deriving DecidableEq

/-- `operation_names`. -/
def operationNames : BallotOp → String
  | .ballot => "ballot"
  | .inverseBallot => "inverse_ballot"
  | .ballotBitExtract => "bit_extract"
  | .ballotBitCount => "bit_count"
  | .ballotInclusiveScan => "inclusive_scan"
  | .ballotExclusiveScan => "exclusive_scan"
  | .ballotFindLsb => "find_lsb"
  | .ballotFindMsb => "find_msb"
  | .eqMask => "eq"
  | .geMask => "ge"
  | .gtMask => "gt"
  | .leMask => "le"
  | .ltMask => "lt"

/-! ### Conversions -/

/-- `cl_uint4_to_bs128`. -/
def clUint4ToBs128 (v : ClUint4) : Bs128 :=
  v.s0.setWidth 128 ||| (v.s1.setWidth 128 <<< 32) ||| (v.s2.setWidth 128 <<< 64)
    ||| (v.s3.setWidth 128 <<< 96)

/-- `((v >> shift) & bs128_ffffffff).to_ulong()`, as a `cl_uint`. -/
def wordOf (v : Bs128) (shift : ℕ) : BitVec 32 := ((v >>> shift) &&& 0xffffffff#128).setWidth 32

/-- `bs128_to_cl_uint4`. -/
def bs128ToClUint4 (v : Bs128) : ClUint4 := ⟨wordOf v 0, wordOf v 32, wordOf v 64, wordOf v 96⟩

/-- `generate_bit_mask`, for positions that the set has. -/
def generateBitMask (subgroupLocalId : ℕ) (maskType : String) (maxSubGroupSize : ℕ) : ClUint4 :=
  let pos := subgroupLocalId
  let mask128 : Bs128 := 0#128
  let mask128 := if maskType = "eq" then Bitset.set mask128 pos else mask128
  let mask128 := if maskType = "le" ∨ maskType = "lt" then
      let mask128 := Bitset.setAll mask128 (List.range' 0 (pos + 1))
      if maskType = "lt" then Bitset.reset mask128 pos else mask128
    else mask128
  let mask128 := if maskType = "ge" ∨ maskType = "gt" then
      let mask128 := Bitset.setAll mask128 (List.range' pos (maxSubGroupSize - pos))
      if maskType = "gt" then Bitset.reset mask128 pos else mask128
    else mask128
  ⟨wordOf mask128 0, wordOf (mask128 >>> 32) 0, wordOf (mask128 >>> 32 >>> 32) 0,
    wordOf (mask128 >>> 32 >>> 32 >>> 32) 0⟩

/-! ### The references of the verifiers -/

/-- `getImportantBits`. -/
def getImportantBits (operation : BallotOp) (subGroupLocalId subGroupSize : ℕ) : Bs128 :=
  match operation with
  | .ballotBitCount | .ballotFindLsb | .ballotFindMsb =>
    Bitset.setAll 0#128 (List.range subGroupSize)
  | .ballotInclusiveScan =>
    Bitset.set (Bitset.setAll 0#128 (List.range subGroupLocalId)) subGroupLocalId
  | .ballotExclusiveScan => Bitset.setAll 0#128 (List.range subGroupLocalId)
  | _ => 0#128

/-- `expected_result` of `BALLOT_COUNT_SCAN_FIND::chk` for one work-item, which was `previous`
before; `none` if nothing is compared. -/
def expectedResult (operation : BallotOp) (wiId sbs previous : ℕ) (v : ClUint4) : Option ℕ :=
  let bs := clUint4ToBs128 v &&& getImportantBits operation wiId sbs
  match operation with
  | .ballotInclusiveScan | .ballotExclusiveScan | .ballotBitCount => some (Bitset.count bs)
  | .ballotFindLsb =>
    if bs = 0#128 then none else some (((List.range sbs).find? fun id => bs.getLsbD id).getD previous)
  | .ballotFindMsb =>
    if bs = 0#128 then none
    else some (((List.range sbs).reverse.find? fun id => bs.getLsbD id).getD previous)
  | _ => none

/-- The word from which `BALLOT_BIT_EXTRACT::chk` takes the bit. -/
def extractedWord (wiId : ℕ) (v : ClUint4) : BitVec 32 :=
  if wiId < 32 then v.s0 else if wiId < 64 then v.s1 else if wiId < 96 then v.s2
  else if wiId < 128 then v.s3 else 0#32

/-- `bit_value`. -/
def bitValue (wiId : ℕ) (index : ℤ) (v : ClUint4) : Bool :=
  let takeShift := (index.tmod 32).toNat
  let bitMask := 1#32 <<< takeShift
  0#32 < extractedWord wiId v &&& bitMask

/-- `expected_result` of `BALLOT_BIT_EXTRACT::chk`. -/
def expectedExtract (wiId : ℕ) (indexForOdd indexForEven : ℤ) (v : ClUint4) : ClUint4 :=
  if wiId % 2 = 1 then
    if bitValue wiId indexForOdd v then ⟨1, 0, 0, 1⟩ else ⟨0, 0, 0, 1⟩
  else
    if bitValue wiId indexForEven v then ⟨1, 0, 0, 2⟩ else ⟨0, 0, 0, 2⟩

/-! ### The number of 128 bits -/

/-- The words by their numbers. -/
def ClUint4.word (v : ClUint4) : ℕ → BitVec 32
  | 0 => v.s0
  | 1 => v.s1
  | 2 => v.s2
  | 3 => v.s3
  | _ => 0#32

/-- **A bit of the number is a bit of one of the words.** -/
theorem getLsbD_toBs128 (v : ClUint4) (j : ℕ) :
    (clUint4ToBs128 v).getLsbD j = (v.word (j / 32)).getLsbD (j % 32) := by
  have hge : ∀ w : BitVec 32, ∀ i, 32 ≤ i → w.getLsbD i = false :=
    fun w i hi => BitVec.getLsbD_of_ge w i hi
  rw [clUint4ToBs128]
  simp only [BitVec.getLsbD_or, BitVec.getLsbD_shiftLeft, BitVec.getLsbD_setWidth]
  rcases Nat.lt_or_ge j 32 with h | h
  · rw [Nat.div_eq_of_lt h, Nat.mod_eq_of_lt h]
    simp [ClUint4.word, show j < 128 by omega, show j < 64 by omega, show j < 96 by omega, h]
  rcases Nat.lt_or_ge j 64 with h' | h'
  · rw [show j / 32 = 1 by omega, show j % 32 = j - 32 by omega]
    simp [ClUint4.word, show j < 128 by omega, h', show j < 96 by omega, show ¬ j < 32 by omega,
      hge _ j h, show j - 32 < 128 by omega]
  rcases Nat.lt_or_ge j 96 with h'' | h''
  · rw [show j / 32 = 2 by omega, show j % 32 = j - 64 by omega]
    simp [ClUint4.word, show j < 128 by omega, show ¬ j < 64 by omega, h'', show ¬ j < 32 by omega,
      hge _ j h, hge _ (j - 32) (by omega), show j - 64 < 128 by omega]
  rcases Nat.lt_or_ge j 128 with hj | hj
  · rw [show j / 32 = 3 by omega, show j % 32 = j - 96 by omega]
    simp [ClUint4.word, hj, show ¬ j < 64 by omega, show ¬ j < 96 by omega, show ¬ j < 32 by omega,
      hge _ j h, hge _ (j - 32) (by omega), hge _ (j - 64) (by omega), show j - 96 < 128 by omega]
  · obtain ⟨k, hk⟩ : ∃ k, j / 32 = k + 4 := ⟨j / 32 - 4, by omega⟩
    rw [hk]
    simp [ClUint4.word, show ¬ j < 128 by omega]

theorem getLsbD_wordOf (v : Bs128) (shift j : ℕ) :
    (wordOf v shift).getLsbD j = (decide (j < 32) && v.getLsbD (shift + j)) := by
  have hmask : (0xffffffff#128).getLsbD j = decide (j < 32) := by
    rw [BitVec.getLsbD_ofNat, show 0xffffffff = 2 ^ 32 - 1 from rfl, Nat.testBit_two_pow_sub_one]
    by_cases h : j < 32
    · simp [h, show j < 128 by omega]
    · simp [h]
  rw [wordOf, BitVec.getLsbD_setWidth, BitVec.getLsbD_and, BitVec.getLsbD_ushiftRight, hmask]
  by_cases h : j < 32
  · simp [h]
  · simp [h]

/-- **The words of a number make up the number.** -/
theorem toBs128_toClUint4 (b : Bs128) : clUint4ToBs128 (bs128ToClUint4 b) = b := by
  apply BitVec.eq_of_getLsbD_eq
  intro j hj
  have hmod : j % 32 < 32 := Nat.mod_lt j (by decide)
  have hdiv := Nat.div_add_mod j 32
  rw [getLsbD_toBs128]
  have hcases : j / 32 = 0 ∨ j / 32 = 1 ∨ j / 32 = 2 ∨ j / 32 = 3 := by omega
  rcases hcases with h | h | h | h <;> rw [h] at hdiv ⊢ <;>
    simp only [ClUint4.word, bs128ToClUint4, getLsbD_wordOf, hmod, decide_true, Bool.true_and] <;>
    congr 1

/-- **A number that is made up of words has these words.** -/
theorem toClUint4_toBs128 (v : ClUint4) : bs128ToClUint4 (clUint4ToBs128 v) = v := by
  have hword : ∀ k < 4, wordOf (clUint4ToBs128 v) (32 * k) = v.word k := by
    intro k hk
    apply BitVec.eq_of_getLsbD_eq
    intro j hj
    rw [getLsbD_wordOf, decide_eq_true hj, Bool.true_and, getLsbD_toBs128,
      Nat.mul_add_div (by decide), Nat.div_eq_of_lt hj, Nat.mul_add_mod, Nat.mod_eq_of_lt hj,
      Nat.add_zero]
  have h0 : wordOf (clUint4ToBs128 v) 0 = v.s0 := hword 0 (by decide)
  have h1 : wordOf (clUint4ToBs128 v) 32 = v.s1 := hword 1 (by decide)
  have h2 : wordOf (clUint4ToBs128 v) 64 = v.s2 := hword 2 (by decide)
  have h3 : wordOf (clUint4ToBs128 v) 96 = v.s3 := hword 3 (by decide)
  rw [bs128ToClUint4, h0, h1, h2, h3]

theorem toNat_append_eq {m n : ℕ} (x : BitVec m) (y : BitVec n) :
    (x ++ y).toNat = x.toNat * 2 ^ n + y.toNat := by
  rw [BitVec.toNat_append, ← Nat.shiftLeft_add_eq_or_of_lt y.isLt, Nat.shiftLeft_eq]

/-- **The number that the words make up.** -/
theorem toBs128_toNat (v : ClUint4) : (clUint4ToBs128 v).toNat
    = v.s0.toNat + 2 ^ 32 * v.s1.toNat + 2 ^ 64 * v.s2.toNat + 2 ^ 96 * v.s3.toNat := by
  have happend : clUint4ToBs128 v = v.s3 ++ (v.s2 ++ (v.s1 ++ v.s0)) := by
    apply BitVec.eq_of_getLsbD_eq
    intro j hj
    rw [getLsbD_toBs128, BitVec.getLsbD_append, BitVec.getLsbD_append, BitVec.getLsbD_append]
    have hcases : j / 32 = 0 ∨ j / 32 = 1 ∨ j / 32 = 2 ∨ j / 32 = 3 := by omega
    rcases hcases with h | h | h | h <;> rw [h]
    · rw [if_pos (by omega), if_pos (by omega), if_pos (by omega), Nat.mod_eq_of_lt (by omega)]
      rfl
    · rw [if_pos (by omega), if_pos (by omega), if_neg (by omega), show j % 32 = j - 32 by omega]
      rfl
    · rw [if_pos (by omega), if_neg (by omega), show j % 32 = j - 64 by omega]
      rfl
    · rw [if_neg (by omega), show j % 32 = j - 96 by omega]
      rfl
  rw [happend, toNat_append_eq, toNat_append_eq, toNat_append_eq]
  omega

/-! ### Counts, scans and searches -/

section

variable {sbs i : ℕ} (previous : ℕ) (v : ClUint4)

/-- The positions of a ballot that are set. -/
def SetAt (v : ClUint4) (j : ℕ) : Prop := (clUint4ToBs128 v).getLsbD j = true

instance (v : ClUint4) : DecidablePred (SetAt v) := fun _ => inferInstanceAs (Decidable (_ = _))

theorem important_iff {mask : Bs128} {n : ℕ} (hmask : ∀ j, mask.getLsbD j = true ↔ j < n) (j : ℕ) :
    (clUint4ToBs128 v &&& mask).getLsbD j = true ↔ SetAt v j ∧ j < n := by
  rw [BitVec.getLsbD_and, Bool.and_eq_true, hmask, SetAt]

theorem getLsbD_range {n : ℕ} (hn : n ≤ 128) (j : ℕ) :
    (Bitset.setAll (0#128) (List.range n)).getLsbD j = true ↔ j < n := by
  rw [Bitset.getLsbD_setAll, BitVec.getLsbD_zero, List.mem_range]
  simp only [Bool.false_eq_true, false_or]
  omega

theorem getImportantBits_all {operation : BallotOp} (hs : sbs ≤ 128)
    (hop : operation = .ballotBitCount ∨ operation = .ballotFindLsb ∨ operation = .ballotFindMsb)
    (i j : ℕ) : (getImportantBits operation i sbs).getLsbD j = true ↔ j < sbs := by
  rcases hop with rfl | rfl | rfl <;> exact getLsbD_range hs j

theorem getImportantBits_inclusive (hi : i < 128) (sbs j : ℕ) :
    (getImportantBits .ballotInclusiveScan i sbs).getLsbD j = true ↔ j < i + 1 := by
  rw [getImportantBits, Bitset.getLsbD_set, getLsbD_range hi.le]
  omega

theorem getImportantBits_exclusive (hi : i < 128) (sbs j : ℕ) :
    (getImportantBits .ballotExclusiveScan i sbs).getLsbD j = true ↔ j < i :=
  getLsbD_range hi.le j

/-- **Counts and scans.** -/
theorem expectedResult_count (hs : sbs ≤ 128) (i : ℕ) :
    expectedResult .ballotBitCount i sbs previous v = some (Nat.count (SetAt v) sbs) :=
  congrArg some (Bitset.count_eq hs (important_iff v (getImportantBits_all hs (.inl rfl) i)))

theorem expectedResult_inclusive (hi : i < 128) (sbs : ℕ) :
    expectedResult .ballotInclusiveScan i sbs previous v = some (Nat.count (SetAt v) (i + 1)) :=
  congrArg some (Bitset.count_eq hi (important_iff v (getImportantBits_inclusive hi sbs)))

theorem expectedResult_exclusive (hi : i < 128) (sbs : ℕ) :
    expectedResult .ballotExclusiveScan i sbs previous v = some (Nat.count (SetAt v) i) :=
  congrArg some (Bitset.count_eq hi.le (important_iff v (getImportantBits_exclusive hi sbs)))

theorem important_eq_zero_iff {mask : Bs128} {n : ℕ} (hmask : ∀ j, mask.getLsbD j = true ↔ j < n) :
    clUint4ToBs128 v &&& mask = 0#128 ↔ ∀ j < n, ¬ SetAt v j := by
  rw [Bitset.eq_zero_iff]
  refine forall_congr' ?_
  intro j
  rw [← Bool.not_eq_true, important_iff v hmask]
  tauto

theorem search_spec {mask : Bs128} {n : ℕ} (hmask : ∀ j, mask.getLsbD j = true ↔ j < n)
    {search : Bs128 → ℕ} {Best : Set ℕ → ℕ → Prop} (hbest : ∀ bs : Bs128, bs ≠ 0#128 →
      (∀ j, bs.getLsbD j = true → j < n) → Best {j | bs.getLsbD j = true} (search bs)) :
    let result := if clUint4ToBs128 v &&& mask = 0#128 then none
      else some (search (clUint4ToBs128 v &&& mask))
    (result = none ↔ ∀ j < n, ¬ SetAt v j) ∧
      ∀ r, result = some r → Best {j | SetAt v j ∧ j < n} r := by
  have hbits := important_iff v hmask
  rw [← important_eq_zero_iff v hmask]
  constructor
  · simp
  · intro r hr
    split at hr
    · cases hr
    · rename_i hne
      cases hr
      have hfound := hbest _ hne fun j hj => ((hbits j).mp hj).2
      rwa [show {j | SetAt v j ∧ j < n} = _ from Set.ext fun j => (hbits j).symm]

/-- **`find_lsb`**: nothing is compared if no bit is set, and else the least position. -/
theorem expectedResult_findLsb (hs : sbs ≤ 128) (i : ℕ) :
    (expectedResult .ballotFindLsb i sbs previous v = none ↔ ∀ j < sbs, ¬ SetAt v j) ∧
      ∀ r, expectedResult .ballotFindLsb i sbs previous v = some r →
        IsLeast {j | SetAt v j ∧ j < sbs} r := by
  have hmask := getImportantBits_all hs (.inr (.inl (rfl : BallotOp.ballotFindLsb = _))) i
  exact search_spec v hmask fun _ hne hbelow => Bitset.isLeast_find? hne hbelow previous

/-- **`find_msb`**: nothing is compared if no bit is set, and else the greatest position. -/
theorem expectedResult_findMsb (hs : sbs ≤ 128) (i : ℕ) :
    (expectedResult .ballotFindMsb i sbs previous v = none ↔ ∀ j < sbs, ¬ SetAt v j) ∧
      ∀ r, expectedResult .ballotFindMsb i sbs previous v = some r →
        IsGreatest {j | SetAt v j ∧ j < sbs} r := by
  have hmask := getImportantBits_all hs (.inr (.inr (rfl : BallotOp.ballotFindMsb = _))) i
  exact search_spec v hmask fun _ hne hbelow => Bitset.isGreatest_find? hne hbelow previous

end

/-! ### Masks -/

/-- The mask operations, with the lanes that they ask for. -/
def maskRelation : BallotOp → Option (ℕ → ℕ → Prop)
  | .eqMask => some fun j i => j = i
  | .leMask => some fun j i => j ≤ i
  | .ltMask => some fun j i => j < i
  | .geMask => some fun j i => i ≤ j
  | .gtMask => some fun j i => i < j
  | _ => none

theorem wordOf_ushiftRight (b : Bs128) (m n : ℕ) : wordOf (b >>> m) n = wordOf b (m + n) := by
  apply BitVec.eq_of_getLsbD_eq
  intro j _
  rw [getLsbD_wordOf, getLsbD_wordOf, BitVec.getLsbD_ushiftRight, Nat.add_assoc]

theorem toBs128_shiftedWords (mask : Bs128) :
    clUint4ToBs128 ⟨wordOf mask 0, wordOf (mask >>> 32) 0, wordOf (mask >>> 32 >>> 32) 0,
      wordOf (mask >>> 32 >>> 32 >>> 32) 0⟩ = mask := by
  simp only [wordOf_ushiftRight]
  exact toBs128_toClUint4 mask

/-- **The masks of a lane.** -/
theorem getLsbD_generateBitMask {op : BallotOp} {relation : ℕ → ℕ → Prop}
    (hop : maskRelation op = some relation) {i sbs : ℕ} (hs : sbs ≤ 128) (hi : i < sbs) (j : ℕ) :
    SetAt (generateBitMask i (operationNames op) sbs) j ↔ j < sbs ∧ relation j i := by
  have hzero : ∀ j, (0#128).getLsbD j = false := fun j => BitVec.getLsbD_zero
  rw [SetAt, generateBitMask, toBs128_shiftedWords]
  cases op with
  | eqMask =>
    cases hop
    show (Bitset.set (0#128) i).getLsbD j = true ↔ _
    rw [Bitset.getLsbD_set, hzero]
    simp only [Bool.false_eq_true, false_or]
    omega
  | leMask =>
    cases hop
    show (Bitset.setAll (0#128) (List.range' 0 (i + 1))).getLsbD j = true ↔ _
    rw [Bitset.getLsbD_setAll, hzero, List.mem_range'_1]
    simp only [Bool.false_eq_true, false_or]
    omega
  | ltMask =>
    cases hop
    show (Bitset.reset (Bitset.setAll (0#128) (List.range' 0 (i + 1))) i).getLsbD j = true ↔ _
    rw [Bitset.getLsbD_reset, Bitset.getLsbD_setAll, hzero, List.mem_range'_1]
    simp only [Bool.false_eq_true, false_or]
    omega
  | geMask =>
    cases hop
    show (Bitset.setAll (0#128) (List.range' i (sbs - i))).getLsbD j = true ↔ _
    rw [Bitset.getLsbD_setAll, hzero, List.mem_range'_1]
    simp only [Bool.false_eq_true, false_or]
    omega
  | gtMask =>
    cases hop
    show (Bitset.reset (Bitset.setAll (0#128) (List.range' i (sbs - i))) i).getLsbD j = true ↔ _
    rw [Bitset.getLsbD_reset, Bitset.getLsbD_setAll, hzero, List.mem_range'_1]
    simp only [Bool.false_eq_true, false_or]
    omega
  | ballot | inverseBallot | ballotBitExtract | ballotBitCount | ballotInclusiveScan
  | ballotExclusiveScan | ballotFindLsb | ballotFindMsb => cases hop

/-! ### The bit that `bit_extract` takes -/

/-- The position from which `BALLOT_BIT_EXTRACT::chk` takes the bit: the word is that of the lane. -/
def extractedPosition (i k : ℕ) : ℕ := 32 * (i / 32) + k % 32

theorem extractedWord_eq {i : ℕ} (hi : i < 128) (v : ClUint4) :
    extractedWord i v = v.word (i / 32) := by
  have hcases : i / 32 = 0 ∨ i / 32 = 1 ∨ i / 32 = 2 ∨ i / 32 = 3 := by omega
  rw [extractedWord]
  rcases hcases with h | h | h | h <;> rw [h]
  · rw [if_pos (by omega)]
    rfl
  · rw [if_neg (by omega), if_pos (by omega)]
    rfl
  · rw [if_neg (by omega), if_neg (by omega), if_pos (by omega)]
    rfl
  · rw [if_neg (by omega), if_neg (by omega), if_neg (by omega), if_pos (by omega)]
    rfl

/-- **The bit is taken from the word of the lane**, at the position of the index in its word. -/
theorem bitExtract_reads {i : ℕ} (hi : i < 128) (k : ℕ) (v : ClUint4) :
    bitValue i k v = true ↔ SetAt v (extractedPosition i k) := by
  have hmod : k % 32 < 32 := Nat.mod_lt k (by decide)
  have hshift : ((k : ℤ).tmod 32).toNat = k % 32 := by
    rw [Int.tmod_eq_emod_of_nonneg (Int.natCast_nonneg k)]
    omega
  have hpos : ∀ w : BitVec 32, 0#32 < w ↔ w ≠ 0#32 := by
    intro w
    rw [BitVec.lt_def, ne_eq, ← BitVec.toNat_inj]
    show 0 < w.toNat ↔ ¬ w.toNat = 0
    omega
  rw [bitValue, hshift, decide_eq_true_eq, hpos, extractedWord_eq hi, SetAt, getLsbD_toBs128,
    extractedPosition, Nat.mul_add_div (by decide), Nat.div_eq_of_lt hmod, Nat.mul_add_mod,
    Nat.mod_mod, Nat.add_zero, ne_eq, Bitset.eq_zero_iff]
  constructor
  · intro h
    by_contra hnot
    refine h ?_
    intro j
    rw [BitVec.getLsbD_and, Bitset.getLsbD_one_shiftLeft]
    by_cases hj : j = k % 32
    · rw [hj, Bool.eq_false_iff.mpr hnot, Bool.false_and]
    · simp [hj]
  · intro hset h
    have hbit := h (k % 32)
    rw [BitVec.getLsbD_and, Bitset.getLsbD_one_shiftLeft, hset] at hbit
    simp [hmod] at hbit

/-- The vector for bit `k` of the ballot, which is marked by the parity of the lane. -/
def extractOf (i : ℕ) (bit : Prop) [Decidable bit] : ClUint4 :=
  ⟨if bit then 1 else 0, 0, 0, if i % 2 = 1 then 1 else 2⟩

theorem extractOf_inj {i : ℕ} {p q : Prop} [Decidable p] [Decidable q]
    (h : extractOf i p = extractOf i q) : p ↔ q := by
  have hbit : (if p then 1#32 else 0#32) = if q then 1#32 else 0#32 := congrArg ClUint4.s0 h
  by_cases hp : p
  · by_cases hq : q
    · exact iff_of_true hp hq
    · rw [if_pos hp, if_neg hq] at hbit
      exact absurd hbit (by decide)
  · by_cases hq : q
    · rw [if_neg hp, if_pos hq] at hbit
      exact absurd hbit (by decide)
    · exact iff_of_false hp hq

theorem expectedExtract_eq {i : ℕ} (hi : i < 128) (kOdd kEven : ℕ) (v : ClUint4) :
    expectedExtract i kOdd kEven v
      = extractOf i (SetAt v (extractedPosition i (if i % 2 = 1 then kOdd else kEven))) := by
  rw [expectedExtract, extractOf]
  by_cases hodd : i % 2 = 1
  · rw [if_pos hodd, if_pos hodd, if_pos hodd, if_congr (bitExtract_reads hi kOdd v) rfl rfl]
    split <;> rfl
  · rw [if_neg hodd, if_neg hodd, if_neg hodd, if_congr (bitExtract_reads hi kEven v) rfl rfl]
    split <;> rfl

/-! ### All references -/

/-- What the references should be, for lane `i` of a sub-group of `sbs`, the index `k` of its parity,
and the ballot `v`. -/
structure References (sbs i kOdd kEven previous : ℕ) (v : ClUint4) : Prop where
  number : (clUint4ToBs128 v).toNat
    = v.s0.toNat + 2 ^ 32 * v.s1.toNat + 2 ^ 64 * v.s2.toNat + 2 ^ 96 * v.s3.toNat
  inverse : bs128ToClUint4 (clUint4ToBs128 v) = v
  inverse' : ∀ b, clUint4ToBs128 (bs128ToClUint4 b) = b
  bitExtract : expectedExtract i kOdd kEven v
    = extractOf i (SetAt v (if i % 2 = 1 then kOdd else kEven))
  bitCount : expectedResult .ballotBitCount i sbs previous v = some (Nat.count (SetAt v) sbs)
  inclusiveScan : expectedResult .ballotInclusiveScan i sbs previous v
    = some (Nat.count (SetAt v) (i + 1))
  exclusiveScan : expectedResult .ballotExclusiveScan i sbs previous v
    = some (Nat.count (SetAt v) i)
  findLsb : (expectedResult .ballotFindLsb i sbs previous v = none ↔ ∀ j < sbs, ¬ SetAt v j) ∧
    ∀ r, expectedResult .ballotFindLsb i sbs previous v = some r →
      IsLeast {j | SetAt v j ∧ j < sbs} r
  findMsb : (expectedResult .ballotFindMsb i sbs previous v = none ↔ ∀ j < sbs, ¬ SetAt v j) ∧
    ∀ r, expectedResult .ballotFindMsb i sbs previous v = some r →
      IsGreatest {j | SetAt v j ∧ j < sbs} r
  masks : ∀ op relation, maskRelation op = some relation → ∀ j,
    SetAt (generateBitMask i (operationNames op) sbs) j ↔ j < sbs ∧ relation j i

theorem References.of_extracted {sbs i kOdd kEven : ℕ} (hs : sbs ≤ 128) (hi : i < sbs)
    (previous : ℕ) {v : ClUint4}
    (h : SetAt v (extractedPosition i (if i % 2 = 1 then kOdd else kEven))
      ↔ SetAt v (if i % 2 = 1 then kOdd else kEven)) :
    References sbs i kOdd kEven previous v where
  number := toBs128_toNat v
  inverse := toClUint4_toBs128 v
  inverse' := toBs128_toClUint4
  bitExtract := by
    rw [expectedExtract_eq (hi.trans_le hs), extractOf, extractOf, if_congr h rfl rfl]
  bitCount := expectedResult_count previous v hs i
  inclusiveScan := expectedResult_inclusive previous v (hi.trans_le hs) sbs
  exclusiveScan := expectedResult_exclusive previous v (hi.trans_le hs) sbs
  findLsb := expectedResult_findLsb previous v hs i
  findMsb := expectedResult_findMsb previous v hs i
  masks := fun _ _ hop j => getLsbD_generateBitMask hop hs hi j

/-- **When the references are right**: bit `k` of the ballot is the bit at the same place of the
word of the lane. -/
theorem references_iff {sbs i kOdd kEven : ℕ} (hs : sbs ≤ 128) (hi : i < sbs) (previous : ℕ)
    (v : ClUint4) : References sbs i kOdd kEven previous v ↔
      (SetAt v (extractedPosition i (if i % 2 = 1 then kOdd else kEven))
        ↔ SetAt v (if i % 2 = 1 then kOdd else kEven)) := by
  constructor
  · intro h
    have hextract := (expectedExtract_eq (hi.trans_le hs) kOdd kEven v).symm.trans h.bitExtract
    exact extractOf_inj hextract
  · exact References.of_extracted hs hi previous

/-- Lane 33 and index 40 have the same word. -/
theorem references_same_word : References 64 33 40 40 0 ⟨0, 0x100, 0, 0⟩ :=
  (references_iff (by decide) (by decide) 0 ⟨0, 0x100, 0, 0⟩).mpr (by decide)

/-- **The values that `BALLOT_BIT_EXTRACT::gen` stores** have four equal words, and for these all
references are right. -/
theorem references_equal_words {sbs i kOdd kEven : ℕ} (hs : sbs ≤ 128) (hi : i < sbs)
    (hOdd : kOdd < sbs) (hEven : kEven < sbs) (previous : ℕ) (w : BitVec 32) :
    References sbs i kOdd kEven previous ⟨w, w, w, w⟩ := by
  have hword : ∀ n < 4, ClUint4.word ⟨w, w, w, w⟩ n = w := by
    intro n hn
    rcases n with _ | _ | _ | _ | n <;> first | rfl | omega
  have hset : ∀ j < 128, SetAt ⟨w, w, w, w⟩ j ↔ w.getLsbD (j % 32) = true := by
    intro j hj
    rw [SetAt, getLsbD_toBs128, hword (j / 32) (by omega)]
  refine .of_extracted hs hi previous ?_
  have hk : (if i % 2 = 1 then kOdd else kEven) < 128 := by split <;> omega
  have hpos : extractedPosition i (if i % 2 = 1 then kOdd else kEven) < 128 := by
    unfold extractedPosition
    omega
  rw [hset _ hk, hset _ hpos, extractedPosition, Nat.mul_add_mod, Nat.mod_mod]

/-- Lane 0 does not see bit 40. -/
theorem references_other_word : ¬ References 64 0 40 40 0 ⟨0, 0x100, 0, 0⟩ := by
  intro h
  have hextract : expectedExtract 0 40 40 ⟨0, 0x100, 0, 0⟩
      = extractOf 0 (SetAt ⟨0, 0x100, 0, 0⟩ 40) := h.bitExtract
  exact absurd hextract (by decide)

end OpenCLCTS.Subgroups
