import OpenCLCTS.Harness.RandomInRange
import OpenCLCTS.Images.IntegerPack

/-!
# Random image data

The integers that the images are filled with: `randomData_iff` says that they take all values of the
format, unless its channels have 32 bits.
-/

namespace OpenCLCTS.Images

open Harness

/-- `get_format_max_int`, a `size_t`. -/
def getFormatMaxInt : ChannelType → ℕ
  | .snormInt8 | .signedInt8 => 127
  | .unormInt8 | .unsignedInt8 => 255
  | .snormInt16 | .signedInt16 => 32767
  | .unormInt16 | .unsignedInt16 => 65535
  | .signedInt32 => 2147483647
  | .unsignedInt32 => 4294967295
  | .unormShort565 | .unormShort555 => 31
  | .unormInt101010 | .unormInt101010_2 | .unormInt2_101010 => 1023
  | .halfFloat => 1 <<< 10
  | .unormInt24 | .float | .raw10 | .raw12 => 0

/-- `get_format_min_int`, an `int`. -/
def getFormatMinInt : ChannelType → ℤ
  | .snormInt8 | .signedInt8 => -128
  | .snormInt16 | .signedInt16 => -32768
  | .signedInt32 => -2147483648
  | .halfFloat => -(1 <<< 10)
  | _ => 0

/-- The integer types that `create_random_image_data` is called with. -/
inductive DataType
  | kInt
  | kUInt
  deriving DecidableEq

/-- `formatMin` and `formatMax`. -/
def dataBounds (format : ChannelType) : DataType → ℤ × ℕ
  | .kInt =>
    let formatMin := getFormatMinInt format
    let formatMax := getFormatMaxInt format
    let formatMax := if formatMin = 0 then
      if formatMax > 2147483647 then 2147483647 else formatMax else formatMax
    let formatMax := if formatMax < 2147483647 then formatMax + 2 else formatMax
    let formatMin := if formatMin > -2147483648 then formatMin - 2 else formatMin
    (formatMin, formatMax)
  | .kUInt =>
    let formatMin := getFormatMinInt format
    let formatMax := getFormatMaxInt format
    let formatMin := if formatMin < 0 then 0 else formatMin
    let formatMax := if formatMax < 4294967295 then formatMax + 2 else formatMax
    (formatMin, formatMax)

/-- The components that `create_random_image_data` stores; each one takes a number from the
generator. -/
def createRandomImageData (format : ChannelType) (dataType : DataType) (genrand : ℕ → BitVec 32)
    (i : ℕ) : BitVec 32 :=
  let bounds := dataBounds format dataType
  randomInRange (BitVec.ofInt 32 bounds.1) (BitVec.ofNat 32 bounds.2) (genrand i)

/-! ### Images -/

/-- The number that a component stands for. -/
def DataType.value (v : BitVec 32) : DataType → ℤ
  | .kInt => v.toInt
  | .kUInt => v.toNat

/-- The values of a format that the type of the data has. -/
def dataRange (limits : ℤ × ℤ) : DataType → Set ℤ
  | .kInt => Set.Icc limits.1 (min limits.2 (2 ^ 31 - 1))
  | .kUInt => Set.Icc (max limits.1 0) limits.2

/-- Every component can take every value of the format. -/
def TakesAll (format : ChannelType) (limits : ℤ × ℤ) (dataType : DataType) : Prop :=
  ∀ i, ∀ v ∈ dataRange limits dataType,
    ∃ genrand, dataType.value (createRandomImageData format dataType genrand i) = v

section

variable {format : ChannelType} {limits : ℤ × ℤ}

theorem dataBounds_small (htype : integerLimits format = some limits)
    (hsize : getChannelDataTypeSize format < 4) (dataType : DataType) :
    (BitVec.ofInt 32 (dataBounds format dataType).1).toInt = (dataBounds format dataType).1 ∧
      (BitVec.ofNat 32 (dataBounds format dataType).2).toInt = (dataBounds format dataType).2 ∧
      (dataBounds format dataType).2 - (dataBounds format dataType).1 + 1 < 2 ^ 31 ∧
      (dataBounds format dataType).1 ≤ (dataBounds format dataType).2 ∧
      -2 ^ 31 ≤ limits.1 ∧ limits.2 < 2 ^ 31 ∧
      ∀ v ∈ dataRange limits dataType, limits.1 ≤ v ∧ v ≤ limits.2 ∧
        (dataBounds format dataType).1 ≤ v ∧ v ≤ (dataBounds format dataType).2 ∧
        (dataType = .kUInt → 0 ≤ v) := by
  cases format <;> simp only [integerLimits, reduceCtorEq, Option.some.injEq] at htype
  all_goals
    subst htype
    cases dataType
    all_goals
      simp [getChannelDataTypeSize] at hsize
      try
        refine ⟨by decide, by decide, by decide, by decide, by decide, by decide, ?_⟩
        intro v hv
        simp [dataRange, dataBounds, getFormatMinInt, getFormatMaxInt] at hv ⊢
        omega

/-- In the types of 32 bits a value near the lower bound is missing. -/
theorem dataBounds_large (htype : integerLimits format = some limits)
    (hsize : ¬ getChannelDataTypeSize format < 4) (dataType : DataType) :
    ((BitVec.ofNat 32 (dataBounds format dataType).2 - BitVec.ofInt 32 (dataBounds format dataType).1
        + 1#32).toNat = 0 ∨
      2 ^ 31 ≤ (BitVec.ofNat 32 (dataBounds format dataType).2
        - BitVec.ofInt 32 (dataBounds format dataType).1 + 1#32).toNat) ∧
      ∃ v : BitVec 32, dataType.value v ∈ dataRange limits dataType ∧
        0 < (v - BitVec.ofInt 32 (dataBounds format dataType).1).toNat ∧
        (v - BitVec.ofInt 32 (dataBounds format dataType).1).toNat < 2 ^ 31 := by
  cases format <;> simp only [integerLimits, reduceCtorEq, Option.some.injEq] at htype
  all_goals
    subst htype
    cases dataType
    all_goals
      simp [getChannelDataTypeSize] at hsize
  · exact ⟨by decide, BitVec.intMin 32 + 1, Set.mem_Icc.mpr (by decide), by decide, by decide⟩
  · exact ⟨by decide, 1, Set.mem_Icc.mpr (by decide), by decide, by decide⟩
  · exact ⟨by decide, 0, Set.mem_Icc.mpr (by decide), by decide, by decide⟩
  · exact ⟨by decide, 1, Set.mem_Icc.mpr (by decide), by decide, by decide⟩

/-- **The data take all values** just if the channels have fewer than 32 bits. -/
theorem randomData_iff (htype : integerLimits format = some limits) (dataType : DataType) :
    TakesAll format limits dataType ↔ getChannelDataTypeSize format < 4 := by
  constructor
  · intro h
    by_contra hsize
    obtain ⟨hlarge, v, hmem, hv⟩ := dataBounds_large htype hsize dataType
    obtain ⟨g, hg⟩ := h 0 _ hmem
    refine randomInRange_ne hlarge hv (g 0) ?_
    cases dataType with
    | kInt => exact BitVec.eq_of_toInt_eq hg
    | kUInt => exact BitVec.eq_of_toNat_eq (Int.ofNat_inj.mp hg)
  · intro hsize i v hv
    obtain ⟨hlo, hhi, hcount, hle, hleast, hgreatest, hall⟩ := dataBounds_small htype hsize dataType
    obtain ⟨hmin, hmax, hv1, hv2, hnonneg⟩ := hall v hv
    have hint : (BitVec.ofInt 32 v).toInt = v := by
      rw [BitVec.toInt_ofInt, Int.bmod_eq_of_le] <;> omega
    obtain ⟨g, hg⟩ := @exists_randomInRange (BitVec.ofInt 32 (dataBounds format dataType).1)
      (BitVec.ofNat 32 (dataBounds format dataType).2) (by rw [hlo, hhi]; exact hle)
      (by rw [hlo, hhi]; exact hcount) (BitVec.ofInt 32 v) (by rw [hlo, hint]; exact hv1)
      (by rw [hhi, hint]; exact hv2)
    refine ⟨fun _ => g, ?_⟩
    rw [createRandomImageData, hg]
    cases dataType with
    | kInt => exact hint
    | kUInt =>
      rw [DataType.value, BitVec.toNat_ofInt]
      have := hnonneg rfl
      omega

end

/-- **Random integers cover their range** where its size is less than `2 ^ 31`, and so do the data of
images whose channels have fewer than 32 bits. -/
theorem random_iff {minV maxV : BitVec 32} (h : minV.toInt ≤ maxV.toInt) {format : ChannelType}
    {limits : ℤ × ℤ} (htype : integerLimits format = some limits) (dataType : DataType) :
    (Covers minV maxV ↔ maxV.toInt - minV.toInt + 1 < 2 ^ 31) ∧
      (TakesAll format limits dataType ↔ getChannelDataTypeSize format < 4) :=
  ⟨covers_iff h, randomData_iff htype dataType⟩

/-- Dice, and the formats of 8 bits. -/
theorem random_dice : Covers 1 6 ∧ TakesAll .signedInt8 (-128, 127) .kInt := by
  obtain ⟨hcovers, htakes⟩ := @random_iff 1 6 (by decide) .signedInt8 (-128, 127) rfl .kInt
  exact ⟨hcovers.mpr (by decide), htakes.mpr (by decide)⟩

/-- Among all values of an `int` only the least one is returned. -/
theorem not_covers : ¬ ∀ minV maxV : BitVec 32, minV.toInt ≤ maxV.toInt → Covers minV maxV := by
  intro h
  obtain ⟨g, hg⟩ := (h (BitVec.intMin 32) (BitVec.intMax 32) (by decide)).2 (BitVec.intMin 32 + 1)
    (by decide) (by decide)
  exact randomInRange_ne (.inl (by decide)) (by decide) g hg

end OpenCLCTS.Images
