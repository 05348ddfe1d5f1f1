import OpenCLCTS.Lib.FloatOrder
import OpenCLCTS.Lib.Loops

/-!
# Integers of 64 bits to `float`

Where the hardware cannot be asked to round a conversion in a given mode, the reference is put
together from the leading bits of the integer.

* `clz_eq`: the leading zeros.
* `roundsDown_result`: the leading bits are the greatest number that is not above the integer.
* `qcom_exact`: **the three modes round in their direction**, for signed and for unsigned integers.
-/

namespace OpenCLCTS.Conversions.Fplib

open FloatFormat Loops

/-- `roundingMode`. -/
inductive RoundingMode
  | qcomRTZ
  | qcomRTE
  | qcomRTP
  | qcomRTN
  | qcomRoundingModeCount

/-- `clz`. -/
def clz (value : BitVec 64) : ℕ :=
  (firstFound (fun numZeros => if 0x8000000000000000#64 &&& (value <<< numZeros) ≠ 0#64 then
    some numZeros else none) 64).getD 64

/-- The library function. -/
def nextafterf (x y : BitVec 32) : BitVec 32 := binary32.nextAfter x y

section

variable (data : BitVec 64)

def exponent : BitVec 32 := BitVec.ofNat 32 (127 + 64 - clz data - 1) <<< 23

def mantShift : ℤ := 40 - clz data

/-- `temp`, or `data << -mantShift`. -/
def shifted : BitVec 64 :=
  if 0 ≤ mantShift data then data >>> (mantShift data).toNat else data <<< (-mantShift data).toNat

def mantissa : BitVec 32 := (shifted data).setWidth 32 &&& 0x7fffff#32

/-- `exponent | mantissa`. -/
def result : BitVec 32 := exponent data ||| mantissa data

def inExact : Bool :=
  decide (0 ≤ mantShift data) && shifted data <<< (mantShift data).toNat != data

/-- `result` with the sign. -/
def signedResult : BitVec 32 :=
  if data.slt 0#64 then result (-data) ||| 0x80000000#32 else result data

/-- `qcom_s64_2_f32`; `toFloat` is the conversion of the processor. -/
def qcomS64_2_f32 (toFloat : ℤ → BitVec 32) : RoundingMode → BitVec 32
  | .qcomRTZ => if data = 0#64 then 0#32 else signedResult data
  | .qcomRTE => toFloat data.toInt
  | .qcomRTP =>
    if data = 0#64 then 0#32
    else if data = 0x8000000000000000#64 then 0xdf000000#32
    else if data.slt 0#64 then signedResult data
    else if inExact data then nextafterf (signedResult data) 0x7f7fffff#32
    else signedResult data
  | .qcomRTN =>
    if data = 0#64 then 0#32
    else if data = 0x8000000000000000#64 then 0xdf000000#32
    else if !data.slt 0#64 then signedResult data
    else if inExact (-data) then nextafterf (signedResult data) 0xff7fffff#32
    else signedResult data
  | .qcomRoundingModeCount => 0#32

/-- `qcom_u64_2_f32`. -/
def qcomU64_2_f32 (toFloat : ℤ → BitVec 32) : RoundingMode → BitVec 32
  | .qcomRTZ => if data = 0#64 then 0#32 else result data
  | .qcomRTE => toFloat data.toNat
  | .qcomRTP =>
    if data = 0#64 then 0#32
    else if inExact data then nextafterf (result data) 0x7f7fffff#32
    else result data
  | .qcomRTN => if data = 0#64 then 0#32 else result data
  | .qcomRoundingModeCount => 0#32

end

/-! ### The leading bits -/

section

variable {data : BitVec 64}

theorem and_shift_ne_zero_iff {k : ℕ} (hk : k < 64) :
    0x8000000000000000#64 &&& (data <<< k) ≠ 0#64 ↔ data.getLsbD (63 - k) = true := by
  have htwo : 0x8000000000000000#64 = BitVec.twoPow 64 63 := by decide
  have hbit : (data <<< k).getLsbD 63 = data.getLsbD (63 - k) := by
    rw [BitVec.getLsbD_shiftLeft]
    simp only [show 63 < 64 by omega, show ¬ 63 < k by omega, decide_true, decide_false,
      Bool.not_false, Bool.and_self, Bool.true_and]
  rw [htwo, BitVec.and_comm, BitVec.and_twoPow, hbit]
  split
  · rename_i h
    simp only [h, iff_true]
    decide
  · rename_i h
    simp only [h, ne_eq, not_true_eq_false, Bool.false_eq_true]

/-- **The leading zeros.** -/
theorem clz_eq (h : data ≠ 0#64) : clz data = 63 - data.toNat.log2 := by
  have hne : data.toNat ≠ 0 := fun h0 => h (BitVec.eq_of_toNat_eq (by rw [h0]; rfl))
  have hlog : data.toNat.log2 < 64 := (Nat.log2_lt hne).mpr data.isLt
  have hfound : firstFound (fun numZeros =>
      if 0x8000000000000000#64 &&& (data <<< numZeros) ≠ 0#64 then some numZeros else none) 64
        = some (63 - data.toNat.log2) := by
    rw [firstFound_eq_some_iff]
    refine ⟨63 - data.toNat.log2, by omega, ?_, ?_⟩
    · rw [if_pos]
      rw [and_shift_ne_zero_iff (by omega), show 63 - (63 - data.toNat.log2) = data.toNat.log2 by omega]
      exact Nat.testBit_log2 hne
    · intro j hj
      rw [if_neg]
      rw [and_shift_ne_zero_iff (by omega)]
      have hlt : data.toNat < 2 ^ (63 - j) :=
        lt_of_lt_of_le Nat.lt_log2_self (Nat.pow_le_pow_right two_pos (by omega))
      rw [BitVec.getLsbD, Nat.testBit_lt_two_pow hlt]
      exact Bool.false_ne_true
  rw [clz, hfound, Option.getD_some]

theorem toNat_ne_zero (h : data ≠ 0#64) : data.toNat ≠ 0 :=
  fun h0 => h (BitVec.eq_of_toNat_eq (by rw [h0]; rfl))

theorem log2_lt (h : data ≠ 0#64) : data.toNat.log2 < 64 :=
  (Nat.log2_lt (toNat_ne_zero h)).mpr data.isLt

theorem mantShift_eq (h : data ≠ 0#64) : mantShift data = data.toNat.log2 - 23 := by
  have hlog := log2_lt h
  rw [mantShift, clz_eq h]
  omega

/-- The leading bits, as a number. -/
def leading (data : BitVec 64) : ℚ := (shifted data).toNat * 2 ^ (data.toNat.log2 - 23 : ℤ)

/-- Shifting to the right: the bits that are lost make the result inexact. -/
theorem shifted_right (h : data ≠ 0#64) (hlog : 23 ≤ data.toNat.log2) :
    (shifted data).toNat = data.toNat / 2 ^ (data.toNat.log2 - 23) ∧
      (inExact data = true ↔
        data.toNat / 2 ^ (data.toNat.log2 - 23) * 2 ^ (data.toNat.log2 - 23) ≠ data.toNat) := by
  have hshift := mantShift_eq h
  obtain ⟨d, hd⟩ : ∃ d, d = data.toNat.log2 - 23 := ⟨_, rfl⟩
  have hnat : (mantShift data).toNat = d := by omega
  have htoNat : (shifted data).toNat = data.toNat / 2 ^ d := by
    rw [shifted, if_pos (by omega), hnat, BitVec.toNat_ushiftRight, Nat.shiftRight_eq_div_pow]
  have hle := Nat.div_mul_le_self data.toNat (2 ^ d)
  have hback : (shifted data <<< d).toNat = data.toNat / 2 ^ d * 2 ^ d := by
    rw [BitVec.toNat_shiftLeft, htoNat, Nat.shiftLeft_eq, Nat.mod_eq_of_lt]
    exact lt_of_le_of_lt hle data.isLt
  rw [← hd]
  refine ⟨htoNat, ?_⟩
  rw [inExact, hnat, decide_eq_true (by omega), Bool.true_and, bne_iff_ne, ne_eq,
    ← BitVec.toNat_inj, hback]

theorem shifted_left (h : data ≠ 0#64) (hlog : data.toNat.log2 < 23) :
    (shifted data).toNat = data.toNat * 2 ^ (23 - data.toNat.log2) ∧ inExact data = false := by
  have hshift := mantShift_eq h
  have hneg : ¬ 0 ≤ mantShift data := by omega
  have hnat : (-mantShift data).toNat = 23 - data.toNat.log2 := by omega
  refine ⟨?_, by rw [inExact, decide_eq_false hneg, Bool.false_and]⟩
  rw [shifted, if_neg hneg, hnat, BitVec.toNat_shiftLeft, Nat.shiftLeft_eq, Nat.mod_eq_of_lt]
  calc data.toNat * 2 ^ (23 - data.toNat.log2)
      < 2 ^ (data.toNat.log2 + 1) * 2 ^ (23 - data.toNat.log2) :=
        Nat.mul_lt_mul_of_pos_right Nat.lt_log2_self (Nat.two_pow_pos _)
    _ = 2 ^ 24 := by
        rw [← Nat.pow_add]
        congr 1
        omega
    _ ≤ 2 ^ 64 := by decide

/-- **24 bits are kept**, and what is lost is less than the last one. -/
theorem leading_spec (h : data ≠ 0#64) :
    2 ^ 23 ≤ (shifted data).toNat ∧ (shifted data).toNat < 2 ^ 24 ∧
      leading data ≤ data.toNat ∧
      data.toNat < leading data + 2 ^ (data.toNat.log2 - 23 : ℤ) ∧
      (inExact data = true ↔ leading data ≠ data.toNat) := by
  have hle := Nat.log2_self_le (toNat_ne_zero h)
  have hlt := Nat.lt_log2_self (n := data.toNat)
  rcases le_or_gt 23 data.toNat.log2 with hlog | hlog
  · obtain ⟨htoNat, hexact⟩ := shifted_right h hlog
    obtain ⟨d, hd⟩ : ∃ d, data.toNat.log2 = 23 + d := ⟨data.toNat.log2 - 23, by omega⟩
    have hexp : ((data.toNat.log2 : ℤ) - 23) = (d : ℤ) := by omega
    rw [leading, hexp, zpow_natCast, hexact, htoNat]
    rw [hd] at hle hlt ⊢
    rw [Nat.add_sub_cancel_left]
    have hpos := Nat.two_pow_pos d
    have hfloor := Nat.div_mul_le_self data.toNat (2 ^ d)
    have hceil := Nat.lt_div_mul_add (a := data.toNat) hpos
    refine ⟨?_, ?_, by exact_mod_cast hfloor, by exact_mod_cast hceil, ?_⟩
    · rw [Nat.le_div_iff_mul_le hpos, ← Nat.pow_add]
      exact hle
    · rw [Nat.div_lt_iff_lt_mul hpos, ← Nat.pow_add, show 24 + d = 23 + d + 1 by omega]
      exact hlt
    · rw [not_iff_not]
      exact_mod_cast Iff.rfl
  · obtain ⟨htoNat, hexact⟩ := shifted_left h hlog
    obtain ⟨d, hd⟩ : ∃ d, 23 = data.toNat.log2 + d := ⟨23 - data.toNat.log2, by omega⟩
    have hleading : leading data = data.toNat := by
      rw [leading, htoNat, show (data.toNat.log2 : ℤ) - 23 = -(d : ℤ) by omega,
        show 23 - data.toNat.log2 = d by omega, zpow_neg, zpow_natCast]
      push_cast
      exact mul_inv_cancel_right₀ (by positivity) _
    have hpos := two_zpow_pos (data.toNat.log2 - 23 : ℤ)
    rw [hleading, hexact, htoNat, show 23 - data.toNat.log2 = d by omega]
    refine ⟨?_, ?_, le_rfl, lt_add_of_pos_right _ hpos, by simp⟩
    · rw [hd, Nat.pow_add]
      exact Nat.mul_le_mul_right _ hle
    · rw [show 24 = data.toNat.log2 + 1 + d by omega, Nat.pow_add]
      exact Nat.mul_lt_mul_of_pos_right hlt (Nat.two_pow_pos d)

/-! ### The bits of the result -/

theorem exponent_toNat (h : data ≠ 0#64) :
    (exponent data).toNat = 2 ^ 23 * (127 + data.toNat.log2) := by
  have hlog := log2_lt h
  rw [exponent, BitVec.toNat_shiftLeft, BitVec.toNat_ofNat, clz_eq h, Nat.shiftLeft_eq,
    show 127 + 64 - (63 - data.toNat.log2) - 1 = 127 + data.toNat.log2 by omega]
  omega

theorem mantissa_toNat (h : data ≠ 0#64) :
    (mantissa data).toNat = (shifted data).toNat - 2 ^ 23 := by
  obtain ⟨hle, hlt, -⟩ := leading_spec h
  rw [mantissa, BitVec.toNat_and, BitVec.toNat_setWidth, show (0x7fffff#32).toNat = 2 ^ 23 - 1 by rfl,
    Nat.and_two_pow_sub_one_eq_mod]
  omega

theorem result_toNat (h : data ≠ 0#64) : (result data).toNat
    = 2 ^ 23 * (127 + data.toNat.log2) + ((shifted data).toNat - 2 ^ 23) := by
  obtain ⟨hle, hlt, -⟩ := leading_spec h
  rw [result, BitVec.toNat_or, exponent_toNat h, mantissa_toNat h,
    Nat.two_pow_add_eq_or_of_lt (by omega)]

theorem index_result (h : data ≠ 0#64) :
    binary32.index (result data) = ((result data).toNat : ℤ) ∧
      binary32.index (result data ||| 0x80000000#32) = -((result data).toNat : ℤ) ∧
      (result data).toNat < binary32.finiteCount := by
  obtain ⟨hle, hlt, -⟩ := leading_spec h
  have hlog := log2_lt h
  have hbits := result_toNat h
  have hcount : binary32.finiteCount = 255 * 2 ^ 23 := rfl
  have hsmall : (result data).toNat < 2 ^ 31 := by omega
  have hsign : (result data ||| 0x80000000#32).toNat = 2 ^ 31 + (result data).toNat := by
    have hor := Nat.two_pow_add_eq_or_of_lt hsmall 1
    rw [Nat.mul_one] at hor
    rw [BitVec.toNat_or, Nat.or_comm, show (0x80000000#32).toNat = 2 ^ 31 by rfl, hor]
  refine ⟨?_, ?_, by omega⟩
  · exact (index_of_toNat (f := binary32) (s := false) rfl hsmall (Nat.zero_add _).symm).2
  · exact (index_of_toNat (f := binary32) (s := true) rfl hsmall hsign).2

/-- **The result is made of the leading bits**, and the next number is one last bit larger. -/
theorem numberAt_result (h : data ≠ 0#64) :
    binary32.numberAt (result data).toNat = leading data ∧
      binary32.numberAt ((result data).toNat + 1)
        = leading data + 2 ^ (data.toNat.log2 - 23 : ℤ) := by
  obtain ⟨hle, hlt, -⟩ := leading_spec h
  have hbits := result_toNat h
  have hmant : (shifted data).toNat - 2 ^ 23 < 2 ^ binary32.mantissaBits := by
    rw [show binary32.mantissaBits = 23 from rfl]
    omega
  have hmagnitude := magnitude_mul_add (e := 127 + data.toNat.log2) hmant
  have hexp : ((max (127 + data.toNat.log2) 1 : ℕ) - 1 + binary32.minExp - binary32.mantissaBits : ℤ)
      = data.toNat.log2 - 23 := by
    rw [show binary32.minExp = -126 from rfl, show binary32.mantissaBits = 23 from rfl]
    omega
  have hsum : 2 ^ 23 + ((shifted data).toNat - 2 ^ 23) = (shifted data).toNat := by omega
  have hlast : binary32.lastBit (result data).toNat = data.toNat.log2 - 23 := by
    have hdiv : (result data).toNat / 2 ^ 23 = 127 + data.toNat.log2 := by omega
    rw [lastBit, show binary32.mantissaBits = 23 from rfl, hdiv]
    exact hexp
  rw [hexp, if_neg (by omega), show binary32.mantissaBits = 23 from rfl, hsum, ← hbits] at hmagnitude
  have hfirst : binary32.numberAt (result data).toNat = leading data := by
    rw [numberAt_natCast, hmagnitude, leading]
  refine ⟨hfirst, ?_⟩
  have hnext := binary32.numberAt_natCast ((result data).toNat + 1)
  rw [magnitude_succ, ← numberAt_natCast, hfirst, hlast] at hnext
  exact_mod_cast hnext

theorem value_result (h : data ≠ 0#64) : binary32.Finite (result data) ∧
    binary32.Finite (result data ||| 0x80000000#32) ∧
    binary32.value (result data) = leading data ∧
    binary32.value (result data ||| 0x80000000#32) = -leading data := by
  obtain ⟨hpos, hneg, hcount⟩ := index_result h
  obtain ⟨hnumber, -⟩ := numberAt_result h
  rw [finite_iff_abs_index, finite_iff_abs_index, value_eq_numberAt, value_eq_numberAt, hpos, hneg,
    numberAt_neg, hnumber, abs_neg, abs_of_nonneg (Int.natCast_nonneg _)]
  exact ⟨by exact_mod_cast hcount, by exact_mod_cast hcount, rfl, rfl⟩

/-! ### The directions -/

/-- The bits stand for the number that `R` takes `q` to, and 0 is not negative. -/
def RoundsTo (R : ℚ → ℚ → Prop) (q : ℚ) (b : BitVec 32) : Prop :=
  binary32.Finite b ∧ R q (binary32.value b) ∧ (q = 0 → b = 0#32)

theorem width_eq : 32 = binary32.mantissaBits + binary32.exponentBits + 1 := rfl

theorem roundsDown_result (h : data ≠ 0#64) :
    binary32.RoundsDown data.toNat (binary32.value (result data)) := by
  obtain ⟨hfinite, -, hvalue, -⟩ := value_result h
  obtain ⟨-, -, hle, hlt, -⟩ := leading_spec h
  obtain ⟨hindex, -⟩ := index_result h
  apply roundsDown_of_lt width_eq hfinite
  · rw [hvalue]
    exact hle
  · rw [hindex, (numberAt_result h).2]
    exact hlt

theorem roundsUp_neg_result (h : data ≠ 0#64) :
    binary32.RoundsUp (-data.toNat) (binary32.value (result data ||| 0x80000000#32)) := by
  obtain ⟨-, hfinite, -, hvalue⟩ := value_result h
  obtain ⟨-, -, hle, hlt, -⟩ := leading_spec h
  obtain ⟨-, hindex, -⟩ := index_result h
  apply roundsUp_of_lt width_eq hfinite
  · rw [hvalue]
    exact neg_le_neg hle
  · rw [hindex, ← neg_add', numberAt_neg, (numberAt_result h).2]
    exact neg_lt_neg hlt

theorem roundsUp_result (h : data ≠ 0#64) :
    binary32.Finite (if inExact data then nextafterf (result data) 0x7f7fffff#32 else result data) ∧
      binary32.RoundsUp data.toNat (binary32.value
        (if inExact data then nextafterf (result data) 0x7f7fffff#32 else result data)) := by
  obtain ⟨hfinite, -, hvalue, -⟩ := value_result h
  obtain ⟨-, -, hle, hlt, hexact⟩ := leading_spec h
  obtain ⟨hindex, -, -⟩ := index_result h
  obtain ⟨hnumber, hnext⟩ := numberAt_result h
  split
  · rename_i h'
    have hlarge : binary32.index (result data) < binary32.index (0x7f7fffff#32) := by
      have hbits := result_toNat h
      have hlog := log2_lt h
      have hspec := leading_spec h
      rw [hindex, show binary32.index (0x7f7fffff#32) = 0x7f7fffff by decide]
      omega
    obtain ⟨hup, hfinite'⟩ := nextAfter_of_lt width_eq (by decide) hfinite (by decide) hlarge
    refine ⟨hfinite', roundsUp_of_lt width_eq hfinite' ?_ ?_⟩
    · rw [value_eq_numberAt, hup, hindex, hnext]
      exact hlt.le
    · rw [hup, hindex, add_sub_cancel_right, hnumber]
      exact lt_of_le_of_ne hle (hexact.mp h')
  · rename_i h'
    have heq : leading data = data.toNat := not_not.mp fun hne => h' (hexact.mpr hne)
    refine ⟨hfinite, roundsUp_of_lt width_eq hfinite (by rw [hvalue, heq]) ?_⟩
    rw [← heq, ← hvalue, value_eq_numberAt]
    exact binary32.numberAt_strictMono (sub_one_lt _)

theorem roundsDown_neg_result (h : data ≠ 0#64) :
    binary32.Finite (if inExact data then nextafterf (result data ||| 0x80000000#32) 0xff7fffff#32
        else result data ||| 0x80000000#32) ∧
      binary32.RoundsDown (-data.toNat) (binary32.value
        (if inExact data then nextafterf (result data ||| 0x80000000#32) 0xff7fffff#32
          else result data ||| 0x80000000#32)) := by
  obtain ⟨-, hfinite, -, hvalue⟩ := value_result h
  obtain ⟨-, -, hle, hlt, hexact⟩ := leading_spec h
  obtain ⟨-, hindex, -⟩ := index_result h
  obtain ⟨hnumber, hnext⟩ := numberAt_result h
  split
  · rename_i h'
    have hlarge : binary32.index (0xff7fffff#32)
        < binary32.index (result data ||| 0x80000000#32) := by
      have hbits := result_toNat h
      have hlog := log2_lt h
      have hspec := leading_spec h
      rw [hindex, show binary32.index (0xff7fffff#32) = -0x7f7fffff by decide]
      omega
    obtain ⟨hdown, hfinite'⟩ := nextAfter_of_gt width_eq (by decide) hfinite (by decide) hlarge
    refine ⟨hfinite', roundsDown_of_lt width_eq hfinite' ?_ ?_⟩
    · rw [value_eq_numberAt, hdown, hindex, ← neg_add', numberAt_neg, hnext]
      exact neg_le_neg hlt.le
    · rw [hdown, hindex, sub_add_cancel, numberAt_neg, hnumber]
      exact neg_lt_neg (lt_of_le_of_ne hle (hexact.mp h'))
  · rename_i h'
    have heq : leading data = data.toNat := not_not.mp fun hne => h' (hexact.mpr hne)
    refine ⟨hfinite, roundsDown_of_lt width_eq hfinite (by rw [hvalue, heq]) ?_⟩
    rw [← heq, ← hvalue, value_eq_numberAt]
    exact binary32.numberAt_strictMono (lt_add_one _)

theorem roundsTo_zero : RoundsTo binary32.RoundsTowardZero 0 0#32 ∧
    RoundsTo binary32.RoundsUp 0 0#32 ∧ RoundsTo binary32.RoundsDown 0 0#32 := by
  have hfinite : binary32.Finite 0#32 := by decide
  have hindex : binary32.index 0#32 = 0 := by decide
  have hvalue : binary32.value 0#32 = 0 := by
    rw [value_eq_numberAt, hindex, ← Nat.cast_zero, numberAt_natCast, magnitude_zero]
  have hdown : binary32.RoundsDown 0 (binary32.value 0#32) := by
    refine roundsDown_of_lt width_eq hfinite hvalue.le ?_
    rw [← hvalue, value_eq_numberAt]
    exact binary32.numberAt_strictMono (lt_add_one _)
  have hup : binary32.RoundsUp 0 (binary32.value 0#32) := by
    refine roundsUp_of_lt width_eq hfinite hvalue.ge ?_
    rw [← hvalue, value_eq_numberAt]
    exact binary32.numberAt_strictMono (sub_one_lt _)
  refine ⟨⟨hfinite, ?_, fun _ => rfl⟩, ⟨hfinite, hup, fun _ => rfl⟩, hfinite, hdown, fun _ => rfl⟩
  rw [RoundsTowardZero, if_pos le_rfl]
  exact hdown

/-- `qcom_u64_2_f32` is exact. -/
theorem qcomU64_exact (toFloat : ℤ → BitVec 32) (data : BitVec 64) :
    RoundsTo binary32.RoundsTowardZero data.toNat (qcomU64_2_f32 data toFloat .qcomRTZ) ∧
      RoundsTo binary32.RoundsUp data.toNat (qcomU64_2_f32 data toFloat .qcomRTP) ∧
      RoundsTo binary32.RoundsDown data.toNat (qcomU64_2_f32 data toFloat .qcomRTN) := by
  rw [qcomU64_2_f32, qcomU64_2_f32, qcomU64_2_f32]
  by_cases h : data = 0#64
  · subst h
    exact roundsTo_zero
  · have hne : (data.toNat : ℚ) ≠ 0 := Nat.cast_ne_zero.mpr (toNat_ne_zero h)
    obtain ⟨hfinite, -⟩ := value_result h
    have hdown := roundsDown_result h
    obtain ⟨hfinite', hup⟩ := roundsUp_result h
    rw [if_neg h, if_neg h]
    refine ⟨⟨hfinite, ?_, fun h0 => absurd h0 hne⟩, ⟨hfinite', hup, fun h0 => absurd h0 hne⟩,
      hfinite, hdown, fun h0 => absurd h0 hne⟩
    rw [RoundsTowardZero, if_pos (Nat.cast_nonneg _)]
    exact hdown

/-- The absolute value of a negative number; the one of the least number is not signed. -/
theorem toInt_of_slt (h : data.slt 0#64 = true) :
    -data ≠ 0#64 ∧ data.toInt = -((-data).toNat : ℤ) := by
  have hlt : data.toInt < 0 := by
    rw [BitVec.slt, decide_eq_true_eq] at h
    exact h
  have hcond := BitVec.toInt_eq_toNat_cond data
  have hle := data.isLt
  have hneg : (-data).toNat = 2 ^ 64 - data.toNat := by
    rw [BitVec.toNat_neg, Nat.mod_eq_of_lt]
    split at hcond <;> omega
  constructor
  · intro h0
    rw [h0] at hneg
    have : (0#64).toNat = 0 := rfl
    omega
  · rw [hneg]
    split at hcond <;> omega

theorem toInt_of_not_slt (h : ¬ data.slt 0#64 = true) : data.toInt = data.toNat := by
  have hge : ¬ data.toInt < 0 := by
    intro hlt
    exact h (by rw [BitVec.slt, decide_eq_true_eq]; exact hlt)
  have hcond := BitVec.toInt_eq_toNat_cond data
  have hle := data.isLt
  split at hcond <;> omega

/-- The least number needs no case of its own. -/
theorem least_eq : signedResult 0x8000000000000000#64 = 0xdf000000#32 ∧
    inExact (-0x8000000000000000#64) = false ∧ (0x8000000000000000#64).slt 0#64 = true := by
  decide

theorem qcomS64_eq (toFloat : ℤ → BitVec 32) (h : data ≠ 0#64) :
    qcomS64_2_f32 data toFloat .qcomRTZ = signedResult data ∧
      qcomS64_2_f32 data toFloat .qcomRTP = (if data.slt 0#64 then signedResult data
        else if inExact data then nextafterf (signedResult data) 0x7f7fffff#32
        else signedResult data) ∧
      qcomS64_2_f32 data toFloat .qcomRTN = (if !data.slt 0#64 then signedResult data
        else if inExact (-data) then nextafterf (signedResult data) 0xff7fffff#32
        else signedResult data) := by
  obtain ⟨hleast, hexact, hslt⟩ := least_eq
  rw [qcomS64_2_f32, qcomS64_2_f32, qcomS64_2_f32, if_neg h, if_neg h, if_neg h]
  refine ⟨rfl, ?_, ?_⟩
  · split
    · rename_i heq
      rw [heq, hslt, if_pos rfl, hleast]
    · rfl
  · split
    · rename_i heq
      rw [heq, hslt, hexact, hleast]
      rfl
    · rfl

/-- **The three modes round in their direction**, for signed and for unsigned integers. -/
theorem qcom_exact (toFloat : ℤ → BitVec 32) (data : BitVec 64) :
    (RoundsTo binary32.RoundsTowardZero data.toInt (qcomS64_2_f32 data toFloat .qcomRTZ) ∧
      RoundsTo binary32.RoundsUp data.toInt (qcomS64_2_f32 data toFloat .qcomRTP) ∧
      RoundsTo binary32.RoundsDown data.toInt (qcomS64_2_f32 data toFloat .qcomRTN)) ∧
    RoundsTo binary32.RoundsTowardZero data.toNat (qcomU64_2_f32 data toFloat .qcomRTZ) ∧
      RoundsTo binary32.RoundsUp data.toNat (qcomU64_2_f32 data toFloat .qcomRTP) ∧
      RoundsTo binary32.RoundsDown data.toNat (qcomU64_2_f32 data toFloat .qcomRTN) := by
  refine ⟨?_, qcomU64_exact toFloat data⟩
  by_cases h : data = 0#64
  · subst h
    exact roundsTo_zero
  · obtain ⟨hzero, hup, hdown⟩ := qcomS64_eq toFloat h
    rw [hzero, hup, hdown, signedResult]
    by_cases hslt : data.slt 0#64 = true
    · obtain ⟨hne, hint⟩ := toInt_of_slt hslt
      have hq : (data.toInt : ℚ) = -(-data).toNat := by exact_mod_cast hint
      have hne' : (-((-data).toNat : ℚ)) ≠ 0 :=
        neg_ne_zero.mpr (Nat.cast_ne_zero.mpr (toNat_ne_zero hne))
      have hneg : ¬ (0 : ℚ) ≤ -((-data).toNat : ℚ) := by
        have hnonneg : (0 : ℚ) ≤ ((-data).toNat : ℚ) := Nat.cast_nonneg _
        intro hle
        exact hne' (le_antisymm (neg_nonpos.mpr hnonneg) hle)
      obtain ⟨-, hfinite, -⟩ := value_result hne
      have htoward := roundsUp_neg_result hne
      obtain ⟨hfinite', hbelow⟩ := roundsDown_neg_result hne
      rw [hq, if_pos hslt, hslt, if_pos rfl, Bool.not_true, if_neg Bool.false_ne_true]
      refine ⟨⟨hfinite, ?_, fun h0 => absurd h0 hne'⟩, ⟨hfinite, htoward, fun h0 => absurd h0 hne'⟩,
        hfinite', hbelow, fun h0 => absurd h0 hne'⟩
      rw [RoundsTowardZero, if_neg hneg]
      exact htoward
    · have hq : (data.toInt : ℚ) = data.toNat := by exact_mod_cast toInt_of_not_slt hslt
      obtain ⟨htoward, habove, hbelow⟩ := qcomU64_exact toFloat data
      rw [qcomU64_2_f32, if_neg h] at htoward
      rw [qcomU64_2_f32, if_neg h] at habove
      rw [qcomU64_2_f32, if_neg h] at hbelow
      rw [hq, if_neg hslt, if_neg hslt, Bool.eq_false_of_not_eq_true hslt, Bool.not_false, if_pos rfl]
      exact ⟨htoward, habove, hbelow⟩

end

end OpenCLCTS.Conversions.Fplib
