import OpenCLCTS.IntegerOps.MadSat

/-!
# Averages, rotations and counts of zero bits

The verifiers of `hadd`, `rhadd`, `rotate`, `clz` and `ctz`.  Narrow types are averaged in
`cl_long`, and 64-bit types without their low bits; the bits of all types are counted in a
variable of type `cl_long`.

* `countLoop_eq`: a loop that counts ends at the first round that is done.
* `references_exact`: **averages are rounded down or up, rotations are by the amount modulo the
  width, and the loops end with the number of zero bits.**
-/

namespace OpenCLCTS.IntegerOps

open Conversions

/-! ### The verifiers -/

section

variable (t : CType) (a b : BitVec t.bits)

/-- The cases of `verify_integer_hadd` that add numbers of type `cl_long`. -/
def haddNarrow : BitVec t.bits :=
  CType.convert .long t ((toLong t a + toLong t b).sshiftRight 1)

/-- The cases that go the long way to avoid dropping bits. -/
def haddWide : BitVec t.bits :=
  let overflow := (a &&& 1#t.bits) + (b &&& 1#t.bits)
  t.shiftRight a 1 + t.shiftRight b 1 + t.shiftRight overflow 1

/-- The cases of `verify_integer_rhadd` that add numbers of type `cl_long`. -/
def rhaddNarrow : BitVec t.bits :=
  CType.convert .long t ((toLong t a + toLong t b + 1).sshiftRight 1)

/-- The cases that go the long way to avoid dropping bits. -/
def rhaddWide : BitVec t.bits :=
  let overflow := (a ||| b) &&& 1#t.bits
  t.shiftRight a 1 + t.shiftRight b 1 + overflow

/-- The conversion to `char`. -/
def toChar : BitVec 8 := CType.convert t .schar b

/-- `numBits`, a variable of type `char`, masked with the width less one. -/
def numBits : BitVec 8 :=
  ((toChar t b).signExtend 32 &&& BitVec.ofNat 32 (t.bits - 1)).setWidth 8

/-- `x << n`; not defined for an amount that is negative or the width of `x`. -/
def shiftedLeft (x : BitVec 64) (n : ℤ) : Option (BitVec 64) :=
  if 0 ≤ n ∧ n < 64 then some (x <<< n.toNat) else none

/-- `x >> n`. -/
def shiftedRight (x : BitVec 64) (n : ℤ) : Option (BitVec 64) :=
  if 0 ≤ n ∧ n < 64 then some (x >>> n.toNat) else none

/-- A case of `verify_integer_rotate`, of an unsigned type. -/
def rotateCase : Option (BitVec t.bits) :=
  let testValueA := toUlong t a
  if numBits t b = 0 then some (CType.convert .ulong t testValueA)
  else do
    let left ← shiftedLeft testValueA (numBits t b).toInt
    let right ← shiftedRight testValueA (t.bits - (numBits t b).toInt)
    some (CType.convert .ulong t (left ||| right))

end

/-- `verify_integer_hadd`; `none` if it returns false. -/
def verifyIntegerHadd : (vecType : ExplicitType) →
    (sourceA sourceB : BitVec vecType.cType.bits) → Option (BitVec vecType.cType.bits)
  | .kChar, a, b => some (haddNarrow .schar a b)
  | .kUChar, a, b => some (haddNarrow .uchar a b)
  | .kShort, a, b => some (haddNarrow .short a b)
  | .kUShort, a, b => some (haddNarrow .ushort a b)
  | .kInt, a, b => some (haddNarrow .int a b)
  | .kUInt, a, b => some (haddNarrow .uint a b)
  | .kLong, a, b => some (haddWide .long a b)
  | .kULong, a, b => some (haddWide .ulong a b)
  | _, _, _ => none

/-- `verify_integer_rhadd`; `none` if it returns false. -/
def verifyIntegerRhadd : (vecType : ExplicitType) →
    (sourceA sourceB : BitVec vecType.cType.bits) → Option (BitVec vecType.cType.bits)
  | .kChar, a, b => some (rhaddNarrow .schar a b)
  | .kUChar, a, b => some (rhaddNarrow .uchar a b)
  | .kShort, a, b => some (rhaddNarrow .short a b)
  | .kUShort, a, b => some (rhaddNarrow .ushort a b)
  | .kInt, a, b => some (rhaddNarrow .int a b)
  | .kUInt, a, b => some (rhaddNarrow .uint a b)
  | .kLong, a, b => some (rhaddWide .long a b)
  | .kULong, a, b => some (rhaddWide .ulong a b)
  | _, _, _ => none

/-- `verify_integer_rotate`; `none` if it aborts, or a shift is not defined. -/
def verifyIntegerRotate : (vecType : ExplicitType) →
    (sourceA sourceB : BitVec vecType.cType.bits) → Option (BitVec vecType.cType.bits)
  | .kChar, a, b | .kUChar, a, b => rotateCase .uchar a b
  | .kShort, a, b | .kUShort, a, b => rotateCase .ushort a b
  | .kInt, a, b | .kUInt, a, b => rotateCase .uint a b
  | .kLong, a, b | .kULong, a, b => rotateCase .ulong a b
  | _, _, _ => none

/-- A loop that counts rounds until one is done; `none` if `fuel` is too small. -/
def countLoop (done : BitVec 64 → Bool) (next : BitVec 64 → BitVec 64) :
    (fuel : ℕ) → (testValue : BitVec 64) → (count : BitVec 32) → Option (BitVec 32)
  | 0, _, _ => none
  | fuel + 1, testValue, count =>
    if done testValue then some count else countLoop done next fuel (next testValue) (count + 1)

section

variable (t : CType) (fuel : ℕ) (source : BitVec t.bits)

/-- `count` of `verify_integer_clz`. -/
def clzCount : Option (BitVec 32) :=
  let testValue := toLong t source
  let typeBits := t.bits
  if testValue ≠ 0 then
    countLoop (fun v => v &&& longMin != 0) (· <<< 1) fuel (testValue <<< (64 - typeBits)) 0
  else some (BitVec.ofNat 32 typeBits)

/-- `count` of `verify_integer_ctz`. -/
def ctzCount : Option (BitVec 32) :=
  let testValue := toLong t source
  let typeBits := t.bits
  if testValue = 0 then some (BitVec.ofNat 32 typeBits)
  else countLoop (fun v => v &&& 1 != 0) (·.sshiftRight 1) fuel testValue 0

end

/-- The conversion of a count. -/
def storeCount (t : CType) (count : BitVec 32) : BitVec t.bits := CType.convert .int t count

/-- The `switch` statements around a count; `none` if the loop has not ended, and `some none` if
false is returned. -/
def verifyIntegerCount (count : (t : CType) → BitVec t.bits → Option (BitVec 32))
    (vecType : ExplicitType) (source : BitVec vecType.cType.bits) :
    Option (Option (BitVec vecType.cType.bits)) :=
  if vecType ∈ vecTypes then
    (count vecType.cType source).map fun c => some (storeCount vecType.cType c)
  else some none

/-- `verify_integer_clz`. -/
def verifyIntegerClz (fuel : ℕ) := verifyIntegerCount fun t => clzCount t fuel

/-- `verify_integer_ctz`. -/
def verifyIntegerCtz (fuel : ℕ) := verifyIntegerCount fun t => ctzCount t fuel

/-! ### Averages -/

section

variable {t : CType} {a b : BitVec t.bits}

theorem value_add_of_mem {x y : BitVec t.bits} (hlo : t.least ≤ t.value x + t.value y)
    (hhi : t.value x + t.value y ≤ t.greatest) : t.value (x + y) = t.value x + t.value y := by
  rw [CType.respects_add t x y, CType.wrap_eq_self hlo hhi]

theorem value_half (x : BitVec t.bits) : t.value (t.shiftRight x 1) = t.value x / 2 := by
  rw [CType.value_shiftRight, Int.shiftRight_eq_div_pow]
  rfl

/-- The middle of two values of the type, rounded either way, is one. -/
theorem average_mem {c : ℤ} (hlo : 0 ≤ c) (hhi : c ≤ 1) :
    t.least ≤ (t.value a + t.value b + c) / 2 ∧
      (t.value a + t.value b + c) / 2 ≤ t.greatest := by
  obtain ⟨ha, ha'⟩ := CType.value_mem a
  obtain ⟨hb, hb'⟩ := CType.value_mem b
  omega

theorem value_average_narrow {c : ℤ} {s : BitVec 64} (hlo : 0 ≤ c) (hhi : c ≤ 1)
    (hs : s.toInt = t.value a + t.value b + c) :
    t.value (CType.convert .long t (s.sshiftRight 1)) = (t.value a + t.value b + c) / 2 := by
  have hhalf : CType.long.value (s.sshiftRight 1) = (t.value a + t.value b + c) / 2 := by
    rw [← hs]
    exact value_half (t := .long) s
  obtain ⟨hleast, hgreatest⟩ := average_mem (a := a) (b := b) hlo hhi
  rw [← hhalf] at hleast hgreatest
  rw [CType.value_convert hleast hgreatest, hhalf]

/-- Values of the narrow types are far from the limits of `cl_long`. -/
theorem value_mem_narrow (ht : t.bits ≤ 32) (x : BitVec t.bits) :
    -2 ^ 32 ≤ t.value x ∧ t.value x < 2 ^ 32 := by
  have hlimits : -2 ^ 32 ≤ t.least ∧ t.greatest < 2 ^ 32 := by
    revert ht
    cases t <;> decide
  obtain ⟨hlo, hhi⟩ := CType.value_mem x
  omega

theorem toInt_sum_narrow (ht : t.bits ≤ 32) :
    (toLong t a + toLong t b).toInt = t.value a + t.value b := by
  have hulong : t ≠ .ulong := by
    rintro rfl
    exact absurd ht (by decide)
  obtain ⟨ha, ha'⟩ := value_mem_narrow ht a
  obtain ⟨hb, hb'⟩ := value_mem_narrow ht b
  have hsum := value_add_of_mem (t := .long) (x := toLong t a) (y := toLong t b)
  simp only [CType.value, CType.least, CType.greatest, CType.signed, CType.bits, if_true] at hsum
  rw [toLong_toInt a hulong, toLong_toInt b hulong] at hsum
  exact hsum (by omega) (by omega)

theorem haddNarrow_value (ht : t.bits ≤ 32) :
    t.value (haddNarrow t a b) = (t.value a + t.value b) / 2 := by
  have h := value_average_narrow (t := t) (a := a) (b := b) (c := 0) le_rfl (by decide)
    (by rw [toInt_sum_narrow ht, add_zero])
  rwa [add_zero] at h

theorem rhaddNarrow_value (ht : t.bits ≤ 32) :
    t.value (rhaddNarrow t a b) = (t.value a + t.value b + 1) / 2 := by
  refine value_average_narrow (by decide) le_rfl ?_
  obtain ⟨ha, ha'⟩ := value_mem_narrow ht a
  obtain ⟨hb, hb'⟩ := value_mem_narrow ht b
  rw [BitVec.toInt_add, toInt_sum_narrow ht, show (1 : BitVec 64).toInt = 1 by decide,
    Int.bmod_eq_of_le (by omega) (by omega)]

theorem wide_limits (ht : t.bits = 64) : t.least = -2 ^ 63 ∧ t.greatest = 2 ^ 63 - 1 ∨
    t.least = 0 ∧ t.greatest = 2 ^ 64 - 1 := by
  revert ht
  cases t <;> decide

theorem value_of_toNat (ht : t.bits = 64) {x : BitVec t.bits} {n : ℕ} (hx : x.toNat = n)
    (hn : n < 2 ^ 63) : t.value x = n := by
  rw [CType.value, BitVec.toInt_eq_toNat_of_lt (by rw [hx, ht]; omega), hx, ite_self]

theorem value_mod_two (ht : t.bits = 64) (x : BitVec t.bits) :
    t.value x % 2 = (x.toNat % 2 : ℕ) := by
  have hpow : 2 ^ t.bits = 2 ^ 64 := congrArg (2 ^ ·) ht
  rw [CType.value, BitVec.toInt_eq_toNat_cond, hpow]
  split
  · split
    · push_cast
      rfl
    · push_cast
      omega
  · push_cast
    rfl

theorem one_mod_two_pow (t : CType) : 1 % 2 ^ t.bits = 1 := by
  cases t <;> rfl

theorem value_low (ht : t.bits = 64) (x : BitVec t.bits) :
    t.value (x &&& 1#t.bits) = t.value x % 2 := by
  rw [value_mod_two ht]
  refine value_of_toNat ht ?_ (by omega)
  rw [BitVec.toNat_and, BitVec.toNat_ofNat, one_mod_two_pow, Nat.and_one_is_mod]

theorem value_low_or (ht : t.bits = 64) (x y : BitVec t.bits) :
    t.value ((x ||| y) &&& 1#t.bits) = (t.value x % 2 + t.value y % 2 + 1) / 2 := by
  rw [value_mod_two ht, value_mod_two ht]
  have hbits : ((x ||| y) &&& 1#t.bits).toNat = (x.toNat % 2 + y.toNat % 2 + 1) / 2 := by
    rw [BitVec.toNat_and, BitVec.toNat_or, BitVec.toNat_ofNat, one_mod_two_pow,
      Nat.and_or_distrib_right, Nat.and_one_is_mod, Nat.and_one_is_mod]
    obtain hx | hx := Nat.mod_two_eq_zero_or_one x.toNat <;>
      obtain hy | hy := Nat.mod_two_eq_zero_or_one y.toNat <;> rw [hx, hy] <;> rfl
  rw [value_of_toNat ht hbits (by omega)]
  push_cast
  rfl

theorem value_halves (ht : t.bits = 64) {c : BitVec t.bits} (hlo : 0 ≤ t.value c)
    (hhi : t.value c ≤ (t.value a % 2 + t.value b % 2 + 1) / 2) :
    t.value (t.shiftRight a 1 + t.shiftRight b 1 + c)
      = t.value a / 2 + t.value b / 2 + t.value c := by
  obtain ⟨ha, ha'⟩ := CType.value_mem a
  obtain ⟨hb, hb'⟩ := CType.value_mem b
  have hlimits := wide_limits ht
  have hsum : t.value (t.shiftRight a 1 + t.shiftRight b 1) = t.value a / 2 + t.value b / 2 := by
    rw [value_add_of_mem, value_half, value_half]
    · rw [value_half, value_half]
      omega
    · rw [value_half, value_half]
      omega
  rw [value_add_of_mem, hsum]
  · rw [hsum]
    omega
  · rw [hsum]
    omega

/-- **What the halves lose is carried out of the lowest bits.** -/
theorem haddWide_value (ht : t.bits = 64) :
    t.value (haddWide t a b) = (t.value a + t.value b) / 2 := by
  have hlimits := wide_limits ht
  have hoverflow : t.value (t.shiftRight ((a &&& 1#t.bits) + (b &&& 1#t.bits)) 1)
      = (t.value a % 2 + t.value b % 2) / 2 := by
    rw [value_half, value_add_of_mem, value_low ht, value_low ht]
    · rw [value_low ht, value_low ht]
      omega
    · rw [value_low ht, value_low ht]
      omega
  rw [haddWide, value_halves ht, hoverflow]
  · omega
  · rw [hoverflow]
    omega
  · rw [hoverflow]
    omega

/-- **A lost bit rounds up.** -/
theorem rhaddWide_value (ht : t.bits = 64) :
    t.value (rhaddWide t a b) = (t.value a + t.value b + 1) / 2 := by
  have hoverflow := value_low_or ht a b
  rw [rhaddWide, value_halves ht, hoverflow]
  · omega
  · rw [hoverflow]
    omega
  · rw [hoverflow]

end

/-! ### Rotations -/

section

variable {t : CType} {a b : BitVec t.bits}

theorem bits_eq_two_pow (t : CType) : ∃ k ≤ 6, t.bits = 2 ^ k := by
  cases t
  case schar | uchar => exact ⟨3, by decide, rfl⟩
  case short | ushort => exact ⟨4, by decide, rfl⟩
  case int | uint => exact ⟨5, by decide, rfl⟩
  case long | ulong => exact ⟨6, by decide, rfl⟩

theorem convert_eq_setWidth {s : CType} (h : t.bits ≤ s.bits) (x : BitVec s.bits) :
    CType.convert s t x = x.setWidth t.bits := by
  rw [CType.convert, ← CType.setWidth_ofInt h, CType.ofInt_value]

theorem convert_ulong (x : BitVec 64) : CType.convert .ulong t x = x.setWidth t.bits :=
  convert_eq_setWidth (s := .ulong) (by cases t <;> decide) x

theorem toChar_eq (b : BitVec t.bits) : toChar t b = b.setWidth 8 :=
  convert_eq_setWidth (t := .schar) (by cases t <;> decide) b

theorem setWidth_signExtend (x : BitVec 8) : (x.signExtend 32).setWidth 8 = x := by
  refine BitVec.eq_of_getLsbD_eq ?_
  intro i hi
  have hwide : i < 32 := by omega
  rw [BitVec.getLsbD_setWidth, BitVec.getLsbD_signExtend]
  simp [hi, hwide]

/-- **The amount, modulo the width.** -/
theorem numBits_toNat (b : BitVec t.bits) : (numBits t b).toNat = b.toNat % t.bits := by
  obtain ⟨k, hk, hbits⟩ := bits_eq_two_pow t
  have hpow : 2 ^ k ≤ 2 ^ 6 := Nat.pow_le_pow_right two_pos hk
  have hmask : (BitVec.ofNat 32 (t.bits - 1)).toNat = 2 ^ k - 1 := by
    rw [BitVec.toNat_ofNat, hbits]
    exact Nat.mod_eq_of_lt (by omega)
  have hlow : ((toChar t b).signExtend 32).toNat % 2 ^ 8 = b.toNat % 2 ^ 8 := by
    rw [← BitVec.toNat_setWidth, setWidth_signExtend, toChar_eq, BitVec.toNat_setWidth]
  have hmod (x : ℕ) : x % 2 ^ k = x % 2 ^ 8 % 2 ^ k :=
    (Nat.mod_mod_of_dvd x (pow_dvd_pow 2 (by omega))).symm
  rw [numBits, BitVec.toNat_setWidth, BitVec.toNat_and, hmask, Nat.and_two_pow_sub_one_eq_mod,
    hmod, hlow, ← hmod, ← hbits, Nat.mod_eq_of_lt]
  have hlt := Nat.mod_lt b.toNat t.bits_pos
  omega

theorem numBits_toInt (b : BitVec t.bits) : (numBits t b).toInt = (b.toNat % t.bits : ℕ) := by
  obtain ⟨k, hk, hbits⟩ := bits_eq_two_pow t
  have hpow : 2 ^ k ≤ 2 ^ 6 := Nat.pow_le_pow_right two_pos hk
  have hlt := Nat.mod_lt b.toNat t.bits_pos
  rw [BitVec.toInt_eq_toNat_of_lt (by rw [numBits_toNat]; omega), numBits_toNat]

/-- **The amount is no shift by the width**, and neither is what is left of the width. -/
theorem numBits_mem (t : CType) (b : BitVec t.bits) :
    numBits t b = 0 ∨ 0 < (numBits t b).toInt ∧ (numBits t b).toInt < t.bits := by
  have hlt := Nat.mod_lt b.toNat t.bits_pos
  rw [numBits_toInt]
  by_cases hzero : b.toNat % t.bits = 0
  · exact .inl (BitVec.eq_of_toNat_eq (by rw [numBits_toNat, hzero]; rfl))
  · right
    omega

theorem rotateCase_eq (ht : t.signed = false) (a b : BitVec t.bits) :
    rotateCase t a b = some (a.rotateLeft b.toNat) := by
  obtain ⟨k, hk, hbits⟩ := bits_eq_two_pow t
  have hpow : 2 ^ k ≤ 2 ^ 6 := Nat.pow_le_pow_right two_pos hk
  have hwidth : t.bits ≤ 64 := by
    omega
  have hlt := Nat.mod_lt b.toNat t.bits_pos
  have hself : toUlong t a = a.setWidth 64 := by
    refine BitVec.eq_of_toNat_eq ?_
    have hvalue := toUlong_toNat a ht
    rw [CType.value, ht, if_neg Bool.false_ne_true] at hvalue
    rw [BitVec.toNat_setWidth_of_le hwidth]
    exact_mod_cast hvalue
  rw [rotateCase, hself, numBits_toInt, ← BitVec.rotateLeft_mod_eq_rotateLeft]
  by_cases hzero : numBits t b = 0
  · have hmod : b.toNat % t.bits = 0 := by
      rw [← numBits_toNat, hzero]
      rfl
    rw [if_pos hzero, hmod, convert_ulong, BitVec.setWidth_setWidth_of_le _ hwidth,
      BitVec.setWidth_eq]
    simp [BitVec.rotateLeft_def, BitVec.ushiftRight_eq_zero]
  · have hmod : b.toNat % t.bits ≠ 0 := by
      intro h
      exact hzero (BitVec.eq_of_toNat_eq (by rw [numBits_toNat, h]; rfl))
    have hleft : (0 : ℤ) ≤ (b.toNat % t.bits : ℕ) ∧ ((b.toNat % t.bits : ℕ) : ℤ) < 64 := by
      omega
    have hright : 0 ≤ (t.bits : ℤ) - (b.toNat % t.bits : ℕ) ∧
        (t.bits : ℤ) - (b.toNat % t.bits : ℕ) < 64 := by
      omega
    have hamount : ((t.bits : ℤ) - (b.toNat % t.bits : ℕ)).toNat = t.bits - b.toNat % t.bits := by
      omega
    rw [if_neg hzero, shiftedLeft, if_pos hleft, shiftedRight, if_pos hright]
    simp only [Option.bind_eq_bind, Option.bind_some]
    rw [convert_ulong, BitVec.rotateLeft_def, Nat.mod_mod, BitVec.setWidth_or,
      BitVec.setWidth_shiftLeft_of_le hwidth, BitVec.setWidth_setWidth_of_le _ hwidth,
      BitVec.setWidth_eq, hamount, ← BitVec.setWidth_ushiftRight hwidth,
      BitVec.setWidth_setWidth_of_le _ hwidth, BitVec.setWidth_eq, Int.toNat_natCast]

end

/-! ### Zero bits -/

/-- **A loop ends at the first round that is done.** -/
theorem countLoop_eq {done : BitVec 64 → Bool} {next : BitVec 64 → BitVec 64} {n : ℕ}
    {v : BitVec 64} (hdone : done (next^[n] v) = true)
    (hbefore : ∀ k < n, done (next^[k] v) = false) (extra : ℕ) (count : BitVec 32) :
    countLoop done next (n + 1 + extra) v count = some (count + BitVec.ofNat 32 n) := by
  induction n generalizing v count with
  | zero =>
    have hv : done v = true := hdone
    rw [Nat.zero_add, Nat.add_comm, countLoop, if_pos hv, BitVec.add_zero]
  | succ n ih =>
    have hv : done v = false := hbefore 0 (Nat.succ_pos n)
    rw [show n + 1 + 1 + extra = (n + 1 + extra) + 1 by omega, countLoop, hv,
      if_neg Bool.false_ne_true, ih hdone fun k hk => hbefore (k + 1) (Nat.succ_lt_succ hk),
      BitVec.add_assoc, BitVec.ofNat_add, BitVec.add_comm 1]
    rfl

section

variable {t : CType} {source : BitVec t.bits}

theorem toLong_low {k : ℕ} (hk : k < t.bits) :
    (toLong t source).getLsbD k = source.getLsbD k :=
  CType.getLsbD_convert hk (lt_of_lt_of_le hk (by cases t <;> decide)) source

theorem toLong_eq_zero_iff : toLong t source = 0 ↔ source = 0#t.bits := by
  have hzero : toLong t 0#t.bits = 0 := by
    cases t <;> decide
  constructor
  · intro h
    refine BitVec.eq_of_getLsbD_eq ?_
    intro k hk
    rw [← toLong_low hk, h, BitVec.getLsbD_zero]
    simp
  · intro h
    rw [h, hzero]

theorem iterate_shiftLeft (v : BitVec 64) (k : ℕ) :
    (fun x : BitVec 64 => x <<< 1)^[k] v = v <<< k := by
  induction k with
  | zero => simp
  | succ k ih => rw [Function.iterate_succ_apply', ih, ← BitVec.shiftLeft_add]

theorem iterate_sshiftRight (v : BitVec 64) (k : ℕ) :
    (fun x : BitVec 64 => x.sshiftRight 1)^[k] v = v.sshiftRight k := by
  induction k with
  | zero => simp
  | succ k ih => rw [Function.iterate_succ_apply', ih, ← BitVec.sshiftRight_add]

theorem and_twoPow_bne_zero (v : BitVec 64) {i : ℕ} (hi : i < 64) :
    (v &&& BitVec.twoPow 64 i != 0) = v.getLsbD i := by
  have hne : BitVec.twoPow 64 i ≠ 0 := by
    intro h
    have hbit := congrArg (BitVec.getLsbD · i) h
    simp [hi] at hbit
  rw [BitVec.and_twoPow]
  cases v.getLsbD i with
  | false => rfl
  | true => simpa using hne

theorem and_longMin (v : BitVec 64) : (v &&& longMin != 0) = v.getLsbD 63 :=
  and_twoPow_bne_zero v (by decide)

theorem and_one (v : BitVec 64) : (v &&& 1 != 0) = v.getLsbD 0 :=
  and_twoPow_bne_zero v (i := 0) (by decide)

theorem count_lt {x : BitVec t.bits} (h : x < (t.bits : BitVec t.bits)) : x.toNat < t.bits := by
  rw [BitVec.lt_def, BitVec.natCast_eq_ofNat, BitVec.toNat_ofNat,
    Nat.mod_eq_of_lt Nat.lt_two_pow_self] at h
  exact h

theorem clzCount_eq (source : BitVec t.bits) (extra : ℕ) :
    clzCount t (64 + extra) source = some (BitVec.ofNat 32 source.clz.toNat) := by
  have hwidth : t.bits ≤ 64 := by
    cases t <;> decide
  by_cases hzero : source = 0#t.bits
  · have hclz : source.clz = t.bits := BitVec.clz_eq_iff_eq_zero.mpr hzero
    rw [clzCount, if_neg (not_not.mpr (toLong_eq_zero_iff.mpr hzero)), hclz,
      BitVec.natCast_eq_ofNat, BitVec.toNat_ofNat, Nat.mod_eq_of_lt Nat.lt_two_pow_self]
  have hlt : source.clz.toNat < t.bits := count_lt (BitVec.clz_lt_iff_ne_zero.mpr hzero)
  -- the highest bit of the round `k`
  have hround {k : ℕ} (hk : k < t.bits) :
      ((fun x : BitVec 64 => x <<< 1)^[k] (toLong t source <<< (64 - t.bits)) &&& longMin != 0)
        = source.getLsbD (t.bits - 1 - k) := by
    rw [iterate_shiftLeft, ← BitVec.shiftLeft_add, and_longMin, BitVec.getLsbD_shiftLeft,
      show 63 - (64 - t.bits + k) = t.bits - 1 - k by omega, toLong_low (by omega)]
    simp
    omega
  obtain ⟨rest, hrest⟩ : ∃ rest, 64 + extra = source.clz.toNat + 1 + rest :=
    ⟨64 + extra - (source.clz.toNat + 1), by omega⟩
  rw [clzCount, if_pos (toLong_eq_zero_iff.not.mpr hzero), hrest, countLoop_eq]
  · exact congrArg some (BitVec.zero_add _)
  · rw [hround hlt]
    exact BitVec.getLsbD_true_clz_of_ne_zero t.bits_pos hzero
  · intro k hk
    rw [hround (by omega)]
    refine Nat.testBit_lt_two_pow (lt_of_lt_of_le BitVec.toNat_lt_two_pow_sub_clz ?_)
    exact Nat.pow_le_pow_right two_pos (by omega)

theorem ctzCount_eq (source : BitVec t.bits) (extra : ℕ) :
    ctzCount t (64 + extra) source = some (BitVec.ofNat 32 source.ctz.toNat) := by
  have hwidth : t.bits ≤ 64 := by
    cases t <;> decide
  by_cases hzero : source = 0#t.bits
  · have hctz : source.ctz = t.bits := by
      rw [BitVec.ctz_eq_reverse_clz, BitVec.clz_eq_iff_eq_zero, BitVec.reverse_eq_zero_iff]
      exact hzero
    rw [ctzCount, if_pos (toLong_eq_zero_iff.mpr hzero), hctz,
      BitVec.natCast_eq_ofNat, BitVec.toNat_ofNat, Nat.mod_eq_of_lt Nat.lt_two_pow_self]
  have hlt : source.ctz.toNat < t.bits := count_lt (BitVec.ctz_lt_iff_ne_zero.mpr hzero)
  -- the lowest bit of the round `k`; the bits that are shifted in are not reached
  have hround {k : ℕ} (hk : k < t.bits) :
      ((fun x : BitVec 64 => x.sshiftRight 1)^[k] (toLong t source) &&& 1 != 0)
        = source.getLsbD k := by
    rw [iterate_sshiftRight, and_one, BitVec.getLsbD_sshiftRight, Nat.add_zero, toLong_low hk]
    simp
    omega
  obtain ⟨rest, hrest⟩ : ∃ rest, 64 + extra = source.ctz.toNat + 1 + rest :=
    ⟨64 + extra - (source.ctz.toNat + 1), by omega⟩
  rw [ctzCount, if_neg (toLong_eq_zero_iff.not.mpr hzero), hrest, countLoop_eq]
  · exact congrArg some (BitVec.zero_add _)
  · rw [hround hlt]
    exact BitVec.getLsbD_true_ctz_of_ne_zero hzero
  · intro k hk
    rw [hround (by omega)]
    exact BitVec.getLsbD_false_of_lt_ctz hk

theorem storeCount_eq (x : BitVec t.bits) (hx : x.toNat ≤ t.bits) :
    storeCount t (BitVec.ofNat 32 x.toNat) = x := by
  have hwidth : t.bits ≤ 64 := by
    cases t <;> decide
  have hvalue : (BitVec.ofNat 32 x.toNat).toInt = x.toNat := by
    rw [BitVec.toInt_eq_toNat_of_lt, BitVec.toNat_ofNat, Nat.mod_eq_of_lt (by omega)]
    rw [BitVec.toNat_ofNat, Nat.mod_eq_of_lt (by omega)]
    omega
  calc storeCount t (BitVec.ofNat 32 x.toNat)
      = BitVec.ofInt t.bits (BitVec.ofNat 32 x.toNat).toInt := rfl
    _ = BitVec.ofNat t.bits x.toNat := by
        rw [hvalue, BitVec.ofInt_natCast]
    _ = x := by
        rw [BitVec.ofNat_toNat, BitVec.setWidth_eq]

theorem count_le {x : BitVec t.bits} (h : x ≤ (t.bits : BitVec t.bits)) : x.toNat ≤ t.bits := by
  rw [BitVec.le_def, BitVec.natCast_eq_ofNat, BitVec.toNat_ofNat,
    Nat.mod_eq_of_lt Nat.lt_two_pow_self] at h
  exact h

end

/-! ### What is stored -/

/-- What the `switch` statements store; nothing for the other types. -/
def stores (vecType : ExplicitType) {α : Type} (stored : α) : Option α :=
  if vecType ∈ vecTypes then some stored else none

theorem verifyIntegerHadd_value (vecType : ExplicitType) (a b : BitVec vecType.cType.bits) :
    (verifyIntegerHadd vecType a b).map vecType.cType.value
      = stores vecType ((vecType.cType.value a + vecType.cType.value b) / 2) := by
  cases vecType with
  | kChar => exact congrArg some (haddNarrow_value (t := .schar) (by decide))
  | kUChar => exact congrArg some (haddNarrow_value (t := .uchar) (by decide))
  | kShort => exact congrArg some (haddNarrow_value (t := .short) (by decide))
  | kUShort => exact congrArg some (haddNarrow_value (t := .ushort) (by decide))
  | kInt => exact congrArg some (haddNarrow_value (t := .int) (by decide))
  | kUInt => exact congrArg some (haddNarrow_value (t := .uint) (by decide))
  | kLong => exact congrArg some (haddWide_value (t := .long) rfl)
  | kULong => exact congrArg some (haddWide_value (t := .ulong) rfl)
  | kUnsignedChar | kUnsignedShort | kUnsignedInt | kUnsignedLong => rfl

theorem verifyIntegerRhadd_value (vecType : ExplicitType) (a b : BitVec vecType.cType.bits) :
    (verifyIntegerRhadd vecType a b).map vecType.cType.value
      = stores vecType ((vecType.cType.value a + vecType.cType.value b + 1) / 2) := by
  cases vecType with
  | kChar => exact congrArg some (rhaddNarrow_value (t := .schar) (by decide))
  | kUChar => exact congrArg some (rhaddNarrow_value (t := .uchar) (by decide))
  | kShort => exact congrArg some (rhaddNarrow_value (t := .short) (by decide))
  | kUShort => exact congrArg some (rhaddNarrow_value (t := .ushort) (by decide))
  | kInt => exact congrArg some (rhaddNarrow_value (t := .int) (by decide))
  | kUInt => exact congrArg some (rhaddNarrow_value (t := .uint) (by decide))
  | kLong => exact congrArg some (rhaddWide_value (t := .long) rfl)
  | kULong => exact congrArg some (rhaddWide_value (t := .ulong) rfl)
  | kUnsignedChar | kUnsignedShort | kUnsignedInt | kUnsignedLong => rfl

theorem verifyIntegerRotate_eq (vecType : ExplicitType) (a b : BitVec vecType.cType.bits) :
    verifyIntegerRotate vecType a b = stores vecType (a.rotateLeft b.toNat) := by
  cases vecType with
  | kChar | kUChar => exact rotateCase_eq (t := .uchar) rfl a b
  | kShort | kUShort => exact rotateCase_eq (t := .ushort) rfl a b
  | kInt | kUInt => exact rotateCase_eq (t := .uint) rfl a b
  | kLong | kULong => exact rotateCase_eq (t := .ulong) rfl a b
  | kUnsignedChar | kUnsignedShort | kUnsignedInt | kUnsignedLong => rfl

theorem verifyIntegerClz_eq (vecType : ExplicitType) (source : BitVec vecType.cType.bits)
    (extra : ℕ) : verifyIntegerClz (64 + extra) vecType source
      = some (stores vecType source.clz) := by
  rw [verifyIntegerClz, verifyIntegerCount, stores]
  split
  · rw [clzCount_eq, Option.map_some, storeCount_eq _ (count_le BitVec.clz_le)]
  · rfl

theorem verifyIntegerCtz_eq (vecType : ExplicitType) (source : BitVec vecType.cType.bits)
    (extra : ℕ) : verifyIntegerCtz (64 + extra) vecType source
      = some (stores vecType source.ctz) := by
  have hle : source.ctz.toNat ≤ vecType.cType.bits := by
    rw [BitVec.ctz_eq_reverse_clz]
    exact count_le BitVec.clz_le
  rw [verifyIntegerCtz, verifyIntegerCount, stores]
  split
  · rw [ctzCount_eq, Option.map_some, storeCount_eq _ hle]
  · rfl

/-- The remainder of a negative number is that of its bits: the width divides `2 ^ bits`. -/
theorem value_mod_bits {t : CType} (b : BitVec t.bits) :
    (t.value b % t.bits).toNat = b.toNat % t.bits := by
  obtain ⟨k, hk, hbits⟩ := bits_eq_two_pow t
  have hdvd : (t.bits : ℤ) ∣ ((2 ^ t.bits : ℕ) : ℤ) := by
    have hle : k ≤ t.bits := by
      rw [hbits]
      exact Nat.lt_two_pow_self.le
    have hpow : t.bits ∣ 2 ^ t.bits := by
      calc t.bits = 2 ^ k := hbits
        _ ∣ 2 ^ t.bits := pow_dvd_pow 2 hle
    exact_mod_cast hpow
  have hmod : t.value b % t.bits = (b.toNat : ℤ) % t.bits := by
    rw [CType.value]
    split
    · rw [BitVec.toInt_eq_toNat_bmod, ← Int.emod_emod_of_dvd _ hdvd, Int.bmod_emod,
        Int.emod_emod_of_dvd _ hdvd]
    · rfl
  rw [hmod]
  exact_mod_cast rfl

/-- **Averages are rounded down and up, rotations are by the amount modulo the width and have no
shift by the width, and the loops end with the number of zero bits**, for all types of the
`switch` statements. -/
theorem references_exact (vecType : ExplicitType) (a b : BitVec vecType.cType.bits) :
    (verifyIntegerHadd vecType a b).map vecType.cType.value
        = stores vecType ((vecType.cType.value a + vecType.cType.value b) / 2) ∧
    (verifyIntegerRhadd vecType a b).map vecType.cType.value
        = stores vecType ((vecType.cType.value a + vecType.cType.value b + 1) / 2) ∧
    verifyIntegerRotate vecType a b
        = stores vecType (a.rotateLeft (vecType.cType.value b % vecType.cType.bits).toNat) ∧
    (∀ (t : CType) (b : BitVec t.bits), numBits t b = 0 ∨
      0 < (numBits t b).toInt ∧ (numBits t b).toInt < t.bits) ∧
    (∃ rounds, ∀ extra, verifyIntegerClz (rounds + extra) vecType a
        = some (stores vecType a.clz)) ∧
    (∃ rounds, ∀ extra, verifyIntegerCtz (rounds + extra) vecType a
        = some (stores vecType a.ctz)) := by
  refine ⟨verifyIntegerHadd_value vecType a b, verifyIntegerRhadd_value vecType a b, ?_,
    numBits_mem, ⟨64, verifyIntegerClz_eq vecType a⟩, ⟨64, verifyIntegerCtz_eq vecType a⟩⟩
  rw [verifyIntegerRotate_eq, value_mod_bits, BitVec.rotateLeft_mod_eq_rotateLeft]

/-- A rotation by -1. -/
example : verifyIntegerRotate .kShort 1#16 (-1#16) = some 0x8000#16 := rfl

end OpenCLCTS.IntegerOps
