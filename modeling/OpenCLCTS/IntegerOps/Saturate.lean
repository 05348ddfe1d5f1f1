import OpenCLCTS.IntegerOps.Arithmetic
import OpenCLCTS.Lib.Loops

/-!
# Saturating sums and differences

The verifiers of `add_sat`, `sub_sat` and `abs_diff`.  Narrow types are clamped in `cl_int`; for
`int` and `long` a sum that has wrapped is seen from the sign of the second operand.

* `signedAdd_value`, `signedSub_value`: **what has wrapped is replaced by the limit on its side.**
* `verifySat_exact`: the 24 verifiers return 0 just if every element is the clamped number, or the
  absolute difference, and -1 otherwise.
-/

namespace OpenCLCTS.IntegerOps

open Conversions Loops

/-- The loop: -1 is returned from the first element that is not right. -/
def verifyEach (right : ℕ → Bool) (n : ℕ) : ℤ :=
  (firstFound (fun i => if right i then none else some (-1)) n).getD 0

/-! ### The reference of an element -/

section

variable (t : CType)

/-- `(cl_int) x`. -/
def toClInt (x : BitVec t.bits) : BitVec 32 := CType.convert t .int x

/-- `r` of the narrow types, which is a `cl_int`. -/
def clampInt (low high r : BitVec 32) : BitVec 32 := stdMin (stdMax r low) high

variable (a b : BitVec t.bits)

/-- `r` of `add_sat` for `int` and `long`; the sum of the unsigned numbers has the same bits. -/
def signedAdd : BitVec t.bits :=
  let r := a + b
  if t.lt 0 b then if t.lt r a then BitVec.intMax _ else r
  else if t.lt a r then BitVec.intMin _ else r

/-- `r` of `sub_sat` for `int` and `long`. -/
def signedSub : BitVec t.bits :=
  let r := a - b
  if t.lt b 0 then if t.lt r a then BitVec.intMax _ else r
  else if t.lt a r then BitVec.intMin _ else r

/-- `r` of `add_sat` for `uint` and `ulong`. -/
def unsignedAdd : BitVec t.bits :=
  let r := a + b
  if t.lt r a then BitVec.allOnes _ else r

/-- `r` of `sub_sat` for `uint` and `ulong`. -/
def unsignedSub : BitVec t.bits :=
  let r := a - b
  if t.lt a b then 0 else r

/-- `std::make_unsigned`. -/
def makeUnsigned : CType → CType
  | .schar | .uchar => .uchar
  | .short | .ushort => .ushort
  | .int | .uint => .uint
  | .long | .ulong => .ulong

/-- `abs_diff`. -/
def absDiff : BitVec (makeUnsigned t).bits :=
  let u := makeUnsigned t
  let ua := CType.convert t u a
  let ub := CType.convert t u b
  let diff := u.narrow (u.promote ua - u.promote ub)
  if t.promoted.lt (t.promote a) (t.promote b) then u.narrow (-u.promote diff) else diff

end

/-! ### The verifiers -/

section

variable (t : CType)

/-- The verifiers of the narrow types, with the operator and the limits. -/
def verifyNarrow (op : BitVec 32 → BitVec 32 → BitVec 32) (low high : BitVec 32)
    (inA inB outptr : ℕ → BitVec t.bits) (n : ℕ) : ℤ :=
  verifyEach (fun i => clampInt low high (op (toClInt t (inA i)) (toClInt t (inB i)))
    == toClInt t (outptr i)) n

/-- The verifiers of the types from `int` on, with what they compute. -/
def verifyWide (r : BitVec t.bits → BitVec t.bits → BitVec t.bits)
    (inA inB outptr : ℕ → BitVec t.bits) (n : ℕ) : ℤ :=
  verifyEach (fun i => r (inA i) (inB i) == outptr i) n

/-- The verifiers of `abs_diff`. -/
def verifyAbsdiffOf (inA inB : ℕ → BitVec t.bits) (outptr : ℕ → BitVec (makeUnsigned t).bits)
    (n : ℕ) : ℤ :=
  verifyEach (fun i => absDiff t (inA i) (inB i) == outptr i) n

end

/-- `verify_addsat_char`. -/
def verifyAddsatChar := verifyNarrow .schar (· + ·) (-128) 127

/-- `verify_addsat_uchar`. -/
def verifyAddsatUchar := verifyNarrow .uchar (· + ·) 0 255

/-- `verify_addsat_short`. -/
def verifyAddsatShort := verifyNarrow .short (· + ·) (-32768) 32767

/-- `verify_addsat_ushort`. -/
def verifyAddsatUshort := verifyNarrow .ushort (· + ·) 0 65535

/-- `verify_addsat_int`. -/
def verifyAddsatInt := verifyWide .int (signedAdd .int)

/-- `verify_addsat_uint`. -/
def verifyAddsatUint := verifyWide .uint (unsignedAdd .uint)

/-- `verify_addsat_long`. -/
def verifyAddsatLong := verifyWide .long (signedAdd .long)

/-- `verify_addsat_ulong`. -/
def verifyAddsatUlong := verifyWide .ulong (unsignedAdd .ulong)

/-- `verify_subsat_char`. -/
def verifySubsatChar := verifyNarrow .schar (· - ·) (-128) 127

/-- `verify_subsat_uchar`. -/
def verifySubsatUchar := verifyNarrow .uchar (· - ·) 0 255

/-- `verify_subsat_short`. -/
def verifySubsatShort := verifyNarrow .short (· - ·) (-32768) 32767

/-- `verify_subsat_ushort`. -/
def verifySubsatUshort := verifyNarrow .ushort (· - ·) 0 65535

/-- `verify_subsat_int`. -/
def verifySubsatInt := verifyWide .int (signedSub .int)

/-- `verify_subsat_uint`. -/
def verifySubsatUint := verifyWide .uint (unsignedSub .uint)

/-- `verify_subsat_long`. -/
def verifySubsatLong := verifyWide .long (signedSub .long)

/-- `verify_subsat_ulong`. -/
def verifySubsatUlong := verifyWide .ulong (unsignedSub .ulong)

/-- `verify_addsat_<type>`. -/
def verifyAddsat : (t : CType) → (inA inB outptr : ℕ → BitVec t.bits) → ℕ → ℤ
  | .schar => verifyAddsatChar
  | .uchar => verifyAddsatUchar
  | .short => verifyAddsatShort
  | .ushort => verifyAddsatUshort
  | .int => verifyAddsatInt
  | .uint => verifyAddsatUint
  | .long => verifyAddsatLong
  | .ulong => verifyAddsatUlong

/-- `verify_subsat_<type>`. -/
def verifySubsat : (t : CType) → (inA inB outptr : ℕ → BitVec t.bits) → ℕ → ℤ
  | .schar => verifySubsatChar
  | .uchar => verifySubsatUchar
  | .short => verifySubsatShort
  | .ushort => verifySubsatUshort
  | .int => verifySubsatInt
  | .uint => verifySubsatUint
  | .long => verifySubsatLong
  | .ulong => verifySubsatUlong

/-- `verify_absdiff_char`. -/
def verifyAbsdiffChar := verifyAbsdiffOf .schar

/-- `verify_absdiff_uchar`. -/
def verifyAbsdiffUchar := verifyAbsdiffOf .uchar

/-- `verify_absdiff_short`. -/
def verifyAbsdiffShort := verifyAbsdiffOf .short

/-- `verify_absdiff_ushort`. -/
def verifyAbsdiffUshort := verifyAbsdiffOf .ushort

/-- `verify_absdiff_int`. -/
def verifyAbsdiffInt := verifyAbsdiffOf .int

/-- `verify_absdiff_uint`. -/
def verifyAbsdiffUint := verifyAbsdiffOf .uint

/-- `verify_absdiff_long`. -/
def verifyAbsdiffLong := verifyAbsdiffOf .long

/-- `verify_absdiff_ulong`. -/
def verifyAbsdiffUlong := verifyAbsdiffOf .ulong

/-- `verify_absdiff_<type>`. -/
def verifyAbsdiff : (t : CType) → (inA inB : ℕ → BitVec t.bits) →
    (outptr : ℕ → BitVec (makeUnsigned t).bits) → ℕ → ℤ
  | .schar => verifyAbsdiffChar
  | .uchar => verifyAbsdiffUchar
  | .short => verifyAbsdiffShort
  | .ushort => verifyAbsdiffUshort
  | .int => verifyAbsdiffInt
  | .uint => verifyAbsdiffUint
  | .long => verifyAbsdiffLong
  | .ulong => verifyAbsdiffUlong

/-! ### The loop -/

/-- 0 just if `P` holds, and -1 otherwise. -/
def Reports (result : ℤ) (P : Prop) : Prop := (result = 0 ↔ P) ∧ (¬ P → result = -1)

/-- **The loop returns -1 if some element is not right.** -/
theorem verifyEach_reports (right : ℕ → Bool) (n : ℕ) :
    Reports (verifyEach right n) (∀ i < n, right i = true) := by
  have hnone : firstFound (fun i => if right i then none else some (-1 : ℤ)) n = none ↔
      ∀ i < n, right i = true := by
    rw [firstFound_eq_none_iff]
    simp
  rw [Reports, verifyEach, ← hnone]
  cases hfound : firstFound (fun i => if right i then none else some (-1 : ℤ)) n with
  | none => simp
  | some b =>
    obtain ⟨i, -, hb, -⟩ := firstFound_eq_some_iff.mp hfound
    have hb : b = -1 := by
      split at hb
      · cases hb
      · exact (Option.some_inj.mp hb).symm
    simp [hb]

theorem Reports.congr {result : ℤ} {P Q : Prop} (h : Reports result P) (hPQ : P ↔ Q) :
    Reports result Q := by
  rwa [← propext hPQ]

/-! ### The narrow types -/

section

variable {t : CType}

theorem toClInt_toInt (ht : t.bits < 32) (x : BitVec t.bits) : (toClInt t x).toInt = t.value x := by
  obtain ⟨hlo, hhi⟩ := CType.value_mem x
  have hlimits : CType.int.least ≤ t.least ∧ t.greatest ≤ CType.int.greatest := by
    revert ht
    cases t <;> decide
  exact CType.value_convert (t := .int) (by omega) (by omega)

/-- **A narrow verifier compares with the clamped number**, if the operator is exact. -/
theorem verifyNarrow_reports (ht : t.bits < 32) {op : BitVec 32 → BitVec 32 → BitVec 32}
    {g : ℤ → ℤ → ℤ} {low high : BitVec 32} (hlow : low.toInt = t.least)
    (hhigh : high.toInt = t.greatest)
    (hop : ∀ x y : BitVec t.bits,
      (op (toClInt t x) (toClInt t y)).toInt = g (t.value x) (t.value y))
    (inA inB outptr : ℕ → BitVec t.bits) (n : ℕ) :
    Reports (verifyNarrow t op low high inA inB outptr n)
      (∀ i < n, t.value (outptr i) = t.clamp (g (t.value (inA i)) (t.value (inB i)))) := by
  refine (verifyEach_reports _ n).congr (forall₂_congr fun i _ => ?_)
  have hleast := t.least_le_zero
  have hgreatest := t.greatest_pos
  rw [beq_iff_eq, ← BitVec.toInt_inj, clampInt, stdMin_toInt, stdMax_toInt, hop, hlow, hhigh,
    toClInt_toInt ht, CType.clamp]
  omega

theorem narrow_limits (ht : t.bits < 32) : -2 ^ 15 ≤ t.least ∧ t.greatest < 2 ^ 16 := by
  revert ht
  cases t <;> decide

theorem narrow_add (ht : t.bits < 32) (x y : BitVec t.bits) :
    (toClInt t x + toClInt t y).toInt = t.value x + t.value y := by
  obtain ⟨hlo, hhi⟩ := narrow_limits ht
  obtain ⟨hxlo, hxhi⟩ := CType.value_mem x
  obtain ⟨hylo, hyhi⟩ := CType.value_mem y
  rw [BitVec.toInt_add, toClInt_toInt ht, toClInt_toInt ht]
  exact Int.bmod_eq_of_le (by omega) (by omega)

theorem narrow_sub (ht : t.bits < 32) (x y : BitVec t.bits) :
    (toClInt t x - toClInt t y).toInt = t.value x - t.value y := by
  obtain ⟨hlo, hhi⟩ := narrow_limits ht
  obtain ⟨hxlo, hxhi⟩ := CType.value_mem x
  obtain ⟨hylo, hyhi⟩ := CType.value_mem y
  rw [BitVec.toInt_sub, toClInt_toInt ht, toClInt_toInt ht]
  exact Int.bmod_eq_of_le (by omega) (by omega)

/-! ### The wide types -/

theorem wrap_add (z : ℤ) : t.wrap (z + 2 ^ t.bits) = t.wrap z := by
  have hcast : (2 : ℤ) ^ t.bits = ((2 ^ t.bits : ℕ) : ℤ) := by push_cast; rfl
  rw [CType.wrap, CType.wrap, hcast]
  split
  · exact Int.add_bmod_right z _
  · exact Int.add_emod_right z _

theorem two_pow_eq (t : CType) : (2 : ℤ) ^ t.bits = t.greatest - t.least + 1 := by
  cases t <;> decide

/-- A number that is out of range by less than the range has wrapped once. -/
theorem wrap_cases {x : ℤ} (hlo : 2 * t.least - t.greatest - 1 ≤ x)
    (hhi : x ≤ 2 * t.greatest - t.least + 1) :
    t.wrap x = if x < t.least then x + 2 ^ t.bits else if t.greatest < x then x - 2 ^ t.bits
      else x := by
  have hrange := two_pow_eq t
  split
  · rw [← wrap_add]
    exact CType.wrap_eq_self (by omega) (by omega)
  · split
    · rw [← sub_add_cancel x (2 ^ t.bits), wrap_add, sub_add_cancel]
      exact CType.wrap_eq_self (by omega) (by omega)
    · exact CType.wrap_eq_self (by omega) (by omega)

theorem limits_of_signed (ht : t.signed = true) : t.least = -t.greatest - 1 ∧
    t.value (BitVec.intMax _) = t.greatest ∧ t.value (BitVec.intMin _) = t.least := by
  revert ht
  cases t <;> decide

theorem limits_of_unsigned (ht : t.signed = false) : t.least = 0 ∧
    t.value (BitVec.allOnes _) = t.greatest := by
  revert ht
  cases t <;> decide

theorem value_zero (t : CType) : t.value 0 = 0 := by
  cases t <;> decide

/-- **A wrapped sum is replaced by the limit on its side.** -/
theorem signedAdd_value (ht : t.signed = true) (a b : BitVec t.bits) :
    t.value (signedAdd t a b) = t.clamp (t.value a + t.value b) := by
  obtain ⟨hleast, hmax, hmin⟩ := limits_of_signed ht
  obtain ⟨halo, hahi⟩ := CType.value_mem a
  obtain ⟨hblo, hbhi⟩ := CType.value_mem b
  have hrange := two_pow_eq t
  have hr : t.value (a + b) = t.wrap (t.value a + t.value b) := CType.respects_add t a b
  rw [wrap_cases (by omega) (by omega)] at hr
  simp only [signedAdd, CType.lt_iff, value_zero, apply_ite t.value, hmax, hmin, hr, CType.clamp]
  split_ifs <;> omega

/-- **A wrapped difference is replaced by the limit on its side.** -/
theorem signedSub_value (ht : t.signed = true) (a b : BitVec t.bits) :
    t.value (signedSub t a b) = t.clamp (t.value a - t.value b) := by
  obtain ⟨hleast, hmax, hmin⟩ := limits_of_signed ht
  obtain ⟨halo, hahi⟩ := CType.value_mem a
  obtain ⟨hblo, hbhi⟩ := CType.value_mem b
  have hrange := two_pow_eq t
  have hr : t.value (a - b) = t.wrap (t.value a - t.value b) := CType.respects_sub t a b
  rw [wrap_cases (by omega) (by omega)] at hr
  simp only [signedSub, CType.lt_iff, value_zero, apply_ite t.value, hmax, hmin, hr, CType.clamp]
  split_ifs <;> omega

theorem unsignedAdd_value (ht : t.signed = false) (a b : BitVec t.bits) :
    t.value (unsignedAdd t a b) = t.clamp (t.value a + t.value b) := by
  obtain ⟨hleast, hmax⟩ := limits_of_unsigned ht
  obtain ⟨halo, hahi⟩ := CType.value_mem a
  obtain ⟨hblo, hbhi⟩ := CType.value_mem b
  have hrange := two_pow_eq t
  have hr : t.value (a + b) = t.wrap (t.value a + t.value b) := CType.respects_add t a b
  rw [wrap_cases (by omega) (by omega)] at hr
  simp only [unsignedAdd, CType.lt_iff, apply_ite t.value, hmax, hr, CType.clamp]
  split_ifs <;> omega

theorem unsignedSub_value (ht : t.signed = false) (a b : BitVec t.bits) :
    t.value (unsignedSub t a b) = t.clamp (t.value a - t.value b) := by
  obtain ⟨hleast, hmax⟩ := limits_of_unsigned ht
  obtain ⟨halo, hahi⟩ := CType.value_mem a
  obtain ⟨hblo, hbhi⟩ := CType.value_mem b
  have hrange := two_pow_eq t
  have hr : t.value (a - b) = t.wrap (t.value a - t.value b) := CType.respects_sub t a b
  rw [wrap_cases (by omega) (by omega)] at hr
  simp only [unsignedSub, CType.lt_iff, value_zero, apply_ite t.value, hr, CType.clamp]
  split_ifs <;> omega

/-- **A wide verifier compares with what is computed.** -/
theorem verifyWide_reports {r : BitVec t.bits → BitVec t.bits → BitVec t.bits} {g : ℤ → ℤ → ℤ}
    (hr : ∀ x y, t.value (r x y) = t.clamp (g (t.value x) (t.value y)))
    (inA inB outptr : ℕ → BitVec t.bits) (n : ℕ) :
    Reports (verifyWide t r inA inB outptr n)
      (∀ i < n, t.value (outptr i) = t.clamp (g (t.value (inA i)) (t.value (inB i)))) := by
  refine (verifyEach_reports _ n).congr (forall₂_congr fun i _ => ?_)
  rw [beq_iff_eq, ← CType.value_eq_iff, hr]
  exact eq_comm

/-! ### Absolute differences -/

theorem makeUnsigned_limits (t : CType) : (makeUnsigned t).least = 0 ∧
    (makeUnsigned t).greatest = t.greatest - t.least ∧ (makeUnsigned t).bits = t.bits ∧
    (makeUnsigned t).signed = false := by
  cases t <;> decide

theorem respects_neg : CType.Respects (fun _ x _ => -x) fun x _ => -x := by
  intro t x y
  show t.value (-x) = t.wrap (-t.value x)
  have hsub : t.value (0 - x) = t.wrap (t.value 0 - t.value x) := CType.respects_sub t 0 x
  have hneg : 0 - x = -x := BitVec.zero_sub x
  rwa [value_zero, hneg, zero_sub] at hsub

/-- **The negated difference is the absolute one.** -/
theorem absDiff_value (a b : BitVec t.bits) :
    (makeUnsigned t).value (absDiff t a b) = |t.value a - t.value b| := by
  obtain ⟨halo, hahi⟩ := CType.value_mem a
  obtain ⟨hblo, hbhi⟩ := CType.value_mem b
  obtain ⟨hleast, hgreatest, -, hsigned⟩ := makeUnsigned_limits t
  rw [absDiff, CType.lt_promote, CType.narrow_op CType.respects_sub, CType.narrow_op respects_neg (y := 0)]
  generalize makeUnsigned t = u at hleast hgreatest hsigned ⊢
  have hwrap (x : ℤ) : u.wrap x = x % 2 ^ u.bits := by
    rw [CType.wrap, hsigned, if_neg Bool.false_ne_true]
  have hdiff : u.value (CType.convert t u a - CType.convert t u b)
      = u.wrap (t.value a - t.value b) := by
    refine (CType.respects_sub u _ _).trans ?_
    rw [CType.convert, CType.convert, CType.value_ofInt, CType.value_ofInt, hwrap, hwrap, hwrap,
      hwrap, ← Int.sub_emod]
  by_cases hlt : t.value a < t.value b
  · have hneg : u.value (-(CType.convert t u a - CType.convert t u b))
        = u.wrap (t.value b - t.value a) := by
      have hminus : u.value (-(CType.convert t u a - CType.convert t u b))
          = u.wrap (-u.value (CType.convert t u a - CType.convert t u b)) := respects_neg u _ 0
      rw [hminus, hdiff, hwrap, hwrap, hwrap, ← zero_sub, Int.sub_emod_emod, zero_sub, neg_sub]
    rw [if_pos (CType.lt_iff.mpr hlt), hneg, abs_of_neg (sub_neg.mpr hlt), neg_sub]
    exact CType.wrap_eq_self (by omega) (by omega)
  · rw [if_neg (mt CType.lt_iff.mp hlt), hdiff, abs_of_nonneg (by omega)]
    exact CType.wrap_eq_self (by omega) (by omega)

theorem verifyAbsdiffOf_reports (inA inB : ℕ → BitVec t.bits)
    (outptr : ℕ → BitVec (makeUnsigned t).bits) (n : ℕ) :
    Reports (verifyAbsdiffOf t inA inB outptr n)
      (∀ i < n, (makeUnsigned t).value (outptr i) = |t.value (inA i) - t.value (inB i)|) := by
  refine (verifyEach_reports _ n).congr (forall₂_congr fun i _ => ?_)
  rw [beq_iff_eq, ← CType.value_eq_iff, absDiff_value]
  exact eq_comm

end

/-! ### All types -/

theorem verifyAddsat_reports (t : CType) (inA inB outptr : ℕ → BitVec t.bits) (n : ℕ) :
    Reports (verifyAddsat t inA inB outptr n)
      (∀ i < n, t.value (outptr i) = t.clamp (t.value (inA i) + t.value (inB i))) := by
  cases t with
  | schar => exact verifyNarrow_reports (t := .schar) (by decide) rfl rfl (narrow_add (by decide)) ..
  | uchar => exact verifyNarrow_reports (t := .uchar) (by decide) rfl rfl (narrow_add (by decide)) ..
  | short => exact verifyNarrow_reports (t := .short) (by decide) rfl rfl (narrow_add (by decide)) ..
  | ushort => exact verifyNarrow_reports (t := .ushort) (by decide) rfl rfl (narrow_add (by decide)) ..
  | int => exact verifyWide_reports (signedAdd_value rfl) ..
  | uint => exact verifyWide_reports (unsignedAdd_value rfl) ..
  | long => exact verifyWide_reports (signedAdd_value rfl) ..
  | ulong => exact verifyWide_reports (unsignedAdd_value rfl) ..

theorem verifySubsat_reports (t : CType) (inA inB outptr : ℕ → BitVec t.bits) (n : ℕ) :
    Reports (verifySubsat t inA inB outptr n)
      (∀ i < n, t.value (outptr i) = t.clamp (t.value (inA i) - t.value (inB i))) := by
  cases t with
  | schar => exact verifyNarrow_reports (t := .schar) (by decide) rfl rfl (narrow_sub (by decide)) ..
  | uchar => exact verifyNarrow_reports (t := .uchar) (by decide) rfl rfl (narrow_sub (by decide)) ..
  | short => exact verifyNarrow_reports (t := .short) (by decide) rfl rfl (narrow_sub (by decide)) ..
  | ushort => exact verifyNarrow_reports (t := .ushort) (by decide) rfl rfl (narrow_sub (by decide)) ..
  | int => exact verifyWide_reports (signedSub_value rfl) ..
  | uint => exact verifyWide_reports (unsignedSub_value rfl) ..
  | long => exact verifyWide_reports (signedSub_value rfl) ..
  | ulong => exact verifyWide_reports (unsignedSub_value rfl) ..

theorem verifyAbsdiff_reports (t : CType) (inA inB : ℕ → BitVec t.bits)
    (outptr : ℕ → BitVec (makeUnsigned t).bits) (n : ℕ) :
    Reports (verifyAbsdiff t inA inB outptr n)
      (∀ i < n, (makeUnsigned t).value (outptr i) = |t.value (inA i) - t.value (inB i)|) := by
  cases t
  all_goals exact verifyAbsdiffOf_reports ..

/-- **The verifiers are exact.** -/
theorem verifySat_exact (t : CType) (inA inB outptr : ℕ → BitVec t.bits)
    (absptr : ℕ → BitVec (makeUnsigned t).bits) (n : ℕ) :
    Reports (verifyAddsat t inA inB outptr n)
        (∀ i < n, t.value (outptr i) = t.clamp (t.value (inA i) + t.value (inB i))) ∧
      Reports (verifySubsat t inA inB outptr n)
        (∀ i < n, t.value (outptr i) = t.clamp (t.value (inA i) - t.value (inB i))) ∧
      Reports (verifyAbsdiff t inA inB absptr n)
        (∀ i < n, (makeUnsigned t).value (absptr i) = |t.value (inA i) - t.value (inB i)|) :=
  ⟨verifyAddsat_reports t inA inB outptr n, verifySubsat_reports t inA inB outptr n,
    verifyAbsdiff_reports t inA inB absptr n⟩

/-- The least number minus 1. -/
example : verifySubsatInt (fun _ => BitVec.intMin 32) (fun _ => 1) (fun _ => BitVec.intMin 32) 1 = 0 := by
  decide

end OpenCLCTS.IntegerOps
