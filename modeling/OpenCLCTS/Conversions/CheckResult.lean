import OpenCLCTS.Conversions.Coverage
import OpenCLCTS.Lib.FloatFormat
import OpenCLCTS.Lib.Loops

/-!
# The check of the results

`CalcRefValsPat::check_result` compares what a conversion kernel has written with the reference.
Numbers that are not equal are accepted if both are NaN, or if zeros are allowed.

* `fails_iff`: the masks are right, but for the one that says which references of type `double` are
  NaN.
* `checkResult_iff`: **the first element that is not accepted is reported just if it is none of
  these.**
-/

namespace OpenCLCTS.Conversions

open Loops

/-- The bits of an element. -/
abbrev Ty.Bits (t : Ty) := BitVec (8 * gTypeSizes t)

/-! ### `check_result` -/

section

variable {w : ℕ}

/-- The condition for floating types: the masks, and the numbers above which `t` and `c` are
NaN. -/
def failsFloating (magnitude testNan refNan sign t c : BitVec w) (a : BitVec 8) : Bool :=
  t != c && !(testNan < t &&& magnitude && refNan < c &&& magnitude)
    && !(a != 0 && t == c &&& sign)

/-- The condition for integers. -/
def failsIntegral (t c : BitVec w) (a : BitVec 8) : Bool := t != c && !(a != 0 && t == 0)

end

/-- The condition for `half`. -/
def failsHalf := failsFloating (w := 16) 0x7fff 0x7c00 0x7c00 0x8000

/-- The condition for `float`. -/
def failsFloat := failsFloating (w := 32) 0x7fffffff 0x7f800000 0x7f800000 0x80000000

/-- The condition for `double`. -/
def failsDouble :=
  failsFloating (w := 64) 0x7fffffffffffffff 0x7ff0000000000000 0x7f80000000000000
    0x8000000000000000

/-- The condition of the type. -/
def fails : (outType : Ty) → (t c : outType.Bits) → (a : BitVec 8) → Bool
  | .khalf, t, c, a => failsHalf t c a
  | .kfloat, t, c, a => failsFloat t c a
  | .kdouble, t, c, a => failsDouble t c a
  | .kuchar, t, c, a | .kchar, t, c, a | .kushort, t, c, a | .kshort, t, c, a | .kuint, t, c, a
  | .kint, t, c, a | .kulong, t, c, a | .klong, t, c, a => failsIntegral t c a

section

variable (outType : Ty) (test ref : ℕ → outType.Bits) (allowZ : ℕ → BitVec 8) (count : BitVec 32)

/-- `CalcRefValsPat::check_result`; `i + 1` is returned as an `int`. -/
def checkResult : ℤ :=
  (firstFound (fun i => if fails outType (test i) (ref i) (allowZ i) then
    some (BitVec.ofNat 32 (i + 1)).toInt else none) count.toNat).getD 0

/-- `info->result` of `CalcReferenceValuesComplete`. -/
def completeResult : ℤ :=
  if (List.range count.toNat).all fun i => test i == ref i then 0
  else checkResult outType test ref allowZ count

end

/-! ### What is accepted -/

/-- The format of a floating type. -/
def Ty.format : Ty → Option FloatFormat
  | .khalf => some .binary16
  | .kfloat => some .binary32
  | .kdouble => some .binary64
  | _ => none

/-- A zero that is allowed: for floating types it has the sign of the reference. -/
def AllowedZero (outType : Ty) (t c : outType.Bits) : Prop :=
  match outType.format with
  | some f => f.floatClass t = .zero ∧ t.msb = c.msb
  | none => t = 0

def BothNan (outType : Ty) (t c : outType.Bits) : Prop :=
  ∃ f ∈ outType.format, f.floatClass t = .nan ∧ f.floatClass c = .nan

/-- The results that a conversion may have. -/
def Accepted (outType : Ty) (t c : outType.Bits) (a : BitVec 8) : Prop :=
  t = c ∨ BothNan outType t c ∨ a ≠ 0 ∧ AllowedZero outType t c

/-- A NaN, where the reference is infinite or a number above `2 ^ 1017`. -/
def TakenDouble (t c : BitVec 64) : Prop :=
  FloatFormat.binary64.floatClass t = .nan ∧ FloatFormat.binary64.floatClass c ≠ .nan ∧
    0x7f80000000000000 < c &&& 0x7fffffffffffffff

/-- The references of type `double` that are taken for NaN. -/
def TakenForNan : (outType : Ty) → (t c : outType.Bits) → Prop
  | .kdouble, t, c => TakenDouble t c
  | _, _, _ => False

/-! ### The masks -/

section

open FloatFormat (binary16 binary32 binary64)

variable {w : ℕ} {f : FloatFormat} {t c : BitVec w} {a : BitVec 8}

theorem and_magnitude_toNat {magnitude : BitVec w} {k : ℕ} (hmag : magnitude.toNat = 2 ^ k - 1)
    (b : BitVec w) : (b &&& magnitude).toNat = b.toNat % 2 ^ k := by
  rw [BitVec.toNat_and, hmag, Nat.and_two_pow_sub_one_eq_mod]

theorem lt_and_magnitude_iff {magnitude inf : BitVec w}
    (hmag : magnitude.toNat = 2 ^ (f.mantissaBits + f.exponentBits) - 1)
    (hinf : inf.toNat = (2 ^ f.exponentBits - 1) * 2 ^ f.mantissaBits) (b : BitVec w) :
    inf < b &&& magnitude ↔ f.floatClass b = .nan := by
  rw [FloatFormat.floatClass_eq_nan, BitVec.lt_def, and_magnitude_toNat hmag, hinf]

theorem eq_and_sign_iff (hbits : 0 < f.exponentBits)
    (hw : w = f.mantissaBits + f.exponentBits + 1) {sign : BitVec w}
    (hsign : sign.toNat = 2 ^ (f.mantissaBits + f.exponentBits)) :
    t = c &&& sign ↔ f.floatClass t = .zero ∧ t.msb = c.msb := by
  subst hw
  have htwo : sign = BitVec.twoPow _ (f.mantissaBits + f.exponentBits) :=
    BitVec.eq_of_toNat_eq (by rw [hsign, BitVec.toNat_twoPow_of_lt (Nat.lt_succ_self _)])
  have hbit : c.msb = c.getLsbD (f.mantissaBits + f.exponentBits) := BitVec.msb_eq_getLsbD_last c
  have hlt := t.isLt
  rw [FloatFormat.floatClass_eq_zero hbits, htwo, BitVec.and_twoPow, ← hbit,
    BitVec.msb_eq_decide t, Nat.add_sub_cancel]
  rw [Nat.pow_succ] at hlt
  generalize f.mantissaBits + f.exponentBits = k at t c hlt ⊢
  have hpos := Nat.two_pow_pos k
  have hmod := Nat.div_add_mod t.toNat (2 ^ k)
  cases c.msb with
  | true =>
    rw [if_pos rfl, ← BitVec.toNat_inj, BitVec.toNat_twoPow_of_lt (Nat.lt_succ_self _),
      decide_eq_true_eq]
    constructor
    · intro h
      rw [h]
      exact ⟨Nat.mod_self _, le_rfl⟩
    · intro h
      have hle : t.toNat / 2 ^ k ≤ 1 := Nat.le_of_lt_succ (Nat.div_lt_of_lt_mul hlt)
      have hge : 1 ≤ t.toNat / 2 ^ k := (Nat.one_le_div_iff hpos).mpr h.2
      rw [h.1, show t.toNat / 2 ^ k = 1 by omega] at hmod
      omega
  | false =>
    rw [if_neg Bool.false_ne_true, ← BitVec.toNat_inj, decide_eq_false_iff_not, not_le]
    constructor
    · intro h
      rw [h]
      exact ⟨Nat.zero_mod _, hpos⟩
    · intro h
      rw [Nat.mod_eq_of_lt h.2] at h
      exact h.1

theorem failsFloating_iff {magnitude testNan refNan sign : BitVec w} :
    failsFloating magnitude testNan refNan sign t c a = true ↔
      ¬ (t = c ∨ (testNan < t &&& magnitude ∧ refNan < c &&& magnitude) ∨
        a ≠ 0 ∧ t = c &&& sign) := by
  simp only [failsFloating, Bool.and_eq_true, bne_iff_ne, Bool.not_eq_true', Bool.and_eq_false_iff,
    decide_eq_false_iff_not, bne_eq_false_iff_eq, beq_eq_false_iff_ne, not_or, not_and_or, ne_eq,
    not_not, and_assoc]

theorem failsIntegral_iff : failsIntegral t c a = true ↔ ¬ (t = c ∨ a ≠ 0 ∧ t = 0) := by
  simp only [failsIntegral, Bool.and_eq_true, bne_iff_ne, Bool.not_eq_true', Bool.and_eq_false_iff,
    bne_eq_false_iff_eq, beq_eq_false_iff_ne, not_or, not_and_or, ne_eq, not_not]

theorem failsFloating_format (hbits : 0 < f.exponentBits)
    (hw : w = f.mantissaBits + f.exponentBits + 1) {magnitude inf sign : BitVec w}
    (hmag : magnitude.toNat = 2 ^ (f.mantissaBits + f.exponentBits) - 1)
    (hinf : inf.toNat = (2 ^ f.exponentBits - 1) * 2 ^ f.mantissaBits)
    (hsign : sign.toNat = 2 ^ (f.mantissaBits + f.exponentBits)) :
    failsFloating magnitude inf inf sign t c a = true ↔
      ¬ (t = c ∨ (f.floatClass t = .nan ∧ f.floatClass c = .nan) ∨
        a ≠ 0 ∧ f.floatClass t = .zero ∧ t.msb = c.msb) := by
  rw [failsFloating_iff, lt_and_magnitude_iff hmag hinf, lt_and_magnitude_iff hmag hinf,
    eq_and_sign_iff hbits hw hsign]

theorem failsHalf_iff {t c : BitVec 16} : failsHalf t c a = true ↔
    ¬ (t = c ∨ (binary16.floatClass t = .nan ∧ binary16.floatClass c = .nan) ∨
      a ≠ 0 ∧ binary16.floatClass t = .zero ∧ t.msb = c.msb) :=
  failsFloating_format (f := binary16) (by decide) rfl (by decide) (by decide) (by decide)

theorem failsFloat_iff {t c : BitVec 32} : failsFloat t c a = true ↔
    ¬ (t = c ∨ (binary32.floatClass t = .nan ∧ binary32.floatClass c = .nan) ∨
      a ≠ 0 ∧ binary32.floatClass t = .zero ∧ t.msb = c.msb) :=
  failsFloating_format (f := binary32) (by decide) rfl (by decide) (by decide) (by decide)

/-- For `double` the mask of the reference is another one. -/
theorem failsDouble_iff {t c : BitVec 64} : failsDouble t c a = true ↔
    ¬ (t = c ∨ (binary64.floatClass t = .nan ∧ binary64.floatClass c = .nan) ∨
      a ≠ 0 ∧ binary64.floatClass t = .zero ∧ t.msb = c.msb) ∧ ¬ TakenDouble t c := by
  have hmag : (0x7fffffffffffffff : BitVec 64).toNat
      = 2 ^ (binary64.mantissaBits + binary64.exponentBits) - 1 := by decide
  have hinf : (0x7ff0000000000000 : BitVec 64).toNat
      = (2 ^ binary64.exponentBits - 1) * 2 ^ binary64.mantissaBits := by decide
  have hnan (b : BitVec 64) : 0x7ff0000000000000 < b &&& 0x7fffffffffffffff ↔
      binary64.floatClass b = .nan := lt_and_magnitude_iff hmag hinf b
  have hbelow (h : binary64.floatClass c = .nan) :
      0x7f80000000000000 < c &&& 0x7fffffffffffffff := by
    have hlt := (hnan c).mpr h
    rw [BitVec.lt_def] at hlt ⊢
    exact lt_trans (by decide) hlt
  have hzero : t = c &&& 0x8000000000000000 ↔
      binary64.floatClass t = .zero ∧ t.msb = c.msb :=
    eq_and_sign_iff (f := binary64) (by decide) rfl (by decide)
  rw [failsDouble, failsFloating_iff, hnan, hzero, TakenDouble]
  generalize (0x7f80000000000000 < c &&& 0x7fffffffffffffff) = above at hbelow ⊢
  rw [← not_or, not_congr]
  constructor
  · intro h
    rcases h with heq | ⟨ht, habove⟩ | hallowed
    · exact .inl (.inl heq)
    · by_cases hc : binary64.floatClass c = .nan
      · exact .inl (.inr (.inl ⟨ht, hc⟩))
      · exact .inr ⟨ht, hc, habove⟩
    · exact .inl (.inr (.inr hallowed))
  · intro h
    rcases h with (heq | ⟨ht, hc⟩ | hallowed) | ⟨ht, -, habove⟩
    · exact .inl heq
    · exact .inr (.inl ⟨ht, hbelow hc⟩)
    · exact .inr (.inr hallowed)
    · exact .inr (.inl ⟨ht, habove⟩)

end

theorem accepted_floating {outType : Ty} {f : FloatFormat} (h : outType.format = some f)
    {t c : outType.Bits} {a : BitVec 8} : Accepted outType t c a ↔
      (t = c ∨ (f.floatClass t = .nan ∧ f.floatClass c = .nan) ∨
        a ≠ 0 ∧ f.floatClass t = .zero ∧ t.msb = c.msb) := by
  simp [Accepted, BothNan, AllowedZero, h]

theorem accepted_integral {outType : Ty} (h : outType.format = none) {t c : outType.Bits}
    {a : BitVec 8} : Accepted outType t c a ↔ (t = c ∨ a ≠ 0 ∧ t = 0) := by
  simp [Accepted, BothNan, AllowedZero, h]

/-- **The masks are right, but for the references that are taken for NaN.** -/
theorem fails_iff {outType : Ty} (t c : outType.Bits) (a : BitVec 8) : fails outType t c a = true ↔
    ¬ Accepted outType t c a ∧ ¬ TakenForNan outType t c := by
  cases outType with
  | khalf =>
    have hfails : failsHalf t c a = true ↔ ¬ Accepted .khalf t c a :=
      failsHalf_iff.trans (not_congr (accepted_floating rfl).symm)
    exact hfails.trans (and_iff_left not_false).symm
  | kfloat =>
    have hfails : failsFloat t c a = true ↔ ¬ Accepted .kfloat t c a :=
      failsFloat_iff.trans (not_congr (accepted_floating rfl).symm)
    exact hfails.trans (and_iff_left not_false).symm
  | kdouble =>
    exact failsDouble_iff.trans (and_congr_left' (not_congr (accepted_floating rfl).symm))
  | kuchar | kchar | kushort | kshort | kuint | kint | kulong | klong =>
    have hfails : failsIntegral t c a = true ↔ ¬ Accepted _ t c a :=
      failsIntegral_iff.trans (not_congr (accepted_integral rfl).symm)
    exact hfails.trans (and_iff_left not_false).symm

/-! ### The loop -/

/-- 0 is returned if all elements have `P`, and otherwise the number behind the first one that does
not. -/
def ReportsFirst (result : ℤ) (count : ℕ) (P : ℕ → Prop) : Prop :=
  (result = 0 ∧ ∀ i < count, P i) ∨ ∃ i < count, ¬ P i ∧ (∀ j < i, P j) ∧ result = i + 1

section

variable {outType : Ty} {test ref : ℕ → outType.Bits} {allowZ : ℕ → BitVec 8} {count : BitVec 32}

theorem checkResult_cases :
    (checkResult outType test ref allowZ count = 0 ∧
        ∀ i < count.toNat, fails outType (test i) (ref i) (allowZ i) = false) ∨
      ∃ i < count.toNat, fails outType (test i) (ref i) (allowZ i) = true ∧
        (∀ j < i, fails outType (test j) (ref j) (allowZ j) = false) ∧
        checkResult outType test ref allowZ count = (BitVec.ofNat 32 (i + 1)).toInt := by
  rw [checkResult]
  cases hfound : firstFound (fun i => if fails outType (test i) (ref i) (allowZ i) then
      some (BitVec.ofNat 32 (i + 1)).toInt else none) count.toNat with
  | none =>
    have hall := firstFound_eq_none_iff.mp hfound
    refine .inl ⟨rfl, ?_⟩
    intro i hi
    by_contra hne
    have := hall i hi
    rw [if_pos (Bool.eq_true_of_not_eq_false hne)] at this
    cases this
  | some b =>
    obtain ⟨i, hi, hb, hbefore⟩ := firstFound_eq_some_iff.mp hfound
    split at hb
    · rename_i hfails
      refine .inr ⟨i, hi, hfails, fun j hj => ?_, (Option.some_inj.mp hb).symm⟩
      by_contra hne
      have := hbefore j hj
      rw [if_pos (Bool.eq_true_of_not_eq_false hne)] at this
      cases this
    · cases hb

theorem ofNat_succ_toInt {i : ℕ} (hi : i < 2 ^ 32 - 1) : (BitVec.ofNat 32 (i + 1)).toInt
    = if i + 1 < 2 ^ 31 then (i : ℤ) + 1 else (i : ℤ) + 1 - 2 ^ 32 := by
  rw [BitVec.toInt_eq_toNat_cond, BitVec.toNat_ofNat, Nat.mod_eq_of_lt (by omega)]
  split <;> split <;> push_cast <;> omega

/-- **The first element that is not accepted is reported just if it is not taken for a NaN**, and
its number is one of an `int`. -/
theorem checkResult_iff (outType : Ty) (test ref : ℕ → outType.Bits) (allowZ : ℕ → BitVec 8)
    (count : BitVec 32) :
    ReportsFirst (checkResult outType test ref allowZ count) count.toNat
        (fun i => Accepted outType (test i) (ref i) (allowZ i)) ↔
      ∀ i < count.toNat, ¬ Accepted outType (test i) (ref i) (allowZ i) →
        (∀ j < i, Accepted outType (test j) (ref j) (allowZ j)) →
          ¬ TakenForNan outType (test i) (ref i) ∧ i + 1 < 2 ^ 31 := by
  have hcount := count.isLt
  have haccepted (i : ℕ) (h : Accepted outType (test i) (ref i) (allowZ i)) :
      fails outType (test i) (ref i) (allowZ i) = false :=
    Bool.eq_false_of_not_eq_true fun hfails => ((fails_iff _ _ _).mp hfails).1 h
  constructor
  · intro hreports i hi hnot hbefore
    -- the first element that is not accepted is the one that is reported
    have hresult : checkResult outType test ref allowZ count = i + 1 := by
      rcases hreports with ⟨-, hall⟩ | ⟨k, hk, hknot, hkbefore, hresult⟩
      · exact absurd (hall i hi) hnot
      · rcases Nat.lt_trichotomy i k with hlt | heq | hgt
        · exact absurd (hkbefore i hlt) hnot
        · rwa [heq]
        · exact absurd (hbefore k hgt) hknot
    rcases @checkResult_cases outType test ref allowZ count with
      ⟨hzero, -⟩ | ⟨k, hk, hfails, -, hk'⟩
    · omega
    · rw [hresult, ofNat_succ_toInt (by omega)] at hk'
      split at hk'
      · have heq : i = k := by omega
        subst heq
        exact ⟨((fails_iff _ _ _).mp hfails).2, by omega⟩
      · omega
  · intro hcond
    by_cases hall : ∀ i < count.toNat, Accepted outType (test i) (ref i) (allowZ i)
    · rcases @checkResult_cases outType test ref allowZ count with ⟨hzero, -⟩ | ⟨k, hk, hfails, -⟩
      · exact .inl ⟨hzero, hall⟩
      · rw [haccepted k (hall k hk)] at hfails
        cases hfails
    · have hex : ∃ i, i < count.toNat ∧ ¬ Accepted outType (test i) (ref i) (allowZ i) := by
        push Not at hall
        exact hall
      classical
      obtain ⟨hi, hnot⟩ := Nat.find_spec hex
      have hbefore : ∀ j < Nat.find hex, Accepted outType (test j) (ref j) (allowZ j) := by
        intro j hj
        by_contra hne
        exact Nat.find_min hex hj ⟨hj.trans hi, hne⟩
      generalize Nat.find hex = i at hi hnot hbefore
      obtain ⟨htaken, hint⟩ := hcond i hi hnot hbefore
      have hfails := (fails_iff _ _ _).mpr ⟨hnot, htaken⟩
      refine .inr ⟨i, hi, hnot, hbefore, ?_⟩
      rcases @checkResult_cases outType test ref allowZ count with
        ⟨-, hgood⟩ | ⟨k, hk, hkfails, hkbefore, hresult⟩
      · rw [hgood i hi] at hfails
        cases hfails
      · have heq : i = k := by
          rcases Nat.lt_trichotomy i k with hlt | heq | hgt
          · rw [hkbefore i hlt] at hfails
            cases hfails
          · exact heq
          · rw [haccepted k (hbefore k hgt)] at hkfails
            cases hkfails
        rw [hresult, ← heq, ofNat_succ_toInt (by omega), if_pos hint]

theorem completeResult_eq :
    completeResult outType test ref allowZ count = checkResult outType test ref allowZ count := by
  rw [completeResult]
  split
  · rename_i hsame
    rcases @checkResult_cases outType test ref allowZ count with ⟨hzero, -⟩ | ⟨k, hk, hfails, -⟩
    · exact hzero.symm
    · have heq : test k = ref k :=
        beq_iff_eq.mp (List.all_eq_true.mp hsame k (List.mem_range.mpr hk))
      exact absurd (.inl heq) ((fails_iff _ _ _).mp hfails).1
  · rfl

theorem not_accepted_nan : ¬ (0x7ff8000000000000#64 = 0x7ff0000000000000#64 ∨
    (FloatFormat.binary64.floatClass 0x7ff8000000000000#64 = .nan ∧
      FloatFormat.binary64.floatClass 0x7ff0000000000000#64 = .nan) ∨
    (0 : BitVec 8) ≠ 0 ∧ FloatFormat.binary64.floatClass 0x7ff8000000000000#64 = .zero ∧
      (0x7ff8000000000000#64).msb = (0x7ff0000000000000#64).msb) := by
  decide

/-- A NaN is accepted where the reference is infinite. -/
theorem checkResult_accepts_nan :
    ¬ ReportsFirst (checkResult .kdouble (fun _ => 0x7ff8000000000000#64)
        (fun _ => 0x7ff0000000000000#64) (fun _ => 0) 1) 1
      (fun _ => Accepted .kdouble 0x7ff8000000000000#64 0x7ff0000000000000#64 0) := by
  intro hreports
  have hzero : checkResult .kdouble (fun _ => 0x7ff8000000000000#64)
      (fun _ => 0x7ff0000000000000#64) (fun _ => 0) 1 = 0 := by decide
  rw [hzero] at hreports
  have hnot : ¬ Accepted .kdouble 0x7ff8000000000000#64 0x7ff0000000000000#64 0 :=
    fun h => not_accepted_nan ((@accepted_floating .kdouble .binary64 rfl _ _ _).mp h)
  rcases hreports with ⟨-, hall⟩ | ⟨i, -, -, -, hresult⟩
  · exact hnot (hall 0 Nat.one_pos)
  · omega

end

end OpenCLCTS.Conversions
