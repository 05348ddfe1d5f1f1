import OpenCLCTS.Half.StoreJobs
import OpenCLCTS.Lib.FloatExtended

/-!
# The references of nextafter

`reference_nextafter`, `reference_nextafterh` and `reference_nextafterl` fold the bits of floating
point numbers into integers of two's complement, count one more or one less, and fold them back.

* `index_stepFolded`: what is counted.
* `nextafter_iff`: the three references, and when the one for half flushes subnormal numbers.
-/

namespace OpenCLCTS.MathBruteForce

open FloatFormat Half

/-! ### Comparisons -/

section

variable (f : FloatFormat) {w : ℕ} (x y : BitVec w)

/-- `x == y`, for floating point numbers. -/
def floatEq : Bool :=
  decide (f.floatClass x ≠ .nan ∧ f.floatClass y ≠ .nan ∧ f.extended x = f.extended y)

/-- `x < y`, for floating point numbers. -/
def floatLt : Bool :=
  decide (f.floatClass x ≠ .nan ∧ f.floatClass y ≠ .nan ∧ f.extended x < f.extended y)

/-! ### The references -/

/-- `if (a.i & tmp) a.i = tmp - a.i`. -/
def fold (tmp a : BitVec w) : BitVec w := if a &&& tmp ≠ 0#w then tmp - a else a

/-- `(a.i < 0) ? tmp - a.i : a.i`. -/
def foldBack (tmp a : BitVec w) : BitVec w := if a.slt 0#w then tmp - a else a

/-- `a.i += (a.i < b.i) ? 1 : -1`, for folded bits. -/
def stepFolded (tmp a b : BitVec w) : BitVec w :=
  let a := fold tmp a
  let b := fold tmp b
  foldBack tmp (if a.slt b then a + 1#w else a - 1#w)

end

/-- `reference_nextafter`, for the arguments that are floats. -/
def referenceNextafter (x y : BitVec 32) : BitVec 32 :=
  if ¬ floatEq binary32 x x then x
  else if ¬ floatEq binary32 y y then y
  else if floatEq binary32 x y then y
  else stepFolded 0x80000000 x y

/-- `reference_nextafterl`, for the arguments that are doubles. -/
def referenceNextafterl (x y : BitVec 64) : BitVec 64 :=
  let tmp := 0x8000000000000000
  if ¬ floatEq binary64 x x then x
  else if ¬ floatEq binary64 y y then y
  -- the integers are compared here
  else if fold tmp x = fold tmp y then y
  else stepFolded tmp x y

section

variable (halfToFloat : BitVec 16 → BitVec 32) (halfFromFloat : BitVec 32 → BitVec 16)

/-- `reference_nextafterh`; the parameters are `cl_half_to_float`, and `cl_half_from_float` for
`CL_HALF_RTE`. -/
def referenceNextafterh (xx yy : BitVec 32) (allowDenorms : Bool) : BitVec 32 :=
  let x := halfToFloat (halfFromFloat xx)
  let y := halfToFloat (halfFromFloat yy)
  if ¬ floatEq binary32 x x then x
  else if ¬ floatEq binary32 y y then y
  else if floatEq binary32 x y then y
  else
    let oa := halfFromFloat x
    let a := stepFolded 0x8000 oa (halfFromFloat y)
    halfToFloat <|
      if !allowDenorms && isHalfSubnormal a then
        if floatLt binary32 (halfToFloat (0x7fff &&& oa)) (halfToFloat (0x7fff &&& a)) then
          if a &&& 0x8000 ≠ 0 then 0x8400 else 0x0400
        else 0
      else a

/-- The conversions of halves are exact. -/
structure ExactHalf : Prop where
  halfFromFloat : ∀ h, binary16.floatClass h ≠ .nan → halfFromFloat (halfToFloat h) = h
  halfToFloat : ∀ h, binary16.floatClass h ≠ .nan → binary32.floatClass (halfToFloat h) ≠ .nan ∧
    binary32.extended (halfToFloat h) = binary16.extended h

end

/-! ### What is counted -/

section

variable {f : FloatFormat} {w : ℕ} {a b x y : BitVec w}

theorem floatEq_self : floatEq f x x = decide (f.floatClass x ≠ .nan) := by
  rw [floatEq]
  simp

theorem floatEq_iff (hf : 0 < f.exponentBits) (hx : f.floatClass x ≠ .nan)
    (hy : f.floatClass y ≠ .nan) : floatEq f x y = true ↔ f.index x = f.index y := by
  rw [floatEq, decide_eq_true_eq, extended_eq_iff hf hx hy]
  exact ⟨fun h => h.2.2, fun h => ⟨hx, hy, h⟩⟩

/-- **The integer of folded bits** is what they count. -/
theorem toInt_fold (hw : w = f.mantissaBits + f.exponentBits + 1) (a : BitVec w) :
    (fold (BitVec.twoPow w (f.mantissaBits + f.exponentBits)) a).toInt = f.index a := by
  have ha := toNat_eq_add (b := a) hw
  have hlt := magnitudeBits_lt (f := f) (b := a)
  have hpow : 2 ^ w = 2 * 2 ^ (f.mantissaBits + f.exponentBits) := by rw [hw, Nat.pow_succ']
  have hbit : a &&& BitVec.twoPow w (f.mantissaBits + f.exponentBits) ≠ 0#w ↔
      a.getLsbD (f.mantissaBits + f.exponentBits) = true := by
    have hne : BitVec.twoPow w (f.mantissaBits + f.exponentBits) ≠ 0#w := by
      rw [ne_eq, ← BitVec.toNat_inj, BitVec.toNat_twoPow_of_lt (by omega), BitVec.toNat_ofNat,
        Nat.zero_mod]
      exact (Nat.two_pow_pos _).ne'
    rw [BitVec.and_twoPow]
    split
    · rename_i h
      exact iff_of_true hne h
    · rename_i h
      exact iff_of_false (not_not.mpr rfl) h
  rw [fold, index_eq, BitVec.toInt_eq_toNat_cond]
  split
  · rename_i h
    rw [hbit] at h
    rw [if_pos h] at ha ⊢
    rw [BitVec.toNat_sub, BitVec.toNat_twoPow_of_lt (by omega), ha, hpow]
    rcases Nat.eq_zero_or_pos (f.magnitudeBits a) with h0 | hpos
    · rw [h0, Nat.add_zero, show 2 * 2 ^ (f.mantissaBits + f.exponentBits)
        - 2 ^ (f.mantissaBits + f.exponentBits) + 2 ^ (f.mantissaBits + f.exponentBits)
        = 2 * 2 ^ (f.mantissaBits + f.exponentBits) by omega, Nat.mod_self, if_pos (by omega)]
      rfl
    · rw [Nat.mod_eq_of_lt (by omega), if_neg (by omega)]
      omega
  · rename_i h
    rw [hbit] at h
    rw [if_neg h] at ha ⊢
    rw [if_pos (by omega), ha, Nat.zero_add]

theorem index_foldBack (hw : w = f.mantissaBits + f.exponentBits + 1)
    (ha : |a.toInt| < 2 ^ (f.mantissaBits + f.exponentBits)) :
    f.index (foldBack (BitVec.twoPow w (f.mantissaBits + f.exponentBits)) a) = a.toInt := by
  have hpow : 2 ^ w = 2 * 2 ^ (f.mantissaBits + f.exponentBits) := by rw [hw, Nat.pow_succ']
  have hnat := BitVec.toInt_eq_toNat_cond a
  have halt := a.isLt
  obtain ⟨n, hn⟩ : ∃ n, n = 2 ^ (f.mantissaBits + f.exponentBits) := ⟨_, rfl⟩
  have hcast : (2 : ℤ) ^ (f.mantissaBits + f.exponentBits) = n := by
    rw [hn]
    push_cast
    rfl
  have hint := abs_lt.mp ha
  rw [hcast] at hint
  rw [hpow, ← hn] at hnat halt
  rw [foldBack]
  split
  · rename_i hneg
    rw [BitVec.slt_iff_toInt_lt, BitVec.toInt_zero] at hneg
    have hsub : (BitVec.twoPow w (f.mantissaBits + f.exponentBits) - a).toNat
        = (if true then 2 ^ (f.mantissaBits + f.exponentBits) else 0) + a.toInt.natAbs := by
      rw [BitVec.toNat_sub, BitVec.toNat_twoPow_of_lt (by omega), hpow, if_pos rfl, ← hn,
        Nat.mod_eq_of_lt]
      all_goals
        split at hnat <;> omega
    rw [(index_of_toNat hw (by omega) hsub).2, if_pos rfl]
    omega
  · rename_i hneg
    rw [BitVec.slt_iff_toInt_lt, BitVec.toInt_zero] at hneg
    have hsub : a.toNat = (if false then 2 ^ (f.mantissaBits + f.exponentBits) else 0)
        + a.toInt.natAbs := by
      rw [if_neg Bool.false_ne_true]
      split at hnat <;> omega
    rw [(index_of_toNat hw (by omega) hsub).2, if_neg Bool.false_ne_true]
    omega

/-- **A step** counts one more, or one less. -/
theorem index_stepFolded (hf : 0 < f.exponentBits) (hw : w = f.mantissaBits + f.exponentBits + 1)
    (hx : f.floatClass x ≠ .nan) (hy : f.floatClass y ≠ .nan) :
    (f.index x < f.index y → f.index
      (stepFolded (BitVec.twoPow w (f.mantissaBits + f.exponentBits)) x y) = f.index x + 1) ∧
    (f.index y < f.index x → f.index
      (stepFolded (BitVec.twoPow w (f.mantissaBits + f.exponentBits)) x y) = f.index x - 1) := by
  have hpow : 2 ^ w = 2 * 2 ^ (f.mantissaBits + f.exponentBits) := by rw [hw, Nat.pow_succ']
  have hcount := finiteCount_lt (f := f)
  have hxle := abs_le.mp (abs_index_le hx)
  have hyle := abs_le.mp (abs_index_le hy)
  have hcast : (2 : ℤ) ^ (f.mantissaBits + f.exponentBits)
      = (2 ^ (f.mantissaBits + f.exponentBits) : ℕ) := by
    push_cast
    rfl
  rw [stepFolded]
  simp only [BitVec.slt_iff_toInt_lt, toInt_fold hw]
  constructor
  · intro h
    have hadd : (fold (BitVec.twoPow w (f.mantissaBits + f.exponentBits)) x + 1#w).toInt
        = f.index x + 1 := by
      rw [BitVec.toInt_add, toInt_fold hw, BitVec.toInt_one (by omega), hpow]
      exact Int.bmod_eq_of_le_mul_two (by omega) (by omega)
    rw [if_pos h, index_foldBack hw, hadd]
    rw [hadd, hcast, abs_lt]
    omega
  · intro h
    have hsub : (fold (BitVec.twoPow w (f.mantissaBits + f.exponentBits)) x - 1#w).toInt
        = f.index x - 1 := by
      rw [BitVec.toInt_sub, toInt_fold hw, BitVec.toInt_one (by omega), hpow]
      exact Int.bmod_eq_of_le_mul_two (by omega) (by omega)
    rw [if_neg h.not_gt, index_foldBack hw, hsub]
    rw [hsub, hcast, abs_lt]
    omega

theorem fold_eq_iff (hw : w = f.mantissaBits + f.exponentBits + 1) {tmp : BitVec w}
    (htmp : tmp = BitVec.twoPow w (f.mantissaBits + f.exponentBits)) :
    fold tmp x = fold tmp y ↔ f.index x = f.index y := by
  rw [htmp, ← BitVec.toInt_inj, toInt_fold hw, toInt_fold hw]

theorem stepFolded_ne_nan (hf : 0 < f.exponentBits) (hw : w = f.mantissaBits + f.exponentBits + 1)
    (hx : f.floatClass x ≠ .nan) (hy : f.floatClass y ≠ .nan) {tmp : BitVec w}
    (htmp : tmp = BitVec.twoPow w (f.mantissaBits + f.exponentBits))
    (hne : f.index x ≠ f.index y) : f.floatClass (stepFolded tmp x y) ≠ .nan := by
  have hstep := index_stepFolded hf hw hx hy
  have hxle := abs_le.mp (abs_index_le hx)
  have hyle := abs_le.mp (abs_index_le hy)
  rw [← htmp] at hstep
  apply floatClass_ne_nan_of_index
  rw [abs_le]
  rcases lt_or_gt_of_ne hne with h | h
  · have hindex := hstep.1 h
    omega
  · have hindex := hstep.2 h
    omega

theorem steps_of_ite (hf : 0 < f.exponentBits) (hw : w = f.mantissaBits + f.exponentBits + 1)
    (hx : f.floatClass x ≠ .nan) (hy : f.floatClass y ≠ .nan) {tmp : BitVec w}
    (htmp : tmp = BitVec.twoPow w (f.mantissaBits + f.exponentBits)) {p : Prop} [Decidable p]
    (hp : p ↔ f.index x = f.index y) : f.Steps x y (if p then y else stepFolded tmp x y) := by
  have hstep := index_stepFolded hf hw hx hy
  split
  · rename_i heq
    rw [hp] at heq
    exact steps_of_index hf hw hx hy (fun _ => rfl) (fun h => absurd heq h.ne)
      fun h => absurd heq h.ne'
  · rename_i hne
    rw [hp] at hne
    rw [htmp]
    exact steps_of_index hf hw hx hy (fun h => absurd h hne) hstep.1 hstep.2

end

/-! ### The references -/

theorem referenceNextafter_steps (x y : BitVec 32) (hx : binary32.floatClass x ≠ .nan)
    (hy : binary32.floatClass y ≠ .nan) : binary32.Steps x y (referenceNextafter x y) := by
  have hbits : 0 < binary32.exponentBits := by decide
  have htmp : (0x80000000 : BitVec 32)
      = BitVec.twoPow 32 (binary32.mantissaBits + binary32.exponentBits) := by decide
  rw [referenceNextafter, floatEq_self, floatEq_self, if_neg (by simpa using hx),
    if_neg (by simpa using hy)]
  exact steps_of_ite hbits rfl hx hy htmp (floatEq_iff hbits hx hy)

theorem referenceNextafterl_steps (x y : BitVec 64) (hx : binary64.floatClass x ≠ .nan)
    (hy : binary64.floatClass y ≠ .nan) : binary64.Steps x y (referenceNextafterl x y) := by
  have htmp : (0x8000000000000000 : BitVec 64)
      = BitVec.twoPow 64 (binary64.mantissaBits + binary64.exponentBits) := by decide
  have hfold : fold 0x8000000000000000 x = fold 0x8000000000000000 y ↔
      binary64.index x = binary64.index y := @fold_eq_iff binary64 64 x y rfl _ htmp
  rw [referenceNextafterl, floatEq_self, floatEq_self, if_neg (by simpa using hx),
    if_neg (by simpa using hy)]
  exact steps_of_ite (by decide) rfl hx hy htmp hfold

theorem isHalfSubnormal_iff (h : BitVec 16) :
    isHalfSubnormal h = true ↔ binary16.floatClass h = .subnormal := by
  have hand : (h &&& 0x7fff).toNat = binary16.magnitudeBits h := by
    rw [BitVec.toNat_and, show (0x7fff : BitVec 16).toNat = 2 ^ 15 - 1 from rfl,
      Nat.and_two_pow_sub_one_eq_mod]
    rfl
  have hlt := magnitudeBits_lt (f := binary16) (b := h)
  rw [show 2 ^ (binary16.mantissaBits + binary16.exponentBits) = 32768 from rfl] at hlt
  rw [floatClass_eq_subnormal (by decide), isHalfSubnormal, decide_eq_true_eq, BitVec.lt_def,
    BitVec.toNat_sub, BitVec.toNat_setWidth, hand, BitVec.toNat_ofNat, BitVec.toNat_ofNat,
    show 2 ^ binary16.mantissaBits = 1024 from rfl]
  omega

/-- The end of a step without subnormal numbers. -/
def flush (less : Bool) (a : BitVec 16) : BitVec 16 :=
  if isHalfSubnormal a then
    if less then if a &&& 0x8000 ≠ 0 then 0x8400 else 0x0400 else 0
  else a

theorem floatClass_flush (less : Bool) (a : BitVec 16) :
    binary16.floatClass (flush less a) ≠ .subnormal := by
  rw [flush]
  split
  · split
    · split
      · decide
      · decide
    · decide
  · rename_i hne
    exact fun h => hne ((isHalfSubnormal_iff a).mpr h)

theorem floatClass_flush_ne_nan (less : Bool) {a : BitVec 16}
    (ha : binary16.floatClass a ≠ .nan) : binary16.floatClass (flush less a) ≠ .nan := by
  rw [flush]
  split
  · split
    · split
      · decide
      · decide
    · decide
  · exact ha

section

variable {halfToFloat : BitVec 16 → BitVec 32} {halfFromFloat : BitVec 32 → BitVec 16}
  {x y r : BitVec 16}

/-- **What the reference does** for the halves that are no NaN. -/
theorem referenceNextafterh_eq (h : ExactHalf halfToFloat halfFromFloat)
    (hx : binary16.floatClass x ≠ .nan) (hy : binary16.floatClass y ≠ .nan) (allowDenorms : Bool) :
    ∃ less, referenceNextafterh halfToFloat halfFromFloat (halfToFloat x) (halfToFloat y)
      allowDenorms = halfToFloat (if binary16.index x = binary16.index y then y
        else if allowDenorms then stepFolded 0x8000 x y
        else flush less (stepFolded 0x8000 x y)) := by
  obtain ⟨hx', hxe⟩ := h.halfToFloat x hx
  obtain ⟨hy', hye⟩ := h.halfToFloat y hy
  have hbits : 0 < binary16.exponentBits := by decide
  have hbits' : 0 < binary32.exponentBits := by decide
  have heq : floatEq binary32 (halfToFloat x) (halfToFloat y) = true ↔
      binary16.index x = binary16.index y := by
    rw [floatEq_iff hbits' hx' hy', ← extended_eq_iff hbits' hx' hy', hxe, hye,
      extended_eq_iff hbits hx hy]
  refine ⟨floatLt binary32 (halfToFloat (0x7fff &&& x))
    (halfToFloat (0x7fff &&& stepFolded 0x8000 x y)), ?_⟩
  rw [referenceNextafterh, h.halfFromFloat x hx, h.halfFromFloat y hy, floatEq_self, floatEq_self,
    if_neg (by simpa using hx'), if_neg (by simpa using hy')]
  by_cases hindex : binary16.index x = binary16.index y
  · rw [if_pos (heq.mpr hindex), if_pos hindex]
  · rw [if_neg (fun h => hindex (heq.mp h)), if_neg hindex, h.halfFromFloat x hx,
      h.halfFromFloat y hy]
    cases allowDenorms with
    | true => simp only [Bool.not_true, Bool.false_and, Bool.false_eq_true, if_false, if_true]
    | false => simp only [flush, Bool.not_false, Bool.true_and, Bool.false_eq_true, if_false]

theorem referenceNextafterh_steps (h : ExactHalf halfToFloat halfFromFloat)
    (hx : binary16.floatClass x ≠ .nan) (hy : binary16.floatClass y ≠ .nan) :
    ∃ r, referenceNextafterh halfToFloat halfFromFloat (halfToFloat x) (halfToFloat y) true
      = halfToFloat r ∧ binary16.Steps x y r := by
  obtain ⟨less, heq⟩ := referenceNextafterh_eq h hx hy true
  have htmp : (0x8000 : BitVec 16)
      = BitVec.twoPow 16 (binary16.mantissaBits + binary16.exponentBits) := by decide
  rw [if_pos rfl] at heq
  exact ⟨_, heq, steps_of_ite (by decide) rfl hx hy htmp Iff.rfl⟩

theorem ExactHalf.eq_of_eq (h : ExactHalf halfToFloat halfFromFloat)
    (hr : binary16.floatClass r ≠ .nan) (hx : binary16.floatClass x ≠ .nan)
    (heq : halfToFloat r = halfToFloat x) : r = x := by
  rw [← h.halfFromFloat r hr, heq, h.halfFromFloat x hx]

/-- What does not end at a subnormal number: everything but a number that is the other one. -/
theorem floatClass_referenceNextafterh (h : ExactHalf halfToFloat halfFromFloat)
    (hx : binary16.floatClass x ≠ .nan) (hy : binary16.floatClass y ≠ .nan) :
    (∀ r, referenceNextafterh halfToFloat halfFromFloat (halfToFloat x) (halfToFloat y) false
      = halfToFloat r → binary16.floatClass r ≠ .subnormal) ↔
    ¬ (binary16.extended x = binary16.extended y ∧ binary16.floatClass x = .subnormal) := by
  obtain ⟨less, heq⟩ := referenceNextafterh_eq h hx hy false
  rw [heq, extended_eq_iff (by decide) hx hy]
  simp only [Bool.false_eq_true, if_false]
  by_cases hindex : binary16.index x = binary16.index y
  · rw [if_pos hindex]
    -- what is subnormal is told by what is counted
    have hclass : binary16.floatClass x = .subnormal ↔ binary16.floatClass y = .subnormal := by
      have habs (b : BitVec 16) : |binary16.index b| = binary16.magnitudeBits b := by
        rw [index, abs_sign_mul, abs_of_nonneg (Int.natCast_nonneg _)]
      have hmag : binary16.magnitudeBits x = binary16.magnitudeBits y := by
        have hx' := habs x
        rw [hindex, habs y] at hx'
        exact_mod_cast hx'.symm
      rw [floatClass_eq_subnormal (by decide), floatClass_eq_subnormal (by decide), hmag]
    rw [hclass]
    constructor
    · intro hall hsub
      exact hall y rfl hsub.2
    · intro hsub r hr hclass'
      have hrnan : binary16.floatClass r ≠ .nan := by
        rw [hclass']
        decide
      rw [← h.eq_of_eq hy hrnan hr] at hclass'
      exact hsub ⟨hindex, hclass'⟩
  · rw [if_neg hindex]
    refine iff_of_true (fun r hr hclass => ?_) fun hsub => hindex hsub.1
    have htmp : (0x8000 : BitVec 16)
        = BitVec.twoPow 16 (binary16.mantissaBits + binary16.exponentBits) := by decide
    have hnan := floatClass_flush_ne_nan less (stepFolded_ne_nan (by decide) rfl hx hy htmp hindex)
    have hrnan : binary16.floatClass r ≠ .nan := by
      rw [hclass]
      decide
    rw [← h.eq_of_eq hnan hrnan hr] at hclass
    exact floatClass_flush _ _ hclass

/-- **The references of nextafter** step to the adjacent value; the one for half returns a subnormal
number that it should flush just if both arguments are this number. -/
theorem nextafter_iff (halfToFloat : BitVec 16 → BitVec 32) (halfFromFloat : BitVec 32 → BitVec 16)
    (h : ExactHalf halfToFloat halfFromFloat) :
    (∀ x y, binary32.floatClass x ≠ .nan → binary32.floatClass y ≠ .nan →
      binary32.Steps x y (referenceNextafter x y)) ∧
    (∀ x y, binary64.floatClass x ≠ .nan → binary64.floatClass y ≠ .nan →
      binary64.Steps x y (referenceNextafterl x y)) ∧
    ∀ x y, binary16.floatClass x ≠ .nan → binary16.floatClass y ≠ .nan →
      (∃ r, referenceNextafterh halfToFloat halfFromFloat (halfToFloat x) (halfToFloat y) true
        = halfToFloat r ∧ binary16.Steps x y r) ∧
      ((∀ r, referenceNextafterh halfToFloat halfFromFloat (halfToFloat x) (halfToFloat y) false
        = halfToFloat r → binary16.floatClass r ≠ .subnormal) ↔
      ¬ (binary16.extended x = binary16.extended y ∧ binary16.floatClass x = .subnormal)) := by
  refine ⟨referenceNextafter_steps, referenceNextafterl_steps, ?_⟩
  intro x y hx hy
  exact ⟨referenceNextafterh_steps h hx hy, floatClass_referenceNextafterh h hx hy⟩

theorem exactHalf_convert (mode : Mode) :
    ExactHalf (binary16.convert binary32 mode) (binary32.convert binary16 mode) := by
  have hwidens : binary16.Widens binary32 := ⟨by decide, by decide, by decide +kernel⟩
  constructor
  · intro x hx
    exact convert_convert hwidens rfl rfl hx
  · intro x hx
    exact convert_exact hwidens rfl hx

/-- The neighbours of the half 1.0. -/
theorem nextafter_half_one :
    (∃ r, referenceNextafterh (binary16.convert binary32 .toNearest)
      (binary32.convert binary16 .toNearest) (binary16.convert binary32 .toNearest 0x3c00#16)
      (binary16.convert binary32 .toNearest 0x4000#16) true
        = binary16.convert binary32 .toNearest r ∧
      binary16.Steps (0x3c00 : BitVec 16) 0x4000 r) :=
  ((nextafter_iff _ _ (exactHalf_convert .toNearest)).2.2 0x3c00 0x4000 (by decide) (by decide)).1

/-- The step from the least subnormal half to itself. -/
theorem nextafter_half_subnormal : ¬ ∀ (halfToFloat : BitVec 16 → BitVec 32)
    (halfFromFloat : BitVec 32 → BitVec 16), ExactHalf halfToFloat halfFromFloat →
    ∀ x y, binary16.floatClass x ≠ .nan → binary16.floatClass y ≠ .nan → ∀ r : BitVec 16,
      referenceNextafterh halfToFloat halfFromFloat (halfToFloat x) (halfToFloat y) false
        = halfToFloat r → binary16.floatClass r ≠ .subnormal := by
  intro h
  have hconvert := exactHalf_convert .toNearest
  have hclass : binary16.floatClass (1 : BitVec 16) = .subnormal := by decide
  have hnan : binary16.floatClass (1 : BitVec 16) ≠ .nan := by decide
  exact (floatClass_referenceNextafterh hconvert hnan hnan).mp
    (h _ _ hconvert 1 1 hnan hnan) ⟨rfl, hclass⟩

end

end OpenCLCTS.MathBruteForce
