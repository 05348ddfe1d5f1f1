import OpenCLCTS.Lib.FloatExtended

/-!
# Exact computations

The arithmetic of a format rounds, and sets a flag if the result is not the exact one.

* `Exact`: a computation that does not set the flag; `Exact.bind` puts two of them together.
* `Represents`: bits of a number; those of 0 have no sign.
* `exact_add`, `exact_sub`, `exact_mul`, `exact_converted`: operations whose result is a number of
  the format.
-/

/-- Computations with the flag of inexact results. -/
abbrev Flagged := StateM Bool

/-- The flag is not changed, and the result has a property. -/
def Exact {α : Type} (m : Flagged α) (P : α → Prop) : Prop := ∀ flag, ∃ r, m flag = (r, flag) ∧ P r

namespace Exact

variable {α β : Type} {m m' : Flagged α} {g : α → Flagged β} {P Q : α → Prop} {R : β → Prop}

theorem of_pure {a : α} (h : P a) : Exact (pure a) P := fun _ => ⟨a, rfl, h⟩

/-- **One computation after the other.** -/
theorem bind (h : Exact m P) (hg : ∀ a, P a → Exact (g a) R) : Exact (m >>= g) R := by
  intro flag
  obtain ⟨a, ha, hP⟩ := h flag
  obtain ⟨b, hb, hR⟩ := hg a hP flag
  refine ⟨b, ?_, hR⟩
  show (match m flag with | (a, flag) => g a flag) = (b, flag)
  rw [ha]
  exact hb

theorem mono (h : Exact m P) (hPQ : ∀ a, P a → Q a) : Exact m Q := by
  intro flag
  obtain ⟨a, ha, hP⟩ := h flag
  exact ⟨a, ha, hPQ a hP⟩

theorem ite {c : Prop} [Decidable c] (ht : c → Exact m P) (hf : ¬ c → Exact m' P) :
    Exact (if c then m else m') P := by
  split
  · exact ht ‹_›
  · exact hf ‹_›

end Exact

namespace FloatFormat

variable (f : FloatFormat) {w v : ℕ}

/-- The flag is set if these are not bits of the exact result. -/
def flagged (r : BitVec w) (q : ℚ) : Flagged (BitVec w) := fun inexact =>
  (r, inexact || decide (¬ (f.Finite r ∧ f.value r = q)))

/-- The sign of bits. -/
def signBit (a : BitVec w) : Bool := a.getLsbD (f.mantissaBits + f.exponentBits)

/-- The result of an operation, rounded to nearest; `s` is the sign of a result that is 0. -/
def rounded (s : Bool) (q : ℚ) : Flagged (BitVec w) := f.flagged (f.ofRat .toNearest s q) q

/-- The sum of finite numbers. -/
def add (a b : BitVec w) : Flagged (BitVec w) :=
  f.rounded (f.signBit a && f.signBit b) (f.value a + f.value b)

/-- The difference of finite numbers. -/
def sub (a b : BitVec w) : Flagged (BitVec w) :=
  f.rounded (f.signBit a && !f.signBit b) (f.value a - f.value b)

/-- The product of finite numbers. -/
def mul (a b : BitVec w) : Flagged (BitVec w) :=
  f.rounded (f.signBit a ^^ f.signBit b) (f.value a * f.value b)

/-- The number with the other sign. -/
def neg (a : BitVec w) : BitVec w := f.ofMagnitude (!f.signBit a) (f.magnitudeBits a)

/-- The absolute value. -/
def fabs (a : BitVec w) : BitVec w := f.ofMagnitude false (f.magnitudeBits a)

/-- The conversion to another format. -/
def converted (g : FloatFormat) (b : BitVec w) : Flagged (BitVec v) :=
  if f.Finite b then g.flagged (f.convert g .toNearest b) (f.value b)
  else pure (f.convert g .toNearest b)

/-- Bits of a number; those of 0 have no sign. -/
structure Represents (r : BitVec w) (q : ℚ) : Prop where
  finite : f.Finite r
  value : f.value r = q
  sign : q = 0 → f.signBit r = false

variable {f} {g : FloatFormat} {a b r : BitVec w} {q y : ℚ}

/-- A number of the format that is not too large. -/
def Fits (f : FloatFormat) (q : ℚ) : Prop := f.Number q ∧ |q| < f.magnitude f.finiteCount

theorem Represents.fits (h : f.Represents r q) : f.Fits q := by
  rw [← h.value]
  exact ⟨number_value r f, abs_value_lt_of_finite h.finite⟩

theorem Represents.of_ne_zero (hr : f.Finite r) (h : f.value r ≠ 0) : f.Represents r (f.value r) :=
  ⟨hr, rfl, fun h0 => absurd h0 h⟩

/-- **An exact result.** -/
theorem exact_rounded (hw : w = f.mantissaBits + f.exponentBits + 1) (h : f.Fits q) {s : Bool}
    (hs : q = 0 → s = false) :
    Exact (f.rounded s q : Flagged (BitVec w)) fun r => f.Represents r q := by
  intro flag
  obtain ⟨hvalue, hfinite⟩ := value_ofRat (w := w) (s := s) .toNearest hw h.1 h.2
  refine ⟨f.ofRat .toNearest s q, ?_, hfinite, hvalue, ?_⟩
  · rw [rounded, flagged, decide_eq_false (not_not.mpr ⟨hfinite, hvalue⟩), Bool.or_false]
  · intro h0
    rw [signBit, getLsbD_ofRat .toNearest hw, if_pos h0, hs h0]

theorem Represents.signBit_eq (h : f.Represents r q) : f.signBit r = decide (q < 0) := by
  have hsign := f.sign_value r
  rw [h.value] at hsign
  rw [signBit, ← hsign]
  split
  · rename_i h0
    rw [h0]
    exact h.sign h0
  · rfl

theorem represents_fabs (hw : w = f.mantissaBits + f.exponentBits + 1) (ha : f.Finite a) :
    f.Represents (f.fabs a) |f.value a| := by
  have hbits := index_ofMagnitude (f := f) (s := false) hw (magnitudeBits_lt (b := a))
  refine ⟨?_, ?_, fun _ => getLsbD_ofMagnitude hw magnitudeBits_lt⟩
  · rw [finite_iff, fabs, hbits.1, ← finite_iff]
    exact ha
  · rw [fabs, value_ofMagnitude hw magnitudeBits_lt, if_neg Bool.false_ne_true, abs_value_eq]

theorem neg_fields (hw : w = f.mantissaBits + f.exponentBits + 1) (ha : f.Finite a) :
    f.Finite (f.neg a) ∧ f.value (f.neg a) = -f.value a ∧ f.signBit (f.neg a) = !f.signBit a := by
  have hbits := index_ofMagnitude (f := f) (s := !f.signBit a) hw (magnitudeBits_lt (b := a))
  refine ⟨?_, ?_, getLsbD_ofMagnitude hw magnitudeBits_lt⟩
  · rw [finite_iff, neg, hbits.1, ← finite_iff]
    exact ha
  · rw [neg, value_ofMagnitude hw magnitudeBits_lt, value_eq_magnitude, FloatFormat.sign, signBit]
    cases a.getLsbD (f.mantissaBits + f.exponentBits) <;> simp

/-- **The class** of a finite number. -/
theorem Finite.floatClass_eq (hf : 0 < f.exponentBits) (h : f.Finite r) :
    f.floatClass r ≠ .nan ∧ f.floatClass r ≠ .infinite ∧
      (f.floatClass r = .zero ↔ f.value r = 0) := by
  have hfinite := (f.finite_iff r).mp h
  refine ⟨h.ne_nan, ?_, ?_⟩
  · rw [ne_eq, floatClass_eq_infinite]
    exact hfinite.ne
  · rw [floatClass_eq_zero hf, ← abs_eq_zero, f.abs_value_eq, ← f.magnitude_zero,
      f.magnitude_strictMono.injective.eq_iff]
    rfl

section

variable (hw : w = f.mantissaBits + f.exponentBits + 1) (ha : f.Represents a q)
  (hb : f.Represents b y)

include hw ha hb

theorem exact_add (h : f.Fits (q + y)) : Exact (f.add a b) fun r => f.Represents r (q + y) := by
  rw [add, ha.value, hb.value, ha.signBit_eq, hb.signBit_eq]
  refine exact_rounded hw h ?_
  intro h0
  rw [Bool.and_eq_false_iff, decide_eq_false_iff_not, decide_eq_false_iff_not]
  by_contra hneg
  push Not at hneg
  linarith [hneg.1, hneg.2]

theorem exact_sub (h : f.Fits (q - y)) : Exact (f.sub a b) fun r => f.Represents r (q - y) := by
  rw [sub, ha.value, hb.value, ha.signBit_eq, hb.signBit_eq]
  refine exact_rounded hw h ?_
  intro h0
  rw [sub_eq_zero.mp h0, Bool.and_not_self]

theorem exact_mul (h : f.Fits (q * y)) (hy : 0 < y) :
    Exact (f.mul a b) fun r => f.Represents r (q * y) := by
  rw [mul, ha.value, hb.value, ha.signBit_eq, hb.signBit_eq]
  refine exact_rounded hw h ?_
  intro h0
  rw [(mul_eq_zero.mp h0).resolve_right hy.ne', decide_eq_false (lt_irrefl _),
    decide_eq_false hy.not_gt, Bool.xor_false]

end

theorem mul_swap (f : FloatFormat) (a b : BitVec w) : f.mul a b = f.mul b a := by
  rw [mul, mul, Bool.xor_comm, mul_comm]

/-- **A conversion** to a format that has the number. -/
theorem exact_converted (hv : v = g.mantissaBits + g.exponentBits + 1) (ha : f.Represents a q)
    (h : g.Fits q) : Exact (f.converted g a : Flagged (BitVec v)) fun r => g.Represents r q := by
  have hexact := exact_rounded (w := v) hv h (s := f.signBit a) ha.sign
  rw [converted, if_pos ha.finite, convert_of_finite ha.finite, ha.value]
  exact hexact

theorem Fits.widen (h : f.Widens g) (hq : f.Fits q) : g.Fits q :=
  ⟨hq.1.widen h.mantissaBits h.lastBit, hq.2.trans_le h.finite⟩

theorem exact_converted_widen (h : f.Widens g) (hv : v = g.mantissaBits + g.exponentBits + 1)
    (ha : f.Finite a) : Exact (f.converted g a : Flagged (BitVec v)) fun r =>
      r = f.convert g .toNearest a ∧ g.Finite r ∧ g.value r = f.value a ∧
        g.signBit r = f.signBit a := by
  have hnumber := (number_value a f).widen h.mantissaBits h.lastBit
  have hlt := (abs_value_lt_of_finite ha).trans_le h.finite
  have hconvert : (f.convert g .toNearest a : BitVec v) = _ := convert_of_finite ha
  have hvalue := value_ofRat (w := v) (s := f.signBit a) .toNearest hv hnumber hlt
  intro flag
  refine ⟨f.convert g .toNearest a, ?_, rfl, ?_⟩
  · rw [converted, if_pos ha, flagged, hconvert, decide_eq_false (not_not.mpr ⟨hvalue.2, hvalue.1⟩),
      Bool.or_false]
  · rw [hconvert]
    refine ⟨hvalue.2, hvalue.1, ?_⟩
    rw [signBit, getLsbD_ofRat .toNearest hv, sign_value]
    rfl

theorem exact_converted_back (h : f.Widens g) (hw : w = f.mantissaBits + f.exponentBits + 1)
    (hv : v = g.mantissaBits + g.exponentBits + 1) (ha : f.Finite a) :
    Exact (g.converted f (f.convert g .toNearest a : BitVec v) : Flagged (BitVec w))
      fun r => r = a := by
  obtain ⟨r, -, rfl, hfinite, hvalue, -⟩ := exact_converted_widen h hv ha false
  intro flag
  refine ⟨a, ?_, rfl⟩
  rw [converted, if_pos hfinite, flagged, convert_convert h hw hv ha.ne_nan, hvalue,
    decide_eq_false (not_not.mpr ⟨ha, rfl⟩), Bool.or_false]

/-! ### Numbers -/

/-- Multiples of a power of two, with few bits. -/
theorem number_of_lt {n u : ℤ} (hu : f.minExp - f.mantissaBits ≤ u)
    (h : |(n : ℚ) * 2 ^ u| < 2 ^ (u + f.mantissaBits + 1)) : f.Number (n * 2 ^ u) := by
  refine ⟨n, u, hu, ?_, rfl⟩
  have hpos := two_zpow_pos u
  rw [abs_mul, abs_of_pos hpos, add_assoc, zpow_add₀ two_ne_zero, mul_comm,
    mul_lt_mul_iff_right₀ hpos] at h
  exact_mod_cast h

theorem Number.mul_two_zpow (h : f.Number q) {k : ℤ} (hk : 0 ≤ k) : f.Number (q * 2 ^ k) := by
  obtain ⟨m, e, he, hm, rfl⟩ := h
  refine ⟨m, e + k, by omega, hm, ?_⟩
  rw [zpow_add₀ two_ne_zero, mul_assoc]

/-- **The fields of a normal number.** -/
theorem exists_fields (h : 2 ^ f.minExp ≤ |f.value b|) : ∃ e m : ℕ, 1 ≤ e ∧
    m < 2 ^ f.mantissaBits ∧ f.magnitudeBits b = 2 ^ f.mantissaBits * e + m ∧
    |f.value b| = (2 ^ f.mantissaBits + m : ℕ) * 2 ^ (e - 1 + f.minExp - f.mantissaBits) := by
  have hpos := Nat.two_pow_pos f.mantissaBits
  have hm := Nat.mod_lt (f.magnitudeBits b) hpos
  have hbits := (Nat.div_add_mod (f.magnitudeBits b) (2 ^ f.mantissaBits)).symm
  have hvalue := f.abs_value_eq b
  generalize f.magnitudeBits b % 2 ^ f.mantissaBits = m at hm hbits
  generalize f.magnitudeBits b / 2 ^ f.mantissaBits = e at hbits
  rw [hbits, magnitude_mul_add hm] at hvalue
  have he : 1 ≤ e := by
    by_contra he
    obtain rfl : e = 0 := by omega
    rw [if_pos rfl, Nat.zero_add, Nat.max_eq_right (by omega), Nat.cast_one, sub_self, zero_add,
      zpow_sub₀ two_ne_zero, zpow_natCast] at hvalue
    have hlt : (m : ℚ) / 2 ^ f.mantissaBits < 1 := by
      rw [div_lt_one (by positivity)]
      exact_mod_cast hm
    have hmul := mul_lt_mul_of_pos_right hlt (two_zpow_pos f.minExp)
    rw [hvalue, mul_div_assoc', mul_div_right_comm] at h
    rw [one_mul] at hmul
    exact absurd h (not_le.mpr hmul)
  rw [if_neg (by omega), Nat.max_eq_left he] at hvalue
  exact ⟨e, m, he, hm, hbits, hvalue⟩

end FloatFormat
