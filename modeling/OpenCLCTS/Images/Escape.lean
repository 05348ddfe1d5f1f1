import OpenCLCTS.Lib.FloatFormat
import OpenCLCTS.Lib.Words

/-!
# Escaping special values

`escape_inf_nan_subnormal_values` rewrites random data such that neither floats nor halves in it
are infinite, NaN, zero or subnormal.

* `Masks.floatClass_escape`: what one number becomes.
* `floatClass_of_half`: a float whose high half is a normal half is normal itself, so that the
  pass over the halves does not undo the pass over the floats.
* `escape_spec`: **both passes together**.
-/

namespace OpenCLCTS.Images

open FloatFormat Memory

/-- One number: the bit is flipped if the masked bits are all set, or none is. -/
def escapeWord {w : ℕ} (mask flip v : BitVec w) : BitVec w :=
  if v &&& mask = mask then v ^^^ flip else if v &&& mask = 0#w then v ^^^ flip else v

/-- `escape_inf_nan_subnormal_values`. -/
def escapeInfNanSubnormalValues (mem : ℕ → BitVec 8) (data allocSize : ℕ) : ℕ → BitVec 8 :=
  let mem := @mapEach 4 (allocSize / 4) (escapeWord 0x7F800000#32 0x40000000#32) mem data
  @mapEach 2 (allocSize / 2) (escapeWord 0x7C00#16 0x4000#16) mem data

/-! ### One number -/

/-- The mask has the bits of the exponent, and the highest one of them is flipped. -/
structure Masks (f : FloatFormat) {w : ℕ} (mask flip : BitVec w) : Prop where
  two_le : 2 ≤ f.exponentBits
  le : f.mantissaBits + f.exponentBits ≤ w
  mask : ∀ i < w,
    mask.getLsbD i = decide (f.mantissaBits ≤ i ∧ i < f.mantissaBits + f.exponentBits)
  flip : ∀ i < w, flip.getLsbD i = decide (i + 1 = f.mantissaBits + f.exponentBits)

theorem masks_binary32 : Masks binary32 0x7F800000#32 0x40000000#32 :=
  ⟨by decide, by decide, by decide, by decide⟩

theorem masks_binary16 : Masks binary16 0x7C00#16 0x4000#16 :=
  ⟨by decide, by decide, by decide, by decide⟩

variable {f : FloatFormat} {w : ℕ} {mask flip v : BitVec w}

theorem Masks.and_eq (h : Masks f mask flip) {u : BitVec w} {c : Bool}
    (hu : ∀ i < w, u.getLsbD i = (c && mask.getLsbD i)) :
    v &&& mask = u ↔ ∀ i < f.exponentBits, v.getLsbD (f.mantissaBits + i) = c := by
  have hle := h.le
  constructor
  · intro heq i hi
    have hbit := congrArg (fun b => b.getLsbD (f.mantissaBits + i)) heq
    rwa [BitVec.getLsbD_and, hu _ (by omega), h.mask _ (by omega), decide_eq_true (by omega),
      Bool.and_true, Bool.and_true] at hbit
  · intro hall
    apply BitVec.eq_of_getLsbD_eq
    intro i hi
    rw [BitVec.getLsbD_and, hu i hi, h.mask i hi]
    by_cases hin : f.mantissaBits ≤ i ∧ i < f.mantissaBits + f.exponentBits
    · have hbit := hall (i - f.mantissaBits) (by omega)
      rw [show f.mantissaBits + (i - f.mantissaBits) = i by omega] at hbit
      rw [hbit]
    · rw [decide_eq_false hin, Bool.and_false, Bool.and_false]

theorem Masks.and_eq_mask (h : Masks f mask flip) : v &&& mask = mask ↔
    ∀ i < f.exponentBits, v.getLsbD (f.mantissaBits + i) = true :=
  h.and_eq fun _ _ => (Bool.true_and _).symm

theorem Masks.and_eq_zero (h : Masks f mask flip) : v &&& mask = 0#w ↔
    ∀ i < f.exponentBits, v.getLsbD (f.mantissaBits + i) = false :=
  h.and_eq fun _ _ => BitVec.getLsbD_zero

/-- If all bits of the exponent are the same, flipping the highest one gives a normal number. -/
theorem Masks.floatClass_xor (h : Masks f mask flip) {c : Bool}
    (hall : ∀ i < f.exponentBits, v.getLsbD (f.mantissaBits + i) = c) :
    f.floatClass (v ^^^ flip) = .normal := by
  have hle := h.le
  have htwo := h.two_le
  have hlow : (v ^^^ flip).getLsbD (f.mantissaBits + 0) = c := by
    rw [BitVec.getLsbD_xor, hall 0 (by omega), h.flip _ (by omega), decide_eq_false (by omega),
      Bool.xor_false]
  have hhigh : (v ^^^ flip).getLsbD (f.mantissaBits + (f.exponentBits - 1)) = !c := by
    rw [BitVec.getLsbD_xor, hall _ (by omega), h.flip _ (by omega), decide_eq_true (by omega),
      Bool.xor_true]
  rw [floatClass_eq_normal]
  cases c with
  | true => exact ⟨⟨_, by omega, hhigh⟩, 0, by omega, hlow⟩
  | false => exact ⟨⟨0, by omega, hlow⟩, _, by omega, hhigh⟩

/-- **An escaped number is normal.** -/
theorem Masks.floatClass_escape (h : Masks f mask flip) (v : BitVec w) :
    f.floatClass (escapeWord mask flip v) = .normal := by
  rw [escapeWord]
  split
  · rename_i hones
    exact h.floatClass_xor (h.and_eq_mask.mp hones)
  · rename_i hones
    split
    · rename_i hzeros
      exact h.floatClass_xor (h.and_eq_zero.mp hzeros)
    · rename_i hzeros
      rw [h.and_eq_mask] at hones
      rw [h.and_eq_zero] at hzeros
      push Not at hones hzeros
      simp only [ne_eq, Bool.not_eq_true, Bool.not_eq_false] at hones hzeros
      exact floatClass_eq_normal.mpr ⟨hones, hzeros⟩

theorem Masks.escape_eq_self (h : Masks f mask flip) (hv : f.floatClass v = .normal) :
    escapeWord mask flip v = v := by
  obtain ⟨⟨i, hi, hfalse⟩, ⟨j, hj, htrue⟩⟩ := floatClass_eq_normal.mp hv
  rw [escapeWord, if_neg, if_neg]
  · intro hzeros
    rw [h.and_eq_zero.mp hzeros j hj] at htrue
    cases htrue
  · intro hones
    rw [h.and_eq_mask.mp hones i hi] at hfalse
    cases hfalse

/-! ### The buffer -/

variable {mem : ℕ → BitVec 8} {data allocSize : ℕ}

/-- The five bits of the exponent of a half are among the eight of the float above it. -/
theorem floatClass_of_half {a : ℕ} (h : binary16.floatClass (load mem 2 (a + 2)) = .normal) :
    binary32.floatClass (load mem 4 a) = .normal := by
  have hbit (i : ℕ) (hi : i < 5) :
      (load mem 4 a).getLsbD (23 + (i + 3)) = (load mem 2 (a + 2)).getLsbD (10 + i) := by
    rw [getLsbD_load (by omega), getLsbD_load (by omega),
      show a + (23 + (i + 3)) / 8 = a + 2 + (10 + i) / 8 by omega,
      show (23 + (i + 3)) % 8 = (10 + i) % 8 by omega]
  obtain ⟨⟨i, hi, hfalse⟩, ⟨j, hj, htrue⟩⟩ := floatClass_eq_normal.mp h
  have hi' : i < 5 := hi
  have hj' : j < 5 := hj
  refine floatClass_eq_normal.mpr ⟨⟨i + 3, ?_, ?_⟩, ⟨j + 3, ?_, ?_⟩⟩
  · exact show i + 3 < 8 by omega
  · exact (hbit i hi').trans hfalse
  · exact show j + 3 < 8 by omega
  · exact (hbit j hj').trans htrue

theorem floatClass_half (mem : ℕ → BitVec 8) {i : ℕ} (hi : (i + 1) * 2 ≤ allocSize) :
    binary16.floatClass (load (escapeInfNanSubnormalValues mem data allocSize) 2 (data + i * 2))
      = .normal := by
  rw [escapeInfNanSubnormalValues, load_mapEach (w := 2) (by omega)]
  exact masks_binary16.floatClass_escape _

theorem floatClass_float (mem : ℕ → BitVec 8) {i : ℕ} (hi : (i + 1) * 4 ≤ allocSize) :
    binary32.floatClass (load (escapeInfNanSubnormalValues mem data allocSize) 4 (data + i * 4))
      = .normal := by
  refine floatClass_of_half ?_
  rw [show data + i * 4 + 2 = data + (2 * i + 1) * 2 by omega]
  exact floatClass_half mem (by omega)

theorem escape_of_outside {b : ℕ} (h : b < data ∨ data + allocSize / 2 * 2 ≤ b) :
    escapeInfNanSubnormalValues mem data allocSize b = mem b := by
  rw [escapeInfNanSubnormalValues, mapEach_of_outside (w := 2) h,
    mapEach_of_outside (w := 4) (by omega)]

theorem escape_eq_self
    (h2 : ∀ i, (i + 1) * 2 ≤ allocSize → binary16.floatClass (load mem 2 (data + i * 2)) = .normal)
    (h4 : ∀ i, (i + 1) * 4 ≤ allocSize → binary32.floatClass (load mem 4 (data + i * 4)) = .normal) :
    escapeInfNanSubnormalValues mem data allocSize = mem := by
  have hfloats : @mapEach 4 (allocSize / 4) (escapeWord 0x7F800000#32 0x40000000#32) mem data
      = mem := mapEach_eq_self fun i hi => masks_binary32.escape_eq_self (h4 i (by omega))
  rw [escapeInfNanSubnormalValues, hfloats]
  exact mapEach_eq_self fun i hi => masks_binary16.escape_eq_self (h2 i (by omega))

/-- **After `escape_inf_nan_subnormal_values` no aligned half and no aligned float is special, the
bytes behind them are kept, and once more changes nothing.** -/
theorem escape_spec (mem : ℕ → BitVec 8) (data allocSize : ℕ) :
    (∀ i, (i + 1) * 2 ≤ allocSize → binary16.floatClass
        (load (escapeInfNanSubnormalValues mem data allocSize) 2 (data + i * 2)) = .normal) ∧
      (∀ i, (i + 1) * 4 ≤ allocSize → binary32.floatClass
        (load (escapeInfNanSubnormalValues mem data allocSize) 4 (data + i * 4)) = .normal) ∧
      (∀ b, b < data ∨ data + allocSize / 2 * 2 ≤ b →
        escapeInfNanSubnormalValues mem data allocSize b = mem b) ∧
      escapeInfNanSubnormalValues (escapeInfNanSubnormalValues mem data allocSize) data allocSize
        = escapeInfNanSubnormalValues mem data allocSize :=
  ⟨fun _ hi => floatClass_half mem hi, fun _ hi => floatClass_float mem hi,
    fun _ hb => escape_of_outside hb,
    escape_eq_self (fun _ hi => floatClass_half mem hi) fun _ hi => floatClass_float mem hi⟩

end OpenCLCTS.Images
