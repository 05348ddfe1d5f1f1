import Mathlib.Data.BitVec
import Mathlib.Tactic.Push

/-!
# Random integers of a range

`random_in_range` scales what the generator returns to the size of the range.  The size is computed
in an `int` and extended to 64 bits with its sign: from `2 ^ 31` on it is negative or 0 there.

`covers_iff`: the values are those of the range just if it has fewer than `2 ^ 31` elements.
-/

namespace OpenCLCTS.Harness

/-- `random_in_range`, where `genrand` is what `genrand_int32` returns. -/
def randomInRange (minV maxV genrand : BitVec 32) : BitVec 32 :=
  let r : BitVec 64 := genrand.setWidth 64 * (maxV - minV + 1#32).signExtend 64
  (r >>> 32).setWidth 32 + minV

variable {minV maxV : BitVec 32}

theorem randomInRange_sub (minV maxV g : BitVec 32) : (randomInRange minV maxV g - minV).toNat
    = g.toNat * ((maxV - minV + 1#32).signExtend 64).toNat % 2 ^ 64 / 2 ^ 32 := by
  have hlt : g.toNat * ((maxV - minV + 1#32).signExtend 64).toNat % 2 ^ 64 / 2 ^ 32 < 2 ^ 32 := by
    rw [Nat.div_lt_iff_lt_mul (by decide)]
    exact Nat.mod_lt _ (by decide)
  have hg : g.toNat % 2 ^ 64 = g.toNat := Nat.mod_eq_of_lt (g.isLt.trans (by decide))
  rw [randomInRange, BitVec.add_sub_cancel, BitVec.toNat_setWidth, BitVec.toNat_ushiftRight,
    BitVec.toNat_mul, BitVec.toNat_setWidth, hg, Nat.shiftRight_eq_div_pow, Nat.mod_eq_of_lt hlt]

theorem toNat_signExtend_of_lt {n : BitVec 32} (h : n.toNat < 2 ^ 31) :
    (n.signExtend 64).toNat = n.toNat := by
  have hmsb : n.msb = false := by
    rw [BitVec.msb_eq_decide, decide_eq_false_iff_not]
    omega
  rw [BitVec.signExtend_eq_setWidth_of_msb_false hmsb, BitVec.toNat_setWidth]
  exact Nat.mod_eq_of_lt (by omega)

theorem toNat_signExtend_of_ge {n : BitVec 32} (h : 2 ^ 31 ≤ n.toNat) :
    (n.signExtend 64).toNat = 2 ^ 64 - 2 ^ 32 + n.toNat := by
  have hmsb : n.msb = true := by
    rw [BitVec.msb_eq_decide, decide_eq_true_eq]
    omega
  rw [BitVec.toNat_signExtend, hmsb, if_pos rfl, BitVec.toNat_setWidth, Nat.mod_eq_of_lt (by omega)]
  omega

/-- **Small ranges**: the numbers below the size are what is added. -/
theorem randomInRange_sub_of_lt (h : (maxV - minV + 1#32).toNat < 2 ^ 31) (g : BitVec 32) :
    (randomInRange minV maxV g - minV).toNat
      = g.toNat * (maxV - minV + 1#32).toNat / 2 ^ 32 := by
  have hlt : g.toNat * (maxV - minV + 1#32).toNat < 2 ^ 64 :=
    (Nat.mul_lt_mul'' g.isLt h).trans (by decide)
  rw [randomInRange_sub, toNat_signExtend_of_lt h, Nat.mod_eq_of_lt hlt]

theorem exists_mul_div_eq {n k : ℕ} (hn : n < 2 ^ 31) (hk : k < n) :
    ∃ g < 2 ^ 32, g * n / 2 ^ 32 = k := by
  have hdiv := Nat.div_add_mod (k * 2 ^ 32 + (n - 1)) n
  have hmod := Nat.mod_lt (k * 2 ^ 32 + (n - 1)) (Nat.zero_lt_of_lt hk)
  refine ⟨(k * 2 ^ 32 + (n - 1)) / n, ?_, ?_⟩
  · rw [Nat.div_lt_iff_lt_mul (Nat.zero_lt_of_lt hk)]
    have hle : (k + 1) * 2 ^ 32 ≤ 2 ^ 32 * n := by
      rw [Nat.mul_comm]
      exact Nat.mul_le_mul_left _ hk
    omega
  · rw [Nat.mul_comm] at hdiv
    rw [Nat.div_eq_iff (by decide)]
    omega

/-- **Large ranges**: what is added is 0 or at least `2 ^ 31`. -/
theorem randomInRange_sub_of_ge
    (h : (maxV - minV + 1#32).toNat = 0 ∨ 2 ^ 31 ≤ (maxV - minV + 1#32).toNat) (g : BitVec 32) :
    (randomInRange minV maxV g - minV).toNat = 0 ∨
      2 ^ 31 ≤ (randomInRange minV maxV g - minV).toNat := by
  rw [randomInRange_sub]
  have hg := g.isLt
  rcases h with h | h
  · left
    rw [toNat_signExtend_of_lt (by omega), h, Nat.mul_zero]
    decide
  · rw [toNat_signExtend_of_ge h]
    have hn := (maxV - minV + 1#32).isLt
    generalize (maxV - minV + 1#32).toNat = n at h hn
    -- the factor is `2 ^ 64 - m`, where the size lacks `m` of `2 ^ 32`
    obtain ⟨m, hm, hm31⟩ : ∃ m, 2 ^ 64 - 2 ^ 32 + n = 2 ^ 64 - m ∧ m ≤ 2 ^ 31 :=
      ⟨2 ^ 32 - n, by omega, by omega⟩
    have hprod : g.toNat * m ≤ 2 ^ 63 :=
      (Nat.mul_le_mul hg.le hm31).trans (by decide)
    rw [hm]
    rcases Nat.eq_zero_or_pos (g.toNat * m) with h0 | hpos
    · left
      rw [Nat.mul_sub, h0, Nat.sub_zero, Nat.mul_mod_left, Nat.zero_div]
    · right
      have hmod : g.toNat * (2 ^ 64 - m) % 2 ^ 64 = 2 ^ 64 - g.toNat * m := by
        have hsplit : g.toNat * (2 ^ 64 - m) = 2 ^ 64 - g.toNat * m + 2 ^ 64 * (g.toNat - 1) := by
          have hle : 1 ≤ g.toNat := Nat.one_le_iff_ne_zero.mpr fun h0 => by simp [h0] at hpos
          rw [Nat.mul_sub, Nat.mul_sub, Nat.mul_comm (2 ^ 64)]
          omega
        rw [hsplit, Nat.add_mul_mod_self_left, Nat.mod_eq_of_lt (by omega)]
      rw [hmod, Nat.le_div_iff_mul_le (by decide)]
      omega

/-! ### Ranges -/

/-- What `random_in_range` should return: the values of the range, all of them. -/
def Covers (minV maxV : BitVec 32) : Prop :=
  (∀ genrand, minV.toInt ≤ (randomInRange minV maxV genrand).toInt ∧
    (randomInRange minV maxV genrand).toInt ≤ maxV.toInt) ∧
  ∀ v : BitVec 32, minV.toInt ≤ v.toInt → v.toInt ≤ maxV.toInt →
    ∃ genrand, randomInRange minV maxV genrand = v

theorem toNat_sub_of_le (h : minV.toInt ≤ maxV.toInt) :
    ((maxV - minV).toNat : ℤ) = maxV.toInt - minV.toInt := by
  rw [BitVec.toInt_eq_toNat_cond, BitVec.toInt_eq_toNat_cond] at h ⊢
  rw [BitVec.toNat_sub]
  omega

theorem toNat_size (h : minV.toInt ≤ maxV.toInt) : ((maxV - minV + 1#32).toNat : ℤ)
    = (maxV.toInt - minV.toInt + 1) % 2 ^ 32 := by
  rw [← toNat_sub_of_le h, BitVec.toNat_add]
  push_cast
  rfl

theorem mem_range_of_sub {v : BitVec 32} (h : minV.toInt ≤ maxV.toInt)
    (hv : ((v - minV).toNat : ℤ) ≤ maxV.toInt - minV.toInt) :
    minV.toInt ≤ v.toInt ∧ v.toInt ≤ maxV.toInt := by
  rw [BitVec.toNat_sub] at hv
  rw [BitVec.toInt_eq_toNat_cond, BitVec.toInt_eq_toNat_cond] at h hv
  rw [BitVec.toInt_eq_toNat_cond, BitVec.toInt_eq_toNat_cond, BitVec.toInt_eq_toNat_cond]
  omega

theorem sub_inj {v v' : BitVec 32} (h : (v - minV).toNat = (v' - minV).toNat) : v = v' :=
  (BitVec.sub_left_inj minV).mp (BitVec.eq_of_toNat_eq h)

/-- **Every value of a small range is produced.** -/
theorem exists_randomInRange (h : minV.toInt ≤ maxV.toInt)
    (hsize : maxV.toInt - minV.toInt + 1 < 2 ^ 31) {v : BitVec 32} (hmin : minV.toInt ≤ v.toInt)
    (hmax : v.toInt ≤ maxV.toInt) : ∃ genrand, randomInRange minV maxV genrand = v := by
  have hn := toNat_size h
  rw [Int.emod_eq_of_lt (by omega) (by omega)] at hn
  have hk := toNat_sub_of_le hmin
  obtain ⟨g, hg, hdiv⟩ := exists_mul_div_eq (n := (maxV - minV + 1#32).toNat)
    (k := (v - minV).toNat) (by omega) (by omega)
  refine ⟨BitVec.ofNat 32 g, @sub_inj minV _ _ ?_⟩
  rw [randomInRange_sub_of_lt (by omega), BitVec.toNat_ofNat, Nat.mod_eq_of_lt hg, hdiv]

/-- **In a large range** the values shortly above the least one are not produced. -/
theorem randomInRange_ne
    (h : (maxV - minV + 1#32).toNat = 0 ∨ 2 ^ 31 ≤ (maxV - minV + 1#32).toNat) {v : BitVec 32}
    (hv : 0 < (v - minV).toNat ∧ (v - minV).toNat < 2 ^ 31) (g : BitVec 32) :
    randomInRange minV maxV g ≠ v := by
  have hsub := randomInRange_sub_of_ge h g
  intro heq
  rw [heq] at hsub
  omega

/-- **The values are those of the range** just if it is small. -/
theorem covers_iff (h : minV.toInt ≤ maxV.toInt) :
    Covers minV maxV ↔ maxV.toInt - minV.toInt + 1 < 2 ^ 31 := by
  constructor
  · intro hcovers
    by_contra hsize
    have hone : (minV + 1#32 - minV).toNat = 1 := by
      rw [BitVec.add_comm, BitVec.add_sub_cancel]
      rfl
    obtain ⟨hlo, hhi⟩ := mem_range_of_sub (v := minV + 1#32) h (by omega)
    obtain ⟨g, hg⟩ := hcovers.2 _ hlo hhi
    have hn := toNat_size h
    have hmin := minV.le_toInt
    have hmax := maxV.toInt_lt
    exact randomInRange_ne (by omega) (by omega) g hg
  · intro hsize
    refine ⟨fun g => mem_range_of_sub h ?_, fun v => exists_randomInRange h hsize⟩
    have hn := toNat_size h
    rw [Int.emod_eq_of_lt (by omega) (by omega)] at hn
    have hlt : g.toNat * (maxV - minV + 1#32).toNat / 2 ^ 32 < (maxV - minV + 1#32).toNat := by
      rw [Nat.div_lt_iff_lt_mul (by decide), Nat.mul_comm]
      exact Nat.mul_lt_mul_of_pos_left g.isLt (by omega)
    rw [randomInRange_sub_of_lt (by omega)]
    omega

/-! ### Indices -/

theorem toNat_size_ofNat {n : ℕ} (hn : 0 < n) (hint : n < 2 ^ 31) :
    (BitVec.ofNat 32 (n - 1) - 0#32 + 1#32).toNat = n := by
  rw [BitVec.sub_zero, BitVec.toNat_add, BitVec.toNat_ofNat, BitVec.toNat_ofNat]
  omega

/-- **A random index** is below the bound. -/
theorem randomInRange_toNat_lt {n : ℕ} (hn : 0 < n) (hint : n < 2 ^ 31) (g : BitVec 32) :
    (randomInRange 0#32 (BitVec.ofNat 32 (n - 1)) g).toNat < n := by
  have hsize := toNat_size_ofNat hn hint
  have hsub := @randomInRange_sub_of_lt 0#32 (BitVec.ofNat 32 (n - 1)) (by omega) g
  rw [hsize, BitVec.sub_zero] at hsub
  rw [hsub, Nat.div_lt_iff_lt_mul (by decide), Nat.mul_comm]
  exact Nat.mul_lt_mul_of_pos_left g.isLt hn

theorem exists_randomInRange_toNat {n i : ℕ} (hi : i < n) (hint : n < 2 ^ 31) :
    ∃ g, (randomInRange 0#32 (BitVec.ofNat 32 (n - 1)) g).toNat = i := by
  have hsize := toNat_size_ofNat (by omega) hint
  obtain ⟨g, hg, hdiv⟩ := exists_mul_div_eq hint hi
  have hsub := @randomInRange_sub_of_lt 0#32 (BitVec.ofNat 32 (n - 1)) (by omega) (BitVec.ofNat 32 g)
  rw [hsize, BitVec.sub_zero, BitVec.toNat_ofNat, Nat.mod_eq_of_lt hg, hdiv] at hsub
  exact ⟨BitVec.ofNat 32 g, hsub⟩

end OpenCLCTS.Harness
