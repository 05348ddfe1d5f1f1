import Mathlib.Algebra.Order.Floor.Div
import Mathlib.Order.Interval.Finset.Nat

/-!
# Blocks of a range

The numbers below `n` in consecutive blocks of `b`: there are `n ⌈/⌉ b` of them, and all but the
last one are full.
-/

namespace Blocks

/-- The numbers of block `k`. -/
def block (n b k : ℕ) : Finset ℕ := (Finset.range n).filter fun i => i / b = k

variable {n b k : ℕ}

theorem ceilDiv_bounds (hb : 0 < b) (hn : 0 < n) :
    0 < n ⌈/⌉ b ∧ b * (n ⌈/⌉ b - 1) < n ∧ n ≤ b * (n ⌈/⌉ b) := by
  have hle : n ≤ b * (n ⌈/⌉ b) := (ceilDiv_le_iff_le_mul hb).mp le_rfl
  have hpos : 0 < n ⌈/⌉ b := by
    apply Nat.pos_of_ne_zero
    intro h
    rw [h, Nat.mul_zero] at hle
    omega
  refine ⟨hpos, ?_, hle⟩
  rw [← not_le, ← ceilDiv_le_iff_le_mul hb]
  omega

/-- **The blocks that have a number.** -/
theorem image_div (hb : 0 < b) : (Finset.range n).image (· / b) = Finset.range (n ⌈/⌉ b) := by
  ext k
  simp only [Finset.mem_image, Finset.mem_range]
  rw [← not_le (a := n ⌈/⌉ b), ceilDiv_le_iff_le_mul hb, not_le]
  constructor
  · rintro ⟨i, hi, rfl⟩
    exact lt_of_le_of_lt (Nat.mul_div_le i b) hi
  · intro h
    exact ⟨b * k, h, Nat.mul_div_cancel_left k hb⟩

/-- **The size of a block.** -/
theorem card_block (hb : 0 < b) : (block n b k).card = min (b * (k + 1)) n - b * k := by
  have hset : block n b k = Finset.Ico (b * k) (min (b * (k + 1)) n) := by
    ext i
    have hdiv : i / b = k ↔ b * k ≤ i ∧ i < b * (k + 1) := by
      rw [Nat.div_eq_iff hb, Nat.mul_succ, Nat.mul_comm k]
      omega
    simp only [block, Finset.mem_filter, Finset.mem_range, Finset.mem_Ico, lt_min_iff, hdiv]
    tauto
  rw [hset, Nat.card_Ico]

theorem card_first (hb : 0 < b) (h : b ≤ n) : (block n b 0).card = b := by
  rw [card_block hb, Nat.mul_zero, Nat.sub_zero, Nat.zero_add, Nat.mul_one, min_eq_left h]

theorem card_last (hb : 0 < b) (hn : 0 < n) :
    (block n b (n ⌈/⌉ b - 1)).card = n - b * (n ⌈/⌉ b - 1) := by
  obtain ⟨hpos, _, hle⟩ := ceilDiv_bounds hb hn
  rw [card_block hb, Nat.sub_add_cancel hpos, min_eq_right hle]

theorem sub_one_mod (hb : 0 < b) (hn : 0 < n) :
    (n - 1) % b + 1 = n - b * (n ⌈/⌉ b - 1) := by
  obtain ⟨hpos, hlt, hle⟩ := ceilDiv_bounds hb hn
  have hmul : b * (n ⌈/⌉ b) = b * (n ⌈/⌉ b - 1) + b := by
    rw [← Nat.mul_succ, Nat.succ_eq_add_one, Nat.sub_add_cancel hpos]
  obtain ⟨r, hr⟩ : ∃ r, n - 1 = b * (n ⌈/⌉ b - 1) + r := ⟨n - 1 - b * (n ⌈/⌉ b - 1), by omega⟩
  rw [hr, Nat.mul_add_mod, Nat.mod_eq_of_lt (by omega)]
  omega

end Blocks
