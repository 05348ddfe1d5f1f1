import Mathlib.Data.Nat.Count
import Mathlib.Order.Bounds.Defs
import Mathlib.Tactic.Common

/-!
# Sets of bits

A word as a set of positions: `set` and `reset` of a position, loops that set positions, and
the number of the positions that are set.

`getLsbD_setAll` says which positions a loop has set, and `count_eq` counts the positions below a
limit.
-/

namespace Bitset

variable {w : ℕ}

/-- Puts position `i` into the set. -/
def set (b : BitVec w) (i : ℕ) : BitVec w := b ||| (1#w <<< i)

/-- Takes position `i` out of the set. -/
def reset (b : BitVec w) (i : ℕ) : BitVec w := b &&& ~~~(1#w <<< i)

/-- A loop that puts positions into the set. -/
def setAll (b : BitVec w) (is : List ℕ) : BitVec w := is.foldl set b

/-- The number of positions in the set. -/
def count (b : BitVec w) : ℕ := Nat.count (fun i => b.getLsbD i = true) w

variable {b : BitVec w} {i j n : ℕ}

theorem getLsbD_one_shiftLeft (i j : ℕ) :
    (1#w <<< i).getLsbD j = decide (j = i ∧ j < w) := by
  rw [BitVec.getLsbD_shiftLeft, BitVec.getLsbD_one, Bool.eq_iff_iff]
  simp only [Bool.and_eq_true, Bool.not_eq_true', decide_eq_true_eq, decide_eq_false_iff_not]
  omega

theorem getLsbD_set (b : BitVec w) (i j : ℕ) :
    (set b i).getLsbD j = true ↔ b.getLsbD j = true ∨ j = i ∧ j < w := by
  rw [set, BitVec.getLsbD_or, getLsbD_one_shiftLeft, Bool.or_eq_true, decide_eq_true_eq]

theorem getLsbD_reset (b : BitVec w) (i j : ℕ) :
    (reset b i).getLsbD j = true ↔ b.getLsbD j = true ∧ j ≠ i := by
  rw [reset, BitVec.getLsbD_and, BitVec.getLsbD_not, getLsbD_one_shiftLeft]
  by_cases hj : j < w
  · simp [hj]
  · simp [BitVec.getLsbD_of_ge b j (not_lt.mp hj)]

/-- **What a loop puts into the set.** -/
theorem getLsbD_setAll (b : BitVec w) (is : List ℕ) (j : ℕ) :
    (setAll b is).getLsbD j = true ↔ b.getLsbD j = true ∨ j ∈ is ∧ j < w := by
  induction is generalizing b with
  | nil => simp [setAll]
  | cons i is ih =>
    rw [setAll, List.foldl_cons]
    refine (ih (set b i)).trans ?_
    rw [getLsbD_set, List.mem_cons]
    tauto

/-- **The positions below a limit**: if `p` holds for those of them that are set, and for no others,
it is counted below the limit. -/
theorem count_eq {p : ℕ → Prop} [DecidablePred p] (hn : n ≤ w)
    (h : ∀ i, b.getLsbD i = true ↔ p i ∧ i < n) : count b = Nat.count p n := by
  obtain ⟨k, rfl⟩ := Nat.exists_eq_add_of_le hn
  rw [count, Nat.count_add]
  have hbelow : Nat.count (fun i => b.getLsbD i = true) n = Nat.count p n :=
    le_antisymm (Nat.count_mono_left fun i _ hi => ((h i).mp hi).1)
      (Nat.count_mono_left fun i hi hp => (h i).mpr ⟨hp, hi⟩)
  have habove : Nat.count (fun i => b.getLsbD (n + i) = true) k = 0 := by
    rw [Nat.count_iff_forall_not]
    intro i _ hset
    exact absurd ((h (n + i)).mp hset).2 (by omega)
  rw [hbelow, habove, Nat.add_zero]

theorem eq_zero_iff : b = 0#w ↔ ∀ i, b.getLsbD i = false := by
  constructor
  · rintro rfl i
    exact BitVec.getLsbD_zero
  · intro h
    refine BitVec.eq_of_getLsbD_eq ?_
    intro i _
    rw [h i, BitVec.getLsbD_zero]

/-! ### Searches -/

theorem find?_pairwise {α : Type*} {R : α → α → Prop} {p : α → Bool} {xs : List α}
    (hxs : xs.Pairwise R) {x : α} (h : xs.find? p = some x) :
    p x = true ∧ x ∈ xs ∧ ∀ y ∈ xs, p y = true → y = x ∨ R x y := by
  obtain ⟨hx, before, after, rfl, hbefore⟩ := List.find?_eq_some_iff_append.mp h
  refine ⟨hx, List.mem_append_right before List.mem_cons_self, ?_⟩
  intro y hy hpy
  rcases List.mem_append.mp hy with hy | hy
  · have hnot := hbefore y hy
    rw [hpy] at hnot
    cases hnot
  · rcases List.mem_cons.mp hy with rfl | hy
    · exact .inl rfl
    · exact .inr ((List.pairwise_cons.mp (List.pairwise_append.mp hxs).2.1).1 y hy)

theorem exists_find? {xs : List ℕ} (hb : b ≠ 0#w) (hxs : ∀ j, b.getLsbD j = true → j ∈ xs) :
    ∃ i, xs.find? (fun i => b.getLsbD i) = some i := by
  rw [← Option.isSome_iff_exists, List.find?_isSome]
  by_contra hnone
  refine hb (eq_zero_iff.mpr fun i => ?_)
  by_contra hset
  exact hnone ⟨i, hxs i (Bool.not_eq_false _ ▸ hset), Bool.not_eq_false _ ▸ hset⟩

/-- **The least position**, by a search upwards. -/
theorem isLeast_find? (hb : b ≠ 0#w) (h : ∀ j, b.getLsbD j = true → j < n) (d : ℕ) :
    IsLeast {j | b.getLsbD j = true} (((List.range n).find? fun i => b.getLsbD i).getD d) := by
  obtain ⟨i, hi⟩ := exists_find? hb fun j hj => List.mem_range.mpr (h j hj)
  obtain ⟨hset, _, hothers⟩ := find?_pairwise List.pairwise_lt_range hi
  rw [hi]
  refine ⟨hset, ?_⟩
  intro j hj
  rcases hothers j (List.mem_range.mpr (h j hj)) hj with rfl | hlt
  · exact le_rfl
  · exact hlt.le

/-- **The greatest position**, by a search downwards. -/
theorem isGreatest_find? (hb : b ≠ 0#w) (h : ∀ j, b.getLsbD j = true → j < n) (d : ℕ) :
    IsGreatest {j | b.getLsbD j = true}
      (((List.range n).reverse.find? fun i => b.getLsbD i).getD d) := by
  obtain ⟨i, hi⟩ := exists_find? hb fun j hj => List.mem_reverse.mpr (List.mem_range.mpr (h j hj))
  obtain ⟨hset, _, hothers⟩ := find?_pairwise (List.pairwise_reverse.mpr List.pairwise_lt_range) hi
  rw [hi]
  refine ⟨hset, ?_⟩
  intro j hj
  rcases hothers j (List.mem_reverse.mpr (List.mem_range.mpr (h j hj))) hj with rfl | hlt
  · exact le_rfl
  · exact hlt.le

end Bitset
