import Mathlib.Algebra.BigOperators.Group.Finset.Basic
import Mathlib.Algebra.Order.BigOperators.Group.Finset
import Mathlib.Tactic.Ring

/-!
# Rows, slices and blocks of bytes

An element of `size` bytes at `(x, y, z)` starts at `z * slice + y * row + x * size`.  If
a row has room for its elements and a slice for its rows, elements have no byte in
common (`eq_of_mem`) and stay inside of the slices (`byte_lt`).

Blocks one behind the other start at the sums of the sizes before them, and have no byte
in common (`block_eq_of_mem`).
-/

namespace Layout

/-! ### Two digits -/

theorem digits_unique {m a b r s : ℕ} (hr : r < m) (hs : s < m) (h : a * m + r = b * m + s) :
    a = b ∧ r = s := by
  have hab : a = b := by
    rcases lt_trichotomy a b with hlt | he | hlt
    · have := Nat.mul_le_mul_right m hlt
      rw [Nat.succ_mul] at this
      omega
    · exact he
    · have := Nat.mul_le_mul_right m hlt
      rw [Nat.succ_mul] at this
      omega
  subst hab
  exact ⟨rfl, by omega⟩

theorem digits_lt {m n a r : ℕ} (ha : a < n) (hr : r < m) : a * m + r < n * m := by
  have := Nat.mul_le_mul_right m ha
  rw [Nat.succ_mul] at this
  omega

theorem digits_lt' {m n a r : ℕ} (ha : a < n) (hr : r < m) : a * m + r < m * n := by
  rw [Nat.mul_comm m]
  exact digits_lt ha hr

theorem exists_digits {m n o : ℕ} (ho : o < m * n) : ∃ a r, a < n ∧ r < m ∧ o = a * m + r := by
  have hm : 0 < m := Nat.pos_of_ne_zero fun h => by simp [h] at ho
  exact ⟨o / m, o % m, Nat.div_lt_of_lt_mul ho, Nat.mod_lt o hm, (Nat.div_add_mod' o m).symm⟩

/-! ### Elements -/

/-- Where the elements of a box of `width × height × depth` are. -/
structure Box where
  width : ℕ
  height : ℕ
  depth : ℕ
  size : ℕ
  row : ℕ
  slice : ℕ

/-- A row has room for its elements, and a slice for its rows. -/
structure Box.Fits (b : Box) : Prop where
  row : b.width * b.size ≤ b.row
  slice : b.height * b.row ≤ b.slice

/-- The coordinates are inside of the box. -/
structure Box.Has (b : Box) (x y z : ℕ) : Prop where
  x : x < b.width
  y : y < b.height
  z : z < b.depth

/-- Where an element starts. -/
def Box.addr (b : Box) (x y z : ℕ) : ℕ := z * b.slice + y * b.row + x * b.size

variable {b : Box} {x y z x' y' z' o o' : ℕ}

theorem in_row (hb : b.Fits) (hx : x < b.width) (ho : o < b.size) : x * b.size + o < b.row :=
  (digits_lt hx ho).trans_le hb.row

theorem in_slice (hb : b.Fits) (hx : x < b.width) (hy : y < b.height) (ho : o < b.size) :
    y * b.row + (x * b.size + o) < b.slice := (digits_lt hy (in_row hb hx ho)).trans_le hb.slice

theorem addr_add (b : Box) (x y z o : ℕ) :
    b.addr x y z + o = z * b.slice + (y * b.row + (x * b.size + o)) := by
  rw [Box.addr]
  omega

/-- **The bytes of an element are inside of the box.** -/
theorem byte_lt (hb : b.Fits) (h : b.Has x y z) (ho : o < b.size) :
    b.addr x y z + o < b.depth * b.slice := by
  rw [addr_add]
  exact digits_lt h.z (in_slice hb h.x h.y ho)

/-- **A byte belongs to one element.** -/
theorem eq_of_byte (hb : b.Fits) (h : b.Has x y z) (h' : b.Has x' y' z') (ho : o < b.size)
    (ho' : o' < b.size) (he : b.addr x y z + o = b.addr x' y' z' + o') :
    x = x' ∧ y = y' ∧ z = z' ∧ o = o' := by
  rw [addr_add, addr_add] at he
  obtain ⟨hz, he⟩ := digits_unique (in_slice hb h.x h.y ho) (in_slice hb h'.x h'.y ho') he
  obtain ⟨hy, he⟩ := digits_unique (in_row hb h.x ho) (in_row hb h'.x ho') he
  obtain ⟨hx, ho⟩ := digits_unique ho ho' he
  exact ⟨hx, hy, hz, ho⟩

/-- A box of one slice does not need its slice pitch. -/
theorem eq_of_byte_of_depth (hrow : b.width * b.size ≤ b.row) (hdepth : b.depth ≤ 1)
    (h : b.Has x y z) (h' : b.Has x' y' z') (ho : o < b.size) (ho' : o' < b.size)
    (he : b.addr x y z + o = b.addr x' y' z' + o') : x = x' ∧ y = y' ∧ z = z' ∧ o = o' := by
  have hz : z = 0 := by
    have := h.z
    omega
  have hz' : z' = 0 := by
    have := h'.z
    omega
  subst hz hz'
  refine eq_of_byte (b := { b with slice := b.height * b.row }) ⟨hrow, le_rfl⟩
    ⟨h.x, h.y, h.z⟩ ⟨h'.x, h'.y, h'.z⟩ ho ho' ?_
  simpa only [Box.addr, Nat.zero_mul] using he

/-! ### Blocks -/

/-- Where block `i` starts. -/
def start (bytes : ℕ → ℕ) (i : ℕ) : ℕ := ∑ j ∈ Finset.range i, bytes j

theorem start_succ (bytes : ℕ → ℕ) (i : ℕ) : start bytes (i + 1) = start bytes i + bytes i :=
  Finset.sum_range_succ bytes i

theorem start_mono (bytes : ℕ → ℕ) {i j : ℕ} (h : i ≤ j) : start bytes i ≤ start bytes j :=
  Finset.sum_le_sum_of_subset (Finset.range_subset_range.mpr h)

/-- The bytes of a block are before the start of the later ones. -/
theorem block_lt {bytes : ℕ → ℕ} {i j o : ℕ} (h : i < j) (ho : o < bytes i) :
    start bytes i + o < start bytes j := by
  have := start_mono bytes (Nat.succ_le_of_lt h)
  rw [Nat.succ_eq_add_one, start_succ] at this
  omega

/-- **A byte belongs to one block.** -/
theorem block_eq_of_byte {bytes : ℕ → ℕ} {i j o o' : ℕ} (ho : o < bytes i) (ho' : o' < bytes j)
    (he : start bytes i + o = start bytes j + o') : i = j ∧ o = o' := by
  rcases lt_trichotomy i j with hlt | rfl | hlt
  · have := block_lt hlt ho
    omega
  · exact ⟨rfl, by omega⟩
  · have := block_lt hlt ho'
    omega

end Layout
