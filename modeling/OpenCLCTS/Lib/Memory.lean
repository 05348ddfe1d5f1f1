import OpenCLCTS.Lib.Loops

/-!
# Copying rows of bytes

A memory is a function from addresses to bytes.  `copyRows` is the loop that copies rows of
`n` bytes from one memory into another one, slice by slice, with a pointer that is moved
from row to row and another one that is moved from slice to slice.

`copyRows_copied`: if no two of the rows that are written have a byte in common, all rows
are copied, and all other bytes are kept.  `fillEach` is a loop that fills bytes.
-/

namespace Memory

open Loops

variable {β : Type*}

/-- `memcpy(dest + d, src + s, n)`. -/
def memcpy (src : ℕ → β) (s n : ℕ) (dest : ℕ → β) (d : ℕ) : ℕ → β :=
  fun b => if d ≤ b ∧ b < d + n then src (s + (b - d)) else dest b

theorem memcpy_add {src dest : ℕ → β} {s n d o : ℕ} (ho : o < n) :
    memcpy src s n dest d (d + o) = src (s + o) := by
  rw [memcpy, if_pos (by omega), Nat.add_sub_cancel_left]

theorem memcpy_of_ne {src dest : ℕ → β} {s n d b : ℕ} (h : ∀ o < n, b ≠ d + o) :
    memcpy src s n dest d b = dest b := by
  refine if_neg ?_
  rintro ⟨hle, hlt⟩
  exact h (b - d) (by omega) (by omega)

/-- The pitches and the size of what is copied. -/
structure Rows where
  bytes : ℕ
  rows : ℕ
  slices : ℕ
  srcRow : ℕ
  srcSlice : ℕ
  destRow : ℕ
  destSlice : ℕ

/-- The pointers and the memory that is written. -/
structure Pointers (β : Type*) where
  src : ℕ
  dest : ℕ
  mem : ℕ → β

/-- The loop over the rows of a slice. -/
def copySlice (r : Rows) (src : ℕ → β) (p : Pointers β) : ℕ → β :=
  ((List.range' 0 r.rows).foldl (fun (q : Pointers β) _ =>
    ⟨q.src + r.srcRow, q.dest + r.destRow, memcpy src q.src r.bytes q.mem q.dest⟩) p).mem

/-- The loop over the slices. -/
def copyRows (r : Rows) (src : ℕ → β) (p : Pointers β) : ℕ → β :=
  ((List.range' 0 r.slices).foldl (fun (q : Pointers β) _ =>
    ⟨q.src + r.srcSlice, q.dest + r.destSlice, copySlice r src q⟩) p).mem

/-- Where row `j` of slice `k` is written. -/
def Rows.destAt (r : Rows) (d k j : ℕ) : ℕ := d + k * r.destSlice + j * r.destRow

/-- Where row `j` of slice `k` is read. -/
def Rows.srcAt (r : Rows) (s k j : ℕ) : ℕ := s + k * r.srcSlice + j * r.srcRow

/-- The rows in `done` are copied, and nothing else is changed. -/
structure Copied (r : Rows) (src dest : ℕ → β) (s d : ℕ) (done : ℕ → ℕ → Prop) (mem : ℕ → β) :
    Prop where
  written : ∀ k j, done k j → ∀ o < r.bytes, mem (r.destAt d k j + o) = src (r.srcAt s k j + o)
  kept : ∀ b, (∀ k j, done k j → ∀ o < r.bytes, b ≠ r.destAt d k j + o) → mem b = dest b

/-- No two rows have a byte in common where they are written. -/
def Rows.Apart (r : Rows) (d : ℕ) : Prop :=
  ∀ k j k' j' o o', k < r.slices → j < r.rows → k' < r.slices → j' < r.rows → o < r.bytes →
    o' < r.bytes → r.destAt d k j + o = r.destAt d k' j' + o' → k = k' ∧ j = j'

variable {r : Rows} {src dest mem : ℕ → β} {s d k j : ℕ}

/-- **One more row.** -/
theorem Copied.row {done : ℕ → ℕ → Prop} (h : Copied r src dest s d done mem) (hapart : r.Apart d)
    (hk : k < r.slices) (hj : j < r.rows)
    (hdone : ∀ k' j', done k' j' → k' < r.slices ∧ j' < r.rows ∧ ¬ (k' = k ∧ j' = j)) :
    Copied r src dest s d (fun k' j' => done k' j' ∨ k' = k ∧ j' = j)
      (memcpy src (r.srcAt s k j) r.bytes mem (r.destAt d k j)) where
  written k' j' hd o ho := by
    rcases hd with hd | ⟨rfl, rfl⟩
    · obtain ⟨hk', hj', hne⟩ := hdone k' j' hd
      rw [memcpy_of_ne fun o' ho' he => hne (hapart k' j' k j o o' hk' hj' hk hj ho ho' he)]
      exact h.written k' j' hd o ho
    · exact memcpy_add ho
  kept b hb := by
    rw [memcpy_of_ne fun o ho => hb k j (.inr ⟨rfl, rfl⟩) o ho]
    exact h.kept b fun k' j' hd => hb k' j' (.inl hd)

theorem Copied.congr {done done' : ℕ → ℕ → Prop} (h : Copied r src dest s d done mem)
    (hiff : ∀ k j, done' k j ↔ done k j) : Copied r src dest s d done' mem :=
  ⟨fun k j hd => h.written k j ((hiff k j).mp hd),
    fun b hb => h.kept b fun k j hd => hb k j ((hiff k j).mpr hd)⟩

/-- The rows before row `j` of slice `k`. -/
def Rows.Before (r : Rows) (k j k' j' : ℕ) : Prop := k' < k ∧ j' < r.rows ∨ k' = k ∧ j' < j

theorem Copied.slice (h : Copied r src dest s d (r.Before k 0) mem) (hapart : r.Apart d)
    (hk : k < r.slices) :
    Copied r src dest s d (r.Before (k + 1) 0)
      (copySlice r src ⟨s + k * r.srcSlice, d + k * r.destSlice, mem⟩) := by
  have hloop := foldl_invariant (f := fun (q : Pointers β) _ =>
      (⟨q.src + r.srcRow, q.dest + r.destRow, memcpy src q.src r.bytes q.mem q.dest⟩ : Pointers β))
    (I := fun j q => q.src = r.srcAt s k j ∧ q.dest = r.destAt d k j ∧
      Copied r src dest s d (r.Before k j) q.mem) (a := 0) (n := r.rows) ?_
    (s := ⟨s + k * r.srcSlice, d + k * r.destSlice, mem⟩) ?_
  · obtain ⟨_, _, hcopied⟩ := hloop
    apply hcopied.congr
    intro k' j'
    simp only [Rows.Before]
    omega
  · rintro j ⟨_, _, mem⟩ _ hj ⟨rfl, rfl, hcopied⟩
    refine ⟨?_, ?_, ?_⟩
    · simp only [Rows.srcAt, Nat.succ_mul]
      omega
    · simp only [Rows.destAt, Nat.succ_mul]
      omega
    · refine (hcopied.row hapart hk (show j < r.rows by omega) fun k' j' hd => ?_).congr
        fun k' j' => ?_
      · rcases hd with ⟨hlt, hj'⟩ | ⟨rfl, hlt⟩
        · exact ⟨hlt.trans hk, hj', fun he => by omega⟩
        · exact ⟨hk, by omega, fun he => by omega⟩
      · simp only [Rows.Before]
        omega
  · exact ⟨by rw [Rows.srcAt, Nat.zero_mul, Nat.add_zero],
      by rw [Rows.destAt, Nat.zero_mul, Nat.add_zero], h⟩

/-- **All rows are copied, and nothing else is changed.** -/
theorem copyRows_copied (hapart : r.Apart d) (s : ℕ) :
    Copied r src dest s d (fun k j => k < r.slices ∧ j < r.rows)
      (copyRows r src ⟨s, d, dest⟩) := by
  have hloop := foldl_invariant (f := fun (q : Pointers β) _ =>
      (⟨q.src + r.srcSlice, q.dest + r.destSlice, copySlice r src q⟩ : Pointers β))
    (I := fun k q => q.src = s + k * r.srcSlice ∧ q.dest = d + k * r.destSlice ∧
      Copied r src dest s d (r.Before k 0) q.mem) (a := 0) (n := r.slices) ?_ (s := ⟨s, d, dest⟩) ?_
  · obtain ⟨_, _, hcopied⟩ := hloop
    apply hcopied.congr
    intro k j
    simp only [Rows.Before]
    omega
  · rintro k ⟨_, _, mem⟩ _ hk ⟨rfl, rfl, hcopied⟩
    refine ⟨?_, ?_, hcopied.slice hapart (by omega)⟩
    · simp only [Nat.succ_mul]
      omega
    · simp only [Nat.succ_mul]
      omega
  · refine ⟨by rw [Nat.zero_mul, Nat.add_zero], by rw [Nat.zero_mul, Nat.add_zero],
      fun k j hd => ?_, fun b _ => rfl⟩
    simp only [Rows.Before] at hd
    omega

/-! ### Filling -/

/-- `memset(dest + d, v, n)`. -/
def memset (v : β) (n : ℕ) (dest : ℕ → β) (d : ℕ) : ℕ → β :=
  fun b => if d ≤ b ∧ b < d + n then v else dest b

/-- The loop that fills `n` bytes from each of the first `count` offsets on. -/
def fillEach (v : β) (n : ℕ) (offset : ℕ → ℕ) (count : ℕ) (dest : ℕ → β) : ℕ → β :=
  (List.range' 0 count).foldl (fun mem i => memset v n mem (offset i)) dest

/-- **The bytes behind the offsets are filled, and all other bytes are kept.** -/
theorem fillEach_spec (v : β) (n : ℕ) (offset : ℕ → ℕ) (count : ℕ) (dest : ℕ → β) (b : ℕ) :
    ((∃ i < count, offset i ≤ b ∧ b < offset i + n) → fillEach v n offset count dest b = v) ∧
      ((¬ ∃ i < count, offset i ≤ b ∧ b < offset i + n) →
        fillEach v n offset count dest b = dest b) := by
  let I (k : ℕ) (mem : ℕ → β) : Prop :=
    ((∃ i < k, offset i ≤ b ∧ b < offset i + n) → mem b = v) ∧
      ((¬ ∃ i < k, offset i ≤ b ∧ b < offset i + n) → mem b = dest b)
  have hloop := foldl_invariant (f := fun mem i => memset v n mem (offset i)) (I := I) (a := 0)
    (n := count) ?_ (s := dest) ?_
  · rwa [Nat.zero_add] at hloop
  · intro k mem _ _ h
    by_cases hk : offset k ≤ b ∧ b < offset k + n
    · exact ⟨fun _ => if_pos hk, fun hnot => absurd ⟨k, Nat.lt_succ_self k, hk⟩ hnot⟩
    · have hkept : memset v n mem (offset k) b = mem b := if_neg hk
      have hlt : (∃ i < k + 1, offset i ≤ b ∧ b < offset i + n)
          ↔ ∃ i < k, offset i ≤ b ∧ b < offset i + n := by
        rw [Nat.exists_lt_succ_right]
        exact or_iff_left hk
      show (_ → memset v n mem (offset k) b = v) ∧ (_ → memset v n mem (offset k) b = dest b)
      rw [hkept, hlt]
      exact h
  · exact ⟨fun hex => absurd hex (by simp), fun _ => rfl⟩

end Memory
