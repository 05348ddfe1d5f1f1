import Mathlib.Data.List.GetD
import Mathlib.Data.List.Nodup
import Mathlib.Logic.Function.Basic
import Mathlib.Tactic.Ring
import OpenCLCTS.Lib.Layout

/-!
# The special values of the brute-force tests

The tests of functions with several arguments first try all combinations of the values in a table.
One loop writes them to the buffers of the jobs; it resumes in each job, and leaves the loop at the
end of the table without counting the last combination.  A second loop writes random values from
there on, so that the last combination is lost unless it is drawn again: `specialValues_iff`.
-/

namespace OpenCLCTS.MathBruteForce

open Function

/-! ### The loops -/

section

variable {S E : Type}

/-- A loop that writes the combinations.  `next` is `none` where it is left; `idx` has `w` bits.
Without fuel there is no result. -/
def specialLoop (next : S → Option S) (entry : S → E) (w size : ℕ) :
    ℕ → ℕ → S → (ℕ → E) → Option (ℕ × (ℕ → E))
  | 0, _, _, _ => none
  | fuel + 1, idx, s, buffer =>
    if idx < size then
      let buffer := update buffer idx (entry s)
      match next s with
      | none => some (idx, buffer)
      | some s' => specialLoop next entry w size fuel ((idx + 1) % 2 ^ w) s' buffer
    else some (idx, buffer)

/-- The loop that writes the remaining values; `random` is what is drawn. -/
def randomLoop (random : ℕ → E) (w size : ℕ) : ℕ → ℕ → ℕ → (ℕ → E) → Option (ℕ → E)
  | 0, _, _, _ => none
  | fuel + 1, idx, k, buffer =>
    if idx < size then
      randomLoop random w size fuel ((idx + 1) % 2 ^ w) (k + 1) (update buffer idx (random k))
    else some buffer

end

/-- `++x`, and `++y` after each row; the loop is left after the last one. -/
def nextPair (count count2 : ℕ) (s : ℕ × ℕ) : Option (ℕ × ℕ) :=
  if s.1 + 1 ≥ count then if s.2 + 1 ≥ count2 then none else some (0, s.2 + 1)
  else some (s.1 + 1, s.2)

def nextTriple (count : ℕ) (s : ℕ × ℕ × ℕ) : Option (ℕ × ℕ × ℕ) :=
  if s.1 + 1 ≥ count then
    if s.2.1 + 1 ≥ count then if s.2.2 + 1 ≥ count then none else some (0, 0, s.2.2 + 1)
    else some (0, s.2.1 + 1, s.2.2)
  else some (s.1 + 1, s.2.1, s.2.2)

/-! ### The tests -/

/-- `specialValues` of `binary_float.cpp` and `binary_i_float.cpp`. -/
def specialValues : List (BitVec 32) :=
  [0xffc00000, 0xff800000, 0xff7fffff, 0xdf800001, 0xdf800000, 0xdf7fffff, 0xdf000001, 0xdf000000,
    0xdeffffff, 0xcf800001, 0xcf800000, 0xcf7fffff, 0xcf000001, 0xcf000000, 0xceffffff,
    0xc47a0000, 0xc2c80000, 0xc0800000, 0xc0600000, 0xc0400000, 0xc0400001, 0xc0200000,
    0xc03fffff, 0xc0000000, 0xbfc00001, 0xbfc00000, 0xbfbfffff, 0xbf800001, 0xbf800000,
    0xbf7fffff, 0xbf000001, 0xbf000000, 0xbeffffff, 0xbe800001, 0xbe800000, 0xbe7fffff,
    0x80800001, 0x80800000, 0x807fffff, 0x800007ff, 0x8000007f, 0x80000007, 0x80000006,
    0x80000005, 0x80000004, 0x80000003, 0x80000002, 0x80000001, 0x80000000, 0x7fc00000,
    0x7f800000, 0x7f7fffff, 0x5f800001, 0x5f800000, 0x5f7fffff, 0x5f000001, 0x5f000000,
    0x5effffff, 0x4f800001, 0x4f800000, 0x4f7fffff, 0x4f000001, 0x4f000000, 0x4effffff,
    0x447a0000, 0x42c80000, 0x40800000, 0x40600000, 0x40400000, 0x40400001, 0x40200000,
    0x403fffff, 0x40000000, 0x3fc00001, 0x3fc00000, 0x3fbfffff, 0x3f800001, 0x3f800000,
    0x3f7fffff, 0x3f000001, 0x3f000000, 0x3effffff, 0x3e800001, 0x3e800000, 0x3e7fffff,
    0x00800001, 0x00800000, 0x007fffff, 0x000007ff, 0x0000007f, 0x00000007, 0x00000006,
    0x00000005, 0x00000004, 0x00000003, 0x00000002, 0x00000001, 0x00000000]

/-- `specialValuesInt` of `binary_i_float.cpp`. -/
def specialValuesInt : List (BitVec 32) :=
  [0, 1, 2, 3, 126, 127, 128, 0x02000001, 0x04000001, 1465264071, 1488522147, -1, -2, -3, -126,
    -127, -128, -0x02000001, -0x04000001, -1465264071, -1488522147]

/-- `specialValues` of `ternary_float.cpp`. -/
def specialValuesTernary : List (BitVec 32) :=
  [0xffc00000, 0xff800000, 0xff7fffff, 0xdf800001, 0xdf800000, 0xdf7fffff, 0xdf000001, 0xdf000000,
    0xdeffffff, 0xc0400000, 0xc0400001, 0xc0200000, 0xc03fffff, 0xc0000000, 0xbfc00001,
    0xbfe00000, 0xbfc00000, 0xbfa00000, 0xbfbfffff, 0xbf800001, 0xbf801800, 0xbf800800,
    0xbf800000, 0xbf7fffff, 0x80800001, 0x80800000, 0x807fffff, 0x800007ff, 0x8000007f,
    0x80000007, 0x80000006, 0x80000005, 0x80000004, 0x80000003, 0x80000002, 0x80000001,
    0x80000000, 0x7fc00000, 0x7f800000, 0x7f7fffff, 0x5f800001, 0x5f800000, 0x5f7fffff,
    0x5f000001, 0x5f000000, 0x5effffff, 0x40400000, 0x40400001, 0x40200000, 0x403fffff,
    0x40000000, 0x3fc00001, 0x3fe00000, 0x3fc00000, 0x3fa00000, 0x3fbfffff, 0x3f800001,
    0x3f801800, 0x3f800800, 0x3f800000, 0x3f7fffff, 0x00800001, 0x00800000, 0x007fffff,
    0x000007ff, 0x0000007f, 0x00000007, 0x00000006, 0x00000005, 0x00000004, 0x00000003,
    0x00000002, 0x00000001, 0x00000000]

/-- A test of a function with two arguments: its tables, and the bits of `idx`. -/
structure BinaryTest where
  values : List (BitVec 32)
  values2 : List (BitVec 32)
  idxBits : ℕ

/-- `binary_float.cpp`, where `idx` is a `cl_uint`. -/
def binaryFloat : BinaryTest := ⟨specialValues, specialValues, 32⟩

/-- `binary_i_float.cpp`, where it is a `size_t`. -/
def binaryIFloat : BinaryTest := ⟨specialValues, specialValuesInt, 64⟩

namespace BinaryTest

variable (t : BinaryTest)

def totalSpecialValueCount : ℕ := t.values.length * t.values2.length

def lastSpecialJobIndex (bufferElements : ℕ) : ℕ := (t.totalSpecialValueCount - 1) / bufferElements

/-- The special values for `x` and `y`. -/
def pair (s : ℕ × ℕ) : BitVec 32 × BitVec 32 := (t.values.getD s.1 0, t.values2.getD s.2 0)

/-- The input arrays of a job in `Test`. -/
def inputs (bufferElements : ℕ) (genrand : ℕ → ℕ → BitVec 32) (fuel jobId : ℕ)
    (buffer : ℕ → BitVec 32 × BitVec 32) : Option (ℕ → BitVec 32 × BitVec 32) :=
  let start := if jobId ≤ t.lastSpecialJobIndex bufferElements then
    specialLoop (nextPair t.values.length t.values2.length) t.pair t.idxBits bufferElements fuel 0
      (jobId * bufferElements % t.values.length, jobId * bufferElements / t.values.length) buffer
    else some (0, buffer)
  start.bind fun s => randomLoop (fun k => (genrand jobId (2 * k), genrand jobId (2 * k + 1)))
    t.idxBits bufferElements fuel s.1 0 s.2

end BinaryTest

/-- The special values for `x`, `y` and `z`. -/
def triple (values : List (BitVec 32)) (s : ℕ × ℕ × ℕ) : BitVec 32 × BitVec 32 × BitVec 32 :=
  (values.getD s.1 0, values.getD s.2.1 0, values.getD s.2.2 0)

/-- The input arrays in the first turn of `TestFunc_Float_Float_Float_Float`; `idx` is a
`size_t`. -/
def ternaryInputs (values : List (BitVec 32)) (size : ℕ) (genrand : ℕ → BitVec 32) (fuel : ℕ)
    (buffer : ℕ → BitVec 32 × BitVec 32 × BitVec 32) :
    Option (ℕ → BitVec 32 × BitVec 32 × BitVec 32) :=
  (specialLoop (nextTriple values.length) (triple values) 64 size fuel 0 (0, 0, 0) buffer).bind
    fun s => randomLoop (fun k => (genrand (3 * k), genrand (3 * k + 1), genrand (3 * k + 2))) 64
      size fuel s.1 0 s.2

/-! ### What the loops write -/

section

variable {S E : Type} {next : S → Option S} {entry : S → E} {w size total : ℕ} {valid : S → Prop}
  {rank : S → ℕ} {random : ℕ → E}

/-- `next` counts up to the last one of `total` combinations. -/
structure Counts (next : S → Option S) (valid : S → Prop) (rank : S → ℕ) (total : ℕ) : Prop where
  lt : ∀ s, valid s → rank s < total
  succ : ∀ s s', valid s → next s = some s' → valid s' ∧ rank s' = rank s + 1
  last : ∀ s, valid s → next s = none → rank s + 1 = total

/-- **The first loop** writes the combinations from `base` on, up to the end of the buffer or to the
last one, which is not counted. -/
theorem specialLoop_spec (hcounts : Counts next valid rank total) (hw : size < 2 ^ w)
    {written : ℕ → E} (hwritten : ∀ s, valid s → entry s = written (rank s)) (base fuel : ℕ)
    {idx : ℕ} {s : S} {buffer : ℕ → E} (hidx : idx ≤ size) (hfuel : size - idx < fuel)
    (hvalid : valid s) (hrank : rank s = base + idx) (hbuffer : ∀ j < idx, buffer j = written (base + j)) :
    ∃ idx' buffer', specialLoop next entry w size fuel idx s buffer = some (idx', buffer') ∧
      idx' = min size (total - 1 - base) ∧ ∀ j < idx', buffer' j = written (base + j) := by
  induction fuel generalizing idx s buffer with
  | zero => exact absurd hfuel (Nat.not_lt_zero _)
  | succ fuel ih =>
    rw [specialLoop]
    rcases hidx.lt_or_eq with h | rfl
    · rw [if_pos h]
      have hupdate : ∀ j < idx + 1, update buffer idx (entry s) j = written (base + j) := by
        intro j hj
        rcases Nat.lt_succ_iff_lt_or_eq.mp hj with hj | rfl
        · rw [update_of_ne hj.ne, hbuffer j hj]
        · rw [update_self, hwritten s hvalid, hrank]
      cases hnext : next s with
      | none =>
        have hlast := hcounts.last s hvalid hnext
        exact ⟨idx, _, rfl, by omega, fun j hj => hupdate j (hj.trans (Nat.lt_succ_self _))⟩
      | some s' =>
        obtain ⟨hvalid', hsucc⟩ := hcounts.succ s s' hvalid hnext
        rw [Nat.mod_eq_of_lt (by omega)]
        exact ih (by omega) (by omega) hvalid' (by omega) hupdate
    · have hlt := hcounts.lt s hvalid
      rw [if_neg (lt_irrefl _)]
      exact ⟨idx, _, rfl, by omega, hbuffer⟩

/-- **The second loop** writes the rest. -/
theorem randomLoop_spec (random : ℕ → E) (hw : size < 2 ^ w) (fuel k : ℕ) {idx : ℕ}
    (buffer : ℕ → E) (hidx : idx ≤ size) (hfuel : size - idx < fuel) :
    ∃ buffer', randomLoop random w size fuel idx k buffer = some buffer' ∧
      ∀ j < size, buffer' j = if j < idx then buffer j else random (k + (j - idx)) := by
  induction fuel generalizing idx k buffer with
  | zero => exact absurd hfuel (Nat.not_lt_zero _)
  | succ fuel ih =>
    rw [randomLoop]
    rcases hidx.lt_or_eq with h | rfl
    · rw [if_pos h, Nat.mod_eq_of_lt (by omega)]
      obtain ⟨buffer', heq, hbuffer⟩ := @ih (k + 1) (idx + 1) (update buffer idx (random k)) (by omega)
        (by omega)
      refine ⟨buffer', heq, ?_⟩
      intro j hj
      rw [hbuffer j hj]
      rcases lt_trichotomy j idx with hlt | rfl | hlt
      · rw [if_pos (by omega), if_pos hlt, update_of_ne hlt.ne]
      · rw [if_pos (Nat.lt_succ_self _), if_neg (lt_irrefl _), update_self, Nat.sub_self, Nat.add_zero]
      · rw [if_neg (by omega), if_neg (by omega)]
        congr 1
        omega
    · rw [if_neg (lt_irrefl _)]
      refine ⟨_, rfl, ?_⟩
      intro j hj
      rw [if_pos hj]

/-- If `idx` has too few bits, the second loop does not end. -/
theorem randomLoop_eq_none (hw : 2 ^ w ≤ size) (fuel : ℕ) {idx k : ℕ} {buffer : ℕ → E}
    (hidx : idx < 2 ^ w) : randomLoop random w size fuel idx k buffer = none := by
  induction fuel generalizing idx k buffer with
  | zero => rfl
  | succ fuel ih =>
    rw [randomLoop, if_pos (by omega)]
    exact ih (Nat.mod_lt _ (Nat.two_pow_pos w))

theorem specialLoop_idx_lt (fuel : ℕ) {idx : ℕ} {s : S} {buffer : ℕ → E} (hidx : idx < 2 ^ w)
    {result : ℕ × (ℕ → E)} (h : specialLoop next entry w size fuel idx s buffer = some result) :
    result.1 < 2 ^ w := by
  induction fuel generalizing idx s buffer with
  | zero => exact absurd h (by rw [specialLoop]; nofun)
  | succ fuel ih =>
    rw [specialLoop] at h
    split at h
    · split at h
      · cases h
        exact hidx
      · exact ih (Nat.mod_lt _ (Nat.two_pow_pos w)) h
    · cases h
      exact hidx

end

/-! ### Combinations -/

theorem counts_nextPair (count count2 : ℕ) : Counts (nextPair count count2)
    (fun s => s.1 < count ∧ s.2 < count2) (fun s => s.2 * count + s.1) (count * count2) where
  lt s h := Layout.digits_lt' h.2 h.1
  succ s s' h hnext := by
    obtain ⟨hx, hy⟩ := h
    rw [nextPair] at hnext
    split at hnext
    · split at hnext
      · cases hnext
      · cases hnext
        refine ⟨⟨by omega, by omega⟩, ?_⟩
        rw [Nat.succ_mul]
        omega
    · cases hnext
      exact ⟨⟨by omega, hy⟩, rfl⟩
  last s h hnext := by
    obtain ⟨hx, hy⟩ := h
    rw [nextPair] at hnext
    split at hnext
    · split at hnext
      · obtain rfl : count2 = s.2 + 1 := by omega
        rw [Nat.mul_succ, Nat.mul_comm]
        omega
      · cases hnext
    · cases hnext

theorem counts_nextTriple (count : ℕ) : Counts (nextTriple count)
    (fun s => s.1 < count ∧ s.2.1 < count ∧ s.2.2 < count)
    (fun s => (s.2.2 * count + s.2.1) * count + s.1) (count * (count * count)) where
  lt s h := Layout.digits_lt' (Layout.digits_lt' h.2.2 h.2.1) h.1
  succ s s' h hnext := by
    obtain ⟨hx, hy, hz⟩ := h
    rw [nextTriple] at hnext
    split at hnext
    · split at hnext
      · split at hnext
        · cases hnext
        · cases hnext
          obtain rfl : count = s.1 + 1 := by omega
          obtain hy' : s.2.1 = s.1 := by omega
          refine ⟨⟨Nat.succ_pos _, Nat.succ_pos _, show s.2.2 + 1 < s.1 + 1 by omega⟩, ?_⟩
          dsimp only
          rw [hy']
          ring
      · cases hnext
        obtain rfl : count = s.1 + 1 := by omega
        refine ⟨⟨Nat.succ_pos _, show s.2.1 + 1 < s.1 + 1 by omega, hz⟩, ?_⟩
        dsimp only
        ring
    · cases hnext
      exact ⟨⟨by omega, hy, hz⟩, rfl⟩
  last s h hnext := by
    obtain ⟨hx, hy, hz⟩ := h
    rw [nextTriple] at hnext
    split at hnext
    · split at hnext
      · split at hnext
        · obtain rfl : count = s.1 + 1 := by omega
          obtain hy' : s.2.1 = s.1 := by omega
          obtain hz' : s.2.2 = s.1 := by omega
          rw [hy', hz']
          ring
        · cases hnext
      · cases hnext
    · cases hnext

/-! ### Two arguments -/

namespace BinaryTest

section

variable {t : BinaryTest} {size fuel jobId : ℕ} {genrand : ℕ → ℕ → BitVec 32}
  {buffer : ℕ → BitVec 32 × BitVec 32}

/-- The combination with a number. -/
def pairAt (t : BinaryTest) (k : ℕ) : BitVec 32 × BitVec 32 :=
  t.pair (k % t.values.length, k / t.values.length)

/-- The `k`-th pair that is drawn in a job. -/
def drawn (genrand : ℕ → ℕ → BitVec 32) (jobId k : ℕ) : BitVec 32 × BitVec 32 :=
  (genrand jobId (2 * k), genrand jobId (2 * k + 1))

theorem pairAt_rank {x y : ℕ} (hx : x < t.values.length) :
    t.pairAt (y * t.values.length + x) = t.pair (x, y) := by
  rw [pairAt, Nat.mul_comm, Nat.mul_add_mod, Nat.mod_eq_of_lt hx, Nat.mul_add_div (by omega),
    Nat.div_eq_of_lt hx, Nat.add_zero]

/-- **The inputs of a job** with special values: combinations, except for the last one, and what is
drawn. -/
theorem inputs_spec (hsize : 0 < size) (hw : size < 2 ^ t.idxBits)
    (htotal : 0 < t.totalSpecialValueCount) (hjob : jobId ≤ t.lastSpecialJobIndex size)
    (hfuel : size < fuel) : ∃ inputs, t.inputs size genrand fuel jobId buffer = some inputs ∧
      ∀ j < size, inputs j = if jobId * size + j < t.totalSpecialValueCount - 1 then
        t.pairAt (jobId * size + j)
        else drawn genrand jobId (jobId * size + j - (t.totalSpecialValueCount - 1)) := by
  have hbase : jobId * size ≤ t.totalSpecialValueCount - 1 :=
    (Nat.mul_le_mul_right size hjob).trans (Nat.div_mul_le_self _ _)
  have hcount : 0 < t.values.length := Nat.pos_of_mul_pos_right htotal
  have hx : jobId * size % t.values.length < t.values.length := Nat.mod_lt _ hcount
  have hy : jobId * size / t.values.length < t.values2.length := by
    rw [Nat.div_lt_iff_lt_mul hcount, Nat.mul_comm t.values2.length]
    exact lt_of_le_of_lt hbase (Nat.sub_lt htotal one_pos)
  have hpair : ∀ s : ℕ × ℕ, s.1 < t.values.length ∧ s.2 < t.values2.length →
      t.pair s = t.pairAt (s.2 * t.values.length + s.1) := fun s h => (pairAt_rank h.1).symm
  have hnone : ∀ j < 0, buffer j = t.pairAt (jobId * size + j) :=
    fun j hj => absurd hj (Nat.not_lt_zero j)
  have hstart : ((jobId * size % t.values.length, jobId * size / t.values.length) : ℕ × ℕ).2
      * t.values.length + jobId * size % t.values.length = jobId * size + 0 := Nat.div_add_mod' _ _
  obtain ⟨idx, special, hspecial, hidx, hwritten⟩ := specialLoop_spec (counts_nextPair _ _) hw hpair
    (jobId * size) fuel (Nat.zero_le size) (by omega) ⟨hx, hy⟩ hstart hnone
  obtain ⟨inputs, hinputs, hrest⟩ :=
    randomLoop_spec (drawn genrand jobId) hw fuel 0 special (show idx ≤ size by omega) (by omega)
  refine ⟨inputs, ?_, ?_⟩
  · rw [BinaryTest.inputs, if_pos hjob, hspecial]
    exact hinputs
  · intro j hj
    change idx = min size (t.totalSpecialValueCount - 1 - jobId * size) at hidx
    rw [hrest j hj]
    by_cases hlt : j < idx
    · rw [if_pos hlt, if_pos (by omega), hwritten j hlt]
    · rw [if_neg hlt, if_neg (by omega)]
      congr 1
      omega

/-- Jobs of which `idx` cannot reach the end do not return. -/
theorem inputs_eq_none (hw : 2 ^ t.idxBits ≤ size) :
    t.inputs size genrand fuel jobId buffer = none := by
  rw [BinaryTest.inputs, Option.bind_eq_none_iff]
  intro s hs
  refine randomLoop_eq_none hw fuel ?_
  split at hs
  · exact specialLoop_idx_lt fuel (Nat.two_pow_pos _) hs
  · cases hs
    exact Nat.two_pow_pos _

/-- What `Test` writes to the part of the buffers that belongs to a job. -/
def Writes (t : BinaryTest) (size : ℕ) (genrand : ℕ → ℕ → BitVec 32) (jobId : ℕ)
    (buffer entries : ℕ → BitVec 32 × BitVec 32) : Prop :=
  ∃ enough, ∀ fuel ≥ enough, ∃ inputs, t.inputs size genrand fuel jobId buffer = some inputs ∧
    ∀ j < size, inputs j = entries j

/-- **All combinations are written** by the jobs with special values, each one at a place of its
own. -/
def AllWritten (t : BinaryTest) (size : ℕ) (genrand : ℕ → ℕ → BitVec 32)
    (buffer : ℕ → ℕ → BitVec 32 × BitVec 32) : Prop :=
  ∃ entries : ℕ → ℕ → BitVec 32 × BitVec 32,
    (∀ jobId ≤ t.lastSpecialJobIndex size, t.Writes size genrand jobId (buffer jobId)
      (entries jobId)) ∧
    ∃ place : ℕ × ℕ → ℕ × ℕ,
      (∀ s s', s.1 < t.values.length ∧ s.2 < t.values2.length →
        s'.1 < t.values.length ∧ s'.2 < t.values2.length → place s = place s' → s = s') ∧
      ∀ s, s.1 < t.values.length ∧ s.2 < t.values2.length →
        (place s).1 ≤ t.lastSpecialJobIndex size ∧ (place s).2 < size ∧
          entries (place s).1 (place s).2 = t.pair s

/-- The last combination. -/
def lastPair (t : BinaryTest) : BitVec 32 × BitVec 32 :=
  t.pair (t.values.length - 1, t.values2.length - 1)

theorem getD_inj {l : List (BitVec 32)} (hl : l.Nodup) {i j : ℕ} (hi : i < l.length)
    (hj : j < l.length) (h : l.getD i 0 = l.getD j 0) : i = j := by
  rw [List.getD_eq_getElem _ _ hi, List.getD_eq_getElem _ _ hj] at h
  exact (hl.getElem_inj_iff).mp h

theorem pairAt_ne_lastPair (hvalues : t.values.Nodup) (hvalues2 : t.values2.Nodup) {k : ℕ}
    (hk : k < t.totalSpecialValueCount - 1) : t.pairAt k ≠ t.lastPair := by
  intro h
  have htotal : 0 < t.totalSpecialValueCount := by omega
  have hcount : 0 < t.values.length := Nat.pos_of_mul_pos_right htotal
  have hcount2 : 0 < t.values2.length := Nat.pos_of_mul_pos_left htotal
  have hy : k / t.values.length < t.values2.length := by
    rw [Nat.div_lt_iff_lt_mul hcount, Nat.mul_comm t.values2.length]
    exact hk.trans_le (Nat.sub_le _ _)
  have hx := getD_inj hvalues (Nat.mod_lt k hcount) (by omega) (congrArg Prod.fst h)
  have hy' := getD_inj hvalues2 hy (by omega) (congrArg Prod.snd h)
  have hdiv := Nat.div_add_mod k t.values.length
  dsimp only at hx hy'
  rw [hx, hy', Nat.mul_sub, Nat.mul_one] at hdiv
  have hle := Nat.mul_le_mul_left t.values.length hcount2
  rw [totalSpecialValueCount] at hk
  omega

theorem writes_entries (hsize : 0 < size) (hw : size < 2 ^ t.idxBits)
    (htotal : 0 < t.totalSpecialValueCount) (hjob : jobId ≤ t.lastSpecialJobIndex size) :
    t.Writes size genrand jobId buffer fun j =>
      if jobId * size + j < t.totalSpecialValueCount - 1 then t.pairAt (jobId * size + j)
      else drawn genrand jobId (jobId * size + j - (t.totalSpecialValueCount - 1)) :=
  ⟨size + 1, fun _ hfuel => inputs_spec hsize hw htotal hjob hfuel⟩

theorem Writes.unique {entries entries' : ℕ → BitVec 32 × BitVec 32}
    (h : t.Writes size genrand jobId buffer entries)
    (h' : t.Writes size genrand jobId buffer entries') {j : ℕ} (hj : j < size) :
    entries j = entries' j := by
  obtain ⟨enough, h⟩ := h
  obtain ⟨enough', h'⟩ := h'
  obtain ⟨inputs, hinputs, heq⟩ := h (max enough enough') (le_max_left _ _)
  obtain ⟨inputs', hinputs', heq'⟩ := h' (max enough enough') (le_max_right _ _)
  obtain rfl : inputs = inputs' := Option.some.inj (hinputs.symm.trans hinputs')
  rw [← heq j hj, heq' j hj]

theorem rank_lt {s : ℕ × ℕ} (hs : s.1 < t.values.length ∧ s.2 < t.values2.length)
    (hne : s ≠ (t.values.length - 1, t.values2.length - 1)) :
    s.2 * t.values.length + s.1 < t.totalSpecialValueCount - 1 := by
  have hlt := (counts_nextPair t.values.length t.values2.length).lt s hs
  have hlast : t.totalSpecialValueCount - 1
      = (t.values2.length - 1) * t.values.length + (t.values.length - 1) := by
    have hle := Nat.mul_le_mul_left t.values.length (show 1 ≤ t.values2.length by omega)
    rw [totalSpecialValueCount, Nat.sub_mul, Nat.one_mul, Nat.mul_comm t.values2.length]
    omega
  refine lt_of_le_of_ne (Nat.le_sub_one_of_lt hlt) ?_
  intro heq
  rw [hlast] at heq
  obtain ⟨hy, hx⟩ := Layout.digits_unique hs.1 (by omega) heq
  exact hne (Prod.ext hx hy)

/-- Only the last job with special values gets to the last combination. -/
theorem eq_lastSpecialJobIndex (hjob : jobId ≤ t.lastSpecialJobIndex size) {j : ℕ} (hj : j < size)
    (h : t.totalSpecialValueCount - 1 ≤ jobId * size + j) : jobId = t.lastSpecialJobIndex size := by
  by_contra hne
  have hnext := Nat.mul_le_mul_right size (Nat.succ_le_of_lt (lt_of_le_of_ne hjob hne))
  have hle := Nat.div_mul_le_self (t.totalSpecialValueCount - 1) size
  rw [Nat.succ_mul] at hnext
  rw [lastSpecialJobIndex] at hnext
  omega

/-- Where a combination is written, if the last one is drawn for the `k`-th entry after the loop has
left it. -/
def place (t : BinaryTest) (size k : ℕ) (s : ℕ × ℕ) : ℕ × ℕ :=
  if s = (t.values.length - 1, t.values2.length - 1) then
    (t.lastSpecialJobIndex size, (t.totalSpecialValueCount - 1) % size + k)
  else ((s.2 * t.values.length + s.1) / size, (s.2 * t.values.length + s.1) % size)

theorem place_index (t : BinaryTest) (size k : ℕ) (s : ℕ × ℕ) :
    (t.place size k s).1 * size + (t.place size k s).2
      = if s = (t.values.length - 1, t.values2.length - 1) then t.totalSpecialValueCount - 1 + k
        else s.2 * t.values.length + s.1 := by
  rw [place]
  split
  · rw [← Nat.add_assoc, lastSpecialJobIndex, Nat.div_add_mod']
  · exact Nat.div_add_mod' _ _

/-- **Combinations have places of their own.** -/
theorem place_inj {k : ℕ} {s s' : ℕ × ℕ} (hs : s.1 < t.values.length ∧ s.2 < t.values2.length)
    (hs' : s'.1 < t.values.length ∧ s'.2 < t.values2.length)
    (h : t.place size k s = t.place size k s') : s = s' := by
  have hindex := t.place_index size k s
  rw [h, place_index] at hindex
  by_cases hlast : s = (t.values.length - 1, t.values2.length - 1)
  · by_cases hlast' : s' = (t.values.length - 1, t.values2.length - 1)
    · rw [hlast, hlast']
    · have hlt := rank_lt hs' hlast'
      rw [if_pos hlast, if_neg hlast'] at hindex
      omega
  · rw [if_neg hlast] at hindex
    by_cases hlast' : s' = (t.values.length - 1, t.values2.length - 1)
    · have hlt := rank_lt hs hlast
      rw [if_pos hlast'] at hindex
      omega
    · rw [if_neg hlast'] at hindex
      obtain ⟨hy, hx⟩ := Layout.digits_unique hs'.1 hs.1 hindex
      exact Prod.ext hx.symm hy.symm

/-- **The last combination is written** just if it is drawn after the loop has left it. -/
theorem allWritten_iff (hvalues : t.values.Nodup) (hvalues2 : t.values2.Nodup)
    (htotal : 0 < t.totalSpecialValueCount) (hsize : 0 < size)
    (buffer : ℕ → ℕ → BitVec 32 × BitVec 32) :
    t.AllWritten size genrand buffer ↔ size < 2 ^ t.idxBits ∧
      ∃ k, (t.totalSpecialValueCount - 1) % size + k < size ∧
        drawn genrand (t.lastSpecialJobIndex size) k = t.lastPair := by
  have hcount : 0 < t.values.length := Nat.pos_of_mul_pos_right htotal
  have hcount2 : 0 < t.values2.length := Nat.pos_of_mul_pos_left htotal
  constructor
  · intro h
    obtain ⟨entries, hentries, place, -, hplace⟩ := h
    have hw : size < 2 ^ t.idxBits := by
      by_contra hw
      obtain ⟨enough, henough⟩ := hentries 0 (Nat.zero_le _)
      obtain ⟨inputs, hinputs, -⟩ := henough enough le_rfl
      rw [inputs_eq_none (not_lt.mp hw)] at hinputs
      cases hinputs
    refine ⟨hw, ?_⟩
    obtain ⟨hjob, hj, hpair⟩ := hplace (t.values.length - 1, t.values2.length - 1)
      ⟨by omega, by omega⟩
    generalize place (t.values.length - 1, t.values2.length - 1) = p at hjob hj hpair
    rw [(hentries p.1 hjob).unique (writes_entries hsize hw htotal hjob) hj] at hpair
    by_cases hlt : p.1 * size + p.2 < t.totalSpecialValueCount - 1
    · rw [if_pos hlt] at hpair
      exact absurd hpair (pairAt_ne_lastPair hvalues hvalues2 hlt)
    · have heq := eq_lastSpecialJobIndex hjob hj (not_lt.mp hlt)
      have hdiv := Nat.div_add_mod' (t.totalSpecialValueCount - 1) size
      rw [if_neg hlt] at hpair
      rw [heq, lastSpecialJobIndex] at hpair hlt
      exact ⟨_, by omega, hpair⟩
  · intro h
    obtain ⟨hw, k, hk, hdrawn⟩ := h
    refine ⟨_, fun jobId hjob => writes_entries hsize hw htotal hjob, t.place size k,
      fun s s' hs hs' => place_inj hs hs', ?_⟩
    intro s hs
    have hindex := t.place_index size k s
    rw [hindex]
    by_cases hlast : s = (t.values.length - 1, t.values2.length - 1)
    · rw [place, if_pos hlast, if_pos hlast, if_neg (by omega), Nat.add_sub_cancel_left, hdrawn, hlast]
      exact ⟨le_rfl, hk, rfl⟩
    · have hlt := rank_lt hs hlast
      rw [place, if_neg hlast, if_neg hlast, if_pos hlt, pairAt_rank hs.1]
      exact ⟨Nat.div_le_div_right hlt.le, Nat.mod_lt _ hsize, rfl⟩

end

end BinaryTest

/-! ### Three arguments -/

section

variable {values : List (BitVec 32)} {size fuel : ℕ} {genrand : ℕ → BitVec 32}
  {buffer : ℕ → BitVec 32 × BitVec 32 × BitVec 32}

/-- The combination of three values with a number. -/
def tripleAt (values : List (BitVec 32)) (k : ℕ) : BitVec 32 × BitVec 32 × BitVec 32 :=
  triple values (k % values.length, k / values.length % values.length,
    k / values.length / values.length)

/-- The `k`-th triple that is drawn. -/
def drawnTriple (genrand : ℕ → BitVec 32) (k : ℕ) : BitVec 32 × BitVec 32 × BitVec 32 :=
  (genrand (3 * k), genrand (3 * k + 1), genrand (3 * k + 2))

theorem tripleAt_rank {x y z : ℕ} (hx : x < values.length) (hy : y < values.length) :
    tripleAt values ((z * values.length + y) * values.length + x) = triple values (x, y, z) := by
  have hrow : ((z * values.length + y) * values.length + x) / values.length
      = z * values.length + y := by
    rw [Nat.mul_comm, Nat.mul_add_div (by omega), Nat.div_eq_of_lt hx, Nat.add_zero]
  rw [tripleAt, hrow, Nat.mul_comm _ values.length, Nat.mul_add_mod, Nat.mod_eq_of_lt hx,
    Nat.mul_comm z, Nat.mul_add_mod, Nat.mod_eq_of_lt hy, Nat.mul_add_div (by omega),
    Nat.div_eq_of_lt hy, Nat.add_zero]

/-- **The inputs of the first turn**, if they can hold all combinations. -/
theorem ternaryInputs_spec (genrand : ℕ → BitVec 32)
    (buffer : ℕ → BitVec 32 × BitVec 32 × BitVec 32) (hw : size < 2 ^ 64) (hcount : 0 < values.length)
    (hfits : values.length * (values.length * values.length) ≤ size) (hfuel : size < fuel) :
    ∃ inputs, ternaryInputs values size genrand fuel buffer = some inputs ∧ ∀ j < size, inputs j =
      if j < values.length * (values.length * values.length) - 1 then tripleAt values j
      else drawnTriple genrand (j - (values.length * (values.length * values.length) - 1)) := by
  have htriple : ∀ s : ℕ × ℕ × ℕ, s.1 < values.length ∧ s.2.1 < values.length ∧ s.2.2 < values.length →
      triple values s = tripleAt values ((s.2.2 * values.length + s.2.1) * values.length + s.1) :=
    fun s h => (tripleAt_rank h.1 h.2.1).symm
  have hnone : ∀ j < 0, buffer j = tripleAt values (0 + j) :=
    fun j hj => absurd hj (Nat.not_lt_zero j)
  have hstart : (((0, 0, 0) : ℕ × ℕ × ℕ).2.2 * values.length + 0) * values.length + 0 = 0 + 0 := by
    simp
  obtain ⟨idx, special, hspecial, hidx, hwritten⟩ := specialLoop_spec
    (counts_nextTriple values.length) hw htriple 0 fuel (Nat.zero_le size) (by omega)
    ⟨hcount, hcount, hcount⟩ hstart hnone
  obtain ⟨inputs, hinputs, hrest⟩ :=
    randomLoop_spec (drawnTriple genrand) hw fuel 0 special (show idx ≤ size by omega) (by omega)
  refine ⟨inputs, ?_, ?_⟩
  · rw [ternaryInputs, hspecial]
    exact hinputs
  · intro j hj
    rw [hrest j hj]
    by_cases hlt : j < idx
    · rw [if_pos hlt, if_pos (by omega), hwritten j hlt, Nat.zero_add]
    · rw [if_neg hlt, if_neg (by omega)]
      congr 1
      omega

/-- **All combinations are written** in the first turn. -/
def AllTriples (values : List (BitVec 32)) (size : ℕ) (genrand : ℕ → BitVec 32)
    (buffer : ℕ → BitVec 32 × BitVec 32 × BitVec 32) : Prop :=
  ∃ enough, ∀ fuel ≥ enough, ∃ inputs, ternaryInputs values size genrand fuel buffer = some inputs ∧
    ∀ x < values.length, ∀ y < values.length, ∀ z < values.length,
      ∃ j < size, inputs j = triple values (x, y, z)

/-- The last combination. -/
def lastTriple (values : List (BitVec 32)) : BitVec 32 × BitVec 32 × BitVec 32 :=
  triple values (values.length - 1, values.length - 1, values.length - 1)

theorem tripleAt_ne_lastTriple (hvalues : values.Nodup) {k : ℕ}
    (hk : k < values.length * (values.length * values.length) - 1) :
    tripleAt values k ≠ lastTriple values := by
  intro h
  have hcount : 0 < values.length := Nat.pos_of_ne_zero fun h0 => by simp [h0] at hk
  have hz : k / values.length / values.length < values.length := by
    rw [Nat.div_div_eq_div_mul, Nat.div_lt_iff_lt_mul (Nat.mul_pos hcount hcount)]
    omega
  have hpred : values.length - 1 < values.length := Nat.sub_one_lt hcount.ne'
  have hx := BinaryTest.getD_inj hvalues (Nat.mod_lt k hcount) hpred (congrArg Prod.fst h)
  have hy := BinaryTest.getD_inj hvalues (Nat.mod_lt _ hcount) hpred (congrArg (fun t => t.2.1) h)
  have hz' := BinaryTest.getD_inj hvalues hz hpred (congrArg (fun t => t.2.2) h)
  have hrow := Nat.div_add_mod (k / values.length) values.length
  have hdiv := Nat.div_add_mod k values.length
  rw [hy, hz'] at hrow
  rw [hx, ← hrow] at hdiv
  generalize values.length = n at *
  obtain ⟨m, rfl⟩ : ∃ m, n = m + 1 := ⟨n - 1, by omega⟩
  simp only [Nat.add_sub_cancel] at hdiv
  have hsum : (m + 1) * ((m + 1) * m + m) + m + 1 = (m + 1) * ((m + 1) * (m + 1)) := by ring
  omega

theorem triple_rank_lt {x y z : ℕ} (hx : x < values.length) (hy : y < values.length)
    (hz : z < values.length)
    (hne : (x, y, z) ≠ (values.length - 1, values.length - 1, values.length - 1)) :
    (z * values.length + y) * values.length + x
      < values.length * (values.length * values.length) - 1 := by
  have hlt := (counts_nextTriple values.length).lt (x, y, z) ⟨hx, hy, hz⟩
  have hpred : values.length - 1 < values.length := by omega
  have htop := (counts_nextTriple values.length).last (values.length - 1, values.length - 1,
    values.length - 1) ⟨hpred, hpred, hpred⟩ (by
      have h : values.length - 1 + 1 ≥ values.length := by omega
      rw [nextTriple, if_pos h, if_pos h, if_pos h])
  refine lt_of_le_of_ne (Nat.le_sub_one_of_lt hlt) ?_
  intro heq
  rw [← htop, Nat.add_sub_cancel] at heq
  obtain ⟨hrow, rfl⟩ := Layout.digits_unique hx hpred heq
  obtain ⟨rfl, rfl⟩ := Layout.digits_unique hy hpred hrow
  exact hne rfl

/-- **The last combination is written** just if it is drawn after the loop has left it. -/
theorem allTriples_iff (hvalues : values.Nodup) (hw : size < 2 ^ 64) (hcount : 0 < values.length)
    (hfits : values.length * (values.length * values.length) ≤ size)
    (buffer : ℕ → BitVec 32 × BitVec 32 × BitVec 32) :
    AllTriples values size genrand buffer ↔
      ∃ k, values.length * (values.length * values.length) - 1 + k < size ∧
        drawnTriple genrand k = lastTriple values := by
  constructor
  · intro h
    obtain ⟨enough, henough⟩ := h
    obtain ⟨inputs, hinputs, hall⟩ := henough (max enough (size + 1)) (le_max_left _ _)
    obtain ⟨inputs', hinputs', hspec⟩ := ternaryInputs_spec genrand buffer hw hcount
      hfits (lt_of_lt_of_le (Nat.lt_succ_self size) (le_max_right enough (size + 1)))
    obtain rfl : inputs = inputs' := Option.some.inj (hinputs.symm.trans hinputs')
    obtain ⟨j, hj, htriple⟩ := hall _ (Nat.sub_one_lt hcount.ne') _ (Nat.sub_one_lt hcount.ne') _
      (Nat.sub_one_lt hcount.ne')
    rw [hspec j hj] at htriple
    split at htriple
    · rename_i hlt
      exact absurd htriple (tripleAt_ne_lastTriple hvalues hlt)
    · exact ⟨_, by omega, htriple⟩
  · intro h
    obtain ⟨k, hk, hdrawn⟩ := h
    refine ⟨size + 1, ?_⟩
    intro fuel hfuel
    obtain ⟨inputs, hinputs, hspec⟩ := ternaryInputs_spec genrand buffer hw hcount
      hfits (lt_of_lt_of_le (Nat.lt_succ_self size) hfuel)
    refine ⟨inputs, hinputs, ?_⟩
    intro x hx y hy z hz
    by_cases hlast : (x, y, z) = (values.length - 1, values.length - 1, values.length - 1)
    · refine ⟨_, hk, ?_⟩
      rw [hspec _ hk, if_neg (by omega), Nat.add_sub_cancel_left, hdrawn, hlast, lastTriple]
    · have hlt := triple_rank_lt hx hy hz hlast
      refine ⟨(z * values.length + y) * values.length + x, by omega, ?_⟩
      rw [hspec _ (by omega), if_pos hlt, tripleAt_rank hx hy]

end

/-! ### The tests -/

/-- The tables have no value twice. -/
theorem specialValues_nodup : specialValues.Nodup := by decide +kernel

theorem specialValuesInt_nodup : specialValuesInt.Nodup := by decide +kernel

theorem specialValuesTernary_nodup : specialValuesTernary.Nodup := by decide +kernel

/-- **All special values are tried** just if the last combination is drawn where the first loop has
left it, or behind; a `cl_uint` does not count to `2 ^ 32`. -/
theorem specialValues_iff (size : ℕ) (hsize : 0 < size) (hw : size < 2 ^ 64) :
    (∀ genrand buffer, binaryFloat.AllWritten size genrand buffer ↔ size < 2 ^ 32 ∧
      ∃ k, (binaryFloat.totalSpecialValueCount - 1) % size + k < size ∧
        BinaryTest.drawn genrand (binaryFloat.lastSpecialJobIndex size) k = binaryFloat.lastPair) ∧
    (∀ genrand buffer, binaryIFloat.AllWritten size genrand buffer ↔
      ∃ k, (binaryIFloat.totalSpecialValueCount - 1) % size + k < size ∧
        BinaryTest.drawn genrand (binaryIFloat.lastSpecialJobIndex size) k
          = binaryIFloat.lastPair) ∧
    ∀ genrand buffer, 74 * (74 * 74) ≤ size →
      (AllTriples specialValuesTernary size genrand buffer ↔
        ∃ k, 74 * (74 * 74) - 1 + k < size ∧
          drawnTriple genrand k = lastTriple specialValuesTernary) := by
  refine ⟨fun genrand buffer => ?_, fun genrand buffer => ?_, fun genrand buffer hfits => ?_⟩
  · exact BinaryTest.allWritten_iff specialValues_nodup specialValues_nodup (by decide) hsize buffer
  · have hiff := @BinaryTest.allWritten_iff binaryIFloat size genrand specialValues_nodup
      specialValuesInt_nodup (by decide) hsize buffer
    exact hiff.trans (and_iff_right hw)
  · exact @allTriples_iff specialValuesTernary size genrand specialValuesTernary_nodup hw (by decide)
      hfits buffer

/-- A buffer of `BUFFER_SIZE`, with generators that return nothing but the last combination; and one
that only returns 1 in the test with three arguments. -/
theorem specialValues_zero :
    binaryFloat.AllWritten (2 ^ 19) (fun _ _ => 0) (fun _ _ => (0, 0)) ∧
    binaryIFloat.AllWritten (2 ^ 19) (fun _ i => if i % 2 = 0 then 0 else -1488522147)
      (fun _ _ => (0, 0)) ∧
    AllTriples specialValuesTernary (2 ^ 19) (fun _ => 0) (fun _ => (0, 0, 0)) ∧
    ¬ AllTriples specialValuesTernary (2 ^ 19) (fun _ => 1) (fun _ => (0, 0, 0)) := by
  obtain ⟨hfloat, hifloat, hternary⟩ := specialValues_iff (2 ^ 19) (by decide) (by decide)
  refine ⟨(hfloat _ _).mpr ⟨by decide, 0, by decide +kernel, ?_⟩,
    (hifloat _ _).mpr ⟨0, by decide +kernel, ?_⟩,
    (hternary _ _ (by decide)).mpr ⟨0, by decide, ?_⟩, fun h => ?_⟩
  · show BinaryTest.drawn (fun _ _ => 0) _ 0 = binaryFloat.lastPair
    decide +kernel
  · show BinaryTest.drawn (fun _ i => if i % 2 = 0 then 0 else -1488522147) _ 0
      = binaryIFloat.lastPair
    decide +kernel
  · show drawnTriple (fun _ => 0) 0 = lastTriple specialValuesTernary
    decide +kernel
  · obtain ⟨k, -, hdrawn⟩ := (hternary _ _ (by decide)).mp h
    have hlast : lastTriple specialValuesTernary ≠ (1, 1, 1) := by decide +kernel
    exact hlast hdrawn.symm

/-- If the generator returns 1 for the 125 entries that are left in the last job, the pair of two zeros
is not tried. -/
theorem not_allWritten : ¬ ∀ (size : ℕ) (genrand : ℕ → ℕ → BitVec 32)
    (buffer : ℕ → ℕ → BitVec 32 × BitVec 32), 0 < size → size < 2 ^ 32 →
    binaryFloat.AllWritten size genrand buffer := by
  intro h
  have hall := h 256 (fun _ _ => 1) (fun _ _ => (0, 0)) (by decide) (by decide)
  rw [BinaryTest.allWritten_iff specialValues_nodup specialValues_nodup (by decide) (by decide)]
    at hall
  obtain ⟨-, k, -, hdrawn⟩ := hall
  have hlast : BinaryTest.lastPair binaryFloat ≠ (1, 1) := by decide +kernel
  exact hlast hdrawn.symm

end OpenCLCTS.MathBruteForce
