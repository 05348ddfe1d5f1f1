import OpenCLCTS.IntegerOps.Arithmetic
import OpenCLCTS.Lib.FloatExtended
import OpenCLCTS.Lib.Words

/-!
# The references of select

44 functions store the elements that `select` chooses, for scalars by a condition that is not 0 and
for vectors by its highest bit; 11 others compare the results.  All get arrays of bytes and are
chosen from tables.

* `refSelects_chosen`: the functions of the tables are right for every type and signedness.
* `checkResults_iff`: **the first element that is wrong is reported, but for halves that are both
  NaN.**
-/

namespace OpenCLCTS.Select

open Conversions Loops Memory FloatFormat

/-- `Type`. -/
inductive Ty
  | kuchar
  | kchar
  | kushort
  | kshort
  | khalf
  | kuint
  | kint
  | kfloat
  | kulong
  | klong
  | kdouble
  deriving DecidableEq

/-- `type_size`. -/
def typeSize : Ty → ℕ
  | .kuchar | .kchar => 1
  | .kushort | .kshort | .khalf => 2
  | .kuint | .kint | .kfloat => 4
  | .kulong | .klong | .kdouble => 8

/-- A row of a table, and the column that belongs to unsigned or signed conditions. -/
def column {α : Type} (signed : Bool) (row : α × α) : α := if signed then row.2 else row.1

/-! ### Reference functions -/

abbrev Bytes := ℕ → BitVec 8

/-- An element of an array of a type. -/
def element (t : CType) (mem : Bytes) (i : ℕ) : BitVec t.bits :=
  (load mem (t.bits / 8) (i * (t.bits / 8))).setWidth t.bits

/-- A loop that writes the elements of an array. -/
def writeElements (t : CType) (count : ℕ) (f : ℕ → BitVec t.bits) (dest : Bytes) : Bytes :=
  storeEach (w := t.bits / 8) count (fun i => (f i).setWidth _) dest 0

/-- `Select`. -/
abbrev Reference := (dest src1 src2 cmp : Bytes) → (count : ℕ) → Bytes

/-- The functions of scalars; `t` is the type of the elements, and `s` that of the conditions. -/
def refselect (t s : CType) : Reference := fun dest x y m count =>
  writeElements t count (fun i => if element s m i ≠ 0 then element t y i else element t x i) dest

/-- The functions of vectors; `c` is the type in which `&` computes. -/
def vrefselect (t s c : CType) (mask : BitVec c.bits) : Reference := fun dest x y m count =>
  writeElements t count (fun i => if CType.convert s c (element s m i) &&& mask ≠ 0 then
    element t y i else element t x i) dest

/-- `refselect_1i8`. -/
def refselect1i8 := refselect .schar .schar

/-- `refselect_1u8`. -/
def refselect1u8 := refselect .uchar .schar

/-- `refselect_1i16`. -/
def refselect1i16 := refselect .short .short

/-- `refselect_1u16`. -/
def refselect1u16 := refselect .ushort .short

/-- `refselect_1i32`. -/
def refselect1i32 := refselect .int .int

/-- `refselect_1u32`. -/
def refselect1u32 := refselect .uint .int

/-- `refselect_1i64`. -/
def refselect1i64 := refselect .long .long

/-- `refselect_1u64`. -/
def refselect1u64 := refselect .ulong .long

/-- `refselect_1i8u`. -/
def refselect1i8u := refselect .schar .uchar

/-- `refselect_1u8u`. -/
def refselect1u8u := refselect .uchar .uchar

/-- `refselect_1i16u`. -/
def refselect1i16u := refselect .short .ushort

/-- `refselect_1u16u`. -/
def refselect1u16u := refselect .ushort .ushort

/-- `refselect_1i32u`. -/
def refselect1i32u := refselect .int .uint

/-- `refselect_1u32u`. -/
def refselect1u32u := refselect .uint .uint

/-- `refselect_1i64u`. -/
def refselect1i64u := refselect .long .ulong

/-- `refselect_1u64u`. -/
def refselect1u64u := refselect .ulong .ulong

/-- `refselect_hhi`. -/
def refselectHhi := refselect .short .short

/-- `refselect_hhu`. -/
def refselectHhu := refselect .ushort .ushort

/-- `refselect_ffi`. -/
def refselectFfi := refselect .int .int

/-- `refselect_ffu`. -/
def refselectFfu := refselect .uint .uint

/-- `refselect_ddi`. -/
def refselectDdi := refselect .long .long

/-- `refselect_ddu`. -/
def refselectDdu := refselect .long .ulong

/-- `vrefselect_1i8`. -/
def vrefselect1i8 := vrefselect .schar .schar .int (0x80 : BitVec 32)

/-- `vrefselect_1u8`. -/
def vrefselect1u8 := vrefselect .uchar .schar .int (0x80 : BitVec 32)

/-- `vrefselect_1i16`. -/
def vrefselect1i16 := vrefselect .short .short .int (0x8000 : BitVec 32)

/-- `vrefselect_1u16`. -/
def vrefselect1u16 := vrefselect .ushort .short .int (0x8000 : BitVec 32)

/-- `vrefselect_1i32`; the constant is too large for an `int`. -/
def vrefselect1i32 := vrefselect .int .int .uint (0x80000000 : BitVec 32)

/-- `vrefselect_1u32`. -/
def vrefselect1u32 := vrefselect .uint .int .uint (0x80000000 : BitVec 32)

/-- `vrefselect_1i64`. -/
def vrefselect1i64 := vrefselect .long .long .ulong (0x8000000000000000 : BitVec 64)

/-- `vrefselect_1u64`. -/
def vrefselect1u64 := vrefselect .ulong .long .ulong (0x8000000000000000 : BitVec 64)

/-- `vrefselect_1i8u`. -/
def vrefselect1i8u := vrefselect .schar .uchar .uint (0x80 : BitVec 32)

/-- `vrefselect_1u8u`. -/
def vrefselect1u8u := vrefselect .uchar .uchar .uint (0x80 : BitVec 32)

/-- `vrefselect_1i16u`. -/
def vrefselect1i16u := vrefselect .short .ushort .uint (0x8000 : BitVec 32)

/-- `vrefselect_1u16u`. -/
def vrefselect1u16u := vrefselect .ushort .ushort .uint (0x8000 : BitVec 32)

/-- `vrefselect_1i32u`. -/
def vrefselect1i32u := vrefselect .int .uint .uint (0x80000000 : BitVec 32)

/-- `vrefselect_1u32u`. -/
def vrefselect1u32u := vrefselect .uint .uint .uint (0x80000000 : BitVec 32)

/-- `vrefselect_1i64u`. -/
def vrefselect1i64u := vrefselect .long .ulong .ulong (0x8000000000000000 : BitVec 64)

/-- `vrefselect_1u64u`. -/
def vrefselect1u64u := vrefselect .ulong .ulong .ulong (0x8000000000000000 : BitVec 64)

/-- `vrefselect_hhi`. -/
def vrefselectHhi := vrefselect .ushort .short .int (0x8000 : BitVec 32)

/-- `vrefselect_hhu`. -/
def vrefselectHhu := vrefselect .ushort .ushort .uint (0x8000 : BitVec 32)

/-- `vrefselect_ffi`. -/
def vrefselectFfi := vrefselect .uint .int .uint (0x80000000 : BitVec 32)

/-- `vrefselect_ffu`. -/
def vrefselectFfu := vrefselect .uint .uint .uint (0x80000000 : BitVec 32)

/-- `vrefselect_ddi`. -/
def vrefselectDdi := vrefselect .ulong .long .ulong (0x8000000000000000 : BitVec 64)

/-- `vrefselect_ddu`. -/
def vrefselectDdu := vrefselect .ulong .ulong .ulong (0x8000000000000000 : BitVec 64)

def refSelects : Ty → Reference × Reference
  | .kuchar => (refselect1u8u, refselect1u8)
  | .kchar => (refselect1i8u, refselect1i8)
  | .kushort => (refselect1u16u, refselect1u16)
  | .kshort => (refselect1i16u, refselect1i16)
  | .khalf => (refselectHhu, refselectHhi)
  | .kuint => (refselect1u32u, refselect1u32)
  | .kint => (refselect1i32u, refselect1i32)
  | .kfloat => (refselectFfu, refselectFfi)
  | .kulong => (refselect1u64u, refselect1u64)
  | .klong => (refselect1i64u, refselect1i64)
  | .kdouble => (refselectDdu, refselectDdi)

def vrefSelects : Ty → Reference × Reference
  | .kuchar => (vrefselect1u8u, vrefselect1u8)
  | .kchar => (vrefselect1i8u, vrefselect1i8)
  | .kushort => (vrefselect1u16u, vrefselect1u16)
  | .kshort => (vrefselect1i16u, vrefselect1i16)
  | .khalf => (vrefselectHhu, vrefselectHhi)
  | .kuint => (vrefselect1u32u, vrefselect1u32)
  | .kint => (vrefselect1i32u, vrefselect1i32)
  | .kfloat => (vrefselectFfu, vrefselectFfi)
  | .kulong => (vrefselect1u64u, vrefselect1u64)
  | .klong => (vrefselect1i64u, vrefselect1i64)
  | .kdouble => (vrefselectDdu, vrefselectDdi)

/-! ### Check functions -/

/-- `memcmp(t, c, n) != 0`. -/
def differ (t c : Bytes) (n : ℕ) : Bool := !(List.range n).all fun b => t b == c b

/-- The check functions, with what they do not count as an error. -/
def check (type : CType) (exempt : BitVec type.bits → BitVec type.bits → Bool)
    (test correct : Bytes) (count : ℕ) : ℕ :=
  if differ test correct (count * (type.bits / 8)) then
    (firstFound (fun i =>
      let t := element type test i
      let c := element type correct i
      if t ≠ c ∧ exempt c t = false then some (i + 1) else none) count).getD 0
  else 0

/-- The check functions of integers. -/
def checkInteger (type : CType) := check type fun _ _ => false

/-- The check functions of numbers some of which are NaN. -/
def checkNan (type : CType) (isnan : BitVec type.bits → Bool) :=
  check type fun c t => isnan c && isnan t

/-- `isnan` of a `cl_half`, which is an integer that is converted to `double`. -/
def isnanHalf (x : BitVec 16) : Bool :=
  binary64.floatClass (binary64.ofRat .toNearest false x.toNat : BitVec 64) = .nan

/-- `isnan` of a `float`. -/
def isnanFloat (x : BitVec 32) : Bool := binary32.floatClass x = .nan

/-- `isnan` of a `double`. -/
def isnanDouble (x : BitVec 64) : Bool := binary64.floatClass x = .nan

/-- `check_uchar`. -/
def checkUchar := checkInteger .uchar

/-- `check_char`. -/
def checkChar := checkInteger .schar

/-- `check_ushort`. -/
def checkUshort := checkInteger .ushort

/-- `check_short`. -/
def checkShort := checkInteger .short

/-- `check_uint`. -/
def checkUint := checkInteger .uint

/-- `check_int`. -/
def checkInt := checkInteger .int

/-- `check_ulong`. -/
def checkUlong := checkInteger .ulong

/-- `check_long`. -/
def checkLong := checkInteger .long

/-- `check_half`. -/
def checkHalf := checkNan .ushort isnanHalf

/-- `check_float`. -/
def checkFloat := checkNan .uint isnanFloat

/-- `check_double`. -/
def checkDouble := checkNan .ulong isnanDouble

def checkResults : Ty → (test correct : Bytes) → (count : ℕ) → ℕ
  | .kuchar => checkUchar
  | .kchar => checkChar
  | .kushort => checkUshort
  | .kshort => checkShort
  | .khalf => checkHalf
  | .kuint => checkUint
  | .kint => checkInt
  | .kfloat => checkFloat
  | .kulong => checkUlong
  | .klong => checkLong
  | .kdouble => checkDouble

/-! ### What is stored -/

section

variable {t s c : CType} {w count i : ℕ} {dest x y m : Bytes}

theorem toNat_element (ht : t.bits = 8 * w) (mem : Bytes) (i : ℕ) :
    (element t mem i).toNat = (load mem w (i * w)).toNat := by
  obtain rfl : w = t.bits / 8 := by omega
  have hlt := (load mem (t.bits / 8) (i * (t.bits / 8))).isLt
  rw [element, BitVec.toNat_setWidth]
  exact Nat.mod_eq_of_lt (hlt.trans_eq (congrArg (2 ^ ·) ht.symm))

theorem element_eq_iff (ht : t.bits = 8 * w) {mem mem' : Bytes} :
    element t mem i = element t mem' i ↔ load mem w (i * w) = load mem' w (i * w) := by
  rw [← BitVec.toNat_inj, toNat_element ht, toNat_element ht, BitVec.toNat_inj]

theorem element_uint (mem : Bytes) (i : ℕ) : element .uint mem i = load mem 4 (i * 4) :=
  BitVec.setWidth_eq _

theorem element_ulong (mem : Bytes) (i : ℕ) : element .ulong mem i = load mem 8 (i * 8) :=
  BitVec.setWidth_eq _

/-- **The elements are written, and nothing else is changed.** -/
theorem writeElements_spec (dest : Bytes) (count : ℕ) (ht : t.bits = 8 * w)
    (f : ℕ → BitVec t.bits) :
    (∀ i < count, (load (writeElements t count f dest) w (i * w)).toNat = (f i).toNat) ∧
      ∀ b, count * w ≤ b → writeElements t count f dest b = dest b := by
  obtain rfl : w = t.bits / 8 := by omega
  obtain ⟨hload, hkept⟩ :=
    storeEach_spec (w := t.bits / 8) count (fun i => (f i).setWidth _) dest 0
  constructor
  · intro i hi
    have hlt := (f i).isLt
    have h := hload i hi
    rw [Nat.zero_add] at h
    rw [writeElements, h, BitVec.toNat_setWidth]
    exact Nat.mod_eq_of_lt (by rwa [← ht])
  · intro b hb
    exact hkept b (.inr (by rwa [Nat.zero_add]))

/-- One of two arrays, element by element, and nothing else. -/
def Chosen (w count : ℕ) (dest x y dest' : Bytes) (c : ℕ → Prop) : Prop :=
  (∀ i < count, (c i → load dest' w (i * w) = load y w (i * w)) ∧
    (¬ c i → load dest' w (i * w) = load x w (i * w))) ∧
  ∀ b, count * w ≤ b → dest' b = dest b

theorem chosen_writeElements (ht : t.bits = 8 * w) {c c' : ℕ → Prop} [DecidablePred c]
    (hc : ∀ i, c i ↔ c' i) :
    Chosen w count dest x y
      (writeElements t count (fun i => if c i then element t y i else element t x i) dest) c' := by
  obtain ⟨hload, hkept⟩ := writeElements_spec dest count ht fun i =>
    if c i then element t y i else element t x i
  refine ⟨fun i hi => ⟨?_, ?_⟩, hkept⟩
  · intro h
    refine BitVec.eq_of_toNat_eq ?_
    rw [hload i hi, if_pos ((hc i).mpr h), toNat_element ht]
  · intro h
    refine BitVec.eq_of_toNat_eq ?_
    rw [hload i hi, if_neg ((hc i).not.mpr h), toNat_element ht]

/-- **The functions of scalars choose by a condition that is not 0.** -/
theorem refselect_chosen (ht : t.bits = 8 * w) (hs : s.bits = 8 * w) :
    Chosen w count dest x y (refselect t s dest x y m count) fun i => load m w (i * w) ≠ 0 := by
  refine chosen_writeElements ht ?_
  intro i
  rw [ne_eq, ne_eq, ← BitVec.toNat_inj, ← BitVec.toNat_inj, toNat_element hs]
  simp

/-- **The functions of vectors choose by the highest bit.** -/
theorem vrefselect_chosen (ht : t.bits = 8 * w) (hs : s.bits = 8 * w) (hsc : s.bits ≤ c.bits)
    {mask : BitVec c.bits} (hmask : mask.toNat = 2 ^ (s.bits - 1)) :
    Chosen w count dest x y (vrefselect t s c mask dest x y m count)
      fun i => (load m w (i * w)).msb = true := by
  refine chosen_writeElements ht ?_
  intro i
  have hpos := s.bits_pos
  have hmsb : (load m w (i * w)).msb = (element s m i).getLsbD (s.bits - 1) := by
    rw [BitVec.msb_eq_getLsbD_last, BitVec.getLsbD, BitVec.getLsbD, toNat_element hs, hs]
  have hone : BitVec.twoPow c.bits (s.bits - 1) ≠ 0 := by
    intro h
    have hbit := congrArg (BitVec.getLsbD · (s.bits - 1)) h
    simp [show s.bits - 1 < c.bits by omega] at hbit
  have htwoPow : mask = BitVec.twoPow c.bits (s.bits - 1) := by
    rw [← BitVec.toNat_inj, hmask, BitVec.toNat_twoPow_of_lt (by omega)]
  rw [hmsb, htwoPow, BitVec.and_twoPow,
    CType.getLsbD_convert (show s.bits - 1 < s.bits by omega) (by omega)]
  cases (element s m i).getLsbD (s.bits - 1) with
  | false => simp
  | true => simpa using hone

end

/-- **The functions of the tables** store, for every type and signedness, what is chosen by the
condition and by its highest bit. -/
theorem refSelects_chosen (t : Ty) (signed : Bool) (dest x y m : Bytes) (count : ℕ) :
    Chosen (typeSize t) count dest x y (column signed (refSelects t) dest x y m count)
        (fun i => load m (typeSize t) (i * typeSize t) ≠ 0) ∧
      Chosen (typeSize t) count dest x y (column signed (vrefSelects t) dest x y m count)
        fun i => (load m (typeSize t) (i * typeSize t)).msb = true := by
  cases t <;> cases signed <;>
    exact ⟨refselect_chosen rfl rfl, vrefselect_chosen rfl rfl (by decide) rfl⟩

/-! ### What is reported -/

/-- The format of a floating type. -/
def Ty.format : Ty → Option FloatFormat
  | .khalf => some binary16
  | .kfloat => some binary32
  | .kdouble => some binary64
  | .kuchar | .kchar | .kushort | .kshort | .kuint | .kint | .kulong | .klong => none

/-- Both elements are NaN. -/
def BothNan (t : Ty) (test correct : Bytes) (i : ℕ) : Prop :=
  ∃ f ∈ t.format, f.floatClass (load test (typeSize t) (i * typeSize t)) = .nan ∧
    f.floatClass (load correct (typeSize t) (i * typeSize t)) = .nan

/-- The bits of the elements are the same. -/
def SameBits (t : Ty) (test correct : Bytes) (i : ℕ) : Prop :=
  load test (typeSize t) (i * typeSize t) = load correct (typeSize t) (i * typeSize t)

instance (t : Ty) (test correct : Bytes) (i : ℕ) : Decidable (SameBits t test correct i) :=
  inferInstanceAs (Decidable (_ = _))

/-- 0 if all elements satisfy a condition, and otherwise 1 and the least index of another one. -/
def Reports (accepted : ℕ → Prop) (count result : ℕ) : Prop :=
  ((∀ i < count, accepted i) ∧ result = 0) ∨
    ∃ i < count, ¬ accepted i ∧ (∀ j < i, accepted j) ∧ result = i + 1

theorem reports_congr {accepted accepted' : ℕ → Prop} {count result : ℕ}
    (h : Reports accepted count result) (haccepted : ∀ i, accepted i ↔ accepted' i) :
    Reports accepted' count result := by
  rwa [← funext fun i => propext (haccepted i)]

theorem Reports.unique {accepted : ℕ → Prop} {count result result' : ℕ}
    (h : Reports accepted count result) (h' : Reports accepted count result') :
    result = result' := by
  rcases h with ⟨hall, rfl⟩ | ⟨i, hi, hnot, hbefore, rfl⟩
  · rcases h' with ⟨-, rfl⟩ | ⟨j, hj, hnot', -, rfl⟩
    · rfl
    · exact absurd (hall j hj) hnot'
  · rcases h' with ⟨hall, rfl⟩ | ⟨j, hj, hnot', hbefore', rfl⟩
    · exact absurd (hall i hi) hnot
    · rcases lt_trichotomy i j with hlt | rfl | hlt
      · exact absurd (hbefore' i hlt) hnot
      · rfl
      · exact absurd (hbefore j hlt) hnot'

/-- **Further elements are accepted** just if the first one that was not is none of these. -/
theorem reports_or_iff {P Q : ℕ → Prop} {count result : ℕ} (h : Reports P count result) :
    Reports (fun i => P i ∨ Q i) count result ↔
      ∀ i < count, (∀ j < i, P j) → ¬ P i → ¬ Q i := by
  constructor
  · intro hor i hi hbefore hnot hQ
    have hresult : result = i + 1 := h.unique (.inr ⟨i, hi, hnot, hbefore, rfl⟩)
    rcases hor with ⟨-, h0⟩ | ⟨k, -, hnot', -, hk⟩
    · omega
    · obtain rfl : k = i := by omega
      exact hnot' (.inr hQ)
  · intro hcond
    rcases h with ⟨hall, h0⟩ | ⟨i, hi, hnot, hbefore, hresult⟩
    · exact .inl ⟨fun i hi => .inl (hall i hi), h0⟩
    · refine .inr ⟨i, hi, ?_, fun j hj => .inl (hbefore j hj), hresult⟩
      exact not_or.mpr ⟨hnot, hcond i hi hbefore hnot⟩

section

variable {w count : ℕ} {test correct : Bytes}

theorem differ_eq_false_iff {n : ℕ} :
    differ test correct n = false ↔ ∀ b < n, test b = correct b := by
  simp [differ]

theorem load_eq_of_differ (h : differ test correct (count * w) = false) {i : ℕ} (hi : i < count) :
    load test w (i * w) = load correct w (i * w) := by
  refine load_congr fun k hk => differ_eq_false_iff.mp h _ ?_
  calc i * w + k < i * w + w := Nat.add_lt_add_left hk _
    _ = (i + 1) * w := (Nat.succ_mul i w).symm
    _ ≤ count * w := Nat.mul_le_mul_right w hi

/-- **A check function reports the first element that is wrong.** -/
theorem check_reports (type : CType) (exempt : BitVec type.bits → BitVec type.bits → Bool)
    (ht : type.bits = 8 * w) (test correct : Bytes) (count : ℕ) :
    Reports (fun i => load test w (i * w) = load correct w (i * w) ∨
      exempt (element type correct i) (element type test i) = true) count
      (check type exempt test correct count) := by
  obtain rfl : w = type.bits / 8 := by omega
  rw [check]
  cases hdiffer : differ test correct (count * (type.bits / 8)) with
  | false => exact .inl ⟨fun i hi => .inl (load_eq_of_differ hdiffer hi), rfl⟩
  | true =>
    rw [if_pos rfl]
    -- the turns of the loop, by what is accepted
    have hturn (i : ℕ) : (element type test i ≠ element type correct i ∧
        exempt (element type correct i) (element type test i) = false) ↔
        ¬ (load test (type.bits / 8) (i * (type.bits / 8))
            = load correct (type.bits / 8) (i * (type.bits / 8)) ∨
          exempt (element type correct i) (element type test i) = true) := by
      rw [ne_eq, element_eq_iff ht, not_or, Bool.not_eq_true]
    simp only [hturn]
    generalize hfound : firstFound _ count = found
    cases found with
    | none =>
      rw [firstFound_eq_none_iff] at hfound
      refine .inl ⟨fun i hi => ?_, rfl⟩
      have hnone := hfound i hi
      rw [ite_eq_right_iff] at hnone
      by_contra hnot
      exact absurd (hnone hnot) (by simp)
    | some r =>
      rw [firstFound_eq_some_iff] at hfound
      obtain ⟨i, hi, hr, hbefore⟩ := hfound
      rw [Option.ite_none_right_eq_some] at hr
      refine .inr ⟨i, hi, hr.1, fun j hj => ?_, (Option.some.inj hr.2).symm⟩
      have hnone := hbefore j hj
      rw [ite_eq_right_iff] at hnone
      by_contra hnot
      exact absurd (hnone hnot) (by simp)

end

/-- **No half is NaN**, as an integer. -/
theorem isnanHalf_eq_false (x : BitVec 16) : isnanHalf x = false := by
  have hx := x.isLt
  have hlt : (x.toNat : ℚ) < 2 ^ (1024 : ℤ) := by
    have h16 : (x.toNat : ℚ) < 2 ^ (16 : ℤ) := by
      exact_mod_cast hx
    exact h16.trans_le (zpow_le_zpow_right₀ one_le_two (by decide))
  have hnumber : binary64.Number (x.toNat : ℚ) := by
    refine ⟨x.toNat, 0, by decide, ?_, by simp⟩
    rw [abs_of_nonneg (Int.natCast_nonneg _)]
    exact_mod_cast hx.trans (by decide)
  have hfinite := (value_ofRat (w := 64) (s := false) .toNearest rfl hnumber (by
    rw [abs_of_nonneg (Nat.cast_nonneg _), magnitude_finiteCount_binary64]
    exact hlt)).2
  rw [isnanHalf, decide_eq_false_iff_not]
  exact hfinite.ne_nan

theorem checkHalf_eq : checkHalf = checkInteger .ushort := by
  have hexempt : (fun c t : BitVec 16 => isnanHalf c && isnanHalf t) = fun _ _ => false := by
    funext c t
    rw [isnanHalf_eq_false, Bool.false_and]
  exact congrArg (check .ushort) hexempt

theorem checkInteger_reports {type : CType} {w : ℕ} (ht : type.bits = 8 * w) (test correct : Bytes)
    (count : ℕ) : Reports (fun i => load test w (i * w) = load correct w (i * w)) count
      (checkInteger type test correct count) := by
  have h := check_reports type (fun _ _ => false) ht test correct count
  simp only [Bool.false_eq_true, or_false] at h
  exact h

theorem checkHalf_reports (test correct : Bytes) (count : ℕ) :
    Reports (SameBits .khalf test correct) count (checkResults .khalf test correct count) := by
  rw [checkResults, checkHalf_eq]
  exact checkInteger_reports rfl test correct count

theorem checkResults_reports {t : Ty} (ht : t ≠ .khalf) (test correct : Bytes) (count : ℕ) :
    Reports (fun i => SameBits t test correct i ∨ BothNan t test correct i) count
      (checkResults t test correct count) := by
  have hinteger (h : t.format = none) (i : ℕ) : (SameBits t test correct i
      ∨ BothNan t test correct i) = SameBits t test correct i := by
    rw [BothNan, h]
    simp
  cases t with
  | khalf => exact absurd rfl ht
  | kfloat =>
    refine reports_congr (check_reports .uint
      (fun c t => isnanFloat c && isnanFloat t) rfl test correct count) fun i => or_congr_right ?_
    rw [element_uint, element_uint]
    simp [BothNan, Ty.format, isnanFloat, typeSize, and_comm]
  | kdouble =>
    refine reports_congr (check_reports .ulong
      (fun c t => isnanDouble c && isnanDouble t) rfl test correct count) fun i => or_congr_right ?_
    rw [element_ulong, element_ulong]
    simp [BothNan, Ty.format, isnanDouble, typeSize, and_comm]
  | kuchar | kchar | kushort | kshort | kuint | kint | kulong | klong =>
    rw [funext (hinteger rfl)]
    exact checkInteger_reports rfl test correct count

/-- **The first element that is wrong is reported, but for halves that are both NaN**: those are
wrong if the first elements that are different are of this kind. -/
theorem checkResults_iff (t : Ty) (test correct : Bytes) (count : ℕ) :
    Reports (fun i => SameBits t test correct i ∨ BothNan t test correct i) count
        (checkResults t test correct count) ↔
      (t = .khalf → ∀ i < count, (∀ j < i, SameBits t test correct j) →
        ¬ SameBits t test correct i → ¬ BothNan t test correct i) := by
  by_cases ht : t = .khalf
  · subst ht
    rw [reports_or_iff (checkHalf_reports test correct count)]
    simp
  · exact iff_of_true (checkResults_reports ht test correct count) fun h => absurd h ht

/-- **The references are right; the reports are, just if the first halves that are different are not
both NaN.** -/
theorem select_iff (t : Ty) (signed : Bool) (dest x y m test correct : Bytes) (count n : ℕ) :
    (Chosen (typeSize t) count dest x y (column signed (refSelects t) dest x y m count)
        (fun i => load m (typeSize t) (i * typeSize t) ≠ 0) ∧
      Chosen (typeSize t) count dest x y (column signed (vrefSelects t) dest x y m count)
        fun i => (load m (typeSize t) (i * typeSize t)).msb = true) ∧
    (Reports (fun i => SameBits t test correct i ∨ BothNan t test correct i) n
        (checkResults t test correct n) ↔
      (t = .khalf → ∀ i < n, (∀ j < i, SameBits t test correct j) →
        ¬ SameBits t test correct i → ¬ BothNan t test correct i)) :=
  ⟨refSelects_chosen t signed dest x y m count, checkResults_iff t test correct n⟩

/-- A half, the low byte first. -/
def halfBytes (low high : BitVec 8) : Bytes := fun b => if b = 0 then low else high

/-- The halves `0x7e00` and `0x7e01` are NaN. -/
theorem not_reports_half : ¬ ∀ (t : Ty) (signed : Bool) (dest x y m test correct : Bytes)
    (count n : ℕ),
    (Chosen (typeSize t) count dest x y (column signed (refSelects t) dest x y m count)
        (fun i => load m (typeSize t) (i * typeSize t) ≠ 0) ∧
      Chosen (typeSize t) count dest x y (column signed (vrefSelects t) dest x y m count)
        fun i => (load m (typeSize t) (i * typeSize t)).msb = true) ∧
    Reports (fun i => SameBits t test correct i ∨ BothNan t test correct i) n
      (checkResults t test correct n) := by
  intro h
  have hreports := (h .khalf false (halfBytes 0 0) (halfBytes 0 0) (halfBytes 0 0) (halfBytes 0 0)
    (halfBytes 0x00 0x7e) (halfBytes 0x01 0x7e) 1 1).2
  rw [checkResults_iff] at hreports
  refine hreports rfl 0 one_pos (fun j hj => absurd hj (Nat.not_lt_zero j)) (by decide) ?_
  exact ⟨binary16, rfl, by decide, by decide⟩

end OpenCLCTS.Select
