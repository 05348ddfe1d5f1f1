import OpenCLCTS.IntegerOps.Saturate

/-!
# Extended bit operations

The references of `bitfield_insert`, `bitfield_extract` and `bit_reverse`.  A shift by the width of
its promoted operand, or by more, is undefined.

* `cpuBitExtractUnsigned_eq`, `cpuBitExtractSigned_eq`: what is extracted is the field.
* `cpuBitInsert_bits`: what is inserted, and that all other bits are kept.
* `cpuBitReverse_eq`: the bits in the reverse order.
* `bitFieldLaws_iff`: **the laws hold just if no field is inserted at the end of 64 bits.**
-/

namespace OpenCLCTS.IntegerOps

open Conversions Loops

section

variable (t : CType)

/-- `<<`, in a promoted type; `none` if it is undefined. -/
def shiftLeftBy (x : BitVec t.bits) (amount : ℕ) : Option (BitVec t.bits) :=
  if amount < t.bits then some (x <<< amount) else none

/-- `>>`, in a promoted type; `none` if it is undefined. -/
def shiftRightBy (x : BitVec t.bits) (amount : ℕ) : Option (BitVec t.bits) :=
  if amount < t.bits then some (t.shiftRight x amount) else none

/-- The assertions. -/
def Fits (offset count : ℕ) : Prop := offset ≤ t.bits ∧ count ≤ t.bits ∧ offset + count ≤ t.bits

instance (offset count : ℕ) : Decidable (Fits t offset count) :=
  inferInstanceAs (Decidable (_ ∧ _ ∧ _))

/-- `mask` of `cpu_bit_insert`. -/
def insertMask (offset count : ℕ) : Option (BitVec CType.ulong.bits) :=
  if count < 64 then
    (shiftLeftBy .ulong 1 count).bind fun m => shiftLeftBy .ulong (m - 1) offset
  else some (~~~0)

/-- `cpu_bit_insert`; `none` if an assertion fails or a shift is undefined. -/
def cpuBitInsert (tbase tinsert : BitVec t.bits) (offset count : ℕ) :
    Option (BitVec (makeUnsigned t).bits) :=
  if Fits t offset count then
    let base := CType.convert t .ulong tbase
    let insert := CType.convert t .ulong tinsert
    (insertMask offset count).bind fun mask =>
      (shiftLeftBy .ulong insert offset).map fun shifted =>
        CType.convert .ulong (makeUnsigned t) ((shifted &&& mask) ||| (base &&& ~~~mask))
  else none

/-- `(s ^ x) >> count ^ s`. -/
def flipShiftFlip (s x : BitVec t.bits) (count : ℕ) : Option (BitVec t.bits) :=
  (shiftRightBy t.promoted (t.promote s ^^^ t.promote x) count).map fun r =>
    t.narrow (r ^^^ t.promote s)

/-- `arithmetic_shift_right`, for a number of the type `unsigned_t`. -/
def arithmeticShiftRight (x : BitVec t.bits) (count : ℕ) : Option (BitVec t.bits) :=
  (shiftRightBy t.promoted (t.promote x) (t.bits - 1)).bind fun high =>
    flipShiftFlip t (t.narrow (-high)) x count

/-- `base << (sizeof(T) * 8 - offset - count)`, as a number of the type `unsigned_t`. -/
def shiftedBase (tbase : BitVec t.bits) (offset count : ℕ) :
    Option (BitVec (makeUnsigned t).bits) :=
  let u := makeUnsigned t
  (shiftLeftBy u.promoted (u.promote (CType.convert t u tbase)) (t.bits - offset - count)).map
    u.narrow

/-- `cpu_bit_extract_signed`. -/
def cpuBitExtractSigned (tbase : BitVec t.bits) (offset count : ℕ) :
    Option (BitVec (makeUnsigned t).bits) :=
  if Fits t offset count then
    if count = 0 then some 0
    else (shiftedBase t tbase offset count).bind fun result =>
      arithmeticShiftRight (makeUnsigned t) result (t.bits - count)
  else none

/-- `cpu_bit_extract_unsigned`. -/
def cpuBitExtractUnsigned (tbase : BitVec t.bits) (offset count : ℕ) :
    Option (BitVec (makeUnsigned t).bits) :=
  let u := makeUnsigned t
  if Fits t offset count then
    if count = 0 then some 0
    else (shiftedBase t tbase offset count).bind fun result =>
      (shiftRightBy u.promoted (u.promote result) (t.bits - count)).map u.narrow
  else none

/-- The body of the loop of `cpu_bit_reverse`. -/
def reverseStep (base result : BitVec t.bits) (i : ℕ) : Option (BitVec t.bits) :=
  (shiftLeftBy t.promoted (t.promote 1) i).bind fun bit =>
    if t.promote base &&& bit ≠ 0 then
      (shiftLeftBy t.promoted (t.promote 1) (t.bits - i - 1)).map fun bit =>
        t.narrow (t.promote result ||| bit)
    else some result

/-- `cpu_bit_reverse`. -/
def cpuBitReverse (base : BitVec t.bits) : Option (BitVec t.bits) :=
  (List.range' 0 t.bits).foldlM (reverseStep t base) 0

/-- `offset` and `count` of `calculate_reference`, for element `i` of vectors of `n` elements; they
are of type `cl_uint`. -/
def pairOf (n i : ℕ) : ℕ × ℕ :=
  let offset := i / n / (t.bits + 1) % 2 ^ 32
  let count := i / n % (t.bits + 1) % 2 ^ 32
  (offset, if t.bits < (offset + count) % 2 ^ 32 then (t.bits + 2 ^ 64 - offset) % 2 ^ 32 else count)

end

/-! ### Promoted operations -/

section

variable {t : CType} {x y : BitVec t.bits} {offset count k : ℕ}

theorem shiftLeftBy_eq (h : k < t.bits) : shiftLeftBy t x k = some (x <<< k) := if_pos h

theorem shiftRightBy_eq (h : k < t.bits) : shiftRightBy t x k = some (t.shiftRight x k) := if_pos h

theorem narrow_shiftLeft (x : BitVec t.bits) (k : ℕ) : t.narrow (t.promote x <<< k) = x <<< k := by
  rw [CType.narrow_eq_setWidth, BitVec.setWidth_shiftLeft_of_le (CType.bits_le_promoted t),
    ← CType.narrow_eq_setWidth, CType.narrow_promote]

theorem narrow_xor (a b : BitVec t.promoted.bits) :
    t.narrow (a ^^^ b) = t.narrow a ^^^ t.narrow b := by
  simp only [CType.narrow_eq_setWidth, BitVec.setWidth_xor]

theorem shiftRight_of_unsigned (ht : t.signed = false) (x : BitVec t.bits) (k : ℕ) :
    t.shiftRight x k = x >>> k := by
  rw [CType.shiftRight, ht, if_neg Bool.false_ne_true]

theorem promote_of_unsigned (ht : t.signed = false) (x : BitVec t.bits) :
    t.promote x = x.setWidth t.promoted.bits := by
  rw [CType.promote, CType.convert, CType.value, ht, if_neg Bool.false_ne_true]
  exact (BitVec.ofInt_natCast _ _).trans (BitVec.ofNat_toNat _ x)

theorem promote_xor (ht : t.signed = false) (x y : BitVec t.bits) :
    t.promote x ^^^ t.promote y = t.promote (x ^^^ y) := by
  simp only [promote_of_unsigned ht, BitVec.setWidth_xor]

theorem neg_signBit {w : ℕ} (hw : 0 < w) (x : BitVec w) :
    -(x >>> (w - 1)) = if x.msb then BitVec.allOnes w else 0#w := by
  have hone : x >>> (w - 1) = if x.msb then 1#w else 0#w := by
    refine BitVec.eq_of_getLsbD_eq ?_
    intro i hi
    rw [BitVec.getLsbD_ushiftRight, BitVec.msb_eq_getLsbD_last]
    rcases Nat.eq_zero_or_pos i with rfl | hpos
    · rw [Nat.add_zero]
      cases x.getLsbD (w - 1)
      · simp
      · simp [hw]
    · have hout : x.getLsbD (w - 1 + i) = false := BitVec.getLsbD_of_ge x _ (by omega)
      rw [hout]
      cases x.getLsbD (w - 1) <;> simp [hpos.ne']
  rw [hone]
  split
  · exact BitVec.neg_one_eq_allOnes
  · exact BitVec.neg_zero w

/-- **Flipping the bits of negative numbers makes a shift arithmetic.** -/
theorem arithmeticShiftRight_eq (ht : t.signed = false) (x : BitVec t.bits) (hk : k < t.bits) :
    arithmeticShiftRight t x k = some (x.sshiftRight k) := by
  have hle := CType.bits_le_promoted t
  have hpos := t.bits_pos
  have hsign : t.narrow (-t.promote (x >>> (t.bits - 1)))
      = if x.msb then BitVec.allOnes t.bits else 0#t.bits := by
    rw [CType.narrow_op respects_neg (y := 0)]
    exact neg_signBit hpos x
  rw [arithmeticShiftRight, shiftRightBy_eq (by omega), Option.bind_some, CType.shiftRight_promote,
    shiftRight_of_unsigned ht, hsign, flipShiftFlip, promote_xor ht, shiftRightBy_eq (by omega),
    Option.map_some, CType.shiftRight_promote, shiftRight_of_unsigned ht, narrow_xor,
    CType.narrow_promote, CType.narrow_promote]
  cases hmsb : x.msb with
  | true =>
    rw [if_pos rfl, BitVec.sshiftRight_eq_of_msb_true hmsb, BitVec.allOnes_xor, BitVec.xor_comm,
      BitVec.allOnes_xor]
  | false =>
    rw [if_neg Bool.false_ne_true, BitVec.sshiftRight_eq_of_msb_false hmsb, BitVec.zero_xor,
      BitVec.xor_zero]

/-! ### Extraction -/

theorem makeUnsigned_bits (t : CType) : (makeUnsigned t).bits = t.bits := by
  cases t <;> rfl

theorem makeUnsigned_signed (t : CType) : (makeUnsigned t).signed = false := by
  cases t <;> rfl

theorem fits_iff : Fits t offset count ↔ offset + count ≤ t.bits := by
  rw [Fits]
  omega

theorem getLsbD_toUnsigned (hk : k < t.bits) (x : BitVec t.bits) :
    (CType.convert t (makeUnsigned t) x).getLsbD k = x.getLsbD k :=
  CType.getLsbD_convert hk (by rwa [makeUnsigned_bits]) x

theorem shiftedBase_eq (hcount : 0 < count) (hfits : offset + count ≤ t.bits) (v : BitVec t.bits) :
    shiftedBase t v offset count
      = some (CType.convert t (makeUnsigned t) v <<< (t.bits - offset - count)) := by
  have hle := CType.bits_le_promoted (makeUnsigned t)
  rw [makeUnsigned_bits] at hle
  rw [shiftedBase, shiftLeftBy_eq (by omega), Option.map_some, narrow_shiftLeft]

/-- The base is shifted to the upper end: bit `i` of the field is bit `w - count + i`. -/
theorem getLsbD_shifted (hfits : offset + count ≤ t.bits) (v : BitVec t.bits)
    {i : ℕ} (hi : i < count) :
    (CType.convert t (makeUnsigned t) v <<< (t.bits - offset - count)).getLsbD (t.bits - count + i)
      = v.getLsbD (offset + i) := by
  have hbits := makeUnsigned_bits t
  rw [BitVec.getLsbD_shiftLeft, show t.bits - count + i - (t.bits - offset - count) = offset + i by
    omega, getLsbD_toUnsigned (by omega)]
  simp [hbits, show t.bits - count + i < t.bits by omega,
    show t.bits - offset - count ≤ t.bits - count + i by omega]

/-- **`cpu_bit_extract_unsigned` returns the field.** -/
theorem cpuBitExtractUnsigned_eq (hfits : offset + count ≤ t.bits) (v : BitVec t.bits) :
    cpuBitExtractUnsigned t v offset count
      = some ((v.extractLsb' offset count).setWidth (makeUnsigned t).bits) := by
  rw [cpuBitExtractUnsigned, if_pos (fits_iff.mpr hfits)]
  split
  · rename_i hzero
    subst hzero
    simp
  · rename_i hne
    have hbits := makeUnsigned_bits t
    have hle := CType.bits_le_promoted (makeUnsigned t)
    rw [shiftedBase_eq (Nat.pos_of_ne_zero hne) hfits, Option.bind_some,
      shiftRightBy_eq (by omega), Option.map_some, CType.shiftRight_promote, CType.narrow_promote,
      shiftRight_of_unsigned (makeUnsigned_signed t), Option.some_inj]
    refine BitVec.eq_of_getLsbD_eq ?_
    intro i hi
    rw [BitVec.getLsbD_ushiftRight, BitVec.getLsbD_setWidth, BitVec.getLsbD_extractLsb']
    by_cases hcount : i < count
    · rw [getLsbD_shifted hfits v hcount]
      simp [hi, hcount]
    · rw [BitVec.getLsbD_of_ge _ _ (by omega)]
      simp [hcount]

/-- **`cpu_bit_extract_signed` returns the field with its sign.** -/
theorem cpuBitExtractSigned_eq (hfits : offset + count ≤ t.bits) (v : BitVec t.bits) :
    cpuBitExtractSigned t v offset count
      = some ((v.extractLsb' offset count).signExtend (makeUnsigned t).bits) := by
  rw [cpuBitExtractSigned, if_pos (fits_iff.mpr hfits)]
  split
  · rename_i hzero
    subst hzero
    rw [Option.some_inj]
    refine BitVec.eq_of_getLsbD_eq ?_
    intro i hi
    rw [BitVec.getLsbD_signExtend]
    simp
  · rename_i hne
    have hbits := makeUnsigned_bits t
    have hpos := Nat.pos_of_ne_zero hne
    rw [shiftedBase_eq hpos hfits, Option.bind_some,
      arithmeticShiftRight_eq (makeUnsigned_signed t) _ (by omega), Option.some_inj]
    refine BitVec.eq_of_getLsbD_eq ?_
    intro i hi
    have hsign : (CType.convert t (makeUnsigned t) v <<< (t.bits - offset - count)).msb
        = v.getLsbD (offset + (count - 1)) := by
      rw [BitVec.msb_eq_getLsbD_last, ← getLsbD_shifted hfits v (i := count - 1) (by omega),
        show t.bits - count + (count - 1) = (makeUnsigned t).bits - 1 by omega]
    rw [BitVec.getLsbD_sshiftRight, BitVec.getLsbD_signExtend, hsign, BitVec.msb_eq_getLsbD_last,
      BitVec.getLsbD_extractLsb', BitVec.getLsbD_extractLsb']
    have hin : ¬ (makeUnsigned t).bits ≤ i := not_le.mpr hi
    by_cases hcount : i < count
    · rw [if_pos (by omega), if_pos hcount, getLsbD_shifted hfits v hcount]
      simp [hi, hin, hcount]
    · rw [if_neg (by omega), if_neg hcount]
      simp [hi, hin, hpos]

/-! ### Insertion -/

theorem bits_le_ulong (t : CType) : t.bits ≤ CType.ulong.bits := by
  cases t <;> decide

theorem getLsbD_lowBits (hcount : count < 64) (k : ℕ) :
    ((1 : BitVec 64) <<< count - 1).getLsbD k = decide (k < count) := by
  have hlt : 2 ^ count < 2 ^ 64 := Nat.pow_lt_pow_right (by decide) hcount
  have hone : ((1 : BitVec 64) <<< count).toNat = 2 ^ count := by
    rw [BitVec.toNat_shiftLeft, show (1 : BitVec 64).toNat = 1 from rfl, Nat.one_shiftLeft,
      Nat.mod_eq_of_lt hlt]
  have hle : (1 : BitVec 64) ≤ (1 : BitVec 64) <<< count := by
    rw [BitVec.le_def, hone]
    exact Nat.one_le_two_pow
  rw [← BitVec.testBit_toNat, BitVec.toNat_sub_of_le hle, hone]
  exact Nat.testBit_two_pow_sub_one ..

/-- **The mask covers the field.** -/
theorem insertMask_bits (hoffset : offset < 64) (hfits : offset + count ≤ 64) :
    ∃ mask, insertMask offset count = some mask ∧
      ∀ k < 64, mask.getLsbD k = decide (offset ≤ k ∧ k < offset + count) := by
  rw [insertMask]
  split
  · rename_i hcount
    refine ⟨_, by rw [shiftLeftBy_eq hcount, Option.bind_some]; exact shiftLeftBy_eq hoffset, ?_⟩
    intro k hk
    have hbits : k < CType.ulong.bits := hk
    have hlow : ((1 : BitVec CType.ulong.bits) <<< count - 1).getLsbD (k - offset)
        = decide (k - offset < count) := getLsbD_lowBits hcount _
    rw [BitVec.getLsbD_shiftLeft, hlow, decide_eq_true hbits, Bool.eq_iff_iff]
    simp only [Bool.and_eq_true, Bool.not_eq_true', decide_eq_true_eq, decide_eq_false_iff_not,
      true_and]
    omega
  · refine ⟨_, rfl, ?_⟩
    intro k hk
    have hbits : k < CType.ulong.bits := hk
    have hone : (~~~(0 : BitVec CType.ulong.bits)).getLsbD k = true := by
      rw [BitVec.getLsbD_not, decide_eq_true hbits]
      simp
    rw [hone, eq_comm, decide_eq_true_eq]
    omega

/-- **`cpu_bit_insert` replaces the field and keeps all other bits.** -/
theorem cpuBitInsert_bits (hoffset : offset < 64) (hfits : offset + count ≤ t.bits)
    (base insert : BitVec t.bits) : ∃ r, cpuBitInsert t base insert offset count = some r ∧
      ∀ k < t.bits, r.getLsbD k
        = if offset ≤ k ∧ k < offset + count then insert.getLsbD (k - offset)
          else base.getLsbD k := by
  have hle := bits_le_ulong t
  have hwide : CType.ulong.bits = 64 := rfl
  have hfits' : offset + count ≤ 64 := by omega
  obtain ⟨mask, hmask, hbits⟩ := insertMask_bits hoffset hfits'
  rw [cpuBitInsert, if_pos (fits_iff.mpr hfits), hmask]
  refine ⟨_, by rw [Option.bind_some, shiftLeftBy_eq (by omega), Option.map_some], ?_⟩
  intro k hk
  rw [CType.getLsbD_convert (by omega) (by rwa [makeUnsigned_bits]), BitVec.getLsbD_or,
    BitVec.getLsbD_and, BitVec.getLsbD_and, BitVec.getLsbD_not, hbits k (by omega),
    CType.getLsbD_convert hk (by omega), BitVec.getLsbD_shiftLeft]
  by_cases hin : offset ≤ k ∧ k < offset + count
  · rw [CType.getLsbD_convert (by omega) (by omega)]
    simp [hin, show k < CType.ulong.bits by omega]
  · simp [hin, show k < CType.ulong.bits by omega]

/-! ### Reversal -/

theorem promote_one (t : CType) : t.promote 1 = 1#t.promoted.bits := by
  cases t <;> decide

theorem and_bit_ne_zero_iff {i : ℕ} (hi : i < t.bits) (v : BitVec t.bits) :
    t.promote v &&& t.promote 1 <<< i ≠ 0 ↔ v.getLsbD i = true := by
  have hle := CType.bits_le_promoted t
  have hbit : (t.promote v).getLsbD i = v.getLsbD i := CType.getLsbD_convert hi (by omega) v
  rw [promote_one, ← BitVec.twoPow_eq, BitVec.and_twoPow, hbit]
  cases v.getLsbD i with
  | true =>
    refine iff_of_true (fun hzero => ?_) rfl
    have hset := congrArg (fun x => x.getLsbD i) hzero
    rw [if_pos rfl] at hset
    simp [BitVec.getLsbD_twoPow] at hset
    omega
  | false => simp

/-- A turn of the loop sets bit `w - i - 1` if bit `i` is set. -/
theorem reverseStep_bits {i : ℕ} (hi : i < t.bits) (v result : BitVec t.bits) :
    ∃ r, reverseStep t v result i = some r ∧
      ∀ k < t.bits, r.getLsbD k = (result.getLsbD k || (v.getLsbD i && decide (k = t.bits - i - 1))) := by
  have hle := CType.bits_le_promoted t
  rw [reverseStep, shiftLeftBy_eq (by omega), Option.bind_some]
  by_cases hset : v.getLsbD i = true
  · rw [if_pos ((and_bit_ne_zero_iff hi v).mpr hset), shiftLeftBy_eq (by omega), Option.map_some]
    refine ⟨_, rfl, ?_⟩
    intro k hk
    have hbit : (t.narrow (t.promote 1 <<< (t.bits - i - 1))).getLsbD k
        = decide (k = t.bits - i - 1) := by
      rw [narrow_shiftLeft]
      show ((1#t.bits) <<< (t.bits - i - 1)).getLsbD k = _
      rw [← BitVec.twoPow_eq, BitVec.getLsbD_twoPow, Bool.eq_iff_iff]
      simp only [Bool.and_eq_true, decide_eq_true_eq]
      omega
    rw [CType.narrow_eq_setWidth, BitVec.setWidth_or, BitVec.getLsbD_or, ← CType.narrow_eq_setWidth,
      ← CType.narrow_eq_setWidth, CType.narrow_promote, hbit, hset, Bool.true_and]
  · rw [if_neg (mt (and_bit_ne_zero_iff hi v).mp hset)]
    refine ⟨_, rfl, ?_⟩
    intro k hk
    simp [hset]

/-- **`cpu_bit_reverse` reverses the bits.** -/
theorem cpuBitReverse_eq (v : BitVec t.bits) : cpuBitReverse t v = some v.reverse := by
  let I (i : ℕ) (result : BitVec t.bits) : Prop :=
    ∀ k < t.bits, result.getLsbD k = (decide (t.bits - i ≤ k) && v.getLsbD (t.bits - 1 - k))
  have hstep : ∀ i s, 0 ≤ i → i < 0 + t.bits → I i s →
      ∃ r, reverseStep t v s i = some r ∧ I (i + 1) r := by
    intro i s _ hi hI
    obtain ⟨r, hr, hbits⟩ := reverseStep_bits (i := i) (by omega) v s
    refine ⟨r, hr, ?_⟩
    intro k hk
    rw [hbits k hk, hI k hk]
    by_cases heq : k = t.bits - i - 1
    · subst heq
      have hsame : t.bits - 1 - (t.bits - i - 1) = i := by omega
      have hnot : ¬ t.bits - i ≤ t.bits - i - 1 := by omega
      have hnew : t.bits - (i + 1) ≤ t.bits - i - 1 := by omega
      rw [hsame]
      simp [hnot, hnew]
    · have hiff : t.bits - i ≤ k ↔ t.bits - (i + 1) ≤ k := by omega
      simp [heq, hiff]
  have hzero : I 0 0 := by
    intro k hk
    simp [hk]
  obtain ⟨result, hresult, hI⟩ := foldlM_total hstep hzero
  rw [Nat.zero_add] at hI
  rw [cpuBitReverse, hresult, Option.some_inj]
  refine BitVec.eq_of_getLsbD_eq ?_
  intro k hk
  rw [hI k hk, BitVec.getLsbD_reverse, BitVec.getMsbD_eq_getLsbD]
  simp [hk]

/-! ### The laws -/

/-- The pairs that `calculate_reference` produces, up to the end of the type. -/
def Produced (t : CType) (offset count : ℕ) : Prop :=
  offset ≤ t.bits ∧ ∃ n i, 0 < n ∧ pairOf t n i = (offset, count)

theorem produced_iff : Produced t offset count ↔ offset + count ≤ t.bits := by
  have hwidth : t.bits ≤ 64 := bits_le_ulong t
  constructor
  · rintro ⟨hle, n, i, -, hpair⟩
    rw [pairOf, Prod.mk.injEq] at hpair
    obtain ⟨hoffset, hcount⟩ := hpair
    have hmod : i / n % (t.bits + 1) < t.bits + 1 := Nat.mod_lt _ (Nat.succ_pos _)
    rw [hoffset] at hcount
    split at hcount
    · omega
    · omega
  · intro hfits
    refine ⟨by omega, 1, offset * (t.bits + 1) + count, Nat.one_pos, ?_⟩
    have hdiv : (offset * (t.bits + 1) + count) / 1 / (t.bits + 1) = offset := by
      rw [Nat.div_one, Nat.mul_comm, Nat.mul_add_div (Nat.succ_pos _), Nat.div_eq_of_lt (by omega),
        Nat.add_zero]
    have hmod : (offset * (t.bits + 1) + count) / 1 % (t.bits + 1) = count := by
      rw [Nat.div_one, Nat.mul_comm, Nat.mul_add_mod, Nat.mod_eq_of_lt (by omega)]
    rw [pairOf, hdiv, hmod, Nat.mod_eq_of_lt (show offset < 2 ^ 32 by omega),
      Nat.mod_eq_of_lt (show count < 2 ^ 32 by omega), if_neg]
    rw [Nat.mod_eq_of_lt (by omega)]
    omega

/-- The laws of the references for a field, with all shifts defined. -/
structure BitFieldLaws (t : CType) (offset count : ℕ) (base insert v : BitVec t.bits) : Prop where
  /-- The field is replaced, all other bits are kept, and the field is what was inserted. -/
  inserted : ∃ r, cpuBitInsert t base insert offset count = some r ∧
    (∀ k < t.bits, r.getLsbD k
      = if offset ≤ k ∧ k < offset + count then insert.getLsbD (k - offset) else base.getLsbD k) ∧
    cpuBitExtractUnsigned t (CType.convert (makeUnsigned t) t r) offset count
      = some ((insert.setWidth count).setWidth (makeUnsigned t).bits) ∧
    cpuBitExtractSigned t (CType.convert (makeUnsigned t) t r) offset count
      = some ((insert.setWidth count).signExtend (makeUnsigned t).bits)
  /-- Nothing is extracted from an empty field. -/
  empty : count = 0 → cpuBitExtractUnsigned t v offset count = some 0 ∧
    cpuBitExtractSigned t v offset count = some 0
  /-- A reversal is undone by another one, and reverses the fields. -/
  reversed : ∃ r, cpuBitReverse t v = some r ∧ cpuBitReverse t r = some v ∧
    cpuBitExtractUnsigned t r offset count
      = some ((v.extractLsb' (t.bits - offset - count) count).reverse.setWidth _) ∧
    cpuBitExtractSigned t r offset count
      = some ((v.extractLsb' (t.bits - offset - count) count).reverse.signExtend _)

theorem extractLsb'_reverse (hfits : offset + count ≤ t.bits) (v : BitVec t.bits) :
    v.reverse.extractLsb' offset count
      = (v.extractLsb' (t.bits - offset - count) count).reverse := by
  refine BitVec.eq_of_getLsbD_eq ?_
  intro k hk
  rw [BitVec.getLsbD_extractLsb', BitVec.getLsbD_reverse, BitVec.getLsbD_reverse,
    BitVec.getMsbD_eq_getLsbD, BitVec.getMsbD_eq_getLsbD, BitVec.getLsbD_extractLsb',
    show t.bits - offset - count + (count - 1 - k) = t.bits - 1 - (offset + k) by omega]
  simp [hk, show offset + k < t.bits by omega, show count - 1 - k < count by omega]

/-- **The laws hold just if the field does not start at the end of 64 bits.** -/
theorem bitFieldLaws_iff (h : Produced t offset count) (base insert v : BitVec t.bits) :
    BitFieldLaws t offset count base insert v ↔ ¬ (t.bits = 64 ∧ offset = 64) := by
  have hwidth : t.bits ≤ 64 := bits_le_ulong t
  have hfits := produced_iff.mp h
  constructor
  · rintro hlaws ⟨hbits, hoffset⟩
    obtain ⟨r, hr, -⟩ := hlaws.inserted
    have hcount : count = 0 := by omega
    subst hoffset hcount
    rw [cpuBitInsert, if_pos (fits_iff.mpr hfits)] at hr
    cases hr
  · intro hne
    have hoffset : offset < 64 := by omega
    obtain ⟨r, hr, hbits⟩ := cpuBitInsert_bits hoffset hfits base insert
    have hfield : (CType.convert (makeUnsigned t) t r).extractLsb' offset count
        = insert.setWidth count := by
      refine BitVec.eq_of_getLsbD_eq ?_
      intro k hk
      rw [BitVec.getLsbD_extractLsb', BitVec.getLsbD_setWidth,
        CType.getLsbD_convert (by rw [makeUnsigned_bits]; omega) (by omega), hbits _ (by omega),
        if_pos (by omega), Nat.add_sub_cancel_left]
    refine ⟨⟨r, hr, hbits, ?_, ?_⟩, ?_, ⟨v.reverse, cpuBitReverse_eq v, ?_, ?_, ?_⟩⟩
    · rw [cpuBitExtractUnsigned_eq hfits, hfield]
    · rw [cpuBitExtractSigned_eq hfits, hfield]
    · intro hzero
      subst hzero
      constructor
      · rw [cpuBitExtractUnsigned, if_pos (fits_iff.mpr hfits), if_pos rfl]
      · rw [cpuBitExtractSigned, if_pos (fits_iff.mpr hfits), if_pos rfl]
    · rw [cpuBitReverse_eq, BitVec.reverse_reverse_eq]
    · rw [cpuBitExtractUnsigned_eq hfits, extractLsb'_reverse hfits]
    · rw [cpuBitExtractSigned_eq hfits, extractLsb'_reverse hfits]

end

/-- A field in the middle of a byte. -/
theorem bitFieldLaws_schar : BitFieldLaws .schar 3 4 (-91) 6 (-91) :=
  (bitFieldLaws_iff (produced_iff.mpr (by decide)) _ _ _).mpr (by decide)

/-- The last pair of a type of 64 bits. -/
theorem bitFieldLaws_fail : Produced .ulong 64 0 ∧
    ¬ BitFieldLaws .ulong 64 0 0xa5a5a5a5a5a5a5a5 1 0 := by
  refine ⟨⟨by decide, 1, 4160, by decide⟩, ?_⟩
  intro hlaws
  obtain ⟨r, hr, -⟩ := hlaws.inserted
  have hnone : cpuBitInsert .ulong 0xa5a5a5a5a5a5a5a5 1 64 0 = none := by decide
  rw [hnone] at hr
  cases hr

end OpenCLCTS.IntegerOps
