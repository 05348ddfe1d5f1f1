import OpenCLCTS.Images.PackFloat

/-!
# Packing floats into integer channels

What `pack_image_pixel` stores for the integer types is compared with the nearest integer, cut off
at the limits of the type.

* `integerAt_pack`: the integers that are stored.
* `packInteger_iff`: when they are the nearest ones.
-/

namespace OpenCLCTS.Images

open Binary32 Memory FloatFormat

/-- The limits of the integer types. -/
def integerLimits : ChannelType → Option (ℤ × ℤ)
  | .signedInt8 => some (-128, 127)
  | .signedInt16 => some (-32768, 32767)
  | .signedInt32 => some (-2147483648, 2147483647)
  | .unsignedInt8 => some (0, 255)
  | .unsignedInt16 => some (0, 65535)
  | .unsignedInt32 => some (0, 4294967295)
  | _ => none

/-- The integer in channel `i` of a pixel at `a`. -/
def integerAt (type : ChannelType) (mem : ℕ → Byte) (a i : ℕ) : ℤ :=
  match type with
  | .signedInt8 => (load mem 1 (a + i * 1)).toInt
  | .signedInt16 => (load mem 2 (a + i * 2)).toInt
  | .signedInt32 => (load mem 4 (a + i * 4)).toInt
  | .unsignedInt8 => (load mem 1 (a + i * 1)).toNat
  | .unsignedInt16 => (load mem 2 (a + i * 2)).toNat
  | .unsignedInt32 => (load mem 4 (a + i * 4)).toNat
  | _ => 0

/-- The integer that a number becomes: the least one of the signed types is left out, and the
types without a sign have one limit for the comparison and another one for the result. -/
def packedInteger (type : ChannelType) (q : ℚ) : ℤ :=
  match type with
  | .signedInt8 => max (-127) (min 127 (nearest q))
  | .signedInt16 => max (-32767) (min 32767 (nearest q))
  | .signedInt32 => max (-2147483648) (min 2147483647 (nearest q))
  | .unsignedInt8 => max 0 (min 255 (nearest q))
  | .unsignedInt16 => if 32767 < q then 65535 else max 0 (nearest q)
  | .unsignedInt32 =>
    if 4294967040 < q then 4294967295 else max 0 (min 2147483647 (nearest q))
  | _ => 0

/-- When the integer is the nearest one that the type has. -/
def RoundsToNearest (type : ChannelType) (q : ℚ) : Prop :=
  match type with
  | .signedInt8 => -255 / 2 < q
  | .signedInt16 => -65535 / 2 < q
  | .unsignedInt16 => q ≤ 32767 ∨ 131069 / 2 < q
  | .unsignedInt32 => q < 2147483648 ∨ 4294967040 < q
  | _ => True

variable {undefined : Binary32 → ℤ} {q : ℚ} {t : ℤ}

/-! ### The macros -/

/-- **`CONVERT_INT` with limits that differ by the sign.** -/
theorem convertInt_eq (ht : 0 ≤ t) (ht' : t < 2 ^ 22) {lo hi : ℚ} (hlo : lo = (-t : ℤ))
    (hhi : hi = t) : convertInt undefined (.finite q) (.finite lo) (.finite hi) t
      = .finite (max (-t) (min t (nearest q)) : ℤ) := by
  have hofInt : ∀ n : ℤ, |n| ≤ t → ofInt n = .finite n := fun n hn => ofInt_eq (by omega)
  rw [convertInt]
  by_cases hlt : q < lo
  · have hle : nearest q ≤ -t := nearest_le_of_le (by rw [← hlo]; exact hlt.le)
    rw [if_pos (show (Binary32.finite q).lt (.finite lo) = true from decide_eq_true hlt),
      min_eq_right (by omega), max_eq_left hle, hlo]
  · have hge : -t ≤ nearest q := le_nearest_of_le (by rw [← hlo]; exact not_lt.mp hlt)
    rw [if_neg (by simpa [Binary32.lt] using hlt)]
    by_cases hgt : hi < q
    · have hle : t ≤ nearest q := le_nearest_of_le (by rw [← hhi]; exact hgt.le)
      rw [if_pos (show (Binary32.finite hi).lt (.finite q) = true from decide_eq_true hgt),
        min_eq_left hle, max_eq_right (by omega), hofInt t (abs_of_nonneg ht).le]
    · have hle : nearest q ≤ t := nearest_le_of_le (by rw [← hhi]; exact not_lt.mp hgt)
      have hsmall : |q| < 2 ^ 23 := by
        have htq : (t : ℚ) < 2 ^ 22 := by exact_mod_cast ht'
        rw [hlo] at hlt
        rw [hhi] at hgt
        push_cast at hlt
        rw [abs_lt]
        constructor <;> linarith
      rw [if_neg (by simpa [Binary32.lt] using hgt), roundToEven_of_lt undefined hsmall,
        min_eq_right hle, max_eq_right hge, hofInt _ (abs_le.mpr ⟨hge, hle⟩)]

theorem convertUint_eq (hq : binary32.Number q) {limit : ℚ} {n : ℤ}
    (hlimit : 0 ≤ limit) :
    convertUint undefined (.finite q) (.finite limit) n
      = if limit < q then n else max 0 (min 2147483647 (nearest q)) := by
  rw [convertUint, roundToEven_eq undefined hq]
  by_cases hneg : q < 0
  · have hle : nearest q ≤ 0 := nearest_le_of_le (by exact_mod_cast hneg.le)
    rw [if_pos (show (Binary32.finite q).lt (.finite 0) = true from decide_eq_true hneg),
      if_neg (by linarith)]
    omega
  · have hge : 0 ≤ nearest q := le_nearest_of_le (by exact_mod_cast not_lt.mp hneg)
    rw [if_neg (by simpa [Binary32.lt] using hneg)]
    by_cases hgt : limit < q
    · rw [if_pos (show (Binary32.finite limit).lt (.finite q) = true from decide_eq_true hgt),
        if_pos hgt]
    · rw [if_neg (by simpa [Binary32.lt] using hgt), if_neg hgt]
      omega

theorem toNat_convertUint (undefined : Binary32 → ℤ) {w : ℕ} (hq : binary32.Number q) {limit : ℚ}
    (hlimit : 0 ≤ limit) (hle : limit ≤ t) (ht : t < 2 ^ w) :
    ((BitVec.ofInt w (convertUint undefined (.finite q) (.finite limit) t)).toNat : ℤ)
      = convertUint undefined (.finite q) (.finite limit) t := by
  have ht0 : 0 ≤ t := by exact_mod_cast hlimit.trans hle
  rw [convertUint_eq hq hlimit]
  split
  · exact toNat_ofInt_of_mem ht0 ht
  · rename_i h
    have hnear : nearest q ≤ t := nearest_le_of_le ((not_lt.mp h).trans hle)
    exact toNat_ofInt_of_mem (by omega) (by omega)

/-! ### The channels -/

variable {fns : FloatFunctions} {v : Fin 4 → BitVec 32} {format : ImageFormat} {mem : ℕ → Byte}
  {a i : ℕ}

theorem load_of_each {w n : ℕ} {f : Binary32 → BitVec (8 * w)} {packed : Packed (BitVec 32)}
    (h : some ⟨v, storeEach n (fun i => f (ofBits (v (Fin.ofNat 4 i)))) mem a⟩ = some packed)
    (hi : i < n) (hq : ofBits (packed.srcVector (Fin.ofNat 4 i)) = .finite q) :
    load packed.mem w (a + i * w) = f (.finite q) := by
  obtain rfl := Option.some.inj h
  rw [load_storeEach hi]
  exact congrArg f hq

/-- **The integers that are stored.** -/
theorem integerAt_pack {limits : ℤ × ℤ} (htype : integerLimits format.channelDataType = some limits)
    {packed : Packed (BitVec 32)} (h : packImagePixelFloat fns v format mem a = some packed)
    (hi : i < getFormatChannelCount format)
    (hq : ofBits (packed.srcVector (Fin.ofNat 4 i)) = .finite q) (hnumber : binary32.Number q) :
    integerAt format.channelDataType packed.mem a i = packedInteger format.channelDataType q := by
  obtain ⟨order, type⟩ := format
  cases type
  case signedInt8 =>
    have hload := load_of_each (w := 1) (f := fun x => castTo fns 8 (-128) 127
      (convertInt fns.undefined x (.finite (-127)) (.finite 127) 127)) h hi hq
    have hpack : convertInt fns.undefined (.finite q) (.finite (-127)) (.finite 127) 127
        = .finite (max (-127) (min 127 (nearest q)) : ℤ) :=
      convertInt_eq (by norm_num) (by norm_num) (by norm_num) (by norm_num)
    simp only [integerAt, packedInteger, hload, hpack]
    rw [castTo_of_mem (by omega) (by omega), toInt_ofInt_of_mem (by omega) (by omega)]
  case signedInt16 =>
    have hload := load_of_each (w := 2) (f := fun x => castTo fns 16 (-32768) 32767
      (convertInt fns.undefined x (.finite (-32767)) (.finite 32767) 32767)) h hi hq
    have hpack : convertInt fns.undefined (.finite q) (.finite (-32767)) (.finite 32767) 32767
        = .finite (max (-32767) (min 32767 (nearest q)) : ℤ) :=
      convertInt_eq (by norm_num) (by norm_num) (by norm_num) (by norm_num)
    simp only [integerAt, packedInteger, hload, hpack]
    rw [castTo_of_mem (by omega) (by omega), toInt_ofInt_of_mem (by omega) (by omega)]
  case signedInt32 =>
    have hload := load_of_each (w := 4) (f := fun x => BitVec.ofInt 32 (roundToEven fns.undefined x))
      h hi hq
    simp only [integerAt, packedInteger, hload, roundToEven_eq _ hnumber]
    rw [toInt_ofInt_of_mem (by omega) (by omega)]
    norm_num
  case unsignedInt8 =>
    have hload := load_of_each (w := 1)
      (f := fun x => BitVec.ofInt 8 (convertUint fns.undefined x (.finite 255) 255)) h hi hq
    have hstored := toNat_convertUint fns.undefined (w := 8) (t := 255) hnumber
      (show (0 : ℚ) ≤ 255 by norm_num) (by norm_num) (by norm_num)
    have hle : ¬ 255 < q → nearest q ≤ 255 := fun hle =>
      nearest_le_of_le (by exact_mod_cast not_lt.mp hle)
    have hge : 255 < q → 255 ≤ nearest q := fun hgt => le_nearest_of_le (by exact_mod_cast hgt.le)
    simp only [integerAt, packedInteger, hload]
    rw [hstored, convertUint_eq hnumber (by norm_num)]
    split
    · rename_i hgt
      have := hge hgt
      omega
    · rename_i hgt
      have := hle hgt
      omega
  case unsignedInt16 =>
    have hload := load_of_each (w := 2)
      (f := fun x => BitVec.ofInt 16 (convertUint fns.undefined x (.finite 32767) 65535)) h hi hq
    have hstored := toNat_convertUint fns.undefined (w := 16) (t := 65535) hnumber
      (show (0 : ℚ) ≤ 32767 by norm_num) (by norm_num) (by norm_num)
    have hle : ¬ 32767 < q → nearest q ≤ 32767 := fun hle =>
      nearest_le_of_le (by exact_mod_cast not_lt.mp hle)
    simp only [integerAt, packedInteger, hload]
    rw [hstored, convertUint_eq hnumber (by norm_num)]
    split
    · rfl
    · rename_i hgt
      have := hle hgt
      omega
  case unsignedInt32 =>
    have hload := load_of_each (w := 4)
      (f := fun x => BitVec.ofInt 32 (convertUint fns.undefined x (.finite 4294967040) 4294967295))
      h hi hq
    have hstored := toNat_convertUint fns.undefined (w := 32) (t := 4294967295) hnumber
      (show (0 : ℚ) ≤ 4294967040 by norm_num) (by norm_num) (by norm_num)
    simp only [integerAt, packedInteger, hload]
    rw [hstored, convertUint_eq hnumber (by norm_num)]
  all_goals cases htype

/-! ### The nearest integers -/

theorem le_nearest_iff {n : ℤ} (hodd : n % 2 = 1) : n ≤ nearest q ↔ (n : ℚ) - 1 / 2 < q := by
  rw [← not_lt, ← Int.le_sub_one_iff, nearest_le_iff, not_or, not_lt, not_and]
  push_cast
  constructor
  · rintro ⟨hle, h⟩
    refine lt_of_le_of_ne (by linarith) fun heq => h (by linarith) (by omega)
  · intro hlt
    exact ⟨by linarith, fun heq => by linarith⟩

/-- The floats above the greatest one below `2 ^ 32` are not below `2 ^ 32`. -/
theorem le_of_above (hnumber : binary32.Number q) (h : 4294967040 < q) : 4294967296 ≤ q := by
  obtain ⟨m, e, _, hm, rfl⟩ := hnumber
  have hm' : (m : ℚ) ≤ 2 ^ 24 - 1 := by
    have hle : m ≤ 2 ^ 24 - 1 := by
      have := (abs_lt.mp hm).2
      rw [show binary32.mantissaBits + 1 = 24 from rfl] at this
      omega
    exact_mod_cast hle
  by_cases he : e ≤ 8
  · have hpow : (2 : ℚ) ^ e ≤ 2 ^ (8 : ℤ) := zpow_le_zpow_right₀ one_le_two he
    have hpos := two_zpow_pos e
    have hle : (m : ℚ) * 2 ^ e ≤ (2 ^ 24 - 1) * 2 ^ (8 : ℤ) := by
      calc (m : ℚ) * 2 ^ e ≤ (2 ^ 24 - 1) * 2 ^ e := mul_le_mul_of_nonneg_right hm' hpos.le
        _ ≤ (2 ^ 24 - 1) * 2 ^ (8 : ℤ) := mul_le_mul_of_nonneg_left hpow (by norm_num)
    norm_num at hle
    linarith
  · -- multiples of 512
    obtain ⟨d, rfl⟩ : ∃ d : ℕ, e = 9 + d := ⟨(e - 9).toNat, by omega⟩
    have hint : (m : ℚ) * 2 ^ ((9 : ℤ) + d) = ((512 * (m * 2 ^ d) : ℤ) : ℚ) := by
      rw [zpow_add₀ two_ne_zero, zpow_natCast]
      push_cast
      ring
    rw [hint] at h ⊢
    have h' : 4294967040 < 512 * (m * 2 ^ d) := by exact_mod_cast h
    have hle : 4294967296 ≤ 512 * (m * 2 ^ d) := by omega
    exact_mod_cast hle

/-- **When what is stored is the nearest integer of the type.** -/
theorem packedInteger_eq_iff {type : ChannelType} {lo hi : ℤ}
    (htype : integerLimits type = some (lo, hi)) (hnumber : binary32.Number q) :
    packedInteger type q = max lo (min hi (nearest q)) ↔ RoundsToNearest type q := by
  cases type
  case signedInt8 =>
    obtain ⟨rfl, rfl⟩ := Prod.mk.inj (Option.some.inj htype)
    have hiff : (-127 ≤ nearest q) ↔ -255 / 2 < q := by
      rw [le_nearest_iff (by norm_num)]
      norm_num
    rw [packedInteger, RoundsToNearest, ← hiff]
    omega
  case signedInt16 =>
    obtain ⟨rfl, rfl⟩ := Prod.mk.inj (Option.some.inj htype)
    have hiff : (-32767 ≤ nearest q) ↔ -65535 / 2 < q := by
      rw [le_nearest_iff (by norm_num)]
      norm_num
    rw [packedInteger, RoundsToNearest, ← hiff]
    omega
  case signedInt32 =>
    obtain ⟨rfl, rfl⟩ := Prod.mk.inj (Option.some.inj htype)
    exact iff_of_true rfl trivial
  case unsignedInt8 =>
    obtain ⟨rfl, rfl⟩ := Prod.mk.inj (Option.some.inj htype)
    exact iff_of_true rfl trivial
  case unsignedInt16 =>
    obtain ⟨rfl, rfl⟩ := Prod.mk.inj (Option.some.inj htype)
    have hiff : (65535 ≤ nearest q) ↔ 131069 / 2 < q := by
      rw [le_nearest_iff (by norm_num)]
      norm_num
    have hle : q ≤ 32767 → nearest q ≤ 32767 := fun hle => nearest_le_of_le (by exact_mod_cast hle)
    rw [packedInteger, RoundsToNearest, ← hiff, ← not_lt]
    split
    · rename_i h
      simp only [h, not_true_eq_false, false_or]
      omega
    · rename_i h
      have := hle (not_lt.mp h)
      simp only [h, not_false_eq_true, true_or, iff_true]
      omega
  case unsignedInt32 =>
    obtain ⟨rfl, rfl⟩ := Prod.mk.inj (Option.some.inj htype)
    rw [packedInteger, RoundsToNearest]
    split
    · rename_i h
      have hge : 4294967296 ≤ nearest q := le_nearest_of_le (by exact_mod_cast le_of_above hnumber h)
      exact iff_of_true (by omega) (.inr h)
    · rename_i h
      simp only [h, or_false]
      by_cases hlt : q < 2147483648
      · -- floats below `2 ^ 31` are not rounded to it
        have hle : nearest q ≤ 2147483647 := by
          rcases hnumber.cases with ⟨n, rfl⟩ | hsmall
          · have hn : n < 2147483648 := by exact_mod_cast hlt
            rw [nearest_intCast]
            omega
          · have hsmall' : |q| < 2 ^ 23 := hsmall
            have := (abs_lt.mp hsmall').2
            exact nearest_le_of_le (by push_cast; linarith)
        exact iff_of_true (by omega) hlt
      · have hge : 2147483648 ≤ nearest q := le_nearest_of_le (by exact_mod_cast not_lt.mp hlt)
        exact iff_of_false (by omega) hlt
  all_goals cases htype

/-! ### Pixels -/

theorem swizzle_forall {T : Type} {P : T → Prop} {v : Fin 4 → T} (h : ∀ c, P (v c))
    (order : ChannelOrder) (c : Fin 4) : P (swizzleVectorForImage v order c) := by
  have hupdate : ∀ {u : Fin 4 → T} {x : T} (i : Fin 4), (∀ c, P (u c)) → P x →
      ∀ c, P (Function.update u i x c) := by
    intro u x i hu hx c
    rw [Function.update_apply]
    split
    · exact hx
    · exact hu c
  cases order
  case a => exact hupdate 0 h (h 3) c
  case ra => exact hupdate 1 h (h 3) c
  case argb =>
    have hv := hupdate 3 h (h 2)
    have hv' := hupdate 2 hv (hv 1)
    exact hupdate 0 (hupdate 1 hv' (hv' 0)) (h 3) c
  case abgr =>
    have hv := hupdate 0 (hupdate 3 h (h 0)) (h 3)
    exact hupdate 1 (hupdate 2 hv (hv 1)) (hv 2) c
  case bgra | sBGRA => exact hupdate 2 (hupdate 0 h (h 2)) (h 0) c
  case intensity =>
    have hv := hupdate 3 h (h 0)
    have hv' := hupdate 2 hv (hv 0)
    exact hupdate 1 hv' (hv' 0) c
  case luminance =>
    have hv := hupdate 2 h (h 0)
    exact hupdate 1 hv (hv 0) c
  all_goals exact h c

theorem exists_packed (fns : FloatFunctions) (v : Fin 4 → BitVec 32) {format : ImageFormat}
    (mem : ℕ → Byte) (a : ℕ) {limits : ℤ × ℤ}
    (htype : integerLimits format.channelDataType = some limits) :
    ∃ packed, packImagePixelFloat fns v format mem a = some packed := by
  obtain ⟨order, type⟩ := format
  cases type
  case signedInt8 | signedInt16 | signedInt32 | unsignedInt8 | unsignedInt16 | unsignedInt32 =>
    exact ⟨_, rfl⟩
  all_goals cases htype

/-- **When `pack_image_pixel` stores the nearest integers.**  Of the finite channels of any vector
of floats, those are stored as the nearest integer of the type that are in the range of
`RoundsToNearest`. -/
theorem packInteger_iff (fns : FloatFunctions) (srcVector : Fin 4 → BitVec 32) (format : ImageFormat)
    (mem : ℕ → Byte) (outData : ℕ) {lo hi : ℤ}
    (htype : integerLimits format.channelDataType = some (lo, hi)) :
    ∃ packed, packImagePixelFloat fns srcVector format mem outData = some packed ∧
      ∀ i < getFormatChannelCount format, ∀ q,
        ofBits (packed.srcVector (Fin.ofNat 4 i)) = .finite q →
        (integerAt format.channelDataType packed.mem outData i = max lo (min hi (nearest q)) ↔
          RoundsToNearest format.channelDataType q) := by
  obtain ⟨packed, hpacked⟩ := exists_packed fns srcVector mem outData htype
  refine ⟨packed, hpacked, ?_⟩
  intro i hi q hq
  have hnumber : binary32.Number q := number_of_ofBits hq
  rw [integerAt_pack htype hpacked hi hq hnumber]
  exact packedInteger_eq_iff htype hnumber

/-- 300 in a channel of a byte. -/
theorem packInteger_iff_300 : ∃ packed, packImagePixelFloat noFunctions
    (fun _ => 0x43960000#32) ⟨.r, .unsignedInt8⟩ (fun _ => 0) 0 = some packed ∧
      integerAt .unsignedInt8 packed.mem 0 0 = max 0 (min 255 (nearest 300)) := by
  obtain ⟨packed, hpacked, hiff⟩ := packInteger_iff noFunctions (fun _ => 0x43960000#32)
    ⟨.r, .unsignedInt8⟩ (fun _ => 0) 0 rfl
  refine ⟨packed, hpacked, (hiff 0 (by decide) 300 ?_).mpr trivial⟩
  rw [packImagePixelFloat_srcVector hpacked]
  decide +kernel

/-- -128 is stored as -127, 40000 as 65535, and `2 ^ 31` as `2 ^ 31 - 1`. -/
theorem not_nearest_integers :
    ofBits 0xc3000000#32 = .finite (-128) ∧ ofBits 0x471c4000#32 = .finite 40000 ∧
      ofBits 0x4f000000#32 = .finite 2147483648 ∧
      (packImagePixelFloat noFunctions (fun _ => 0xc3000000#32) ⟨.r, .signedInt8⟩ (fun _ => 0)
        0).map (fun packed => integerAt .signedInt8 packed.mem 0 0) = some (-127) ∧
      (packImagePixelFloat noFunctions (fun _ => 0x471c4000#32) ⟨.r, .unsignedInt16⟩
        (fun _ => 0) 0).map (fun packed => integerAt .unsignedInt16 packed.mem 0 0) = some 65535 ∧
      (packImagePixelFloat noFunctions (fun _ => 0x4f000000#32) ⟨.r, .unsignedInt32⟩
        (fun _ => 0) 0).map (fun packed => integerAt .unsignedInt32 packed.mem 0 0)
          = some 2147483647 ∧
      max (-128) (min 127 (nearest (-128))) = -128 ∧ max 0 (min 65535 (nearest 40000)) = 40000 ∧
      max 0 (min 4294967295 (nearest 2147483648)) = 2147483648 := by
  decide +kernel

end OpenCLCTS.Images
