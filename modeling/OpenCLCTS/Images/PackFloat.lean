import OpenCLCTS.Images.Codec
import OpenCLCTS.Images.Rounding
import OpenCLCTS.Lib.Fields

/-!
# Packing pixels of floats

`pack_image_pixel` for floats, and `pack_image_pixel_error`, which says how far the channels of
packed pixels are from the numbers before rounding.

For the normalised types `packed_spec`: the channels that were packed are near to the exact
values, and `errors_of_packed`: none of their errors is above the tolerance of the tests.
-/

namespace OpenCLCTS.Images

open Binary32 Fields Memory Function

/-- What other functions make of a float. -/
structure FloatFunctions where
  /-- Conversions to an integer type that does not have the number. -/
  undefined : Binary32 → ℤ
  /-- `cl_half_from_float`. -/
  halfFromFloat : BitVec 32 → BitVec 16
  /-- `(unsigned char)(sRGBmap(v) + 0.5)`. -/
  sRGBmap : Binary32 → BitVec 8
  /-- `Ulp_Error_Half`. -/
  ulpErrorHalf : BitVec 16 → Binary32 → Binary32
  /-- `Ulp_Error`. -/
  ulpError : BitVec 16 → Binary32 → Binary32

/-- For pixels that need no other functions. -/
def noFunctions : FloatFunctions where
  undefined _ := 0
  halfFromFloat _ := 0
  sRGBmap _ := 0
  ulpErrorHalf _ _ := .nan
  ulpError _ _ := .nan

/-- `is_sRGBA_order`. -/
def isSRGBAOrder : ChannelOrder → Bool
  | .sRGB | .sRGBx | .sRGBA | .sBGRA => true
  | _ => false

/-! ### The fields of packed words -/

def fields555 : List Field := [⟨10, 5⟩, ⟨5, 5⟩, ⟨0, 5⟩]

def fields565 : List Field := [⟨11, 5⟩, ⟨5, 6⟩, ⟨0, 5⟩]

def fields101010 : List Field := [⟨20, 10⟩, ⟨10, 10⟩, ⟨0, 10⟩]

def fields101010_2 : List Field := [⟨22, 10⟩, ⟨12, 10⟩, ⟨2, 10⟩, ⟨0, 2⟩]

def fields2_101010 : List Field := [⟨30, 2⟩, ⟨20, 10⟩, ⟨10, 10⟩, ⟨0, 10⟩]

/-- The greatest number in a field. -/
def top (f : Field) : ℕ := 2 ^ f.bits - 1

/-! ### The functions of the harness -/

section

variable (fns : FloatFunctions)

/-- The conversion to a type of `w` bits with these bounds. -/
def castTo (w : ℕ) (lo hi : ℤ) (v : Binary32) : BitVec w :=
  BitVec.ofInt w (v.toInt fns.undefined lo hi)

/-- `pack_image_pixel` for `float`, whose vector is given by its bits. -/
def packImagePixelFloat (srcVector : Fin 4 → BitVec 32) (format : ImageFormat) (mem : ℕ → Byte)
    (outData : ℕ) : Option (Packed (BitVec 32)) :=
  let v := swizzleVectorForImage srcVector format.channelOrder
  let channelCount := getFormatChannelCount format
  let each (w : ℕ) (f : Binary32 → BitVec (8 * w)) : Option (Packed (BitVec 32)) :=
    some ⟨v, storeEach channelCount (fun i => f (ofBits (v (Fin.ofNat 4 i)))) mem outData⟩
  let word (w : ℕ) (fs : List Field) : Option (Packed (BitVec 32)) :=
    some ⟨v, store (BitVec.ofNat (8 * w) (putFields (fun f i =>
      (castTo fns (8 * w) 0 (2 ^ (8 * w) - 1)
        (normalize fns.undefined (ofBits (v (Fin.ofNat 4 i))) (.finite (top f)))).toNat) fs 0))
          mem outData⟩
  match format.channelDataType with
  | .halfFloat =>
    some ⟨v, @storeEach 2 channelCount (fun i => fns.halfFromFloat (v (Fin.ofNat 4 i))) mem outData⟩
  | .float => some ⟨v, @storeEach 4 channelCount (fun i => v (Fin.ofNat 4 i)) mem outData⟩
  | .snormInt8 => each 1 fun x =>
    castTo fns 8 (-128) 127 (normalizeSigned fns.undefined x (.finite (-127)) (.finite 127))
  | .snormInt16 => each 2 fun x =>
    castTo fns 16 (-32768) 32767 (normalizeSigned fns.undefined x (.finite (-32767)) (.finite 32767))
  | .unormInt8 =>
    if isSRGBAOrder format.channelOrder then
      let mem := @storeEach 1 3 (fun i => fns.sRGBmap (ofBits (v (Fin.ofNat 4 i)))) mem outData
      some ⟨v, if channelCount = 4 then
        @store 1 (castTo fns 8 0 255 (normalize fns.undefined (ofBits (v 3)) (.finite 255))) mem
          (outData + 3)
        else mem⟩
    else each 1 fun x => castTo fns 8 0 255 (normalize fns.undefined x (.finite 255))
  | .unormInt16 => each 2 fun x => castTo fns 16 0 65535 (normalize fns.undefined x (.finite 65535))
  | .unormShort555 => word 2 fields555
  | .unormShort565 => word 2 fields565
  | .unormInt101010 => word 4 fields101010
  | .unormInt101010_2 => word 4 fields101010_2
  | .unormInt2_101010 => word 4 fields2_101010
  | .signedInt8 => each 1 fun x =>
    castTo fns 8 (-128) 127 (convertInt fns.undefined x (.finite (-127)) (.finite 127) 127)
  | .signedInt16 => each 2 fun x =>
    castTo fns 16 (-32768) 32767
      (convertInt fns.undefined x (.finite (-32767)) (.finite 32767) 32767)
  | .signedInt32 => each 4 fun x => BitVec.ofInt 32 (roundToEven fns.undefined x)
  | .unsignedInt8 => each 1 fun x => BitVec.ofInt 8 (convertUint fns.undefined x (.finite 255) 255)
  | .unsignedInt16 => each 2 fun x =>
    BitVec.ofInt 16 (convertUint fns.undefined x (.finite 32767) 65535)
  | .unsignedInt32 => each 4 fun x =>
    BitVec.ofInt 32 (convertUint fns.undefined x (.finite 4294967040) 4294967295)
  | .unormInt24 | .raw10 | .raw12 => none

/-- `pack_image_pixel_error`. -/
def packImagePixelError (srcVector : Fin 4 → BitVec 32) (format : ImageFormat) (results : ℕ → Byte)
    (errors : Fin 4 → Binary32) : Option (Fin 4 → Binary32) :=
  let channelCount := getFormatChannelCount format
  let each (w : ℕ) (f : BitVec (8 * w) → Binary32 → Binary32) : Option (Fin 4 → Binary32) :=
    some (readEach channelCount
      (fun i => f (load results w (i * w)) (ofBits (srcVector (Fin.ofNat 4 i)))) errors)
  let word (w : ℕ) (fs : List Field) : Option (Fin 4 → Binary32) :=
    some (readEach fs.length (fun i => match fs[i]? with
      | some f => (ofInt (f.get (load results w 0).toNat)).sub
          (normalizeUnrounded (ofBits (srcVector (Fin.ofNat 4 i))) (.finite (top f)))
      | none => errors (Fin.ofNat 4 i)) errors)
  match format.channelDataType with
  | .halfFloat => each 2 fns.ulpErrorHalf
  | .float => each 2 fns.ulpError
  | .snormInt8 => each 1 fun p x =>
    (ofInt p.toInt).sub (normalizeSignedUnrounded x (.finite (-127)) (.finite 127))
  | .snormInt16 => each 2 fun p x =>
    (ofInt p.toInt).sub (normalizeSignedUnrounded x (.finite (-32767)) (.finite 32767))
  | .unormInt8 => each 1 fun p x => (ofInt p.toNat).sub (normalizeUnrounded x (.finite 255))
  | .unormInt16 => each 2 fun p x => (ofInt p.toNat).sub (normalizeUnrounded x (.finite 65535))
  | .unormShort555 => word 2 fields555
  | .unormShort565 => word 2 fields565
  | .unormInt101010 => word 4 fields101010
  | .unormInt101010_2 => word 4 fields101010_2
  | .unormInt2_101010 => word 4 fields2_101010
  | .signedInt8 => each 1 fun p x =>
    (ofInt p.toInt).sub (convertInt fns.undefined x (.finite (-127)) (.finite 127) 127)
  | .signedInt16 => each 2 fun p x =>
    (ofInt p.toInt).sub (convertInt fns.undefined x (.finite (-32767)) (.finite 32767) 32767)
  | .signedInt32 => each 4 fun p x => ofInt (p.toInt - roundToEven fns.undefined x)
  | .unsignedInt8 => each 1 fun p x =>
    ofInt (p.toNat - convertUint fns.undefined x (.finite 255) 255)
  | .unsignedInt16 => each 2 fun p x =>
    ofInt (p.toNat - convertUint fns.undefined x (.finite 32767) 65535)
  | .unsignedInt32 => each 4 fun p x =>
    ofInt (p.toNat - convertUint fns.undefined x (.finite 4294967040) 4294967295)
  | .unormInt24 | .raw10 | .raw12 => none

end

/-! ### The channels of a pixel -/

/-- The fields of the types whose channels are packed into a word. -/
def wordFields : ChannelType → List Field
  | .unormShort555 => fields555
  | .unormShort565 => fields565
  | .unormInt101010 => fields101010
  | .unormInt101010_2 => fields101010_2
  | .unormInt2_101010 => fields2_101010
  | _ => []

/-- The number of channels of a pixel. -/
def pixelChannels (format : ImageFormat) : ℕ :=
  match format.channelDataType with
  | .unormShort555 | .unormShort565 | .unormInt101010 | .unormInt101010_2 | .unormInt2_101010 =>
    (wordFields format.channelDataType).length
  | _ => getFormatChannelCount format

/-- The number in a channel of a pixel. -/
def channelValue (format : ImageFormat) (mem : ℕ → Byte) (i : ℕ) : ℤ :=
  let field (w : ℕ) : ℕ := match (wordFields format.channelDataType)[i]? with
    | some f => f.get (load mem w 0).toNat
    | none => 0
  match format.channelDataType with
  | .snormInt8 | .signedInt8 => (load mem 1 (i * 1)).toInt
  | .snormInt16 | .signedInt16 => (load mem 2 (i * 2)).toInt
  | .signedInt32 => (load mem 4 (i * 4)).toInt
  | .unormInt8 | .unsignedInt8 => (load mem 1 (i * 1)).toNat
  | .unormInt16 | .unsignedInt16 | .halfFloat => (load mem 2 (i * 2)).toNat
  | .unsignedInt32 | .float => (load mem 4 (i * 4)).toNat
  | .unormShort555 | .unormShort565 => field 2
  | .unormInt101010 | .unormInt101010_2 | .unormInt2_101010 => field 4
  | .unormInt24 | .raw10 | .raw12 => 0

/-- The least number that is not cut off by the type. -/
def channelLow : ChannelType → ℚ
  | .snormInt8 | .snormInt16 => -1
  | _ => 0

/-- The number in a channel for 1. -/
def channelTop (type : ChannelType) (i : ℕ) : ℕ :=
  match type with
  | .snormInt8 => 127
  | .snormInt16 => 32767
  | .unormInt8 => 255
  | .unormInt16 => 65535
  | _ => match (wordFields type)[i]? with
    | some f => top f
    | none => 0

/-- The exact value of a channel, in units of the type, if its source is a number. -/
def exactValue (format : ImageFormat) (v : Fin 4 → BitVec 32) (i : ℕ) : Option ℚ :=
  unrounded (channelLow format.channelDataType) (channelTop format.channelDataType i)
    (ofBits (v (Fin.ofNat 4 i)))

/-- The types that `filter_rounding_errors` lists. -/
def Listed (type : ChannelType) : Prop :=
  type = .unormInt8 ∨ type = .unormInt101010 ∨ type = .unormInt101010_2 ∨ type = .unormInt2_101010 ∨
    type = .unormInt16 ∨ type = .snormInt8 ∨ type = .snormInt16 ∨ type = .unormShort555 ∨
    type = .unormShort565

instance (type : ChannelType) : Decidable (Listed type) :=
  inferInstanceAs (Decidable (_ ∨ _ ∨ _ ∨ _ ∨ _ ∨ _ ∨ _ ∨ _ ∨ _))

/-! ### Packed channels -/

variable {fns : FloatFunctions} {v : Fin 4 → BitVec 32} {mem : ℕ → Byte} {i : ℕ} {x : ℚ}

theorem castTo_of_mem {w : ℕ} {lo hi n : ℤ} (hlo : lo ≤ n) (hhi : n ≤ hi) :
    castTo fns w lo hi (.finite n) = BitVec.ofInt w n := by
  rw [castTo, toInt_intCast hlo hhi]

/-- `fabsf(error) > 0.6f`. -/
def aboveTolerance (error : Binary32) : Bool := (ofRat (3 / 5)).lt error.abs

/-- A channel that was made of a float, with its error as the harness computes it. -/
structure Near (n : ℤ) (error : Binary32) (x : Option ℚ) : Prop where
  error : aboveTolerance error = false
  exact : ∀ y ∈ x, |(n : ℚ) - y| < 3 / 5

theorem aboveTolerance_sub_nan (a : Binary32) : aboveTolerance (a.sub .nan) = false := by
  have hnan : a.sub .nan = .nan := by
    cases a <;> rfl
  rw [hnan, aboveTolerance, ofRat]
  split <;> rfl

theorem near_nan (n : ℤ) (a : Binary32) : Near n (a.sub .nan) none :=
  ⟨aboveTolerance_sub_nan a, fun _ hy => by cases hy⟩

theorem near_of_normalized {bottom top n : ℤ} {rounded unrounded : Binary32}
    (h : Normalized bottom top rounded unrounded x n) (hbottom : -2 ^ 16 ≤ bottom)
    (htop : top ≤ 2 ^ 16) : Near n ((ofInt n).sub unrounded) (some x) := by
  obtain ⟨_, ⟨hlo, hhi⟩, u, rfl, hu, hux⟩ := h
  constructor
  · exact not_above_tolerance (abs_lt.mpr ⟨by omega, by omega⟩) hu
  · intro y hy
    obtain rfl := Option.some.inj hy
    rw [abs_le] at hu hux
    rw [abs_lt]
    constructor <;> linarith [hu.1, hu.2, hux.1, hux.2]

theorem unrounded_eq_none {low : ℚ} {t : ℕ} {y : Binary32} (h : unrounded low t y = none) :
    y = .nan := by
  cases y with
  | nan => rfl
  | inf negative => cases h
  | finite q => cases h

theorem toNat_ofInt_of_mem {w : ℕ} {n : ℤ} (hlo : 0 ≤ n) (hhi : n < 2 ^ w) :
    ((BitVec.ofInt w n).toNat : ℤ) = n := by
  rw [BitVec.toNat_ofInt, Int.emod_eq_of_lt hlo (by push_cast; exact hhi), Int.toNat_of_nonneg hlo]

theorem toInt_ofInt_of_mem {w : ℕ} {n : ℤ} (hlo : -2 ^ w ≤ 2 * n) (hhi : 2 * n < 2 ^ w) :
    (BitVec.ofInt w n).toInt = n := by
  rw [BitVec.toInt_ofInt]
  exact Int.bmod_eq_of_le (by push_cast; omega) (by push_cast; omega)

theorem unorm_spec (fns : FloatFunctions) {w t : ℕ} {c : ℚ} {hi : ℤ} (hc : c = t) (ht : t < 2 ^ 16)
    (hw : t < 2 ^ w) (hhi : t ≤ hi) {y : Binary32} (hx : unrounded 0 t y = some x) :
    ∃ n, Normalized 0 t (normalize fns.undefined y (.finite c)) (normalizeUnrounded y (.finite c))
      x n ∧ ((castTo fns w 0 hi (normalize fns.undefined y (.finite c))).toNat : ℤ) = n := by
  obtain ⟨n, hn⟩ := normalize_spec fns.undefined hc ht hx
  obtain ⟨h0, h1⟩ := hn.mem
  have hw' : (t : ℤ) < 2 ^ w := by exact_mod_cast hw
  refine ⟨n, hn, ?_⟩
  rw [hn.rounded_eq, castTo_of_mem h0 (by omega), toNat_ofInt_of_mem h0 (by omega)]

theorem near_unorm (fns : FloatFunctions) {w t : ℕ} {c : ℚ} {hi : ℤ} (hc : c = t) (ht : t < 2 ^ 16)
    (hw : t < 2 ^ w) (hhi : t ≤ hi) (y : Binary32) :
    let p := (castTo fns w 0 hi (normalize fns.undefined y (.finite c))).toNat
    (y = .nan ∨ p ≤ t) ∧
      Near p ((ofInt p).sub (normalizeUnrounded y (.finite c))) (unrounded 0 t y) := by
  intro p
  cases hx : unrounded 0 t y with
  | none =>
    obtain rfl := unrounded_eq_none hx
    exact ⟨.inl rfl, near_nan _ _⟩
  | some x =>
    obtain ⟨n, hn, hp⟩ := unorm_spec fns hc ht hw hhi hx
    have hmem := hn.mem
    refine ⟨.inr (by omega), ?_⟩
    rw [hp]
    exact near_of_normalized hn (by omega) (by omega)

theorem snorm_spec (fns : FloatFunctions) {w t : ℕ} {c c' : ℚ} {lo hi : ℤ} (hc : c = t)
    (hc' : c' = -t) (ht : t < 2 ^ 16) (hlo : lo ≤ -t) (hhi : t ≤ hi) (hw : 2 * t < 2 ^ w)
    {y : Binary32} (hx : unrounded (-1) t y = some x) :
    ∃ n, Normalized (-t) t (normalizeSigned fns.undefined y (.finite c') (.finite c))
      (normalizeSignedUnrounded y (.finite c') (.finite c)) x n ∧
        (castTo fns w lo hi (normalizeSigned fns.undefined y (.finite c') (.finite c))).toInt = n := by
  obtain ⟨n, hn⟩ := normalizeSigned_spec fns.undefined hc hc' ht hx
  obtain ⟨h0, h1⟩ := hn.mem
  have hw' : 2 * (t : ℤ) < 2 ^ w := by exact_mod_cast hw
  refine ⟨n, hn, ?_⟩
  rw [hn.rounded_eq, castTo_of_mem (by omega) (by omega), toInt_ofInt_of_mem (by omega) (by omega)]

theorem near_snorm (fns : FloatFunctions) {w t : ℕ} {c c' : ℚ} {lo hi : ℤ} (hc : c = t)
    (hc' : c' = -t) (ht : t < 2 ^ 16) (hlo : lo ≤ -t) (hhi : t ≤ hi) (hw : 2 * t < 2 ^ w)
    (y : Binary32) :
    let p := (castTo fns w lo hi (normalizeSigned fns.undefined y (.finite c') (.finite c))).toInt
    Near p ((ofInt p).sub (normalizeSignedUnrounded y (.finite c') (.finite c)))
      (unrounded (-1) t y) := by
  intro p
  cases hx : unrounded (-1) t y with
  | none =>
    obtain rfl := unrounded_eq_none hx
    exact near_nan _ _
  | some x =>
    obtain ⟨n, hn, hp⟩ := snorm_spec fns hc hc' ht hlo hhi hw hx
    have heq : p = n := hp
    rw [heq]
    exact near_of_normalized hn (by omega) (by omega)

/-! ### Packed pixels -/

theorem packImagePixelFloat_srcVector {format : ImageFormat} {a : ℕ} {packed : Packed (BitVec 32)}
    (h : packImagePixelFloat fns v format mem a = some packed) :
    packed.srcVector = swizzleVectorForImage v format.channelOrder := by
  obtain ⟨order, type⟩ := format
  rw [packImagePixelFloat] at h
  cases type
  case unormInt8 =>
    dsimp only at h
    split at h <;> obtain rfl := Option.some.inj h <;> rfl
  case unormInt24 | raw10 | raw12 => cases h
  all_goals
    obtain rfl := Option.some.inj h
    rfl

/-- The channels of a pixel that was packed. -/
structure PackedNear (fns : FloatFunctions) (format : ImageFormat) (packed : Packed (BitVec 32)) :
    Prop where
  errors : ∃ errors, packImagePixelError fns packed.srcVector format packed.mem (fun _ => .nan)
    = some errors ∧ ∀ c, aboveTolerance (errors c) = false
  exact : ∀ i < pixelChannels format, ∀ y ∈ exactValue format packed.srcVector i,
    |(channelValue format packed.mem i : ℚ) - y| < 3 / 5

theorem not_above_nan : aboveTolerance .nan = false := by
  rw [aboveTolerance, ofRat]
  split <;> rfl

theorem readEach_errors {n : ℕ} (hn : n ≤ 4) {error : ℕ → Binary32}
    (h : ∀ i < n, aboveTolerance (error i) = false) (c : Fin 4) :
    aboveTolerance (readEach n error (fun _ => .nan) c) = false := by
  by_cases hc : c.val < n
  · rw [readEach_apply hc hn]
    exact h c hc
  · rw [readEach_of_le _ _ (Nat.le_of_not_lt hc)]
    exact not_above_nan

theorem load_each {w n : ℕ} {f : ℕ → BitVec (8 * w)} (hi : i < n) :
    load (storeEach n f mem 0) w (i * w) = f i := by
  have h : load (storeEach n f mem 0) w (0 + i * w) = f i := load_storeEach hi
  rwa [Nat.zero_add] at h

theorem top_lt (f : Field) {n : ℕ} (h : f.bits ≤ n) : top f < 2 ^ n :=
  lt_of_lt_of_le (Nat.sub_lt (Nat.two_pow_pos _) Nat.one_pos) (Nat.pow_le_pow_right two_pos h)

theorem get_word (fns : FloatFunctions) {w : ℕ} {fs : List Field} (hfs : fs.Pairwise Above)
    (v : Fin 4 → BitVec 32) (mem : ℕ → Byte) {f : Field} (hf : fs[i]? = some f)
    (hfit : f.shift + f.bits ≤ 8 * w) :
    f.get (load (store (BitVec.ofNat (8 * w) (putFields (fun f i =>
      (castTo fns (8 * w) 0 (2 ^ (8 * w) - 1)
        (normalize fns.undefined (ofBits (v (Fin.ofNat 4 i))) (.finite (top f)))).toNat) fs 0))
          mem 0) w 0).toNat
      = (castTo fns (8 * w) 0 (2 ^ (8 * w) - 1)
        (normalize fns.undefined (ofBits (v (Fin.ofNat 4 i))) (.finite (top f)))).toNat
          % 2 ^ f.bits := by
  rw [load_store, BitVec.toNat_ofNat, get_mod_two_pow hfit, get_putFields hfs hf, Nat.zero_add]

theorem top_le (f : Field) {n : ℕ} (h : f.bits ≤ n) : (top f : ℤ) ≤ 2 ^ n - 1 := by
  have hlt : (top f : ℤ) < 2 ^ n := by exact_mod_cast top_lt f h
  omega

theorem near_field (fns : FloatFunctions) {w : ℕ} {fs : List Field} (hfs : fs.Pairwise Above)
    (hin : ∀ f ∈ fs, f.shift + f.bits ≤ 8 * w ∧ f.bits ≤ 16) (v : Fin 4 → BitVec 32)
    (mem : ℕ → Byte) {f : Field} (hf : fs[i]? = some f) :
    let p := f.get (load (store (BitVec.ofNat (8 * w) (putFields (fun f i =>
      (castTo fns (8 * w) 0 (2 ^ (8 * w) - 1)
        (normalize fns.undefined (ofBits (v (Fin.ofNat 4 i))) (.finite (top f)))).toNat) fs 0))
          mem 0) w 0).toNat
    Near p ((ofInt p).sub (normalizeUnrounded (ofBits (v (Fin.ofNat 4 i))) (.finite (top f))))
      (unrounded 0 (top f) (ofBits (v (Fin.ofNat 4 i)))) := by
  intro p
  obtain ⟨hfit, hbits⟩ := hin f (List.mem_of_getElem? hf)
  obtain ⟨hle, hnear⟩ := near_unorm fns rfl (top_lt f hbits)
    (top_lt f (show f.bits ≤ 8 * w by omega)) (top_le f (show f.bits ≤ 8 * w by omega))
    (ofBits (v (Fin.ofNat 4 i)))
  have hp := get_word fns hfs v mem hf hfit
  rcases hle with hnan | hle
  · rw [hnan]
    exact near_nan _ _
  · have hlt : top f < 2 ^ f.bits := top_lt f le_rfl
    simp only [p]
    rw [hp, Nat.mod_eq_of_lt (by omega)]
    exact hnear

theorem packedNear_word (fs : List Field) {format : ImageFormat} {packed : Packed (BitVec 32)}
    {w : ℕ} (hfs : fs.Pairwise Above) (hin : ∀ f ∈ fs, f.shift + f.bits ≤ 8 * w ∧ f.bits ≤ 16)
    (hlen : fs.length ≤ 4)
    (hpack : packed.mem = store (BitVec.ofNat (8 * w) (putFields (fun f i =>
      (castTo fns (8 * w) 0 (2 ^ (8 * w) - 1)
        (normalize fns.undefined (ofBits (packed.srcVector (Fin.ofNat 4 i)))
          (.finite (top f)))).toNat) fs 0)) mem 0)
    (herror : packImagePixelError fns packed.srcVector format packed.mem (fun _ => .nan)
      = some (readEach fs.length (fun i => match fs[i]? with
        | some f => (ofInt (f.get (load packed.mem w 0).toNat)).sub
            (normalizeUnrounded (ofBits (packed.srcVector (Fin.ofNat 4 i))) (.finite (top f)))
        | none => .nan) fun _ => .nan))
    (hcount : pixelChannels format = fs.length)
    (hvalue : ∀ i f, fs[i]? = some f → channelValue format packed.mem i
      = (f.get (load packed.mem w 0).toNat : ℕ))
    (hexact : ∀ i f, fs[i]? = some f → exactValue format packed.srcVector i
      = unrounded 0 (top f) (ofBits (packed.srcVector (Fin.ofNat 4 i)))) :
    PackedNear fns format packed := by
  have hfield {i : ℕ} (hi : i < fs.length) : fs[i]? = some (fs.get ⟨i, hi⟩) :=
    List.getElem?_eq_getElem hi
  refine ⟨⟨_, herror, readEach_errors hlen fun i hi => ?_⟩, fun i hi y hy => ?_⟩
  · have hnear := near_field fns hfs hin packed.srcVector mem (hfield hi)
    rw [hfield hi, hpack]
    exact hnear.error
  · rw [hcount] at hi
    have hnear := near_field fns hfs hin packed.srcVector mem (hfield hi)
    rw [hexact i _ (hfield hi)] at hy
    rw [hvalue i _ (hfield hi), hpack]
    exact hnear.exact y hy

theorem packedNear_each {format : ImageFormat} {packed : Packed (BitVec 32)} {w : ℕ}
    (pack : Binary32 → BitVec (8 * w)) (error : BitVec (8 * w) → Binary32 → Binary32)
    (value : BitVec (8 * w) → ℤ) (low : ℚ) (t : ℕ)
    (hpack : packed.mem = storeEach (getFormatChannelCount format)
      (fun i => pack (ofBits (packed.srcVector (Fin.ofNat 4 i)))) mem 0)
    (herror : packImagePixelError fns packed.srcVector format packed.mem (fun _ => .nan)
      = some (readEach (getFormatChannelCount format)
        (fun i => error (load packed.mem w (i * w)) (ofBits (packed.srcVector (Fin.ofNat 4 i))))
        fun _ => .nan))
    (hcount : pixelChannels format = getFormatChannelCount format)
    (hvalue : ∀ i, channelValue format packed.mem i = value (load packed.mem w (i * w)))
    (hexact : ∀ i, exactValue format packed.srcVector i
      = unrounded low t (ofBits (packed.srcVector (Fin.ofNat 4 i))))
    (hnear : ∀ y, Near (value (pack y)) (error (pack y) y) (unrounded low t y)) :
    PackedNear fns format packed := by
  have hcount4 : getFormatChannelCount format ≤ 4 := getChannelOrderChannelCount_le _
  refine ⟨⟨_, herror, readEach_errors hcount4 fun i hi => ?_⟩, fun i hi y hy => ?_⟩
  · rw [hpack, load_each hi]
    exact (hnear _).error
  · rw [hcount] at hi
    rw [hexact] at hy
    rw [hvalue, hpack, load_each hi]
    exact (hnear _).exact y hy

/-- **The channels that `pack_image_pixel` packs are near to their exact values, and
`pack_image_pixel_error` finds none of them above the tolerance.** -/
theorem packedNear {format : ImageFormat} (hlisted : Listed format.channelDataType)
    (hsrgb : isSRGBAOrder format.channelOrder = false) {packed : Packed (BitVec 32)}
    (hp : packImagePixelFloat fns v format mem 0 = some packed) : PackedNear fns format packed := by
  obtain ⟨order, type⟩ := format
  rw [packImagePixelFloat] at hp
  cases type
  case unormInt8 =>
    dsimp only at hp hsrgb
    rw [hsrgb, if_neg Bool.false_ne_true] at hp
    obtain rfl := Option.some.inj hp
    exact packedNear_each (w := 1)
      (fun x => castTo fns 8 0 255 (normalize fns.undefined x (.finite 255)))
      (fun p x => (ofInt p.toNat).sub (normalizeUnrounded x (.finite 255)))
      (fun p => p.toNat) 0 255 rfl rfl rfl (fun _ => rfl) (fun _ => rfl)
      fun y => (near_unorm fns (show (255 : ℚ) = (255 : ℕ) by norm_num) (by norm_num)
        (show 255 < 2 ^ 8 by norm_num) (show ((255 : ℕ) : ℤ) ≤ 255 by norm_num) y).2
  case unormInt16 =>
    obtain rfl := Option.some.inj hp
    exact packedNear_each (w := 2)
      (fun x => castTo fns 16 0 65535 (normalize fns.undefined x (.finite 65535)))
      (fun p x => (ofInt p.toNat).sub (normalizeUnrounded x (.finite 65535)))
      (fun p => p.toNat) 0 65535 rfl rfl rfl (fun _ => rfl) (fun _ => rfl)
      fun y => (near_unorm fns (show (65535 : ℚ) = (65535 : ℕ) by norm_num) (by norm_num)
        (show 65535 < 2 ^ 16 by norm_num) (show ((65535 : ℕ) : ℤ) ≤ 65535 by norm_num) y).2
  case snormInt8 =>
    obtain rfl := Option.some.inj hp
    exact packedNear_each (w := 1)
      (fun x => castTo fns 8 (-128) 127
        (normalizeSigned fns.undefined x (.finite (-127)) (.finite 127)))
      (fun p x => (ofInt p.toInt).sub (normalizeSignedUnrounded x (.finite (-127)) (.finite 127)))
      (fun p => p.toInt) (-1) 127 rfl rfl rfl (fun _ => rfl) (fun _ => rfl)
      fun y => near_snorm fns (show (127 : ℚ) = (127 : ℕ) by norm_num) (by norm_num) (by norm_num)
        (by norm_num) (by norm_num) (by norm_num) y
  case snormInt16 =>
    obtain rfl := Option.some.inj hp
    exact packedNear_each (w := 2)
      (fun x => castTo fns 16 (-32768) 32767
        (normalizeSigned fns.undefined x (.finite (-32767)) (.finite 32767)))
      (fun p x => (ofInt p.toInt).sub
        (normalizeSignedUnrounded x (.finite (-32767)) (.finite 32767)))
      (fun p => p.toInt) (-1) 32767 rfl rfl rfl (fun _ => rfl) (fun _ => rfl)
      fun y => near_snorm fns (show (32767 : ℚ) = (32767 : ℕ) by norm_num) (by norm_num)
        (by norm_num) (by norm_num) (by norm_num) (by norm_num) y
  case unormShort565 | unormShort555 | unormInt101010 | unormInt101010_2 | unormInt2_101010 =>
    obtain rfl := Option.some.inj hp
    refine packedNear_word _ (by decide) (by decide) (by decide) rfl rfl rfl
      (fun i f hf => ?_) fun i f hf => ?_
    · simp only [channelValue, wordFields, hf]
    · simp only [exactValue, channelLow, channelTop, wordFields, hf]
  all_goals simp [Listed] at hlisted

end OpenCLCTS.Images
