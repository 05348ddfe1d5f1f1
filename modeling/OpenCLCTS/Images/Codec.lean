import Mathlib.Data.Fin.VecNotation
import Mathlib.Tactic.FinCases
import OpenCLCTS.Images.ReadPixel

/-!
# Packing pixels of integers

`pack_image_pixel` puts the channels of a vector in the order of the format, saturates
them, and stores them.  `codec_iff`: what `read_image_pixel` gives for the pixel is the
saturated vector, with 0 and 1 for the channels that the format does not have, unless the
order is `CL_RGBx` or `CL_sRGBx`, where the alpha channel is 0.
-/

namespace OpenCLCTS.Images

open Memory Function

/-! ### `pack_image_pixel` -/

section

variable {T : Type}

/-- `swizzle_vector_for_image`. -/
def swizzleVectorForImage (srcVector : Fin 4 → T) (order : ChannelOrder) : Fin 4 → T :=
  match order with
  | .a => update srcVector 0 (srcVector 3)
  | .r | .rx | .rg | .rgx | .rgb | .rgbx | .rgba | .sRGB | .sRGBx | .sRGBA => srcVector
  | .ra => update srcVector 1 (srcVector 3)
  | .argb =>
    let temp := srcVector 3
    let v := update srcVector 3 (srcVector 2)
    let v := update v 2 (v 1)
    let v := update v 1 (v 0)
    update v 0 temp
  | .abgr =>
    let temp := srcVector 3
    let v := update srcVector 3 (srcVector 0)
    let v := update v 0 temp
    let temp := v 2
    let v := update v 2 (v 1)
    update v 1 temp
  | .bgra | .sBGRA =>
    let temp := srcVector 0
    let v := update srcVector 0 (srcVector 2)
    update v 2 temp
  | .intensity =>
    let v := update srcVector 3 (srcVector 0)
    let v := update v 2 (v 0)
    update v 1 (v 0)
  | .luminance =>
    let v := update srcVector 2 (srcVector 0)
    update v 1 (v 0)
  | .depth | .depthStencil => srcVector

/-- `SATURATE`. -/
def saturate [LT T] [DecidableLT T] (v min max : T) : T :=
  if v < min then min else if v > max then max else v

/-- The vector, which is swizzled in place, and the memory. -/
structure Packed (T : Type) where
  srcVector : Fin 4 → T
  mem : ℕ → Byte

/-- `pack_image_pixel` for `unsigned int`. -/
def packImagePixelUint (srcVector : Fin 4 → UInt32) (format : ImageFormat) (mem : ℕ → Byte)
    (outData : ℕ) : Packed UInt32 :=
  let v := swizzleVectorForImage srcVector format.channelOrder
  let channelCount := getFormatChannelCount format
  ⟨v, match format.channelDataType with
    | .unsignedInt8 =>
      @storeEach 1 channelCount (fun i => (saturate (v (Fin.ofNat 4 i)) 0 255).toUInt8.toBitVec)
        mem outData
    | .unsignedInt16 =>
      @storeEach 2 channelCount (fun i => (saturate (v (Fin.ofNat 4 i)) 0 65535).toUInt16.toBitVec)
        mem outData
    | .unsignedInt32 =>
      @storeEach 4 channelCount (fun i => (v (Fin.ofNat 4 i)).toBitVec) mem outData
    | _ => mem⟩

/-- `pack_image_pixel` for `int`. -/
def packImagePixelInt (srcVector : Fin 4 → Int32) (format : ImageFormat) (mem : ℕ → Byte)
    (outData : ℕ) : Packed Int32 :=
  let v := swizzleVectorForImage srcVector format.channelOrder
  let channelCount := getFormatChannelCount format
  ⟨v, match format.channelDataType with
    | .signedInt8 =>
      @storeEach 1 channelCount (fun i => (saturate (v (Fin.ofNat 4 i)) (-128) 127).toInt8.toBitVec)
        mem outData
    | .signedInt16 =>
      @storeEach 2 channelCount
        (fun i => (saturate (v (Fin.ofNat 4 i)) (-32768) 32767).toInt16.toBitVec) mem outData
    | .signedInt32 =>
      @storeEach 4 channelCount (fun i => (v (Fin.ofNat 4 i)).toBitVec) mem outData
    | _ => mem⟩

/-! ### What is read -/

/-- The channel of the vector that an image has for a channel, if it has one. -/
def source : ChannelOrder → Fin 4 → Option (Fin 4)
  | .a => ![none, none, none, some 3]
  | .r | .rx => ![some 0, none, none, none]
  | .rg | .rgx => ![some 0, some 1, none, none]
  | .ra => ![some 0, none, none, some 3]
  | .rgb | .rgbx | .sRGB | .sRGBx => ![some 0, some 1, some 2, none]
  | .rgba | .argb | .abgr | .bgra | .sRGBA | .sBGRA => ![some 0, some 1, some 2, some 3]
  | .intensity => ![some 0, some 0, some 0, some 0]
  | .luminance => ![some 0, some 0, some 0, none]
  | .depth | .depthStencil => ![none, none, none, none]

/-- What an absent channel is read as. -/
def absent (c : Fin 4) : ℤ := if c = 3 then 1 else 0

/-- The orders that `swizzle_vector_for_image` has a case for. -/
def Swizzled (order : ChannelOrder) : Prop := order ≠ .depth ∧ order ≠ .depthStencil

/-- The x-orders of three channels. -/
def IsRgbx (order : ChannelOrder) : Prop := order = .rgbx ∨ order = .sRGBx

theorem readEach_apply {n : ℕ} {f : ℕ → T} {t : Fin 4 → T} {c : Fin 4} (hc : c < n)
    (hn : n ≤ 4) : readEach n f t c = f c := by
  have hloop := Loops.foldl_invariant (f := fun t i => update t (Fin.ofNat 4 i) (f i))
    (I := fun n t => ∀ c : Fin 4, c < n → t c = f c) (a := 0) (n := n) ?_ (s := t) ?_
  · rw [Nat.zero_add] at hloop
    exact hloop c hc
  · intro i t _ hi ht c hc
    have hval : (Fin.ofNat 4 i).val = i := Nat.mod_eq_of_lt (by omega)
    rcases Nat.lt_succ_iff_lt_or_eq.mp hc with hlt | he
    · rw [update_of_ne fun h => by rw [h, hval] at hlt; omega]
      exact ht c hlt
    · rw [show c = Fin.ofNat 4 i from Fin.ext (he.trans hval.symm), update_self, hval]
  · exact fun c hc => absurd hc (Nat.not_lt_zero _)

theorem readEach_of_le {n : ℕ} (f : ℕ → T) (t : Fin 4 → T) {c : Fin 4} (hc : n ≤ c) :
    readEach n f t c = t c := by
  have hloop := Loops.foldl_invariant (f := fun t i => update t (Fin.ofNat 4 i) (f i))
    (I := fun _ t' => t' c = t c) (a := 0) (n := n) ?_ (s := t) rfl
  · exact hloop
  · intro i t' _ hi ht
    have hval : (Fin.ofNat 4 i).val = i := Nat.mod_eq_of_lt (by omega)
    rw [update_of_ne fun h => by rw [h, hval] at hc; omega]
    exact ht

theorem getChannelOrderChannelCount_le (order : ChannelOrder) :
    getChannelOrderChannelCount order ≤ 4 := by
  cases order <;> decide

theorem placeChannels_congr (cast : Cast T) (order : ChannelOrder) {t t' : Fin 4 → T}
    (h : ∀ c : Fin 4, c < getChannelOrderChannelCount order → t c = t' c) :
    placeChannels cast order t = placeChannels cast order t' := by
  have h0 : 0 < getChannelOrderChannelCount order → t 0 = t' 0 := h 0
  have h1 : 1 < getChannelOrderChannelCount order → t 1 = t' 1 := h 1
  have h2 : 2 < getChannelOrderChannelCount order → t 2 = t' 2 := h 2
  have h3 : 3 < getChannelOrderChannelCount order → t 3 = t' 3 := h 3
  cases order <;>
    simp only [getChannelOrderChannelCount, Nat.one_lt_ofNat, Nat.lt_irrefl, Nat.reduceLT,
      Nat.zero_lt_one, forall_const] at h0 h1 h2 h3 <;>
    simp only [placeChannels, h0, h1, h2, h3]

/-- **What was swizzled is put back.** -/
theorem placeChannels_swizzle (cast : Cast T) {order : ChannelOrder} (horder : Swizzled order)
    (hrgbx : ¬ IsRgbx order) (f : T → T) (v : Fin 4 → T) (c : Fin 4) :
    placeChannels cast order (fun i => f (swizzleVectorForImage v order i)) c
      = match source order c with
        | some d => f (v d)
        | none => cast.ofInt (absent c) := by
  cases order
  case depth => exact absurd rfl horder.1
  case depthStencil => exact absurd rfl horder.2
  case rgbx => exact absurd (.inl rfl) hrgbx
  case sRGBx => exact absurd (.inr rfl) hrgbx
  all_goals fin_cases c <;> rfl

/-- The alpha channel of the x-orders of three channels. -/
theorem placeChannels_rgbx (cast : Cast T) {order : ChannelOrder} (hrgbx : IsRgbx order)
    (t : Fin 4 → T) : placeChannels cast order t 3 = cast.ofInt 0 := by
  rcases hrgbx with rfl | rfl <;> rfl

/-! ### In-bounds pixels -/

/-- The sizes of the dimensions that the type does not have. -/
structure Unused (info : ImageDescriptor) : Prop where
  height : info.type = .image1D ∨ info.type = .image1DBuffer → info.height ≤ 1
  depth : info.type ≠ .image3D → info.depth ≤ 1
  array1D : info.type = .image1DArray → info.height = info.depth
  arraySize : info.type ≠ .image1DArray → info.type ≠ .image2DArray → info.arraySize = 0

/-- The coordinates of a pixel of an image without mip levels; the layer of a `1D` array is
in `y`. -/
structure InBounds (info : ImageDescriptor) (x y z : ℤ) : Prop where
  x : 0 ≤ x ∧ x < toInt info.width
  y : 0 ≤ y ∧ y < match info.type with
    | .image1D | .image1DBuffer => 1
    | .image1DArray => toInt info.arraySize
    | .image2D | .image2DArray | .image3D => toInt info.height
  z : 0 ≤ z ∧ z < match info.type with
    | .image1D | .image1DBuffer | .image1DArray | .image2D => 1
    | .image2DArray => toInt info.arraySize
    | .image3D => toInt info.depth

variable {info : ImageDescriptor} {x y z : ℤ}

theorem mipDim_zero_of_toInt {d : ℕ} {a : ℤ} (h0 : 0 ≤ a) (h : a < toInt d) : mipDim d 0 = d := by
  refine mipDim_zero (Nat.pos_of_ne_zero ?_)
  rintro rfl
  rw [toInt_zero] at h
  omega

/-- A dimension of 0 bounds nothing. -/
def Bounded (a : ℤ) (n : ℕ) : Prop := n = 0 ∨ 0 ≤ a ∧ a < toInt n

theorem bounded_of_le_one {a : ℤ} {n : ℕ} (hn : n ≤ 1) (h : 0 ≤ a ∧ a < 1) : Bounded a n := by
  rcases Nat.le_one_iff_eq_zero_or_eq_one.mp hn with rfl | rfl
  · exact .inl rfl
  · exact .inr h

theorem bounded_mipDim {a : ℤ} {n : ℕ} (h : 0 ≤ a ∧ a < toInt n) : Bounded a (mipDim n 0) :=
  (mipDim_zero_of_toInt h.1 h.2).symm ▸ .inr h

theorem not_outside_of {v : LevelView} {n : ℕ} (hx : 0 ≤ x ∧ x < toInt v.width)
    (hy : Bounded y v.height) (hz : Bounded z v.depth) (hn : Bounded z n) :
    ¬ Outside v n x y z := by
  rintro (h | h | ⟨h0, h⟩ | ⟨h0, h⟩ | ⟨h0, h⟩)
  · omega
  · omega
  · have := hy.resolve_left h0
    omega
  · have := hz.resolve_left h0
    omega
  · have := hn.resolve_left h0
    omega

/-- **In-bounds pixels do not get the border color.** -/
theorem not_outside (hunused : Unused info) (h : InBounds info x y z) :
    ¬ Outside (readImagePixelView info 0) info.arraySize x y z := by
  obtain ⟨hheight, hdepth, harray, hsize⟩ := hunused
  obtain ⟨hx, hy, hz⟩ := h
  rw [readImagePixelView, mipDim_zero_of_toInt hx.1 hx.2]
  cases ht : info.type <;> rw [ht] at hheight hdepth harray hsize hy hz <;>
    simp only [reduceCtorEq, ne_eq, not_false_eq_true, not_true_eq_false, true_or, or_true, or_self,
      false_and, true_and, if_false, forall_const, false_implies] at hheight hdepth harray hsize hy hz ⊢
  · exact not_outside_of hx (bounded_of_le_one hheight hy) (bounded_of_le_one hdepth hz) (.inl hsize)
  · exact not_outside_of hx (bounded_of_le_one (by rw [mipDim_eq]; simp; omega) hy)
      (bounded_of_le_one hdepth hz) (.inl hsize)
  · have hn : Bounded z info.arraySize := .inr (by omega)
    split
    · exact not_outside_of hx (.inl rfl) (.inl rfl) hn
    · rename_i hne
      have hd : info.depth = 0 := by omega
      exact not_outside_of hx (.inl (harray.trans hd)) (.inl hd) hn
  · exact not_outside_of hx (bounded_mipDim hy) (bounded_of_le_one hdepth hz) (.inl hsize)
  · split
    · exact not_outside_of hx (bounded_mipDim hy) (.inl rfl) (.inr hz)
    · have hd : info.depth = 0 := by omega
      exact not_outside_of hx (bounded_mipDim hy) (.inl hd) (.inr hz)
  · exact not_outside_of hx (bounded_mipDim hy) (bounded_mipDim hz) (.inl hsize)

/-- Where a pixel of an image without mip levels is. -/
def pixelPtr (info : ImageDescriptor) (x y z : ℤ) : ℕ :=
  (z * info.slicePitch + y * info.rowPitch + x * getPixelSize info.format).toNat

/-! ### The round trip -/

/-- The least value of a channel. -/
def lowest : ChannelType → ℤ
  | .signedInt8 => -128
  | .signedInt16 => -32768
  | .signedInt32 => -2 ^ 31
  | _ => 0

/-- The greatest value of a channel. -/
def highest : ChannelType → ℤ
  | .signedInt8 => 127
  | .signedInt16 => 32767
  | .signedInt32 => 2 ^ 31 - 1
  | .unsignedInt8 => 255
  | .unsignedInt16 => 65535
  | .unsignedInt32 => 2 ^ 32 - 1
  | _ => 0

def clamp (type : ChannelType) (n : ℤ) : ℤ := max (lowest type) (min (highest type) n)

/-- What a vector is read as. -/
def expected (format : ImageFormat) (v : Fin 4 → ℤ) (c : Fin 4) : ℤ :=
  match source format.channelOrder c with
  | some d => clamp format.channelDataType (v d)
  | none => absent c

/-- A pixel that is packed and read again. -/
structure RoundTrips (val : T → ℤ) (cast : Cast T)
    (pack : (Fin 4 → T) → ImageFormat → (ℕ → Byte) → ℕ → Packed T) (info : ImageDescriptor)
    (x y z : ℤ) : Prop where
  read : ∀ v mem tempData outData c,
    val (readImagePixel cast (pack v info.format mem (pixelPtr info x y z)).mem info x y z 0
      tempData outData c) = expected info.format (fun d => val (v d)) c
  kept : ∀ v mem b,
    b < pixelPtr info x y z ∨ pixelPtr info x y z + getPixelSize info.format ≤ b →
      (pack v info.format mem (pixelPtr info x y z)).mem b = mem b

/-- A format whose channels are stored as they are swizzled, each one by itself. -/
structure Stores (val : T → ℤ) (cast : Cast T)
    (pack : (Fin 4 → T) → ImageFormat → (ℕ → Byte) → ℕ → Packed T) (format : ImageFormat)
    (f : T → T) : Prop where
  zero : val (cast.ofInt 0) = 0
  one : val (cast.ofInt 1) = 1
  clamp : ∀ v, val (f v) = clamp format.channelDataType (val v)
  read : ∀ v mem a x tempData, ∀ c : Fin 4, c < getFormatChannelCount format →
    readChannels cast format (pack v format mem a).mem a x tempData c
      = f (swizzleVectorForImage v format.channelOrder c)
  kept : ∀ v mem a b, b < a ∨ a + getPixelSize format ≤ b → (pack v format mem a).mem b = mem b
  integer : format.channelDataType ≠ .raw10 ∧ format.channelDataType ≠ .raw12

variable {val : T → ℤ} {cast : Cast T}
  {pack : (Fin 4 → T) → ImageFormat → (ℕ → Byte) → ℕ → Packed T} {f : T → T}

theorem readImagePixelView_pitches (hmip : info.numMipLevels = 0) (lod : ℕ) :
    (readImagePixelView info lod).rowPitch = info.rowPitch ∧
      (readImagePixelView info lod).slicePitch = info.slicePitch := by
  simp only [readImagePixelView, hmip, Nat.lt_irrefl, if_false, apply_ite LevelView.rowPitch,
    apply_ite LevelView.slicePitch, ite_self, and_self]

theorem readImagePixel_of_stores (hs : Stores val cast pack info.format f)
    (hmip : info.numMipLevels = 0) (hunused : Unused info) (h : InBounds info x y z)
    (v : Fin 4 → T) (mem : ℕ → Byte) (tempData outData : Fin 4 → T) :
    readImagePixel cast (pack v info.format mem (pixelPtr info x y z)).mem info x y z 0
        tempData outData
      = placeChannels cast info.format.channelOrder fun i =>
          f (swizzleVectorForImage v info.format.channelOrder i) := by
  have hptr : ((readImagePixelView info 0).ptr info.format x y z).toNat = pixelPtr info x y z := by
    obtain ⟨hrow, hslice⟩ := readImagePixelView_pitches hmip 0
    rw [ptr_of_not_raw _ hs.integer, hrow, hslice, pixelPtr]
  rw [readImagePixel, if_neg (not_outside hunused h), hptr]
  exact placeChannels_congr cast _ fun c hc => hs.read v mem _ x tempData c hc

/-- **The round trip works for all orders but `CL_RGBx` and `CL_sRGBx`.** -/
theorem roundTrips_iff (hs : Stores val cast pack info.format f)
    (hmip : info.numMipLevels = 0) (hunused : Unused info) (h : InBounds info x y z)
    (horder : Swizzled info.format.channelOrder) :
    RoundTrips val cast pack info x y z ↔ ¬ IsRgbx info.format.channelOrder := by
  constructor
  · intro hr hrgbx
    have v : Fin 4 → T := fun _ => cast.ofInt 0
    have halpha := hr.read v (fun _ => 0) v v 3
    rw [readImagePixel_of_stores hs hmip hunused h, placeChannels_rgbx cast hrgbx, hs.zero,
      expected] at halpha
    rcases hrgbx with he | he <;> rw [he] at halpha <;> simp [source, absent] at halpha
  · refine fun hrgbx => ⟨fun v mem tempData outData c => ?_, fun v mem b hb => hs.kept v mem _ b hb⟩
    rw [readImagePixel_of_stores hs hmip hunused h, placeChannels_swizzle cast horder hrgbx,
      expected]
    cases source info.format.channelOrder c with
    | some d => exact hs.clamp (v d)
    | none =>
      change val (cast.ofInt (absent c)) = absent c
      rw [absent]
      split
      · exact hs.one
      · exact hs.zero

theorem stores_each {format : ImageFormat} {w : ℕ} {g : BitVec (8 * w) → T} {h : T → BitVec (8 * w)}
    (hzero : val (cast.ofInt 0) = 0) (hone : val (cast.ofInt 1) = 1)
    (hclamp : ∀ v, val (f v) = clamp format.channelDataType (val v))
    (hread : ∀ mem a x t, readChannels cast format mem a x t
      = readEach (getFormatChannelCount format) (fun i => g (load mem w (a + i * w))) t)
    (hpack : ∀ v mem a, (pack v format mem a).mem = storeEach (getFormatChannelCount format)
      (fun i => h (swizzleVectorForImage v format.channelOrder (Fin.ofNat 4 i))) mem a)
    (hsize : getPixelSize format = getFormatChannelCount format * w) (hgh : ∀ v, g (h v) = f v)
    (hraw : format.channelDataType ≠ .raw10 ∧ format.channelDataType ≠ .raw12) :
    Stores val cast pack format f where
  zero := hzero
  one := hone
  clamp := hclamp
  read v mem a x t c hc := by
    rw [hread, readEach_apply hc (getChannelOrderChannelCount_le _), hpack, load_storeEach hc, hgh,
      Fin.ofNat_val_eq_self]
  kept v mem a b hb := by
    rw [hpack, storeEach_of_outside (hsize ▸ hb)]
  integer := hraw

end

/-! ### Integers -/

theorem saturate_val {T : Type} [LT T] [DecidableLT T] {val : T → ℤ}
    (hlt : ∀ a b : T, a < b ↔ val a < val b) (v : T) {lo hi : T} (h : val lo ≤ val hi) :
    val (saturate v lo hi) = max (val lo) (min (val hi) (val v)) := by
  rw [saturate]
  split
  · rw [hlt] at *
    omega
  · split
    · simp only [hlt] at *
      omega
    · simp only [hlt] at *
      omega

/-- The conversions to `int`. -/
def castInt (ofHalf : BitVec 16 → Int32) (ofFloat : BitVec 32 → Int32) : Cast Int32 :=
  ⟨Int32.ofInt, ofHalf, ofFloat⟩

/-- The conversions to `unsigned int`. -/
def castUint (ofHalf : BitVec 16 → UInt32) (ofFloat : BitVec 32 → UInt32) : Cast UInt32 :=
  ⟨UInt32.ofInt, ofHalf, ofFloat⟩

theorem ofInt_toInt8 {v : Int32} (h : -128 ≤ v.toInt ∧ v.toInt ≤ 127) :
    Int32.ofInt v.toInt8.toBitVec.toInt = v := by
  rw [Int8.toInt_toBitVec, Int32.toInt_toInt8, Int.bmod_eq_of_le (by omega) (by omega),
    Int32.ofInt_toInt]

theorem ofInt_toInt16 {v : Int32} (h : -32768 ≤ v.toInt ∧ v.toInt ≤ 32767) :
    Int32.ofInt v.toInt16.toBitVec.toInt = v := by
  rw [Int16.toInt_toBitVec, Int32.toInt_toInt16, Int.bmod_eq_of_le (by omega) (by omega),
    Int32.ofInt_toInt]

theorem ofInt_toNat (v : UInt32) : UInt32.ofInt v.toNat = v := by
  have hlt := v.toNat_lt
  rw [UInt32.ofInt, Int.emod_eq_of_lt (by omega) (by omega), Int.toNat_natCast, UInt32.ofNat_toNat]

theorem ofInt_toUInt8 {v : UInt32} (h : v.toNat ≤ 255) :
    UInt32.ofInt v.toUInt8.toBitVec.toNat = v := by
  rw [UInt8.toNat_toBitVec, UInt32.toNat_toUInt8, Nat.mod_eq_of_lt (by omega), ofInt_toNat]

theorem ofInt_toUInt16 {v : UInt32} (h : v.toNat ≤ 65535) :
    UInt32.ofInt v.toUInt16.toBitVec.toNat = v := by
  rw [UInt16.toNat_toBitVec, UInt32.toNat_toUInt16, Nat.mod_eq_of_lt (by omega), ofInt_toNat]

/-- What `int` channels are stored as. -/
def storedInt : ChannelType → Int32 → Int32
  | .signedInt8, v => saturate v (-128) 127
  | .signedInt16, v => saturate v (-32768) 32767
  | _, v => v

/-- What `unsigned int` channels are stored as. -/
def storedUint : ChannelType → UInt32 → UInt32
  | .unsignedInt8, v => saturate v 0 255
  | .unsignedInt16, v => saturate v 0 65535
  | _, v => v

def IsSigned (type : ChannelType) : Prop :=
  type = .signedInt8 ∨ type = .signedInt16 ∨ type = .signedInt32

def IsUnsigned (type : ChannelType) : Prop :=
  type = .unsignedInt8 ∨ type = .unsignedInt16 ∨ type = .unsignedInt32

theorem storedInt_toInt {type : ChannelType} (h : IsSigned type) (v : Int32) :
    (storedInt type v).toInt = clamp type v.toInt := by
  rcases h with rfl | rfl | rfl
  · exact saturate_val (fun _ _ => Int32.lt_iff_toInt_lt) v (by decide)
  · exact saturate_val (fun _ _ => Int32.lt_iff_toInt_lt) v (by decide)
  · have hlt := v.toInt_lt
    have hge := v.le_toInt
    simp only [storedInt, clamp, lowest, highest]
    omega

theorem storedUint_toNat {type : ChannelType} (h : IsUnsigned type) (v : UInt32) :
    ((storedUint type v).toNat : ℤ) = clamp type v.toNat := by
  have hlt : ∀ a b : UInt32, a < b ↔ (a.toNat : ℤ) < b.toNat :=
    fun _ _ => UInt32.lt_iff_toNat_lt.trans Int.ofNat_lt.symm
  rcases h with rfl | rfl | rfl
  · exact @saturate_val UInt32 _ _ (fun v => v.toNat) hlt v 0 255 (by decide)
  · exact @saturate_val UInt32 _ _ (fun v => v.toNat) hlt v 0 65535 (by decide)
  · have := v.toNat_lt
    simp only [storedUint, clamp, lowest, highest]
    omega

theorem stores_int {format : ImageFormat} (h : IsSigned format.channelDataType)
    (ofHalf : BitVec 16 → Int32) (ofFloat : BitVec 32 → Int32) :
    Stores Int32.toInt (castInt ofHalf ofFloat) packImagePixelInt format
      (storedInt format.channelDataType) := by
  obtain ⟨order, type⟩ := format
  have hclamp := storedInt_toInt h
  rcases h with h | h | h <;> change type = _ at h <;> subst h <;>
    simp only [clamp, lowest, highest] at hclamp
  · refine stores_each (w := 1) (g := fun d => Int32.ofInt d.toInt)
      (h := fun v => (saturate v (-128) 127).toInt8.toBitVec) rfl rfl hclamp (fun _ _ _ _ => rfl)
      (fun _ _ _ => rfl) (Nat.mul_one _).symm (fun v => ofInt_toInt8 ?_) ⟨nofun, nofun⟩
    have hv : (saturate v (-128) 127).toInt = max (-128) (min 127 v.toInt) := hclamp v
    omega
  · refine stores_each (w := 2) (g := fun d => Int32.ofInt d.toInt)
      (h := fun v => (saturate v (-32768) 32767).toInt16.toBitVec) rfl rfl hclamp
      (fun _ _ _ _ => rfl) (fun _ _ _ => rfl) rfl (fun v => ofInt_toInt16 ?_) ⟨nofun, nofun⟩
    have hv : (saturate v (-32768) 32767).toInt = max (-32768) (min 32767 v.toInt) := hclamp v
    omega
  · exact stores_each (w := 4) (g := fun d => Int32.ofInt d.toInt) (h := Int32.toBitVec) rfl rfl
      hclamp (fun _ _ _ _ => rfl) (fun _ _ _ => rfl) rfl Int32.ofInt_toInt ⟨nofun, nofun⟩

theorem stores_uint {format : ImageFormat} (h : IsUnsigned format.channelDataType)
    (ofHalf : BitVec 16 → UInt32) (ofFloat : BitVec 32 → UInt32) :
    Stores (fun v => (v.toNat : ℤ)) (castUint ofHalf ofFloat) packImagePixelUint format
      (storedUint format.channelDataType) := by
  obtain ⟨order, type⟩ := format
  have hclamp := storedUint_toNat h
  rcases h with h | h | h <;> change type = _ at h <;> subst h <;>
    simp only [clamp, lowest, highest] at hclamp
  · refine stores_each (w := 1) (g := fun d => UInt32.ofInt d.toNat)
      (h := fun v => (saturate v 0 255).toUInt8.toBitVec) rfl rfl hclamp (fun _ _ _ _ => rfl)
      (fun _ _ _ => rfl) (Nat.mul_one _).symm (fun v => ofInt_toUInt8 ?_) ⟨nofun, nofun⟩
    have hv : ((saturate v 0 255).toNat : ℤ) = max 0 (min 255 (v.toNat : ℤ)) := hclamp v
    omega
  · refine stores_each (w := 2) (g := fun d => UInt32.ofInt d.toNat)
      (h := fun v => (saturate v 0 65535).toUInt16.toBitVec) rfl rfl hclamp
      (fun _ _ _ _ => rfl) (fun _ _ _ => rfl) rfl (fun v => ofInt_toUInt16 ?_) ⟨nofun, nofun⟩
    have hv : ((saturate v 0 65535).toNat : ℤ) = max 0 (min 65535 (v.toNat : ℤ)) := hclamp v
    omega
  · exact stores_each (w := 4) (g := fun d => UInt32.ofInt d.toNat) (h := UInt32.toBitVec) rfl rfl
      hclamp (fun _ _ _ _ => rfl) (fun _ _ _ => rfl) rfl ofInt_toNat ⟨nofun, nofun⟩

/-- **A packed pixel is read as it was, unless the order is `CL_RGBx` or `CL_sRGBx`.** -/
theorem codec_iff {info : ImageDescriptor} {x y z : ℤ} (hmip : info.numMipLevels = 0)
    (hunused : Unused info) (h : InBounds info x y z) (horder : Swizzled info.format.channelOrder) :
    (IsSigned info.format.channelDataType → ∀ ofHalf ofFloat,
      (RoundTrips Int32.toInt (castInt ofHalf ofFloat) packImagePixelInt info x y z ↔
        ¬ IsRgbx info.format.channelOrder)) ∧
    (IsUnsigned info.format.channelDataType → ∀ ofHalf ofFloat,
      (RoundTrips (fun v => (v.toNat : ℤ)) (castUint ofHalf ofFloat) packImagePixelUint info x y z ↔
        ¬ IsRgbx info.format.channelOrder)) :=
  ⟨fun htype ofHalf ofFloat =>
      roundTrips_iff (stores_int htype ofHalf ofFloat) hmip hunused h horder,
    fun htype ofHalf ofFloat =>
      roundTrips_iff (stores_uint htype ofHalf ofFloat) hmip hunused h horder⟩

/-- An image of `2 × 2` pixels of the order `CL_BGRA` with padding. -/
theorem codec_iff_bgra :
    RoundTrips Int32.toInt (castInt (fun _ => 0) (fun _ => 0)) packImagePixelInt
      ⟨2, 2, 0, 20, 40, 0, ⟨.bgra, .signedInt16⟩, .image2D, 0⟩ 1 1 0 :=
  ((codec_iff rfl ⟨by decide, by decide, by decide, by decide⟩
    ⟨by decide, by decide, by decide⟩ ⟨by decide, by decide⟩).1 (.inr (.inl rfl)) _ _).mpr
    (by rintro (h | h) <;> cases h)

/-- A pixel of the order `CL_RGBx` is read with 0 for alpha. -/
theorem not_roundTrips_rgbx :
    ¬ RoundTrips Int32.toInt (castInt (fun _ => 0) (fun _ => 0)) packImagePixelInt
      ⟨1, 1, 0, 3, 3, 0, ⟨.rgbx, .signedInt8⟩, .image2D, 0⟩ 0 0 0 := fun h =>
  (roundTrips_iff (stores_int (.inl rfl) _ _) rfl ⟨by decide, by decide, by decide, by decide⟩
    ⟨by decide, by decide, by decide⟩ ⟨by decide, by decide⟩).mp h (.inl rfl)

end OpenCLCTS.Images
