import Mathlib.Data.Int.Notation
import OpenCLCTS.Images.Levels
import OpenCLCTS.Lib.Words

/-!
# Reading a pixel

`read_image_pixel`: the level is looked at, a coordinate outside of it gives the border
color, and otherwise the channels of the pixel are read and put into their places.
-/

namespace OpenCLCTS.Images

open Memory Function

/-! ### The level -/

/-- `(int)` of a size. -/
def toInt (n : ℕ) : ℤ := (BitVec.ofNat 32 n).toInt

theorem toInt_zero : toInt 0 = 0 := rfl

theorem toInt_one : toInt 1 = 1 := rfl

/-- How `read_image_pixel` sees a level: a height or depth of 0 bounds nothing. -/
def readImagePixelView (info : ImageDescriptor) (lod : ℕ) : LevelView :=
  let width := mipDim info.width lod
  let height := match info.type with
    | .image1DArray | .image1D => info.height
    | _ => mipDim info.height lod
  let depth := match info.type with
    | .image3D => mipDim info.depth lod
    | _ => info.depth
  let rowPitch := if 0 < info.numMipLevels then width * getPixelSize info.format else info.rowPitch
  let slicePitch := if 0 < info.numMipLevels then rowPitch * height else info.slicePitch
  if info.type = .image1DArray ∧ height = 1 ∧ depth = 1 then ⟨width, 0, 0, rowPitch, slicePitch⟩
  else if info.type = .image2DArray ∧ depth = 1 then ⟨width, height, 0, rowPitch, slicePitch⟩
  else ⟨width, height, depth, rowPitch, slicePitch⟩

/-- The coordinates that get the border color in `read_image_pixel`. -/
def Outside (v : LevelView) (arraySize : ℕ) (x y z : ℤ) : Prop :=
  x < 0 ∨ toInt v.width ≤ x ∨ (v.height ≠ 0 ∧ (y < 0 ∨ toInt v.height ≤ y)) ∨
    (v.depth ≠ 0 ∧ (z < 0 ∨ toInt v.depth ≤ z)) ∨ arraySize ≠ 0 ∧ (z < 0 ∨ toInt arraySize ≤ z)

instance (v : LevelView) (arraySize : ℕ) (x y z : ℤ) : Decidable (Outside v arraySize x y z) :=
  inferInstanceAs (Decidable (_ ∨ _ ∨ _ ∨ _ ∨ _))

/-! ### The pixel -/

/-- `has_alpha`. -/
def hasAlpha : ChannelOrder → Bool
  | .a | .ra | .rgba | .bgra | .argb | .abgr | .intensity | .sRGBA | .sBGRA => true
  | .r | .rx | .rg | .rgx | .rgb | .sRGB | .rgbx | .sRGBx | .luminance | .depth => false
  | .depthStencil => false

/-- The conversions to the type of the channels that are returned. -/
structure Cast (T : Type) where
  ofInt : ℤ → T
  ofHalf : BitVec 16 → T
  ofFloat : BitVec 32 → T

variable {T : Type}

/-- The border color. -/
def borderColor (cast : Cast T) (order : ChannelOrder) (outData : Fin 4 → T) : Fin 4 → T :=
  match order with
  | .depth => update outData 0 (cast.ofInt 1)
  | _ =>
    let outData := fun _ => cast.ofInt 0
    if hasAlpha order then outData else update outData 3 (cast.ofInt 1)

/-- Where the pixel is, or in the raw formats the group of pixels. -/
def LevelView.ptr (v : LevelView) (format : ImageFormat) (x y z : ℤ) : ℤ :=
  match format.channelDataType with
  | .raw10 => z * v.slicePitch + y * v.rowPitch + x.tdiv 4 * 5
  | .raw12 => z * v.slicePitch + y * v.rowPitch + x.tdiv 2 * 3
  | _ => z * v.slicePitch + y * v.rowPitch + x * getPixelSize format

theorem ptr_of_not_raw (v : LevelView) {format : ImageFormat}
    (h : format.channelDataType ≠ .raw10 ∧ format.channelDataType ≠ .raw12) (x y z : ℤ) :
    v.ptr format x y z = z * v.slicePitch + y * v.rowPitch + x * getPixelSize format := by
  rw [LevelView.ptr]
  split
  · exact absurd ‹_› h.1
  · exact absurd ‹_› h.2
  · rfl

/-- `for (i = 0; i < channelCount; i++) tempData[i] = f(i)`. -/
def readEach (n : ℕ) (f : ℕ → T) (tempData : Fin 4 → T) : Fin 4 → T :=
  (List.range' 0 n).foldl (fun t i => update t (Fin.ofNat 4 i) (f i)) tempData

/-- Reads the channels, with `tempData` for those that are not read. -/
def readChannels (cast : Cast T) (format : ImageFormat) (mem : ℕ → Byte) (ptr : ℕ) (x : ℤ)
    (tempData : Fin 4 → T) : Fin 4 → T :=
  let each (w : ℕ) (f : BitVec (8 * w) → T) : Fin 4 → T :=
    readEach (getFormatChannelCount format) (fun i => f (load mem w (ptr + i * w))) tempData
  match format.channelDataType with
  | .snormInt8 | .signedInt8 => each 1 fun d => cast.ofInt d.toInt
  | .unormInt8 | .unsignedInt8 => each 1 fun d => cast.ofInt d.toNat
  | .snormInt16 | .signedInt16 => each 2 fun d => cast.ofInt d.toInt
  | .unormInt16 | .unsignedInt16 => each 2 fun d => cast.ofInt d.toNat
  | .halfFloat => each 2 cast.ofHalf
  | .signedInt32 => each 4 fun d => cast.ofInt d.toInt
  | .unsignedInt32 => each 4 fun d => cast.ofInt d.toNat
  | .float => each 4 cast.ofFloat
  | .unormShort565 =>
    let d := (load mem 2 ptr).toNat
    let t := update tempData 0 (cast.ofInt (d >>> 11 : ℕ))
    let t := update t 1 (cast.ofInt (d >>> 5 &&& 63 : ℕ))
    update t 2 (cast.ofInt (d &&& 31 : ℕ))
  | .unormShort555 =>
    let d := (load mem 2 ptr).toNat
    let t := update tempData 0 (cast.ofInt (d >>> 10 &&& 31 : ℕ))
    let t := update t 1 (cast.ofInt (d >>> 5 &&& 31 : ℕ))
    update t 2 (cast.ofInt (d &&& 31 : ℕ))
  | .unormInt101010 =>
    let d := (load mem 4 ptr).toNat
    let t := update tempData 0 (cast.ofInt (d >>> 20 &&& 0x3ff : ℕ))
    let t := update t 1 (cast.ofInt (d >>> 10 &&& 0x3ff : ℕ))
    update t 2 (cast.ofInt (d &&& 0x3ff : ℕ))
  | .raw10 =>
    let i := (x.tmod 4).toNat
    let bitIndex := i <<< 1
    let hi := (mem (ptr + i)).toNat <<< 2
    let lo := ((mem (ptr + 4)).toNat &&& 0x3 <<< bitIndex) >>> bitIndex
    update tempData 0 (cast.ofInt (hi ||| lo : ℕ))
  | .raw12 =>
    let i := (x.tmod 2).toNat
    let bitIndex := i <<< 2
    let hi := (mem (ptr + i)).toNat <<< 4
    let lo := ((mem (ptr + 2)).toNat &&& 0xF <<< bitIndex) >>> bitIndex
    update tempData 0 (cast.ofInt (hi ||| lo : ℕ))
  | .unormInt24 | .unormInt101010_2 | .unormInt2_101010 => tempData

/-- Puts the channels into their places. -/
def placeChannels (cast : Cast T) (order : ChannelOrder) (tempData : Fin 4 → T) : Fin 4 → T :=
  let out := update (fun _ => cast.ofInt 0) 3 (cast.ofInt 1)
  match order with
  | .a => update out 3 (tempData 0)
  | .r | .rx => update out 0 (tempData 0)
  | .ra => update (update out 0 (tempData 0)) 3 (tempData 1)
  | .rg | .rgx => update (update out 0 (tempData 0)) 1 (tempData 1)
  | .rgb | .sRGB => update (update (update out 0 (tempData 0)) 1 (tempData 1)) 2 (tempData 2)
  | .rgbx | .sRGBx =>
    let out := update (update (update out 0 (tempData 0)) 1 (tempData 1)) 2 (tempData 2)
    update out 3 (cast.ofInt 0)
  | .rgba | .sRGBA =>
    let out := update (update (update out 0 (tempData 0)) 1 (tempData 1)) 2 (tempData 2)
    update out 3 (tempData 3)
  | .argb =>
    let out := update (update (update out 0 (tempData 1)) 1 (tempData 2)) 2 (tempData 3)
    update out 3 (tempData 0)
  | .abgr =>
    let out := update (update (update out 0 (tempData 3)) 1 (tempData 2)) 2 (tempData 1)
    update out 3 (tempData 0)
  | .bgra | .sBGRA =>
    let out := update (update (update out 0 (tempData 2)) 1 (tempData 1)) 2 (tempData 0)
    update out 3 (tempData 3)
  | .intensity =>
    let out := update (update (update out 0 (tempData 0)) 1 (tempData 0)) 2 (tempData 0)
    update out 3 (tempData 0)
  | .luminance => update (update (update out 0 (tempData 0)) 1 (tempData 0)) 2 (tempData 0)
  | .depth => update out 0 (tempData 0)
  | .depthStencil => out

/-- `read_image_pixel`.  The array `tempData` is not initialised, and `outData` is what the
caller has there. -/
def readImagePixel (cast : Cast T) (mem : ℕ → Byte) (info : ImageDescriptor) (x y z : ℤ)
    (lod : ℕ) (tempData outData : Fin 4 → T) : Fin 4 → T :=
  let v := readImagePixelView info lod
  if Outside v info.arraySize x y z then borderColor cast info.format.channelOrder outData
  else
    placeChannels cast info.format.channelOrder
      (readChannels cast info.format mem (v.ptr info.format x y z).toNat x tempData)

end OpenCLCTS.Images
