import OpenCLCTS.Images.Addressing
import OpenCLCTS.Images.PackFloat
import OpenCLCTS.Lib.Binary32

/-!
# Samples of float images

`sample_image_pixel_float_offset` finds the texels around a coordinate, reads them with
`read_image_pixel_float` and, for the linear filter, adds them up with weights.  An offset is added to
the coordinates when they are no longer normalized.

* `sampleFloatOffset_of_not_normalized`: other coordinates have no offset.
* `sampleFloatOffset_of_array`: neither have layers.
-/

namespace OpenCLCTS.Images

open Binary32 Memory Function

/-! ### Numbers -/

/-- Values of type `double`: their results are rounded to more bits. -/
abbrev Double := Binary32

namespace Double

def ofRat (q : ℚ) : Double :=
  if |FloatFormat.binary64.round q| < 2 ^ 1024 then .finite (FloatFormat.binary64.round q)
  else .inf (decide (q < 0))

def add : Double → Double → Double
  | .finite a, .finite b => ofRat (a + b)
  | a, b => Binary32.add a b

def sub (a b : Double) : Double := add a (Binary32.neg b)

def mul : Double → Double → Double
  | .finite a, .finite b => ofRat (a * b)
  | a, b => Binary32.mul a b

/-- `(float)`. -/
def toFloat : Double → Binary32
  | .finite q => Binary32.ofRat q
  | a => a

end Double

def fzero : Binary32 := .finite 0

def fone : Binary32 := .finite 1

/-- `FLT_MIN`. -/
def fltMin : Binary32 := .finite (2 ^ (-126 : ℤ))

def floorf : Binary32 → Binary32
  | .finite q => .finite ⌊q⌋
  | a => a

def rintf : Binary32 → Binary32
  | .finite q => .finite (nearest q)
  | a => a

def fminf (a b : Binary32) : Binary32 :=
  if a = .nan then b else if b = .nan then a else if b.lt a then b else a

def fmaxf (a b : Binary32) : Binary32 :=
  if a = .nan then b else if b = .nan then a else if a.lt b then b else a

/-- The quotient of a float and a constant. -/
def divBy (a : Binary32) (d : ℕ) : Binary32 :=
  match a with
  | .finite q => Binary32.ofRat (q / d)
  | a => a

/-- `CLAMP_FLOAT`. -/
def clampFloat (v : Binary32) : Binary32 := fmaxf (fminf v fone) (.finite (-1))

/-- `cl_half_to_float`. -/
def halfToFloat (h : BitVec 16) : Binary32 :=
  match FloatFormat.binary16.floatClass h with
  | .nan => .nan
  | .infinite => .inf h.msb
  | _ => .finite (FloatFormat.binary16.value h)

/-- `IsFloatSubnormal`. -/
def isFloatSubnormal : Binary32 → Bool
  | .finite q => q ≠ 0 && |q| < 2 ^ (-126 : ℤ)
  | _ => false

/-- What is not determined by arithmetic alone. -/
structure SampleFunctions where
  /-- Conversions to an integer type that does not have the number. -/
  undefined : Binary32 → ℤ
  sRGBmap : Binary32 → Double
  sRGBunmap : Binary32 → Double

/-- The operations on floats. -/
def SampleFunctions.ops (fns : SampleFunctions) : FloatOps Binary32 where
  zero := fzero
  half := .finite (1 / 2)
  one := fone
  two := .finite 2
  add := Binary32.add
  sub := Binary32.sub
  mul := Binary32.mul
  floor := floorf
  rint := rintf
  abs := Binary32.abs
  lt := Binary32.lt
  ne a b := a = .nan || a ≠ b
  ofSize n := Binary32.ofInt n
  toSize a := (Binary32.toInt fns.undefined 0 (2 ^ 64 - 1) a).toNat
  toInt a := some (Binary32.toInt fns.undefined (-2 ^ 31) (2 ^ 31 - 1) a)

/-! ### `read_image_pixel_float` -/

/-- `FloatPixel`, or an array of four channels. -/
abbrev FloatPixel := Fin 4 → Binary32

/-- Reads the channels, with `tempData` for those that are not read. -/
def floatChannels (fns : SampleFunctions) (format : ImageFormat) (mem : ℕ → Byte) (ptr : ℕ)
    (tempData : FloatPixel) : FloatPixel :=
  let each (w : ℕ) (f : ℕ → BitVec (8 * w) → Binary32) : FloatPixel :=
    readEach (getFormatChannelCount format) (fun i => f i (load mem w (ptr + i * w))) tempData
  match format.channelDataType with
  | .snormInt8 => each 1 fun _ d => clampFloat (divBy (.ofInt d.toInt) 127)
  | .unormInt8 => each 1 fun i d =>
    if isSRGBAOrder format.channelOrder && i < 3 then
      Double.toFloat (fns.sRGBunmap (divBy (.ofInt d.toNat) 255))
    else divBy (.ofInt d.toNat) 255
  | .signedInt8 => each 1 fun _ d => .ofInt d.toInt
  | .unsignedInt8 => each 1 fun _ d => .ofInt d.toNat
  | .snormInt16 => each 2 fun _ d => clampFloat (divBy (.ofInt d.toInt) 32767)
  | .unormInt16 => each 2 fun _ d => divBy (.ofInt d.toNat) 65535
  | .signedInt16 => each 2 fun _ d => .ofInt d.toInt
  | .unsignedInt16 => each 2 fun _ d => .ofInt d.toNat
  | .halfFloat => each 2 fun _ d => halfToFloat d
  | .signedInt32 => each 4 fun _ d => .ofInt d.toInt
  | .unsignedInt32 => each 4 fun _ d => .ofInt d.toNat
  | .unormShort565 =>
    let d := (load mem 2 ptr).toNat
    let t := update tempData 0 (divBy (.ofInt (d >>> 11 : ℕ)) 31)
    let t := update t 1 (divBy (.ofInt (d >>> 5 &&& 63 : ℕ)) 63)
    update t 2 (divBy (.ofInt (d &&& 31 : ℕ)) 31)
  | .unormShort555 =>
    let d := (load mem 2 ptr).toNat
    let t := update tempData 0 (divBy (.ofInt (d >>> 10 &&& 31 : ℕ)) 31)
    let t := update t 1 (divBy (.ofInt (d >>> 5 &&& 31 : ℕ)) 31)
    update t 2 (divBy (.ofInt (d &&& 31 : ℕ)) 31)
  | .unormInt101010 =>
    let d := (load mem 4 ptr).toNat
    let t := update tempData 0 (divBy (.ofInt (d >>> 20 &&& 0x3ff : ℕ)) 1023)
    let t := update t 1 (divBy (.ofInt (d >>> 10 &&& 0x3ff : ℕ)) 1023)
    update t 2 (divBy (.ofInt (d &&& 0x3ff : ℕ)) 1023)
  | .unormInt101010_2 =>
    let d := (load mem 4 ptr).toNat
    let t := update tempData 0 (divBy (.ofInt (d >>> 22 &&& 0x3ff : ℕ)) 1023)
    let t := update t 1 (divBy (.ofInt (d >>> 12 &&& 0x3ff : ℕ)) 1023)
    let t := update t 2 (divBy (.ofInt (d >>> 2 &&& 0x3ff : ℕ)) 1023)
    update t 3 (divBy (.ofInt (d &&& 3 : ℕ)) 3)
  | .unormInt2_101010 =>
    let d := (load mem 4 ptr).toNat
    let t := update tempData 0 (divBy (.ofInt (d >>> 30 &&& 3 : ℕ)) 3)
    let t := update t 1 (divBy (.ofInt (d >>> 20 &&& 0x3ff : ℕ)) 1023)
    let t := update t 2 (divBy (.ofInt (d >>> 10 &&& 0x3ff : ℕ)) 1023)
    update t 3 (divBy (.ofInt (d &&& 0x3ff : ℕ)) 1023)
  | .float => each 4 fun _ d => .ofBits d
  | .unormInt24 | .raw10 | .raw12 => tempData

/-- Puts the channels into their places. -/
def placeFloats (order : ChannelOrder) (tempData : FloatPixel) : FloatPixel :=
  let out : FloatPixel := update (fun _ => fzero) 3 fone
  match order with
  | .a => update out 3 (tempData 0)
  | .r | .rx | .depth => update out 0 (tempData 0)
  | .ra => update (update out 0 (tempData 0)) 3 (tempData 1)
  | .rg | .rgx => update (update out 0 (tempData 0)) 1 (tempData 1)
  | .rgb | .rgbx | .sRGB | .sRGBx =>
    update (update (update out 0 (tempData 0)) 1 (tempData 1)) 2 (tempData 2)
  | .rgba | .sRGBA => tempData
  | .argb => ![tempData 1, tempData 2, tempData 3, tempData 0]
  | .abgr => ![tempData 3, tempData 2, tempData 1, tempData 0]
  | .bgra | .sBGRA => ![tempData 2, tempData 1, tempData 0, tempData 3]
  | .intensity => fun _ => tempData 0
  | .luminance => update (update (update out 0 (tempData 0)) 1 (tempData 0)) 2 (tempData 0)
  | .depthStencil => out

instance (v : LevelView) (arraySize : ℕ) (x y z : ℤ) : Decidable (OutsideFloat v arraySize x y z) :=
  inferInstanceAs (Decidable (_ ∨ _))

/-- An image in memory, from `imageData` on. -/
structure FloatImage where
  fns : SampleFunctions
  mem : ℕ → Byte
  imageData : ℕ
  info : ImageDescriptor
  /-- What an array has before it is written. -/
  tempData : FloatPixel

/-- `read_image_pixel_float`, of the layer that starts at `layerOffset`. -/
def readImagePixelFloat (image : FloatImage) (layerOffset : ℕ) (x y z : ℤ) (lod : ℕ) : FloatPixel :=
  let v := readImagePixelFloatView image.info lod
  let format := image.info.format
  if OutsideFloat v image.info.arraySize x y z then
    update (fun _ => fzero) 3 (if hasAlpha format.channelOrder then fzero else fone)
  else
    placeFloats format.channelOrder (floatChannels image.fns format image.mem
      (image.imageData + layerOffset + (v.ptrFloat format x y z).toNat) image.tempData)

/-! ### `sample_image_pixel_float_offset` -/

/-- `frac`. -/
def frac (a : Binary32) : Binary32 := a.sub (floorf a)

/-- `errMax`. -/
def errMax (x y : Binary32) : Binary32 := if x = .nan then x else if y.lt x then x else y

/-- `pixelMax`. -/
def pixelMax (a b : FloatPixel) : FloatPixel := fun i => errMax (a i).abs (b i).abs

/-- What `check_for_denorms` makes of a pixel; `flush` is for `containsDenorms == NULL`. -/
def checkForDenorms (flush : Bool) (a : FloatPixel) : FloatPixel :=
  fun i => if flush && isFloatSubnormal (a i) then fzero else a i

/-- What it finds out. -/
def hasDenorms (a : FloatPixel) : Bool := (List.finRange 4).any fun i => isFloatSubnormal (a i)

/-- `outData`, the maxima that are returned, and `containsDenorms`. -/
structure FloatSample where
  outData : FloatPixel
  maxPixel : FloatPixel
  containsDenorms : Bool

/-- The coordinates, no longer normalized, and with the offset. -/
def unnormalized (image : FloatImage) (x y z xOffset yOffset zOffset : Binary32)
    (sampler : ImageSampler) (lod : ℕ) : Binary32 × Binary32 × Binary32 :=
  let ops := image.fns.ops
  let v := readImagePixelFloatView image.info lod
  let mode := sampler.addressingMode
  if sampler.normalizedCoords then
    let x := unnormalizeCoordinate ops x xOffset (ops.ofSize v.width) mode
    match image.info.type with
    | .image1DArray => (x, y, ops.zero)
    | .image2DArray => (x, unnormalizeCoordinate ops y yOffset (ops.ofSize v.height) mode, z)
    | _ => (x, unnormalizeCoordinate ops y yOffset (ops.ofSize v.height) mode,
        unnormalizeCoordinate ops z zOffset (ops.ofSize v.depth) mode)
  else (x, y, z)

/-- The two texels around a coordinate. -/
def linearPair (ops : FloatOps Binary32) (adFn : ℤ → ℕ → ℤ) (c : Binary32) (extent : ℕ) : ℤ × ℤ :=
  let below := ops.floor (ops.sub c ops.half)
  (adFn ((ops.toInt below).getD 0) extent, adFn ((ops.toInt (ops.add below ops.one)).getD 0) extent)

/-- `(float)` of a sum of channels with weights, which is flushed without `containsDenorms`. -/
def weightedSum (flush : Bool) (terms : List (FloatPixel × Double)) : FloatPixel := fun i =>
  let products := terms.map fun t => Double.mul (t.1 i) t.2
  let sum := Double.toFloat (products.tail.foldl Double.add (products.headD fzero))
  if flush && (Binary32.abs sum).lt fltMin then fzero else sum

/-- The linear filter in a layer. -/
def sampleLinear2D (image : FloatImage) (x y z : Binary32) (sampler : ImageSampler) (flush : Bool)
    (lod : ℕ) : FloatSample :=
  let ops := image.fns.ops
  let info := image.info
  let v := readImagePixelFloatView info lod
  let adFn := addressingTable sampler
  let arrayIndex := match info.type with
    | .image2DArray => calculateArrayIndex ops z (ops.ofSize (pred info.arraySize))
    | .image1DArray => calculateArrayIndex ops y (ops.ofSize (pred info.arraySize))
    | _ => ops.zero
  let layerOffset := v.slicePitch * ops.toSize arrayIndex
  let xs := linearPair ops adFn x v.width
  let (y, ys) := match info.type with
    | .image1D | .image1DArray | .image1DBuffer => (ops.half, ((0 : ℤ), (0 : ℤ)))
    | _ => (y, linearPair ops adFn y v.height)
  let upLeft := readImagePixelFloat image layerOffset xs.1 ys.1 0 lod
  let upRight := readImagePixelFloat image layerOffset xs.2 ys.1 0 lod
  let lowLeft := readImagePixelFloat image layerOffset xs.1 ys.2 0 lod
  let lowRight := readImagePixelFloat image layerOffset xs.2 ys.2 0 lod
  let check := checkForDenorms flush
  let fx := frac (ops.sub x ops.half)
  let fy := frac (ops.sub y ops.half)
  { outData := weightedSum flush
      [(check upLeft, Double.mul (Double.sub fone fx) (Double.sub fone fy)),
        (check upRight, Double.mul fx (Double.sub fone fy)),
        (check lowLeft, Double.mul (Double.sub fone fx) fy),
        (check lowRight, Double.mul fx fy)]
    maxPixel := pixelMax (pixelMax (check upLeft) (check upRight))
      (pixelMax (check lowLeft) (check lowRight))
    containsDenorms := [upLeft, upRight, lowLeft, lowRight].any hasDenorms }

/-- The linear filter in a `3D` image. -/
def sampleLinear3D (image : FloatImage) (x y z : Binary32) (sampler : ImageSampler) (flush : Bool)
    (lod : ℕ) : FloatSample :=
  let ops := image.fns.ops
  let v := readImagePixelFloatView image.info lod
  let adFn := addressingTable sampler
  let xs := linearPair ops adFn x v.width
  let ys := linearPair ops adFn y v.height
  let zs := linearPair ops adFn z v.depth
  let upLeftA := readImagePixelFloat image 0 xs.1 ys.1 zs.1 lod
  let upRightA := readImagePixelFloat image 0 xs.2 ys.1 zs.1 lod
  let lowLeftA := readImagePixelFloat image 0 xs.1 ys.2 zs.1 lod
  let lowRightA := readImagePixelFloat image 0 xs.2 ys.2 zs.1 lod
  let upLeftB := readImagePixelFloat image 0 xs.1 ys.1 zs.2 lod
  let upRightB := readImagePixelFloat image 0 xs.2 ys.1 zs.2 lod
  let lowLeftB := readImagePixelFloat image 0 xs.1 ys.2 zs.2 lod
  let lowRightB := readImagePixelFloat image 0 xs.2 ys.2 zs.2 lod
  let check := checkForDenorms flush
  let a := frac (ops.sub x ops.half)
  let b := frac (ops.sub y ops.half)
  let c := frac (ops.sub z ops.half)
  let weight (p q r : Binary32) : Double := Double.mul (Double.mul p q) r
  let a' := ops.sub ops.one a
  let b' := ops.sub ops.one b
  let c' := ops.sub ops.one c
  let maxA := pixelMax (pixelMax (check upLeftA) (check upRightA))
    (pixelMax (check lowLeftA) (check lowRightA))
  let maxB := pixelMax (pixelMax (check upLeftB) (check upRightB))
    (pixelMax (check lowLeftB) (check lowRightB))
  { outData := weightedSum flush
      [(check upLeftA, weight a' b' c'), (check upRightA, weight a b' c'),
        (check lowLeftA, weight a' b c'), (check lowRightA, weight a b c'),
        (check upLeftB, weight a' b' c), (check upRightB, weight a b' c),
        (check lowLeftB, weight a' b c), (check lowRightB, weight a b c)]
    maxPixel := pixelMax maxB maxA
    containsDenorms := [upLeftA, upRightA, lowLeftA, lowRightA, upLeftB, upRightB, lowLeftB,
      lowRightB].any hasDenorms }

/-- `sample_image_pixel_float_offset`; `flush` is for `containsDenorms == NULL`. -/
def sampleFloatOffset (image : FloatImage) (x y z xOffset yOffset zOffset : Binary32)
    (sampler : ImageSampler) (flush : Bool) (lod : ℕ) : FloatSample :=
  let v := readImagePixelFloatView image.info lod
  if sampler.filterMode = .nearest then
    let texel := (sampleImagePixelFloatOffset image.fns.ops image.info x y z xOffset yOffset zOffset
      sampler lod).getD ⟨0, 0, 0⟩
    let outData := readImagePixelFloat image 0 texel.x texel.y texel.z lod
    ⟨checkForDenorms flush outData, fun i => (checkForDenorms flush outData i).abs,
      hasDenorms outData⟩
  else
    let (x, y, z) := unnormalized image x y z xOffset yOffset zOffset sampler lod
    if v.depth = 0 ∨ image.info.type = .image2DArray ∨ image.info.type = .image1DArray then
      sampleLinear2D image x y z sampler flush lod
    else sampleLinear3D image x y z sampler flush lod

section

variable {image : FloatImage} {x y z : Binary32} {sampler : ImageSampler} {flush : Bool} {lod : ℕ}

/-- **Coordinates that are not normalized have no offset.** -/
theorem sampleFloatOffset_of_not_normalized (h : sampler.normalizedCoords = false)
    (xo yo zo xo' yo' zo' : Binary32) :
    sampleFloatOffset image x y z xo yo zo sampler flush lod
      = sampleFloatOffset image x y z xo' yo' zo' sampler flush lod := by
  have hlinear : unnormalized image x y z xo yo zo sampler lod
      = unnormalized image x y z xo' yo' zo' sampler lod := by
    simp only [unnormalized, h, Bool.false_eq_true, if_false]
  have hnearest : sampleImagePixelFloatOffset image.fns.ops image.info x y z xo yo zo sampler lod
      = sampleImagePixelFloatOffset image.fns.ops image.info x y z xo' yo' zo' sampler lod := by
    simp only [sampleImagePixelFloatOffset, h, Bool.false_eq_true, if_false]
  rw [sampleFloatOffset, sampleFloatOffset, hlinear, hnearest]

/-- **Layers have no offset.** -/
theorem sampleFloatOffset_of_array (h : image.info.type = .image2DArray)
    (xo yo zo zo' : Binary32) : sampleFloatOffset image x y z xo yo zo sampler flush lod
      = sampleFloatOffset image x y z xo yo zo' sampler flush lod := by
  have hlinear : unnormalized image x y z xo yo zo sampler lod
      = unnormalized image x y z xo yo zo' sampler lod := by
    simp only [unnormalized, h]
  have hnearest : sampleImagePixelFloatOffset image.fns.ops image.info x y z xo yo zo sampler lod
      = sampleImagePixelFloatOffset image.fns.ops image.info x y z xo yo zo' sampler lod := by
    simp only [sampleImagePixelFloatOffset, h]
  rw [sampleFloatOffset, sampleFloatOffset, hlinear, hnearest]

end

end OpenCLCTS.Images
