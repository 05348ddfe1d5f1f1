import OpenCLCTS.Images.ReadPixel

/-!
# The texels that samplers select

Two references find the texel for a coordinate, with the nearest filter:
`get_integer_coords_offset`, which is called by `sample_image_pixel_offset`, and
`sample_image_pixel_float_offset`.  The operations on `float` are those of `FloatOps`; a
conversion to `int` of a value that is out of range has no result.
-/

namespace OpenCLCTS.Images

/-- The operations on `float` that the references use. -/
structure FloatOps (F : Type) where
  zero : F
  half : F
  one : F
  two : F
  add : F → F → F
  sub : F → F → F
  mul : F → F → F
  floor : F → F
  rint : F → F
  abs : F → F
  lt : F → F → Bool
  ne : F → F → Bool
  /-- `(float)` of a `size_t`. -/
  ofSize : ℕ → F
  /-- `(size_t)`. -/
  toSize : F → ℕ
  /-- `(int)`. -/
  toInt : F → Option ℤ

/-- `cl_addressing_mode`. -/
inductive AddressingMode
  | none | clampToEdge | clamp | repeat | mirroredRepeat
  deriving DecidableEq, Repr

/-- `cl_filter_mode`. -/
inductive FilterMode
  | nearest | linear
  deriving DecidableEq, Repr

/-- `image_sampler_data`. -/
structure ImageSampler where
  addressingMode : AddressingMode
  filterMode : FilterMode
  normalizedCoords : Bool

/-- Coordinates of a texel. -/
structure Texel where
  x : ℤ
  y : ℤ
  z : ℤ
  deriving DecidableEq

/-! ### The addressing functions -/

/-- `n - 1` for a `size_t`. -/
def pred (n : ℕ) : ℕ := (n + (2 ^ 64 - 1)) % 2 ^ 64

/-- `(cl_long)` of a size. -/
def toLong (n : ℕ) : ℤ := (BitVec.ofNat 64 n).toInt

def repeatAddressFn (value : ℤ) (maxValue : ℕ) : ℤ :=
  if value < 0 then value + toInt maxValue
  else if value ≥ toInt maxValue then value - toInt maxValue
  else value

def mirroredRepeatAddressFn (value : ℤ) (maxValue : ℕ) : ℤ :=
  if value < 0 then 0
  else if value.toNat ≥ maxValue then toInt (pred maxValue)
  else value

def clampAddressFn (value : ℤ) (maxValue : ℕ) : ℤ :=
  if value < -1 then -1
  else if value > toLong maxValue then toInt maxValue
  else value

def clampToEdgeNearestFn (value : ℤ) (maxValue : ℕ) : ℤ :=
  if value < 0 then 0
  else if value.toNat > pred maxValue then toInt maxValue - 1
  else value

/-- `sAddressingTable`; the filter makes no difference. -/
def addressingTable (sampler : ImageSampler) : ℤ → ℕ → ℤ :=
  match sampler.addressingMode with
  | .none => fun value _ => value
  | .repeat => repeatAddressFn
  | .clampToEdge => clampToEdgeNearestFn
  | .clamp => clampAddressFn
  | .mirroredRepeat => mirroredRepeatAddressFn

section

variable {F : Type} (ops : FloatOps F)

def repeatNormalizedAddressFn (fValue : F) (maxValue : ℕ) : F :=
  ops.mul (ops.sub fValue (ops.floor fValue)) (ops.ofSize maxValue)

def mirroredRepeatNormalizedAddressFn (fValue : F) (maxValue : ℕ) : F :=
  let s := ops.mul ops.two (ops.rint (ops.mul fValue ops.half))
  let s := ops.abs (ops.sub fValue s)
  ops.mul s (ops.ofSize maxValue)

/-- `calculate_array_index`. -/
def calculateArrayIndex (coord extent : F) : F :=
  let ret := ops.rint coord
  let ret := if ops.lt extent ret then extent else ret
  if ops.lt ret ops.zero then ops.zero else ret

/-! ### `sample_image_pixel_offset` -/

/-- What `get_integer_coords_offset` does with one of the normalized coordinates.  A
coordinate that is the index into an array is kept, and one whose extent is `empty` does not
repeat. -/
def normalizeCoord (mode : AddressingMode) (index empty : Bool) (c offset : F) (extent : ℕ) : F :=
  match mode with
  | .repeat =>
    let c := if !empty && !index then repeatNormalizedAddressFn ops c extent else c
    if ops.ne offset ops.zero && !index then
      let c := ops.add c offset
      let c := if ops.lt (ops.ofSize extent) c then ops.sub c (ops.ofSize extent) else c
      if ops.lt c ops.zero then ops.add c (ops.ofSize extent) else c
    else c
  | .mirroredRepeat =>
    let c := if !empty && !index then mirroredRepeatNormalizedAddressFn ops c extent else c
    if ops.ne offset ops.zero && !index then
      let temp := ops.add c offset
      let temp := if ops.lt (ops.ofSize extent) temp then
        ops.sub (ops.ofSize extent) (ops.sub temp (ops.ofSize extent)) else temp
      ops.abs temp
    else c
  | _ => if !index then ops.add (ops.mul c (ops.ofSize extent)) offset else c

/-- The texel that `get_integer_coords_offset` finds, in place of the one that it is given. -/
def integerCoords (x y z xOffset yOffset zOffset : F) (width height depth : ℕ)
    (sampler : ImageSampler) (info : ImageDescriptor) (out : Texel) : Option Texel := do
  let adFn := addressingTable sampler
  let mode := sampler.addressingMode
  let normalized := sampler.normalizedCoords
  let x := if normalized then normalizeCoord ops mode false false x xOffset width else x
  let y := if normalized then
    normalizeCoord ops mode (info.type = .image1DArray) (height = 0) y yOffset height else y
  let z := if normalized then
    normalizeCoord ops mode (info.type = .image2DArray) (depth = 0) z zOffset depth else z
  let outX := adFn (← ops.toInt (ops.floor x)) width
  match info.type with
  | .image1DArray =>
    let outY ← ops.toInt
      (calculateArrayIndex ops y (ops.sub (ops.ofSize info.arraySize) ops.one))
    return ⟨outX, outY, 0⟩
  | .image2DArray =>
    let outY := adFn (← ops.toInt (ops.floor y)) height
    let outZ ← ops.toInt
      (calculateArrayIndex ops z (ops.sub (ops.ofSize info.arraySize) ops.one))
    return ⟨outX, outY, outZ⟩
  | _ =>
    let outY ← if height ≠ 0 then (ops.toInt (ops.floor y)).map (adFn · height) else some out.y
    let outZ ← if depth ≠ 0 then (ops.toInt (ops.floor z)).map (adFn · depth) else some out.z
    return ⟨outX, outY, outZ⟩

/-- `get_integer_coords_offset`: the texel, and whether it is another one than the floors of
the coordinates. -/
def getIntegerCoordsOffset (x y z xOffset yOffset zOffset : F) (width height depth : ℕ)
    (sampler : ImageSampler) (info : ImageDescriptor) (out : Texel) : Option (Texel × Bool) := do
  let out ← integerCoords ops x y z xOffset yOffset zOffset width height depth sampler info out
  if (← ops.toInt (ops.floor x)) ≠ out.x then return (out, true)
  if (← ops.toInt (ops.floor y)) ≠ out.y then return (out, true)
  return (out, (← ops.toInt (ops.floor z)) ≠ out.z)

/-- The extents that `sample_image_pixel_offset` passes, as numbers of type `float`. -/
def maxCoords (info : ImageDescriptor) (lod : ℕ) : F × F × F :=
  let maxW := ops.ofSize info.width
  let (maxH, maxD) := match info.type with
    | .image1DArray => (ops.ofSize info.arraySize, ops.ofSize 0)
    | .image2DArray => (ops.ofSize info.height, ops.ofSize info.arraySize)
    | _ => (ops.ofSize info.height, ops.ofSize info.depth)
  if 1 < info.numMipLevels then
    let maxD := match info.type with
      | .image3D => ops.ofSize (mipDim info.depth lod)
      | _ => maxD
    let maxH := match info.type with
      | .image3D | .image2D | .image2DArray => ops.ofSize (mipDim info.height lod)
      | _ => maxH
    (ops.ofSize (mipDim info.width lod), maxH, maxD)
  else (maxW, maxH, maxD)

/-- The texel that `sample_image_pixel_offset` reads with `read_image_pixel`. -/
def sampleImagePixelOffset (info : ImageDescriptor) (x y z xOffset yOffset zOffset : F)
    (sampler : ImageSampler) (lod : ℕ) : Option Texel :=
  let (maxW, maxH, maxD) := maxCoords ops info lod
  (getIntegerCoordsOffset ops x y z xOffset yOffset zOffset (ops.toSize maxW) (ops.toSize maxH)
    (ops.toSize maxD) sampler info ⟨0, 0, 0⟩).map Prod.fst

/-! ### `sample_image_pixel_float_offset` -/

/-- `unnormalize_coordinate`. -/
def unnormalizeCoordinate (coord offset extent : F) (mode : AddressingMode) : F :=
  match mode with
  | .repeat =>
    let ret := repeatNormalizedAddressFn ops coord (ops.toSize extent)
    if ops.ne offset ops.zero then
      let ret := ops.add ret offset
      let ret := if ops.lt extent ret then ops.sub ret extent else ret
      if ops.lt ret ops.zero then ops.add ret extent else ret
    else ret
  | .mirroredRepeat =>
    let ret := mirroredRepeatNormalizedAddressFn ops coord (ops.toSize extent)
    if ops.ne offset ops.zero then
      let temp := ops.add ret offset
      let temp := if ops.lt extent temp then ops.sub extent (ops.sub temp extent) else temp
      ops.abs temp
    else ret
  | _ => ops.add (ops.mul coord extent) offset

/-- The texel that `sample_image_pixel_float_offset` reads with `read_image_pixel_float`, if the
filter is the nearest one. -/
def sampleImagePixelFloatOffset (info : ImageDescriptor) (x y z xOffset yOffset zOffset : F)
    (sampler : ImageSampler) (lod : ℕ) : Option Texel := do
  let adFn := addressingTable sampler
  let mode := sampler.addressingMode
  let v := readImagePixelFloatView info lod
  let normalized := sampler.normalizedCoords
  let x := if normalized then unnormalizeCoordinate ops x xOffset (ops.ofSize v.width) mode else x
  let y := if normalized then
    match info.type with
    | .image1DArray => y
    | _ => unnormalizeCoordinate ops y yOffset (ops.ofSize v.height) mode
    else y
  let z := if normalized then
    match info.type with
    | .image1DArray => ops.zero
    | .image2DArray => z
    | _ => unnormalizeCoordinate ops z zOffset (ops.ofSize v.depth) mode
    else z
  if sampler.filterMode = .nearest then
    let ix := adFn (← ops.toInt (ops.floor x)) v.width
    match info.type with
    | .image1DArray =>
      let iy ← ops.toInt (calculateArrayIndex ops y (ops.ofSize (pred info.arraySize)))
      return ⟨ix, iy, 0⟩
    | .image2DArray =>
      let iy := adFn (← ops.toInt (ops.floor y)) v.height
      let iz ← ops.toInt (calculateArrayIndex ops z (ops.ofSize (pred info.arraySize)))
      return ⟨ix, iy, iz⟩
    | _ =>
      let iy ← (ops.toInt (ops.floor y)).map (adFn · v.height)
      let iz ← if v.depth ≠ 0 then (ops.toInt (ops.floor z)).map (adFn · v.depth) else some 0
      return ⟨ix, iy, iz⟩
  else none

end

/-- The coordinates that get the border color in `read_image_pixel_float`. -/
def OutsideFloat (v : LevelView) (arraySize : ℕ) (x y z : ℤ) : Prop :=
  x < 0 ∨ y < 0 ∨ z < 0 ∨ toInt v.width ≤ x ∨ (v.height ≠ 0 ∧ toInt v.height ≤ y) ∨
    (v.depth ≠ 0 ∧ toInt v.depth ≤ z) ∨ arraySize ≠ 0 ∧ toInt arraySize ≤ z

/-- Where `read_image_pixel_float` reads. -/
def LevelView.ptrFloat (v : LevelView) (format : ImageFormat) (x y z : ℤ) : ℤ :=
  z * v.slicePitch + y * v.rowPitch + x * getPixelSize format

/-- The types that `read_image_pixel_float` has a case for; it reads nothing for the others. -/
def ReadsFloat : ChannelType → Prop
  | .raw10 | .raw12 | .unormInt24 => False
  | _ => True

end OpenCLCTS.Images
