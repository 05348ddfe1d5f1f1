import Mathlib.Data.Set.Lattice
import Mathlib.Order.CompletePartialOrder
import Mathlib.Order.Interval.Set.Basic
import OpenCLCTS.Images.Formats
import OpenCLCTS.Lib.Layout
import OpenCLCTS.Lib.Loops

/-!
# Mip levels

The levels of a mipmapped image lie one behind the other.  Where a level starts is computed
by `compute_mip_level_offset`, and again by two loops of `test_read_image`; the size of all
levels is computed by `compute_mipmapped_image_size`; and where a pixel is in its level by
`read_image_pixel_float`.  `mip_layout` says that they agree, and that no two pixels
have a byte in common.

Sizes and offsets are numbers: nothing wraps around.
-/

namespace OpenCLCTS.Images

open Layout Loops

/-! ### Halving -/

/-- `(d >> 1) ? (d >> 1) : 1`. -/
def halve (d : ℕ) : ℕ := if d >>> 1 ≠ 0 then d >>> 1 else 1

/-- `(d >> lod) ? (d >> lod) : 1`. -/
def mipDim (d lod : ℕ) : ℕ := if d >>> lod ≠ 0 then d >>> lod else 1

theorem mipDim_eq (d lod : ℕ) : mipDim d lod = max 1 (d >>> lod) := by
  rw [mipDim]
  split
  · exact (max_eq_right (Nat.pos_of_ne_zero ‹_›)).symm
  · rename_i h
    rw [not_not.mp h]
    rfl

theorem mipDim_zero {d : ℕ} (h : 1 ≤ d) : mipDim d 0 = d := by
  rw [mipDim_eq]
  exact max_eq_right h

theorem halve_mipDim (d lod : ℕ) : halve (mipDim d lod) = mipDim d (lod + 1) := by
  have hnext : d >>> (lod + 1) = d >>> lod >>> 1 := Nat.shiftRight_add d lod 1
  by_cases h : d >>> lod = 0
  · rw [mipDim, mipDim, if_neg (not_not.mpr h), hnext, h]
    rfl
  · rw [mipDim, mipDim, halve, if_pos h, hnext]

theorem halve_one : halve 1 = 1 := rfl

/-! ### The functions of the harness -/

structure Dims where
  width : ℕ
  height : ℕ
  depth : ℕ

/-- A loop over levels: the offset, and the dimensions of the level. -/
structure LevelLoop where
  offset : ℕ
  dims : Dims

def ImageDescriptor.dims (info : ImageDescriptor) : Dims := ⟨info.width, info.height, info.depth⟩

/-- The body of the loop of `compute_mip_level_offset`. -/
def mipLevelOffsetBody (info : ImageDescriptor) (s : LevelLoop) : LevelLoop :=
  let ⟨width, height, depth⟩ := s.dims
  let pixelSize := getPixelSize info.format
  let offset := s.offset + match info.type with
    | .image2DArray => width * height * info.arraySize * pixelSize
    | .image3D => width * height * depth * pixelSize
    | .image1DArray => width * info.arraySize * pixelSize
    | .image2D => width * height * pixelSize
    | .image1DBuffer | .image1D => width * pixelSize
  ⟨offset, match info.type with
    | .image3D => ⟨halve width, halve height, halve depth⟩
    | .image2D | .image2DArray => ⟨halve width, halve height, depth⟩
    | .image1DBuffer | .image1DArray | .image1D => ⟨halve width, height, depth⟩⟩

/-- `compute_mip_level_offset`. -/
def computeMipLevelOffset (info : ImageDescriptor) (lod : ℕ) : ℕ :=
  ((List.range' 0 lod).foldl (fun s _ => mipLevelOffsetBody info s) ⟨0, info.dims⟩).offset

/-- The body of the loop of `compute_mipmapped_image_size`. -/
def mipmappedImageSizeBody (info : ImageDescriptor) (s : LevelLoop) : LevelLoop :=
  let ⟨currWidth, currHeight, currDepth⟩ := s.dims
  let pixelSize := getPixelSize info.format
  let retSize := s.offset + match info.type with
    | .image3D => currWidth * currHeight * currDepth * pixelSize
    | .image2D => currWidth * currHeight * pixelSize
    | .image1DBuffer | .image1D => currWidth * pixelSize
    | .image1DArray => currWidth * info.arraySize * pixelSize
    | .image2DArray => currWidth * currHeight * info.arraySize * pixelSize
  ⟨retSize, match info.type with
    | .image3D => ⟨halve currWidth, halve currHeight, halve currDepth⟩
    | .image2D | .image2DArray => ⟨halve currWidth, halve currHeight, currDepth⟩
    | .image1DBuffer | .image1D | .image1DArray => ⟨halve currWidth, currHeight, currDepth⟩⟩

/-- `compute_mipmapped_image_size`. -/
def computeMipmappedImageSize (info : ImageDescriptor) : ℕ :=
  ((List.range' 0 info.numMipLevels).foldl (fun s _ => mipmappedImageSizeBody info s)
    ⟨0, info.dims⟩).offset

/-- The dimensions of a level and its pitches. -/
structure LevelView where
  width : ℕ
  height : ℕ
  depth : ℕ
  rowPitch : ℕ
  slicePitch : ℕ

/-- How `read_image_pixel_float` sees a level. -/
def readImagePixelFloatView (info : ImageDescriptor) (lod : ℕ) : LevelView :=
  if 1 < info.numMipLevels then
    let depth := match info.type with
      | .image3D => mipDim info.depth lod
      | _ => info.depth
    let height := match info.type with
      | .image3D | .image2D | .image2DArray => mipDim info.height lod
      | _ => info.height
    let width := mipDim info.width lod
    let rowPitch := width * getPixelSize info.format
    ⟨width, height, depth, rowPitch, match info.type with
      | .image1DArray => rowPitch
      | .image3D | .image2DArray => rowPitch * height
      | _ => 0⟩
  else ⟨info.width, info.height, info.depth, info.rowPitch, info.slicePitch⟩

/-- `ptr += z * slice_pitch_lod + y * row_pitch_lod + x * pixelSize`. -/
def LevelView.pixelOffset (v : LevelView) (format : ImageFormat) (x y z : ℕ) : ℕ :=
  z * v.slicePitch + y * v.rowPitch + x * getPixelSize format

/-- `get_image_dimensions`; `1D` buffers are not supported. -/
def getImageDimensions (info : ImageDescriptor) : Option Dims :=
  match info.type with
  | .image1D => some ⟨info.width, 1, 1⟩
  | .image1DArray => some ⟨info.width, info.arraySize, 1⟩
  | .image2D => some ⟨info.width, info.height, 1⟩
  | .image2DArray => some ⟨info.width, info.height, info.arraySize⟩
  | .image3D => some ⟨info.width, info.height, info.depth⟩
  | .image1DBuffer => none

/-- `get_image_num_pixels`. -/
def getImageNumPixels (type : ImageType) (width height depth arraySize : ℕ) : ℕ :=
  match type with
  | .image1D => width
  | .image1DArray => width * arraySize
  | .image2DArray => width * height * arraySize
  | .image3D => width * height * depth
  | .image1DBuffer | .image2D => 0

/-- How the regions of `test_read_image` get smaller. -/
def nextRegion (type : ImageType) (d : Dims) : Dims where
  width := halve d.width
  height := if type ≠ .image1DArray then halve d.height else d.height
  depth := if type ≠ .image2DArray then halve d.depth else d.depth

/-- The body of the loop of `test_read_image` that uploads the levels. -/
def uploadBody (info : ImageDescriptor) (s : LevelLoop) : LevelLoop :=
  ⟨s.offset + s.dims.width * s.dims.height * s.dims.depth * getPixelSize info.format,
    nextRegion info.type s.dims⟩

/-- The body of the loop of `test_read_image` that validates the levels. -/
def validateBody (info : ImageDescriptor) (s : LevelLoop) : LevelLoop :=
  ⟨s.offset + getImageNumPixels info.type s.dims.width s.dims.height s.dims.depth info.arraySize
    * getPixelSize info.format, nextRegion info.type s.dims⟩

/-- `nextLevelOffset` when a loop of `test_read_image` comes to a level. -/
def nextLevelOffset (body : LevelLoop → LevelLoop) (region : Dims) (lod : ℕ) : ℕ :=
  ((List.range' 0 lod).foldl (fun s _ => body s) ⟨0, region⟩).offset

/-! ### What a level is -/

/-- The dimensions of a level: those that the type does not have are 1. -/
def levelDims (info : ImageDescriptor) (lod : ℕ) : Dims where
  width := max 1 (info.width >>> lod)
  height := match info.type with
    | .image2D | .image2DArray | .image3D => max 1 (info.height >>> lod)
    | .image1D | .image1DBuffer | .image1DArray => 1
  depth := match info.type with
    | .image3D => max 1 (info.depth >>> lod)
    | .image1D | .image1DBuffer | .image1DArray | .image2D | .image2DArray => 1

/-- The number of layers, which is the same for all levels. -/
def layers (info : ImageDescriptor) : ℕ :=
  match info.type with
  | .image1DArray | .image2DArray => info.arraySize
  | .image1D | .image1DBuffer | .image2D | .image3D => 1

/-- The bytes of a level. -/
def levelBytes (info : ImageDescriptor) (lod : ℕ) : ℕ :=
  (levelDims info lod).width * (levelDims info lod).height * (levelDims info lod).depth
    * layers info * getPixelSize info.format

/-- The pixels of a level.  The layers of a `1D` array are indexed by `y`. -/
def levelBox (info : ImageDescriptor) (lod : ℕ) : Box :=
  let d := levelDims info lod
  let row := d.width * getPixelSize info.format
  let height := match info.type with
    | .image1DArray => info.arraySize
    | _ => d.height
  { width := d.width
    height := height
    depth := match info.type with
      | .image2DArray => info.arraySize
      | _ => d.depth
    size := getPixelSize info.format
    row := row
    slice := height * row }

/-- The dimensions that the type has are not 0. -/
structure UsedDims (info : ImageDescriptor) : Prop where
  width : 1 ≤ info.width
  height : info.type = .image2D ∨ info.type = .image2DArray ∨ info.type = .image3D → 1 ≤ info.height
  depth : info.type = .image3D → 1 ≤ info.depth
  arraySize : info.type = .image1DArray ∨ info.type = .image2DArray → 1 ≤ info.arraySize

variable {info : ImageDescriptor}

theorem levelBox_fits (info : ImageDescriptor) (lod : ℕ) : (levelBox info lod).Fits :=
  ⟨le_rfl, le_rfl⟩

theorem levelBox_bytes (info : ImageDescriptor) (lod : ℕ) :
    (levelBox info lod).depth * (levelBox info lod).slice = levelBytes info lod := by
  simp only [levelBox, levelBytes, layers, levelDims]
  cases info.type <;> simp only <;> ring

/-! ### The loops -/

/-- The dimensions that a loop carries for a level. -/
def loopDims (info : ImageDescriptor) (lod : ℕ) : Dims where
  width := mipDim info.width lod
  height := match info.type with
    | .image2D | .image2DArray | .image3D => mipDim info.height lod
    | .image1D | .image1DBuffer | .image1DArray => info.height
  depth := match info.type with
    | .image3D => mipDim info.depth lod
    | .image1D | .image1DBuffer | .image1DArray | .image2D | .image2DArray => info.depth

theorem loopDims_zero (h : UsedDims info) : loopDims info 0 = info.dims := by
  obtain ⟨hw, hh, hd, _⟩ := h
  simp only [loopDims, ImageDescriptor.dims, mipDim_zero hw]
  cases ht : info.type <;> rw [ht] at hh hd <;> simp only [Dims.mk.injEq, and_true, true_and]
  · exact mipDim_zero (hh (by simp))
  · exact mipDim_zero (hh (by simp))
  · exact ⟨mipDim_zero (hh (by simp)), mipDim_zero (hd rfl)⟩

theorem mipLevelOffsetBody_eq (info : ImageDescriptor) (i : ℕ) :
    mipLevelOffsetBody info ⟨start (levelBytes info) i, loopDims info i⟩
      = ⟨start (levelBytes info) (i + 1), loopDims info (i + 1)⟩ := by
  simp only [mipLevelOffsetBody, loopDims, start_succ, levelBytes, levelDims, layers,
    ← mipDim_eq, ← halve_mipDim]
  cases info.type <;> simp only [mul_one]

theorem mipmappedImageSizeBody_eq (info : ImageDescriptor) (i : ℕ) :
    mipmappedImageSizeBody info ⟨start (levelBytes info) i, loopDims info i⟩
      = ⟨start (levelBytes info) (i + 1), loopDims info (i + 1)⟩ := by
  simp only [mipmappedImageSizeBody, loopDims, start_succ, levelBytes, levelDims, layers,
    ← mipDim_eq, ← halve_mipDim]
  cases info.type <;> simp only [mul_one]

theorem loop_offset {body : LevelLoop → LevelLoop} {dims : ℕ → Dims}
    (hbody : ∀ i, body ⟨start (levelBytes info) i, dims i⟩
      = ⟨start (levelBytes info) (i + 1), dims (i + 1)⟩) (n : ℕ) :
    (List.range' 0 n).foldl (fun s _ => body s) ⟨0, dims 0⟩
      = ⟨start (levelBytes info) n, dims n⟩ := by
  have hloop := foldl_invariant (f := fun s _ => body s)
    (I := fun i s => s = ⟨start (levelBytes info) i, dims i⟩) (a := 0) (n := n)
    (fun i s _ _ hs => hs ▸ hbody i) (s := ⟨0, dims 0⟩) rfl
  rwa [Nat.zero_add] at hloop

theorem computeMipLevelOffset_eq (h : UsedDims info) (lod : ℕ) :
    computeMipLevelOffset info lod = start (levelBytes info) lod := by
  rw [computeMipLevelOffset, ← loopDims_zero h, loop_offset (mipLevelOffsetBody_eq info)]

theorem computeMipmappedImageSize_eq (h : UsedDims info) :
    computeMipmappedImageSize info = start (levelBytes info) info.numMipLevels := by
  rw [computeMipmappedImageSize, ← loopDims_zero h, loop_offset (mipmappedImageSizeBody_eq info)]

/-- The region that `test_read_image` carries for a level. -/
def loopRegion (info : ImageDescriptor) (lod : ℕ) : Dims :=
  ⟨(levelBox info lod).width, (levelBox info lod).height, (levelBox info lod).depth⟩

theorem nextRegion_eq (info : ImageDescriptor) (i : ℕ) :
    nextRegion info.type (loopRegion info i) = loopRegion info (i + 1) := by
  simp only [nextRegion, loopRegion, levelBox, levelDims, ← mipDim_eq, ← halve_mipDim]
  cases info.type <;> simp [halve_one]

theorem uploadBody_eq (info : ImageDescriptor) (i : ℕ) :
    uploadBody info ⟨start (levelBytes info) i, loopRegion info i⟩
      = ⟨start (levelBytes info) (i + 1), loopRegion info (i + 1)⟩ := by
  rw [uploadBody, nextRegion_eq, start_succ, ← levelBox_bytes]
  simp only [loopRegion, levelBox, LevelLoop.mk.injEq, and_true]
  ring

theorem getImageDimensions_eq (h : UsedDims info) {region : Dims}
    (hr : getImageDimensions info = some region) : region = loopRegion info 0 := by
  obtain ⟨hw, hh, hd, _⟩ := h
  simp only [loopRegion, levelBox, levelDims, ← mipDim_eq, mipDim_zero hw]
  rw [getImageDimensions] at hr
  cases ht : info.type <;> rw [ht] at hr hh hd <;> cases hr
  · rfl
  · rfl
  · rw [mipDim_zero (hh (by simp))]
  · rw [mipDim_zero (hh (by simp))]
  · rw [mipDim_zero (hh (by simp)), mipDim_zero (hd rfl)]

theorem validateBody_eq (hbuffer : info.type ≠ .image1DBuffer) (hflat : info.type ≠ .image2D)
    (i : ℕ) : validateBody info ⟨start (levelBytes info) i, loopRegion info i⟩
      = ⟨start (levelBytes info) (i + 1), loopRegion info (i + 1)⟩ := by
  rw [validateBody, nextRegion_eq, start_succ]
  simp only [loopRegion, levelBox, getImageNumPixels, levelBytes, levelDims, layers,
    LevelLoop.mk.injEq, and_true]
  cases ht : info.type
  · simp only [mul_one]
  · exact absurd ht hbuffer
  · simp only [mul_one]
  · exact absurd ht hflat
  · simp only [mul_one]
  · simp only [mul_one]

/-! ### The pixels -/

/-- Where a pixel starts, from the start of the image. -/
def pixelStart (info : ImageDescriptor) (lod x y z : ℕ) : ℕ :=
  computeMipLevelOffset info lod
    + (readImagePixelFloatView info lod).pixelOffset info.format x y z

theorem pixelOffset_eq (hmip : 2 ≤ info.numMipLevels) {lod x y z : ℕ}
    (h : (levelBox info lod).Has x y z) :
    (readImagePixelFloatView info lod).pixelOffset info.format x y z
      = (levelBox info lod).addr x y z := by
  have hz := h.z
  rw [readImagePixelFloatView, if_pos (by omega)]
  simp only [LevelView.pixelOffset, Box.addr, levelBox, levelDims, ← mipDim_eq] at hz ⊢
  cases ht : info.type <;> rw [ht] at hz <;> simp only at hz ⊢
  · rw [Nat.lt_one_iff.mp hz, Nat.zero_mul, Nat.zero_mul]
  · rw [Nat.lt_one_iff.mp hz, Nat.zero_mul, Nat.zero_mul]
  · rw [Nat.lt_one_iff.mp hz, Nat.zero_mul, Nat.zero_mul]
  · rw [Nat.lt_one_iff.mp hz, Nat.zero_mul, Nat.zero_mul]
  · rw [Nat.mul_comm (mipDim info.height lod)]
  · rw [Nat.mul_comm (mipDim info.height lod)]

/-- How the levels of an image lie. -/
structure MipLayout (info : ImageDescriptor) : Prop where
  /-- A level starts behind the levels before it. -/
  offset : ∀ lod, computeMipLevelOffset info lod = ∑ i ∈ Finset.range lod, levelBytes info i
  /-- The size is the offset behind the last level. -/
  size : computeMipLevelOffset info info.numMipLevels = computeMipmappedImageSize info
  /-- The pixels are inside of the image. -/
  inside : ∀ lod x y z, lod < info.numMipLevels → (levelBox info lod).Has x y z →
    Set.Ico (pixelStart info lod x y z) (pixelStart info lod x y z + getPixelSize info.format)
      ⊆ Set.Iio (computeMipmappedImageSize info)
  /-- No two pixels have a byte in common. -/
  disjoint : ∀ lod x y z lod' x' y' z', lod < info.numMipLevels → lod' < info.numMipLevels →
    (levelBox info lod).Has x y z → (levelBox info lod').Has x' y' z' →
      (lod, x, y, z) ≠ (lod', x', y', z') →
    Disjoint
      (Set.Ico (pixelStart info lod x y z) (pixelStart info lod x y z + getPixelSize info.format))
      (Set.Ico (pixelStart info lod' x' y' z')
        (pixelStart info lod' x' y' z' + getPixelSize info.format))
  /-- The loops of `test_read_image` come to the same offsets. -/
  running : info.type ≠ .image1DBuffer → info.type ≠ .image2D →
    ∃ region, getImageDimensions info = some region ∧ ∀ lod,
      nextLevelOffset (uploadBody info) region lod = computeMipLevelOffset info lod ∧
      nextLevelOffset (validateBody info) region lod = computeMipLevelOffset info lod

theorem pixel_byte (h : UsedDims info) (hmip : 2 ≤ info.numMipLevels) {lod x y z k : ℕ}
    (hp : (levelBox info lod).Has x y z)
    (hk : k ∈ Set.Ico (pixelStart info lod x y z)
      (pixelStart info lod x y z + getPixelSize info.format)) :
    ∃ o < getPixelSize info.format, (levelBox info lod).addr x y z + o < levelBytes info lod ∧
      k = start (levelBytes info) lod + ((levelBox info lod).addr x y z + o) := by
  obtain ⟨hle, hlt⟩ := hk
  rw [pixelStart, computeMipLevelOffset_eq h, pixelOffset_eq hmip hp] at hle hlt
  refine ⟨k - (start (levelBytes info) lod + (levelBox info lod).addr x y z), by omega, ?_, by omega⟩
  rw [← levelBox_bytes]
  exact byte_lt (levelBox_fits info lod) hp (show _ < getPixelSize info.format by omega)

/-- **The levels are a partition of the image.** -/
theorem mip_layout (h : UsedDims info) (hmip : 2 ≤ info.numMipLevels) : MipLayout info where
  offset lod := computeMipLevelOffset_eq h lod
  size := (computeMipLevelOffset_eq h _).trans (computeMipmappedImageSize_eq h).symm
  inside lod x y z hlod hp := by
    intro k hk
    obtain ⟨o, _, hlt, rfl⟩ := pixel_byte h hmip hp hk
    rw [Set.mem_Iio, computeMipmappedImageSize_eq h]
    exact block_lt hlod hlt
  disjoint lod x y z lod' x' y' z' _ _ hp hp' hne := by
    rw [Set.disjoint_left]
    intro k hk hk'
    obtain ⟨o, ho, hlt, rfl⟩ := pixel_byte h hmip hp hk
    obtain ⟨o', ho', hlt', he⟩ := pixel_byte h hmip hp' hk'
    obtain ⟨rfl, he⟩ := block_eq_of_byte hlt hlt' he
    obtain ⟨rfl, rfl, rfl, _⟩ := eq_of_byte (levelBox_fits info lod) hp hp' ho ho' he
    exact hne rfl
  running hbuffer hflat := by
    obtain ⟨region, hr⟩ : ∃ region, getImageDimensions info = some region := by
      rw [getImageDimensions]
      cases ht : info.type
      case image1DBuffer => exact absurd ht hbuffer
      all_goals exact ⟨_, rfl⟩
    refine ⟨region, hr, ?_⟩
    intro lod
    rw [getImageDimensions_eq h hr, nextLevelOffset, nextLevelOffset, loop_offset (uploadBody_eq info),
      loop_offset (validateBody_eq hbuffer hflat), computeMipLevelOffset_eq h]
    exact ⟨rfl, rfl⟩

/-- A `3D` image of `5 × 3 × 2` pixels of 4 bytes with three levels. -/
theorem mip_layout_5_3_2 :
    MipLayout ⟨5, 3, 2, 20, 60, 0, ⟨.rgba, .unsignedInt8⟩, .image3D, 3⟩ :=
  mip_layout ⟨by decide, fun _ => by decide, fun _ => by decide,
    fun h => absurd h (by decide)⟩ (by decide)

example : computeMipmappedImageSize ⟨5, 3, 2, 20, 60, 0, ⟨.rgba, .unsignedInt8⟩, .image3D, 3⟩
    = 4 * (30 + 2 + 1) := by decide

end OpenCLCTS.Images
