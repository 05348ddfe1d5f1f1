import Mathlib.Data.Fin.VecNotation
import OpenCLCTS.Images.Levels
import OpenCLCTS.Lib.Memory

/-!
# Copying a region

`copy_image_data`: a region of one image is copied into another one, row by row.  Each of
the two images can be mipmapped, and then the position carries the level behind the
coordinates that the type of the image has.

`copyImageData_copied` says that the pixels of the region are copied, and that no other
byte of the destination is changed.
-/

namespace OpenCLCTS.Images

open Layout Memory

/-! ### `copy_image_data` -/

/-- What the function computes for one of the images, from a position. -/
structure Selected where
  x : ℕ
  y : ℕ
  z : ℕ
  rowPitch : ℕ
  slicePitch : ℕ
  offset : ℕ

/-- The level and the position in it. -/
def select (info : ImageDescriptor) (pos : Fin 4 → ℕ) : Selected :=
  let pixelSize := getPixelSize info.format
  if 1 < info.numMipLevels then
    match info.type with
    | .image1DBuffer | .image1D =>
      let lod := pos 1
      let rowPitch := mipDim info.width lod * pixelSize
      ⟨pos 0, 0, 0, rowPitch, rowPitch * 1, computeMipLevelOffset info lod⟩
    | .image1DArray =>
      let lod := pos 2
      let rowPitch := mipDim info.width lod * pixelSize
      ⟨pos 0, pos 1, 0, rowPitch, rowPitch * 1, computeMipLevelOffset info lod⟩
    | .image2D =>
      let lod := pos 2
      let rowPitch := mipDim info.width lod * pixelSize
      ⟨pos 0, pos 1, 0, rowPitch, rowPitch * mipDim info.height lod,
        computeMipLevelOffset info lod⟩
    | .image2DArray | .image3D =>
      let lod := pos 3
      let rowPitch := mipDim info.width lod * pixelSize
      ⟨pos 0, pos 1, pos 2, rowPitch, rowPitch * mipDim info.height lod,
        computeMipLevelOffset info lod⟩
  else ⟨pos 0, pos 1, pos 2, info.rowPitch, info.slicePitch, 0⟩

/-- The initial pointer. -/
def Selected.ptr (s : Selected) (pixelSize : ℕ) : ℕ :=
  s.z * s.slicePitch + s.y * s.rowPitch + pixelSize * s.x + s.offset

/-- `copy_image_data`. -/
def copyImageData (srcInfo dstInfo : ImageDescriptor) (imageValues destImageValues : ℕ → Byte)
    (sourcePos destPos : Fin 4 → ℕ) (regionSize : Fin 3 → ℕ) : ℕ → Byte :=
  let pixelSize := getPixelSize srcInfo.format
  let src := select srcInfo sourcePos
  let dst := select dstInfo destPos
  copyRows
    { bytes := pixelSize * regionSize 0
      rows := regionSize 1
      slices := if regionSize 2 > 0 then regionSize 2 else 1
      srcRow := src.rowPitch
      srcSlice := src.slicePitch
      destRow := dst.rowPitch
      destSlice := dst.slicePitch }
    imageValues ⟨src.ptr pixelSize, dst.ptr pixelSize, destImageValues⟩

/-! ### Pixels -/

/-- Where the level is in a position: behind the coordinates that the type has. -/
def lodIndex : ImageType → Fin 4
  | .image1D | .image1DBuffer => 1
  | .image1DArray | .image2D => 2
  | .image2DArray | .image3D => 3

def lodOf (info : ImageDescriptor) (pos : Fin 4 → ℕ) : ℕ :=
  if 1 < info.numMipLevels then pos (lodIndex info.type) else 0

/-- A coordinate of the position: with mip levels, those that the type does not have are 0. -/
def coordOf (info : ImageDescriptor) (pos : Fin 4 → ℕ) (n : Fin 4) : ℕ :=
  if 1 < info.numMipLevels ∧ lodIndex info.type ≤ n then 0 else pos n

/-- The pixels that can be selected.  Without mip levels they have the pitches of the
image. -/
def selectedBox (info : ImageDescriptor) (lod : ℕ) : Box :=
  if 1 < info.numMipLevels then levelBox info lod
  else
    { width := info.width
      height := match info.type with
        | .image1D | .image1DBuffer => 1
        | .image1DArray => info.arraySize
        | .image2D | .image2DArray | .image3D => info.height
      depth := match info.type with
        | .image1D | .image1DBuffer | .image1DArray | .image2D => 1
        | .image2DArray => info.arraySize
        | .image3D => info.depth
      size := getPixelSize info.format
      row := info.rowPitch
      slice := info.slicePitch }

/-- The start of the selected level. -/
def levelStart (info : ImageDescriptor) (pos : Fin 4 → ℕ) : ℕ :=
  if 1 < info.numMipLevels then computeMipLevelOffset info (lodOf info pos) else 0

/-- The address of the pixel at `pos + (i, j, k)`. -/
def pixelAddr (info : ImageDescriptor) (pos : Fin 4 → ℕ) (i j k : ℕ) : ℕ :=
  levelStart info pos + (selectedBox info (lodOf info pos)).addr (coordOf info pos 0 + i)
    (coordOf info pos 1 + j) (coordOf info pos 2 + k)

/-- A region of depth 0 counts as one of depth 1. -/
def regionDepth (regionSize : Fin 3 → ℕ) : ℕ := max 1 (regionSize 2)

/-- The region is inside of the selected level. -/
structure Fits (info : ImageDescriptor) (pos : Fin 4 → ℕ) (regionSize : Fin 3 → ℕ) : Prop where
  x : coordOf info pos 0 + regionSize 0 ≤ (selectedBox info (lodOf info pos)).width
  y : coordOf info pos 1 + regionSize 1 ≤ (selectedBox info (lodOf info pos)).height
  z : coordOf info pos 2 + regionDepth regionSize ≤ (selectedBox info (lodOf info pos)).depth

/-- Without mip levels the pitches have room for the image. -/
def PitchesOk (info : ImageDescriptor) : Prop :=
  ¬ 1 < info.numMipLevels → info.width * getPixelSize info.format ≤ info.rowPitch ∧
    info.height * info.rowPitch ≤ info.slicePitch

variable {info : ImageDescriptor} {pos : Fin 4 → ℕ} {regionSize : Fin 3 → ℕ}

/-- **The pointers of the function point to pixels.** -/
theorem ptr_add (hfits : Fits info pos regionSize) {i j k : ℕ} (hk : k < regionDepth regionSize) :
    (select info pos).ptr (getPixelSize info.format) + k * (select info pos).slicePitch
      + j * (select info pos).rowPitch + i * getPixelSize info.format
      = pixelAddr info pos i j k := by
  have hz := hfits.z
  by_cases hmip : 1 < info.numMipLevels
  · simp only [select, if_pos hmip, Selected.ptr, pixelAddr, levelStart, lodOf, selectedBox, coordOf,
      Box.addr, levelBox, levelDims, ← mipDim_eq] at hz ⊢
    cases ht : info.type <;> rw [ht] at hz <;> simp [lodIndex, hmip] at hz ⊢
    -- In a 1D array the function takes a layer for a slice.
    case image1DArray =>
      obtain rfl : k = 0 := by omega
      ring
    all_goals ring
  · simp only [select, Selected.ptr, pixelAddr, levelStart, lodOf, selectedBox, coordOf,
      Box.addr, hmip, false_and, if_false]
    ring

theorem has_of_lt (hfits : Fits info pos regionSize) {i j k : ℕ} (hi : i < regionSize 0)
    (hj : j < regionSize 1) (hk : k < regionDepth regionSize) :
    (selectedBox info (lodOf info pos)).Has (coordOf info pos 0 + i) (coordOf info pos 1 + j)
      (coordOf info pos 2 + k) :=
  ⟨(Nat.add_lt_add_left hi _).trans_le hfits.x, (Nat.add_lt_add_left hj _).trans_le hfits.y,
    (Nat.add_lt_add_left hk _).trans_le hfits.z⟩

theorem selectedBox_size (info : ImageDescriptor) (lod : ℕ) :
    (selectedBox info lod).size = getPixelSize info.format := by
  rw [selectedBox]
  split <;> rfl

/-- **A byte belongs to one pixel.** -/
theorem pixel_eq_of_byte (hfits : Fits info pos regionSize) (hpitches : PitchesOk info)
    {i j k o i' j' k' o' : ℕ} (hi : i < regionSize 0) (hj : j < regionSize 1)
    (hk : k < regionDepth regionSize) (hi' : i' < regionSize 0) (hj' : j' < regionSize 1)
    (hk' : k' < regionDepth regionSize) (ho : o < getPixelSize info.format)
    (ho' : o' < getPixelSize info.format)
    (he : pixelAddr info pos i j k + o = pixelAddr info pos i' j' k' + o') :
    i = i' ∧ j = j' ∧ k = k' ∧ o = o' := by
  have hhas := has_of_lt hfits hi hj hk
  have hhas' := has_of_lt hfits hi' hj' hk'
  rw [← selectedBox_size info (lodOf info pos)] at ho ho'
  rw [pixelAddr, pixelAddr, Nat.add_assoc, Nat.add_assoc, Nat.add_left_cancel_iff] at he
  have hbox : (selectedBox info (lodOf info pos)).Fits ∨
      (selectedBox info (lodOf info pos)).width * (selectedBox info (lodOf info pos)).size
        ≤ (selectedBox info (lodOf info pos)).row ∧
      (selectedBox info (lodOf info pos)).depth ≤ 1 := by
    by_cases hmip : 1 < info.numMipLevels
    · rw [selectedBox, if_pos hmip]
      exact .inl (levelBox_fits info _)
    · obtain ⟨hrow, hslice⟩ := hpitches hmip
      rw [selectedBox, if_neg hmip]
      cases info.type
      case image2DArray => exact .inl ⟨hrow, hslice⟩
      case image3D => exact .inl ⟨hrow, hslice⟩
      all_goals exact .inr ⟨hrow, le_rfl⟩
  have heq : coordOf info pos 0 + i = coordOf info pos 0 + i' ∧
      coordOf info pos 1 + j = coordOf info pos 1 + j' ∧
      coordOf info pos 2 + k = coordOf info pos 2 + k' ∧ o = o' := by
    rcases hbox with hbox | ⟨hrow, hdepth⟩
    · exact eq_of_byte hbox hhas hhas' ho ho' he
    · exact eq_of_byte_of_depth hrow hdepth hhas hhas' ho ho' he
  omega

/-! ### The copy -/

/-- The region of the source is in the destination, and nothing else is changed there. -/
structure RegionCopied (srcInfo dstInfo : ImageDescriptor) (sourcePos destPos : Fin 4 → ℕ)
    (regionSize : Fin 3 → ℕ) (src dest dest' : ℕ → Byte) : Prop where
  copied : ∀ i j k o, i < regionSize 0 → j < regionSize 1 → k < regionDepth regionSize →
    o < getPixelSize dstInfo.format →
      dest' (pixelAddr dstInfo destPos i j k + o) = src (pixelAddr srcInfo sourcePos i j k + o)
  /-- Bytes outside of the region, such as padding. -/
  kept : ∀ b, (∀ i j k o, i < regionSize 0 → j < regionSize 1 → k < regionDepth regionSize →
    o < getPixelSize dstInfo.format → b ≠ pixelAddr dstInfo destPos i j k + o) → dest' b = dest b
  /-- The other levels. -/
  levels : 1 < dstInfo.numMipLevels → UsedDims dstInfo → ∀ lod o, lod ≠ lodOf dstInfo destPos →
    o < levelBytes dstInfo lod →
      dest' (computeMipLevelOffset dstInfo lod + o) = dest (computeMipLevelOffset dstInfo lod + o)

theorem pixelAddr_mip (hfits : Fits info pos regionSize) (hmip : 1 < info.numMipLevels)
    (h : UsedDims info) {i j k o : ℕ} (hi : i < regionSize 0) (hj : j < regionSize 1)
    (hk : k < regionDepth regionSize) (ho : o < getPixelSize info.format) :
    ∃ o' < levelBytes info (lodOf info pos),
      pixelAddr info pos i j k + o = start (levelBytes info) (lodOf info pos) + o' := by
  have hhas := has_of_lt hfits hi hj hk
  rw [selectedBox, if_pos hmip] at hhas
  refine ⟨_, levelBox_bytes info _ ▸ byte_lt (levelBox_fits info _) hhas ho, ?_⟩
  rw [pixelAddr, levelStart, if_pos hmip, computeMipLevelOffset_eq h, selectedBox, if_pos hmip,
    Nat.add_assoc]

theorem regionDepth_eq (regionSize : Fin 3 → ℕ) :
    (if regionSize 2 > 0 then regionSize 2 else 1) = regionDepth regionSize := by
  rw [regionDepth]
  split <;> omega

/-- The rows that `copy_image_data` copies. -/
def copiedRows (srcInfo dstInfo : ImageDescriptor) (sourcePos destPos : Fin 4 → ℕ)
    (regionSize : Fin 3 → ℕ) : Rows where
  bytes := getPixelSize srcInfo.format * regionSize 0
  rows := regionSize 1
  slices := regionDepth regionSize
  srcRow := (select srcInfo sourcePos).rowPitch
  srcSlice := (select srcInfo sourcePos).slicePitch
  destRow := (select dstInfo destPos).rowPitch
  destSlice := (select dstInfo destPos).slicePitch

theorem copyImageData_eq (srcInfo dstInfo : ImageDescriptor) (src dest : ℕ → Byte)
    (sourcePos destPos : Fin 4 → ℕ) (regionSize : Fin 3 → ℕ) :
    copyImageData srcInfo dstInfo src dest sourcePos destPos regionSize
      = copyRows (copiedRows srcInfo dstInfo sourcePos destPos regionSize) src
          ⟨(select srcInfo sourcePos).ptr (getPixelSize srcInfo.format),
            (select dstInfo destPos).ptr (getPixelSize srcInfo.format), dest⟩ := by
  rw [copyImageData, copiedRows, ← regionDepth_eq]

section

variable {srcInfo dstInfo : ImageDescriptor} {sourcePos destPos : Fin 4 → ℕ}

theorem destAt_eq (hsize : getPixelSize srcInfo.format = getPixelSize dstInfo.format)
    (hdst : Fits dstInfo destPos regionSize) {i j k : ℕ} (hk : k < regionDepth regionSize) (p : ℕ) :
    (copiedRows srcInfo dstInfo sourcePos destPos regionSize).destAt
        ((select dstInfo destPos).ptr (getPixelSize srcInfo.format)) k j
        + (i * getPixelSize srcInfo.format + p) = pixelAddr dstInfo destPos i j k + p := by
  rw [hsize, ← ptr_add hdst hk, ← Nat.add_assoc]
  rfl

theorem srcAt_eq (hsrc : Fits srcInfo sourcePos regionSize) {i j k : ℕ}
    (hk : k < regionDepth regionSize) (p : ℕ) :
    (copiedRows srcInfo dstInfo sourcePos destPos regionSize).srcAt
        ((select srcInfo sourcePos).ptr (getPixelSize srcInfo.format)) k j
        + (i * getPixelSize srcInfo.format + p) = pixelAddr srcInfo sourcePos i j k + p := by
  rw [← ptr_add hsrc hk, ← Nat.add_assoc]
  rfl

theorem copiedRows_apart (hsize : getPixelSize srcInfo.format = getPixelSize dstInfo.format)
    (hdst : Fits dstInfo destPos regionSize) (hpitches : PitchesOk dstInfo) :
    (copiedRows srcInfo dstInfo sourcePos destPos regionSize).Apart
      ((select dstInfo destPos).ptr (getPixelSize srcInfo.format)) := by
  intro k j k' j' o o' hk hj hk' hj' ho ho' he
  obtain ⟨i, p, hi, hp, rfl⟩ := exists_digits ho
  obtain ⟨i', p', hi', hp', rfl⟩ := exists_digits ho'
  rw [destAt_eq hsize hdst hk, destAt_eq hsize hdst hk'] at he
  rw [hsize] at hp hp'
  obtain ⟨_, hj, hk, _⟩ := pixel_eq_of_byte hdst hpitches hi hj hk hi' hj' hk' hp hp' he
  exact ⟨hk, hj⟩

/-- **`copy_image_data` copies the region.** -/
theorem copyImageData_copied
    (hsize : getPixelSize srcInfo.format = getPixelSize dstInfo.format)
    (hsrc : Fits srcInfo sourcePos regionSize) (hdst : Fits dstInfo destPos regionSize)
    (hpitches : PitchesOk dstInfo) (src dest : ℕ → Byte) :
    RegionCopied srcInfo dstInfo sourcePos destPos regionSize src dest
      (copyImageData srcInfo dstInfo src dest sourcePos destPos regionSize) := by
  have hcopied : Copied (copiedRows srcInfo dstInfo sourcePos destPos regionSize) src dest _ _ _
      (copyImageData srcInfo dstInfo src dest sourcePos destPos regionSize) :=
    copyImageData_eq srcInfo dstInfo src dest sourcePos destPos regionSize ▸
      copyRows_copied (copiedRows_apart hsize hdst hpitches) _
  have hkept : ∀ b, (∀ i j k p, i < regionSize 0 → j < regionSize 1 → k < regionDepth regionSize →
      p < getPixelSize dstInfo.format → b ≠ pixelAddr dstInfo destPos i j k + p) →
      copyImageData srcInfo dstInfo src dest sourcePos destPos regionSize b = dest b := by
    intro b hb
    refine hcopied.kept b fun k j ⟨hk, hj⟩ o ho => ?_
    obtain ⟨i, p, hi, hp, rfl⟩ := exists_digits ho
    rw [destAt_eq hsize hdst hk]
    exact hb i j k p hi hj hk (hsize ▸ hp)
  refine ⟨fun i j k p hi hj hk hp => ?_, hkept, fun hmip h lod o hlod ho => ?_⟩
  · have hwritten := hcopied.written k j ⟨hk, hj⟩ (i * getPixelSize srcInfo.format + p)
      (digits_lt' hi (hsize ▸ hp))
    rwa [destAt_eq hsize hdst hk, srcAt_eq hsrc hk] at hwritten
  · refine hkept _ ?_
    intro i j k p hi hj hk hp he
    obtain ⟨o', ho', haddr⟩ := pixelAddr_mip hdst hmip h hi hj hk hp
    rw [haddr, computeMipLevelOffset_eq h] at he
    exact hlod (block_eq_of_byte ho ho' he).1

/-- The second level of a mipmapped image gets four pixels of a padded one. -/
theorem copyImageData_copied_4_4 :
    RegionCopied ⟨4, 4, 0, 20, 80, 0, ⟨.rgba, .unsignedInt8⟩, .image2D, 0⟩
      ⟨4, 4, 0, 16, 64, 0, ⟨.bgra, .unsignedInt8⟩, .image2D, 3⟩ ![2, 1, 0, 0] ![0, 0, 1, 0]
      ![2, 2, 1] (BitVec.ofNat 8) (fun _ => 0)
      (copyImageData ⟨4, 4, 0, 20, 80, 0, ⟨.rgba, .unsignedInt8⟩, .image2D, 0⟩
        ⟨4, 4, 0, 16, 64, 0, ⟨.bgra, .unsignedInt8⟩, .image2D, 3⟩ (BitVec.ofNat 8) (fun _ => 0)
        ![2, 1, 0, 0] ![0, 0, 1, 0] ![2, 2, 1]) :=
  copyImageData_copied (by decide) ⟨by decide, by decide, by decide⟩
    ⟨by decide, by decide, by decide⟩ (fun h => absurd (by decide) h) _ _

end

end OpenCLCTS.Images
