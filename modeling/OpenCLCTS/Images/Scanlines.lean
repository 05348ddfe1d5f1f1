import Mathlib.Data.Finset.Basic
import OpenCLCTS.Images.Levels
import OpenCLCTS.Lib.Scan
import OpenCLCTS.Lib.Words

/-!
# Comparing scanlines

The tests of `clEnqueueCopyImage` and `clEnqueueFillImage` compare an image of the host with
the mapped image, scanline by scanline.  Where the bytes of two scanlines differ,
`compare_scanlines` looks for the first pixel that does.  The loops read from buffers: a read
that is not inside has no result.
-/

namespace OpenCLCTS.Images

open Memory Scan

/-- The bytes that may be read. -/
structure Buffer where
  mem : ℕ → Byte
  size : ℕ

/-- `*(T *)ptr`, for a type of `w` bytes. -/
def Buffer.load (b : Buffer) (w : ℕ) (ptr : ℤ) : Option (BitVec (8 * w)) :=
  if 0 ≤ ptr ∧ ptr + w ≤ b.size then some (Memory.load b.mem w ptr.toNat) else none

/-- `memcmp(aPtr, bPtr, n) != 0`. -/
def memcmpNe (a b : Buffer) (n : ℕ) (aPtr bPtr : ℤ) : Option Bool :=
  if 0 ≤ aPtr ∧ aPtr + n ≤ a.size ∧ 0 ≤ bPtr ∧ bPtr + n ≤ b.size then
    some (decide (¬ ∀ o < n, a.mem (aPtr.toNat + o) = b.mem (bPtr.toNat + o)))
  else none

/-! ### `compare_scanlines` -/

/-- -1.0 is 0x80 and 0x81. -/
def snorm8 (pixel : BitVec 8) : BitVec 8 := if pixel = 0x80 then 0x81 else pixel

/-- -1.0 is 0x8000 and 0x8001. -/
def snorm16 (pixel : BitVec 16) : BitVec 16 := if pixel = 0x8000 then 0x8001 else pixel

/-- The body of the loop: whether it returns. -/
def pixelDiffers (format : ImageFormat) (a b : Buffer) (aPtr bPtr : ℤ) : Option Bool :=
  match format.channelDataType with
  | .unormInt101010 => do
    let aPixel ← a.load 4 aPtr
    let bPixel ← b.load 4 bPtr
    return aPixel &&& 0x3fffffff ≠ bPixel &&& 0x3fffffff
  | .unormShort555 => do
    let aPixel ← a.load 2 aPtr
    let bPixel ← b.load 2 bPtr
    return aPixel &&& 0x7fff ≠ bPixel &&& 0x7fff
  | .snormInt8 => do
    let aPixel ← a.load 1 aPtr
    let bPixel ← b.load 1 bPtr
    return snorm8 aPixel ≠ snorm8 bPixel
  | .snormInt16 => do
    let aPixel ← a.load 2 aPtr
    let bPixel ← b.load 2 bPtr
    return snorm16 aPixel ≠ snorm16 bPixel
  | _ => memcmpNe a b (getPixelSize format) aPtr bPtr

/-- `compare_scanlines`: the column of the first difference, or the width. -/
def compareScanlines (info : ImageDescriptor) (a b : Buffer) (aPtr bPtr : ℤ) : Option ℕ :=
  firstBad (pixelDiffers info.format a b) (getPixelSize info.format) info.width 0 aPtr bPtr

/-- The body of the loops of the tests: whether they go on. -/
def scanlineOk (info : ImageDescriptor) (host mapped : Buffer) (scanlineSize : ℕ)
    (sourcePtr destPtr : ℤ) : Option Bool := do
  if ← memcmpNe host mapped scanlineSize sourcePtr destPtr then
    let column ← compareScanlines info host mapped sourcePtr destPtr
    return !decide (column < info.width)
  else return true

/-! ### The loops of the tests -/

/-- The width of the level that `test_copy_image_generic` compares. -/
def copyWidth (dstImageInfo : ImageDescriptor) (gTestMipmaps : Bool) (dstLod : ℕ) : ℕ :=
  if gTestMipmaps then mipDim dstImageInfo.width dstLod else dstImageInfo.width

/-- How the loops of `test_copy_image_generic` move their pointers. -/
def copySteps (dstImageInfo : ImageDescriptor) (gTestMipmaps : Bool)
    (dstLod mappedRow mappedSlice : ℕ) : Steps :=
  let scanlineSize :=
    copyWidth dstImageInfo gTestMipmaps dstLod * getPixelSize dstImageInfo.format
  let dstHeightLod :=
    if gTestMipmaps then mipDim dstImageInfo.height dstLod else dstImageInfo.height
  let rowPitch := if gTestMipmaps then scanlineSize else dstImageInfo.rowPitch
  let slicePitch := if gTestMipmaps then rowPitch * dstHeightLod else dstImageInfo.slicePitch
  { rows := match dstImageInfo.type with
      | .image1DArray => dstImageInfo.arraySize
      | .image2DArray | .image3D | .image2D =>
        if gTestMipmaps then mipDim dstImageInfo.height dstLod else dstImageInfo.height
      | .image1DBuffer | .image1D => 1
    slices := match dstImageInfo.type with
      | .image2DArray => dstImageInfo.arraySize
      | .image3D => if gTestMipmaps then mipDim dstImageInfo.depth dstLod else dstImageInfo.depth
      | .image1DArray | .image2D | .image1DBuffer | .image1D => 1
    srcRow := rowPitch
    srcSkip := slicePitch - rowPitch * dstHeightLod
    destRow := match dstImageInfo.type with
      | .image1DArray | .image1D => mappedSlice
      | _ => mappedRow
    destSkip := mappedSlice - mappedRow * dstHeightLod }

/-- The loops of `test_copy_image_generic` that compare the destination image with the one of
the host. -/
def testCopyImageGeneric (dstImageInfo : ImageDescriptor) (gTestMipmaps : Bool) (dstLod : ℕ)
    (dstHost mapped : Buffer) (mappedRow mappedSlice : ℕ) : Option Bool :=
  let curLodOffset := if gTestMipmaps then computeMipLevelOffset dstImageInfo dstLod else 0
  let scanlineSize :=
    copyWidth dstImageInfo gTestMipmaps dstLod * getPixelSize dstImageInfo.format
  (scanRows (copySteps dstImageInfo gTestMipmaps dstLod mappedRow mappedSlice)
    (scanlineOk dstImageInfo dstHost mapped scanlineSize) curLodOffset 0).verdict

/-- How the loops of `test_fill_image_generic` move their pointers. -/
def fillSteps (imageInfo : ImageDescriptor) (mappedRow mappedSlice : ℕ) : Steps :=
  let height := if imageInfo.height > 0 then imageInfo.height else 1
  { rows := match imageInfo.type with
      | .image1DBuffer | .image1D => 1
      | .image2D | .image3D | .image2DArray => imageInfo.height
      | .image1DArray => imageInfo.arraySize
    slices := match imageInfo.type with
      | .image1DBuffer | .image1D | .image2D | .image1DArray => 1
      | .image3D => imageInfo.depth
      | .image2DArray => imageInfo.arraySize
    srcRow := imageInfo.rowPitch
    srcSkip := imageInfo.slicePitch - imageInfo.rowPitch * height
    destRow := match imageInfo.type with
      | .image1DArray | .image1D | .image1DBuffer => mappedSlice
      | _ => mappedRow
    destSkip := mappedSlice - mappedRow * height }

/-- `imageRegion[1] * imageRegion[2]`. -/
def imageRegionRows (imageInfo : ImageDescriptor) : ℕ :=
  match imageInfo.type with
  | .image1DBuffer | .image1D => 1 * 1
  | .image2D => imageInfo.height * 1
  | .image3D => imageInfo.height * imageInfo.depth
  | .image1DArray => imageInfo.arraySize * 1
  | .image2DArray => imageInfo.height * imageInfo.arraySize

/-- The loops of `test_fill_image_generic` that compare the image with the one of the host, and
its end: whether it returns 0. -/
def testFillImageGeneric (imageInfo : ImageDescriptor) (imgHost mapped : Buffer)
    (mappedRow mappedSlice : ℕ) : Option Bool :=
  let scanlineSize := imageInfo.width * getPixelSize imageInfo.format
  match scanRows (fillSteps imageInfo mappedRow mappedSlice)
    (scanlineOk imageInfo imgHost mapped scanlineSize) 0 0 with
  | .running _ _ passed =>
    let totalMatched := passed * scanlineSize
    some (decide (totalMatched = scanlineSize * imageRegionRows imageInfo))
  | .failed => some false
  | .unknown => none

/-! ### Equivalent texels -/

/-- The texels at `p` and `q` are equal in every channel, up to the undefined bits and the
two encodings of -1.0. -/
def TexelEquiv (format : ImageFormat) (a b : ℕ → Byte) (p q : ℕ) : Prop :=
  match format.channelDataType with
  | .unormInt101010 => Memory.load a 4 p &&& 0x3fffffff = Memory.load b 4 q &&& 0x3fffffff
  | .unormShort555 => Memory.load a 2 p &&& 0x7fff = Memory.load b 2 q &&& 0x7fff
  | .snormInt8 => ∀ c < getFormatChannelCount format,
    snorm8 (Memory.load a 1 (p + c)) = snorm8 (Memory.load b 1 (q + c))
  | .snormInt16 => ∀ c < getFormatChannelCount format,
    snorm16 (Memory.load a 2 (p + c * 2)) = snorm16 (Memory.load b 2 (q + c * 2))
  | _ => ∀ o < getPixelSize format, a (p + o) = b (q + o)

/-- The types whose texels are equivalent only if they are equal. -/
def Exact : ChannelType → Prop
  | .unormInt101010 | .unormShort555 | .snormInt8 | .snormInt16 => False
  | _ => True

def IsSnorm (type : ChannelType) : Prop := type = .snormInt8 ∨ type = .snormInt16

variable {format : ImageFormat} {a b a' b' : ℕ → Byte} {p q p' q' : ℕ}

theorem TexelEquiv.congr (h : TexelEquiv format a b p q)
    (ha : ∀ o < getPixelSize format, a' (p' + o) = a (p + o))
    (hb : ∀ o < getPixelSize format, b' (q' + o) = b (q + o)) :
    TexelEquiv format a' b' p' q' := by
  obtain ⟨order, type⟩ := format
  have hload (w o : ℕ) (ho : o + w ≤ getPixelSize ⟨order, type⟩) :
      Memory.load a' w (p' + o) = Memory.load a w (p + o) ∧
        Memory.load b' w (q' + o) = Memory.load b w (q + o) :=
    ⟨load_congr fun k hk => by simpa only [Nat.add_assoc] using ha (o + k) (by omega),
      load_congr fun k hk => by simpa only [Nat.add_assoc] using hb (o + k) (by omega)⟩
  cases type
  case unormInt101010 =>
    obtain ⟨hl, hr⟩ := hload 4 0 le_rfl
    rw [TexelEquiv] at h ⊢
    rwa [← Nat.add_zero p', ← Nat.add_zero q', hl, hr]
  case unormShort555 =>
    obtain ⟨hl, hr⟩ := hload 2 0 le_rfl
    rw [TexelEquiv] at h ⊢
    rwa [← Nat.add_zero p', ← Nat.add_zero q', hl, hr]
  case snormInt8 =>
    intro c hc
    obtain ⟨hl, hr⟩ := hload 1 c hc
    rw [hl, hr]
    exact h c hc
  case snormInt16 =>
    intro c hc
    obtain ⟨hl, hr⟩ := hload 2 (c * 2) (by
      rw [← Nat.succ_mul]
      exact Nat.mul_le_mul_right 2 hc)
    rw [hl, hr]
    exact h c hc
  all_goals
    intro o ho
    rw [ha o ho, hb o ho]
    exact h o ho

theorem TexelEquiv.of_eq (h : ∀ o < getPixelSize format, a (p + o) = b (q + o)) :
    TexelEquiv format a b p q := by
  have hrefl : TexelEquiv format a a p p := by
    rw [TexelEquiv]
    split <;> intros <;> rfl
  exact hrefl.congr (fun _ _ => rfl) fun o ho => (h o ho).symm

end OpenCLCTS.Images
