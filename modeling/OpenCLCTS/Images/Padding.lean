import Mathlib.Data.Int.ConditionallyCompleteOrder
import OpenCLCTS.Images.Escape
import OpenCLCTS.Images.Levels
import OpenCLCTS.Lib.Memory

/-!
# The padding of images

`generate_random_image_data` fills an image with random data, and then what is not part of a texel
with `0xff`.  The rows of the first slice are padded, and not those of the others.

* `fills_iff`: where the two loops of `memset` write.
* `generateRandomImageData_iff`: **all of the padding is filled, and nothing else**, just if there
  is no padding behind the rows, or only one slice.

Sizes and offsets are numbers.  The images have less than `2 ^ 64` bytes, so that nothing wraps
around in `size_t`.
-/

namespace OpenCLCTS.Images

open Layout Memory

/-! ### The functions of the harness -/

/-- `get_image_size`. -/
def getImageSize (info : ImageDescriptor) : ℕ :=
  if 1 < info.numMipLevels then computeMipmappedImageSize info
  else match info.type with
    | .image1DBuffer | .image1D => info.rowPitch
    | .image2D => info.height * info.rowPitch
    | .image3D => info.depth * info.slicePitch
    | .image1DArray => info.arraySize * info.slicePitch
    | .image2DArray => info.arraySize * info.slicePitch

/-- The ramp that is stored if rounding is tested. -/
def roundingRamp (info : ImageDescriptor) (roundingStartValue : BitVec 64) (data allocSize : ℕ)
    (mem : ℕ → Byte) : ℕ → Byte :=
  let value (i : ℕ) := BitVec.ofNat 64 i + roundingStartValue
  match getChannelDataTypeSize info.format.channelDataType with
  | 1 => storeEach (w := 1) allocSize (fun i => (value i).setWidth 8) mem data
  | 2 => storeEach (w := 2) (allocSize / 2) (fun i => (value i).setWidth 16) mem data
  | 4 => storeEach (w := 4) (allocSize / 4) (fun i => (value i).setWidth 32) mem data
  | _ => mem

/-- The two loops that store random bits: words, and then the bytes that are left. -/
def randomBits (genrand : ℕ → BitVec 32) (data allocSize : ℕ) (mem : ℕ → Byte) : ℕ → Byte :=
  let mem := storeEach (w := 4) (allocSize / 4) genrand mem data
  storeEach (w := 1) (allocSize % 4) (fun i => (genrand (allocSize / 4 + i)).setWidth 8) mem
    (data + allocSize / 4 * 4)

/-- `height`, the number of rows whose padding is filled. -/
def paddedRows (info : ImageDescriptor) : ℕ :=
  match info.type with
  | .image2D | .image3D | .image2DArray => info.height
  | .image1DArray => info.arraySize
  | .image1D | .image1DBuffer => 0

/-- `slice_dimension`. -/
def sliceDimension (info : ImageDescriptor) : ℕ :=
  if info.type = .image1DArray then info.arraySize else info.height

/-- `depth`, the number of slices whose padding is filled. -/
def paddedSlices (info : ImageDescriptor) : ℕ :=
  match info.type with
  | .image2D | .image3D => info.depth
  | .image1DArray | .image2DArray => info.arraySize
  | .image1D | .image1DBuffer => 0

/-- The part of `generate_random_image_data` that fills the padding. -/
def fillPadding (info : ImageDescriptor) (data : ℕ) (mem : ℕ → Byte) : ℕ → Byte :=
  let pixelRowBytes := info.width * getPixelSize info.format
  let mem :=
    if info.rowPitch > pixelRowBytes then
      fillEach 0xff#8 (info.rowPitch - pixelRowBytes)
        (fun i => data + (i * info.rowPitch + pixelRowBytes)) (paddedRows info) mem
    else mem
  if info.slicePitch > sliceDimension info * info.rowPitch then
    fillEach 0xff#8 (info.slicePitch - sliceDimension info * info.rowPitch)
      (fun i => data + (i * info.slicePitch + sliceDimension info * info.rowPitch))
      (paddedSlices info) mem
  else mem

/-- `generate_random_image_data`, with what `align_malloc` returns; `none` if that is `NULL`. -/
def generateRandomImageData (info : ImageDescriptor) (testRounding : Bool)
    (roundingStartValue : BitVec 64) (genrand : ℕ → BitVec 32) (alignMalloc : Option ℕ)
    (mem : ℕ → Byte) : Option (ℕ × (ℕ → Byte)) :=
  let allocSize := getImageSize info
  let allocSize := if 1 < info.numMipLevels then computeMipmappedImageSize info else allocSize
  alignMalloc.map fun data =>
    if testRounding then
      (data, escapeInfNanSubnormalValues (roundingRamp info roundingStartValue data allocSize mem)
        data allocSize)
    else
      let mem := escapeInfNanSubnormalValues (randomBits genrand data allocSize mem) data allocSize
      (data, if info.numMipLevels < 2 then fillPadding info data mem else mem)

/-! ### Texels -/

/-- The texels: their numbers and pitches. -/
def texelBox (info : ImageDescriptor) : Box where
  width := info.width
  height := match info.type with
    | .image2D | .image3D | .image2DArray => info.height
    | .image1D | .image1DBuffer | .image1DArray => 1
  depth := match info.type with
    | .image3D => info.depth
    | .image1DArray | .image2DArray => info.arraySize
    | .image1D | .image1DBuffer | .image2D => 1
  size := getPixelSize info.format
  row := info.rowPitch
  slice := info.slicePitch

/-- A byte belongs to a texel. -/
def TexelByte (info : ImageDescriptor) (o : ℕ) : Prop :=
  ∃ x y z k, (texelBox info).Has x y z ∧ k < getPixelSize info.format ∧
    o = (texelBox info).addr x y z + k

/-- The pitches have room for the texels, there is one level, and the size is a `size_t`. -/
structure Padded (info : ImageDescriptor) : Prop extends UsedDims info where
  size : getImageSize info < 2 ^ 64
  levels : info.numMipLevels < 2
  row : info.width * getPixelSize info.format ≤ info.rowPitch
  slice : info.type = .image3D ∨ info.type = .image2DArray →
    info.height * info.rowPitch ≤ info.slicePitch
  layer : info.type = .image1DArray → info.slicePitch = info.rowPitch

/-- **The fill is exact**: bytes outside are kept, texels are what the random bits are after the
escape, and all other bytes are `0xff`. -/
structure FillExact (info : ImageDescriptor) (genrand : ℕ → BitVec 32) (data : ℕ)
    (mem mem' : ℕ → Byte) : Prop where
  outside : ∀ b, b < data ∨ data + getImageSize info ≤ b → mem' b = mem b
  texel : ∀ o < getImageSize info, TexelByte info o → mem' (data + o)
    = escapeInfNanSubnormalValues (randomBits genrand data (getImageSize info) mem) data
      (getImageSize info) (data + o)
  padding : ∀ o < getImageSize info, ¬ TexelByte info o → mem' (data + o) = 0xff#8

section

variable {info : ImageDescriptor} {data b o : ℕ} {mem : ℕ → Byte}

/-- A byte that one of the loops fills. -/
def Fills (info : ImageDescriptor) (o : ℕ) : Prop :=
  (∃ i < paddedRows info, i * info.rowPitch + info.width * getPixelSize info.format ≤ o ∧
    o < i * info.rowPitch + info.rowPitch) ∨
  ∃ i < paddedSlices info, i * info.slicePitch + sliceDimension info * info.rowPitch ≤ o ∧
    o < i * info.slicePitch + info.slicePitch

theorem fillEach_of_gt (count p t d : ℕ) (mem : ℕ → Byte) (data o : ℕ) :
    ((∃ i < count, i * d + t ≤ o ∧ o < i * d + p) →
      (if p > t then fillEach 0xff#8 (p - t) (fun i => data + (i * d + t)) count mem else mem)
        (data + o) = 0xff#8) ∧
    ((¬ ∃ i < count, i * d + t ≤ o ∧ o < i * d + p) →
      (if p > t then fillEach 0xff#8 (p - t) (fun i => data + (i * d + t)) count mem else mem)
        (data + o) = mem (data + o)) := by
  split
  · rename_i hgt
    have hspec := fillEach_spec 0xff#8 (p - t) (fun i => data + (i * d + t)) count mem (data + o)
    have hiff : (∃ i < count, data + (i * d + t) ≤ data + o ∧
        data + o < data + (i * d + t) + (p - t))
        ↔ ∃ i < count, i * d + t ≤ o ∧ o < i * d + p := by
      refine exists_congr fun i => and_congr_right ?_
      intro _
      omega
    rw [← hiff]
    exact hspec
  · rename_i hle
    refine ⟨fun hex => ?_, fun _ => rfl⟩
    obtain ⟨i, _, hge, hlt⟩ := hex
    omega

/-- **Where the two loops write.** -/
theorem fillPadding_spec (info : ImageDescriptor) (data : ℕ) (mem : ℕ → Byte) (o : ℕ) :
    (Fills info o → fillPadding info data mem (data + o) = 0xff#8) ∧
      (¬ Fills info o → fillPadding info data mem (data + o) = mem (data + o)) := by
  have hrows := fillEach_of_gt (paddedRows info) info.rowPitch
    (info.width * getPixelSize info.format) info.rowPitch mem data o
  have hslices := fun mem => fillEach_of_gt (paddedSlices info) info.slicePitch
    (sliceDimension info * info.rowPitch) info.slicePitch mem data o
  constructor
  · intro h
    by_cases hslice : ∃ i < paddedSlices info,
        i * info.slicePitch + sliceDimension info * info.rowPitch ≤ o ∧
          o < i * info.slicePitch + info.slicePitch
    · exact (hslices _).1 hslice
    · exact ((hslices _).2 hslice).trans (hrows.1 (h.resolve_right hslice))
  · intro h
    obtain ⟨hrow, hslice⟩ := not_or.mp h
    exact ((hslices _).2 hslice).trans (hrows.2 hrow)

theorem fillPadding_of_lt (info : ImageDescriptor) (mem : ℕ → Byte) (h : b < data) :
    fillPadding info data mem b = mem b := by
  have hkept (n t d count : ℕ) (mem : ℕ → Byte) :
      fillEach 0xff#8 n (fun i => data + (i * d + t)) count mem b = mem b :=
    (fillEach_spec _ _ _ _ _ _).2 fun hex => by
      obtain ⟨i, _, hge, _⟩ := hex
      omega
  simp only [fillPadding]
  split
  · rw [hkept]
    split
    · exact hkept _ _ _ _ _
    · rfl
  · split
    · exact hkept _ _ _ _ _
    · rfl

/-! ### The random bits -/

theorem randomBits_of_outside (genrand : ℕ → BitVec 32) {allocSize : ℕ} (mem : ℕ → Byte)
    (h : b < data ∨ data + allocSize ≤ b) : randomBits genrand data allocSize mem b = mem b := by
  have hwords : b < data ∨ data + allocSize / 4 * 4 ≤ b := by omega
  have hbytes : b < data + allocSize / 4 * 4 ∨
      data + allocSize / 4 * 4 + allocSize % 4 * 1 ≤ b := by omega
  exact (storeEach_of_outside (w := 1) hbytes).trans (storeEach_of_outside (w := 4) hwords)

/-- A memory whose bytes are all the same. -/
def constMem : ℕ → Byte := fun _ => 0x40#8

theorem load_constMem (w a : ℕ) : load constMem w a = load constMem w 0 :=
  load_congr fun _ _ => rfl

/-- **A random stream that changes nothing**: neither the words nor the escape. -/
theorem escape_randomBits_constMem (data allocSize : ℕ) :
    escapeInfNanSubnormalValues (randomBits (fun _ => 0x40404040#32) data allocSize constMem) data
      allocSize = constMem := by
  have hwords : storeEach (w := 4) (allocSize / 4) (fun _ => 0x40404040#32) constMem data
      = constMem := storeEach_eq_self fun i _ => (load_constMem 4 _).trans (by decide)
  have hrandom : randomBits (fun _ => 0x40404040#32) data allocSize constMem = constMem := by
    rw [randomBits, hwords]
    exact storeEach_eq_self fun i _ => (load_constMem 1 _).trans (by decide)
  rw [hrandom]
  refine escape_eq_self (fun i _ => ?_) fun i _ => ?_
  · rw [load_constMem]
    decide
  · rw [load_constMem]
    decide

/-- **What is exact of the fill depends on the loops of `memset` alone.** -/
theorem fillExact_iff (info : ImageDescriptor) (data : ℕ) :
    (∀ (genrand : ℕ → BitVec 32) (mem : ℕ → Byte), FillExact info genrand data mem
      (fillPadding info data (escapeInfNanSubnormalValues
        (randomBits genrand data (getImageSize info) mem) data (getImageSize info)))) ↔
      ∀ o, Fills info o ↔ o < getImageSize info ∧ ¬ TexelByte info o := by
  constructor
  · intro h o
    obtain ⟨houtside, htexel, hpadding⟩ := h (fun _ => 0x40404040#32) constMem
    rw [escape_randomBits_constMem] at houtside htexel hpadding
    have hspec := fillPadding_spec info data constMem o
    have hne : ¬ (0xff#8 : Byte) = 0x40#8 := by decide
    constructor
    · intro hfills
      have hff := hspec.1 hfills
      refine ⟨?_, fun hbyte => ?_⟩
      · by_contra hge
        have hkept := houtside (data + o) (.inr (by omega))
        rw [hff] at hkept
        exact hne hkept
      · by_cases hlt : o < getImageSize info
        · have hkept := htexel o hlt hbyte
          rw [hff] at hkept
          exact hne hkept
        · have hkept := houtside (data + o) (.inr (by omega))
          rw [hff] at hkept
          exact hne hkept
    · intro h
      by_contra hnot
      have hff := hpadding o h.1 h.2
      rw [hspec.2 hnot] at hff
      exact hne hff.symm
  · intro h genrand mem
    refine ⟨fun b hb => ?_, fun o ho hbyte => ?_, fun o ho hbyte => ?_⟩
    · have hfilled : fillPadding info data (escapeInfNanSubnormalValues
          (randomBits genrand data (getImageSize info) mem) data (getImageSize info)) b
            = escapeInfNanSubnormalValues (randomBits genrand data (getImageSize info) mem) data
              (getImageSize info) b := by
        rcases hb with hlt | hge
        · exact fillPadding_of_lt info _ hlt
        · obtain ⟨o, rfl⟩ := Nat.exists_eq_add_of_le (le_of_add_le_left hge)
          refine (fillPadding_spec info data _ o).2 ?_
          intro hfills
          have := ((h o).mp hfills).1
          omega
      rw [hfilled, escape_of_outside (by omega), randomBits_of_outside genrand mem hb]
    · exact (fillPadding_spec info data _ o).2 fun hfills => ((h o).mp hfills).2 hbyte
    · exact (fillPadding_spec info data _ o).1 ((h o).mpr ⟨ho, hbyte⟩)

/-! ### Rows and slices -/

theorem texelByte_iff : TexelByte info o ↔
    ∃ y < (texelBox info).height, ∃ z < (texelBox info).depth,
      z * info.slicePitch + y * info.rowPitch ≤ o ∧
        o < z * info.slicePitch + y * info.rowPitch + info.width * getPixelSize info.format := by
  constructor
  · intro h
    obtain ⟨x, y, z, k, hhas, hk, rfl⟩ := h
    refine ⟨y, hhas.y, z, hhas.z, ?_⟩
    have hrow : x * getPixelSize info.format + k < info.width * getPixelSize info.format :=
      digits_lt hhas.x hk
    show _ ≤ z * info.slicePitch + y * info.rowPitch + x * getPixelSize info.format + k ∧
      z * info.slicePitch + y * info.rowPitch + x * getPixelSize info.format + k < _
    omega
  · intro h
    obtain ⟨y, hy, z, hz, hge, hlt⟩ := h
    obtain ⟨x, k, hx, hk, hxk⟩ := exists_digits (m := getPixelSize info.format) (n := info.width)
      (o := o - (z * info.slicePitch + y * info.rowPitch)) (by
        rw [Nat.mul_comm (getPixelSize info.format)]
        omega)
    refine ⟨x, y, z, k, ⟨hx, hy, hz⟩, hk, ?_⟩
    show o = z * info.slicePitch + y * info.rowPitch + x * getPixelSize info.format + k
    omega

variable {n H S R P w : ℕ}

/-- **The padding of rows.** -/
theorem row_padding_iff (hw : w ≤ R) :
    (o < n * R ∧ ¬ ∃ y < n, y * R ≤ o ∧ o < y * R + w) ↔
    ∃ i < n, i * R + w ≤ o ∧ o < i * R + R := by
  constructor
  · intro h
    obtain ⟨hlt, hnot⟩ := h
    obtain ⟨i, r, hi, hr, rfl⟩ := exists_digits (by rwa [Nat.mul_comm] at hlt : o < R * n)
    have hge : w ≤ r := by
      by_contra hlt
      exact hnot ⟨i, hi, by omega, by omega⟩
    exact ⟨i, hi, by omega, by omega⟩
  · intro h
    obtain ⟨i, hi, hge, hlt⟩ := h
    obtain ⟨r, rfl⟩ := Nat.exists_eq_add_of_le (Nat.le_of_add_right_le hge)
    refine ⟨digits_lt hi (by omega), ?_⟩
    intro hex
    obtain ⟨y, _, hy, hy'⟩ := hex
    obtain ⟨s, hs⟩ := Nat.exists_eq_add_of_le hy
    have hsw : s < w := by omega
    have hdigits := digits_unique (by omega) (hsw.trans_le hw) hs
    omega

/-- **The padding of rows in slices, and the padding of the slices.** -/
theorem slice_padding_iff (hw : w ≤ R) (hP : H * R ≤ P) :
    (o < S * P ∧ ¬ ∃ y < H, ∃ z < S, z * P + y * R ≤ o ∧ o < z * P + y * R + w) ↔
      (∃ z < S, ∃ i < H, z * P + (i * R + w) ≤ o ∧ o < z * P + (i * R + R)) ∨
        ∃ z < S, z * P + H * R ≤ o ∧ o < z * P + P := by
  constructor
  · intro h
    obtain ⟨hlt, hnot⟩ := h
    obtain ⟨z, r, hz, hr, rfl⟩ := exists_digits (by rwa [Nat.mul_comm] at hlt : o < P * S)
    by_cases hrow : r < H * R
    · have hex := row_padding_iff (n := H) (o := r) hw
      obtain ⟨i, hi, hge, hlt⟩ := hex.mp ⟨hrow, fun hex => by
        obtain ⟨y, hy, hge, hlt⟩ := hex
        exact hnot ⟨y, hy, z, hz, by omega, by omega⟩⟩
      exact .inl ⟨z, hz, i, hi, by omega, by omega⟩
    · exact .inr ⟨z, hz, by omega, by omega⟩
  · intro h
    have hr : ∃ z < S, ∃ r < P, o = z * P + r ∧ ¬ ∃ y < H, y * R ≤ r ∧ r < y * R + w := by
      rcases h with hrow | hslice
      · obtain ⟨z, hz, i, hi, hge, hlt⟩ := hrow
        obtain ⟨r, rfl⟩ := Nat.exists_eq_add_of_le (Nat.le_of_add_right_le hge)
        obtain ⟨hr, hnot⟩ := (row_padding_iff (n := H) (o := r) hw).mpr ⟨i, hi, by omega, by omega⟩
        exact ⟨z, hz, r, by omega, rfl, hnot⟩
      · obtain ⟨z, hz, hge, hlt⟩ := hslice
        obtain ⟨r, rfl⟩ := Nat.exists_eq_add_of_le (Nat.le_of_add_right_le hge)
        refine ⟨z, hz, r, by omega, rfl, ?_⟩
        intro hex
        obtain ⟨y, hy, _, hlt'⟩ := hex
        have := Nat.mul_le_mul_right R (Nat.succ_le_of_lt hy)
        rw [Nat.succ_mul] at this
        omega
    obtain ⟨z, hz, r, hr, rfl, hnot⟩ := hr
    refine ⟨digits_lt hz hr, ?_⟩
    intro hex
    obtain ⟨y, hy, z', _, hge, hlt⟩ := hex
    have hrow := Nat.mul_le_mul_right R (Nat.succ_le_of_lt hy)
    rw [Nat.succ_mul] at hrow
    obtain ⟨s, hs⟩ := Nat.exists_eq_add_of_le (Nat.le_of_add_right_le hge)
    obtain ⟨rfl, rfl⟩ := digits_unique hr (by omega : s < P) hs
    exact hnot ⟨y, hy, by omega, by omega⟩

/-- The rows of the first slice are padded, and all slices: that is all of the padding, just if
there is none behind rows or one slice. -/
theorem slices_filled_iff (hw : w ≤ R) (hP : H * R ≤ P) (hH : 1 ≤ H) (hS : 1 ≤ S) :
    (∀ o, ((∃ i < H, i * R + w ≤ o ∧ o < i * R + R) ∨
        ∃ z < S, z * P + H * R ≤ o ∧ o < z * P + P) ↔
      o < S * P ∧ ¬ ∃ y < H, ∃ z < S, z * P + y * R ≤ o ∧ o < z * P + y * R + w) ↔
      R = w ∨ S = 1 := by
  simp only [slice_padding_iff hw hP]
  constructor
  · intro h
    by_contra hnot
    obtain ⟨hR, hS1⟩ := not_or.mp hnot
    -- The first row of the second slice is not padded.
    have hRP : 1 * R ≤ H * R := Nat.mul_le_mul_right R hH
    rcases (h (P + w)).mpr (.inl ⟨1, by omega, 0, hH, by omega, by omega⟩) with hrow | hslice
    · obtain ⟨i, hi, hge, hlt⟩ := hrow
      have := Nat.mul_le_mul_right R (Nat.succ_le_of_lt hi)
      rw [Nat.succ_mul] at this
      omega
    · obtain ⟨z, hz, hge, hlt⟩ := hslice
      rcases Nat.lt_or_ge z 1 with hz0 | hz1
      · rw [Nat.lt_one_iff.mp hz0] at hlt
        omega
      · have := Nat.mul_le_mul_right P hz1
        omega
  · intro h o
    refine or_congr_left ⟨fun hrow => ?_, fun hrow => ?_⟩
    · obtain ⟨i, hi, hge, hlt⟩ := hrow
      exact ⟨0, hS, i, hi, by omega, by omega⟩
    · obtain ⟨z, hz, i, hi, hge, hlt⟩ := hrow
      rcases h with hR | hS1
      · omega
      · have hz0 : z = 0 := by omega
        rw [hz0] at hge hlt
        exact ⟨i, hi, by omega, by omega⟩

theorem rows_filled_iff {count : ℕ} (hw : w ≤ R) :
    (∀ o, ((∃ i < n, i * R + w ≤ o ∧ o < i * R + R) ∨
        ∃ i < count, i * P + n * R ≤ o ∧ o < i * P + P) ↔
      o < n * R ∧ ¬ ∃ y < n, y * R ≤ o ∧ o < y * R + w) ↔ P ≤ n * R ∨ count = 0 := by
  simp only [row_padding_iff hw]
  constructor
  · intro h
    by_contra hnot
    obtain ⟨hP, hcount⟩ := not_or.mp hnot
    obtain ⟨i, hi, hge, hlt⟩ := (h (n * R)).mp (.inr ⟨0, by omega, by omega, by omega⟩)
    have := Nat.mul_le_mul_right R (Nat.succ_le_of_lt hi)
    rw [Nat.succ_mul] at this
    omega
  · intro h o
    refine or_iff_left ?_
    intro hex
    obtain ⟨i, hi, hge, hlt⟩ := hex
    omega

/-! ### The types of images -/

/-- There is no padding behind rows, or one slice; of a 2D image nothing is behind the rows. -/
def AllPaddingFilled (info : ImageDescriptor) : Prop :=
  match info.type with
  | .image1D | .image1DBuffer => info.rowPitch = info.width * getPixelSize info.format
  | .image1DArray => True
  | .image2D => info.slicePitch ≤ info.height * info.rowPitch ∨ info.depth = 0
  | .image2DArray => info.rowPitch = info.width * getPixelSize info.format ∨ info.arraySize = 1
  | .image3D => info.rowPitch = info.width * getPixelSize info.format ∨ info.depth = 1

theorem getImageSize_eq (h : info.numMipLevels < 2) : getImageSize info =
    match info.type with
    | .image1DBuffer | .image1D => info.rowPitch
    | .image2D => info.height * info.rowPitch
    | .image3D => info.depth * info.slicePitch
    | .image1DArray => info.arraySize * info.slicePitch
    | .image2DArray => info.arraySize * info.slicePitch :=
  if_neg (by omega)

/-- **The loops fill the padding of which types.** -/
theorem fills_iff (h : Padded info) :
    (∀ o, Fills info o ↔ o < getImageSize info ∧ ¬ TexelByte info o) ↔ AllPaddingFilled info := by
  have hw := h.row
  have hheight := h.height
  have hdepth := h.depth
  have harray := h.arraySize
  have hslice := h.slice
  have hlayer := h.layer
  have hone (P : ℕ → Prop) : (∃ z < 1, P z) ↔ P 0 := by simp
  simp only [texelByte_iff, getImageSize_eq h.levels, Fills, AllPaddingFilled, texelBox, paddedRows,
    paddedSlices, sliceDimension]
  cases ht : info.type with
  | image1D | image1DBuffer =>
    simp only [Nat.not_lt_zero, false_and, exists_false, or_self, false_iff, hone, Nat.zero_mul,
      Nat.zero_add, Nat.zero_le, true_and]
    constructor
    · intro hall
      by_contra hne
      exact hall (info.width * getPixelSize info.format) ⟨by omega, by omega⟩
    · intro heq o ho
      omega
  | image1DArray =>
    have hsize := harray (.inl ht)
    have hpitch := hlayer ht
    have hle : info.rowPitch ≤ info.arraySize * info.rowPitch := Nat.le_mul_of_pos_left _ hsize
    simp only [hpitch, hone, Nat.zero_mul, Nat.add_zero, if_true, iff_true]
    exact (rows_filled_iff hw).mpr (.inl hle)
  | image2D =>
    simp only [hone, Nat.zero_mul, Nat.zero_add, reduceCtorEq, if_false]
    exact rows_filled_iff hw
  | image2DArray =>
    simp only [reduceCtorEq, if_false]
    exact slices_filled_iff hw (hslice (.inr ht)) (hheight (.inr (.inl ht))) (harray (.inr ht))
  | image3D =>
    simp only [reduceCtorEq, if_false]
    exact slices_filled_iff hw (hslice (.inl ht)) (hheight (.inr (.inr ht))) (hdepth ht)

theorem generateRandomImageData_eq (h : info.numMipLevels < 2) (roundingStartValue : BitVec 64)
    (genrand : ℕ → BitVec 32) (data : ℕ) (mem : ℕ → Byte) :
    generateRandomImageData info false roundingStartValue genrand (some data) mem
      = some (data, fillPadding info data (escapeInfNanSubnormalValues
        (randomBits genrand data (getImageSize info) mem) data (getImageSize info))) := by
  have hlevels : ¬ 1 < info.numMipLevels := by omega
  simp only [generateRandomImageData, if_neg hlevels, if_pos h, Bool.false_eq_true, if_false]
  rfl

/-- **The padding of images.**  Whatever the random bits are, the fill is exact, just if the rows
have no padding or there is one slice; the layers of a 1D array are always padded, and the rows of a
1D image never. -/
theorem generateRandomImageData_iff (h : Padded info) (roundingStartValue : BitVec 64)
    (data : ℕ) :
    (∀ (genrand : ℕ → BitVec 32) (mem : ℕ → Byte), ∃ mem',
      generateRandomImageData info false roundingStartValue genrand (some data) mem
          = some (data, mem') ∧ FillExact info genrand data mem mem') ↔
      AllPaddingFilled info := by
  rw [← fills_iff h, ← fillExact_iff info data]
  refine forall₂_congr ?_
  intro genrand mem
  rw [generateRandomImageData_eq h.levels]
  constructor
  · intro hex
    obtain ⟨mem', heq, hexact⟩ := hex
    cases heq
    exact hexact
  · intro hexact
    exact ⟨_, rfl, hexact⟩

end

/-- Two slices of one row, with padding behind the rows. -/
def twoSlices : ImageDescriptor where
  width := 1
  height := 1
  depth := 2
  rowPitch := 2
  slicePitch := 2
  arraySize := 1
  format := ⟨.r, .unormInt8⟩
  type := .image3D
  numMipLevels := 1

theorem padded_twoSlices : Padded twoSlices where
  width := by decide
  height _ := by decide
  depth _ := by decide
  arraySize _ := by decide
  size := by decide
  levels := by decide
  row := by decide
  slice _ := by decide
  layer h := by cases h

theorem generateRandomImageData_iff_twoSlices :
    (∀ (genrand : ℕ → BitVec 32) (mem : ℕ → Byte), ∃ mem',
      generateRandomImageData twoSlices false 0 genrand (some 0) mem = some (0, mem') ∧
        FillExact twoSlices genrand 0 mem mem') ↔ AllPaddingFilled twoSlices :=
  generateRandomImageData_iff padded_twoSlices 0 0

/-- **The last byte of the second slice is not filled.** -/
theorem not_fillExact_twoSlices :
    ¬ TexelByte twoSlices 3 ∧ generateRandomImageData twoSlices false 0 (fun _ => 0x40404040#32)
        (some 0) constMem = some (0, fillPadding twoSlices 0 constMem) ∧
      fillPadding twoSlices 0 constMem 3 = 0x40#8 ∧
      ¬ FillExact twoSlices (fun _ => 0x40404040#32) 0 constMem
        (fillPadding twoSlices 0 constMem) := by
  have hbyte : ¬ TexelByte twoSlices 3 := by
    rw [texelByte_iff]
    decide
  have hlast : fillPadding twoSlices 0 constMem 3 = 0x40#8 := by decide
  refine ⟨hbyte, ?_, hlast, fun hexact => ?_⟩
  · rw [generateRandomImageData_eq (by decide), escape_randomBits_constMem]
  · have hff := hexact.padding 3 (by decide) hbyte
    rw [Nat.zero_add, hlast] at hff
    exact absurd hff (by decide)

end OpenCLCTS.Images
