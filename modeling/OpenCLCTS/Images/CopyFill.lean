import OpenCLCTS.Images.Verifiers

/-!
# The verifiers of the copy and fill tests

`copy_fill_verifies_iff`: the loops of `test_copy_image_generic` and
`test_fill_image_generic` accept just the images that are equivalent to the one of the host,
and read nothing behind the last scanlines, if and only if the level is compared as it
should be (`Compared`).
-/

namespace OpenCLCTS.Images

open Memory Scan Layout

variable {info : ImageDescriptor} {gTestMipmaps : Bool} {lod mappedRow mappedSlice : ℕ}

/-! ### Pitches -/

/-- Where the rows are that have these pitches. -/
def pitched (start slicePitch rowPitch : ℕ) (z y : ℕ) : ℕ := start + z * slicePitch + y * rowPitch

theorem rowsApart_of_pitches {slices rows bytes row slice : ℕ} (start : ℕ) (hrow : bytes ≤ row)
    (hslice : rows * row ≤ slice ∨ slices = 1) :
    RowsApart (pitched start slice row) slices rows bytes := by
  intro z y z' y' hz hy hz' hy' hlt
  have hend {y : ℕ} (hy : y < rows) : y * row + bytes ≤ rows * row := by
    have := column_le row hy
    omega
  rcases hlt with hlt | ⟨rfl, hlt⟩
  · have hs := hslice.resolve_right fun h1 => by omega
    have := hend hy
    have := column_le slice hlt
    simp only [pitched]
    omega
  · have := column_le row hlt
    simp only [pitched]
    omega

theorem scanning_of_pitches {s : Steps} {start width row slice destRow destSlice : ℕ}
    (hsrc : s.srcRow = row) (hsrcSlice : s.rows * s.srcRow + s.srcSkip = slice ∨ s.slices = 1)
    (hdest : s.destRow = destRow ∨ s.rows = 1)
    (hdestSlice : s.rows * s.destRow + s.destSkip = destSlice ∨ s.slices = 1)
    (hrow : width * getPixelSize info.format ≤ row) (hslice : s.rows * row ≤ slice ∨ s.slices = 1)
    (hrow' : width * getPixelSize info.format ≤ destRow)
    (hslice' : s.rows * destRow ≤ destSlice ∨ s.slices = 1) (hslices : 0 < s.slices)
    (hrows : 0 < s.rows) (hwidth : 0 < width) (hle : width ≤ info.width) :
    Scanning info s start width (pitched start slice row) (pitched 0 destSlice destRow) where
  src z y hz hy := by
    rw [Steps.srcAt, pitched, hsrc]
    rcases hsrcSlice with h | h
    · rw [← hsrc, h, hsrc]
      push_cast
      ring
    · obtain rfl : z = 0 := by omega
      push_cast
      ring
  dest z y hz hy := by
    rw [Steps.destAt, pitched]
    have hy' : (y : ℤ) * s.destRow = y * destRow := by
      rcases hdest with h | h
      · rw [h]
      · obtain rfl : y = 0 := by omega
        rw [Nat.cast_zero, zero_mul, zero_mul]
    rcases hdestSlice with h | h
    · rw [hy', h]
      push_cast
      ring
    · obtain rfl : z = 0 := by omega
      rw [hy']
      push_cast
      ring
  host := rowsApart_of_pitches start hrow hslice
  mapped := rowsApart_of_pitches 0 hrow' hslice'
  slices_pos := hslices
  rows_pos := hrows
  width_pos := hwidth
  width_le := hle

/-! ### The images -/

/-- The texels of the level that is compared. -/
def comparedBox (info : ImageDescriptor) (gTestMipmaps : Bool) (lod : ℕ) : Box :=
  levelBox info (if gTestMipmaps then lod else 0)

/-- Where the rows of the image of the host are.  The layers of a `1D` array are slices. -/
def hostRowAt (info : ImageDescriptor) (gTestMipmaps : Bool) (lod : ℕ) : ℕ → ℕ → ℕ :=
  if gTestMipmaps then
    pitched (computeMipLevelOffset info lod) (levelBox info lod).slice (levelBox info lod).row
  else pitched 0 info.slicePitch (match info.type with
    | .image1DArray => info.slicePitch
    | _ => info.rowPitch)

/-- The pitch of the rows of the mapped image. -/
def mappedPitch (info : ImageDescriptor) (mappedRow mappedSlice : ℕ) : ℕ :=
  match info.type with
  | .image1DArray => mappedSlice
  | _ => mappedRow

def mappedRowAt (info : ImageDescriptor) (mappedRow mappedSlice : ℕ) : ℕ → ℕ → ℕ :=
  pitched 0 mappedSlice (mappedPitch info mappedRow mappedSlice)

/-- The pitches have room for the texels. -/
structure ImagesFit (info : ImageDescriptor) (gTestMipmaps : Bool) (lod mappedRow mappedSlice : ℕ) :
    Prop where
  used : UsedDims info
  hostRows : gTestMipmaps = false → info.width * getPixelSize info.format ≤ info.rowPitch
  hostSlices : gTestMipmaps = false → info.type = .image2DArray ∨ info.type = .image3D →
    info.height * info.rowPitch ≤ info.slicePitch
  hostLayers : gTestMipmaps = false → info.type = .image1DArray → info.slicePitch = info.rowPitch
  mappedRows : (comparedBox info gTestMipmaps lod).width * getPixelSize info.format
    ≤ mappedPitch info mappedRow mappedSlice
  mappedSlices : info.type = .image2DArray ∨ info.type = .image3D →
    (comparedBox info gTestMipmaps lod).height * mappedRow ≤ mappedSlice

/-- The texels of the compared images are equivalent. -/
def LevelsEquiv (info : ImageDescriptor) (gTestMipmaps : Bool) (lod mappedRow mappedSlice : ℕ) :
    (ℕ → Byte) → (ℕ → Byte) → Prop :=
  ImagesEquiv info.format (comparedBox info gTestMipmaps lod).width
    (comparedBox info gTestMipmaps lod).depth (comparedBox info gTestMipmaps lod).height
    (hostRowAt info gTestMipmaps lod) (mappedRowAt info mappedRow mappedSlice)

/-- The bytes of an image up to the end of its last scanline. -/
def compared (info : ImageDescriptor) (gTestMipmaps : Bool) (lod : ℕ) (rowAt : ℕ → ℕ → ℕ)
    (mem : ℕ → Byte) : Buffer :=
  ⟨mem, rowsEnd rowAt (comparedBox info gTestMipmaps lod).depth
    (comparedBox info gTestMipmaps lod).height
    ((comparedBox info gTestMipmaps lod).width * getPixelSize info.format)⟩

theorem copySteps_dims (gTestMipmaps : Bool) (lod mappedRow mappedSlice : ℕ)
    (h : UsedDims info) :
    (copySteps info gTestMipmaps lod mappedRow mappedSlice).rows
        = (comparedBox info gTestMipmaps lod).height ∧
      (copySteps info gTestMipmaps lod mappedRow mappedSlice).slices
        = (comparedBox info gTestMipmaps lod).depth ∧
      copyWidth info gTestMipmaps lod = (comparedBox info gTestMipmaps lod).width := by
  obtain ⟨hw, hh, hd, _⟩ := h
  simp only [copySteps, copyWidth, comparedBox, levelBox, levelDims, ← mipDim_eq]
  cases gTestMipmaps
  · simp only [Bool.false_eq_true, if_false, mipDim_zero hw, and_true]
    cases ht : info.type <;> rw [ht] at hh hd <;> simp only [and_self, and_true]
    · exact (mipDim_zero (hh (by simp))).symm
    · exact (mipDim_zero (hh (by simp))).symm
    · exact ⟨(mipDim_zero (hh (by simp))).symm, (mipDim_zero (hd rfl)).symm⟩
  · simp only [if_true, and_true]
    cases info.type <;> exact ⟨rfl, rfl⟩

theorem comparedBox_pos (gTestMipmaps : Bool) (lod : ℕ) (h : UsedDims info) :
    0 < (comparedBox info gTestMipmaps lod).width ∧
      0 < (comparedBox info gTestMipmaps lod).height ∧
      0 < (comparedBox info gTestMipmaps lod).depth := by
  obtain ⟨_, _, _, hs⟩ := h
  simp only [comparedBox, levelBox, levelDims]
  refine ⟨Nat.lt_of_lt_of_le Nat.one_pos (le_max_left _ _), ?_⟩
  cases ht : info.type <;> rw [ht] at hs <;> simp only
  case image1DArray => exact ⟨hs (by simp), Nat.one_pos⟩
  case image2DArray => exact ⟨Nat.lt_of_lt_of_le Nat.one_pos (le_max_left _ _), hs (by simp)⟩
  all_goals simp

theorem comparedBox_width_le (gTestMipmaps : Bool) (lod : ℕ) (h : UsedDims info) :
    (comparedBox info gTestMipmaps lod).width ≤ info.width :=
  max_le h.width (Nat.shiftRight_le _ _)

/-- The types whose loops go over more than one slice. -/
def IsDeep (type : ImageType) : Prop := type = .image2DArray ∨ type = .image3D

theorem comparedBox_depth (h : ¬ IsDeep info.type) :
    (comparedBox info gTestMipmaps lod).depth = 1 := by
  simp only [comparedBox, levelBox, levelDims]
  cases ht : info.type <;> rw [ht] at h
  case image2DArray => exact absurd (.inl rfl) h
  case image3D => exact absurd (.inr rfl) h

theorem mappedPitch_of_deep (h : IsDeep info.type) (mappedRow mappedSlice : ℕ) :
    mappedPitch info mappedRow mappedSlice = mappedRow := by
  rw [mappedPitch]
  rcases h with ht | ht <;> rw [ht]

theorem comparedBox_height_of_deep (h : IsDeep info.type) (hused : UsedDims info) :
    (comparedBox info gTestMipmaps lod).height
      = if gTestMipmaps then mipDim info.height lod else info.height := by
  have hh := hused.height
  simp only [comparedBox, levelBox, levelDims, ← mipDim_eq]
  rcases h with ht | ht <;> rw [ht] at hh ⊢ <;> cases gTestMipmaps <;>
    simp [mipDim_zero (hh (by simp))]

theorem ImagesFit.hostRowAt_eq (h : ImagesFit info false lod mappedRow mappedSlice) :
    hostRowAt info false lod = pitched 0 info.slicePitch info.rowPitch := by
  have hrow : (match info.type with
      | .image1DArray => info.slicePitch
      | _ => info.rowPitch) = info.rowPitch := by
    split
    · exact h.hostLayers rfl ‹_›
    · rfl
  rw [hostRowAt, if_neg Bool.false_ne_true, hrow]

theorem ImagesFit.hostSlices_le (h : ImagesFit info false lod mappedRow mappedSlice) :
    (comparedBox info false lod).height * info.rowPitch ≤ info.slicePitch ∨
      (comparedBox info false lod).depth = 1 := by
  by_cases hdeep : IsDeep info.type
  · left
    rw [comparedBox_height_of_deep hdeep h.used]
    exact h.hostSlices rfl hdeep
  · exact .inr (comparedBox_depth hdeep)

theorem ImagesFit.mappedSlices_le (h : ImagesFit info gTestMipmaps lod mappedRow mappedSlice) :
    (comparedBox info gTestMipmaps lod).height * mappedPitch info mappedRow mappedSlice
        ≤ mappedSlice ∨
      (comparedBox info gTestMipmaps lod).depth = 1 := by
  by_cases hdeep : IsDeep info.type
  · left
    rw [mappedPitch_of_deep hdeep]
    exact h.mappedSlices hdeep
  · exact .inr (comparedBox_depth hdeep)

theorem copy_height (hdeep : IsDeep info.type) (hused : UsedDims info) :
    (if gTestMipmaps then mipDim info.height lod else info.height)
      = (comparedBox info gTestMipmaps lod).height :=
  (comparedBox_height_of_deep hdeep hused).symm

theorem copySteps_dest (gTestMipmaps : Bool) (lod mappedRow mappedSlice : ℕ)
    (hused : UsedDims info) :
    let s := copySteps info gTestMipmaps lod mappedRow mappedSlice
    (s.destRow = mappedPitch info mappedRow mappedSlice ∨ s.rows = 1) ∧
      (s.rows * s.destRow + s.destSkip = mappedSlice ∨ s.slices = 1) := by
  intro s
  obtain ⟨hr, hs, _⟩ := copySteps_dims gTestMipmaps lod mappedRow mappedSlice hused
  constructor
  · simp only [s, copySteps, mappedPitch]
    cases info.type <;> simp
  · by_cases hdeep : IsDeep info.type
    · left
      rw [hr, ← copy_height hdeep hused]
      simp only [s, copySteps]
      rcases hdeep with ht | ht <;> rw [ht] <;> push_cast <;> ring
    · exact .inr (hs.trans (comparedBox_depth hdeep))

/-- **The loops of the copy test go over the rows of both images.** -/
theorem copy_scanning (h : ImagesFit info gTestMipmaps lod mappedRow mappedSlice) :
    Scanning info (copySteps info gTestMipmaps lod mappedRow mappedSlice)
      ((if gTestMipmaps then computeMipLevelOffset info lod else 0 : ℕ) : ℤ)
      (comparedBox info gTestMipmaps lod).width (hostRowAt info gTestMipmaps lod)
      (mappedRowAt info mappedRow mappedSlice) := by
  have hused := h.used
  obtain ⟨hwidth, hheight, hdepth⟩ := comparedBox_pos gTestMipmaps lod hused
  obtain ⟨hr, hs, hw⟩ := copySteps_dims gTestMipmaps lod mappedRow mappedSlice hused
  obtain ⟨hdest, hdestSlice⟩ := copySteps_dest gTestMipmaps lod mappedRow mappedSlice hused
  have hflat (hdeep : ¬ IsDeep info.type) :
      (copySteps info gTestMipmaps lod mappedRow mappedSlice).slices = 1 :=
    hs.trans (comparedBox_depth hdeep)
  have hmapped := h.mappedSlices_le
  rw [← hr, ← hs] at hmapped
  have hle := comparedBox_width_le gTestMipmaps lod hused
  rw [mappedRowAt]
  cases gTestMipmaps
  · have hhost := h.hostSlices_le
    rw [← hr, ← hs] at hhost
    rw [h.hostRowAt_eq, if_neg Bool.false_ne_true]
    refine scanning_of_pitches rfl ?_ hdest hdestSlice (hw ▸ h.hostRows rfl) hhost h.mappedRows
      hmapped (hs ▸ hdepth) (hr ▸ hheight) hwidth hle
    by_cases hdeep : IsDeep info.type
    · left
      rw [hr, ← copy_height hdeep hused]
      simp only [copySteps, Bool.false_eq_true, if_false]
      ring
    · exact .inr (hflat hdeep)
  · rw [hostRowAt, if_pos rfl, if_pos rfl]
    have hrow : (levelBox info lod).row = copyWidth info true lod * getPixelSize info.format :=
      hw ▸ rfl
    refine scanning_of_pitches (congrArg Nat.cast hrow.symm) ?_ hdest hdestSlice le_rfl
      (.inl (hr ▸ le_rfl)) h.mappedRows hmapped (hs ▸ hdepth) (hr ▸ hheight) hwidth hle
    by_cases hdeep : IsDeep info.type
    · left
      have hslice : (levelBox info lod).slice
          = (comparedBox info true lod).height * (levelBox info lod).row := rfl
      rw [hr, hslice, hrow, ← copy_height hdeep hused]
      simp only [copySteps, if_true]
      push_cast
      ring
    · exact .inr (hflat hdeep)

/-! ### The fill test -/

theorem ImagesFit.flat (h : ImagesFit info false lod mappedRow mappedSlice) :
    ImagesFit info false 0 mappedRow mappedSlice :=
  ⟨h.used, h.hostRows, h.hostSlices, h.hostLayers, h.mappedRows, h.mappedSlices⟩

theorem fillSteps_dims (mappedRow mappedSlice : ℕ) (h : UsedDims info) :
    (fillSteps info mappedRow mappedSlice).rows = (comparedBox info false 0).height ∧
      (fillSteps info mappedRow mappedSlice).slices = (comparedBox info false 0).depth ∧
      info.width = (comparedBox info false 0).width := by
  obtain ⟨hr, hs, hw⟩ := copySteps_dims false 0 mappedRow mappedSlice h
  refine ⟨hr ▸ ?_, hs ▸ ?_, hw⟩
  · simp only [fillSteps, copySteps, Bool.false_eq_true, if_false]
    cases info.type <;> rfl
  · simp only [fillSteps, copySteps, Bool.false_eq_true, if_false]
    cases info.type <;> rfl

theorem fill_height (hdeep : IsDeep info.type) (hused : UsedDims info) :
    (if info.height > 0 then info.height else 1) = (comparedBox info false 0).height := by
  rw [comparedBox_height_of_deep hdeep hused, if_neg Bool.false_ne_true]
  refine if_pos (hused.height ?_)
  rcases hdeep with ht | ht
  · exact .inr (.inl ht)
  · exact .inr (.inr ht)

/-- **The loops of the fill test go over the rows of both images.** -/
theorem fill_scanning (h : ImagesFit info false 0 mappedRow mappedSlice) :
    Scanning info (fillSteps info mappedRow mappedSlice) 0 info.width
      (hostRowAt info false 0) (mappedRowAt info mappedRow mappedSlice) := by
  have hused := h.used
  obtain ⟨hwidth, hheight, hdepth⟩ := comparedBox_pos false 0 hused
  obtain ⟨hr, hs, hw⟩ := fillSteps_dims mappedRow mappedSlice hused
  have hflat (hdeep : ¬ IsDeep info.type) : (fillSteps info mappedRow mappedSlice).slices = 1 :=
    hs.trans (comparedBox_depth hdeep)
  have hhost := h.hostSlices_le
  have hmapped := h.mappedSlices_le
  have hrows' := h.mappedRows
  rw [← hr, ← hs] at hhost hmapped
  rw [mappedRowAt, h.hostRowAt_eq]
  rw [← hw] at hwidth hrows'
  refine scanning_of_pitches rfl ?_ ?_ ?_ (h.hostRows rfl) hhost hrows' hmapped (hs ▸ hdepth)
    (hr ▸ hheight) hwidth le_rfl
  · by_cases hdeep : IsDeep info.type
    · left
      rw [hr, ← fill_height hdeep hused]
      simp only [fillSteps]
      ring
    · exact .inr (hflat hdeep)
  · simp only [fillSteps, mappedPitch]
    cases info.type <;> simp
  · by_cases hdeep : IsDeep info.type
    · left
      rw [hr, ← fill_height hdeep hused]
      simp only [fillSteps]
      rcases hdeep with ht | ht <;> rw [ht] <;> ring
    · exact .inr (hflat hdeep)

/-! ### The verdicts -/

theorem testCopyImageGeneric_eq (h : UsedDims info) (host mapped : ℕ → Byte) :
    testCopyImageGeneric info gTestMipmaps lod
        (compared info gTestMipmaps lod (hostRowAt info gTestMipmaps lod) host)
        (compared info gTestMipmaps lod (mappedRowAt info mappedRow mappedSlice) mapped)
        mappedRow mappedSlice
      = scanVerdict info (copySteps info gTestMipmaps lod mappedRow mappedSlice)
        ((if gTestMipmaps then computeMipLevelOffset info lod else 0 : ℕ) : ℤ)
        (comparedBox info gTestMipmaps lod).width (hostRowAt info gTestMipmaps lod)
        (mappedRowAt info mappedRow mappedSlice) host mapped := by
  obtain ⟨hr, hs, hw⟩ := copySteps_dims gTestMipmaps lod mappedRow mappedSlice h
  rw [testCopyImageGeneric, scanVerdict, compared, compared, hr, hs, hw]

theorem totalMatched_eq (info : ImageDescriptor) (mappedRow mappedSlice : ℕ) :
    (fillSteps info mappedRow mappedSlice).slices * (fillSteps info mappedRow mappedSlice).rows
      = imageRegionRows info := by
  simp only [fillSteps, imageRegionRows]
  cases info.type <;> simp only <;> ring

theorem testFillImageGeneric_eq (h : UsedDims info) (host mapped : ℕ → Byte) :
    testFillImageGeneric info (compared info false 0 (hostRowAt info false 0) host)
        (compared info false 0 (mappedRowAt info mappedRow mappedSlice) mapped) mappedRow
        mappedSlice
      = scanVerdict info (fillSteps info mappedRow mappedSlice) 0 info.width
        (hostRowAt info false 0) (mappedRowAt info mappedRow mappedSlice) host mapped := by
  obtain ⟨hr, hs, hw⟩ := fillSteps_dims mappedRow mappedSlice h
  rw [testFillImageGeneric, scanVerdict, compared, compared, hr, hs, ← hw]
  dsimp only
  split <;> rename_i hp <;> rw [hp]
  · rw [passed_eq hp, totalMatched_eq, mul_comm, decide_eq_true rfl]
    rfl
  · rfl
  · rfl

/-- **The copy and the fill test accept just the equivalent images, and read nothing behind the
last scanlines, if and only if the level is compared as it should be.** -/
theorem copy_fill_verifies_iff (h : ImagesFit info gTestMipmaps lod mappedRow mappedSlice) :
    (Verifies (fun host mapped => testCopyImageGeneric info gTestMipmaps lod
          (compared info gTestMipmaps lod (hostRowAt info gTestMipmaps lod) host)
          (compared info gTestMipmaps lod (mappedRowAt info mappedRow mappedSlice) mapped)
          mappedRow mappedSlice)
        (LevelsEquiv info gTestMipmaps lod mappedRow mappedSlice)
      ↔ Compared info (comparedBox info gTestMipmaps lod).width) ∧
    (gTestMipmaps = false →
      (Verifies (fun host mapped => testFillImageGeneric info
            (compared info false 0 (hostRowAt info false 0) host)
            (compared info false 0 (mappedRowAt info mappedRow mappedSlice) mapped)
            mappedRow mappedSlice)
          (LevelsEquiv info false 0 mappedRow mappedSlice)
        ↔ Compared info info.width)) := by
  constructor
  · obtain ⟨hr, hs, _⟩ := copySteps_dims gTestMipmaps lod mappedRow mappedSlice h.used
    have hiff := verifies_iff (copy_scanning h)
    rw [hr, hs] at hiff
    simp only [testCopyImageGeneric_eq h.used]
    exact hiff
  · rintro rfl
    obtain ⟨hr, hs, hw⟩ := fillSteps_dims mappedRow mappedSlice h.used
    have hiff := verifies_iff (fill_scanning h.flat)
    rw [hr, hs] at hiff
    simp only [testFillImageGeneric_eq h.used, LevelsEquiv, ← hw]
    exact hiff

/-- An image of `CL_RGBA` and `CL_UNSIGNED_INT8` with padded rows. -/
def rgbaImage : ImageDescriptor where
  width := 3
  height := 2
  depth := 0
  rowPitch := 16
  slicePitch := 0
  arraySize := 0
  format := ⟨.rgba, .unsignedInt8⟩
  type := .image2D
  numMipLevels := 1

theorem rgbaImage_fits : ImagesFit rgbaImage false 0 12 0 where
  used := ⟨by decide, by decide, by decide, by decide⟩
  hostRows := by decide
  hostSlices := by decide
  hostLayers := by decide
  mappedRows := by decide
  mappedSlices := by decide

theorem copy_fill_verifies_iff_rgba :
    Verifies (fun host mapped => testCopyImageGeneric rgbaImage false 0
        (compared rgbaImage false 0 (hostRowAt rgbaImage false 0) host)
        (compared rgbaImage false 0 (mappedRowAt rgbaImage 12 0) mapped) 12 0)
      (LevelsEquiv rgbaImage false 0 12 0) :=
  (copy_fill_verifies_iff rgbaImage_fits).1.mpr (.inl trivial)

/-- A texel of `CL_RG` and `CL_SNORM_INT8`. -/
def rgImage : ImageDescriptor where
  width := 1
  height := 1
  depth := 0
  rowPitch := 2
  slicePitch := 0
  arraySize := 0
  format := ⟨.rg, .snormInt8⟩
  type := .image2D
  numMipLevels := 1

/-- The second channel is not compared. -/
theorem not_verified_rg :
    ImagesFit rgImage false 0 2 0 ∧
      testCopyImageGeneric rgImage false 0 ⟨fun _ => 0, 2⟩ ⟨spot 1, 2⟩ 2 0 = some true ∧
      testFillImageGeneric rgImage ⟨fun _ => 0, 2⟩ ⟨spot 1, 2⟩ 2 0 = some true ∧
      ¬ LevelsEquiv rgImage false 0 2 0 (fun _ => 0) (spot 1) := by
  refine ⟨⟨⟨by decide, by decide, by decide, by decide⟩, by decide, by decide, by decide,
    by decide, by decide⟩, by decide, by decide, fun hequiv => ?_⟩
  exact not_texelEquiv_spot (.inl rfl) (by decide) 0 0
    (hequiv 0 Nat.one_pos 0 Nat.one_pos 0 Nat.one_pos)

end OpenCLCTS.Images
