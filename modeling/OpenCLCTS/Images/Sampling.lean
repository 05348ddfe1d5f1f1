import OpenCLCTS.Images.Addressing
import OpenCLCTS.Lib.FloatRounding

/-!
# The two references for nearest sampling agree

`samplers_agree`: `sample_image_pixel_offset` and `sample_image_pixel_float_offset` select
the same texel, give the border color to the same texels, and read the others at the same
place.
-/

namespace OpenCLCTS.Images

/-- What is known about `float`: the integers up to `2 ^ 24` have no rounding errors. -/
structure LawfulFloat {F : Type} (ops : FloatOps F) : Prop where
  toSize_ofSize : ∀ n ≤ 2 ^ 24, ops.toSize (ops.ofSize n) = n
  ofSize_sub_one : ∀ n, 1 ≤ n → n ≤ 2 ^ 24 →
    ops.sub (ops.ofSize n) ops.one = ops.ofSize (n - 1)
  not_lt_zero : ops.lt ops.zero ops.zero = false
  toInt_nonneg : ∀ f n, ops.toInt f = some n → ops.lt f ops.zero = false → 0 ≤ n

/-- A dimension that is used. -/
def Used (n : ℕ) : Prop := 1 ≤ n ∧ n ≤ 2 ^ 24

instance (n : ℕ) : Decidable (Used n) := inferInstanceAs (Decidable (_ ∧ _))

/-- The images and levels that are sampled. -/
structure Sampled (info : ImageDescriptor) (lod : ℕ) : Prop where
  type : info.type ≠ .image1DBuffer
  mip : info.numMipLevels = 0 ∧ lod = 0 ∨ 2 ≤ info.numMipLevels ∧ lod < info.numMipLevels
  width : Used info.width
  height : match info.type with
    | .image1D | .image1DBuffer => info.height = 1
    | .image1DArray => info.height = 0
    | .image2D | .image2DArray | .image3D => Used info.height
  depth : match info.type with
    | .image1D | .image1DBuffer | .image2D => info.depth ≤ 1
    | .image1DArray | .image2DArray => info.depth = 0
    | .image3D => Used info.depth
  arraySize : info.type = .image1DArray ∨ info.type = .image2DArray → Used info.arraySize

variable {info : ImageDescriptor} {lod : ℕ}

/-! ### The level -/

theorem mipDim_pos (d lod : ℕ) : 1 ≤ mipDim d lod := by
  rw [mipDim_eq]
  exact le_max_left _ _

theorem mipDim_le {d lod n : ℕ} (hn : 1 ≤ n) (h : d ≤ n) : mipDim d lod ≤ n := by
  rw [mipDim_eq]
  exact max_le hn ((Nat.shiftRight_le d lod).trans h)

theorem Used.mipDim {n : ℕ} (h : Used n) (lod : ℕ) : Used (mipDim n lod) :=
  ⟨mipDim_pos n lod, mipDim_le (by norm_num) h.2⟩

/-- The height of a level, where 0 stands for none. -/
def viewHeight (info : ImageDescriptor) (lod : ℕ) : ℕ :=
  match info.type with
  | .image2D | .image2DArray | .image3D => mipDim info.height lod
  | .image1D | .image1DBuffer | .image1DArray => info.height

/-- The depth of a level, where 0 stands for none. -/
def viewDepth (info : ImageDescriptor) (lod : ℕ) : ℕ :=
  match info.type with
  | .image3D => mipDim info.depth lod
  | _ => info.depth

theorem floatView_dims (h : Sampled info lod) :
    (readImagePixelFloatView info lod).width = mipDim info.width lod ∧
      (readImagePixelFloatView info lod).height = viewHeight info lod ∧
      (readImagePixelFloatView info lod).depth = viewDepth info lod := by
  obtain ⟨_, hmip, hw, hh, hd, _⟩ := h
  rcases hmip with ⟨h0, rfl⟩ | ⟨h2, _⟩
  · rw [readImagePixelFloatView, h0, if_neg (by decide), mipDim_zero hw.1, viewHeight, viewDepth]
    cases ht : info.type <;> rw [ht] at hh hd
    case image2D => exact ⟨rfl, (mipDim_zero hh.1).symm, rfl⟩
    case image2DArray => exact ⟨rfl, (mipDim_zero hh.1).symm, rfl⟩
    case image3D => exact ⟨rfl, (mipDim_zero hh.1).symm, (mipDim_zero hd.1).symm⟩
    all_goals exact ⟨rfl, rfl, rfl⟩
  · rw [readImagePixelFloatView, if_pos (by omega), viewHeight, viewDepth]
    cases info.type <;> exact ⟨rfl, rfl, rfl⟩

theorem view_dims (h : Sampled info lod) :
    (readImagePixelView info lod).width = mipDim info.width lod ∧
      (readImagePixelView info lod).height = viewHeight info lod ∧
      (readImagePixelView info lod).depth = viewDepth info lod := by
  obtain ⟨hbuffer, _, _, hh, hd, _⟩ := h
  rw [readImagePixelView, viewHeight, viewDepth]
  cases ht : info.type <;> rw [ht] at hh hd <;> simp only at hh hd
  case image1DBuffer => exact absurd ht hbuffer
  case image1DArray =>
    rw [if_neg (by rw [hh]; simp), if_neg (by simp)]
    exact ⟨rfl, rfl, rfl⟩
  case image2DArray =>
    rw [if_neg (by simp), if_neg (by rw [hd]; simp)]
    exact ⟨rfl, rfl, rfl⟩
  all_goals
    rw [if_neg (by simp), if_neg (by simp)]
    exact ⟨rfl, rfl, rfl⟩

theorem floatView_rowPitch (h : Sampled info lod) :
    (readImagePixelFloatView info lod).rowPitch = (readImagePixelView info lod).rowPitch := by
  simp only [readImagePixelFloatView, readImagePixelView, apply_ite LevelView.rowPitch, ite_self]
  rcases h.mip with ⟨h0, _⟩ | ⟨h2, _⟩
  · rw [h0, if_neg (by decide), if_neg (by decide)]
  · rw [if_pos (by omega), if_pos (by omega)]

theorem floatView_slicePitch (h : Sampled info lod)
    (ht : info.type = .image2DArray ∨ info.type = .image3D) :
    (readImagePixelFloatView info lod).slicePitch = (readImagePixelView info lod).slicePitch := by
  simp only [readImagePixelFloatView, readImagePixelView, apply_ite LevelView.slicePitch, ite_self]
  rcases h.mip with ⟨h0, _⟩ | ⟨h2, _⟩
  · rw [h0, if_neg (by decide), if_neg (by decide)]
  · rw [if_pos (by omega), if_pos (by omega), if_pos (by omega)]
    rcases ht with ht | ht <;> rw [ht]

/-! ### The texel -/

section

variable {F : Type} {ops : FloatOps F}

theorem normalizeCoord_eq (hl : LawfulFloat ops) {n : ℕ} (hn : n ≤ 2 ^ 24) (mode : AddressingMode)
    (c offset : F) : normalizeCoord ops mode false false c offset n
      = unnormalizeCoordinate ops c offset (ops.ofSize n) mode := by
  cases mode <;> simp [normalizeCoord, unnormalizeCoordinate, hl.toSize_ofSize n hn]

/-- The index into an array is kept. -/
theorem normalizeCoord_index (mode : AddressingMode) (empty : Bool) (c offset : F) (n : ℕ) :
    normalizeCoord ops mode true empty c offset n = c := by
  cases mode <;> simp [normalizeCoord]

/-- The height that is passed to `get_integer_coords_offset`. -/
def passedHeight (info : ImageDescriptor) (lod : ℕ) : ℕ :=
  match info.type with
  | .image1DArray => info.arraySize
  | _ => viewHeight info lod

/-- The depth that is passed to `get_integer_coords_offset`. -/
def passedDepth (info : ImageDescriptor) (lod : ℕ) : ℕ :=
  match info.type with
  | .image2DArray => info.arraySize
  | _ => viewDepth info lod

theorem maxCoords_eq (h : Sampled info lod) :
    maxCoords ops info lod = (ops.ofSize (mipDim info.width lod),
      ops.ofSize (passedHeight info lod), ops.ofSize (passedDepth info lod)) := by
  obtain ⟨hbuffer, hmip, hw, hh, hd, _⟩ := h
  rw [maxCoords, passedHeight, passedDepth, viewHeight, viewDepth]
  rcases hmip with ⟨h0, rfl⟩ | ⟨h2, _⟩
  · have hno : ¬ 1 < info.numMipLevels := by omega
    cases ht : info.type <;> rw [ht] at hh hd <;> simp only [hno, if_false] at hh hd ⊢ <;>
      rw [mipDim_zero hw.1]
    case image1DArray => rw [hd]
    case image2D => rw [mipDim_zero hh.1]
    case image2DArray => rw [mipDim_zero hh.1]
    case image3D => rw [mipDim_zero hh.1, mipDim_zero hd.1]
  · have hyes : 1 < info.numMipLevels := by omega
    cases ht : info.type <;> rw [ht] at hd <;> simp only [hyes, if_true] at hd ⊢
    case image1DArray => rw [hd]

theorem viewHeight_le (h : Sampled info lod) : viewHeight info lod ≤ 2 ^ 24 := by
  obtain ⟨_, _, _, hh, _, _⟩ := h
  rw [viewHeight]
  cases ht : info.type <;> rw [ht] at hh <;> simp only at hh ⊢
  case image1DArray => omega
  case image2D => exact (hh.mipDim lod).2
  case image2DArray => exact (hh.mipDim lod).2
  case image3D => exact (hh.mipDim lod).2
  all_goals omega

theorem viewDepth_le (h : Sampled info lod) : viewDepth info lod ≤ 2 ^ 24 := by
  obtain ⟨_, _, _, _, hd, _⟩ := h
  rw [viewDepth]
  cases ht : info.type <;> rw [ht] at hd <;> simp only at hd ⊢
  case image3D => exact (hd.mipDim lod).2
  all_goals omega

theorem passed_le (h : Sampled info lod) :
    passedHeight info lod ≤ 2 ^ 24 ∧ passedDepth info lod ≤ 2 ^ 24 := by
  have hh := viewHeight_le h
  have hd := viewDepth_le h
  rw [passedHeight, passedDepth]
  cases ht : info.type <;> simp only
  case image1DArray => exact ⟨(h.arraySize (.inl ht)).2, hd⟩
  case image2DArray => exact ⟨hh, (h.arraySize (.inr ht)).2⟩
  all_goals exact ⟨hh, hd⟩

theorem sampleImagePixelOffset_eq (hl : LawfulFloat ops) (h : Sampled info lod)
    {x y z xo yo zo : F} {sampler : ImageSampler} {t : Texel}
    (ht : sampleImagePixelOffset ops info x y z xo yo zo sampler lod = some t) :
    integerCoords ops x y z xo yo zo (mipDim info.width lod) (passedHeight info lod)
      (passedDepth info lod) sampler info ⟨0, 0, 0⟩ = some t := by
  obtain ⟨hh, hd⟩ := passed_le h
  rw [sampleImagePixelOffset, maxCoords_eq h] at ht
  simp only [hl.toSize_ofSize _ (h.width.mipDim lod).2, hl.toSize_ofSize _ hh,
    hl.toSize_ofSize _ hd] at ht
  obtain ⟨⟨out, b⟩, hout, rfl⟩ := Option.map_eq_some_iff.mp ht
  rw [getIntegerCoordsOffset] at hout
  obtain ⟨out', hout', hrest⟩ := Option.bind_eq_some_iff.mp hout
  have hsame : out' = out := by
    obtain ⟨rx, _, hrest⟩ := Option.bind_eq_some_iff.mp hrest
    split at hrest
    · cases hrest
      rfl
    · obtain ⟨ry, _, hrest⟩ := Option.bind_eq_some_iff.mp hrest
      split at hrest
      · cases hrest
        rfl
      · obtain ⟨rz, _, hrest⟩ := Option.bind_eq_some_iff.mp hrest
        cases hrest
        rfl
  exact hsame ▸ hout'

theorem viewHeight_ne_zero (h : Sampled info lod) (ht : info.type ≠ .image1DArray) :
    viewHeight info lod ≠ 0 := by
  obtain ⟨_, _, _, hh, _, _⟩ := h
  rw [viewHeight]
  cases hi : info.type <;> rw [hi] at hh <;> simp only at hh ⊢
  case image1DArray => exact absurd hi ht
  case image2D => exact Nat.ne_of_gt (mipDim_pos _ lod)
  case image2DArray => exact Nat.ne_of_gt (mipDim_pos _ lod)
  case image3D => exact Nat.ne_of_gt (mipDim_pos _ lod)
  all_goals omega

theorem pred_eq {n : ℕ} (h : Used n) : pred n = n - 1 := by
  obtain ⟨h1, h2⟩ := h
  rw [pred]
  omega

theorem passedHeight_of_ne (ht : info.type ≠ .image1DArray) :
    passedHeight info lod = viewHeight info lod := by
  rw [passedHeight]
  split
  · exact absurd ‹_› ht
  · rfl

theorem passedDepth_of_ne (ht : info.type ≠ .image2DArray) :
    passedDepth info lod = viewDepth info lod := by
  rw [passedDepth]
  split
  · exact absurd ‹_› ht
  · rfl

theorem normalizeCoord_y (hl : LawfulFloat ops) (h : Sampled info lod)
    (ht : info.type ≠ .image1DArray) (mode : AddressingMode) (y offset : F) :
    normalizeCoord ops mode (info.type = .image1DArray) (passedHeight info lod = 0) y offset
        (passedHeight info lod)
      = unnormalizeCoordinate ops y offset (ops.ofSize (viewHeight info lod)) mode := by
  rw [passedHeight_of_ne ht, decide_eq_false ht, decide_eq_false (viewHeight_ne_zero h ht),
    normalizeCoord_eq hl (viewHeight_le h)]

theorem normalizeCoord_z (hl : LawfulFloat ops) (h : Sampled info lod)
    (ht : info.type ≠ .image2DArray) (hdepth : viewDepth info lod ≠ 0) (mode : AddressingMode)
    (z offset : F) :
    normalizeCoord ops mode (info.type = .image2DArray) (passedDepth info lod = 0) z offset
        (passedDepth info lod)
      = unnormalizeCoordinate ops z offset (ops.ofSize (viewDepth info lod)) mode := by
  rw [passedDepth_of_ne ht, decide_eq_false ht, decide_eq_false hdepth,
    normalizeCoord_eq hl (viewDepth_le h)]

theorem ofSize_pred (hl : LawfulFloat ops) (h : Sampled info lod)
    (ht : info.type = .image1DArray ∨ info.type = .image2DArray) :
    ops.ofSize (pred info.arraySize) = ops.sub (ops.ofSize info.arraySize) ops.one := by
  obtain ⟨h1, h2⟩ := h.arraySize ht
  rw [pred_eq ⟨h1, h2⟩, hl.ofSize_sub_one _ h1 h2]

/-- **Both references select the same texel.** -/
theorem texel_eq (hl : LawfulFloat ops) (h : Sampled info lod) {x y z xo yo zo : F}
    {sampler : ImageSampler} (hnearest : sampler.filterMode = .nearest) :
    integerCoords ops x y z xo yo zo (mipDim info.width lod) (passedHeight info lod)
      (passedDepth info lod) sampler info ⟨0, 0, 0⟩
      = sampleImagePixelFloatOffset ops info x y z xo yo zo sampler lod := by
  obtain ⟨hw, hvh, hvd⟩ := floatView_dims h
  have hx := normalizeCoord_eq hl (h.width.mipDim lod).2 sampler.addressingMode x xo
  rw [integerCoords, sampleImagePixelFloatOffset]
  simp only [hw, hvh, hvd, hx, if_pos hnearest]
  have hy := fun ht => normalizeCoord_y hl h ht sampler.addressingMode y yo
  have hz := fun ht hd => normalizeCoord_z hl h ht hd sampler.addressingMode z zo
  have hlast := ofSize_pred hl h
  have hheight (ht : info.type ≠ .image1DArray) : passedHeight info lod = _ := passedHeight_of_ne ht
  have hdepth (ht : info.type ≠ .image2DArray) : passedDepth info lod = _ := passedDepth_of_ne ht
  have hne := viewHeight_ne_zero h
  cases ht : info.type <;> rw [ht] at hy hz hlast hheight hdepth hne
  case image1DArray => simp only [decide_true, normalizeCoord_index, hlast (.inl rfl)]
  case image2DArray =>
    rw [hy nofun, hheight nofun]
    simp only [decide_true, normalizeCoord_index, hlast (.inr rfl)]
  all_goals
    rw [hy nofun, hheight nofun]
    simp only [if_pos (hne nofun)]
    by_cases hd : viewDepth info lod = 0
    · simp only [hdepth nofun, hd, ne_eq, not_true_eq_false, if_false]
    · rw [hz nofun hd, hdepth nofun]

theorem not_lt_zero (hl : LawfulFloat ops) (f : F) :
    ops.lt (if ops.lt f ops.zero then ops.zero else f) ops.zero = false := by
  split
  · exact hl.not_lt_zero
  · exact Bool.eq_false_of_not_eq_true ‹_›

theorem calculateArrayIndex_nonneg (hl : LawfulFloat ops) {coord extent : F} {n : ℤ}
    (hn : ops.toInt (calculateArrayIndex ops coord extent) = some n) : 0 ≤ n :=
  hl.toInt_nonneg _ n hn (not_lt_zero hl _)

/-- The coordinates that are not bounded. -/
structure Unbounded (info : ImageDescriptor) (t : Texel) : Prop where
  array1D : info.type = .image1DArray → 0 ≤ t.y ∧ t.z = 0
  flat : info.type = .image1D ∨ info.type = .image2D → info.depth = 0 → t.z = 0

theorem texel_unbounded (hl : LawfulFloat ops) (h : Sampled info lod) {x y z xo yo zo : F}
    {sampler : ImageSampler} {t : Texel}
    (ht : sampleImagePixelFloatOffset ops info x y z xo yo zo sampler lod = some t) :
    Unbounded info t := by
  obtain ⟨_, _, hvd⟩ := floatView_dims h
  rw [sampleImagePixelFloatOffset] at ht
  split at ht
  · obtain ⟨nx, _, ht⟩ := Option.bind_eq_some_iff.mp ht
    refine ⟨fun htype => ?_, fun htype hdepth => ?_⟩
    · rw [htype] at ht
      obtain ⟨ny, hny, ht⟩ := Option.bind_eq_some_iff.mp ht
      cases ht
      exact ⟨calculateArrayIndex_nonneg hl hny, rfl⟩
    · have hzero : viewDepth info lod = 0 := by
        rw [viewDepth]
        rcases htype with htype | htype <;> rw [htype] <;> exact hdepth
      rw [hzero] at hvd
      rcases htype with htype | htype <;> rw [htype] at ht <;>
        obtain ⟨ny, _, ht⟩ := Option.bind_eq_some_iff.mp ht <;>
        rw [if_neg (not_not.mpr hvd)] at ht <;> cases ht <;> rfl
  · cases ht

/-! ### The pixel -/

/-- **Both readers give the border color to the same texels.** -/
theorem outside_iff (h : Sampled info lod) {t : Texel} (hu : Unbounded info t) :
    Outside (readImagePixelView info lod) info.arraySize t.x t.y t.z ↔
      OutsideFloat (readImagePixelFloatView info lod) info.arraySize t.x t.y t.z := by
  obtain ⟨hw, hvh, hvd⟩ := floatView_dims h
  obtain ⟨hw', hvh', hvd'⟩ := view_dims h
  have hy : viewHeight info lod ≠ 0 ∨ 0 ≤ t.y := by
    by_cases ht : info.type = .image1DArray
    · exact .inr (hu.array1D ht).1
    · exact .inl (viewHeight_ne_zero h ht)
  have hz : viewDepth info lod ≠ 0 ∨ info.arraySize ≠ 0 ∨ 0 ≤ t.z := by
    obtain ⟨hbuffer, _, _, _, hd, hsize⟩ := h
    rw [viewDepth]
    cases ht : info.type <;> rw [ht] at hd
    case image1DBuffer => exact absurd ht hbuffer
    case image1DArray => exact .inr (.inr (hu.array1D ht).2.ge)
    case image2DArray => exact .inr (.inl (Nat.ne_of_gt (hsize (.inr ht)).1))
    case image3D => exact .inl (Nat.ne_of_gt (mipDim_pos _ lod))
    all_goals
      by_cases hdepth : info.depth = 0
      · exact .inr (.inr (hu.flat (by simp [ht]) hdepth).ge)
      · exact .inl hdepth
  rw [Outside, OutsideFloat, hw, hvh, hvd, hw', hvh', hvd']
  omega

theorem z_eq_zero (h : Sampled info lod) {t : Texel} (hu : Unbounded info t)
    (hin : ¬ Outside (readImagePixelView info lod) info.arraySize t.x t.y t.z)
    (ht : ¬ (info.type = .image2DArray ∨ info.type = .image3D)) : t.z = 0 := by
  obtain ⟨_, _, hvd⟩ := view_dims h
  obtain ⟨harray, hflat⟩ := hu
  obtain ⟨hbuffer, _, _, _, hd, _⟩ := h
  rw [viewDepth] at hvd
  cases hi : info.type <;> rw [hi] at hd hvd harray hflat
  case image1DBuffer => exact absurd hi hbuffer
  case image1DArray => exact (harray rfl).2
  case image2DArray => exact absurd (.inl hi) ht
  case image3D => exact absurd (.inr hi) ht
  all_goals
    rcases Nat.le_one_iff_eq_zero_or_eq_one.mp hd with h0 | h1
    · exact hflat (by simp) h0
    · rw [Outside, hvd.trans h1, toInt_one] at hin
      omega

/-- **Both readers read the other texels at the same place.** -/
theorem ptr_eq (h : Sampled info lod) {t : Texel} (hu : Unbounded info t)
    (hin : ¬ Outside (readImagePixelView info lod) info.arraySize t.x t.y t.z)
    (hreads : ReadsFloat info.format.channelDataType) :
    (readImagePixelView info lod).ptr info.format t.x t.y t.z
      = (readImagePixelFloatView info lod).ptrFloat info.format t.x t.y t.z := by
  have hraw : info.format.channelDataType ≠ .raw10 ∧ info.format.channelDataType ≠ .raw12 :=
    ⟨fun he => by rw [he] at hreads; exact hreads, fun he => by rw [he] at hreads; exact hreads⟩
  rw [ptr_of_not_raw _ hraw, LevelView.ptrFloat, floatView_rowPitch h]
  by_cases ht : info.type = .image2DArray ∨ info.type = .image3D
  · rw [floatView_slicePitch h ht]
  · rw [z_eq_zero h hu hin ht, zero_mul, zero_mul]

/-- The references agree on a texel. -/
structure Agree (ops : FloatOps F) (info : ImageDescriptor) (x y z xOffset yOffset zOffset : F)
    (sampler : ImageSampler) (lod : ℕ) (t : Texel) : Prop where
  texel : sampleImagePixelFloatOffset ops info x y z xOffset yOffset zOffset sampler lod = some t
  border : Outside (readImagePixelView info lod) info.arraySize t.x t.y t.z ↔
    OutsideFloat (readImagePixelFloatView info lod) info.arraySize t.x t.y t.z
  ptr : ¬ Outside (readImagePixelView info lod) info.arraySize t.x t.y t.z →
    ReadsFloat info.format.channelDataType →
      (readImagePixelView info lod).ptr info.format t.x t.y t.z
        = (readImagePixelFloatView info lod).ptrFloat info.format t.x t.y t.z

/-- **The references agree on the texel that `sample_image_pixel_offset` finds.** -/
theorem samplers_agree (hl : LawfulFloat ops) (h : Sampled info lod) {sampler : ImageSampler}
    (hnearest : sampler.filterMode = .nearest) {x y z xOffset yOffset zOffset : F} {t : Texel}
    (ht : sampleImagePixelOffset ops info x y z xOffset yOffset zOffset sampler lod = some t) :
    Agree ops info x y z xOffset yOffset zOffset sampler lod t := by
  have htexel : sampleImagePixelFloatOffset ops info x y z xOffset yOffset zOffset sampler lod
      = some t := texel_eq hl h hnearest ▸ sampleImagePixelOffset_eq hl h ht
  have hu := texel_unbounded hl h htexel
  exact ⟨htexel, outside_iff h hu, fun hin hreads => ptr_eq h hu hin hreads⟩

end

/-! ### Values without rounding errors -/

/-- The operations on values whose results do not have to be rounded. -/
def exactOps : FloatOps ℚ where
  zero := 0
  half := 1 / 2
  one := 1
  two := 2
  add := (· + ·)
  sub := (· - ·)
  mul := (· * ·)
  floor q := ⌊q⌋
  rint q := if q + 1 / 2 = ⌊q + 1 / 2⌋ ∧ ⌊q + 1 / 2⌋ % 2 = 1 then ⌊q⌋ else ⌊q + 1 / 2⌋
  abs q := if q < 0 then -q else q
  lt p q := p < q
  ne p q := p ≠ q
  ofSize n := n
  toSize q := (truncate q).toNat
  toInt q := if -2 ^ 31 ≤ truncate q ∧ truncate q < 2 ^ 31 then some (truncate q) else none

theorem exactOps_lawful : LawfulFloat exactOps where
  toSize_ofSize n _ := by
    change (truncate (n : ℚ)).toNat = n
    rw [truncate_of_nonneg (Nat.cast_nonneg n), Int.floor_natCast, Int.toNat_natCast]
  ofSize_sub_one n h _ := (Nat.cast_pred h).symm
  not_lt_zero := rfl
  toInt_nonneg f n hn hf := by
    have h0 : 0 ≤ f := not_lt.mp (of_decide_eq_false hf)
    change (if _ then some (truncate f) else none) = some n at hn
    rw [truncate_of_nonneg h0] at hn
    split at hn
    · cases hn
      exact Int.floor_nonneg.mpr h0
    · cases hn

theorem sampled_8_8 :
    Sampled ⟨8, 8, 0, 32, 256, 4, ⟨.rgba, .unsignedInt8⟩, .image2DArray, 3⟩ 1 where
  type := by decide
  mip := by decide
  width := by decide
  height := by decide
  depth := rfl
  arraySize _ := by decide

/-- A texel of it that is found after wrapping around. -/
theorem samplers_agree_8_8 :
    Agree exactOps ⟨8, 8, 0, 32, 256, 4, ⟨.rgba, .unsignedInt8⟩, .image2DArray, 3⟩ (7 / 4) (-1 / 8)
      (5 / 2) 2 (-1) 0 ⟨.repeat, .nearest, true⟩ 1 ⟨1, 2, 2⟩ :=
  samplers_agree exactOps_lawful sampled_8_8 rfl (by decide +kernel)

end OpenCLCTS.Images
