import OpenCLCTS.Images.SampleFloat

/-!
# The check of float reads

Step 1 of `test_read_image` looks for a reference sample that the result of the device matches.  Where
the address may be inaccurate, for normalized coordinates and the nearest filter, it tries offsets of
the address in all directions, and otherwise it should try none.  The loop nest is written out for
depth images, for sRGB images and for the others.

The innermost loop is bounded by `NORM_OFFSET` and not by the offset in use, so that a second sample
is tried: `step1_spec` says when it counts.
-/

namespace OpenCLCTS.Images

open Binary32

/-- `NORM_OFFSET`, which is `0.1f`. -/
def normOffset : Binary32 := .finite (13421773 / 2 ^ 27)

/-- `FLT_EPSILON`. -/
def fltEpsilon : Binary32 := .finite (2 ^ (-23 : ℤ))

/-- The loop nests. -/
inductive FloatBranch
  | depth
  | sRGB
  | float
  deriving DecidableEq

/-- The loop nest for an image. -/
def floatBranch (info : ImageDescriptor) : FloatBranch :=
  if info.type = .image2DArray ∧ info.format.channelOrder = .depth then .depth
  else if isSRGBAOrder info.format.channelOrder then .sRGB
  else .float

/-- `image_type_3D`. -/
def imageType3D (type : ImageType) : Bool := type = .image2DArray || type = .image3D

/-- `num_dimensions`, from `get_image_dimensions`. -/
def numDimensions : ImageType → ℕ
  | .image1D | .image1DBuffer => 1
  | .image1DArray | .image2D => 2
  | .image2DArray | .image3D => 3

/-- `get_max_absolute_error`. -/
def getMaxAbsoluteError (format : ImageFormat) (sampler : ImageSampler) : Binary32 :=
  if sampler.filterMode = .nearest then fzero
  else match format.channelDataType with
    | .snormInt8 => divBy fone 127
    | .unormInt8 => divBy fone 255
    | .unormInt16 => divBy fone 65535
    | .snormInt16 => divBy fone 32767
    | .float => fltMin
    | .unormShort555 | .unormShort565 => divBy fone 31
    | _ => fzero

/-- `get_max_relative_error`. -/
def getMaxRelativeError (format : ImageFormat) (sampler : ImageSampler) (is3D isLinearFilter : Bool) :
    Binary32 :=
  let sampleCount : Binary32 :=
    if isLinearFilter then if is3D then .finite 8 else .finite 4 else fone
  let maxError := match format.channelDataType with
    | .snormInt8 | .unormInt8 | .snormInt16 | .unormInt16 | .unormShort565 | .unormShort555
    | .unormInt101010 | .unormInt101010_2 | .unormInt2_101010 =>
      Binary32.mul (Binary32.mul (.finite 2) fltEpsilon) sampleCount
    | .signedInt32 | .unsignedInt32 => fltEpsilon
    | _ => fzero
  let maxError := if sampler.addressingMode = .repeat ∨ sampler.addressingMode = .mirroredRepeat ∨
    sampler.filterMode ≠ .nearest ∨ sampler.normalizedCoords then .finite (2 ^ (-7 : ℤ)) else maxError
  Binary32.add maxError (Binary32.mul fltEpsilon (.finite 2))

/-- What Step 1 reads: an image, a coordinate and the result of the device. -/
structure FloatRead where
  image : FloatImage
  sampler : ImageSampler
  lod : ℕ
  x : Binary32
  y : Binary32
  z : Binary32
  resultPtr : FloatPixel

namespace FloatRead

variable (r : FloatRead)

def branch : FloatBranch := floatBranch r.image.info

def maxErr : Binary32 :=
  getMaxRelativeError r.image.info.format r.sampler (imageType3D r.image.info.type)
    (r.sampler.filterMode = .linear)

def formatAbsoluteError : Binary32 := getMaxAbsoluteError r.image.info.format r.sampler

/-- The reference sample for an offset. -/
def sample (ox oy oz : Binary32) (flush : Bool) : FloatSample :=
  match r.branch with
  | .depth => sampleFloatOffset r.image r.x r.y r.z ox oy oz r.sampler flush r.lod
  | .sRGB | .float =>
    let more := decide (numDimensions r.image.info.type > 1)
    let type3D := imageType3D r.image.info.type
    sampleFloatOffset r.image r.x (if more then r.y else fzero) (if type3D then r.z else fzero) ox
      (if more then oy else fzero) (if type3D then oz else fzero) r.sampler flush r.lod

/-- The channels that are compared. -/
def channels : List (Fin 4) :=
  match r.branch with
  | .depth => [0]
  | .sRGB | .float => [0, 1, 2, 3]

/-- `ABS_ERROR`; the colors of sRGB images are mapped. -/
def absError (expected : FloatPixel) (i : Fin 4) : Binary32 :=
  if r.branch = .sRGB ∧ i ≠ 3 then
    Double.toFloat (Binary32.abs (Double.sub (r.image.fns.sRGBmap (expected i))
      (r.image.fns.sRGBmap (r.resultPtr i))))
  else Binary32.abs (Binary32.sub (expected i) (r.resultPtr i))

/-- `maxErr1` and so on. -/
def maxErrAt (maxPixel : FloatPixel) (i : Fin 4) : Binary32 :=
  match r.branch with
  | .depth | .float =>
    -- `std::max`
    let a := Binary32.mul r.maxErr (maxPixel i)
    if a.lt fltMin then fltMin else a
  | .sRGB => .finite (1 / 2)

/-- The body of the loops: the result matches the sample for an offset, or the one without
denormals. -/
def found (ox oy oz : Binary32) : Bool :=
  let s := r.sample ox oy oz false
  let err (i : Fin 4) : Binary32 :=
    -- clamped to the minimum absolute error for the format
    let e := r.absError s.outData i
    if fzero.lt e && e.lt r.formatAbsoluteError then fzero else e
  if r.channels.all fun i => (err i).le (r.maxErrAt s.maxPixel i) then true
  else if s.containsDenorms then
    let flushed := r.sample ox oy oz true
    r.channels.all fun i => (r.absError flushed.outData i).le
      (Binary32.add (r.maxErrAt s.maxPixel i) (Binary32.mul (.finite 4) fltMin))
  else false

/-- `offset`. -/
def offset : Binary32 :=
  if ¬ r.sampler.normalizedCoords ∨ r.sampler.filterMode ≠ .nearest then fzero else normOffset

end FloatRead

/-- `for (n = from; n <= bound && !found_pixel; n += NORM_OFFSET)`; without fuel there is no
result. -/
def forOffsets (body : Binary32 → Option Bool) (bound : Binary32) : ℕ → Binary32 → Option Bool
  | 0, _ => none
  | fuel + 1, n =>
    if n.le bound then
      (body n).bind fun found =>
        if found then some true else forOffsets body bound fuel (n.add normOffset)
    else some false

/-- `found_pixel` after Step 1. -/
def step1 (r : FloatRead) (fuel : ℕ) : Option Bool :=
  forOffsets (fun ox => forOffsets (fun oy => forOffsets (fun oz => some (r.found ox oy oz))
    normOffset fuel r.offset.neg) r.offset fuel r.offset.neg) r.offset fuel r.offset.neg

/-! ### The loops -/

/-- The offsets that are allowed. -/
def jitter : List Binary32 := [normOffset.neg, fzero, normOffset]

section

variable {body : Binary32 → Option Bool} {found : Binary32 → Bool} {fuel : ℕ}

theorem neg_add_normOffset : normOffset.neg.add normOffset = fzero := by decide +kernel

theorem zero_add_normOffset : fzero.add normOffset = normOffset := by decide +kernel

theorem normOffset_twice : (normOffset.add normOffset).le normOffset = false := by decide +kernel

theorem normOffset_le_zero : normOffset.le fzero = false := by decide +kernel

theorem neg_fzero : fzero.neg = fzero := by decide +kernel

theorem forOffsets_succ (hbody : ∀ n, body n = some (found n)) {n bound : Binary32}
    (h : n.le bound = true) : forOffsets body bound (fuel + 1) n
      = if found n then some true else forOffsets body bound fuel (n.add normOffset) := by
  rw [forOffsets, if_pos h, hbody]
  rfl

theorem forOffsets_end {n bound : Binary32} (h : n.le bound = false) :
    forOffsets body bound (fuel + 1) n = some false := by
  rw [forOffsets, h, if_neg Bool.false_ne_true]

/-- **The loop without an offset** has one turn, **and with the wrong bound** it has two. -/
theorem forOffsets_zero (found : Binary32 → Bool) (hbody : ∀ n, body n = some (found n)) (hfuel : 4 ≤ fuel) :
    forOffsets body fzero fuel fzero.neg = some (found fzero) := by
  obtain ⟨k, rfl⟩ := Nat.exists_eq_add_of_le' hfuel
  rw [neg_fzero, forOffsets_succ hbody (by decide +kernel), zero_add_normOffset,
    forOffsets_end normOffset_le_zero]
  cases found fzero <;> rfl

theorem forOffsets_zero_normOffset (hbody : ∀ n, body n = some (found n)) (hfuel : 4 ≤ fuel) :
    forOffsets body normOffset fuel fzero.neg = some (found fzero || found normOffset) := by
  obtain ⟨k, rfl⟩ := Nat.exists_eq_add_of_le' hfuel
  rw [neg_fzero, forOffsets_succ hbody (by decide +kernel), zero_add_normOffset,
    forOffsets_succ hbody (by decide +kernel), forOffsets_end normOffset_twice]
  cases found fzero <;> cases found normOffset <;> rfl

theorem forOffsets_normOffset (hbody : ∀ n, body n = some (found n)) (hfuel : 4 ≤ fuel) :
    forOffsets body normOffset fuel normOffset.neg = some (jitter.any found) := by
  obtain ⟨k, rfl⟩ := Nat.exists_eq_add_of_le' hfuel
  rw [forOffsets_succ hbody (by decide +kernel), neg_add_normOffset,
    forOffsets_succ hbody (by decide +kernel), zero_add_normOffset,
    forOffsets_succ hbody (by decide +kernel), forOffsets_end normOffset_twice, jitter]
  simp only [List.any_cons, List.any_nil]
  cases found normOffset.neg <;> cases found fzero <;> cases found normOffset <;> rfl

end

/-! ### The samples -/

section

variable {r : FloatRead} {fuel : ℕ}

theorem found_normOffset (h : ¬ (r.image.info.type = .image3D ∧ r.sampler.normalizedCoords = true)) :
    r.found fzero fzero normOffset = r.found fzero fzero fzero := by
  have hsample (flush : Bool) :
      r.sample fzero fzero normOffset flush = r.sample fzero fzero fzero flush := by
    by_cases hnormalized : r.sampler.normalizedCoords = true
    · have htype : r.image.info.type ≠ .image3D := fun ht => h ⟨ht, hnormalized⟩
      by_cases harray : r.image.info.type = .image2DArray
      · simp only [FloatRead.sample, harray, imageType3D, decide_true, Bool.true_or, if_true]
        split <;> exact sampleFloatOffset_of_array harray _ _ _ _
      · have hbranch : r.branch ≠ .depth := by
          rw [FloatRead.branch, floatBranch, if_neg fun hd => harray hd.1]
          split <;> decide
        have h3D : imageType3D r.image.info.type = false := by
          simp only [imageType3D, harray, htype, decide_false, Bool.or_self]
        rw [FloatRead.sample, FloatRead.sample, h3D]
        split
        · exact absurd ‹_› hbranch
        · rfl
        · rfl
    · rw [Bool.not_eq_true] at hnormalized
      simp only [FloatRead.sample]
      split <;> exact sampleFloatOffset_of_not_normalized hnormalized _ _ _ _ _ _
  rw [FloatRead.found, hsample false, hsample true]
  rfl

theorem step1_of_offset_zero (h : r.offset = fzero) (hfuel : 4 ≤ fuel) :
    step1 r fuel = some (r.found fzero fzero fzero || r.found fzero fzero normOffset) := by
  rw [step1, h]
  refine forOffsets_zero (fun ox => r.found ox fzero fzero || r.found ox fzero normOffset)
    (fun ox => ?_) hfuel
  refine forOffsets_zero (fun oy => r.found ox oy fzero || r.found ox oy normOffset)
    (fun oy => ?_) hfuel
  exact forOffsets_zero_normOffset (fun _ => rfl) hfuel

theorem step1_of_offset (h : r.offset = normOffset) (hfuel : 4 ≤ fuel) : step1 r fuel
    = some (jitter.any fun ox => jitter.any fun oy => jitter.any fun oz => r.found ox oy oz) := by
  rw [step1, h]
  refine forOffsets_normOffset (fun ox => ?_) hfuel
  refine forOffsets_normOffset (fun oy => ?_) hfuel
  exact forOffsets_normOffset (fun _ => rfl) hfuel

end

/-- **Step 1 looks at the samples that it should** unless the result matches only the sample at the
offset of `0.1f` in `z` of a `3D` image, with normalized coordinates and the linear filter. -/
theorem step1_spec (r : FloatRead) (fuel : ℕ) (hfuel : 4 ≤ fuel) : ∃ found, step1 r fuel = some found ∧
    (r.sampler.normalizedCoords = true ∧ r.sampler.filterMode = .nearest →
      (found = true ↔ ∃ ox ∈ jitter, ∃ oy ∈ jitter, ∃ oz ∈ jitter, r.found ox oy oz = true)) ∧
    (¬ (r.sampler.normalizedCoords = true ∧ r.sampler.filterMode = .nearest) →
      ((found = true ↔ r.found fzero fzero fzero = true) ↔
        ¬ (r.image.info.type = .image3D ∧ r.sampler.normalizedCoords = true ∧
          r.found fzero fzero fzero = false ∧ r.found fzero fzero normOffset = true))) := by
  by_cases hjitter : r.sampler.normalizedCoords = true ∧ r.sampler.filterMode = .nearest
  · have hoffset : r.offset = normOffset := by
      rw [FloatRead.offset, if_neg]
      rintro (h | h)
      · exact h hjitter.1
      · exact h hjitter.2
    refine ⟨_, step1_of_offset hoffset hfuel, fun _ => ?_, fun h => absurd hjitter h⟩
    simp only [List.any_eq_true]
  · have hoffset : r.offset = fzero := by
      rw [FloatRead.offset, if_pos]
      by_contra hne
      rw [not_or, not_not, not_not] at hne
      exact hjitter hne
    refine ⟨_, step1_of_offset_zero hoffset hfuel, fun h => absurd h hjitter, ?_⟩
    intro _
    by_cases h : r.image.info.type = .image3D ∧ r.sampler.normalizedCoords = true
    · rw [and_iff_right h.1, and_iff_right h.2]
      cases r.found fzero fzero fzero <;> cases r.found fzero fzero normOffset <;> decide
    · rw [found_normOffset h, Bool.or_self]
      refine iff_of_true Iff.rfl ?_
      rintro ⟨htype, hnormalized, -⟩
      exact h ⟨htype, hnormalized⟩

/-- A `3D` image with a black texel and a white one behind it, and a coordinate in the middle of the
first one. -/
def twoTexels (filterMode : FilterMode) (result : Binary32) : FloatRead where
  image :=
    { fns := ⟨fun _ => 0, id, id⟩
      -- the bytes of `1.0f`
      mem := fun a => if a < 16 then 0 else if a % 4 = 3 then 0x3f else if a % 4 = 2 then 0x80 else 0
      imageData := 0
      info := ⟨1, 1, 2, 16, 16, 0, ⟨.rgba, .float⟩, .image3D, 0⟩
      tempData := fun _ => fzero }
  sampler := ⟨.clampToEdge, filterMode, true⟩
  lod := 0
  x := .finite (1 / 2)
  y := .finite (1 / 2)
  z := .finite (1 / 4)
  resultPtr := fun _ => result

/-- The nearest filter, in the black texel. -/
theorem step1_white : ∃ found, step1 (twoTexels .nearest fone) 4 = some found ∧ (found = true ↔
    ∃ ox ∈ jitter, ∃ oy ∈ jitter, ∃ oz ∈ jitter, (twoTexels .nearest fone).found ox oy oz = true) := by
  obtain ⟨found, hfound, hjitter, -⟩ := step1_spec (twoTexels .nearest fone) 4 le_rfl
  exact ⟨found, hfound, hjitter ⟨rfl, rfl⟩⟩

/-- What is sampled behind the middle of the black texel is accepted, though it is not black. -/
theorem step1_accepts_shifted : ¬ ∀ (r : FloatRead) (fuel : ℕ), 4 ≤ fuel →
    ¬ (r.sampler.normalizedCoords = true ∧ r.sampler.filterMode = .nearest) →
    ∃ found, step1 r fuel = some found ∧ (found = true ↔ r.found fzero fzero fzero = true) := by
  intro h
  obtain ⟨found, hfound, hiff⟩ := h (twoTexels .linear (.finite (13421776 / 2 ^ 27))) 4 le_rfl
    (by decide)
  have hstep : step1 (twoTexels .linear (.finite (13421776 / 2 ^ 27))) 4 = some true := by
    decide +kernel
  have hzero : (twoTexels .linear (.finite (13421776 / 2 ^ 27))).found fzero fzero fzero = false := by
    decide +kernel
  rw [hstep, Option.some.injEq] at hfound
  rw [hzero, ← hfound] at hiff
  exact Bool.false_ne_true (hiff.mp rfl)

end OpenCLCTS.Images
