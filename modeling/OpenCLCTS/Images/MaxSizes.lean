import OpenCLCTS.Images.Formats
import OpenCLCTS.Lib.Loops
import Mathlib.Algebra.Order.Ring.Nat
import Mathlib.Data.Fin.VecNotation
import Mathlib.Data.Fintype.Basic
import Mathlib.Tactic.FinCases

/-!
# Maximal sizes

`get_max_sizes`: for every dimension an image that is as large as the device allows in it, and
small in the others, so that it does not have more than `max_pixels` pixels.

`getMaxSizes_iff`: when the sizes are legal.
-/

namespace OpenCLCTS.Images

/-- `maxAllocSize`: a quarter of the limit of an allocation, or half of what may be allocated
altogether. -/
def maxAllocSize (maxIndividualAllocSize maxTotalAllocSize : ℕ) : ℕ :=
  let adjustedMaxTotalAllocSize := min (maxTotalAllocSize / 4) (1024 * 1024 * 1024)
  let adjustedMaxIndividualAllocSize := maxIndividualAllocSize / 4
  if adjustedMaxTotalAllocSize < adjustedMaxIndividualAllocSize * 2 then
    adjustedMaxTotalAllocSize / 2
  else adjustedMaxIndividualAllocSize

/-- `raw_pixel_size`; pixels of three channels are as large as those of four. -/
def rawPixelSize (format : ImageFormat) (usingMaxPixelSizeBuffer : Bool) : ℕ :=
  if usingMaxPixelSizeBuffer || getPixelSize format == 12 then 16 else getPixelSize format

/-- `max_pixels`. -/
def maxPixels (maxIndividualAllocSize maxTotalAllocSize : ℕ) (format : ImageFormat)
    (usingMaxPixelSizeBuffer : Bool) : ℕ :=
  maxAllocSize maxIndividualAllocSize maxTotalAllocSize / rawPixelSize format usingMaxPixelSizeBuffer

/-- A division of integers; by 0 there is none. -/
def divide (a b : ℕ) : Option ℕ := if b = 0 then none else some (a / b)

/-- `maximum_sizes`. -/
def maximumSizes (imageType : ImageType) (maxWidth maxHeight maxDepth maxArraySize : ℕ) :
    Fin 3 → ℕ :=
  match imageType with
  | .image1DArray => ![maxWidth, maxArraySize, 1]
  | .image2DArray => ![maxWidth, maxHeight, maxArraySize]
  | _ => ![maxWidth, maxHeight, maxDepth]

/-- `other_sizes`, where pointers have 64 bits. -/
def otherSizes : List ℕ := [2, 3, 5, 6, 7, 9, 10, 11, 13, 15]

/-- `other_sizes[(other_size++) % num_other_sizes]`. -/
def otherSizeAt (otherSize : ℕ) : ℕ := otherSizes[otherSize % otherSizes.length]?.getD 0

/-- The counter, of 64 bits, after `n` steps. -/
def counterAfter (otherSize n : ℕ) : ℕ := (otherSize + n) % 2 ^ 64

/-- `x0_dim`. -/
def x0Dim (fixedDim : Fin 3) : Fin 3 := if fixedDim = 0 then 1 else 0

/-- `x1_dim`. -/
def x1Dim (fixedDim : Fin 3) : Fin 3 := if fixedDim = 2 then 1 else 2

/-- The three assignments of a turn. -/
def storeSize (fixedDim : Fin 3) (m x0 x1 : ℕ) : Fin 3 → ℕ :=
  fun d => if d = fixedDim then m else if d = x0Dim fixedDim then x0 else x1

section

variable (maximumSizes : Fin 3 → ℕ) (maxPixels : ℕ)

/-- The size of images with one dimension.  The quotients have at most 30 bits, so that `fmin` is
exact. -/
def lineSize : Option (Fin 3 → ℕ) :=
  (divide maxPixels (maximumSizes 0)).map fun quotient =>
    ![max 1 (min quotient (maximumSizes 0)), 1, 1]

/-- A turn of the loop for images with two dimensions. -/
def planeSize (fixedDim : Fin 3) (otherSize : ℕ) : Option ((Fin 3 → ℕ) × ℕ) :=
  let m := maximumSizes fixedDim
  (divide maxPixels m).map fun quotient =>
    let x0 := min (min (otherSizeAt otherSize) quotient) (maximumSizes (x0Dim fixedDim))
    (storeSize fixedDim m x0 1, counterAfter otherSize 1)

/-- A turn of the loop for images with three dimensions. -/
def volumeSize (fixedDim : Fin 3) (otherSize : ℕ) : Option ((Fin 3 → ℕ) × ℕ) :=
  let m := maximumSizes fixedDim
  (divide maxPixels m).bind fun quotient =>
    let x0 := min (min quotient (maximumSizes (x0Dim fixedDim))) (otherSizeAt otherSize)
    let x0 := if x0Dim fixedDim = 0 ∧ x0 < 16 then 16 else x0
    (divide quotient x0).map fun quotient =>
      let x1 := min (min quotient (maximumSizes (x1Dim fixedDim)))
        (otherSizeAt (counterAfter otherSize 1))
      let x1 := if x1 < 1 then 1 else x1
      (storeSize fixedDim m x0 x1, counterAfter otherSize 2)

end

/-- `get_max_sizes`, with the `static` counter; there is no result if a division is by 0. -/
def getMaxSizes (maxWidth maxHeight maxDepth maxArraySize maxIndividualAllocSize maxTotalAllocSize : ℕ)
    (imageType : ImageType) (format : ImageFormat) (usingMaxPixelSizeBuffer : Bool)
    (otherSize : ℕ) : Option (List (Fin 3 → ℕ) × ℕ) :=
  let sizes := maximumSizes imageType maxWidth maxHeight maxDepth maxArraySize
  if imageType = .image3D ∧ maxDepth < 2 then some ([], otherSize)
  else if (imageType = .image1DArray ∨ imageType = .image2DArray) ∧ maxArraySize < 2 then
    some ([], otherSize)
  else
    (divide (maxAllocSize maxIndividualAllocSize maxTotalAllocSize)
        (rawPixelSize format usingMaxPixelSizeBuffer)).bind fun pixels =>
      match imageType with
      | .image1D | .image1DBuffer => (lineSize sizes pixels).map fun size => ([size], otherSize)
      | .image1DArray | .image2D => Loops.collect (planeSize sizes pixels) [0, 1] otherSize
      | .image2DArray | .image3D => Loops.collect (volumeSize sizes pixels) [0, 1, 2] otherSize

/-! ### Legal sizes -/

/-- A size that the device allows and that has not too many pixels. -/
structure Legal (maxima : Fin 3 → ℕ) (pixels : ℕ) (size : Fin 3 → ℕ) : Prop where
  pos : ∀ d, 1 ≤ size d
  le : ∀ d, size d ≤ maxima d
  volume : size 0 * size 1 * size 2 ≤ pixels

theorem otherSizeAt_mem (otherSize : ℕ) :
    2 ≤ otherSizeAt otherSize ∧ otherSizeAt otherSize ≤ 15 := by
  have hall : ∀ i < 10, 2 ≤ otherSizes[i]?.getD 0 ∧ otherSizes[i]?.getD 0 ≤ 15 := by decide
  exact hall _ (Nat.mod_lt _ (by decide))

theorem divide_of_pos {a b : ℕ} (h : 0 < b) : divide a b = some (a / b) := if_neg h.ne'

variable {maxima : Fin 3 → ℕ} {pixels : ℕ}

theorem legal_storeSize (fixedDim : Fin 3) (m x0 x1 : ℕ) :
    Legal maxima pixels (storeSize fixedDim m x0 x1) ↔
      (1 ≤ m ∧ m ≤ maxima fixedDim) ∧ (1 ≤ x0 ∧ x0 ≤ maxima (x0Dim fixedDim)) ∧
        (1 ≤ x1 ∧ x1 ≤ maxima (x1Dim fixedDim)) ∧ m * x0 * x1 ≤ pixels := by
  have hsizes : storeSize fixedDim m x0 x1 fixedDim = m ∧
      storeSize fixedDim m x0 x1 (x0Dim fixedDim) = x0 ∧
      storeSize fixedDim m x0 x1 (x1Dim fixedDim) = x1 := by
    fin_cases fixedDim <;> exact ⟨rfl, rfl, rfl⟩
  obtain ⟨hm, hx0, hx1⟩ := hsizes
  have hvolume : storeSize fixedDim m x0 x1 0 * storeSize fixedDim m x0 x1 1
      * storeSize fixedDim m x0 x1 2 = m * x0 * x1 := by
    fin_cases fixedDim
    · rfl
    · exact congrArg (· * x1) (Nat.mul_comm x0 m)
    · exact (Nat.mul_comm _ _).trans (Nat.mul_assoc m x0 x1).symm
  have hdims : ∀ d, d = fixedDim ∨ d = x0Dim fixedDim ∨ d = x1Dim fixedDim := by
    fin_cases fixedDim <;> decide
  constructor
  · intro h
    refine ⟨⟨hm ▸ h.pos fixedDim, hm ▸ h.le fixedDim⟩, ⟨hx0 ▸ h.pos _, ?_⟩, ⟨hx1 ▸ h.pos _, ?_⟩, ?_⟩
    · have := h.le (x0Dim fixedDim)
      rwa [hx0] at this
    · have := h.le (x1Dim fixedDim)
      rwa [hx1] at this
    · rw [← hvolume]
      exact h.volume
  · rintro ⟨⟨hmpos, hmle⟩, ⟨hx0pos, hx0le⟩, ⟨hx1pos, hx1le⟩, hle⟩
    refine ⟨fun d => ?_, fun d => ?_, hvolume ▸ hle⟩
    · rcases hdims d with rfl | rfl | rfl
      · rwa [hm]
      · rwa [hx0]
      · rwa [hx1]
    · rcases hdims d with rfl | rfl | rfl
      · rwa [hm]
      · rwa [hx0]
      · rwa [hx1]

/-- **Images with one dimension.** -/
theorem lineSize_iff (hmax : ∀ d, 1 ≤ maxima d) :
    (∃ size, lineSize maxima pixels = some size ∧ Legal maxima pixels size) ↔
      1 ≤ pixels := by
  have hstore : ∀ m, (![m, 1, 1] : Fin 3 → ℕ) = storeSize 0 m 1 1 := by
    intro m
    funext d
    fin_cases d <;> rfl
  have hle : pixels / maxima 0 ≤ pixels := Nat.div_le_self _ _
  have h0 := hmax 0
  rw [lineSize, divide_of_pos (hmax 0), Option.map_some, hstore]
  simp only [Option.some.injEq, exists_eq_left', legal_storeSize, Nat.mul_one, le_refl, true_and,
    hmax, and_true]
  omega

/-- **A turn for two dimensions** stores a legal size if the fixed one alone has not too many
pixels; else the other one is 0. -/
theorem planeSize_iff (hmax : ∀ d, 1 ≤ maxima d) (fixedDim : Fin 3) (otherSize : ℕ) :
    (∃ r, planeSize maxima pixels fixedDim otherSize = some r ∧
        Legal maxima pixels r.1) ↔ maxima fixedDim ≤ pixels := by
  obtain ⟨hother, _⟩ := otherSizeAt_mem otherSize
  have hx0 := hmax (x0Dim fixedDim)
  have hdiv : 1 ≤ pixels / maxima fixedDim ↔ maxima fixedDim ≤ pixels := by
    rw [Nat.le_div_iff_mul_le (hmax fixedDim), Nat.one_mul]
  rw [planeSize, divide_of_pos (hmax fixedDim), Option.map_some]
  simp only [Option.some.injEq, exists_eq_left', legal_storeSize, Nat.mul_one, le_refl, true_and,
    hmax, ← hdiv]
  constructor
  · rintro ⟨⟨hpos, _⟩, _⟩
    omega
  · intro h
    refine ⟨by omega, ?_⟩
    exact (Nat.mul_le_mul_left _ (by omega)).trans (Nat.mul_div_le pixels (maxima fixedDim))

/-- What is left for the last dimension, but at least 1, makes not too many pixels if the other two
do not. -/
theorem volume_le_iff {m x0 a b : ℕ} (hm : 1 ≤ m) (hx0 : 1 ≤ x0) :
    m * x0 * max 1 (min (min (pixels / m / x0) a) b) ≤ pixels ↔ m * x0 ≤ pixels := by
  have hpos : 0 < m * x0 := Nat.mul_pos hm hx0
  rw [Nat.div_div_eq_div_mul]
  constructor
  · exact (Nat.le_mul_of_pos_right _ (by omega)).trans
  · intro h
    have hdiv : 1 ≤ pixels / (m * x0) := by rwa [Nat.le_div_iff_mul_le hpos, Nat.one_mul]
    exact (Nat.mul_le_mul_left _ (by omega)).trans (Nat.mul_div_le pixels (m * x0))

/-- A turn whose first other size is `x0` stores a legal size if that is one, and leaves not too
many pixels. -/
theorem legal_last (hmax : ∀ d, 1 ≤ maxima d) (fixedDim : Fin 3) {x0 : ℕ} (hx0 : 1 ≤ x0)
    (otherSize : ℕ) :
    Legal maxima pixels (storeSize fixedDim (maxima fixedDim) x0
        (if min (min (pixels / maxima fixedDim / x0) (maxima (x1Dim fixedDim)))
            (otherSizeAt otherSize) < 1 then 1
          else min (min (pixels / maxima fixedDim / x0) (maxima (x1Dim fixedDim)))
            (otherSizeAt otherSize))) ↔
      x0 ≤ maxima (x0Dim fixedDim) ∧ maxima fixedDim * x0 ≤ pixels := by
  have hclamp : ∀ n, (if n < 1 then 1 else n) = max 1 n := by
    intro n
    split <;> omega
  have hx1 := hmax (x1Dim fixedDim)
  rw [legal_storeSize, hclamp, volume_le_iff (hmax fixedDim) hx0]
  simp only [hmax, le_refl, and_self, hx0, true_and]
  have hle : max 1 (min (min (pixels / maxima fixedDim / x0)
      (maxima (x1Dim fixedDim))) (otherSizeAt otherSize)) ≤ maxima (x1Dim fixedDim) := by
    omega
  simp only [le_max_left, hle, true_and]

/-- **The turn for the greatest width.** -/
theorem volumeSize_width_iff (hmax : ∀ d, 1 ≤ maxima d) (otherSize : ℕ) :
    (∃ r, volumeSize maxima pixels 0 otherSize = some r ∧
        Legal maxima pixels r.1) ↔ maxima 0 ≤ pixels := by
  obtain ⟨x0, hx0⟩ : ∃ x0, x0 = min (min (pixels / maxima 0) (maxima (x0Dim 0)))
    (otherSizeAt otherSize) := ⟨_, rfl⟩
  obtain ⟨hother, _⟩ := otherSizeAt_mem otherSize
  have h0 := hmax (x0Dim 0)
  have hdiv : 1 ≤ pixels / maxima 0 ↔ maxima 0 ≤ pixels := by
    rw [Nat.le_div_iff_mul_le (hmax 0), Nat.one_mul]
  have hdim : ¬ x0Dim 0 = 0 := by decide
  rw [volumeSize, divide_of_pos (hmax 0), Option.bind_some]
  simp only [hdim, false_and, if_false, ← hx0]
  by_cases h : maxima 0 ≤ pixels
  · have hpos : 1 ≤ x0 := by omega
    rw [divide_of_pos hpos, Option.map_some]
    simp only [Option.some.injEq, exists_eq_left', legal_last hmax 0 hpos, h, iff_true]
    refine ⟨by omega, ?_⟩
    exact (Nat.mul_le_mul_left _ (by omega)).trans (Nat.mul_div_le pixels (maxima 0))
  · have hzero : x0 = 0 := by omega
    rw [divide, if_pos hzero, Option.map_none]
    simp only [h, reduceCtorEq, false_and, exists_false]

/-- **The turns for the other dimensions**: their width is 16. -/
theorem volumeSize_other_iff (hmax : ∀ d, 1 ≤ maxima d) {fixedDim : Fin 3}
    (hdim : fixedDim ≠ 0) (otherSize : ℕ) :
    (∃ r, volumeSize maxima pixels fixedDim otherSize = some r ∧
        Legal maxima pixels r.1) ↔
      16 ≤ maxima 0 ∧ maxima fixedDim * 16 ≤ pixels := by
  obtain ⟨_, hother⟩ := otherSizeAt_mem otherSize
  have hx0 : x0Dim fixedDim = 0 := if_neg hdim
  have hwidth : min (min (pixels / maxima fixedDim) (maxima 0))
      (otherSizeAt otherSize) < 16 := by
    omega
  rw [volumeSize, divide_of_pos (hmax fixedDim), Option.bind_some]
  simp only [hx0, hwidth, and_self, if_true]
  rw [divide_of_pos (by decide), Option.map_some]
  simp only [Option.some.injEq, exists_eq_left', legal_last hmax fixedDim (show 1 ≤ 16 by decide), hx0]

/-- **A turn for three dimensions**, by the one that is fixed. -/
theorem volumeSize_iff (hmax : ∀ d, 1 ≤ maxima d) (fixedDim : Fin 3) (otherSize : ℕ) :
    (∃ r, volumeSize maxima pixels fixedDim otherSize = some r ∧ Legal maxima pixels r.1) ↔
      if fixedDim = 0 then maxima 0 ≤ pixels else 16 ≤ maxima 0 ∧ maxima fixedDim * 16 ≤ pixels := by
  split
  · rename_i h
    rw [h]
    exact volumeSize_width_iff hmax otherSize
  · rename_i h
    exact volumeSize_other_iff hmax h otherSize

/-! ### The result -/

/-- What the limits must allow: an image that has the greatest size in one dimension, and in
another one at least 1, or the least width that is tested. -/
def LimitsFit (imageType : ImageType) (maxima : Fin 3 → ℕ) (pixels : ℕ) : Prop :=
  match imageType with
  | .image1D | .image1DBuffer => 1 ≤ pixels
  | .image1DArray | .image2D => maxima 0 ≤ pixels ∧ maxima 1 ≤ pixels
  | .image2DArray | .image3D => maxima 0 ≤ pixels ∧ 16 ≤ maxima 0 ∧
      maxima 1 * 16 ≤ pixels ∧ maxima 2 * 16 ≤ pixels

theorem not_limitsFit_zero (imageType : ImageType) (hmax : ∀ d, 1 ≤ maxima d) :
    ¬ LimitsFit imageType maxima 0 := by
  have h0 := hmax 0
  cases imageType <;> rw [LimitsFit] <;> omega

theorem maximumSizes_pos {maxWidth maxHeight maxDepth maxArraySize : ℕ} (hwidth : 2 ≤ maxWidth)
    (hheight : 2 ≤ maxHeight) (hdepth : 2 ≤ maxDepth) (harray : 2 ≤ maxArraySize)
    (imageType : ImageType) (d : Fin 3) :
    1 ≤ maximumSizes imageType maxWidth maxHeight maxDepth maxArraySize d := by
  have hvector : ∀ a b c : ℕ, 1 ≤ a → 1 ≤ b → 1 ≤ c → 1 ≤ (![a, b, c] : Fin 3 → ℕ) d := by
    intro a b c ha hb hc
    fin_cases d
    · exact ha
    · exact hb
    · exact hc
  cases imageType <;> exact hvector _ _ _ (by omega) (by omega) (by omega)

/-- **When the sizes are legal.**  For all limits of at least 2, all limits of memory and every
value of the counter, the function has a result, all of whose sizes are legal, if the images with
the greatest sizes fit. -/
theorem getMaxSizes_iff (maxWidth maxHeight maxDepth maxArraySize maxIndividualAllocSize
    maxTotalAllocSize : ℕ) (imageType : ImageType) (format : ImageFormat)
    (usingMaxPixelSizeBuffer : Bool) (otherSize : ℕ) (hwidth : 2 ≤ maxWidth)
    (hheight : 2 ≤ maxHeight) (hdepth : 2 ≤ maxDepth) (harray : 2 ≤ maxArraySize) :
    (∃ r, getMaxSizes maxWidth maxHeight maxDepth maxArraySize maxIndividualAllocSize
          maxTotalAllocSize imageType format usingMaxPixelSizeBuffer otherSize = some r ∧
        ∀ size ∈ r.1, Legal (maximumSizes imageType maxWidth maxHeight maxDepth maxArraySize)
          (maxPixels maxIndividualAllocSize maxTotalAllocSize format usingMaxPixelSizeBuffer) size) ↔
      LimitsFit imageType (maximumSizes imageType maxWidth maxHeight maxDepth maxArraySize)
        (maxPixels maxIndividualAllocSize maxTotalAllocSize format usingMaxPixelSizeBuffer) := by
  obtain ⟨sizes, hsizes⟩ : ∃ sizes,
    sizes = maximumSizes imageType maxWidth maxHeight maxDepth maxArraySize := ⟨_, rfl⟩
  obtain ⟨pixels, hpixels⟩ : ∃ pixels, pixels = maxPixels maxIndividualAllocSize maxTotalAllocSize
    format usingMaxPixelSizeBuffer := ⟨_, rfl⟩
  have hmax : ∀ d, 1 ≤ sizes d := by
    intro d
    rw [hsizes]
    exact maximumSizes_pos hwidth hheight hdepth harray imageType d
  rw [getMaxSizes, if_neg fun h => absurd h.2 (not_lt.mpr hdepth),
    if_neg fun h => absurd h.2 (not_lt.mpr harray), ← hsizes, ← hpixels]
  by_cases hpixel : rawPixelSize format usingMaxPixelSizeBuffer = 0
  · have hzero : pixels = 0 := by rw [hpixels, maxPixels, hpixel, Nat.div_zero]
    rw [divide, if_pos hpixel, hzero]
    simp [not_limitsFit_zero imageType hmax]
  · rw [divide_of_pos (Nat.pos_of_ne_zero hpixel), Option.bind_some]
    rw [maxPixels] at hpixels
    rw [← hpixels]
    have hline : (∃ r, (lineSize sizes pixels).map (fun size => ([size], otherSize)) = some r ∧
        ∀ size ∈ r.1, Legal sizes pixels size) ↔ 1 ≤ pixels := by
      rw [← lineSize_iff hmax]
      simp only [Option.map_eq_some_iff]
      constructor
      · rintro ⟨_, ⟨size, hsize, rfl⟩, hlegal⟩
        exact ⟨size, hsize, hlegal size (List.mem_singleton_self size)⟩
      · rintro ⟨size, hsize, hlegal⟩
        refine ⟨_, ⟨size, hsize, rfl⟩, ?_⟩
        intro s hs
        rwa [List.mem_singleton.mp hs]
    have hplane := Loops.collect_iff (planeSize_iff hmax : ∀ d o, (∃ r, planeSize sizes pixels d o
      = some r ∧ Legal sizes pixels r.1) ↔ _) [0, 1] otherSize
    have hvolume := Loops.collect_iff (volumeSize_iff hmax : ∀ d o, (∃ r, volumeSize sizes pixels d o
      = some r ∧ Legal sizes pixels r.1) ↔ _) [0, 1, 2] otherSize
    simp only [List.forall_mem_cons, List.not_mem_nil, false_implies, implies_true, and_true]
      at hplane hvolume
    have hfits : (if (0 : Fin 3) = 0 then sizes 0 ≤ pixels else 16 ≤ sizes 0 ∧ sizes 0 * 16 ≤ pixels) ∧
        (if (1 : Fin 3) = 0 then sizes 0 ≤ pixels else 16 ≤ sizes 0 ∧ sizes 1 * 16 ≤ pixels) ∧
        (if (2 : Fin 3) = 0 then sizes 0 ≤ pixels else 16 ≤ sizes 0 ∧ sizes 2 * 16 ≤ pixels) ↔
          sizes 0 ≤ pixels ∧ 16 ≤ sizes 0 ∧ sizes 1 * 16 ≤ pixels ∧ sizes 2 * 16 ≤ pixels := by
      rw [if_pos rfl, if_neg (by decide), if_neg (by decide)]
      tauto
    cases imageType with
    | image1D => exact hline
    | image1DBuffer => exact hline
    | image1DArray => exact hplane
    | image2D => exact hplane
    | image2DArray => exact hvolume.trans hfits
    | image3D => exact hvolume.trans hfits

/-- A device with 4 MiB for an allocation and images of at most 2048. -/
theorem getMaxSizes_iff_image2D : ∃ r, getMaxSizes 2048 2048 2048 256 (4 * 1024 * 1024)
    (256 * 1024 * 1024) .image2D ⟨.rgba, .float⟩ false 0 = some r ∧ ∀ size ∈ r.1,
      Legal (maximumSizes .image2D 2048 2048 2048 256)
        (maxPixels (4 * 1024 * 1024) (256 * 1024 * 1024) ⟨.rgba, .float⟩ false) size :=
  (getMaxSizes_iff 2048 2048 2048 256 (4 * 1024 * 1024) (256 * 1024 * 1024) .image2D ⟨.rgba, .float⟩
    false 0 (by decide) (by decide) (by decide) (by decide)).mpr (by rw [LimitsFit]; decide)

/-- With 1 MiB for an allocation the pixels are 16384.  An array of images gets a size of
`16 * 2048`, and images that may be wider than that get a height of 0, or no size. -/
theorem not_legal : maxPixels (1024 * 1024) (256 * 1024 * 1024) ⟨.rgba, .float⟩ false = 16384 ∧
    (getMaxSizes 2048 2048 2048 256 (1024 * 1024) (256 * 1024 * 1024) .image2DArray
      ⟨.rgba, .float⟩ false 0).map (fun r => r.1.map fun size => (size 0, size 1, size 2))
        = some [(2048, 2, 3), (16, 2048, 1), (16, 4, 256)] ∧
    16384 < 16 * 2048 * 1 ∧
    (getMaxSizes 32768 32768 2048 256 (1024 * 1024) (256 * 1024 * 1024) .image2D
      ⟨.rgba, .float⟩ false 0).map (fun r => r.1.map fun size => (size 0, size 1, size 2))
        = some [(32768, 0, 1), (0, 32768, 1)] ∧
    getMaxSizes 32768 32768 2048 256 (1024 * 1024) (256 * 1024 * 1024) .image3D
      ⟨.rgba, .float⟩ false 0 = none := by
  decide

end OpenCLCTS.Images
