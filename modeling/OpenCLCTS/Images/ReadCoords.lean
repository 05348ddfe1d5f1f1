import Mathlib.Data.Rat.Floor
import Mathlib.Tactic.FieldSimp
import Mathlib.Tactic.Linarith
import OpenCLCTS.Images.Addressing
import OpenCLCTS.Harness.RandomInRange

/-!
# The coordinates of image reads

Every work-item of `test_read_image` reads at the coordinate with its own index.
`InitFloatCoordsCommon` fills the coordinates in one loop nest, with the dimensions of the image, and
scales them in another one, with those of the level; `InitFloatCoords`, for `2D` images, uses the
dimensions of the level in both.

The same index is another texel where the dimensions differ: `initFloatCoords_iff` says in which
levels each work-item still reads its own texel.  The operations on `float` and `double` are exact
here.
-/

namespace OpenCLCTS.Images

open Layout Loops

/-! ### `InitFloatCoordsCommon` -/

/-- `xOffsets`, `yOffsets` and `zOffsets` at one index. -/
@[ext]
structure Coord where
  x : ℚ
  y : ℚ
  z : ℚ

/-- The body of a loop nest is run for `x`, `y` and `z`, and `i` is counted on. -/
def texelStep (body : ℕ → ℕ → ℕ → ℕ → Coord → Coord) (x y z : ℕ) (s : ℕ × (ℕ → Coord)) :
    ℕ × (ℕ → Coord) :=
  (s.1 + 1, Function.update s.2 s.1 (body s.1 x y z (s.2 s.1)))

/-- The loops over `z`, `y` and `x`, with `i` from 0 on. -/
def forTexels (loop : Dims) (body : ℕ → ℕ → ℕ → ℕ → Coord → Coord) (offsets : ℕ → Coord) :
    ℕ → Coord :=
  ((List.range' 0 loop.depth).foldl (fun s z =>
    (List.range' 0 loop.height).foldl (fun s y =>
      (List.range' 0 loop.width).foldl (fun s x => texelStep body x y z s) s) s) (0, offsets)).2

/-- `CLAMP`. -/
def clampTo (val least greatest : ℚ) : ℚ :=
  if val < least then least else if val > greatest then greatest else val

/-- `random_in_range(-10, 10, d)`, the `k`-th time. -/
def randomOffset (genrand : ℕ → BitVec 32) (k : ℕ) : ℤ :=
  (Harness.randomInRange (BitVec.ofInt 32 (-10)) 10#32 (genrand k)).toInt

/-- The coordinates before they are clamped and scaled. -/
def startCoord (gDisableOffsets : Bool) (genrand : ℕ → BitVec 32) (fract : Coord) (i x y z : ℕ) :
    Coord :=
  if gDisableOffsets then ⟨fract.x + x, fract.y + y, fract.z + z⟩
  else ⟨fract.x + (x + randomOffset genrand (3 * i) : ℤ),
    fract.y + (y + randomOffset genrand (3 * i + 1) : ℤ),
    fract.z + (z + randomOffset genrand (3 * i + 2) : ℤ)⟩

/-- What is done for `CL_ADDRESS_NONE`. -/
def clampCoord (dims : Dims) (c : Coord) : Coord :=
  ⟨clampTo c.x 0 (dims.width - 1), clampTo c.y 0 (dims.height - 1), clampTo c.z 0 (dims.depth - 1)⟩

/-- Division by the dimensions; layers are not scaled. -/
def scaleCoord (type : ImageType) (dims : Dims) (c : Coord) : Coord where
  x := c.x / dims.width
  y := if type ≠ .image1DArray then c.y / dims.height else c.y
  z := if type ≠ .image2DArray then c.z / dims.depth else c.z

/-- `width_lod`, `height_lod` and `depth_lod`. -/
def lodDims (type : ImageType) (loop : Dims) (lod : ℕ) : Dims where
  width := mipDim loop.width lod
  height := if type ≠ .image1DArray then mipDim loop.height lod else loop.height
  depth := if type ≠ .image2DArray then mipDim loop.depth lod else loop.depth

/-- The settings of the tests and the sampler that the coordinates depend on. -/
structure CoordSettings where
  gTestMipmaps : Bool
  gDisableOffsets : Bool
  addressingMode : AddressingMode
  normalizedCoords : Bool

/-- `InitFloatCoordsCommon`; there is no result for types without dimensions. -/
def initFloatCoordsCommon (info : ImageDescriptor) (settings : CoordSettings) (fract : Coord)
    (genrand : ℕ → BitVec 32) (lod : ℕ) (offsets : ℕ → Coord) : Option (ℕ → Coord) := do
  let loop ← getImageDimensions info
  let offsets := forTexels loop
    (fun i x y z _ => startCoord settings.gDisableOffsets genrand fract i x y z) offsets
  let offsets := if settings.addressingMode = .none then
    forTexels loop (fun _ _ _ _ c => clampCoord loop c) offsets else offsets
  if settings.normalizedCoords || settings.gTestMipmaps then
    if lod = 0 then
      return forTexels loop (fun _ _ _ _ c => scaleCoord info.type loop c) offsets
    else if settings.gTestMipmaps then
      let level := lodDims info.type loop lod
      return forTexels level (fun _ _ _ _ c => scaleCoord info.type level c) offsets
    else return offsets
  else return offsets

/-- `width_lod` and `height_lod` in `InitFloatCoords`. -/
def initFloatCoordsDims (info : ImageDescriptor) (gTestMipmaps : Bool) (lod : ℕ) : Dims :=
  if gTestMipmaps then ⟨mipDim info.width lod, mipDim info.height lod, 1⟩
  else ⟨info.width, info.height, 1⟩

/-- `InitFloatCoords`, which has no `zOffsets`: they are 0 here. -/
def initFloatCoords (info : ImageDescriptor) (settings : CoordSettings) (fract : Coord)
    (genrand : ℕ → BitVec 32) (lod : ℕ) (offsets : ℕ → Coord) : ℕ → Coord :=
  let level := initFloatCoordsDims info settings.gTestMipmaps lod
  let start (i x y : ℕ) : Coord :=
    if settings.gDisableOffsets then ⟨fract.x + x, fract.y + y, 0⟩
    else ⟨fract.x + (x + randomOffset genrand (2 * i) : ℤ),
      fract.y + (y + randomOffset genrand (2 * i + 1) : ℤ), 0⟩
  let offsets := forTexels level (fun i x y _ _ => start i x y) offsets
  let offsets := if settings.addressingMode = .none then
    forTexels level (fun _ _ _ _ c => clampCoord level c) offsets else offsets
  if settings.normalizedCoords then
    forTexels level (fun _ _ _ _ c => scaleCoord .image2D level c) offsets
  else offsets

/-! ### The loops -/

/-- The index of a texel. -/
def texelIndex (dims : Dims) (x y z : ℕ) : ℕ := (z * dims.height + y) * dims.width + x

/-- The number of texels. -/
def texelCount (dims : Dims) : ℕ := dims.depth * dims.height * dims.width

section

variable {loop : Dims} {body : ℕ → ℕ → ℕ → ℕ → Coord → Coord} {offsets : ℕ → Coord} {x y z i : ℕ}

theorem texelIndex_lt (hx : x < loop.width) (hy : y < loop.height) (hz : z < loop.depth) :
    texelIndex loop x y z < texelCount loop :=
  digits_lt (digits_lt hz hy) hx

theorem texelIndex_digits (hx : x < loop.width) (hy : y < loop.height) :
    texelIndex loop x y z % loop.width = x ∧
      texelIndex loop x y z / loop.width % loop.height = y ∧
      texelIndex loop x y z / loop.width / loop.height = z := by
  have hrow : texelIndex loop x y z / loop.width = z * loop.height + y := by
    rw [texelIndex, Nat.mul_comm, Nat.mul_add_div (by omega), Nat.div_eq_of_lt hx, Nat.add_zero]
  rw [hrow]
  refine ⟨?_, ?_, ?_⟩
  · rw [texelIndex, Nat.mul_comm, Nat.mul_add_mod, Nat.mod_eq_of_lt hx]
  · rw [Nat.mul_comm, Nat.mul_add_mod, Nat.mod_eq_of_lt hy]
  · rw [Nat.mul_comm, Nat.mul_add_div (by omega), Nat.div_eq_of_lt hy, Nat.add_zero]

theorem exists_texel (hi : i < texelCount loop) :
    ∃ x < loop.width, ∃ y < loop.height, ∃ z < loop.depth, texelIndex loop x y z = i := by
  rw [texelCount, Nat.mul_comm] at hi
  obtain ⟨row, x, hrow, hx, rfl⟩ := exists_digits hi
  rw [Nat.mul_comm] at hrow
  obtain ⟨z, y, hz, hy, rfl⟩ := exists_digits hrow
  exact ⟨x, hx, y, hy, z, hz, rfl⟩

/-- What a loop nest does at an index, by the texel that it is. -/
def atIndex (loop : Dims) (body : ℕ → ℕ → ℕ → ℕ → Coord → Coord) (j : ℕ) : Coord → Coord :=
  body j (j % loop.width) (j / loop.width % loop.height) (j / loop.width / loop.height)

/-- The indices below `n` are done. -/
def DoneTo (loop : Dims) (body : ℕ → ℕ → ℕ → ℕ → Coord → Coord) (offsets : ℕ → Coord) (n : ℕ)
    (s : ℕ × (ℕ → Coord)) : Prop :=
  s.1 = n ∧ ∀ j, s.2 j = if j < n then atIndex loop body j (offsets j) else offsets j

theorem doneTo_step (hx : x < loop.width) (hy : y < loop.height) {s : ℕ × (ℕ → Coord)}
    (h : DoneTo loop body offsets (texelIndex loop x y z) s) :
    DoneTo loop body offsets (texelIndex loop x y z + 1) (texelStep body x y z s) := by
  obtain ⟨hi, hs⟩ := h
  obtain ⟨hdx, hdy, hdz⟩ := texelIndex_digits (z := z) hx hy
  refine ⟨by rw [texelStep, hi], ?_⟩
  intro j
  simp only [texelStep, hi]
  rcases eq_or_ne j (texelIndex loop x y z) with rfl | hne
  · rw [Function.update_self, if_pos (Nat.lt_succ_self _), hs, if_neg (lt_irrefl _), atIndex, hdx,
      hdy, hdz]
  · rw [Function.update_of_ne hne, hs]
    have hlt : j < texelIndex loop x y z + 1 ↔ j < texelIndex loop x y z := by omega
    rw [if_congr hlt rfl rfl]

/-- **A loop nest** runs its body at each index for the texel of the index. -/
theorem forTexels_eq (loop : Dims) (body : ℕ → ℕ → ℕ → ℕ → Coord → Coord) (offsets : ℕ → Coord)
    (j : ℕ) : forTexels loop body offsets j
      = if j < texelCount loop then atIndex loop body j (offsets j) else offsets j := by
  have hrow (y z : ℕ) (hy : y < loop.height) (s : ℕ × (ℕ → Coord))
      (hs : DoneTo loop body offsets (texelIndex loop 0 y z) s) :
      DoneTo loop body offsets (texelIndex loop 0 (y + 1) z)
        ((List.range' 0 loop.width).foldl (fun s x => texelStep body x y z s) s) := by
    have hend : texelIndex loop 0 (y + 1) z = texelIndex loop (0 + loop.width) y z := by
      simp only [texelIndex]
      ring
    rw [hend]
    refine foldl_invariant (I := fun x s => DoneTo loop body offsets (texelIndex loop x y z) s) ?_ hs
    intro x s _ hx h
    exact doneTo_step (by omega) hy h
  have hslice (z : ℕ) (s : ℕ × (ℕ → Coord))
      (hs : DoneTo loop body offsets (texelIndex loop 0 0 z) s) :
      DoneTo loop body offsets (texelIndex loop 0 0 (z + 1))
        ((List.range' 0 loop.height).foldl (fun s y =>
          (List.range' 0 loop.width).foldl (fun s x => texelStep body x y z s) s) s) := by
    have hend : texelIndex loop 0 0 (z + 1) = texelIndex loop 0 (0 + loop.height) z := by
      simp only [texelIndex]
      ring
    rw [hend]
    refine foldl_invariant (I := fun y s => DoneTo loop body offsets (texelIndex loop 0 y z) s) ?_ hs
    intro y s _ hy h
    exact hrow y z (by omega) s h
  have hall : DoneTo loop body offsets (texelIndex loop 0 0 (0 + loop.depth))
      ((List.range' 0 loop.depth).foldl (fun s z =>
        (List.range' 0 loop.height).foldl (fun s y =>
          (List.range' 0 loop.width).foldl (fun s x => texelStep body x y z s) s) s)
        (0, offsets)) := by
    refine foldl_invariant (I := fun z s => DoneTo loop body offsets (texelIndex loop 0 0 z) s)
      (fun z s _ _ h => hslice z s h) ?_
    refine ⟨by simp [texelIndex], ?_⟩
    intro j
    rw [if_neg (by simp [texelIndex])]
  have hcount : texelIndex loop 0 0 (0 + loop.depth) = texelCount loop := by
    simp [texelIndex, texelCount]
  rw [hcount] at hall
  exact hall.2 j

theorem forTexels_of_lt (hi : i < texelCount loop) :
    forTexels loop body offsets i = atIndex loop body i (offsets i) := by
  rw [forTexels_eq, if_pos hi]

end

/-! ### What should be stored -/

/-- Where a work-item reads, in texels of the level; layers are as they are. -/
def position (type : ImageType) (level : Dims) (c : Coord) : Coord where
  x := c.x * level.width
  y := if type ≠ .image1DArray then c.y * level.height else c.y
  z := if type ≠ .image2DArray then c.z * level.depth else c.z

/-- Every work-item reads at its own texel, and every texel is read once. -/
structure AddressesLevel (type : ImageType) (level : Dims) (fract : Coord) (offsets : ℕ → Coord) :
    Prop where
  own : ∀ x < level.width, ∀ y < level.height, ∀ z < level.depth,
    position type level (offsets (texelIndex level x y z)) = ⟨x + fract.x, y + fract.y, z + fract.z⟩
  once : ∀ x < level.width, ∀ y < level.height, ∀ z < level.depth, ∃! i, i < texelCount level ∧
    ⌊(position type level (offsets i)).x⌋ = x ∧ ⌊(position type level (offsets i)).y⌋ = y ∧
    ⌊(position type level (offsets i)).z⌋ = z

/-- Fractions of a texel. -/
structure Coord.Fraction (c : Coord) : Prop where
  x : 0 ≤ c.x ∧ c.x < 1
  y : 0 ≤ c.y ∧ c.y < 1
  z : 0 ≤ c.z ∧ c.z < 1

/-- Every index is the same texel in both loop nests: the level has one row, or its rows are as long
as those of the image and it has one slice or slices as high as those of the image. -/
def SameTexels (base level : Dims) : Prop :=
  level.height * level.depth = 1 ∨
    level.width = base.width ∧ (level.depth = 1 ∨ level.height = base.height)

/-- Nothing is clamped: for `CL_ADDRESS_NONE`, the last coordinates have no fraction, or the level
ends before the image. -/
def Unclamped (mode : AddressingMode) (base level : Dims) (fract : Coord) : Prop :=
  mode = .none → (fract.x = 0 ∨ level.width < base.width) ∧
    (fract.y = 0 ∨ level.height < base.height) ∧ (fract.z = 0 ∨ level.depth < base.depth)

/-- There are texels. -/
structure Dims.Pos (d : Dims) : Prop where
  width : 0 < d.width
  height : 0 < d.height
  depth : 0 < d.depth

section

variable {base level : Dims} {fract : Coord} {mode : AddressingMode} {type : ImageType}
  {offsets : ℕ → Coord}

theorem floor_natCast_add {n : ℕ} {f : ℚ} (hf : 0 ≤ f ∧ f < 1) : ⌊(n : ℚ) + f⌋ = n := by
  rw [Int.floor_eq_iff]
  push_cast
  exact ⟨by linarith, by linarith⟩

/-- **If every work-item reads its own texel, every texel is read once.** -/
theorem once_of_own (hfract : fract.Fraction)
    (h : ∀ x < level.width, ∀ y < level.height, ∀ z < level.depth,
      position type level (offsets (texelIndex level x y z))
        = ⟨x + fract.x, y + fract.y, z + fract.z⟩) : AddressesLevel type level fract offsets := by
  refine ⟨h, ?_⟩
  intro x hx y hy z hz
  refine ⟨texelIndex level x y z, ?_, ?_⟩
  · simp only [h x hx y hy z hz]
    exact ⟨texelIndex_lt hx hy hz, floor_natCast_add hfract.x, floor_natCast_add hfract.y,
      floor_natCast_add hfract.z⟩
  · intro i hi
    obtain ⟨hlt, hi⟩ := hi
    obtain ⟨x', hx', y', hy', z', hz', rfl⟩ := exists_texel hlt
    simp only [h x' hx' y' hy' z' hz', floor_natCast_add hfract.x, floor_natCast_add hfract.y,
      floor_natCast_add hfract.z, Nat.cast_inj] at hi
    obtain ⟨rfl, rfl, rfl⟩ := hi
    rfl

theorem position_scaleCoord (hpos : level.Pos) (c : Coord) :
    position type level (scaleCoord type level c) = c := by
  have hw : (level.width : ℚ) ≠ 0 := Nat.cast_ne_zero.mpr hpos.width.ne'
  have hh : (level.height : ℚ) ≠ 0 := Nat.cast_ne_zero.mpr hpos.height.ne'
  have hd : (level.depth : ℚ) ≠ 0 := Nat.cast_ne_zero.mpr hpos.depth.ne'
  ext
  · exact div_mul_cancel₀ _ hw
  · simp only [position, scaleCoord]
    split
    · exact div_mul_cancel₀ _ hh
    · rfl
  · simp only [position, scaleCoord]
    split
    · exact div_mul_cancel₀ _ hd
    · rfl

theorem clampTo_eq_iff (mode : AddressingMode) {n x w : ℕ} {f : ℚ} (hn : n < w) (hx : x < w) (hf : 0 ≤ f ∧ f < 1) :
    (if mode = .none then clampTo (f + n) 0 (w - 1) else f + n) = x + f ↔
      n = x ∧ (mode = .none → f = 0 ∨ x + 1 < w) := by
  have heq : f + n = x + f ↔ n = x := by
    rw [add_comm, add_left_inj, Nat.cast_inj]
  split
  · rename_i hmode
    have hnonneg : (0 : ℚ) ≤ n := Nat.cast_nonneg n
    have hn' : (n : ℚ) + 1 ≤ w := by exact_mod_cast hn
    have hx' : (x : ℚ) + 1 ≤ w := by exact_mod_cast hx
    rw [clampTo, if_neg (not_lt.mpr (by linarith : (0 : ℚ) ≤ f + n))]
    split
    · -- the last texel is the only one from which a fraction is taken
      rename_i hgt
      have hlast : n + 1 = w := by
        by_contra hne
        have hlt : (n : ℚ) + 1 + 1 ≤ w := by
          exact_mod_cast (show n + 1 + 1 ≤ w by omega)
        linarith
      rw [← hlast] at hgt hx' ⊢
      push_cast at hgt hx' ⊢
      constructor
      · intro h
        have hlt : x < n := by exact_mod_cast (show (x : ℚ) < n by linarith)
        have hle : (x : ℚ) + 1 ≤ n := by exact_mod_cast hlt
        linarith [hf.2]
      · intro h
        obtain ⟨rfl, h⟩ := h
        rcases h hmode with h | h
        · rw [h]
          ring
        · omega
    · rename_i hle
      rw [heq]
      refine ⟨fun h => ⟨h, fun _ => ?_⟩, fun h => h.1⟩
      subst h
      rcases Nat.lt_or_ge (n + 1) w with hlt | hge
      · exact .inr hlt
      · refine .inl ?_
        have hge' : (w : ℚ) ≤ n + 1 := by exact_mod_cast hge
        linarith [hf.1]
  · rename_i hmode
    rw [heq]
    exact ⟨fun h => ⟨h, fun hm => absurd hm hmode⟩, fun h => h.1⟩

/-! ### The texels of an index -/

theorem texelCount_le (hw : level.width ≤ base.width) (hh : level.height ≤ base.height)
    (hd : level.depth ≤ base.depth) : texelCount level ≤ texelCount base :=
  Nat.mul_le_mul (Nat.mul_le_mul hd hh) hw

/-- **The indices are the same texels** just if the first ones of a row and a slice are. -/
theorem sameTexels_iff (hpos : level.Pos) (hw : level.width ≤ base.width)
    (hh : level.height ≤ base.height) :
    (∀ x < level.width, ∀ y < level.height, ∀ z < level.depth,
      texelIndex level x y z % base.width = x ∧
        texelIndex level x y z / base.width % base.height = y ∧
        texelIndex level x y z / base.width / base.height = z) ↔ SameTexels base level := by
  have hw0 := hpos.width
  have hh0 := hpos.height
  have hd0 := hpos.depth
  constructor
  · intro h
    by_contra hne
    rw [SameTexels, not_or] at hne
    obtain ⟨hrows, hne⟩ := hne
    rcases hw.lt_or_eq with hlt | heq
    · -- the second row starts within the first one of the image
      rcases Nat.lt_or_ge 1 level.height with h1 | h1
      · have hrow := (h 0 hw0 1 h1 0 hd0).1
        rw [texelIndex, Nat.zero_mul, Nat.zero_add, Nat.one_mul, Nat.add_zero,
          Nat.mod_eq_of_lt hlt] at hrow
        omega
      · have hone : level.height = 1 := by omega
        have h2 : 1 < level.depth := by
          rw [hone, Nat.one_mul] at hrows
          omega
        have hslice := (h 0 hw0 0 hh0 1 h2).1
        rw [texelIndex, hone, Nat.mul_one, Nat.add_zero, Nat.one_mul,
          Nat.mod_eq_of_lt hlt] at hslice
        omega
    · -- the second slice starts within the first one of the image
      have hdepth : level.depth ≠ 1 := fun hd => hne ⟨heq, .inl hd⟩
      have hheight : level.height ≠ base.height := fun hd => hne ⟨heq, .inr hd⟩
      have hslice := (h 0 hw0 0 hh0 1 (by omega)).2.1
      rw [texelIndex, ← heq, Nat.one_mul, Nat.add_zero, Nat.add_zero,
        Nat.mul_div_cancel _ hw0, Nat.mod_eq_of_lt (by omega)] at hslice
      omega
  · intro h x hx y hy z hz
    rcases h with hone | ⟨hwidth, hrest⟩
    · have hh1 : level.height = 1 := Nat.eq_one_of_mul_eq_one_right hone
      have hd1 : level.depth = 1 := Nat.eq_one_of_mul_eq_one_left hone
      obtain rfl : y = 0 := by omega
      obtain rfl : z = 0 := by omega
      rw [texelIndex, Nat.zero_mul, Nat.zero_add, Nat.zero_mul, Nat.zero_add,
        Nat.mod_eq_of_lt (by omega), Nat.div_eq_of_lt (by omega), Nat.zero_mod, Nat.zero_div]
      exact ⟨rfl, rfl, rfl⟩
    · obtain ⟨hdx, hdy, hdz⟩ := texelIndex_digits (z := z) hx hy
      rw [← hwidth]
      rcases hrest with hd1 | hheight
      · obtain rfl : z = 0 := by omega
        have hrow : texelIndex level x y 0 / level.width = y := by
          rw [texelIndex, Nat.zero_mul, Nat.zero_add, Nat.mul_comm, Nat.mul_add_div hw0,
            Nat.div_eq_of_lt hx, Nat.add_zero]
        have hy' : y < base.height := by omega
        rw [hrow, Nat.mod_eq_of_lt hy', Nat.div_eq_of_lt hy']
        exact ⟨hdx, rfl, rfl⟩
      · rw [← hheight]
        exact ⟨hdx, hdy, hdz⟩

/-! ### The functions -/

/-- The passes over the coordinates, the last one with the dimensions of the level. -/
def passes (type : ImageType) (mode : AddressingMode) (base level : Dims) (fract : Coord)
    (offsets : ℕ → Coord) : ℕ → Coord :=
  let offsets := forTexels base
    (fun _ x y z _ => ⟨fract.x + x, fract.y + y, fract.z + z⟩) offsets
  let offsets := if mode = .none then
    forTexels base (fun _ _ _ _ c => clampCoord base c) offsets else offsets
  forTexels level (fun _ _ _ _ c => scaleCoord type level c) offsets

theorem position_passes (hpos : level.Pos) (hle : texelCount level ≤ texelCount base) {i : ℕ}
    (hi : i < texelCount level) : position type level (passes type mode base level fract offsets i)
      = if mode = .none then clampCoord base ⟨fract.x + (i % base.width : ℕ),
          fract.y + (i / base.width % base.height : ℕ), fract.z + (i / base.width / base.height : ℕ)⟩
        else ⟨fract.x + (i % base.width : ℕ), fract.y + (i / base.width % base.height : ℕ),
          fract.z + (i / base.width / base.height : ℕ)⟩ := by
  have hbase := lt_of_lt_of_le hi hle
  rw [passes, forTexels_of_lt hi, atIndex, position_scaleCoord hpos]
  split
  · rw [forTexels_of_lt hbase, forTexels_of_lt hbase]
    rfl
  · rw [forTexels_of_lt hbase]
    rfl

/-- **The coordinates are those of the level** just if the indices are the same texels and nothing
is clamped. -/
theorem addressesLevel_passes (hpos : level.Pos) (hw : level.width ≤ base.width)
    (hh : level.height ≤ base.height) (hd : level.depth ≤ base.depth) (hfract : fract.Fraction) :
    AddressesLevel type level fract (passes type mode base level fract offsets) ↔
      SameTexels base level ∧ Unclamped mode base level fract := by
  have hw0 := hpos.width
  have hh0 := hpos.height
  have hd0 := hpos.depth
  have hle := texelCount_le hw hh hd
  have hown {x y z : ℕ} (hx : x < level.width) (hy : y < level.height) (hz : z < level.depth) :
      position type level (passes type mode base level fract offsets (texelIndex level x y z))
          = ⟨x + fract.x, y + fract.y, z + fract.z⟩ ↔
        (texelIndex level x y z % base.width = x ∧ (mode = .none → fract.x = 0 ∨ x + 1 < base.width))
          ∧ (texelIndex level x y z / base.width % base.height = y ∧
            (mode = .none → fract.y = 0 ∨ y + 1 < base.height))
          ∧ (texelIndex level x y z / base.width / base.height = z ∧
            (mode = .none → fract.z = 0 ∨ z + 1 < base.depth)) := by
    have hi := texelIndex_lt hx hy hz
    have hslice : texelIndex level x y z / base.width / base.height < base.depth := by
      rw [Nat.div_div_eq_div_mul, Nat.div_lt_iff_lt_mul (Nat.mul_pos (by omega) (by omega)),
        Nat.mul_comm base.width, ← Nat.mul_assoc]
      exact lt_of_lt_of_le hi hle
    rw [position_passes hpos hle hi,
      ← clampTo_eq_iff mode (Nat.mod_lt _ (by omega)) (by omega : x < base.width) hfract.x,
      ← clampTo_eq_iff mode (Nat.mod_lt _ (by omega)) (by omega : y < base.height) hfract.y,
      ← clampTo_eq_iff mode hslice (by omega : z < base.depth) hfract.z, Coord.ext_iff]
    split <;> rfl
  constructor
  · intro h
    refine ⟨(sameTexels_iff hpos hw hh).mp ?_, ?_⟩
    · intro x hx y hy z hz
      obtain ⟨h1, h2, h3⟩ := (hown hx hy hz).mp (h.own x hx y hy z hz)
      exact ⟨h1.1, h2.1, h3.1⟩
    · intro hmode
      have hx : level.width - 1 < level.width := by omega
      have hy : level.height - 1 < level.height := by omega
      have hz : level.depth - 1 < level.depth := by omega
      obtain ⟨h1, h2, h3⟩ := (hown hx hy hz).mp (h.own _ hx _ hy _ hz)
      refine ⟨(h1.2 hmode).imp_right ?_, (h2.2 hmode).imp_right ?_, (h3.2 hmode).imp_right ?_⟩ <;>
        omega
  · intro h
    obtain ⟨hsame, hunclamped⟩ := h
    refine once_of_own hfract ?_
    intro x hx y hy z hz
    obtain ⟨h1, h2, h3⟩ := (sameTexels_iff hpos hw hh).mpr hsame x hx y hy z hz
    refine (hown hx hy hz).mpr ⟨⟨h1, ?_⟩, ⟨h2, ?_⟩, ⟨h3, ?_⟩⟩
    · exact fun hmode => (hunclamped hmode).1.imp_right (by omega)
    · exact fun hmode => (hunclamped hmode).2.1.imp_right (by omega)
    · exact fun hmode => (hunclamped hmode).2.2.imp_right (by omega)

end

section

variable {info : ImageDescriptor} {settings : CoordSettings} {fract : Coord} {lod : ℕ} {loop : Dims}
  {genrand : ℕ → BitVec 32} {offsets : ℕ → Coord}

theorem mipDim_bounds {d : ℕ} (h : 0 < d) (lod : ℕ) : 0 < mipDim d lod ∧ mipDim d lod ≤ d := by
  rw [mipDim_eq]
  exact ⟨lt_of_lt_of_le one_pos (le_max_left _ _), max_le h (Nat.shiftRight_le d lod)⟩

theorem lodDims_le (type : ImageType) (hpos : loop.Pos) (lod : ℕ) :
    (lodDims type loop lod).Pos ∧ (lodDims type loop lod).width ≤ loop.width ∧
      (lodDims type loop lod).height ≤ loop.height ∧ (lodDims type loop lod).depth ≤ loop.depth := by
  have hw := mipDim_bounds hpos.width lod
  have hh := mipDim_bounds hpos.height lod
  have hd := mipDim_bounds hpos.depth lod
  have hh0 := hpos.height
  have hd0 := hpos.depth
  refine ⟨⟨hw.1, ?_, ?_⟩, hw.2, ?_, ?_⟩ <;> rw [lodDims] <;> dsimp only <;> split <;> omega

theorem lodDims_zero (type : ImageType) (hpos : loop.Pos) : lodDims type loop 0 = loop := by
  have hw := mipDim_zero hpos.width
  have hh := mipDim_zero hpos.height
  have hd := mipDim_zero hpos.depth
  rw [lodDims, hw, hh, hd, ite_self, ite_self]

theorem initFloatCoordsCommon_eq (hloop : getImageDimensions info = some loop) (hpos : loop.Pos)
    (hdisable : settings.gDisableOffsets = true) (hnormalized : settings.normalizedCoords = true)
    (hlod : lod = 0 ∨ settings.gTestMipmaps = true) :
    initFloatCoordsCommon info settings fract genrand lod offsets = some (passes info.type
      settings.addressingMode loop (lodDims info.type loop lod) fract offsets) := by
  rw [initFloatCoordsCommon, hloop, hdisable, hnormalized]
  rcases eq_or_ne lod 0 with rfl | hne
  · rw [lodDims_zero _ hpos]
    rfl
  · simp only [hlod.resolve_left hne, Option.bind_eq_bind, Option.bind_some, Bool.true_or, if_true,
      if_neg hne]
    rfl

theorem initFloatCoords_eq (hdisable : settings.gDisableOffsets = true)
    (hnormalized : settings.normalizedCoords = true) (hw : 0 < info.width) (hh : 0 < info.height)
    (hlod : lod = 0 ∨ settings.gTestMipmaps = true) :
    initFloatCoords info settings ⟨fract.x, fract.y, 0⟩ genrand lod offsets
      = passes .image2D settings.addressingMode ⟨mipDim info.width lod, mipDim info.height lod, 1⟩
        ⟨mipDim info.width lod, mipDim info.height lod, 1⟩ ⟨fract.x, fract.y, 0⟩ offsets := by
  have hlevel : initFloatCoordsDims info settings.gTestMipmaps lod
      = ⟨mipDim info.width lod, mipDim info.height lod, 1⟩ := by
    rw [initFloatCoordsDims]
    split
    · rfl
    · rename_i h
      rw [hlod.resolve_right h, mipDim_zero hw, mipDim_zero hh]
  obtain ⟨level, hdims⟩ : ∃ level : Dims, level = ⟨mipDim info.width lod, mipDim info.height lod, 1⟩ :=
    ⟨_, rfl⟩
  rw [← hdims] at hlevel ⊢
  -- there is one slice
  have hstart : forTexels level (fun _ x y _ _ => ⟨fract.x + x, fract.y + y, 0⟩) offsets
      = forTexels level (fun _ x y z _ => ⟨fract.x + x, fract.y + y, 0 + z⟩) offsets := by
    funext j
    rw [forTexels_eq, forTexels_eq]
    split
    · rename_i hj
      have hz : j / level.width / level.height = 0 := by
        rw [texelCount, hdims, Nat.one_mul, Nat.mul_comm] at hj
        rw [Nat.div_div_eq_div_mul, hdims]
        exact Nat.div_eq_of_lt hj
      rw [atIndex, atIndex, hz, Nat.cast_zero, add_zero]
    · rfl
  rw [initFloatCoords, hlevel, hdisable, hnormalized, passes, ← hstart]
  rfl

end

/-! ### The levels -/

/-- **The coordinates are those of the level** just if each index is the same texel of the image and
of the level, and nothing is clamped; for `2D` images, the function of its own has only the clamp. -/
theorem initFloatCoords_iff (settings : CoordSettings) (fract : Coord) (lod : ℕ)
    (genrand : ℕ → BitVec 32) (offsets : ℕ → Coord) (hdisable : settings.gDisableOffsets = true)
    (hnormalized : settings.normalizedCoords = true) (hfract : fract.Fraction)
    (hlod : lod = 0 ∨ settings.gTestMipmaps = true) :
    (∀ (info : ImageDescriptor) (loop : Dims), getImageDimensions info = some loop → loop.Pos →
      ∃ coords, initFloatCoordsCommon info settings fract genrand lod offsets = some coords ∧
        (AddressesLevel info.type (lodDims info.type loop lod) fract coords ↔
          SameTexels loop (lodDims info.type loop lod) ∧
            Unclamped settings.addressingMode loop (lodDims info.type loop lod) fract)) ∧
    ∀ info : ImageDescriptor, 0 < info.width → 0 < info.height →
      (AddressesLevel .image2D ⟨mipDim info.width lod, mipDim info.height lod, 1⟩
        ⟨fract.x, fract.y, 0⟩
        (initFloatCoords info settings ⟨fract.x, fract.y, 0⟩ genrand lod offsets) ↔
          (settings.addressingMode = .none → fract.x = 0 ∧ fract.y = 0)) := by
  constructor
  · intro info loop hloop hpos
    obtain ⟨hlevel, hw, hh, hd⟩ := lodDims_le info.type hpos lod
    exact ⟨_, initFloatCoordsCommon_eq hloop hpos hdisable hnormalized hlod,
      addressesLevel_passes hlevel hw hh hd hfract⟩
  · intro info hw hh
    have hlevel : Dims.Pos ⟨mipDim info.width lod, mipDim info.height lod, 1⟩ :=
      ⟨(mipDim_bounds hw lod).1, (mipDim_bounds hh lod).1, one_pos⟩
    have hplane : Coord.Fraction ⟨fract.x, fract.y, 0⟩ :=
      ⟨hfract.x, hfract.y, le_rfl, zero_lt_one' ℚ⟩
    rw [initFloatCoords_eq hdisable hnormalized hw hh hlod,
      addressesLevel_passes hlevel le_rfl le_rfl le_rfl hplane]
    simp only [SameTexels, Unclamped, lt_irrefl, or_false, or_true, and_true, true_and]

/-- A `1D` array of two layers, with mipmaps. -/
def arrayInfo : ImageDescriptor where
  width := 2
  height := 0
  depth := 0
  rowPitch := 0
  slicePitch := 0
  arraySize := 2
  format := ⟨.rgba, .float⟩
  type := .image1DArray
  numMipLevels := 2

/-- The settings in question, for samplers that clamp to the edge. -/
def mipmapSettings : CoordSettings := ⟨true, true, .clampToEdge, true⟩

/-- In the level of the image itself the coordinates are right. -/
theorem initFloatCoords_array : ∃ coords, initFloatCoordsCommon arrayInfo mipmapSettings
      ⟨0, 0, 0⟩ (fun _ => 0) 0 (fun _ => ⟨0, 0, 0⟩) = some coords ∧
    AddressesLevel .image1DArray ⟨2, 2, 1⟩ ⟨0, 0, 0⟩ coords := by
  have hzero : (0 : ℚ) ≤ 0 ∧ (0 : ℚ) < 1 := ⟨le_rfl, zero_lt_one' ℚ⟩
  obtain ⟨coords, hcoords, hiff⟩ := (initFloatCoords_iff mipmapSettings ⟨0, 0, 0⟩ 0 (fun _ => 0)
    (fun _ => ⟨0, 0, 0⟩) rfl rfl ⟨hzero, hzero, hzero⟩ (.inl rfl)).1 arrayInfo ⟨2, 2, 1⟩ rfl
    ⟨two_pos, two_pos, one_pos⟩
  exact ⟨coords, hcoords, hiff.mpr ⟨.inr ⟨rfl, .inl rfl⟩, nofun⟩⟩

/-- In the next level, the texel of the second layer is read at the layer 0. -/
theorem not_addressesLevel : ¬ ∀ (info : ImageDescriptor) (loop : Dims) (settings : CoordSettings)
    (fract : Coord) (lod : ℕ) (coords : ℕ → Coord), getImageDimensions info = some loop → loop.Pos →
    settings.gDisableOffsets = true → settings.normalizedCoords = true → fract.Fraction →
    settings.gTestMipmaps = true → lod < info.numMipLevels →
    initFloatCoordsCommon info settings fract (fun _ => 0) lod (fun _ => ⟨0, 0, 0⟩) = some coords →
    AddressesLevel info.type (lodDims info.type loop lod) fract coords := by
  intro h
  have hzero : (0 : ℚ) ≤ 0 ∧ (0 : ℚ) < 1 := ⟨le_rfl, zero_lt_one' ℚ⟩
  have hown := (h arrayInfo ⟨2, 2, 1⟩ mipmapSettings ⟨0, 0, 0⟩ 1 _ rfl ⟨two_pos, two_pos, one_pos⟩
    rfl rfl ⟨hzero, hzero, hzero⟩ rfl one_lt_two rfl).own 0 one_pos 1 one_lt_two 0 one_pos
  exact absurd (congrArg Coord.y hown) (by decide +kernel)

end OpenCLCTS.Images
