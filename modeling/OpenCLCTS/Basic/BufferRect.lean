import Mathlib.Data.Fin.VecNotation
import Mathlib.Tactic.FinCases
import OpenCLCTS.Lib.Layout
import OpenCLCTS.Lib.Traced

/-!
# Copies between rectangles of buffers

The test copies, reads and writes boxes of random buffers.  A copy is left out if
`check_overlap_rect` reports an overlap of the source with the destination.  A slice pitch of one
byte is passed to it as 0, and then it takes the height of a slice for 0.

* `draws_test`: the test comes to its end.  What it draws is inside of the buffers.
* `checkOverlapRect_exact_iff`: **the overlaps are those of the addresses, but for columns of
  bytes.**
-/

namespace OpenCLCTS.Basic

open Layout Traced

/-- Literals in `Fin 3` are dimensions. -/
scoped instance neZero_three : NeZero 3 := ⟨Nat.succ_ne_zero 2⟩

/-! ### Sizes -/

/-- What a `size_t` keeps of a number. -/
def sizeT (n : ℕ) : ℕ := n % 2 ^ 64

/-- A difference of two `size_t`. -/
def sizeSub (a b : ℕ) : ℕ := sizeT (a + 2 ^ 64 - b)

theorem sizeT_of_lt {n : ℕ} (h : n < 2 ^ 64) : sizeT n = n := Nat.mod_eq_of_lt h

theorem sizeSub_of_le {a b : ℕ} (ha : a < 2 ^ 64) (h : b ≤ a) : sizeSub a b = a - b := by
  rw [sizeSub, sizeT]
  omega

/-! ### The overlap of two regions -/

/-- The loop of `check_overlap_rect`. -/
def checkOverlap (srcOffset dstOffset region : Fin 3 → ℕ) : Bool :=
  let srcMin := srcOffset
  let srcMax := fun i => sizeT (srcOffset i + region i)
  let dstMin := dstOffset
  let dstMax := fun i => sizeT (dstOffset i + region i)
  (List.finRange 3).foldl
    (fun overlap i => overlap && decide (srcMin i < dstMax i) && decide (srcMax i > dstMin i)) true

/-- `check_overlap_rect`. -/
def checkOverlapRect (srcOffset dstOffset region : Fin 3 → ℕ) (rowPitch slicePitch : ℕ) : Bool :=
  let overlap := checkOverlap srcOffset dstOffset region
  let dstStart := sizeT (dstOffset 2 * slicePitch + dstOffset 1 * rowPitch + dstOffset 0)
  let dstEnd := sizeT (dstStart + (region 2 * slicePitch + region 1 * rowPitch + region 0))
  let srcStart := sizeT (srcOffset 2 * slicePitch + srcOffset 1 * rowPitch + srcOffset 0)
  let srcEnd := sizeT (srcStart + (region 2 * slicePitch + region 1 * rowPitch + region 0))
  if overlap then true
  else
    let deltaSrcX := if sizeT (srcOffset 0 + region 0) > rowPitch then
      sizeT (srcOffset 0 + region 0) - rowPitch else 0
    let deltaDstX := if sizeT (dstOffset 0 + region 0) > rowPitch then
      sizeT (dstOffset 0 + region 0) - rowPitch else 0
    let overlap :=
      if deltaSrcX > 0 ∧ deltaSrcX > dstOffset 0 ∨ deltaDstX > 0 ∧ deltaDstX > srcOffset 0 then
        if srcStart ≤ dstStart ∧ dstStart < srcEnd ∨ dstStart ≤ srcStart ∧ srcStart < dstEnd then
          true
        else overlap
      else overlap
    if region 2 > 1 then
      let srcHeight := slicePitch / rowPitch
      let dstHeight := slicePitch / rowPitch
      let deltaSrcY := if sizeT (srcOffset 1 + region 1) > srcHeight then
        sizeT (srcOffset 1 + region 1) - srcHeight else 0
      let deltaDstY := if sizeT (dstOffset 1 + region 1) > dstHeight then
        sizeT (dstOffset 1 + region 1) - dstHeight else 0
      if deltaSrcY > 0 ∧ deltaSrcY > dstOffset 1 ∨ deltaDstY > 0 ∧ deltaDstY > srcOffset 1 then
        if srcStart ≤ dstStart ∧ dstStart < srcEnd ∨ dstStart ≤ srcStart ∧ srcStart < dstEnd then
          true
        else overlap
      else overlap
    else overlap

/-- The dimensions of the buffers. -/
structure Images where
  width : ℕ → ℕ
  height : ℕ → ℕ
  depth : ℕ → ℕ

/-- The slice pitch that is passed. -/
def Images.slicePitch (im : Images) (i : ℕ) : ℕ :=
  if sizeT (im.width i * im.height i) ≠ 1 then sizeT (im.width i * im.height i) else 0

/-- A buffer has bytes, as many as a `size_t` can tell. -/
structure Images.Valid (im : Images) (i : ℕ) : Prop where
  width : 1 ≤ im.width i
  height : 1 ≤ im.height i
  depth : 1 ≤ im.depth i
  size : im.width i * im.height i * im.depth i < 2 ^ 64

/-- The region has bytes and is inside of the buffer. -/
structure Images.InBounds (im : Images) (i : ℕ) (offset region : Fin 3 → ℕ) : Prop where
  pos : ∀ k, 1 ≤ region k
  width : offset 0 + region 0 ≤ im.width i
  height : offset 1 + region 1 ≤ im.height i
  depth : offset 2 + region 2 ≤ im.depth i

/-- The addresses of the bytes of a region. -/
def Images.addresses (im : Images) (i : ℕ) (offset region : Fin 3 → ℕ) : Set ℕ :=
  { a | ∃ x y z, x < region 0 ∧ y < region 1 ∧ z < region 2 ∧
    a = (offset 2 + z) * (im.width i * im.height i) + (offset 1 + y) * im.width i + (offset 0 + x) }

section

variable {im : Images} {i : ℕ} {soffset doffset offset region : Fin 3 → ℕ}

theorem forall_dim {P : Fin 3 → Prop} (h0 : P 0) (h1 : P 1) (h2 : P 2) (k : Fin 3) : P k := by
  fin_cases k
  · exact h0
  · exact h1
  · exact h2

/-- In every dimension the two boxes have a coordinate in common. -/
def BoxesMeet (soffset doffset region : Fin 3 → ℕ) : Prop :=
  ∀ k, soffset k < doffset k + region k ∧ doffset k < soffset k + region k

theorem Images.Valid.slice_lt (h : im.Valid i) : im.width i * im.height i < 2 ^ 64 :=
  (Nat.le_mul_of_pos_right _ h.depth).trans_lt h.size

theorem Images.Valid.dims_lt (h : im.Valid i) :
    im.width i < 2 ^ 64 ∧ im.height i < 2 ^ 64 ∧ im.depth i < 2 ^ 64 := by
  have hslice := h.slice_lt
  have hpos : 1 ≤ im.width i * im.height i := Nat.mul_pos h.width h.height
  refine ⟨?_, ?_, ?_⟩
  · exact (Nat.le_mul_of_pos_right _ h.height).trans_lt hslice
  · exact (Nat.le_mul_of_pos_left _ h.width).trans_lt hslice
  · exact (Nat.le_mul_of_pos_left _ hpos).trans_lt h.size

/-- The buffer as a box of bytes. -/
def Images.box (im : Images) (i : ℕ) : Box :=
  ⟨im.width i, im.height i, im.depth i, 1, im.width i, im.width i * im.height i⟩

theorem Images.box_fits (im : Images) (i : ℕ) : (im.box i).Fits where
  row := (Nat.mul_one _).le
  slice := (Nat.mul_comm _ _).le

theorem Images.InBounds.has (h : im.InBounds i offset region) {x y z : ℕ} (hx : x < region 0)
    (hy : y < region 1) (hz : z < region 2) :
    (im.box i).Has (offset 0 + x) (offset 1 + y) (offset 2 + z) where
  x := by
    have := h.width
    show _ < im.width i
    omega
  y := by
    have := h.height
    show _ < im.height i
    omega
  z := by
    have := h.depth
    show _ < im.depth i
    omega

theorem Images.InBounds.sizeT_add (h : im.InBounds i offset region) (hvalid : im.Valid i) :
    ∀ k, sizeT (offset k + region k) = offset k + region k := by
  obtain ⟨hwidth, hheight, hdepth⟩ := hvalid.dims_lt
  apply forall_dim
  · exact sizeT_of_lt (h.width.trans_lt hwidth)
  · exact sizeT_of_lt (h.height.trans_lt hheight)
  · exact sizeT_of_lt (h.depth.trans_lt hdepth)

theorem Images.InBounds.lt (h : im.InBounds i offset region) {x y z : ℕ} (hx : x < region 0)
    (hy : y < region 1) (hz : z < region 2) :
    (offset 2 + z) * (im.width i * im.height i) + (offset 1 + y) * im.width i + (offset 0 + x)
      < im.width i * im.height i * im.depth i := by
  have hlt := byte_lt (im.box_fits i) (h.has hx hy hz) one_pos
  rw [Box.addr, Nat.add_zero, Nat.mul_comm] at hlt
  simpa [Images.box, Nat.mul_comm] using hlt

/-- Two intervals of the same length have a number in common, if each starts before the end of the
other one. -/
theorem exists_common {s d r : ℕ} (h : s < d + r ∧ d < s + r) :
    ∃ x < r, ∃ x' < r, s + x = d + x' :=
  ⟨max s d - s, by omega, max s d - d, by omega, by omega⟩

/-- **The boxes meet if the regions have an address in common.** -/
theorem boxesMeet_iff (hs : im.InBounds i soffset region) (hd : im.InBounds i doffset region) :
    BoxesMeet soffset doffset region ↔
      ∃ a, a ∈ im.addresses i soffset region ∧ a ∈ im.addresses i doffset region := by
  constructor
  · intro h
    obtain ⟨x, hx, x', hx', hxe⟩ := exists_common (h 0)
    obtain ⟨y, hy, y', hy', hye⟩ := exists_common (h 1)
    obtain ⟨z, hz, z', hz', hze⟩ := exists_common (h 2)
    refine ⟨_, ⟨x, y, z, hx, hy, hz, rfl⟩, x', y', z', hx', hy', hz', ?_⟩
    rw [hxe, hye, hze]
  · intro h
    obtain ⟨a, ⟨x, y, z, hx, hy, hz, ha⟩, x', y', z', hx', hy', hz', ha'⟩ := h
    have heq : (im.box i).addr (soffset 0 + x) (soffset 1 + y) (soffset 2 + z) + 0
        = (im.box i).addr (doffset 0 + x') (doffset 1 + y') (doffset 2 + z') + 0 := by
      simpa [Box.addr, Images.box] using ha.symm.trans ha'
    obtain ⟨hxe, hye, hze, -⟩ :=
      eq_of_byte (im.box_fits i) (hs.has hx hy hz) (hd.has hx' hy' hz') one_pos one_pos heq
    apply forall_dim
    · exact ⟨by omega, by omega⟩
    · exact ⟨by omega, by omega⟩
    · exact ⟨by omega, by omega⟩

theorem checkOverlap_eq_true_iff (hsmax : ∀ k, sizeT (soffset k + region k) = soffset k + region k)
    (hdmax : ∀ k, sizeT (doffset k + region k) = doffset k + region k) :
    checkOverlap soffset doffset region = true ↔ BoxesMeet soffset doffset region := by
  simp [checkOverlap, BoxesMeet, List.finRange_succ, Fin.forall_fin_succ, and_assoc, hsmax, hdmax]

/-- A slice pitch, but for the one that is passed as 0, has all rows. -/
theorem Images.Valid.slicePitch_div (h : im.Valid i) (hne : im.width i * im.height i ≠ 1) :
    im.slicePitch i / im.width i = im.height i := by
  rw [Images.slicePitch, sizeT_of_lt h.slice_lt, if_pos hne]
  exact Nat.mul_div_cancel_left _ h.width

/-- **What `check_overlap_rect` returns.**  The corrections are made only if the slice pitch is
passed as 0. -/
theorem checkOverlapRect_eq_true_iff (h : im.Valid i) (hs : im.InBounds i soffset region)
    (hd : im.InBounds i doffset region) :
    checkOverlapRect soffset doffset region (im.width i) (im.slicePitch i) = true ↔
      BoxesMeet soffset doffset region ∨
        im.width i * im.height i = 1 ∧ 1 < region 2 := by
  have hswidth := hs.width
  have hdwidth := hd.width
  have hsheight := hs.height
  have hdheight := hd.height
  have hsmax := hs.sizeT_add h
  have hdmax := hd.sizeT_add h
  -- No row is left by the regions.
  have hsx : ¬ soffset 0 + region 0 > im.width i := not_lt.mpr hswidth
  have hdx : ¬ doffset 0 + region 0 > im.width i := not_lt.mpr hdwidth
  have hloop := checkOverlap_eq_true_iff hsmax hdmax
  by_cases hmeet : BoxesMeet soffset doffset region
  · simp [checkOverlapRect, hloop.mpr hmeet, hmeet]
  have hfalse : checkOverlap soffset doffset region = false :=
    Bool.eq_false_iff.mpr (mt hloop.mp hmeet)
  simp only [checkOverlapRect, hfalse, hsmax, hdmax, if_neg hsx, if_neg hdx, gt_iff_lt, lt_irrefl,
    false_and, or_self, if_false, Bool.false_eq_true]
  by_cases hone : im.width i * im.height i = 1
  · have hw := Nat.eq_one_of_mul_eq_one_right hone
    have hh := Nat.eq_one_of_mul_eq_one_left hone
    have hpitch : im.slicePitch i = 0 := by
      rw [Images.slicePitch, hone, sizeT_of_lt (by decide), if_neg (not_not.mpr rfl)]
    have h0 := hs.pos 0
    have h1 := hs.pos 1
    have hs0 : soffset 0 = 0 := by omega
    have hs1 : soffset 1 = 0 := by omega
    have hd0 : doffset 0 = 0 := by omega
    have hd1 : doffset 1 = 0 := by omega
    have hr0 : region 0 = 1 := by omega
    have hr1 : region 1 = 1 := by omega
    simp [hpitch, hw, hh, hs0, hs1, hd0, hd1, hr0, hr1, hmeet, sizeT]
  · -- No slice is left by the regions.
    have hsy : ¬ im.height i < soffset 1 + region 1 := not_lt.mpr hsheight
    have hdy : ¬ im.height i < doffset 1 + region 1 := not_lt.mpr hdheight
    simp [h.slicePitch_div hone, hsy, hdy, hone, hmeet]

end

/-! ### Random sizes -/

/-- What takes numbers from the stream of the generator; the state is the position in it. -/
abbrev Drawing := StateT ℕ (Traced Unit)

/-- It comes to its end, with such a result. -/
def Draws {α : Type} (m : Drawing α) (Q : α → Prop) : Prop :=
  ∀ p, Spec (m p) [] (fun r => Q r.1) fun _ => False

section

variable {α β : Type} {m : Drawing α} {f : α → Drawing β} {Q R : α → Prop}

theorem Draws.pure {a : α} (h : Q a) : Draws (pure a) Q := fun _ => Spec.pure h

theorem Draws.bind {Q : β → Prop} (hm : Draws m R) (hf : ∀ a, R a → Draws (f a) Q) :
    Draws (m >>= f) Q := fun p => (hm p).silent_bind fun r hr => hf r.1 hr r.2

theorem Draws.lift {m : Traced Unit α} (hm : Spec m [] Q fun _ => False) :
    Draws (liftM m) Q := fun _ => hm.silent_bind fun _ ha => Spec.pure ha

theorem Draws.imp (hm : Draws m Q) (h : ∀ a, Q a → R a) : Draws m R := fun p =>
  (hm p).imp fun r hr => h r.1 hr

end

/-- `genrand_int32`. -/
def genrandInt32 (genrand : ℕ → BitVec 32) : Drawing (BitVec 32) := do
  let p ← get
  set (p + 1)
  pure (genrand p)

/-- `get_random_size_t`; it asserts that the range has an end. -/
def getRandomSizeT (genrand : ℕ → BitVec 32) (low high : ℕ) : Drawing ℕ := do
  let word0 ← genrandInt32 genrand
  let word1 ← genrandInt32 genrand
  let size := word0.toNat + word1.toNat * 2 ^ 32
  if low ≤ high then
    let range := high - low
    pure (if range ≠ 0 then sizeT (low + sizeSub size low % range) else low)
  else liftM (stop .failed : Traced Unit ℕ)

/-- `(size_t)cbrt((double)n)`, which may be one off. -/
structure CubeRoot where
  cbrt : ℕ → ℕ
  le : ∀ n, (cbrt n - 1) ^ 3 ≤ n
  lt : ∀ n, n < (cbrt n + 2) ^ 3

/-- `max_mem_alloc_dim`, with the scale of 2. -/
def maxMemAllocDim (c : CubeRoot) (maxMemAllocSize : ℕ) : ℕ :=
  let maxMemAllocDim := c.cbrt maxMemAllocSize / 2
  if maxMemAllocDim = 0 then maxMemAllocSize else maxMemAllocDim

def totalImages : ℕ := 8

def maxTries : ℕ := 1048576

/-- The loop that draws the dimensions of a buffer; `none` after the last try. -/
def drawDimensions (genrand : ℕ → BitVec 32) (dim maxMemAllocSize : ℕ) :
    (tries : ℕ) → Drawing (Option (ℕ × ℕ × ℕ))
  | 0 => pure none
  | tries + 1 => do
    let width ← getRandomSizeT genrand 1 dim
    let height ← getRandomSizeT genrand 1 dim
    let depth ← getRandomSizeT genrand 1 dim
    if tries = 0 then pure none
    else if sizeT (width * height * depth) > maxMemAllocSize then
      drawDimensions genrand dim maxMemAllocSize tries
    else pure (some (width, height, depth))

/-- A rectangle in two of the buffers, and what is done with it. -/
structure Operation where
  src : ℕ
  soffset : Fin 3 → ℕ
  sregion : Fin 3 → ℕ
  dst : ℕ
  doffset : Fin 3 → ℕ
  dregion : Fin 3 → ℕ
  operation : ℕ

/-- What the main loop draws. -/
def drawOperation (genrand : ℕ → BitVec 32) (im : Images) : Drawing Operation := do
  let src ← getRandomSizeT genrand 0 totalImages
  let dst ← getRandomSizeT genrand 0 totalImages
  let minWidth := if im.width src < im.width dst then im.width src else im.width dst
  let minHeight := if im.height src < im.height dst then im.height src else im.height dst
  let minDepth := if im.depth src < im.depth dst then im.depth src else im.depth dst
  let mx ← getRandomSizeT genrand 0 (sizeSub minWidth 1)
  let my ← getRandomSizeT genrand 0 (sizeSub minHeight 1)
  let mz ← getRandomSizeT genrand 0 (sizeSub minDepth 1)
  let sw ← getRandomSizeT genrand 1 (sizeSub minWidth mx)
  let sh ← getRandomSizeT genrand 1 (sizeSub minHeight my)
  let sd ← getRandomSizeT genrand 1 (sizeSub minDepth mz)
  let sx ← getRandomSizeT genrand 0 (sizeSub (im.width src) sw)
  let sy ← getRandomSizeT genrand 0 (sizeSub (im.height src) sh)
  let sz ← getRandomSizeT genrand 0 (sizeSub (im.depth src) sd)
  let dw := sw
  let dh := sh
  let dd := sd
  let dx ← getRandomSizeT genrand 0 (sizeSub (im.width dst) dw)
  let dy ← getRandomSizeT genrand 0 (sizeSub (im.height dst) dh)
  let dz ← getRandomSizeT genrand 0 (sizeSub (im.depth dst) dd)
  let operation ← getRandomSizeT genrand 0 3
  pure ⟨src, ![sx, sy, sz], ![sw, sh, sd], dst, ![dx, dy, dz], ![dw, dh, dd], operation⟩

/-! ### The host copies -/

/-- The copies of the buffers, the temporary buffer, and the operations that were logged. -/
structure Host where
  verify : ℕ → Buffer (BitVec 8)
  tmpBuffer : Buffer (BitVec 8)
  log : List Operation

/-- `initialize_image`, a buffer of so many bytes. -/
def initializeImage (genrand : ℕ → BitVec 32) (size : ℕ) : Drawing (Buffer (BitVec 8)) := do
  let p ← get
  set (p + size)
  pure ⟨size, fun i => (genrand (p + i) % 0xff#32).setWidth 8⟩

/-- Where byte `k` of a region is. -/
def Images.regionIndex (im : Images) (i : ℕ) (offset region : Fin 3 → ℕ) (k : ℕ) : ℕ :=
  let pitch := im.width i
  let slice := sizeT (im.width i * im.height i)
  let rslice := sizeT (region 0 * region 1)
  let z := k / rslice
  let y := k % rslice / region 0
  let x := k % rslice % region 0
  sizeT ((offset 2 + z) * slice + (offset 1 + y) * pitch + offset 0 + x)

/-- The number of bytes of a region. -/
def total (region : Fin 3 → ℕ) : ℕ := sizeT (region 0 * region 1 * region 2)

/-- The loop that copies a region into the copy of a buffer. -/
def copyLoop (im : Images) (o : Operation) (source : Host → Buffer (BitVec 8)) (h : Host) :
    Traced Unit Host :=
  forRange (fun k h => do
    let byte ← (source h).read (im.regionIndex o.src o.soffset o.sregion k)
    let dest ← (h.verify o.dst).write (im.regionIndex o.dst o.doffset o.sregion k) byte
    pure { h with verify := Function.update h.verify o.dst dest }) h (total o.sregion)

/-- `copy_region`, on the host. -/
def copyRegion (im : Images) (o : Operation) (h : Host) : Traced Unit Host :=
  if checkOverlapRect o.soffset o.doffset o.sregion (im.width o.src) (im.slicePitch o.src) then
    pure h
  else copyLoop im o (fun h => h.verify o.src) h

/-- `write_region`, on the host. -/
def writeRegion (genrand : ℕ → BitVec 32) (im : Images) (o : Operation) (h : Host) :
    Drawing Host := do
  let tmpBuffer ← initializeImage genrand h.tmpBuffer.size
  liftM (copyLoop im o Host.tmpBuffer { h with tmpBuffer := tmpBuffer })

/-- `verify_region`, for the bytes that are left. -/
def verifyRegion (im : Images) (device : Buffer (BitVec 8)) (verify : ℕ → Buffer (BitVec 8))
    (src : ℕ) (soffset sregion : Fin 3 → ℕ) (dst : ℕ) (doffset : Fin 3 → ℕ) :
    List ℕ → Traced Unit ℤ
  | [] => pure 0
  | k :: ks => do
    let byte ← device.read (im.regionIndex dst doffset sregion k)
    let expected ← (verify src).read (im.regionIndex src soffset sregion k)
    if byte ≠ expected then pure (-1)
    else verifyRegion im device verify src soffset sregion dst doffset ks

/-- What is in the temporary buffer at first, what the device reads into it after so many
operations, and what a mapped buffer has. -/
structure DeviceBytes where
  malloc : ℕ → BitVec 8
  read : ℕ → ℕ → BitVec 8
  mapped : ℕ → ℕ → BitVec 8

/-- `read_verify_region`; the device reads into the temporary buffer. -/
def readVerifyRegion (im : Images) (o : Operation) (h : Host) : Traced Unit ℤ :=
  verifyRegion im h.tmpBuffer h.verify o.src o.soffset o.sregion o.dst o.doffset
    (List.range (total o.sregion))

/-- `map_verify_region`. -/
def mapVerifyRegion (d : DeviceBytes) (im : Images) (h : Host) (src : ℕ) : Traced Unit ℤ :=
  let sizeBytes := sizeT (im.width src * im.height src * im.depth src)
  let soffset := ![0, 0, 0]
  let sregion := ![im.width src, im.height src, im.depth src]
  verifyRegion im ⟨sizeBytes, d.mapped src⟩ h.verify src soffset sregion src soffset
    (List.range (total sregion))

/-- The main loop, for so many more operations. -/
def operations (d : DeviceBytes) (genrand : ℕ → BitVec 32) (im : Images) :
    (tries : ℕ) → Host → Drawing (Host × ℤ)
  | 0, h => pure (h, 0)
  | tries + 1, h => do
    let o ← drawOperation genrand im
    let h := { h with log := h.log ++ [o] }
    if o.operation = 0 then
      let h ← copyRegion im o h
      operations d genrand im tries h
    else if o.operation = 1 then
      let h := { h with tmpBuffer := ⟨h.tmpBuffer.size, d.read h.log.length⟩ }
      let err ← readVerifyRegion im o h
      if err ≠ 0 then pure (h, err) else operations d genrand im tries h
    else if o.operation = 2 then
      let h ← writeRegion genrand im o h
      operations d genrand im tries h
    else operations d genrand im tries h

/-- The loop that verifies the buffers. -/
def verifyAll (d : DeviceBytes) (im : Images) (h : Host) : List ℕ → Traced Unit ℤ
  | [] => pure 0
  | i :: is => do
    let err ← mapVerifyRegion d im h i
    if err ≠ 0 then pure err else verifyAll d im h is

/-! ### The test -/

/-- The loop that draws the buffers, with the size of the largest one. -/
def drawImages (genrand : ℕ → BitVec 32) (dim maxMemAllocSize : ℕ) :
    List ℕ → Images → (maxSize : ℕ) → Drawing (Option (Images × ℕ))
  | [], im, maxSize => pure (some (im, maxSize))
  | i :: is, im, maxSize => do
    let drawn ← drawDimensions genrand dim maxMemAllocSize maxTries
    match drawn with
    | none => pure none
    | some (width, height, depth) =>
      let sizeBytes := sizeT (width * height * depth)
      drawImages genrand dim maxMemAllocSize is
        ⟨Function.update im.width i width, Function.update im.height i height,
          Function.update im.depth i depth⟩
        (if sizeBytes > maxSize then sizeBytes else maxSize)

/-- The loop that makes the buffers. -/
def initializeImages (genrand : ℕ → BitVec 32) (im : Images) :
    List ℕ → (ℕ → Buffer (BitVec 8)) → Drawing (ℕ → Buffer (BitVec 8))
  | [], verify => pure verify
  | i :: is, verify => do
    let sizeBytes := sizeT (im.width i * im.height i * im.depth i)
    let image ← initializeImage genrand sizeBytes
    initializeImages genrand im is (Function.update verify i image)

/-- `num_tries`. -/
def numTries : ℕ := 50

/-- The buffers, the operations, and what is returned. -/
structure Outcome where
  im : Images
  log : List Operation
  err : ℤ

/-- No buffers. -/
def noImages : Images := ⟨fun _ => 0, fun _ => 0, fun _ => 0⟩

/-- `test_bufferreadwriterect`. -/
def testBufferreadwriterect (c : CubeRoot) (genrand : ℕ → BitVec 32) (d : DeviceBytes)
    (maxMemAllocSize : BitVec 64) : Drawing Outcome := do
  if maxMemAllocSize.toNat = 0 then pure ⟨noImages, [], -1⟩
  else
    let dim := maxMemAllocDim c maxMemAllocSize.toNat
    let drawn ← drawImages genrand dim maxMemAllocSize.toNat (List.range totalImages) noImages 0
    match drawn with
    | none => pure ⟨noImages, [], -1⟩
    | some (im, maxSize) =>
      let verify ←
        initializeImages genrand im (List.range totalImages) fun _ => ⟨0, fun _ => 0⟩
      let (h, err) ← operations d genrand im numTries ⟨verify, ⟨maxSize, d.malloc⟩, []⟩
      if err ≠ 0 then pure ⟨im, h.log, err⟩
      else
        let err ← verifyAll d im h (List.range totalImages)
        pure ⟨im, h.log, err⟩

/-! ### What is drawn -/

section

variable {genrand : ℕ → BitVec 32} {im : Images} {low high i : ℕ}

/-- A drawn size is in the range, and less than its end if the range has a length. -/
structure Drawn (low high n : ℕ) : Prop where
  ge : low ≤ n
  le : n ≤ high
  lt : low < high → n < high

theorem draws_genrandInt32 : Draws (genrandInt32 genrand) fun _ => True :=
  fun _ => Spec.pure trivial

theorem draws_getRandomSizeT (h : low ≤ high) (hhigh : high < 2 ^ 64) :
    Draws (getRandomSizeT genrand low high) (Drawn low high) := by
  refine draws_genrandInt32.bind fun word0 _ => draws_genrandInt32.bind ?_
  intro word1 _
  rw [if_pos h]
  refine .pure ?_
  by_cases hrange : high - low ≠ 0
  · rw [if_pos hrange]
    have hmod := Nat.mod_lt (sizeSub (word0.toNat + word1.toNat * 2 ^ 32) low)
      (Nat.pos_of_ne_zero hrange)
    rw [sizeT_of_lt (by omega)]
    exact ⟨by omega, by omega, fun _ => by omega⟩
  · rw [if_neg hrange]
    exact ⟨le_rfl, h, fun hlt => by omega⟩

theorem sizeSub_lt (a b : ℕ) : sizeSub a b < 2 ^ 64 := Nat.mod_lt _ (by decide)

theorem draws_getRandomSizeT_sub {a b : ℕ} (ha : a < 2 ^ 64) (h : low + b ≤ a) :
    Draws (getRandomSizeT genrand low (sizeSub a b)) fun n => low ≤ n ∧ n + b ≤ a := by
  have hsub : sizeSub a b = a - b := sizeSub_of_le ha (by omega)
  refine (draws_getRandomSizeT (by omega) (sizeSub_lt a b)).imp fun n hn => ⟨hn.ge, ?_⟩
  have := hn.le
  omega

/-- The rectangles are inside of both buffers. -/
structure Operation.Inside (im : Images) (o : Operation) : Prop where
  src_lt : o.src < totalImages
  dst_lt : o.dst < totalImages
  source : im.InBounds o.src o.soffset o.sregion
  dest : im.InBounds o.dst o.doffset o.dregion
  same : o.dregion = o.sregion

/-- All buffers have sizes. -/
def Images.AllValid (im : Images) : Prop := ∀ i < totalImages, im.Valid i

/-- **What is drawn is inside of both buffers.** -/
theorem draws_drawOperation (him : im.AllValid) :
    Draws (drawOperation genrand im) (Operation.Inside im) := by
  have hcount : totalImages < 2 ^ 64 := by decide
  refine (draws_getRandomSizeT (Nat.zero_le _) hcount).bind ?_
  intro src hr
  refine (draws_getRandomSizeT (Nat.zero_le _) hcount).bind ?_
  intro dst hr'
  have hsrc : src < totalImages := hr.lt (by decide)
  have hdst : dst < totalImages := hr'.lt (by decide)
  have hs := him src hsrc
  have hd := him dst hdst
  obtain ⟨hsw, hsh, hsd⟩ := hs.dims_lt
  obtain ⟨hdw, hdh, hdd⟩ := hd.dims_lt
  have hmin {a b : ℕ} (ha : 1 ≤ a) (hb : 1 ≤ b) :
      1 ≤ (if a < b then a else b) ∧ (if a < b then a else b) ≤ a
        ∧ (if a < b then a else b) ≤ b := by
    split <;> omega
  have hw := hmin hs.width hd.width
  have hh := hmin hs.height hd.height
  have hz := hmin hs.depth hd.depth
  refine (draws_getRandomSizeT_sub (by omega) (by omega)).bind ?_
  intro mx hmx
  refine (draws_getRandomSizeT_sub (by omega) (by omega)).bind ?_
  intro my hmy
  refine (draws_getRandomSizeT_sub (by omega) (by omega)).bind ?_
  intro mz hmz
  refine (draws_getRandomSizeT_sub (by omega) (by omega)).bind ?_
  intro sw hrw
  refine (draws_getRandomSizeT_sub (by omega) (by omega)).bind ?_
  intro sh hrh
  refine (draws_getRandomSizeT_sub (by omega) (by omega)).bind ?_
  intro sd hrd
  refine (draws_getRandomSizeT_sub hsw (by omega)).bind ?_
  intro sx hsx
  refine (draws_getRandomSizeT_sub hsh (by omega)).bind ?_
  intro sy hsy
  refine (draws_getRandomSizeT_sub hsd (by omega)).bind ?_
  intro sz hsz
  refine (draws_getRandomSizeT_sub hdw (by omega)).bind ?_
  intro dx hdx
  refine (draws_getRandomSizeT_sub hdh (by omega)).bind ?_
  intro dy hdy
  refine (draws_getRandomSizeT_sub hdd (by omega)).bind ?_
  intro dz hdz
  refine (draws_getRandomSizeT (Nat.zero_le _) (by decide)).bind ?_
  intro operation _
  have hpos : ∀ k, 1 ≤ (![sw, sh, sd] : Fin 3 → ℕ) k := forall_dim hrw.1 hrh.1 hrd.1
  exact .pure ⟨hsrc, hdst, ⟨hpos, hsx.2, hsy.2, hsz.2⟩, ⟨hpos, hdx.2, hdy.2, hdz.2⟩, rfl⟩

theorem draws_drawDimensions {dim maxMemAllocSize : ℕ} (hdim : 1 ≤ dim) (hlt : dim < 2 ^ 64)
    (tries : ℕ) : Draws (drawDimensions genrand dim maxMemAllocSize tries) fun r =>
      ∀ width height depth, r = some (width, height, depth) →
        (1 ≤ width ∧ width ≤ dim) ∧ (1 ≤ height ∧ height ≤ dim) ∧ 1 ≤ depth ∧ depth ≤ dim := by
  induction tries with
  | zero => exact .pure fun width height depth hr => by cases hr
  | succ tries ih =>
    refine (draws_getRandomSizeT hdim hlt).bind ?_
    intro width hwidth
    refine (draws_getRandomSizeT hdim hlt).bind ?_
    intro height hheight
    refine (draws_getRandomSizeT hdim hlt).bind ?_
    intro depth hdepth
    split
    · exact .pure fun width height depth hr => by cases hr
    · split
      · exact ih
      · refine .pure ?_
        intro width' height' depth' hr
        cases hr
        exact ⟨⟨hwidth.ge, hwidth.le⟩, ⟨hheight.ge, hheight.le⟩, hdepth.ge, hdepth.le⟩

/-- The greatest dimension is that of a cube with a size. -/
theorem maxMemAllocDim_spec (c : CubeRoot) {n : ℕ} (hn : 1 ≤ n) (hlt : n < 2 ^ 64) :
    1 ≤ maxMemAllocDim c n ∧ maxMemAllocDim c n ^ 3 < 2 ^ 64 := by
  rw [maxMemAllocDim]
  split
  · rename_i hzero
    have hle : c.cbrt n + 2 ≤ 3 := by omega
    have hsmall : n < 3 ^ 3 := (c.lt n).trans_le (Nat.pow_le_pow_left hle 3)
    have hcube : n ^ 3 ≤ 27 ^ 3 := Nat.pow_le_pow_left (by omega) 3
    exact ⟨hn, hcube.trans_lt (by decide)⟩
  · rename_i hne
    have hle : c.cbrt n / 2 ≤ c.cbrt n - 1 := by omega
    exact ⟨Nat.pos_of_ne_zero hne, ((Nat.pow_le_pow_left hle 3).trans (c.le n)).trans_lt hlt⟩

/-- The number of bytes of a buffer. -/
def Images.size (im : Images) (i : ℕ) : ℕ := im.width i * im.height i * im.depth i

theorem Images.Valid.sizeT_size (h : im.Valid i) :
    sizeT (im.width i * im.height i * im.depth i) = im.size i := sizeT_of_lt h.size

/-- **The buffers that are drawn have sizes**, none of them more than the greatest one. -/
theorem draws_drawImages {dim maxMemAllocSize : ℕ} (hdim : 1 ≤ dim) (hcube : dim ^ 3 < 2 ^ 64)
    (is : List ℕ) {maxSize : ℕ}
    (hdone : ∀ j < totalImages, j ∉ is → im.Valid j ∧ im.size j ≤ maxSize) :
    Draws (drawImages genrand dim maxMemAllocSize is im maxSize) fun r =>
      ∀ im' maxSize', r = some (im', maxSize') →
        ∀ j < totalImages, im'.Valid j ∧ im'.size j ≤ maxSize' := by
  have hlt : dim < 2 ^ 64 := (Nat.le_self_pow (by decide) dim).trans_lt hcube
  induction is generalizing im maxSize with
  | nil =>
    refine .pure ?_
    intro im' maxSize' hr j hj
    cases hr
    exact hdone j hj List.not_mem_nil
  | cons i is ih =>
    refine (draws_drawDimensions hdim hlt maxTries).bind ?_
    intro drawn hdrawn
    cases drawn with
    | none => exact .pure fun im' maxSize' hr => by cases hr
    | some dims =>
      obtain ⟨width, height, depth⟩ := dims
      obtain ⟨⟨hw, hw'⟩, ⟨hh, hh'⟩, hd, hd'⟩ := hdrawn width height depth rfl
      have hsize : width * height * depth < 2 ^ 64 :=
        calc width * height * depth ≤ dim * dim * dim :=
              Nat.mul_le_mul (Nat.mul_le_mul hw' hh') hd'
          _ = dim ^ 3 := by ring
          _ < 2 ^ 64 := hcube
      refine ih ?_
      intro j hj hjis
      rcases eq_or_ne j i with rfl | hne
      · refine ⟨⟨?_, ?_, ?_, ?_⟩, ?_⟩
        · simpa using hw
        · simpa using hh
        · simpa using hd
        · simpa using hsize
        · simp only [Images.size, Function.update_self, sizeT_of_lt hsize]
          split <;> omega
      · obtain ⟨hvalid, hle⟩ := hdone j hj (by simp [hne, hjis])
        have hmax : maxSize ≤ (if sizeT (width * height * depth) > maxSize then
            sizeT (width * height * depth) else maxSize) := by
          split <;> omega
        refine ⟨⟨?_, ?_, ?_, ?_⟩, ?_⟩
        · simpa [hne] using hvalid.width
        · simpa [hne] using hvalid.height
        · simpa [hne] using hvalid.depth
        · simpa [hne] using hvalid.size
        · refine le_trans ?_ hmax
          simpa [Images.size, hne] using hle

/-! ### The host copies have room -/

/-- **A byte of a region has an index inside of the buffer.** -/
theorem Images.InBounds.regionIndex_lt (h : im.Valid i) {offset region : Fin 3 → ℕ}
    (hin : im.InBounds i offset region) {k : ℕ} (hk : k < total region) :
    im.regionIndex i offset region k < im.size i := by
  have hwidth := hin.width
  have hheight := hin.height
  have hdepth := hin.depth
  have hslice : region 0 * region 1 ≤ im.width i * im.height i :=
    Nat.mul_le_mul (by omega) (by omega)
  have htotal : total region = region 0 * region 1 * region 2 := by
    refine sizeT_of_lt (lt_of_le_of_lt ?_ h.size)
    exact Nat.mul_le_mul hslice (by omega)
  rw [htotal] at hk
  have hpos : 0 < region 0 * region 1 := Nat.mul_pos (hin.pos 0) (hin.pos 1)
  have hz : k / (region 0 * region 1) < region 2 := Nat.div_lt_of_lt_mul hk
  have hy : k % (region 0 * region 1) / region 0 < region 1 :=
    Nat.div_lt_of_lt_mul (Nat.mod_lt k hpos)
  have hx : k % (region 0 * region 1) % region 0 < region 0 := Nat.mod_lt _ (hin.pos 0)
  have hlt := hin.lt hx hy hz
  rw [← Nat.add_assoc] at hlt
  rw [Images.regionIndex, sizeT_of_lt (hslice.trans_lt h.slice_lt), sizeT_of_lt h.slice_lt,
    sizeT_of_lt (hlt.trans h.size)]
  exact hlt

/-- The copies have the sizes of the buffers, and the temporary buffer has room for each. -/
structure Host.Fits (im : Images) (h : Host) : Prop where
  verify : ∀ i < totalImages, (h.verify i).size = im.size i
  tmpBuffer : ∀ i < totalImages, im.size i ≤ h.tmpBuffer.size
  inside : ∀ o ∈ h.log, o.Inside im

variable {o : Operation} {h : Host}

theorem Host.Fits.update (hfits : h.Fits im) {dst : ℕ} {dest : Buffer (BitVec 8)}
    (hdst : dest.size = (h.verify dst).size) :
    Host.Fits im { h with verify := Function.update h.verify dst dest } where
  verify j hj := by
    rcases eq_or_ne j dst with rfl | hne
    · simp [hdst, hfits.verify j hj]
    · simp [hne, hfits.verify j hj]
  tmpBuffer := hfits.tmpBuffer
  inside := hfits.inside

/-- **A copied region is inside of both buffers.** -/
theorem spec_copyLoop (him : im.AllValid) (ho : o.Inside im) {source : Host → Buffer (BitVec 8)}
    (hsource : ∀ h : Host, h.Fits im → im.size o.src ≤ (source h).size) (hfits : h.Fits im) :
    Spec (copyLoop im o source h) [] (Host.Fits im) fun _ => False := by
  have hdest : im.InBounds o.dst o.doffset o.sregion := ho.same ▸ ho.dest
  refine Spec.forRange_silent (I := fun _ => Host.Fits im) (fun k h hk hfits => ?_) hfits
  have hs := ho.source.regionIndex_lt (him o.src ho.src_lt) hk
  have hd := hdest.regionIndex_lt (him o.dst ho.dst_lt) hk
  refine (Buffer.spec_read (hs.trans_le (hsource h hfits))).silent_bind ?_
  intro byte _
  refine (Buffer.spec_write (by rw [hfits.verify o.dst ho.dst_lt]; exact hd)).silent_bind
    fun dest hdest => ?_
  refine Spec.pure (hfits.update ?_)
  rw [hdest, Buffer.set_size]

theorem spec_copyRegion (him : im.AllValid) (ho : o.Inside im) (hfits : h.Fits im) :
    Spec (copyRegion im o h) [] (Host.Fits im) fun _ => False := by
  rw [copyRegion]
  split
  · exact .pure hfits
  · exact spec_copyLoop him ho (fun h hfits => (hfits.verify o.src ho.src_lt).ge) hfits

theorem draws_writeRegion (him : im.AllValid) (ho : o.Inside im) (hfits : h.Fits im) :
    Draws (writeRegion genrand im o h) (Host.Fits im) := by
  have hinit : Draws (initializeImage genrand h.tmpBuffer.size) fun b =>
      b.size = h.tmpBuffer.size := fun _ => Spec.pure rfl
  refine hinit.bind fun tmpBuffer hsize => .lift ?_
  refine spec_copyLoop him ho (fun h hfits => hfits.tmpBuffer o.src ho.src_lt) ?_
  exact ⟨hfits.verify, fun i hi => (hfits.tmpBuffer i hi).trans hsize.ge, hfits.inside⟩

/-- **A verified region is inside of both buffers.** -/
theorem spec_verifyRegion {device : Buffer (BitVec 8)} {verify : ℕ → Buffer (BitVec 8)}
    {src dst : ℕ} {soffset sregion doffset : Fin 3 → ℕ} (hsrc : im.Valid src) (hdst : im.Valid dst)
    (hs : im.InBounds src soffset sregion) (hd : im.InBounds dst doffset sregion)
    (hdevice : im.size dst ≤ device.size) (hverify : (verify src).size = im.size src) (ks : List ℕ)
    (hks : ∀ k ∈ ks, k < total sregion) :
    Spec (verifyRegion im device verify src soffset sregion dst doffset ks) [] (fun _ => True)
      fun _ => False := by
  induction ks with
  | nil => exact .pure trivial
  | cons k ks ih =>
    have hk := hks k List.mem_cons_self
    have hread := (hd.regionIndex_lt hdst hk).trans_le hdevice
    have hread' := (hs.regionIndex_lt hsrc hk).trans_eq hverify.symm
    refine (Buffer.spec_read hread).silent_bind ?_
    intro byte _
    refine (Buffer.spec_read hread').silent_bind ?_
    intro expected _
    split
    · exact .pure trivial
    · exact ih fun k hk => hks k (List.mem_cons_of_mem _ hk)

theorem spec_readVerifyRegion (him : im.AllValid) (ho : o.Inside im) (hfits : h.Fits im) :
    Spec (readVerifyRegion im o h) [] (fun _ => True) fun _ => False :=
  spec_verifyRegion (him o.src ho.src_lt) (him o.dst ho.dst_lt) ho.source (ho.same ▸ ho.dest)
    (hfits.tmpBuffer o.dst ho.dst_lt) (hfits.verify o.src ho.src_lt) _ fun _ hk =>
      List.mem_range.mp hk

theorem spec_mapVerifyRegion (d : DeviceBytes) (him : im.AllValid) (hfits : h.Fits im)
    (hi : i < totalImages) :
    Spec (mapVerifyRegion d im h i) [] (fun _ => True) fun _ => False := by
  have hvalid := him i hi
  have hin : im.InBounds i ![0, 0, 0] ![im.width i, im.height i, im.depth i] := by
    refine ⟨?_, (Nat.zero_add _).le, (Nat.zero_add _).le, (Nat.zero_add _).le⟩
    exact forall_dim hvalid.width hvalid.height hvalid.depth
  exact spec_verifyRegion hvalid hvalid hin hin hvalid.sizeT_size.ge (hfits.verify i hi) _
    fun _ hk => List.mem_range.mp hk

/-! ### The runs of the test -/

/-- **The main loop keeps the sizes**, and what it logs is inside of the buffers. -/
theorem draws_operations (d : DeviceBytes) (him : im.AllValid) (tries : ℕ) (hfits : h.Fits im) :
    Draws (operations d genrand im tries h) fun r => r.1.Fits im := by
  induction tries generalizing h with
  | zero => exact .pure hfits
  | succ tries ih =>
    refine (draws_drawOperation him).bind ?_
    intro o ho
    have hlogged : Host.Fits im { h with log := h.log ++ [o] } := by
      refine ⟨hfits.verify, hfits.tmpBuffer, ?_⟩
      intro o' ho'
      rcases List.mem_append.mp ho' with hmem | hmem
      · exact hfits.inside o' hmem
      · rw [List.mem_singleton.mp hmem]
        exact ho
    dsimp only
    split
    · exact (Draws.lift (spec_copyRegion him ho hlogged)).bind fun h hfits => ih hfits
    · split
      · have hread : Host.Fits im { h with
            log := h.log ++ [o]
            tmpBuffer := ⟨h.tmpBuffer.size, d.read (h.log ++ [o]).length⟩ } :=
          ⟨hlogged.verify, hlogged.tmpBuffer, hlogged.inside⟩
        refine (Draws.lift (spec_readVerifyRegion him ho hread)).bind ?_
        intro err _
        split
        · exact .pure hread
        · exact ih hread
      · split
        · exact (draws_writeRegion him ho hlogged).bind fun h hfits => ih hfits
        · exact ih hlogged

theorem spec_verifyAll (d : DeviceBytes) (him : im.AllValid) (hfits : h.Fits im) (is : List ℕ)
    (his : ∀ i ∈ is, i < totalImages) :
    Spec (verifyAll d im h is) [] (fun _ => True) fun _ => False := by
  induction is with
  | nil => exact .pure trivial
  | cons i is ih =>
    refine (spec_mapVerifyRegion d him hfits (his i List.mem_cons_self)).silent_bind ?_
    intro err _
    split
    · exact .pure trivial
    · exact ih fun i hi => his i (List.mem_cons_of_mem _ hi)

theorem draws_initializeImages (him : im.AllValid) (is : List ℕ) {verify : ℕ → Buffer (BitVec 8)}
    (hdone : ∀ j < totalImages, j ∉ is → (verify j).size = im.size j) :
    Draws (initializeImages genrand im is verify) fun verify =>
      ∀ j < totalImages, (verify j).size = im.size j := by
  induction is generalizing verify with
  | nil => exact .pure fun j hj => hdone j hj List.not_mem_nil
  | cons i is ih =>
    have hinit : Draws (initializeImage genrand (sizeT (im.width i * im.height i * im.depth i)))
        fun b => b.size = sizeT (im.width i * im.height i * im.depth i) := fun _ => Spec.pure rfl
    refine hinit.bind fun image himage => ih ?_
    intro j hj hjis
    rcases eq_or_ne j i with rfl | hne
    · rw [Function.update_self, himage, (him j hj).sizeT_size]
    · rw [Function.update_of_ne hne]
      exact hdone j hj (by simp [hne, hjis])

/-- What the test logs is inside of its buffers, which have sizes. -/
def Outcome.Inside (r : Outcome) : Prop :=
  ∀ o ∈ r.log, r.im.Valid o.src ∧ r.im.Valid o.dst ∧ o.Inside r.im

theorem Host.Fits.outcome (him : im.AllValid) (hfits : h.Fits im) (err : ℤ) :
    Outcome.Inside ⟨im, h.log, err⟩ := fun o ho =>
  ⟨him o.src (hfits.inside o ho).src_lt, him o.dst (hfits.inside o ho).dst_lt, hfits.inside o ho⟩

/-- **The test comes to its end**: no index leaves its buffer and no assertion fails. -/
theorem draws_test (c : CubeRoot) (d : DeviceBytes) (maxMemAllocSize : BitVec 64) :
    Draws (testBufferreadwriterect c genrand d maxMemAllocSize) Outcome.Inside := by
  have hempty : Outcome.Inside ⟨noImages, [], -1⟩ := fun o ho => absurd ho List.not_mem_nil
  rw [testBufferreadwriterect]
  split
  · exact .pure hempty
  · rename_i hne
    obtain ⟨hdim, hcube⟩ :=
      maxMemAllocDim_spec c (Nat.pos_of_ne_zero hne) maxMemAllocSize.isLt
    have hrange : ∀ j < totalImages, j ∉ List.range totalImages → False :=
      fun j hj hnot => hnot (List.mem_range.mpr hj)
    refine (draws_drawImages hdim hcube _ fun j hj hnot => (hrange j hj hnot).elim).bind
      fun drawn hdrawn => ?_
    cases drawn with
    | none => exact .pure hempty
    | some drawn =>
      obtain ⟨im, maxSize⟩ := drawn
      have hall := hdrawn im maxSize rfl
      have him : im.AllValid := fun j hj => (hall j hj).1
      refine (draws_initializeImages him _ fun j hj hnot => (hrange j hj hnot).elim).bind
        fun verify hverify => ?_
      have hfits : Host.Fits im ⟨verify, ⟨maxSize, d.malloc⟩, []⟩ :=
        ⟨hverify, fun j hj => (hall j hj).2, fun o ho => absurd ho List.not_mem_nil⟩
      refine (draws_operations d him numTries hfits).bind ?_
      intro r hr
      obtain ⟨h, err⟩ := r
      dsimp only
      split
      · exact .pure (hr.outcome him err)
      · have hverifyAll := spec_verifyAll d him hr (List.range totalImages) fun i hi =>
          List.mem_range.mp hi
        exact (Draws.lift hverifyAll).bind fun err _ => .pure (hr.outcome him err)

end

/-! ### The overlap test is exact -/

section

variable {im : Images} {i : ℕ} {soffset doffset region : Fin 3 → ℕ}

theorem boxesMeet_iff_of_one (hs : im.InBounds i soffset region) (hd : im.InBounds i doffset region)
    (hw : im.width i = 1) (hh : im.height i = 1) : BoxesMeet soffset doffset region ↔
      soffset 2 < doffset 2 + region 2 ∧ doffset 2 < soffset 2 + region 2 := by
  have hsw := hs.width
  have hsh := hs.height
  have hdw := hd.width
  have hdh := hd.height
  have h0 := hs.pos 0
  have h1 := hs.pos 1
  refine ⟨fun h => h 2, ?_⟩
  intro h
  apply forall_dim
  · exact ⟨by omega, by omega⟩
  · exact ⟨by omega, by omega⟩
  · exact h

/-- **The overlap test is exact for regions inside of the buffer**, but for slices of one byte: of
those it reports an overlap for all regions with more than one slice.  The regions of a run of the
test are inside of their buffers, and no index of the host leaves its buffer. -/
theorem checkOverlapRect_exact_iff (h : im.Valid i) (hs : im.InBounds i soffset region)
    (hd : im.InBounds i doffset region) (c : CubeRoot) (genrand : ℕ → BitVec 32) (d : DeviceBytes)
    (maxMemAllocSize : BitVec 64) (p : ℕ) :
    ((checkOverlapRect soffset doffset region (im.width i) (im.slicePitch i) = true ↔
        ∃ a, a ∈ im.addresses i soffset region ∧ a ∈ im.addresses i doffset region)
      ↔ ¬ (im.width i = 1 ∧ im.height i = 1 ∧ 1 < region 2 ∧
        ¬ (soffset 2 < doffset 2 + region 2 ∧ doffset 2 < soffset 2 + region 2))) ∧
    ∃ r, (testBufferreadwriterect c genrand d maxMemAllocSize p).result = .ok r ∧
      r.1.Inside := by
  refine ⟨?_, (draws_test c d maxMemAllocSize p).total⟩
  rw [checkOverlapRect_eq_true_iff h hs hd, ← boxesMeet_iff hs hd]
  by_cases hone : im.width i = 1 ∧ im.height i = 1
  · obtain ⟨hw, hh⟩ := hone
    rw [boxesMeet_iff_of_one hs hd hw hh]
    simp only [hw, hh, Nat.mul_one, true_and]
    tauto
  · have hne : im.width i * im.height i ≠ 1 := fun heq => hone
      ⟨Nat.eq_one_of_mul_eq_one_right heq, Nat.eq_one_of_mul_eq_one_left heq⟩
    simp only [hne, false_and, or_false, iff_self, true_iff]
    tauto

end

/-- The cube roots without an error. -/
def floorCubeRoot : CubeRoot where
  cbrt n := Nat.findGreatest (fun r => r ^ 3 ≤ n) n
  le n := by
    have hle : Nat.findGreatest (fun r => r ^ 3 ≤ n) n ^ 3 ≤ n :=
      Nat.findGreatest_spec (P := fun r => r ^ 3 ≤ n) (Nat.zero_le n) (Nat.zero_le n)
    exact (Nat.pow_le_pow_left (Nat.sub_le _ _) 3).trans hle
  lt n := by
    by_contra hnot
    have hle : (Nat.findGreatest (fun r => r ^ 3 ≤ n) n + 2) ^ 3 ≤ n := not_lt.mp hnot
    have hself := (Nat.le_self_pow (n := 3) (by decide) _).trans hle
    have := Nat.le_findGreatest (P := fun r => r ^ 3 ≤ n) hself hle
    omega

/-- Two buffers, one of them a column of bytes. -/
def someImages : Images where
  width i := if i = 0 then 4 else 1
  height i := if i = 0 then 3 else 1
  depth i := if i = 0 then 2 else 4

theorem checkOverlapRect_exact_iff_someImages :
    ((checkOverlapRect ![0, 0, 0] ![1, 1, 0] ![2, 2, 2] 4 12 = true ↔
        ∃ a, a ∈ someImages.addresses 0 ![0, 0, 0] ![2, 2, 2] ∧
          a ∈ someImages.addresses 0 ![1, 1, 0] ![2, 2, 2])
      ↔ ¬ (4 = 1 ∧ 3 = 1 ∧ 1 < 2 ∧ ¬ (0 < 0 + 2 ∧ 0 < 0 + 2))) ∧
    ∃ r, (testBufferreadwriterect floorCubeRoot (fun _ => 0)
        ⟨fun _ => 0, fun _ _ => 0, fun _ _ => 0⟩
        100 0).result = .ok r ∧ r.1.Inside :=
  checkOverlapRect_exact_iff
    (show someImages.Valid 0 from ⟨by decide, by decide, by decide, by decide⟩)
    ⟨by decide, by decide, by decide, by decide⟩ ⟨by decide, by decide, by decide, by decide⟩
    floorCubeRoot (fun _ => 0) ⟨fun _ => 0, fun _ _ => 0, fun _ _ => 0⟩ 100 0

/-- **An overlap is reported of two halves of a column.** -/
theorem not_checkOverlapRect_exact_column :
    someImages.Valid 1 ∧ someImages.InBounds 1 ![0, 0, 0] ![1, 1, 2] ∧
      someImages.InBounds 1 ![0, 0, 2] ![1, 1, 2] ∧
      ¬ (checkOverlapRect ![0, 0, 0] ![0, 0, 2] ![1, 1, 2] (someImages.width 1)
          (someImages.slicePitch 1) = true ↔
        ∃ a, a ∈ someImages.addresses 1 ![0, 0, 0] ![1, 1, 2] ∧
          a ∈ someImages.addresses 1 ![0, 0, 2] ![1, 1, 2]) := by
  have hs : someImages.InBounds 1 ![0, 0, 0] ![1, 1, 2] :=
    ⟨by decide, by decide, by decide, by decide⟩
  have hd : someImages.InBounds 1 ![0, 0, 2] ![1, 1, 2] :=
    ⟨by decide, by decide, by decide, by decide⟩
  refine ⟨⟨by decide, by decide, by decide, by decide⟩, hs, hd, ?_⟩
  intro h
  have hcheck : checkOverlapRect ![0, 0, 0] ![0, 0, 2] ![1, 1, 2] (someImages.width 1)
      (someImages.slicePitch 1) = true := by decide
  have hmeet := (boxesMeet_iff hs hd).mpr (h.mp hcheck)
  exact absurd (hmeet 2) (by decide)

end OpenCLCTS.Basic
