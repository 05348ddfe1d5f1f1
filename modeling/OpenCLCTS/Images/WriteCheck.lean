import OpenCLCTS.Images.PackFloat

/-!
# The check of written pixels

The tests of `write_image` pack every source pixel on the host and compare it with the pixel
that the device has written.  Where the bytes differ, the errors of some types may be up to the
tolerance, but the errors that are computed are those of the packed pixel.

`write_check_iff`: the check is right if and only if the type has no tolerance, or the device
pixel is within the tolerance.
-/

namespace OpenCLCTS.Images

open Binary32 Fields Memory

/-- A source pixel. -/
inductive Pixel
  | float (v : Fin 4 → BitVec 32)
  | int (v : Fin 4 → Int32)
  | uint (v : Fin 4 → UInt32)

/-- `(float *)imagePtr`. -/
def Pixel.asFloats : Pixel → Fin 4 → BitVec 32
  | .float v => v
  | .int v => fun i => (v i).toBitVec
  | .uint v => fun i => (v i).toBitVec

section

variable (fns : FloatFunctions)

/-- `pack_image_pixel`, of the type of the input, into `resultBuffer`. -/
def packPixel (pixel : Pixel) (format : ImageFormat) (resultBuffer : ℕ → Byte) :
    Option (Pixel × (ℕ → Byte)) :=
  match pixel with
  | .float v => do
    let packed ← packImagePixelFloat fns v format resultBuffer 0
    return (.float packed.srcVector, packed.mem)
  | .int v =>
    let packed := packImagePixelInt v format resultBuffer 0
    some (.int packed.srcVector, packed.mem)
  | .uint v =>
    let packed := packImagePixelUint v format resultBuffer 0
    some (.uint packed.srcVector, packed.mem)

/-- `filter_undefined_bits`. -/
def filterUndefinedBits (format : ImageFormat) (resultPtr : ℕ → Byte) : ℕ → Byte :=
  if format.channelDataType = .unormShort555 then
    @store 2 (load resultPtr 2 0 &&& 0x7fff) resultPtr 0
  else resultPtr

/-- `filter_rounding_errors`: whether it is a failure. -/
def filterRoundingErrors (forceCorrectlyRoundedWrites : Bool) (format : ImageFormat)
    (errors : Fin 4 → Binary32) : Bool :=
  if forceCorrectlyRoundedWrites = false ∧ Listed format.channelDataType then
    if !aboveTolerance (errors 0) && !aboveTolerance (errors 1) && !aboveTolerance (errors 2)
        && !aboveTolerance (errors 3) then false
    else true
  else true

/-- The bytes of two pixels are the same. -/
def SamePixel (format : ImageFormat) (a b : ℕ → Byte) : Prop :=
  ∀ o < getPixelSize format, a o = b o

instance (format : ImageFormat) (a b : ℕ → Byte) : Decidable (SamePixel format a b) :=
  inferInstanceAs (Decidable (∀ o < getPixelSize format, a o = b o))

/-- The check of the tests for a pixel that is neither `sRGB` nor of floats or halves: whether
it counts an error. -/
def writeCheck (forceCorrectlyRoundedWrites : Bool) (pixel : Pixel) (format : ImageFormat)
    (resultBuffer resultPtr : ℕ → Byte) : Option Bool := do
  let (pixel, resultBuffer) ← packPixel fns pixel format resultBuffer
  let resultPtr := filterUndefinedBits format resultPtr
  if SamePixel format resultBuffer resultPtr then return false
  else
    let errors ← packImagePixelError fns pixel.asFloats format resultBuffer fun _ => .nan
    return filterRoundingErrors forceCorrectlyRoundedWrites format errors

end

/-! ### What is checked -/

/-- The types that `imageTestTypes` has for an input. -/
def testedTypes : Pixel → List ChannelType
  | .float _ => [.unormShort565, .unormShort555, .unormInt101010, .unormInt101010_2,
    .unormInt2_101010, .unormInt8, .snormInt8, .unormInt16, .snormInt16, .float, .halfFloat]
  | .int _ => [.signedInt8, .signedInt16, .signedInt32]
  | .uint _ => [.unsignedInt8, .unsignedInt16, .unsignedInt32]

/-- The formats of the tests for which this check is made. -/
structure Checked (pixel : Pixel) (format : ImageFormat) : Prop where
  tested : format.channelDataType ∈ testedTypes pixel
  sRGB : isSRGBAOrder format.channelOrder = false
  float : format.channelDataType ≠ .float
  half : format.channelDataType ≠ .halfFloat

/-- The pixel with its channels in the order of the format. -/
def Pixel.swizzled (format : ImageFormat) : Pixel → Pixel
  | .float v => .float (swizzleVectorForImage v format.channelOrder)
  | .int v => .int (swizzleVectorForImage v format.channelOrder)
  | .uint v => .uint (swizzleVectorForImage v format.channelOrder)

/-- The source of a channel is a number. -/
def Pixel.IsNumber : Pixel → ℕ → Prop
  | .float v, i => ofBits (v (Fin.ofNat 4 i)) ≠ .nan
  | .int _, _ => True
  | .uint _, _ => True

/-- Every channel of the pixel is within the tolerance of its exact value. -/
def Within (format : ImageFormat) (v : Fin 4 → BitVec 32) (mem : ℕ → Byte) : Prop :=
  ∀ i < pixelChannels format, ∀ y ∈ exactValue format v i,
    |(channelValue format mem i : ℚ) - y| ≤ 3 / 5

/-- **The check bounds the errors of the device.** -/
def BoundsDevice (fns : FloatFunctions) (pixel : Pixel) (format : ImageFormat)
    (resultBuffer resultPtr : ℕ → Byte) : Prop :=
  ∃ reference, packPixel fns pixel format resultBuffer
      = some (pixel.swizzled format, reference) ∧
    let device := filterUndefinedBits format resultPtr
    (writeCheck fns false pixel format resultBuffer resultPtr = some false ↔
      SamePixel format reference device ∨
        Listed format.channelDataType ∧ Within format (pixel.swizzled format).asFloats device) ∧
    ∀ i < pixelChannels format, (pixel.swizzled format).IsNumber i →
      2 ≤ |channelValue format device i - channelValue format reference i| →
        writeCheck fns false pixel format resultBuffer resultPtr = some true

/-! ### Types without a tolerance -/

variable {fns : FloatFunctions} {pixel source : Pixel} {format : ImageFormat}
  {resultBuffer resultPtr reference device a b : ℕ → Byte}

theorem channelValue_congr (h : SamePixel format a b) {i : ℕ} (hi : i < pixelChannels format) :
    channelValue format a i = channelValue format b i := by
  have hload (w : ℕ) (hw : i * w + w ≤ getPixelSize format) : load a w (i * w) = load b w (i * w) :=
    load_congr fun k hk => h _ (by omega)
  have hword (w : ℕ) (hw : w ≤ getPixelSize format) : load a w 0 = load b w 0 :=
    load_congr fun k hk => h _ (by omega)
  have heach (w n : ℕ) (hn : i < n) : i * w + w ≤ n * w := by
    rw [← Nat.succ_mul]
    exact Nat.mul_le_mul_right w hn
  have hbyte (n : ℕ) (hn : i < n) : i * 1 + 1 ≤ n := by omega
  obtain ⟨order, type⟩ := format
  cases type
  case unormShort565 | unormShort555 => simp only [channelValue, hword 2 le_rfl]
  case unormInt101010 | unormInt101010_2 | unormInt2_101010 =>
    simp only [channelValue, hword 4 le_rfl]
  case snormInt8 | unormInt8 | signedInt8 | unsignedInt8 =>
    simp only [channelValue, hload 1 (hbyte _ hi)]
  case snormInt16 | unormInt16 | signedInt16 | unsignedInt16 | halfFloat =>
    simp only [channelValue, hload 2 (heach 2 _ hi)]
  case signedInt32 | unsignedInt32 | float => simp only [channelValue, hload 4 (heach 4 _ hi)]
  case unormInt24 | raw10 | raw12 => rfl

theorem not_samePixel {i : ℕ} (hi : i < pixelChannels format)
    (hfar : 2 ≤ |channelValue format device i - channelValue format reference i|) :
    ¬ SamePixel format reference device := by
  intro hsame
  rw [channelValue_congr hsame hi, sub_self, abs_zero] at hfar
  omega

theorem exists_packPixel (fns : FloatFunctions) (h : Checked pixel format)
    (resultBuffer : ℕ → Byte) :
    ∃ reference, packPixel fns pixel format resultBuffer
      = some (pixel.swizzled format, reference) := by
  cases pixel with
  | int v => exact ⟨_, rfl⟩
  | uint v => exact ⟨_, rfl⟩
  | float v =>
    have htested := h.tested
    obtain ⟨order, type⟩ := format
    cases type
    case unormInt8 =>
      have hsrgb : isSRGBAOrder order = false := h.sRGB
      simp only [packPixel, packImagePixelFloat, hsrgb, Bool.false_eq_true, if_false]
      exact ⟨_, rfl⟩
    case unormInt24 | raw10 | raw12 => simp [testedTypes] at htested
    all_goals exact ⟨_, rfl⟩

theorem exists_errors (fns : FloatFunctions) (h : Checked pixel format) (v : Fin 4 → BitVec 32)
    (reference : ℕ → Byte) :
    ∃ errors, packImagePixelError fns v format reference (fun _ => .nan) = some errors := by
  have htested := h.tested
  obtain ⟨order, type⟩ := format
  cases type
  case unormInt24 | raw10 | raw12 => cases pixel <;> simp [testedTypes] at htested
  all_goals exact ⟨_, rfl⟩

theorem writeCheck_same
    (hpack : packPixel fns pixel format resultBuffer = some (source, reference))
    (h : SamePixel format reference (filterUndefinedBits format resultPtr)) (force : Bool) :
    writeCheck fns force pixel format resultBuffer resultPtr = some false := by
  rw [writeCheck, hpack]
  exact if_pos h

theorem writeCheck_differs
    (hpack : packPixel fns pixel format resultBuffer = some (source, reference))
    (h : ¬ SamePixel format reference (filterUndefinedBits format resultPtr)) (force : Bool)
    {errors : Fin 4 → Binary32}
    (herrors : packImagePixelError fns source.asFloats format reference (fun _ => .nan)
      = some errors) :
    writeCheck fns force pixel format resultBuffer resultPtr
      = some (filterRoundingErrors force format errors) := by
  rw [writeCheck, hpack]
  simp only [Option.bind_eq_bind, Option.bind_some, if_neg h, herrors]
  rfl

/-- **The check of a type without a tolerance is right.** -/
theorem boundsDevice_of_not_listed (h : Checked pixel format)
    (hlisted : ¬ Listed format.channelDataType) :
    BoundsDevice fns pixel format resultBuffer resultPtr := by
  obtain ⟨reference, hpack⟩ := exists_packPixel fns h resultBuffer
  obtain ⟨errors, herrors⟩ := exists_errors fns h (pixel.swizzled format).asFloats reference
  have hfailure : filterRoundingErrors false format errors = true :=
    if_neg fun hl => hlisted hl.2
  have hdiffers (hne : ¬ SamePixel format reference (filterUndefinedBits format resultPtr)) :
      writeCheck fns false pixel format resultBuffer resultPtr = some true := by
    rw [writeCheck_differs hpack hne false herrors, hfailure]
  refine ⟨reference, hpack, ⟨fun hok => ?_, ?_⟩, fun i hi _ hfar => ?_⟩
  · by_contra hne
    rw [hdiffers fun hsame => hne (.inl hsame)] at hok
    cases hok
  · rintro (hsame | ⟨hl, _⟩)
    · exact writeCheck_same hpack hsame false
    · exact absurd hl hlisted
  · exact hdiffers (not_samePixel hi hfar)

/-! ### Types with a tolerance -/

theorem exists_float (h : Checked pixel format) (hlisted : Listed format.channelDataType) :
    ∃ v, pixel = .float v := by
  have htested := h.tested
  cases pixel with
  | float v => exact ⟨v, rfl⟩
  | int v =>
    simp only [testedTypes, List.mem_cons, List.not_mem_nil, or_false] at htested
    rcases htested with ht | ht | ht <;> rw [ht] at hlisted <;> simp [Listed] at hlisted
  | uint v =>
    simp only [testedTypes, List.mem_cons, List.not_mem_nil, or_false] at htested
    rcases htested with ht | ht | ht <;> rw [ht] at hlisted <;> simp [Listed] at hlisted

/-- **The check of a type with a tolerance accepts every device pixel**, since the packed pixel
is within the tolerance. -/
theorem writeCheck_listed (fns : FloatFunctions) (h : Checked pixel format)
    (hlisted : Listed format.channelDataType) (resultBuffer resultPtr : ℕ → Byte) :
    ∃ reference, packPixel fns pixel format resultBuffer = some (pixel.swizzled format, reference) ∧
      writeCheck fns false pixel format resultBuffer resultPtr = some false ∧
      ∀ i < pixelChannels format, ∀ y ∈ exactValue format (pixel.swizzled format).asFloats i,
        |(channelValue format reference i : ℚ) - y| < 3 / 5 := by
  obtain ⟨v, rfl⟩ := exists_float h hlisted
  obtain ⟨reference, hpack⟩ := exists_packPixel fns h resultBuffer
  obtain ⟨packed, hp, he⟩ := Option.bind_eq_some_iff.mp hpack
  obtain ⟨_, rfl⟩ := Prod.mk.inj (Option.some.inj he)
  obtain ⟨⟨errors, herrors, hsmall⟩, hexact⟩ := packedNear hlisted h.sRGB hp
  rw [packImagePixelFloat_srcVector hp] at herrors hexact
  refine ⟨_, hpack, ?_, hexact⟩
  by_cases hsame : SamePixel format packed.mem (filterUndefinedBits format resultPtr)
  · exact writeCheck_same hpack hsame false
  · rw [writeCheck_differs hpack hsame false herrors, filterRoundingErrors,
      if_pos ⟨rfl, hlisted⟩, hsmall 0, hsmall 1, hsmall 2, hsmall 3]
    rfl

theorem exists_exactValue (format : ImageFormat) {v : Fin 4 → BitVec 32} {i : ℕ}
    (h : (Pixel.float v).IsNumber i) :
    ∃ y, exactValue format v i = some y := by
  cases hy : exactValue format v i with
  | none => exact absurd (unrounded_eq_none hy) h
  | some y => exact ⟨y, rfl⟩

/-- **The check of a type with a tolerance is right just for the pixels it should accept.** -/
theorem boundsDevice_iff_of_listed (fns : FloatFunctions) (h : Checked pixel format)
    (hlisted : Listed format.channelDataType) (resultBuffer resultPtr : ℕ → Byte) :
    BoundsDevice fns pixel format resultBuffer resultPtr ↔
      Within format (pixel.swizzled format).asFloats (filterUndefinedBits format resultPtr) := by
  obtain ⟨reference, hpack, haccepts, hexact⟩ :=
    writeCheck_listed fns h hlisted resultBuffer resultPtr
  constructor
  · rintro ⟨reference', hpack', hiff, -⟩
    obtain ⟨-, rfl⟩ := Prod.mk.inj (Option.some.inj (hpack.symm.trans hpack'))
    rcases hiff.mp haccepts with hsame | ⟨-, hwithin⟩
    · intro i hi y hy
      rw [← channelValue_congr hsame hi]
      exact (hexact i hi y hy).le
    · exact hwithin
  · intro hwithin
    refine ⟨reference, hpack, iff_of_true haccepts (.inr ⟨hlisted, hwithin⟩), ?_⟩
    intro i hi hnumber hfar
    obtain ⟨v, rfl⟩ := exists_float h hlisted
    obtain ⟨y, hy⟩ := exists_exactValue format hnumber
    have hdevice := abs_le.mp (hwithin i hi y hy)
    have hreference := abs_lt.mp (hexact i hi y hy)
    have hnear : |((channelValue format (filterUndefinedBits format resultPtr) i
        - channelValue format reference i : ℤ) : ℚ)| < 2 := by
      push_cast
      rw [abs_lt]
      constructor <;> linarith [hdevice.1, hdevice.2, hreference.1, hreference.2]
    have hlt : |channelValue format (filterUndefinedBits format resultPtr) i
        - channelValue format reference i| < 2 := by exact_mod_cast hnear
    omega

/-- **The check bounds the errors of the device if and only if the type has no tolerance or the
device pixel is within it.** -/
theorem write_check_iff (fns : FloatFunctions) (h : Checked pixel format)
    (resultBuffer resultPtr : ℕ → Byte) :
    BoundsDevice fns pixel format resultBuffer resultPtr ↔
      (Listed format.channelDataType →
        Within format (pixel.swizzled format).asFloats (filterUndefinedBits format resultPtr)) := by
  by_cases hlisted : Listed format.channelDataType
  · rw [boundsDevice_iff_of_listed fns h hlisted]
    exact ⟨fun hw _ => hw, fun hw => hw hlisted⟩
  · exact iff_of_true (boundsDevice_of_not_listed h hlisted) fun hl => absurd hl hlisted

/-! ### Two pixels of `CL_RGBA` and `CL_UNORM_INT8` -/

def rgba8 : ImageFormat := ⟨.rgba, .unormInt8⟩

theorem rgba8_checked (v : Fin 4 → BitVec 32) : Checked (.float v) rgba8 where
  tested := show rgba8.channelDataType ∈ [_, _, _, _, _, _, _, _, _, _, _] by decide
  sRGB := rfl
  float := by decide
  half := by decide

/-- White that is written as white. -/
theorem write_check_iff_white :
    BoundsDevice noFunctions (.float fun _ => 0x3f800000#32) rgba8 (fun _ => 0) fun _ => 255 := by
  refine (write_check_iff noFunctions (rgba8_checked _) _ _).mpr ?_
  intro _ i _ y hy
  have hvalue : channelValue rgba8 (filterUndefinedBits rgba8 fun _ => 255) i = 255 := by
    change ((load (fun _ => (255 : Byte)) 1 (i * 1)).toNat : ℤ) = 255
    simp [load]
  have hone : ofBits 0x3f800000#32 = .finite 1 := by decide +kernel
  have hexact : exactValue rgba8 (Pixel.swizzled rgba8 (.float fun _ => 0x3f800000#32)).asFloats i
      = unrounded 0 255 (ofBits 0x3f800000#32) := rfl
  rw [hexact, hone] at hy
  obtain rfl : max 0 (min 1 1) * ((255 : ℕ) : ℚ) = y := Option.some.inj hy
  rw [hvalue]
  norm_num

/-- Black that is written as white is accepted. -/
theorem not_boundsDevice_black :
    writeCheck noFunctions false (.float fun _ => 0#32) rgba8 (fun _ => 0) (fun _ => 255)
        = some false ∧
      ¬ BoundsDevice noFunctions (.float fun _ => 0#32) rgba8 (fun _ => 0) fun _ => 255 := by
  have hlisted : Listed rgba8.channelDataType := .inl rfl
  obtain ⟨_, _, haccepts, _⟩ := writeCheck_listed noFunctions (rgba8_checked fun _ => 0#32)
    hlisted (fun _ => 0) fun _ => 255
  refine ⟨haccepts, ?_⟩
  intro hbounds
  have hwithin := (boundsDevice_iff_of_listed noFunctions (rgba8_checked _) hlisted _ _).mp hbounds
  have hvalue : channelValue rgba8 (filterUndefinedBits rgba8 fun _ => 255) 0 = 255 := rfl
  have hzero : ofBits 0#32 = .finite 0 := by decide +kernel
  have hexact : exactValue rgba8 (Pixel.swizzled rgba8 (.float fun _ => 0#32)).asFloats 0
      = unrounded 0 255 (ofBits 0#32) := rfl
  rw [hzero] at hexact
  have hfar := hwithin 0 (by decide) (max 0 (min 1 0) * ((255 : ℕ) : ℚ)) hexact
  rw [hvalue] at hfar
  norm_num at hfar

end OpenCLCTS.Images
