import Mathlib.Algebra.Ring.Nat

/-!
# Image formats and descriptors

The formats of `imageHelpers.cpp` and the `image_descriptor` that its functions are given.
-/

namespace OpenCLCTS.Images

abbrev Byte := BitVec 8

/-- Pixels have four channels, and literals in `Fin 4` are channel numbers. -/
instance neZero_four : NeZero 4 := ⟨Nat.succ_ne_zero 3⟩

/-- Literals in `Fin 3` are dimensions. -/
scoped instance neZero_three : NeZero 3 := ⟨Nat.succ_ne_zero 2⟩

/-- `cl_channel_order`. -/
inductive ChannelOrder
  | r | a | rx | rg | rgx | ra | rgb | rgbx | rgba | argb | abgr | bgra | intensity | luminance
  | depth | depthStencil | sRGB | sRGBx | sRGBA | sBGRA
  deriving DecidableEq, Repr

/-- `cl_channel_type`. -/
inductive ChannelType
  | snormInt8 | snormInt16 | unormInt8 | unormInt16 | unormInt24 | unormShort565 | unormShort555
  | unormInt101010 | unormInt101010_2 | unormInt2_101010 | signedInt8 | signedInt16 | signedInt32
  | unsignedInt8 | unsignedInt16 | unsignedInt32 | halfFloat | float | raw10 | raw12
  deriving DecidableEq, Repr

/-- `cl_image_format`. -/
structure ImageFormat where
  channelOrder : ChannelOrder
  channelDataType : ChannelType
  deriving DecidableEq

/-- `cl_mem_object_type`, of images. -/
inductive ImageType
  | image1D | image1DBuffer | image1DArray | image2D | image2DArray | image3D
  deriving DecidableEq, Repr

/-- `image_descriptor`. -/
structure ImageDescriptor where
  width : ℕ
  height : ℕ
  depth : ℕ
  rowPitch : ℕ
  slicePitch : ℕ
  arraySize : ℕ
  format : ImageFormat
  type : ImageType
  numMipLevels : ℕ

/-- `get_channel_data_type_size`. -/
def getChannelDataTypeSize : ChannelType → ℕ
  | .snormInt8 | .unormInt8 | .signedInt8 | .unsignedInt8 => 1
  | .snormInt16 | .unormInt16 | .signedInt16 | .unsignedInt16 | .halfFloat => 2
  | .signedInt32 | .unsignedInt32 => 4
  | .unormShort565 | .unormShort555 => 2
  | .unormInt101010 | .unormInt101010_2 | .unormInt2_101010 => 4
  | .float => 4
  | .unormInt24 | .raw10 | .raw12 => 0

/-- `get_channel_order_channel_count`. -/
def getChannelOrderChannelCount : ChannelOrder → ℕ
  | .r | .a | .rx | .intensity | .luminance | .depth | .depthStencil => 1
  | .rg | .ra | .rgx => 2
  | .rgb | .rgbx | .sRGB | .sRGBx => 3
  | .rgba | .argb | .bgra | .sRGBA | .sBGRA | .abgr => 4

/-- `get_format_channel_count`. -/
def getFormatChannelCount (format : ImageFormat) : ℕ :=
  getChannelOrderChannelCount format.channelOrder

/-- `get_pixel_size`. -/
def getPixelSize (format : ImageFormat) : ℕ :=
  match format.channelDataType with
  | .snormInt8 | .unormInt8 | .signedInt8 | .unsignedInt8 => getFormatChannelCount format
  | .snormInt16 | .unormInt16 | .signedInt16 | .unsignedInt16 | .halfFloat =>
    getFormatChannelCount format * 2
  | .signedInt32 | .unsignedInt32 => getFormatChannelCount format * 4
  | .unormShort565 | .unormShort555 => 2
  | .unormInt101010 => 4
  | .float => getFormatChannelCount format * 4
  | .unormInt101010_2 | .unormInt2_101010 => 4
  | .raw10 | .raw12 => 2
  | .unormInt24 => 0

end OpenCLCTS.Images
