import Mathlib.Data.Int.Notation
import Mathlib.Logic.Function.Basic
import OpenCLCTS.Harness.KernelNames

/-!
# The compilation cache

`create_single_kernel_helper_create_program`: with offline compilation, a kernel is read
from a file of the cache directory, and how this file comes to be there is what the
`--compilation-cache-mode` is for.

The directory is a map from names to contents.  The compiler is any function of its
command line and the `.cl` file, and the SPIR-V validator any function of the file.

In the mode `compile-if-absent` the source is saved if the file *without* the suffix
`.spv32` or `.spv64` is absent, and the compiler runs if the file *with* it is; and in the
mode `overwrite` the compiler does not run if the file is there.  `lawful_iff` says when
this makes a difference.
-/

namespace OpenCLCTS.Harness

/-- `CompilationCacheMode`. -/
inductive CompilationCacheMode
  | kCacheModeCompileIfAbsent | kCacheModeForceRead | kCacheModeOverwrite | kCacheModeDumpCl
  deriving DecidableEq

abbrev Directory := Text → Option Text

/-- What the compiler does: its return code, and what it writes to the output file. -/
structure Compiled where
  returnCode : ℤ
  output : Option Text

/-- The programs that are called, and the settings that do not change. -/
structure Environment where
  compiler : Text → Option Text → Compiled
  validator : Text → ℤ
  gCompilationProgram : Text
  gCompilationCachePath : Text
  gDisableSPIRVValidation : Bool

/-- What the harness asks a device for. -/
structure Device where
  addressBits : ℕ
  extensions : Text
  version : Text
  ilVersion : Text
  name : Text
  imageSupport : Bool

/-- A call of `create_single_kernel_helper_create_program`. -/
structure Call where
  kernelProgram : List Text
  buildOptions : Option Text
  compilationMode : CompilationMode
  cacheMode : CompilationCacheMode
  device : Device

/-- A run of the compiler: what the `.cl` file held, and what was written. -/
structure Invocation where
  source : Option Text
  output : Option Text

/-- What a call leaves behind: the directory, the run of the compiler if there was one, and
the file that the program was created from, if it was. -/
structure Outcome where
  dir : Directory
  invocation : Option Invocation
  loaded : Option Text

def Call.source (c : Call) : Text := getKernelContent c.kernelProgram

def Call.prefixName (c : Call) : Text := getUniqueFilenamePrefix c.kernelProgram c.buildOptions

section

variable (env : Environment) (c : Call)

def sourceFile : Text := sourceFilename env.gCompilationCachePath c.prefixName

def optionsFile : Text := optionsFilename env.gCompilationCachePath c.prefixName

/-- The file that the program is read from. -/
def outputFile : Text :=
  binaryFilename c.compilationMode c.device.addressBits env.gCompilationCachePath c.prefixName

/-- `should_save_kernel_source_to_disk`: `file_exist_on_disk` is asked for the name without
a suffix. -/
def shouldSaveKernelSourceToDisk (dir : Directory) : Bool :=
  if c.cacheMode = .kCacheModeCompileIfAbsent ∧ c.compilationMode ≠ .kOnline then
    (dir (env.gCompilationCachePath ++ slash ++ c.prefixName)).isNone
  else c.cacheMode = .kCacheModeDumpCl ∨
    c.cacheMode = .kCacheModeOverwrite ∧ c.compilationMode ≠ .kOnline

/-- `save_kernel_source_and_options_to_disk`. -/
def saveKernelSourceAndOptionsToDisk (dir : Directory) : Directory :=
  let dir := Function.update dir (sourceFile env c) (some c.source)
  match c.buildOptions with
  | none => dir
  | some options => Function.update dir (optionsFile env c) (some options)

def compilationModeStr : CompilationMode → Text
  | .kOnline => "online".toList
  | .kBinary => "binary".toList
  | .kSpirV => "spir-v".toList

def fileTypeStr : CompilationMode → Text
  | .kOnline => []
  | .kBinary => "binary".toList
  | .kSpirV => "SPIR-V".toList

/-- `get_cl_device_info_str`. -/
def clDeviceInfo : Text :=
  let quoted := fun t : Text => "=\"".toList ++ t ++ "\"\n".toList
  "# OpenCL device info affecting ".toList ++ fileTypeStr c.compilationMode
    ++ " offline compilation:\n".toList
    ++ "CL_DEVICE_ADDRESS_BITS=".toList ++ Nat.toDigits 10 c.device.addressBits ++ "\n".toList
    ++ "CL_DEVICE_EXTENSIONS".toList ++ quoted c.device.extensions
    ++ (if c.compilationMode = .kSpirV then
        "CL_DEVICE_IL_VERSION".toList ++ quoted c.device.ilVersion else [])
    ++ "CL_DEVICE_VERSION".toList ++ quoted c.device.version
    ++ "CL_DEVICE_IMAGE_SUPPORT=".toList ++ (if c.device.imageSupport then "1\n" else "0\n").toList
    ++ "CL_DEVICE_NAME".toList ++ quoted c.device.name

def clDeviceInfoFile : Text :=
  clDeviceInfoFilename env.gCompilationCachePath (crc32 (clDeviceInfo c))

/-- `write_cl_device_info`: a file of the right length is left alone. -/
def writeClDeviceInfo (dir : Directory) : Directory :=
  if ((dir (clDeviceInfoFile env c)).map List.length).getD 0 = (clDeviceInfo c).length then dir
  else Function.update dir (clDeviceInfoFile env c) (some (clDeviceInfo c))

/-- `get_offline_compilation_command`. -/
def offlineCompilationCommand : Text :=
  env.gCompilationProgram ++ " --mode=".toList ++ compilationModeStr c.compilationMode
    ++ " --source=".toList ++ sourceFile env c ++ " --output=".toList ++ outputFile env c
    ++ " --cl-device-info=".toList ++ clDeviceInfoFile env c
    ++ (if c.buildOptions.getD [] ≠ [] then " -- ".toList ++ c.buildOptions.getD [] else [])

/-- The compiler writes the output file, or does not. -/
def writeOutput (dir : Directory) : Option Text → Directory
  | none => dir
  | some output => Function.update dir (outputFile env c) (some output)

/-- `invoke_offline_compiler`. -/
def invokeOfflineCompiler (dir : Directory) : Directory × Invocation × ℤ :=
  let dir := writeClDeviceInfo env c dir
  let source := dir (sourceFile env c)
  let compiled := env.compiler (offlineCompilationCommand env c) source
  (writeOutput env c dir compiled.output, ⟨source, compiled.output⟩, compiled.returnCode)

/-- The end of `get_offline_compiler_output`: the file is validated and read. -/
def validated (content : Text) : Option Text :=
  if c.compilationMode = .kSpirV ∧ env.gDisableSPIRVValidation = false ∧ env.validator content ≠ 0
  then none else some content

/-- `get_offline_compiler_output`. -/
def getOfflineCompilerOutput (dir : Directory) : Outcome :=
  match dir (outputFile env c) with
  | some content => ⟨dir, none, validated env c content⟩
  | none =>
    if c.cacheMode = .kCacheModeForceRead then ⟨dir, none, none⟩
    else
      let (dir, invocation, error) := invokeOfflineCompiler env c dir
      if error ≠ 0 then ⟨dir, some invocation, none⟩
      else ⟨dir, some invocation, (dir (outputFile env c)).bind (validated env c)⟩

/-- `get_device_address_bits` accepts the device. -/
def AddressBitsOk : Prop := c.device.addressBits = 32 ∨ c.device.addressBits = 64

instance : Decidable (AddressBitsOk c) := inferInstanceAs (Decidable (_ ∨ _))

/-- `create_single_kernel_helper_create_program_offline`. -/
def createProgramOffline (dir : Directory) : Outcome :=
  if c.cacheMode = .kCacheModeDumpCl then ⟨dir, none, none⟩
  else if AddressBitsOk c then getOfflineCompilerOutput env c dir
  else ⟨dir, none, none⟩

/-- `create_single_kernel_helper_create_program`. -/
def createProgram (dir : Directory) : Outcome :=
  let dir := if shouldSaveKernelSourceToDisk env c dir then saveKernelSourceAndOptionsToDisk env c dir
    else dir
  if c.compilationMode = .kOnline then ⟨dir, none, none⟩ else createProgramOffline env c dir

end

/-- A sequence of calls: each with the directory that it finds. -/
def calls (env : Environment) : Directory → List Call → List (Directory × Call)
  | _, [] => []
  | dir, c :: cs => (dir, c) :: calls env (createProgram env c dir).dir cs

/-! ### What the modes promise -/

/-- What the documentation says about the offline modes. -/
structure Lawful (env : Environment) (dir : Directory) (c : Call) : Prop where
  /-- The compiler runs if the file is absent, on the current source. -/
  compile_if_absent : c.cacheMode = .kCacheModeCompileIfAbsent →
    ((createProgram env c dir).invocation.isSome = true ↔ dir (outputFile env c) = none) ∧
      ∀ i, (createProgram env c dir).invocation = some i → i.source = some c.source
  /-- The compiler does not run, and nothing is written. -/
  force_read : c.cacheMode = .kCacheModeForceRead →
    (createProgram env c dir).invocation = none ∧ (createProgram env c dir).dir = dir
  /-- What is loaded has been compiled now. -/
  overwrite : c.cacheMode = .kCacheModeOverwrite → ∀ program,
    (createProgram env c dir).loaded = some program →
      ∃ i, (createProgram env c dir).invocation = some i ∧ i.output = some program

/-- When the code keeps the promises. -/
def Keeps (env : Environment) (dir : Directory) (c : Call) : Prop :=
  (c.cacheMode = .kCacheModeCompileIfAbsent → dir (outputFile env c) ≠ none ∨ AddressBitsOk c ∧
    (dir (env.gCompilationCachePath ++ slash ++ c.prefixName) = none ∨
      dir (sourceFile env c) = some c.source)) ∧
  (c.cacheMode = .kCacheModeOverwrite → AddressBitsOk c →
    (dir (outputFile env c)).bind (validated env c) = none)

/-! ### What a call does -/

variable {env : Environment} {c : Call} {dir : Directory}

theorem save_outputFile :
    saveKernelSourceAndOptionsToDisk env c dir (outputFile env c) = dir (outputFile env c) := by
  have hsource : outputFile env c ≠ sourceFile env c := (sourceFilename_ne_binary _ _ _ _).symm
  have hoptions : outputFile env c ≠ optionsFile env c := (optionsFilename_ne_binary _ _ _ _).symm
  unfold saveKernelSourceAndOptionsToDisk
  cases c.buildOptions with
  | none => exact Function.update_of_ne hsource ..
  | some options => exact (Function.update_of_ne hoptions ..).trans (Function.update_of_ne hsource ..)

theorem save_sourceFile :
    saveKernelSourceAndOptionsToDisk env c dir (sourceFile env c) = some c.source := by
  have hoptions : sourceFile env c ≠ optionsFile env c := (optionsFilename_ne_source _ _).symm
  unfold saveKernelSourceAndOptionsToDisk
  cases c.buildOptions with
  | none => exact Function.update_self ..
  | some options => exact (Function.update_of_ne hoptions ..).trans (Function.update_self ..)

theorem writeClDeviceInfo_sourceFile :
    writeClDeviceInfo env c dir (sourceFile env c) = dir (sourceFile env c) := by
  unfold writeClDeviceInfo
  split
  · rfl
  · exact Function.update_of_ne (clDeviceInfoFilename_ne_source _ _ _).symm ..

/-- The directory when the offline part begins. -/
def afterSave (env : Environment) (c : Call) (dir : Directory) : Directory :=
  if shouldSaveKernelSourceToDisk env c dir then saveKernelSourceAndOptionsToDisk env c dir else dir

theorem afterSave_outputFile : afterSave env c dir (outputFile env c) = dir (outputFile env c) := by
  unfold afterSave
  split
  · exact save_outputFile
  · rfl

theorem createProgram_offline (hm : c.compilationMode ≠ .kOnline) :
    createProgram env c dir = createProgramOffline env c (afterSave env c dir) := if_neg hm

theorem createProgramOffline_of_some (hd : c.cacheMode ≠ .kCacheModeDumpCl) (ha : AddressBitsOk c)
    {content : Text} (h : dir (outputFile env c) = some content) :
    createProgramOffline env c dir = ⟨dir, none, validated env c content⟩ := by
  rw [createProgramOffline, if_neg hd, if_pos ha, getOfflineCompilerOutput, h]

theorem createProgram_outputFile (hm : c.compilationMode ≠ .kOnline)
    (hd : c.cacheMode ≠ .kCacheModeDumpCl) (ha : AddressBitsOk c) {content : Text}
    (h : dir (outputFile env c) = some content) :
    (createProgram env c dir).dir (outputFile env c) = some content := by
  have hsaved : afterSave env c dir (outputFile env c) = some content :=
    afterSave_outputFile.trans h
  rw [createProgram_offline hm, createProgramOffline_of_some hd ha hsaved]
  exact hsaved

theorem writeClDeviceInfo_outputFile (ha : AddressBitsOk c) :
    writeClDeviceInfo env c dir (outputFile env c) = dir (outputFile env c) := by
  unfold writeClDeviceInfo
  split
  · rfl
  · exact Function.update_of_ne (clDeviceInfoFilename_ne_binary _ ha _ _ _ _).symm ..

theorem writeOutput_outputFile (h : dir (outputFile env c) = none) (output : Option Text) :
    writeOutput env c dir output (outputFile env c) = output := by
  cases output with
  | none => exact h
  | some output => exact Function.update_self ..

theorem invoke_outputFile (ha : AddressBitsOk c) (h : dir (outputFile env c) = none) :
    (invokeOfflineCompiler env c dir).1 (outputFile env c)
      = (invokeOfflineCompiler env c dir).2.1.output :=
  writeOutput_outputFile ((writeClDeviceInfo_outputFile ha).trans h) _

theorem validated_eq_some {content program : Text} (h : validated env c content = some program) :
    content = program := by
  unfold validated at h
  split at h
  · cases h
  · exact Option.some.inj h

/-- The output file is not there: the compiler runs on what the `.cl` file holds, and what
is loaded is what it has written. -/
theorem createProgramOffline_of_none (hd : c.cacheMode ≠ .kCacheModeDumpCl) (ha : AddressBitsOk c)
    (hf : c.cacheMode ≠ .kCacheModeForceRead) (h : dir (outputFile env c) = none) :
    ∃ i, (createProgramOffline env c dir).invocation = some i ∧ i.source = dir (sourceFile env c) ∧
      ∀ program, (createProgramOffline env c dir).loaded = some program →
        i.output = some program := by
  have hinvoke : createProgramOffline env c dir
      = let (dir', invocation, error) := invokeOfflineCompiler env c dir
        if error ≠ 0 then ⟨dir', some invocation, none⟩
        else ⟨dir', some invocation, (dir' (outputFile env c)).bind (validated env c)⟩ := by
    rw [createProgramOffline, if_neg hd, if_pos ha, getOfflineCompilerOutput, h]
    exact if_neg hf
  have hsource : (invokeOfflineCompiler env c dir).2.1.source = dir (sourceFile env c) :=
    writeClDeviceInfo_sourceFile
  refine ⟨(invokeOfflineCompiler env c dir).2.1, ?_, hsource, fun program hp => ?_⟩
  · rw [hinvoke]
    show Outcome.invocation (if _ then _ else _) = _
    split <;> rfl
  · rw [hinvoke] at hp
    change Outcome.loaded (if _ then _ else _) = _ at hp
    split at hp
    · cases hp
    · obtain ⟨content, hcontent, hvalid⟩ := Option.bind_eq_some_iff.mp hp
      rw [← validated_eq_some hvalid, ← hcontent]
      exact (invoke_outputFile ha h).symm

/-! ### When the promises are kept -/

theorem createProgramOffline_of_bits (hd : c.cacheMode ≠ .kCacheModeDumpCl)
    (ha : ¬ AddressBitsOk c) : createProgramOffline env c dir = ⟨dir, none, none⟩ := by
  rw [createProgramOffline, if_neg hd, if_neg ha]

theorem compile_if_absent_iff (hm : c.compilationMode ≠ .kOnline)
    (hc : c.cacheMode = .kCacheModeCompileIfAbsent) :
    (((createProgram env c dir).invocation.isSome = true ↔ dir (outputFile env c) = none) ∧
      ∀ i, (createProgram env c dir).invocation = some i → i.source = some c.source) ↔
    dir (outputFile env c) ≠ none ∨ AddressBitsOk c ∧
      (dir (env.gCompilationCachePath ++ slash ++ c.prefixName) = none ∨
        dir (sourceFile env c) = some c.source) := by
  have hd : c.cacheMode ≠ .kCacheModeDumpCl := by rw [hc]; nofun
  have hf : c.cacheMode ≠ .kCacheModeForceRead := by rw [hc]; nofun
  rw [createProgram_offline hm]
  by_cases ha : AddressBitsOk c
  · cases ho : dir (outputFile env c) with
    | some content =>
      rw [createProgramOffline_of_some hd ha (afterSave_outputFile.trans ho)]
      exact iff_of_true ⟨iff_of_false nofun nofun, nofun⟩ (.inl nofun)
    | none =>
      obtain ⟨i, hi, hsource, _⟩ :=
        createProgramOffline_of_none hd ha hf (afterSave_outputFile.trans ho)
      have hseen : afterSave env c dir (sourceFile env c) = some c.source ↔
          dir (env.gCompilationCachePath ++ slash ++ c.prefixName) = none ∨
            dir (sourceFile env c) = some c.source := by
        have hsave : shouldSaveKernelSourceToDisk env c dir
            = (dir (env.gCompilationCachePath ++ slash ++ c.prefixName)).isNone := if_pos ⟨hc, hm⟩
        by_cases hnone : dir (env.gCompilationCachePath ++ slash ++ c.prefixName) = none
        · rw [afterSave, if_pos (hsave.trans (Option.isNone_iff_eq_none.mpr hnone))]
          exact iff_of_true save_sourceFile (.inl hnone)
        · rw [afterSave, if_neg (by rwa [hsave, Option.isNone_iff_eq_none])]
          exact ⟨.inr, fun h => h.resolve_left hnone⟩
      rw [hi, ← hseen]
      constructor
      · rintro ⟨_, hall⟩
        exact .inr ⟨ha, hsource ▸ hall i rfl⟩
      · intro h
        refine ⟨iff_of_true rfl rfl, ?_⟩
        rintro _ ⟨⟩
        rw [hsource]
        exact (h.resolve_left (fun hne => hne rfl)).2
  · rw [createProgramOffline_of_bits hd ha]
    constructor
    · rintro ⟨hiff, _⟩
      exact .inl fun hnone => nomatch hiff.mpr hnone
    · intro h
      have hne := h.resolve_right fun h => ha h.1
      exact ⟨iff_of_false nofun hne, nofun⟩

theorem overwrite_iff (hm : c.compilationMode ≠ .kOnline) (hc : c.cacheMode = .kCacheModeOverwrite) :
    (∀ program, (createProgram env c dir).loaded = some program →
      ∃ i, (createProgram env c dir).invocation = some i ∧ i.output = some program) ↔
    (AddressBitsOk c → (dir (outputFile env c)).bind (validated env c) = none) := by
  have hd : c.cacheMode ≠ .kCacheModeDumpCl := by rw [hc]; nofun
  have hf : c.cacheMode ≠ .kCacheModeForceRead := by rw [hc]; nofun
  rw [createProgram_offline hm]
  by_cases ha : AddressBitsOk c
  · cases ho : dir (outputFile env c) with
    | some content =>
      rw [createProgramOffline_of_some hd ha (afterSave_outputFile.trans ho)]
      constructor
      · intro hall _
        apply Option.eq_none_iff_forall_ne_some.mpr
        intro program hp
        obtain ⟨i, hi, _⟩ := hall program hp
        cases hi
      · intro hnone program hp
        cases (hnone ha).symm.trans hp
    | none =>
      obtain ⟨i, hi, _, hloaded⟩ :=
        createProgramOffline_of_none hd ha hf (afterSave_outputFile.trans ho)
      exact iff_of_true (fun program hp => ⟨i, hi, hloaded program hp⟩) fun _ => rfl
  · rw [createProgramOffline_of_bits hd ha]
    exact iff_of_true nofun fun h => absurd h ha

theorem force_read (hm : c.compilationMode ≠ .kOnline) (hc : c.cacheMode = .kCacheModeForceRead) :
    (createProgram env c dir).invocation = none ∧ (createProgram env c dir).dir = dir := by
  have hsave : afterSave env c dir = dir := by
    rw [afterSave, shouldSaveKernelSourceToDisk, hc]
    rfl
  rw [createProgram_offline hm, hsave, createProgramOffline, if_neg (by rw [hc]; nofun)]
  split
  · rw [getOfflineCompilerOutput]
    cases dir (outputFile env c) with
    | some content => exact ⟨rfl, rfl⟩
    | none =>
      show Outcome.invocation (if _ then _ else _) = _ ∧ Outcome.dir (if _ then _ else _) = _
      rw [if_pos hc]
      exact ⟨rfl, rfl⟩
  · exact ⟨rfl, rfl⟩

/-- **A call keeps the promises of its mode** exactly under this condition. -/
theorem lawful_iff_keeps (hm : c.compilationMode ≠ .kOnline) :
    Lawful env dir c ↔ Keeps env dir c := by
  constructor
  · rintro ⟨habsent, _, hoverwrite⟩
    exact ⟨fun hc => (compile_if_absent_iff hm hc).mp (habsent hc),
      fun hc => (overwrite_iff hm hc).mp (hoverwrite hc)⟩
  · rintro ⟨habsent, hoverwrite⟩
    exact ⟨fun hc => (compile_if_absent_iff hm hc).mpr (habsent hc), fun hc => force_read hm hc,
      fun hc => (overwrite_iff hm hc).mpr (hoverwrite hc)⟩

theorem mem_calls {cs : List Call} {p : Directory × Call} (h : p ∈ calls env dir cs) : p.2 ∈ cs := by
  induction cs generalizing dir with
  | nil => cases h
  | cons c cs ih =>
    rcases List.mem_cons.mp h with rfl | h
    · exact List.mem_cons_self
    · exact List.mem_cons_of_mem c (ih h)

/-- **In a sequence of calls** the promises are kept exactly by the calls that find the
directory as they need it. -/
theorem calls_lawful_iff (env : Environment) (dir : Directory) (cs : List Call)
    (hm : ∀ c ∈ cs, c.compilationMode ≠ .kOnline) {p : Directory × Call} (hp : p ∈ calls env dir cs) :
    Lawful env p.1 p.2 ↔ Keeps env p.1 p.2 := lawful_iff_keeps (hm p.2 (mem_calls hp))

/-- In the mode `overwrite` a file that is there is loaded. -/
theorem not_keeps_of_old (env : Environment) (dir : Directory) (c : Call) {content : Text}
    (hc : c.cacheMode = .kCacheModeOverwrite) (ha : AddressBitsOk c)
    (ho : dir (outputFile env c) = some content)
    (hv : validated env c content = some content) : ¬ Keeps env dir c := by
  rintro ⟨_, hoverwrite⟩
  have hnone := hoverwrite hc ha
  rw [ho, Option.bind_some, hv] at hnone
  cases hnone

/-- A compiler that copies the source. -/
def copying : Environment where
  compiler _ source := ⟨0, source⟩
  validator _ := 0
  gCompilationProgram := "cl_offline_compiler".toList
  gCompilationCachePath := ".".toList
  gDisableSPIRVValidation := false

/-- A kernel without build options. -/
def fooCall (mode : CompilationMode) (cacheMode : CompilationCacheMode) : Call where
  kernelProgram := ["__kernel void foo(__global int *x) ".toList]
  buildOptions := none
  compilationMode := mode
  cacheMode := cacheMode
  device := ⟨64, [], [], [], [], true⟩

/-- The output file of an earlier version is there. -/
def oldDirectory : Directory :=
  Function.update (fun _ => none) (outputFile copying (fooCall .kBinary .kCacheModeOverwrite))
    (some "old".toList)

/-- Three modes, one after the other. -/
def fooCalls : List Call := [.kCacheModeOverwrite, .kCacheModeCompileIfAbsent,
  .kCacheModeForceRead].map (fooCall .kBinary)

/-- The call in the mode `overwrite` leaves the old file there, which the next one may use. -/
theorem calls_lawful_iff_foo : ∃ dir₁ dir₂, calls copying oldDirectory fooCalls
      = [oldDirectory, dir₁, dir₂].zip fooCalls ∧
    ¬ Lawful copying oldDirectory (fooCall .kBinary .kCacheModeOverwrite) ∧
    Lawful copying dir₁ (fooCall .kBinary .kCacheModeCompileIfAbsent) ∧
    Lawful copying dir₂ (fooCall .kBinary .kCacheModeForceRead) := by
  have hm : ∀ c ∈ fooCalls, c.compilationMode ≠ .kOnline := by
    intro c hc
    obtain ⟨mode, -, rfl⟩ := List.mem_map.mp hc
    exact fun h : CompilationMode.kBinary = .kOnline => nomatch h
  have hiff := fun p => calls_lawful_iff copying oldDirectory fooCalls hm (p := p)
  have hold : oldDirectory (outputFile copying (fooCall .kBinary .kCacheModeOverwrite))
      = some "old".toList := Function.update_self ..
  obtain ⟨dir₁, hdir₁⟩ : ∃ dir₁, dir₁
    = (createProgram copying (fooCall .kBinary .kCacheModeOverwrite) oldDirectory).dir := ⟨_, rfl⟩
  obtain ⟨dir₂, hdir₂⟩ : ∃ dir₂, dir₂
    = (createProgram copying (fooCall .kBinary .kCacheModeCompileIfAbsent) dir₁).dir := ⟨_, rfl⟩
  have hcalls : calls copying oldDirectory fooCalls = [oldDirectory, dir₁, dir₂].zip fooCalls := by
    rw [hdir₂, hdir₁]
    rfl
  have hthere : dir₁ (outputFile copying (fooCall .kBinary .kCacheModeOverwrite))
      = some "old".toList := by
    rw [hdir₁]
    exact createProgram_outputFile (fun h : CompilationMode.kBinary = .kOnline => nomatch h)
      (fun h : CompilationCacheMode.kCacheModeOverwrite = .kCacheModeDumpCl => nomatch h)
      (.inr rfl) hold
  rw [hcalls] at hiff
  refine ⟨dir₁, dir₂, hcalls, fun h => ?_, ?_, ?_⟩
  · exact not_keeps_of_old copying oldDirectory _ rfl (.inr rfl) hold (if_neg fun h => nomatch h.1)
      ((hiff (oldDirectory, _) List.mem_cons_self).mp h)
  · refine (hiff (dir₁, _) (List.mem_cons_of_mem _ List.mem_cons_self)).mpr ⟨fun _ => .inl ?_, nofun⟩
    intro hnone
    cases hthere.symm.trans hnone
  · exact (hiff (dir₂, _) (List.mem_cons_of_mem _ (List.mem_cons_of_mem _
      List.mem_cons_self))).mpr ⟨nofun, nofun⟩

/-- The output file is there, and the mode is `overwrite`. -/
theorem not_calls_lawful : ¬ ∀ env dir cs, (∀ c ∈ cs, c.compilationMode ≠ .kOnline) →
    ∀ p ∈ calls env dir cs, Lawful env p.1 p.2 := by
  intro hall
  let c := fooCall .kBinary .kCacheModeOverwrite
  let dir : Directory := Function.update (fun _ => none) (outputFile copying c) (some "old".toList)
  have hm : c.compilationMode ≠ .kOnline := nofun
  have hlawful := hall copying dir [c] (fun c' hc => by rw [List.mem_singleton.mp hc]; exact hm)
    (dir, c) List.mem_cons_self
  exact not_keeps_of_old copying dir c rfl (.inr rfl) (Function.update_self ..)
    (if_neg fun h => nomatch h.1) ((lawful_iff_keeps hm).mp hlawful)

end OpenCLCTS.Harness
