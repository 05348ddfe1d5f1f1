import OpenCLCTS.Harness.UlpError
import OpenCLCTS.Images.IntegerPack

/-!
# Packing and its errors

`pack_image_pixel_error` is given what `pack_image_pixel` has stored for a vector of floats.

* `ulpErrorOfWord_iff`: when the error of a channel of `CL_FLOAT` is 0.
* `packError_iff`: the errors are as small as they should be, for all types but `CL_FLOAT`, whose
  channels are read as half-words.
-/

namespace OpenCLCTS.Images

open Binary32 Memory FloatFormat Fields Function

/-! ### Errors of floats -/

section

variable (ilogbZero : ℤ) (toDouble : Binary32 → BitVec 64) (overflow : Binary32)

/-- `Ulp_Error(ptr[i], srcVector[i])`: the half-word is converted to a float, the reference to a
double, and the error to a float.  If the exponents overflow the error is unknown. -/
def ulpErrorOfWord (p : BitVec 16) (x : Binary32) : Binary32 :=
  match Harness.ulpError ilogbZero binary64.round (ofInt p.toNat) (toDouble x) with
  | none => overflow
  | some (.finite e) => ofRat e
  | some error => error

/-- The functions with this one. -/
def withUlpError (fns : FloatFunctions) : FloatFunctions :=
  { fns with ulpError := ulpErrorOfWord ilogbZero toDouble overflow }

end

variable {ilogbZero : ℤ} {toDouble : Binary32 → BitVec 64} {q : ℚ} {p : BitVec 16}

theorem exists_unit (q : ℚ) : ∃ k : ℤ, Harness.unit Harness.ulpFormatFloat q = 2 ^ k ∧
    -149 ≤ k ∧ k ≤ binary32.ulp q := by
  refine ⟨_, rfl, ?_, ?_⟩
  · rw [show Harness.ulpFormatFloat.minExp = -125 from rfl,
      show Harness.ulpFormatFloat.mantDig = 24 from rfl]
    omega
  · rw [FloatFormat.ulp, Harness.referenceExp, show Harness.ulpFormatFloat.minExp = -125 from rfl,
      show Harness.ulpFormatFloat.mantDig = 24 from rfl, show binary32.minExp = -126 from rfl,
      show binary32.mantissaBits = 23 from rfl]
    split_ifs <;> omega

/-- **A half-word that is not the number is off by at least its last bit.** -/
theorem two_zpow_ulp_le_abs_sub (hq : binary32.Number q) (hne : (p.toNat : ℚ) ≠ q) :
    2 ^ binary32.ulp q ≤ |(p.toNat : ℚ) - q| := by
  obtain ⟨n, hn⟩ : ∃ n, n = nearest (q / 2 ^ binary32.ulp q) := ⟨_, rfl⟩
  have hmultiple : q = n * 2 ^ binary32.ulp q := by
    rw [hn]
    exact hq.round_eq.symm
  have hp : (p.toNat : ℚ) < 2 ^ 16 := by exact_mod_cast p.isLt
  by_cases h : binary32.ulp q ≤ 0
  · -- the half-word is a multiple of the last bit as well
    obtain ⟨m, hm, _⟩ := two_zpow_eq_mul h
    have hword : (p.toNat : ℚ) = ((p.toNat * m : ℤ) : ℚ) * 2 ^ binary32.ulp q := by
      push_cast
      rw [mul_assoc, hm, zpow_zero, mul_one]
    have hne' : (p.toNat * m : ℤ) ≠ n := by
      intro heq
      rw [heq, ← hmultiple] at hword
      exact hne hword
    calc (2 : ℚ) ^ binary32.ulp q
        ≤ |((p.toNat * m : ℤ) : ℚ) * 2 ^ binary32.ulp q - n * 2 ^ binary32.ulp q| :=
          two_zpow_le_abs_sub hne'
      _ = |(p.toNat : ℚ) - q| := by rw [← hword, ← hmultiple]
  · -- the number is larger than twice every half-word
    have hulp : binary32.ulp q = Int.log 2 |q| - 23 := by
      rw [FloatFormat.ulp, show binary32.minExp = -126 from rfl,
        show binary32.mantissaBits = 23 from rfl] at h ⊢
      omega
    have hq0 : q ≠ 0 := by
      rintro rfl
      rw [abs_zero, Int.log_zero_right] at hulp
      omega
    have hle : (2 : ℚ) ^ Int.log 2 |q| ≤ |q| := Int.zpow_log_le_self one_lt_two (abs_pos.mpr hq0)
    have hlarge : (2 : ℚ) ^ (24 : ℤ) ≤ 2 ^ Int.log 2 |q| :=
      zpow_le_zpow_right₀ one_le_two (by omega)
    have hhalf : (2 : ℚ) ^ binary32.ulp q ≤ 2 ^ Int.log 2 |q| / 2 := by
      rw [div_eq_mul_inv, ← zpow_sub_one₀ two_ne_zero]
      exact zpow_le_zpow_right₀ one_le_two (by omega)
    have htriangle := abs_sub_abs_le_abs_sub q (p.toNat : ℚ)
    rw [abs_sub_comm q, abs_of_nonneg (show (0 : ℚ) ≤ p.toNat from Nat.cast_nonneg _)] at htriangle
    norm_num at hlarge
    linarith

theorem ofRat_of_one_le {e : ℚ} (h : 1 ≤ |e|) : ¬ ∃ e', ofRat e = .finite e' ∧ |e'| ≤ 0 := by
  rintro ⟨e', he', h0⟩
  have hround : (2 : ℚ) ^ (0 : ℤ) ≤ |binary32.round e| :=
    le_abs_round (by decide) (by rwa [zpow_zero])
  rw [zpow_zero] at hround
  rw [Binary32.ofRat] at he'
  split at he'
  · obtain rfl := Binary32.finite.inj he'
    linarith
  · cases he'

theorem ofInt_word (p : BitVec 16) : ofInt p.toNat = .finite p.toNat := by
  have hlt : |((p.toNat : ℕ) : ℤ)| < 2 ^ 24 := by
    have := p.isLt
    rw [abs_of_nonneg (Int.natCast_nonneg _)]
    omega
  rw [ofInt_eq hlt, Int.cast_natCast]

/-- **When the error of a half-word is 0**, whatever an overflow leads to. -/
theorem ulpErrorOfWord_iff (hzero : ilogbZero = -2 ^ 31 ∨ ilogbZero = -(2 ^ 31 - 1))
    (hdouble : Harness.doubleValue (toDouble (.finite q)) = .finite q) (hq : binary32.Number q) :
    (∀ overflow, ∃ e, ulpErrorOfWord ilogbZero toDouble overflow p (.finite q) = .finite e ∧
        |e| ≤ 0) ↔ (p.toNat : ℚ) = q ∧ ¬ (q = 0 ∧ ilogbZero = -2 ^ 31) := by
  obtain ⟨hfinite, hvalue⟩ := Harness.doubleValue_eq_finite hdouble
  have herror := Harness.ulpErrorIn_eq Harness.narrow_float hzero binary64.round p.toNat hfinite
    hvalue.symm
  have hword : ∀ overflow, ulpErrorOfWord ilogbZero toDouble overflow p (.finite q) =
      if q = 0 ∧ ilogbZero = -2 ^ 31 then overflow else ofRat (binary64.round
        (binary64.round (p.toNat - q) / Harness.unit Harness.ulpFormatFloat q)) := by
    intro overflow
    rw [ulpErrorOfWord, ofInt_word, Harness.ulpError, herror]
    split_ifs <;> rfl
  simp only [hword]
  by_cases hoverflow : q = 0 ∧ ilogbZero = -2 ^ 31
  · simp only [hoverflow, and_self, if_true, not_true_eq_false, and_false, iff_false]
    intro h
    obtain ⟨_, he, _⟩ := h .nan
    cases he
  · simp only [hoverflow, if_false, not_false_eq_true, and_true]
    by_cases heq : (p.toNat : ℚ) = q
    · refine iff_of_true (fun _ => ⟨0, ?_, by rw [abs_zero]⟩) heq
      rw [heq, sub_self, FloatFormat.round_zero, zero_div, FloatFormat.round_zero]
      exact ofInt_eq (n := 0) (by decide)
    · refine iff_of_false (fun h => ofRat_of_one_le ?_ (h .nan)) heq
      obtain ⟨k, hk, hlo, hhi⟩ := exists_unit q
      have hpos := two_zpow_pos k
      have hdifference : 2 ^ k ≤ |binary64.round (p.toNat - q)| := by
        refine le_abs_round ?_ ((zpow_le_zpow_right₀ one_le_two hhi).trans
          (two_zpow_ulp_le_abs_sub hq heq))
        rw [show binary64.minExp - binary64.mantissaBits = -1074 from rfl]
        omega
      have hquotient : (2 : ℚ) ^ (0 : ℤ) ≤ |binary64.round (p.toNat - q) / 2 ^ k| := by
        rwa [abs_div, abs_of_pos hpos, le_div_iff₀ hpos, zpow_zero, one_mul]
      have hround := le_abs_round (f := binary64) (by decide) hquotient
      rwa [zpow_zero, ← hk] at hround

/-! ### Channels -/

/-- How large the errors of a type may be. -/
def tolerance : ChannelType → ℚ
  | .float | .signedInt8 | .signedInt16 | .signedInt32 | .unsignedInt8 | .unsignedInt16
  | .unsignedInt32 => 0
  | _ => 1 / 2

/-- The errors of all channels are numbers, and small enough. -/
def WithinTolerance (format : ImageFormat) (errors : Fin 4 → Binary32) : Prop :=
  ∀ i < pixelChannels format, ∃ e, errors (Fin.ofNat 4 i) = .finite e ∧
    |e| ≤ tolerance format.channelDataType

/-- The half-word that is read for channel `i` of a vector of floats. -/
def halfWord (v : Fin 4 → BitVec 32) (i : ℕ) : BitVec 16 :=
  (v (Fin.ofNat 4 (i / 2))).extractLsb' (8 * (i % 2 * 2)) (8 * 2)

variable {fns : FloatFunctions} {format : ImageFormat} {v : Fin 4 → BitVec 32}
  {errors : Fin 4 → Binary32} {mem : ℕ → Byte} {n : ℕ} {x : ℚ}

theorem sub_self_finite (q : ℚ) : (Binary32.finite q).sub (.finite q) = .finite 0 := by
  rw [Binary32.sub, Binary32.neg, Binary32.add, add_neg_cancel]
  exact ofInt_eq (n := 0) (by decide)

/-- **The error of a normalised channel.** -/
theorem error_of_normalized {bottom top n : ℤ} {rounded unrounded : Binary32}
    (h : Normalized bottom top rounded unrounded x n) (hbottom : -2 ^ 16 ≤ bottom)
    (htop : top ≤ 2 ^ 16) : ∃ e, (ofInt n).sub unrounded = .finite e ∧ |e| ≤ 1 / 2 := by
  obtain ⟨_, ⟨hlo, hhi⟩, u, rfl, hu, _⟩ := h
  have hsub : (ofInt n).sub (.finite u) = .finite (binary32.round (n - u)) := by
    rw [ofInt_eq (abs_lt.mpr ⟨by omega, by omega⟩), Binary32.sub, Binary32.neg, Binary32.add,
      ← sub_eq_add_neg,
      ofRat_of_small (hu.trans (by norm_num))]
  have hle : |binary32.round (n - u)| ≤ (2 : ℚ) ^ (-1 : ℤ) :=
    abs_round_le (by decide) (hu.trans (by norm_num))
  exact ⟨_, hsub, hle.trans (by norm_num)⟩

theorem error_unorm (fns : FloatFunctions) {w t : ℕ} {c : ℚ} {hi : ℤ} (hc : c = t)
    (ht : t < 2 ^ 16) (hw : t < 2 ^ w) (hhi : t ≤ hi) (q : ℚ) :
    ∃ e, (ofInt (castTo fns w 0 hi (normalize fns.undefined (.finite q) (.finite c))).toNat).sub
      (normalizeUnrounded (.finite q) (.finite c)) = .finite e ∧ |e| ≤ 1 / 2 := by
  obtain ⟨n, hn, hp⟩ := unorm_spec fns hc ht hw hhi (y := .finite q) rfl
  rw [hp]
  exact error_of_normalized hn (by omega) (by omega)

theorem error_snorm (fns : FloatFunctions) {w t : ℕ} {c c' : ℚ} {lo hi : ℤ} (hc : c = t)
    (hc' : c' = -t) (ht : t < 2 ^ 16) (hlo : lo ≤ -t) (hhi : t ≤ hi) (hw : 2 * t < 2 ^ w) (q : ℚ) :
    ∃ e, (ofInt (castTo fns w lo hi (normalizeSigned fns.undefined (.finite q) (.finite c')
      (.finite c))).toInt).sub (normalizeSignedUnrounded (.finite q) (.finite c') (.finite c))
        = .finite e ∧ |e| ≤ 1 / 2 := by
  obtain ⟨n, hn, hp⟩ := snorm_spec fns hc hc' ht hlo hhi hw (y := .finite q) rfl
  rw [hp]
  exact error_of_normalized hn (by omega) (by omega)

/-- **The error of a signed channel.** -/
theorem error_signed (fns : FloatFunctions) {w : ℕ} {t : ℤ} {lo hi : ℚ} {lo' hi' : ℤ} (ht : 0 ≤ t)
    (ht' : t < 2 ^ 22) (hlo : lo = (-t : ℤ)) (hhi : hi = t) (hlo' : lo' ≤ -t) (hhi' : t ≤ hi')
    (hw : 2 * t < 2 ^ w) (q : ℚ) :
    ∃ e, (ofInt (castTo fns w lo' hi' (convertInt fns.undefined (.finite q) (.finite lo) (.finite hi)
      t)).toInt).sub (convertInt fns.undefined (.finite q) (.finite lo) (.finite hi) t)
        = .finite e ∧ |e| ≤ 0 := by
  rw [convertInt_eq ht ht' hlo hhi, castTo_of_mem (by omega) (by omega),
    toInt_ofInt_of_mem (by omega) (by omega), ofInt_eq (abs_lt.mpr ⟨by omega, by omega⟩),
    sub_self_finite]
  exact ⟨0, rfl, by rw [abs_zero]⟩

theorem error_integer {m n : ℤ} (h : m = n) : ∃ e, ofInt (m - n) = .finite e ∧ |e| ≤ 0 := by
  rw [h, sub_self]
  exact ⟨0, ofInt_eq (n := 0) (by decide), by rw [abs_zero]⟩

/-! ### Pixels -/

/-- The formats that both functions handle, without those of half-words and of the sRGB orders. -/
def Measured (format : ImageFormat) : Prop :=
  isSRGBAOrder format.channelOrder = false ∧
    format.channelDataType ∉ [.halfFloat, .unormInt24, .raw10, .raw12]

instance (format : ImageFormat) : Decidable (Measured format) :=
  inferInstanceAs (Decidable (_ ∧ _))

/-- The errors of a pixel are computed, and they are small enough. -/
def Agrees (fns : FloatFunctions) (v : Fin 4 → BitVec 32) (format : ImageFormat) (mem : ℕ → Byte)
    (errors : Fin 4 → Binary32) : Prop :=
  ∃ errors', packImagePixelError fns v format mem errors = some errors' ∧
    WithinTolerance format errors'

theorem agrees_iff {error : ℕ → Binary32}
    (herror : packImagePixelError fns v format mem errors = some (readEach n error errors))
    (hcount : pixelChannels format = n) (hn : n ≤ 4) :
    Agrees fns v format mem errors ↔
      ∀ i < n, ∃ e, error i = .finite e ∧ |e| ≤ tolerance format.channelDataType := by
  have happly : ∀ i < n, readEach n error errors (Fin.ofNat 4 i) = error i := by
    intro i hi
    have hval : (Fin.ofNat 4 i).val = i := Nat.mod_eq_of_lt (by omega)
    rw [readEach_apply (by rwa [hval]) hn, hval]
  constructor
  · rintro ⟨errors', herrors', hwithin⟩ i hi
    obtain rfl := Option.some.inj (herror.symm.trans herrors')
    rw [← happly i hi]
    exact hwithin i (hcount ▸ hi)
  · intro h
    refine ⟨_, herror, ?_⟩
    intro i hi
    rw [hcount] at hi
    rw [happly i hi]
    exact h i hi

/-- All channels are numbers. -/
def Numbers (v : Fin 4 → BitVec 32) : Prop := ∀ c, ∃ q, ofBits (v c) = .finite q

theorem agrees_each {w : ℕ} (pack : Binary32 → BitVec (8 * w))
    (error : BitVec (8 * w) → Binary32 → Binary32)
    (herror : ∀ mem, packImagePixelError fns v format mem errors
      = some (readEach (getFormatChannelCount format)
        (fun i => error (load mem w (i * w)) (ofBits (v (Fin.ofNat 4 i)))) errors))
    (hcount : pixelChannels format = getFormatChannelCount format) (hv : Numbers v)
    (hsmall : ∀ q, binary32.Number q → ∃ e, error (pack (.finite q)) (.finite q) = .finite e ∧
      |e| ≤ tolerance format.channelDataType) :
    Agrees fns v format
      (storeEach (getFormatChannelCount format) (fun i => pack (ofBits (v (Fin.ofNat 4 i))))
        mem 0) errors := by
  refine (agrees_iff (herror _) hcount (getChannelOrderChannelCount_le _)).mpr ?_
  intro i hi
  obtain ⟨q, hq⟩ := hv (Fin.ofNat 4 i)
  rw [load_each hi, hq]
  exact hsmall q (number_of_ofBits hq)

theorem agrees_word (fs : List Field) {fns' : FloatFunctions} {w : ℕ} (hfs : fs.Pairwise Above)
    (hin : ∀ f ∈ fs, f.shift + f.bits ≤ 8 * w ∧ f.bits ≤ 16) (hlen : fs.length ≤ 4)
    (herror : ∀ mem, packImagePixelError fns v format mem errors
      = some (readEach fs.length (fun i => match fs[i]? with
        | some f => (ofInt (f.get (load mem w 0).toNat)).sub
            (normalizeUnrounded (ofBits (v (Fin.ofNat 4 i))) (.finite (top f)))
        | none => errors (Fin.ofNat 4 i)) errors))
    (hcount : pixelChannels format = fs.length)
    (htolerance : tolerance format.channelDataType = 1 / 2) (hv : Numbers v) :
    Agrees fns v format (store (BitVec.ofNat (8 * w) (putFields (fun f i =>
      (castTo fns' (8 * w) 0 (2 ^ (8 * w) - 1)
        (normalize fns'.undefined (ofBits (v (Fin.ofNat 4 i))) (.finite (top f)))).toNat) fs 0))
          mem 0) errors := by
  refine (agrees_iff (herror _) hcount hlen).mpr ?_
  intro i hi
  have hf : fs[i]? = some (fs.get ⟨i, hi⟩) := List.getElem?_eq_getElem hi
  obtain ⟨f, hf⟩ : ∃ f, fs[i]? = some f := ⟨_, hf⟩
  obtain ⟨hfit, hbits⟩ := hin f (List.mem_of_getElem? hf)
  obtain ⟨q, hq⟩ := hv (Fin.ofNat 4 i)
  obtain ⟨m, hm, hp⟩ := unorm_spec fns' rfl (top_lt f hbits)
    (top_lt f (show f.bits ≤ 8 * w by omega)) (top_le f (show f.bits ≤ 8 * w by omega))
    (y := ofBits (v (Fin.ofNat 4 i))) (by rw [hq]; rfl)
  have hmem := hm.mem
  have hlt : (top f : ℤ) < 2 ^ f.bits := by exact_mod_cast top_lt f le_rfl
  -- the field has room for its number
  have hword := get_word fns' hfs v mem hf hfit
  rw [Nat.mod_eq_of_lt (by zify; omega)] at hword
  simp only [hf, htolerance]
  rw [hword, hp]
  exact error_of_normalized hm (by omega) (by
    have := top_lt f hbits
    omega)

theorem agrees_of_listed (hlisted : Listed format.channelDataType)
    (hsrgb : isSRGBAOrder format.channelOrder = false) {packed : Packed (BitVec 32)}
    (hp : packImagePixelFloat fns v format mem 0 = some packed) (hv : Numbers packed.srcVector)
    (overflow : Binary32) :
    Agrees (withUlpError ilogbZero toDouble overflow fns) packed.srcVector format packed.mem
      errors := by
  obtain ⟨order, type⟩ := format
  rw [packImagePixelFloat] at hp
  cases type
  case unormInt8 =>
    dsimp only at hp hsrgb
    rw [hsrgb, if_neg Bool.false_ne_true] at hp
    obtain rfl := Option.some.inj hp
    refine agrees_each (w := 1)
      (fun x => castTo fns 8 0 255 (normalize fns.undefined x (.finite 255)))
      (fun p x => (ofInt p.toNat).sub (normalizeUnrounded x (.finite 255)))
      (fun _ => rfl) rfl hv fun q _ => ?_
    exact error_unorm fns (show (255 : ℚ) = (255 : ℕ) by norm_num) (by norm_num)
      (show 255 < 2 ^ 8 by norm_num) (by norm_num) q
  case unormInt16 =>
    obtain rfl := Option.some.inj hp
    refine agrees_each (w := 2)
      (fun x => castTo fns 16 0 65535 (normalize fns.undefined x (.finite 65535)))
      (fun p x => (ofInt p.toNat).sub (normalizeUnrounded x (.finite 65535)))
      (fun _ => rfl) rfl hv fun q _ => ?_
    exact error_unorm fns (show (65535 : ℚ) = (65535 : ℕ) by norm_num) (by norm_num)
      (show 65535 < 2 ^ 16 by norm_num) (by norm_num) q
  case snormInt8 =>
    obtain rfl := Option.some.inj hp
    refine agrees_each (w := 1)
      (fun x => castTo fns 8 (-128) 127
        (normalizeSigned fns.undefined x (.finite (-127)) (.finite 127)))
      (fun p x => (ofInt p.toInt).sub (normalizeSignedUnrounded x (.finite (-127)) (.finite 127)))
      (fun _ => rfl) rfl hv fun q _ => ?_
    exact error_snorm fns (show (127 : ℚ) = (127 : ℕ) by norm_num) (by norm_num) (by norm_num)
      (by norm_num) (by norm_num) (by norm_num) q
  case snormInt16 =>
    obtain rfl := Option.some.inj hp
    refine agrees_each (w := 2)
      (fun x => castTo fns 16 (-32768) 32767
        (normalizeSigned fns.undefined x (.finite (-32767)) (.finite 32767)))
      (fun p x => (ofInt p.toInt).sub
        (normalizeSignedUnrounded x (.finite (-32767)) (.finite 32767)))
      (fun _ => rfl) rfl hv fun q _ => ?_
    exact error_snorm fns (show (32767 : ℚ) = (32767 : ℕ) by norm_num) (by norm_num)
      (by norm_num) (by norm_num) (by norm_num) (by norm_num) q
  case unormShort565 | unormShort555 | unormInt101010 | unormInt101010_2 | unormInt2_101010 =>
    obtain rfl := Option.some.inj hp
    exact agrees_word _ (by decide) (by decide) (by decide) (fun _ => rfl) rfl rfl hv
  all_goals simp [Listed] at hlisted

theorem agrees_of_integerLimits {limits : ℤ × ℤ}
    (htype : integerLimits format.channelDataType = some limits) {packed : Packed (BitVec 32)}
    (hp : packImagePixelFloat fns v format mem 0 = some packed) (hv : Numbers packed.srcVector)
    (overflow : Binary32) :
    Agrees (withUlpError ilogbZero toDouble overflow fns) packed.srcVector format packed.mem
      errors := by
  obtain ⟨order, type⟩ := format
  rw [packImagePixelFloat] at hp
  cases type
  case signedInt8 =>
    obtain rfl := Option.some.inj hp
    refine agrees_each (w := 1)
      (fun x => castTo fns 8 (-128) 127
        (convertInt fns.undefined x (.finite (-127)) (.finite 127) 127))
      (fun p x => (ofInt p.toInt).sub
        (convertInt fns.undefined x (.finite (-127)) (.finite 127) 127))
      (fun _ => rfl) rfl hv fun q _ => ?_
    exact error_signed fns (by norm_num) (by norm_num) (by norm_num) (by norm_num) (by norm_num)
      (by norm_num) (by norm_num) q
  case signedInt16 =>
    obtain rfl := Option.some.inj hp
    refine agrees_each (w := 2)
      (fun x => castTo fns 16 (-32768) 32767
        (convertInt fns.undefined x (.finite (-32767)) (.finite 32767) 32767))
      (fun p x => (ofInt p.toInt).sub
        (convertInt fns.undefined x (.finite (-32767)) (.finite 32767) 32767))
      (fun _ => rfl) rfl hv fun q _ => ?_
    exact error_signed fns (by norm_num) (by norm_num) (by norm_num) (by norm_num) (by norm_num)
      (by norm_num) (by norm_num) q
  case signedInt32 =>
    obtain rfl := Option.some.inj hp
    refine agrees_each (w := 4) (fun x => BitVec.ofInt 32 (roundToEven fns.undefined x))
      (fun p x => ofInt (p.toInt - roundToEven fns.undefined x)) (fun _ => rfl) rfl hv
      fun q hnumber => ?_
    have hstored : (BitVec.ofInt 32 (roundToEven fns.undefined (.finite q))).toInt
        = roundToEven fns.undefined (.finite q) := by
      rw [roundToEven_eq _ hnumber]
      exact toInt_ofInt_of_mem (by omega) (by omega)
    exact error_integer hstored
  case unsignedInt8 =>
    obtain rfl := Option.some.inj hp
    refine agrees_each (w := 1)
      (fun x => BitVec.ofInt 8 (convertUint fns.undefined x (.finite 255) 255))
      (fun p x => ofInt (p.toNat - convertUint fns.undefined x (.finite 255) 255))
      (fun _ => rfl) rfl hv fun q hnumber => ?_
    exact error_integer (toNat_convertUint fns.undefined (w := 8) (t := 255) hnumber
      (show (0 : ℚ) ≤ 255 by norm_num) (by norm_num) (by norm_num))
  case unsignedInt16 =>
    obtain rfl := Option.some.inj hp
    refine agrees_each (w := 2)
      (fun x => BitVec.ofInt 16 (convertUint fns.undefined x (.finite 32767) 65535))
      (fun p x => ofInt (p.toNat - convertUint fns.undefined x (.finite 32767) 65535))
      (fun _ => rfl) rfl hv fun q hnumber => ?_
    exact error_integer (toNat_convertUint fns.undefined (w := 16) (t := 65535) hnumber
      (show (0 : ℚ) ≤ 32767 by norm_num) (by norm_num) (by norm_num))
  case unsignedInt32 =>
    obtain rfl := Option.some.inj hp
    refine agrees_each (w := 4)
      (fun x => BitVec.ofInt 32 (convertUint fns.undefined x (.finite 4294967040) 4294967295))
      (fun p x => ofInt (p.toNat - convertUint fns.undefined x (.finite 4294967040) 4294967295))
      (fun _ => rfl) rfl hv fun q hnumber => ?_
    exact error_integer (toNat_convertUint fns.undefined (w := 32) (t := 4294967295) hnumber
      (show (0 : ℚ) ≤ 4294967040 by norm_num) (by norm_num) (by norm_num))
  all_goals cases htype

/-- **The errors of what was packed**, for all types but `CL_FLOAT`. -/
theorem agrees_of_pack (hmeasured : Measured format) (hfloat : format.channelDataType ≠ .float)
    {packed : Packed (BitVec 32)} (hp : packImagePixelFloat fns v format mem 0 = some packed)
    (hv : Numbers packed.srcVector) (overflow : Binary32) :
    Agrees (withUlpError ilogbZero toDouble overflow fns) packed.srcVector format packed.mem
      errors := by
  obtain ⟨hsrgb, htype⟩ := hmeasured
  by_cases hlisted : Listed format.channelDataType
  · exact agrees_of_listed hlisted hsrgb hp hv overflow
  · have hinteger : ∃ limits, integerLimits format.channelDataType = some limits := by
      revert htype hfloat hlisted
      cases format.channelDataType <;> simp [Listed, integerLimits]
    obtain ⟨limits, hlimits⟩ := hinteger
    exact agrees_of_integerLimits hlimits hp hv overflow

theorem load_halfWord {i : ℕ} (v : Fin 4 → BitVec 32) (mem : ℕ → Byte) (hi : i < n) :
    load (@storeEach 4 n (fun i => v (Fin.ofNat 4 i)) mem 0) 2 (i * 2) = halfWord v i := by
  have hfloat : load (@storeEach 4 n (fun i => v (Fin.ofNat 4 i)) mem 0) 4 (i / 2 * 4)
      = v (Fin.ofNat 4 (i / 2)) := load_each (show i / 2 < n by omega)
  rw [halfWord, ← hfloat, show i * 2 = i / 2 * 4 + i % 2 * 2 by omega]
  exact (extractLsb'_load (k := 2) (o := i % 2 * 2) (w := 4) (by omega)).symm

/-- **The errors of floats that were stored**, whatever an overflow leads to. -/
theorem agrees_float_iff (hzero : ilogbZero = -2 ^ 31 ∨ ilogbZero = -(2 ^ 31 - 1))
    (htype : format.channelDataType = .float) {packed : Packed (BitVec 32)}
    (hp : packImagePixelFloat fns v format mem 0 = some packed)
    (hv : Numbers packed.srcVector)
    (hdouble : ∀ c, Harness.doubleValue (toDouble (ofBits (packed.srcVector c)))
      = ofBits (packed.srcVector c)) :
    (∀ overflow, Agrees (withUlpError ilogbZero toDouble overflow fns) packed.srcVector format
        packed.mem errors) ↔
      ∀ i < getFormatChannelCount format,
        ofBits (packed.srcVector (Fin.ofNat 4 i)) = .finite (halfWord packed.srcVector i).toNat ∧
        ¬ (ofBits (packed.srcVector (Fin.ofNat 4 i)) = .finite 0 ∧ ilogbZero = -2 ^ 31) := by
  obtain ⟨order, type⟩ := format
  obtain rfl : type = .float := htype
  obtain rfl := Option.some.inj hp
  generalize swizzleVectorForImage v order = u at hv hdouble ⊢
  dsimp only at hv hdouble ⊢
  have hchannel : ∀ i, (∀ overflow, ∃ e, ulpErrorOfWord ilogbZero toDouble overflow
      (halfWord u i) (ofBits (u (Fin.ofNat 4 i))) = .finite e ∧ |e| ≤ 0) ↔
      ofBits (u (Fin.ofNat 4 i)) = .finite (halfWord u i).toNat ∧
        ¬ (ofBits (u (Fin.ofNat 4 i)) = .finite 0 ∧ ilogbZero = -2 ^ 31) := by
    intro i
    obtain ⟨q, hq⟩ := hv (Fin.ofNat 4 i)
    have hvalue := hdouble (Fin.ofNat 4 i)
    rw [hq] at hvalue ⊢
    rw [ulpErrorOfWord_iff hzero hvalue (number_of_ofBits hq), Binary32.finite.injEq,
      Binary32.finite.injEq, eq_comm]
  have hpixel : ∀ overflow, Agrees (withUlpError ilogbZero toDouble overflow fns) u ⟨order, .float⟩
      (@storeEach 4 (getFormatChannelCount ⟨order, .float⟩) (fun i => u (Fin.ofNat 4 i)) mem 0)
        errors ↔
      ∀ i < getFormatChannelCount ⟨order, .float⟩, ∃ e, ulpErrorOfWord ilogbZero toDouble overflow
        (halfWord u i) (ofBits (u (Fin.ofNat 4 i))) = .finite e ∧ |e| ≤ 0 := by
    intro overflow
    refine (agrees_iff (n := getFormatChannelCount ⟨order, .float⟩) rfl rfl
      (getChannelOrderChannelCount_le _)).trans (forall₂_congr fun i hi => ?_)
    rw [← load_halfWord u mem hi]
    rfl
  constructor
  · intro h i hi
    rw [← hchannel]
    intro overflow
    exact (hpixel overflow).mp (h overflow) i hi
  · intro h overflow
    rw [hpixel]
    intro i hi
    exact (hchannel i).mpr (h i hi) overflow

theorem mul_two_pow_of_ofBits {b : BitVec 32} {p : ℕ} (h : ofBits b = .finite p) (hp : p ≠ 0) :
    ∃ e, (2 ^ 23 + (b.extractLsb' 0 23).toNat) * 2 ^ e = p * 2 ^ 150 := by
  have hlt := (b.extractLsb' 0 23).isLt
  have hp' : (1 : ℚ) ≤ p := by exact_mod_cast Nat.one_le_iff_ne_zero.mpr hp
  rw [ofBits] at h
  generalize (b.extractLsb' 0 23).toNat = m at h hlt ⊢
  generalize (b.extractLsb' 23 8).toNat = e at h
  have hm : (m : ℚ) < 2 ^ 23 := by exact_mod_cast hlt
  refine ⟨e, ?_⟩
  have hvalue : (2 ^ 23 + (m : ℚ)) * 2 ^ e = p * 2 ^ 150 := by
    split_ifs at h with _ _ h0 hsign hsign
    · have hq := Binary32.finite.inj h
      rw [neg_one_mul, neg_div] at hq
      have : (0 : ℚ) ≤ m / 2 ^ 149 := by positivity
      linarith
    · -- subnormal numbers are below 1
      have hq := Binary32.finite.inj h
      rw [one_mul, div_eq_iff (by positivity)] at hq
      have hmul := mul_le_mul_of_nonneg_right hp' (show (0 : ℚ) ≤ 2 ^ 149 by positivity)
      rw [← hq, one_mul] at hmul
      exact absurd (hmul.trans_lt hm) (by norm_num)
    · have hq := Binary32.finite.inj h
      rw [neg_one_mul, neg_mul, neg_div] at hq
      have : (0 : ℚ) ≤ (2 ^ 23 + m) * 2 ^ e / 2 ^ 150 := by positivity
      linarith
    · have hq := Binary32.finite.inj h
      rwa [one_mul, div_eq_iff (by positivity)] at hq
  exact_mod_cast hvalue

/-- An integer of at most 16 bits that is shifted by 8 bits or more has other low bits. -/
theorem eq_zero_of_shift {p k : ℕ} (hk : 8 ≤ k) (h : p * 2 ^ k % 2 ^ 16 = p) : p = 0 := by
  obtain ⟨j, rfl⟩ : ∃ j, k = 8 + j := ⟨k - 8, by omega⟩
  -- it is a multiple of `2 ^ 8`, and then shifted it is one of `2 ^ 16`
  obtain ⟨d, rfl⟩ : ∃ d, p = 2 ^ 8 * d := by
    rw [pow_add, mul_left_comm] at h
    exact ⟨p / 2 ^ 8, by omega⟩
  have hmultiple : 2 ^ 8 * d * 2 ^ (8 + j) = 2 ^ 16 * (d * 2 ^ j) := by ring
  rw [hmultiple, Nat.mul_mod_right] at h
  exact h.symm

theorem eq_zero_of_low_half {b : BitVec 32} (h : ofBits b = .finite (b.extractLsb' 0 16).toNat) :
    (b.extractLsb' 0 16).toNat = 0 := by
  have hlow : (b.extractLsb' 0 16).toNat = (b.extractLsb' 0 23).toNat % 2 ^ 16 := by
    simp only [BitVec.extractLsb'_toNat, Nat.shiftRight_zero]
    omega
  by_contra hne
  obtain ⟨e, hvalue⟩ := mul_two_pow_of_ofBits h hne
  generalize (b.extractLsb' 0 16).toNat = p at hlow hne hvalue
  generalize (b.extractLsb' 0 23).toNat = m at hlow hvalue
  -- the exponent is that of a number below `2 ^ 16`
  have hle : e ≤ 150 := by
    by_contra hgt
    have hpow : 2 ^ 150 ≤ 2 ^ e := Nat.pow_le_pow_right two_pos (by omega)
    have := Nat.mul_le_mul_left (2 ^ 23 + m) hpow
    omega
  obtain ⟨k, hk⟩ : ∃ k, 150 = e + k := ⟨150 - e, by omega⟩
  have hshift : 2 ^ 23 + m = p * 2 ^ k := by
    rw [hk, pow_add, mul_comm (2 ^ e), ← mul_assoc] at hvalue
    exact Nat.eq_of_mul_eq_mul_right (Nat.two_pow_pos e) hvalue
  have hk8 : 8 ≤ k := by
    by_contra hgt
    have hpow : 2 ^ k ≤ 2 ^ 7 := Nat.pow_le_pow_right two_pos (by omega)
    have := Nat.mul_le_mul_left p hpow
    omega
  refine hne (eq_zero_of_shift hk8 ?_)
  rw [← hshift, hlow]
  omega

/-- **Floats whose first channel is not 0 are found to be wrong.** -/
theorem not_agrees_float (hzero : ilogbZero = -2 ^ 31 ∨ ilogbZero = -(2 ^ 31 - 1))
    (htype : format.channelDataType = .float) {packed : Packed (BitVec 32)}
    (hp : packImagePixelFloat fns v format mem 0 = some packed)
    (hv : Numbers packed.srcVector)
    (hdouble : ∀ c, Harness.doubleValue (toDouble (ofBits (packed.srcVector c)))
      = ofBits (packed.srcVector c))
    (hne : ofBits (packed.srcVector 0) ≠ .finite 0) :
    ¬ ∀ overflow, Agrees (withUlpError ilogbZero toDouble overflow fns) packed.srcVector format
      packed.mem errors := by
  rw [agrees_float_iff hzero htype hp hv hdouble]
  intro h
  have hcount : 0 < getFormatChannelCount format := by
    rw [getFormatChannelCount]
    cases format.channelOrder <;> decide
  have hfirst : ofBits (packed.srcVector 0) = .finite (halfWord packed.srcVector 0).toNat :=
    (h 0 hcount).1
  have h0 := eq_zero_of_low_half hfirst
  refine hne (hfirst.trans ?_)
  rw [show (halfWord packed.srcVector 0).toNat = 0 from h0, Nat.cast_zero]

/-! ### The two functions -/

theorem exists_packed_of_measured (fns : FloatFunctions) (v : Fin 4 → BitVec 32) (mem : ℕ → Byte)
    (hmeasured : Measured format) :
    ∃ packed, packImagePixelFloat fns v format mem 0 = some packed := by
  obtain ⟨order, type⟩ := format
  obtain ⟨hsrgb, htype⟩ := hmeasured
  cases type
  case unormInt8 =>
    rw [packImagePixelFloat]
    dsimp only at hsrgb ⊢
    rw [hsrgb, if_neg Bool.false_ne_true]
    exact ⟨_, rfl⟩
  case unormInt24 | raw10 | raw12 => simp at htype
  all_goals exact ⟨_, rfl⟩

/-- **When `pack_image_pixel_error` finds what `pack_image_pixel` stores to be right.**  The errors
of any finite floats are small enough for all types but `CL_FLOAT`.  Its channels are read as
half-words, so each of them has to be the number in the half-word at its index, and not a 0 whose
`ilogb` is the least `int`. -/
theorem packError_iff (fns : FloatFunctions) (ilogbZero : ℤ) (toDouble : Binary32 → BitVec 64)
    (hzero : ilogbZero = -2 ^ 31 ∨ ilogbZero = -(2 ^ 31 - 1)) (format : ImageFormat)
    (srcVector : Fin 4 → BitVec 32)
    (hfinite : ∀ c, ∃ q, ofBits (srcVector c) = .finite q)
    (hdouble : ∀ c, Harness.doubleValue (toDouble (ofBits (srcVector c))) = ofBits (srcVector c))
    (hmeasured : Measured format) (mem : ℕ → Byte) (errors : Fin 4 → Binary32) :
    ∃ packed, packImagePixelFloat fns srcVector format mem 0 = some packed ∧
      ((∀ overflow, ∃ errors', packImagePixelError (withUlpError ilogbZero toDouble overflow fns)
          packed.srcVector format packed.mem errors = some errors' ∧
          WithinTolerance format errors') ↔
        (format.channelDataType = .float → ∀ i < getFormatChannelCount format,
          ofBits (packed.srcVector (Fin.ofNat 4 i))
            = .finite (halfWord packed.srcVector i).toNat ∧
          ¬ (ofBits (packed.srcVector (Fin.ofNat 4 i)) = .finite 0 ∧ ilogbZero = -2 ^ 31))) := by
  obtain ⟨packed, hp⟩ := exists_packed_of_measured fns srcVector mem hmeasured
  have hv : Numbers packed.srcVector := by
    rw [packImagePixelFloat_srcVector hp]
    exact swizzle_forall (P := fun b => ∃ q, ofBits b = .finite q) hfinite _
  refine ⟨packed, hp, ?_⟩
  by_cases hfloat : format.channelDataType = .float
  · simp only [hfloat, true_imp_iff]
    refine agrees_float_iff hzero hfloat hp hv ?_
    rw [packImagePixelFloat_srcVector hp]
    exact swizzle_forall (P := fun b => Harness.doubleValue (toDouble (ofBits b)) = ofBits b)
      hdouble _
  · exact iff_of_true (fun overflow => agrees_of_pack hmeasured hfloat hp hv overflow)
      fun h => absurd h hfloat

/-- 300 in a normalised channel: it is stored as 255. -/
theorem packError_iff_300 : ∃ packed, packImagePixelFloat noFunctions (fun _ => 0x43960000#32)
    ⟨.r, .unormInt8⟩ (fun _ => 0) 0 = some packed ∧
      ∀ overflow, ∃ errors', packImagePixelError
        (withUlpError (-2 ^ 31) (fun _ => 0x4072c00000000000#64) overflow noFunctions)
        packed.srcVector ⟨.r, .unormInt8⟩ packed.mem (fun _ => .nan) = some errors' ∧
        WithinTolerance ⟨.r, .unormInt8⟩ errors' := by
  obtain ⟨packed, hp, hiff⟩ := packError_iff noFunctions (-2 ^ 31)
    (fun _ => 0x4072c00000000000#64) (.inl rfl) ⟨.r, .unormInt8⟩ (fun _ => 0x43960000#32)
    (fun _ => ⟨300, by decide +kernel⟩) (fun _ => by decide +kernel) (by decide) (fun _ => 0)
    (fun _ => .nan)
  exact ⟨packed, hp, hiff.mpr fun h => by cases h⟩

/-- 1 is stored as it is, and its error is computed for a half-word of 0. -/
theorem not_exact : ofBits 0x3f800000#32 = .finite 1 ∧
    Harness.doubleValue 0x3ff0000000000000#64 = .finite 1 ∧
    ∃ packed errors, packImagePixelFloat noFunctions (fun _ => 0x3f800000#32) ⟨.r, .float⟩
        (fun _ => 0) 0 = some packed ∧
      packImagePixelError (withUlpError (-2 ^ 31) (fun _ => 0x3ff0000000000000#64) .nan noFunctions)
        packed.srcVector ⟨.r, .float⟩ packed.mem (fun _ => .nan) = some errors ∧
      load packed.mem 4 0 = 0x3f800000#32 ∧ errors 0 = .finite (-2 ^ 24) ∧
      ¬ WithinTolerance ⟨.r, .float⟩ errors := by
  refine ⟨by decide +kernel, by decide +kernel, _, _, rfl, rfl, by decide +kernel,
    by decide +kernel, ?_⟩
  intro h
  obtain ⟨e, he, hle⟩ := h 0 (by decide)
  have herror : Binary32.finite e = .finite (-2 ^ 24) := he.symm.trans (by decide +kernel)
  obtain rfl := Binary32.finite.inj herror
  norm_num [tolerance] at hle

end OpenCLCTS.Images
