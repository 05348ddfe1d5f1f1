import OpenCLCTS.Images.Scanlines
import OpenCLCTS.Lib.Layout

/-!
# What the verifiers of copied and filled images accept

`verifiers_iff`: the loops of `test_copy_image_generic` and `test_fill_image_generic` accept
just the equivalent images, and read nothing outside of the scanlines, if and only if texels
of the format are equivalent only if they are equal, or the format has no second channel that
`compare_scanlines` does not look at and the level is as wide as the image.
-/

namespace OpenCLCTS.Images

open Memory Scan Layout

/-! ### A pixel -/

variable {format : ImageFormat} {info : ImageDescriptor}

theorem Buffer.load_eq {b : Buffer} {w p : ℕ} (h : p + w ≤ b.size) :
    b.load w p = some (Memory.load b.mem w p) := by
  rw [Buffer.load, if_pos (by omega), Int.toNat_natCast]

theorem memcmpNe_eq {a b : Buffer} {n p q : ℕ} (ha : p + n ≤ a.size) (hb : q + n ≤ b.size) :
    memcmpNe a b n p q = some (decide (¬ ∀ o < n, a.mem (p + o) = b.mem (q + o))) := by
  rw [memcmpNe, if_pos (by omega), Int.toNat_natCast, Int.toNat_natCast]

/-- No channel is left out by `compare_scanlines`. -/
def OneSnorm (format : ImageFormat) : Prop :=
  IsSnorm format.channelDataType → getFormatChannelCount format = 1

/-- **The body of the loop of `compare_scanlines` looks for texels that are not
equivalent.** -/
theorem pixelDiffers_eq (hsnorm : OneSnorm format) {a b : Buffer} {p q : ℕ}
    (ha : p + getPixelSize format ≤ a.size) (hb : q + getPixelSize format ≤ b.size) :
    ∃ differs, pixelDiffers format a b p q = some differs ∧
      (differs = false ↔ TexelEquiv format a.mem b.mem p q) := by
  obtain ⟨order, type⟩ := format
  cases type
  case unormInt101010 =>
    rw [pixelDiffers, Buffer.load_eq (w := 4) ha, Buffer.load_eq (w := 4) hb]
    exact ⟨_, rfl, by simp [TexelEquiv]⟩
  case unormShort555 =>
    rw [pixelDiffers, Buffer.load_eq (w := 2) ha, Buffer.load_eq (w := 2) hb]
    exact ⟨_, rfl, by simp [TexelEquiv]⟩
  case snormInt8 =>
    have hone := hsnorm (.inl rfl)
    have hsize : getPixelSize ⟨order, .snormInt8⟩ = 1 := hone
    rw [hsize] at ha hb
    rw [pixelDiffers, Buffer.load_eq (w := 1) ha, Buffer.load_eq (w := 1) hb]
    exact ⟨_, rfl, by simp [TexelEquiv, hone]⟩
  case snormInt16 =>
    have hone := hsnorm (.inr rfl)
    have hsize : getPixelSize ⟨order, .snormInt16⟩ = 2 := congrArg (· * 2) hone
    rw [hsize] at ha hb
    rw [pixelDiffers, Buffer.load_eq (w := 2) ha, Buffer.load_eq (w := 2) hb]
    exact ⟨_, rfl, by simp [TexelEquiv, hone]⟩
  all_goals
    rw [pixelDiffers, memcmpNe_eq ha hb]
    exact ⟨_, rfl, by simp [TexelEquiv]⟩

/-! ### A scanline -/

/-- When the verifiers compare levels of this width as they should. -/
def Compared (info : ImageDescriptor) (width : ℕ) : Prop :=
  Exact info.format.channelDataType ∨ OneSnorm info.format ∧ width = info.width

theorem Compared.oneSnorm {width : ℕ} (h : Compared info width) : OneSnorm info.format := by
  rcases h with h | h
  · rintro (he | he) <;> rw [he] at h <;> exact h.elim
  · exact h.1

theorem equiv_of_exact (h : Exact format.channelDataType) {a b : ℕ → Byte} {p q : ℕ} :
    TexelEquiv format a b p q ↔ ∀ o < getPixelSize format, a (p + o) = b (q + o) := by
  obtain ⟨order, type⟩ := format
  cases type
  case unormInt101010 => exact h.elim
  case unormShort555 => exact h.elim
  case snormInt8 => exact h.elim
  case snormInt16 => exact h.elim
  all_goals rfl

/-- The texels of two scanlines are equivalent. -/
def RowEquiv (format : ImageFormat) (width : ℕ) (a b : ℕ → Byte) (p q : ℕ) : Prop :=
  ∀ x < width, TexelEquiv format a b (p + x * getPixelSize format) (q + x * getPixelSize format)

theorem column_le (size : ℕ) {width x : ℕ} (hx : x < width) : x * size + size ≤ width * size := by
  rw [← Nat.succ_mul]
  exact Nat.mul_le_mul_right size hx

theorem pixelDiffers_column (hsnorm : OneSnorm format) {a b : Buffer} {width p q : ℕ}
    (ha : p + width * getPixelSize format ≤ a.size) (hb : q + width * getPixelSize format ≤ b.size)
    {x : ℕ} (hx : x < width) :
    ∃ differs, pixelDiffers format a b (p + x * getPixelSize format : ℤ)
        (q + x * getPixelSize format : ℤ) = some differs ∧
      (differs = false ↔ TexelEquiv format a.mem b.mem (p + x * getPixelSize format)
        (q + x * getPixelSize format)) := by
  have hle := column_le (getPixelSize format) hx
  have h := pixelDiffers_eq hsnorm (a := a) (b := b) (p := p + x * getPixelSize format)
    (q := q + x * getPixelSize format) (by omega) (by omega)
  exact_mod_cast h

theorem scanlineOk_same {a b : Buffer} {n : ℕ} {p q : ℤ} (h : memcmpNe a b n p q = some false) :
    scanlineOk info a b n p q = some true := by
  rw [scanlineOk, h]
  rfl

theorem scanlineOk_differs {a b : Buffer} {n : ℕ} {p q : ℤ} (h : memcmpNe a b n p q = some true) :
    scanlineOk info a b n p q
      = (compareScanlines info a b p q).map fun column => !decide (column < info.width) := by
  rw [scanlineOk, h]
  simp only [Option.bind_eq_bind, Option.bind_some, if_true, Option.map_eq_bind]
  rfl

theorem exists_first {P : ℕ → Prop} {n : ℕ} (h : ¬ ∀ x < n, P x) :
    ∃ x < n, ¬ P x ∧ ∀ x' < x, P x' := by
  induction n with
  | zero => exact absurd (fun x hx => absurd hx (Nat.not_lt_zero x)) h
  | succ n ih =>
    by_cases hn : ∀ x < n, P x
    · refine ⟨n, Nat.lt_succ_self n, fun hP => h fun x hx => ?_, hn⟩
      rcases Nat.lt_succ_iff_lt_or_eq.mp hx with hlt | rfl
      · exact hn x hlt
      · exact hP
    · obtain ⟨x, hx, hrest⟩ := ih hn
      exact ⟨x, hx.trans (Nat.lt_succ_self n), hrest⟩

/-- **A scanline is accepted if its texels are equivalent.** -/
theorem scanlineOk_eq {width : ℕ} (hcond : Compared info width) (hw : width ≤ info.width)
    {a b : Buffer} {p q : ℕ} (ha : p + width * getPixelSize info.format ≤ a.size)
    (hb : q + width * getPixelSize info.format ≤ b.size) :
    ∃ ok, scanlineOk info a b (width * getPixelSize info.format) p q = some ok ∧
      (ok = true ↔ RowEquiv info.format width a.mem b.mem p q) := by
  have hcolumn := fun x hx => pixelDiffers_column hcond.oneSnorm ha hb (x := x) hx
  have hmemcmp := memcmpNe_eq ha hb
  by_cases hsame : ∀ o < width * getPixelSize info.format, a.mem (p + o) = b.mem (q + o)
  · rw [decide_eq_false (not_not.mpr hsame)] at hmemcmp
    refine ⟨true, scanlineOk_same hmemcmp, iff_of_true rfl fun x hx => TexelEquiv.of_eq fun o ho => ?_⟩
    rw [Nat.add_assoc, Nat.add_assoc]
    exact hsame _ (digits_lt hx ho)
  · rw [decide_eq_true hsame] at hmemcmp
    rw [scanlineOk_differs hmemcmp]
    by_cases hequiv : RowEquiv info.format width a.mem b.mem p q
    · -- The scanlines are not equal, so that the format is not exact.
      have hwidth : width = info.width := by
        refine (hcond.resolve_left fun hexact => hsame fun o ho => ?_).2
        rw [Nat.mul_comm] at ho
        obtain ⟨x, r, hx, hr, rfl⟩ := exists_digits ho
        have := (equiv_of_exact hexact).mp (hequiv x hx) r hr
        rwa [Nat.add_assoc, Nat.add_assoc] at this
      have hgood : compareScanlines info a b p q = some info.width :=
        firstBad_of_good fun x hx => by
          obtain ⟨differs, hd, hiff⟩ := hcolumn x (hwidth ▸ hx)
          rw [hd, hiff.mpr (hequiv x (hwidth ▸ hx))]
      refine ⟨true, ?_, iff_of_true rfl hequiv⟩
      rw [hgood, Option.map_some, decide_eq_false (lt_irrefl _)]
      rfl
    · obtain ⟨x, hx, hne, hmin⟩ := exists_first hequiv
      have hbad : compareScanlines info a b p q = some x := by
        refine firstBad_of_bad (hx.trans_le hw) ?_ fun x' hx' => ?_
        · obtain ⟨differs, hd, hiff⟩ := hcolumn x hx
          rw [hd, Bool.eq_true_of_not_eq_false fun he => hne (hiff.mp he)]
        · obtain ⟨differs, hd, hiff⟩ := hcolumn x' (hx'.trans hx)
          rw [hd, hiff.mpr (hmin x' hx')]
      refine ⟨false, ?_, iff_of_false Bool.false_ne_true hequiv⟩
      rw [hbad, Option.map_some, decide_eq_true (hx.trans_le hw)]
      rfl

/-! ### Images -/

/-- The rows of an image, in the order of the loops, are one behind the other. -/
def RowsApart (rowAt : ℕ → ℕ → ℕ) (slices rows bytes : ℕ) : Prop :=
  ∀ z y z' y', z < slices → y < rows → z' < slices → y' < rows → z < z' ∨ z = z' ∧ y < y' →
    rowAt z y + bytes ≤ rowAt z' y'

/-- The end of the last row. -/
def rowsEnd (rowAt : ℕ → ℕ → ℕ) (slices rows bytes : ℕ) : ℕ :=
  rowAt (slices - 1) (rows - 1) + bytes

theorem RowsApart.le_rowsEnd {rowAt : ℕ → ℕ → ℕ} {slices rows bytes z y : ℕ}
    (h : RowsApart rowAt slices rows bytes) (hz : z < slices) (hy : y < rows) :
    rowAt z y + bytes ≤ rowsEnd rowAt slices rows bytes := by
  rw [rowsEnd]
  by_cases hlast : z = slices - 1 ∧ y = rows - 1
  · rw [hlast.1, hlast.2]
  · have := h z y (slices - 1) (rows - 1) hz hy (by omega) (by omega) (by omega)
    omega

/-- Loops that compare the rows of two images. -/
structure Scanning (info : ImageDescriptor) (s : Steps) (start : ℤ) (width : ℕ)
    (hostAt mappedAt : ℕ → ℕ → ℕ) : Prop where
  src : ∀ z y, z < s.slices → y < s.rows → s.srcAt start z y = hostAt z y
  dest : ∀ z y, z < s.slices → y < s.rows → s.destAt 0 z y = mappedAt z y
  host : RowsApart hostAt s.slices s.rows (width * getPixelSize info.format)
  mapped : RowsApart mappedAt s.slices s.rows (width * getPixelSize info.format)
  slices_pos : 0 < s.slices
  rows_pos : 0 < s.rows
  width_pos : 0 < width
  width_le : width ≤ info.width

/-- The verdict of the loops for images that end behind their last rows. -/
def scanVerdict (info : ImageDescriptor) (s : Steps) (start : ℤ) (width : ℕ)
    (hostAt mappedAt : ℕ → ℕ → ℕ) (host mapped : ℕ → Byte) : Option Bool :=
  let scanlineSize := width * getPixelSize info.format
  (scanRows s (scanlineOk info ⟨host, rowsEnd hostAt s.slices s.rows scanlineSize⟩
    ⟨mapped, rowsEnd mappedAt s.slices s.rows scanlineSize⟩ scanlineSize) start 0).verdict

/-- The body of the loops for a row of such images. -/
def rowOk (info : ImageDescriptor) (s : Steps) (width : ℕ) (hostAt mappedAt : ℕ → ℕ → ℕ)
    (host mapped : ℕ → Byte) (z y : ℕ) : Option Bool :=
  let scanlineSize := width * getPixelSize info.format
  scanlineOk info ⟨host, rowsEnd hostAt s.slices s.rows scanlineSize⟩
    ⟨mapped, rowsEnd mappedAt s.slices s.rows scanlineSize⟩ scanlineSize (hostAt z y) (mappedAt z y)

/-- The texels of two images are equivalent. -/
def ImagesEquiv (format : ImageFormat) (width slices rows : ℕ) (hostAt mappedAt : ℕ → ℕ → ℕ)
    (host mapped : ℕ → Byte) : Prop :=
  ∀ z < slices, ∀ y < rows, RowEquiv format width host mapped (hostAt z y) (mappedAt z y)

/-- A verifier reads nothing outside of the images, and accepts just the equivalent ones. -/
def Verifies (verdict : (ℕ → Byte) → (ℕ → Byte) → Option Bool)
    (equiv : (ℕ → Byte) → (ℕ → Byte) → Prop) : Prop :=
  ∀ host mapped, verdict host mapped ≠ none ∧ (verdict host mapped = some true ↔ equiv host mapped)

variable {s : Steps} {start : ℤ} {width : ℕ} {hostAt mappedAt : ℕ → ℕ → ℕ}

theorem Scanning.rowOk_of_true (h : Scanning info s start width hostAt mappedAt)
    {host mapped : ℕ → Byte}
    (hv : scanVerdict info s start width hostAt mappedAt host mapped = some true) {z y : ℕ}
    (hz : z < s.slices) (hy : y < s.rows) :
    rowOk info s width hostAt mappedAt host mapped z y = some true := by
  have hc := of_verdict_true hv hz hy
  rwa [h.src z y hz hy, h.dest z y hz hy] at hc

theorem Scanning.rowOk_of_false (h : Scanning info s start width hostAt mappedAt)
    {host mapped : ℕ → Byte}
    (hv : scanVerdict info s start width hostAt mappedAt host mapped = some false) :
    ∃ z y, z < s.slices ∧ y < s.rows ∧
      rowOk info s width hostAt mappedAt host mapped z y = some false := by
  obtain ⟨z, y, hz, hy, hc⟩ := of_verdict_false hv
  rw [h.src z y hz hy, h.dest z y hz hy] at hc
  exact ⟨z, y, hz, hy, hc⟩

theorem Scanning.rowOk_of_none (h : Scanning info s start width hostAt mappedAt)
    {host mapped : ℕ → Byte}
    (hv : scanVerdict info s start width hostAt mappedAt host mapped = none) :
    ∃ z y, z < s.slices ∧ y < s.rows ∧
      rowOk info s width hostAt mappedAt host mapped z y = none := by
  obtain ⟨z, y, hz, hy, hc⟩ := of_verdict_none hv
  rw [h.src z y hz hy, h.dest z y hz hy] at hc
  exact ⟨z, y, hz, hy, hc⟩

/-- **Levels that are compared as they should be are verified.** -/
theorem verifies_of_compared (h : Scanning info s start width hostAt mappedAt)
    (hcond : Compared info width) :
    Verifies (scanVerdict info s start width hostAt mappedAt)
      (ImagesEquiv info.format width s.slices s.rows hostAt mappedAt) := by
  intro host mapped
  have hrow {z y : ℕ} (hz : z < s.slices) (hy : y < s.rows) :
      ∃ ok, rowOk info s width hostAt mappedAt host mapped z y = some ok ∧
        (ok = true ↔ RowEquiv info.format width host mapped (hostAt z y) (mappedAt z y)) :=
    scanlineOk_eq hcond h.width_le (h.host.le_rowsEnd hz hy) (h.mapped.le_rowsEnd hz hy)
  have hsome : scanVerdict info s start width hostAt mappedAt host mapped ≠ none := fun hv => by
    obtain ⟨z, y, hz, hy, hc⟩ := h.rowOk_of_none hv
    obtain ⟨ok, hok, _⟩ := hrow hz hy
    rw [hok] at hc
    cases hc
  refine ⟨hsome, fun hv z hz y hy => ?_, fun hequiv => ?_⟩
  · obtain ⟨ok, hok, hiff⟩ := hrow hz hy
    rw [h.rowOk_of_true hv hz hy] at hok
    exact hiff.mp (Option.some.inj hok).symm
  · obtain ⟨v, hv⟩ := Option.ne_none_iff_exists'.mp hsome
    cases v with
    | true => exact hv
    | false =>
      obtain ⟨z, y, hz, hy, hc⟩ := h.rowOk_of_false hv
      obtain ⟨ok, hok, hiff⟩ := hrow hz hy
      rw [hok, hiff.mpr (hequiv z hz y hy)] at hc
      cases hc

/-! ### Channels that are left out -/

theorem Buffer.load_some {b : Buffer} {w : ℕ} {ptr : ℤ} {v : BitVec (8 * w)}
    (h : b.load w ptr = some v) : 0 ≤ ptr ∧ v = Memory.load b.mem w ptr.toNat := by
  rw [Buffer.load] at h
  split at h
  · rename_i hin
    exact ⟨hin.1, (Option.some.inj h).symm⟩
  · cases h

theorem channelCount_pos (order : ChannelOrder) : 0 < getChannelOrderChannelCount order := by
  cases order <;> decide

/-- The bytes of a channel. -/
def snormSize (type : ChannelType) : ℕ := if type = .snormInt8 then 1 else 2

theorem pixelSize_snorm (h : IsSnorm format.channelDataType) :
    getPixelSize format = getFormatChannelCount format * snormSize format.channelDataType := by
  obtain ⟨order, type⟩ := format
  rcases h with h | h <;> change type = _ at h <;> subst h
  · exact (Nat.mul_one _).symm
  · rfl

/-- `compare_scanlines` only looks at the first channel. -/
theorem pixelDiffers_ne_true (h : IsSnorm format.channelDataType) {a b : Buffer} {p q : ℤ}
    (hsame : 0 ≤ p → 0 ≤ q → ∀ k < snormSize format.channelDataType,
      a.mem (p.toNat + k) = b.mem (q.toNat + k)) :
    pixelDiffers format a b p q ≠ some true := by
  intro hd
  obtain ⟨order, type⟩ := format
  rcases h with h | h <;> change type = _ at h <;> subst h <;> rw [pixelDiffers] at hd
  · obtain ⟨v, hv, hd⟩ := Option.bind_eq_some_iff.mp hd
    obtain ⟨v', hv', hd⟩ := Option.bind_eq_some_iff.mp hd
    obtain ⟨hp, rfl⟩ := Buffer.load_some hv
    obtain ⟨hq, rfl⟩ := Buffer.load_some hv'
    rw [load_congr (w := 1) (hsame hp hq)] at hd
    simp at hd
  · obtain ⟨v, hv, hd⟩ := Option.bind_eq_some_iff.mp hd
    obtain ⟨v', hv', hd⟩ := Option.bind_eq_some_iff.mp hd
    obtain ⟨hp, rfl⟩ := Buffer.load_some hv
    obtain ⟨hq, rfl⟩ := Buffer.load_some hv'
    rw [load_congr (w := 2) (hsame hp hq)] at hd
    simp at hd

/-- Two scanlines whose first channels are equal are never rejected. -/
theorem scanlineOk_ne_false (h : IsSnorm info.format.channelDataType) {a b : Buffer} {n p q : ℕ}
    (hsame : ∀ c : ℕ, ∀ k < snormSize info.format.channelDataType,
      a.mem (p + c * getPixelSize info.format + k) = b.mem (q + c * getPixelSize info.format + k)) :
    scanlineOk info a b n p q ≠ some false := by
  intro hok
  cases hm : memcmpNe a b n p q with
  | none =>
    rw [scanlineOk, hm] at hok
    cases hok
  | some ne =>
    cases ne with
    | false =>
      rw [scanlineOk_same hm] at hok
      cases hok
    | true =>
      rw [scanlineOk_differs hm, compareScanlines] at hok
      have hcolumns : firstBad (pixelDiffers info.format a b) (getPixelSize info.format) info.width
            0 p q = none ∨
          firstBad (pixelDiffers info.format a b) (getPixelSize info.format) info.width 0 p q
            = some (0 + info.width) :=
        firstBad_of_ne_true fun c => pixelDiffers_ne_true h fun _ _ k hk => by
          have hnat (r : ℕ) : (r + c * getPixelSize info.format : ℤ).toNat
              = r + c * getPixelSize info.format := by
            exact_mod_cast Int.toNat_natCast _
          rw [hnat, hnat]
          exact hsame c k hk
      rcases hcolumns with hnone | hend
      · rw [hnone] at hok
        cases hok
      · rw [hend, Option.map_some, Nat.zero_add, decide_eq_false (lt_irrefl _)] at hok
        cases hok

/-- An image of zeros with a one in one place. -/
def spot (at' : ℕ) : ℕ → Byte := fun b => if b = at' then 1 else 0

theorem snormSize_pos (type : ChannelType) : 0 < snormSize type := by
  rw [snormSize]
  split <;> decide

/-- A one in the second channel is a difference. -/
theorem not_texelEquiv_spot (h : IsSnorm format.channelDataType)
    (hcount : 1 < getFormatChannelCount format) (p q : ℕ) :
    ¬ TexelEquiv format (fun _ => 0) (spot (q + snormSize format.channelDataType)) p q := by
  obtain ⟨order, type⟩ := format
  intro hequiv
  rcases h with h | h <;> change type = _ at h <;> subst h
  · have hone := hequiv 1 hcount
    simp [Memory.load, spot, snormSize, snorm8] at hone
  · have hone := hequiv 1 hcount
    simp [Memory.load, spot, snormSize, snorm16] at hone

/-- **If a level is verified, there is no second channel that is left out.** -/
theorem oneSnorm_of_verifies (h : Scanning info s start width hostAt mappedAt)
    (hv : Verifies (scanVerdict info s start width hostAt mappedAt)
      (ImagesEquiv info.format width s.slices s.rows hostAt mappedAt)) : OneSnorm info.format := by
  intro hsnorm
  by_contra hne
  have hcount : 1 < getFormatChannelCount info.format := by
    have := channelCount_pos info.format.channelOrder
    rw [getFormatChannelCount] at hne ⊢
    omega
  have hw := snormSize_pos info.format.channelDataType
  have hsize : 2 * snormSize info.format.channelDataType ≤ getPixelSize info.format := by
    rw [pixelSize_snorm hsnorm]
    exact Nat.mul_le_mul_right _ hcount
  obtain ⟨hsome, hiff⟩ := hv (fun _ => 0) (spot (mappedAt 0 0 + snormSize info.format.channelDataType))
  obtain ⟨ok, hok⟩ := Option.ne_none_iff_exists'.mp hsome
  cases ok with
  | true =>
    have hequiv := hiff.mp hok 0 h.slices_pos 0 h.rows_pos 0 h.width_pos
    rw [Nat.zero_mul, Nat.add_zero, Nat.add_zero] at hequiv
    exact not_texelEquiv_spot hsnorm hcount _ _ hequiv
  | false =>
    obtain ⟨z, y, hz, hy, hrow⟩ := h.rowOk_of_false hok
    refine scanlineOk_ne_false hsnorm (fun c k hk => ?_) hrow
    refine (if_neg fun he => ?_).symm
    by_cases hfirst : z = 0 ∧ y = 0
    · rw [hfirst.1, hfirst.2] at he
      rcases Nat.eq_zero_or_pos c with rfl | hc
      · omega
      · have := Nat.le_mul_of_pos_left (getPixelSize info.format) hc
        omega
    · have hapart := h.mapped 0 0 z y h.slices_pos h.rows_pos hz hy (by omega)
      have := Nat.le_mul_of_pos_left (getPixelSize info.format) h.width_pos
      omega

/-! ### Narrow levels -/

/-- Texels of a type that is not exact can be equivalent without being equal. -/
theorem exists_equiv_ne (h : ¬ Exact format.channelDataType) (hone : OneSnorm format) :
    ∃ u v : ℕ → Byte, TexelEquiv format u v 0 0 ∧ ∃ o < getPixelSize format, u o ≠ v o := by
  obtain ⟨order, type⟩ := format
  cases type
  case unormInt101010 =>
    refine ⟨fun _ => 0, fun b => if b = 3 then 0x80 else 0, ?_, 3, by simp [getPixelSize], by decide⟩
    change Memory.load _ 4 0 &&& 0x3fffffff = Memory.load _ 4 0 &&& 0x3fffffff
    decide
  case unormShort555 =>
    refine ⟨fun _ => 0, fun b => if b = 1 then 0x80 else 0, ?_, 1, by simp [getPixelSize], by decide⟩
    change Memory.load _ 2 0 &&& 0x7fff = Memory.load _ 2 0 &&& 0x7fff
    decide
  case snormInt8 =>
    have hcount := hone (.inl rfl)
    refine ⟨fun _ => 0x80, fun _ => 0x81, fun c hc => ?_, 0, ?_, by decide⟩
    · obtain rfl : c = 0 := by omega
      decide
    · exact channelCount_pos order
  case snormInt16 =>
    have hcount := hone (.inr rfl)
    refine ⟨fun b => if b = 1 then 0x80 else 0, fun b => if b = 1 then 0x80 else 1, fun c hc => ?_,
      0, ?_, by decide⟩
    · obtain rfl : c = 0 := by omega
      decide
    · exact Nat.mul_pos (channelCount_pos order) (by decide)
  all_goals exact absurd trivial h

theorem Buffer.load_end (b : Buffer) {w : ℕ} (hw : 0 < w) : b.load w b.size = none :=
  if_neg (by omega)

theorem pixelDiffers_end (h : ¬ Exact format.channelDataType) (a b : Buffer) (q : ℤ) :
    pixelDiffers format a b a.size q = none := by
  obtain ⟨order, type⟩ := format
  cases type
  case unormInt101010 =>
    rw [pixelDiffers, a.load_end (w := 4) (by decide)]
    rfl
  case unormShort555 =>
    rw [pixelDiffers, a.load_end (w := 2) (by decide)]
    rfl
  case snormInt8 =>
    rw [pixelDiffers, a.load_end (w := 1) (by decide)]
    rfl
  case snormInt16 =>
    rw [pixelDiffers, a.load_end (w := 2) (by decide)]
    rfl
  all_goals exact absurd trivial h

/-- **After a scanline that is equivalent but not equal the search goes on behind it.** -/
theorem scanlineOk_narrow (hexact : ¬ Exact info.format.channelDataType)
    (hone : OneSnorm info.format) (hnarrow : width < info.width) {a b : Buffer} {p q : ℕ}
    (ha : p + width * getPixelSize info.format = a.size)
    (hb : q + width * getPixelSize info.format = b.size)
    (hequiv : RowEquiv info.format width a.mem b.mem p q)
    (hne : ¬ ∀ o < width * getPixelSize info.format, a.mem (p + o) = b.mem (q + o)) :
    scanlineOk info a b (width * getPixelSize info.format) p q = none := by
  have hmemcmp := memcmpNe_eq ha.le hb.le
  rw [decide_eq_true hne] at hmemcmp
  have hover : compareScanlines info a b p q = none := by
    refine firstBad_of_none hnarrow ?_ fun x hx => ?_
    · have hend := pixelDiffers_end hexact a b (q + width * getPixelSize info.format : ℤ)
      rwa [← ha, Nat.cast_add, Nat.cast_mul] at hend
    · obtain ⟨differs, hd, hiff⟩ := pixelDiffers_column hone ha.le hb.le hx
      rw [hd, hiff.mpr (hequiv x hx)]
  rw [scanlineOk_differs hmemcmp, hover]
  rfl

theorem RowsApart.before_last {rowAt : ℕ → ℕ → ℕ} {slices rows width size z y x : ℕ}
    (h : RowsApart rowAt slices rows (width * size)) (hz : z < slices) (hy : y < rows)
    (hx : x < width) (hne : ¬ (z = slices - 1 ∧ y = rows - 1 ∧ x = width - 1)) :
    rowAt z y + x * size + size ≤ rowAt (slices - 1) (rows - 1) + (width - 1) * size := by
  by_cases hlast : z = slices - 1 ∧ y = rows - 1
  · have hx' : x < width - 1 := by omega
    have := column_le size hx'
    rw [hlast.1, hlast.2]
    omega
  · have hrow := h z y (slices - 1) (rows - 1) hz hy (by omega) (by omega) (by omega)
    have := column_le size hx
    omega

/-- An image of zeros that ends with a texel. -/
def ending (last : ℕ) (u : ℕ → Byte) : ℕ → Byte := fun b => if last ≤ b then u (b - last) else 0

theorem ending_add (last : ℕ) (u : ℕ → Byte) (o : ℕ) : ending last u (last + o) = u o := by
  rw [ending, if_pos (Nat.le_add_right last o), Nat.add_sub_cancel_left]

theorem ending_of_lt {last b : ℕ} (u : ℕ → Byte) (h : b < last) : ending last u b = 0 :=
  if_neg (Nat.not_le.mpr h)

/-- **If a level of a type that is not exact is verified, it is as wide as the image.** -/
theorem width_of_verifies (h : Scanning info s start width hostAt mappedAt)
    (hv : Verifies (scanVerdict info s start width hostAt mappedAt)
      (ImagesEquiv info.format width s.slices s.rows hostAt mappedAt))
    (hexact : ¬ Exact info.format.channelDataType) : width = info.width := by
  have hone := oneSnorm_of_verifies h hv
  by_contra hne
  have hnarrow : width < info.width := lt_of_le_of_ne h.width_le hne
  obtain ⟨u, v, huv, o, ho, huvo⟩ := exists_equiv_ne hexact hone
  have hwidth := h.width_pos
  have hslice : s.slices - 1 < s.slices := Nat.sub_lt h.slices_pos Nat.one_pos
  have hlastRow : s.rows - 1 < s.rows := Nat.sub_lt h.rows_pos Nat.one_pos
  obtain ⟨host, hhost⟩ : ∃ host, host = ending
      (hostAt (s.slices - 1) (s.rows - 1) + (width - 1) * getPixelSize info.format) u := ⟨_, rfl⟩
  obtain ⟨mapped, hmapped⟩ : ∃ mapped, mapped = ending
      (mappedAt (s.slices - 1) (s.rows - 1) + (width - 1) * getPixelSize info.format) v := ⟨_, rfl⟩
  have hequiv : ImagesEquiv info.format width s.slices s.rows hostAt mappedAt host mapped := by
    intro z hz y hy x hx
    by_cases hlast : z = s.slices - 1 ∧ y = s.rows - 1 ∧ x = width - 1
    · rw [hlast.1, hlast.2.1, hlast.2.2]
      refine huv.congr (fun o _ => ?_) fun o _ => ?_
      · rw [hhost, ending_add, Nat.zero_add]
      · rw [hmapped, ending_add, Nat.zero_add]
    · have hp := h.host.before_last hz hy hx hlast
      have hq := h.mapped.before_last hz hy hx hlast
      apply TexelEquiv.of_eq
      intro o ho
      rw [hhost, hmapped, ending_of_lt u (by omega), ending_of_lt v (by omega)]
  have hrow := h.rowOk_of_true ((hv host mapped).2.mpr hequiv) hslice hlastRow
  have hover : rowOk info s width hostAt mappedAt host mapped (s.slices - 1) (s.rows - 1) = none :=
    scanlineOk_narrow hexact hone hnarrow rfl rfl (hequiv _ hslice _ hlastRow) fun hsame => huvo (by
      have hlast : host _ = mapped _ := hsame ((width - 1) * getPixelSize info.format + o)
        (digits_lt (Nat.sub_lt hwidth Nat.one_pos) ho)
      rwa [hhost, hmapped, ← Nat.add_assoc, ← Nat.add_assoc, ending_add, ending_add] at hlast)
  rw [hrow] at hover
  cases hover

/-- **A level is verified if and only if it is compared as it should be.** -/
theorem verifies_iff (h : Scanning info s start width hostAt mappedAt) :
    Verifies (scanVerdict info s start width hostAt mappedAt)
      (ImagesEquiv info.format width s.slices s.rows hostAt mappedAt) ↔ Compared info width := by
  refine ⟨fun hv => ?_, verifies_of_compared h⟩
  by_cases hexact : Exact info.format.channelDataType
  · exact .inl hexact
  · exact .inr ⟨oneSnorm_of_verifies h hv, width_of_verifies h hv hexact⟩

end OpenCLCTS.Images
