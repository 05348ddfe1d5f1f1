import OpenCLCTS.Lib.FloatRemainder
import OpenCLCTS.MathBruteForce.Scalbn

/-!
# The references of remquo

`reference_remquo` and `reference_remquol` divide by subtracting and doubling, with mantissas that
are scaled to [1, 2), and round the quotient at the end.

* `exact_remquoLoop`: the loop keeps a quotient and what remains.
* `exact_remquoRound`: the quotient is rounded to the nearest integer.
* `referenceRemquo_exact`: the remainder and the last bits of the quotient, and no operation is
  inexact.
-/

namespace OpenCLCTS.MathBruteForce

open FloatFormat

/-! ### Division -/

section

variable {w : ℕ} (f : FloatFormat) (ilogb : BitVec w → Flagged ℤ)
  (ldexp : BitVec w → ℤ → Flagged (BitVec w)) (two : BitVec w)

/-- One step of the loop. -/
def remquoStep (yr : BitVec w) (s : BitVec w × BitVec 32) : Flagged (BitVec w × BitVec 32) :=
  let q := s.2 <<< 1
  if f.value yr ≤ f.value s.1 then do
    let xr ← f.sub s.1 yr
    let xr ← f.add xr xr
    pure (xr, q + 1)
  else do
    let xr ← f.add s.1 s.1
    pure (xr, q)

/-- The loop. -/
def remquoLoop (yr : BitVec w) : ℕ → BitVec w × BitVec 32 → Flagged (BitVec w × BitVec 32)
  | 0, s => pure s
  | i + 1, s => do
    let s ← remquoStep f yr s
    remquoLoop yr i s

/-- The last bit of the quotient, without a doubling and with `>`. -/
def remquoLast (yr : BitVec w) (s : BitVec w × BitVec 32) : Flagged (BitVec w × BitVec 32) :=
  let q := s.2 <<< 1
  if f.value yr < f.value s.1 then do
    let xr ← f.sub s.1 yr
    pure (xr, q + 1)
  else pure (s.1, q)

/-- `xr`, `q` and `yr`, before the quotient is rounded. -/
def remquoDivide (x y : BitVec w) (ex ey : ℤ) : Flagged ((BitVec w × BitVec 32) × BitVec w) :=
  if -1 ≤ ex - ey then do
    let yr ← ldexp y (-ey)
    let xr ← ldexp x (-ex)
    if 0 ≤ ex - ey then do
      let s ← remquoLoop f yr (ex - ey).toNat (xr, 0)
      let s ← remquoLast f yr s
      pure (s, yr)
    else do
      let xr ← ldexp xr (ex - ey)
      pure ((xr, 0), yr)
  else pure ((x, 0), y)

/-- The quotient is rounded to the nearest integer, ties to even. -/
def remquoRound (yr : BitVec w) (s : BitVec w × BitVec 32) : Flagged (BitVec w × BitVec 32) := do
  let twice ← f.mul two s.1
  if f.value yr < f.value twice ∨ f.value yr = f.value twice ∧ s.2 &&& 0x00000001 ≠ 0 then do
    let xr ← f.sub s.1 yr
    pure (xr, s.2 + 1)
  else pure s

/-- The remainder, without the scaling. -/
def remquoUnscale (xr : BitVec w) (ex ey : ℤ) : Flagged (BitVec w) :=
  if -1 ≤ ex - ey then ldexp xr ey else pure xr

/-- What both functions do with finite numbers that are not 0. -/
def remquoFinite (signbit : BitVec w → Bool) (xx yy : BitVec w) : Flagged (BitVec w × ℤ) := do
  let signn : ℤ := if signbit xx = signbit yy then 1 else -1
  let x := f.fabs xx
  let y := f.fabs yy
  let ex ← ilogb x
  let ey ← ilogb y
  let s ← remquoDivide f ldexp x y ex ey
  let r ← remquoRound f two s.2 s.1
  let xr ← remquoUnscale ldexp r.1 ex ey
  let qout : ℤ := (r.2 &&& 0x0000007f).toNat
  let qout := if signn < 0 then -qout else qout
  let xr := if f.value xx < 0 then f.neg xr else xr
  pure (xr, qout)

end

section

variable (gDeviceILogb0 gDeviceILogbNaN : ℤ)

/-- `reference_ilogb` of a `float`. -/
def ilogbFloat (x : BitVec 32) : Flagged ℤ := do
  let x ← binary32.converted binary64 x
  referenceIlogb gDeviceILogb0 gDeviceILogbNaN x

/-- `(float)reference_ldexp` of a `float`. -/
def ldexpFloat (x : BitVec 32) (n : ℤ) : Flagged (BitVec 32) := do
  let x ← binary32.converted binary64 x
  let r ← referenceLdexp x n
  binary64.converted binary32 r

/-- `reference_signbit`, of a `float`. -/
def referenceSignbit (x : BitVec 32) : Bool := x.getLsbD 31

/-- `reference_remquo`. -/
def referenceRemquo (xd yd : BitVec 64) : Flagged (BitVec 64 × ℤ) := do
  let xx : BitVec 32 ← binary64.converted binary32 xd
  let yy : BitVec 32 ← binary64.converted binary32 yd
  if binary32.floatClass xx = .nan ∨ binary32.floatClass yy = .nan ∨
      binary32.floatClass xx = .infinite ∨ binary32.floatClass yy = .zero then
    pure (0x7ff8000000000000, 0)
  else if binary32.floatClass yy = .infinite ∨ binary32.floatClass xx = .zero then pure (xd, 0)
  else if binary32.fabs xx = binary32.fabs yy then
    pure (if referenceSignbit xx then 0x8000000000000000 else 0, if xx = yy then 1 else -1)
  else do
    let r ← remquoFinite binary32 (ilogbFloat gDeviceILogb0 gDeviceILogbNaN) ldexpFloat 0x40000000
      referenceSignbit xx yy
    let xr ← binary32.converted binary64 r.1
    pure (xr, r.2)

/-- `reference_remquol`; `reference_signbit` takes a `float`, and only its sign is used. -/
def referenceRemquol (xx yy : BitVec 64) : Flagged (BitVec 64 × ℤ) :=
  let signbit (x : BitVec 64) : Bool :=
    referenceSignbit (binary64.convert binary32 .toNearest x)
  if binary64.floatClass xx = .nan ∨ binary64.floatClass yy = .nan ∨
      binary64.floatClass xx = .infinite ∨ binary64.floatClass yy = .zero then
    pure (0x7ff8000000000000, 0)
  else if binary64.floatClass yy = .infinite ∨ binary64.floatClass xx = .zero then pure (xx, 0)
  else if binary64.fabs xx = binary64.fabs yy then
    pure (if signbit xx then 0x8000000000000000 else 0, if xx = yy then 1 else -1)
  else remquoFinite binary64 (referenceIlogbl gDeviceILogb0 gDeviceILogbNaN) referenceLdexp
    0x4000000000000000 signbit xx yy

end

/-! ### Division is exact -/

section

variable {f : FloatFormat} {w : ℕ} {k : ℤ} {q t X Y T V : ℚ} {yr : BitVec w} {s : BitVec w × BitVec 32}
  {Q : ℕ}

/-- What a state of the loop stands for: twice the quotient and what remains. -/
structure Dividing (f : FloatFormat) (Y V : ℚ) (s : BitVec w × BitVec 32) (T : ℚ) (Q : ℕ) : Prop where
  xr : f.Represents s.1 T
  q : s.2 = BitVec.ofNat 32 Q
  nonneg : 0 ≤ T
  lt : T < 2 * Y
  grid : OnGrid f 0 T
  eq : V = 2 * Q * Y + T

theorem shiftLeft_ofNat (Q : ℕ) : BitVec.ofNat 32 Q <<< 1 = BitVec.ofNat 32 (2 * Q) ∧
    BitVec.ofNat 32 Q <<< 1 + 1 = BitVec.ofNat 32 (2 * Q + 1) := by
  have hdouble : BitVec.ofNat 32 Q <<< 1 = BitVec.ofNat 32 (2 * Q) := by
    apply BitVec.eq_of_toNat_eq
    rw [BitVec.toNat_shiftLeft, BitVec.toNat_ofNat, BitVec.toNat_ofNat, Nat.shiftLeft_eq]
    omega
  exact ⟨hdouble, by rw [hdouble, BitVec.ofNat_add]; rfl⟩

/-- **One step** doubles what the state stands for. -/
theorem exact_remquoStep (hw : w = f.mantissaBits + f.exponentBits + 1) (hf : HasRoom f)
    (hyr : f.Represents yr Y) (hY : OnGrid f 0 Y) (hY2 : Y < 2) (h : Dividing f Y V s T Q) :
    Exact (remquoStep f yr s) fun s' => ∃ T' Q', Dividing f Y (2 * V) s' T' Q' := by
  have hV := h.eq
  have hdouble {S : ℚ} (hS : OnGrid f 0 S) (hS0 : 0 ≤ S) (hSY : S < Y) : f.Fits (S + S) := by
    rw [← two_mul]
    refine OnGrid.fits hf (by decide) (by decide) hS.mul_two ?_
    rw [abs_of_nonneg (by linarith)]
    norm_num
    linarith
  rw [remquoStep, hyr.value, h.xr.value, h.q]
  refine .ite ?_ ?_
  · intro hle
    have hgrid := h.grid.sub hY
    have hlt := h.lt
    have hfits : f.Fits (T - Y) := by
      refine hgrid.fits hf (by decide) (by decide) ?_
      rw [abs_of_nonneg (by linarith)]
      norm_num
      linarith
    refine (exact_sub hw h.xr hyr hfits).bind ?_
    intro xr hxr
    refine (exact_add hw hxr hxr (hdouble hgrid (by linarith) (by linarith))).bind ?_
    intro xr hxr
    refine .of_pure ⟨T - Y + (T - Y), 2 * Q + 1, hxr, (shiftLeft_ofNat Q).2, by linarith, by linarith, ?_, ?_⟩
    · rw [← two_mul]
      exact hgrid.mul_two.succ
    · rw [hV]
      push_cast
      ring
  · intro hlt
    refine (exact_add hw h.xr h.xr (hdouble h.grid h.nonneg (not_le.mp hlt))).bind ?_
    intro xr hxr
    have hT := h.nonneg
    refine .of_pure ⟨T + T, 2 * Q, hxr, (shiftLeft_ofNat Q).1, by linarith, by linarith, ?_, ?_⟩
    · rw [← two_mul]
      exact h.grid.mul_two.succ
    · rw [hV]
      push_cast
      ring

/-- **The loop.** -/
theorem exact_remquoLoop (hw : w = f.mantissaBits + f.exponentBits + 1) (hf : HasRoom f)
    (hyr : f.Represents yr Y) (hY : OnGrid f 0 Y) (hY2 : Y < 2) (i : ℕ) {s : BitVec w × BitVec 32}
    {V T : ℚ} {Q : ℕ} (h : Dividing f Y V s T Q) :
    Exact (remquoLoop f yr i s) fun s' => ∃ T' Q', Dividing f Y (V * 2 ^ i) s' T' Q' := by
  induction i generalizing s V T Q with
  | zero =>
    rw [remquoLoop, pow_zero, mul_one]
    exact .of_pure ⟨T, Q, h⟩
  | succ i ih =>
    rw [remquoLoop]
    refine (exact_remquoStep hw hf hyr hY hY2 h).bind ?_
    intro s' hs'
    obtain ⟨T', Q', h'⟩ := hs'
    rw [show V * 2 ^ (i + 1) = 2 * V * 2 ^ i by ring]
    exact ih h'

/-- What remains before the quotient is rounded. -/
structure Divided (f : FloatFormat) (Y V : ℚ) (s : BitVec w × BitVec 32) (T : ℚ) (Q : ℕ) : Prop where
  xr : f.Represents s.1 T
  q : s.2 = BitVec.ofNat 32 Q
  nonneg : 0 ≤ T
  le : T ≤ Y
  eq : V = Q * Y + T
  twice : f.Fits (T * 2)
  sub : Y ≤ T * 2 → f.Fits (T - Y)

theorem Divided.of_grid (hf : HasRoom f) (hxr : f.Represents s.1 T) (hq : s.2 = BitVec.ofNat 32 Q)
    (h0 : 0 ≤ T) (hle : T ≤ Y) (heq : V = Q * Y + T) (hk : 0 ≤ k) (hk' : k ≤ 1) (hT : OnGrid f k T)
    (hY : OnGrid f k Y) (hlt : T < 2 ^ (1 - k)) : Divided f Y V s T Q := by
  refine ⟨hxr, hq, h0, hle, heq, ?_, ?_⟩
  · rw [mul_comm]
    refine hT.mul_two.fits hf (by omega) (by omega) ?_
    rw [abs_of_nonneg (by linarith), show 1 - (k - 1) = 1 - k + 1 by ring, zpow_add_one₀ two_ne_zero]
    linarith
  · intro hhalf
    refine (hT.sub hY).fits hf (by omega) hk' ?_
    rw [abs_of_nonpos (by linarith)]
    linarith

/-- **The last bit of the quotient.** -/
theorem exact_remquoLast (hw : w = f.mantissaBits + f.exponentBits + 1) (hf : HasRoom f)
    (hyr : f.Represents yr Y) (hY : OnGrid f 0 Y) (hY2 : Y < 2) (h : Dividing f Y V s T Q) :
    Exact (remquoLast f yr s) fun s' => ∃ T' Q', Divided f Y V s' T' Q' ∧ OnGrid f 0 T' := by
  have hV := h.eq
  have hlt := h.lt
  have h0 := h.nonneg
  rw [remquoLast, hyr.value, h.xr.value, h.q]
  refine .ite ?_ ?_
  · intro hgt
    have hgrid := h.grid.sub hY
    have hfits : f.Fits (T - Y) := by
      refine hgrid.fits hf (by decide) (by decide) ?_
      rw [abs_of_nonneg (by linarith)]
      norm_num
      linarith
    refine (exact_sub hw h.xr hyr hfits).bind ?_
    intro xr hxr
    refine .of_pure ⟨T - Y, 2 * Q + 1, .of_grid hf hxr (shiftLeft_ofNat Q).2 (by linarith) (by linarith)
      ?_ le_rfl zero_le_one hgrid hY ?_, hgrid⟩
    · rw [hV]
      push_cast
      ring
    · norm_num
      linarith
  · intro hle
    have hle := not_lt.mp hle
    refine .of_pure ⟨T, 2 * Q, .of_grid hf h.xr (shiftLeft_ofNat Q).1 h0 hle ?_ le_rfl zero_le_one
      h.grid hY ?_, h.grid⟩
    · rw [hV]
      push_cast
      ring
    · norm_num
      linarith

theorem and_one_ne_zero (Q : ℕ) : BitVec.ofNat 32 Q &&& 0x00000001 ≠ 0 ↔ Q % 2 = 1 := by
  rw [ne_eq, ← BitVec.toNat_inj, BitVec.toNat_and, BitVec.toNat_ofNat,
    show (0x00000001 : BitVec 32).toNat = 1 from rfl, show (0 : BitVec 32).toNat = 0 from rfl,
    Nat.and_one_is_mod]
  omega

/-- **The quotient is rounded.** -/
theorem exact_remquoRound {two : BitVec w} (hw : w = f.mantissaBits + f.exponentBits + 1)
    (htwo : f.Represents two 2) (hyr : f.Represents yr Y) (hY : 0 < Y) (h : Divided f Y V s T Q) :
    Exact (remquoRound f two yr s) fun r => ∃ Q' : ℕ, r.2 = BitVec.ofNat 32 Q' ∧
      nearest (V / Y) = Q' ∧ f.Represents r.1 (V - Q' * Y) ∧
      (V - Q' * Y = T ∨ V - Q' * Y = T - Y) := by
  have h0 := div_nonneg h.nonneg hY.le
  have h1 : T / Y ≤ 1 := (div_le_one hY).mpr h.le
  have hnearest := nearest_add Q h0 h1
  have hquot : V / Y = Q + T / Y := by
    rw [h.eq, add_div, mul_div_cancel_right₀ _ hY.ne']
  have hgt : 1 / 2 < T / Y ↔ Y < T * 2 := by
    rw [lt_div_iff₀ hY]
    constructor <;> intro h <;> linarith
  have heq : T / Y = 1 / 2 ↔ Y = T * 2 := by
    rw [div_eq_iff hY.ne']
    constructor <;> intro h <;> linarith
  rw [← hquot] at hnearest
  rw [remquoRound, mul_swap]
  refine (exact_mul hw h.xr htwo h.twice two_pos).bind ?_
  intro twice htwice
  rw [hyr.value, htwice.value, h.q]
  simp only [and_one_ne_zero]
  simp only [hgt, heq] at hnearest
  refine .ite ?_ ?_
  · intro hround
    rw [if_pos hround] at hnearest
    have hle : Y ≤ T * 2 := by
      rcases hround with hround | hround
      · exact hround.le
      · exact hround.1.le
    refine (exact_sub hw h.xr hyr (h.sub hle)).bind ?_
    intro xr hxr
    have hrest : V - (Q + 1 : ℕ) * Y = T - Y := by
      rw [h.eq]
      push_cast
      ring
    refine .of_pure ⟨Q + 1, ?_, ?_, ?_, .inr hrest⟩
    · rw [BitVec.ofNat_add]
      rfl
    · rw [hnearest]
      push_cast
      rfl
    · rw [hrest]
      exact hxr
  · intro hround
    rw [if_neg hround, add_zero] at hnearest
    have hrest : V - Q * Y = T := by
      rw [h.eq]
      ring
    refine .of_pure ⟨Q, h.q, hnearest, ?_, .inl hrest⟩
    rw [hrest]
    exact h.xr

/-- What the loop relies on. -/
structure Scales (f : FloatFormat) (ilogb : BitVec w → Flagged ℤ)
    (ldexp : BitVec w → ℤ → Flagged (BitVec w)) : Prop where
  log {x : BitVec w} {v : ℚ} (hx : f.Represents x v) (hv : 0 < v) :
    Exact (ilogb x) fun e => e = Int.log 2 v
  scale {x : BitVec w} {v : ℚ} {n : ℤ} (hx : f.Represents x v) (h : 0 ≤ v ∨ 2 ^ f.minExp ≤ |v|)
    (hfits : f.Fits (v * 2 ^ n)) : Exact (ldexp x n) fun r => f.Represents r (v * 2 ^ n)

/-- The power of two by which both numbers are divided. -/
def scaleOf (ex ey : ℤ) : ℚ := if -1 ≤ ex - ey then 2 ^ (-ey) else 1

theorem half_scaled (hd : Int.log 2 X - Int.log 2 Y = -1) :
    X * 2 ^ (-Int.log 2 X) * 2 ^ (-1 : ℤ) = X * 2 ^ (-Int.log 2 Y) ∧
      2 * (X * 2 ^ (-Int.log 2 Y)) = X * 2 ^ (-Int.log 2 X) := by
  have hhalf : X * 2 ^ (-Int.log 2 X) * 2 ^ (-1 : ℤ) = X * 2 ^ (-Int.log 2 Y) := by
    rw [mul_assoc, ← zpow_add₀ two_ne_zero]
    congr 2
    omega
  refine ⟨hhalf, ?_⟩
  rw [← hhalf]
  norm_num
  ring

/-- **The dividend is smaller by one exponent**: it is what remains. -/
theorem divided_half (hf : HasRoom f) (hX : OnGrid f 0 (2 * X)) (hY : OnGrid f 0 Y) (hX0 : 0 ≤ X)
    (hX1 : X < 1) (hY1 : 1 ≤ Y) : f.Fits X ∧ OnGrid f 1 X ∧ OnGrid f 1 (X - Y) ∧
      ∀ xr : BitVec w, f.Represents xr X → Divided f Y X (xr, 0) X 0 := by
  have hgrid : OnGrid f 1 X := .of_mul_two hX
  refine ⟨?_, hgrid, hgrid.sub hY.succ, ?_⟩
  · refine hgrid.fits hf (by decide) le_rfl ?_
    rw [abs_of_nonneg hX0, sub_self, zpow_zero]
    exact hX1
  · intro xr hxr
    refine .of_grid hf hxr rfl hX0 (by linarith) ?_ zero_le_one le_rfl hgrid hY.succ ?_
    · push_cast
      ring
    · rw [sub_self, zpow_zero]
      exact hX1

/-- **The dividend is smaller by more**: it is what remains, without a scaling. -/
theorem divided_far {x y : BitVec w} (hx : f.Represents x X) (hy : f.Represents y Y) (hX : 0 < X)
    (hY : 0 < Y) (hfar : Int.log 2 X - Int.log 2 Y < -1) : Divided f Y X (x, 0) X 0 := by
  have hlt : X * 2 < Y := by
    have hltX := Int.lt_zpow_succ_log_self one_lt_two X
    have hleY := Int.zpow_log_le_self (r := Y) one_lt_two hY
    have hpow : (2 : ℚ) ^ (Int.log 2 X + 1) * 2 ≤ 2 ^ Int.log 2 Y := by
      rw [← zpow_add_one₀ two_ne_zero]
      exact zpow_le_zpow_right₀ one_le_two (by omega)
    rw [Nat.cast_ofNat] at hltX hleY
    linarith
  refine ⟨hx, rfl, hX.le, by linarith, by push_cast; ring, ?_, ?_⟩
  · have hnumber := hx.fits.1.mul_two_zpow (k := 1) zero_le_one
    rw [zpow_one] at hnumber
    refine ⟨hnumber, lt_trans ?_ hy.fits.2⟩
    rw [abs_of_pos (by linarith), abs_of_pos hY]
    exact hlt
  · intro hle
    exact absurd hlt (not_lt.mpr hle)

/-- **The quotient before it is rounded.** -/
theorem exact_remquoDivide {ilogb : BitVec w → Flagged ℤ} {ldexp : BitVec w → ℤ → Flagged (BitVec w)}
    (hw : w = f.mantissaBits + f.exponentBits + 1) (hf : HasRoom f) (hs : Scales f ilogb ldexp)
    {x y : BitVec w} (hx : f.Represents x X) (hy : f.Represents y Y) (hX : 0 < X) (hY : 0 < Y) :
    Exact (remquoDivide f ldexp x y (Int.log 2 X) (Int.log 2 Y)) fun s =>
      ∃ T Q, f.Represents s.2 (Y * scaleOf (Int.log 2 X) (Int.log 2 Y)) ∧
        Divided f (Y * scaleOf (Int.log 2 X) (Int.log 2 Y))
          (X * scaleOf (Int.log 2 X) (Int.log 2 Y)) s.1 T Q ∧
        (-1 ≤ Int.log 2 X - Int.log 2 Y → OnGrid f 1 T ∧
          OnGrid f 1 (T - Y * scaleOf (Int.log 2 X) (Int.log 2 Y))) := by
  obtain ⟨hXgrid, hX1, hX2⟩ := onGrid_scaled hx.fits.1 hX
  obtain ⟨hYgrid, hY1, hY2⟩ := onGrid_scaled hy.fits.1 hY
  rw [remquoDivide, scaleOf]
  refine .ite ?_ ?_
  · intro hscaled
    have hfits {Z : ℚ} (hZ : OnGrid f 0 Z) (h0 : 0 ≤ Z) (h2 : Z < 2) : f.Fits Z := by
      refine hZ.fits hf (by decide) (by decide) ?_
      rw [abs_of_nonneg h0]
      norm_num
      exact h2
    rw [if_pos hscaled]
    refine (hs.scale hy (.inl hY.le) (hfits hYgrid (by linarith) hY2)).bind ?_
    intro yr hyr
    refine (hs.scale hx (.inl hX.le) (hfits hXgrid (by linarith) hX2)).bind ?_
    intro xr hxr
    refine .ite ?_ ?_
    · intro hnonneg
      obtain ⟨d, hd⟩ := Int.eq_ofNat_of_zero_le hnonneg
      have hstart : Dividing f (Y * 2 ^ (-Int.log 2 Y)) (X * 2 ^ (-Int.log 2 X)) (xr, 0)
          (X * 2 ^ (-Int.log 2 X)) 0 :=
        ⟨hxr, rfl, by linarith, by linarith, hXgrid, by push_cast; ring⟩
      refine (exact_remquoLoop hw hf hyr hYgrid hY2 _ hstart).bind ?_
      intro s' hs'
      obtain ⟨T', Q', h'⟩ := hs'
      refine (exact_remquoLast hw hf hyr hYgrid hY2 h').bind ?_
      intro s'' hs''
      obtain ⟨T'', Q'', h'', hgrid⟩ := hs''
      have hV : X * 2 ^ (-Int.log 2 X) * 2 ^ (Int.log 2 X - Int.log 2 Y).toNat
          = X * 2 ^ (-Int.log 2 Y) := by
        rw [mul_assoc, ← zpow_natCast, ← zpow_add₀ two_ne_zero]
        congr 2
        omega
      rw [hV] at h''
      exact .of_pure ⟨T'', Q'', hyr, h'', fun _ => ⟨hgrid.succ, (hgrid.sub hYgrid).succ⟩⟩
    · intro hneg
      have hd : Int.log 2 X - Int.log 2 Y = -1 := by omega
      obtain ⟨hhalf, htwo⟩ := half_scaled hd
      obtain ⟨hT, hgrid, hgrid', hdivided⟩ := divided_half (w := w) hf (htwo.symm ▸ hXgrid) hYgrid
        (by linarith) (by linarith) hY1
      rw [← hhalf] at hT
      rw [hd]
      refine (hs.scale hxr (.inl (by linarith)) hT).bind ?_
      intro xr hxr
      rw [hhalf] at hxr
      exact .of_pure ⟨X * 2 ^ (-Int.log 2 Y), 0, hyr, hdivided xr hxr, fun _ => ⟨hgrid, hgrid'⟩⟩
  · intro hfar
    rw [if_neg hfar, mul_one, mul_one]
    exact .of_pure ⟨X, 0, hy, divided_far hx hy hX hY (not_le.mp hfar), fun h => absurd h hfar⟩

/-- **The scaling is undone.** -/
theorem exact_remquoUnscale {ilogb : BitVec w → Flagged ℤ}
    {ldexp : BitVec w → ℤ → Flagged (BitVec w)} (hf : HasRoom f) (hs : Scales f ilogb ldexp)
    {xr : BitVec w} {ex ey : ℤ} (hxr : f.Represents xr (q * scaleOf ex ey))
    (hgrid : -1 ≤ ex - ey → OnGrid f 1 (q * scaleOf ex ey)) (hfits : -1 ≤ ex - ey → f.Fits q) :
    Exact (remquoUnscale ldexp xr ex ey) fun xr => f.Represents xr q := by
  rw [remquoUnscale]
  refine .ite ?_ ?_
  · intro hscaled
    have hgrid := hgrid hscaled
    rw [scaleOf, if_pos hscaled] at hxr hgrid
    have hcancel : q * 2 ^ (-ey) * 2 ^ ey = q := by
      rw [mul_assoc, ← zpow_add₀ two_ne_zero, neg_add_cancel, zpow_zero, mul_one]
    have hnormal : 0 ≤ q * 2 ^ (-ey) ∨ 2 ^ f.minExp ≤ |q * 2 ^ (-ey)| := by
      rcases eq_or_ne (q * 2 ^ (-ey)) 0 with h0 | h0
      · exact .inl h0.ge
      · exact .inr (hgrid.le_abs hf h0)
    have hscale := hs.scale (n := ey) hxr hnormal (by rw [hcancel]; exact hfits hscaled)
    rwa [hcancel] at hscale
  · intro hfar
    rw [scaleOf, if_neg hfar, mul_one] at hxr
    exact .of_pure hxr

theorem and_ofNat (Q : ℕ) : (BitVec.ofNat 32 Q &&& 0x0000007f).toNat = Q % 128 := by
  rw [BitVec.toNat_and, BitVec.toNat_ofNat, show (0x0000007f : BitVec 32).toNat = 2 ^ 7 - 1 from rfl,
    Nat.and_two_pow_sub_one_eq_mod]
  omega

/-- What remquo returns: the remainder, with the sign of `x` if it is 0, and the last bits of the
nearest quotient. -/
def IsRemquo (f g : FloatFormat) {v : ℕ} (x y : BitVec w) (r : BitVec v × ℤ) : Prop :=
  let n := nearest (f.value x / f.value y)
  g.Finite r.1 ∧ g.value r.1 = f.value x - n * f.value y ∧
    (g.value r.1 = 0 → g.signBit r.1 = f.signBit x) ∧
    r.2 = (if f.value x / f.value y < 0 then -1 else 1) * (n.natAbs % 128 : ℕ)

/-- **The signs** of the remainder and of the quotient. -/
theorem isRemquo_of_abs {signbit : BitVec w → Bool} (hw : w = f.mantissaBits + f.exponentBits + 1)
    (hsign : ∀ x, f.Finite x → signbit x = f.signBit x) {x y xr : BitVec w} (hx : f.Finite x)
    (hy : f.Finite y) (hx0 : f.value x ≠ 0) (hy0 : f.value y ≠ 0)
    (hnearest : nearest (|f.value x| / |f.value y|) = Q)
    (hxr : f.Represents xr
      (|f.value x| - nearest (|f.value x| / |f.value y|) * |f.value y|)) :
    IsRemquo f f x y (if f.value x < 0 then f.neg xr else xr,
      if (if signbit x = signbit y then 1 else -1 : ℤ) < 0
      then -((BitVec.ofNat 32 Q &&& 0x0000007f).toNat : ℤ)
      else (BitVec.ofNat 32 Q &&& 0x0000007f).toNat) := by
  have hxsign : f.signBit x = decide (f.value x < 0) := (Represents.of_ne_zero hx hx0).signBit_eq
  have hysign : f.signBit y = decide (f.value y < 0) := (Represents.of_ne_zero hy hy0).signBit_eq
  obtain ⟨hfinite, hvalue, hsignBit⟩ := neg_fields hw hxr.finite
  obtain ⟨hnat, hrem⟩ := remainder_eq (f.value x) (f.value y)
  refine ⟨?_, ?_, ?_, ?_⟩
  · split
    · exact hfinite
    · exact hxr.finite
  · rw [hrem]
    split
    · rw [hvalue, hxr.value]
    · exact hxr.value
  · rw [hxsign]
    split
    · rename_i hneg
      rw [hvalue, hsignBit, hxr.value, neg_eq_zero]
      intro h0
      rw [hxr.sign h0, decide_eq_true hneg]
      rfl
    · rename_i hpos
      rw [hxr.value, decide_eq_false hpos]
      exact hxr.sign
  · rw [hnat, hnearest, and_ofNat, hsign x hx, hsign y hy, hxsign, hysign, Int.natAbs_natCast]
    simp only [div_neg_iff_decide hx0 hy0]
    by_cases hsigns : decide (f.value x < 0) = decide (f.value y < 0)
    · simp [hsigns]
    · simp [hsigns]

/-- **Finite numbers that are not 0.** -/
theorem exact_remquoFinite {ilogb : BitVec w → Flagged ℤ} {ldexp : BitVec w → ℤ → Flagged (BitVec w)}
    {two : BitVec w} {signbit : BitVec w → Bool} (hw : w = f.mantissaBits + f.exponentBits + 1)
    (hf : HasRoom f) (hs : Scales f ilogb ldexp) (htwo : f.Represents two 2)
    (hsign : ∀ x, f.Finite x → signbit x = f.signBit x) {x y : BitVec w} (hx : f.Finite x)
    (hy : f.Finite y) (hx0 : f.value x ≠ 0) (hy0 : f.value y ≠ 0) :
    Exact (remquoFinite f ilogb ldexp two signbit x y) (IsRemquo f f x y) := by
  have hX := abs_pos.mpr hx0
  have hY := abs_pos.mpr hy0
  have hxabs := represents_fabs hw hx
  have hyabs := represents_fabs hw hy
  rw [remquoFinite]
  refine (hs.log hxabs hX).bind ?_
  intro ex hex
  refine (hs.log hyabs hY).bind ?_
  intro ey hey
  subst hex hey
  refine (exact_remquoDivide hw hf hs hxabs hyabs hX hY).bind ?_
  intro s hs'
  obtain ⟨T, Q, hyr, hdivided, hgrid⟩ := hs'
  have hc : 0 < scaleOf (Int.log 2 |f.value x|) (Int.log 2 |f.value y|) := by
    rw [scaleOf]
    split
    · exact two_zpow_pos _
    · exact one_pos
  refine (exact_remquoRound hw htwo hyr (mul_pos hY hc) hdivided).bind ?_
  intro r hr
  obtain ⟨Q', hq, hnearest, hxr, hrest⟩ := hr
  rw [mul_div_mul_right _ _ hc.ne'] at hnearest
  have hremainder : |f.value x| * scaleOf (Int.log 2 |f.value x|) (Int.log 2 |f.value y|)
        - Q' * (|f.value y| * scaleOf (Int.log 2 |f.value x|) (Int.log 2 |f.value y|))
      = (|f.value x| - nearest (|f.value x| / |f.value y|) * |f.value y|)
        * scaleOf (Int.log 2 |f.value x|) (Int.log 2 |f.value y|) := by
    rw [hnearest]
    push_cast
    ring
  rw [hremainder] at hxr hrest
  have hunscaled := exact_remquoUnscale hf hs hxr ?_ ?_
  · refine hunscaled.bind ?_
    intro xr hxr'
    rw [hq]
    exact .of_pure (isRemquo_of_abs hw hsign hx hy hx0 hy0 hnearest hxr')
  · intro hscaled
    obtain ⟨hT, hT'⟩ := hgrid hscaled
    rcases hrest with hrest | hrest
    · rw [hrest]
      exact hT
    · rw [hrest]
      exact hT'
  · intro hscaled
    exact fits_remainder hxabs.fits hyabs.fits hX hY (by omega)

theorem isRemquo_zero {g : FloatFormat} {v : ℕ} {x y : BitVec w} {r : BitVec v}
    (hx : f.value x = 0) (hr : g.Finite r) (hvalue : g.value r = 0)
    (hsign : g.signBit r = f.signBit x) : IsRemquo f g x y (r, 0) := by
  have hn : nearest (f.value x / f.value y) = 0 := by
    rw [hx, zero_div]
    exact_mod_cast nearest_intCast 0
  rw [IsRemquo, hn, hx, hvalue]
  exact ⟨hr, by simp, fun _ => hsign, by simp⟩

theorem isRemquo_of_fabs {g : FloatFormat} {v : ℕ} {x y : BitVec w} {r : BitVec v}
    (hw : w = f.mantissaBits + f.exponentBits + 1) (h : f.fabs x = f.fabs y) (hy0 : f.value y ≠ 0)
    (hr : g.Finite r) (hvalue : g.value r = 0) (hsign : g.signBit r = f.signBit x) :
    IsRemquo f g x y (r, if x = y then 1 else -1) := by
  have hbits : f.magnitudeBits x = f.magnitudeBits y := by
    have hmag := congrArg f.magnitudeBits h
    rwa [fabs, fabs, (index_ofMagnitude hw magnitudeBits_lt).1,
      (index_ofMagnitude hw magnitudeBits_lt).1] at hmag
  by_cases heq : x = y
  · subst heq
    have hn : nearest (f.value x / f.value x) = 1 := by
      rw [div_self hy0]
      exact nearest_intCast 1
    rw [IsRemquo, hn, hvalue, if_pos rfl, div_self hy0]
    exact ⟨hr, by simp, fun _ => hsign, by norm_num⟩
  · have hneg : f.value x = -f.value y := by
      have hx := ofMagnitude_magnitudeBits hw x
      have hy := ofMagnitude_magnitudeBits hw y
      have hne : x.getLsbD (f.mantissaBits + f.exponentBits)
          ≠ y.getLsbD (f.mantissaBits + f.exponentBits) := by
        intro hsigns
        rw [hsigns, hbits, hy] at hx
        exact heq hx.symm
      rw [value_eq_magnitude, value_eq_magnitude, hbits, FloatFormat.sign, FloatFormat.sign]
      cases hx' : x.getLsbD (f.mantissaBits + f.exponentBits) <;>
        cases hy' : y.getLsbD (f.mantissaBits + f.exponentBits) <;> simp_all
    have hn : nearest (f.value x / f.value y) = -1 := by
      rw [hneg, neg_div, div_self hy0]
      exact nearest_intCast (-1)
    rw [IsRemquo, hn, hvalue, if_neg heq, hneg, neg_div, div_self hy0]
    exact ⟨hr, by simp, fun _ => hsign, by norm_num⟩

end

/-! ### The two functions -/

theorem hasRoom_binary32 : HasRoom binary32 := ⟨by decide, by decide +kernel⟩

theorem hasRoom_binary64 : HasRoom binary64 := by
  refine ⟨by decide, ?_⟩
  rw [magnitude_finiteCount_binary64]
  decide +kernel

theorem widens_binary64 : binary32.Widens binary64 := by
  refine ⟨by decide, by decide, ?_⟩
  rw [magnitude_finiteCount_binary64]
  decide +kernel

section

variable (gDeviceILogb0 gDeviceILogbNaN : ℤ)

theorem scales_binary64 :
    Scales binary64 (referenceIlogbl gDeviceILogb0 gDeviceILogbNaN) referenceLdexp where
  log hx hv := exact_ilogbBits gDeviceILogb0 gDeviceILogbNaN hx hx hv
  scale hx h hfits := exact_scalbn hx h hfits

theorem scales_binary32 : Scales binary32 (ilogbFloat gDeviceILogb0 gDeviceILogbNaN) ldexpFloat where
  log {x v} hx hv := by
    have hfits := hx.fits.widen widens_binary64
    rw [ilogbFloat]
    refine (exact_converted (v := 64) rfl hx hfits).bind ?_
    intro x' hx'
    refine (exact_converted (v := 32) rfl hx' hx.fits).bind ?_
    intro u hu
    refine (exact_converted rfl hu hfits).bind ?_
    intro u' hu'
    exact exact_ilogbBits gDeviceILogb0 gDeviceILogbNaN hu' hx' hv
  scale {x v n} hx h hfits := by
    rw [ldexpFloat]
    refine (exact_converted rfl hx (hx.fits.widen widens_binary64)).bind ?_
    intro x' hx'
    have hnormal : 0 ≤ v ∨ 2 ^ (-1022 : ℤ) ≤ |v| := by
      refine h.imp_right ?_
      intro hle
      exact (zpow_le_zpow_right₀ one_le_two (by decide)).trans hle
    refine (exact_scalbn hx' hnormal (hfits.widen widens_binary64)).bind ?_
    intro r hr
    exact exact_converted rfl hr hfits

theorem referenceSignbit_convert {x : BitVec 64} (hx : binary64.Finite x) :
    referenceSignbit (binary64.convert binary32 .toNearest x) = binary64.signBit x := by
  have hsign := getLsbD_ofRat (f := binary32) (w := 32) .toNearest rfl
    (x.getLsbD (binary64.mantissaBits + binary64.exponentBits)) (binary64.value x)
  rw [sign_value] at hsign
  rw [referenceSignbit, convert_of_finite hx]
  exact hsign

theorem zero_of_sign (s : Bool) :
    binary64.Finite (if s then 0x8000000000000000 else 0 : BitVec 64) ∧
      binary64.value (if s then 0x8000000000000000 else 0 : BitVec 64) = 0 ∧
      binary64.signBit (if s then 0x8000000000000000 else 0 : BitVec 64) = s := by
  cases s <;> decide +kernel

/-- **The remainders and the quotients are right, and no operation is inexact.** -/
theorem referenceRemquo_exact :
    (∀ x y : BitVec 32, binary32.Finite x → binary32.Finite y → binary32.value y ≠ 0 →
      Exact (referenceRemquo gDeviceILogb0 gDeviceILogbNaN (binary32.convert binary64 .toNearest x)
        (binary32.convert binary64 .toNearest y)) (IsRemquo binary32 binary64 x y)) ∧
    ∀ x y : BitVec 64, binary64.Finite x → binary64.Finite y → binary64.value y ≠ 0 →
      Exact (referenceRemquol gDeviceILogb0 gDeviceILogbNaN x y) (IsRemquo binary64 binary64 x y) := by
  constructor
  · intro x y hx hy hy0
    obtain ⟨hxnan, hxinf, hxzero⟩ := hx.floatClass_eq (by decide)
    obtain ⟨hynan, hyinf, hyzero⟩ := hy.floatClass_eq (by decide)
    have hy0' := mt hyzero.mp hy0
    rw [referenceRemquo]
    refine (exact_converted_back (w := 32) (v := 64) widens_binary64 rfl rfl hx).bind ?_
    intro xx hxx
    refine (exact_converted_back (w := 32) (v := 64) widens_binary64 rfl rfl hy).bind ?_
    intro yy hyy
    subst hxx hyy
    rw [if_neg (by simp [hxnan, hynan, hxinf, hy0'])]
    refine .ite ?_ fun hx0 => .ite ?_ fun _ => ?_
    · intro hzero
      have hx0 := hxzero.mp (hzero.resolve_left hyinf)
      obtain ⟨r, -, rfl, hfinite, hvalue, hsign⟩ :=
        exact_converted_widen (v := 64) widens_binary64 rfl hx false
      exact .of_pure (isRemquo_zero hx0 hfinite (hvalue.trans hx0) hsign)
    · intro habs
      obtain ⟨hfinite, hvalue, hsign⟩ := zero_of_sign (referenceSignbit xx)
      exact .of_pure (isRemquo_of_fabs rfl habs hy0 hfinite hvalue hsign)
    · have htwo : binary32.Represents (0x40000000 : BitVec 32) 2 :=
        ⟨by decide, by decide +kernel, fun h => absurd h two_ne_zero⟩
      have hx0' := fun h => hx0 (.inr (hxzero.mpr h))
      refine (exact_remquoFinite (w := 32) rfl hasRoom_binary32
        (scales_binary32 gDeviceILogb0 gDeviceILogbNaN) htwo (fun x _ => rfl) hx hy hx0' hy0).bind
          fun r hr => ?_
      obtain ⟨hfinite, hvalue, hsign, hn⟩ := hr
      refine (exact_converted_widen (v := 64) widens_binary64 rfl hfinite).bind ?_
      intro xr hxr
      obtain ⟨-, hfinite', hvalue', hsign'⟩ := hxr
      refine .of_pure ⟨hfinite', hvalue'.trans hvalue, ?_, hn⟩
      rw [hvalue', hsign']
      exact hsign
  · intro x y hx hy hy0
    obtain ⟨hxnan, hxinf, hxzero⟩ := hx.floatClass_eq (by decide)
    obtain ⟨hynan, hyinf, hyzero⟩ := hy.floatClass_eq (by decide)
    have hy0' := mt hyzero.mp hy0
    rw [referenceRemquol]
    dsimp only
    rw [if_neg (by simp [hxnan, hynan, hxinf, hy0'])]
    refine .ite ?_ fun hx0 => .ite ?_ fun _ => ?_
    · intro hzero
      have hx0 := hxzero.mp (hzero.resolve_left hyinf)
      exact .of_pure (isRemquo_zero hx0 hx hx0 rfl)
    · intro habs
      obtain ⟨hfinite, hvalue, hsign⟩ :=
        zero_of_sign (referenceSignbit (binary64.convert binary32 .toNearest x))
      exact .of_pure (isRemquo_of_fabs (w := 64) rfl habs hy0 hfinite hvalue
        (hsign.trans (referenceSignbit_convert hx)))
    · have htwo : binary64.Represents (0x4000000000000000 : BitVec 64) 2 :=
        ⟨by decide, by decide +kernel, fun h => absurd h two_ne_zero⟩
      have hx0' := fun h => hx0 (.inr (hxzero.mpr h))
      exact exact_remquoFinite rfl hasRoom_binary64
        (scales_binary64 gDeviceILogb0 gDeviceILogbNaN) htwo
          (fun x hx => referenceSignbit_convert hx) hx hy hx0' hy0

end

/-- 5 and 2: the quotient 2.5 is a tie. -/
theorem referenceRemquo_five_two :
    Exact (referenceRemquo 0 0 (binary32.convert binary64 .toNearest (0x40a00000 : BitVec 32))
        (binary32.convert binary64 .toNearest (0x40000000 : BitVec 32)))
      (IsRemquo binary32 binary64 (0x40a00000 : BitVec 32) (0x40000000 : BitVec 32)) ∧
    Exact (referenceRemquol 0 0 0x4014000000000000 0x4000000000000000)
      (IsRemquo binary64 binary64 (0x4014000000000000 : BitVec 64) (0x4000000000000000 : BitVec 64)) :=
  ⟨(referenceRemquo_exact 0 0).1 _ _ (by decide) (by decide) (by decide +kernel),
    (referenceRemquo_exact 0 0).2 _ _ (by decide) (by decide) (by decide +kernel)⟩

end OpenCLCTS.MathBruteForce
