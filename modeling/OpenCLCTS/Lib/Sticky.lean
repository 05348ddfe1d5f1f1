import OpenCLCTS.Lib.FloatEncode

/-!
# Sticky bits

A sum is rounded from fewer bits than it has: the bits that are lost leave a mark in the last one.
Numbers are on the same side of all multiples of a unit, or equal to the same one, if comparing them
with these multiples gives the same.

* `sameSide_jam`: a shift to the right with a sticky bit.
* `SameSide.roundIn_eq`: numbers on the same side of half of the last bits are rounded to the same.
* `roundIn_nearest_of_gt`, `roundIn_nearest_of_lt`: the numbers next to one; only a tie is changed.
-/

/-- Multiples of `u` compare in the same way. -/
def SameSide (u v r : ℚ) : Prop := ∀ n : ℤ, (v < n * u ↔ r < n * u) ∧ (n * u < v ↔ n * u < r)

/-- A shift to the right, with a sticky bit. -/
def jam (n s : ℕ) : ℕ := n / 2 ^ s ||| if n % 2 ^ s = 0 then 0 else 1

namespace SameSide

variable {u v r t k : ℚ}

@[refl]
theorem refl (u v : ℚ) : SameSide u v v := fun _ => ⟨Iff.rfl, Iff.rfl⟩

theorem symm (h : SameSide u v r) : SameSide u r v := fun n => ⟨(h n).1.symm, (h n).2.symm⟩

theorem trans (h : SameSide u v r) (h' : SameSide u r t) : SameSide u v t := fun n =>
  ⟨(h n).1.trans (h' n).1, (h n).2.trans (h' n).2⟩

theorem of_between (m : ℤ) (hu : 0 < u) (hv : m * u < v) (hv' : v < (m + 1) * u) (hr : m * u < r)
    (hr' : r < (m + 1) * u) : SameSide u v r := by
  intro n
  rcases Int.lt_or_le m n with h | h
  · have hle : ((m : ℚ) + 1) * u ≤ n * u :=
      mul_le_mul_of_nonneg_right (by exact_mod_cast h) hu.le
    exact ⟨iff_of_true (by linarith) (by linarith),
      iff_of_false (by linarith) (by linarith)⟩
  · have hle : (n : ℚ) * u ≤ m * u := mul_le_mul_of_nonneg_right (by exact_mod_cast h) hu.le
    exact ⟨iff_of_false (by linarith) (by linarith), iff_of_true (by linarith) (by linarith)⟩

theorem mul_right (h : SameSide u v r) (hk : 0 < k) : SameSide (u * k) (v * k) (r * k) := by
  intro n
  rw [← mul_assoc, mul_lt_mul_iff_left₀ hk, mul_lt_mul_iff_left₀ hk, mul_lt_mul_iff_left₀ hk,
    mul_lt_mul_iff_left₀ hk]
  exact h n

theorem of_mul (m : ℤ) (h : SameSide u v r) : SameSide (m * u) v r := by
  intro n
  rw [← mul_assoc, ← Int.cast_mul]
  exact h (n * m)

theorem of_zpow {i j : ℤ} (h : SameSide (2 ^ i) v r) (hij : i ≤ j) : SameSide (2 ^ j) v r := by
  obtain ⟨d, hd⟩ : ∃ d : ℕ, j = d + i := ⟨(j - i).toNat, by omega⟩
  have hmul := h.of_mul (2 ^ d)
  rwa [Int.cast_pow, Int.cast_ofNat, ← zpow_natCast, ← zpow_add₀ two_ne_zero, ← hd] at hmul

theorem add (h : SameSide u v r) (m : ℤ) : SameSide u (m * u + v) (m * u + r) := by
  intro n
  have hn := h (n - m)
  push_cast at hn
  rw [sub_mul, lt_sub_iff_add_lt', lt_sub_iff_add_lt', sub_lt_iff_lt_add', sub_lt_iff_lt_add'] at hn
  exact hn

theorem neg (h : SameSide u v r) : SameSide u (-v) (-r) := by
  intro n
  have hn := h (-n)
  push_cast at hn
  rw [neg_mul] at hn
  exact ⟨neg_lt.trans (hn.2.trans neg_lt), lt_neg.trans (hn.1.trans lt_neg)⟩

theorem sub (h : SameSide u v r) (m : ℤ) : SameSide u (m * u - v) (m * u - r) := by
  rw [sub_eq_add_neg, sub_eq_add_neg]
  exact h.neg.add m

theorem neg_iff (h : SameSide u v r) : v < 0 ↔ r < 0 := by
  have h0 := (h 0).1
  rwa [Int.cast_zero, zero_mul] at h0

theorem pos_iff (h : SameSide u v r) : 0 < v ↔ 0 < r := by
  have h0 := (h 0).2
  rwa [Int.cast_zero, zero_mul] at h0

theorem eq_zero_iff (h : SameSide u v r) : v = 0 ↔ r = 0 := by
  have hneg := h.neg_iff
  have hpos := h.pos_iff
  constructor
  · rintro rfl
    exact le_antisymm (not_lt.mp fun h' => lt_irrefl _ (hpos.mpr h'))
      (not_lt.mp fun h' => lt_irrefl _ (hneg.mpr h'))
  · rintro rfl
    exact le_antisymm (not_lt.mp fun h' => lt_irrefl _ (hpos.mp h'))
      (not_lt.mp fun h' => lt_irrefl _ (hneg.mp h'))

theorem abs (h : SameSide u v r) : SameSide u |v| |r| := by
  rcases lt_or_ge v 0 with hv | hv
  · rw [abs_of_neg hv, abs_of_neg (h.neg_iff.mp hv)]
    exact h.neg
  · have hr : 0 ≤ r := not_lt.mp fun hr => absurd (h.neg_iff.mpr hr) (not_lt.mpr hv)
    rw [abs_of_nonneg hv, abs_of_nonneg hr]
    exact h

theorem lt_zpow_iff {i j : ℤ} (h : SameSide (2 ^ i) v r) (hij : i ≤ j) :
    v < 2 ^ j ↔ r < 2 ^ j := by
  have h1 := ((h.of_zpow hij) 1).1
  rwa [Int.cast_one, one_mul] at h1

end SameSide

theorem jam_zero (n : ℕ) : jam n 0 = n := by
  rw [jam, pow_zero, Nat.mod_one, if_pos rfl, Nat.div_one, Nat.or_zero]

/-- **A shift with a sticky bit** is on the same side of the even numbers. -/
theorem sameSide_jam (n s : ℕ) : SameSide 2 (n / 2 ^ s) (jam n s) := by
  have hpos := Nat.two_pow_pos s
  have hdiv : (n : ℚ) / 2 ^ s = (n / 2 ^ s : ℕ) + (n % 2 ^ s : ℕ) / 2 ^ s := by
    have hadd : ((2 ^ s * (n / 2 ^ s) + n % 2 ^ s : ℕ) : ℚ) = n := by rw [Nat.div_add_mod]
    rw [← hadd]
    push_cast
    rw [add_div, mul_div_cancel_left₀ _ (by positivity)]
  have hlt : ((n % 2 ^ s : ℕ) : ℚ) / 2 ^ s < 1 := by
    rw [div_lt_one (by positivity)]
    exact_mod_cast Nat.mod_lt n hpos
  rw [jam]
  split
  · rename_i h
    rw [Nat.or_zero, hdiv, h, Nat.cast_zero, zero_div, add_zero]
  · rename_i h
    have hgt : (0 : ℚ) < ((n % 2 ^ s : ℕ) : ℚ) / 2 ^ s :=
      div_pos (by exact_mod_cast Nat.pos_of_ne_zero h) (by positivity)
    obtain ⟨m, hm⟩ : ∃ m, m = n / 2 ^ s := ⟨_, rfl⟩
    obtain ⟨d, hd⟩ : ∃ d, d = m / 2 := ⟨_, rfl⟩
    have hle : ((2 * d : ℕ) : ℚ) ≤ m := by exact_mod_cast (show 2 * d ≤ m by omega)
    have hge : (m : ℚ) ≤ (2 * d + 1 : ℕ) := by exact_mod_cast (show m ≤ 2 * d + 1 by omega)
    have hor : m ||| 1 = 2 * d + 1 := by
      have hhalf := Nat.or_div_two (a := m) (b := 1)
      have hodd := Nat.or_mod_two_eq_one (a := m) (b := 1)
      have hone : m / 2 ||| 1 / 2 = m / 2 := Nat.or_zero _
      omega
    rw [← hm] at hdiv
    rw [← hm, hor, hdiv]
    push_cast at hle hge ⊢
    refine .of_between d two_pos ?_ ?_ ?_ ?_ <;> push_cast <;> linarith

theorem jam_compare (n s k : ℕ) : (2 * k < jam n s ↔ 2 * k * 2 ^ s < n) ∧
    (2 * k = jam n s ↔ 2 * k * 2 ^ s = n) := by
  obtain ⟨hlt, hgt⟩ := sameSide_jam n s k
  have hpos : (0 : ℚ) < 2 ^ s := by positivity
  rw [div_lt_iff₀ hpos] at hlt
  rw [lt_div_iff₀ hpos] at hgt
  have hlt' : n < k * 2 * 2 ^ s ↔ jam n s < k * 2 := by exact_mod_cast hlt
  have hgt' : k * 2 * 2 ^ s < n ↔ k * 2 < jam n s := by exact_mod_cast hgt
  rw [Nat.mul_comm 2]
  omega

/-! ### Rounding -/

open FloatFormat

namespace SameSide

variable {f : FloatFormat} {x y q r : ℚ} {i : ℤ}

/-- **The integers that a mode takes them to** are the same. -/
theorem toInt_eq (h : SameSide (1 / 2) x y) (mode : Mode) : mode.toInt x = mode.toInt y := by
  have hint (n : ℤ) : (x < n ↔ y < n) ∧ (n < x ↔ n < y) := by
    have hn := h (2 * n)
    push_cast at hn
    rwa [show (2 : ℚ) * n * (1 / 2) = n by ring] at hn
  have hhalf (n : ℤ) : (x < n + 1 / 2 ↔ y < n + 1 / 2) ∧ (n + 1 / 2 < x ↔ n + 1 / 2 < y) := by
    have hn := h (2 * n + 1)
    push_cast at hn
    rwa [show ((2 : ℚ) * n + 1) * (1 / 2) = n + 1 / 2 by ring] at hn
  have hceil : ⌈x⌉ = ⌈y⌉ := by
    refine eq_of_forall_ge_iff ?_
    intro n
    rw [Int.ceil_le, Int.ceil_le, ← not_lt, ← not_lt, (hint n).2]
  have hfloor : ⌊x⌋ = ⌊y⌋ := by
    refine eq_of_forall_le_iff ?_
    intro n
    rw [Int.le_floor, Int.le_floor, ← not_lt, ← not_lt, (hint n).1]
  cases mode with
  | toNearest =>
    refine eq_of_forall_ge_iff ?_
    intro n
    have heq : x = n + 1 / 2 ↔ y = n + 1 / 2 := by
      simp only [le_antisymm_iff, ← not_lt, (hhalf n).1, (hhalf n).2]
    rw [Mode.toInt, nearest_le_iff, nearest_le_iff, (hhalf n).1, heq]
  | upward => exact hceil
  | downward => exact hfloor
  | towardZero =>
    have hneg := h.neg_iff
    rw [Mode.toInt, truncate, truncate, hceil, hfloor]
    simp only [hneg]

theorem ulp_eq (h : SameSide (2 ^ i) q r) (hi : i + 1 ≤ f.ulp q) : f.ulp q = f.ulp r := by
  rcases eq_or_ne q 0 with hq | hq
  · rw [hq, h.eq_zero_iff.mp hq]
  · have hr : r ≠ 0 := fun hr => hq (h.eq_zero_iff.mpr hr)
    have habs := h.abs
    have hlog {j : ℤ} (hij : i ≤ j) : Int.log 2 |q| < j ↔ Int.log 2 |r| < j := by
      rw [← Int.lt_zpow_iff_log_lt one_lt_two (abs_pos.mpr hq),
        ← Int.lt_zpow_iff_log_lt one_lt_two (abs_pos.mpr hr)]
      exact habs.lt_zpow_iff hij
    have hleast := hlog (le_refl i)
    have hq' := hlog (j := max i (Int.log 2 |q|)) (le_max_left _ _)
    have hq'' := hlog (j := max i (Int.log 2 |q| + 1)) (le_max_left _ _)
    rw [ulp] at hi ⊢
    rw [ulp]
    omega

/-- **Numbers on the same side of half of the last bits** are rounded to the same. -/
theorem roundIn_eq (h : SameSide (2 ^ i) q r) (hi : i + 1 ≤ f.ulp q) (mode : Mode) :
    f.roundIn mode q = f.roundIn mode r := by
  have hulp := h.ulp_eq hi
  have hscale := (h.of_zpow (show i ≤ f.ulp q - 1 by omega)).mul_right
    (k := 1 / 2 ^ f.ulp q) (one_div_pos.mpr (two_zpow_pos _))
  rw [zpow_sub_one₀ two_ne_zero] at hscale
  have hpos := two_zpow_pos (f.ulp q)
  rw [show (2 : ℚ) ^ f.ulp q * 2⁻¹ * (1 / 2 ^ f.ulp q) = 1 / 2 by field_simp, mul_one_div,
    mul_one_div] at hscale
  rw [roundIn, roundIn, ← hulp, hscale.toInt_eq]

end SameSide

/-! ### Signs -/

namespace FloatFormat

variable {f : FloatFormat} {x y q r : ℚ} {mode : Mode}

/-- The mode on the other side of 0. -/
def Mode.neg : Mode → Mode
  | .toNearest => .toNearest
  | .upward => .downward
  | .downward => .upward
  | .towardZero => .towardZero

theorem nearest_neg (x : ℚ) : nearest (-x) = -nearest x := by
  refine eq_of_forall_ge_iff ?_
  intro n
  have hdual : -nearest x ≤ n ↔ ¬ nearest x ≤ -n - 1 := by omega
  have hodd : (-n - 1) % 2 = 0 ↔ ¬ n % 2 = 0 := by omega
  rw [hdual, nearest_le_iff, nearest_le_iff, hodd]
  push_cast
  rcases lt_trichotomy x (-n - 1 / 2) with h | h | h
  · refine iff_of_false ?_ (not_not.mpr (.inl (by linarith)))
    intro h'
    rcases h' with h' | ⟨h', -⟩ <;> linarith
  · have heq : -x = n + 1 / 2 := by linarith
    have heq' : x = -n - 1 + 1 / 2 := by linarith
    rw [heq, heq']
    simp
  · refine iff_of_true (.inl (by linarith)) ?_
    intro h'
    rcases h' with h' | ⟨h', -⟩ <;> linarith

theorem Mode.toInt_neg (mode : Mode) (x : ℚ) : mode.toInt (-x) = -mode.neg.toInt x := by
  cases mode with
  | toNearest => exact nearest_neg x
  | upward => exact Int.ceil_neg
  | downward => exact Int.floor_neg
  | towardZero =>
    rw [Mode.toInt, Mode.neg, Mode.toInt]
    rcases le_total 0 x with h | h
    · rw [truncate_of_nonneg h, truncate_of_nonpos (neg_nonpos.mpr h), Int.ceil_neg]
    · rw [truncate_of_nonpos h, truncate_of_nonneg (neg_nonneg.mpr h), Int.floor_neg]

theorem roundIn_neg (f : FloatFormat) (mode : Mode) (q : ℚ) :
    f.roundIn mode (-q) = -f.roundIn mode.neg q := by
  rw [roundIn, roundIn, ulp_neg, neg_div, Mode.toInt_neg, Int.cast_neg, neg_mul]

/-! ### The numbers next to one -/

/-- A tie: half of a last bit is left. -/
def IsTie (f : FloatFormat) (q : ℚ) : Prop := Int.fract (q / 2 ^ f.ulp q) = 1 / 2

instance (f : FloatFormat) (q : ℚ) : Decidable (f.IsTie q) := inferInstanceAs (Decidable (_ = _))

theorem fract_neg_eq_half (x : ℚ) : Int.fract (-x) = 1 / 2 ↔ Int.fract x = 1 / 2 := by
  rcases eq_or_ne (Int.fract x) 0 with h0 | h0
  · rw [Int.fract_neg_eq_zero.mpr h0, h0]
  · rw [Int.fract_neg h0]
    constructor
    · intro h
      linarith
    · intro h
      linarith

/-- A number a little above: only a tie is taken to another integer. -/
theorem nearest_of_gt (hxy : x < y) (h : ∀ n : ℤ, x < n / 2 → y < n / 2) :
    nearest y = if Int.fract x = 1 / 2 then ⌈x⌉ else nearest x := by
  have hle := Int.floor_le x
  have hlt := Int.lt_floor_add_one x
  have hfract := Int.self_sub_floor x
  have hnext := h (2 * ⌊x⌋ + 2) (by push_cast; linarith)
  have hhalf := h (2 * ⌊x⌋ + 1)
  push_cast at hnext hhalf
  have hfloor : ⌊y⌋ = ⌊x⌋ := by
    rw [Int.floor_eq_iff]
    constructor <;> linarith
  rw [nearest, hfloor]
  split
  · rename_i hup
    split
    · rename_i htie
      rw [eq_comm, Int.ceil_eq_iff]
      push_cast
      constructor <;> linarith
    · rename_i htie
      have hgt : 1 / 2 < x - ⌊x⌋ := by
        by_contra hnot
        have hlt' : x - ⌊x⌋ < 1 / 2 := lt_of_le_of_ne (not_lt.mp hnot) (hfract ▸ htie)
        have hy := hhalf (by linarith)
        rcases hup with hup | hup <;> linarith
      rw [nearest, if_pos (.inl hgt)]
  · rename_i hdown
    push Not at hdown
    rw [if_neg (by intro htie; rw [← hfract] at htie; linarith [hdown.1]), nearest, if_neg]
    intro hx
    rcases hx with hx | ⟨hx, -⟩ <;> linarith [hdown.1]

theorem log_mul_zpow {m : ℕ} (hm : m ≠ 0) (j : ℤ) :
    Int.log 2 ((m : ℚ) * 2 ^ j) = Nat.log 2 m + j := by
  have hpos := two_zpow_pos j
  have hm' : (0 : ℚ) < m := by exact_mod_cast Nat.pos_of_ne_zero hm
  have hle : (2 : ℚ) ^ Nat.log 2 m ≤ m := by exact_mod_cast Nat.pow_log_le_self 2 hm
  have hlt : (m : ℚ) < 2 ^ (Nat.log 2 m + 1) := by
    exact_mod_cast Nat.lt_pow_succ_log_self one_lt_two m
  apply le_antisymm
  · rw [← Int.lt_add_one_iff, ← Int.lt_zpow_iff_log_lt one_lt_two (mul_pos hm' hpos),
      show (Nat.log 2 m : ℤ) + j + 1 = (Nat.log 2 m + 1 : ℕ) + j by push_cast; ring,
      Nat.cast_ofNat, zpow_add₀ two_ne_zero, zpow_natCast]
    exact mul_lt_mul_of_pos_right hlt hpos
  · rw [← Int.zpow_le_iff_le_log one_lt_two (mul_pos hm' hpos), Nat.cast_ofNat,
      zpow_add₀ two_ne_zero, zpow_natCast]
    exact mul_le_mul_of_nonneg_right hle hpos.le

theorem abs_intCast_mul_zpow (n j : ℤ) : |(n : ℚ) * 2 ^ j| = (n.natAbs : ℚ) * 2 ^ j := by
  rw [abs_mul, abs_of_pos (two_zpow_pos j), ← Int.cast_abs, Int.abs_eq_natAbs]
  rfl

theorem log_even_odd {k : ℤ} (hk : k ≠ 0) :
    Nat.log 2 (2 * k + 1).natAbs = Nat.log 2 (2 * k).natAbs ∨
      2 * k = -2 ^ Nat.log 2 (2 * k).natAbs ∧
        Nat.log 2 (2 * k + 1).natAbs < Nat.log 2 (2 * k).natAbs := by
  obtain ⟨t, ht⟩ : ∃ t, t = Nat.log 2 (2 * k).natAbs := ⟨_, rfl⟩
  have hle : 2 ^ t ≤ (2 * k).natAbs := ht ▸ Nat.pow_log_le_self 2 (by omega)
  have hlt : (2 * k).natAbs < 2 ^ (t + 1) := ht ▸ Nat.lt_pow_succ_log_self one_lt_two _
  have hcast : ((2 ^ t : ℕ) : ℤ) = 2 ^ t := by push_cast; rfl
  have heven : 2 ^ (t + 1) = 2 * 2 ^ t := Nat.pow_succ'
  rw [← ht, ← hcast]
  by_cases hpow : 2 * k = -(2 ^ t : ℕ)
  · refine .inr ⟨hpow, Nat.log_lt_of_lt_pow (by omega) (by omega)⟩
  · exact .inl ((Nat.log_eq_iff (.inr ⟨one_lt_two, by omega⟩)).mpr ⟨by omega, by omega⟩)

/-- The last bits of an even number and the next one; they are different only next to a power of
two. -/
theorem ulp_even_odd (f : FloatFormat) {k : ℤ} (hk : k ≠ 0) (j : ℤ) :
    f.ulp ((2 * k : ℤ) * 2 ^ j) = f.ulp ((2 * k + 1 : ℤ) * 2 ^ j) ∨
      f.Number ((2 * k : ℤ) * 2 ^ j) ∧
        ∃ n : ℤ, ((2 * k : ℤ) : ℚ) * 2 ^ j = n * 2 ^ f.ulp ((2 * k + 1 : ℤ) * 2 ^ j) := by
  have hulp (n : ℤ) (hn : n ≠ 0) : f.ulp ((n : ℚ) * 2 ^ j)
      = max (Nat.log 2 n.natAbs + j) f.minExp - f.mantissaBits := by
    rw [ulp, abs_intCast_mul_zpow, log_mul_zpow (Int.natAbs_ne_zero.mpr hn)]
  rw [hulp (2 * k) (by omega), hulp (2 * k + 1) (by omega)]
  rcases log_even_odd hk with heq | ⟨hpow, hlt⟩
  · rw [heq]
    exact .inl rfl
  · generalize Nat.log 2 (2 * k).natAbs = t at hpow hlt ⊢
    generalize Nat.log 2 (2 * k + 1).natAbs = t' at hlt ⊢
    by_cases hmin : (t : ℤ) + j ≤ f.minExp
    · exact .inl (by omega)
    · have hneg : ((2 * k : ℤ) : ℚ) * 2 ^ j = (-1 : ℤ) * 2 ^ (t + j) := by
        rw [hpow, zpow_add₀ two_ne_zero, zpow_natCast]
        push_cast
        ring
      refine .inr ⟨⟨-1, t + j, by omega, ?_, hneg⟩, ?_⟩
      · rw [abs_neg, abs_one]
        exact one_lt_pow₀ one_lt_two (Nat.succ_ne_zero _)
      · obtain ⟨d, hd⟩ : ∃ d : ℕ, (t + j : ℤ) = d + (max (t' + j) f.minExp - f.mantissaBits) :=
          ⟨(t + j - (max (t' + j) f.minExp - f.mantissaBits)).toNat, by omega⟩
        refine ⟨-2 ^ d, ?_⟩
        rw [hneg, hd, zpow_add₀ two_ne_zero, zpow_natCast]
        push_cast
        ring

/-- **The odd number above an even one**, much smaller than the last bits: only a tie is taken to
another number. -/
theorem roundIn_nearest_succ {k j : ℤ} (hk : k ≠ 0)
    (hj : j + 2 ≤ f.ulp ((2 * k + 1 : ℤ) * 2 ^ j)) :
    f.roundIn .toNearest ((2 * k + 1 : ℤ) * 2 ^ j)
      = if f.IsTie ((2 * k : ℤ) * 2 ^ j) then f.roundIn .upward ((2 * k : ℤ) * 2 ^ j)
        else f.roundIn .toNearest ((2 * k : ℤ) * 2 ^ j) := by
  have hcases := f.ulp_even_odd hk j
  have hw := two_zpow_pos j
  obtain ⟨q, hq⟩ : ∃ q, q = ((2 * k : ℤ) : ℚ) * 2 ^ j := ⟨_, rfl⟩
  obtain ⟨r, hr⟩ : ∃ r, r = ((2 * k + 1 : ℤ) : ℚ) * 2 ^ j := ⟨_, rfl⟩
  rw [← hr] at hj hcases ⊢
  rw [← hq] at hcases ⊢
  have hpos := two_zpow_pos (f.ulp r)
  have hlt : q < r := by
    rw [hq, hr]
    exact mul_lt_mul_of_pos_right (by push_cast; linarith) hw
  obtain ⟨d, hd⟩ : ∃ d : ℕ, f.ulp r = d + 2 + j := ⟨(f.ulp r - 2 - j).toNat, by omega⟩
  -- a multiple of half of the last bit is an even number
  have hhalf (n : ℤ) : (n : ℚ) / 2 * 2 ^ f.ulp r = ((2 * (n * 2 ^ d) : ℤ) : ℚ) * 2 ^ j := by
    rw [hd, zpow_add₀ two_ne_zero, zpow_add₀ two_ne_zero, zpow_natCast]
    push_cast
    ring
  have hnear := nearest_of_gt (div_lt_div_of_pos_right hlt hpos) fun n hn => by
    rw [div_lt_iff₀ hpos, hhalf, hq, mul_lt_mul_iff_left₀ hw, Int.cast_lt] at hn
    rw [div_lt_iff₀ hpos, hhalf, hr, mul_lt_mul_iff_left₀ hw, Int.cast_lt]
    omega
  rw [roundIn, Mode.toInt, hnear]
  rcases hcases with hulp | ⟨hnumber, n, hn⟩
  · simp only [IsTie, roundIn, Mode.toInt, hulp]
    split <;> rfl
  · have hint : q / 2 ^ f.ulp r = n := by rw [hn, mul_div_cancel_right₀ _ hpos.ne']
    obtain ⟨m, hm⟩ := hnumber.exists_ulp
    have hint' : q / 2 ^ f.ulp q = m := (div_eq_iff (two_zpow_pos _).ne').mpr hm
    have hnot : ¬ f.IsTie q := by
      rw [IsTie, hint', Int.fract_intCast]
      norm_num
    rw [if_neg hnot, hint, Int.fract_intCast, if_neg (by norm_num), nearest_intCast, ← hn,
      hnumber.roundIn_eq]

theorem isTie_neg (f : FloatFormat) (q : ℚ) : f.IsTie (-q) ↔ f.IsTie q := by
  rw [IsTie, IsTie, ulp_neg, neg_div, fract_neg_eq_half]

theorem roundIn_nearest_pred {k j : ℤ} (hk : k ≠ 0)
    (hj : j + 2 ≤ f.ulp ((2 * k - 1 : ℤ) * 2 ^ j)) :
    f.roundIn .toNearest ((2 * k - 1 : ℤ) * 2 ^ j)
      = if f.IsTie ((2 * k : ℤ) * 2 ^ j) then f.roundIn .downward ((2 * k : ℤ) * 2 ^ j)
        else f.roundIn .toNearest ((2 * k : ℤ) * 2 ^ j) := by
  have hodd : ((2 * -k + 1 : ℤ) : ℚ) * 2 ^ j = -(((2 * k - 1 : ℤ) : ℚ) * 2 ^ j) := by
    push_cast
    ring
  have heven : ((2 * -k : ℤ) : ℚ) * 2 ^ j = -(((2 * k : ℤ) : ℚ) * 2 ^ j) := by
    push_cast
    ring
  have h := roundIn_nearest_succ (f := f) (neg_ne_zero.mpr hk) (j := j) (by rwa [hodd, ulp_neg])
  rw [hodd, heven, roundIn_neg, roundIn_neg, roundIn_neg] at h
  simp only [Mode.neg, isTie_neg] at h
  rw [← neg_neg (f.roundIn .toNearest _), h]
  split
  · rw [neg_neg]
  · rw [neg_neg]

end FloatFormat
