import OpenCLCTS.Lib.Binary32
import OpenCLCTS.Lib.RoundingMode

/-!
# Rounding channels

The macros of `imageHelpers.h` that take a float to the range of a channel, with and without
rounding.  `normalizeIn_spec`: what they give for a number is near to its exact value.
-/

namespace OpenCLCTS.Images

open Binary32 FloatFormat

/-- `magic[v < 0.0f]`. -/
def magicVal (v : Binary32) : Binary32 :=
  if v.lt (.finite 0) then .finite (-2 ^ 23) else .finite (2 ^ 23)

section

variable (undefined : Binary32 → ℤ)

/-- `round_to_even`. -/
def roundToEven (v : Binary32) : ℤ :=
  if (Binary32.finite (2 ^ 31)).le v then 2 ^ 31 - 1
  else if v.le (.finite (-2 ^ 31)) then -2 ^ 31
  else
    let v := if v.abs.lt (.finite (2 ^ 23)) then (v.add (magicVal v)).sub (magicVal v) else v
    v.toInt undefined (-2 ^ 31) (2 ^ 31 - 1)

/-- `NORMALIZE` and `NORMALIZE_SIGNED`, from `low` to 1. -/
def normalizeIn (low : ℚ) (v min max : Binary32) : Binary32 :=
  if v.lt (.finite low) then min
  else if (Binary32.finite 1).lt v then max
  else ofInt (roundToEven undefined (v.mul max))

/-- `NORMALIZE`. -/
def normalize (v max : Binary32) : Binary32 := normalizeIn undefined 0 v (.finite 0) max

/-- `NORMALIZE_SIGNED`. -/
def normalizeSigned (v min max : Binary32) : Binary32 := normalizeIn undefined (-1) v min max

/-- `CONVERT_INT`; its callers have floats as bounds, and an integer as `max_val`. -/
def convertInt (v min max : Binary32) (maxVal : ℤ) : Binary32 :=
  if v.lt min then min else if max.lt v then ofInt maxVal else ofInt (roundToEven undefined v)

/-- `CONVERT_UINT`. -/
def convertUint (v max : Binary32) (maxVal : ℤ) : ℤ :=
  if v.lt (.finite 0) then 0 else if max.lt v then maxVal else roundToEven undefined v

end

/-- `NORMALIZE_UNROUNDED` and `NORMALIZE_SIGNED_UNROUNDED`, from `low` to 1. -/
def normalizeInUnrounded (low : ℚ) (v min max : Binary32) : Binary32 :=
  if v.lt (.finite low) then min else if (Binary32.finite 1).lt v then max else v.mul max

/-- `NORMALIZE_UNROUNDED`. -/
def normalizeUnrounded (v max : Binary32) : Binary32 := normalizeInUnrounded 0 v (.finite 0) max

/-- `NORMALIZE_SIGNED_UNROUNDED`. -/
def normalizeSignedUnrounded (v min max : Binary32) : Binary32 :=
  normalizeInUnrounded (-1) v min max

/-! ### Exact values -/

/-- The exact value of a channel whose numbers from `low` to 1 are scaled by `top`. -/
def unrounded (low : ℚ) (top : ℕ) : Binary32 → Option ℚ
  | .nan => none
  | .inf negative => some (if negative then low * top else top)
  | .finite q => some (max low (min 1 q) * top)

variable {u q low x : ℚ} {v : Binary32} {top : ℕ} {p : ℤ}

theorem add_sub_magicVal (hu : |u| < 2 ^ 23) :
    ((Binary32.finite u).add (magicVal (.finite u))).sub (magicVal (.finite u))
      = .finite (nearest u) := by
  obtain ⟨m, hm⟩ : ∃ m : ℤ, m = if u < 0 then -2 ^ 23 else 2 ^ 23 := ⟨_, rfl⟩
  have hmagic : magicVal (.finite u) = .finite m := by
    rw [magicVal, hm]
    by_cases hneg : u < 0
    · rw [if_pos (show (Binary32.finite u).lt (.finite 0) = true from decide_eq_true hneg),
        if_pos hneg]
      norm_num
    · rw [if_neg (by simpa [Binary32.lt] using hneg), if_neg hneg]
      norm_num
  have hround : binary32.round (binary32.round (u + m) - m) = nearest u :=
    FloatFormat.round_add_sub (f := .binary32) (by decide) (by decide) hm hu
  have hsum : |u + m| ≤ 2 ^ 24 ∧ |binary32.round (u + m) - m| ≤ 2 ^ 24 := by
    have herr : |u + m| < 2 ^ ((23 : ℤ) + 1) →
        |binary32.round (u + m) - (u + m)| ≤ 2 ^ ((23 : ℤ) - 23) / 2 :=
      abs_round_sub_le (f := binary32) (by decide)
    rw [abs_lt] at hu
    have hle : |u + m| < 2 ^ 24 := by
      rw [hm, abs_lt]
      split <;> push_cast <;> constructor <;> linarith
    have herr' := abs_le.mp (herr (by exact_mod_cast hle))
    norm_num at herr'
    exact ⟨hle.le, abs_le.mpr ⟨by linarith, by linarith⟩⟩
  rw [hmagic, add, ofRat_of_small hsum.1, sub, neg, add, ← sub_eq_add_neg, ofRat_of_small hsum.2,
    hround]

/-- **`round_to_even` gives the nearest integer** of small numbers. -/
theorem roundToEven_of_lt (undefined : Binary32 → ℤ) (hu : |u| < 2 ^ 23) :
    roundToEven undefined (.finite u) = nearest u := by
  obtain ⟨hge, hle⟩ := abs_lt.mp hu
  have hhigh : (Binary32.finite (2 ^ 31)).le (.finite u) = false := decide_eq_false (by linarith)
  have hlow : (Binary32.finite u).le (.finite (-2 ^ 31)) = false := decide_eq_false (by linarith)
  have habs : (Binary32.finite u).abs.lt (.finite (2 ^ 23)) = true := decide_eq_true hu
  simp only [roundToEven, hhigh, hlow, habs, if_true, Bool.false_eq_true, if_false,
    add_sub_magicVal hu]
  exact toInt_intCast (le_nearest_of_le (by push_cast; linarith))
    (nearest_le_of_le (by push_cast; linarith))

/-- **`round_to_even` gives the nearest integer of a float**, or a limit of `cl_int`. -/
theorem roundToEven_eq (undefined : Binary32 → ℤ) (hu : FloatFormat.binary32.Number u) :
    roundToEven undefined (.finite u) = max (-2 ^ 31) (min (2 ^ 31 - 1) (nearest u)) := by
  by_cases hsmall : |u| < 2 ^ 23
  · obtain ⟨hge, hle⟩ := abs_lt.mp hsmall
    have hlo : -2 ^ 23 ≤ nearest u := le_nearest_of_le (by push_cast; linarith)
    have hhi : nearest u ≤ 2 ^ 23 := nearest_le_of_le (by push_cast; linarith)
    rw [roundToEven_of_lt undefined hsmall, min_eq_right (by omega), max_eq_right (by omega)]
  · obtain ⟨n, rfl⟩ := hu.isInt (not_lt.mp hsmall)
    have habs : (Binary32.finite n).abs.lt (.finite (2 ^ 23)) = false := decide_eq_false hsmall
    rw [nearest_intCast]
    simp only [roundToEven, habs, Bool.false_eq_true, if_false]
    by_cases hhigh : 2 ^ 31 ≤ n
    · have hhigh' : (Binary32.finite (2 ^ 31)).le (.finite n) = true :=
        decide_eq_true (by exact_mod_cast hhigh)
      rw [hhigh', if_pos rfl, min_eq_left (by omega), max_eq_right (by norm_num)]
    · have hhigh' : (Binary32.finite (2 ^ 31)).le (.finite n) = false :=
        decide_eq_false fun h => hhigh (by exact_mod_cast h)
      rw [hhigh', if_neg Bool.false_ne_true]
      by_cases hlow : n ≤ -2 ^ 31
      · have hlow' : (Binary32.finite n).le (.finite (-2 ^ 31)) = true :=
          decide_eq_true (by exact_mod_cast hlow)
        rw [hlow', if_pos rfl, min_eq_right (by omega), max_eq_left hlow]
      · have hlow' : (Binary32.finite n).le (.finite (-2 ^ 31)) = false :=
          decide_eq_false fun h => hlow (by exact_mod_cast h)
        rw [hlow', if_neg Bool.false_ne_true, toInt_intCast (by omega) (by omega),
          min_eq_right (by omega), max_eq_right (by omega)]

theorem normalizeIn_of_lt (undefined : Binary32 → ℤ) (h : q < low) (v₀ v₁ : Binary32) :
    normalizeIn undefined low (.finite q) v₀ v₁ = v₀ ∧
      normalizeInUnrounded low (.finite q) v₀ v₁ = v₀ := by
  have hlt : (Binary32.finite q).lt (.finite low) = true := decide_eq_true h
  rw [normalizeIn, normalizeInUnrounded, hlt]
  exact ⟨if_pos rfl, if_pos rfl⟩

theorem normalizeIn_of_gt (undefined : Binary32 → ℤ) (hlow : low ≤ 1) (h : 1 < q) (v₀ v₁ : Binary32) :
    normalizeIn undefined low (.finite q) v₀ v₁ = v₁ ∧
      normalizeInUnrounded low (.finite q) v₀ v₁ = v₁ := by
  have hlt : (Binary32.finite q).lt (.finite low) = false := decide_eq_false (by linarith)
  have hgt : (Binary32.finite 1).lt (.finite q) = true := decide_eq_true h
  rw [normalizeIn, normalizeInUnrounded, hlt, hgt]
  exact ⟨rfl, rfl⟩

theorem normalizeIn_of_mem (undefined : Binary32 → ℤ) (h : low ≤ q) (h' : q ≤ 1) (v₀ v₁ : Binary32) :
    normalizeIn undefined low (.finite q) v₀ v₁
        = ofInt (roundToEven undefined ((Binary32.finite q).mul v₁)) ∧
      normalizeInUnrounded low (.finite q) v₀ v₁ = (Binary32.finite q).mul v₁ := by
  have hlt : (Binary32.finite q).lt (.finite low) = false := decide_eq_false (by linarith)
  have hgt : (Binary32.finite 1).lt (.finite q) = false := decide_eq_false (by linarith)
  rw [normalizeIn, normalizeInUnrounded, hlt, hgt]
  exact ⟨rfl, rfl⟩

/-- What the macros give for a channel: an integer, and a number that is near to the integer
and to the exact value. -/
structure Normalized (bottom top : ℤ) (rounded unrounded : Binary32) (x : ℚ) (n : ℤ) : Prop where
  rounded_eq : rounded = .finite n
  mem : bottom ≤ n ∧ n ≤ top
  near : ∃ u, unrounded = .finite u ∧ |(n : ℚ) - u| ≤ 1 / 2 ∧ |u - x| ≤ 1 / 2 ^ 9

theorem normalized_bound {bottom : ℤ} {v v' : Binary32} {m : ℤ} (hv : v = .finite m)
    (hv' : v' = .finite m) (hx : x = m) (hm : bottom ≤ m ∧ m ≤ top) :
    Normalized bottom top v v' x m := by
  refine ⟨hv, hm, m, hv', ?_, ?_⟩
  · rw [sub_self, abs_zero]
    norm_num
  · rw [hx, sub_self, abs_zero]
    norm_num

theorem normalized_mem {bottom : ℤ} (undefined : Binary32 → ℤ) (hx : |x| < 2 ^ 16)
    (hbottom : bottom ≤ x) (htop : x ≤ top) :
    ∃ n, Normalized bottom top (ofInt (roundToEven undefined (ofRat x))) (ofRat x) x n := by
  have hofRat : ofRat x = .finite (binary32.round x) :=
    ofRat_of_small (hx.le.trans (by norm_num))
  have herr : |binary32.round x - x| ≤ 1 / 2 ^ 9 := by
    have h : |binary32.round x - x| ≤ 2 ^ ((15 : ℤ) - 23) / 2 :=
      abs_round_sub_le (f := binary32) (by decide) (by exact_mod_cast hx)
    norm_num at h ⊢
    exact h
  have hu : |binary32.round x| ≤ 2 ^ 22 := by
    rw [abs_le] at herr ⊢
    rw [abs_lt] at hx
    constructor <;> linarith [herr.1, herr.2, hx.1, hx.2]
  have hnear := abs_nearest_sub_le (binary32.round x)
  rw [← roundToEven_of_lt undefined (lt_of_le_of_lt hu (by norm_num))] at hnear
  obtain ⟨n, hn⟩ : ∃ n, n = roundToEven undefined (.finite (binary32.round x)) := ⟨_, rfl⟩
  rw [← hn] at hnear
  obtain ⟨hlo, hhi⟩ := abs_le.mp hnear
  obtain ⟨hlo', hhi'⟩ := abs_le.mp herr
  have hmem : bottom ≤ n ∧ n ≤ top := by
    have hq : (bottom : ℚ) - 1 < n ∧ (n : ℚ) < top + 1 := by
      constructor <;> linarith
    have hz : bottom - 1 < n ∧ n < top + 1 := by exact_mod_cast hq
    omega
  have hsmall : |n| < 2 ^ 24 := by
    have hq : |(n : ℚ)| < 2 ^ 24 := by
      rw [abs_lt] at hx ⊢
      constructor <;> linarith [hx.1, hx.2]
    exact_mod_cast hq
  exact ⟨n, by rw [hofRat, ← hn, ofInt_eq hsmall], hmem, _, hofRat, hnear, herr⟩

/-- **What `NORMALIZE` and `NORMALIZE_SIGNED` give is near to the exact value.** -/
theorem normalizeIn_spec {bottom : ℤ} (undefined : Binary32 → ℤ) (hlow : low = 0 ∨ low = -1)
    (hbottom : (bottom : ℚ) = low * top) (htop : top < 2 ^ 16) (hx : unrounded low top v = some x) :
    ∃ n, Normalized bottom top (normalizeIn undefined low v (.finite bottom) (.finite top))
      (normalizeInUnrounded low v (.finite bottom) (.finite top)) x n := by
  have hlow1 : low ≤ 1 := by rcases hlow with rfl | rfl <;> norm_num
  have htop0 : (0 : ℚ) ≤ top := Nat.cast_nonneg top
  have hle : bottom ≤ top := by
    have hq : (bottom : ℚ) ≤ top := by
      rcases hlow with rfl | rfl <;> linarith
    exact_mod_cast hq
  cases v with
  | nan => cases hx
  | inf negative =>
    obtain rfl := Option.some.inj hx
    cases negative with
    | true => exact ⟨bottom, normalized_bound rfl rfl hbottom.symm ⟨le_rfl, hle⟩⟩
    | false => exact ⟨top, normalized_bound rfl rfl rfl ⟨hle, le_rfl⟩⟩
  | finite q =>
    obtain rfl := Option.some.inj hx
    by_cases hq : q < low
    · obtain ⟨h, h'⟩ := normalizeIn_of_lt undefined hq (.finite bottom) (.finite top)
      rw [min_eq_right (by linarith), max_eq_left hq.le]
      exact ⟨bottom, normalized_bound h h' hbottom.symm ⟨le_rfl, hle⟩⟩
    · by_cases hq1 : 1 < q
      · obtain ⟨h, h'⟩ := normalizeIn_of_gt undefined hlow1 hq1 (.finite bottom)
          (.finite top)
        rw [min_eq_left hq1.le, max_eq_right hlow1, one_mul]
        exact ⟨top, normalized_bound h h' rfl ⟨hle, le_rfl⟩⟩
      · have hlowq : low ≤ q := not_lt.mp hq
        have hq1' : q ≤ 1 := not_lt.mp hq1
        obtain ⟨h, h'⟩ := normalizeIn_of_mem undefined hlowq hq1' (.finite bottom)
          (.finite top)
        rw [min_eq_right hq1', max_eq_right hlowq, h, h', mul]
        have hge : low * top ≤ q * top := mul_le_mul_of_nonneg_right hlowq htop0
        have hle1 : q * top ≤ 1 * top := mul_le_mul_of_nonneg_right hq1' htop0
        have htopq : (top : ℚ) < 2 ^ 16 := by exact_mod_cast htop
        refine normalized_mem undefined ?_ (hbottom ▸ hge) (by linarith)
        rw [abs_lt]
        constructor
        · rcases hlow with rfl | rfl <;> linarith
        · linarith

theorem normalize_spec (undefined : Binary32 → ℤ) {c : ℚ} (hc : c = top) (htop : top < 2 ^ 16)
    (hx : unrounded 0 top v = some x) :
    ∃ n, Normalized 0 top (normalize undefined v (.finite c)) (normalizeUnrounded v (.finite c))
      x n := by
  have h := normalizeIn_spec undefined (.inl rfl) (by rw [zero_mul, Int.cast_zero]) htop hx
  rwa [Int.cast_zero, ← hc] at h

theorem normalizeSigned_spec (undefined : Binary32 → ℤ) {c c' : ℚ} (hc : c = top) (hc' : c' = -top)
    (htop : top < 2 ^ 16) (hx : unrounded (-1) top v = some x) :
    ∃ n, Normalized (-top) top (normalizeSigned undefined v (.finite c') (.finite c))
      (normalizeSignedUnrounded v (.finite c') (.finite c)) x n := by
  have hbottom : ((-top : ℤ) : ℚ) = -1 * top := by
    push_cast
    ring
  have h := normalizeIn_spec undefined (.inr rfl) hbottom htop hx
  rwa [Int.cast_neg, Int.cast_natCast, ← hc', ← hc] at h

/-- **A channel that is within half a unit is not above the tolerance.** -/
theorem not_above_tolerance (hp : |p| < 2 ^ 24) (h : |(p : ℚ) - u| ≤ 1 / 2) :
    (ofRat (3 / 5)).lt ((ofInt p).sub (.finite u)).abs = false := by
  have hsub : (ofInt p).sub (.finite u) = .finite (binary32.round (p - u)) := by
    rw [ofInt_eq hp, sub, neg, add, ← sub_eq_add_neg]
    exact ofRat_of_small (h.trans (by norm_num))
  have htolerance : ofRat (3 / 5) = .finite (binary32.round (3 / 5)) :=
    ofRat_of_small (by norm_num [abs_of_pos])
  have herr : |binary32.round (p - u) - (p - u)| ≤ 2 ^ ((-1 : ℤ) - 23) / 2 :=
    abs_round_sub_le (f := binary32) (by decide) (lt_of_le_of_lt h (by norm_num))
  have herr' : |binary32.round (3 / 5) - 3 / 5| ≤ 2 ^ ((-1 : ℤ) - 23) / 2 :=
    abs_round_sub_le (f := binary32) (by decide) (by norm_num [abs_of_pos])
  rw [hsub, htolerance]
  refine decide_eq_false (not_lt.mpr ?_)
  norm_num at herr herr'
  rw [abs_le] at h herr herr' ⊢
  constructor <;> linarith [h.1, h.2, herr.1, herr.2, herr'.1, herr'.2]

end OpenCLCTS.Images
