import OpenCLCTS.Lib.FloatRounding

/-!
# Numbers of single precision

The values of binary32 are rational numbers, infinities and NaN; the two zeros are not told
apart.  Sums and products of numbers are rounded to the nearest number.

* `ofInt_eq`: integers of at most 24 bits are exact.
* `number_of_ofBits`: the bits of a finite value stand for a number of the format.
-/

/-- A value: a number, an infinity, or NaN. -/
inductive Binary32
  | nan
  | inf (negative : Bool)
  | finite (q : ℚ)
  deriving DecidableEq

namespace Binary32

open FloatFormat

/-- The value nearest to a number. -/
def ofRat (q : ℚ) : Binary32 :=
  if |binary32.round q| < 2 ^ 128 then .finite (binary32.round q) else .inf (decide (q < 0))

def ofInt (n : ℤ) : Binary32 := ofRat n

/-- The value that 32 bits stand for. -/
def ofBits (b : BitVec 32) : Binary32 :=
  let mantissa := (b.extractLsb' 0 23).toNat
  let exponent := (b.extractLsb' 23 8).toNat
  let sign : ℚ := if b.msb then -1 else 1
  if exponent = 255 then if mantissa = 0 then .inf b.msb else .nan
  else if exponent = 0 then .finite (sign * mantissa / 2 ^ 149)
  else .finite (sign * (2 ^ 23 + mantissa) * 2 ^ exponent / 2 ^ 150)

def neg : Binary32 → Binary32
  | .nan => .nan
  | .inf s => .inf !s
  | .finite q => .finite (-q)

def abs : Binary32 → Binary32
  | .nan => .nan
  | .inf _ => .inf false
  | .finite q => .finite |q|

def add : Binary32 → Binary32 → Binary32
  | .finite a, .finite b => ofRat (a + b)
  | .inf s, .inf t => if s = t then .inf s else .nan
  | .inf s, .finite _ | .finite _, .inf s => .inf s
  | .nan, _ | _, .nan => .nan

def sub (a b : Binary32) : Binary32 := a.add b.neg

def mul : Binary32 → Binary32 → Binary32
  | .finite a, .finite b => ofRat (a * b)
  | .inf s, .inf t => .inf (xor s t)
  | .inf s, .finite q | .finite q, .inf s => if q = 0 then .nan else .inf (xor s (decide (q < 0)))
  | .nan, _ | _, .nan => .nan

/-- `a < b`, which is false for NaN. -/
def lt : Binary32 → Binary32 → Bool
  | .finite a, .finite b => decide (a < b)
  | .inf s, .inf t => s && !t
  | .inf s, .finite _ => s
  | .finite _, .inf s => !s
  | .nan, _ | _, .nan => false

/-- `a <= b`, which is false for NaN. -/
def le : Binary32 → Binary32 → Bool
  | .finite a, .finite b => decide (a ≤ b)
  | .inf s, .inf t => s || !t
  | .inf s, .finite _ => s
  | .finite _, .inf s => !s
  | .nan, _ | _, .nan => false

/-- The conversion to an integer type with these bounds; the result of a conversion that is
not defined is unknown. -/
def toInt (undefined : Binary32 → ℤ) (lo hi : ℤ) : Binary32 → ℤ
  | .finite q =>
    let n := truncate q
    if lo ≤ n ∧ n ≤ hi then n else undefined (.finite q)
  | a => undefined a

variable {q : ℚ} {n : ℤ}

theorem ofRat_of_lt (h : |binary32.round q| < 2 ^ 128) : ofRat q = .finite (binary32.round q) :=
  if_pos h

/-- **Integers of at most 24 bits are exact.** -/
theorem ofInt_eq (h : |n| < 2 ^ 24) : ofInt n = .finite n := by
  have hq : |(n : ℚ)| < 2 ^ 24 := by exact_mod_cast h
  have hround : binary32.round n = n := (number_intCast (by decide) h).round_eq
  rw [ofInt, ofRat_of_lt, hround]
  rw [hround]
  exact hq.trans (by norm_num)

theorem toInt_intCast {undefined : Binary32 → ℤ} {lo hi : ℤ} (hlo : lo ≤ n) (hhi : n ≤ hi) :
    toInt undefined lo hi (.finite n) = n := by
  simp only [toInt, truncate_intCast, hlo, hhi, and_self, if_true]

theorem ofRat_of_small (h : |q| ≤ 2 ^ 24) : ofRat q = .finite (binary32.round q) := by
  have herr : |binary32.round q - q| ≤ 2 ^ ((24 : ℤ) - 23) / 2 :=
    abs_round_sub_le (f := binary32) (by decide) (lt_of_le_of_lt h (by norm_num))
  refine ofRat_of_lt ?_
  have habs : |binary32.round q| ≤ |binary32.round q - q| + |q| := by
    have := abs_add_le (binary32.round q - q) q
    rwa [sub_add_cancel] at this
  norm_num at herr h ⊢
  linarith

/-! ### Bits -/

variable {b : BitVec 32}

/-- **The bits of a finite value stand for its number.** -/
theorem ofBits_eq_finite (h : ofBits b = .finite q) : q = binary32.value b ∧ binary32.Finite b := by
  have hsign : ((binary32.sign b : ℤ) : ℚ) = if b.msb then -1 else 1 := by
    rw [sign, BitVec.msb_eq_getLsbD_last]
    split
    · rename_i hbit
      rw [show b.getLsbD (32 - 1) = true from hbit, if_pos rfl]
      rfl
    · rename_i hbit
      rw [show b.getLsbD (32 - 1) = false from Bool.eq_false_of_not_eq_true hbit]
      rfl
  have hexponent : (b.extractLsb' 23 8).toNat = (binary32.exponent b).toNat := rfl
  have hmantissa : (b.extractLsb' 0 23).toNat = (binary32.mantissa b).toNat := rfl
  rw [ofBits] at h
  simp only [hexponent, hmantissa, ← hsign] at h
  split at h
  · split at h <;> cases h
  · rename_i hne
    have hfinite : binary32.Finite b := fun heq => hne (by rw [heq]; rfl)
    refine ⟨?_, hfinite⟩
    rw [value]
    split at h
    · rename_i h0
      obtain rfl := Binary32.finite.inj h
      rw [if_pos h0, show binary32.minExp - binary32.mantissaBits = -149 from rfl, zpow_neg]
      push_cast
      rw [div_eq_mul_inv]
      norm_num
    · rename_i h0
      obtain rfl := Binary32.finite.inj h
      have hexp : (binary32.exponent b).toNat - 1 + binary32.minExp - binary32.mantissaBits
          = ((binary32.exponent b).toNat : ℤ) - 150 := by
        rw [show binary32.minExp = -126 from rfl, show binary32.mantissaBits = 23 from rfl]
        omega
      have hbits : (2 : ℤ) ^ binary32.mantissaBits = 2 ^ 23 := rfl
      rw [if_neg h0, hexp, zpow_sub₀ two_ne_zero, zpow_natCast, hbits]
      push_cast
      rw [mul_div_assoc]
      norm_num

theorem number_of_ofBits (h : ofBits b = .finite q) : binary32.Number q := by
  rw [(ofBits_eq_finite h).1]
  exact binary32.number_value b

end Binary32
