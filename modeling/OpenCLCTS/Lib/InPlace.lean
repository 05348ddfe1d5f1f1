import Mathlib.Data.Fin.Basic
import Mathlib.Logic.Function.Basic
import Mathlib.Order.Basic
import Mathlib.Tactic.Common

/-!
# Updating an array in place

`stepAt f k a` writes `f k a` at position `k`, where `f` may read the whole array.
`scan` does so for consecutive positions one after the other, each step reading
what the earlier ones wrote.  `block` computes a block of positions from the old
array and writes them together, as a vector unit does.

Here an array is the function from its positions to its entries.

`block_eq_scan`: the two agree if no position of the block reads an earlier one.
`forLoop` is a counting loop whose body works on a block of positions of an array
held in some state, and `forLoop_scanned` says that such a loop is a scan.
-/

namespace InPlace

variable {α : Type*} {n : ℕ}

/-- Write position `k`, if there is one. -/
def stepAt (f : Fin n → (Fin n → α) → α) (k : ℕ) (a : Fin n → α) : Fin n → α :=
  if h : k < n then Function.update a ⟨k, h⟩ (f ⟨k, h⟩ a) else a

/-- Write the `count` positions from `lo` on, one after the other. -/
def scan (f : Fin n → (Fin n → α) → α) (lo : ℕ) : ℕ → (Fin n → α) → Fin n → α
  | 0, a => a
  | count + 1, a => stepAt f (lo + count) (scan f lo count a)

/-- Write the `count` positions from `lo` on, all computed from the old array. -/
def block (f : Fin n → (Fin n → α) → α) (lo count : ℕ) (a : Fin n → α) : Fin n → α :=
  fun j => if lo ≤ j ∧ (j : ℕ) < lo + count then f j a else a j

variable {f : Fin n → (Fin n → α) → α} {lo count : ℕ} {a : Fin n → α}

@[simp] theorem scan_zero : scan f lo 0 a = a := rfl

theorem scan_succ : scan f lo (count + 1) a = stepAt f (lo + count) (scan f lo count a) := rfl

theorem scan_add (p q : ℕ) : scan f lo (p + q) a = scan f (lo + p) q (scan f lo p a) := by
  induction q with
  | zero => rfl
  | succ q ih => rw [← Nat.add_assoc, scan_succ, ih, scan_succ, Nat.add_assoc]

theorem scan_one : scan f lo 1 a = stepAt f lo a := rfl

/-- Position `k` does not read the positions from `lo` up to itself. -/
def Independent (f : Fin n → (Fin n → α) → α) (lo : ℕ) (k : Fin n) : Prop :=
  ∀ a b : Fin n → α, (∀ j : Fin n, (j : ℕ) < lo ∨ k ≤ j → a j = b j) → f k a = f k b

/-- **A block is a scan** if no position of the block reads an earlier one. -/
theorem block_eq_scan
    (h : ∀ k : Fin n, lo ≤ k → (k : ℕ) < lo + count → Independent f lo k) :
    block f lo count a = scan f lo count a := by
  induction count with
  | zero =>
    funext j
    exact if_neg (by omega)
  | succ count ih =>
    have ih' := ih fun k h1 h2 => h k h1 (by omega)
    rw [scan_succ, ← ih']
    funext j
    unfold stepAt
    split
    · rename_i hk
      by_cases hj : j = ⟨lo + count, hk⟩
      · subst hj
        rw [Function.update_self, block, if_pos ⟨by simp, by simp⟩]
        refine h _ (by simp) (by simp) _ _ ?_
        intro i hi
        refine (if_neg ?_).symm
        rcases hi with hi | hi
        · omega
        · have : lo + count ≤ (i : ℕ) := hi
          omega
      · rw [Function.update_of_ne hj]
        have hne : (j : ℕ) ≠ lo + count := fun he => hj (Fin.ext he)
        unfold block
        have hiff : lo ≤ (j : ℕ) ∧ (j : ℕ) < lo + (count + 1) ↔
            lo ≤ (j : ℕ) ∧ (j : ℕ) < lo + count := by omega
        simp only [hiff]
    · unfold block
      have hlt := j.isLt
      have hiff : lo ≤ (j : ℕ) ∧ (j : ℕ) < lo + (count + 1) ↔
          lo ≤ (j : ℕ) ∧ (j : ℕ) < lo + count := by omega
      simp only [hiff]

/-- The array `b` is `a` after a scan of the positions from `lo` to `hi`. -/
structure Scanned (f : Fin n → (Fin n → α) → α) (lo hi : ℕ) (a b : Fin n → α) : Prop where
  le : lo ≤ hi
  eq : b = scan f lo (hi - lo) a

theorem Scanned.refl (lo : ℕ) (a : Fin n → α) : Scanned f lo lo a a :=
  ⟨le_rfl, by rw [Nat.sub_self, scan_zero]⟩

theorem Scanned.trans {mid hi : ℕ} {a b c : Fin n → α} (h : Scanned f lo mid a b)
    (g : Scanned f mid hi b c) : Scanned f lo hi a c := by
  have h1 := h.le
  have h2 := g.le
  have hlen : hi - lo = (mid - lo) + (hi - mid) := by omega
  have hmid : lo + (mid - lo) = mid := by omega
  refine ⟨by omega, ?_⟩
  rw [g.eq, h.eq, hlen, scan_add, hmid]

theorem scanned_scan (lo count : ℕ) (a : Fin n → α) :
    Scanned f lo (lo + count) a (scan f lo count a) :=
  ⟨by omega, by rw [Nat.add_sub_cancel_left]⟩

theorem scan_const (g : Fin n → α) (j : Fin n) :
    scan (fun k _ => g k) lo count a j =
      if lo ≤ j ∧ (j : ℕ) < lo + count then g j else a j := by
  rw [← block_eq_scan fun _ _ _ _ _ _ => rfl]
  rfl

/-- **A scan that reads only what lies before** makes two arrays agree as far as
it goes, if they agree where it starts. -/
theorem scan_congr {b : Fin n → α}
    (h : ∀ k : Fin n, lo ≤ k → ∀ c d : Fin n → α, (∀ j < k, c j = d j) → f k c = f k d)
    (hab : ∀ j : Fin n, (j : ℕ) < lo → a j = b j) :
    ∀ j : Fin n, (j : ℕ) < lo + count → scan f lo count a j = scan f lo count b j := by
  induction count with
  | zero => exact hab
  | succ count ih =>
    intro j hj
    have hk : lo + count < n ∨ n ≤ lo + count := lt_or_ge _ _
    rcases hk with hk | hk
    · rw [scan_succ, scan_succ, stepAt, stepAt, dif_pos hk, dif_pos hk]
      by_cases he : j = ⟨lo + count, hk⟩
      · subst he
        rw [Function.update_self, Function.update_self]
        exact h _ (by simp) _ _ fun i hi => ih i hi
      · have hne : (j : ℕ) ≠ lo + count := fun h => he (Fin.ext h)
        rw [Function.update_of_ne he, Function.update_of_ne he]
        exact ih j (by omega)
    · rw [scan_succ, scan_succ, stepAt, stepAt, dif_neg (by omega), dif_neg (by omega)]
      exact ih j (by omega)

/-! ### Counting loops -/

/-- `for (; kk + w <= hi && cond(kk); kk += w) a = body(kk, a)`, with the last
value of `kk`. -/
def forLoop {σ : Type*} (hi w : ℕ) (hw : 0 < w) (cond : ℕ → Bool)
    (body : (kk : ℕ) → kk + w ≤ hi → σ → σ) (kk : ℕ) (a : σ) : ℕ × σ :=
  if h : kk + w ≤ hi ∧ cond kk = true then
    forLoop hi w hw cond body (kk + w) (body kk h.1 a)
  else (kk, a)
termination_by hi - kk

variable {σ : Type*} {hi w : ℕ}

/-- **A loop over blocks is a scan** up to where the loop ends, of the array that
its state stands for. -/
theorem forLoop_scanned (hw : 0 < w) (cond : ℕ → Bool) (array : σ → Fin n → α)
    (body : (kk : ℕ) → kk + w ≤ hi → σ → σ) (kk : ℕ)
    (hbody : ∀ k h s, kk ≤ k → Scanned f k (k + w) (array s) (array (body k h s))) (s : σ) :
    Scanned f kk (forLoop hi w hw cond body kk s).1 (array s)
      (array (forLoop hi w hw cond body kk s).2) := by
  induction kk, s using forLoop.induct hi w hw cond body with
  | case1 kk s h ih =>
    rw [forLoop, dif_pos h]
    exact (hbody kk h.1 s le_rfl).trans (ih fun k hk b hle => hbody k hk b (by omega))
  | case2 kk s h =>
    rw [forLoop, dif_neg h]
    exact .refl kk _

theorem forLoop_fst (hw : 0 < w) (body : (kk : ℕ) → kk + w ≤ hi → σ → σ) (kk : ℕ) (a : σ) :
    (forLoop hi w hw (fun _ => true) body kk a).1 = kk + w * ((hi - kk) / w) := by
  induction kk, a using forLoop.induct hi w hw (fun _ => true) body with
  | case1 kk a h ih =>
    rw [forLoop, dif_pos h, ih]
    have hsplit : hi - kk = (hi - (kk + w)) + w := by omega
    rw [hsplit, Nat.add_div_right _ hw, Nat.mul_succ]
    omega
  | case2 kk a h =>
    rw [forLoop, dif_neg h]
    have hlt : hi - kk < w := by
      by_contra hge
      exact h ⟨by omega, rfl⟩
    simp [Nat.div_eq_of_lt hlt]

end InPlace
