import Mathlib.Tactic.Ring
import OpenCLCTS.Lib.Loops

/-!
# Numbers in a memory of bytes

A number of `8 * w` bits takes `w` bytes, the low byte first.  An array of such
numbers is written by a loop; what is loaded afterwards is what was stored
(`load_storeEach`), and bytes outside of the array are kept (`storeEach_of_outside`).
-/

namespace Memory

open Loops

/-- The number in the `w` bytes from `a` on. -/
def load (mem : ℕ → BitVec 8) : (w : ℕ) → ℕ → BitVec (8 * w)
  | 0, _ => 0#0
  | w + 1, a => load mem w (a + 1) ++ mem a

/-- Puts a number into the `w` bytes from `a` on. -/
def store {w : ℕ} (v : BitVec (8 * w)) (mem : ℕ → BitVec 8) (a : ℕ) : ℕ → BitVec 8 :=
  fun b => if a ≤ b ∧ b < a + w then v.extractLsb' (8 * (b - a)) 8 else mem b

variable {mem mem' : ℕ → BitVec 8} {w a b i n : ℕ}

theorem load_congr {a' : ℕ} (h : ∀ k < w, mem (a + k) = mem' (a' + k)) :
    load mem w a = load mem' w a' := by
  induction w generalizing a a' with
  | zero => rfl
  | succ w ih =>
    have hrest : load mem w (a + 1) = load mem' w (a' + 1) := ih fun k hk => by
      simpa only [Nat.add_assoc, Nat.add_comm 1] using h (k + 1) (by omega)
    have hfirst : mem a = mem' a' := h 0 (by omega)
    rw [load, load, hrest, hfirst]

theorem getLsbD_load (hi : i < 8 * w) :
    (load mem w a).getLsbD i = (mem (a + i / 8)).getLsbD (i % 8) := by
  induction w generalizing a i with
  | zero => omega
  | succ w ih =>
    rw [load, BitVec.getLsbD_append]
    by_cases h : i < 8
    · rw [if_pos h, Nat.div_eq_of_lt h, Nat.mod_eq_of_lt h, Nat.add_zero]
    · rw [if_neg h, ih (by omega), show a + 1 + (i - 8) / 8 = a + i / 8 by omega,
        show (i - 8) % 8 = i % 8 by omega]

theorem eq_of_load_eq {a' o : ℕ} (h : load mem w a = load mem' w a') (ho : o < w) :
    mem (a + o) = mem' (a' + o) := by
  apply BitVec.eq_of_getLsbD_eq
  intro i hi
  have hbit : (load mem w a).getLsbD (8 * o + i) = (load mem' w a').getLsbD (8 * o + i) := by rw [h]
  rwa [getLsbD_load (by omega), getLsbD_load (by omega), show (8 * o + i) / 8 = o by omega,
    show (8 * o + i) % 8 = i by omega] at hbit

theorem extractLsb'_load {k o : ℕ} (h : o + k ≤ w) :
    (load mem w a).extractLsb' (8 * o) (8 * k) = load mem k (a + o) := by
  apply BitVec.eq_of_getLsbD_eq
  intro i hi
  rw [BitVec.getLsbD_extractLsb', getLsbD_load (by omega), getLsbD_load hi, decide_eq_true hi,
    Bool.true_and, show a + (8 * o + i) / 8 = a + o + i / 8 by omega,
    show (8 * o + i) % 8 = i % 8 by omega]

/-- **A number that was stored is loaded.** -/
theorem load_store (v : BitVec (8 * w)) (mem : ℕ → BitVec 8) (a : ℕ) :
    load (store v mem a) w a = v := by
  apply BitVec.eq_of_getLsbD_eq
  intro i hi
  rw [getLsbD_load hi, store, if_pos (by omega), BitVec.getLsbD_extractLsb',
    Nat.add_sub_cancel_left, Nat.div_add_mod]
  simp only [Nat.mod_lt i (by decide : 0 < 8), decide_true, Bool.true_and]

theorem store_of_outside {v : BitVec (8 * w)} (h : b < a ∨ a + w ≤ b) : store v mem a b = mem b :=
  if_neg (by omega)

/-- **A loop that stores the elements of an array**, each computed from the memory it has come to,
if what is computed does not depend on the elements before. -/
theorem foldl_store_spec {g : (ℕ → BitVec 8) → ℕ → BitVec (8 * w)} {f : ℕ → BitVec (8 * w)}
    (hg : ∀ mem' i, (∀ b, b < a ∨ a + i * w ≤ b → mem' b = mem b) → g mem' i = f i) (n : ℕ) :
    (∀ i < n, load ((List.range' 0 n).foldl (fun mem i => store (g mem i) mem (a + i * w)) mem) w
        (a + i * w) = f i) ∧
      ∀ b, b < a ∨ a + n * w ≤ b →
        (List.range' 0 n).foldl (fun mem i => store (g mem i) mem (a + i * w)) mem b = mem b := by
  have hloop := foldl_invariant (f := fun mem i => store (g mem i) mem (a + i * w))
    (I := fun n mem' => (∀ i < n, load mem' w (a + i * w) = f i) ∧
      ∀ b, b < a ∨ a + n * w ≤ b → mem' b = mem b) (a := 0) (n := n) ?_ (s := mem) ?_
  · rwa [Nat.zero_add] at hloop
  · rintro k mem' _ _ ⟨hstored, hkept⟩
    constructor
    · intro i hi
      rcases Nat.lt_succ_iff_lt_or_eq.mp hi with hlt | rfl
      · have hw : i * w + w ≤ k * w := by
          rw [← Nat.succ_mul]
          exact Nat.mul_le_mul_right w hlt
        rw [← hstored i hlt]
        exact load_congr fun o ho => store_of_outside (.inl (by omega))
      · rw [load_store, hg mem' i hkept]
    · intro b hb
      rw [Nat.succ_mul] at hb
      rw [store_of_outside (by omega)]
      exact hkept b (by omega)
  · exact ⟨fun i hi => absurd hi (Nat.not_lt_zero i), fun b _ => rfl⟩

/-- An array of `n` numbers. -/
def storeEach {w : ℕ} (n : ℕ) (f : ℕ → BitVec (8 * w)) (mem : ℕ → BitVec 8) (a : ℕ) :
    ℕ → BitVec 8 :=
  (List.range' 0 n).foldl (fun mem i => store (f i) mem (a + i * w)) mem

/-- **The elements are stored, and nothing else is changed.** -/
theorem storeEach_spec (n : ℕ) (f : ℕ → BitVec (8 * w)) (mem : ℕ → BitVec 8) (a : ℕ) :
    (∀ i < n, load (storeEach n f mem a) w (a + i * w) = f i) ∧
      ∀ b, b < a ∨ a + n * w ≤ b → storeEach n f mem a b = mem b :=
  foldl_store_spec (g := fun _ i => f i) (fun _ _ _ => rfl) n

/-- The numbers of an array are rewritten one after the other. -/
def mapEach {w : ℕ} (n : ℕ) (f : BitVec (8 * w) → BitVec (8 * w)) (mem : ℕ → BitVec 8) (a : ℕ) :
    ℕ → BitVec 8 :=
  (List.range' 0 n).foldl (fun mem i => store (f (load mem w (a + i * w))) mem (a + i * w)) mem

/-- **The elements are rewritten, and nothing else is changed.** -/
theorem mapEach_spec (n : ℕ) (f : BitVec (8 * w) → BitVec (8 * w)) (mem : ℕ → BitVec 8) (a : ℕ) :
    (∀ i < n, load (mapEach n f mem a) w (a + i * w) = f (load mem w (a + i * w))) ∧
      ∀ b, b < a ∨ a + n * w ≤ b → mapEach n f mem a b = mem b := by
  refine foldl_store_spec (g := fun mem i => f (load mem w (a + i * w)))
    (f := fun i => f (load mem w (a + i * w))) ?_ n
  -- the loop has not come to this element before
  intro mem' i hkept
  exact congrArg f (load_congr fun o _ => hkept _ (.inr (by omega)))

theorem load_mapEach {f : BitVec (8 * w) → BitVec (8 * w)} (hi : i < n) :
    load (mapEach n f mem a) w (a + i * w) = f (load mem w (a + i * w)) :=
  (mapEach_spec n f mem a).1 i hi

theorem mapEach_of_outside {f : BitVec (8 * w) → BitVec (8 * w)} (h : b < a ∨ a + n * w ≤ b) :
    mapEach n f mem a b = mem b := (mapEach_spec n f mem a).2 b h

theorem store_load (mem : ℕ → BitVec 8) (w a : ℕ) : store (load mem w a) mem a = mem := by
  funext b
  rw [store]
  split
  · rename_i h
    apply BitVec.eq_of_getLsbD_eq
    intro i hi
    rw [BitVec.getLsbD_extractLsb', getLsbD_load (by omega), decide_eq_true hi, Bool.true_and,
      show a + (8 * (b - a) + i) / 8 = b by omega, show (8 * (b - a) + i) % 8 = i by omega]
  · rfl

theorem mapEach_eq_self {f : BitVec (8 * w) → BitVec (8 * w)}
    (h : ∀ i < n, f (load mem w (a + i * w)) = load mem w (a + i * w)) :
    mapEach n f mem a = mem := by
  have hloop := foldl_invariant
    (f := fun mem i => store (f (load mem w (a + i * w))) mem (a + i * w))
    (I := fun _ mem' => mem' = mem) (a := 0) (n := n) ?_ (s := mem) rfl
  · exact hloop
  · rintro k mem' _ hk rfl
    rw [h k (by omega), store_load]

theorem storeEach_eq_self {f : ℕ → BitVec (8 * w)} (h : ∀ i < n, load mem w (a + i * w) = f i) :
    storeEach n f mem a = mem := by
  have hloop := foldl_invariant (f := fun mem i => store (f i) mem (a + i * w))
    (I := fun _ mem' => mem' = mem) (a := 0) (n := n) ?_ (s := mem) rfl
  · exact hloop
  · rintro k mem' _ hk rfl
    rw [← h k (by omega), store_load]

theorem load_storeEach {f : ℕ → BitVec (8 * w)} (hi : i < n) :
    load (storeEach n f mem a) w (a + i * w) = f i := (storeEach_spec n f mem a).1 i hi

theorem storeEach_of_outside {f : ℕ → BitVec (8 * w)} (h : b < a ∨ a + n * w ≤ b) :
    storeEach n f mem a b = mem b := (storeEach_spec n f mem a).2 b h

end Memory
