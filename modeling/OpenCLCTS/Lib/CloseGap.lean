import Mathlib.Logic.Function.Basic
import OpenCLCTS.Lib.Loops

/-!
# Removing elements of an array

An array of which the first elements are in use: `for (j = i; j < n - d; j++) a[j] = a[j + d]`
removes `d` elements at `i` by a move of those behind them, from left to right.
-/

namespace CloseGap

variable {α : Type*}

/-- `d` elements at `i` are removed from the first `n`. -/
def close (a : ℕ → α) (i n d : ℕ) : ℕ → α :=
  (List.range' i (n - d - i)).foldl (fun a j => Function.update a j (a (j + d))) a

/-- The array starts with the elements of the list. -/
def Holds (a : ℕ → α) (l : List α) : Prop := ∀ k x, l[k]? = some x → a k = x

variable {a : ℕ → α} {l before gone rest : List α} {i n d : ℕ}

theorem close_apply (hi : i + d ≤ n) (k : ℕ) :
    close a i n d k = if i ≤ k ∧ k < n - d then a (k + d) else a k := by
  have hloop := Loops.foldl_invariant
    (f := fun a j => Function.update a j (a (j + d)))
    (I := fun j (a' : ℕ → α) => ∀ k, a' k = if i ≤ k ∧ k < j then a (k + d) else a k)
    (a := i) (n := n - d - i) ?_ (s := a) ?_
  · rw [show i + (n - d - i) = n - d by omega] at hloop
    exact hloop k
  · intro j a' hj _ ha' k
    by_cases hk : k = j
    · -- what is moved here stands to the right, where nothing has been written yet
      rw [hk, Function.update_self, ha', if_neg (by omega), if_pos (by omega)]
    · rw [Function.update_of_ne hk, ha']
      by_cases hlt : i ≤ k ∧ k < j
      · rw [if_pos hlt, if_pos (by omega)]
      · rw [if_neg hlt, if_neg (by omega)]
  · intro k
    rw [if_neg (by omega)]

theorem close_zero (a : ℕ → α) (i n : ℕ) : close a i n 0 = a := by
  unfold close
  induction List.range' i (n - 0 - i) with
  | nil => rfl
  | cons j js ih =>
    rw [List.foldl_cons, Nat.add_zero, Function.update_eq_self]
    exact ih

/-- **The elements behind the gap move up.** -/
theorem Holds.close (h : Holds a (before ++ gone ++ rest)) :
    Holds (close a before.length (before ++ gone ++ rest).length gone.length) (before ++ rest) := by
  intro k x hk
  simp only [List.length_append]
  rw [close_apply (by omega)]
  by_cases hlt : k < before.length
  · rw [if_neg (by omega)]
    apply h
    rw [List.getElem?_append_left hlt] at hk
    rw [List.append_assoc, List.getElem?_append_left hlt, hk]
  · rw [List.getElem?_append_right (by omega)] at hk
    have hrest : k - before.length < rest.length := by
      rw [List.getElem?_eq_some_iff] at hk
      exact hk.1
    rw [if_pos (by omega)]
    apply h
    rw [List.getElem?_append_right (by simp only [List.length_append]; omega), ← hk]
    congr 1
    simp only [List.length_append]
    omega

theorem Holds.get (h : Holds a (before ++ l)) (k : ℕ) {x : α} (hk : l[k]? = some x) :
    a (before.length + k) = x := by
  apply h
  rw [List.getElem?_append_right (Nat.le_add_right _ _), Nat.add_sub_cancel_left, hk]

theorem Holds.unique {l' : List α} (h : Holds a l) (h' : Holds a l') (hlength : l.length = l'.length) :
    l = l' := by
  apply List.ext_getElem hlength
  intro k hk hk'
  rw [← h k l[k] (List.getElem?_eq_getElem hk), ← h' k l'[k] (List.getElem?_eq_getElem hk')]

end CloseGap
