import Mathlib.Algebra.BigOperators.Fin
import OpenCLCTS.Lib.Threads

/-!
# Updates that commute

Threads update one value: `f a b` is the value `a` after the update `b`.  If the
updates commute, then what the threads have not done yet, applied to the value as
it is, gives the same result at every moment of every run (`threads_updates`).
When all threads are done the value is that result, so it does not depend on the
interleaving, and `foldl_sum_finRange` computes it by going through the threads
one after the other.
-/

namespace Interleaving

variable {α β : Type*} {f : α → β → α} [RightCommutative f]

theorem foldl_sum_map {τ : Type*} (s : τ → Multiset β) (l : List τ) (a : α) :
    (l.map s).sum.foldl f a = l.foldl (fun a t => (s t).foldl f a) a := by
  induction l generalizing a with
  | nil => rfl
  | cons t l ih => rw [List.map_cons, List.sum_cons, Multiset.foldl_add, ih, List.foldl_cons]

theorem foldl_sum_finRange {n : ℕ} (s : Fin n → Multiset β) (a : α) :
    (∑ t, s t).foldl f a = (List.finRange n).foldl (fun a t => (s t).foldl f a) a := by
  rw [← foldl_sum_map, ← List.ofFn_eq_map, List.sum_ofFn]

variable {τ M L : Type*} [DecidableEq τ] [Fintype τ] {P : Program τ M L} {init : Conf τ M L → Prop}

/-- **What remains to be done gives the same result at every moment.**  Each step
of a thread does nothing to the value, or applies one of the thread's remaining
updates to it. -/
theorem threads_updates (f : α → β → α) [RightCommutative f] (value : M → α)
    (rest : τ → L → M → Multiset β) {ok : Conf τ M L → τ → Prop} {J : Conf τ M L → Prop}
    (hJ : ∀ c, (threads P init).Reach ok c → J c) {a : α}
    (h0 : ∀ c, init c → (∑ t, rest t (c.loc t) c.mem).foldl f (value c.mem) = a)
    (hown : ∀ c t l' m', J c → P t (c.loc t) c.mem = some (l', m') →
      value m' = value c.mem ∧ rest t l' m' = rest t (c.loc t) c.mem ∨
        ∃ b, rest t (c.loc t) c.mem = b ::ₘ rest t l' m' ∧ value m' = f (value c.mem) b)
    (hother : ∀ c t u l' m', u ≠ t → J c → P t (c.loc t) c.mem = some (l', m') →
      rest u (c.loc u) m' = rest u (c.loc u) c.mem)
    {c : Conf τ M L} (h : (threads P init).Reach ok c) :
    (∑ t, rest t (c.loc t) c.mem).foldl f (value c.mem) = a := by
  refine h.invariant_of hJ h0 ?_
  rintro c t c' hj hc _ hn
  obtain ⟨l', m', hP, rfl⟩ := threads_next.mp hn
  have hsum := sum_change (f := fun u => rest u (c.loc u) c.mem)
    (g := fun u => rest u (Function.update c.loc t l' u) m') t fun u hu => by
      rw [Function.update_of_ne hu]
      exact hother c t u l' m' hu hj hP
  simp only [Function.update_self] at hsum
  rcases hown c t l' m' hj hP with ⟨hvalue, hrest⟩ | ⟨b, hrest, hvalue⟩
  · rw [hrest] at hsum
    rw [hvalue, add_right_cancel hsum]
    exact hc
  · rw [hrest, ← Multiset.singleton_add, ← add_assoc] at hsum
    rw [hvalue, ← Multiset.foldl_cons, ← Multiset.singleton_add, add_comm, add_right_cancel hsum]
    exact hc

end Interleaving
