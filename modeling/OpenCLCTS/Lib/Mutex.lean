import Mathlib.Logic.Function.Basic

/-!
# Mutexes

A mutex is the thread that holds it, or `none`.  Which thread that is can also be
read off the program counters: `holds t` says that thread `t` stands between its
lock and its unlock.  `Owned` says the two agree, and the three rules say how a
thread's move keeps them in agreement: it does not touch the mutex, it takes a
free one, or it gives back the one it has.
-/

namespace Interleaving

variable {τ : Type*} {lock : Option τ} {holds : τ → Bool} {t u : τ} {b : Bool}

/-- The mutex is held by exactly the thread whose program counter says so. -/
def Owned (lock : Option τ) (holds : τ → Bool) : Prop :=
  ∀ t, lock = some t ↔ holds t = true

theorem owned_none : Owned none holds ↔ ∀ t, holds t = false := by
  simp only [Owned, reduceCtorEq, false_iff, Bool.not_eq_true]

theorem Owned.unique (h : Owned lock holds) (ht : holds t = true) (hu : holds u = true) :
    t = u :=
  Option.some.inj (((h t).mpr ht).symm.trans ((h u).mpr hu))

theorem Owned.not_holds (h : Owned lock holds) (ht : holds t = true) (hne : u ≠ t) :
    holds u = false := by
  cases hu : holds u with
  | false => rfl
  | true => exact absurd (h.unique hu ht) hne

variable [DecidableEq τ]

theorem Owned.keep (h : Owned lock holds) (hb : b = holds t) :
    Owned lock (Function.update holds t b) := by
  rw [hb, Function.update_eq_self]
  exact h

theorem Owned.acquire (h : Owned lock holds) (hfree : lock = none) :
    Owned (some t) (Function.update holds t true) := by
  subst hfree
  intro u
  by_cases hu : u = t
  · subst hu; simp
  · simp only [Option.some.injEq, Function.update_of_ne hu, owned_none.mp h u, Ne.symm hu,
      Bool.false_eq_true]

theorem Owned.release (h : Owned lock holds) (ht : holds t = true) :
    Owned none (Function.update holds t false) := by
  rw [owned_none]
  intro u
  by_cases hu : u = t
  · subst hu; simp
  · rw [Function.update_of_ne hu, h.not_holds ht hu]

end Interleaving
