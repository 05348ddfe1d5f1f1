import Mathlib.Algebra.BigOperators.Group.Finset.Basic
import Mathlib.Tactic.Abel
import OpenCLCTS.Lib.System

/-!
# Threads over a shared memory

A `Conf` is a shared memory and one local state for each thread.  A `Program`
says what a thread does in one atomic step: it reads and writes the memory and
moves to its next local state, or cannot move (`none`: finished or blocked).
`threads P init` is the system of all interleavings; its events are the threads.

The rules are the ways such a system is reasoned about:

* `threads_invariant`: an invariant of the memory together with one assertion for
  each thread, kept by the thread's own steps and not disturbed by the others.
* `sum_update`: a quantity summed over the threads changes by the difference at
  the one thread that moved, so a count over program counters can be compared
  with a shared counter.
* `threads_conserved`: what the memory and the threads hold together, if every
  step only moves it between them.
* `threads_finish`: threads that do not wait can be run to their ends.
-/

namespace Interleaving

variable {τ M L : Type*}

/-- A shared memory and the local state of each thread. -/
structure Conf (τ M L : Type*) where
  mem : M
  loc : τ → L

/-- One atomic step of a thread. -/
abbrev Program (τ M L : Type*) := τ → L → M → Option (L × M)

theorem sum_change [Fintype τ] {A : Type*} [AddCommMonoid A] {f g : τ → A} (t : τ)
    (h : ∀ u, u ≠ t → g u = f u) : ∑ u, g u + f t = ∑ u, f u + g t := by
  classical
  have hsplit : ∀ k : τ → A, ∑ u, k u = k t + ∑ u ∈ Finset.univ.erase t, k u :=
    fun k => (Finset.add_sum_erase _ _ (Finset.mem_univ t)).symm
  have hrest : ∑ u ∈ Finset.univ.erase t, g u = ∑ u ∈ Finset.univ.erase t, f u :=
    Finset.sum_congr rfl fun u hu => h u (Finset.ne_of_mem_erase hu)
  rw [hsplit g, hsplit f, hrest, add_right_comm, add_comm (g t), add_right_comm]

/-- **Summing over the threads after one of them moved.** -/
theorem sum_update [Fintype τ] [DecidableEq τ] {A : Type*} [AddCommMonoid A] (f : τ → L → A)
    (loc : τ → L) (t : τ) (l : L) :
    ∑ u, f u (Function.update loc t l u) + f t (loc t) = ∑ u, f u (loc u) + f t l := by
  have h := sum_change (f := fun u => f u (loc u)) (g := fun u => f u (Function.update loc t l u))
    t fun u hu => by rw [Function.update_of_ne hu]
  rwa [Function.update_self] at h

variable [DecidableEq τ]

/-- All interleavings of the threads' steps. -/
def threads (P : Program τ M L) (init : Conf τ M L → Prop) : System (Conf τ M L) τ where
  init := init
  next c t := (P t (c.loc t) c.mem).map fun r => ⟨r.2, Function.update c.loc t r.1⟩

variable {P : Program τ M L} {init : Conf τ M L → Prop}

theorem threads_next {c c' : Conf τ M L} {t : τ} :
    (threads P init).next c t = some c' ↔
      ∃ l m, P t (c.loc t) c.mem = some (l, m) ∧ c' = ⟨m, Function.update c.loc t l⟩ := by
  simp only [threads, Option.map_eq_some_iff, Prod.exists]
  exact ⟨fun ⟨l, m, h, he⟩ => ⟨l, m, h, he.symm⟩, fun ⟨l, m, h, he⟩ => ⟨l, m, h, he.symm⟩⟩

/-- **Assertions that do not interfere.**  `G` is about the memory alone and
`A t` about one thread and the memory.  Each thread's step keeps `G` and its own
assertion, and does not disturb the assertion of another thread. -/
theorem threads_invariant {ok : Conf τ M L → τ → Prop} {G : M → Prop} {A : τ → L → M → Prop}
    (h0 : ∀ c, init c → G c.mem ∧ ∀ t, A t (c.loc t) c.mem)
    (hown : ∀ t l m l' m', G m → A t l m → P t l m = some (l', m') → G m' ∧ A t l' m')
    (hother : ∀ t u l m l' m' k, u ≠ t → G m → A t l m → P t l m = some (l', m') → A u k m →
      A u k m')
    {c : Conf τ M L} (h : (threads P init).Reach ok c) :
    G c.mem ∧ ∀ t, A t (c.loc t) c.mem := by
  refine h.invariant (I := fun c => G c.mem ∧ ∀ t, A t (c.loc t) c.mem) h0 ?_
  rintro s t s' ⟨hG, hA⟩ _ hn
  obtain ⟨l, m, hP, rfl⟩ := threads_next.mp hn
  obtain ⟨hG', hA'⟩ := hown t _ _ _ _ hG (hA t) hP
  refine ⟨hG', ?_⟩
  intro u
  by_cases hu : u = t
  · subst hu
    simpa only [Function.update_self] using hA'
  · simpa only [Function.update_of_ne hu] using hother t u _ _ _ _ _ hu hG (hA t) hP (hA u)

/-- **What the threads and the memory hold together.**  A thread's step changes
what the memory and the thread itself hold by as much as it changes what is due to
that thread, and nothing that another thread holds. -/
theorem threads_conserved [Fintype τ] {A : Type*} [AddCommMonoid A] [IsCancelAdd A]
    (shared : M → A) (own : τ → L → M → A) (due : τ → L → A)
    {ok : Conf τ M L → τ → Prop} {J : Conf τ M L → Prop}
    (hJ : ∀ c, (threads P init).Reach ok c → J c) {a : A}
    (h0 : ∀ c, init c →
      shared c.mem + ∑ t, own t (c.loc t) c.mem = a + ∑ t, due t (c.loc t))
    (hown : ∀ c t l' m', J c → P t (c.loc t) c.mem = some (l', m') →
      shared m' + own t l' m' + due t (c.loc t)
        = shared c.mem + own t (c.loc t) c.mem + due t l')
    (hother : ∀ c t u l' m', u ≠ t → J c → P t (c.loc t) c.mem = some (l', m') →
      own u (c.loc u) m' = own u (c.loc u) c.mem)
    {c : Conf τ M L} (h : (threads P init).Reach ok c) :
    shared c.mem + ∑ t, own t (c.loc t) c.mem = a + ∑ t, due t (c.loc t) := by
  refine h.invariant_of hJ h0 ?_
  rintro c t c' hj hc _ hn
  obtain ⟨l', m', hP, rfl⟩ := threads_next.mp hn
  have hself := hown c t l' m' hj hP
  have hsum := sum_change (f := fun u => own u (c.loc u) c.mem)
    (g := fun u => own u (Function.update c.loc t l' u) m') t fun u hu => by
      rw [Function.update_of_ne hu]
      exact hother c t u l' m' hu hj hP
  have hdue := sum_update due c.loc t l'
  simp only [Function.update_self] at hsum
  refine add_right_cancel (b := own t (c.loc t) c.mem + due t (c.loc t)) ?_
  calc shared m' + ∑ u, own u (Function.update c.loc t l' u) m'
        + (own t (c.loc t) c.mem + due t (c.loc t))
      = shared m' + (∑ u, own u (Function.update c.loc t l' u) m' + own t (c.loc t) c.mem)
          + due t (c.loc t) := by abel
    _ = (shared m' + own t l' m' + due t (c.loc t)) + ∑ u, own u (c.loc u) c.mem := by
        rw [hsum]; abel
    _ = (shared c.mem + ∑ u, own u (c.loc u) c.mem) + due t l' + own t (c.loc t) c.mem := by
        rw [hself]; abel
    _ = a + (∑ u, due u (c.loc u) + due t l') + own t (c.loc t) c.mem := by rw [hc]; abel
    _ = a + ∑ u, due u (Function.update c.loc t l' u)
          + (own t (c.loc t) c.mem + due t (c.loc t)) := by rw [← hdue]; abel

/-- **Threads that do not wait can be run to their ends**: each step that is left lowers the rank of
its thread, whatever the memory holds. -/
theorem threads_finish [Fintype τ] (done : τ → L → Prop) (rank : τ → L → ℕ)
    (hstep : ∀ t l m, ¬ done t l → ∃ l' m', P t l m = some (l', m') ∧ rank t l' < rank t l)
    (c : Conf τ M L) :
    ∃ c', (threads P init).Path System.anyStep c c' ∧ ∀ t, done t (c'.loc t) := by
  have hnext : ∀ c : Conf τ M L, True → ¬ (∀ t, done t (c.loc t)) → ∃ t c', System.anyStep c t ∧
      (threads P init).next c t = some c' ∧ True ∧
      ∑ t, rank t (c'.loc t) < ∑ t, rank t (c.loc t) := by
    intro c _ hdone
    obtain ⟨t, ht⟩ := not_forall.mp hdone
    obtain ⟨l', m', hP, hlt⟩ := hstep t (c.loc t) c.mem ht
    have hsum := sum_update rank c.loc t l'
    refine ⟨t, ⟨m', Function.update c.loc t l'⟩, trivial, threads_next.mpr ⟨l', m', hP, rfl⟩,
      trivial, ?_⟩
    simp only
    omega
  obtain ⟨c', hpath, -, hdone⟩ := System.Path.of_measure
    (fun c : Conf τ M L => ∑ t, rank t (c.loc t)) hnext trivial
  exact ⟨c', hpath, hdone⟩

end Interleaving
