import Mathlib.Algebra.BigOperators.Group.Multiset.Basic
import Mathlib.Algebra.Order.Ring.Nat
import Mathlib.Data.Multiset.MapFold
import OpenCLCTS.Lib.System

/-!
# Tasks that spawn tasks

A pool of tasks works on a shared memory.  A step runs some task of the pool: it changes the memory,
and the task is replaced by the tasks that it spawns.  Which task runs is arbitrary, and so is the
outcome of what it asks of its environment.

* `sum_map_step`: a sum over the pool, before and after a step.
* `spawning_tasks`: what every task hands on to those that it spawns.
* `spawning_steps`: if each task has a number of steps, counted with all that comes from it, then
  the runs are not longer than that.
* `spawning_finish`: every run can be continued until the pool is empty, with any outcomes.
-/

namespace Interleaving

variable {T O M : Type*} [DecidableEq T]

/-- A memory and the tasks that are waiting to run. -/
structure Pool (T M : Type*) where
  mem : M
  tasks : Multiset T

/-- All orders in which the tasks can run, with all outcomes. -/
def spawning (step : T → O → M → M × Multiset T) (init : Pool T M → Prop) :
    System (Pool T M) (T × O) where
  init := init
  next s e :=
    if e.1 ∈ s.tasks then
      some ⟨(step e.1 e.2 s.mem).1, s.tasks.erase e.1 + (step e.1 e.2 s.mem).2⟩
    else none

variable {step : T → O → M → M × Multiset T} {init : Pool T M → Prop} {s s' : Pool T M} {t : T}
  {o : O} {l : List (Pool T M × (T × O))}

theorem spawning_next : (spawning step init).next s (t, o) = some s' ↔
    t ∈ s.tasks ∧ s' = ⟨(step t o s.mem).1, s.tasks.erase t + (step t o s.mem).2⟩ := by
  simp only [spawning, Option.ite_none_right_eq_some, Option.some.injEq, eq_comm (b := s')]

theorem sum_map_step {A : Type*} [AddCommMonoid A] (g : T → A) {tasks : Multiset T}
    (ht : t ∈ tasks) (spawned : Multiset T) :
    ((tasks.erase t + spawned).map g).sum + g t = (tasks.map g).sum + (spawned.map g).sum := by
  obtain ⟨rest, rfl⟩ := Multiset.exists_cons_of_mem ht
  rw [Multiset.erase_cons_head, Multiset.map_add, Multiset.sum_add, Multiset.map_cons,
    Multiset.sum_cons, add_right_comm, add_comm (g t), add_right_comm]

/-- **What a task hands on holds of all that come from it**, at every step of a run. -/
theorem spawning_tasks {P : T → Prop} (hstep : ∀ t o m, P t → ∀ u ∈ (step t o m).2, P u)
    (h : (spawning step init).Trace s l s') (hs : ∀ t ∈ s.tasks, P t) :
    (∀ t ∈ s'.tasks, P t) ∧ ∀ p ∈ l, P p.2.1 := by
  induction h with
  | nil => exact ⟨hs, fun _ hp => absurd hp List.not_mem_nil⟩
  | @snoc v w l e _ hnext ih =>
    obtain ⟨hv, hl⟩ := ih
    obtain ⟨ht, rfl⟩ := spawning_next.mp hnext
    refine ⟨fun u hu => ?_, fun p hp => ?_⟩
    · rcases Multiset.mem_add.mp hu with hu | hu
      · exact hv u (Multiset.mem_of_mem_erase hu)
      · exact hstep e.1 e.2 v.mem (hv e.1 ht) u hu
    · rcases List.mem_append.mp hp with hp | hp
      · exact hl p hp
      · rw [List.mem_singleton.mp hp]
        exact hv e.1 ht

section Steps

variable {steps : T → ℕ}

/-- **How long the runs are.** -/
theorem spawning_steps (hsteps : ∀ t o m, ((step t o m).2.map steps).sum + 1 ≤ steps t)
    (h : (spawning step init).Trace s l s') :
    l.length + (s'.tasks.map steps).sum ≤ (s.tasks.map steps).sum := by
  induction h with
  | nil => exact (Nat.zero_add _).le
  | @snoc u v l e _ hnext ih =>
    obtain ⟨ht, rfl⟩ := spawning_next.mp hnext
    have hsum := sum_map_step steps ht (step e.1 e.2 u.mem).2
    have hone := hsteps e.1 e.2 u.mem
    rw [List.length_append, List.length_singleton]
    simp only at hsum ⊢
    omega

/-- **Every run can be finished**, with the outcomes that are asked for. -/
theorem spawning_finish (hsteps : ∀ t o m, ((step t o m).2.map steps).sum + 1 ≤ steps t)
    {P : T × O → Prop} (hP : ∀ t, ∃ o, P (t, o)) (s : Pool T M) :
    ∃ s', (spawning step init).Path (fun _ e => P e) s s' ∧ s'.tasks = 0 := by
  have hstep : ∀ s : Pool T M, True → ¬ s.tasks = 0 → ∃ e s', P e ∧
      (spawning step init).next s e = some s' ∧ True ∧
      (s'.tasks.map steps).sum < (s.tasks.map steps).sum := by
    intro s _ hs
    obtain ⟨t, ht⟩ := Multiset.exists_mem_of_ne_zero hs
    obtain ⟨o, ho⟩ := hP t
    have hsum := sum_map_step steps ht (step t o s.mem).2
    have hone := hsteps t o s.mem
    refine ⟨(t, o), _, ho, spawning_next.mpr ⟨ht, rfl⟩, trivial, ?_⟩
    simp only
    omega
  obtain ⟨s', hpath, -, hdone⟩ :=
    System.Path.of_measure (fun s : Pool T M => (s.tasks.map steps).sum) hstep trivial
  exact ⟨s', hpath, hdone⟩

end Steps

end Interleaving
