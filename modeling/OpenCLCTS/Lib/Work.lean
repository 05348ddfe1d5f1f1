import Mathlib.Data.List.Count
import Mathlib.Algebra.Order.BigOperators.Group.Finset
import Mathlib.Algebra.Order.Ring.Nat
import OpenCLCTS.Lib.Threads

/-!
# Bounded work

A step of a system may be work or idling.  If a measure of the states goes down with every step
that is work and never up, then no run does more work than the measure of its start, however its
steps are chosen (`Trace.work_le`); and if there is a step that is work as long as the goal is not
reached, the goal can always be reached (`System.Path.of_work`).  A measure is mostly a sum over
threads of which a step changes one term much and the others little (`sum_change_le`).
-/

namespace Interleaving

theorem sum_change_le {τ : Type*} [Fintype τ] {f g : τ → ℕ} {d : ℕ} (t : τ)
    (h : ∀ u, u ≠ t → g u ≤ f u + d) :
    ∑ u, g u + f t + d ≤ ∑ u, f u + Fintype.card τ * d + g t := by
  classical
  have hk := sum_change (f := fun u => f u + d) (g := fun u => if u = t then g t else f u + d) t
    fun u hu => if_neg hu
  have hle : ∑ u, g u ≤ ∑ u, if u = t then g t else f u + d := by
    refine Finset.sum_le_sum fun u _ => ?_
    by_cases hu : u = t
    · simp [hu]
    · simpa [hu] using h u hu
  simp only [if_true, Finset.sum_add_distrib, Finset.sum_const, Finset.card_univ, nsmul_eq_mul, Nat.cast_id] at hk
  omega

namespace System

variable {σ ε : Type*} {S : System σ ε}

/-- **No run does more work than the measure of its start.** -/
theorem Trace.work_le {I : σ → Prop} (work : σ → ε → Bool) (μ : σ → ℕ)
    (hI : ∀ s e s', I s → S.next s e = some s' → I s')
    (hμ : ∀ s e s', I s → S.next s e = some s' → μ s' + (work s e).toNat ≤ μ s)
    {s t : σ} {l : List (σ × ε)} (h : S.Trace s l t) (hs : I s) :
    I t ∧ l.countP (fun p => work p.1 p.2) + μ t ≤ μ s := by
  induction h with
  | nil => exact ⟨hs, by rw [List.countP_nil, Nat.zero_add]⟩
  | @snoc t u l e _ hn ih =>
    obtain ⟨hIt, hle⟩ := ih
    have hstep := hμ t e u hIt hn
    refine ⟨hI t e u hIt hn, ?_⟩
    rw [List.countP_append, List.countP_singleton]
    cases hw : work t e with
    | false =>
      rw [hw, Bool.toNat_false] at hstep
      simp only [Bool.false_eq_true, if_false]
      omega
    | true =>
      rw [hw, Bool.toNat_true] at hstep
      simp only [if_true]
      omega

/-- **Where there is always work to do, the goal can be reached.** -/
theorem Path.of_work {I goal : σ → Prop} (work : σ → ε → Bool) (μ : σ → ℕ)
    (hI : ∀ s e s', I s → S.next s e = some s' → I s')
    (hμ : ∀ s e s', I s → S.next s e = some s' → μ s' + (work s e).toNat ≤ μ s)
    (hlive : ∀ s, I s → ¬ goal s → ∃ e s', work s e = true ∧ S.next s e = some s')
    {s : σ} (hs : I s) : ∃ t, S.Path anyStep s t ∧ I t ∧ goal t := by
  refine Path.of_measure μ (fun s hI' hgoal => ?_) hs
  obtain ⟨e, s', hwork, hn⟩ := hlive s hI' hgoal
  have hstep := hμ s e s' hI' hn
  rw [hwork, Bool.toNat_true] at hstep
  exact ⟨e, s', trivial, hn, hI s e s' hI' hn, by omega⟩

end System

end Interleaving
