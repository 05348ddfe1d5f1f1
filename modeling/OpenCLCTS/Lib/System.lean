import Mathlib.Order.Basic
import Mathlib.Order.Nat

/-!
# Transition systems and their runs

A `System` is a set of starts together with a partial step function: in state
`s` the event `e` either cannot happen (`none`) or leads to one state.  All
nondeterminism is in the choice of the event, so a run is a list of events and
can be evaluated (`System.run`).

`Reach ok s` says that `s` is the end of a run whose steps all satisfy the side
condition `ok`, which sees the state before the step and the event.  The rules:

* `Reach.invariant`: what every start has and every allowed step keeps holds of
  every reached state.
* `Reach.mono`: a weaker side condition reaches more.
* `Reach.of_run`: an evaluated run gives a reached state.
* `Path`: the same for continuations of a given state, and `Path.of_measure`:
  if every state short of the goal has an allowed step that lowers a measure,
  some continuation arrives at the goal.
* `Trace`: a run together with the list of its steps, for statements about what
  happened along the way.
* `withFaults`: the same system when something else changes the state as well.
-/

namespace Interleaving

/-- A transition system: the starts, and for each event a partial step. -/
structure System (σ ε : Type*) where
  init : σ → Prop
  next : σ → ε → Option σ

namespace System

variable {σ ε : Type*} {S : System σ ε}

/-- The side condition that allows every step. -/
abbrev anyStep (_ : σ) (_ : ε) : Prop := True

/-- The states at the end of a run whose steps all satisfy `ok`. -/
inductive Reach (S : System σ ε) (ok : σ → ε → Prop) : σ → Prop
  | start {s : σ} : S.init s → Reach S ok s
  | step {s s' : σ} (e : ε) : Reach S ok s → ok s e → S.next s e = some s' → Reach S ok s'

/-- **The invariant rule.**  What holds at the start and is kept by every
allowed step holds of every reached state. -/
theorem Reach.invariant {ok : σ → ε → Prop} {I : σ → Prop} (h0 : ∀ s, S.init s → I s)
    (hs : ∀ s e s', I s → ok s e → S.next s e = some s' → I s') {s : σ} (h : S.Reach ok s) :
    I s := by
  induction h with
  | start hi => exact h0 _ hi
  | step e _ hok hn ih => exact hs _ e _ ih hok hn

theorem Reach.mono {ok ok' : σ → ε → Prop} (hle : ∀ s e, ok s e → ok' s e) {s : σ}
    (h : S.Reach ok s) : S.Reach ok' s := by
  induction h with
  | start hi => exact .start hi
  | step e _ hok hn ih => exact .step e ih (hle _ _ hok) hn

/-- The invariant rule above an invariant that is already known. -/
theorem Reach.invariant_of {ok : σ → ε → Prop} {I J : σ → Prop}
    (hJ : ∀ s, S.Reach ok s → J s) (h0 : ∀ s, S.init s → I s)
    (hs : ∀ s e s', J s → I s → ok s e → S.next s e = some s' → I s') {s : σ}
    (h : S.Reach ok s) : I s := by
  induction h with
  | start hi => exact h0 _ hi
  | step e hr hok hn ih => exact hs _ e _ (hJ _ hr) ih hok hn

/-! ### Runs that can be evaluated -/

/-- The state after a list of events, if all of them can happen and are allowed. -/
def run (S : System σ ε) (ok : σ → ε → Prop) [∀ s e, Decidable (ok s e)] : σ → List ε → Option σ
  | s, [] => some s
  | s, e :: es => if ok s e then (S.next s e).bind fun s' => run S ok s' es else none

theorem run_cons {ok : σ → ε → Prop} [∀ s e, Decidable (ok s e)] {s s' : σ} {e : ε} {es : List ε} :
    S.run ok s (e :: es) = some s' ↔
      ok s e ∧ ∃ t, S.next s e = some t ∧ S.run ok t es = some s' := by
  simp only [run, Option.ite_none_right_eq_some, Option.bind_eq_some_iff]

theorem Reach.of_run {ok : σ → ε → Prop} [∀ s e, Decidable (ok s e)] {s s' : σ}
    (h : S.Reach ok s) {es : List ε} (hr : S.run ok s es = some s') : S.Reach ok s' := by
  induction es generalizing s with
  | nil =>
    rw [run, Option.some.injEq] at hr
    exact hr ▸ h
  | cons e es ih =>
    obtain ⟨hok, t, ht, hr⟩ := run_cons.mp hr
    exact ih (.step e h hok ht) hr

/-- A reached state with a given property, found by evaluating a continuation. -/
theorem Reach.exists_run {ok : σ → ε → Prop} [∀ s e, Decidable (ok s e)] (p : σ → Prop)
    [DecidablePred p] {s : σ} (h : S.Reach ok s) (es : List ε)
    (hr : (S.run ok s es).any (fun s' => decide (p s')) = true) : ∃ s', S.Reach ok s' ∧ p s' := by
  cases hrun : S.run ok s es with
  | none => rw [hrun] at hr; cases hr
  | some s' =>
    rw [hrun, Option.any_some] at hr
    exact ⟨s', h.of_run hrun, of_decide_eq_true hr⟩

/-- The same from a start. -/
theorem Reach.exists_of_run (ok : σ → ε → Prop) [∀ s e, Decidable (ok s e)] (p : σ → Prop)
    [DecidablePred p] {s : σ} (h : S.init s) (es : List ε)
    (hr : (S.run ok s es).any (fun s' => decide (p s')) = true) : ∃ s', S.Reach ok s' ∧ p s' :=
  (Reach.start h).exists_run p es hr

/-! ### Continuations -/

/-- Some continuation of `s`, by steps that satisfy `ok`, ends in `s'`. -/
inductive Path (S : System σ ε) (ok : σ → ε → Prop) : σ → σ → Prop
  | refl (s : σ) : Path S ok s s
  | head {s t u : σ} (e : ε) : ok s e → S.next s e = some t → Path S ok t u → Path S ok s u

theorem Path.trans {ok : σ → ε → Prop} {s t u : σ} (h : S.Path ok s t) (g : S.Path ok t u) :
    S.Path ok s u := by
  induction h with
  | refl => exact g
  | head e hok hn _ ih => exact .head e hok hn (ih g)

theorem Path.single {ok : σ → ε → Prop} {s t : σ} (e : ε) (hok : ok s e)
    (hn : S.next s e = some t) : S.Path ok s t := .head e hok hn (.refl t)

theorem Path.mono {ok ok' : σ → ε → Prop} (hle : ∀ s e, ok s e → ok' s e) {s t : σ}
    (h : S.Path ok s t) : S.Path ok' s t := by
  induction h with
  | refl => exact .refl _
  | head e hok hn _ ih => exact .head e (hle _ _ hok) hn ih

theorem Path.reach {ok : σ → ε → Prop} {s t : σ} (h : S.Path ok s t) (hs : S.Reach ok s) :
    S.Reach ok t := by
  induction h with
  | refl => exact hs
  | head e hok hn _ ih => exact ih (.step e hs hok hn)

theorem Path.invariant {ok : σ → ε → Prop} {I : σ → Prop}
    (hs : ∀ s e s', I s → ok s e → S.next s e = some s' → I s') {s t : σ}
    (h : S.Path ok s t) (hI : I s) : I t := by
  induction h with
  | refl => exact hI
  | head e hok hn _ ih => exact ih (hs _ e _ hI hok hn)

/-- **Progress by a measure.**  If every state that satisfies `I` and is not yet
at the goal has an allowed step that keeps `I` and lowers the measure, then some
continuation arrives at the goal. -/
theorem Path.of_measure {ok : σ → ε → Prop} {I goal : σ → Prop} (μ : σ → ℕ)
    (hs : ∀ s, I s → ¬ goal s → ∃ e s', ok s e ∧ S.next s e = some s' ∧ I s' ∧ μ s' < μ s)
    {s : σ} (hI : I s) : ∃ t, S.Path ok s t ∧ I t ∧ goal t := by
  induction hn : μ s using Nat.strongRecOn generalizing s with
  | ind n ih =>
    by_cases hg : goal s
    · exact ⟨s, .refl s, hI, hg⟩
    · obtain ⟨e, s', hok, hnx, hI', hlt⟩ := hs s hI hg
      obtain ⟨t, hp, ht, hgt⟩ := ih (μ s') (hn ▸ hlt) hI' rfl
      exact ⟨t, .head e hok hnx hp, ht, hgt⟩

/-! ### Runs with their steps -/

/-- A run from `s` to `s'` with the list of its steps, each given by the state
before it and its event. -/
inductive Trace (S : System σ ε) : σ → List (σ × ε) → σ → Prop
  | nil (s : σ) : Trace S s [] s
  | snoc {s t u : σ} {l : List (σ × ε)} (e : ε) : Trace S s l t → S.next t e = some u →
      Trace S s (l ++ [(t, e)]) u

theorem Trace.reach {ok : σ → ε → Prop} {s t : σ} {l : List (σ × ε)} (h : S.Trace s l t)
    (hs : S.Reach ok s) (hl : ∀ p ∈ l, ok p.1 p.2) : S.Reach ok t := by
  induction h with
  | nil => exact hs
  | snoc e _ hn ih =>
    have hr := ih fun p hp => hl p (List.mem_append_left _ hp)
    exact .step e hr (hl (_, e) (by simp)) hn

theorem Trace.of_run {ok : σ → ε → Prop} [∀ s e, Decidable (ok s e)] {s t u : σ}
    {l : List (σ × ε)} (h : S.Trace s l t) (hl : ∀ p ∈ l, ok p.1 p.2) {es : List ε}
    (hr : S.run ok t es = some u) : ∃ l', S.Trace s l' u ∧ ∀ p ∈ l', ok p.1 p.2 := by
  induction es generalizing t l with
  | nil =>
    rw [run, Option.some.injEq] at hr
    exact ⟨l, hr ▸ h, hl⟩
  | cons e es ih =>
    obtain ⟨hok, t', ht, hr⟩ := run_cons.mp hr
    refine ih (.snoc e h ht) (fun p hp => ?_) hr
    rcases List.mem_append.mp hp with hp | hp
    · exact hl p hp
    · rw [List.mem_singleton.mp hp]
      exact hok

/-- If some step of a run fails `ok`, the run splits there: an allowed run up to
that step, the step, and a continuation. -/
theorem Trace.exists_first_not {ok : σ → ε → Prop} {s u : σ} {l : List (σ × ε)}
    (h : S.Trace s l u) (hs : S.Reach anyStep s) (hl : ¬ ∀ p ∈ l, ok p.1 p.2) :
    ∃ t e t', S.Reach anyStep t ∧ ¬ ok t e ∧ S.next t e = some t' ∧ S.Path anyStep t' u := by
  induction h with
  | nil => exact absurd (fun p hp => absurd hp (List.not_mem_nil)) hl
  | @snoc t u l e htr hn ih =>
    by_cases hlast : ok t e
    · have hl' : ¬ ∀ p ∈ l, ok p.1 p.2 := by
        intro hall
        apply hl
        intro p hp
        rcases List.mem_append.mp hp with hp | hp
        · exact hall p hp
        · rw [List.mem_singleton.mp hp]; exact hlast
      obtain ⟨a, f, a', hr, hno, hna, hp⟩ := ih hl'
      exact ⟨a, f, a', hr, hno, hna, hp.trans (.single e trivial hn)⟩
    · exact ⟨t, e, u, htr.reach hs fun _ _ => trivial, hlast, hn, .refl u⟩

/-! ### Faults -/

/-- The system in which, at any moment, a fault can change the state. -/
def withFaults {φ : Type*} (S : System σ ε) (fault : φ → σ → σ) : System σ (ε ⊕ φ) where
  init := S.init
  next s
    | .inl e => S.next s e
    | .inr f => some (fault f s)

variable {φ : Type*} {fault : φ → σ → σ}

theorem withFaults_step (fault : φ → σ → σ) {I : σ → Prop}
    (hs : ∀ s e s', I s → S.next s e = some s' → I s')
    (hf : ∀ s f, I s → I (fault f s)) {s s' : σ} {e : ε ⊕ φ} (hI : I s)
    (hn : (S.withFaults fault).next s e = some s') : I s' := by
  cases e with
  | inl e => exact hs s e s' hI hn
  | inr f =>
    cases hn
    exact hf s f hI

theorem Reach.withFaults {s : σ} (h : S.Reach anyStep s) :
    (S.withFaults fault).Reach anyStep s := by
  induction h with
  | start hi => exact .start hi
  | step e _ _ hn ih => exact .step (.inl e) ih trivial hn

end System

end Interleaving
