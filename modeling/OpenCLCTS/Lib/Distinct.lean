import Mathlib.Data.List.Nodup

/-!
# A loop that rejects repeated values

A checking loop goes through a list of values, keeps a record of those it has met,
and stops at the first value that is not admissible or that it has met before.
`Checks step Fresh` says that one round does so, where `Fresh s b` says that the
record `s` admits `b` and does not contain it.  `Checks.foldlM_isSome` is the
verdict of the whole loop.
-/

namespace Distinct

variable {σ β : Type*}

/-- One round admits exactly the fresh values, and a value it has admitted is
fresh no more. -/
structure Checks (step : σ → β → Option σ) (Fresh : σ → β → Prop) : Prop where
  accept : ∀ s b, Fresh s b → ∃ s', step s b = some s' ∧ ∀ w, Fresh s' w ↔ Fresh s w ∧ w ≠ b
  reject : ∀ s b, ¬ Fresh s b → step s b = none

/-- **The loop accepts the lists of distinct fresh values.** -/
theorem Checks.foldlM_isSome {step : σ → β → Option σ} {Fresh : σ → β → Prop}
    (h : Checks step Fresh) (l : List β) (s : σ) :
    (l.foldlM step s).isSome = true ↔ l.Nodup ∧ ∀ b ∈ l, Fresh s b := by
  induction l generalizing s with
  | nil => simp
  | cons b l ih =>
    rw [List.foldlM_cons, List.nodup_cons, List.forall_mem_cons]
    by_cases hb : Fresh s b
    · obtain ⟨s', hs', hfresh⟩ := h.accept s b hb
      rw [hs', Option.bind_eq_bind, Option.bind_some, ih]
      constructor
      · rintro ⟨hnodup, hall⟩
        refine ⟨⟨fun hmem => ((hfresh b).mp (hall b hmem)).2 rfl, hnodup⟩, hb, ?_⟩
        intro w hw
        exact ((hfresh w).mp (hall w hw)).1
      · rintro ⟨⟨hnot, hnodup⟩, _, hall⟩
        refine ⟨hnodup, fun w hw => (hfresh w).mpr ⟨hall w hw, ?_⟩⟩
        rintro rfl
        exact hnot hw
    · rw [h.reject s b hb]
      exact ⟨nofun, fun h => absurd h.2.1 hb⟩

end Distinct
