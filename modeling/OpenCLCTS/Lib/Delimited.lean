import Mathlib.Data.List.Basic

/-!
# Words between separators

A list is cut into words at a separator.  A search for a word finds the first place where it
occurs, which can be inside of another word; the word is one of the list if it occurs at
some place where a separator, or an end of the list, stands on both of its sides.

* `stands_iff_mem_splitOn`: the words are what stands somewhere.
* `foundWhole_iff_mem_words`: when a search for the first occurrence decides the words.
-/

namespace Delimited

variable {α : Type*} {w hay : List α} {k : ℕ} {sep : α}

/-! ### Places between separators -/

/-- A separator or an end of the list on both sides of the `n` elements from `k` on. -/
def Bounded (sep : α) (hay : List α) (k n : ℕ) : Prop :=
  (k = 0 ∨ hay[k - 1]? = some sep) ∧ (hay[k + n]? = none ∨ hay[k + n]? = some sep)

instance [DecidableEq α] (hay : List α) (k n : ℕ) : Decidable (Bounded sep hay k n) :=
  inferInstanceAs (Decidable (_ ∧ _))

/-- `w` occurs at `k` between separators. -/
def StandsAt (sep : α) (w hay : List α) (k : ℕ) : Prop :=
  w <+: hay.drop k ∧ k ≤ hay.length ∧ Bounded sep hay k w.length

theorem standsAt_zero_of_eq : StandsAt sep hay hay 0 := by
  refine ⟨List.prefix_rfl, Nat.zero_le _, .inl rfl, .inl ?_⟩
  rw [Nat.zero_add]
  exact List.getElem?_eq_none (Nat.le_refl _)

theorem standsAt_zero_append (rest : List α) : StandsAt sep w (w ++ sep :: rest) 0 := by
  refine ⟨List.prefix_append w _, Nat.zero_le _, .inl rfl, .inr ?_⟩
  rw [Nat.zero_add, List.getElem?_append_right (Nat.le_refl _), Nat.sub_self]
  rfl

theorem StandsAt.behind {rest : List α} (h : StandsAt sep w rest k) (first : List α) :
    StandsAt sep w (first ++ sep :: rest) (first.length + 1 + k) := by
  have hshift : ∀ i, (first ++ sep :: rest)[first.length + 1 + i]? = rest[i]? := by
    intro i
    rw [List.getElem?_append_right (by omega),
      show first.length + 1 + i - first.length = i + 1 by omega, List.getElem?_cons_succ]
  refine ⟨?_, ?_, .inr ?_, ?_⟩
  · rw [List.drop_append, List.drop_eq_nil_of_le (by omega), List.nil_append,
      show first.length + 1 + k - first.length = k + 1 by omega, List.drop_succ_cons]
    exact h.1
  · have hle := h.2.1
    simp only [List.length_append, List.length_cons]
    omega
  · cases k with
    | zero =>
      rw [show first.length + 1 + 0 - 1 = first.length by omega,
        List.getElem?_append_right (Nat.le_refl _), Nat.sub_self]
      rfl
    | succ k =>
      rw [show first.length + 1 + (k + 1) - 1 = first.length + 1 + k by omega, hshift]
      exact h.2.2.1.resolve_left (Nat.succ_ne_zero k)
  · rw [show first.length + 1 + k + w.length = first.length + 1 + (k + w.length) by omega, hshift]
    exact h.2.2.2

theorem StandsAt.eq_append (h : StandsAt sep w hay k) :
    ∃ before after, hay = before ++ w ++ after ∧
      (before = [] ∨ ∃ b, before = b ++ [sep]) ∧ (after = [] ∨ ∃ a, after = sep :: a) := by
  obtain ⟨⟨after, hafter⟩, hle, hleft, hright⟩ := h
  have hhay : hay = hay.take k ++ (w ++ after) := by rw [hafter, List.take_append_drop]
  have hlength : (hay.take k).length = k := List.length_take_of_le hle
  refine ⟨hay.take k, after, by rw [List.append_assoc]; exact hhay, ?_, ?_⟩
  · rcases hleft with rfl | hsep
    · exact .inl (List.take_zero)
    · cases k with
      | zero => exact .inl (List.take_zero)
      | succ k =>
        refine .inr ⟨hay.take k, ?_⟩
        rw [List.take_add_one, show hay[k]? = some sep from hsep]
        rfl
  · have hnext : hay[k + w.length]? = after[0]? := by
      rw [hhay, List.getElem?_append_right (by omega), hlength, Nat.add_sub_cancel_left,
        List.getElem?_append_right (Nat.le_refl _), Nat.sub_self]
    rw [hnext] at hright
    cases after with
    | nil => exact .inl rfl
    | cons a after =>
      rcases hright with hnone | hsep
      · exact absurd hnone (Option.some_ne_none a)
      · rw [List.getElem?_cons_zero, Option.some_inj] at hsep
        exact .inr ⟨after, by rw [hsep]⟩

/-! ### Cutting at the separators -/

variable [DecidableEq α]

theorem cut_induction {motive : List α → Prop} (sep : α) (word : ∀ hay, sep ∉ hay → motive hay)
    (cut : ∀ first rest, sep ∉ first → motive rest → motive (first ++ sep :: rest))
    (hay : List α) : motive hay := by
  by_cases h : sep ∈ hay
  · obtain ⟨first, rest, hhay, hfirst⟩ := List.eq_append_cons_of_mem h
    rw [hhay]
    exact cut first rest hfirst (cut_induction sep word cut rest)
  · exact word hay h
termination_by hay.length
decreasing_by
  rw [hhay, List.length_append, List.length_cons]
  omega

theorem exists_standsAt_of_mem_splitOn (hw : w ∈ hay.splitOn sep) : ∃ k, StandsAt sep w hay k := by
  induction hay using cut_induction sep with
  | word hay hword =>
    rw [List.splitOn_eq_singleton hword, List.mem_singleton] at hw
    subst hw
    exact ⟨0, standsAt_zero_of_eq⟩
  | cut first rest hfirst ih =>
    rw [List.splitOn_append_cons_self_of_not_mem hfirst, List.mem_cons] at hw
    rcases hw with rfl | hrest
    · exact ⟨0, standsAt_zero_append rest⟩
    · obtain ⟨k, hk⟩ := ih hrest
      exact ⟨_, hk.behind first⟩

theorem not_mem_of_mem_splitOn (hw : w ∈ hay.splitOn sep) : sep ∉ w := by
  induction hay using cut_induction sep with
  | word hay hword =>
    rw [List.splitOn_eq_singleton hword, List.mem_singleton] at hw
    rwa [hw]
  | cut first rest hfirst ih =>
    rw [List.splitOn_append_cons_self_of_not_mem hfirst, List.mem_cons] at hw
    rcases hw with rfl | hrest
    · exact hfirst
    · exact ih hrest

theorem StandsAt.mem_splitOn (h : StandsAt sep w hay k) (hw : sep ∉ w) : w ∈ hay.splitOn sep := by
  obtain ⟨before, after, rfl, hbefore, hafter⟩ := h.eq_append
  have hrest : w ∈ (w ++ after).splitOn sep := by
    rcases hafter with rfl | ⟨a, rfl⟩
    · rw [List.append_nil, List.splitOn_eq_singleton hw]
      exact List.mem_singleton_self w
    · rw [List.splitOn_append_cons_self_of_not_mem hw]
      exact List.mem_cons_self
  rw [List.append_assoc]
  rcases hbefore with rfl | ⟨b, rfl⟩
  · exact hrest
  · rw [List.append_assoc, List.singleton_append, List.splitOn_append_cons_self]
    exact List.mem_append_right _ hrest

/-- **The words of a list are what stands in it.** -/
theorem stands_iff_mem_splitOn (hw : sep ∉ w) :
    (∃ k, StandsAt sep w hay k) ↔ w ∈ hay.splitOn sep := by
  constructor
  · rintro ⟨k, hk⟩
    exact hk.mem_splitOn hw
  · exact exists_standsAt_of_mem_splitOn

/-! ### Words -/

/-- The words of a list: what is between two separators is a word if it is not empty. -/
def words (sep : α) (hay : List α) : List (List α) := (hay.splitOn sep).filter (· ≠ [])

theorem mem_words : w ∈ words sep hay ↔ w ∈ hay.splitOn sep ∧ w ≠ [] := by
  rw [words, List.mem_filter, decide_eq_true_eq]

/-! ### Searching -/

/-- The first place where `w` occurs in `hay`. -/
def firstOccurrence (w hay : List α) : Option ℕ :=
  (List.range (hay.length + 1)).find? fun k => w.isPrefixOf (hay.drop k)

theorem firstOccurrence_eq_some :
    firstOccurrence w hay = some k ↔
      w <+: hay.drop k ∧ k ≤ hay.length ∧ ∀ j < k, ¬ w <+: hay.drop j := by
  simp only [firstOccurrence, List.find?_range_eq_some, List.isPrefixOf_iff_prefix, List.mem_range,
    Nat.lt_succ_iff, Bool.not_eq_true', ← Bool.not_eq_true]

theorem firstOccurrence_ne_none (hk : w <+: hay.drop k) (hle : k ≤ hay.length) :
    firstOccurrence w hay ≠ none := by
  intro hnone
  rw [firstOccurrence, List.find?_range_eq_none] at hnone
  have hnot := hnone k (Nat.lt_succ_of_le hle)
  rw [List.isPrefixOf_iff_prefix.mpr hk] at hnot
  exact absurd hnot Bool.false_ne_true

/-- What a search decides: that `w` occurs, and stands where it occurs first. -/
def foundWhole (sep : α) (w hay : List α) : Bool :=
  match firstOccurrence w hay with
  | none => false
  | some k => decide (Bounded sep hay k w.length)

theorem foundWhole_iff :
    foundWhole sep w hay = true ↔
      ∃ k, firstOccurrence w hay = some k ∧ Bounded sep hay k w.length := by
  unfold foundWhole
  cases firstOccurrence w hay with
  | none => simp only [Bool.false_eq_true, reduceCtorEq, false_and, exists_false]
  | some k => simp only [decide_eq_true_eq, Option.some_inj, exists_eq_left']

theorem standsAt_of_foundWhole (h : foundWhole sep w hay = true) : ∃ k, StandsAt sep w hay k := by
  obtain ⟨k, hfirst, hbounded⟩ := foundWhole_iff.mp h
  obtain ⟨hoccurs, hle, -⟩ := firstOccurrence_eq_some.mp hfirst
  exact ⟨k, hoccurs, hle, hbounded⟩

/-- The first place where `w` occurs in the list, if it does, is one where it stands. -/
def FirstStands (sep : α) (w hay : List α) : Prop :=
  ∀ k ∈ firstOccurrence w hay, Bounded sep hay k w.length

instance : Decidable (FirstStands sep w hay) :=
  inferInstanceAs (Decidable (∀ k ∈ firstOccurrence w hay, Bounded sep hay k w.length))

theorem foundWhole_eq_false_iff :
    foundWhole sep w hay = false ↔
      ∀ k ∈ firstOccurrence w hay, ¬ Bounded sep hay k w.length := by
  rw [← Bool.not_eq_true, foundWhole_iff]
  push Not
  rfl

theorem mem_words_of_foundWhole (hw : w ≠ []) (hsep : sep ∉ w)
    (h : foundWhole sep w hay = true) : w ∈ words sep hay :=
  mem_words.mpr ⟨(stands_iff_mem_splitOn hsep).mp (standsAt_of_foundWhole h), hw⟩

theorem foundWhole_of_mem_words (hword : w ∈ words sep hay) (hfirst : FirstStands sep w hay) :
    foundWhole sep w hay = true := by
  have hsplit := (mem_words.mp hword).1
  -- a word occurs, so the search ends somewhere
  obtain ⟨j, hoccurs, hle, -⟩ := (stands_iff_mem_splitOn (not_mem_of_mem_splitOn hsplit)).mpr hsplit
  obtain ⟨k, hk⟩ := Option.ne_none_iff_exists'.mp (firstOccurrence_ne_none hoccurs hle)
  exact foundWhole_iff.mpr ⟨k, hk, hfirst k hk⟩

/-- **When a search decides the words**: the first occurrence of a word stands, and that of
what can be no word does not. -/
theorem foundWhole_iff_mem_words :
    (foundWhole sep w hay = true ↔ w ∈ words sep hay) ↔
      (w ∈ words sep hay → FirstStands sep w hay) ∧
        (w = [] ∨ sep ∈ w → ∀ k ∈ firstOccurrence w hay, ¬ Bounded sep hay k w.length) := by
  have hnot : w = [] ∨ sep ∈ w → w ∉ words sep hay := by
    rintro (hempty | hsep) hword
    · exact (mem_words.mp hword).2 hempty
    · exact not_mem_of_mem_splitOn (mem_words.mp hword).1 hsep
  constructor
  · intro h
    constructor
    · intro hword k hk
      obtain ⟨k', hk', hbounded⟩ := foundWhole_iff.mp (h.mpr hword)
      rw [hk, Option.some_inj] at hk'
      rwa [hk']
    · intro hodd
      rw [← foundWhole_eq_false_iff, ← Bool.not_eq_true, h]
      exact hnot hodd
  · rintro ⟨hfirst, hodd⟩
    constructor
    · intro hfound
      have hplain : ¬ (w = [] ∨ sep ∈ w) := by
        intro h
        rw [foundWhole_eq_false_iff.mpr (hodd h)] at hfound
        exact Bool.false_ne_true hfound
      rw [not_or] at hplain
      exact mem_words_of_foundWhole hplain.1 hplain.2 hfound
    · intro hword
      exact foundWhole_of_mem_words hword (hfirst hword)

end Delimited
