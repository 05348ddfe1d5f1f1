import Mathlib.Algebra.BigOperators.Group.Finset.Basic
import Mathlib.Data.Multiset.Count
import Mathlib.Algebra.Order.BigOperators.Group.Finset
import Mathlib.Algebra.Order.Group.Nat
import Mathlib.Data.Fintype.Basic

/-!
# Things with one place each

Things of some kind are in a common place or in the hands of parties.  If all of them together are
free of repetitions, then what one party has is neither in the common place nor in the hands of
another one.
-/

namespace Places

variable {α τ : Type*} [Fintype τ] {shared : Multiset α} {own : τ → Multiset α} {t u : τ} {x y : α}

theorem count_shared_add_le [DecidableEq α] (h : (shared + ∑ t, own t).Nodup) (t : τ) (x : α) :
    shared.count x + (own t).count x ≤ 1 := by
  have hle := Multiset.nodup_iff_count_le_one.mp h x
  rw [Multiset.count_add, Multiset.count_sum'] at hle
  have hsingle := Finset.single_le_sum (f := fun t => (own t).count x)
    (fun _ _ => Nat.zero_le _) (Finset.mem_univ t)
  omega

theorem count_own_add_le [DecidableEq α] (h : (shared + ∑ t, own t).Nodup) (htu : t ≠ u) (x : α) :
    (own t).count x + (own u).count x ≤ 1 := by
  classical
  have hle := Multiset.nodup_iff_count_le_one.mp h x
  rw [Multiset.count_add, Multiset.count_sum'] at hle
  have hpair := Finset.sum_le_sum_of_subset (f := fun t => (own t).count x)
    (Finset.subset_univ {t, u})
  rw [Finset.sum_pair htu] at hpair
  omega

/-- **What a party has is not in the common place.** -/
theorem notMem_shared (h : (shared + ∑ t, own t).Nodup) (hx : x ∈ own t) : x ∉ shared := by
  classical
  intro hshared
  have hle := count_shared_add_le h t x
  have h1 := Multiset.one_le_count_iff_mem.mpr hx
  have h2 := Multiset.one_le_count_iff_mem.mpr hshared
  omega

/-- **What two parties have are different things.** -/
theorem ne_of_mem (h : (shared + ∑ t, own t).Nodup) (htu : t ≠ u) (hx : x ∈ own t)
    (hy : y ∈ own u) : x ≠ y := by
  classical
  rintro rfl
  have hle := count_own_add_le h htu x
  have h1 := Multiset.one_le_count_iff_mem.mpr hx
  have h2 := Multiset.one_le_count_iff_mem.mpr hy
  omega

end Places
