import Mathlib.Algebra.Order.Ring.Int
import Mathlib.Data.Multiset.ZeroCons
import Mathlib.Data.Multiset.UnionInter

/-!
# Handing out numbers by counting down

A shared counter starts at `limit` and is decremented by everyone who wants a
number: whoever reads a value between `0` and `cap` has taken that number, and
every other value says that nothing is left.  The counter may go below zero, may
be forced down to zero to end the work early, and may wrap around to a value
above `cap`.

`Dispensed` says that what has been taken are different numbers of the range,
`Covered` that the rest of the range is still on the counter.
-/

namespace Interleaving

variable {limit cap c c' x : ℤ} {taken taken' : Multiset ℤ}

/-- Nothing is left on the counter. -/
def Exhausted (cap c : ℤ) : Prop := c ≤ 0 ∨ cap ≤ c

instance : Decidable (Exhausted cap c) := inferInstanceAs (Decidable (_ ∨ _))

/-- No number has been taken twice, or from outside `1 .. limit`, or is still on
the counter. -/
structure Dispensed (limit cap c : ℤ) (taken : Multiset ℤ) : Prop where
  le : c ≤ limit ∨ cap ≤ c
  nodup : taken.Nodup
  range : ∀ x ∈ taken, 0 < x ∧ x ≤ limit
  above : ∀ x ∈ taken, c < x ∨ cap ≤ c

/-- Every number has been taken or is still on the counter. -/
def Covered (limit cap c : ℤ) (taken : Multiset ℤ) : Prop :=
  ∀ x, 0 < x → x ≤ limit → x ∈ taken ∨ x ≤ c ∧ c < cap

theorem Dispensed.empty (h : c ≤ limit ∨ cap ≤ c) : Dispensed limit cap c 0 :=
  ⟨h, Multiset.nodup_zero, fun _ hx => absurd hx (Multiset.notMem_zero _),
    fun _ hx => absurd hx (Multiset.notMem_zero _)⟩

theorem Dispensed.take (h : Dispensed limit cap c taken) (h0 : 0 < c) (h1 : c < cap) :
    Dispensed limit cap (c - 1) (c ::ₘ taken) := by
  have hc : c ≤ limit := h.le.resolve_right (not_le.mpr h1)
  refine ⟨.inl (by omega), ?_, fun x hx => ?_, fun x hx => ?_⟩
  · refine Multiset.nodup_cons.mpr ⟨fun hmem => ?_, h.nodup⟩
    rcases h.above c hmem with hlt | hge <;> omega
  · rcases Multiset.mem_cons.mp hx with rfl | hx
    · exact ⟨h0, hc⟩
    · exact h.range x hx
  · rcases Multiset.mem_cons.mp hx with rfl | hx
    · exact .inl (by omega)
    · exact (h.above x hx).imp (by omega) (by omega)

theorem Dispensed.exhaust (h : Dispensed limit cap c taken) (hl : 0 ≤ limit)
    (hc : Exhausted cap c') : Dispensed limit cap c' taken := by
  refine ⟨hc.imp_left fun h0 => h0.trans hl, h.nodup, h.range, ?_⟩
  intro x hx
  exact hc.imp_left fun h0 => lt_of_le_of_lt h0 (h.range x hx).1

theorem Dispensed.mono (h : Dispensed limit cap c taken) (hle : taken' ≤ taken) :
    Dispensed limit cap c taken' :=
  ⟨h.le, Multiset.nodup_of_le hle h.nodup, fun x hx => h.range x (Multiset.mem_of_le hle hx),
    fun x hx => h.above x (Multiset.mem_of_le hle hx)⟩

theorem Covered.start (h : limit < cap) : Covered limit cap limit taken :=
  fun _ _ hx => .inr ⟨hx, h⟩

theorem Covered.take (h : Covered limit cap c taken) : Covered limit cap (c - 1) (c ::ₘ taken) := by
  intro x h0 hx
  rcases h x h0 hx with hmem | ⟨hle, hlt⟩
  · exact .inl (Multiset.mem_cons_of_mem hmem)
  · by_cases hxc : x = c
    · exact .inl (hxc ▸ Multiset.mem_cons_self _ _)
    · exact .inr ⟨by omega, by omega⟩

theorem Covered.all (h : Covered limit cap c taken) (hc : Exhausted cap c) (h0 : 0 < x)
    (hx : x ≤ limit) : x ∈ taken := by
  rcases h x h0 hx with hmem | ⟨hle, hlt⟩
  · exact hmem
  · rcases hc with hc | hc <;> omega

theorem Covered.exhaust (h : Covered limit cap c taken) (hc : Exhausted cap c) :
    Covered limit cap c' taken :=
  fun _ h0 hx => .inl (h.all hc h0 hx)

end Interleaving
