import Mathlib.Data.List.Basic
import Mathlib.Logic.Function.Basic
import Mathlib.Tactic.Common

/-!
# Linked lists in memory

`next` is the field of each node that points to the next one.  `Chain next p l` says that whoever
starts at the pointer `p` and follows the fields meets the nodes `l` and then the null pointer.
A write to a node that is not on the list does not change it, and a node that points to the head
of a list is the head of a longer one.  `walk` is a loop that follows the fields.
-/

namespace Chains

variable {ι σ : Type*} {next next' : ι → Option ι} {p : Option ι} {l l' : List ι} {i j : ι}

/-- The nodes from a pointer to the end of the list. -/
def Chain (next : ι → Option ι) : Option ι → List ι → Prop
  | p, [] => p = none
  | p, i :: l => p = some i ∧ Chain next (next i) l

@[simp] theorem chain_nil : Chain next p [] ↔ p = none := Iff.rfl

@[simp] theorem chain_cons : Chain next p (i :: l) ↔ p = some i ∧ Chain next (next i) l := Iff.rfl

theorem Chain.congr (h : Chain next p l) (heq : ∀ i ∈ l, next' i = next i) : Chain next' p l := by
  induction l generalizing p with
  | nil => exact h
  | cons i l ih =>
    rw [chain_cons] at h ⊢
    refine ⟨h.1, ?_⟩
    rw [heq i List.mem_cons_self]
    exact ih h.2 fun j hj => heq j (List.mem_cons_of_mem i hj)

/-- **A write to another node** does not change a list. -/
theorem Chain.update [DecidableEq ι] (h : Chain next p l) (hj : j ∉ l) (q : Option ι) :
    Chain (Function.update next j q) p l := by
  refine h.congr fun i hi => ?_
  have hne : i ≠ j := ne_of_mem_of_not_mem hi hj
  exact Function.update_of_ne hne q next

/-- `while (p) { if (stop) break; …; p = p->next; }`, if the end is reached in time. -/
def walk (next : ι → Option ι) (stop : ι → Bool) (body : σ → ι → σ) : ℕ → Option ι → σ → Option σ
  | _, none, s => some s
  | 0, some _, _ => none
  | fuel + 1, some i, s => if stop i then some s else walk next stop body fuel (next i) (body s i)

/-- **A walk over a list** that it does not leave early goes through its nodes and ends. -/
theorem Chain.walk_eq {stop : ι → Bool} {body : σ → ι → σ} (h : Chain next p l)
    (hstop : ∀ i ∈ l, stop i = false) {fuel : ℕ} (hfuel : l.length ≤ fuel) (s : σ) :
    walk next stop body fuel p s = some (l.foldl body s) := by
  induction l generalizing p s fuel with
  | nil =>
    rw [chain_nil] at h
    subst h
    cases fuel <;> rfl
  | cons i l ih =>
    rw [chain_cons] at h
    obtain ⟨rfl, h⟩ := h
    cases fuel with
    | zero => simp at hfuel
    | succ fuel =>
      simp only [walk, hstop i List.mem_cons_self, Bool.false_eq_true, if_false, List.foldl_cons]
      refine ih h (fun j hj => hstop j (List.mem_cons_of_mem i hj)) ?_ _
      simpa using hfuel

end Chains
