import Mathlib.Data.List.FinRange
import OpenCLCTS.Lib.Threads

/-!
# One thread after the other

A sequential program that does what the threads do, one after the other, is one of their
interleavings.  `Alone` are the runs in which only one thread moves.  `path_sequential`: if every
thread, when it runs alone, does to the memory what one turn of a loop does to the variables of the
loop, then the system can do what the loop does.
-/

namespace Interleaving

variable {τ M L σ : Type*} {P : Program τ M L} {init : Conf τ M L → Prop} {t : τ}

/-- A run of thread `t` in which no other thread moves. -/
inductive Alone (P : Program τ M L) (t : τ) : L → M → L → M → Prop
  | refl (l : L) (m : M) : Alone P t l m l m
  | head {l l' l'' : L} {m m' m'' : M} : P t l m = some (l', m') → Alone P t l' m' l'' m'' →
      Alone P t l m l'' m''

theorem Alone.trans {l l' l'' : L} {m m' m'' : M} (h : Alone P t l m l' m')
    (h' : Alone P t l' m' l'' m'') : Alone P t l m l'' m'' := by
  induction h with
  | refl => exact h'
  | head hP _ ih => exact .head hP (ih h')

variable [DecidableEq τ]

/-- **A run of one thread is a run.** -/
theorem Alone.path {l l' : L} {m m' : M} (h : Alone P t l m l' m') (loc : τ → L) (hl : loc t = l) :
    (threads P init).Path System.anyStep ⟨m, loc⟩ ⟨m', Function.update loc t l'⟩ := by
  induction h generalizing loc with
  | refl l m =>
    rw [← hl, Function.update_eq_self]
    exact .refl _
  | @head l l₁ l₂ m m₁ m₂ hP _ ih =>
    have hnext : (threads P init).next ⟨m, loc⟩ t = some ⟨m₁, Function.update loc t l₁⟩ :=
      threads_next.mpr ⟨l₁, m₁, by simpa [hl] using hP, rfl⟩
    have hrest := ih (Function.update loc t l₁) (Function.update_self ..)
    rw [Function.update_idem] at hrest
    exact .head t trivial hnext hrest

/-- **A loop over the threads** is one of their interleavings. -/
theorem path_sequential {start done : τ → L → Prop} {rel : σ → M → Prop} {turn : σ → τ → σ}
    (hturn : ∀ t s c, (threads P init).Reach System.anyStep c → rel s c.mem → start t (c.loc t) →
      ∃ l m, Alone P t (c.loc t) c.mem l m ∧ done t l ∧ rel (turn s t) m)
    (order : List τ) (hnodup : order.Nodup) {s : σ} {c : Conf τ M L}
    (hc : (threads P init).Reach System.anyStep c) (hrel : rel s c.mem)
    (hstart : ∀ t ∈ order, start t (c.loc t)) :
    ∃ c', (threads P init).Path System.anyStep c c' ∧ rel (order.foldl turn s) c'.mem ∧
      (∀ t ∈ order, done t (c'.loc t)) ∧ ∀ t ∉ order, c'.loc t = c.loc t := by
  induction order generalizing s c with
  | nil => exact ⟨c, .refl c, hrel, by simp, fun _ _ => rfl⟩
  | cons t order ih =>
    rw [List.nodup_cons] at hnodup
    obtain ⟨l, m, halone, hdone, hrel'⟩ := hturn t s c hc hrel (hstart t List.mem_cons_self)
    have hpath : (threads P init).Path System.anyStep _ _ := halone.path c.loc rfl
    have hne : ∀ u ∈ order, u ≠ t := fun u hu => ne_of_mem_of_not_mem hu hnodup.1
    have hstart' : ∀ u ∈ order, start u (Function.update c.loc t l u) := by
      intro u hu
      rw [Function.update_of_ne (hne u hu)]
      exact hstart u (List.mem_cons_of_mem t hu)
    obtain ⟨c', hpath', hrel'', hall, hrest⟩ := ih hnodup.2 (hpath.reach hc) hrel' hstart'
    refine ⟨c', hpath.trans hpath', hrel'', fun u hu => ?_, fun u hu => ?_⟩
    · rcases List.mem_cons.mp hu with rfl | hu
      · rw [hrest u hnodup.1]
        simpa using hdone
      · exact hall u hu
    · rw [List.mem_cons, not_or] at hu
      rw [hrest u hu.2]
      exact Function.update_of_ne hu.1 l c.loc

end Interleaving
