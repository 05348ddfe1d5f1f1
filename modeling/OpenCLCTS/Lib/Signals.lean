import Mathlib.Algebra.BigOperators.Group.Finset.Piecewise
import Mathlib.Algebra.BigOperators.Group.List.Basic
import Mathlib.Data.List.Pairwise
import OpenCLCTS.Lib.Threads

/-!
# Signals between threads

A `Signal` is a location that one thread counts up to a value while another thread
waits for that value.  A list of signals with different locations gives every
thread a program: its part in each signal, in the order of the list.

* `conserved`: at every moment a location holds what has been counted on it, so
  that with what remains to be counted it comes to the total.
* `exists_next`: as long as some thread has not finished, some thread can move.  The
  order of the list is the reason: of the signals that are not over, the first one
  has nothing before it that its two threads could be waiting for.
* `mem_of_ended`: all complete runs end with the same values.
-/

namespace Interleaving

/-- What a thread does with a location. -/
inductive Inst (ι : Type*)
  | store (loc : ι) (val : ℕ)
  | wait (loc : ι) (val : ℕ)
  | count (loc : ι) (val : ℕ)
  deriving DecidableEq

/-- Where a thread stands: its program counter, and how often the current `count`
has counted. -/
structure Pos where
  pc : ℕ
  done : ℕ
  deriving DecidableEq

variable {τ ι : Type*} [DecidableEq τ]

/-- One thread counts, another waits. -/
structure Signal (τ ι : Type*) where
  counter : τ
  waiter : τ
  ne : counter ≠ waiter
  loc : ι
  val : ℕ

/-- The part of a thread in a signal. -/
def Signal.inst (s : Signal τ ι) (t : τ) : Option (Inst ι) :=
  if t = s.counter then some (.count s.loc s.val)
  else if t = s.waiter then some (.wait s.loc s.val) else none

/-- The parts of a thread in all signals. -/
def signalProgram (sigs : List (Signal τ ι)) (t : τ) : List (Inst ι) :=
  sigs.filterMap fun s => s.inst t

variable {sigs : List (Signal τ ι)}

theorem Signal.inst_counter (s : Signal τ ι) : s.inst s.counter = some (.count s.loc s.val) :=
  if_pos rfl

theorem Signal.inst_waiter (s : Signal τ ι) : s.inst s.waiter = some (.wait s.loc s.val) := by
  rw [Signal.inst, if_neg s.ne.symm, if_pos rfl]

theorem Signal.inst_of_ne {s : Signal τ ι} {t : τ} (hc : t ≠ s.counter) (hw : t ≠ s.waiter) :
    s.inst t = none := by
  rw [Signal.inst, if_neg hc, if_neg hw]

theorem signalProgram_cons (s : Signal τ ι) (sigs : List (Signal τ ι)) (t : τ) :
    signalProgram (s :: sigs) t = (s.inst t).toList ++ signalProgram sigs t := by
  rw [signalProgram, List.filterMap_cons]
  cases s.inst t <;> rfl

theorem signalProgram_concat (sigs : List (Signal τ ι)) (s : Signal τ ι) (t : τ) :
    signalProgram (sigs ++ [s]) t = signalProgram sigs t ++ (s.inst t).toList := by
  rw [signalProgram, List.filterMap_append, List.filterMap_cons]
  cases s.inst t <;> rfl

theorem signalProgram_length_le (sigs : List (Signal τ ι)) (t : τ) :
    (signalProgram sigs t).length ≤ sigs.length := List.length_filterMap_le ..

theorem mem_signalProgram {inst : Inst ι} {t : τ} (h : inst ∈ signalProgram sigs t) :
    ∃ s ∈ sigs, inst = .count s.loc s.val ∨ inst = .wait s.loc s.val := by
  obtain ⟨s, hs, hi⟩ := List.mem_filterMap.mp h
  refine ⟨s, hs, ?_⟩
  unfold Signal.inst at hi
  split at hi
  · exact .inl (Option.some.inj hi).symm
  · split at hi
    · exact .inr (Option.some.inj hi).symm
    · cases hi

/-! ### Running the programs -/

variable [DecidableEq ι]

/-- The step of a thread that is before an instruction. -/
def Inst.step (inst : Inst ι) (l : Pos) (m : ι → ℕ) : Option (Pos × (ι → ℕ)) :=
  match inst with
  | .store i v => some (⟨l.pc + 1, 0⟩, Function.update m i v)
  | .wait i v => if m i = v then some (⟨l.pc + 1, 0⟩, m) else none
  | .count i v =>
    if l.done < v then some (⟨l.pc, l.done + 1⟩, Function.update m i (m i + 1))
    else some (⟨l.pc + 1, 0⟩, m)

/-- Threads with programs.  A thread ends at the end of its program. -/
def exec (program : τ → List (Inst ι)) : Program τ (ι → ℕ) Pos := fun t l m =>
  (program t)[l.pc]?.bind fun inst => inst.step l m

/-- All interleavings, with all locations at 0. -/
abbrev execSystem (program : τ → List (Inst ι)) : System (Conf τ (ι → ℕ) Pos) τ :=
  threads (exec program) fun c => c = ⟨fun _ => 0, fun _ => ⟨0, 0⟩⟩

/-! ### What is counted -/

/-- How much an instruction counts on a location. -/
def Inst.counts (i : ι) : Inst ι → ℕ
  | .count j v => if j = i then v else 0
  | .store .. | .wait .. => 0

/-- How much a program counts on a location. -/
def counts (i : ι) (l : List (Inst ι)) : ℕ := (l.map (Inst.counts i)).sum

theorem counts_cons (i : ι) (inst : Inst ι) (l : List (Inst ι)) :
    counts i (inst :: l) = inst.counts i + counts i l := by
  rw [counts, List.map_cons, List.sum_cons, counts]

theorem counts_append (i : ι) (l k : List (Inst ι)) :
    counts i (l ++ k) = counts i l + counts i k := by
  rw [counts, List.map_append, List.sum_append, counts, counts]

theorem counts_suffix {i : ι} {l k : List (Inst ι)} (h : l <:+ k) : counts i l ≤ counts i k := by
  obtain ⟨pre, rfl⟩ := h
  rw [counts_append]
  exact Nat.le_add_left _ _

/-- What all signals count on a location. -/
def total (sigs : List (Signal τ ι)) (i : ι) : ℕ :=
  (sigs.map fun s => if s.loc = i then s.val else 0).sum

theorem counts_eq_zero {t : τ} {i : ι} (h : ∀ s ∈ sigs, s.loc = i → s.counter ≠ t) :
    counts i (signalProgram sigs t) = 0 := by
  apply List.sum_eq_zero
  intro v hv
  obtain ⟨inst, hinst, rfl⟩ := List.mem_map.mp hv
  obtain ⟨s, hs, hi⟩ := List.mem_filterMap.mp hinst
  unfold Signal.inst at hi
  split at hi
  · cases Option.some.inj hi
    exact if_neg fun he => h s hs he (Eq.symm ‹_›)
  · split at hi
    · cases Option.some.inj hi
      rfl
    · cases hi

/-- **The threads count what the signals say.** -/
theorem sum_counts [Fintype τ] (sigs : List (Signal τ ι)) (i : ι) :
    ∑ t, counts i (signalProgram sigs t) = total sigs i := by
  induction sigs with
  | nil => exact Finset.sum_const_zero
  | cons s sigs ih =>
    have hone : ∀ t, counts i (s.inst t).toList
        = if t = s.counter then (if s.loc = i then s.val else 0) else 0 := by
      intro t
      by_cases hc : t = s.counter
      · rw [if_pos hc, hc, s.inst_counter]
        exact Nat.add_zero _
      · rw [if_neg hc]
        by_cases hw : t = s.waiter
        · rw [hw, s.inst_waiter]
          rfl
        · rw [Signal.inst_of_ne hc hw]
          rfl
    simp only [signalProgram_cons, counts_append, hone, Finset.sum_add_distrib, ih, total,
      List.map_cons, List.sum_cons, Finset.sum_ite_eq', Finset.mem_univ, if_true]

omit [DecidableEq τ] in
theorem total_eq_zero {i : ι} (h : ∀ s ∈ sigs, s.loc ≠ i) : total sigs i = 0 := by
  apply List.sum_eq_zero
  intro v hv
  obtain ⟨s, hs, rfl⟩ := List.mem_map.mp hv
  exact if_neg (h s hs)

omit [DecidableEq τ] in
theorem total_of_split {pre post : List (Signal τ ι)} {s : Signal τ ι}
    (h : ∀ s' ∈ pre ++ post, s'.loc ≠ s.loc) : total (pre ++ s :: post) s.loc = s.val := by
  have hpre := total_eq_zero fun s' hs' => h s' (List.mem_append_left _ hs')
  have hpost := total_eq_zero fun s' hs' => h s' (List.mem_append_right _ hs')
  rw [total, List.map_append, List.sum_append, List.map_cons, List.sum_cons, if_pos rfl]
  rw [total] at hpre hpost
  omega

/-! ### What remains to be counted -/

/-- The rest of a thread's program. -/
def Pos.rest (l : Pos) (program : List (Inst ι)) : List (Inst ι) := program.drop l.pc

/-- How much of the current instruction is done. -/
def doneOn (i : ι) (done : ℕ) : List (Inst ι) → ℕ
  | .count j _ :: _ => if j = i then done else 0
  | _ => 0

/-- Not more is done than the instruction asks for. -/
def DoneOk (done : ℕ) : Option (Inst ι) → Prop
  | some (.count _ v) => done ≤ v
  | some (.store ..) | some (.wait ..) | none => done = 0

/-- The thread is inside its program, and has not counted too often. -/
def Pos.Ok (program : List (Inst ι)) (l : Pos) : Prop :=
  l.pc ≤ program.length ∧ DoneOk l.done program[l.pc]?

/-- What remains to be counted on a location. -/
def left (i : ι) (program : List (Inst ι)) (l : Pos) : ℕ :=
  counts i (l.rest program) - doneOn i l.done (l.rest program)

omit [DecidableEq ι] in
theorem doneOk_zero (inst : Option (Inst ι)) : DoneOk 0 inst := by
  rcases inst with _ | ⟨_, _⟩ | ⟨_, _⟩ | ⟨_, v⟩
  · rfl
  · rfl
  · rfl
  · exact Nat.zero_le v

theorem doneOn_zero (i : ι) (l : List (Inst ι)) : doneOn i 0 l = 0 := by
  unfold doneOn
  split
  · exact ite_self 0
  · rfl

omit [DecidableEq ι] in
theorem Pos.ok_next {program : List (Inst ι)} {pc : ℕ} {inst : Inst ι}
    (h : program[pc]? = some inst) : Pos.Ok program ⟨pc + 1, 0⟩ := by
  obtain ⟨hlt, _⟩ := List.getElem?_eq_some_iff.mp h
  exact ⟨hlt, doneOk_zero _⟩

omit [DecidableEq ι] in
theorem Pos.rest_eq_cons {program : List (Inst ι)} {l : Pos} {inst : Inst ι}
    (h : program[l.pc]? = some inst) : l.rest program = inst :: program.drop (l.pc + 1) := by
  obtain ⟨hlt, rfl⟩ := List.getElem?_eq_some_iff.mp h
  exact List.drop_eq_getElem_cons hlt

omit [DecidableEq ι] in
theorem Pos.getElem?_of_rest {program : List (Inst ι)} {l : Pos} {inst : Inst ι}
    {k : List (Inst ι)} (h : l.rest program = inst :: k) : program[l.pc]? = some inst := by
  rw [← List.head?_drop]
  exact congrArg List.head? h

theorem left_le {i : ι} {program : List (Inst ι)} {l : Pos} :
    left i program l ≤ counts i (l.rest program) := Nat.sub_le _ _

theorem left_next (i : ι) (program : List (Inst ι)) (pc : ℕ) :
    left i program ⟨pc + 1, 0⟩ = counts i (program.drop (pc + 1)) := by
  show counts i (program.drop (pc + 1)) - doneOn i 0 (program.drop (pc + 1)) = _
  rw [doneOn_zero, Nat.sub_zero]

/-- **A step moves** a count from the thread to the location, or nothing. -/
theorem step_left {program : List (Inst ι)} {l l' : Pos} {m m' : ι → ℕ} (h : l.Ok program)
    {inst : Inst ι} (hinst : program[l.pc]? = some inst) (hstore : ∀ i v, inst ≠ .store i v)
    (hs : inst.step l m = some (l', m')) :
    l'.Ok program ∧ ∀ i, m' i + left i program l' = m i + left i program l := by
  obtain ⟨pc, done⟩ := l
  have hrest := Pos.rest_eq_cons hinst
  cases inst with
  | store i v => exact absurd rfl (hstore i v)
  | wait j v =>
    rw [Inst.step] at hs
    split at hs
    · cases hs
      refine ⟨Pos.ok_next hinst, ?_⟩
      intro i
      rw [left_next, left, hrest, counts_cons]
      show _ = m i + (0 + _ - 0)
      rw [Nat.zero_add, Nat.sub_zero]
    · cases hs
  | count j v =>
    have hdone : done ≤ v := by
      have := h.2
      rw [hinst] at this
      exact this
    rw [Inst.step] at hs
    split at hs
    · rename_i hlt
      cases hs
      refine ⟨⟨h.1, ?_⟩, fun i => ?_⟩
      · show DoneOk (done + 1) program[pc]?
        rw [hinst]
        exact hlt
      · have hrest' : Pos.rest ⟨pc, done + 1⟩ program = .count j v :: program.drop (pc + 1) := hrest
        rw [left, left, hrest, hrest', counts_cons]
        show Function.update m j (m j + 1) i + ((if j = i then v else 0) + _
          - if j = i then done + 1 else 0) = m i + ((if j = i then v else 0) + _
          - if j = i then done else 0)
        by_cases hj : j = i
        · subst hj
          rw [Function.update_self, if_pos rfl, if_pos rfl, if_pos rfl]
          have hlt : done < v := hlt
          omega
        · rw [Function.update_of_ne (Ne.symm hj), if_neg hj, if_neg hj, if_neg hj]
    · rename_i hge
      cases hs
      refine ⟨Pos.ok_next hinst, ?_⟩
      intro i
      have hdone' : done = v := le_antisymm hdone (not_lt.mp hge)
      rw [left_next, left, hrest, counts_cons]
      show _ = m i + ((if j = i then v else 0) + _ - if j = i then done else 0)
      rw [hdone', Nat.add_sub_cancel_left]

section Run

variable [Fintype τ]

/-- The programs have no stores. -/
def StoreFree (program : τ → List (Inst ι)) : Prop :=
  ∀ t inst, inst ∈ program t → ∀ i v, inst ≠ .store i v

omit [DecidableEq ι] [Fintype τ] in
theorem signalProgram_storeFree (sigs : List (Signal τ ι)) :
    StoreFree (signalProgram sigs) := by
  intro t inst h i v
  obtain ⟨s, _, rfl | rfl⟩ := mem_signalProgram h
  · exact nofun
  · exact nofun

omit [DecidableEq τ] [Fintype τ] in
theorem exec_eq_some {program : τ → List (Inst ι)} {t : τ} {l l' : Pos} {m m' : ι → ℕ} :
    exec program t l m = some (l', m') ↔
      ∃ inst, (program t)[l.pc]? = some inst ∧ inst.step l m = some (l', m') :=
  Option.bind_eq_some_iff

variable {program : τ → List (Inst ι)} {ok : Conf τ (ι → ℕ) Pos → τ → Prop}

omit [Fintype τ] in
theorem pos_ok (hstore : StoreFree program) {c : Conf τ (ι → ℕ) Pos}
    (h : (execSystem program).Reach ok c) (t : τ) : (c.loc t).Ok (program t) := by
  refine (threads_invariant (G := fun _ => True) (A := fun t l _ => l.Ok (program t)) ?_ ?_ ?_ h).2 t
  · rintro c rfl
    exact ⟨trivial, fun t => ⟨Nat.zero_le _, doneOk_zero _⟩⟩
  · intro t l m l' m' _ hok hP
    obtain ⟨inst, hinst, hs⟩ := exec_eq_some.mp hP
    exact ⟨trivial, (step_left hok hinst (hstore t inst (List.mem_of_getElem? hinst)) hs).1⟩
  · exact fun _ _ _ _ _ _ _ _ _ _ _ h => h

/-- **A location holds what has been counted on it.** -/
theorem conserved (hstore : StoreFree program) {c : Conf τ (ι → ℕ) Pos}
    (h : (execSystem program).Reach ok c) (i : ι) :
    c.mem i + ∑ t, left i (program t) (c.loc t) = ∑ t, counts i (program t) := by
  have hcons := threads_conserved (fun m => m i) (fun t l _ => left i (program t) l)
    (fun _ _ => 0) (J := fun c => ∀ t, (c.loc t).Ok (program t)) (fun c hc => pos_ok hstore hc)
    (a := ∑ t, counts i (program t)) ?_ ?_ (fun _ _ _ _ _ _ _ _ => rfl) h
  · rwa [Finset.sum_const_zero, Nat.add_zero] at hcons
  · rintro c rfl
    rw [Finset.sum_const_zero, Nat.add_zero, Nat.zero_add]
    refine Finset.sum_congr rfl ?_
    intro t _
    show counts i (program t) - doneOn i 0 (program t) = _
    rw [doneOn_zero, Nat.sub_zero]
  · intro c t l' m' hok hP
    obtain ⟨inst, hinst, hs⟩ := exec_eq_some.mp hP
    exact (step_left (hok t) hinst (hstore t inst (List.mem_of_getElem? hinst)) hs).2 i

/-- A thread has reached the end of its program. -/
def Pos.Ended (program : List (Inst ι)) (l : Pos) : Prop := program[l.pc]? = none

omit [DecidableEq ι] in
theorem Pos.rest_of_ended {program : List (Inst ι)} {l : Pos} (h : l.Ended program) :
    l.rest program = [] := List.drop_eq_nil_of_le (List.getElem?_eq_none_iff.mp h)

/-- **All complete runs end with the same values.** -/
theorem mem_of_ended (hstore : StoreFree program) {c : Conf τ (ι → ℕ) Pos}
    (h : (execSystem program).Reach ok c) (hend : ∀ t, (c.loc t).Ended (program t)) (i : ι) :
    c.mem i = ∑ t, counts i (program t) := by
  have hzero : ∑ t, left i (program t) (c.loc t) = 0 := by
    refine Finset.sum_eq_zero fun t _ => Nat.le_zero.mp (left_le.trans ?_)
    rw [Pos.rest_of_ended (hend t)]
    exact le_rfl
  have hcons := conserved hstore h i
  rwa [hzero, Nat.add_zero] at hcons

/-! ### No deadlock -/

/-- The locations of the signals are different ones. -/
def Apart (sigs : List (Signal τ ι)) : Prop := (sigs.map Signal.loc).Nodup

omit [DecidableEq τ] [DecidableEq ι] [Fintype τ] in
theorem Apart.loc_ne {pre post : List (Signal τ ι)} {s : Signal τ ι}
    (h : Apart (pre ++ s :: post)) : ∀ s' ∈ pre ++ post, s'.loc ≠ s.loc := by
  intro s' hs' he
  rw [Apart, List.map_append, List.map_cons] at h
  refine (List.nodup_middle.mp h).notMem ?_
  rw [← List.map_append, ← he]
  exact List.mem_map_of_mem hs'

omit [DecidableEq ι] [Fintype τ] in
/-- Of the signals that are not over, the first one: its counter is at its part, or its
waiter is at its part and the counter is past it. -/
theorem exists_front (sigs : List (Signal τ ι)) (rest : τ → List (Inst ι))
    (h : ∀ t, rest t <:+ signalProgram sigs t) (hne : ∃ t, rest t ≠ []) :
    ∃ pre s post, sigs = pre ++ s :: post ∧
      (rest s.counter = .count s.loc s.val :: signalProgram post s.counter ∨
        rest s.waiter = .wait s.loc s.val :: signalProgram post s.waiter ∧
          rest s.counter <:+ signalProgram post s.counter) := by
  induction sigs with
  | nil =>
    obtain ⟨t, ht⟩ := hne
    exact absurd (List.suffix_nil.mp (h t)) ht
  | cons s sigs ih =>
    have hcounter := h s.counter
    have hwaiter := h s.waiter
    rw [signalProgram_cons, s.inst_counter] at hcounter
    rw [signalProgram_cons, s.inst_waiter] at hwaiter
    rcases List.suffix_cons_iff.mp hcounter with hc | hc
    · exact ⟨[], s, sigs, rfl, .inl hc⟩
    · rcases List.suffix_cons_iff.mp hwaiter with hw | hw
      · exact ⟨[], s, sigs, rfl, .inr ⟨hw, hc⟩⟩
      · -- this signal is over
        obtain ⟨pre, s', post, rfl, hfront⟩ := ih fun t => by
          by_cases htc : t = s.counter
          · exact htc ▸ hc
          · by_cases htw : t = s.waiter
            · exact htw ▸ hw
            · have ht := h t
              rwa [signalProgram_cons, Signal.inst_of_ne htc htw] at ht
        exact ⟨s :: pre, s', post, rfl, hfront⟩

/-- **No deadlock**: as long as a thread has not ended, some thread can move. -/
theorem exists_next (hapart : Apart sigs) {c : Conf τ (ι → ℕ) Pos}
    (h : (execSystem (signalProgram sigs)).Reach ok c)
    (hne : ∃ t, ¬ (c.loc t).Ended (signalProgram sigs t)) :
    ∃ t c', (execSystem (signalProgram sigs)).next c t = some c' := by
  obtain ⟨t, ht⟩ := hne
  obtain ⟨pre, s, post, rfl, hfront⟩ := exists_front sigs
    (fun t => (c.loc t).rest (signalProgram sigs t)) (fun t => List.drop_suffix _ _)
    ⟨t, fun hnil => ht (List.getElem?_eq_none_iff.mpr (List.drop_eq_nil_iff.mp hnil))⟩
  rcases hfront with hcount | ⟨hwait, hpast⟩
  · -- counting is always possible
    have hinst := Pos.getElem?_of_rest hcount
    refine ⟨s.counter, ?_⟩
    by_cases hlt : (c.loc s.counter).done < s.val
    · exact ⟨_, threads_next.mpr ⟨_, _, exec_eq_some.mpr ⟨_, hinst, if_pos hlt⟩, rfl⟩⟩
    · exact ⟨_, threads_next.mpr ⟨_, _, exec_eq_some.mpr ⟨_, hinst, if_neg hlt⟩, rfl⟩⟩
  · -- nothing remains to be counted on the location
    have hother := hapart.loc_ne
    have hleft : ∑ t, left s.loc (signalProgram (pre ++ s :: post) t) (c.loc t) = 0 := by
      refine Finset.sum_eq_zero fun t _ => Nat.le_zero.mp (left_le.trans ?_)
      by_cases htc : t = s.counter
      · refine htc ▸ (counts_suffix hpast).trans_eq (counts_eq_zero fun s' hs' he => ?_)
        exact absurd he (hother s' (List.mem_append_right _ hs'))
      · refine (counts_suffix (List.drop_suffix _ _)).trans_eq
          (counts_eq_zero fun s' hs' he hct => ?_)
        rcases List.mem_append.mp hs' with hs' | hs'
        · exact absurd he (hother s' (List.mem_append_left _ hs'))
        · rcases List.mem_cons.mp hs' with rfl | hs'
          · exact htc hct.symm
          · exact absurd he (hother s' (List.mem_append_right _ hs'))
    have hmem := conserved (signalProgram_storeFree _) h s.loc
    rw [hleft, sum_counts, total_of_split hother, Nat.add_zero] at hmem
    exact ⟨s.waiter, _, threads_next.mpr ⟨_, _, exec_eq_some.mpr
      ⟨_, Pos.getElem?_of_rest hwait, if_pos hmem⟩, rfl⟩⟩

end Run

end Interleaving
