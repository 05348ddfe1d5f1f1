import Mathlib.Algebra.Order.BigOperators.Group.Finset
import OpenCLCTS.Subgroups.IFP.Run

/-!
# Independent forward progress

The runs of the kernel on a generated table do not deadlock and all end with the same
values, and `run_insts` ends with them as well (`forwardProgress`).

A pass of `run_insts` over the sub-groups either moves one of them or leaves the state
as it is (`PassRun`).  In the second case no sub-group can move, so that all of them
have ended, and this is when `run_insts` stops.
-/

namespace OpenCLCTS.Subgroups.IFP

open Interleaving Loops

variable {n : ℕ} {sigs : List (Signal (Fin n) ℕ)} {x : ℕ → BitVec 32}

/-! ### A pass over the sub-groups -/

/-- Sub-group `t` has ended in a state of `run_insts`. -/
def Run.EndedAt (sigs : List (Signal (Fin n) ℕ)) (s : Run) (t : Fin n) : Prop :=
  Pos.Ended (signalProgram sigs t) ⟨s.p t, 0⟩

/-- No instruction pointer has left its program. -/
def Run.Inside (sigs : List (Signal (Fin n) ℕ)) (s : Run) : Prop :=
  ∀ t : Fin n, s.p t ≤ (signalProgram sigs t).length

/-- What a pass has done before it comes to sub-group `i`. -/
structure PassRun (sigs : List (Signal (Fin n) ℕ)) (i : ℕ) (s s' : Run) : Prop where
  path : (execSystem (signalProgram sigs)).Path System.anyStep (s.conf n) (s'.conf n)
  inside : s'.Inside sigs
  le : ∀ t : Fin n, s.p t ≤ s'.p t
  nend_le : s'.nend ≤ i
  nend : s'.nend = i ↔ ∀ t : Fin n, (t : ℕ) < i → s'.EndedAt sigs t
  stays : (∀ t : Fin n, s'.p t = s.p t) → s'.loc = s.loc ∧
    ∀ t : Fin n, (t : ℕ) < i → exec (signalProgram sigs) t ⟨s.p t, 0⟩ s.loc = none

theorem Run.Inside.passRun {s : Run} (h : s.Inside sigs) :
    PassRun sigs 0 s { s with nend := 0 } where
  path := .refl _
  inside := h
  le _ := le_rfl
  nend_le := le_rfl
  nend := iff_of_true rfl fun _ ht => absurd ht (Nat.not_lt_zero _)
  stays _ := ⟨rfl, fun _ ht => absurd ht (Nat.not_lt_zero _)⟩

theorem PassRun.step {t : Fin n} {s s' s'' : Run} (h : PassRun sigs t s s')
    (hg : GroupRun sigs t s' s'') : PassRun sigs (t + 1) s s'' := by
  have hother : ∀ u : Fin n, u ≠ t → s''.p u = s'.p u :=
    fun u hu => hg.others u fun he => hu (Fin.ext he)
  have hle : ∀ u : Fin n, s'.p u ≤ s''.p u := fun u => by
    by_cases hu : u = t
    · exact hu ▸ hg.le
    · exact (hother u hu).ge
  have hended : ∀ u : Fin n, u ≠ t → (s''.EndedAt sigs u ↔ s'.EndedAt sigs u) := fun u hu => by
    rw [Run.EndedAt, Run.EndedAt, hother u hu]
  have hbefore : ∀ u : Fin n, (u : ℕ) < t → u ≠ t := fun u hu he => hu.ne (congrArg Fin.val he)
  refine ⟨h.path.trans hg.path, fun u => ?_, fun u => (h.le u).trans (hle u), ?_, ?_, fun hs => ?_⟩
  · by_cases hu : u = t
    · exact hu ▸ hg.p_le
    · exact (hother u hu).trans_le (h.inside u)
  · have := h.nend_le
    rcases hg.nend with ⟨he, _⟩ | ⟨he, _⟩ <;> omega
  · have hnend := h.nend_le
    rcases hg.nend with ⟨he, hnot⟩ | ⟨he, hend⟩
    · exact iff_of_false (by omega) fun hall => hnot (hall t (Nat.lt_succ_self _))
    · rw [he, Nat.succ_inj, h.nend]
      constructor
      · intro hall u hu
        by_cases hut : u = t
        · exact hut ▸ hend
        · have hne : (u : ℕ) ≠ t := fun hv => hut (Fin.ext hv)
          exact (hended u hut).mpr (hall u (by omega))
      · exact fun hall u hu => (hended u (hbefore u hu)).mp (hall u (by omega))
  · -- nothing has moved, before or now
    have hs' : ∀ u : Fin n, s'.p u = s.p u :=
      fun u => le_antisymm ((hle u).trans_eq (hs u)) (h.le u)
    obtain ⟨hloc', hnone⟩ := h.stays hs'
    obtain ⟨hloc, hnow⟩ := hg.stays ((hs t).trans (hs' t).symm)
    refine ⟨hloc.trans hloc', ?_⟩
    intro u hu
    by_cases hut : u = t
    · rw [hut, ← hs' t, ← hloc']
      exact hnow
    · have hne : (u : ℕ) ≠ t := fun hv => hut (Fin.ext hv)
      exact hnone u (by omega)

theorem runPass_spec (hT : IsTable sigs x) {fuel : ℕ} (hfuel : numLoc < fuel) {s : Run}
    (hp : s.Inside sigs) : ∃ s', runPass x n fuel s = some s' ∧ PassRun sigs n s s' := by
  have hloop := foldlM_total (f := fun s i => runGroup x i fuel s) (I := fun i => PassRun sigs i s)
    (a := 0) (n := n) ?_ hp.passRun
  · rwa [Nat.zero_add] at hloop
  · intro i s' _ hi hs'
    rw [Nat.zero_add] at hi
    have hlen : (signalProgram sigs ⟨i, hi⟩).length ≤ numLoc :=
      hT.length ▸ signalProgram_length_le sigs _
    obtain ⟨s'', hrun, hg⟩ := runGroup_spec hT ⟨i, hi⟩ fuel (hs'.inside ⟨i, hi⟩)
      (by omega)
    exact ⟨s'', hrun, hs'.step hg⟩

/-! ### All passes -/

/-- How much of the programs is left. -/
def Run.ahead (sigs : List (Signal (Fin n) ℕ)) (s : Run) : ℕ :=
  ∑ t : Fin n, ((signalProgram sigs t).length - s.p t)

/-- **A pass makes progress**, or all sub-groups have ended before it. -/
theorem PassRun.ahead_lt (hapart : Apart sigs) {s s' : Run} (h : PassRun sigs n s s')
    (hr : (execSystem (signalProgram sigs)).Reach System.anyStep (s.conf n))
    (hne : s'.nend ≠ n) : s'.ahead sigs < s.ahead sigs := by
  have hnot : ¬ ∀ t : Fin n, s'.p t = s.p t := by
    intro hs
    obtain ⟨hloc, hnone⟩ := h.stays hs
    refine hne (h.nend.mpr fun t _ => ?_)
    rw [Run.EndedAt, hs t]
    by_contra hend
    obtain ⟨u, c', hn⟩ := exists_next hapart hr ⟨t, hend⟩
    obtain ⟨l, m, hP, _⟩ := threads_next.mp hn
    have hblocked : exec (signalProgram sigs) u ⟨s.p u, 0⟩ s.loc = none := hnone u u.isLt
    rw [show (s.conf n).loc u = ⟨s.p u, 0⟩ from rfl, show (s.conf n).mem = s.loc from rfl,
      hblocked] at hP
    cases hP
  obtain ⟨t, ht⟩ := not_forall.mp hnot
  refine Finset.sum_lt_sum (fun u _ => Nat.sub_le_sub_left (h.le u) _) ⟨t, Finset.mem_univ t, ?_⟩
  have hle := h.le t
  have hin := h.inside t
  omega

theorem runPasses_spec (hT : IsTable sigs x) {fuel : ℕ} (hfuel : numLoc < fuel) (passes : ℕ)
    {s : Run} (hp : s.Inside sigs)
    (hr : (execSystem (signalProgram sigs)).Reach System.anyStep (s.conf n))
    (hpasses : s.ahead sigs < passes) :
    ∃ s', runPasses x n fuel passes s = some s' ∧
      (execSystem (signalProgram sigs)).Reach System.anyStep (s'.conf n) ∧
      ∀ t, s'.EndedAt sigs t := by
  induction passes generalizing s with
  | zero => exact absurd hpasses (Nat.not_lt_zero _)
  | succ passes ih =>
    obtain ⟨s₁, hrun, hpass⟩ := runPass_spec hT hfuel hp
    have hr₁ := hpass.path.reach hr
    rw [runPasses, hrun, Option.bind_some]
    by_cases hlt : s₁.nend < n
    · have hahead := hpass.ahead_lt hT.apart hr hlt.ne
      rw [if_pos hlt]
      exact ih hpass.inside hr₁ (by omega)
    · have heq : s₁.nend = n := le_antisymm hpass.nend_le (not_lt.mp hlt)
      rw [if_neg hlt]
      exact ⟨s₁, rfl, hr₁, fun t => hpass.nend.mp heq t t.isLt⟩

/-! ### The test -/

/-- What a table has to be for the test to mean something. -/
structure ForwardProgress (n : ℕ) (x : ℕ → BitVec 32) : Prop where
  /-- As long as a sub-group is not at its end, some sub-group can take a step. -/
  no_deadlock : ∀ c, (kernel n x).Reach System.anyStep c →
    (∃ t : Fin n, ¬ AtEnd x t (c.loc t)) → ∃ t c', (kernel n x).next c t = some c'
  /-- All complete runs end with the values that `run_insts` returns. -/
  same_end : ∃ final, (∀ c, (kernel n x).Reach System.anyStep c →
    (∀ t : Fin n, AtEnd x t (c.loc t)) → c.mem = final) ∧
      ∃ rounds, ∀ fuel, rounds ≤ fuel → runInsts x n fuel = some final

theorem IsTable.progress (hT : IsTable sigs x) : ForwardProgress n x where
  no_deadlock c hc := by
    rintro ⟨t, ht⟩
    have hr := exec_of_kernel hT hc
    rw [atEnd_iff hT (pc_le hr t)] at ht
    obtain ⟨u, c', hn⟩ := exists_next hT.apart hr ⟨t, ht⟩
    exact ⟨u, c', (kernel_next_eq hT (pc_le hr) u).trans hn⟩
  same_end := by
    have hfinal : ∀ c, (execSystem (signalProgram sigs)).Reach System.anyStep c →
        (∀ t, (c.loc t).Ended (signalProgram sigs t)) → c.mem = total sigs := by
      intro c hc hend
      funext i
      rw [mem_of_ended (signalProgram_storeFree sigs) hc hend, sum_counts]
    refine ⟨total sigs, fun c hc hend => ?_, (Run.mk (fun _ => 0) (fun _ => 0) 0).ahead sigs
      + numLoc + 1, fun fuel hfuel => ?_⟩
    · have hr := exec_of_kernel hT hc
      exact hfinal c hr fun t => (atEnd_iff hT (pc_le hr t)).mp (hend t)
    · obtain ⟨s, hrun, hr, hend⟩ := runPasses_spec hT (show numLoc < fuel by omega) fuel
        (s := ⟨fun _ => 0, fun _ => 0, 0⟩) (fun _ => Nat.zero_le _) (.start rfl)
        (by omega)
      rw [runInsts, hrun]
      exact congrArg some (hfinal _ hr hend)

/-- **The generated programs make progress independently.**  The kernel does not deadlock
on what `gen_insts` writes, all its runs end with the same values, and they are the values
of `run_insts`. -/
theorem forwardProgress (hn : 2 ≤ n) {draws : Draws} {g : Gen}
    (h : genInsts n x draws = some g) : InRows n g ∧ ForwardProgress n g.x := by
  obtain ⟨hrows, sigs, hT⟩ := generated hn h
  exact ⟨hrows, hT.progress⟩

/-- Two sub-groups, of which the first one counts every location to 100. -/
theorem forwardProgress_two : ∃ draws g, genInsts 2 (fun _ => 0) draws = some g ∧
    InRows 2 g ∧ ForwardProgress 2 g.x := by
  let draws := List.replicate 48 0 ++ (List.replicate 49 [0, 1, 100]).flatten
  have hsome : (genInsts 2 (fun _ => 0) draws).isSome = true := by decide +kernel
  obtain ⟨g, hg⟩ := Option.isSome_iff_exists.mp hsome
  exact ⟨draws, g, hg, forwardProgress le_rfl hg⟩

end OpenCLCTS.Subgroups.IFP
