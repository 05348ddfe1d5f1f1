import OpenCLCTS.Subgroups.IFP.Generate

/-!
# Running the generated instructions

On a generated table the kernel does what `exec` does with the programs of the signals
(`ifpSource_eq`), and `run_insts` is one of its interleavings, in which a count is done
at once (`runGroup_spec`).  A pass over the sub-groups in which none of them moves would
be a deadlock, so that each pass makes progress and the passes end.
-/

namespace OpenCLCTS.Subgroups.IFP

open Interleaving Loops

variable {n : ℕ} {sigs : List (Signal (Fin n) ℕ)} {x : ℕ → BitVec 32}

/-! ### The kernel on a generated table -/

theorem IsTable.inst_cases (hT : IsTable sigs x) {t : Fin n} {a : ℕ} {i : Inst ℕ}
    (h : (signalProgram sigs t)[a]? = some i) :
    ∃ loc val, loc < 2 ^ 7 ∧ val < 2 ^ 19 ∧ (i = .count loc val ∨ i = .wait loc val) := by
  obtain ⟨s, hs, hi⟩ := mem_signalProgram (List.mem_of_getElem? h)
  obtain ⟨hloc, hval⟩ := hT.fits s hs
  simp only [numLoc, maxVal] at hloc hval
  exact ⟨s.loc, s.val, by omega, by omega, hi⟩

theorem decode_count {loc val : ℕ} (hloc : loc < 2 ^ 7) (hval : val < 2 ^ 19) :
    iop (encode (.count loc val)) = instCount ∧ iloc (encode (.count loc val)) = loc ∧
      ival (encode (.count loc val)) = val :=
  decode_inst (show 3 < 2 ^ 4 by omega) hloc hval

theorem decode_wait {loc val : ℕ} (hloc : loc < 2 ^ 7) (hval : val < 2 ^ 19) :
    iop (encode (.wait loc val)) = instWait ∧ iloc (encode (.wait loc val)) = loc ∧
      ival (encode (.wait loc val)) = val :=
  decode_inst (show 2 < 2 ^ 4 by omega) hloc hval

theorem iop_end : iop (inst instEnd 0 0) = instEnd := by decide

theorem IsTable.end_of_none (hT : IsTable sigs x) {t : Fin n} {a : ℕ}
    (ha : a ≤ (signalProgram sigs t).length) (h : (signalProgram sigs t)[a]? = none) :
    x (slot t a) = inst instEnd 0 0 := by
  rw [le_antisymm ha (List.getElem?_eq_none_iff.mp h)]
  exact hT.ends t

/-- **The kernel executes the programs of the signals.** -/
theorem ifpSource_eq (hT : IsTable sigs x) {t : Fin n} {l : Pos}
    (hpc : l.pc ≤ (signalProgram sigs t).length) (m : ℕ → ℕ) :
    ifpSource x t l m = exec (signalProgram sigs) t l m := by
  cases hi : (signalProgram sigs t)[l.pc]? with
  | none =>
    rw [exec, hi]
    simp only [ifpSource, hT.end_of_none hpc hi, iop_end]
    rw [if_neg (by decide), if_neg (by decide), if_neg (by decide), if_pos trivial]
    rfl
  | some i =>
    rw [exec, hi]
    obtain ⟨loc, val, hloc, hval, rfl | rfl⟩ := hT.inst_cases hi
    · obtain ⟨hop, hl, hv⟩ := decode_count hloc hval
      simp only [ifpSource, hT.entry t _ _ hi, hop, hl, hv]
      rw [if_neg (by decide), if_neg (by decide), if_pos trivial]
      rfl
    · obtain ⟨hop, hl, hv⟩ := decode_wait hloc hval
      simp only [ifpSource, hT.entry t _ _ hi, hop, hl, hv]
      rw [if_neg (by decide), if_pos trivial]
      rfl

theorem atEnd_iff (hT : IsTable sigs x) {t : Fin n} {l : Pos}
    (hpc : l.pc ≤ (signalProgram sigs t).length) :
    AtEnd x t l ↔ l.Ended (signalProgram sigs t) := by
  rw [AtEnd, Pos.Ended]
  cases hi : (signalProgram sigs t)[l.pc]? with
  | none =>
    rw [hT.end_of_none hpc hi, iop_end]
    exact iff_of_true rfl rfl
  | some i =>
    rw [hT.entry t _ _ hi]
    refine iff_of_false ?_ nofun
    obtain ⟨loc, val, hloc, hval, rfl | rfl⟩ := hT.inst_cases hi
    · rw [(decode_count hloc hval).1]
      decide
    · rw [(decode_wait hloc hval).1]
      decide

theorem kernel_next_eq (hT : IsTable sigs x) {c : Conf (Fin n) (ℕ → ℕ) Pos}
    (hpc : ∀ t, (c.loc t).pc ≤ (signalProgram sigs t).length) (t : Fin n) :
    (kernel n x).next c t = (execSystem (signalProgram sigs)).next c t := by
  show Option.map _ (ifpSource x t (c.loc t) c.mem) = Option.map _ (exec _ t (c.loc t) c.mem)
  rw [ifpSource_eq hT (hpc t)]

variable {ok : Conf (Fin n) (ℕ → ℕ) Pos → Fin n → Prop}

theorem pc_le {c : Conf (Fin n) (ℕ → ℕ) Pos}
    (h : (execSystem (signalProgram sigs)).Reach ok c) (t : Fin n) :
    (c.loc t).pc ≤ (signalProgram sigs t).length :=
  (pos_ok (signalProgram_storeFree sigs) h t).1

theorem exec_of_kernel (hT : IsTable sigs x) {c : Conf (Fin n) (ℕ → ℕ) Pos}
    (h : (kernel n x).Reach ok c) : (execSystem (signalProgram sigs)).Reach ok c := by
  induction h with
  | start hi => exact .start hi
  | step t _ hok hn ih =>
    rw [kernel_next_eq hT (pc_le ih)] at hn
    exact .step t ih hok hn

/-! ### One sub-group in `run_insts` -/

/-- The state of the kernel that a state of `run_insts` stands for. -/
def Run.conf (n : ℕ) (s : Run) : Conf (Fin n) (ℕ → ℕ) Pos := ⟨s.loc, fun t => ⟨s.p t, 0⟩⟩

theorem next_conf (s : Run) (t : Fin n) (loc : ℕ → ℕ) :
    (({ s with loc := loc } : Run).next t).conf n
      = ⟨loc, Function.update (s.conf n).loc t ⟨s.p t + 1, 0⟩⟩ := by
  refine congrArg (Conf.mk loc) (funext fun u => ?_)
  by_cases hu : u = t
  · rw [hu, Function.update_self]
    exact congrArg (Pos.mk · 0) (Function.update_self ..)
  · rw [Function.update_of_ne hu]
    exact congrArg (Pos.mk · 0) (Function.update_of_ne (fun he => hu (Fin.ext he)) ..)

theorem count_path {program : Fin n → List (Inst ℕ)} {t : Fin n} {pc loc val : ℕ}
    (hi : (program t)[pc]? = some (.count loc val)) (at' : Fin n → Pos) (k d : ℕ) (m : ℕ → ℕ)
    (hd : d + k = val) :
    (execSystem program).Path System.anyStep ⟨m, Function.update at' t ⟨pc, d⟩⟩
      ⟨Function.update m loc (m loc + k), Function.update at' t ⟨pc + 1, 0⟩⟩ := by
  induction k generalizing d m with
  | zero =>
    refine .single t trivial (threads_next.mpr ⟨⟨pc + 1, 0⟩, m, ?_, ?_⟩)
    · show exec program t (Function.update at' t ⟨pc, d⟩ t) m = _
      rw [Function.update_self]
      exact exec_eq_some.mpr ⟨_, hi, if_neg (show ¬ d < val by omega)⟩
    · show _ = Conf.mk m (Function.update (Function.update at' t ⟨pc, d⟩) t ⟨pc + 1, 0⟩)
      rw [Nat.add_zero, Function.update_eq_self, Function.update_idem]
  | succ k ih =>
    refine .head t trivial (threads_next.mpr
      ⟨⟨pc, d + 1⟩, Function.update m loc (m loc + 1), ?_, rfl⟩) ?_
    · show exec program t (Function.update at' t ⟨pc, d⟩ t) m = _
      rw [Function.update_self]
      exact exec_eq_some.mpr ⟨_, hi, if_pos (show d < val by omega)⟩
    · have hpath := ih (d + 1) (Function.update m loc (m loc + 1)) (by omega)
      rw [Function.update_self, Function.update_idem] at hpath
      show System.Path _ _ (Conf.mk _ (Function.update (Function.update at' t ⟨pc, d⟩) t ⟨pc, d + 1⟩)) _
      rw [Function.update_idem, Nat.add_comm k 1, ← Nat.add_assoc]
      exact hpath

/-- What the loop of `run_insts` does for a sub-group. -/
structure GroupRun (sigs : List (Signal (Fin n) ℕ)) (t : Fin n) (s s' : Run) : Prop where
  path : (execSystem (signalProgram sigs)).Path System.anyStep (s.conf n) (s'.conf n)
  others : ∀ u, u ≠ (t : ℕ) → s'.p u = s.p u
  le : s.p t ≤ s'.p t
  p_le : s'.p t ≤ (signalProgram sigs t).length
  nend : s'.nend = s.nend ∧ ¬ Pos.Ended (signalProgram sigs t) ⟨s'.p t, 0⟩ ∨
    s'.nend = s.nend + 1 ∧ Pos.Ended (signalProgram sigs t) ⟨s'.p t, 0⟩
  stays : s'.p t = s.p t →
    s'.loc = s.loc ∧ exec (signalProgram sigs) t ⟨s.p t, 0⟩ s.loc = none

theorem GroupRun.head {t : Fin n} {s s' : Run} (loc : ℕ → ℕ)
    (hpath : (execSystem (signalProgram sigs)).Path System.anyStep (s.conf n)
      (({ s with loc := loc } : Run).next t |>.conf n))
    (h : GroupRun sigs t (({ s with loc := loc } : Run).next t) s') : GroupRun sigs t s s' := by
  have hself : (({ s with loc := loc } : Run).next t).p t = s.p t + 1 := Function.update_self ..
  have hle := h.le
  rw [hself] at hle
  refine ⟨hpath.trans h.path, fun u hu => ?_, by omega, h.p_le, h.nend, fun he => by omega⟩
  rw [h.others u hu]
  exact Function.update_of_ne hu ..

theorem runGroup_spec (hT : IsTable sigs x) (t : Fin n) (fuel : ℕ) {s : Run}
    (hp : s.p t ≤ (signalProgram sigs t).length)
    (hfuel : (signalProgram sigs t).length - s.p t < fuel) :
    ∃ s', runGroup x t fuel s = some s' ∧ GroupRun sigs t s s' := by
  induction fuel generalizing s with
  | zero => exact absurd hfuel (Nat.not_lt_zero _)
  | succ fuel ih =>
    cases hi : (signalProgram sigs t)[s.p t]? with
    | none =>
      refine ⟨{ s with nend := s.nend + 1 }, ?_, .refl _, fun _ _ => rfl, le_rfl, hp,
        .inr ⟨rfl, hi⟩, fun _ => ⟨rfl, ?_⟩⟩
      · simp only [runGroup, hT.end_of_none hp hi, iop_end]
        rw [if_neg (by decide), if_neg (by decide), if_neg (by decide), if_pos trivial]
      · rw [exec, hi]
        rfl
    | some i =>
      obtain ⟨hlt, _⟩ := List.getElem?_eq_some_iff.mp hi
      have hnext : ∀ loc, (({ s with loc := loc } : Run).next t).p t = s.p t + 1 :=
        fun loc => Function.update_self ..
      obtain ⟨loc, val, hloc, hval, rfl | rfl⟩ := hT.inst_cases hi
      · -- a count
        obtain ⟨hop, hl, hv⟩ := decode_count hloc hval
        obtain ⟨s', hrun, hs'⟩ := ih (s := ({ s with
          loc := Function.update s.loc loc (s.loc loc + val) } : Run).next t)
          (by rw [hnext]; omega) (by rw [hnext]; omega)
        refine ⟨s', ?_, .head _ ?_ hs'⟩
        · simp only [runGroup, hT.entry t _ _ hi, hop, hl, hv]
          rw [if_neg (by decide), if_neg (by decide), if_pos trivial]
          exact hrun
        · have hpath := count_path hi (s.conf n).loc val 0 s.loc (Nat.zero_add _)
          rw [next_conf]
          rwa [show (⟨s.p t, 0⟩ : Pos) = (s.conf n).loc t from rfl, Function.update_eq_self]
            at hpath
      · -- a wait
        obtain ⟨hop, hl, hv⟩ := decode_wait hloc hval
        have hunfold : runGroup x t (fuel + 1) s
            = if s.loc loc = val then runGroup x t fuel (s.next t) else some s := by
          simp only [runGroup, hT.entry t _ _ hi, hop, hl, hv]
          rw [if_neg (by decide), if_pos trivial]
        by_cases hm : s.loc loc = val
        · obtain ⟨s', hrun, hs'⟩ := ih (s := s.next t)
            (by rw [show (s.next t).p t = s.p t + 1 from hnext s.loc]; omega)
            (by rw [show (s.next t).p t = s.p t + 1 from hnext s.loc]; omega)
          refine ⟨s', by rw [hunfold, if_pos hm, hrun], GroupRun.head s.loc ?_ hs'⟩
          rw [next_conf]
          exact .single t trivial (threads_next.mpr
            ⟨_, _, exec_eq_some.mpr ⟨_, hi, if_pos hm⟩, rfl⟩)
        · refine ⟨s, by rw [hunfold, if_neg hm], .refl _, fun _ _ => rfl, le_rfl, hp,
            .inl ⟨rfl, fun hend => ?_⟩, fun _ => ⟨rfl, ?_⟩⟩
          · rw [Pos.Ended, hi] at hend
            cases hend
          · rw [exec, hi]
            exact if_neg hm

end OpenCLCTS.Subgroups.IFP
