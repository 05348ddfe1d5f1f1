import OpenCLCTS.Subgroups.Arithmetic
import OpenCLCTS.Subgroups.Verifiers

/-!
# The verifiers of scans and reductions

`SCEX_NU`, `SCIN_NU`, `RED_NU` and `RED_CLU` go over the full work-groups and compare the outputs of
the active work-items with what they compute: their targets.

* `compares_exclusive`, `compares_inclusive`, `compares_reduce`, `checks_clustered`: the targets of
  the verifiers.
* `inclusive_target_iff`, `reduce_target_iff`: when a target is the fold that starts with the
  identity.
* `foldsAgree_iff`: the verifiers compute one fold, unless the only active work-item of a sub-group
  has a number that a logical operation changes.
-/

namespace OpenCLCTS.Subgroups

open Conversions Traced

section

variable {p : WorkGroupParams} {Ty : CType}

/-- What the trace of a scan or a reduction keeps of its comparisons. -/
inductive Comparison (Ty : CType)
  /-- the size of the data type that the device has found -/
  | size (dts : ℤ)
  /-- a work-item, its output and its target -/
  | output (g : ℕ) (rr tr : BitVec Ty.bits)
  deriving DecidableEq

/-- The comparison of a size with that of the host's type. -/
def compareSize (Ty : CType) (dts : ℤ) : Traced (Comparison Ty) Unit :=
  judge (.size dts) (dts = (Ty.bits / 8 : ℕ))

/-- The comparison of an output with its target. -/
def compareTarget (g : ℕ) (rr tr : BitVec Ty.bits) : Traced (Comparison Ty) Unit :=
  judge (.output g rr tr) (rr = tr)

/-- `work_items_mask`: all work-items if it is empty. -/
def WorkGroupParams.activeMask (p : WorkGroupParams) : BitVec 128 :=
  if p.workItemsMask = 0 then BitVec.allOnes 128 else p.workItemsMask

/-- `active_work_items`. -/
def activeWorkItems {τ : Type} (mask : BitVec 128) (n : ℕ) : Traced τ (List ℕ) :=
  forRange (fun i active => do
    if ← testMask mask i then pure (active ++ [i]) else pure active) [] n

namespace SCEX_NU

/-- The loop keeps `tr`. -/
def check (operation : ArithmeticOp) (mask : BitVec 128) (base offset n : ℕ)
    (s : Scratch (BitVec Ty.bits)) : Traced (Comparison Ty) Unit := do
  let active ← activeWorkItems mask n
  if active = [] then pure ()
  else do
    let _ ← forEach (fun i tr => do
      let rr ← s.my.read (offset + i)
      compareTarget (base + offset + i) rr tr
      let v ← s.mx.read (offset + i)
      pure (calculate Ty tr v operation)) active (identifyLimits Ty operation)
    pure ()

def chk (operation : ArithmeticOp) (a : Arrays p (BitVec Ty.bits)) :
    Traced (Comparison Ty) (Cursor (Scratch (BitVec Ty.bits))) :=
  verifyGroups a p.fullGroups 0 (check operation p.activeMask)

end SCEX_NU

namespace SCIN_NU

/-- `tr` for active work-item `i`; the first one is `catch_frist_active`. -/
def next (operation : ArithmeticOp) (active : List ℕ) (offset i : ℕ) (mx : Buffer (BitVec Ty.bits))
    (tr : BitVec Ty.bits) : Traced (Comparison Ty) (BitVec Ty.bits) :=
  if active.length = 1 then mx.read (offset + active.headD 0)
  else do
    let v ← mx.read (offset + i)
    pure (calculate Ty tr v operation)

def check (operation : ArithmeticOp) (mask : BitVec 128) (base offset n : ℕ)
    (s : Scratch (BitVec Ty.bits)) : Traced (Comparison Ty) Unit := do
  let active ← activeWorkItems mask n
  if active = [] then pure ()
  else do
    let _ ← forEach (fun i tr => do
      let rr ← s.my.read (offset + i)
      let tr ← next operation active offset i s.mx tr
      compareTarget (base + offset + i) rr tr
      pure tr) active (identifyLimits Ty operation)
    pure ()

def chk (operation : ArithmeticOp) (a : Arrays p (BitVec Ty.bits)) :
    Traced (Comparison Ty) (Cursor (Scratch (BitVec Ty.bits))) :=
  verifyGroups a p.fullGroups 0 (check operation p.activeMask)

end SCIN_NU

namespace RED_NU

/-- `catch_frist_active`, `tr` and `active_work_items`. -/
structure Reduction (Ty : CType) where
  first : Option ℕ
  tr : BitVec Ty.bits
  active : List ℕ

def reduceActive (operation : ArithmeticOp) (mask : BitVec 128) (mx : Buffer (BitVec Ty.bits))
    (offset n : ℕ) : Traced (Comparison Ty) (Reduction Ty) :=
  forRange (fun i r => do
    if ← testMask mask i then
      let v ← mx.read (offset + i)
      if r.first = none then pure ⟨some i, v, r.active ++ [i]⟩
      else pure ⟨r.first, calculate Ty r.tr v operation, r.active ++ [i]⟩
    else pure r) ⟨none, 0, []⟩ n

def check (operation : ArithmeticOp) (mask : BitVec 128) (base offset n : ℕ)
    (s : Scratch (BitVec Ty.bits)) : Traced (Comparison Ty) Unit := do
  let r ← reduceActive operation mask s.mx offset n
  if r.active = [] then pure ()
  else do
    let _ ← forEach (fun i _ => do
      let rr ← s.my.read (offset + i)
      compareTarget (base + offset + i) rr r.tr) r.active ()
    pure ()

def chk (operation : ArithmeticOp) (a : Arrays p (BitVec Ty.bits)) :
    Traced (Comparison Ty) (Cursor (Scratch (BitVec Ty.bits))) :=
  verifyGroups a p.fullGroups 0 (check operation p.activeMask)

end RED_NU

namespace RED_CLU

/-- The sizes of the data type that the device has found, for a work-group. -/
def checkSizes (Ty : CType) (m : Buffer ℤ) (base n : ℕ) : Traced (Comparison Ty) Unit := do
  let dataTypeSizes ← forRange (fun j sizes => do
    let dts ← m.read (4 * base + (4 * j + 3))
    pure (sizes ++ [dts])) [] n
  forEach (fun dts _ => compareSize Ty dts) dataTypeSizes ()

/-- `clusters_results`; the loop keeps `tr` as well. -/
def clustersResults (operation : ArithmeticOp) (ns clusterSize : ℕ) (mx : Buffer (BitVec Ty.bits))
    (offset n : ℕ) : Traced (Comparison Ty) (Buffer (BitVec Ty.bits)) :=
  if clusterSize = 0 then stop .divisionByZero
  else do
    let tr ← mx.read offset
    let r ← forRange (fun i r => do
      let v ← mx.read (offset + i)
      let tr := if i % clusterSize = 0 then v else calculate Ty r.1 v operation
      let results ← r.2.write (i / clusterSize) tr
      pure (tr, results)) (tr, (⟨(ns + clusterSize - 1) / clusterSize, fun _ => 0⟩ : Buffer _)) n
    pure r.2

def check (operation : ArithmeticOp) (ns clusterSize base offset n : ℕ)
    (s : Scratch (BitVec Ty.bits)) : Traced (Comparison Ty) Unit := do
  let results ← clustersResults operation ns clusterSize s.mx offset n
  forRange (fun i _ => do
    let rr ← s.my.read (offset + i)
    let tr ← results.read (i / clusterSize)
    compareTarget (base + offset + i) rr tr) () n

def chk (operation : ArithmeticOp) (a : Arrays p (BitVec Ty.bits)) :
    Traced (Comparison Ty) (Cursor (Scratch (BitVec Ty.bits))) :=
  verifyPrepared a p.fullGroups 0 (checkSizes Ty a.m)
    (check operation p.subgroupSize p.clusterSize)

end RED_CLU

end

/-! ### Targets -/

section

variable (p : WorkGroupParams) (mask : BitVec 128)

/-- The active ones of the first `k` work-items of the sub-group of a work-item. -/
def WorkGroupParams.activeAt (g k : ℕ) : List ℕ :=
  ((List.range k).filter mask.getLsbD).map fun j => g - p.lane g + j

/-- All active work-items of the sub-group of a work-item. -/
def WorkGroupParams.allActiveAt (g : ℕ) : List ℕ := p.activeAt mask g (p.subgroupSizeAt g)

variable {Ty : CType} (operation : ArithmeticOp) (x : Buffer (BitVec Ty.bits))

/-- **The fold over these work-items**, which starts with the identity. -/
def foldOver (gs : List ℕ) : BitVec Ty.bits :=
  (gs.map x.get).foldl (fun a b => calculate Ty a b operation) (identifyLimits Ty operation)

/-- The fold that starts with the first of them. -/
def reduceOver (gs : List ℕ) : BitVec Ty.bits :=
  reduceFirst (fun a b => calculate Ty a b operation) 0 (gs.map x.get)

def exclusiveScan (g : ℕ) : BitVec Ty.bits := foldOver operation x (p.activeAt mask g (p.lane g))

def inclusiveScan (g : ℕ) : BitVec Ty.bits :=
  foldOver operation x (p.activeAt mask g (p.lane g + 1))

def reduction (g : ℕ) : BitVec Ty.bits := foldOver operation x (p.allActiveAt mask g)

/-- What `SCIN_NU::chk` compares an active work-item with. -/
def SCIN_NU.target (g : ℕ) : BitVec Ty.bits :=
  if (p.allActiveAt mask g).length = 1 then x.get g else inclusiveScan p mask operation x g

/-- What `RED_NU::chk` compares an active work-item with. -/
def RED_NU.target (g : ℕ) : BitVec Ty.bits := reduceOver operation x (p.allActiveAt mask g)

/-- What a work-item leaves; `y` are the outputs. -/
def targetTrace (y : Buffer (BitVec Ty.bits)) (target : ℕ → BitVec Ty.bits) (g : ℕ) :
    List (Comparison Ty) :=
  if mask.getLsbD (p.lane g) = true then [.output g (y.get g) (target g)] else []

end

/-! ### Active work-items -/

section

variable {p : WorkGroupParams} {mask : BitVec 128} {base offset n : ℕ}

theorem spec_activeWorkItems {τ : Type} {E : Stop → Prop} (hn : n ≤ 128) :
    Spec (activeWorkItems mask n : Traced τ (List ℕ)) []
      (· = (List.range n).filter mask.getLsbD) E := by
  refine (spec_collectActive hn id (I := fun _ => True) rfl trivial ?_).imp fun _ h => h.1
  intro i active _ _ _
  exact .pure ⟨rfl, trivial⟩

theorem activeAt_eq {i : ℕ} (hlane : p.lane (base + offset + i) = i) (k : ℕ) :
    p.activeAt mask (base + offset + i) k
      = ((List.range k).filter mask.getLsbD).map (base + offset + ·) := by
  rw [WorkGroupParams.activeAt, hlane, Nat.add_sub_cancel]

theorem spec_unlessEmpty {τ σ : Type} {E : Stop → Prop} {L : List τ} {Q : σ → Prop}
    {active : List ℕ} {body : ℕ → σ → Traced τ σ} {s : σ}
    (h : Spec (forEach body active s) L Q E) :
    Spec (if active = [] then pure () else do
      let _ ← forEach body active s
      pure ()) L (fun _ => True) E := by
  refine .ite (fun hempty => ?_) fun _ => h.bind_silent fun _ _ => .pure trivial
  subst hempty
  have hL : [] = L := (h.ok s rfl).1
  rw [← hL]
  exact .pure trivial

end

/-! ### What the verifiers compare -/

section

variable {p : WorkGroupParams} {Ty : CType} {mask : BitVec 128} {operation : ArithmeticOp}
  {base offset n : ℕ} {E : Stop → Prop} {a : Arrays p (BitVec Ty.bits)}
  {s : Scratch (BitVec Ty.bits)} {target : ℕ → BitVec Ty.bits}

theorem foldOver_concat (operation : ArithmeticOp) (x : Buffer (BitVec Ty.bits)) (gs : List ℕ)
    (g : ℕ) : foldOver operation x (gs ++ [g])
      = calculate Ty (foldOver operation x gs) (x.get g) operation := by
  rw [foldOver, List.map_append, List.foldl_append]
  rfl

theorem reduceOver_concat (operation : ArithmeticOp) (x : Buffer (BitVec Ty.bits)) {gs : List ℕ}
    (h : gs ≠ []) (g : ℕ) : reduceOver operation x (gs ++ [g])
      = calculate Ty (reduceOver operation x gs) (x.get g) operation := by
  rw [reduceOver, List.map_append, List.map_singleton,
    reduceFirst_concat fun hnil => h (List.map_eq_nil_iff.mp hnil)]
  rfl

theorem activeAt_turn (h : Turn a p.fullGroups 0 base offset n s) {i : ℕ} (hi : i < n) (k : ℕ) :
    p.activeAt mask (base + offset + i) k
      = ((List.range k).filter mask.getLsbD).map (base + offset + ·) :=
  activeAt_eq (h.subgroup.place (.inr ⟨rfl, rfl⟩) i hi).1 k

theorem allActiveAt_turn (h : Turn a p.fullGroups 0 base offset n s) {i : ℕ} (hi : i < n) :
    p.allActiveAt mask (base + offset + i)
      = ((List.range n).filter mask.getLsbD).map (base + offset + ·) := by
  rw [WorkGroupParams.allActiveAt, activeAt_turn h hi,
    (h.subgroup.place (.inr ⟨rfl, rfl⟩) i hi).2]

theorem lane_turn (h : Turn a p.fullGroups 0 base offset n s) {i : ℕ} (hi : i < n) :
    p.lane (base + offset + i) = i :=
  (h.subgroup.place (.inr ⟨rfl, rfl⟩) i hi).1

theorem spec_targets {σ : Type} (h : Turn a p.fullGroups 0 base offset n s)
    {body : ℕ → σ → Traced (Comparison Ty) σ} {I : ℕ → σ → Prop}
    (hbody : ∀ i tr, i < n → mask.getLsbD i = true → I i tr →
      Spec (body i tr)
        [Comparison.output (base + offset + i) (a.y.get (base + offset + i))
          (target (base + offset + i))] (I (i + 1)) E)
    (hskip : ∀ i tr, mask.getLsbD i = false → I i tr → I (i + 1) tr) {tr : σ} (h0 : I 0 tr) :
    Spec (forEach body ((List.range n).filter mask.getLsbD) tr)
      (tracesFrom (targetTrace p mask a.y target) (base + offset) n) (I n) E := by
  have hloop := Spec.forEach_filter (E := E) (p := mask.getLsbD) (a := 0) (n := n) (I := I)
    (T := fun i => [Comparison.output (base + offset + i) (a.y.get (base + offset + i))
      (target (base + offset + i))])
    (fun i tr hi => hbody i tr (by omega)) hskip h0
  rw [← List.range_eq_range', Nat.zero_add] at hloop
  refine hloop.congr ?_
  rw [← flatMap_range_eq]
  refine List.flatMap_congr ?_
  intro i hi
  rw [targetTrace, lane_turn h (List.mem_range.mp hi)]

/-- The device has found a wrong size, or an output is not its target. -/
def Comparison.Bad : Comparison Ty → Prop
  | .size dts => dts ≠ (Ty.bits / 8 : ℕ)
  | .output _ rr tr => rr ≠ tr

/-- **A run compares the outputs of the active work-items of the full work-groups with these
targets**, each of them once, up to the first that differs; if none does it comes to its end. -/
def Compares (p : WorkGroupParams) (mask : BitVec 128) {σ : Type} (run : Traced (Comparison Ty) σ)
    (y : Buffer (BitVec Ty.bits)) (target : ℕ → BitVec Ty.bits) : Prop :=
  Checks Comparison.Bad run
    (tracesFrom (targetTrace p mask y target) 0 (p.fullGroups * p.localWorkgroupSize))

theorem spec_compareTarget (g : ℕ) (rr tr : BitVec Ty.bits) :
    Spec (compareTarget g rr tr) [.output g rr tr] (fun _ => True) (· = Stop.failed) := .judge rfl

theorem failsAt_compareSize (dts : ℤ) : FailsAt Comparison.Bad (compareSize Ty dts) :=
  .judge decide_eq_false_iff_not

theorem failsAt_compareTarget (g : ℕ) (rr tr : BitVec Ty.bits) :
    FailsAt Comparison.Bad (compareTarget g rr tr) := .judge decide_eq_false_iff_not

theorem compares_fullGroups (hp : p.Valid)
    {check : ℕ → ℕ → ℕ → Scratch (BitVec Ty.bits) → Traced (Comparison Ty) Unit}
    (hfails : ∀ base offset n s, FailsAt Comparison.Bad (check base offset n s))
    (hcheck : ∀ base offset n s, Turn a p.fullGroups 0 base offset n s →
      Spec (check base offset n s) (tracesFrom (targetTrace p mask a.y target) (base + offset) n)
        (fun _ => True) (· = Stop.failed)) :
    Compares p mask (verifyGroups a p.fullGroups 0 check) a.y target := by
  have hcounted : p.Counted p.fullGroups 0 := .inr ⟨rfl, rfl⟩
  have hspec := spec_verifyGroups hcounted.pos hp.subgroup_pos (hcounted.lt hp.local_pos)
    hcounted.covered_le hcheck
  rw [WorkGroupParams.covered_fullGroups] at hspec
  exact hspec.checks (failsAt_verifyPrepared (fun _ _ => .pure ()) hfails)

theorem failsAt_overActive {τ σ : Type} {bad : τ → Prop} {mask : BitVec 128} {n : ℕ}
    {body : List ℕ → ℕ → σ → Traced τ σ} {s : σ}
    (hbody : ∀ active i s, FailsAt bad (body active i s)) :
    FailsAt bad (do
      let active ← activeWorkItems mask n
      if active = [] then pure ()
      else do
        let _ ← forEach (body active) active s
        pure ()) :=
  .bind (failsAt_collectActive (fun _ _ => .pure _) _ _) fun active =>
    .ite (.pure ()) (.bind (.forEach (hbody active) active s) fun _ => .pure ())

/-- **`SCEX_NU::chk`.** -/
theorem compares_exclusive (hp : p.Valid) (operation : ArithmeticOp)
    (a : Arrays p (BitVec Ty.bits)) :
    Compares p p.activeMask (SCEX_NU.chk operation a) a.y
      (exclusiveScan p p.activeMask operation a.x) := by
  apply compares_fullGroups hp
  · intro base offset n s
    exact failsAt_overActive fun _ i tr => .bind (Buffer.failsAt_read _ _) fun rr =>
      .bind (failsAt_compareTarget _ _ _) fun _ => .bind (Buffer.failsAt_read _ _) fun _ => .pure _
  intro base offset n s h
  refine (spec_activeWorkItems (h.subgroup.size_le.trans hp.subgroup_le)).silent_bind ?_
  rintro active rfl
  apply spec_unlessEmpty
  apply spec_targets h (I := fun i tr => tr = foldOver operation a.x
    (((List.range i).filter p.activeMask.getLsbD).map (base + offset + ·)))
  · rintro i tr hi hmask rfl
    have htarget : exclusiveScan p p.activeMask operation a.x (base + offset + i)
        = foldOver operation a.x
          (((List.range i).filter p.activeMask.getLsbD).map (base + offset + ·)) := by
      rw [exclusiveScan, lane_turn h hi, activeAt_turn h hi]
    rw [← htarget, filter_take hmask, List.map_append, List.map_singleton]
    refine (h.spec_my hi).silent_bind ?_
    rintro rr rfl
    refine (spec_compareTarget _ _ _).bind_silent ?_
    intro _ _
    refine (h.spec_mx hi).silent_bind ?_
    rintro v rfl
    exact .pure (by rw [foldOver_concat, htarget])
  · rintro i tr hmask rfl
    rw [filter_skip hmask]
  · rfl

theorem spec_inclusive_turn (h : Turn a p.fullGroups 0 base offset n s) {i : ℕ} (hi : i < n)
    {active : List ℕ} {tr : BitVec Ty.bits} {Q : BitVec Ty.bits → Prop}
    (hnext : Spec (SCIN_NU.next operation active offset i s.mx tr) []
      (· = target (base + offset + i)) (· = Stop.failed)) (hQ : Q (target (base + offset + i))) :
    Spec (do
      let rr ← s.my.read (offset + i)
      let tr ← SCIN_NU.next operation active offset i s.mx tr
      compareTarget (base + offset + i) rr tr
      pure tr)
      [.output (base + offset + i) (a.y.get (base + offset + i)) (target (base + offset + i))]
      Q (· = Stop.failed) := by
  refine (h.spec_my hi).silent_bind ?_
  rintro rr rfl
  refine hnext.silent_bind ?_
  rintro tr rfl
  refine (spec_compareTarget _ _ _).bind_silent ?_
  intro _ _
  exact .pure hQ

/-- **`SCIN_NU::chk`.** -/
theorem compares_inclusive (hp : p.Valid) (operation : ArithmeticOp)
    (a : Arrays p (BitVec Ty.bits)) :
    Compares p p.activeMask (SCIN_NU.chk operation a) a.y
      (SCIN_NU.target p p.activeMask operation a.x) := by
  apply compares_fullGroups hp
  · intro base offset n s
    refine failsAt_overActive fun active i tr => .bind (Buffer.failsAt_read _ _) fun rr => ?_
    refine .bind (.ite (Buffer.failsAt_read _ _) (.bind (Buffer.failsAt_read _ _) fun _ => .pure _))
      fun _ => ?_
    exact .bind (failsAt_compareTarget _ _ _) fun _ => .pure _
  intro base offset n s h
  refine (spec_activeWorkItems (h.subgroup.size_le.trans hp.subgroup_le)).silent_bind ?_
  rintro active rfl
  by_cases hone : ((List.range n).filter p.activeMask.getLsbD).length = 1
  · apply spec_unlessEmpty
    apply spec_targets h (I := fun _ _ => True)
    · intro i tr hi hmask _
      refine spec_inclusive_turn h hi ?_ trivial
      have htarget : SCIN_NU.target p p.activeMask operation a.x (base + offset + i)
          = a.x.get (base + offset + i) := by
        rw [SCIN_NU.target, allActiveAt_turn h hi, List.length_map, if_pos hone]
      have hfirst : ((List.range n).filter p.activeMask.getLsbD).headD 0 = i := by
        obtain ⟨j, hj⟩ := List.length_eq_one_iff.mp hone
        have hmem : i ∈ (List.range n).filter p.activeMask.getLsbD :=
          List.mem_filter.mpr ⟨List.mem_range.mpr hi, hmask⟩
        rw [hj, List.mem_singleton] at hmem
        rw [hj, hmem]
        rfl
      rw [SCIN_NU.next, if_pos hone, hfirst, htarget]
      exact h.spec_mx hi
    · exact fun _ _ _ _ => trivial
    · trivial
  · apply spec_unlessEmpty
    apply spec_targets h (I := fun i tr => tr = foldOver operation a.x
      (((List.range i).filter p.activeMask.getLsbD).map (base + offset + ·)))
    · rintro i tr hi hmask rfl
      have htarget : SCIN_NU.target p p.activeMask operation a.x (base + offset + i)
          = foldOver operation a.x
            (((List.range (i + 1)).filter p.activeMask.getLsbD).map (base + offset + ·)) := by
        rw [SCIN_NU.target, allActiveAt_turn h hi, List.length_map, if_neg hone, inclusiveScan,
          lane_turn h hi, activeAt_turn h hi]
      refine spec_inclusive_turn h hi ?_ htarget
      rw [SCIN_NU.next, if_neg hone, htarget, filter_take hmask, List.map_append,
        List.map_singleton, foldOver_concat]
      refine (h.spec_mx hi).silent_bind ?_
      rintro v rfl
      exact .pure rfl
    · rintro i tr hmask rfl
      rw [filter_skip hmask]
    · rfl

theorem spec_reduceActive (h : Turn a p.fullGroups 0 base offset n s) (hn : n ≤ 128) :
    Spec (RED_NU.reduceActive operation mask s.mx offset n) []
      (fun r => r.active = (List.range n).filter mask.getLsbD ∧
        r.tr = reduceOver operation a.x (r.active.map (base + offset + ·))) E := by
  refine Spec.imp (spec_collectActive hn RED_NU.Reduction.active
    (I := fun r => (r.first = none ↔ r.active = []) ∧
      r.tr = reduceOver operation a.x (r.active.map (base + offset + ·))) rfl ⟨by simp, rfl⟩ ?_)
    fun r hr => ⟨hr.1, hr.2.2⟩
  rintro i ⟨first, tr, active⟩ hi _ ⟨hfirst, htr⟩
  dsimp only at hfirst htr
  refine (h.spec_mx hi).silent_bind ?_
  rintro v rfl
  refine .ite (fun hnone => ?_) fun hsome => ?_
  · refine .pure ⟨rfl, by simp, ?_⟩
    dsimp only
    rw [hfirst.mp hnone]
    rfl
  · refine .pure ⟨rfl, by simp [hsome], ?_⟩
    have hne : active.map (base + offset + ·) ≠ [] :=
      fun hnil => hsome (hfirst.mpr (List.map_eq_nil_iff.mp hnil))
    dsimp only
    rw [List.map_append, List.map_singleton, reduceOver_concat _ _ hne, ← htr]

/-- **`RED_NU::chk`.** -/
theorem compares_reduce (hp : p.Valid) (operation : ArithmeticOp)
    (a : Arrays p (BitVec Ty.bits)) :
    Compares p p.activeMask (RED_NU.chk operation a) a.y
      (RED_NU.target p p.activeMask operation a.x) := by
  apply compares_fullGroups hp
  · intro base offset n s
    refine .bind (failsAt_collectActive (fun _ _ => .bind (Buffer.failsAt_read _ _) fun _ =>
      .ite (.pure _) (.pure _)) _ _) fun _ => .ite (.pure ()) ?_
    refine .bind (.forEach (fun _ _ => .bind (Buffer.failsAt_read _ _) fun _ => ?_) _ _)
      fun _ => .pure ()
    exact failsAt_compareTarget _ _ _
  intro base offset n s h
  refine (spec_reduceActive h (h.subgroup.size_le.trans hp.subgroup_le)).silent_bind ?_
  rintro ⟨first, tr, active⟩ ⟨hactive, htr⟩
  dsimp only at hactive htr
  subst hactive
  apply spec_unlessEmpty
  apply spec_targets h (I := fun _ _ => True)
  · intro i _ hi hmask _
    have htarget : RED_NU.target p p.activeMask operation a.x (base + offset + i) = tr := by
      rw [RED_NU.target, allActiveAt_turn h hi, htr]
    refine (h.spec_my hi).silent_bind ?_
    rintro rr rfl
    dsimp only
    rw [← htarget]
    exact spec_compareTarget _ _ _
  · exact fun _ _ _ _ => trivial
  · trivial

/-- What `RED_CLU::chk` compares in one work-group before the outputs. -/
def RED_CLU.sizesFrom (Ty : CType) (m : Buffer ℤ) (base n : ℕ) : List (Comparison Ty) :=
  (List.range n).map fun j => .size (m.get (4 * base + (4 * j + 3)))

theorem spec_checkSizes (hbase : base + n ≤ p.globalWorkgroupSize) :
    Spec (RED_CLU.checkSizes Ty a.m base n) (RED_CLU.sizesFrom Ty a.m base n) (fun _ => True)
      (· = Stop.failed) := by
  refine Spec.silent_bind (Spec.forRange_silent (I := fun j sizes =>
    sizes = (List.range j).map fun j => a.m.get (4 * base + (4 * j + 3))) ?_ rfl) ?_
  · rintro j sizes hj rfl
    have hread : 4 * base + (4 * j + 3) < a.m.size := by
      rw [a.m_size]
      omega
    refine (Buffer.spec_read hread).silent_bind ?_
    rintro dts rfl
    exact .pure (by rw [List.range_succ, List.map_append, List.map_singleton])
  · rintro sizes rfl
    refine Spec.congr (Spec.forEach (I := fun _ : Unit => True)
      (T := fun dts => [Comparison.size dts]) ?_ trivial) ?_
    · intro dts _ _ _
      exact .judge rfl
    · rw [RED_CLU.sizesFrom, List.flatMap_map, List.map_eq_flatMap]

theorem spec_clustersResults (h : Turn a p.fullGroups 0 base offset n s) (hsbs : 0 < p.subgroupSize)
    (hcluster : p.subgroupSize ≤ p.clusterSize) (operation : ArithmeticOp) :
    Spec (RED_CLU.clustersResults operation p.subgroupSize p.clusterSize s.mx offset n) []
      (fun results => 0 < results.size ∧
        results.get 0 = reduceOver operation a.x ((List.range n).map (base + offset + ·))) E := by
  have hn : 0 < n := Nat.pos_of_ne_zero fun hn => (h.subgroup.empty hn).1 rfl
  have hn_le := h.subgroup.size_le
  have hclusters : 0 < (p.subgroupSize + p.clusterSize - 1) / p.clusterSize :=
    Nat.div_pos (by omega) (by omega)
  rw [RED_CLU.clustersResults, if_neg (by omega)]
  refine (h.spec_mx hn).silent_bind ?_
  intro tr _
  refine Spec.silent_bind (Spec.forRange_silent
    (I := fun i (r : BitVec Ty.bits × Buffer (BitVec Ty.bits)) =>
      0 < r.2.size ∧ (0 < i → r.2.get 0 = r.1 ∧
        r.1 = reduceOver operation a.x ((List.range i).map (base + offset + ·)))) ?_ ?_) ?_
  · rintro i ⟨tr, results⟩ hi ⟨hsize, htr⟩
    dsimp only at hsize htr ⊢
    have hdiv : i / p.clusterSize = 0 := Nat.div_eq_of_lt (by omega)
    have hmod : i % p.clusterSize = i := Nat.mod_eq_of_lt (by omega)
    refine (h.spec_mx hi).silent_bind ?_
    rintro v rfl
    rw [hdiv, hmod]
    refine (Buffer.spec_write hsize).silent_bind ?_
    rintro results' rfl
    refine .pure ⟨hsize, fun _ => ⟨Buffer.set_get_self .., ?_⟩⟩
    rw [List.range_succ, List.map_append, List.map_singleton]
    rcases Nat.eq_zero_or_pos i with rfl | hpos
    · rfl
    · have hne : (List.range i).map (base + offset + ·) ≠ [] := by simp [hpos.ne']
      rw [if_neg hpos.ne', reduceOver_concat _ _ hne, (htr hpos).2]
  · exact ⟨hclusters, fun h0 => absurd h0 (Nat.lt_irrefl 0)⟩
  · rintro ⟨tr, results⟩ ⟨hsize, htr⟩
    exact .pure ⟨hsize, (htr hn).1.trans (htr hn).2⟩

theorem RED_CLU.failsAt_check (operation : ArithmeticOp) (ns clusterSize base offset n : ℕ)
    (s : Scratch (BitVec Ty.bits)) :
    FailsAt Comparison.Bad (RED_CLU.check operation ns clusterSize base offset n s) := by
  refine .bind (.ite (.stop nofun) (.bind (Buffer.failsAt_read _ _) fun _ => .bind ?_ fun _ =>
    .pure _)) fun _ => .forRange (fun _ _ => ?_) _ _
  · refine .forRange (fun _ _ => .bind (Buffer.failsAt_read _ _) fun _ => ?_) _ _
    exact .bind (Buffer.failsAt_write _ _ _) fun _ => .pure _
  · exact .bind (Buffer.failsAt_read _ _) fun _ => .bind (Buffer.failsAt_read _ _) fun _ =>
      failsAt_compareTarget _ _ _

theorem RED_CLU.failsAt_checkSizes (Ty : CType) (m : Buffer ℤ) (base n : ℕ) :
    FailsAt Comparison.Bad (RED_CLU.checkSizes Ty m base n) :=
  .bind (.forRange (fun _ _ => .bind (Buffer.failsAt_read _ _) fun _ => .pure _) _ _) fun _ =>
    .forEach (fun dts _ => failsAt_compareSize dts) _ _

/-- What `RED_CLU::chk` compares: in each work-group the sizes, and then the outputs. -/
def RED_CLU.comparisons (a : Arrays p (BitVec Ty.bits)) (value : ℕ → BitVec Ty.bits) :
    List (Comparison Ty) :=
  (List.range p.fullGroups).flatMap fun k =>
    RED_CLU.sizesFrom Ty a.m (k * p.localWorkgroupSize) p.localWorkgroupSize ++
      tracesFrom (targetTrace p (BitVec.allOnes 128) a.y value) (k * p.localWorkgroupSize)
        p.localWorkgroupSize

/-- **`RED_CLU::chk`** with clusters that are at least as large as the sub-groups. -/
theorem checks_clustered (hp : p.Valid) (hcluster : p.subgroupSize ≤ p.clusterSize)
    (operation : ArithmeticOp) (a : Arrays p (BitVec Ty.bits)) :
    Checks Comparison.Bad (RED_CLU.chk operation a)
      (RED_CLU.comparisons a (RED_NU.target p (BitVec.allOnes 128) operation a.x)) := by
  refine Spec.checks (Q := fun _ => True) ?_ (failsAt_verifyPrepared
    (RED_CLU.failsAt_checkSizes Ty a.m) (RED_CLU.failsAt_check operation _ _))
  apply spec_verifyPrepared hp.subgroup_pos hp.local_pos
  · intro k hk
    refine spec_checkSizes ?_
    have hend : (k + 1) * p.localWorkgroupSize ≤ p.fullGroups * p.localWorkgroupSize :=
      Nat.mul_le_mul_right _ hk
    have hfull := Nat.div_mul_le_self p.globalWorkgroupSize p.localWorkgroupSize
    rw [Nat.succ_mul] at hend
    exact hend.trans hfull
  · intro base offset n s h
    have hall : ∀ i < n, (BitVec.allOnes 128).getLsbD i = true := by
      intro i hi
      have := h.subgroup.size_le
      have := hp.subgroup_le
      rw [BitVec.getLsbD_allOnes, decide_eq_true_eq]
      omega
    have hfilter : (List.range n).filter (BitVec.allOnes 128).getLsbD = List.range n :=
      List.filter_eq_self.mpr fun i hi => hall i (List.mem_range.mp hi)
    refine (spec_clustersResults h hp.subgroup_pos hcluster operation).silent_bind ?_
    rintro results ⟨hsize, hget⟩
    apply spec_items (I := fun _ _ => True)
    · intro i _ hi _
      have hn_le := h.subgroup.size_le
      have hdiv : i / p.clusterSize = 0 := Nat.div_eq_of_lt (by omega)
      have htarget : RED_NU.target p (BitVec.allOnes 128) operation a.x (base + offset + i)
          = reduceOver operation a.x ((List.range n).map (base + offset + ·)) := by
        rw [RED_NU.target, allActiveAt_turn h hi, hfilter]
      rw [targetTrace, lane_turn h hi, if_pos (hall i hi), hdiv, htarget]
      refine (h.spec_my hi).silent_bind ?_
      rintro rr rfl
      refine (Buffer.spec_read hsize).silent_bind ?_
      rintro tr rfl
      rw [hget]
      exact spec_compareTarget _ _ _
    · trivial

end

/-! ### Targets and folds -/

section

variable {p : WorkGroupParams} {Ty : CType} {mask : BitVec 128} {operation : ArithmeticOp}
  {x : Buffer (BitVec Ty.bits)} {g : ℕ}

theorem lane_le (p : WorkGroupParams) (g : ℕ) : p.lane g ≤ g :=
  (Nat.mod_le _ _).trans (Nat.mod_le _ _)

theorem lane_lt (hp : p.Valid) (hg : g < p.fullGroups * p.localWorkgroupSize) :
    p.lane g < p.subgroupSizeAt g := by
  have hlocal := hp.local_pos
  have hfull : g / p.localWorkgroupSize < p.fullGroups := Nat.div_lt_of_lt_mul (by rwa [Nat.mul_comm])
  have hmod := Nat.mod_lt g hp.local_pos
  have hlane := Nat.mod_lt (g % p.localWorkgroupSize) hp.subgroup_pos
  have hdiv := Nat.div_add_mod' (g % p.localWorkgroupSize) p.subgroupSize
  rw [WorkGroupParams.lane, WorkGroupParams.subgroupSizeAt, WorkGroupParams.groupSizeAt,
    if_pos hfull]
  omega

theorem activeAt_succ_lane (hmask : mask.getLsbD (p.lane g) = true) :
    p.activeAt mask g (p.lane g + 1) = p.activeAt mask g (p.lane g) ++ [g] := by
  rw [WorkGroupParams.activeAt, filter_take hmask, List.map_append, List.map_singleton,
    Nat.sub_add_cancel (lane_le p g)]
  rfl

/-- **The inclusive scan is the exclusive one and the element.** -/
theorem inclusiveScan_eq (hmask : mask.getLsbD (p.lane g) = true) :
    inclusiveScan p mask operation x g
      = calculate Ty (exclusiveScan p mask operation x g) (x.get g) operation := by
  rw [inclusiveScan, activeAt_succ_lane hmask, foldOver_concat]
  rfl

/-- **The reduction is the inclusive scan of the last active work-item.** -/
theorem reduction_eq_inclusiveScan (hlt : p.lane g < p.subgroupSizeAt g)
    (hlast : ∀ j, p.lane g < j → j < p.subgroupSizeAt g → mask.getLsbD j = false) :
    reduction p mask operation x g = inclusiveScan p mask operation x g := by
  have hfilter : ∀ k, p.lane g + 1 ≤ k → k ≤ p.subgroupSizeAt g →
      (List.range k).filter mask.getLsbD = (List.range (p.lane g + 1)).filter mask.getLsbD := by
    intro k hk
    induction k, hk using Nat.le_induction with
    | base => exact fun _ => rfl
    | succ k hk ih =>
      intro hle
      rw [filter_skip (hlast k (by omega) (by omega)), ih (by omega)]
  rw [reduction, WorkGroupParams.allActiveAt, WorkGroupParams.activeAt, hfilter _ hlt le_rfl]
  rfl

theorem mem_allActiveAt (hlt : p.lane g < p.subgroupSizeAt g)
    (hmask : mask.getLsbD (p.lane g) = true) : g ∈ p.allActiveAt mask g :=
  List.mem_map.mpr ⟨p.lane g, List.mem_filter.mpr ⟨List.mem_range.mpr hlt, hmask⟩,
    Nat.sub_add_cancel (lane_le p g)⟩

theorem activeAt_lane_of_alone (hlt : p.lane g < p.subgroupSizeAt g)
    (hmask : mask.getLsbD (p.lane g) = true) (hone : (p.allActiveAt mask g).length = 1) :
    p.activeAt mask g (p.lane g) = [] := by
  have hsub : ((List.range (p.lane g + 1)).filter mask.getLsbD).Sublist
      ((List.range (p.subgroupSizeAt g)).filter mask.getLsbD) :=
    (List.range_sublist.mpr hlt).filter _
  have hlength := hsub.length_le
  rw [WorkGroupParams.allActiveAt, WorkGroupParams.activeAt, List.length_map] at hone
  rw [filter_take hmask, List.length_append, List.length_singleton, hone] at hlength
  have hnil := List.length_eq_zero_iff.mp (Nat.le_zero.mp (Nat.le_of_succ_le_succ hlength))
  rw [WorkGroupParams.activeAt, hnil, List.map_nil]

theorem inclusiveScan_of_alone (hlt : p.lane g < p.subgroupSizeAt g)
    (hmask : mask.getLsbD (p.lane g) = true) (hone : (p.allActiveAt mask g).length = 1) :
    inclusiveScan p mask operation x g
      = calculate Ty (identifyLimits Ty operation) (x.get g) operation := by
  rw [inclusiveScan_eq hmask, exclusiveScan, activeAt_lane_of_alone hlt hmask hone]
  rfl

/-- **When the target of `SCIN_NU::chk` is the fold.** -/
theorem inclusive_target_iff (hinst : Instantiated Ty operation)
    (hlt : p.lane g < p.subgroupSizeAt g) (hmask : mask.getLsbD (p.lane g) = true) :
    SCIN_NU.target p mask operation x g = inclusiveScan p mask operation x g ↔
      ((p.allActiveAt mask g).length = 1 → operation.isLogical = true →
        x.get g = 0 ∨ x.get g = 1) := by
  rw [SCIN_NU.target]
  by_cases hone : (p.allActiveAt mask g).length = 1
  · rw [if_pos hone, inclusiveScan_of_alone hlt hmask hone, eq_comm, calculate_identity_iff hinst]
    exact ⟨fun h _ => h, fun h => h hone⟩
  · rw [if_neg hone]
    exact iff_of_true rfl fun h => absurd h hone

/-- **When the target of `RED_NU::chk` is the fold.** -/
theorem reduce_target_iff (hinst : Instantiated Ty operation)
    (hlt : p.lane g < p.subgroupSizeAt g) (hmask : mask.getLsbD (p.lane g) = true) :
    RED_NU.target p mask operation x g = reduction p mask operation x g ↔
      ((p.allActiveAt mask g).length = 1 → operation.isLogical = true →
        x.get g = 0 ∨ x.get g = 1) := by
  have hmem := mem_allActiveAt hlt hmask
  by_cases hone : (p.allActiveAt mask g).length = 1
  · obtain ⟨g', hg'⟩ := List.length_eq_one_iff.mp hone
    rw [hg', List.mem_singleton] at hmem
    subst hmem
    rw [RED_NU.target, reduction, hg', eq_comm]
    refine (calculate_identity_iff hinst (x.get g)).trans ?_
    exact ⟨fun h _ => h, fun h => h rfl⟩
  · have hlength : 2 ≤ ((p.allActiveAt mask g).map x.get).length := by
      have hpos := List.length_pos_of_mem hmem
      rw [List.length_map]
      omega
    refine iff_of_true ?_ fun h => absurd h hone
    exact reduceFirst_eq_foldl (calculate_absorb hinst) hlength

theorem forall_targets {y : Buffer (BitVec Ty.bits)} {target : ℕ → BitVec Ty.bits} {N : ℕ} :
    (∀ t ∈ tracesFrom (targetTrace p mask y target) 0 N, ¬ t.Bad) ↔
      ∀ g < N, mask.getLsbD (p.lane g) = true → y.get g = target g := by
  rw [tracesFrom, ← List.range_eq_range']
  simp only [List.mem_flatMap, List.mem_range]
  constructor
  · intro h g hg hmask
    have hmem : Comparison.output g (y.get g) (target g) ∈ targetTrace p mask y target g := by
      rw [targetTrace, if_pos hmask]
      exact List.mem_singleton_self _
    exact not_not.mp (h _ ⟨g, hg, hmem⟩)
  · rintro h t ⟨g, hg, ht⟩
    rw [targetTrace] at ht
    split at ht
    · rw [List.mem_singleton.mp ht]
      exact not_not.mpr (h g hg ‹_›)
    · cases ht

theorem Compares.congr {target target' : ℕ → BitVec Ty.bits} {σ : Type}
    {run : Traced (Comparison Ty) σ} {y : Buffer (BitVec Ty.bits)} (h : Compares p mask run y target)
    (htarget : ∀ g < p.fullGroups * p.localWorkgroupSize, mask.getLsbD (p.lane g) = true →
      target g = target' g) : Compares p mask run y target' := by
  have hL : tracesFrom (targetTrace p mask y target) 0 (p.fullGroups * p.localWorkgroupSize)
      = tracesFrom (targetTrace p mask y target') 0 (p.fullGroups * p.localWorkgroupSize) := by
    refine List.flatMap_congr fun g hg => ?_
    rw [targetTrace, targetTrace]
    split
    · rw [htarget g (by rw [List.mem_range'_1] at hg; omega) ‹_›]
    · rfl
  rw [Compares, ← hL]
  exact h

end

/-! ### One fold -/

section

variable {p : WorkGroupParams} {Ty : CType}

/-- **The verifiers compute one fold** for the inputs `x`. -/
structure FoldsAgree (p : WorkGroupParams) (operation : ArithmeticOp)
    (x : Buffer (BitVec Ty.bits)) : Prop where
  inclusive : ∀ a : Arrays p (BitVec Ty.bits), a.x = x →
    Compares p p.activeMask (SCIN_NU.chk operation a) a.y
      (inclusiveScan p p.activeMask operation x)
  exclusive : ∀ a : Arrays p (BitVec Ty.bits), a.x = x →
    Compares p p.activeMask (SCEX_NU.chk operation a) a.y
      (exclusiveScan p p.activeMask operation x)
  reduce : ∀ a : Arrays p (BitVec Ty.bits), a.x = x →
    Compares p p.activeMask (RED_NU.chk operation a) a.y (reduction p p.activeMask operation x)
  inclusive_eq : ∀ g < p.fullGroups * p.localWorkgroupSize, p.activeMask.getLsbD (p.lane g) = true →
    inclusiveScan p p.activeMask operation x g
      = calculate Ty (exclusiveScan p p.activeMask operation x g) (x.get g) operation
  reduce_eq : ∀ g < p.fullGroups * p.localWorkgroupSize, p.activeMask.getLsbD (p.lane g) = true →
    (∀ j, p.lane g < j → j < p.subgroupSizeAt g → p.activeMask.getLsbD j = false) →
    reduction p p.activeMask operation x g = inclusiveScan p p.activeMask operation x g
  clustered : p.subgroupSize ≤ p.clusterSize → ∃ value : ℕ → BitVec Ty.bits,
    (∀ a : Arrays p (BitVec Ty.bits), a.x = x →
      Checks Comparison.Bad (RED_CLU.chk operation a) (RED_CLU.comparisons a value)) ∧
    ∀ a : Arrays { p with workItemsMask := BitVec.allOnes 128 } (BitVec Ty.bits), a.x = x →
      Compares p (BitVec.allOnes 128) (RED_NU.chk operation a) a.y value

/-- The only active work-item of a sub-group has a number that a logical operation changes. -/
def ChangedAlone (p : WorkGroupParams) (operation : ArithmeticOp) (x : Buffer (BitVec Ty.bits)) :
    Prop :=
  operation.isLogical = true ∧ ∃ g < p.fullGroups * p.localWorkgroupSize,
    p.activeMask.getLsbD (p.lane g) = true ∧ (p.allActiveAt p.activeMask g).length = 1 ∧
      ¬ (x.get g = 0 ∨ x.get g = 1)

/-- Arrays with these inputs and outputs. -/
def Arrays.ofInputs (x : Buffer (BitVec Ty.bits)) (hx : x.size = p.globalWorkgroupSize)
    (y : ℕ → BitVec Ty.bits) : Arrays p (BitVec Ty.bits) where
  x := x
  y := ⟨p.globalWorkgroupSize, y⟩
  m := ⟨4 * p.globalWorkgroupSize, fun _ => 0⟩
  mx := ⟨p.localWorkgroupSize, fun _ => 0⟩
  my := ⟨p.localWorkgroupSize, fun _ => 0⟩
  x_size := hx
  y_size := rfl
  m_size := rfl
  mx_size := rfl
  my_size := rfl

theorem clustered_reduce (hp : p.Valid) (operation : ArithmeticOp) (x : Buffer (BitVec Ty.bits))
    (hcluster : p.subgroupSize ≤ p.clusterSize) : ∃ value : ℕ → BitVec Ty.bits,
    (∀ a : Arrays p (BitVec Ty.bits), a.x = x →
      Checks Comparison.Bad (RED_CLU.chk operation a) (RED_CLU.comparisons a value)) ∧
    ∀ a : Arrays { p with workItemsMask := BitVec.allOnes 128 } (BitVec Ty.bits), a.x = x →
      Compares p (BitVec.allOnes 128) (RED_NU.chk operation a) a.y value := by
  refine ⟨RED_NU.target p (BitVec.allOnes 128) operation x, ?_, ?_⟩
  · rintro a rfl
    exact checks_clustered hp hcluster operation a
  · rintro a rfl
    have hfull : ({ p with workItemsMask := BitVec.allOnes 128 } : WorkGroupParams).activeMask
        = BitVec.allOnes 128 := if_neg (show ¬ BitVec.allOnes 128 = 0 by decide)
    have hp' : ({ p with workItemsMask := BitVec.allOnes 128 } : WorkGroupParams).Valid :=
      ⟨hp.local_pos, hp.local_le, hp.subgroup_pos, hp.subgroup_le⟩
    have hcompares := compares_reduce hp' operation a
    rw [hfull] at hcompares
    exact hcompares

/-- **When the verifiers compute one fold.** -/
theorem foldsAgree_iff (hp : p.Valid) {operation : ArithmeticOp} (hinst : Instantiated Ty operation)
    {x : Buffer (BitVec Ty.bits)} (hx : x.size = p.globalWorkgroupSize) :
    FoldsAgree p operation x ↔ ¬ ChangedAlone p operation x := by
  constructor
  · rintro h ⟨hlogical, g, hg, hmask, hone, hvalue⟩
    -- the outputs that are expected make the verifier come to its end
    have hrun := compares_inclusive hp operation
      (Arrays.ofInputs x hx (SCIN_NU.target p p.activeMask operation x))
    have hok := hrun.ok_iff.mpr (forall_targets.mpr fun _ _ _ => rfl)
    have htarget := forall_targets.mp ((h.inclusive _ rfl).ok_iff.mp hok) g hg hmask
    exact hvalue ((inclusive_target_iff hinst (lane_lt hp hg) hmask).mp htarget hone hlogical)
  · intro h
    have hall : ∀ g < p.fullGroups * p.localWorkgroupSize, p.activeMask.getLsbD (p.lane g) = true →
        (p.allActiveAt p.activeMask g).length = 1 → operation.isLogical = true →
        x.get g = 0 ∨ x.get g = 1 := by
      intro g hg hmask hone hlogical
      by_contra hvalue
      exact h ⟨hlogical, g, hg, hmask, hone, hvalue⟩
    refine ⟨?_, ?_, ?_, fun g _ hmask => inclusiveScan_eq hmask,
      fun g hg _ hlast => reduction_eq_inclusiveScan (lane_lt hp hg) hlast,
      clustered_reduce hp operation x⟩
    · rintro a rfl
      refine Compares.congr (compares_inclusive hp operation a) fun g hg hmask => ?_
      exact (inclusive_target_iff hinst (lane_lt hp hg) hmask).mpr (hall g hg hmask)
    · rintro a rfl
      exact compares_exclusive hp operation a
    · rintro a rfl
      refine Compares.congr (compares_reduce hp operation a) fun g hg hmask => ?_
      exact (reduce_target_iff hinst (lane_lt hp hg) hmask).mpr (hall g hg hmask)

end

/-- Two sub-groups of 2 work-items, whose numbers are 1. -/
theorem foldsAgree_ones : FoldsAgree ⟨4, 4, 2, 2, BitVec.allOnes 128⟩ .logicalAnd
    (⟨4, fun _ => 1⟩ : Buffer (BitVec CType.int.bits)) :=
  (foldsAgree_iff ⟨by decide, by decide, by decide, by decide⟩ (fun _ => rfl) rfl).mpr
    fun ⟨_, _, _, _, _, hvalue⟩ => hvalue (.inr rfl)

/-- One work-item, whose number is 5: `logical_and` takes it to 1, but the verifiers keep it. -/
theorem foldsDisagree_five : ¬ FoldsAgree ⟨1, 1, 1, 1, BitVec.allOnes 128⟩ .logicalAnd
    (⟨1, fun _ => 5⟩ : Buffer (BitVec CType.int.bits)) := by
  intro h
  have hrun := h.inclusive (Arrays.ofInputs ⟨1, fun _ => 5⟩ rfl fun _ => 5) rfl
  have hok : (SCIN_NU.chk .logicalAnd (Arrays.ofInputs (p := ⟨1, 1, 1, 1, BitVec.allOnes 128⟩)
      (⟨1, fun _ => 5⟩ : Buffer (BitVec CType.int.bits)) rfl fun _ => 5)).result.isOk = true := by
    decide
  cases hresult : (SCIN_NU.chk .logicalAnd (Arrays.ofInputs (p := ⟨1, 1, 1, 1, BitVec.allOnes 128⟩)
      (⟨1, fun _ => 5⟩ : Buffer (BitVec CType.int.bits)) rfl fun _ => 5)).result with
  | error e =>
    rw [hresult] at hok
    cases hok
  | ok c =>
    have hfold := forall_targets.mp (hrun.ok_iff.mp ⟨c, hresult⟩) 0 (by decide) (by decide)
    exact absurd hfold (by decide)

end OpenCLCTS.Subgroups
