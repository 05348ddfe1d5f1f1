import Mathlib.Algebra.GroupWithZero.Nat
import OpenCLCTS.Lib.Traced

/-!
# Work-groups and sub-groups

The sub-group tests go over the work-groups of a global size and over the sub-groups of each of
them.  The last work-group may be smaller than the others, and the last sub-group of a work-group
smaller than the others; `set_last_workgroup_params` rewrites the sizes for the last work-group.

* `cut_sizes`, `cut_setLast`: the sizes of the sub-groups of a work-group.
* `subgroupSizes_last`: the sub-groups of the last work-group.
* `spec_eachSubgroup`, `spec_eachWorkGroup`: the rules of the loops, with the trace that each
  work-item leaves.
* `WorkGroupParams.place_eq`: the lane of a work-item and the size of its sub-group.
* `WorkGroupParams.SizesOf.subgroup`: what holds of a sub-group that the loops come to.

Sizes are numbers; the indices of the source do not come near the greatest `int`.
-/

namespace OpenCLCTS.Subgroups

open Traced

/-- What the tests read of `WorkGroupParams`. -/
structure WorkGroupParams where
  globalWorkgroupSize : ℕ
  localWorkgroupSize : ℕ
  subgroupSize : ℕ
  clusterSize : ℕ
  workItemsMask : BitVec 128

/-- The variables that `set_last_workgroup_params` rewrites. -/
structure Sizes where
  numberOfSubgroups : ℕ
  workgroupSize : ℕ
  lastSubgroupSize : ℕ
  deriving DecidableEq

/-- `set_last_workgroup_params`. -/
def setLastWorkgroupParams (nonUniformSize subgroupSize : ℕ) : Sizes where
  numberOfSubgroups := 1 + nonUniformSize / subgroupSize
  workgroupSize := nonUniformSize
  lastSubgroupSize := nonUniformSize % subgroupSize

namespace WorkGroupParams

variable (p : WorkGroupParams)

/-- `non_uniform_size`. -/
def nonUniformSize : ℕ := p.globalWorkgroupSize % p.localWorkgroupSize

/-- The number of full work-groups. -/
def fullGroups : ℕ := p.globalWorkgroupSize / p.localWorkgroupSize

/-- The number of work-groups, with the last one. -/
def allGroups : ℕ := if p.nonUniformSize ≠ 0 then p.fullGroups + 1 else p.fullGroups

/-- The sizes that the loops start with. -/
def sizes : Sizes where
  numberOfSubgroups := (p.localWorkgroupSize + p.subgroupSize - 1) / p.subgroupSize
  workgroupSize := p.localWorkgroupSize
  lastSubgroupSize := 0

end WorkGroupParams

/-- `current_sbs`, which is `n` in some of the tests. -/
def currentSubgroupSize (sbs : ℕ) (z : Sizes) (sbId : ℕ) : ℕ :=
  if z.lastSubgroupSize ≠ 0 ∧ sbId = z.numberOfSubgroups - 1 then z.lastSubgroupSize
  else if z.workgroupSize < sbId * sbs + sbs then z.workgroupSize - sbId * sbs
  else sbs

/-- The sizes of the sub-groups that the loops enumerate. -/
def subgroupSizes (sbs : ℕ) (z : Sizes) : List ℕ :=
  (List.range z.numberOfSubgroups).map (currentSubgroupSize sbs z)

section

variable {τ σ : Type}

/-- `for each subgroup`; `body` gets the offset and the size of the sub-group. -/
def eachSubgroup (sbs : ℕ) (z : Sizes) (body : ℕ → ℕ → σ → Traced τ σ) (s : σ) : Traced τ σ :=
  forRange (fun sbId s => body (sbId * sbs) (currentSubgroupSize sbs z sbId) s) s
    z.numberOfSubgroups

/-- The variables of the loop over the work-groups; `base` is how far the pointers are. -/
structure Cursor (σ : Type) where
  sizes : Sizes
  base : ℕ
  data : σ

/-- One turn of the loop: the sizes are rewritten for the last work-group, if `nonUniformSize` is
not 0. -/
def workGroupTurn (p : WorkGroupParams) (wgNumber nonUniformSize : ℕ)
    (body : Sizes → ℕ → σ → Traced τ σ) (wgId : ℕ) (c : Cursor σ) : Traced τ (Cursor σ) := do
  let z := if nonUniformSize ≠ 0 ∧ wgId = wgNumber - 1 then
      setLastWorkgroupParams nonUniformSize p.subgroupSize
    else c.sizes
  let data ← body z c.base c.data
  pure ⟨z, c.base + z.workgroupSize, data⟩

/-- `for each work_group`, of `wgNumber`. -/
def eachWorkGroup (p : WorkGroupParams) (wgNumber nonUniformSize : ℕ)
    (body : Sizes → ℕ → σ → Traced τ σ) (s : σ) : Traced τ (Cursor σ) :=
  forRange (workGroupTurn p wgNumber nonUniformSize body) ⟨p.sizes, 0, s⟩ wgNumber

end

/-! ### The sizes of sub-groups -/

/-- The sizes of a work-group that is cut into sub-groups of `sbs`. -/
structure Cut (sbs : ℕ) (z : Sizes) : Prop where
  size : ∀ sbId < z.numberOfSubgroups,
    currentSubgroupSize sbs z sbId = min sbs (z.workgroupSize - sbId * sbs)
  covers : z.workgroupSize ≤ z.numberOfSubgroups * sbs

/-- **The work-groups that are not rewritten.** -/
theorem cut_sizes {p : WorkGroupParams} (hs : 0 < p.subgroupSize) : Cut p.subgroupSize p.sizes where
  size sbId _ := by
    have hlast : ¬ (p.sizes.lastSubgroupSize ≠ 0 ∧ sbId = p.sizes.numberOfSubgroups - 1) :=
      fun h => h.1 rfl
    rw [currentSubgroupSize, if_neg hlast]
    split <;> omega
  covers := by
    have hlt := Nat.lt_div_mul_add (a := p.localWorkgroupSize + p.subgroupSize - 1) hs
    show p.localWorkgroupSize
      ≤ (p.localWorkgroupSize + p.subgroupSize - 1) / p.subgroupSize * p.subgroupSize
    omega

/-- **The last work-group.**  If it is a multiple of the sub-group size, its last sub-group is
empty. -/
theorem cut_setLast {r sbs : ℕ} (hs : 0 < sbs) : Cut sbs (setLastWorkgroupParams r sbs) where
  size sbId hlt := by
    have hmod := Nat.mod_lt r hs
    have hdiv := Nat.div_add_mod' r sbs
    have hnumber : (setLastWorkgroupParams r sbs).numberOfSubgroups = 1 + r / sbs := rfl
    have hsize : (setLastWorkgroupParams r sbs).workgroupSize = r := rfl
    have hlast : (setLastWorkgroupParams r sbs).lastSubgroupSize = r % sbs := rfl
    rw [hnumber] at hlt
    rw [currentSubgroupSize, hnumber, hsize, hlast]
    rcases Nat.lt_or_ge sbId (r / sbs) with hfull | hge
    · have hle : (sbId + 1) * sbs ≤ r / sbs * sbs := Nat.mul_le_mul_right sbs hfull
      rw [Nat.succ_mul] at hle
      rw [if_neg (by omega)]
      split <;> omega
    · have heq : sbId = r / sbs := by omega
      subst heq
      split
      · omega
      · split <;> omega
  covers := by
    have hmod := Nat.mod_lt r hs
    have hdiv := Nat.div_add_mod' r sbs
    dsimp only [setLastWorkgroupParams]
    rw [Nat.add_mul]
    omega

/-- **The sub-groups of the last work-group**: full ones, and the remainder, which may be 0. -/
theorem subgroupSizes_last {r sbs : ℕ} (hs : 0 < sbs) :
    subgroupSizes sbs (setLastWorkgroupParams r sbs)
      = List.replicate (r / sbs) sbs ++ [r % sbs] := by
  have hmod := Nat.mod_lt r hs
  have hdiv := Nat.div_add_mod' r sbs
  have hcut := cut_setLast (r := r) hs
  rw [subgroupSizes, show (setLastWorkgroupParams r sbs).numberOfSubgroups = r / sbs + 1 from
    Nat.add_comm _ _, List.range_succ, List.map_append, List.map_singleton]
  congr 1
  · rw [← List.length_range (n := r / sbs), ← List.map_const', List.length_range]
    refine List.map_congr_left ?_
    intro sbId hlt
    rw [List.mem_range] at hlt
    have hle : (sbId + 1) * sbs ≤ r / sbs * sbs := Nat.mul_le_mul_right sbs hlt
    rw [Nat.succ_mul] at hle
    rw [hcut.size sbId (show sbId < 1 + r / sbs by omega)]
    show min sbs (r - sbId * sbs) = sbs
    omega
  · rw [hcut.size (r / sbs) (show r / sbs < 1 + r / sbs by omega)]
    show [min sbs (r - r / sbs * sbs)] = [r % sbs]
    rw [show min sbs (r - r / sbs * sbs) = r % sbs by omega]

theorem sum_subgroupSizes_last {r sbs : ℕ} (hs : 0 < sbs) :
    (subgroupSizes sbs (setLastWorkgroupParams r sbs)).sum = r := by
  rw [subgroupSizes_last hs, List.sum_append, List.sum_replicate_nat, List.sum_singleton]
  exact Nat.div_add_mod' r sbs

/-! ### The rules of the loops -/

section

variable {τ σ : Type} {t : ℕ → List τ} {E : Stop → Prop}

/-- The traces of the `n` work-items from `a` on. -/
def tracesFrom (t : ℕ → List τ) (a n : ℕ) : List τ := (List.range' a n).flatMap t

theorem tracesFrom_zero (t : ℕ → List τ) (a : ℕ) : tracesFrom t a 0 = [] := rfl

theorem flatMap_range_eq (t : ℕ → List τ) (a n : ℕ) :
    (List.range n).flatMap (fun i => t (a + i)) = tracesFrom t a n := by
  rw [tracesFrom, List.range'_eq_map_range, List.flatMap_map]

theorem spec_items {a n : ℕ} {I : ℕ → σ → Prop} {body : ℕ → σ → Traced τ σ}
    (hbody : ∀ i s, i < n → I i s → Spec (body i s) (t (a + i)) (I (i + 1)) E) {s : σ}
    (h0 : I 0 s) : Spec (forRange body s n) (tracesFrom t a n) (I n) E :=
  (Spec.forRange hbody h0).congr (flatMap_range_eq t a n)

theorem tracesFrom_nil (a n : ℕ) : tracesFrom (fun _ => ([] : List τ)) a n = [] := by
  simp [tracesFrom]

theorem tracesFrom_append (t : ℕ → List τ) (a m n : ℕ) :
    tracesFrom t a m ++ tracesFrom t (a + m) n = tracesFrom t a (m + n) := by
  rw [tracesFrom, tracesFrom, tracesFrom, ← List.flatMap_append, List.range'_append_1]

theorem flatMap_subgroups {sbs : ℕ} {z : Sizes} (hcut : Cut sbs z) (t : ℕ → List τ) (base : ℕ)
    {j : ℕ} (hj : j ≤ z.numberOfSubgroups) :
    (List.range j).flatMap (fun sbId =>
        tracesFrom t (base + sbId * sbs) (currentSubgroupSize sbs z sbId))
      = tracesFrom t base (min (j * sbs) z.workgroupSize) := by
  induction j with
  | zero => rw [Nat.zero_mul, Nat.zero_min, tracesFrom_zero, List.range_zero, List.flatMap_nil]
  | succ j ih =>
    rw [List.range_succ, List.flatMap_append, List.flatMap_singleton, ih (by omega),
      hcut.size j hj, Nat.succ_mul]
    rcases Nat.le_total (j * sbs) z.workgroupSize with hle | hle
    · rw [Nat.min_eq_left hle, tracesFrom_append]
      congr 1
      omega
    · rw [show min sbs (z.workgroupSize - j * sbs) = 0 by omega, tracesFrom_zero, List.append_nil]
      congr 1
      omega

/-- **The rule of the loop over the sub-groups.**  The invariant is about the work-items of the
work-group that are done. -/
theorem spec_eachSubgroup {sbs : ℕ} {z : Sizes} (hcut : Cut sbs z) {base : ℕ} {I : ℕ → σ → Prop}
    {body : ℕ → ℕ → σ → Traced τ σ}
    (hbody : ∀ sbId n s, sbId < z.numberOfSubgroups → n = min sbs (z.workgroupSize - sbId * sbs) →
      I (min (sbId * sbs) z.workgroupSize) s →
      Spec (body (sbId * sbs) n s) (tracesFrom t (base + sbId * sbs) n)
        (I (min (sbId * sbs) z.workgroupSize + n)) E) {s : σ} (h0 : I 0 s) :
    Spec (eachSubgroup sbs z body s) (tracesFrom t base z.workgroupSize) (I z.workgroupSize) E := by
  have hloop : Spec (eachSubgroup sbs z body s)
      ((List.range z.numberOfSubgroups).flatMap fun sbId =>
        tracesFrom t (base + sbId * sbs) (currentSubgroupSize sbs z sbId))
      (I (min (z.numberOfSubgroups * sbs) z.workgroupSize)) E := by
    apply Spec.forRange (I := fun sbId => I (min (sbId * sbs) z.workgroupSize))
    · intro sbId s hlt hs
      have hnext : min (sbId * sbs) z.workgroupSize + min sbs (z.workgroupSize - sbId * sbs)
          = min ((sbId + 1) * sbs) z.workgroupSize := by
        rw [Nat.succ_mul]
        omega
      rw [← hnext]
      have hsize := hcut.size sbId hlt
      have hspec := hbody sbId _ s hlt hsize hs
      rwa [hsize] at hspec ⊢
    · rwa [Nat.zero_mul, Nat.zero_min]
  have hcovers := hcut.covers
  rw [flatMap_subgroups hcut t base le_rfl, Nat.min_eq_right hcovers] at hloop
  exact hloop

/-- The sizes of work-group `k` out of `wgNumber`; those of the last one are rewritten if the rest
`r` is not 0. -/
def WorkGroupParams.SizesOf (p : WorkGroupParams) (wgNumber r k : ℕ) (z : Sizes) : Prop :=
  k < wgNumber ∧ (r = 0 ∨ k + 1 < wgNumber) ∧ z = p.sizes ∨
    k + 1 = wgNumber ∧ r ≠ 0 ∧ z = setLastWorkgroupParams r p.subgroupSize

/-- The number of work-items that the loops come to. -/
def WorkGroupParams.covered (p : WorkGroupParams) (wgNumber r : ℕ) : ℕ :=
  if r = 0 then wgNumber * p.localWorkgroupSize else (wgNumber - 1) * p.localWorkgroupSize + r

theorem WorkGroupParams.SizesOf.cut {p : WorkGroupParams} {wgNumber r k : ℕ} {z : Sizes}
    (h : p.SizesOf wgNumber r k z) (hs : 0 < p.subgroupSize) : Cut p.subgroupSize z := by
  rcases h with ⟨_, _, rfl⟩ | ⟨_, _, rfl⟩
  · exact cut_sizes hs
  · exact cut_setLast hs

theorem WorkGroupParams.SizesOf.end_le {p : WorkGroupParams} {wgNumber r k : ℕ} {z : Sizes}
    (h : p.SizesOf wgNumber r k z) (hr : r ≤ p.localWorkgroupSize) :
    z.workgroupSize ≤ p.localWorkgroupSize ∧
      k * p.localWorkgroupSize + z.workgroupSize ≤ p.covered wgNumber r := by
  rcases h with ⟨hk, hlast, rfl⟩ | ⟨hk, hne, rfl⟩
  · refine ⟨le_rfl, ?_⟩
    show k * p.localWorkgroupSize + p.localWorkgroupSize ≤ _
    rw [← Nat.succ_mul, WorkGroupParams.covered]
    split
    · exact Nat.mul_le_mul_right _ hk
    · have hle : (k + 1) * p.localWorkgroupSize ≤ (wgNumber - 1) * p.localWorkgroupSize :=
        Nat.mul_le_mul_right _ (by omega)
      exact hle.trans (Nat.le_add_right _ _)
  · refine ⟨hr, ?_⟩
    rw [WorkGroupParams.covered, if_neg hne, ← hk, Nat.add_sub_cancel]
    exact le_rfl

theorem flatMap_groups (t : ℕ → List τ) (l n : ℕ) :
    (List.range n).flatMap (fun k => tracesFrom t (k * l) l) = tracesFrom t 0 (n * l) := by
  induction n with
  | zero => rw [Nat.zero_mul, List.range_zero, List.flatMap_nil, tracesFrom_zero]
  | succ n ih =>
    rw [List.range_succ, List.flatMap_append, List.flatMap_singleton, ih, Nat.succ_mul,
      ← tracesFrom_append, Nat.zero_add]

theorem spec_eachFullGroup {p : WorkGroupParams} {I : ℕ → σ → Prop} {T : ℕ → List τ}
    {body : Sizes → ℕ → σ → Traced τ σ} {n r : ℕ}
    (hbody : ∀ k s, k < n → I (k * p.localWorkgroupSize) s →
      Spec (body p.sizes (k * p.localWorkgroupSize) s) (T k)
        (I (k * p.localWorkgroupSize + p.localWorkgroupSize)) E)
    {s : σ} (h0 : I 0 s) {wgNumber : ℕ} (hr : r = 0 ∨ n < wgNumber) :
    Spec (forRange (workGroupTurn p wgNumber r body) ⟨p.sizes, 0, s⟩ n)
      ((List.range n).flatMap T)
      (fun c => c.sizes = p.sizes ∧ c.base = n * p.localWorkgroupSize ∧
        I (n * p.localWorkgroupSize) c.data) E := by
  induction n with
  | zero =>
    rw [Nat.zero_mul]
    exact .pure ⟨rfl, rfl, h0⟩
  | succ n ih =>
    rw [List.range_succ, List.flatMap_append, List.flatMap_singleton, Nat.succ_mul]
    refine (ih (fun k s hk => hbody k s (by omega)) (by omega)).bind ?_
    rintro ⟨z, base, data⟩ ⟨hz, hbase, hI⟩
    dsimp only at hz hbase hI
    subst hz hbase
    have hif : ¬ (r ≠ 0 ∧ n = wgNumber - 1) := by omega
    rw [workGroupTurn, if_neg hif]
    exact (hbody n data (Nat.lt_succ_self n) hI).bind_silent fun data' h => .pure ⟨rfl, rfl, h⟩

/-- **The rule of the loop over the work-groups.**  The invariant is about the work-items that are
done. -/
theorem spec_eachWorkGroup {p : WorkGroupParams} {wgNumber r : ℕ} (hr : r = 0 ∨ 0 < wgNumber)
    {I : ℕ → σ → Prop} {body : Sizes → ℕ → σ → Traced τ σ}
    (hbody : ∀ k z s, p.SizesOf wgNumber r k z → I (k * p.localWorkgroupSize) s →
      Spec (body z (k * p.localWorkgroupSize) s)
        (tracesFrom t (k * p.localWorkgroupSize) z.workgroupSize)
        (I (k * p.localWorkgroupSize + z.workgroupSize)) E)
    {s : σ} (h0 : I 0 s) :
    Spec (eachWorkGroup p wgNumber r body s) (tracesFrom t 0 (p.covered wgNumber r))
      (fun c => I (p.covered wgNumber r) c.data) E := by
  rw [eachWorkGroup, WorkGroupParams.covered]
  by_cases hzero : r = 0
  · rw [if_pos hzero, ← flatMap_groups]
    refine (spec_eachFullGroup (I := I) ?_ h0 (.inl hzero)).imp ?_
    · intro k s hk hs
      exact hbody k p.sizes s (.inl ⟨hk, .inl hzero, rfl⟩) hs
    · rintro c ⟨_, _, hI⟩
      exact hI
  · obtain ⟨n, rfl⟩ : ∃ n, wgNumber = n + 1 := ⟨wgNumber - 1, by omega⟩
    rw [if_neg hzero, Nat.add_sub_cancel, ← tracesFrom_append, Nat.zero_add, ← flatMap_groups]
    refine Spec.bind (spec_eachFullGroup (n := n) (I := I) ?_ h0 (.inr (Nat.lt_succ_self n))) ?_
    · intro k s hk hs
      exact hbody k p.sizes s (.inl ⟨by omega, .inr (by omega), rfl⟩) hs
    · rintro ⟨z, base, data⟩ ⟨hz, hbase, hI⟩
      dsimp only at hz hbase hI
      subst hz hbase
      rw [workGroupTurn, if_pos ⟨hzero, rfl⟩]
      exact (hbody n _ data (.inr ⟨rfl, hzero, rfl⟩) hI).bind_silent fun data' h => .pure h

end

section

variable {p : WorkGroupParams}

theorem WorkGroupParams.nonUniformSize_le (hl : 0 < p.localWorkgroupSize) :
    p.nonUniformSize ≤ p.localWorkgroupSize :=
  (Nat.mod_lt _ hl).le

/-- **All work-items are covered if the last work-group is counted.** -/
theorem WorkGroupParams.covered_allGroups :
    p.covered p.allGroups p.nonUniformSize = p.globalWorkgroupSize := by
  have hsum : p.fullGroups * p.localWorkgroupSize + p.nonUniformSize = p.globalWorkgroupSize :=
    Nat.div_add_mod' _ _
  rw [WorkGroupParams.covered, WorkGroupParams.allGroups]
  by_cases hr : p.nonUniformSize = 0
  · rw [if_pos hr, if_neg (not_not.mpr hr)]
    omega
  · rw [if_neg hr, if_pos hr, Nat.add_sub_cancel, hsum]

theorem WorkGroupParams.covered_fullGroups :
    p.covered p.fullGroups 0 = p.fullGroups * p.localWorkgroupSize := if_pos rfl

theorem WorkGroupParams.allGroups_pos (h : p.nonUniformSize ≠ 0) : 0 < p.allGroups := by
  rw [WorkGroupParams.allGroups, if_pos h]
  exact Nat.succ_pos _

/-- A sub-group begins inside of the work-groups, and may only be empty in the last one. -/
theorem WorkGroupParams.SizesOf.offset_le {wgNumber r k sbId : ℕ} {z : Sizes}
    (h : p.SizesOf wgNumber r k z) (hs : 0 < p.subgroupSize) (hr : r < p.localWorkgroupSize)
    (hlt : sbId < z.numberOfSubgroups) : sbId * p.subgroupSize < p.localWorkgroupSize ∧
      (sbId * p.subgroupSize < z.workgroupSize ∨
        sbId * p.subgroupSize = z.workgroupSize ∧ r ≠ 0 ∧ p.subgroupSize ∣ r) := by
  rcases h with ⟨_, _, rfl⟩ | ⟨_, hne, rfl⟩
  · have hle : (sbId + 1) * p.subgroupSize
        ≤ (p.localWorkgroupSize + p.subgroupSize - 1) / p.subgroupSize * p.subgroupSize :=
      Nat.mul_le_mul_right _ hlt
    have hdiv := Nat.div_mul_le_self (p.localWorkgroupSize + p.subgroupSize - 1) p.subgroupSize
    have hoffset : sbId * p.subgroupSize < p.localWorkgroupSize := by
      rw [Nat.succ_mul] at hle
      omega
    exact ⟨hoffset, .inl hoffset⟩
  · have hle : sbId ≤ r / p.subgroupSize := by
      have hlt' : sbId < 1 + r / p.subgroupSize := hlt
      omega
    have hmul : sbId * p.subgroupSize ≤ r / p.subgroupSize * p.subgroupSize :=
      Nat.mul_le_mul_right _ hle
    have hdiv := Nat.div_mul_le_self r p.subgroupSize
    refine ⟨by omega, ?_⟩
    show sbId * p.subgroupSize < r ∨ sbId * p.subgroupSize = r ∧ _
    rcases Nat.lt_or_ge (sbId * p.subgroupSize) r with hoffset | hge
    · exact .inl hoffset
    · have heq : sbId * p.subgroupSize = r := by omega
      exact .inr ⟨heq, hne, ⟨sbId, heq.symm.trans (Nat.mul_comm _ _)⟩⟩

/-! ### The place of a work-item -/

/-- The lane of a work-item. -/
def WorkGroupParams.lane (p : WorkGroupParams) (g : ℕ) : ℕ :=
  g % p.localWorkgroupSize % p.subgroupSize

/-- The first work-item of the sub-group of a work-item. -/
def WorkGroupParams.start (p : WorkGroupParams) (g : ℕ) : ℕ := g - p.lane g

/-- The size of the work-group of a work-item. -/
def WorkGroupParams.groupSizeAt (p : WorkGroupParams) (g : ℕ) : ℕ :=
  if g / p.localWorkgroupSize < p.fullGroups then p.localWorkgroupSize else p.nonUniformSize

/-- The size of the sub-group of a work-item. -/
def WorkGroupParams.subgroupSizeAt (p : WorkGroupParams) (g : ℕ) : ℕ :=
  min p.subgroupSize
    (p.groupSizeAt g - g % p.localWorkgroupSize / p.subgroupSize * p.subgroupSize)

/-- Work-group `k` has its true size: the full one, or that of the last work-group. -/
def WorkGroupParams.TrueSizes (p : WorkGroupParams) (k : ℕ) (z : Sizes) : Prop :=
  k < p.fullGroups ∧ z.workgroupSize = p.localWorkgroupSize ∨
    k = p.fullGroups ∧ z.workgroupSize = p.nonUniformSize

theorem WorkGroupParams.SizesOf.trueSizes {k : ℕ} {z : Sizes}
    (h : p.SizesOf p.allGroups p.nonUniformSize k z) : p.TrueSizes k z := by
  rw [WorkGroupParams.SizesOf, WorkGroupParams.allGroups] at h
  rcases h with ⟨hk, hlast, rfl⟩ | ⟨hk, hne, rfl⟩
  · refine .inl ⟨?_, rfl⟩
    split at hk
    · rw [if_pos ‹_›] at hlast
      omega
    · exact hk
  · refine .inr ⟨?_, rfl⟩
    rw [if_pos hne] at hk
    omega

theorem WorkGroupParams.SizesOf.trueSizes_full {k : ℕ} {z : Sizes}
    (h : p.SizesOf p.fullGroups 0 k z) : p.TrueSizes k z := by
  rcases h with ⟨hk, _, rfl⟩ | ⟨_, hne, _⟩
  · exact .inl ⟨hk, rfl⟩
  · exact absurd rfl hne

/-- **The place of the work-items that the loops come to.** -/
theorem WorkGroupParams.place_eq {k sbId i : ℕ} {z : Sizes} (hz : p.TrueSizes k z)
    (hl : 0 < p.localWorkgroupSize)
    (hi : i < min p.subgroupSize (z.workgroupSize - sbId * p.subgroupSize)) :
    p.lane (k * p.localWorkgroupSize + sbId * p.subgroupSize + i) = i ∧
      p.subgroupSizeAt (k * p.localWorkgroupSize + sbId * p.subgroupSize + i)
        = min p.subgroupSize (z.workgroupSize - sbId * p.subgroupSize) := by
  have hr := WorkGroupParams.nonUniformSize_le hl
  have hle : z.workgroupSize ≤ p.localWorkgroupSize := by
    rcases hz with ⟨_, h⟩ | ⟨_, h⟩ <;> omega
  have hw : sbId * p.subgroupSize + i < p.localWorkgroupSize := by omega
  have hi' : i < p.subgroupSize := by omega
  have hmod : (k * p.localWorkgroupSize + sbId * p.subgroupSize + i) % p.localWorkgroupSize
      = sbId * p.subgroupSize + i := by
    rw [Nat.add_assoc, Nat.mul_add_mod', Nat.mod_eq_of_lt hw]
  have hdiv : (k * p.localWorkgroupSize + sbId * p.subgroupSize + i) / p.localWorkgroupSize = k := by
    rw [Nat.add_assoc, Nat.mul_comm k, Nat.mul_add_div hl, Nat.div_eq_of_lt hw, Nat.add_zero]
  have hlane : (sbId * p.subgroupSize + i) / p.subgroupSize = sbId := by
    rw [Nat.mul_comm sbId, Nat.mul_add_div (by omega), Nat.div_eq_of_lt hi', Nat.add_zero]
  constructor
  · rw [WorkGroupParams.lane, hmod, Nat.mul_add_mod', Nat.mod_eq_of_lt hi']
  · rw [WorkGroupParams.subgroupSizeAt, WorkGroupParams.groupSizeAt, hmod, hdiv, hlane]
    rcases hz with ⟨hk, h⟩ | ⟨hk, h⟩
    · rw [if_pos hk, h]
    · rw [if_neg (by omega), h]

/-- The loops count every work-group, or only the full ones. -/
def WorkGroupParams.Counted (p : WorkGroupParams) (wgNumber r : ℕ) : Prop :=
  wgNumber = p.allGroups ∧ r = p.nonUniformSize ∨ wgNumber = p.fullGroups ∧ r = 0

theorem WorkGroupParams.Counted.covered_le {wgNumber r : ℕ} (h : p.Counted wgNumber r) :
    p.covered wgNumber r ≤ p.globalWorkgroupSize := by
  rcases h with ⟨rfl, rfl⟩ | ⟨rfl, rfl⟩
  · exact WorkGroupParams.covered_allGroups.le
  · rw [WorkGroupParams.covered_fullGroups]
    exact Nat.div_mul_le_self _ _

theorem WorkGroupParams.Counted.pos {wgNumber r : ℕ} (h : p.Counted wgNumber r) :
    r = 0 ∨ 0 < wgNumber := by
  rcases h with ⟨rfl, rfl⟩ | ⟨rfl, rfl⟩
  · by_cases hr : p.nonUniformSize = 0
    · exact .inl hr
    · exact .inr (WorkGroupParams.allGroups_pos hr)
  · exact .inl rfl

theorem WorkGroupParams.Counted.lt {wgNumber r : ℕ} (h : p.Counted wgNumber r)
    (hl : 0 < p.localWorkgroupSize) : r < p.localWorkgroupSize := by
  rcases h with ⟨rfl, rfl⟩ | ⟨rfl, rfl⟩
  · exact Nat.mod_lt _ hl
  · exact hl

/-- A sub-group of `n` that the loops come to. -/
structure WorkGroupParams.Subgroup (p : WorkGroupParams) (wgNumber r base offset n : ℕ) :
    Prop where
  start : base + offset < wgNumber * p.localWorkgroupSize
  size_le : n ≤ p.subgroupSize
  empty : n = 0 → r ≠ 0 ∧ p.subgroupSize ∣ r
  within : ∀ i < n, base + offset + i < p.covered wgNumber r
  inGroup : ∀ i < n, offset + i < p.localWorkgroupSize
  place : p.Counted wgNumber r → ∀ i < n,
    p.lane (base + offset + i) = i ∧ p.subgroupSizeAt (base + offset + i) = n

/-- **The sub-groups that the loops come to.** -/
theorem WorkGroupParams.SizesOf.subgroup {wgNumber r k sbId : ℕ} {z : Sizes}
    (hz : p.SizesOf wgNumber r k z) (hsbs : 0 < p.subgroupSize) (hr : r < p.localWorkgroupSize)
    (hlt : sbId < z.numberOfSubgroups) :
    p.Subgroup wgNumber r (k * p.localWorkgroupSize) (sbId * p.subgroupSize)
      (min p.subgroupSize (z.workgroupSize - sbId * p.subgroupSize)) := by
  obtain ⟨hoffset, hempty⟩ := hz.offset_le hsbs hr hlt
  obtain ⟨hwg, hend⟩ := hz.end_le hr.le
  have hk : k < wgNumber := by
    rcases hz with ⟨h, _⟩ | ⟨h, _⟩ <;> omega
  have hstart : (k + 1) * p.localWorkgroupSize ≤ wgNumber * p.localWorkgroupSize :=
    Nat.mul_le_mul_right _ hk
  rw [Nat.succ_mul] at hstart
  refine ⟨by omega, by omega, fun hn => ?_, fun i h => by omega, fun i h => by omega,
    fun hcounted i h => ?_⟩
  · rcases hempty with hlt | ⟨_, hne⟩
    · omega
    · exact hne
  · rcases hcounted with ⟨rfl, rfl⟩ | ⟨rfl, rfl⟩
    · exact WorkGroupParams.place_eq hz.trueSizes (by omega) h
    · exact WorkGroupParams.place_eq hz.trueSizes_full (by omega) h

end

end OpenCLCTS.Subgroups
