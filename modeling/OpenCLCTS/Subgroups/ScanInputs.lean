import OpenCLCTS.Subgroups.Generators
import OpenCLCTS.Subgroups.Scans

/-!
# The inputs of scans and reductions

`generate_inputs` draws a number below `32 * n` for each lane of a sub-group of `n`, and keeps it for
a logical operation only if its bit 32 is set.

* `spec_generateFilled`: what the sub-groups are filled with gets into the inputs.
* `logicalInputs_zero`: the inputs of logical operations are 0.
* `zeroOutputs_accepted`: a device that always gives 0 is accepted.
* `logicalInputs_never_vary`: no random numbers give a lane a number that is not 0.
-/

namespace OpenCLCTS.Subgroups

open Conversions Traced

section

variable {Ty : Type}

/-- `safe_values`; `shuffle` is `std::shuffle`. -/
def fillAndShuffleSafeValues (shuffle : List (BitVec 64) → List (BitVec 64)) (sbSize : ℕ) :
    List (BitVec 64) :=
  let nonOneValues : List (BitVec 64) := [2, 3, 4, 5, 6]
  if sbSize ≤ nonOneValues.length then shuffle (nonOneValues.take sbSize)
  else shuffle (nonOneValues ++ List.replicate (sbSize - nonOneValues.length) 1)

/-- `out_value` for lane `i` of `n`. -/
def outValue (operation : ArithmeticOp) (safeValues : List (BitVec 64)) (stream : ℕ → BitVec 32)
    (n i : ℕ) (s : GenState Ty) : Silent (BitVec 64 × GenState Ty) :=
  if operation = .mul ∨ operation = .add then
    match safeValues[i]? with
    | some v => pure (v, s)
    | none => stop .outside
  else do
    let (r, s) ← genrandInt64 stream s
    let v ← remainder r.toNat (32 * n)
    let v := BitVec.ofNat 64 v
    pure (if operation.isLogical = true ∧ (v >>> 32) &&& 1 = 0 then 0 else v, s)

def generateSubgroup (operation : ArithmeticOp) (setValue : Ty → BitVec 64 → Ty)
    (safeValues : List (BitVec 64)) (stream : ℕ → BitVec 32) (_base offset n : ℕ)
    (s : GenState Ty) : Silent (GenState Ty) :=
  forRange (fun i s => do
    let (v, s) ← outValue operation safeValues stream n i s
    let old ← s.t.read (offset + i)
    let t ← s.t.write (offset + i) (setValue old v)
    pure { s with t := t }) s n

/-- `generate_inputs`, as the generators of scans and reductions call it. -/
def generateInputs (p : WorkGroupParams) (operation : ArithmeticOp)
    (setValue : Ty → BitVec 64 → Ty) (shuffle : List (BitVec 64) → List (BitVec 64))
    (stream : ℕ → BitVec 32) (s : GenState Ty) : Silent (Cursor (GenState Ty)) :=
  generateGroups p p.fullGroups 0 (generateSubgroup operation setValue
    (if operation = .mul ∨ operation = .add then
      fillAndShuffleSafeValues shuffle p.subgroupSize else []) stream) s

end

/-- `set_value` for `cl_int`. -/
def setInt (_old : BitVec CType.int.bits) (v : BitVec 64) : BitVec CType.int.bits := v.setWidth 32

/-! ### What gets into the inputs -/

section

variable {p : WorkGroupParams} {Ty : Type} {E : Stop → Prop} {V : Ty → Prop}

theorem spec_copyFilled {base n : ℕ} {s : GenState Ty} (hn : n ≤ p.localWorkgroupSize)
    (hbase : base + n ≤ p.globalWorkgroupSize) (hs : Sized p s)
    (hx : ∀ g < base, V (s.x.get g)) (ht : ∀ j < n, V (s.t.get j)) :
    Spec (copyGroup base n s) [] (fun s' => Sized p s' ∧ ∀ g < base + n, V (s'.x.get g)) E := by
  refine Spec.imp (Q := fun s' => Sized p s' ∧ s'.t = s.t ∧ ∀ g < base + n, V (s'.x.get g))
    (Spec.forRange_silent (I := fun j s' =>
      Sized p s' ∧ s'.t = s.t ∧ ∀ g < base + j, V (s'.x.get g)) ?_ ⟨hs, rfl, hx⟩)
    fun s' h => ⟨h.1, h.2.2⟩
  rintro j s' hj ⟨hs', ht', hx'⟩
  have htj : j < s'.t.size := by
    rw [hs'.t_size]
    omega
  have hxj : base + j < s'.x.size := by
    rw [hs'.x_size]
    omega
  refine (Buffer.spec_read htj).silent_bind ?_
  intro v hv
  rw [ht'] at hv
  subst hv
  refine (Buffer.spec_write hxj).silent_bind ?_
  rintro x rfl
  refine .pure ⟨⟨hs'.x_size, hs'.t_size, hs'.m_size⟩, ht', ?_⟩
  intro g hg
  have hcases : g < base + j ∨ g = base + j := by omega
  show V ((s'.x.set (base + j) (s.t.get j)).get g)
  rcases hcases with hlt | rfl
  · rw [Buffer.set_get_of_ne hlt.ne]
    exact hx' g hlt
  · rw [Buffer.set_get_self]
    exact ht j hj

/-- **What the sub-groups are filled with gets into the inputs.** -/
theorem spec_generateFilled {wgNumber r : ℕ} (hcounted : p.Counted wgNumber r)
    (hlocal : 0 < p.localWorkgroupSize) (hsbs : 0 < p.subgroupSize)
    {gen : ℕ → ℕ → ℕ → GenState Ty → Silent (GenState Ty)}
    (hgen : ∀ base offset n s, p.Subgroup wgNumber r base offset n → Sized p s →
      (∀ j < offset, V (s.t.get j)) → Spec (gen base offset n s) []
        (fun s' => Sized p s' ∧ s'.x = s.x ∧ ∀ j < offset + n, V (s'.t.get j)) E)
    {s : GenState Ty} (hs : Sized p s) :
    Spec (generateGroups p wgNumber r gen s) []
      (fun c => ∀ g < p.covered wgNumber r, V (c.data.x.get g)) E := by
  have hr := hcounted.lt hlocal
  rw [← tracesFrom_nil 0 (p.covered wgNumber r)]
  refine Spec.imp (spec_eachWorkGroup hcounted.pos
    (I := fun d s => Sized p s ∧ ∀ g < d, V (s.x.get g)) ?_
    ⟨hs, fun g hg => absurd hg (Nat.not_lt_zero g)⟩) fun c hc => hc.2
  rintro k z s hz ⟨hs, hx⟩
  obtain ⟨hwg, hend⟩ := hz.end_le hr.le
  refine Spec.bind_silent (spec_eachSubgroup (hz.cut hsbs)
    (I := fun d s' => Sized p s' ∧ s'.x = s.x ∧ ∀ j < d, V (s'.t.get j)) ?_
    ⟨hs, rfl, fun j hj => absurd hj (Nat.not_lt_zero j)⟩) ?_
  · rintro sbId n s' hlt rfl ⟨hs', hx', ht'⟩
    have hle : sbId * p.subgroupSize ≤ z.workgroupSize := by
      rcases (hz.offset_le hsbs hr hlt).2 with h | ⟨h, _⟩ <;> omega
    rw [Nat.min_eq_left hle] at ht' ⊢
    rw [tracesFrom_nil, ← hx']
    exact hgen _ _ _ s' (hz.subgroup hsbs hr hlt) hs' ht'
  · rintro s' ⟨hs', hx', ht'⟩
    exact spec_copyFilled hwg (hend.trans hcounted.covered_le) hs' (hx' ▸ hx) ht'

end

/-! ### Logical operations -/

section

variable {p : WorkGroupParams} {operation : ArithmeticOp} {stream : ℕ → BitVec 32}
  {E : Stop → Prop}

/-- **A number below `32 * n` has no bit 32.** -/
theorem bit_eq_zero {n v : ℕ} (hn : n ≤ 2 ^ 20) (hv : v < 32 * n) :
    (BitVec.ofNat 64 v >>> 32) &&& 1 = 0 := by
  have hzero : BitVec.ofNat 64 v >>> 32 = 0 := by
    apply BitVec.eq_of_toNat_eq
    rw [BitVec.toNat_ushiftRight, BitVec.toNat_ofNat, Nat.shiftRight_eq_div_pow]
    show v % 2 ^ 64 / 2 ^ 32 = 0
    omega
  rw [hzero]
  rfl

theorem spec_outValue {Ty : Type} (hlogical : operation.isLogical = true) {n i : ℕ} (hn : 0 < n)
    (hle : n ≤ 2 ^ 20) (safeValues : List (BitVec 64)) {s : GenState Ty} (hs : Sized p s) :
    Spec (outValue operation safeValues stream n i s) []
      (fun r => r.1 = 0 ∧ Sized p r.2 ∧ r.2.x = s.x ∧ r.2.t = s.t) E := by
  have hneither : ¬ (operation = .mul ∨ operation = .add) := by
    rintro (rfl | rfl) <;> cases hlogical
  have hdraw : Spec (genrandInt64 stream s) []
      (fun r => Sized p r.2 ∧ r.2.x = s.x ∧ r.2.t = s.t) E :=
    .pure ⟨⟨hs.x_size, hs.t_size, hs.m_size⟩, rfl, rfl⟩
  rw [outValue, if_neg hneither]
  refine hdraw.silent_bind ?_
  rintro ⟨r, s'⟩ ⟨hs', hx, ht⟩
  refine (spec_remainder (by omega)).silent_bind ?_
  intro v hv
  exact .pure ⟨if_pos ⟨hlogical, bit_eq_zero hle hv⟩, hs', hx, ht⟩

/-- **The inputs of logical operations are 0**, for all random numbers. -/
theorem logicalInputs_zero (hlocal : 0 < p.localWorkgroupSize) (hsbs : 0 < p.subgroupSize)
    (hle : p.subgroupSize ≤ 2 ^ 20) (hlogical : operation.isLogical = true)
    (shuffle : List (BitVec 64) → List (BitVec 64)) (stream : ℕ → BitVec 32)
    {s : GenState (BitVec CType.int.bits)} (hs : Sized p s) :
    Spec (generateInputs p operation setInt shuffle stream s) []
      (fun c => ∀ g < p.fullGroups * p.localWorkgroupSize, c.data.x.get g = 0) E := by
  rw [← WorkGroupParams.covered_fullGroups]
  apply spec_generateFilled (V := (· = 0)) (.inr ⟨rfl, rfl⟩) hlocal hsbs ?_ hs
  intro base offset n s hsub hs ht
  have hn : 0 < n := Nat.pos_of_ne_zero fun hn => (hsub.empty hn).1 rfl
  apply Spec.forRange_silent (I := fun i s' =>
    Sized p s' ∧ s'.x = s.x ∧ ∀ j < offset + i, s'.t.get j = 0)
  · rintro i s₁ hi ⟨hs₁, hx₁, ht₁⟩
    have hn_le := hsub.size_le.trans hle
    refine (spec_outValue hlogical hn hn_le _ hs₁).silent_bind ?_
    rintro ⟨v, s₂⟩ ⟨hv, hs₂, hx₂, ht₂⟩
    dsimp only at hv hs₂ hx₂ ht₂ ⊢
    subst hv
    have hti : offset + i < s₂.t.size := by
      rw [hs₂.t_size]
      exact hsub.inGroup i hi
    refine (Buffer.spec_read hti).silent_bind ?_
    intro old _
    refine (Buffer.spec_write hti).silent_bind ?_
    rintro t rfl
    refine .pure ⟨⟨hs₂.x_size, hs₂.t_size, hs₂.m_size⟩, hx₂.trans hx₁, ?_⟩
    intro j hj
    have hcases : j < offset + i ∨ j = offset + i := by omega
    show (s₂.t.set (offset + i) 0).get j = 0
    rcases hcases with hlt | rfl
    · rw [Buffer.set_get_of_ne hlt.ne, ht₂]
      exact ht₁ j hlt
    · exact Buffer.set_get_self ..
  · exact ⟨hs, rfl, ht⟩

theorem lt_of_mem_allActiveAt (hp : p.Valid) {mask : BitVec 128} {g g' : ℕ}
    (hg : g < p.fullGroups * p.localWorkgroupSize) (hg' : g' ∈ p.allActiveAt mask g) :
    g' < p.fullGroups * p.localWorkgroupSize := by
  obtain ⟨j, hj, rfl⟩ := List.mem_map.mp hg'
  have hlt := List.mem_range.mp (List.mem_of_mem_filter hj)
  have hfull : g / p.localWorkgroupSize < p.fullGroups :=
    Nat.div_lt_of_lt_mul (by rwa [Nat.mul_comm])
  have hend : (g / p.localWorkgroupSize + 1) * p.localWorkgroupSize
      ≤ p.fullGroups * p.localWorkgroupSize := Nat.mul_le_mul_right _ hfull
  have hgroup := Nat.div_add_mod' g p.localWorkgroupSize
  have hsub := Nat.div_add_mod' (g % p.localWorkgroupSize) p.subgroupSize
  have hmod := Nat.mod_lt g hp.local_pos
  rw [WorkGroupParams.subgroupSizeAt, WorkGroupParams.groupSizeAt, if_pos hfull] at hlt
  rw [Nat.succ_mul] at hend
  rw [WorkGroupParams.lane]
  omega

theorem reduceOver_zero {x : Buffer (BitVec CType.int.bits)} (gs : List ℕ)
    (hx : ∀ g ∈ gs, x.get g = 0) : reduceOver .logicalOr x gs = 0 := by
  induction gs using List.reverseRecOn with
  | nil => rfl
  | append_singleton gs g ih =>
    have hg : x.get g = 0 := hx g (List.mem_append_right gs (List.mem_singleton_self g))
    by_cases hnil : gs = []
    · rw [hnil]
      exact hg
    · rw [reduceOver_concat _ _ hnil, ih fun g' hg' => hx g' (List.mem_append_left _ hg'), hg]
      rfl

/-- **A device that always gives 0 is accepted** by the verifier of `logical_or`. -/
theorem zeroOutputs_accepted (hp : p.Valid) (a : Arrays p (BitVec CType.int.bits))
    (hx : ∀ g < p.fullGroups * p.localWorkgroupSize, a.x.get g = 0)
    (hy : ∀ g < p.fullGroups * p.localWorkgroupSize, a.y.get g = 0) :
    ∃ c, (RED_NU.chk .logicalOr a).result = .ok c := by
  refine (compares_reduce hp .logicalOr a).ok_iff.mpr (forall_targets.mpr fun g hg _ => ?_)
  rw [hy g hg, RED_NU.target, reduceOver_zero]
  exact fun g' hg' => hx g' (lt_of_mem_allActiveAt hp hg hg')

end

/-- **The inputs of a lane vary**: for some random numbers one is not 0, and for some it is 0. -/
structure InputsVary (p : WorkGroupParams) (operation : ArithmeticOp)
    (shuffle : List (BitVec 64) → List (BitVec 64)) (lane : ℕ) : Prop where
  nonzero : ∃ (stream : ℕ → BitVec 32) (s : GenState (BitVec CType.int.bits))
    (c : Cursor (GenState (BitVec CType.int.bits))) (g : ℕ), Sized p s ∧
    (generateInputs p operation setInt shuffle stream s).result = .ok c ∧
    g < p.fullGroups * p.localWorkgroupSize ∧ p.lane g = lane ∧ c.data.x.get g ≠ 0
  zero : ∃ (stream : ℕ → BitVec 32) (s : GenState (BitVec CType.int.bits))
    (c : Cursor (GenState (BitVec CType.int.bits))) (g : ℕ), Sized p s ∧
    (generateInputs p operation setInt shuffle stream s).result = .ok c ∧
    g < p.fullGroups * p.localWorkgroupSize ∧ p.lane g = lane ∧ c.data.x.get g = 0

theorem not_inputsVary {p : WorkGroupParams} (hlocal : 0 < p.localWorkgroupSize)
    (hsbs : 0 < p.subgroupSize) (hle : p.subgroupSize ≤ 2 ^ 20) {operation : ArithmeticOp}
    (hlogical : operation.isLogical = true) (shuffle : List (BitVec 64) → List (BitVec 64))
    (lane : ℕ) : ¬ InputsVary p operation shuffle lane := by
  rintro ⟨⟨stream, s, c, g, hs, hc, hg, _, hne⟩, _⟩
  have hspec := logicalInputs_zero (E := fun _ => False) hlocal hsbs hle hlogical shuffle stream hs
  exact hne ((hspec.ok c hc).2 g hg)

/-- **The inputs of logical operations never vary**, so that the verifier of `logical_or` accepts a
device that always gives 0. -/
theorem logicalInputs_never_vary {p : WorkGroupParams} (hlocal : 1 ≤ p.localWorkgroupSize)
    (hsbs : 2 ≤ p.subgroupSize) (hle : p.subgroupSize ≤ 2 ^ 20) {operation : ArithmeticOp}
    (hlogical : operation.isLogical = true) (shuffle : List (BitVec 64) → List (BitVec 64))
    (lane : ℕ) : ¬ InputsVary p operation shuffle lane ∧
      ∀ (stream : ℕ → BitVec 32) (s : GenState (BitVec CType.int.bits))
        (c : Cursor (GenState (BitVec CType.int.bits))) (a : Arrays p (BitVec CType.int.bits)),
        p.Valid → Sized p s → (generateInputs p operation setInt shuffle stream s).result = .ok c →
        a.x = c.data.x → (∀ g < p.fullGroups * p.localWorkgroupSize, a.y.get g = 0) →
        ∃ c', (RED_NU.chk .logicalOr a).result = .ok c' := by
  refine ⟨not_inputsVary hlocal (by omega) hle hlogical shuffle lane, ?_⟩
  intro stream s c a hp hs hc hx hy
  have hspec := logicalInputs_zero (E := fun _ => False) hlocal (by omega) hle
    hlogical shuffle stream hs
  refine zeroOutputs_accepted hp a ?_ hy
  rw [hx]
  exact (hspec.ok c hc).2

/-- 8 work-items in groups of 4, with sub-groups of 4. -/
theorem logicalOr_never_varies :
    ¬ InputsVary ⟨8, 4, 4, 4, BitVec.allOnes 128⟩ .logicalOr id 0 :=
  (logicalInputs_never_vary (by decide) (by decide) (by decide) rfl id 0).1

/-- 4 work-items in one sub-group. -/
theorem logicalAnd_not_varying :
    ¬ InputsVary ⟨4, 4, 4, 4, BitVec.allOnes 128⟩ .logicalAnd id 3 :=
  not_inputsVary (by decide) (by decide) (by decide) rfl id 3

end OpenCLCTS.Subgroups
