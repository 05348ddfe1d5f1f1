import OpenCLCTS.Subgroups.Verifiers

/-!
# The generators of ballots and broadcasts

A generator fills the inputs of a work-group through a scratch array and stores the indices that the
lanes take.  Its random numbers are a stream of draws; a remainder by 0 stops it.

* `spec_generateGroups`: the rule of the loops that the generators share.
* `total_broadcast`: the indices that `BC::gen` stores are lanes of the right half.
* `ends_at_last`: the loops come to the last sub-group of the last work-group.
* `generators_total_iff`: a generator is total unless it divides by the size of a sub-group, and
  that of the last work-group may be empty.
-/

namespace OpenCLCTS.Subgroups

open Traced

/-- The arrays of a generator, and how many numbers are drawn. -/
structure GenState (Ty : Type) where
  x : Buffer Ty
  t : Buffer Ty
  m : Buffer ℤ
  next : ℕ

/-- The sizes that the arrays are allocated with. -/
structure Sized (p : WorkGroupParams) {Ty : Type} (s : GenState Ty) : Prop where
  x_size : s.x.size = p.globalWorkgroupSize
  t_size : s.t.size = p.localWorkgroupSize
  m_size : s.m.size = 4 * p.globalWorkgroupSize

/-- A computation that leaves no trace. -/
abbrev Silent (α : Type) := Traced Empty α

/-! ### Random numbers -/

section

variable {Ty : Type} (stream : ℕ → BitVec 32)

/-- `genrand_int32`. -/
def genrandInt32 (s : GenState Ty) : Silent (BitVec 32 × GenState Ty) :=
  pure (stream s.next, { s with next := s.next + 1 })

/-- `genrand_int64`. -/
def genrandInt64 (s : GenState Ty) : Silent (BitVec 64 × GenState Ty) :=
  pure ((stream s.next).setWidth 64 <<< 32 ||| (stream (s.next + 1)).setWidth 64,
    { s with next := s.next + 2 })

/-- `genrand_bool`. -/
def genrandBool (s : GenState Ty) : Silent (Bool × GenState Ty) :=
  pure (stream s.next &&& 1 ≠ 0, { s with next := s.next + 1 })

end

/-- `a % b`. -/
def remainder (a b : ℕ) : Silent ℕ := if b = 0 then stop .divisionByZero else pure (a % b)

/-! ### The generators -/

section

variable {Ty : Type}

/-- The inputs of a work-group are copied. -/
def copyGroup (base n : ℕ) (s : GenState Ty) : Silent (GenState Ty) :=
  forRange (fun j s => do
    let v ← s.t.read j
    let x ← s.x.write (base + j) v
    pure { s with x := x }) s n

/-- The loops of `gen`, where `gen` fills one sub-group: it gets how far the pointers are, the offset
of the sub-group and its size. -/
def generateGroups (p : WorkGroupParams) (wgNumber nonUniformSize : ℕ)
    (gen : ℕ → ℕ → ℕ → GenState Ty → Silent (GenState Ty)) (s : GenState Ty) :
    Silent (Cursor (GenState Ty)) :=
  eachWorkGroup p wgNumber nonUniformSize (fun z base s => do
    let s ← eachSubgroup p.subgroupSize z (gen base) s
    copyGroup base z.workgroupSize s) s

/-- `memset(&t[offset], ..., n * sizeof(Ty))`, which sets `n` elements. -/
def fill (offset n : ℕ) (v : Ty) (s : GenState Ty) : Silent (GenState Ty) :=
  forRange (fun i s => do
    let t ← s.t.write (offset + i) v
    pure { s with t := t }) s n

end

namespace BC

variable {Ty : Type}

/-- `bcast_if`. -/
def bcastIf (operation : SubgroupsBroadcastOp) (bcastIndex n : ℕ) : Silent ℕ :=
  if operation ≠ .broadcast ∧ n / 2 ≠ 0 then remainder bcastIndex (n / 2) else pure 0

/-- `bcast_elseif`. -/
def bcastElseif (operation : SubgroupsBroadcastOp) (bcastIndex n : ℕ) : Silent ℕ :=
  if operation ≠ .broadcast ∧ n / 2 ≠ n then do
    let l ← remainder bcastIndex (n - n / 2)
    pure (n / 2 + l)
  else pure 0

/-- The index that lane `i` of `n` gets. -/
def storedIndex (operation : SubgroupsBroadcastOp) (bcastIndex bcastIf bcastElseif i n : ℕ) : ℕ :=
  if operation = .broadcast then bcastIndex else if i < n / 2 then bcastIf else bcastElseif

/-- `set_value` is a parameter: it gets the old value and the number. -/
def genSubgroup (operation : SubgroupsBroadcastOp) (setValue : Ty → BitVec 64 → Ty)
    (stream : ℕ → BitVec 32) (ns base offset n : ℕ) (s : GenState Ty) :
    Silent (GenState Ty) := do
  let (r, s) ← genrandInt32 stream s
  let d := if 100 < ns then 100 else ns
  let bcastIndex ← remainder (r &&& 0x7fffffff#32).toNat (if n < d then n else d)
  let l ← bcastIf operation bcastIndex n
  let l' ← bcastElseif operation bcastIndex n
  forRange (fun i s => do
    let m ← s.m.write (4 * base + midx operation offset i n)
      (storedIndex operation bcastIndex l l' i n)
    let (number, s) ← genrandInt64 stream { s with m := m }
    let old ← s.t.read (offset + i)
    let t ← s.t.write (offset + i) (setValue old number)
    pure { s with t := t }) s n

def gen (p : WorkGroupParams) (operation : SubgroupsBroadcastOp)
    (setValue : Ty → BitVec 64 → Ty) (stream : ℕ → BitVec 32) (s : GenState Ty) :
    Silent (Cursor (GenState Ty)) :=
  generateGroups p p.allGroups p.nonUniformSize
    (genSubgroup operation setValue stream p.subgroupSize) s

end BC

namespace BALLOT

/-- `v`. -/
def genValue (stream : ℕ → BitVec 32) (s : GenState ClUint4) :
    Silent (BitVec 32 × GenState ClUint4) := do
  let (b, s) ← genrandBool stream s
  if b then
    let (b, s) ← genrandBool stream s
    pure (if b then 1 else 0, s)
  else
    let (b, s) ← genrandBool stream s
    if b then
      let (r, s) ← genrandInt32 stream s
      let shift ← remainder r.toNat 31
      pure (1#32 <<< (shift + 1), s)
    else genrandInt32 stream s

def genSubgroup (stream : ℕ → BitVec 32) (_base offset n : ℕ) (s : GenState ClUint4) :
    Silent (GenState ClUint4) :=
  forRange (fun i s => do
    let (v, s) ← genValue stream s
    let t ← s.t.write (i + offset) ⟨v, 0, 0, 0⟩
    pure { s with t := t }) s n

def gen (p : WorkGroupParams) (stream : ℕ → BitVec 32) (s : GenState ClUint4) :
    Silent (Cursor (GenState ClUint4)) :=
  generateGroups p p.allGroups p.nonUniformSize (genSubgroup stream) s

end BALLOT

/-- `set_randomdata_for_subgroup`. -/
def setRandomdataForSubgroup (stream : ℕ → BitVec 32) (offset n : ℕ) (s : GenState ClUint4) :
    Silent (GenState ClUint4) := do
  let (r, s) ← genrandInt32 stream s
  let randomizeData ← remainder r.toNat 3
  if randomizeData = 0 then fill offset n ⟨0, 0, 0, 0⟩ s
  else if randomizeData = 1 then
    let s ← fill offset n ⟨0, 0, 0, 0⟩ s
    let (r, s) ← genrandInt32 stream s
    let wiId ← remainder r.toNat n
    let t ← s.t.write (offset + wiId) ⟨41, 41, 41, 41⟩
    pure { s with t := t }
  else fill offset n ⟨0xffffffff, 0xffffffff, 0xffffffff, 0xffffffff⟩ s

namespace BALLOT_BIT_EXTRACT

def genSubgroup (stream : ℕ → BitVec 32) (sbs base offset n : ℕ) (s : GenState ClUint4) :
    Silent (GenState ClUint4) := do
  let limitSbs := if 100 < sbs then 100 else sbs
  let (r, s) ← genrandInt32 stream s
  let indexForOdd ← remainder (r &&& 0x7fffffff#32).toNat (if n < limitSbs then n else limitSbs)
  let (r, s) ← genrandInt32 stream s
  let indexForEven ← remainder (r &&& 0x7fffffff#32).toNat (if n < limitSbs then n else limitSbs)
  let s ← forRange (fun i s => do
    let m ← s.m.write (4 * base + (4 * offset + 4 * i + 2)) indexForOdd
    let m ← m.write (4 * base + (4 * offset + 4 * i + 3)) indexForEven
    pure { s with m := m }) s n
  setRandomdataForSubgroup stream offset n s

/-- Only the full work-groups are filled. -/
def gen (p : WorkGroupParams) (stream : ℕ → BitVec 32) (s : GenState ClUint4) :
    Silent (Cursor (GenState ClUint4)) :=
  generateGroups p p.fullGroups 0 (genSubgroup stream p.subgroupSize) s

end BALLOT_BIT_EXTRACT

namespace BALLOT_COUNT_SCAN_FIND

/-- A byte that is not 0, four times in each word. -/
def genNonZero (stream : ℕ → BitVec 32) (s : GenState ClUint4) :
    Silent (ClUint4 × GenState ClUint4) := do
  let (r, s) ← genrandInt32 stream s
  let x := r &&& 0xff
  let x := if x ≠ 0 then x else 1
  let word := x ||| x <<< 8 ||| x <<< 16 ||| x <<< 24
  pure (⟨word, word, word, word⟩, s)

def genSubgroup (operation : BallotOp) (stream : ℕ → BitVec 32) (_base offset n : ℕ)
    (s : GenState ClUint4) : Silent (GenState ClUint4) :=
  match operation with
  | .ballotBitCount | .ballotInclusiveScan | .ballotExclusiveScan =>
    setRandomdataForSubgroup stream offset n s
  | .ballotFindLsb | .ballotFindMsb =>
    forRange (fun i s => do
      let (v, s) ← genNonZero stream s
      let t ← s.t.write (offset + i) v
      pure { s with t := t }) s n
  | _ => pure s

def gen (p : WorkGroupParams) (operation : BallotOp) (stream : ℕ → BitVec 32)
    (s : GenState ClUint4) : Silent (Cursor (GenState ClUint4)) :=
  generateGroups p p.allGroups p.nonUniformSize (genSubgroup operation stream) s

end BALLOT_COUNT_SCAN_FIND

/-! ### The rule of the loops -/

section

variable {p : WorkGroupParams} {Ty : Type} {E : Stop → Prop}

theorem spec_copyGroup {base n : ℕ} {s : GenState Ty} (hn : n ≤ p.localWorkgroupSize)
    (hbase : base + n ≤ p.globalWorkgroupSize) (hs : Sized p s) :
    Spec (copyGroup base n s) [] (fun s' => Sized p s' ∧ s'.m = s.m) E := by
  apply Spec.forRange_silent (I := fun _ s' => Sized p s' ∧ s'.m = s.m)
  · rintro j s' hj ⟨hs', hm⟩
    have ht : j < s'.t.size := by
      rw [hs'.t_size]
      omega
    have hx : base + j < s'.x.size := by
      rw [hs'.x_size]
      omega
    refine (Buffer.spec_read ht).silent_bind ?_
    intro v _
    refine (Buffer.spec_write hx).silent_bind ?_
    rintro x rfl
    exact .pure ⟨⟨hs'.x_size, hs'.t_size, hs'.m_size⟩, hm⟩
  · exact ⟨hs, rfl⟩

/-- **The rule of the loops of a generator**; `P` is about what it stores for a work-item. -/
theorem spec_generateGroups {wgNumber r : ℕ} (hcounted : p.Counted wgNumber r)
    (hlocal : 0 < p.localWorkgroupSize) (hsbs : 0 < p.subgroupSize) {P : ℕ → Buffer ℤ → Prop}
    {gen : ℕ → ℕ → ℕ → GenState Ty → Silent (GenState Ty)}
    (hgen : ∀ base offset n s, p.Subgroup wgNumber r base offset n → Sized p s →
      (∀ g < base + offset, P g s.m) → Spec (gen base offset n s) []
        (fun s => Sized p s ∧ ∀ g < base + offset + n, P g s.m) E)
    {s : GenState Ty} (hs : Sized p s) :
    Spec (generateGroups p wgNumber r gen s) []
      (fun c => ∀ g < p.covered wgNumber r, P g c.data.m) E := by
  have hr := hcounted.lt hlocal
  rw [← tracesFrom_nil 0 (p.covered wgNumber r)]
  refine Spec.imp (spec_eachWorkGroup hcounted.pos (I := fun d s => Sized p s ∧ ∀ g < d, P g s.m)
    ?_ ⟨hs, fun g hg => absurd hg (Nat.not_lt_zero g)⟩) fun c hc => hc.2
  rintro k z s hz ⟨hs, hP⟩
  obtain ⟨hwg, hend⟩ := hz.end_le hr.le
  refine Spec.bind_silent (spec_eachSubgroup (hz.cut hsbs)
    (I := fun d s => Sized p s ∧ ∀ g < k * p.localWorkgroupSize + d, P g s.m) ?_ ⟨hs, hP⟩) ?_
  · rintro sbId n s hlt rfl ⟨hs, hP⟩
    have hle : sbId * p.subgroupSize ≤ z.workgroupSize := by
      rcases (hz.offset_le hsbs hr hlt).2 with h | ⟨h, _⟩ <;> omega
    rw [Nat.min_eq_left hle] at hP ⊢
    rw [tracesFrom_nil, ← Nat.add_assoc]
    exact hgen _ _ _ s (hz.subgroup hsbs hr hlt) hs hP
  · rintro s ⟨hs, hP⟩
    refine (spec_copyGroup hwg (hend.trans hcounted.covered_le) hs).imp ?_
    rintro s' ⟨hs', hm⟩
    exact ⟨hs', hm ▸ hP⟩

end

/-! ### The parts of the generators -/

section

variable {p : WorkGroupParams} {Ty : Type} {E : Stop → Prop} {stream : ℕ → BitVec 32}
  {s : GenState Ty}

theorem spec_genrandInt32 (hs : Sized p s) : Spec (genrandInt32 stream s) []
    (fun r => Sized p r.2 ∧ r.2.m = s.m) E :=
  .pure ⟨⟨hs.x_size, hs.t_size, hs.m_size⟩, rfl⟩

theorem spec_genrandInt64 (hs : Sized p s) : Spec (genrandInt64 stream s) []
    (fun r => Sized p r.2 ∧ r.2.m = s.m) E :=
  .pure ⟨⟨hs.x_size, hs.t_size, hs.m_size⟩, rfl⟩

theorem spec_genrandBool (hs : Sized p s) : Spec (genrandBool stream s) []
    (fun r => Sized p r.2 ∧ r.2.m = s.m) E :=
  .pure ⟨⟨hs.x_size, hs.t_size, hs.m_size⟩, rfl⟩

theorem spec_remainder {a b : ℕ} (hb : 0 < b) : Spec (remainder a b) [] (· < b) E := by
  rw [remainder, if_neg hb.ne']
  exact .pure (Nat.mod_lt a hb)

theorem spec_setScratch (hs : Sized p s) {i : ℕ} (hi : i < p.localWorkgroupSize) (v : Ty) :
    Spec (do
      let t ← s.t.write i v
      pure { s with t := t } : Silent (GenState Ty)) [] (fun s' => Sized p s' ∧ s'.m = s.m) E := by
  have ht : i < s.t.size := hs.t_size ▸ hi
  refine (Buffer.spec_write ht).silent_bind ?_
  rintro t rfl
  exact .pure ⟨⟨hs.x_size, hs.t_size, hs.m_size⟩, rfl⟩

theorem spec_fill {offset n : ℕ} (hin : ∀ i < n, offset + i < p.localWorkgroupSize) (v : Ty)
    (hs : Sized p s) : Spec (fill offset n v s) [] (fun s' => Sized p s' ∧ s'.m = s.m) E := by
  apply Spec.forRange_silent (I := fun _ s' => Sized p s' ∧ s'.m = s.m)
  · rintro i s' hi ⟨hs', hm⟩
    exact (spec_setScratch hs' (hin i hi) v).imp fun s'' h => ⟨h.1, h.2.trans hm⟩
  · exact ⟨hs, rfl⟩

end

section

variable {p : WorkGroupParams} {E : Stop → Prop} {stream : ℕ → BitVec 32} {s : GenState ClUint4}

theorem spec_setRandomdata {offset n : ℕ} (hn : 0 < n)
    (hin : ∀ i < n, offset + i < p.localWorkgroupSize) (hs : Sized p s) :
    Spec (setRandomdataForSubgroup stream offset n s) []
      (fun s' => Sized p s' ∧ s'.m = s.m) E := by
  refine (spec_genrandInt32 hs).silent_bind ?_
  rintro ⟨r, s₁⟩ ⟨hs₁, hm₁⟩
  dsimp only at hs₁ hm₁ ⊢
  refine (spec_remainder (by decide)).silent_bind ?_
  intro randomizeData _
  rw [← hm₁]
  refine .ite (fun _ => spec_fill hin _ hs₁) fun _ => .ite (fun _ => ?_) fun _ => spec_fill hin _ hs₁
  refine (spec_fill hin _ hs₁).silent_bind ?_
  rintro s₂ ⟨hs₂, hm₂⟩
  refine (spec_genrandInt32 hs₂).silent_bind ?_
  rintro ⟨r', s₃⟩ ⟨hs₃, hm₃⟩
  dsimp only at hs₃ hm₃ ⊢
  refine (spec_remainder hn).silent_bind ?_
  intro wiId hwiId
  rw [← hm₂, ← hm₃]
  exact spec_setScratch hs₃ (hin wiId hwiId) _

theorem spec_genValue (hs : Sized p s) : Spec (BALLOT.genValue stream s) []
    (fun r => Sized p r.2 ∧ r.2.m = s.m) E := by
  refine (spec_genrandBool hs).silent_bind ?_
  rintro ⟨b₁, s₁⟩ ⟨hs₁, hm₁⟩
  dsimp only at hs₁ hm₁ ⊢
  rw [← hm₁]
  refine .ite (fun _ => ?_) fun _ => ?_
  · refine (spec_genrandBool hs₁).silent_bind ?_
    rintro ⟨b₂, s₂⟩ ⟨hs₂, hm₂⟩
    exact .pure ⟨hs₂, hm₂⟩
  · refine (spec_genrandBool hs₁).silent_bind ?_
    rintro ⟨b₂, s₂⟩ ⟨hs₂, hm₂⟩
    dsimp only at hs₂ hm₂ ⊢
    rw [← hm₂]
    refine .ite (fun _ => ?_) fun _ => spec_genrandInt32 hs₂
    refine (spec_genrandInt32 hs₂).silent_bind ?_
    rintro ⟨r, s₃⟩ ⟨hs₃, hm₃⟩
    refine (spec_remainder (by decide)).silent_bind ?_
    intro shift _
    exact .pure ⟨hs₃, hm₃⟩

end

/-! ### The indices -/

theorem get_set_of_lt {m : Buffer ℤ} {g g' d d' : ℕ} (hg : g < g') (hd : d < 4) (v : ℤ) :
    (m.set (4 * g' + d') v).get (4 * g + d) = m.get (4 * g + d) :=
  Buffer.set_get_of_ne (by omega)

/-- **The index of a work-item** is a lane of its sub-group: of the lower half in the one branch, and
of the upper half in the other. -/
def BC.IndexOk (p : WorkGroupParams) (operation : SubgroupsBroadcastOp) (g : ℕ) (m : Buffer ℤ) :
    Prop :=
  let n := p.subgroupSizeAt g
  let l := m.get (4 * g + BC.slot operation (p.lane g) n)
  0 ≤ l ∧ l < n ∧
    (operation ≠ .broadcast → if p.lane g < n / 2 then l < (n / 2 : ℕ) else (n / 2 : ℕ) ≤ l)

/-- The two indices of a work-item are positions in a sub-group of the size of its own. -/
def BALLOT_BIT_EXTRACT.IndexOk (p : WorkGroupParams) (g : ℕ) (m : Buffer ℤ) : Prop :=
  (0 ≤ m.get (4 * g + 2) ∧ m.get (4 * g + 2) < p.subgroupSizeAt g) ∧
    0 ≤ m.get (4 * g + 3) ∧ m.get (4 * g + 3) < p.subgroupSizeAt g

section

variable {p : WorkGroupParams} {Ty : Type} {E : Stop → Prop} {stream : ℕ → BitVec 32}
  {wgNumber r base offset n : ℕ}

theorem spec_bcastIf (operation : SubgroupsBroadcastOp) (bcastIndex n : ℕ) :
    Spec (BC.bcastIf operation bcastIndex n) []
      (fun l => operation ≠ .broadcast → 0 < n / 2 → l < n / 2) E := by
  refine .ite (fun h => ?_) fun h => .pure fun hop hhalf => absurd ⟨hop, hhalf.ne'⟩ h
  exact (spec_remainder (Nat.pos_of_ne_zero h.2)).imp fun l hl _ _ => hl

theorem spec_bcastElseif (operation : SubgroupsBroadcastOp) (bcastIndex : ℕ) (hn : 0 < n) :
    Spec (BC.bcastElseif operation bcastIndex n) []
      (fun l => operation ≠ .broadcast → n / 2 ≤ l ∧ l < n) E := by
  have hhalf : n / 2 < n := Nat.div_lt_self hn (by decide)
  refine .ite (fun h => ?_) fun h => .pure fun hop => absurd ⟨hop, hhalf.ne⟩ h
  refine (spec_remainder (Nat.sub_pos_of_lt hhalf)).silent_bind ?_
  intro l hl
  exact .pure fun _ => ⟨Nat.le_add_right _ _, by omega⟩

theorem limit_pos {sbs : ℕ} (hn : 0 < n) (hsbs : 0 < sbs) :
    0 < (if n < (if 100 < sbs then 100 else sbs) then n else if 100 < sbs then 100 else sbs) ∧
      (if n < (if 100 < sbs then 100 else sbs) then n else if 100 < sbs then 100 else sbs) ≤ n := by
  have hd : 0 < if 100 < sbs then 100 else sbs := by
    by_cases h : 100 < sbs
    · rw [if_pos h]
      decide
    · rwa [if_neg h]
  by_cases h : n < if 100 < sbs then 100 else sbs
  · rw [if_pos h]
    exact ⟨hn, le_rfl⟩
  · rw [if_neg h]
    exact ⟨hd, Nat.le_of_not_lt h⟩

theorem indexOk_set {operation : SubgroupsBroadcastOp} {i : ℕ}
    (hplace : p.lane (base + offset + i) = i ∧ p.subgroupSizeAt (base + offset + i) = n)
    {m : Buffer ℤ} (hm : ∀ g < base + offset + i, BC.IndexOk p operation g m) {l : ℕ} (hl : l < n)
    (hhalf : operation ≠ .broadcast → if i < n / 2 then l < n / 2 else n / 2 ≤ l) :
    ∀ g < base + offset + (i + 1),
      BC.IndexOk p operation g (m.set (4 * base + BC.midx operation offset i n) l) := by
  intro g hg
  rw [BC.IndexOk, BC.midx_eq]
  have hcases : g < base + offset + i ∨ g = base + offset + i := by omega
  rcases hcases with hlt | rfl
  · rw [get_set_of_lt hlt (BC.slot_lt _ _ _)]
    exact hm g hlt
  · rw [hplace.1, hplace.2, Buffer.set_get_self]
    refine ⟨Int.natCast_nonneg l, Int.ofNat_lt.mpr hl, ?_⟩
    intro hop
    have hhalf := hhalf hop
    split at hhalf
    · rw [if_pos ‹_›]
      exact Int.ofNat_lt.mpr hhalf
    · rw [if_neg ‹_›]
      exact Int.ofNat_le.mpr hhalf

/-- The index that a lane gets is in its half of the sub-group. -/
theorem storedIndex_half {operation : SubgroupsBroadcastOp} {bcastIndex l l' i : ℕ}
    (hindex : bcastIndex < n) (hl : operation ≠ .broadcast → 0 < n / 2 → l < n / 2)
    (hl' : operation ≠ .broadcast → n / 2 ≤ l' ∧ l' < n) :
    BC.storedIndex operation bcastIndex l l' i n < n ∧
      (operation ≠ .broadcast → if i < n / 2 then
        BC.storedIndex operation bcastIndex l l' i n < n / 2
      else n / 2 ≤ BC.storedIndex operation bcastIndex l l' i n) := by
  rw [BC.storedIndex]
  by_cases hop : operation = .broadcast
  · rw [if_pos hop]
    exact ⟨hindex, fun hne => absurd hop hne⟩
  · rw [if_neg hop]
    by_cases hhalf : i < n / 2
    · have hl := hl hop (by omega)
      rw [if_pos hhalf, if_pos hhalf]
      exact ⟨by omega, fun _ => hl⟩
    · rw [if_neg hhalf, if_neg hhalf]
      exact ⟨(hl' hop).2, fun _ => (hl' hop).1⟩

/-- **One sub-group of `BC::gen`**, if it is not empty. -/
theorem spec_broadcast_subgroup (operation : SubgroupsBroadcastOp)
    (setValue : Ty → BitVec 64 → Ty) (hcounted : p.Counted wgNumber r)
    (hsub : p.Subgroup wgNumber r base offset n) (hsbs : 0 < p.subgroupSize) (hn : 0 < n)
    {s : GenState Ty} (hs : Sized p s)
    (hP : ∀ g < base + offset, BC.IndexOk p operation g s.m) :
    Spec (BC.genSubgroup operation setValue stream p.subgroupSize base offset n s) []
      (fun s => Sized p s ∧ ∀ g < base + offset + n, BC.IndexOk p operation g s.m) E := by
  refine (spec_genrandInt32 hs).silent_bind ?_
  rintro ⟨draw, s₁⟩ ⟨hs₁, hm₁⟩
  dsimp only at hs₁ hm₁ ⊢
  obtain ⟨hlimit, hlimit_le⟩ := limit_pos hn hsbs
  refine (spec_remainder hlimit).silent_bind ?_
  intro bcastIndex hindex
  refine (spec_bcastIf operation bcastIndex n).silent_bind ?_
  intro l hl
  refine (spec_bcastElseif operation bcastIndex hn).silent_bind ?_
  intro l' hl'
  apply Spec.forRange_silent
    (I := fun i s => Sized p s ∧ ∀ g < base + offset + i, BC.IndexOk p operation g s.m)
  · rintro i s hi ⟨hs, hP⟩
    have hwithin := (hsub.within i hi).trans_le hcounted.covered_le
    have hmidx : 4 * base + BC.midx operation offset i n < s.m.size := by
      have hslot := BC.slot_lt operation i n
      rw [BC.midx_eq, hs.m_size]
      omega
    have hvalue := storedIndex_half (i := i) (hindex.trans_le hlimit_le) hl hl'
    have hnext := indexOk_set (hsub.place hcounted i hi) hP hvalue.1 hvalue.2
    refine (Buffer.spec_write hmidx).silent_bind ?_
    rintro m rfl
    have hset : @Sized p Ty ⟨s.x, s.t, s.m.set (4 * base + BC.midx operation offset i n)
        (BC.storedIndex operation bcastIndex l l' i n), s.next⟩ :=
      ⟨hs.x_size, hs.t_size, hs.m_size⟩
    refine (spec_genrandInt64 hset).silent_bind ?_
    rintro ⟨number, s₂⟩ ⟨hs₂, hm₂⟩
    dsimp only at hs₂ hm₂ ⊢
    have ht : offset + i < s₂.t.size := by
      rw [hs₂.t_size]
      exact hsub.inGroup i hi
    refine (Buffer.spec_read ht).silent_bind ?_
    intro old _
    refine (spec_setScratch hs₂ (hsub.inGroup i hi) _).imp ?_
    rintro s₃ ⟨hs₃, hm₃⟩
    rw [hm₃, hm₂]
    exact ⟨hs₃, hnext⟩
  · rw [Nat.add_zero, hm₁]
    exact ⟨hs₁, hP⟩

theorem spec_bitExtract_subgroup (hcounted : p.Counted wgNumber r)
    (hsub : p.Subgroup wgNumber r base offset n) (hsbs : 0 < p.subgroupSize) (hn : 0 < n)
    {s : GenState ClUint4} (hs : Sized p s)
    (hP : ∀ g < base + offset, BALLOT_BIT_EXTRACT.IndexOk p g s.m) :
    Spec (BALLOT_BIT_EXTRACT.genSubgroup stream p.subgroupSize base offset n s) []
      (fun s => Sized p s ∧ ∀ g < base + offset + n, BALLOT_BIT_EXTRACT.IndexOk p g s.m) E := by
  obtain ⟨hlimit, hlimit_le⟩ := limit_pos hn hsbs
  refine (spec_genrandInt32 hs).silent_bind ?_
  rintro ⟨draw₁, s₁⟩ ⟨hs₁, hm₁⟩
  dsimp only at hs₁ hm₁ ⊢
  refine (spec_remainder hlimit).silent_bind ?_
  intro indexForOdd hodd
  refine (spec_genrandInt32 hs₁).silent_bind ?_
  rintro ⟨draw₂, s₂⟩ ⟨hs₂, hm₂⟩
  dsimp only at hs₂ hm₂ ⊢
  refine (spec_remainder hlimit).silent_bind ?_
  intro indexForEven heven
  refine Spec.silent_bind (Spec.forRange_silent
    (I := fun i s => Sized p s ∧ ∀ g < base + offset + i, BALLOT_BIT_EXTRACT.IndexOk p g s.m)
    ?_ ?_) ?_
  · rintro i s hi ⟨hs, hP⟩
    have hwithin := (hsub.within i hi).trans_le hcounted.covered_le
    have hidx : ∀ d, 4 * base + (4 * offset + 4 * i + d) = 4 * (base + offset + i) + d := by
      intro d
      omega
    rw [hidx 2, hidx 3]
    have hm : ∀ d < 4, 4 * (base + offset + i) + d < s.m.size := by
      intro d hd
      rw [hs.m_size]
      omega
    refine (Buffer.spec_write (hm 2 (by decide))).silent_bind ?_
    rintro m rfl
    refine (Buffer.spec_write (b := s.m.set _ _) (hm 3 (by decide))).silent_bind ?_
    rintro m rfl
    refine .pure ⟨⟨hs.x_size, hs.t_size, hs.m_size⟩, ?_⟩
    intro g hg
    have hcases : g < base + offset + i ∨ g = base + offset + i := by omega
    rw [BALLOT_BIT_EXTRACT.IndexOk]
    rcases hcases with hlt | rfl
    · rw [get_set_of_lt hlt (by decide), get_set_of_lt hlt (by decide),
        get_set_of_lt hlt (by decide), get_set_of_lt hlt (by decide)]
      exact hP g hlt
    · rw [Buffer.set_get_of_ne (by omega), Buffer.set_get_self, Buffer.set_get_self,
        (hsub.place hcounted i hi).2]
      omega
  · rw [Nat.add_zero, hm₂, hm₁]
    exact ⟨hs₂, hP⟩
  · rintro s₃ ⟨hs₃, hP₃⟩
    refine (spec_setRandomdata hn hsub.inGroup hs₃).imp ?_
    rintro s₄ ⟨hs₄, hm₄⟩
    exact ⟨hs₄, hm₄ ▸ hP₃⟩

end

/-! ### Total generators -/

section

variable {Ty : Type}

/-- A run comes to its end, with these indices. -/
def TotalRun (run : Silent (Cursor (GenState Ty))) (Q : Buffer ℤ → Prop) : Prop :=
  ∃ c, run.result = .ok c ∧ Q c.data.m

end

inductive Generator
  | broadcast (operation : SubgroupsBroadcastOp)
  | ballot
  | ballotBitExtract
  | ballotCountScanFind (operation : BallotOp)

/-- **A generator is total** if it comes to its end for all random numbers, and the indices that it
stores are lanes. -/
def Generator.Total (p : WorkGroupParams) : Generator → Prop
  | .broadcast operation => ∀ (Ty : Type) (setValue : Ty → BitVec 64 → Ty) (stream : ℕ → BitVec 32)
      (s : GenState Ty), Sized p s → TotalRun (BC.gen p operation setValue stream s)
        fun m => ∀ g < p.globalWorkgroupSize, BC.IndexOk p operation g m
  | .ballot => ∀ (stream : ℕ → BitVec 32) (s : GenState ClUint4), Sized p s →
      TotalRun (BALLOT.gen p stream s) fun _ => True
  | .ballotBitExtract => ∀ (stream : ℕ → BitVec 32) (s : GenState ClUint4), Sized p s →
      TotalRun (BALLOT_BIT_EXTRACT.gen p stream s)
        fun m => ∀ g < p.fullGroups * p.localWorkgroupSize, BALLOT_BIT_EXTRACT.IndexOk p g m
  | .ballotCountScanFind operation => ∀ (stream : ℕ → BitVec 32) (s : GenState ClUint4),
      Sized p s → TotalRun (BALLOT_COUNT_SCAN_FIND.gen p operation stream s) fun _ => True

/-- The generators that divide by the size of a sub-group of the last work-group. -/
def Generator.DividesBySize : Generator → Prop
  | .broadcast _ => True
  | .ballotCountScanFind operation => operation = .ballotBitCount ∨
      operation = .ballotInclusiveScan ∨ operation = .ballotExclusiveScan
  | _ => False

section

variable {p : WorkGroupParams} {Ty : Type}

/-- **The loops come to the last sub-group of the last work-group**, which is empty if the size of
the work-group is a multiple. -/
theorem ends_at_last (hsbs : 0 < p.subgroupSize) (hr : p.nonUniformSize ≠ 0)
    (hdvd : p.subgroupSize ∣ p.nonUniformSize)
    {gen : ℕ → ℕ → ℕ → GenState Ty → Silent (GenState Ty)} {s : GenState Ty}
    {c : Cursor (GenState Ty)}
    (h : (generateGroups p p.allGroups p.nonUniformSize gen s).result = .ok c) :
    ∃ base offset s' s'', (gen base offset 0 s').result = .ok s'' := by
  rw [generateGroups, eachWorkGroup, WorkGroupParams.allGroups, if_pos hr] at h
  obtain ⟨t, hturn⟩ := ok_of_forRange h
  rw [workGroupTurn, if_pos ⟨hr, rfl⟩] at hturn
  obtain ⟨data, hbody, _⟩ := ok_of_bind hturn
  obtain ⟨filled, hgroups, _⟩ := ok_of_bind hbody
  rw [eachSubgroup, show (setLastWorkgroupParams p.nonUniformSize p.subgroupSize).numberOfSubgroups
    = p.nonUniformSize / p.subgroupSize + 1 from Nat.add_comm _ _] at hgroups
  obtain ⟨s', hlast⟩ := ok_of_forRange hgroups
  have hsize := (cut_setLast (r := p.nonUniformSize) hsbs).size
    (p.nonUniformSize / p.subgroupSize)
    (show p.nonUniformSize / p.subgroupSize < 1 + p.nonUniformSize / p.subgroupSize by omega)
  rw [show (setLastWorkgroupParams p.nonUniformSize p.subgroupSize).workgroupSize
    = p.nonUniformSize from rfl, Nat.div_mul_cancel hdvd, Nat.sub_self, Nat.min_zero] at hsize
  rw [hsize] at hlast
  exact ⟨_, _, s', filled, hlast⟩

theorem totalRun_of_spec {run : Silent (Cursor (GenState Ty))} {Q : Buffer ℤ → Prop}
    (h : Spec run [] (fun c => Q c.data.m) fun _ => False) : TotalRun run Q := h.total

theorem subgroup_pos {wgNumber r base offset n : ℕ} (hsub : p.Subgroup wgNumber r base offset n)
    (h : ¬ (r ≠ 0 ∧ p.subgroupSize ∣ r)) : 0 < n :=
  Nat.pos_of_ne_zero fun hn => h (hsub.empty hn)

theorem total_broadcast (hlocal : 0 < p.localWorkgroupSize) (hsbs : 0 < p.subgroupSize)
    (h : ¬ (p.nonUniformSize ≠ 0 ∧ p.subgroupSize ∣ p.nonUniformSize))
    (operation : SubgroupsBroadcastOp) : (Generator.broadcast operation).Total p := by
  intro Ty setValue stream s hs
  have hcounted : p.Counted p.allGroups p.nonUniformSize := .inl ⟨rfl, rfl⟩
  apply totalRun_of_spec
  rw [← WorkGroupParams.covered_allGroups]
  apply spec_generateGroups (P := BC.IndexOk p operation) hcounted hlocal hsbs ?_ hs
  intro base offset n s hsub hs hP
  exact spec_broadcast_subgroup operation setValue hcounted hsub hsbs (subgroup_pos hsub h) hs hP

theorem total_bitExtract (hlocal : 0 < p.localWorkgroupSize) (hsbs : 0 < p.subgroupSize) :
    Generator.ballotBitExtract.Total p := by
  intro stream s hs
  have hcounted : p.Counted p.fullGroups 0 := .inr ⟨rfl, rfl⟩
  apply totalRun_of_spec
  rw [← WorkGroupParams.covered_fullGroups]
  apply spec_generateGroups (P := BALLOT_BIT_EXTRACT.IndexOk p) hcounted hlocal hsbs ?_ hs
  intro base offset n s hsub hs hP
  exact spec_bitExtract_subgroup hcounted hsub hsbs (subgroup_pos hsub fun h => h.1 rfl) hs hP

theorem totalRun_of_subgroups (hlocal : 0 < p.localWorkgroupSize) (hsbs : 0 < p.subgroupSize)
    {gen : ℕ → ℕ → ℕ → GenState Ty → Silent (GenState Ty)}
    (hgen : ∀ base offset n s, p.Subgroup p.allGroups p.nonUniformSize base offset n → Sized p s →
      Spec (gen base offset n s) [] (fun s' => Sized p s' ∧ s'.m = s.m) fun _ => False)
    {s : GenState Ty} (hs : Sized p s) :
    TotalRun (generateGroups p p.allGroups p.nonUniformSize gen s) fun _ => True := by
  apply totalRun_of_spec
  refine Spec.imp (spec_generateGroups (P := fun _ _ => True) (.inl ⟨rfl, rfl⟩) hlocal hsbs ?_ hs)
    fun _ _ => trivial
  intro base offset n s hsub hs _
  exact (hgen base offset n s hsub hs).imp fun s' h => ⟨h.1, fun _ _ => trivial⟩

theorem total_ballot (hlocal : 0 < p.localWorkgroupSize) (hsbs : 0 < p.subgroupSize) :
    Generator.ballot.Total p := by
  intro stream s hs
  refine totalRun_of_subgroups hlocal hsbs (fun base offset n s hsub hs => ?_) hs
  apply Spec.forRange_silent (I := fun _ s' => Sized p s' ∧ s'.m = s.m)
  · rintro i s₁ hi ⟨hs₁, hm₁⟩
    refine (spec_genValue hs₁).silent_bind ?_
    rintro ⟨v, s₂⟩ ⟨hs₂, hm₂⟩
    have hin : i + offset < p.localWorkgroupSize := by
      rw [Nat.add_comm]
      exact hsub.inGroup i hi
    exact (spec_setScratch hs₂ hin _).imp fun s₃ h => ⟨h.1, h.2.trans (hm₂.trans hm₁)⟩
  · exact ⟨hs, rfl⟩

theorem total_countScanFind (hlocal : 0 < p.localWorkgroupSize) (hsbs : 0 < p.subgroupSize)
    (operation : BallotOp)
    (h : ¬ ((Generator.ballotCountScanFind operation).DividesBySize ∧ p.nonUniformSize ≠ 0 ∧
      p.subgroupSize ∣ p.nonUniformSize)) :
    (Generator.ballotCountScanFind operation).Total p := by
  intro stream s hs
  refine totalRun_of_subgroups hlocal hsbs (fun base offset n s hsub hs => ?_) hs
  have hrandom : (Generator.ballotCountScanFind operation).DividesBySize →
      Spec (setRandomdataForSubgroup stream offset n s) [] (fun s' => Sized p s' ∧ s'.m = s.m)
        fun _ => False :=
    fun hdivides => spec_setRandomdata (subgroup_pos hsub fun h' => h ⟨hdivides, h'⟩)
      hsub.inGroup hs
  have hfind : Spec (forRange (fun i s => do
      let (v, s) ← BALLOT_COUNT_SCAN_FIND.genNonZero stream s
      let t ← s.t.write (offset + i) v
      pure { s with t := t }) s n) [] (fun s' => Sized p s' ∧ s'.m = s.m) fun _ => False := by
    apply Spec.forRange_silent (I := fun _ s' => Sized p s' ∧ s'.m = s.m)
    · rintro i s₁ hi ⟨hs₁, hm₁⟩
      have hdraw : Spec (BALLOT_COUNT_SCAN_FIND.genNonZero stream s₁) []
          (fun r => Sized p r.2 ∧ r.2.m = s₁.m) fun _ => False :=
        .pure ⟨⟨hs₁.x_size, hs₁.t_size, hs₁.m_size⟩, rfl⟩
      refine hdraw.silent_bind ?_
      rintro ⟨v, s₂⟩ ⟨hs₂, hm₂⟩
      exact (spec_setScratch hs₂ (hsub.inGroup i hi) _).imp
        fun s₃ h => ⟨h.1, h.2.trans (hm₂.trans hm₁)⟩
    · exact ⟨hs, rfl⟩
  cases operation with
  | ballotBitCount => exact hrandom (.inl rfl)
  | ballotInclusiveScan => exact hrandom (.inr (.inl rfl))
  | ballotExclusiveScan => exact hrandom (.inr (.inr rfl))
  | ballotFindLsb | ballotFindMsb => exact hfind
  | ballot | inverseBallot | ballotBitExtract | eqMask | geMask | gtMask | leMask | ltMask =>
    exact .pure ⟨hs, rfl⟩

theorem not_ok_remainder {a i : ℕ} : (remainder a 0).result ≠ .ok i := by
  intro h
  cases h

theorem broadcast_stops (hsbs : 0 < p.subgroupSize) {operation : SubgroupsBroadcastOp}
    {setValue : Ty → BitVec 64 → Ty} {stream : ℕ → BitVec 32} {base offset : ℕ}
    {s s' : GenState Ty} :
    (BC.genSubgroup operation setValue stream p.subgroupSize base offset 0 s).result ≠ .ok s' := by
  intro h
  obtain ⟨⟨draw, s₁⟩, _, hdraw⟩ := ok_of_bind h
  obtain ⟨bcastIndex, hindex, _⟩ := ok_of_bind hdraw
  have hd : 0 < if 100 < p.subgroupSize then 100 else p.subgroupSize := by
    split
    · decide
    · exact hsbs
  rw [if_pos hd] at hindex
  exact not_ok_remainder hindex

/-- An empty sub-group stops `set_randomdata_for_subgroup` if the draws are 1. -/
theorem setRandomdata_stops {offset : ℕ} {s s' : GenState ClUint4} :
    (setRandomdataForSubgroup (fun _ => 1#32) offset 0 s).result ≠ .ok s' := by
  intro h
  obtain ⟨⟨draw, s₁⟩, hdraw, hrandomize⟩ := ok_of_bind h
  cases hdraw
  obtain ⟨randomizeData, hone, hcases⟩ := ok_of_bind hrandomize
  cases hone
  rw [if_neg (show ¬ (1#32).toNat % 3 = 0 by decide), if_pos (show (1#32).toNat % 3 = 1 by decide)]
    at hcases
  obtain ⟨s₂, _, hdraw'⟩ := ok_of_bind hcases
  obtain ⟨⟨draw', s₃⟩, _, hwiId⟩ := ok_of_bind hdraw'
  obtain ⟨wiId, hwiId, _⟩ := ok_of_bind hwiId
  exact not_ok_remainder hwiId

/-- Arrays of the sizes of a test. -/
def GenState.blank (p : WorkGroupParams) (v : Ty) : GenState Ty where
  x := ⟨p.globalWorkgroupSize, fun _ => v⟩
  t := ⟨p.localWorkgroupSize, fun _ => v⟩
  m := ⟨4 * p.globalWorkgroupSize, fun _ => 0⟩
  next := 0

/-- **An empty sub-group stops the generators that divide by its size.** -/
theorem not_total (hsbs : 0 < p.subgroupSize) {G : Generator} (hdivides : G.DividesBySize)
    (hr : p.nonUniformSize ≠ 0) (hdvd : p.subgroupSize ∣ p.nonUniformSize) : ¬ G.Total p := by
  intro h
  cases G with
  | broadcast operation =>
    obtain ⟨c, hc, _⟩ := h Unit (fun v _ => v) (fun _ => 0) (.blank p ()) ⟨rfl, rfl, rfl⟩
    obtain ⟨base, offset, s, s', hlast⟩ := ends_at_last hsbs hr hdvd hc
    exact broadcast_stops hsbs hlast
  | ballot => exact hdivides
  | ballotBitExtract => exact hdivides
  | ballotCountScanFind operation =>
    obtain ⟨c, hc, _⟩ := h (fun _ => 1) (.blank p ⟨0, 0, 0, 0⟩) ⟨rfl, rfl, rfl⟩
    obtain ⟨base, offset, s, s', hlast⟩ := ends_at_last hsbs hr hdvd hc
    rcases hdivides with rfl | rfl | rfl <;> exact setRandomdata_stops hlast

/-- **When a generator is total**: unless it divides by the size of a sub-group, and the size of the
last work-group is a multiple of the sub-group size. -/
theorem generators_total_iff (hlocal : 1 ≤ p.localWorkgroupSize) (hsbs : 1 ≤ p.subgroupSize)
    (G : Generator) : G.Total p ↔ ¬ (G.DividesBySize ∧ p.nonUniformSize ≠ 0 ∧
      p.subgroupSize ∣ p.nonUniformSize) := by
  constructor
  · rintro h ⟨hdivides, hr, hdvd⟩
    exact not_total hsbs hdivides hr hdvd h
  · intro h
    cases G with
    | broadcast operation =>
      exact total_broadcast hlocal hsbs (fun h' => h ⟨trivial, h'⟩) operation
    | ballot => exact total_ballot hlocal hsbs
    | ballotBitExtract => exact total_bitExtract hlocal hsbs
    | ballotCountScanFind operation => exact total_countScanFind hlocal hsbs operation h

end

/-- 10 work-items in groups of 4, with sub-groups of 3. -/
theorem broadcast_total_ten :
    (Generator.broadcast .nonUniformBroadcast).Total ⟨10, 4, 3, 3, BitVec.allOnes 128⟩ :=
  (generators_total_iff (by decide) (by decide) _).mpr fun h => absurd h.2.2 (by decide)

/-- 6 work-items in groups of 4, with sub-groups of 2. -/
theorem broadcast_not_total_six :
    ¬ (Generator.broadcast .nonUniformBroadcast).Total ⟨6, 4, 2, 2, BitVec.allOnes 128⟩ :=
  not_total (by decide) trivial (by decide) (by decide)

end OpenCLCTS.Subgroups
