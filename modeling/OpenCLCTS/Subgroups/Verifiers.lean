import OpenCLCTS.Subgroups.Ballot
import OpenCLCTS.Subgroups.WorkGroups

/-!
# The verifiers of ballots, broadcasts and votes

A verifier copies the inputs and the outputs of a work-group into scratch arrays, goes over its
sub-groups and compares outputs with what it computes.  Its trace is what it compares: the work-item,
its output, and whether this agrees.

* `spec_verifyGroups`: the rule of the loops that the verifiers share.
* `Covers`: a verifier compares the outputs of some work-items, each of them once, up to the first
  that does not agree, and does not go out of the arrays.
* `covers_ballot`, `covers_vote`: the work-items whose lanes are active.
* `covers_find`: the work-items that have a bit to be found.
* `covers_bitExtract`: all work-items, if the last work-group is not smaller.
* `verifiers_cover`: all verifiers.
-/

namespace OpenCLCTS.Subgroups

open Traced

/-- The arrays of a test, with the sizes that they are allocated with. -/
structure Arrays (p : WorkGroupParams) (α : Type) where
  x : Buffer α
  y : Buffer α
  m : Buffer ℤ
  mx : Buffer α
  my : Buffer α
  x_size : x.size = p.globalWorkgroupSize
  y_size : y.size = p.globalWorkgroupSize
  m_size : m.size = 4 * p.globalWorkgroupSize
  mx_size : mx.size = p.localWorkgroupSize
  my_size : my.size = p.localWorkgroupSize

/-- `mx` and `my`. -/
structure Scratch (α : Type) where
  mx : Buffer α
  my : Buffer α

section

variable {τ α : Type}

/-- The inputs and the outputs of a work-group are read. -/
def readGroup (x y : Buffer α) (base n : ℕ) (s : Scratch α) : Traced τ (Scratch α) :=
  forRange (fun j s => do
    let xj ← x.read (base + j)
    let mx ← s.mx.write j xj
    let yj ← y.read (base + j)
    let my ← s.my.write j yj
    pure ⟨mx, my⟩) s n

/-- The loops of `chk`.  `prepare` is what it does with a work-group that is read; `check` verifies
one sub-group: it gets how far the pointers are, the offset of the sub-group and its size. -/
def verifyPrepared {p : WorkGroupParams} (a : Arrays p α) (wgNumber nonUniformSize : ℕ)
    (prepare : ℕ → ℕ → Traced τ Unit) (check : ℕ → ℕ → ℕ → Scratch α → Traced τ Unit) :
    Traced τ (Cursor (Scratch α)) :=
  eachWorkGroup p wgNumber nonUniformSize (fun z base s => do
    let s ← readGroup a.x a.y base z.workgroupSize s
    prepare base z.workgroupSize
    eachSubgroup p.subgroupSize z (fun offset n s => do
      check base offset n s
      pure s) s) ⟨a.mx, a.my⟩

/-- The verifiers that only read a work-group. -/
def verifyGroups {p : WorkGroupParams} (a : Arrays p α) (wgNumber nonUniformSize : ℕ)
    (check : ℕ → ℕ → ℕ → Scratch α → Traced τ Unit) : Traced τ (Cursor (Scratch α)) :=
  verifyPrepared a wgNumber nonUniformSize (fun _ _ => pure ()) check

/-- What the trace keeps of a comparison: the work-item, its output, and whether it agrees. -/
abbrev Verdict (α : Type) := ℕ × α × Bool

def compareItem (g : ℕ) (v : α) (agrees : Bool) : Traced (Verdict α) Unit :=
  judge (g, v, agrees) agrees

/-- `work_items_mask.test(i)`, which throws if there is no such bit. -/
def testMask (mask : BitVec 128) (i : ℕ) : Traced τ Bool :=
  if i < 128 then pure (mask.getLsbD i) else stop .outside

end

/-! ### The verifiers -/

section

variable {p : WorkGroupParams}

namespace BALLOT

/-- `expected_result_bs` and `active_work_items`. -/
def predicates (mask : BitVec 128) (mx : Buffer ClUint4) (offset n : ℕ) :
    Traced (Verdict ClUint4) (Bs128 × List ℕ) :=
  forRange (fun i s => do
    if ← testMask mask i then
      let v ← mx.read (offset + i)
      let predicate : Bs128 := if v.s0 ≠ 0 then 1 else 0
      pure (s.1 ||| predicate <<< i, s.2 ++ [i])
    else pure s) (0, []) n

def check (mask : BitVec 128) (base offset n : ℕ) (s : Scratch ClUint4) :
    Traced (Verdict ClUint4) Unit := do
  let (expected, active) ← predicates mask s.mx offset n
  if active = [] then pure ()
  else forEach (fun i _ => do
    let v ← s.my.read (offset + i)
    compareItem (base + offset + i) v (clUint4ToBs128 v = expected)) active ()

def chk (a : Arrays p ClUint4) : Traced (Verdict ClUint4) (Cursor (Scratch ClUint4)) :=
  verifyGroups a p.allGroups p.nonUniformSize (check p.workItemsMask)

end BALLOT

namespace BALLOT_BIT_EXTRACT

def check (m : Buffer ℤ) (base offset n : ℕ) (s : Scratch ClUint4) :
    Traced (Verdict ClUint4) Unit := do
  let indexForOdd ← m.read (4 * base + (4 * offset + 2))
  let indexForEven ← m.read (4 * base + (4 * offset + 3))
  forRange (fun i _ => do
    let v ← s.mx.read (offset + i)
    let deviceResult ← s.my.read (offset + i)
    compareItem (base + offset + i) deviceResult
      (deviceResult = expectedExtract i indexForOdd indexForEven v)) () n

/-- The number of work-groups is that of the full ones. -/
def chk (a : Arrays p ClUint4) : Traced (Verdict ClUint4) (Cursor (Scratch ClUint4)) :=
  verifyGroups a p.fullGroups p.nonUniformSize (check a.m)

end BALLOT_BIT_EXTRACT

namespace BALLOT_INVERSE

def check (base offset n : ℕ) (s : Scratch ClUint4) : Traced (Verdict ClUint4) Unit :=
  forRange (fun i _ => do
    let deviceResult ← s.my.read (offset + i)
    compareItem (base + offset + i) deviceResult
      (deviceResult = if i % 2 = 1 then ⟨1, 0, 0, 1⟩ else ⟨1, 0, 0, 2⟩)) () n

def chk (a : Arrays p ClUint4) : Traced (Verdict ClUint4) (Cursor (Scratch ClUint4)) :=
  verifyGroups a p.allGroups p.nonUniformSize check

end BALLOT_INVERSE

namespace BALLOT_COUNT_SCAN_FIND

/-- The loop keeps `expected_result`. -/
def check (operation : BallotOp) (sbs base offset n : ℕ) (s : Scratch ClUint4) :
    Traced (Verdict ClUint4) Unit := do
  let _ ← forRange (fun i previous => do
    let v ← s.mx.read (offset + i)
    let deviceResult ← s.my.read (offset + i)
    match expectedResult operation i sbs previous v with
    | none => pure previous
    | some expected => do
      compareItem (base + offset + i) deviceResult (deviceResult.s0 = BitVec.ofNat 32 expected)
      pure expected) 0 n
  pure ()

def chk (operation : BallotOp) (a : Arrays p ClUint4) :
    Traced (Verdict ClUint4) (Cursor (Scratch ClUint4)) :=
  verifyGroups a p.allGroups p.nonUniformSize (check operation p.subgroupSize)

end BALLOT_COUNT_SCAN_FIND

inductive SubgroupsBroadcastOp
  | broadcast
  | broadcastFirst
  | nonUniformBroadcast
  deriving DecidableEq

namespace BC

variable {Ty : Type}

/-- The place in `m` of the index that lane `i` of `n` takes, after the pointer. -/
def midx (operation : SubgroupsBroadcastOp) (offset i n : ℕ) : ℕ :=
  if operation = .broadcast ∨ i < n / 2 then 4 * offset + 4 * i + 2 else 4 * offset + 4 * i + 3

/-- `tr`. -/
def broadcastValue (operation : SubgroupsBroadcastOp) (m : Buffer ℤ) (base offset i n : ℕ)
    (s : Scratch Ty) : Traced (Verdict Ty) Ty :=
  if operation = .broadcastFirst then
    let lowestActiveId := if i < n / 2 then 0 else n / 2
    s.mx.read (offset + lowestActiveId)
  else do
    let l ← m.read (4 * base + midx operation offset i n)
    s.mx.readAt (offset + l)

def check (operation : SubgroupsBroadcastOp) (compare : Ty → Ty → Bool) (m : Buffer ℤ)
    (base offset n : ℕ) (s : Scratch Ty) : Traced (Verdict Ty) Unit :=
  forRange (fun i _ => do
    let tr ← broadcastValue operation m base offset i n s
    let rr ← s.my.read (offset + i)
    compareItem (base + offset + i) rr (compare rr tr)) () n

def chk (operation : SubgroupsBroadcastOp) (compare : Ty → Ty → Bool) (a : Arrays p Ty) :
    Traced (Verdict Ty) (Cursor (Scratch Ty)) :=
  verifyGroups a p.allGroups p.nonUniformSize (check operation compare a.m)

end BC

inductive NonUniformVoteOp
  | elect
  | all
  | any
  | allEqual
  deriving DecidableEq

namespace VOTE

variable {T : Type}

/-- `tr` and `active_work_items`. -/
def votes (operation : NonUniformVoteOp) (compareOrdered : T → T → Bool) (zero : T)
    (mask : BitVec 128) (mx : Buffer T) (offset n : ℕ) : Traced (Verdict T) (Bool × List ℕ) :=
  forRange (fun i s => do
    if ← testMask mask i then
      let active := s.2 ++ [i]
      match operation with
      | .elect => pure (s.1, active)
      | .all => do
        let v ← mx.read (offset + i)
        pure (s.1 && !compareOrdered v zero, active)
      | .any => do
        let v ← mx.read (offset + i)
        pure (s.1 || !compareOrdered v zero, active)
      | .allEqual => do
        let v ← mx.read (offset + i)
        let first ← mx.read (offset + active.headD 0)
        pure (s.1 && compareOrdered v first, active)
    else pure s) (operation = .all ∨ operation = .allEqual, []) n

def check (operation : NonUniformVoteOp) (compareOrdered : T → T → Bool) (zero : T)
    (mask : BitVec 128) (base offset n : ℕ) (s : Scratch T) : Traced (Verdict T) Unit := do
  let (tr, active) ← votes operation compareOrdered zero mask s.mx offset n
  if active = [] then pure ()
  else forEach (fun i _ => do
    let expected := if operation = .elect then decide (i = active.headD 0) else tr
    let v ← s.my.read (offset + i)
    let rr := !compareOrdered v zero
    compareItem (base + offset + i) v (rr = expected)) active ()

def chk (operation : NonUniformVoteOp) (compareOrdered : T → T → Bool) (zero : T)
    (a : Arrays p T) : Traced (Verdict T) (Cursor (Scratch T)) :=
  verifyGroups a p.allGroups p.nonUniformSize
    (check operation compareOrdered zero p.workItemsMask)

end VOTE

end

/-! ### The rule of the loops -/

section

variable {p : WorkGroupParams} {α : Type} {a : Arrays p α} {E : Stop → Prop}

/-- The scratch arrays hold `n` work-items from `base` on. -/
structure Loaded (a : Arrays p α) (base n : ℕ) (s : Scratch α) : Prop where
  mx_size : s.mx.size = p.localWorkgroupSize
  my_size : s.my.size = p.localWorkgroupSize
  mx_get : ∀ j < n, s.mx.get j = a.x.get (base + j)
  my_get : ∀ j < n, s.my.get j = a.y.get (base + j)

theorem spec_readGroup {τ : Type} {base n : ℕ} {s : Scratch α} (hn : n ≤ p.localWorkgroupSize)
    (hbase : base + n ≤ p.globalWorkgroupSize) (hs : Loaded a base 0 s) :
    Spec (readGroup a.x a.y base n s : Traced τ (Scratch α)) [] (Loaded a base n) E := by
  apply Spec.forRange_silent (I := fun j => Loaded a base j)
  · intro j s hj hs
    have hx : base + j < a.x.size := by
      rw [a.x_size]
      omega
    have hy : base + j < a.y.size := by
      rw [a.y_size]
      omega
    have hmx : j < s.mx.size := by
      rw [hs.mx_size]
      omega
    have hmy : j < s.my.size := by
      rw [hs.my_size]
      omega
    refine (Buffer.spec_read hx).silent_bind ?_
    rintro xj rfl
    refine (Buffer.spec_write hmx).silent_bind ?_
    rintro mx rfl
    refine (Buffer.spec_read hy).silent_bind ?_
    rintro yj rfl
    refine (Buffer.spec_write hmy).silent_bind ?_
    rintro my rfl
    refine .pure ⟨hs.mx_size, hs.my_size, fun i hi => ?_, fun i hi => ?_⟩
    · rcases Nat.lt_or_eq_of_le (Nat.le_of_lt_succ hi) with hlt | rfl
      · exact (Buffer.set_get_of_ne hlt.ne).trans (hs.mx_get i hlt)
      · exact Buffer.set_get_self ..
    · rcases Nat.lt_or_eq_of_le (Nat.le_of_lt_succ hi) with hlt | rfl
      · exact (Buffer.set_get_of_ne hlt.ne).trans (hs.my_get i hlt)
      · exact Buffer.set_get_self ..
  · exact hs

/-- What holds when a sub-group of `n` is verified. -/
structure Turn (a : Arrays p α) (wgNumber r base offset n : ℕ) (s : Scratch α) : Prop where
  subgroup : p.Subgroup wgNumber r base offset n
  covered : p.covered wgNumber r ≤ p.globalWorkgroupSize
  mx_size : s.mx.size = p.localWorkgroupSize
  my_size : s.my.size = p.localWorkgroupSize
  mx_get : ∀ i < n, s.mx.get (offset + i) = a.x.get (base + offset + i)
  my_get : ∀ i < n, s.my.get (offset + i) = a.y.get (base + offset + i)

theorem Turn.of_loaded {wgNumber r k sbId : ℕ} {z : Sizes} {s : Scratch α}
    (hz : p.SizesOf wgNumber r k z) (hsbs : 0 < p.subgroupSize) (hr : r < p.localWorkgroupSize)
    (hcovered : p.covered wgNumber r ≤ p.globalWorkgroupSize) (hlt : sbId < z.numberOfSubgroups)
    (hs : Loaded a (k * p.localWorkgroupSize) z.workgroupSize s) :
    Turn a wgNumber r (k * p.localWorkgroupSize) (sbId * p.subgroupSize)
      (min p.subgroupSize (z.workgroupSize - sbId * p.subgroupSize)) s := by
  refine ⟨hz.subgroup hsbs hr hlt, hcovered, hs.mx_size, hs.my_size, fun i h => ?_, fun i h => ?_⟩
  · rw [hs.mx_get _ (by omega), Nat.add_assoc]
  · rw [hs.my_get _ (by omega), Nat.add_assoc]

theorem Turn.spec_mx {τ : Type} {wgNumber r base offset n : ℕ} {s : Scratch α}
    (h : Turn a wgNumber r base offset n s) {i : ℕ} (hi : i < n) :
    Spec (s.mx.read (offset + i) : Traced τ α) [] (· = a.x.get (base + offset + i)) E :=
  (Buffer.spec_read (h.mx_size ▸ h.subgroup.inGroup i hi)).imp
    fun _ hv => hv.trans (h.mx_get i hi)

theorem Turn.spec_my {τ : Type} {wgNumber r base offset n : ℕ} {s : Scratch α}
    (h : Turn a wgNumber r base offset n s) {i : ℕ} (hi : i < n) :
    Spec (s.my.read (offset + i) : Traced τ α) [] (· = a.y.get (base + offset + i)) E :=
  (Buffer.spec_read (h.my_size ▸ h.subgroup.inGroup i hi)).imp
    fun _ hv => hv.trans (h.my_get i hi)

theorem spec_verifyTurn {τ : Type} {wgNumber r k : ℕ} {z : Sizes} {s : Scratch α}
    (hz : p.SizesOf wgNumber r k z) (hsbs : 0 < p.subgroupSize) (hr : r < p.localWorkgroupSize)
    (hcovered : p.covered wgNumber r ≤ p.globalWorkgroupSize) {P : List τ} {t : ℕ → List τ}
    (prepare : ℕ → ℕ → Traced τ Unit) {check : ℕ → ℕ → ℕ → Scratch α → Traced τ Unit}
    (hprepare : Spec (prepare (k * p.localWorkgroupSize) z.workgroupSize) P (fun _ => True) E)
    (hcheck : ∀ base offset n s, Turn a wgNumber r base offset n s →
      Spec (check base offset n s) (tracesFrom t (base + offset) n) (fun _ => True) E)
    (hs : s.mx.size = p.localWorkgroupSize ∧ s.my.size = p.localWorkgroupSize) :
    Spec (do
      let s ← readGroup a.x a.y (k * p.localWorkgroupSize) z.workgroupSize s
      prepare (k * p.localWorkgroupSize) z.workgroupSize
      eachSubgroup p.subgroupSize z (fun offset n s => do
        check (k * p.localWorkgroupSize) offset n s
        pure s) s) (P ++ tracesFrom t (k * p.localWorkgroupSize) z.workgroupSize)
      (fun s => s.mx.size = p.localWorkgroupSize ∧ s.my.size = p.localWorkgroupSize) E := by
  obtain ⟨hwg, hend⟩ := hz.end_le hr.le
  have hempty : Loaded a (k * p.localWorkgroupSize) 0 s :=
    ⟨hs.1, hs.2, fun j hj => absurd hj (Nat.not_lt_zero j),
      fun j hj => absurd hj (Nat.not_lt_zero j)⟩
  refine (spec_readGroup hwg (hend.trans hcovered) hempty).silent_bind ?_
  intro s hs
  refine hprepare.bind ?_
  intro _ _
  refine Spec.imp (spec_eachSubgroup (hz.cut hsbs)
    (I := fun _ s => Loaded a (k * p.localWorkgroupSize) z.workgroupSize s) ?_ hs)
    fun s hs => ⟨hs.mx_size, hs.my_size⟩
  rintro sbId n s hlt rfl hs
  refine (hcheck _ _ _ s (.of_loaded hz hsbs hr hcovered hlt hs)).bind_silent ?_
  exact fun _ _ => .pure hs

/-- **The rule of the loops of a verifier**, by what one sub-group leaves. -/
theorem spec_verifyGroups {τ : Type} {wgNumber r : ℕ} (hnumber : r = 0 ∨ 0 < wgNumber)
    (hsbs : 0 < p.subgroupSize) (hr : r < p.localWorkgroupSize)
    (hcovered : p.covered wgNumber r ≤ p.globalWorkgroupSize) {t : ℕ → List τ}
    {check : ℕ → ℕ → ℕ → Scratch α → Traced τ Unit}
    (hcheck : ∀ base offset n s, Turn a wgNumber r base offset n s →
      Spec (check base offset n s) (tracesFrom t (base + offset) n) (fun _ => True) E) :
    Spec (verifyGroups a wgNumber r check) (tracesFrom t 0 (p.covered wgNumber r))
      (fun _ => True) E := by
  refine Spec.imp (spec_eachWorkGroup hnumber (I := fun _ s =>
    s.mx.size = p.localWorkgroupSize ∧ s.my.size = p.localWorkgroupSize) ?_
    ⟨a.mx_size, a.my_size⟩) fun _ _ => trivial
  intro k z s hz hs
  exact spec_verifyTurn (P := []) hz hsbs hr hcovered (fun _ _ => pure ()) (.pure trivial) hcheck hs

theorem spec_verifyPrepared {τ : Type} (hsbs : 0 < p.subgroupSize)
    (hlocal : 0 < p.localWorkgroupSize) {P : ℕ → List τ} {t : ℕ → List τ}
    {prepare : ℕ → ℕ → Traced τ Unit} {check : ℕ → ℕ → ℕ → Scratch α → Traced τ Unit}
    (hprepare : ∀ k < p.fullGroups,
      Spec (prepare (k * p.localWorkgroupSize) p.localWorkgroupSize) (P k) (fun _ => True) E)
    (hcheck : ∀ base offset n s, Turn a p.fullGroups 0 base offset n s →
      Spec (check base offset n s) (tracesFrom t (base + offset) n) (fun _ => True) E) :
    Spec (verifyPrepared a p.fullGroups 0 prepare check)
      ((List.range p.fullGroups).flatMap fun k =>
        P k ++ tracesFrom t (k * p.localWorkgroupSize) p.localWorkgroupSize)
      (fun _ => True) E := by
  have hcounted : p.Counted p.fullGroups 0 := .inr ⟨rfl, rfl⟩
  refine Spec.imp (spec_eachFullGroup (I := fun _ s =>
    s.mx.size = p.localWorkgroupSize ∧ s.my.size = p.localWorkgroupSize) ?_
    ⟨a.mx_size, a.my_size⟩ (.inl rfl)) fun _ _ => trivial
  intro k s hk hs
  exact spec_verifyTurn (z := p.sizes) (.inl ⟨hk, .inl rfl, rfl⟩) hsbs hlocal hcounted.covered_le
    prepare (hprepare k hk) hcheck hs

end

/-! ### What the verifiers compare -/

section

variable {p : WorkGroupParams} {α σ : Type} {a : Arrays p α}

/-- The output does not agree. -/
def Verdict.Bad (t : Verdict α) : Prop := t.2.2 = false

instance : DecidablePred (Verdict.Bad (α := α)) := fun t => inferInstanceAs (Decidable (t.2.2 = false))

/-- **A run compares the outputs of these work-items**, each of them once and in this order, up to
the first that does not agree; if all agree it comes to its end. -/
def Covers (a : Arrays p α) (run : Traced (Verdict α) σ) (items : List ℕ) (agrees : ℕ → Bool) :
    Prop :=
  Checks Verdict.Bad run (items.map fun g => (g, a.y.get g, agrees g))

/-- What work-item `g` leaves, if those of `selected` are compared. -/
def traceOf (a : Arrays p α) (selected agrees : ℕ → Bool) (g : ℕ) : List (Verdict α) :=
  if selected g then [(g, a.y.get g, agrees g)] else []

theorem flatMap_traceOf (selected agrees : ℕ → Bool) (gs : List ℕ) :
    gs.flatMap (traceOf a selected agrees)
      = (gs.filter selected).map fun g => (g, a.y.get g, agrees g) := by
  induction gs with
  | nil => rfl
  | cons g gs ih =>
    rw [List.flatMap_cons, ih, traceOf]
    by_cases hg : selected g = true
    · rw [if_pos hg, List.filter_cons_of_pos hg, List.map_cons, List.singleton_append]
    · rw [if_neg hg, List.filter_cons_of_neg hg, List.nil_append]

theorem tracesFrom_traceOf (selected agrees : ℕ → Bool) (n : ℕ) :
    tracesFrom (traceOf a selected agrees) 0 n
      = ((List.range n).filter selected).map fun g => (g, a.y.get g, agrees g) := by
  rw [tracesFrom, ← List.range_eq_range', flatMap_traceOf]

/-- The sizes of a test. -/
structure WorkGroupParams.Valid (p : WorkGroupParams) : Prop where
  local_pos : 1 ≤ p.localWorkgroupSize
  local_le : p.localWorkgroupSize ≤ p.globalWorkgroupSize
  subgroup_pos : 1 ≤ p.subgroupSize
  subgroup_le : p.subgroupSize ≤ 128

theorem failsAt_verifyPrepared {τ : Type} {bad : τ → Prop} {wgNumber r : ℕ}
    {prepare : ℕ → ℕ → Traced τ Unit} {check : ℕ → ℕ → ℕ → Scratch α → Traced τ Unit}
    (hprepare : ∀ base n, FailsAt bad (prepare base n))
    (hcheck : ∀ base offset n s, FailsAt bad (check base offset n s)) :
    FailsAt bad (verifyPrepared a wgNumber r prepare check) := by
  have hread : ∀ base n s, FailsAt bad (readGroup a.x a.y base n s : Traced τ (Scratch α)) := by
    intro base n s
    refine .forRange (fun j s => ?_) s n
    refine .bind (Buffer.failsAt_read _ _) fun xj => .bind (Buffer.failsAt_write _ _ _) fun mx => ?_
    exact .bind (Buffer.failsAt_read _ _) fun yj => .bind (Buffer.failsAt_write _ _ _) fun my =>
      .pure _
  refine .forRange (fun k c => ?_) _ _
  refine .bind (.bind (hread _ _ _) fun s => .bind (hprepare _ _) fun _ => ?_) fun _ => .pure _
  exact .forRange (fun sbId s => .bind (hcheck _ _ _ _) fun _ => .pure s) _ _

theorem covers_allGroups (hp : p.Valid) (selected agrees : ℕ → Bool)
    {check : ℕ → ℕ → ℕ → Scratch α → Traced (Verdict α) Unit}
    (hfails : ∀ base offset n s, FailsAt Verdict.Bad (check base offset n s))
    (hcheck : ∀ base offset n s, Turn a p.allGroups p.nonUniformSize base offset n s →
      Spec (check base offset n s) (tracesFrom (traceOf a selected agrees) (base + offset) n)
        (fun _ => True) (· = Stop.failed)) :
    Covers a (verifyGroups a p.allGroups p.nonUniformSize check)
      ((List.range p.globalWorkgroupSize).filter selected) agrees := by
  have hcounted : p.Counted p.allGroups p.nonUniformSize := .inl ⟨rfl, rfl⟩
  have hspec := spec_verifyGroups (a := a) hcounted.pos hp.subgroup_pos
    (hcounted.lt hp.local_pos) hcounted.covered_le hcheck
  rw [WorkGroupParams.covered_allGroups, tracesFrom_traceOf] at hspec
  exact hspec.checks (failsAt_verifyPrepared (fun _ _ => .pure ()) hfails)

theorem covers_all (hp : p.Valid) (agrees : ℕ → Bool)
    {check : ℕ → ℕ → ℕ → Scratch α → Traced (Verdict α) Unit}
    (hfails : ∀ base offset n s, FailsAt Verdict.Bad (check base offset n s))
    (hcheck : ∀ base offset n s, Turn a p.allGroups p.nonUniformSize base offset n s →
      Spec (check base offset n s)
        (tracesFrom (traceOf a (fun _ => true) agrees) (base + offset) n)
        (fun _ => True) (· = Stop.failed)) :
    Covers a (verifyGroups a p.allGroups p.nonUniformSize check)
      (List.range p.globalWorkgroupSize) agrees := by
  have hcovers := covers_allGroups hp (fun _ => true) agrees hfails hcheck
  rwa [List.filter_true] at hcovers

theorem failsAt_compareItem (g : ℕ) (v : α) (agrees : Bool) :
    FailsAt Verdict.Bad (compareItem g v agrees) := .judge Iff.rfl

theorem spec_compareItem {g : ℕ} {v : α} {agrees : Bool} {expected : ℕ → Bool}
    (hv : v = a.y.get g) (hagrees : agrees = expected g) :
    Spec (compareItem g v agrees) (traceOf a (fun _ => true) expected g) (fun _ => True)
      (· = Stop.failed) := by
  subst hv hagrees
  exact .judge rfl

theorem spec_testMask {τ : Type} {E : Stop → Prop} (mask : BitVec 128) {i : ℕ} (hi : i < 128) :
    Spec (testMask mask i : Traced τ Bool) [] (· = mask.getLsbD i) E := by
  rw [testMask, if_pos hi]
  exact .pure rfl

theorem failsAt_testMask {τ : Type} {bad : τ → Prop} (mask : BitVec 128) (i : ℕ) :
    FailsAt bad (testMask mask i) :=
  .ite (.pure _) (.stop Stop.noConfusion)

theorem filter_range_succ (f : ℕ → Bool) (i : ℕ) : (List.range (i + 1)).filter f
    = (List.range i).filter f ++ if f i = true then [i] else [] := by
  rw [List.range_succ, List.filter_append, List.filter_singleton]
  cases f i <;> rfl

theorem filter_skip {f : ℕ → Bool} {i : ℕ} (h : f i = false) :
    (List.range (i + 1)).filter f = (List.range i).filter f := by
  rw [filter_range_succ, h, if_neg Bool.false_ne_true, List.append_nil]

theorem filter_take {f : ℕ → Bool} {i : ℕ} (h : f i = true) :
    (List.range (i + 1)).filter f = (List.range i).filter f ++ [i] := by
  rw [filter_range_succ, if_pos h]

/-- **A loop that collects the active lanes**, and does something for each of them. -/
theorem spec_collectActive {σ τ : Type} {E : Stop → Prop} {mask : BitVec 128} {n : ℕ}
    (hn : n ≤ 128) (active : σ → List ℕ) {I : σ → Prop} {body : ℕ → σ → Traced τ σ} {s : σ}
    (h0 : active s = []) (hI : I s)
    (hbody : ∀ i s, i < n → active s = (List.range i).filter mask.getLsbD → I s →
      Spec (body i s) [] (fun s' => active s' = active s ++ [i] ∧ I s') E) :
    Spec (forRange (fun i s => do if ← testMask mask i then body i s else pure s) s n) []
      (fun s' => active s' = (List.range n).filter mask.getLsbD ∧ I s') E := by
  apply Spec.forRange_silent
    (I := fun i s => active s = (List.range i).filter mask.getLsbD ∧ I s)
  · rintro i s hi ⟨hactive, hs⟩
    refine (spec_testMask mask (by omega)).silent_bind ?_
    rintro b rfl
    refine .ite (fun hb => ?_) fun hb => ?_
    · refine (hbody i s hi hactive hs).imp ?_
      rintro s' ⟨hnext, hs'⟩
      exact ⟨by rw [hnext, hactive, filter_take hb], hs'⟩
    · exact .pure ⟨by rw [filter_skip (Bool.eq_false_iff.mpr hb), hactive], hs⟩
  · exact ⟨h0, hI⟩

theorem failsAt_collectActive {σ τ : Type} {bad : τ → Prop} {mask : BitVec 128}
    {body : ℕ → σ → Traced τ σ} (hbody : ∀ i s, FailsAt bad (body i s)) (s : σ) (n : ℕ) :
    FailsAt bad (forRange (fun i s => do if ← testMask mask i then body i s else pure s) s n) :=
  .forRange (fun i s => .bind (failsAt_testMask mask i) fun _ => .ite (hbody i s) (.pure s)) s n

theorem failsAt_activeItems (base offset : ℕ) (s : Scratch α) (active : List ℕ)
    (agrees : ℕ → α → Bool) :
    FailsAt Verdict.Bad (forEach (fun i _ => do
      let v ← s.my.read (offset + i)
      compareItem (base + offset + i) v (agrees i v)) active ()) :=
  .forEach (fun _ _ => .bind (Buffer.failsAt_read _ _) fun _ => failsAt_compareItem _ _ _) active ()

theorem Turn.place {base offset n : ℕ} {s : Scratch α}
    (h : Turn a p.allGroups p.nonUniformSize base offset n s) {i : ℕ} (hi : i < n) :
    p.lane (base + offset + i) = i ∧ p.start (base + offset + i) = base + offset ∧
      p.subgroupSizeAt (base + offset + i) = n := by
  obtain ⟨hlane, hsize⟩ := h.subgroup.place (.inl ⟨rfl, rfl⟩) i hi
  refine ⟨hlane, ?_, hsize⟩
  rw [WorkGroupParams.start, hlane, Nat.add_sub_cancel]

theorem spec_activeItems {base offset n : ℕ} {s : Scratch α} (mask : BitVec 128)
    (h : Turn a p.allGroups p.nonUniformSize base offset n s) (agrees : ℕ → α → Bool)
    {expected : ℕ → Bool} (hagrees : ∀ i < n,
      agrees i (a.y.get (base + offset + i)) = expected (base + offset + i)) :
    Spec (forEach (fun i _ => do
        let v ← s.my.read (offset + i)
        compareItem (base + offset + i) v (agrees i v))
      ((List.range n).filter mask.getLsbD) ())
      (tracesFrom (traceOf a (fun g => mask.getLsbD (p.lane g)) expected) (base + offset) n)
      (fun _ => True) (· = Stop.failed) := by
  rw [List.range_eq_range']
  refine Spec.congr (Spec.forEach_filter (I := fun _ _ => True)
    (T := fun i => traceOf a (fun _ => true) expected (base + offset + i)) ?_ ?_ trivial) ?_
  · intro i _ hi _ _
    refine (h.spec_my (by omega)).silent_bind ?_
    rintro v rfl
    exact spec_compareItem rfl (hagrees i (by omega))
  · exact fun _ _ _ _ => trivial
  · rw [← List.range_eq_range', ← flatMap_range_eq]
    refine List.flatMap_congr ?_
    intro i hi
    simp only [traceOf, (h.place (List.mem_range.mp hi)).1, if_true]

/-! ### The verifiers one by one -/

/-- The active lanes of the sub-group of a work-item. -/
def WorkGroupParams.activeLanes (p : WorkGroupParams) (mask : BitVec 128) (g : ℕ) : List ℕ :=
  (List.range (p.subgroupSizeAt g)).filter mask.getLsbD

/-- The ballot of the active lanes of a sub-group. -/
def BALLOT.ballot (value : ℕ → ClUint4) (active : List ℕ) : Bs128 :=
  active.foldl (fun bits i => bits ||| (if (value i).s0 ≠ 0 then (1 : Bs128) else 0) <<< i) 0

/-- The output is the ballot of the sub-group. -/
def BALLOT.agrees (a : Arrays p ClUint4) (g : ℕ) : Bool :=
  clUint4ToBs128 (a.y.get g) = BALLOT.ballot (fun i => a.x.get (p.start g + i))
    (p.activeLanes p.workItemsMask g)

theorem BALLOT.failsAt_check (mask : BitVec 128) (base offset n : ℕ) (s : Scratch ClUint4) :
    FailsAt Verdict.Bad (BALLOT.check mask base offset n s) :=
  .bind (failsAt_collectActive (fun _ _ => .bind (Buffer.failsAt_read _ _) fun _ => .pure _) _ _)
    fun _ => .ite (.pure ()) (failsAt_activeItems _ _ _ _ _)

/-- **`BALLOT::chk`** compares the outputs of the active work-items. -/
theorem covers_ballot (hp : p.Valid) (a : Arrays p ClUint4) :
    Covers a (BALLOT.chk a)
      ((List.range p.globalWorkgroupSize).filter fun g => p.workItemsMask.getLsbD (p.lane g))
      (BALLOT.agrees a) := by
  apply covers_allGroups hp _ _ (BALLOT.failsAt_check _)
  intro base offset n s h
  have hpredicates : Spec (BALLOT.predicates p.workItemsMask s.mx offset n) []
      (fun r => r.2 = (List.range n).filter p.workItemsMask.getLsbD ∧
        r.1 = BALLOT.ballot (fun i => a.x.get (base + offset + i)) r.2) (· = Stop.failed) := by
    refine spec_collectActive (h.subgroup.size_le.trans hp.subgroup_le) Prod.snd rfl rfl ?_
    rintro i ⟨bits, active⟩ hi _ hbits
    refine (h.spec_mx hi).silent_bind ?_
    rintro v rfl
    refine .pure ⟨rfl, ?_⟩
    dsimp only at hbits ⊢
    rw [BALLOT.ballot, List.foldl_append, hbits]
    rfl
  refine hpredicates.silent_bind ?_
  rintro ⟨bits, active⟩ ⟨hactive, hbits⟩
  dsimp only at hactive hbits
  have hagrees : ∀ i < n, decide (clUint4ToBs128 (a.y.get (base + offset + i)) = bits)
      = BALLOT.agrees a (base + offset + i) := by
    intro i hi
    obtain ⟨-, hstart, hsize⟩ := h.place hi
    rw [BALLOT.agrees, WorkGroupParams.activeLanes, hstart, hsize, hbits, hactive]
  have hitems := spec_activeItems p.workItemsMask h
    (fun _ v => clUint4ToBs128 v = bits) hagrees
  rw [← hactive] at hitems
  refine .ite (fun hempty => ?_) fun _ => hitems
  rw [hempty] at hitems
  exact hitems

/-- The vote of the active lanes of a sub-group, as lane `i` of them gets it. -/
def VOTE.vote (operation : NonUniformVoteOp) (compareOrdered : α → α → Bool) (zero : α)
    (value : ℕ → α) (active : List ℕ) (i : ℕ) : Bool :=
  match operation with
  | .elect => i = active.headD 0
  | .all => active.all fun j => !compareOrdered (value j) zero
  | .any => active.any fun j => !compareOrdered (value j) zero
  | .allEqual => active.all fun j => compareOrdered (value j) (value (active.headD 0))

/-- The output is this vote. -/
def VOTE.agrees (operation : NonUniformVoteOp) (compareOrdered : α → α → Bool) (zero : α)
    (a : Arrays p α) (g : ℕ) : Bool :=
  (!compareOrdered (a.y.get g) zero) = VOTE.vote operation compareOrdered zero
    (fun j => a.x.get (p.start g + j)) (p.activeLanes p.workItemsMask g) (p.lane g)

theorem VOTE.failsAt_check (operation : NonUniformVoteOp) (compareOrdered : α → α → Bool)
    (zero : α) (mask : BitVec 128) (base offset n : ℕ) (s : Scratch α) :
    FailsAt Verdict.Bad (VOTE.check operation compareOrdered zero mask base offset n s) := by
  refine .bind (failsAt_collectActive (fun i s => ?_) _ _) fun _ =>
    .ite (.pure ()) (failsAt_activeItems _ _ _ _ _)
  cases operation with
  | elect => exact .pure _
  | all | any => exact .bind (Buffer.failsAt_read _ _) fun _ => .pure _
  | allEqual =>
    exact .bind (Buffer.failsAt_read _ _) fun _ => .bind (Buffer.failsAt_read _ _) fun _ => .pure _

/-- **The votes of a sub-group.**  For `elect` there is nothing to be counted. -/
theorem spec_votes {E : Stop → Prop} {base offset n : ℕ} {s : Scratch α}
    (h : Turn a p.allGroups p.nonUniformSize base offset n s) (hn : n ≤ 128)
    (operation : NonUniformVoteOp) (compareOrdered : α → α → Bool) (zero : α) (mask : BitVec 128) :
    Spec (VOTE.votes operation compareOrdered zero mask s.mx offset n) []
      (fun r => r.2 = (List.range n).filter mask.getLsbD ∧
        ∀ i, (if operation = .elect then decide (i = r.2.headD 0) else r.1)
          = VOTE.vote operation compareOrdered zero (fun j => a.x.get (base + offset + j)) r.2 i)
      E := by
  refine spec_collectActive hn Prod.snd rfl ?_ ?_
  · intro i
    cases operation <;> rfl
  · rintro i ⟨tr, active⟩ hi hactive htr
    dsimp only at hactive htr
    cases operation with
    | elect => exact .pure ⟨rfl, fun _ => rfl⟩
    | all =>
      refine (h.spec_mx hi).silent_bind ?_
      rintro v rfl
      refine .pure ⟨rfl, fun j => ?_⟩
      have htr' : tr = active.all _ := htr 0
      simp [VOTE.vote, htr']
    | any =>
      refine (h.spec_mx hi).silent_bind ?_
      rintro v rfl
      refine .pure ⟨rfl, fun j => ?_⟩
      have htr' : tr = active.any _ := htr 0
      simp [VOTE.vote, htr']
    | allEqual =>
      have htr' : tr = active.all _ := htr 0
      -- the first active work-item is one of those that were seen
      have hfirst : (active ++ [i]).headD 0 < n := by
        cases active with
        | nil => exact hi
        | cons j js =>
          have hj : j ∈ (List.range i).filter mask.getLsbD := by
            rw [← hactive]
            exact List.mem_cons_self
          exact (List.mem_range.mp (List.mem_of_mem_filter hj)).trans hi
      refine (h.spec_mx hi).silent_bind ?_
      rintro v rfl
      refine (h.spec_mx hfirst).silent_bind ?_
      rintro first rfl
      refine .pure ⟨rfl, fun j => ?_⟩
      cases active with
      | nil => simp [VOTE.vote, htr']
      | cons j js => simp [VOTE.vote, htr', Bool.and_assoc]

/-- **`VOTE::chk`** compares the outputs of the active work-items. -/
theorem covers_vote (hp : p.Valid) (operation : NonUniformVoteOp) (compareOrdered : α → α → Bool)
    (zero : α) (a : Arrays p α) :
    Covers a (VOTE.chk operation compareOrdered zero a)
      ((List.range p.globalWorkgroupSize).filter fun g => p.workItemsMask.getLsbD (p.lane g))
      (VOTE.agrees operation compareOrdered zero a) := by
  apply covers_allGroups hp _ _ (VOTE.failsAt_check operation compareOrdered zero _)
  intro base offset n s h
  refine (spec_votes h (h.subgroup.size_le.trans hp.subgroup_le) operation compareOrdered zero
    p.workItemsMask).silent_bind ?_
  rintro ⟨tr, active⟩ ⟨hactive, htr⟩
  dsimp only at hactive htr
  have hagrees : ∀ i < n, decide ((!compareOrdered (a.y.get (base + offset + i)) zero)
        = if operation = .elect then decide (i = active.headD 0) else tr)
      = VOTE.agrees operation compareOrdered zero a (base + offset + i) := by
    intro i hi
    obtain ⟨hlane, hstart, hsize⟩ := h.place hi
    rw [VOTE.agrees, WorkGroupParams.activeLanes, hstart, hsize, hlane, ← hactive, htr i]
  have hitems := spec_activeItems p.workItemsMask h (fun i v => (!compareOrdered v zero)
    = if operation = .elect then decide (i = active.headD 0) else tr) hagrees
  rw [← hactive] at hitems
  refine .ite (fun hempty => ?_) fun _ => hitems
  rw [hempty] at hitems
  exact hitems

/-- The output is the one that the parity of the lane asks for. -/
def BALLOT_INVERSE.agrees (a : Arrays p ClUint4) (g : ℕ) : Bool :=
  a.y.get g = if p.lane g % 2 = 1 then ⟨1, 0, 0, 1⟩ else ⟨1, 0, 0, 2⟩

/-- **`BALLOT_INVERSE::chk`** compares all outputs. -/
theorem covers_inverse (hp : p.Valid) (a : Arrays p ClUint4) :
    Covers a (BALLOT_INVERSE.chk a) (List.range p.globalWorkgroupSize)
      (BALLOT_INVERSE.agrees a) := by
  apply covers_all hp
  · intro base offset n s
    exact .forRange (fun _ _ => .bind (Buffer.failsAt_read _ _) fun _ => failsAt_compareItem _ _ _)
      _ _
  · intro base offset n s h
    apply spec_items (I := fun _ _ => True)
    · intro i _ hi _
      refine (h.spec_my hi).silent_bind ?_
      rintro v rfl
      refine spec_compareItem rfl ?_
      rw [BALLOT_INVERSE.agrees, (h.place hi).1]
    · trivial

/-- The output is what is expected, if something is. -/
def BALLOT_COUNT_SCAN_FIND.agrees (operation : BallotOp) (a : Arrays p ClUint4) (g : ℕ) : Bool :=
  match expectedResult operation (p.lane g) p.subgroupSize 0 (a.x.get g) with
  | none => true
  | some expected => (a.y.get g).s0 = BitVec.ofNat 32 expected

theorem BALLOT_COUNT_SCAN_FIND.failsAt_check (operation : BallotOp) (sbs base offset n : ℕ)
    (s : Scratch ClUint4) :
    FailsAt Verdict.Bad (BALLOT_COUNT_SCAN_FIND.check operation sbs base offset n s) := by
  refine .bind (.forRange (fun i previous => ?_) _ _) fun _ => .pure ()
  refine .bind (Buffer.failsAt_read _ _) fun v => .bind (Buffer.failsAt_read _ _) fun _ => ?_
  cases expectedResult operation i sbs previous v with
  | none => exact .pure previous
  | some expected => exact .bind (failsAt_compareItem _ _ _) fun _ => .pure expected

/-- `BALLOT_COUNT_SCAN_FIND::chk` compares the outputs for which something is expected. -/
theorem covers_countScanFind (hp : p.Valid) {operation : BallotOp} (defined : ClUint4 → Bool)
    (hprevious : ∀ i previous v, expectedResult operation i p.subgroupSize previous v
      = expectedResult operation i p.subgroupSize 0 v)
    (hdefined : ∀ i < 128, ∀ v,
      expectedResult operation i p.subgroupSize 0 v = none ↔ ¬ defined v = true)
    (a : Arrays p ClUint4) :
    Covers a (BALLOT_COUNT_SCAN_FIND.chk operation a)
      ((List.range p.globalWorkgroupSize).filter fun g => defined (a.x.get g))
      (BALLOT_COUNT_SCAN_FIND.agrees operation a) := by
  apply covers_allGroups hp _ _ (BALLOT_COUNT_SCAN_FIND.failsAt_check operation _)
  intro base offset n s h
  refine Spec.bind_silent (R := fun _ => True) (spec_items (I := fun _ _ => True) ?_ trivial) ?_
  · intro i previous hi _
    have hlane : i < 128 := by
      have := h.subgroup.size_le
      have := hp.subgroup_le
      omega
    refine (h.spec_mx hi).silent_bind ?_
    rintro v rfl
    refine (h.spec_my hi).silent_bind ?_
    rintro deviceResult rfl
    have hnone := hdefined i hlane (a.x.get (base + offset + i))
    rw [hprevious i previous, traceOf]
    cases hresult : expectedResult operation i p.subgroupSize 0 (a.x.get (base + offset + i)) with
    | none =>
      rw [if_neg (hnone.mp hresult)]
      exact .pure trivial
    | some expected =>
      rw [hresult] at hnone
      rw [if_pos (by simpa using hnone)]
      refine Spec.bind_silent (spec_compareItem rfl ?_) fun _ _ => .pure trivial
      rw [BALLOT_COUNT_SCAN_FIND.agrees, (h.place hi).1, hresult]
  · exact fun _ _ => .pure trivial

/-- **Counts and scans** are compared for all work-items. -/
theorem covers_countScan (hp : p.Valid) {operation : BallotOp}
    (hop : operation = .ballotBitCount ∨ operation = .ballotInclusiveScan ∨
      operation = .ballotExclusiveScan) (a : Arrays p ClUint4) :
    Covers a (BALLOT_COUNT_SCAN_FIND.chk operation a) (List.range p.globalWorkgroupSize)
      (BALLOT_COUNT_SCAN_FIND.agrees operation a) := by
  have hdefined : ∀ i < 128, ∀ v,
      expectedResult operation i p.subgroupSize 0 v = none ↔ ¬ true = true := by
    intro i hi v
    rcases hop with rfl | rfl | rfl
    · simp [expectedResult_count 0 v hp.subgroup_le]
    · simp [expectedResult_inclusive 0 v hi]
    · simp [expectedResult_exclusive 0 v hi]
  have hcovers := covers_countScanFind hp (fun _ => true) ?_ hdefined a
  · rwa [List.filter_true] at hcovers
  · intro i previous v
    rcases hop with rfl | rfl | rfl <;> rfl

theorem eq_of_search {x y : Option ℕ} {P : Prop} {Best : ℕ → Prop}
    (hunique : ∀ r r', Best r → Best r' → r = r') (hx : (x = none ↔ P) ∧ ∀ r, x = some r → Best r)
    (hy : (y = none ↔ P) ∧ ∀ r, y = some r → Best r) : x = y := by
  cases x with
  | none => exact (hy.1.mpr (hx.1.mp rfl)).symm
  | some r =>
    cases y with
    | none => exact absurd (hx.1.mpr (hy.1.mp rfl)) nofun
    | some r' => exact congrArg some (hunique r r' (hx.2 r rfl) (hy.2 r' rfl))

/-- **Searches** are compared for the work-items that have a bit below the sub-group size. -/
theorem covers_find (hp : p.Valid) {operation : BallotOp}
    (hop : operation = .ballotFindLsb ∨ operation = .ballotFindMsb) (a : Arrays p ClUint4) :
    Covers a (BALLOT_COUNT_SCAN_FIND.chk operation a)
      ((List.range p.globalWorkgroupSize).filter
        fun g => ∃ j < p.subgroupSize, SetAt (a.x.get g) j)
      (BALLOT_COUNT_SCAN_FIND.agrees operation a) := by
  apply covers_countScanFind hp fun v => ∃ j < p.subgroupSize, SetAt v j
  · intro i previous v
    rcases hop with rfl | rfl
    · exact eq_of_search (fun _ _ h h' => (h.2 h'.1).antisymm (h'.2 h.1))
        (expectedResult_findLsb previous v hp.subgroup_le i)
        (expectedResult_findLsb 0 v hp.subgroup_le i)
    · exact eq_of_search (fun _ _ h h' => (h'.2 h.1).antisymm (h.2 h'.1))
        (expectedResult_findMsb previous v hp.subgroup_le i)
        (expectedResult_findMsb 0 v hp.subgroup_le i)
  · intro i _ v
    have hnone : expectedResult operation i p.subgroupSize 0 v = none
        ↔ ∀ j < p.subgroupSize, ¬ SetAt v j := by
      rcases hop with rfl | rfl
      · exact (expectedResult_findLsb 0 v hp.subgroup_le i).1
      · exact (expectedResult_findMsb 0 v hp.subgroup_le i).1
    rw [hnone, decide_eq_true_eq]
    push Not
    rfl

/-- The output is the bit that is extracted; the indices are those of the sub-group. -/
def BALLOT_BIT_EXTRACT.agrees (a : Arrays p ClUint4) (g : ℕ) : Bool :=
  a.y.get g = expectedExtract (p.lane g) (a.m.get (4 * p.start g + 2)) (a.m.get (4 * p.start g + 3))
    (a.x.get g)

theorem BALLOT_BIT_EXTRACT.failsAt_check (m : Buffer ℤ) (base offset n : ℕ)
    (s : Scratch ClUint4) : FailsAt Verdict.Bad (BALLOT_BIT_EXTRACT.check m base offset n s) := by
  refine .bind (Buffer.failsAt_read _ _) fun _ => .bind (Buffer.failsAt_read _ _) fun _ => ?_
  refine .forRange (fun i _ => ?_) _ _
  exact .bind (Buffer.failsAt_read _ _) fun _ => .bind (Buffer.failsAt_read _ _) fun _ =>
    failsAt_compareItem _ _ _

/-- **`BALLOT_BIT_EXTRACT::chk`** compares all outputs if there is no last work-group that is
smaller. -/
theorem covers_bitExtract (hp : p.Valid) (hr : p.nonUniformSize = 0) (a : Arrays p ClUint4) :
    Covers a (BALLOT_BIT_EXTRACT.chk a) (List.range p.globalWorkgroupSize)
      (BALLOT_BIT_EXTRACT.agrees a) := by
  have hgroups : p.fullGroups = p.allGroups := (if_neg (not_not.mpr hr)).symm
  have hsum : p.fullGroups * p.localWorkgroupSize + p.nonUniformSize = p.globalWorkgroupSize :=
    Nat.div_add_mod' _ _
  rw [BALLOT_BIT_EXTRACT.chk, hgroups]
  apply covers_all hp _ (BALLOT_BIT_EXTRACT.failsAt_check a.m)
  intro base offset n s h
  have hstart : base + offset < p.allGroups * p.localWorkgroupSize := h.subgroup.start
  rw [← hgroups] at hstart
  have hread : ∀ d < 4, Spec (a.m.read (4 * base + (4 * offset + d)) : Traced (Verdict ClUint4) ℤ)
      [] (· = a.m.get (4 * (base + offset) + d)) (· = Stop.failed) := by
    intro d hd
    have hplace : 4 * base + (4 * offset + d) = 4 * (base + offset) + d := by omega
    rw [hplace]
    refine Buffer.spec_read ?_
    rw [a.m_size]
    omega
  refine (hread 2 (by decide)).silent_bind ?_
  rintro indexForOdd rfl
  refine (hread 3 (by decide)).silent_bind ?_
  rintro indexForEven rfl
  apply spec_items (I := fun _ _ => True)
  · intro i _ hi _
    refine (h.spec_mx hi).silent_bind ?_
    rintro v rfl
    refine (h.spec_my hi).silent_bind ?_
    rintro deviceResult rfl
    refine spec_compareItem rfl ?_
    obtain ⟨hlane, hstart, -⟩ := h.place hi
    rw [BALLOT_BIT_EXTRACT.agrees, hlane, hstart]
  · trivial

/-- The place, in the four numbers of a work-item, of the index that lane `i` of `n` takes. -/
def BC.slot (operation : SubgroupsBroadcastOp) (i n : ℕ) : ℕ :=
  if operation = .broadcast ∨ i < n / 2 then 2 else 3

theorem BC.slot_lt (operation : SubgroupsBroadcastOp) (i n : ℕ) : BC.slot operation i n < 4 := by
  rw [BC.slot]
  split <;> decide

theorem BC.midx_eq (operation : SubgroupsBroadcastOp) (base offset i n : ℕ) :
    4 * base + BC.midx operation offset i n = 4 * (base + offset + i) + BC.slot operation i n := by
  rw [BC.midx, BC.slot]
  split <;> omega

/-- The indices in `m` are lanes of the sub-groups that take them. -/
def BC.StoredIndices (p : WorkGroupParams) (operation : SubgroupsBroadcastOp) (m : Buffer ℤ) :
    Prop :=
  ∀ g < p.globalWorkgroupSize,
    0 ≤ m.get (4 * g + BC.slot operation (p.lane g) (p.subgroupSizeAt g)) ∧
      m.get (4 * g + BC.slot operation (p.lane g) (p.subgroupSizeAt g)) < p.subgroupSizeAt g

/-- The work-item whose value a lane takes. -/
def BC.source (operation : SubgroupsBroadcastOp) (a : Arrays p α) (g : ℕ) : ℕ :=
  p.start g + if operation = .broadcastFirst then
      if p.lane g < p.subgroupSizeAt g / 2 then 0 else p.subgroupSizeAt g / 2
    else (a.m.get (4 * g + BC.slot operation (p.lane g) (p.subgroupSizeAt g))).toNat

/-- The output is its value. -/
def BC.agrees (operation : SubgroupsBroadcastOp) (compare : α → α → Bool) (a : Arrays p α)
    (g : ℕ) : Bool :=
  compare (a.y.get g) (a.x.get (BC.source operation a g))

/-- **The value that a lane takes** is one of the sub-group, if the index is a lane. -/
theorem spec_broadcastValue {E : Stop → Prop} {base offset n : ℕ} {s : Scratch α}
    (h : Turn a p.allGroups p.nonUniformSize base offset n s) {operation : SubgroupsBroadcastOp}
    (hstored : operation ≠ .broadcastFirst → BC.StoredIndices p operation a.m) {i : ℕ}
    (hi : i < n) :
    Spec (BC.broadcastValue operation a.m base offset i n s) []
      (· = a.x.get (BC.source operation a (base + offset + i))) E := by
  obtain ⟨hlane, hstart, hsize⟩ := h.place hi
  rw [BC.source, hlane, hstart, hsize]
  refine .ite (fun hfirst => ?_) fun hne => ?_
  · have hlowest : (if i < n / 2 then 0 else n / 2) < n := by
      rcases Nat.lt_or_ge i (n / 2) with hlt | hge
      · rw [if_pos hlt]
        omega
      · rw [if_neg hge.not_gt]
        omega
    rw [if_pos hfirst]
    exact h.spec_mx hlowest
  · have hwithin := (h.subgroup.within i hi).trans_le h.covered
    obtain ⟨hnonneg, hlt⟩ := hstored hne _ hwithin
    rw [hlane, hsize] at hnonneg hlt
    rw [BC.midx_eq, if_neg hne]
    have hread : 4 * (base + offset + i) + BC.slot operation i n < a.m.size := by
      have hslot := BC.slot_lt operation i n
      rw [a.m_size]
      omega
    refine (Buffer.spec_read hread).silent_bind ?_
    rintro l rfl
    obtain ⟨k, hk⟩ := Int.eq_ofNat_of_zero_le hnonneg
    rw [hk] at hlt ⊢
    have hkn : k < n := by omega
    have hplace : ((offset : ℤ) + k).toNat = offset + k := by omega
    refine Buffer.spec_readAt (by omega) ?_ ?_
    · rw [hplace, h.mx_size]
      exact h.subgroup.inGroup k hkn
    · rw [hplace]
      exact h.mx_get k hkn

theorem BC.failsAt_check (operation : SubgroupsBroadcastOp) (compare : α → α → Bool)
    (m : Buffer ℤ) (base offset n : ℕ) (s : Scratch α) :
    FailsAt Verdict.Bad (BC.check operation compare m base offset n s) := by
  refine .forRange (fun i _ => .bind ?_ fun _ => .bind (Buffer.failsAt_read _ _) fun _ =>
    failsAt_compareItem _ _ _) _ _
  exact .ite (Buffer.failsAt_read _ _)
    (.bind (Buffer.failsAt_read _ _) fun _ => Buffer.failsAt_readAt _ _)

/-- **`BC::chk`** compares all outputs, if the indices are lanes. -/
theorem covers_broadcast (hp : p.Valid) (operation : SubgroupsBroadcastOp)
    (compare : α → α → Bool) (a : Arrays p α)
    (hstored : operation ≠ .broadcastFirst → BC.StoredIndices p operation a.m) :
    Covers a (BC.chk operation compare a) (List.range p.globalWorkgroupSize)
      (BC.agrees operation compare a) := by
  apply covers_all hp _ (BC.failsAt_check operation compare a.m)
  intro base offset n s h
  apply spec_items (I := fun _ _ => True)
  · intro i _ hi _
    refine (spec_broadcastValue h hstored hi).silent_bind ?_
    rintro tr rfl
    refine (h.spec_my hi).silent_bind ?_
    rintro rr rfl
    exact spec_compareItem rfl rfl
  · trivial

end

/-! ### All verifiers -/

/-- What the verifiers compare if all lanes are active. -/
structure VerifiersCover (p : WorkGroupParams) : Prop where
  ballot : ∀ a : Arrays p ClUint4,
    Covers a (BALLOT.chk a) (List.range p.globalWorkgroupSize) (BALLOT.agrees a)
  bitExtract : p.nonUniformSize = 0 → ∀ a : Arrays p ClUint4,
    Covers a (BALLOT_BIT_EXTRACT.chk a) (List.range p.globalWorkgroupSize)
      (BALLOT_BIT_EXTRACT.agrees a)
  inverse : ∀ a : Arrays p ClUint4,
    Covers a (BALLOT_INVERSE.chk a) (List.range p.globalWorkgroupSize) (BALLOT_INVERSE.agrees a)
  countScan : ∀ operation,
    operation = .ballotBitCount ∨ operation = .ballotInclusiveScan ∨
      operation = .ballotExclusiveScan → ∀ a : Arrays p ClUint4,
    Covers a (BALLOT_COUNT_SCAN_FIND.chk operation a) (List.range p.globalWorkgroupSize)
      (BALLOT_COUNT_SCAN_FIND.agrees operation a)
  find : ∀ operation, operation = .ballotFindLsb ∨ operation = .ballotFindMsb →
    ∀ a : Arrays p ClUint4, Covers a (BALLOT_COUNT_SCAN_FIND.chk operation a)
      ((List.range p.globalWorkgroupSize).filter
        fun g => ∃ j < p.subgroupSize, SetAt (a.x.get g) j)
      (BALLOT_COUNT_SCAN_FIND.agrees operation a)
  broadcast : ∀ (operation : SubgroupsBroadcastOp) (Ty : Type) (compare : Ty → Ty → Bool)
    (a : Arrays p Ty), (operation ≠ .broadcastFirst → BC.StoredIndices p operation a.m) →
    Covers a (BC.chk operation compare a) (List.range p.globalWorkgroupSize)
      (BC.agrees operation compare a)
  vote : ∀ (operation : NonUniformVoteOp) (T : Type) (compareOrdered : T → T → Bool) (zero : T)
    (a : Arrays p T),
    Covers a (VOTE.chk operation compareOrdered zero a) (List.range p.globalWorkgroupSize)
      (VOTE.agrees operation compareOrdered zero a)
  subgroups : subgroupSizes p.subgroupSize (setLastWorkgroupParams p.nonUniformSize p.subgroupSize)
    = List.replicate (p.nonUniformSize / p.subgroupSize) p.subgroupSize
      ++ [p.nonUniformSize % p.subgroupSize]
  sum_subgroups :
    (subgroupSizes p.subgroupSize (setLastWorkgroupParams p.nonUniformSize p.subgroupSize)).sum
      = p.globalWorkgroupSize % p.localWorkgroupSize

/-- **All verifiers.** -/
theorem verifiers_cover {p : WorkGroupParams} (hp : p.Valid)
    (hmask : ∀ i < p.subgroupSize, p.workItemsMask.getLsbD i = true) : VerifiersCover p := by
  have hactive : (List.range p.globalWorkgroupSize).filter
      (fun g => p.workItemsMask.getLsbD (p.lane g)) = List.range p.globalWorkgroupSize := by
    rw [List.filter_eq_self]
    intro g _
    exact hmask _ (Nat.mod_lt _ hp.subgroup_pos)
  refine {
    ballot := fun a => ?_
    bitExtract := fun hr a => covers_bitExtract hp hr a
    inverse := covers_inverse hp
    countScan := fun operation hop a => covers_countScan hp hop a
    find := fun operation hop a => covers_find hp hop a
    broadcast := fun operation Ty compare a => covers_broadcast hp operation compare a
    vote := fun operation T compareOrdered zero a => ?_
    subgroups := subgroupSizes_last hp.subgroup_pos
    sum_subgroups := sum_subgroupSizes_last hp.subgroup_pos }
  · have hcovers := covers_ballot hp a
    rwa [hactive] at hcovers
  · have hcovers := covers_vote hp operation compareOrdered zero a
    rwa [hactive] at hcovers

/-- 10 work-items in groups of 4, with sub-groups of 3. -/
theorem verifiers_cover_ten : VerifiersCover ⟨10, 4, 3, 3, BitVec.allOnes 128⟩ :=
  verifiers_cover ⟨by decide, by decide, by decide, by decide⟩ (by decide)

/-- A test of 3 work-items in groups of 2, whose ballots have no bit, with the outputs that
`bit_extract` should have. -/
def emptyBallots : Arrays ⟨3, 2, 1, 1, BitVec.allOnes 128⟩ ClUint4 where
  x := ⟨3, fun _ => ⟨0, 0, 0, 0⟩⟩
  y := ⟨3, fun _ => ⟨0, 0, 0, 2⟩⟩
  m := ⟨12, fun _ => 0⟩
  mx := ⟨2, fun _ => ⟨0, 0, 0, 0⟩⟩
  my := ⟨2, fun _ => ⟨0, 0, 0, 0⟩⟩
  x_size := rfl
  y_size := rfl
  m_size := rfl
  mx_size := rfl
  my_size := rfl

/-- Work-items are left out. -/
theorem verifiers_leave_out :
    ¬ Covers emptyBallots (BALLOT_BIT_EXTRACT.chk emptyBallots) (List.range 3)
        (BALLOT_BIT_EXTRACT.agrees emptyBallots) ∧
      ¬ Covers emptyBallots (BALLOT_COUNT_SCAN_FIND.chk .ballotFindLsb emptyBallots)
        (List.range 3) (BALLOT_COUNT_SCAN_FIND.agrees .ballotFindLsb emptyBallots) := by
  constructor
  · intro h
    have htrace := (h.passes (by decide)).1
    exact absurd (congrArg List.length htrace) (by decide)
  · intro h
    have htrace := (h.passes (by decide)).1
    exact absurd (congrArg List.length htrace) (by decide)

end OpenCLCTS.Subgroups
