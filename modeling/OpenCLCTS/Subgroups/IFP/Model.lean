import OpenCLCTS.Lib.Signals

/-!
# The independent forward progress test

`test_ifp.cpp`: the host generates a table of instructions for each work group, one
row for each sub-group (`gen_insts`), the kernel executes the rows (`ifp_source`), and
the host executes them as well to know what the kernel has to return (`run_insts`).

A `cl_int` of the table is a `BitVec 32`.  The locations count to at most 690 and are
numbers here.
-/

namespace OpenCLCTS.Subgroups.IFP

open Interleaving

/-- `NUM_LOC`. -/
def numLoc : ℕ := 49

/-! ### Instructions -/

def instEnd : BitVec 32 := 0x0
def instStore : BitVec 32 := 0x1
def instWait : BitVec 32 := 0x2
def instCount : BitVec 32 := 0x3

/-- `inst`. -/
def inst (op loc val : BitVec 32) : BitVec 32 := (val <<< 12) ||| (loc <<< 4) ||| (op <<< 0)

def iop (inst : BitVec 32) : BitVec 32 := inst.sshiftRight 0 &&& 0xf
def iloc (inst : BitVec 32) : ℕ := (inst.sshiftRight 4 &&& 0x7f).toNat
def ival (inst : BitVec 32) : ℕ := (inst.sshiftRight 12 &&& 0x7ffff).toNat

/-- Where sub-group `i` has its `a`-th instruction. -/
def slot (i a : ℕ) : ℕ := i * (numLoc + 1) + a

/-! ### The kernel -/

variable {n : ℕ}

/-- The loop of `ifp_source`, for the work-item of a sub-group that executes its
instructions; the other work-items wait for it. -/
def ifpSource (x : ℕ → BitVec 32) : Program (Fin n) (ℕ → ℕ) Pos := fun t l m =>
  let inst := x (slot t l.pc)
  if iop inst = instStore then
    some (⟨l.pc + 1, 0⟩, Function.update m (iloc inst) (ival inst))
  else if iop inst = instWait then
    if m (iloc inst) = ival inst then some (⟨l.pc + 1, 0⟩, m) else none
  else if iop inst = instCount then
    if l.done < ival inst then
      some (⟨l.pc, l.done + 1⟩, Function.update m (iloc inst) (m (iloc inst) + 1))
    else some (⟨l.pc + 1, 0⟩, m)
  else if iop inst = instEnd then none
  else some (⟨l.pc + 1, 0⟩, m)

/-- All interleavings of `n` sub-groups, from the locations at 0. -/
abbrev kernel (n : ℕ) (x : ℕ → BitVec 32) : System (Conf (Fin n) (ℕ → ℕ) Pos) (Fin n) :=
  threads (ifpSource x) fun c => c = ⟨fun _ => 0, fun _ => ⟨0, 0⟩⟩

/-- A sub-group has reached its `INST_END`. -/
def AtEnd (x : ℕ → BitVec 32) (t : ℕ) (l : Pos) : Prop := iop (x (slot t l.pc)) = instEnd

instance (x : ℕ → BitVec 32) (t : ℕ) (l : Pos) : Decidable (AtEnd x t l) :=
  inferInstanceAs (Decidable (_ = _))

/-! ### `gen_insts` -/

/-- The values that `random_in_range` will return.  A value out of range is not
returned, and `none` means that the list has ended before the function has. -/
abbrev Draws := List ℕ

def randomInRange (minV maxV : ℕ) : Draws → Option (ℕ × Draws)
  | [] => none
  | d :: draws => if minV ≤ d ∧ d ≤ maxV then some (d, draws) else none

/-- `do j1 = random_in_range(0, n - 1, gMTdata); while (j1 == j0);` -/
def differentInRange (n j0 : ℕ) : Draws → Option (ℕ × Draws)
  | [] => none
  | d :: draws =>
    if 0 ≤ d ∧ d ≤ n - 1 then if d = j0 then differentInRange n j0 draws else some (d, draws)
    else none

/-- The body of the loop that makes `ii` a random permutation. -/
def shuffleBody (s : (ℕ → ℕ) × Draws) (i : ℕ) : Option ((ℕ → ℕ) × Draws) := do
  let (j0, draws) ← randomInRange 0 i s.2
  let ii := if j0 ≠ i then Function.update s.1 i (s.1 j0) else s.1
  some (Function.update ii j0 i, draws)

/-- The table and the instruction pointers; `writes` are the sub-groups and the places
of the writes into the table so far. -/
structure Gen where
  x : ℕ → BitVec 32
  p : ℕ → ℕ
  writes : List (ℕ × ℕ)

/-- `x[j * (NUM_LOC + 1) + p[j]] = v`. -/
def Gen.write (g : Gen) (j : ℕ) (v : BitVec 32) : Gen :=
  { g with
    x := Function.update g.x (slot j (g.p j)) v
    writes := (j, slot j (g.p j)) :: g.writes }

/-- `++p[j]`. -/
def Gen.advance (g : Gen) (j : ℕ) : Gen := { g with p := Function.update g.p j (g.p j + 1) }

/-- The body of the loop over the locations. -/
def pairBody (n : ℕ) (ii : ℕ → ℕ) (s : Gen × Draws) (i : ℕ) : Option (Gen × Draws) := do
  let (j0, draws) ← randomInRange 0 (n - 1) s.2
  let (j1, draws) ← differentInRange n j0 draws
  let (val, draws) ← randomInRange 100 (200 + 10 * numLoc) draws
  let loc := BitVec.ofNat 32 (ii i)
  let g := s.1.write j0 (inst instCount loc (BitVec.ofNat 32 val))
  let g := g.write j1 (inst instWait loc (BitVec.ofNat 32 val))
  some ((g.advance j0).advance j1, draws)

/-- `gen_insts`, into a table that holds `x`. -/
def genInsts (n : ℕ) (x : ℕ → BitVec 32) (draws : Draws) : Option Gen := do
  let (ii, draws) ← (List.range' 1 (numLoc - 1)).foldlM shuffleBody (fun _ => 0, draws)
  let (g, _) ← (List.range' 0 numLoc).foldlM (pairBody n ii) (⟨x, fun _ => 0, []⟩, draws)
  some ((List.range' 0 n).foldl (fun g i => g.write i (inst instEnd 0 0)) g)

/-! ### `run_insts` -/

/-- The instruction pointers, the locations, and the number of sub-groups that are at
their end. -/
structure Run where
  p : ℕ → ℕ
  loc : ℕ → ℕ
  nend : ℕ

def Run.next (s : Run) (i : ℕ) : Run := { s with p := Function.update s.p i (s.p i + 1) }

/-- `do … while (scont)` for sub-group `i`.  The first argument bounds the number of
rounds, and `none` means that it was too small. -/
def runGroup (x : ℕ → BitVec 32) (i : ℕ) : ℕ → Run → Option Run
  | 0, _ => none
  | fuel + 1, s =>
    let inst := x (slot i (s.p i))
    if iop inst = instStore then
      runGroup x i fuel ({ s with loc := Function.update s.loc (iloc inst) (ival inst) }.next i)
    else if iop inst = instWait then
      if s.loc (iloc inst) = ival inst then runGroup x i fuel (s.next i) else some s
    else if iop inst = instCount then
      runGroup x i fuel
        ({ s with loc := Function.update s.loc (iloc inst) (s.loc (iloc inst) + ival inst) }.next i)
    else if iop inst = instEnd then some { s with nend := s.nend + 1 }
    else some s

/-- The loop over the sub-groups. -/
def runPass (x : ℕ → BitVec 32) (n fuel : ℕ) (s : Run) : Option Run :=
  (List.range' 0 n).foldlM (fun s i => runGroup x i fuel s) { s with nend := 0 }

/-- `do … while (nend < n)`. -/
def runPasses (x : ℕ → BitVec 32) (n fuel : ℕ) : ℕ → Run → Option Run
  | 0, _ => none
  | passes + 1, s =>
    (runPass x n fuel s).bind fun s => if s.nend < n then runPasses x n fuel passes s else some s

/-- `run_insts`: the locations at the end. -/
def runInsts (x : ℕ → BitVec 32) (n fuel : ℕ) : Option (ℕ → ℕ) :=
  (runPasses x n fuel fuel ⟨fun _ => 0, fun _ => 0, 0⟩).map Run.loc

end OpenCLCTS.Subgroups.IFP
