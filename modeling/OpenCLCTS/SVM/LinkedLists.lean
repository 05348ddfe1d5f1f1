import Mathlib.Algebra.BigOperators.Fin
import Mathlib.Algebra.Order.BigOperators.Group.Finset
import Mathlib.Data.BitVec
import Mathlib.Data.Fintype.BigOperators
import Mathlib.Logic.Function.Iterate
import Mathlib.Tactic.Ring
import OpenCLCTS.Lib.Threads

/-!
# Linked lists in shared virtual memory, and their verification

The tests of the shared address space create linked lists on one device, or on the host, and verify
them on another one.  The first `numLists` nodes of `pNodes` are the heads of the lists.

`Lists` says what the memory should hold: whoever starts at head `i` meets `listLength` nodes that
carry `i` and their position.  The host accepts exactly that (`verifyLinkedLists_eq_zero_iff`), and
the kernel gives the verdict of the host however its work-items are interleaved
(`verifyOnDevice_eq`).
-/

namespace OpenCLCTS.SVM.LinkedLists

open Interleaving

/-! ### The nodes -/

inductive Buffer
  | pNodes
  | pNodes2
  deriving DecidableEq

/-- `&pNodes[k]` or `&pNodes2[k]`. -/
abbrev Addr := Buffer × ℕ

/-- The fields of all nodes.  Every pointer points to some node. -/
structure Nodes where
  globalId : Addr → BitVec 32
  positionInList : Addr → BitVec 32
  pNext : Addr → Addr

/-- `&pNodes[i]`, where list `i` starts. -/
def head (i : ℕ) : Addr := (.pNodes, i)

/-- What the pointers of a list lead to. -/
def Nodes.node (nodes : Nodes) (i k : ℕ) : Addr := nodes.pNext^[k] (head i)

/-- **What the lists should be.** -/
def Lists (numLists listLength : ℕ) (nodes : Nodes) : Prop :=
  ∀ i < numLists, ∀ k < listLength, nodes.globalId (nodes.node i k) = BitVec.ofNat 32 i ∧
    nodes.positionInList (nodes.node i k) = BitVec.ofNat 32 k

/-! ### Verification on the host -/

/-- The loop over `j`; `eq` is the comparison of `global_id` with the number of the list. -/
def verifyList (eq : BitVec 32 → Bool) (nodes : Nodes) : ℕ → ℕ → Addr → BitVec 32 → BitVec 32
  | 0, _, _, numCorrect => numCorrect
  | n + 1, j, pNode, numCorrect =>
    if eq (nodes.globalId pNode) ∧ nodes.positionInList pNode = BitVec.ofNat 32 j then
      verifyList eq nodes n (j + 1) (nodes.pNext pNode) (numCorrect + 1)
    else numCorrect

/-- `global_id == i`, where `i` is a `cl_uint`. -/
def eqOnHost (i : ℕ) (globalId : BitVec 32) : Bool := globalId = BitVec.ofNat 32 i

/-- `verify_linked_lists`. -/
def verifyLinkedLists (numLists listLength : ℕ) (nodes : Nodes) : ℤ :=
  let numCorrect := (List.range numLists).foldl
    (fun numCorrect i => verifyList (eqOnHost i) nodes listLength 0 (head i) numCorrect) 0
  if numCorrect ≠ BitVec.ofNat 32 listLength * BitVec.ofNat 32 numLists then -1 else 0

/-- The number of nodes that a list is credited with. -/
def correct (eq : BitVec 32 → Bool) (nodes : Nodes) : ℕ → ℕ → Addr → ℕ
  | 0, _, _ => 0
  | n + 1, j, pNode =>
    if eq (nodes.globalId pNode) ∧ nodes.positionInList pNode = BitVec.ofNat 32 j then
      correct eq nodes n (j + 1) (nodes.pNext pNode) + 1
    else 0

variable {eq : BitVec 32 → Bool} {nodes : Nodes} {n j i numLists listLength : ℕ} {p : Addr}

theorem ofNat_succ (n : ℕ) : BitVec.ofNat 32 (n + 1) = BitVec.ofNat 32 n + 1 := BitVec.ofNat_add ..

theorem verifyList_eq (numCorrect : BitVec 32) :
    verifyList eq nodes n j p numCorrect = numCorrect + BitVec.ofNat 32 (correct eq nodes n j p) := by
  induction n generalizing j p numCorrect with
  | zero => simp [verifyList, correct]
  | succ n ih =>
    unfold verifyList correct
    split
    · rw [ih, ofNat_succ, BitVec.add_assoc, BitVec.add_comm 1]
    · simp

theorem correct_le : correct eq nodes n j p ≤ n := by
  induction n generalizing j p with
  | zero => exact le_rfl
  | succ n ih =>
    unfold correct
    split
    · exact Nat.succ_le_succ ih
    · exact Nat.zero_le _

theorem correct_eq_iff : correct eq nodes n j p = n ↔ ∀ k < n,
    eq (nodes.globalId (nodes.pNext^[k] p)) = true ∧
      nodes.positionInList (nodes.pNext^[k] p) = BitVec.ofNat 32 (j + k) := by
  induction n generalizing j p with
  | zero => simp [correct]
  | succ n ih =>
    unfold correct
    constructor
    · intro h k hk
      split at h
      · rename_i hhead
        rw [Nat.add_right_cancel_iff, ih] at h
        cases k with
        | zero => exact hhead
        | succ k =>
          rw [Function.iterate_succ_apply, ← Nat.add_assoc, Nat.add_right_comm]
          exact h k (by omega)
      · cases h
    · intro h
      have hhead : eq (nodes.globalId p) ∧ nodes.positionInList p = BitVec.ofNat 32 j :=
        h 0 (Nat.succ_pos n)
      rw [if_pos hhead, Nat.add_right_cancel_iff, ih]
      intro k hk
      have hnext := h (k + 1) (by omega)
      rwa [Function.iterate_succ_apply, ← Nat.add_assoc, Nat.add_right_comm] at hnext

theorem foldl_verifyList (eqAt : ℕ → BitVec 32 → Bool) (m : ℕ) :
    (List.range m).foldl
        (fun numCorrect i => verifyList (eqAt i) nodes listLength 0 (head i) numCorrect) 0
      = BitVec.ofNat 32 (∑ i ∈ Finset.range m, correct (eqAt i) nodes listLength 0 (head i)) := by
  induction m with
  | zero => rfl
  | succ m ih =>
    rw [List.range_succ, List.foldl_append, ih, List.foldl_cons, List.foldl_nil, verifyList_eq,
      Finset.sum_range_succ, BitVec.ofNat_add]

theorem sum_correct_eq_iff (eqAt : ℕ → BitVec 32 → Bool) :
    ∑ i ∈ Finset.range numLists, correct (eqAt i) nodes listLength 0 (head i)
        = listLength * numLists
      ↔ ∀ i < numLists, correct (eqAt i) nodes listLength 0 (head i) = listLength := by
  have hsum : ∑ _i ∈ Finset.range numLists, listLength = listLength * numLists := by
    rw [Finset.sum_const, Finset.card_range, Nat.nsmul_eq_mul, Nat.mul_comm]
  rw [← hsum, Finset.sum_eq_sum_iff_of_le fun _ _ => correct_le]
  simp only [Finset.mem_range]

theorem sum_correct_le (eqAt : ℕ → BitVec 32 → Bool) :
    ∑ i ∈ Finset.range numLists, correct (eqAt i) nodes listLength 0 (head i)
      ≤ listLength * numLists := by
  refine (Finset.sum_le_sum fun _ _ => correct_le).trans ?_
  rw [Finset.sum_const, Finset.card_range, Nat.nsmul_eq_mul, Nat.mul_comm]

theorem lists_iff : Lists numLists listLength nodes ↔
    ∀ i < numLists, correct (eqOnHost i) nodes listLength 0 (head i) = listLength := by
  refine forall₂_congr fun i _ => ?_
  rw [correct_eq_iff]
  simp only [eqOnHost, decide_eq_true_eq, Nat.zero_add]
  rfl

theorem ofNat_sum_eq_iff (hsize : listLength * numLists < 2 ^ 32) (eqAt : ℕ → BitVec 32 → Bool) :
    BitVec.ofNat 32 (∑ i ∈ Finset.range numLists, correct (eqAt i) nodes listLength 0 (head i))
        = BitVec.ofNat 32 listLength * BitVec.ofNat 32 numLists
      ↔ ∀ i < numLists, correct (eqAt i) nodes listLength 0 (head i) = listLength := by
  have hle : ∑ i ∈ Finset.range numLists, correct (eqAt i) nodes listLength 0 (head i)
      ≤ listLength * numLists := sum_correct_le eqAt
  rw [← sum_correct_eq_iff, ← BitVec.ofNat_mul, ← BitVec.toNat_inj, BitVec.toNat_ofNat,
    BitVec.toNat_ofNat, Nat.mod_eq_of_lt hsize, Nat.mod_eq_of_lt (by omega)]

/-- **The host accepts the lists and nothing else**, if it can count them. -/
theorem verifyLinkedLists_eq_zero (hsize : listLength * numLists < 2 ^ 32) :
    verifyLinkedLists numLists listLength nodes = 0 ↔ Lists numLists listLength nodes := by
  rw [lists_iff, ← ofNat_sum_eq_iff hsize, ← foldl_verifyList]
  unfold verifyLinkedLists
  simp

/-! ### Verification on a device -/

/-- The variables of a work-item of the kernel `verify_linked_lists`. -/
structure VerifyLocals where
  returned : Bool
  j : ℕ
  pNode : Addr
  deriving DecidableEq

/-- `global_id == i`, where `i` is a `size_t`. -/
def eqOnDevice (i : ℕ) (globalId : BitVec 32) : Bool := globalId.signExtend 64 = BitVec.ofNat 64 i

/-- A round of the loop.  The memory is `num_correct`; the nodes are only read. -/
def verifyKernel (listLength : ℕ) (nodes : Nodes) :
    Program (Fin numLists) (BitVec 32) VerifyLocals := fun i l numCorrect =>
  if l.returned then none
  else if l.j < listLength then
    if eqOnDevice i (nodes.globalId l.pNode) ∧ nodes.positionInList l.pNode = BitVec.ofNat 32 l.j then
      some (⟨false, l.j + 1, nodes.pNext l.pNode⟩, numCorrect + 1)
    else some ({ l with returned := true }, numCorrect)
  else some ({ l with returned := true }, numCorrect)

/-- All interleavings of `verify_linked_lists`, from `*pNumCorrect = 0`. -/
def verifyRuns (numLists listLength : ℕ) (nodes : Nodes) :
    System (Conf (Fin numLists) (BitVec 32) VerifyLocals) (Fin numLists) :=
  threads (verifyKernel listLength nodes) fun c => c.mem = 0 ∧ ∀ i, c.loc i = ⟨false, 0, head i⟩

/-- What `verify_linked_lists_on_device` returns when the kernel is done. -/
def verifyOnDevice (numLists listLength : ℕ) (numCorrect : BitVec 32) : ℤ :=
  if numCorrect ≠ BitVec.ofNat 32 listLength * BitVec.ofNat 32 numLists then -1 else 0

/-- What a work-item is still going to add to `num_correct`. -/
def toAdd (listLength : ℕ) (nodes : Nodes) (i : Fin numLists) (l : VerifyLocals) : BitVec 32 :=
  if l.returned then 0
  else BitVec.ofNat 32 (correct (eqOnDevice i) nodes (listLength - l.j) l.j l.pNode)

theorem toAdd_next {i : Fin numLists} {l l' : VerifyLocals} {m m' : BitVec 32}
    (h : verifyKernel listLength nodes i l m = some (l', m')) :
    m' + toAdd listLength nodes i l' = m + toAdd listLength nodes i l := by
  unfold verifyKernel at h
  split at h
  · cases h
  · rename_i hret
    split at h
    · rename_i hj
      obtain ⟨n, hn⟩ : ∃ n, listLength - l.j = n + 1 := ⟨listLength - l.j - 1, by omega⟩
      have hn' : listLength - (l.j + 1) = n := by omega
      split at h
      · rename_i hok
        simp only [Option.some.injEq, Prod.mk.injEq] at h
        obtain ⟨rfl, rfl⟩ := h
        simp only [toAdd, hret, hn, hn', correct, if_pos hok, ofNat_succ, Bool.false_eq_true, if_false]
        rw [BitVec.add_assoc, BitVec.add_comm 1]
      · rename_i hbad
        simp only [Option.some.injEq, Prod.mk.injEq] at h
        obtain ⟨rfl, rfl⟩ := h
        simp [toAdd, hret, hn, correct, if_neg hbad]
    · rename_i hj
      simp only [Option.some.injEq, Prod.mk.injEq] at h
      obtain ⟨rfl, rfl⟩ := h
      simp [toAdd, hret, Nat.sub_eq_zero_of_le (not_lt.mp hj), correct]

variable {c : Conf (Fin numLists) (BitVec 32) VerifyLocals}

theorem ofNat_sum (f : ℕ → ℕ) :
    ∑ i : Fin numLists, BitVec.ofNat 32 (f i) = BitVec.ofNat 32 (∑ i ∈ Finset.range numLists, f i) := by
  rw [← Finset.sum_range fun i => BitVec.ofNat 32 (f i)]
  induction numLists with
  | zero => rfl
  | succ n ih => rw [Finset.sum_range_succ, Finset.sum_range_succ, BitVec.ofNat_add, ih]

/-- The rounds that a work-item has before it. -/
def VerifyLocals.rank (listLength : ℕ) (l : VerifyLocals) : ℕ :=
  if l.returned then 0 else listLength - l.j + 1

/-- **The kernel can always be finished.** -/
theorem exists_path_verified (c : Conf (Fin numLists) (BitVec 32) VerifyLocals) :
    ∃ c', (verifyRuns numLists listLength nodes).Path System.anyStep c c' ∧
      ∀ i, (c'.loc i).returned = true := by
  refine threads_finish (fun _ l => l.returned = true) (fun _ l => l.rank listLength)
    (fun i l m hret => ?_) c
  have hrank : l.rank listLength = listLength - l.j + 1 := if_neg hret
  unfold verifyKernel
  rw [if_neg hret, hrank]
  by_cases hj : l.j < listLength
  · rw [if_pos hj]
    split
    · have hnext : ∀ p, VerifyLocals.rank listLength ⟨false, l.j + 1, p⟩
          = listLength - (l.j + 1) + 1 := fun _ => rfl
      exact ⟨_, _, rfl, by rw [hnext]; omega⟩
    · exact ⟨_, _, rfl, Nat.succ_pos _⟩
  · rw [if_neg hj]
    exact ⟨_, _, rfl, Nat.succ_pos _⟩

/-- **When all work-items have returned** each list has been counted once. -/
theorem numCorrect_eq {ok} (h : (verifyRuns numLists listLength nodes).Reach ok c)
    (hret : ∀ i, (c.loc i).returned = true) :
    c.mem = BitVec.ofNat 32
      (∑ i ∈ Finset.range numLists, correct (eqOnDevice i) nodes listLength 0 (head i)) := by
  have hinv := threads_conserved (fun m : BitVec 32 => m)
    (fun i l _ => toAdd listLength nodes i l) (fun _ _ => 0) (J := fun _ => True)
    (fun _ _ => trivial) (a := BitVec.ofNat 32
      (∑ i ∈ Finset.range numLists, correct (eqOnDevice i) nodes listLength 0 (head i)))
    (fun c hc => ?_) (fun c t l' m' _ hP => ?_) (fun _ _ _ _ _ _ _ _ => rfl) h
  · simpa [toAdd, hret] using hinv
  · obtain ⟨hmem, hloc⟩ := hc
    rw [← ofNat_sum fun i => correct (eqOnDevice i) nodes listLength 0 (head i)]
    simp [toAdd, hmem, hloc]
  · simpa using toAdd_next hP

theorem toInt_ofNat_of_lt {w : ℕ} (hi : i < 2 ^ 31) (hw : 32 ≤ w) : (BitVec.ofNat w i).toInt = i := by
  have hpow : 2 ^ 32 ≤ 2 ^ w := Nat.pow_le_pow_right (by decide) hw
  have htoNat : (BitVec.ofNat w i).toNat = i := by
    rw [BitVec.toNat_ofNat, Nat.mod_eq_of_lt (by omega)]
  rw [BitVec.toInt_eq_toNat_of_lt (by omega), htoNat]

theorem eqOnDevice_eq (hi : i < 2 ^ 31) (v : BitVec 32) : eqOnDevice i v = eqOnHost i v := by
  have hiff : v.signExtend 64 = BitVec.ofNat 64 i ↔ v = BitVec.ofNat 32 i := by
    rw [← BitVec.toInt_inj, ← BitVec.toInt_inj, BitVec.toInt_signExtend_of_le (by decide),
      toInt_ofNat_of_lt hi (by decide), toInt_ofNat_of_lt hi (by decide)]
  simp only [eqOnDevice, eqOnHost, hiff]

/-- **The verdict of a device** is the verdict of the host, however the work-items are
interleaved. -/
theorem verifyOnDevice_eq (hlists : numLists ≤ 2 ^ 31) {ok}
    (h : (verifyRuns numLists listLength nodes).Reach ok c) (hret : ∀ i, (c.loc i).returned = true) :
    verifyOnDevice numLists listLength c.mem = verifyLinkedLists numLists listLength nodes := by
  have hsum : ∑ i ∈ Finset.range numLists, correct (eqOnDevice i) nodes listLength 0 (head i)
      = ∑ i ∈ Finset.range numLists, correct (eqOnHost i) nodes listLength 0 (head i) := by
    refine Finset.sum_congr rfl fun i hi => ?_
    have hlt : i < numLists := Finset.mem_range.mp hi
    rw [funext (eqOnDevice_eq (hlt.trans_le hlists))]
  unfold verifyOnDevice verifyLinkedLists
  rw [numCorrect_eq h hret, hsum, foldl_verifyList]

end OpenCLCTS.SVM.LinkedLists
