import OpenCLCTS.SVM.LinkedListsCreate

/-!
# The tests of the shared address space

All combinations of a creator and a verifier are tried one after the other on the same nodes, where
the last index stands for the host.  A creator may find whatever the one before it left behind, and
its work-items run in any order.

**The test passes** in all these runs (`sharedAddressSpace_passes`), because every creator
establishes `Lists` and every verifier accepts `Lists`.  The coarse-grain and fine-grain tests take
all nodes from one buffer, the test of the pointers between buffers takes them from two.
-/

namespace OpenCLCTS.SVM.LinkedLists

open Interleaving

/-- What can be in the nodes after `create_linked_lists_on_host` or
`create_linked_lists_on_device`. -/
inductive Created (numDevices numLists listLength : ℕ) (buffer : ℕ → Buffer) (ci : ℕ)
    (nodes : Nodes) : Nodes → Prop
  | onHost : ci = numDevices → Created numDevices numLists listLength buffer ci nodes
      (createLinkedLists numLists listLength nodes)
  | onDevice {c : Conf (Fin numLists) Mem Locals} : ci ≠ numDevices →
      (createRuns numLists listLength buffer nodes).Reach System.anyStep c →
      (∀ i, (c.loc i).pc = .returned) →
      Created numDevices numLists listLength buffer ci nodes c.mem.nodes

/-- What `verify_linked_lists_on_host` or `verify_linked_lists_on_device` can return. -/
inductive Verified (numDevices numLists listLength : ℕ) (vi : ℕ) (nodes : Nodes) : ℤ → Prop
  | onHost : vi = numDevices → Verified numDevices numLists listLength vi nodes
      (verifyLinkedLists numLists listLength nodes)
  | onDevice {c : Conf (Fin numLists) (BitVec 32) VerifyLocals} : vi ≠ numDevices →
      (verifyRuns numLists listLength nodes).Reach System.anyStep c →
      (∀ i, (c.loc i).returned = true) →
      Verified numDevices numLists listLength vi nodes (verifyOnDevice numLists listLength c.mem)

/-- The loops over `ci` and `vi`. -/
def combinations (numDevices : ℕ) : List (ℕ × ℕ) :=
  (List.range (numDevices + 1)).flatMap fun ci => (List.range (numDevices + 1)).map fun vi => (ci, vi)

/-- What the body of the loops can return for the combinations that are left: the first error ends
the test. -/
inductive Tested (numDevices numLists listLength : ℕ) (buffer : ℕ → Buffer) :
    List (ℕ × ℕ) → Nodes → ℤ → Prop
  | done (nodes : Nodes) : Tested numDevices numLists listLength buffer [] nodes 0
  | error {ci vi : ℕ} {rest : List (ℕ × ℕ)} {nodes nodes' : Nodes} {e : ℤ} :
      Created numDevices numLists listLength buffer ci nodes nodes' →
      Verified numDevices numLists listLength vi nodes' e → e ≠ 0 →
      Tested numDevices numLists listLength buffer ((ci, vi) :: rest) nodes (-1)
  | next {ci vi : ℕ} {rest : List (ℕ × ℕ)} {nodes nodes' : Nodes} {r : ℤ} :
      Created numDevices numLists listLength buffer ci nodes nodes' →
      Verified numDevices numLists listLength vi nodes' 0 →
      Tested numDevices numLists listLength buffer rest nodes' r →
      Tested numDevices numLists listLength buffer ((ci, vi) :: rest) nodes r

variable {numDevices numLists listLength ci vi : ℕ} {buffer : ℕ → Buffer} {nodes nodes' : Nodes}

theorem Created.lists (hlists : numLists < 2 ^ 31) (hsize : listLength * numLists < 2 ^ 31)
    (h : Created numDevices numLists listLength buffer ci nodes nodes') :
    Lists numLists listLength nodes' := by
  cases h with
  | onHost => exact createLinkedLists_lists hlists hsize nodes
  | onDevice _ hc hret => exact create_lists hlists hsize hc hret

/-- **Who verifies the lists does not matter.** -/
theorem Verified.eq_zero_iff (hlists : numLists < 2 ^ 31) (hsize : listLength * numLists < 2 ^ 31)
    {e : ℤ} (h : Verified numDevices numLists listLength vi nodes e) :
    e = 0 ↔ Lists numLists listLength nodes := by
  cases h with
  | onHost => exact verifyLinkedLists_eq_zero (by omega)
  | onDevice _ hc hret =>
    rw [verifyOnDevice_eq hlists.le hc hret]
    exact verifyLinkedLists_eq_zero (by omega)

/-- **The verifiers are exact**: on every memory the verdict is that the lists are intact if and only
if they are, on the host and in every interleaving of the kernel. -/
theorem verified_exact (hlists : numLists < 2 ^ 31) (hsize : listLength * numLists < 2 ^ 31)
    {e : ℤ} (h : Verified numDevices numLists listLength vi nodes e) :
    (e = 0 ↔ Lists numLists listLength nodes) ∧ (e = -1 ↔ ¬ Lists numLists listLength nodes) := by
  have hiff := h.eq_zero_iff hlists hsize
  have hcases : e = 0 ∨ e = -1 := by
    cases h with
    | onHost =>
      unfold verifyLinkedLists
      simp only
      split <;> simp
    | onDevice =>
      unfold verifyOnDevice
      split <;> simp
  refine ⟨hiff, ?_⟩
  rw [← hiff]
  rcases hcases with rfl | rfl <;> simp

/-- A memory with one list of two nodes. -/
def twoNodes : Nodes :=
  ⟨fun _ => 0, fun p => BitVec.ofNat 32 p.2, fun p => (p.1, p.2 + 1)⟩

/-- The host accepts the list, and a device rejects it when its nodes are linked to themselves. -/
theorem verified_exact_twoNodes :
    Lists 1 2 twoNodes ∧ ¬ Lists 1 2 { twoNodes with pNext := fun p => p } := by
  have hhost : Verified 1 1 2 1 twoNodes (verifyLinkedLists 1 2 twoNodes) := .onHost rfl
  let c₀ : Conf (Fin 1) (BitVec 32) VerifyLocals := ⟨0, fun i => ⟨false, 0, head i⟩⟩
  obtain ⟨c, hc, hret, he⟩ := System.Reach.exists_of_run
    (S := verifyRuns 1 2 { twoNodes with pNext := fun p => p }) System.anyStep
    (fun c => (∀ i, (c.loc i).returned = true) ∧ verifyOnDevice 1 2 c.mem = -1)
    (s := c₀) ⟨rfl, fun _ => rfl⟩ [0, 0] (by decide)
  have hdevice : Verified 1 1 2 0 { twoNodes with pNext := fun p => p }
      (verifyOnDevice 1 2 c.mem) := .onDevice (by decide) hc hret
  exact ⟨(verified_exact (by decide) (by decide) hhost).1.mp (by decide),
    (verified_exact (by decide) (by decide) hdevice).2.mp he⟩

/-- **The test can always be run to its end**, whoever creates and verifies the lists. -/
theorem exists_tested (numDevices numLists listLength : ℕ) (buffer : ℕ → Buffer)
    (rest : List (ℕ × ℕ)) (nodes : Nodes) :
    ∃ r, Tested numDevices numLists listLength buffer rest nodes r := by
  induction rest generalizing nodes with
  | nil => exact ⟨0, .done nodes⟩
  | cons p rest ih =>
    obtain ⟨ci, vi⟩ := p
    obtain ⟨nodes', hcreated⟩ :
        ∃ nodes', Created numDevices numLists listLength buffer ci nodes nodes' := by
      by_cases hci : ci = numDevices
      · exact ⟨_, .onHost hci⟩
      · let c₀ : Conf (Fin numLists) Mem Locals :=
          ⟨⟨BitVec.ofNat 32 numLists, nodes⟩, fun i => ⟨.setHeadId, 1, head i, head i⟩⟩
        have h₀ : (createRuns numLists listLength buffer nodes).Reach System.anyStep c₀ :=
          .start ⟨rfl, fun _ => ⟨rfl, rfl, rfl⟩⟩
        obtain ⟨c, hpath, hret⟩ := exists_path_created c₀
        exact ⟨_, .onDevice hci (hpath.reach h₀) hret⟩
    obtain ⟨e, hverified⟩ : ∃ e, Verified numDevices numLists listLength vi nodes' e := by
      by_cases hvi : vi = numDevices
      · exact ⟨_, .onHost hvi⟩
      · let c₀ : Conf (Fin numLists) (BitVec 32) VerifyLocals := ⟨0, fun i => ⟨false, 0, head i⟩⟩
        have h₀ : (verifyRuns numLists listLength nodes').Reach System.anyStep c₀ :=
          .start ⟨rfl, fun _ => rfl⟩
        obtain ⟨c, hpath, hret⟩ := exists_path_verified c₀
        exact ⟨_, .onDevice hvi (hpath.reach h₀) hret⟩
    by_cases he : e = 0
    · obtain ⟨r, hr⟩ := ih nodes'
      exact ⟨r, .next hcreated (he ▸ hverified) hr⟩
    · exact ⟨-1, .error hcreated hverified he⟩

/-- **The test passes.** -/
theorem sharedAddressSpace_passes (hlists : numLists < 2 ^ 31)
    (hsize : listLength * numLists < 2 ^ 31) {r : ℤ}
    (h : Tested numDevices numLists listLength buffer (combinations numDevices) nodes r) : r = 0 := by
  generalize combinations numDevices = rest at h
  induction h with
  | done => rfl
  | error hcreated hverified hne =>
    exact absurd ((hverified.eq_zero_iff hlists hsize).mpr (hcreated.lists hlists hsize)) hne
  | next _ _ _ ih => exact ih

theorem sharedAddressSpace_passes_twoNodes :
    ∃ r, Tested 1 1 2 oneBuffer (combinations 1) twoNodes r ∧ r = 0 := by
  have hcreate : ∀ ci nodes, Created 1 1 2 oneBuffer ci nodes (createLinkedLists 1 2 nodes) := by
    intro ci nodes
    by_cases hci : ci = 1
    · exact .onHost hci
    · obtain ⟨c, hc, hret, heq⟩ : ∃ c, (createRuns 1 2 oneBuffer nodes).Reach System.anyStep c ∧
          (∀ i, (c.loc i).pc = .returned) ∧ c.mem.nodes = createLinkedLists 1 2 nodes :=
        path_createLinkedLists (by decide) (by decide) nodes
      exact heq ▸ .onDevice hci hc hret
  have hverify : ∀ n ∈ [1, 3], Verified 1 1 2 0 ((createLinkedLists 1 2)^[n] twoNodes) 0 := by
    intro n hn
    let c₀ : Conf (Fin 1) (BitVec 32) VerifyLocals := ⟨0, fun i => ⟨false, 0, head i⟩⟩
    obtain ⟨c, hc, hret, hzero⟩ := System.Reach.exists_of_run
      (S := verifyRuns 1 2 ((createLinkedLists 1 2)^[n] twoNodes)) System.anyStep
      (fun c => (∀ i, (c.loc i).returned = true) ∧ verifyOnDevice 1 2 c.mem = 0)
      (s := c₀) ⟨rfl, fun _ => rfl⟩ [0, 0, 0] (by revert n; decide)
    exact hzero ▸ .onDevice (by decide) hc hret
  have hhost : ∀ n ∈ [2, 4], Verified 1 1 2 1 ((createLinkedLists 1 2)^[n] twoNodes) 0 := by
    intro n hn
    have hzero : verifyLinkedLists 1 2 ((createLinkedLists 1 2)^[n] twoNodes) = 0 := by
      revert n
      decide
    exact hzero ▸ .onHost rfl
  have hrun : Tested 1 1 2 oneBuffer (combinations 1) twoNodes 0 :=
    .next (hcreate 0 _) (hverify 1 (by decide)) (.next (hcreate 0 _) (hhost 2 (by decide))
      (.next (hcreate 1 _) (hverify 3 (by decide)) (.next (hcreate 1 _) (hhost 4 (by decide))
        (.done _))))
  exact ⟨0, hrun, sharedAddressSpace_passes (by decide) (by decide) hrun⟩

end OpenCLCTS.SVM.LinkedLists
