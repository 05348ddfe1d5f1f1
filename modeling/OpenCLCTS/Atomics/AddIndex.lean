import Mathlib.Data.Fintype.Basic
import Mathlib.Data.Multiset.Filter
import OpenCLCTS.Lib.Slots

/-!
# Atomic indices

`test_indexed_cases.cpp`, first test: each thread takes an index from a counter by an atomic addition
and writes its id to that index of `counts`.  The host looks for each id and wants to find it once.

What the host accepts is every arrangement of the ids and nothing else (`fail_eq_zero_iff`), and the
kernel leaves such an arrangement in every interleaving (`addIndex_passes`).
-/

namespace OpenCLCTS.Atomics

open Interleaving

variable {n : ℕ}

/-- `add_index_test`: the counter and `counts`.  `counter_to_use` is an `int`; with fewer than `2 ^ 31`
threads it is not negative. -/
def addIndexTest : Program (Fin n) (SlotMem Unit (BitVec 32)) SlotPc := fun tid pc m =>
  match pc with
  | .add =>
    some (.write (m.counter ()).toNat, ⟨Function.update m.counter () (m.counter () + 1), m.slot⟩)
  | .write counterToUse =>
    some (.returned, ⟨m.counter, Function.update m.slot counterToUse (BitVec.ofNat 32 tid)⟩)
  | .returned => none

/-- All interleavings of `numGlobalThreads` threads, when the counter is zero and the values
are `-1`. -/
def addIndexRuns (numGlobalThreads : ℕ) :
    System (Conf (Fin numGlobalThreads) (SlotMem Unit (BitVec 32)) SlotPc) (Fin numGlobalThreads) :=
  threads addIndexTest fun c => c.mem = ⟨fun _ => 0, fun _ => -1⟩ ∧ ∀ tid, c.loc tid = .add

/-- The loop over `index`. -/
def instancesFound (numGlobalThreads : ℕ) (values : ℕ → BitVec 32) (lookingFor : ℕ) : ℕ :=
  (List.range numGlobalThreads).countP fun index => values index = BitVec.ofNat 32 lookingFor

/-- The verification, which returns `fail`. -/
def addIndexFail (numGlobalThreads : ℕ) (values : ℕ → BitVec 32) : ℤ :=
  (List.range numGlobalThreads).foldl
    (fun fail lookingFor => if instancesFound numGlobalThreads values lookingFor ≠ 1 then 1 else fail) 0

/-! ### What the host accepts -/

theorem foldl_fail_eq_zero_iff (p : ℕ → Prop) [DecidablePred p] (l : List ℕ) (fail : ℤ) :
    l.foldl (fun fail i => if p i then 1 else fail) fail = 0 ↔ fail = 0 ∧ ∀ i ∈ l, ¬ p i := by
  induction l generalizing fail with
  | nil => simp
  | cons i l ih =>
    rw [List.foldl_cons, ih, List.forall_mem_cons]
    by_cases hi : p i <;> simp [hi]

theorem instancesFound_eq (numGlobalThreads : ℕ) (values : ℕ → BitVec 32) (lookingFor : ℕ) :
    instancesFound numGlobalThreads values lookingFor
      = ((Multiset.range numGlobalThreads).map values).count (BitVec.ofNat 32 lookingFor) := by
  rw [Multiset.count_map, instancesFound, List.countP_eq_length_filter]
  simp only [Multiset.range, Multiset.filter_coe, Multiset.coe_card, eq_comm]

/-- The ids of the threads. -/
def ids (n : ℕ) : Multiset (BitVec 32) := (Multiset.range n).map (BitVec.ofNat 32)

theorem ofNat_inj_of_lt {i j : ℕ} (hi : i < 2 ^ 32) (hj : j < 2 ^ 32)
    (h : BitVec.ofNat 32 i = BitVec.ofNat 32 j) : i = j := by
  rw [← BitVec.toNat_inj] at h
  simpa only [BitVec.toNat_ofNat, Nat.mod_eq_of_lt hi, Nat.mod_eq_of_lt hj] using h

theorem nodup_ids {s : Multiset ℕ} (hs : s.Nodup) (hn : ∀ i ∈ s, i < 2 ^ 32) :
    (s.map (BitVec.ofNat 32)).Nodup :=
  Multiset.Nodup.map_on (fun _ hi _ hj => ofNat_inj_of_lt (hn _ hi) (hn _ hj)) hs

/-- **The host accepts the arrangements of the ids**, whatever the device has written. -/
theorem addIndexFail_eq_zero (hn : n ≤ 2 ^ 32) (values : ℕ → BitVec 32) :
    addIndexFail n values = 0 ↔ (Multiset.range n).map values = ids n := by
  have hnodup : (ids n).Nodup :=
    nodup_ids (Multiset.nodup_range n) fun i hi => (Multiset.mem_range.mp hi).trans_le hn
  have hcard : ((Multiset.range n).map values).card = (ids n).card := by simp [ids]
  rw [addIndexFail, foldl_fail_eq_zero_iff]
  simp only [true_and, List.mem_range, not_not, instancesFound_eq]
  constructor
  · intro hall
    refine (Multiset.eq_of_le_of_card_le ((Multiset.le_iff_subset hnodup).mpr ?_) hcard.le).symm
    intro v hv
    obtain ⟨i, hi, rfl⟩ := Multiset.mem_map.mp hv
    have hone := hall i (Multiset.mem_range.mp hi)
    exact Multiset.one_le_count_iff_mem.mp hone.ge
  · intro heq i hi
    rw [heq]
    exact Multiset.count_eq_one_of_mem hnodup
      (Multiset.mem_map_of_mem _ (Multiset.mem_range.mpr hi))

/-! ### What the kernel does -/

theorem addIndexTest_eq : addIndexTest (n := n)
    = slotKernel (fun _ => some ()) (fun _ i => i) fun tid : Fin n => BitVec.ofNat 32 tid := by
  funext tid pc m
  cases pc <;> rfl

theorem withKey_unit : withKey (fun _ : Fin n => some ()) () = Finset.univ := by
  simp [withKey]

theorem map_univ {V : Type} (f : ℕ → V) :
    (Finset.univ : Finset (Fin n)).val.map (fun t : Fin n => f t) = (Multiset.range n).map f := by
  rw [Fin.univ_val_map, List.ofFn_eq_map]
  change ((List.finRange n).map (f ∘ Fin.val) : Multiset V) = ((List.range n).map f : Multiset V)
  rw [← List.map_map, List.map_coe_finRange_eq_range]

variable {c : Conf (Fin n) (SlotMem Unit (BitVec 32)) SlotPc}

theorem reach_slots (hn : n < 2 ^ 32) {ok} (h : (addIndexRuns n).Reach ok c) :
    ∃ taken, Slots (fun _ => some ()) (fun _ i => i) (fun tid : Fin n => BitVec.ofNat 32 tid)
      (fun _ => -1) c.mem c.loc taken := by
  refine h.invariant (I := fun c => ∃ taken, Slots (fun _ => some ()) (fun _ i => i)
    (fun tid : Fin n => BitVec.ofNat 32 tid) (fun _ => -1) c.mem c.loc taken) ?_ ?_
  · rintro c ⟨hmem, hloc⟩
    rw [hmem]
    exact ⟨fun _ => 0, Slots.start (m := ⟨fun _ => 0, fun _ => -1⟩) (fun _ => rfl) hloc⟩
  · rintro c t c' ⟨taken, hc⟩ - hnext
    obtain ⟨l', m', hP, rfl⟩ := threads_next.mp hnext
    rw [addIndexTest_eq] at hP
    exact hc.next (by simpa using hn) (fun _ _ _ _ _ _ heq => ⟨rfl, heq⟩) hP

/-- **The test passes**: each thread has used exactly one index, and the host finds every id. -/
theorem addIndex_passes (hn : n < 2 ^ 31) (h : (addIndexRuns n).Reach System.anyStep c)
    (hret : ∀ tid, c.loc tid = .returned) :
    (Multiset.range n).map c.mem.slot = ids n ∧ addIndexFail n c.mem.slot = 0 := by
  obtain ⟨taken, hc⟩ := reach_slots (by omega) h
  have hslots := hc.map_slot hret ()
  rw [withKey_unit, map_univ (BitVec.ofNat 32)] at hslots
  have hids : (Multiset.range n).map c.mem.slot = ids n := by
    simpa [ids] using hslots
  exact ⟨hids, (addIndexFail_eq_zero (by omega) _).mpr hids⟩

theorem addIndex_passes_two : ∃ c, (addIndexRuns 2).Reach System.anyStep c ∧
    addIndexFail 2 c.mem.slot = 0 := by
  let c₀ : Conf (Fin 2) (SlotMem Unit (BitVec 32)) SlotPc :=
    ⟨⟨fun _ => 0, fun _ => -1⟩, fun _ => .add⟩
  obtain ⟨c, hc, hret⟩ := System.Reach.exists_of_run (S := addIndexRuns 2) System.anyStep
    (fun c => ∀ tid, c.loc tid = .returned) (s := c₀) ⟨rfl, fun _ => rfl⟩ [1, 0, 0, 1] (by decide)
  exact ⟨c, hc, (addIndex_passes (by decide) hc hret).2⟩

end OpenCLCTS.Atomics
