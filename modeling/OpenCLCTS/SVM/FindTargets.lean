import OpenCLCTS.Lib.Slots

/-!
# Targets that a device reports to the host

`test_fine_grain_sync_buffers.cpp`: the work-items of `find_targets` search an image, and each of
those that find a target takes a slot of `targetLocations` by an atomic counter and writes its
location to it.  The host polls the slots one after the other while the kernel is running, and
starts a task for each location.  A slot that has been handed out need not be written yet, and later
ones can be written before it.

The host reads the status of the kernel before it looks at the slot, so when it stops no location is
missing.  **It starts exactly one task for each target** (`findTargets_spawned`) and never reads
beyond the slots (`reach_polling`).
-/

namespace OpenCLCTS.SVM.FindTargets

open Interleaving

variable {n : ℕ}

/-- `find_targets`: `numTargetsFound` and `targetLocations`. -/
def findTargets (image : ℕ → BitVec 32) (target : BitVec 32) :
    Program (Fin n) (SlotMem Unit (BitVec 32)) SlotPc := fun i pc m =>
  match pc with
  | .add =>
    if image i = target then
      some (.write (m.counter ()).toNat, ⟨Function.update m.counter () (m.counter () + 1), m.slot⟩)
    else some (.returned, m)
  | .write index =>
    if image i = target then
      some (.returned, ⟨m.counter, Function.update m.slot index (BitVec.ofNat 32 i)⟩)
    else none
  | .returned => none

/-- What the host does next. -/
inductive HostPc
  /-- `clGetEventInfo(done, …, &status, …)` -/
  | status
  /-- the load in the condition of `if` -/
  | poll
  /-- `spawnAnalysisTask(pTargetLocations[i])` -/
  | spawn
  /-- the load in the condition of `while` -/
  | condition
  | returned
  deriving DecidableEq

/-- The variables of the host, and the locations it has started a task for. -/
structure Host where
  pc : HostPc
  i : ℕ
  complete : Bool
  spawned : List (BitVec 32)
  deriving DecidableEq

/-- A step of the host, when `clGetEventInfo` says whether the kernel is complete. -/
def Host.step (slot : ℕ → BitVec 32) (complete : Bool) (h : Host) : Option Host :=
  match h.pc with
  | .status => some { h with pc := .poll, complete := complete }
  | .poll => some { h with pc := if slot h.i ≠ -1 then .spawn else .condition }
  | .spawn => some { h with pc := .condition, i := h.i + 1, spawned := h.spawned ++ [slot h.i] }
  | .condition =>
    some { h with pc := if ¬ h.complete ∨ slot h.i ≠ -1 then .status else .returned }
  | .returned => none

structure State (n : ℕ) where
  mem : SlotMem Unit (BitVec 32)
  loc : Fin n → SlotPc
  host : Host

/-- What happens next: a work-item does a step, or the host does one and is told, if it asks, whether
the kernel is complete.  It is told so only when all work-items have returned. -/
def next (image : ℕ → BitVec 32) (target : BitVec 32) (s : State n) : Fin n ⊕ Bool → Option (State n)
  | .inl i => (findTargets image target i (s.loc i) s.mem).map fun r =>
      ⟨r.2, Function.update s.loc i r.1, s.host⟩
  | .inr complete =>
    if complete = true → ∀ i, s.loc i = .returned then
      (s.host.step s.mem.slot complete).map fun h => { s with host := h }
    else none

/-- All runs of the kernel and the host. -/
def runs (n : ℕ) (image : ℕ → BitVec 32) (target : BitVec 32) : System (State n) (Fin n ⊕ Bool) where
  init s := s.mem = ⟨fun _ => 0, fun _ => -1⟩ ∧ (∀ i, s.loc i = .add) ∧
    s.host.pc = .status ∧ s.host.i = 0 ∧ s.host.spawned = []
  next := next image target

/-- `MAX_TARGETS`, the number of slots. -/
def maxTargets : ℕ := 1024

/-- What the test returns. -/
def Host.result (h : Host) : ℤ := if h.i ≠ 3 then -1 else 0

/-- The work-items that find a target. -/
def targets (n : ℕ) (image : ℕ → BitVec 32) (target : BitVec 32) : Finset (Fin n) :=
  Finset.univ.filter fun i => image i = target

variable {image : ℕ → BitVec 32} {target : BitVec 32}

/-! ### The kernel hands out slots -/

/-- The work-items that find a target take a slot. -/
def key (image : ℕ → BitVec 32) (target : BitVec 32) (i : Fin n) : Option Unit :=
  if image i = target then some () else none

theorem findTargets_eq (image : ℕ → BitVec 32) (target : BitVec 32) :
    findTargets (n := n) image target
      = slotKernel (key image target) (fun _ index => index) fun i => BitVec.ofNat 32 i := by
  funext i pc m
  by_cases htarget : image i = target
  · cases pc <;> simp [findTargets, slotKernel, key, htarget]
  · cases pc <;> simp [findTargets, slotKernel, key, htarget]

theorem withKey_eq (image : ℕ → BitVec 32) (target : BitVec 32) :
    withKey (key (n := n) image target) () = targets n image target := by
  ext i
  simp [withKey, key, targets]

abbrev TargetSlots (image : ℕ → BitVec 32) (target : BitVec 32) (m : SlotMem Unit (BitVec 32))
    (loc : Fin n → SlotPc) (taken : Fin n → ℕ) : Prop :=
  Slots (key image target) (fun _ index => index) (fun i => BitVec.ofNat 32 i) (fun _ => -1) m loc taken

/-- **The host while it polls**: the slots it has been through are written, and it has started a task
for each of them. -/
structure Polling (s : State n) : Prop where
  written : ∀ k < s.host.i, s.mem.slot k ≠ -1
  spawned : s.host.spawned = (List.range s.host.i).map s.mem.slot
  spawn : s.host.pc = .spawn → s.mem.slot s.host.i ≠ -1
  complete : s.host.complete = true → s.host.pc ≠ .status → ∀ i, s.loc i = .returned
  returned : s.host.pc = .returned → s.host.complete = true ∧ s.mem.slot s.host.i = -1

variable {s s' : State n} {taken : Fin n → ℕ}

theorem Polling.device (h : Polling s) {m : SlotMem Unit (BitVec 32)} {i : Fin n} {l : SlotPc}
    (hloc : s.loc i ≠ .returned) (hstable : ∀ k, s.mem.slot k ≠ -1 → m.slot k = s.mem.slot k) :
    Polling ⟨m, Function.update s.loc i l, s.host⟩ := by
  have hwritten : ∀ k < s.host.i, m.slot k = s.mem.slot k := fun k hk => hstable k (h.written k hk)
  refine ⟨fun k hk => ?_, ?_, fun hpc => ?_, fun hcomplete hpc => ?_, fun hpc => ?_⟩
  · rw [hwritten k hk]
    exact h.written k hk
  · rw [h.spawned]
    refine List.map_congr_left fun k hk => ?_
    exact (hwritten k (List.mem_range.mp hk)).symm
  · rw [hstable _ (h.spawn hpc)]
    exact h.spawn hpc
  · exact absurd (h.complete hcomplete hpc i) hloc
  · have hstatus : s.host.pc ≠ .status := by
      rw [show s.host.pc = .returned from hpc]
      simp
    exact absurd (h.complete (h.returned hpc).1 hstatus i) hloc

theorem Polling.host (h : Polling s) {complete : Bool} {host : Host}
    (hok : complete = true → ∀ i, s.loc i = .returned)
    (hstep : s.host.step s.mem.slot complete = some host) :
    Polling { s with host := host } := by
  unfold Host.step at hstep
  cases hpc : s.host.pc with
  | status =>
    simp only [hpc, Option.some.injEq] at hstep
    subst hstep
    exact ⟨h.written, h.spawned, by simp, fun hc _ => hok hc, by simp⟩
  | poll =>
    simp only [hpc, Option.some.injEq] at hstep
    subst hstep
    refine ⟨h.written, h.spawned, fun hspawn => ?_, fun hc _ => h.complete hc (by simp [hpc]), ?_⟩
    · intro hslot
      have hif : (if s.mem.slot s.host.i ≠ -1 then HostPc.spawn else .condition) = .spawn := hspawn
      rw [if_neg (not_not.mpr hslot)] at hif
      cases hif
    · simp only
      split <;> simp
  | spawn =>
    simp only [hpc, Option.some.injEq] at hstep
    subst hstep
    refine ⟨fun k hk => ?_, ?_, by simp, fun hc _ => h.complete hc (by simp [hpc]), by simp⟩
    · rcases Nat.lt_succ_iff_lt_or_eq.mp hk with hk | rfl
      · exact h.written k hk
      · exact h.spawn hpc
    · simp [h.spawned, List.range_succ]
  | condition =>
    simp only [hpc, Option.some.injEq] at hstep
    subst hstep
    refine ⟨h.written, h.spawned, ?_, fun hc _ => h.complete hc (by simp [hpc]), fun hret => ?_⟩
    · simp only
      split <;> simp
    · simp only at hret ⊢
      split at hret
      · cases hret
      · rename_i hstop
        simpa [not_or] using hstop
  | returned => simp [hpc] at hstep

theorem reach_polling (hn : n < 2 ^ 32) {ok} (h : (runs n image target).Reach ok s) :
    (∃ taken, TargetSlots image target s.mem s.loc taken) ∧ Polling s := by
  refine h.invariant (I := fun s => (∃ taken, TargetSlots image target s.mem s.loc taken) ∧ Polling s)
    ?_ ?_
  · rintro s ⟨hmem, hloc, hpc, hi, hspawned⟩
    constructor
    · rw [hmem]
      exact ⟨fun _ => 0, Slots.start (m := ⟨fun _ => 0, fun _ => -1⟩) (fun _ => rfl) hloc⟩
    · exact ⟨by simp [hi], by simp [hi, hspawned], by simp [hpc], by simp [hpc], by simp [hpc]⟩
  · rintro s e s' ⟨⟨taken, hslots⟩, hpolling⟩ - hnext
    cases e with
    | inl i =>
      obtain ⟨⟨l', m'⟩, hP, rfl⟩ := Option.map_eq_some_iff.mp hnext
      rw [findTargets_eq] at hP
      have hloc : s.loc i ≠ .returned := by
        intro hret
        cases hk : key image target i <;> simp [slotKernel, hret, hk] at hP
      refine ⟨hslots.next (by simpa using hn) (fun _ _ _ _ _ _ heq => ⟨rfl, heq⟩) hP, ?_⟩
      exact hpolling.device hloc fun k hk =>
        hslots.slot_stable (fun _ _ _ _ _ _ heq => ⟨rfl, heq⟩) hP hk
    | inr complete =>
      simp only [runs, next] at hnext
      split at hnext
      · rename_i hok
        obtain ⟨host, hstep, rfl⟩ := Option.map_eq_some_iff.mp hnext
        exact ⟨⟨taken, hslots⟩, hpolling.host hok hstep⟩
      · cases hnext

/-! ### What the host has found -/

theorem slot_eq_of_le (h : TargetSlots image target s.mem s.loc taken) {k : ℕ}
    (hk : (targets n image target).card ≤ k) : s.mem.slot k = -1 := by
  refine h.untouched k fun i u hi hret heq => ?_
  cases u
  have hlt := (h.lt () i (mem_claimed.mpr ⟨hi, by simp [hret]⟩)).trans_le (card_claimed_le ..)
  rw [withKey_eq] at hlt
  omega

theorem Polling.le (h : Polling s) (hslots : TargetSlots image target s.mem s.loc taken) :
    s.host.i ≤ (targets n image target).card := by
  by_contra hlt
  exact h.written _ (not_le.mp hlt) (slot_eq_of_le hslots le_rfl)

theorem slot_ne_of_lt (hn : n < 2 ^ 32 - 1) (h : TargetSlots image target s.mem s.loc taken)
    (hret : ∀ i, s.loc i = .returned) {k : ℕ} (hk : k < (targets n image target).card) :
    s.mem.slot k ≠ -1 := by
  have hsurj := (h.bijOn hret ()).surjOn
  rw [withKey_eq] at hsurj
  obtain ⟨i, hi, rfl⟩ := hsurj (by simpa using hk)
  have hkey : key image target i = some () := by
    rw [← mem_withKey, withKey_eq]
    exact hi
  rw [h.written i () hkey (hret i)]
  exact ofNat_ne_neg_one (i.isLt.trans hn)

/-- **The host starts one task for each target**, and stays within the slots on the way: with fewer
targets than slots neither the host nor a work-item leaves the buffer. -/
theorem findTargets_spawned (hn : n < 2 ^ 32 - 1)
    (h : (runs n image target).Reach System.anyStep s) :
    s.host.i ≤ (targets n image target).card ∧
      (∀ i index, s.loc i = .write index → index < (targets n image target).card) ∧
      ((targets n image target).card < maxTargets →
        s.host.i < maxTargets ∧ ∀ i index, s.loc i = .write index → index < maxTargets) ∧
      (s.host.pc = .returned →
        (s.host.spawned : Multiset (BitVec 32))
          = (targets n image target).val.map (fun i : Fin n => BitVec.ofNat 32 i) ∧
        (s.host.result = 0 ↔ (targets n image target).card = 3)) := by
  obtain ⟨⟨taken, hslots⟩, hpolling⟩ := reach_polling (by omega) h
  have hle := hpolling.le hslots
  have hwrite : ∀ i index, s.loc i = .write index → index < (targets n image target).card := by
    intro i index hwrite
    obtain ⟨u, hu⟩ := Option.isSome_iff_exists.mp (hslots.keyed i index hwrite)
    cases u
    have hlt := hslots.lt () i (mem_claimed.mpr ⟨hu, by simp [hwrite]⟩)
    rw [← hslots.index i index hwrite] at hlt
    refine hlt.trans_le ?_
    rw [← withKey_eq]
    exact card_claimed_le ..
  refine ⟨hle, hwrite, fun hmax => ⟨hle.trans_lt hmax, fun i index h => (hwrite i index h).trans hmax⟩,
    fun hpc => ?_⟩
  obtain ⟨hcomplete, hlast⟩ := hpolling.returned hpc
  have hret := hpolling.complete hcomplete (by simp [hpc])
  have hi : s.host.i = (targets n image target).card := by
    refine le_antisymm hle ?_
    by_contra hlt
    exact slot_ne_of_lt hn hslots hret (not_le.mp hlt) hlast
  have hmap := hslots.map_slot hret ()
  rw [withKey_eq, ← hi] at hmap
  constructor
  · rw [hpolling.spawned, ← hmap]
    rfl
  · rw [Host.result, hi]
    split <;> simp_all

/-- The image of the test, with five pixels. -/
def fivePixels (i : ℕ) : BitVec 32 := if i = 0 ∨ i = 3 ∨ i = 4 then 777 else 0

def fivePixelsStart : State 5 := ⟨⟨fun _ => 0, fun _ => -1⟩, fun _ => .add, ⟨.status, 0, false, []⟩⟩

theorem findTargets_spawned_fivePixels : ∃ s, (runs 5 fivePixels 777).Reach System.anyStep s ∧
    s.host.pc = .returned ∧ s.host.result = 0 := by
  obtain ⟨s, hs, hpc⟩ := System.Reach.exists_of_run (S := runs 5 fivePixels 777) System.anyStep
    (fun s => s.host.pc = .returned) (s := fivePixelsStart) ⟨rfl, fun _ => rfl, rfl, rfl, rfl⟩
    [.inl 3, .inr false, .inl 0, .inl 0, .inr false, .inr false, .inl 3, .inr false, .inr false,
      .inr false, .inl 1, .inl 4, .inl 2, .inl 4, .inr true, .inr true, .inr true, .inr true,
      .inr true, .inr true, .inr true, .inr true, .inr true] (by decide)
  exact ⟨s, hs, hpc, ((findTargets_spawned (by decide) hs).2.2.2 hpc).2.mpr (by decide)⟩

/-! ### The host gets to the end -/

/-- The steps that a work-item has before it. -/
def rank : SlotPc → ℕ
  | .add => 2
  | .write _ => 1
  | .returned => 0

/-- The steps that the host has before it, but for the slots that it has not been through. -/
def Host.rank (h : Host) (slot : ℕ → BitVec 32) : ℕ :=
  match h.pc with
  | .returned => 0
  | .status => 3
  | .poll => if h.complete = true ∨ slot h.i ≠ -1 then 2 else 5
  | .spawn => 0
  | .condition => if h.complete = true ∧ slot h.i = -1 then 1 else 4

theorem exists_path_returned (hn : n < 2 ^ 32) (h : (runs n image target).Reach System.anyStep s) :
    ∃ s', (runs n image target).Path System.anyStep s s' ∧
      (runs n image target).Reach System.anyStep s' ∧ ∀ i, s'.loc i = .returned := by
  refine System.Path.of_measure (fun s => ∑ i, rank (s.loc i)) (fun s hs hgoal => ?_) h
  obtain ⟨i, hi⟩ := not_forall.mp hgoal
  obtain ⟨⟨taken, hslots⟩, -⟩ := reach_polling hn hs
  have hstep : ∃ l m, findTargets image target i (s.loc i) s.mem = some (l, m) ∧
      rank l < rank (s.loc i) := by
    cases hl : s.loc i with
    | add =>
      by_cases htarget : image i = target
      · simp [findTargets, htarget, rank]
      · simp [findTargets, htarget, rank]
    | write index =>
      have hkey := hslots.keyed i index hl
      have htarget : image i = target := by
        by_contra hne
        simp [key, hne] at hkey
      simp [findTargets, htarget, rank]
    | returned => exact absurd hl hi
  obtain ⟨l, m, hP, hrank⟩ := hstep
  have hnext : (runs n image target).next s (.inl i) = some ⟨m, Function.update s.loc i l, s.host⟩ := by
    simp [runs, next, hP]
  refine ⟨.inl i, _, trivial, hnext, .step _ hs trivial hnext, ?_⟩
  have hsum := sum_update (fun _ => rank) s.loc i l
  simp only
  omega

/-- A host that is told that the kernel is complete gets nearer to the end with every step. -/
theorem host_step (hn : n < 2 ^ 32 - 1) (hs : (runs n image target).Reach System.anyStep s)
    (hgoal : s.host.pc ≠ .returned) :
    ∃ host, s.host.step s.mem.slot true = some host ∧
      8 * ((targets n image target).card - host.i) + host.rank s.mem.slot
        < 8 * ((targets n image target).card - s.host.i) + s.host.rank s.mem.slot := by
  obtain ⟨⟨taken, hslots⟩, hpolling⟩ := reach_polling (by omega) hs
  have hle := hpolling.le hslots
  have hlt : s.mem.slot s.host.i ≠ -1 → s.host.i < (targets n image target).card := by
    intro hslot
    by_contra hge
    exact hslot (slot_eq_of_le hslots (not_lt.mp hge))
  cases hpc : s.host.pc with
  | returned => exact absurd hpc hgoal
  | status =>
    refine ⟨{ s.host with pc := .poll, complete := true }, by simp [Host.step, hpc], ?_⟩
    simp [Host.rank, hpc]
  | poll =>
    refine ⟨_, by simp only [Host.step, hpc]; rfl, ?_⟩
    by_cases hslot : s.mem.slot s.host.i = -1
    · cases hcomplete : s.host.complete <;> simp [Host.rank, hpc, hslot, hcomplete]
    · have hslot' : ¬ s.mem.slot s.host.i = 4294967295#32 := hslot
      simp [Host.rank, hpc, hslot']
  | spawn =>
    have hi := hlt (hpolling.spawn hpc)
    refine ⟨_, by simp only [Host.step, hpc]; rfl, ?_⟩
    have hrank : ∀ k spawned, Host.rank ⟨.condition, k, s.host.complete, spawned⟩ s.mem.slot ≤ 4 := by
      intro k spawned
      unfold Host.rank
      simp only
      split <;> omega
    have := hrank (s.host.i + 1) (s.host.spawned ++ [s.mem.slot s.host.i])
    simp only at this ⊢
    omega
  | condition =>
    refine ⟨_, by simp only [Host.step, hpc]; rfl, ?_⟩
    by_cases hstop : s.host.complete = true ∧ s.mem.slot s.host.i = -1
    · simp [Host.rank, hpc, hstop.1, hstop.2]
    · have hgo : ¬ s.host.complete = true ∨ s.mem.slot s.host.i ≠ -1 := by
        rwa [not_and_or] at hstop
      simp only [if_pos hgo, Host.rank, hpc, if_neg hstop]
      omega

/-- **The host gets to the end** from every state: no schedule of the work-items can make it wait for
something that will not come. -/
theorem findTargets_progress (hn : n < 2 ^ 32 - 1)
    (h : (runs n image target).Reach System.anyStep s) :
    ∃ s', (runs n image target).Path System.anyStep s s' ∧ s'.host.pc = .returned := by
  obtain ⟨s₁, hpath₁, hs₁, hret₁⟩ := exists_path_returned (by omega) h
  have hstep : ∀ s, ((runs n image target).Reach System.anyStep s ∧ ∀ i, s.loc i = .returned) →
      ¬ s.host.pc = .returned → ∃ e s', System.anyStep s e ∧
        (runs n image target).next s e = some s' ∧
        ((runs n image target).Reach System.anyStep s' ∧ ∀ i, s'.loc i = .returned) ∧
        8 * ((targets n image target).card - s'.host.i) + s'.host.rank s'.mem.slot
          < 8 * ((targets n image target).card - s.host.i) + s.host.rank s.mem.slot := by
    rintro s ⟨hs, hret⟩ hgoal
    obtain ⟨host, hhost, hmeasure⟩ := host_step hn hs hgoal
    have hnext : (runs n image target).next s (.inr true) = some { s with host := host } := by
      simp [runs, next, hret, hhost]
    exact ⟨.inr true, _, trivial, hnext, ⟨.step _ hs trivial hnext, hret⟩, hmeasure⟩
  obtain ⟨s₂, hpath₂, -, hend⟩ := System.Path.of_measure
    (fun s : State n => 8 * ((targets n image target).card - s.host.i) + s.host.rank s.mem.slot) hstep
    ⟨hs₁, hret₁⟩
  exact ⟨s₂, hpath₁.trans hpath₂, hend⟩

theorem findTargets_progress_fivePixels :
    ∃ s', (runs 5 fivePixels 777).Path System.anyStep fivePixelsStart s' ∧ s'.host.pc = .returned :=
  findTargets_progress (by decide) (.start ⟨rfl, fun _ => rfl, rfl, rfl, rfl⟩)

end OpenCLCTS.SVM.FindTargets
