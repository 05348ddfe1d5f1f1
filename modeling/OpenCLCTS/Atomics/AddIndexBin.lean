import Mathlib.Data.Fintype.BigOperators
import Mathlib.Algebra.Order.BigOperators.Group.Finset
import OpenCLCTS.Atomics.AddIndex
import OpenCLCTS.Harness.RandomInRange
import OpenCLCTS.Lib.Loops

/-!
# Atomic indices into bins

`test_indexed_cases.cpp`, second test: the host assigns items to bins at random, each thread takes a
place in the bin of its item by an atomic addition to the counter of the bin, and the host verifies
the bins.

The random assignment never puts too many items into a bin and there is always a bin that has room
(`assignBins_spec`, `exists_room`).  The verification accepts the bins that hold their items, each
once and in any order, and nothing else (`errors_eq_zero_iff`).  The kernel fills the bins like that
in every interleaving (`addIndexBin_passes`).
-/

namespace OpenCLCTS.Atomics

open Interleaving Harness

/-! ### The assignment -/

/-- `random_in_range(0, number_of_bins - 1, d)`, from the number that `genrand_int32` returns. -/
def randomBin (numberOfBins : ℕ) (genrand : BitVec 32) : ℕ :=
  (randomInRange 0#32 (BitVec.ofNat 32 (numberOfBins - 1)) genrand).toNat

/-- `l_bin_counts` and `l_bin_assignments`. -/
structure Bins where
  binCounts : ℕ → ℕ
  binAssignments : ℕ → ℕ

/-- The numbers are drawn until there is room in the bin; `none` if they run out before. -/
def drawBin (numberOfBins maxCountsPerBin : ℕ) (binCounts : ℕ → ℕ) :
    List (BitVec 32) → Option (ℕ × List (BitVec 32))
  | [] => none
  | r :: draws =>
    let bin := randomBin numberOfBins r
    if maxCountsPerBin ≤ binCounts bin then drawBin numberOfBins maxCountsPerBin binCounts draws
    else some (bin, draws)

/-- The body of the loop over the items. -/
def assignBody (numberOfBins maxCountsPerBin : ℕ) (s : Bins × List (BitVec 32)) (i : ℕ) :
    Option (Bins × List (BitVec 32)) := do
  let (bin, draws) ← drawBin numberOfBins maxCountsPerBin s.1.binCounts s.2
  some (⟨Function.update s.1.binCounts bin (s.1.binCounts bin + 1),
    Function.update s.1.binAssignments i bin⟩, draws)

/-- The loop over the items. -/
def assignBins (numberOfItems numberOfBins maxCountsPerBin : ℕ) (draws : List (BitVec 32)) :
    Option (Bins × List (BitVec 32)) :=
  (List.range' 0 numberOfItems).foldlM (assignBody numberOfBins maxCountsPerBin)
    (⟨fun _ => 0, fun _ => 0⟩, draws)

/-- The items below `n` that are assigned to a bin. -/
def items (n : ℕ) (binAssignments : ℕ → ℕ) (bin : ℕ) : Multiset ℕ :=
  (Multiset.range n).filter fun i => binAssignments i = bin

/-- **What the assignment of `n` items should be.** -/
structure Assigned (n numberOfBins maxCountsPerBin : ℕ) (b : Bins) : Prop where
  lt : ∀ i < n, b.binAssignments i < numberOfBins
  counts : ∀ bin, b.binCounts bin = (items n b.binAssignments bin).card
  le : ∀ bin, b.binCounts bin ≤ maxCountsPerBin

variable {n numberOfBins maxCountsPerBin : ℕ} {b : Bins}

theorem drawBin_spec (hbins : 0 < numberOfBins) (hint : numberOfBins < 2 ^ 31) {binCounts : ℕ → ℕ} {draws rest : List (BitVec 32)}
    {bin : ℕ} (h : drawBin numberOfBins maxCountsPerBin binCounts draws = some (bin, rest)) :
    bin < numberOfBins ∧ binCounts bin < maxCountsPerBin := by
  induction draws with
  | nil => cases h
  | cons r draws ih =>
    rw [drawBin] at h
    split at h
    · exact ih h
    · rename_i hroom
      simp only [Option.some.injEq, Prod.mk.injEq] at h
      obtain ⟨rfl, -⟩ := h
      exact ⟨randomInRange_toNat_lt hbins hint r, not_le.mp hroom⟩

theorem items_succ (n : ℕ) (binAssignments : ℕ → ℕ) (bin k : ℕ) :
    items (n + 1) (Function.update binAssignments n bin) k
      = if k = bin then n ::ₘ items n binAssignments k else items n binAssignments k := by
  have hold : (Multiset.range n).filter (fun i => Function.update binAssignments n bin i = k)
      = items n binAssignments k := by
    refine Multiset.filter_congr fun i hi => ?_
    rw [Function.update_of_ne (Multiset.mem_range.mp hi).ne]
  rw [items, Multiset.range_succ]
  by_cases hk : k = bin
  · subst hk
    rw [Multiset.filter_cons_of_pos _ (by simp), hold, if_pos rfl]
  · have hne : ¬ Function.update binAssignments n bin n = k := by
      rw [Function.update_self]
      exact fun h => hk h.symm
    rw [Multiset.filter_cons_of_neg (p := fun i => Function.update binAssignments n bin i = k) _ hne,
      hold, if_neg hk]

theorem Assigned.assign (h : Assigned n numberOfBins maxCountsPerBin b) {bin : ℕ}
    (hbin : bin < numberOfBins) (hroom : b.binCounts bin < maxCountsPerBin) :
    Assigned (n + 1) numberOfBins maxCountsPerBin
      ⟨Function.update b.binCounts bin (b.binCounts bin + 1),
        Function.update b.binAssignments n bin⟩ := by
  refine ⟨fun i hi => ?_, fun k => ?_, fun k => ?_⟩
  · by_cases hin : i = n
    · simp [hin, hbin]
    · simp only [Function.update_of_ne hin]
      exact h.lt i (by omega)
  · simp only [items_succ]
    by_cases hk : k = bin
    · subst hk
      simp [h.counts]
    · simp [hk, h.counts]
  · by_cases hk : k = bin
    · subst hk
      simp only [Function.update_self]
      exact hroom
    · simp only [Function.update_of_ne hk]
      exact h.le k

theorem assignBody_some {s s' : Bins × List (BitVec 32)} {i : ℕ}
    (h : assignBody numberOfBins maxCountsPerBin s i = some s') :
    ∃ bin, drawBin numberOfBins maxCountsPerBin s.1.binCounts s.2 = some (bin, s'.2) ∧
      s'.1 = ⟨Function.update s.1.binCounts bin (s.1.binCounts bin + 1),
        Function.update s.1.binAssignments i bin⟩ := by
  unfold assignBody at h
  obtain ⟨⟨bin, draws⟩, hdraw, h⟩ := Option.bind_eq_some_iff.mp h
  simp only [Option.some.injEq] at h
  subst h
  exact ⟨bin, hdraw, rfl⟩

/-- **The assignment that the host draws** is as it should be. -/
theorem assignBins_spec (hbins : 0 < numberOfBins) (hint : numberOfBins < 2 ^ 31)
    {draws rest : List (BitVec 32)} (h : assignBins n numberOfBins maxCountsPerBin draws = some (b, rest)) :
    Assigned n numberOfBins maxCountsPerBin b := by
  have hinv := Loops.foldlM_invariant
    (I := fun i (s : Bins × List (BitVec 32)) => Assigned i numberOfBins maxCountsPerBin s.1)
    (fun i s s' _ _ hI hbody => ?_) ⟨by simp, by simp [items], by simp⟩ h
  · simpa using hinv
  · obtain ⟨bin, hdraw, hs'⟩ := assignBody_some hbody
    obtain ⟨hbin, hroom⟩ := drawBin_spec hbins hint hdraw
    rw [hs']
    exact hI.assign hbin hroom

/-! ### There is always room -/

theorem Assigned.sum_counts (h : Assigned n numberOfBins maxCountsPerBin b) :
    ∑ bin ∈ Finset.range numberOfBins, b.binCounts bin = n := by
  have hcard : ∀ bin, b.binCounts bin
      = ((Finset.range n).filter fun i => b.binAssignments i = bin).card := h.counts
  rw [Finset.sum_congr rfl fun bin _ => hcard bin,
    ← Finset.card_eq_sum_card_fiberwise (f := b.binAssignments) (s := Finset.range n)]
  · simp
  · intro i hi
    simpa using h.lt i (by simpa using hi)

/-- **Some bin has room** as long as there are fewer items than places. -/
theorem Assigned.exists_room (h : Assigned n numberOfBins maxCountsPerBin b)
    (hn : n < numberOfBins * maxCountsPerBin) :
    ∃ bin < numberOfBins, b.binCounts bin < maxCountsPerBin := by
  by_contra hfull
  simp only [not_exists, not_and, not_lt] at hfull
  have hle : ∑ _bin ∈ Finset.range numberOfBins, maxCountsPerBin
      ≤ ∑ bin ∈ Finset.range numberOfBins, b.binCounts bin :=
    Finset.sum_le_sum fun bin hbin => hfull bin (Finset.mem_range.mp hbin)
  rw [h.sum_counts, Finset.sum_const, Finset.card_range, Nat.nsmul_eq_mul] at hle
  omega

theorem drawBin_append {binCounts : ℕ → ℕ} {draws rest : List (BitVec 32)} {bin : ℕ}
    (h : drawBin numberOfBins maxCountsPerBin binCounts draws = some (bin, rest))
    (more : List (BitVec 32)) :
    drawBin numberOfBins maxCountsPerBin binCounts (draws ++ more) = some (bin, rest ++ more) := by
  induction draws with
  | nil => cases h
  | cons r draws ih =>
    rw [List.cons_append, drawBin]
    rw [drawBin] at h
    split at h
    · rename_i hfull
      rw [if_pos hfull]
      exact ih h
    · rename_i hroom
      simp only [Option.some.injEq, Prod.mk.injEq] at h
      obtain ⟨rfl, rfl⟩ := h
      rw [if_neg hroom]

/-- If all draws so far hit full bins, the next one that does not is taken. -/
theorem drawBin_append_of_none {binCounts : ℕ → ℕ} {draws : List (BitVec 32)} {r : BitVec 32}
    (h : drawBin numberOfBins maxCountsPerBin binCounts draws = none)
    (hroom : binCounts (randomBin numberOfBins r) < maxCountsPerBin)
    (more : List (BitVec 32)) :
    drawBin numberOfBins maxCountsPerBin binCounts (draws ++ r :: more)
      = some (randomBin numberOfBins r, more) := by
  induction draws with
  | nil => simp [drawBin, not_le.mpr hroom]
  | cons r' draws ih =>
    rw [drawBin] at h
    rw [List.cons_append, drawBin]
    split at h
    · rename_i hfull
      rw [if_pos hfull]
      exact ih h
    · cases h

theorem assignBody_eq {s : Bins × List (BitVec 32)} {draws : List (BitVec 32)} {i bin : ℕ}
    (h : drawBin numberOfBins maxCountsPerBin s.1.binCounts s.2 = some (bin, draws)) :
    assignBody numberOfBins maxCountsPerBin s i
      = some (⟨Function.update s.1.binCounts bin (s.1.binCounts bin + 1),
        Function.update s.1.binAssignments i bin⟩, draws) := by
  unfold assignBody
  rw [h]
  rfl

theorem Assigned.exists_foldlM {i k : ℕ} (h : Assigned i numberOfBins maxCountsPerBin b)
    (hint : numberOfBins < 2 ^ 31) (hk : i + k ≤ numberOfBins * maxCountsPerBin)
    (draws : List (BitVec 32)) : ∃ more s,
      (List.range' i k).foldlM (assignBody numberOfBins maxCountsPerBin) (b, draws ++ more) = some s := by
  induction k generalizing i b draws with
  | zero => exact ⟨[], _, rfl⟩
  | succ k ih =>
    obtain ⟨bin, hbin, hroom⟩ := h.exists_room (by omega)
    cases hdraw : drawBin numberOfBins maxCountsPerBin b.binCounts draws with
    | some r =>
      obtain ⟨bin', rest⟩ := r
      obtain ⟨hbin', hroom'⟩ := drawBin_spec (by omega) hint hdraw
      obtain ⟨more, s, hs⟩ := ih (h.assign hbin' hroom') (by omega) rest
      refine ⟨more, s, ?_⟩
      rw [List.range'_succ, List.foldlM_cons, assignBody_eq (drawBin_append hdraw more)]
      exact hs
    | none =>
      obtain ⟨r, hr⟩ : ∃ r, randomBin numberOfBins r = bin := exists_randomInRange_toNat hbin hint
      obtain ⟨more, s, hs⟩ := ih (h.assign hbin hroom) (by omega) []
      have hnext := drawBin_append_of_none hdraw (hr ▸ hroom) more
      rw [hr] at hnext
      refine ⟨r :: more, s, ?_⟩
      rw [List.range'_succ, List.foldlM_cons, assignBody_eq (s := (b, draws ++ r :: more)) hnext]
      exact hs

/-- **The assignment cannot get stuck**: whatever was drawn so far, there are further numbers for
which the host is done with all items. -/
theorem exists_assignBins (hint : numberOfBins < 2 ^ 31) (hn : n ≤ numberOfBins * maxCountsPerBin)
    (draws : List (BitVec 32)) :
    ∃ more s, assignBins n numberOfBins maxCountsPerBin (draws ++ more) = some s := by
  have hstart : Assigned 0 numberOfBins maxCountsPerBin ⟨fun _ => 0, fun _ => 0⟩ :=
    ⟨by simp, by simp [items], by simp⟩
  exact hstart.exists_foldlM hint (by omega) draws

/-- **The random assignment of the test** has twice as many places as items: it can be finished
whatever was drawn so far, and when it is finished no bin holds too many items. -/
theorem assignBins_of_divisor (hn : 12 ≤ n) (hint : n ≤ 2 ^ 31) (draws : List (BitVec 32)) :
    ∃ more b rest, assignBins n (n / 12) (12 * 2) (draws ++ more) = some (b, rest) ∧
      Assigned n (n / 12) (12 * 2) b := by
  have hplaces : n ≤ n / 12 * (12 * 2) := by omega
  obtain ⟨more, ⟨b, rest⟩, hb⟩ := exists_assignBins (by omega) hplaces draws
  exact ⟨more, b, rest, hb, assignBins_spec (by omega) (by omega) hb⟩

/-- Three bins of which the first is full: after 24 items the next draw of it is rejected. -/
theorem assignBins_of_divisor_thirtySix :
    assignBins 36 3 24 (List.replicate 25 0) = none ∧
    ∃ more b rest, assignBins 36 3 24 (List.replicate 25 0 ++ more) = some (b, rest) ∧
      Assigned 36 3 24 b :=
  ⟨rfl, assignBins_of_divisor (by decide) (by decide) (List.replicate 25 0)⟩

/-! ### The verification -/

/-- The errors of a bin: the counter, the entries that are missing and those that are too many. -/
def binErrors (maxCountsPerBin : ℕ) (b : Bins) (finalBinCounts finalBinAssignments : ℕ → BitVec 32)
    (currentBin : ℕ) : ℕ :=
  let expectedNumber := b.binCounts currentBin
  (if BitVec.ofNat 32 expectedNumber ≠ finalBinCounts currentBin then 1 else 0)
    + (List.range expectedNumber).countP (fun search =>
        finalBinAssignments (currentBin * maxCountsPerBin + search) = -1)
    + (List.range' expectedNumber (maxCountsPerBin - expectedNumber)).countP fun search =>
        finalBinAssignments (currentBin * maxCountsPerBin + search) ≠ -1

/-- The error of an item that is not found in its bin. -/
def itemErrors (maxCountsPerBin : ℕ) (b : Bins) (finalBinAssignments : ℕ → BitVec 32) (index : ℕ) :
    ℕ :=
  let expectedBin := b.binAssignments index
  if (List.range (b.binCounts expectedBin)).any (fun search =>
    finalBinAssignments (expectedBin * maxCountsPerBin + search) = BitVec.ofNat 32 index) then 0 else 1

/-- The verification at the end of `add_index_bin_test`. -/
def verifyBins (n numberOfBins maxCountsPerBin : ℕ) (b : Bins)
    (finalBinCounts finalBinAssignments : ℕ → BitVec 32) : ℤ :=
  let errors := ((List.range numberOfBins).map
      (binErrors maxCountsPerBin b finalBinCounts finalBinAssignments)).sum
    + ((List.range n).map (itemErrors maxCountsPerBin b finalBinAssignments)).sum
  if errors = 0 then 0 else -1

/-- **What the bins should hold.** -/
structure Filled (n numberOfBins maxCountsPerBin : ℕ) (b : Bins)
    (finalBinCounts finalBinAssignments : ℕ → BitVec 32) : Prop where
  counts : ∀ bin < numberOfBins, finalBinCounts bin = BitVec.ofNat 32 (b.binCounts bin)
  entries : ∀ bin < numberOfBins, (Multiset.range (b.binCounts bin)).map
      (fun search => finalBinAssignments (bin * maxCountsPerBin + search))
    = (items n b.binAssignments bin).map (BitVec.ofNat 32)
  rest : ∀ bin < numberOfBins, ∀ search, b.binCounts bin ≤ search → search < maxCountsPerBin →
    finalBinAssignments (bin * maxCountsPerBin + search) = -1

variable {finalBinCounts finalBinAssignments : ℕ → BitVec 32} {bin index : ℕ}

theorem binErrors_eq_zero_iff :
    binErrors maxCountsPerBin b finalBinCounts finalBinAssignments bin = 0 ↔
      finalBinCounts bin = BitVec.ofNat 32 (b.binCounts bin) ∧
      (∀ search < b.binCounts bin, finalBinAssignments (bin * maxCountsPerBin + search) ≠ -1) ∧
      ∀ search, b.binCounts bin ≤ search → search < maxCountsPerBin →
        finalBinAssignments (bin * maxCountsPerBin + search) = -1 := by
  simp only [binErrors, Nat.add_eq_zero_iff, List.countP_eq_zero, List.mem_range, and_assoc,
    List.mem_range'_1, decide_eq_true_eq, not_not, ite_eq_right_iff, Nat.one_ne_zero, imp_false]
  refine and_congr eq_comm (and_congr Iff.rfl ⟨fun h search hle hlt => ?_, fun h search hs => ?_⟩)
  · exact h search ⟨hle, by omega⟩
  · exact h search hs.1 (by omega)

theorem itemErrors_eq_zero_iff :
    itemErrors maxCountsPerBin b finalBinAssignments index = 0 ↔
      ∃ search < b.binCounts (b.binAssignments index), finalBinAssignments
        (b.binAssignments index * maxCountsPerBin + search) = BitVec.ofNat 32 index := by
  simp [itemErrors]

theorem sum_map_range_eq_zero_iff (f : ℕ → ℕ) (m : ℕ) :
    ((List.range m).map f).sum = 0 ↔ ∀ i < m, f i = 0 := by
  simp [List.sum_eq_zero_iff]

theorem verifyBins_eq_zero_iff :
    verifyBins n numberOfBins maxCountsPerBin b finalBinCounts finalBinAssignments = 0 ↔
      (∀ bin < numberOfBins,
        binErrors maxCountsPerBin b finalBinCounts finalBinAssignments bin = 0) ∧
      ∀ index < n, itemErrors maxCountsPerBin b finalBinAssignments index = 0 := by
  rw [← sum_map_range_eq_zero_iff, ← sum_map_range_eq_zero_iff, ← Nat.add_eq_zero_iff]
  simp [verifyBins]

theorem mem_items : index ∈ items n b.binAssignments bin ↔
    index < n ∧ b.binAssignments index = bin := by
  simp [items]

/-- **The host accepts the bins that hold their items**, each once and in any order, and nothing
else: as many items as there are entries are looked for, so there is no entry left for another
one. -/
theorem Assigned.verifyBins_eq_zero (h : Assigned n numberOfBins maxCountsPerBin b)
    (hn : n ≤ 2 ^ 31) :
    verifyBins n numberOfBins maxCountsPerBin b finalBinCounts finalBinAssignments = 0 ↔
      Filled n numberOfBins maxCountsPerBin b finalBinCounts finalBinAssignments := by
  have hnodup : ∀ bin, ((items n b.binAssignments bin).map (BitVec.ofNat 32)).Nodup := fun bin =>
    nodup_ids ((Multiset.nodup_range n).filter _) fun i hi =>
      (mem_items.mp hi).1.trans (by omega)
  have hcard : ∀ bin, ((Multiset.range (b.binCounts bin)).map
      (fun search => finalBinAssignments (bin * maxCountsPerBin + search))).card
        = ((items n b.binAssignments bin).map (BitVec.ofNat 32)).card := by
    intro bin
    rw [Multiset.card_map, Multiset.card_map, Multiset.card_range, h.counts]
  rw [verifyBins_eq_zero_iff]
  simp only [binErrors_eq_zero_iff, itemErrors_eq_zero_iff]
  constructor
  · rintro ⟨hbins, hitems⟩
    refine ⟨fun bin hbin => (hbins bin hbin).1, fun bin hbin => ?_,
      fun bin hbin => (hbins bin hbin).2.2⟩
    refine (Multiset.eq_of_le_of_card_le ((Multiset.le_iff_subset (hnodup bin)).mpr ?_)
      (hcard bin).le).symm
    intro v hv
    obtain ⟨i, hi, rfl⟩ := Multiset.mem_map.mp hv
    obtain ⟨hlt, rfl⟩ := mem_items.mp hi
    obtain ⟨search, hsearch, heq⟩ := hitems i hlt
    exact Multiset.mem_map.mpr ⟨search, Multiset.mem_range.mpr hsearch, heq⟩
  · intro hfilled
    refine ⟨fun bin hbin => ⟨hfilled.counts bin hbin, fun search hsearch => ?_,
      hfilled.rest bin hbin⟩, fun i hi => ?_⟩
    · have hmem := Multiset.mem_map_of_mem
        (fun search => finalBinAssignments (bin * maxCountsPerBin + search))
        (Multiset.mem_range.mpr hsearch)
      rw [hfilled.entries bin hbin] at hmem
      obtain ⟨i, hi, heq⟩ := Multiset.mem_map.mp hmem
      have hlt := (mem_items.mp hi).1
      rw [← heq]
      exact ofNat_ne_neg_one (by omega)
    · have hmem := Multiset.mem_map_of_mem (BitVec.ofNat 32)
        (mem_items (n := n) (b := b).mpr ⟨hi, rfl⟩)
      rw [← hfilled.entries _ (h.lt i hi)] at hmem
      obtain ⟨search, hsearch, heq⟩ := Multiset.mem_map.mp hmem
      exact ⟨search, Multiset.mem_range.mp hsearch, heq⟩

/-! ### The kernel -/

/-- `add_index_bin_test`: `bin_counters` and `bins`. -/
def addIndexBinTest (binAssignments : ℕ → ℕ) (maxCountsPerBin : ℕ) :
    Program (Fin n) (SlotMem ℕ (BitVec 32)) SlotPc := fun tid pc m =>
  let location := binAssignments tid
  match pc with
  | .add => some (.write (m.counter location).toNat,
      ⟨Function.update m.counter location (m.counter location + 1), m.slot⟩)
  | .write counter => some (.returned, ⟨m.counter,
      Function.update m.slot (location * maxCountsPerBin + counter) (BitVec.ofNat 32 tid)⟩)
  | .returned => none

/-- All interleavings of the threads, when the counters are zero and the bins are empty. -/
def addIndexBinRuns (n maxCountsPerBin : ℕ) (binAssignments : ℕ → ℕ) :
    System (Conf (Fin n) (SlotMem ℕ (BitVec 32)) SlotPc) (Fin n) :=
  threads (addIndexBinTest binAssignments maxCountsPerBin)
    fun c => c.mem = ⟨fun _ => 0, fun _ => -1⟩ ∧ ∀ tid, c.loc tid = .add

/-- Every thread has a bin, and its slot is in that bin. -/
abbrev binKernel (n maxCountsPerBin : ℕ) (binAssignments : ℕ → ℕ) :
    Program (Fin n) (SlotMem ℕ (BitVec 32)) SlotPc :=
  slotKernel (fun tid : Fin n => some (binAssignments tid))
    (fun location counter => location * maxCountsPerBin + counter) fun tid => BitVec.ofNat 32 tid

theorem addIndexBinTest_eq (binAssignments : ℕ → ℕ) (maxCountsPerBin : ℕ) :
    addIndexBinTest binAssignments maxCountsPerBin = binKernel n maxCountsPerBin binAssignments := by
  funext tid pc m
  cases pc <;> rfl

theorem map_withKey (binAssignments : ℕ → ℕ) (bin : ℕ) {V : Type} (f : ℕ → V) :
    (withKey (fun tid : Fin n => some (binAssignments tid)) bin).val.map (fun tid : Fin n => f tid)
      = (items n binAssignments bin).map f := by
  have hval : items n binAssignments bin
      = (withKey (fun tid : Fin n => some (binAssignments tid)) bin).val.map
        fun tid : Fin n => (tid : ℕ) := by
    have hrange : Multiset.range n = (Finset.univ : Finset (Fin n)).val.map Fin.val := by
      exact (Multiset.map_id' _).symm.trans (map_univ (n := n) fun i => i).symm
    rw [items, hrange, Multiset.filter_map, withKey, Finset.filter_val]
    refine congrArg (Multiset.map _) (Multiset.filter_congr fun tid _ => ?_)
    simp
  rw [hval, Multiset.map_map]
  rfl

theorem card_withKey (h : Assigned n numberOfBins maxCountsPerBin b) (bin : ℕ) :
    (withKey (fun tid : Fin n => some (b.binAssignments tid)) bin).card = b.binCounts bin := by
  have hcard := congrArg Multiset.card (map_withKey (n := n) b.binAssignments bin fun i => i)
  rw [Multiset.card_map, Multiset.card_map] at hcard
  rw [h.counts]
  exact hcard

theorem place_inj {m k k' i i' : ℕ} (hi : i < m) (hi' : i' < m) (h : k * m + i = k' * m + i') :
    k = k' ∧ i = i' := by
  have hdiv : ∀ k i, i < m → (k * m + i) / m = k := fun k i hi => by
    rw [Nat.mul_comm, Nat.mul_add_div (by omega), Nat.div_eq_of_lt hi, Nat.add_zero]
  have hk : k = k' := by rw [← hdiv k i hi, h, hdiv k' i' hi']
  subst hk
  exact ⟨rfl, by omega⟩

variable {c : Conf (Fin n) (SlotMem ℕ (BitVec 32)) SlotPc}

theorem reach_binSlots (h : Assigned n numberOfBins maxCountsPerBin b) (hn : n < 2 ^ 32) {ok}
    (hc : (addIndexBinRuns n maxCountsPerBin b.binAssignments).Reach ok c) :
    ∃ taken, Slots (fun tid : Fin n => some (b.binAssignments tid))
      (fun location counter => location * maxCountsPerBin + counter)
      (fun tid => BitVec.ofNat 32 tid) (fun _ => -1) c.mem c.loc taken := by
  refine hc.invariant (I := fun c => ∃ taken, Slots (fun tid : Fin n => some (b.binAssignments tid))
    (fun location counter => location * maxCountsPerBin + counter)
    (fun tid => BitVec.ofNat 32 tid) (fun _ => -1) c.mem c.loc taken) ?_ ?_
  · rintro c ⟨hmem, hloc⟩
    rw [hmem]
    exact ⟨fun _ => 0, Slots.start (m := ⟨fun _ => 0, fun _ => -1⟩) (fun _ => rfl) hloc⟩
  · rintro c t c' ⟨taken, hslots⟩ - hnext
    obtain ⟨l', m', hP, rfl⟩ := threads_next.mp hnext
    rw [addIndexBinTest_eq] at hP
    refine hslots.next (by simpa using hn) (fun k k' i i' hi hi' heq => ?_) hP
    rw [card_withKey h] at hi hi'
    exact place_inj (hi.trans_le (h.le k)) (hi'.trans_le (h.le k')) heq

theorem filled_of_returned (h : Assigned n numberOfBins maxCountsPerBin b) (hn : n < 2 ^ 32)
    (hc : (addIndexBinRuns n maxCountsPerBin b.binAssignments).Reach System.anyStep c)
    (hret : ∀ tid, c.loc tid = .returned) :
    Filled n numberOfBins maxCountsPerBin b c.mem.counter c.mem.slot := by
  obtain ⟨taken, hslots⟩ := reach_binSlots h hn hc
  refine ⟨fun bin _ => ?_, fun bin _ => ?_, fun bin _ search hle hlt => ?_⟩
  · have hcounter := hslots.counter_eq hret bin
    rw [card_withKey h] at hcounter
    rw [← hcounter, BitVec.ofNat_toNat, BitVec.setWidth_eq]
  · have hmap := hslots.map_slot hret bin
    rwa [card_withKey h, map_withKey b.binAssignments bin (BitVec.ofNat 32)] at hmap
  · refine hslots.slot_eq_of_ge hret fun k i hi heq => ?_
    rw [card_withKey h] at hi
    obtain ⟨rfl, rfl⟩ := place_inj hlt (hi.trans_le (h.le k)) heq
    omega

/-- **The test passes**: for all numbers that the generator may return and in every interleaving,
each item is put in the correct bin. -/
theorem addIndexBin_passes {draws rest : List (BitVec 32)} (hbins : 0 < numberOfBins)
    (hint : numberOfBins < 2 ^ 31) (hn : n ≤ 2 ^ 31)
    (hdraws : assignBins n numberOfBins maxCountsPerBin draws = some (b, rest))
    (hc : (addIndexBinRuns n maxCountsPerBin b.binAssignments).Reach System.anyStep c)
    (hret : ∀ tid, c.loc tid = .returned) :
    verifyBins n numberOfBins maxCountsPerBin b c.mem.counter c.mem.slot = 0 ∧
      Filled n numberOfBins maxCountsPerBin b c.mem.counter c.mem.slot := by
  have hassigned := assignBins_spec hbins hint hdraws
  have hfilled := filled_of_returned hassigned (by omega) hc hret
  exact ⟨(hassigned.verifyBins_eq_zero hn).mpr hfilled, hfilled⟩

theorem addIndexBin_passes_two : ∃ b c,
    (addIndexBinRuns 2 2 b.binAssignments).Reach System.anyStep c ∧
      verifyBins 2 1 2 b c.mem.counter c.mem.slot = 0 := by
  let c₀ : Conf (Fin 2) (SlotMem ℕ (BitVec 32)) SlotPc :=
    ⟨⟨fun _ => 0, fun _ => -1⟩, fun _ => .add⟩
  let b : Bins := ⟨Function.update (Function.update (fun _ => 0) 0 1) 0 2,
    Function.update (Function.update (fun _ => 0) 0 0) 1 0⟩
  have hdraws : assignBins 2 1 2 [5, 7] = some (b, []) := rfl
  obtain ⟨c, hc, hret⟩ := System.Reach.exists_of_run
    (S := addIndexBinRuns 2 2 b.binAssignments) System.anyStep
    (fun c => ∀ tid, c.loc tid = .returned) (s := c₀) ⟨rfl, fun _ => rfl⟩ [1, 0, 0, 1] (by decide)
  exact ⟨b, c, hc, (addIndexBin_passes (by decide) (by decide) (by decide) hdraws hc hret).1⟩

/-- **The verification is exact** for every assignment that the host draws. -/
theorem verifyBins_exact {draws rest : List (BitVec 32)} (hbins : 0 < numberOfBins)
    (hint : numberOfBins < 2 ^ 31) (hn : n ≤ 2 ^ 31)
    (hdraws : assignBins n numberOfBins maxCountsPerBin draws = some (b, rest))
    (finalBinCounts finalBinAssignments : ℕ → BitVec 32) :
    verifyBins n numberOfBins maxCountsPerBin b finalBinCounts finalBinAssignments = 0 ↔
      Filled n numberOfBins maxCountsPerBin b finalBinCounts finalBinAssignments :=
  (assignBins_spec hbins hint hdraws).verifyBins_eq_zero hn

/-- Items 0 and 2 in the second bin, in the other order, and item 2 there twice. -/
theorem verifyBins_exact_three : ∃ b rest, assignBins 3 2 2 [2 ^ 31, 0, 2 ^ 31] = some (b, rest) ∧
    Filled 3 2 2 b (fun bin => if bin = 0 then 1 else 2)
      (fun i => if i = 0 then 1 else if i = 2 then 2 else if i = 3 then 0 else -1) ∧
    ¬ Filled 3 2 2 b (fun bin => if bin = 0 then 1 else 2)
      (fun i => if i = 0 then 1 else if i = 2 then 2 else if i = 3 then 2 else -1) := by
  obtain ⟨⟨b, rest⟩, hdraws⟩ : ∃ r, assignBins 3 2 2 [2 ^ 31, 0, 2 ^ 31] = some r := ⟨_, rfl⟩
  have hexact := verifyBins_exact (by decide) (by decide) (by decide) hdraws
  have hb := Option.some.inj (hdraws.symm.trans rfl)
  simp only [Prod.mk.injEq] at hb
  refine ⟨b, rest, hdraws, (hexact _ _).mp ?_, fun h => ?_⟩
  · rw [hb.1]
    decide
  · have hzero := (hexact _ _).mpr h
    rw [hb.1] at hzero
    revert hzero
    decide

end OpenCLCTS.Atomics
