import Mathlib.Data.List.Range
import Mathlib.Data.List.Perm.Subperm
import OpenCLCTS.C11Atomics.Exchange

/-!
# The verdict of the exchange tests

`VerifyRefs` looks at `cl_uint` values and never at what is missing.  The values that it should
accept are those in which the numbers of all threads and the start value are distributed.

* `verifyRefs_iff_perm`: up to `startValue` threads, a permutation of the truncated values
* `verifyRefs_of_startValue_lt`: with more threads nothing is accepted
* `verifyRefs_correct_iff`: when the verdict is the right one
-/

namespace OpenCLCTS.C11Atomics.Exchange

variable {α : Type*} {n : ℕ}

/-- `refValues`, and then `finalValues[0]`. -/
def receivedValues (refValues : Fin n → α) (finalValue : α) : List α :=
  (List.finRange n).map refValues ++ [finalValue]

/-- The numbers of the threads and `StartValue()`. -/
def threadValues (α : Type*) [HostDataType α] (n : ℕ) : List α :=
  (List.range n).map ofUint ++ [ofUint startValue]

/-- "These values must be distributed across refValues array and atomic variable." -/
def Distributed [HostDataType α] (refValues : Fin n → α) (finalValue : α) : Prop :=
  (receivedValues refValues finalValue).Perm (threadValues α n)

/-- The condition under which the verdict is right: no value loses bits that make the values
wrong, and no thread has the number of the start value, unless the values are wrong. -/
def Judged {T : HostType} (refValues : Fin n → T.Data) (finalValue : T.Data) : Prop :=
  (n ≤ startValue ∧ ((∀ v ∈ receivedValues refValues finalValue, v.toNat < 2 ^ 32) ∨
    ¬ (verifiedValues refValues finalValue).Perm (List.range n ++ [startValue]))) ∨
  (startValue < n ∧ ¬ Distributed refValues finalValue)

/-! ### Truncated values -/

theorem verifiedValues_eq [HostDataType α] (refValues : Fin n → α) (finalValue : α) :
    verifiedValues refValues finalValue = (receivedValues refValues finalValue).map toUint := by
  rw [verifiedValues, receivedValues, List.map_append, List.map_map]
  rfl

theorem verifiedValues_length [HostDataType α] (refValues : Fin n → α) (finalValue : α) :
    (verifiedValues refValues finalValue).length = n + 1 := by
  rw [verifiedValues, List.length_append, List.length_map, List.length_finRange]
  rfl

theorem nodup_range_startValue (hn : n ≤ startValue) : (List.range n ++ [startValue]).Nodup := by
  rw [← List.concat_eq_append, List.nodup_concat]
  refine ⟨?_, List.nodup_range⟩
  rw [List.mem_range]
  exact hn.not_gt

/-- **Up to `startValue` threads, `VerifyRefs` accepts the permutations of the truncated
values.**  There are as many values as thread numbers and start value together. -/
theorem verifyRefs_iff_perm [HostDataType α] (hn : n ≤ startValue) {refValues : Fin n → α}
    {finalValue : α} : verifyRefs refValues finalValue = true ↔
      (verifiedValues refValues finalValue).Perm (List.range n ++ [startValue]) := by
  rw [verifyRefs_iff]
  constructor
  · rintro ⟨hnodup, hall⟩
    have hsub : verifiedValues refValues finalValue ⊆ List.range n ++ [startValue] := by
      intro v hv
      rw [List.mem_append, List.mem_range, List.mem_singleton]
      exact (hall v hv).symm
    apply (hnodup.subperm hsub).perm_of_length_le
    rw [verifiedValues_length, List.length_append, List.length_range]
    exact le_rfl
  · intro hperm
    refine ⟨hperm.nodup_iff.mpr (nodup_range_startValue hn), ?_⟩
    intro v hv
    have hmem := hperm.subset hv
    rw [List.mem_append, List.mem_range, List.mem_singleton] at hmem
    exact hmem.symm

/-- **With more threads nothing is accepted**: the start value is the number of a thread, and
`n + 1` values out of `n` are not distinct. -/
theorem verifyRefs_of_startValue_lt [HostDataType α] (hn : startValue < n) (refValues : Fin n → α)
    (finalValue : α) : verifyRefs refValues finalValue = false := by
  rw [Bool.eq_false_iff]
  intro haccept
  obtain ⟨hnodup, hall⟩ := verifyRefs_iff.mp haccept
  have hsub : verifiedValues refValues finalValue ⊆ List.range n := by
    intro v hv
    rw [List.mem_range]
    rcases hall v hv with rfl | hlt
    · exact hn
    · exact hlt
  have hlen := (hnodup.subperm hsub).length_le
  rw [verifiedValues_length, List.length_range] at hlen
  omega

/-! ### Values of the type -/

section

variable {T : HostType}

theorem toUint_ofUint_of_lt {x : ℕ} (hx : x < 2 ^ 32) : toUint (ofUint x : T.Data) = x := by
  show (BitVec.ofNat T.bits x).toNat % 2 ^ 32 = x
  have hle : x < 2 ^ T.bits := by
    rcases T.bits_eq with h | h <;> rw [h] <;> omega
  rw [BitVec.toNat_ofNat, Nat.mod_eq_of_lt hle, Nat.mod_eq_of_lt hx]

theorem toNat_ofUint_lt {x : ℕ} (hx : x < 2 ^ 32) : (ofUint x : T.Data).toNat < 2 ^ 32 := by
  show (BitVec.ofNat T.bits x).toNat < 2 ^ 32
  rw [BitVec.toNat_ofNat]
  exact (Nat.mod_le _ _).trans_lt hx

theorem ofUint_toUint {v : T.Data} (hv : v.toNat < 2 ^ 32) : ofUint (toUint v) = v := by
  show BitVec.ofNat T.bits (v.toNat % 2 ^ 32) = v
  rw [Nat.mod_eq_of_lt hv, BitVec.ofNat_toNat, BitVec.setWidth_eq]

theorem lt_of_mem_range {x : ℕ} (hn : n ≤ startValue) (hx : x ∈ List.range n ++ [startValue]) :
    x < 2 ^ 32 := by
  have hstart : startValue < 2 ^ 32 := by decide
  rw [List.mem_append, List.mem_range, List.mem_singleton] at hx
  omega

theorem threadValues_eq_map (α : Type*) [HostDataType α] (n : ℕ) :
    threadValues α n = (List.range n ++ [startValue]).map ofUint := by
  rw [threadValues, List.map_append, List.map_singleton]

variable {refValues : Fin n → T.Data} {finalValue : T.Data}

theorem Distributed.fits (hn : n ≤ startValue) (h : Distributed refValues finalValue) {v : T.Data}
    (hv : v ∈ receivedValues refValues finalValue) : v.toNat < 2 ^ 32 := by
  have hmem := h.subset hv
  rw [threadValues_eq_map, List.mem_map] at hmem
  obtain ⟨x, hx, rfl⟩ := hmem
  exact toNat_ofUint_lt (lt_of_mem_range hn hx)

/-- **Values are distributed if they fit and their truncations are.** -/
theorem distributed_iff (hn : n ≤ startValue) : Distributed refValues finalValue ↔
    (verifiedValues refValues finalValue).Perm (List.range n ++ [startValue]) ∧
      ∀ v ∈ receivedValues refValues finalValue, v.toNat < 2 ^ 32 := by
  rw [verifiedValues_eq]
  constructor
  · intro h
    refine ⟨?_, fun v hv => h.fits hn hv⟩
    have hmap := h.map (toUint (α := T.Data))
    have hid : (threadValues T.Data n).map toUint = List.range n ++ [startValue] := by
      rw [threadValues_eq_map, List.map_map]
      refine (List.map_congr_left fun x hx => ?_).trans (List.map_id _)
      exact toUint_ofUint_of_lt (lt_of_mem_range hn hx)
    rwa [hid] at hmap
  · rintro ⟨hperm, hfits⟩
    have hmap := hperm.map (ofUint (α := T.Data))
    have hid : ((receivedValues refValues finalValue).map toUint).map (ofUint (α := T.Data))
        = receivedValues refValues finalValue := by
      rw [List.map_map]
      refine (List.map_congr_left fun v hv => ?_).trans (List.map_id _)
      exact ofUint_toUint (hfits v hv)
    rwa [hid, ← threadValues_eq_map] at hmap

/-- What the threads leave if each of them takes its own number: distributed, with any number
of threads. -/
theorem distributed_own (T : HostType) (n : ℕ) :
    Distributed (fun t : Fin n => (ofUint (t : ℕ) : T.Data)) (ofUint startValue) := by
  have hmap : (List.finRange n).map (fun t : Fin n => (ofUint (t : ℕ) : T.Data))
      = (List.range n).map ofUint := by
    rw [← List.map_coe_finRange_eq_range, List.map_map]
    rfl
  rw [Distributed, receivedValues, threadValues, hmap]

/-- **When the verdict of `VerifyRefs` is the right one.** -/
theorem verifyRefs_correct_iff (T : HostType) {n : ℕ} (refValues : Fin n → T.Data)
    (finalValue : T.Data) :
    (verifyRefs refValues finalValue = true ↔ Distributed refValues finalValue) ↔
      Judged refValues finalValue := by
  rcases le_or_gt n startValue with hn | hn
  · have hnot : ¬ startValue < n := hn.not_gt
    rw [verifyRefs_iff_perm hn, distributed_iff hn, Judged]
    tauto
  · have hnot : ¬ n ≤ startValue := hn.not_ge
    rw [verifyRefs_of_startValue_lt hn, Judged]
    simp [hn, hnot]

end

/-- Bit 32 of the first value is not seen, and with 123457 threads the right values are
rejected. -/
theorem verifyRefs_incorrect :
    ¬ (verifyRefs (fun _ : Fin 1 => (0x100000000 : HostType.long.Data)) 123456 = true ↔
      Distributed (fun _ : Fin 1 => (0x100000000 : HostType.long.Data)) 123456) ∧
    ¬ (verifyRefs (fun t : Fin 123457 => (ofUint (t : ℕ) : HostType.int.Data))
        (ofUint startValue) = true ↔
      Distributed (fun t : Fin 123457 => (ofUint (t : ℕ) : HostType.int.Data))
        (ofUint startValue)) := by
  have hlt : startValue < 123457 := by decide
  constructor
  · intro h
    have hdist := h.mp (by decide)
    have hfits := hdist.fits (by decide) (v := 0x100000000) (by decide)
    exact absurd hfits (by decide)
  · intro h
    have haccept := h.mpr (distributed_own _ _)
    rw [verifyRefs_of_startValue_lt hlt] at haccept
    cases haccept

end OpenCLCTS.C11Atomics.Exchange
