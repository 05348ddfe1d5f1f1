import Mathlib.Algebra.Order.Ring.Int
import Mathlib.Data.List.Nodup
import Mathlib.Data.List.Perm.Subperm
import Mathlib.Logic.Function.Basic
import Mathlib.Tactic.Common

/-!
# The records of the work-items

`check_group` of `test_workitem.cpp` checks what the work-items of one work-group report about
their sub-groups.  Repeated ids are found by a table of 32 words, in which each record marks a bit;
records that lie beyond the table mark none.

* `checkEach_accepts`: what an accepted list of records is like.
* `checkGroup_partition`: ids are distinct and in range, and no sub-group has more records than
  its size.
-/

namespace OpenCLCTS.Subgroups.WorkItem

/-- `get_test_data`. -/
structure GetTestData where
  subGroupSize : BitVec 32
  maxSubGroupSize : BitVec 32
  numSubGroups : BitVec 32
  enqNumSubGroups : BitVec 32
  subGroupId : BitVec 32
  subGroupLocalId : BitVec 32
  deriving DecidableEq

/-- The records `result[first]` and `result[last]`, once they are found. -/
structure Ends where
  first : Option GetTestData
  last : Option GetTestData

/-- `first = i` and `last = i`, for the records that have the ids. -/
def Ends.note (ends : Ends) (lastId : BitVec 32) (r : GetTestData) : Ends where
  first := if r.subGroupId = 0#32 ∧ r.subGroupLocalId = 0#32 then some r else ends.first
  last := if r.subGroupId = lastId ∧ r.subGroupLocalId = 0#32 then some r else ends.last

/-- The loop that looks for the first work-items of the first and the last sub-group. -/
def search (lastId : BitVec 32) : List GetTestData → Ends → Ends
  | [], ends => ends
  | r :: rs, ends =>
    let ends := ends.note lastId r
    if ends.first.isSome ∧ ends.last.isSome then ends else search lastId rs ends

section

variable (first last : GetTestData) (ensg : BitVec 32)

/-- The size that a record must report, and below which its local id must be. -/
def expectedSize (r : GetTestData) : BitVec 32 :=
  if 1#32 < first.numSubGroups then
    if r.subGroupId < first.numSubGroups - 1#32 then first.subGroupSize else last.subGroupSize
  else first.subGroupSize

/-- The checks of a record, up to the table. -/
def validRecord (r : GetTestData) : Bool :=
  r.maxSubGroupSize = first.maxSubGroupSize ∧ r.numSubGroups = first.numSubGroups ∧
    r.subGroupId < first.numSubGroups ∧ r.enqNumSubGroups = ensg ∧
    r.subGroupSize = expectedSize first last r ∧ r.subGroupLocalId < expectedSize first last r

/-- `j`. -/
def hitWord (r : GetTestData) : BitVec 32 :=
  (first.subGroupSize + 31#32) / 32#32 * r.subGroupId + (r.subGroupLocalId >>> 5)

/-- `b`. -/
def hitBit (r : GetTestData) : BitVec 32 := 1#32 <<< (r.subGroupLocalId &&& 0x1f#32).toNat

/-- The loop over the records; `none` if it writes in front of the table. -/
def checkEach : List GetTestData → (ℕ → BitVec 32) → Option ℤ
  | [], _ => some 0
  | r :: rs, hit =>
    if validRecord first last ensg r then
      let j := (hitWord first r).toInt
      if j < 32 then
        if j < 0 then none
        else if hit j.toNat &&& hitBit r ≠ 0#32 then some (-1)
        else checkEach rs (Function.update hit j.toNat (hit j.toNat ||| hitBit r))
      else checkEach rs hit
    else some (-1)

/-- The checks of `result[first]` and `result[last]`. -/
def validEnds (maxwgs : ℕ) : Bool :=
  first.subGroupSize ≠ 0#32 ∧ first.maxSubGroupSize ≠ 0#32 ∧ first.maxSubGroupSize.toNat ≤ maxwgs ∧
    first.subGroupSize ≤ first.maxSubGroupSize ∧ last.subGroupSize ≤ first.subGroupSize ∧
    first.numSubGroups ≠ 0#32 ∧ first.numSubGroups ≤ ensg

end

/-- `check_group`. -/
def checkGroup (result : List GetTestData) (ensg : BitVec 32) (maxwgs : ℕ) : Option ℤ :=
  match result with
  | [] => some (-1)
  | r :: _ =>
    match search (r.numSubGroups - 1#32) result ⟨none, none⟩ with
    | ⟨some first, some last⟩ =>
      if validEnds first last ensg maxwgs then checkEach first last ensg result fun _ => 0#32
      else some (-1)
    | _ => some (-1)

/-! ### The table -/

/-- The word of a record, as a number. -/
def wordIndex (first r : GetTestData) : ℕ :=
  (first.subGroupSize.toNat + 31) / 32 * r.subGroupId.toNat + r.subGroupLocalId.toNat / 32

/-- A record has a bit in the table. -/
def InTable (first r : GetTestData) : Prop := wordIndex first r < 32

instance (first r : GetTestData) : Decidable (InTable first r) :=
  inferInstanceAs (Decidable (_ < _))

/-- The bit of a record is set. -/
def Marked (hit : ℕ → BitVec 32) (first r : GetTestData) : Prop :=
  (hit (wordIndex first r)).getLsbD (r.subGroupLocalId.toNat % 32) = true

variable {first last r s : GetTestData} {ensg : BitVec 32} {hit : ℕ → BitVec 32}

theorem hitWord_toInt (h : InTable first r) : (hitWord first r).toInt = wordIndex first r := by
  have hsize := first.subGroupSize.isLt
  have hid := r.subGroupId.isLt
  have hlocal := r.subGroupLocalId.isLt
  rw [InTable] at h
  have hnat : (hitWord first r).toNat = wordIndex first r := by
    rw [hitWord, BitVec.toNat_add, BitVec.toNat_mul, BitVec.toNat_udiv, BitVec.toNat_add,
      BitVec.toNat_ushiftRight, Nat.shiftRight_eq_div_pow, show (31#32).toNat = 31 from rfl,
      show (32#32).toNat = 32 from rfl]
    by_cases hzero : r.subGroupId.toNat = 0
    · rw [wordIndex, hzero, Nat.mul_zero, Nat.mul_zero, Nat.zero_mod]
      omega
    · have hle : (first.subGroupSize.toNat + 31) / 32
          ≤ (first.subGroupSize.toNat + 31) / 32 * r.subGroupId.toNat :=
        Nat.le_mul_of_pos_right _ (Nat.pos_of_ne_zero hzero)
      rw [wordIndex] at h ⊢
      rw [Nat.mod_eq_of_lt (by omega : first.subGroupSize.toNat + 31 < 2 ^ 32),
        Nat.mod_eq_of_lt (by omega), Nat.mod_eq_of_lt (by omega)]
  rw [BitVec.toInt_eq_toNat_of_lt (by omega), hnat]

theorem getLsbD_hitBit (r : GetTestData) (k : ℕ) :
    (hitBit r).getLsbD k = decide (k = r.subGroupLocalId.toNat % 32) := by
  have hmod : (r.subGroupLocalId &&& 0x1f#32).toNat = r.subGroupLocalId.toNat % 32 := by
    rw [BitVec.toNat_and]
    exact Nat.and_two_pow_sub_one_eq_mod _ 5
  have hlt : r.subGroupLocalId.toNat % 32 < 32 := Nat.mod_lt _ (by decide)
  rw [hitBit, hmod, BitVec.getLsbD_shiftLeft, BitVec.getLsbD_one, Bool.eq_iff_iff]
  simp only [Bool.and_eq_true, Bool.not_eq_true', decide_eq_true_eq, decide_eq_false_iff_not]
  omega

theorem and_hitBit_ne_zero_iff (w : BitVec 32) (r : GetTestData) :
    w &&& hitBit r ≠ 0#32 ↔ w.getLsbD (r.subGroupLocalId.toNat % 32) = true := by
  have hlt : r.subGroupLocalId.toNat % 32 < 32 := Nat.mod_lt _ (by decide)
  constructor
  · intro hne
    by_contra hnot
    refine hne (BitVec.eq_of_getLsbD_eq fun k _ => ?_)
    rw [BitVec.getLsbD_and, getLsbD_hitBit]
    by_cases hk : k = r.subGroupLocalId.toNat % 32
    · subst hk
      simp [Bool.not_eq_true _ ▸ hnot]
    · simp [hk]
  · intro hset hzero
    have hbit := congrArg (fun v : BitVec 32 => v.getLsbD (r.subGroupLocalId.toNat % 32)) hzero
    simp only [BitVec.getLsbD_and, getLsbD_hitBit, hset] at hbit
    simp at hbit

/-- **Marking a bit** marks the records with the same word and bit, and no others. -/
theorem marked_update (hit : ℕ → BitVec 32) (first r s : GetTestData) :
    Marked (Function.update hit (wordIndex first r) (hit (wordIndex first r) ||| hitBit r)) first s ↔
      Marked hit first s ∨ (wordIndex first s = wordIndex first r ∧
        s.subGroupLocalId.toNat % 32 = r.subGroupLocalId.toNat % 32) := by
  rw [Marked, Marked]
  by_cases hw : wordIndex first s = wordIndex first r
  · rw [hw, Function.update_self, BitVec.getLsbD_or, getLsbD_hitBit, Bool.or_eq_true,
      decide_eq_true_eq]
    simp
  · rw [Function.update_of_ne hw]
    simp [hw]

theorem Marked.update (h : Marked hit first s) (k : ℕ) (b : BitVec 32) :
    Marked (Function.update hit k (hit k ||| b)) first s := by
  rw [Marked] at h ⊢
  by_cases hk : wordIndex first s = k
  · rw [hk] at h ⊢
    rw [Function.update_self, BitVec.getLsbD_or, h, Bool.true_or]
  · rwa [Function.update_of_ne hk]

/-! ### The loop -/

/-- Two records that have a bit do not have the same ids. -/
def Apart (first r s : GetTestData) : Prop :=
  InTable first r → InTable first s →
    ¬ (r.subGroupId = s.subGroupId ∧ r.subGroupLocalId = s.subGroupLocalId)

/-- **What the loop accepts**: valid records, whose bits are set one after the other. -/
theorem checkEach_accepts {rs : List GetTestData} (h : checkEach first last ensg rs hit = some 0) :
    (∀ r ∈ rs, validRecord first last ensg r = true) ∧ rs.Pairwise (Apart first) ∧
      ∀ r ∈ rs, InTable first r → ¬ Marked hit first r := by
  induction rs generalizing hit with
  | nil => exact ⟨by simp, .nil, by simp⟩
  | cons r rs ih =>
    rw [checkEach] at h
    split at h
    · rename_i hvalid
      dsimp only at h
      by_cases htable : InTable first r
      · rw [hitWord_toInt htable] at h
        rw [InTable] at htable
        rw [if_pos (by omega), if_neg (by omega), Int.toNat_natCast] at h
        split at h
        · exact absurd h (by decide)
        · rename_i hfree
          rw [and_hitBit_ne_zero_iff] at hfree
          obtain ⟨hall, hpair, hunmarked⟩ := ih h
          refine ⟨List.forall_mem_cons.mpr ⟨hvalid, hall⟩, List.pairwise_cons.mpr ⟨?_, hpair⟩,
            List.forall_mem_cons.mpr ⟨fun _ => hfree, ?_⟩⟩
          · intro s hs _ hsTable hsame
            refine hunmarked s hs hsTable ((marked_update hit first r s).mpr (.inr ⟨?_, ?_⟩))
            · rw [wordIndex, wordIndex, hsame.1, hsame.2]
            · rw [hsame.2]
          · intro s hs hsTable hmarked
            exact hunmarked s hs hsTable (hmarked.update _ _)
      · -- a record without a bit; what it may set does not clear any
        have hrest : ∃ hit', checkEach first last ensg rs hit' = some 0 ∧
            ∀ s, Marked hit first s → Marked hit' first s := by
          split at h
          · split at h
            · cases h
            · split at h
              · exact absurd h (by decide)
              · exact ⟨_, h, fun s hs => hs.update _ _⟩
          · exact ⟨hit, h, fun s hs => hs⟩
        obtain ⟨hit', haccept, hkeep⟩ := hrest
        obtain ⟨hall, hpair, hunmarked⟩ := ih haccept
        refine ⟨List.forall_mem_cons.mpr ⟨hvalid, hall⟩, List.pairwise_cons.mpr ⟨?_, hpair⟩,
          List.forall_mem_cons.mpr ⟨fun h => absurd h htable, ?_⟩⟩
        · intro s _ hr
          exact absurd hr htable
        · intro s hs hsTable hmarked
          exact hunmarked s hs hsTable (hkeep s hmarked)
    · exact absurd h (by decide)

theorem search_first {lastId : BitVec 32} {rs : List GetTestData} {ends : Ends}
    (h : (search lastId rs ends).first = some first) :
    ends.first = some first ∨
      first ∈ rs ∧ first.subGroupId = 0#32 ∧ first.subGroupLocalId = 0#32 := by
  induction rs generalizing ends with
  | nil => exact .inl h
  | cons r rs ih =>
    have hnow : (ends.note lastId r).first = some first → ends.first = some first ∨
        first ∈ r :: rs ∧ first.subGroupId = 0#32 ∧ first.subGroupLocalId = 0#32 := by
      intro he
      rw [Ends.note] at he
      dsimp only at he
      split at he
      · rename_i hr
        cases he
        exact .inr ⟨List.mem_cons_self, hr⟩
      · exact .inl he
    rw [search] at h
    split at h
    · exact hnow h
    · rcases ih h with hfound | ⟨hmem, hids⟩
      · exact hnow hfound
      · exact .inr ⟨List.mem_cons_of_mem r hmem, hids⟩

theorem validRecord_iff : validRecord first last ensg r = true ↔
    r.maxSubGroupSize = first.maxSubGroupSize ∧ r.numSubGroups = first.numSubGroups ∧
      r.subGroupId < first.numSubGroups ∧ r.enqNumSubGroups = ensg ∧
      r.subGroupSize = expectedSize first last r ∧
      r.subGroupLocalId < expectedSize first last r := by
  rw [validRecord, decide_eq_true_eq]

theorem checkGroup_accepts {result : List GetTestData} {maxwgs : ℕ}
    (h : checkGroup result ensg maxwgs = some 0) :
    ∃ first last, (first ∈ result ∧ first.subGroupId = 0#32 ∧ first.subGroupLocalId = 0#32) ∧
      checkEach first last ensg result (fun _ => 0#32) = some 0 := by
  cases result with
  | nil => exact absurd h (by simp [checkGroup])
  | cons r rs =>
    rw [checkGroup] at h
    split at h
    · rename_i first last hsearch
      split at h
      · have hfirst : (search (r.numSubGroups - 1#32) (r :: rs) ⟨none, none⟩).first = some first := by
          rw [hsearch]
        rcases search_first hfirst with hnone | hfound
        · cases hnone
        · exact ⟨first, last, hfound, h⟩
      · exact absurd h (by decide)
    · exact absurd h (by decide)

/-! ### The partition -/

theorem expectedSize_congr (h : r.subGroupId = s.subGroupId) :
    expectedSize first last r = expectedSize first last s := by
  rw [expectedSize, expectedSize, h]

/-- **What `check_group` accepts, if every record has a bit in the table.** -/
theorem checkGroup_partition {result : List GetTestData} {ensg : BitVec 32} {maxwgs : ℕ}
    (h : checkGroup result ensg maxwgs = some 0)
    (htable : ∀ first ∈ result, first.subGroupId = 0#32 → first.subGroupLocalId = 0#32 →
      ∀ r ∈ result, InTable first r) :
    (result.map fun r => (r.subGroupId, r.subGroupLocalId)).Nodup ∧
      (∀ r ∈ result, r.subGroupId < r.numSubGroups ∧ r.subGroupLocalId < r.subGroupSize) ∧
      ∀ r ∈ result, (result.filter fun s => s.subGroupId = r.subGroupId).length
        ≤ r.subGroupSize.toNat := by
  obtain ⟨first, last, ⟨hmem, hid, hlocal⟩, haccept⟩ := checkGroup_accepts h
  obtain ⟨hall, hpair, _⟩ := checkEach_accepts haccept
  have hin := htable first hmem hid hlocal
  have hdistinct : (result.map fun r => (r.subGroupId, r.subGroupLocalId)).Nodup := by
    rw [List.Nodup, List.pairwise_map]
    refine hpair.imp_of_mem fun {r s} hr hs hapart hsame => ?_
    exact hapart (hin r hr) (hin s hs) (Prod.ext_iff.mp hsame)
  refine ⟨hdistinct, fun r hr => ?_, fun r hr => ?_⟩
  · obtain ⟨_, hnum, hlt, _, hsize, hlocalLt⟩ := validRecord_iff.mp (hall r hr)
    exact ⟨hnum ▸ hlt, hsize ▸ hlocalLt⟩
  · obtain ⟨_, _, _, _, hsize, _⟩ := validRecord_iff.mp (hall r hr)
    -- the local ids of the sub-group are distinct numbers below its size
    have hnodup : ((result.filter fun s => s.subGroupId = r.subGroupId).map
        fun s => s.subGroupLocalId.toNat).Nodup := by
      have hsub := List.Pairwise.filter (fun s => decide (s.subGroupId = r.subGroupId))
        (List.pairwise_map.mp hdistinct)
      rw [List.Nodup, List.pairwise_map]
      refine hsub.imp_of_mem fun {s u} hs hu hne hsame => ?_
      have hs' := of_decide_eq_true (List.mem_filter.mp hs).2
      have hu' := of_decide_eq_true (List.mem_filter.mp hu).2
      exact hne (Prod.ext (hs'.trans hu'.symm) (BitVec.eq_of_toNat_eq hsame))
    have hsubset : ((result.filter fun s => s.subGroupId = r.subGroupId).map
        fun s => s.subGroupLocalId.toNat) ⊆ List.range r.subGroupSize.toNat := by
      intro x hx
      obtain ⟨s, hs, rfl⟩ := List.mem_map.mp hx
      obtain ⟨hs, hsame⟩ := List.mem_filter.mp hs
      obtain ⟨_, _, _, _, _, hlt⟩ := validRecord_iff.mp (hall s hs)
      rw [expectedSize_congr (of_decide_eq_true hsame), ← hsize] at hlt
      exact List.mem_range.mpr (BitVec.lt_def.mp hlt)
    have hlen := (hnodup.subperm hsubset).length_le
    rwa [List.length_map, List.length_range] at hlen

/-- A record with the ids `id` and `local`, of a sub-group with `size` work-items out of `num`. -/
def record (size num id localId : BitVec 32) : GetTestData := ⟨size, 1024, num, num, id, localId⟩

/-- Two sub-groups, with two work-items and with one. -/
theorem checkGroup_partition_two :
    let result := [record 2 2 0 0, record 2 2 0 1, record 1 2 1 0]
    (result.map fun r => (r.subGroupId, r.subGroupLocalId)).Nodup ∧
      (∀ r ∈ result, r.subGroupId < r.numSubGroups ∧ r.subGroupLocalId < r.subGroupSize) ∧
      ∀ r ∈ result, (result.filter fun s => s.subGroupId = r.subGroupId).length
        ≤ r.subGroupSize.toNat :=
  @checkGroup_partition _ 2 1024 (by decide) (by decide)

/-- A work-item that is missing is not noticed, and neither is one that is there twice beyond the
table. -/
theorem checkGroup_incomplete :
    (checkGroup [record 2 1 0 0] 1 1024 = some 0 ∧
      ([record 2 1 0 0].filter fun s => s.subGroupId = 0#32).length ≠ 2) ∧
    (checkGroup [record 1024 2 0 0, record 1024 2 1 0, record 1024 2 1 0] 2 1024 = some 0 ∧
      ¬ ([record 1024 2 0 0, record 1024 2 1 0, record 1024 2 1 0].map
        fun r => (r.subGroupId, r.subGroupLocalId)).Nodup) := by
  decide

end OpenCLCTS.Subgroups.WorkItem
