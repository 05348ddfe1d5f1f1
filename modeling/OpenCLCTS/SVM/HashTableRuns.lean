import Mathlib.Algebra.BigOperators.Fin
import OpenCLCTS.Lib.Work
import OpenCLCTS.SVM.HashTable

/-!
# All runs of the hash table

A run that has ended passes the check of the host (`hashTable_verified`): each bin is a list of nodes
that belong there, and the table holds every pixel once for each device and once for the host.  And
every run ends (`hashTable_progress`): a node that is inserted makes at most one compare-and-swap of
every other thread fail, so the number of steps that are not the waiting of the host is bounded.
-/

namespace OpenCLCTS.SVM.HashTable

open Interleaving Chains

variable {numDevices numPixels numBins : ℕ} {input : ℕ → BitVec 32}
  {t u : Party numDevices numPixels} {l l' : Locals} {m m' : Mem}
  {c : Conf (Party numDevices numPixels) Mem Locals} {chains : ℕ → List ℕ}

/-! ### Every run -/

theorem Start.inserting (h : Start numBins c) (hsize : numBins < 2 ^ 32) :
    Inserting numBins input c fun _ => [] := by
  have hnum : c.mem.pNumNodes.toNat = numBins := by
    rw [h.numNodes, BitVec.toNat_ofNat, Nat.mod_eq_of_lt hsize]
  have hholds : ∀ t, ¬ (c.loc t).Holds := by
    intro t
    cases t with
    | none => simp [Locals.Holds, h.host]
    | some item => simp [Locals.Holds, (h.items item.1 item.2).1]
  have hins : ∀ t, inserted t (c.loc t) = 0 := by
    intro t
    cases t with
    | none => simp [inserted, h.host]
    | some item => simp [inserted, (h.items item.1 item.2).1]
  refine ⟨fun t => ?_, fun t => .of_not_holds (hholds t), hnum.ge, h.heads, by simp, ?_, ?_⟩
  · cases t with
    | none => simp [InLoop, h.host]
    | some item => simp [InLoop, h.items item.1 item.2]
  · simp [linked, held_of_not_holds (hholds _), hnum]
  · simp [linked, hins]

/-- **In every run the nodes are where they should be.** -/
theorem reach_inserting (hbins : 0 < numBins)
    (hsize : numBins + numItems numDevices numPixels < 2 ^ 32)
    {ok : Conf (Party numDevices numPixels) Mem Locals → Party numDevices numPixels → Prop}
    (h : (hashTable numDevices numPixels numBins input).Reach ok c) :
    ∃ chains, Inserting numBins input c chains := by
  refine h.invariant (I := fun c => ∃ chains, Inserting numBins input c chains)
    (fun c (hc : Start numBins c) => ⟨_, hc.inserting (by omega)⟩) ?_
  rintro c t c' ⟨chains, hc⟩ - hn
  obtain ⟨l', m', hP, rfl⟩ := threads_next.mp hn
  exact hc.next hbins hsize (moves hP)

/-! ### The check at the end -/

theorem foldl_count (l : List ℕ) (n : BitVec 32) :
    l.foldl (fun n _ => n + 1) n = n + BitVec.ofNat 32 l.length := by
  induction l generalizing n with
  | nil => simp
  | cons p l ih =>
    rw [List.foldl_cons, ih, List.length_cons, Nat.add_comm, BitVec.ofNat_add, BitVec.add_assoc]
    rfl

theorem linked_succ (n : ℕ) (chains : ℕ → List ℕ) :
    linked (n + 1) chains = linked n chains + (chains n : Multiset ℕ) :=
  Finset.sum_range_succ _ n

theorem length_le {b : ℕ} (hb : b < numBins) (chains : ℕ → List ℕ) :
    (chains b).length ≤ (linked numBins chains).card := by
  rw [linked, Multiset.card_sum]
  exact Finset.single_le_sum (f := fun b => (chains b : Multiset ℕ).card)
    (fun _ _ => Nat.zero_le _) (Finset.mem_range.mpr hb)

/-- The check counts the nodes of the lists and does not leave a list early. -/
theorem Inserting.foldlM_checkBin (h : Inserting numBins input c chains) {fuel : ℕ}
    (hfuel : (linked numBins chains).card ≤ fuel) {n : ℕ} (hn : n ≤ numBins) :
    (List.range n).foldlM (checkBin numBins fuel c.mem) 0
      = some (BitVec.ofNat 32 (linked n chains).card) := by
  induction n with
  | zero => rfl
  | succ n ih =>
    have hlt : n < numBins := hn
    have hstop : ∀ p ∈ chains n, decide (bin numBins (c.mem.value p) ≠ n) = false := by
      intro p hp
      simp [h.hashed n hlt p hp]
    have hwalk : ∀ k, walk _ _ (fun (k : BitVec 32) _ => k + 1) fuel _ k = _ := fun k =>
      (h.chain n hlt).walk_eq hstop ((length_le hlt chains).trans hfuel) k
    rw [List.range_succ, List.foldlM_append, ih (by omega)]
    simp only [Option.bind_eq_bind, Option.bind_some, List.foldlM_cons, List.foldlM_nil,
      Option.pure_def, checkBin, hwalk, foldl_count]
    rw [linked_succ, Multiset.card_add, Multiset.coe_card, BitVec.ofNat_add]

theorem Inserting.verify_eq (h : Inserting numBins input c chains) {fuel : ℕ}
    (hfuel : (linked numBins chains).card ≤ fuel) :
    verify numDevices numPixels numBins fuel c.mem
      = some (if (linked numBins chains).card % 2 ^ 32 ≠ numItems numDevices numPixels then -1
        else 0) := by
  rw [verify, h.foldlM_checkBin hfuel le_rfl, Option.map_some, BitVec.toNat_ofNat]

theorem sum_range_singleton (n : ℕ) : ∑ i : Fin n, ({(i : ℕ)} : Multiset ℕ) = Multiset.range n := by
  rw [← Finset.sum_range (fun i => ({i} : Multiset ℕ)), Finset.sum_multiset_singleton]
  rfl

theorem Inserting.values_of_returned (h : Inserting numBins input c chains)
    (hret : ∀ t, (c.loc t).pc = .returned) :
    (linked numBins chains).map c.mem.value
      = (numDevices + 1) • (Multiset.range numPixels).map input := by
  have hhost : inserted (none : Party numDevices numPixels) (c.loc none)
      = Multiset.range numPixels := by
    have hloop := h.inLoop none
    simp only [InLoop, hret none, if_true] at hloop
    simp [inserted, hret none, hloop]
  have hitem : ∀ item : Fin numDevices × Fin numPixels,
      inserted (some item) (c.loc (some item)) = {(item.2 : ℕ)} := fun item => by
    simp [inserted, hret (some item)]
  have hall : ∑ t, inserted t (c.loc t) = (numDevices + 1) • Multiset.range numPixels := by
    rw [Fintype.sum_option, hhost, Finset.sum_congr rfl fun item _ => hitem item,
      Fintype.sum_prod_type, Finset.sum_congr rfl fun _ _ => sum_range_singleton numPixels,
      Finset.sum_const, Finset.card_univ, Fintype.card_fin, succ_nsmul, add_comm]
  calc (linked numBins chains).map c.mem.value
      = ∑ t, (inserted t (c.loc t)).map input := h.values
    _ = (∑ t, inserted t (c.loc t)).map input :=
        (map_sum (Multiset.mapAddMonoidHom input) _ _).symm
    _ = (numDevices + 1) • (Multiset.range numPixels).map input := by
        rw [hall, Multiset.map_nsmul]

/-- **The test passes.**  When all devices and the host have returned, every pixel is in the table
as often as it was inserted, and the host finds all the nodes. -/
theorem hashTable_verified (hbins : 0 < numBins)
    (hsize : numBins + numItems numDevices numPixels < 2 ^ 31)
    (h : (hashTable numDevices numPixels numBins input).Reach System.anyStep c)
    (hret : ∀ t, (c.loc t).pc = .returned) {fuel : ℕ}
    (hfuel : numItems numDevices numPixels ≤ fuel) :
    verify numDevices numPixels numBins fuel c.mem = some 0 ∧
      ∃ chains, (∀ b < numBins, Chain c.mem.pNext (c.mem.pNext b) (chains b) ∧
          ∀ p ∈ chains b, bin numBins (c.mem.value p) = b) ∧
        (linked numBins chains).map c.mem.value
          = (numDevices + 1) • (Multiset.range numPixels).map input := by
  obtain ⟨chains, hc⟩ := reach_inserting hbins (by omega) h
  have hvalues := hc.values_of_returned hret
  have hcard : (linked numBins chains).card = numItems numDevices numPixels := by
    have := congrArg Multiset.card hvalues
    simpa [numItems, Multiset.card_nsmul, Nat.mul_comm] using this
  refine ⟨?_, chains, fun b hb => ⟨hc.chain b hb, hc.hashed b hb⟩, hvalues⟩
  rw [hc.verify_eq (hcard.trans_le hfuel), hcard, Nat.mod_eq_of_lt (by omega)]
  simp

/-- A start with one device and one pixel. -/
def oneItem : Conf (Party 1 1) Mem Locals :=
  ⟨⟨1, fun _ => 0, fun _ => none⟩,
    fun t => ⟨if t = none then .spin else .alloc, 0, 0, none⟩⟩

theorem oneItem_start : Start 1 oneItem :=
  ⟨rfl, fun _ _ => rfl, rfl, fun _ i => ⟨rfl, (Fin.val_eq_zero i).symm⟩⟩

/-- The host waits until the device has taken a node, and inserts its own after it. -/
def oneItemSteps : List (Party 1 1) :=
  let item : Party 1 1 := some (0, 0)
  [none, item, item, none, none, item, none, none, item, none, item, none, none, none]

theorem hashTable_verified_oneItem : ∃ c : Conf (Party 1 1) Mem Locals,
    (hashTable 1 1 1 (BitVec.ofNat 32)).Reach System.anyStep c ∧ verify 1 1 1 2 c.mem = some 0 := by
  obtain ⟨c, hc, hret⟩ := System.Reach.exists_of_run (S := hashTable 1 1 1 (BitVec.ofNat 32))
    System.anyStep (fun c => ∀ t, (c.loc t).pc = .returned) oneItem_start oneItemSteps (by decide)
  exact ⟨c, hc, (hashTable_verified (by decide) (by decide) hc hret (by decide)).1⟩

/-! ### How many steps a run has -/

/-- The value that the next compare-and-swap of a thread expects is the one in memory. -/
def Fresh (numBins : ℕ) (input : ℕ → BitVec 32) (l : Locals) (m : Mem) : Prop :=
  m.pNext (bin numBins (input l.i)) = l.next

instance : Decidable (Fresh numBins input l m) := inferInstanceAs (Decidable (_ = _))

/-- The steps to the end of the loop body if no other thread inserts a node in the meantime. -/
def rank (numBins : ℕ) (input : ℕ → BitVec 32) (l : Locals) (m : Mem) : ℕ :=
  match l.pc with
  | .spin => 6
  | .alloc => 5
  | .setValue => 4
  | .load => 3
  | .setNext => if Fresh numBins input l m then 2 else 4
  | .swap => if Fresh numBins input l m then 1 else 3
  | .returned => 0

/-- The nodes that are not on a list yet. -/
def remaining (c : Conf (Party numDevices numPixels) Mem Locals) : ℕ :=
  numItems numDevices numPixels - ∑ t, (inserted t (c.loc t)).card

/-- A node that is inserted can make an attempt of every other thread fail, which costs it two
steps. -/
def work (numBins : ℕ) (input : ℕ → BitVec 32) (c : Conf (Party numDevices numPixels) Mem Locals) :
    ℕ :=
  remaining c * (2 * Fintype.card (Party numDevices numPixels) + 4)
    + ∑ t, rank numBins input (c.loc t) c.mem

/-- The host waits for the first node of a device. -/
def waits (numBins : ℕ) (c : Conf (Party numDevices numPixels) Mem Locals)
    (t : Party numDevices numPixels) : Bool :=
  decide (t = none ∧ (c.loc t).pc = .spin ∧ BitVec.ofNat 32 numBins = c.mem.pNumNodes)

theorem fresh_congr (h : m'.pNext (bin numBins (input l.i)) = m.pNext (bin numBins (input l.i))) :
    Fresh numBins input l m' ↔ Fresh numBins input l m := by
  rw [Fresh, Fresh, h]

theorem rank_congr (h : m'.pNext (bin numBins (input l.i)) = m.pNext (bin numBins (input l.i))) :
    rank numBins input l m' = rank numBins input l m := by
  cases hpc : l.pc <;> simp [rank, hpc, fresh_congr h]

/-- Whatever happens to the bins costs a thread no more than two steps. -/
theorem rank_le (l : Locals) (m m' : Mem) :
    rank numBins input l m' ≤ rank numBins input l m + 2 := by
  cases hpc : l.pc <;> simp only [rank, hpc] <;> (try split) <;> (try split) <;> omega

theorem rank_loop (n i : ℕ) (l : Locals) (m : Mem) : rank numBins input (l.loop n i) m ≤ 5 := by
  unfold Locals.loop
  split <;> simp [rank]

theorem rank_finish (t : Party numDevices numPixels) (l : Locals) (m : Mem) :
    rank numBins input (finish t l) m ≤ 5 := by
  cases t with
  | none => exact rank_loop _ _ l m
  | some item => simp [finish, rank]

theorem sum_card_le (h : Inserting numBins input c chains) :
    ∑ t, (inserted t (c.loc t)).card ≤ numItems numDevices numPixels := by
  rw [← Inserting.sum_quota]
  refine Finset.sum_le_sum fun t _ => ?_
  have := Inserting.card_le (h.inLoop t)
  omega

namespace Inserting

theorem work_same (hbin : ∀ i, m'.pNext (bin numBins (input i)) = c.mem.pNext (bin numBins (input i)))
    (hins : inserted t l' = inserted t (c.loc t)) {k : ℕ}
    (hrank : rank numBins input l' m' + k ≤ rank numBins input (c.loc t) c.mem) :
    work numBins input (⟨m', Function.update c.loc t l'⟩ : Conf (Party numDevices numPixels) Mem Locals)
      + k ≤ work numBins input c := by
  have hcard := sum_update (fun u l => (inserted u l).card) c.loc t l'
  have hsum := sum_change (f := fun u => rank numBins input (c.loc u) c.mem)
    (g := fun u => rank numBins input (Function.update c.loc t l' u) m') t fun u hu => by
      rw [Function.update_of_ne hu]
      exact rank_congr (hbin _)
  simp only [hins, Function.update_self] at hcard hsum
  have hremaining : remaining (⟨m', Function.update c.loc t l'⟩ :
      Conf (Party numDevices numPixels) Mem Locals) = remaining c := by
    unfold remaining
    rw [Nat.add_right_cancel hcard]
  unfold work
  rw [hremaining]
  simp only
  omega

theorem work_insert {chains' : ℕ → List ℕ}
    (h' : Inserting numBins input ⟨m', Function.update c.loc t l'⟩ chains')
    (hins : (inserted t l').card = (inserted t (c.loc t)).card + 1)
    (hrank : rank numBins input l' m' ≤ 5)
    (hpos : 0 < rank numBins input (c.loc t) c.mem) :
    work numBins input (⟨m', Function.update c.loc t l'⟩ : Conf (Party numDevices numPixels) Mem Locals)
      + 1 ≤ work numBins input c := by
  have hcard := sum_update (fun u l => (inserted u l).card) c.loc t l'
  have hle := sum_card_le h'
  have hsum := sum_change_le (f := fun u => rank numBins input (c.loc u) c.mem)
    (g := fun u => rank numBins input (Function.update c.loc t l' u) m') (d := 2) t fun u hu => by
      rw [Function.update_of_ne hu]
      exact rank_le _ _ _
  simp only [Function.update_self] at hsum hcard hle
  have hremaining : remaining (⟨m', Function.update c.loc t l'⟩ :
      Conf (Party numDevices numPixels) Mem Locals) + 1 = remaining c := by
    unfold remaining
    simp only
    omega
  unfold work
  rw [← hremaining, Nat.add_mul, Nat.one_mul]
  simp only
  omega

/-- **Every step but the waiting of the host is work.** -/
theorem work_next (h : Inserting numBins input c chains) (hbins : 0 < numBins)
    (hsize : numBins + numItems numDevices numPixels < 2 ^ 32)
    (hm : Moves numBins input t (c.loc t) c.mem l' m') :
    work numBins input (⟨m', Function.update c.loc t l'⟩ : Conf (Party numDevices numPixels) Mem Locals)
      + (!waits numBins c t).toNat ≤ work numBins input c := by
  have hbin : ∀ p, numBins ≤ p → ∀ q i, (c.mem.setNext p q).pNext (bin numBins (input i))
      = c.mem.pNext (bin numBins (input i)) := by
    intro p hp q i
    have := bin_lt hbins (input i)
    exact setNext_pNext_of_ne (by omega) q
  have hself : ∀ i, c.mem.pNext (bin numBins (input i)) = c.mem.pNext (bin numBins (input i)) :=
    fun _ => rfl
  have hwork : ∀ {k : ℕ}, work numBins input (⟨m', Function.update c.loc t l'⟩ :
      Conf (Party numDevices numPixels) Mem Locals) + 1 ≤ k →
      work numBins input (⟨m', Function.update c.loc t l'⟩ :
        Conf (Party numDevices numPixels) Mem Locals) + (!waits numBins c t).toNat ≤ k := by
    intro k hk
    cases waits numBins c t <;> simp <;> omega
  obtain ⟨chains', h'⟩ := h.next hbins hsize hm
  cases hm with
  | idle ht hpc hwait =>
    have hwaits : waits numBins c t = true := by simp [waits, ht ▸ hpc, ht, hwait]
    exact work_same hself rfl (by simp [hwaits])
  | start ht hpc hgo =>
    subst ht
    refine hwork (work_same hself (start_spec (h.inLoop none) hpc).2.2 ?_)
    have : rank numBins input ((c.loc none).loop numPixels 0) c.mem ≤ 5 := rank_loop ..
    simp only [rank, hpc] at this ⊢
    omega
  | alloc hpc =>
    refine hwork (work_same hself ?_ (by simp [rank, hpc]))
    cases t <;> simp [inserted, hpc]
  | setValue hpc =>
    refine hwork (work_same hself ?_ (by simp [rank, hpc]))
    cases t <;> simp [inserted, hpc]
  | load hpc =>
    refine hwork (work_same hself ?_ (by simp [rank, hpc, Fresh]))
    cases t <;> simp [inserted, hpc]
  | setNext hpc =>
    have hnew := (h.pNew_mem (t := t) (by simp [Locals.Holds, hpc])).1
    refine hwork (work_same (hbin _ hnew _) ?_ ?_)
    · cases t <;> simp [inserted, hpc]
    · by_cases hf : Fresh numBins input (c.loc t) c.mem
      · unfold Fresh at hf
        simp [rank, hpc, Fresh, hbin _ hnew, hf]
      · unfold Fresh at hf
        simp [rank, hpc, Fresh, hbin _ hnew, hf]
  | insert hpc heq =>
    refine hwork (work_insert h' ?_ (rank_finish _ _ _) ?_)
    · rw [(finish_spec (h.inLoop t) hpc).2.2.2, Multiset.card_cons]
    · simp [rank, hpc, Fresh, heq]
  | retry hpc hne =>
    refine hwork (work_same hself ?_ (by simp [rank, hpc, Fresh, hne]))
    cases t <;> simp [inserted, hpc]

end Inserting

/-- A thread that has not returned can do something, and the host need not wait once a node has
been handed out. -/
theorem exists_work (h : Inserting numBins input c chains) (hbins : numBins < 2 ^ 32)
    (hdevices : 0 < numDevices) (hpixels : 0 < numPixels)
    (hret : ¬ ∀ t, (c.loc t).pc = .returned) :
    ∃ t c', (!waits numBins c t) = true ∧
      (hashTable numDevices numPixels numBins input).next c t = some c' := by
  have hstep : ∀ t, (c.loc t).pc ≠ .spin → (c.loc t).pc ≠ .returned →
      ∃ c', (hashTable numDevices numPixels numBins input).next c t = some c' := by
    intro t hspin hret
    have hsome : ∃ r, program numBins input t (c.loc t) c.mem = some r := by
      rw [program_eq hspin]
      cases hpc : (c.loc t).pc <;> simp_all [insert]
    obtain ⟨⟨l', m'⟩, hr⟩ := hsome
    exact ⟨_, threads_next.mpr ⟨l', m', hr, rfl⟩⟩
  by_cases hitems : ∀ item, (c.loc (some item)).pc = .returned
  · -- only the host is left, and the devices have inserted nodes
    have hhost : (c.loc none).pc ≠ .returned := by
      intro hhost
      exact hret fun t => by cases t <;> simp_all
    by_cases hspin : (c.loc none).pc = .spin
    · have hlt : numBins < c.mem.pNumNodes.toNat := by
        have hone := Finset.single_le_sum
          (f := fun t => (inserted t (c.loc t)).card + (c.loc t).held.card)
          (fun _ _ => Nat.zero_le _) (Finset.mem_univ (some (⟨0, hdevices⟩, ⟨0, hpixels⟩)))
        have hins : (inserted (some (⟨0, hdevices⟩, ⟨0, hpixels⟩) : Party numDevices numPixels)
            (c.loc (some (⟨0, hdevices⟩, ⟨0, hpixels⟩)))).card = 1 := by
          simp [inserted, hitems]
        rw [h.numNodes_eq]
        omega
      have hgo : BitVec.ofNat 32 numBins ≠ c.mem.pNumNodes := by
        intro heq
        rw [← heq, BitVec.toNat_ofNat, Nat.mod_eq_of_lt hbins] at hlt
        exact lt_irrefl _ hlt
      have hrun : program numBins input (none : Party numDevices numPixels) (c.loc none) c.mem
          = some ((c.loc none).loop numPixels 0, c.mem) := by
        simp [program, buildHashTableOnHost, hspin, hgo]
      exact ⟨none, _, by simp [waits, hgo], threads_next.mpr ⟨_, _, hrun, rfl⟩⟩
    · obtain ⟨c', hc'⟩ := hstep none hspin hhost
      exact ⟨none, c', by simp [waits, hspin], hc'⟩
  · obtain ⟨item, hitem⟩ := not_forall.mp hitems
    obtain ⟨c', hc'⟩ := hstep (some item) (h.inLoop (some item)).2 hitem
    exact ⟨some item, c', by simp [waits], hc'⟩

/-- **No lock, no endless retrying.**  However the steps of the devices and of the host are
interleaved, a run takes no more than so many steps besides the waiting of the host; and from every
state it can be continued until all have returned. -/
theorem hashTable_progress (hbins : 0 < numBins)
    (hsize : numBins + numItems numDevices numPixels < 2 ^ 31)
    (hdevices : 0 < numDevices) (hpixels : 0 < numPixels)
    {c c' : Conf (Party numDevices numPixels) Mem Locals} {l} (hstart : Start numBins c)
    (h : (hashTable numDevices numPixels numBins input).Trace c l c') :
    l.countP (fun p => !waits numBins p.1 p.2)
        ≤ numItems numDevices numPixels * (2 * (numDevices * numPixels + 1) + 4)
          + 5 * (numDevices * numPixels) + 6 ∧
      ∃ c'', (hashTable numDevices numPixels numBins input).Path System.anyStep c' c'' ∧
        ∀ t, (c''.loc t).pc = .returned := by
  have hI : ∀ s e s', (∃ chains, Inserting numBins input s chains) →
      (hashTable numDevices numPixels numBins input).next s e = some s' →
      ∃ chains, Inserting numBins input s' chains := by
    rintro s e s' ⟨chains, hs⟩ hn
    obtain ⟨l', m', hP, rfl⟩ := threads_next.mp hn
    exact hs.next hbins (by omega) (moves hP)
  have hμ : ∀ s e s', (∃ chains, Inserting numBins input s chains) →
      (hashTable numDevices numPixels numBins input).next s e = some s' →
      work numBins input s' + (!waits numBins s e).toNat ≤ work numBins input s := by
    rintro s e s' ⟨chains, hs⟩ hn
    obtain ⟨l', m', hP, rfl⟩ := threads_next.mp hn
    exact hs.work_next hbins (by omega) (moves hP)
  obtain ⟨hend, hcount⟩ := h.work_le (fun c t => !waits numBins c t) (work numBins input) hI hμ
    ⟨_, hstart.inserting (by omega)⟩
  constructor
  · have hwork : work numBins input c
        ≤ numItems numDevices numPixels * (2 * (numDevices * numPixels + 1) + 4)
          + 5 * (numDevices * numPixels) + 6 := by
      have hcard : Fintype.card (Party numDevices numPixels) = numDevices * numPixels + 1 := by
        simp
      have hrank : ∑ t, rank numBins input (c.loc t) c.mem = 6 + numDevices * numPixels * 5 := by
        simp [Fintype.sum_option, rank, hstart.host, hstart.items]
      have hle : remaining c ≤ numItems numDevices numPixels := Nat.sub_le _ _
      have hmul := Nat.mul_le_mul_right (2 * (numDevices * numPixels + 1) + 4) hle
      unfold work
      rw [hcard, hrank]
      omega
    omega
  · obtain ⟨c'', hpath, -, hret⟩ := System.Path.of_work (fun c t => !waits numBins c t)
      (work numBins input) hI hμ
      (fun s ⟨_, hs⟩ hgoal => exists_work hs (by omega) hdevices hpixels hgoal) hend
    exact ⟨c'', hpath, hret⟩

/-- The first eleven steps of that run, after which only the host is left. -/
theorem hashTable_progress_oneItem : ∃ (c c' : Conf (Party 1 1) Mem Locals)
    (l : List (Conf (Party 1 1) Mem Locals × Party 1 1)),
    (hashTable 1 1 1 (BitVec.ofNat 32)).Trace oneItem l c ∧
      ((c.loc (some (0, 0))).pc = .returned ∧ (c.loc none).pc ≠ .returned) ∧
      l.countP (fun p => !waits 1 p.1 p.2) ≤ 27 ∧
      (hashTable 1 1 1 (BitVec.ofNat 32)).Path System.anyStep c c' ∧
      ∀ t, (c'.loc t).pc = .returned := by
  have hrun : ((hashTable 1 1 1 (BitVec.ofNat 32)).run System.anyStep oneItem
      (oneItemSteps.take 11)).any (fun c => decide ((c.loc (some (0, 0))).pc = .returned ∧
        (c.loc none).pc ≠ .returned)) = true := by decide
  obtain ⟨c, hc, hpc⟩ := (Option.any_eq_true _ _).mp hrun
  obtain ⟨l, hl, -⟩ := System.Trace.of_run (.nil oneItem) (by simp) hc
  obtain ⟨hcount, c', hpath, hret⟩ :=
    hashTable_progress (by decide) (by decide) (by decide) (by decide) oneItem_start hl
  exact ⟨c, c', l, hl, of_decide_eq_true hpc, hcount, hpath, hret⟩

end OpenCLCTS.SVM.HashTable
