import Mathlib.Data.Fintype.Option
import Mathlib.Data.Fintype.Prod
import Mathlib.Order.Interval.Finset.Nat
import Mathlib.Data.Fintype.BigOperators
import Mathlib.Tactic.Ring
import OpenCLCTS.Lib.Chains
import OpenCLCTS.Lib.Places
import OpenCLCTS.Lib.Threads

/-!
# The hash table in shared virtual memory

`test_fine_grain_memory_consistency.cpp`: the work-items of all devices and the host insert the
pixels of an image into one hash table.  The first `numBins` nodes of `pNodes` are the heads of the
bins, the other nodes are handed out by an atomic counter, and a node is put in front of the list of
its bin by a compare-and-swap that is repeated until it succeeds.  No lock is taken.

A step is one access to shared memory.  In every reachable state each node that was handed out is on
exactly one list or belongs to the one thread that is about to insert it, and the lists hold what
was inserted (`Inserting`, `Inserting.next`).
-/

namespace OpenCLCTS.SVM.HashTable

open Interleaving Chains

/-! ### The program -/

/-- A work-item of a device, or the host. -/
abbrev Party (numDevices numPixels : ℕ) := Option (Fin numDevices × Fin numPixels)

/-- `pNumNodes` and the fields of `pNodes`.  A pointer to a node is the number of the node, and
`none` is `NULL`. -/
structure Mem where
  pNumNodes : BitVec 32
  value : ℕ → BitVec 32
  pNext : ℕ → Option ℕ

def Mem.setValue (m : Mem) (p : ℕ) (v : BitVec 32) : Mem :=
  { m with value := Function.update m.value p v }

def Mem.setNext (m : Mem) (p : ℕ) (q : Option ℕ) : Mem :=
  { m with pNext := Function.update m.pNext p q }

@[simp] theorem setValue_value_self (m : Mem) (p : ℕ) (v : BitVec 32) :
    (m.setValue p v).value p = v := Function.update_self ..

theorem setValue_value_of_ne {m : Mem} {p q : ℕ} (h : q ≠ p) (v : BitVec 32) :
    (m.setValue p v).value q = m.value q := Function.update_of_ne h ..

@[simp] theorem setNext_pNumNodes (m : Mem) (p : ℕ) (q : Option ℕ) :
    (m.setNext p q).pNumNodes = m.pNumNodes := rfl

@[simp] theorem setNext_value (m : Mem) (p : ℕ) (q : Option ℕ) :
    (m.setNext p q).value = m.value := rfl

@[simp] theorem setNext_pNext_self (m : Mem) (p : ℕ) (q : Option ℕ) :
    (m.setNext p q).pNext p = q := Function.update_self ..

theorem setNext_pNext_of_ne {m : Mem} {p r : ℕ} (h : r ≠ p) (q : Option ℕ) :
    (m.setNext p q).pNext r = m.pNext r := Function.update_of_ne h ..

/-- The access that comes next. -/
inductive Pc
  /-- `while (numBins == AtomicLoadExplicit(pNumNodes))`, on the host -/
  | spin
  /-- the fetch-and-add on `pNumNodes` -/
  | alloc
  /-- `pNew->value = input[i]` -/
  | setValue
  /-- `next = pNodes[b].pNext` -/
  | load
  /-- `pNew->pNext = next` -/
  | setNext
  /-- the compare-and-swap on `pNodes[b].pNext` -/
  | swap
  | returned
  deriving DecidableEq

structure Locals where
  pc : Pc
  i : ℕ
  pNew : ℕ
  next : Option ℕ
  deriving DecidableEq

/-- `AtomicCompareExchangeStrongExplicit`: the result, `*expected` and the object afterwards. -/
def atomicCompareExchangeStrongExplicit {α : Type} [DecidableEq α] (a expected desired : α) :
    Bool × α × α :=
  if a = expected then (true, expected, desired) else (false, a, a)

/-- `input[i] % numBins`. -/
def bin (numBins : ℕ) (input : BitVec 32) : ℕ := input.toNat % numBins

/-- The statements that insert `input[i]`, which are the same on the devices and on the host, but
for what comes after them. -/
def insert (numBins : ℕ) (input : ℕ → BitVec 32) (finish : Locals → Locals) (l : Locals) (m : Mem) :
    Option (Locals × Mem) :=
  let b := bin numBins (input l.i)
  match l.pc with
  | .spin => none
  | .alloc =>
    some ({ l with pc := .setValue, pNew := m.pNumNodes.toNat },
      { m with pNumNodes := m.pNumNodes + 1 })
  | .setValue => some ({ l with pc := .load }, m.setValue l.pNew (input l.i))
  | .load => some ({ l with pc := .setNext, next := m.pNext b }, m)
  | .setNext => some ({ l with pc := .swap }, m.setNext l.pNew l.next)
  | .swap =>
    let (success, next, object) := atomicCompareExchangeStrongExplicit (m.pNext b) l.next (some l.pNew)
    some (if success then finish l else { l with pc := .setNext, next := next },
      m.setNext b object)
  | .returned => none

/-- `build_hash_table`, for the work-item whose global id is `i`. -/
def buildHashTable (numBins : ℕ) (input : ℕ → BitVec 32) (l : Locals) (m : Mem) :
    Option (Locals × Mem) :=
  insert numBins input (fun l => { l with pc := .returned }) l m

/-- `i < inputSize`. -/
def Locals.loop (inputSize i : ℕ) (l : Locals) : Locals :=
  if i < inputSize then { l with pc := .alloc, i := i } else { l with pc := .returned, i := i }

/-- The host waits for the first node of a device, and then it runs `build_hash_table_on_host`. -/
def buildHashTableOnHost (numBins inputSize : ℕ) (input : ℕ → BitVec 32) (l : Locals) (m : Mem) :
    Option (Locals × Mem) :=
  match l.pc with
  | .spin => some (if BitVec.ofNat 32 numBins = m.pNumNodes then l else l.loop inputSize 0, m)
  | _ => insert numBins input (fun l => l.loop inputSize (l.i + 1)) l m

variable {numDevices numPixels : ℕ}

/-- What a party runs. -/
def program (numBins : ℕ) (input : ℕ → BitVec 32) :
    Program (Party numDevices numPixels) Mem Locals
  | none, l, m => buildHashTableOnHost numBins numPixels input l m
  | some _, l, m => buildHashTable numBins input l m

/-- What `launch_kernels_and_verify` sets up.  The values of the nodes and the fields of those that
are not the head of a bin are not initialised. -/
structure Start (numBins : ℕ) (c : Conf (Party numDevices numPixels) Mem Locals) : Prop where
  numNodes : c.mem.pNumNodes = BitVec.ofNat 32 numBins
  heads : ∀ b < numBins, c.mem.pNext b = none
  host : (c.loc none).pc = .spin
  items : ∀ d i, (c.loc (some (d, i))).pc = .alloc ∧ (c.loc (some (d, i))).i = i

/-- All interleavings of the kernels and the host. -/
abbrev hashTable (numDevices numPixels numBins : ℕ) (input : ℕ → BitVec 32) :
    System (Conf (Party numDevices numPixels) Mem Locals) (Party numDevices numPixels) :=
  threads (program numBins input) (Start numBins)

/-- The number of nodes that the parties insert. -/
def numItems (numDevices numPixels : ℕ) : ℕ := numPixels * (numDevices + 1)

/-- The loop over the nodes of bin `i`, which counts them; `none` if it does not end. -/
def checkBin (numBins fuel : ℕ) (m : Mem) (numItems : BitVec 32) (i : ℕ) : Option (BitVec 32) :=
  walk m.pNext (fun p => decide (bin numBins (m.value p) ≠ i)) (fun n _ => n + 1) fuel (m.pNext i)
    numItems

/-- The check at the end of `launch_kernels_and_verify`. -/
def verify (numDevices numPixels numBins fuel : ℕ) (m : Mem) : Option ℤ :=
  ((List.range numBins).foldlM (checkBin numBins fuel m) 0).map fun count =>
    if count.toNat ≠ numItems numDevices numPixels then -1 else 0

/-! ### What a step can do -/

/-- What a party does after it has inserted a node. -/
def finish : Party numDevices numPixels → Locals → Locals
  | none, l => l.loop numPixels (l.i + 1)
  | some _, l => { l with pc := .returned }

/-- The steps. -/
inductive Moves (numBins : ℕ) (input : ℕ → BitVec 32) (t : Party numDevices numPixels) (l : Locals)
    (m : Mem) : Locals → Mem → Prop
  | idle : t = none → l.pc = .spin → BitVec.ofNat 32 numBins = m.pNumNodes →
      Moves numBins input t l m l m
  | start : t = none → l.pc = .spin → BitVec.ofNat 32 numBins ≠ m.pNumNodes →
      Moves numBins input t l m (l.loop numPixels 0) m
  | alloc : l.pc = .alloc → Moves numBins input t l m
      { l with pc := .setValue, pNew := m.pNumNodes.toNat } { m with pNumNodes := m.pNumNodes + 1 }
  | setValue : l.pc = .setValue → Moves numBins input t l m
      { l with pc := .load } (m.setValue l.pNew (input l.i))
  | load : l.pc = .load → Moves numBins input t l m
      { l with pc := .setNext, next := m.pNext (bin numBins (input l.i)) } m
  | setNext : l.pc = .setNext → Moves numBins input t l m
      { l with pc := .swap } (m.setNext l.pNew l.next)
  | insert : l.pc = .swap → m.pNext (bin numBins (input l.i)) = l.next → Moves numBins input t l m
      (finish t l) (m.setNext (bin numBins (input l.i)) (some l.pNew))
  | retry : l.pc = .swap → m.pNext (bin numBins (input l.i)) ≠ l.next → Moves numBins input t l m
      { l with pc := .setNext, next := m.pNext (bin numBins (input l.i)) } m

variable {numBins : ℕ} {input : ℕ → BitVec 32} {t u : Party numDevices numPixels} {l l' : Locals}
  {m m' : Mem}

theorem setNext_pNext (m : Mem) (p : ℕ) : m.setNext p (m.pNext p) = m := by
  rw [Mem.setNext, Function.update_eq_self]

theorem moves_insert (h : insert numBins input (finish t) l m = some (l', m')) :
    Moves numBins input t l m l' m' := by
  cases hpc : l.pc with
  | spin => simp [insert, hpc] at h
  | returned => simp [insert, hpc] at h
  | alloc =>
    simp only [insert, hpc, Option.some.injEq, Prod.mk.injEq] at h
    obtain ⟨rfl, rfl⟩ := h
    exact .alloc hpc
  | setValue =>
    simp only [insert, hpc, Option.some.injEq, Prod.mk.injEq] at h
    obtain ⟨rfl, rfl⟩ := h
    exact .setValue hpc
  | load =>
    simp only [insert, hpc, Option.some.injEq, Prod.mk.injEq] at h
    obtain ⟨rfl, rfl⟩ := h
    exact .load hpc
  | setNext =>
    simp only [insert, hpc, Option.some.injEq, Prod.mk.injEq] at h
    obtain ⟨rfl, rfl⟩ := h
    exact .setNext hpc
  | swap =>
    by_cases heq : m.pNext (bin numBins (input l.i)) = l.next
    · simp only [insert, hpc, atomicCompareExchangeStrongExplicit, if_pos heq, if_true,
        Option.some.injEq, Prod.mk.injEq] at h
      obtain ⟨rfl, rfl⟩ := h
      exact .insert hpc heq
    · simp only [insert, hpc, atomicCompareExchangeStrongExplicit, if_neg heq, Bool.false_eq_true,
        if_false, setNext_pNext, Option.some.injEq, Prod.mk.injEq] at h
      obtain ⟨rfl, rfl⟩ := h
      exact .retry hpc heq

theorem program_eq (hpc : l.pc ≠ .spin) :
    program numBins input t l m = insert numBins input (finish t) l m := by
  cases t with
  | some item => rfl
  | none =>
    simp only [program, buildHashTableOnHost]
    rfl

/-- **Every step is one of these.** -/
theorem moves (h : program numBins input t l m = some (l', m')) :
    Moves numBins input t l m l' m' := by
  by_cases hpc : l.pc = .spin
  · cases t with
    | some item => simp [program, buildHashTable, insert, hpc] at h
    | none =>
      simp only [program, buildHashTableOnHost, hpc, Option.some.injEq, Prod.mk.injEq] at h
      obtain ⟨rfl, rfl⟩ := h
      split
      · exact .idle rfl hpc ‹_›
      · exact .start rfl hpc ‹_›
  · rw [program_eq hpc] at h
    exact moves_insert h

/-! ### Where the nodes are -/

/-- The thread has a node that is not on a list yet. -/
def Locals.Holds (l : Locals) : Prop :=
  l.pc = .setValue ∨ l.pc = .load ∨ l.pc = .setNext ∨ l.pc = .swap

instance (l : Locals) : Decidable l.Holds := inferInstanceAs (Decidable (_ ∨ _))

/-- The node that a thread is about to insert. -/
def Locals.held (l : Locals) : Multiset ℕ := if l.Holds then {l.pNew} else 0

/-- The pixels that a party has inserted. -/
def inserted : Party numDevices numPixels → Locals → Multiset ℕ
  | none, l => if l.pc = .spin then 0 else Multiset.range l.i
  | some (_, i), l => if l.pc = .returned then {(i : ℕ)} else 0

/-- The number of pixels that a party inserts. -/
def quota : Party numDevices numPixels → ℕ
  | none => numPixels
  | some _ => 1

/-- Where a party stands in its loop. -/
def InLoop : Party numDevices numPixels → Locals → Prop
  | none, l => if l.pc = .returned then l.i = numPixels else l.pc = .spin ∨ l.i < numPixels
  | some (_, i), l => l.i = i ∧ l.pc ≠ .spin

/-- The fields of the node that a thread has. -/
structure Fields (input : ℕ → BitVec 32) (l : Locals) (m : Mem) : Prop where
  value : l.pc = .load ∨ l.pc = .setNext ∨ l.pc = .swap → m.value l.pNew = input l.i
  next : l.pc = .swap → m.pNext l.pNew = l.next

/-- The nodes on the lists of the bins. -/
def linked (numBins : ℕ) (chains : ℕ → List ℕ) : Multiset ℕ :=
  ∑ b ∈ Finset.range numBins, (chains b : Multiset ℕ)

/-- **The table while nodes are inserted**: the lists of the bins, where each node is, and what the
lists hold. -/
structure Inserting (numBins : ℕ) (input : ℕ → BitVec 32)
    (c : Conf (Party numDevices numPixels) Mem Locals) (chains : ℕ → List ℕ) : Prop where
  inLoop : ∀ t, InLoop t (c.loc t)
  fields : ∀ t, Fields input (c.loc t) c.mem
  le : numBins ≤ c.mem.pNumNodes.toNat
  chain : ∀ b < numBins, Chain c.mem.pNext (c.mem.pNext b) (chains b)
  hashed : ∀ b < numBins, ∀ p ∈ chains b, bin numBins (c.mem.value p) = b
  nodes : linked numBins chains + ∑ t, (c.loc t).held
    = (Finset.Ico numBins c.mem.pNumNodes.toNat).val
  values : (linked numBins chains).map c.mem.value
    = ∑ t, (inserted t (c.loc t)).map input

theorem held_of_holds (h : l.Holds) : l.held = {l.pNew} := if_pos h

theorem held_of_not_holds (h : ¬ l.Holds) : l.held = 0 := if_neg h

theorem mem_linked {chains : ℕ → List ℕ} {p : ℕ} :
    p ∈ linked numBins chains ↔ ∃ b < numBins, p ∈ chains b := by
  simp [linked, Multiset.mem_sum]

theorem linked_cons {chains : ℕ → List ℕ} {b : ℕ} (hb : b < numBins) (p : ℕ) :
    linked numBins (Function.update chains b (p :: chains b)) = p ::ₘ linked numBins chains := by
  have hmem : b ∈ Finset.range numBins := Finset.mem_range.mpr hb
  have hrest : ∑ x ∈ (Finset.range numBins).erase b,
        ((Function.update chains b (p :: chains b) x : List ℕ) : Multiset ℕ)
      = ∑ x ∈ (Finset.range numBins).erase b, (chains x : Multiset ℕ) := by
    refine Finset.sum_congr rfl fun x hx => ?_
    rw [Function.update_of_ne (Finset.ne_of_mem_erase hx)]
  rw [linked, linked, ← Finset.add_sum_erase _ _ hmem, ← Finset.add_sum_erase _ _ hmem, hrest,
    Function.update_self, ← Multiset.cons_coe, Multiset.cons_add]

namespace Inserting

variable {c : Conf (Party numDevices numPixels) Mem Locals} {chains : ℕ → List ℕ}

theorem nodup (h : Inserting numBins input c chains) :
    (linked numBins chains + ∑ t, (c.loc t).held).Nodup := by
  rw [h.nodes]
  exact Finset.nodup _

theorem notMem (h : Inserting numBins input c chains) (hl : (c.loc t).Holds) {b : ℕ}
    (hb : b < numBins) : (c.loc t).pNew ∉ chains b := by
  intro hmem
  have hheld : (c.loc t).pNew ∈ (c.loc t).held := by simp [held_of_holds hl]
  exact Places.notMem_shared h.nodup hheld (mem_linked.mpr ⟨b, hb, hmem⟩)

theorem pNew_ne (h : Inserting numBins input c chains) (htu : t ≠ u) (ht : (c.loc t).Holds)
    (hu : (c.loc u).Holds) : (c.loc t).pNew ≠ (c.loc u).pNew := by
  have hmt : (c.loc t).pNew ∈ (c.loc t).held := by simp [held_of_holds ht]
  have hmu : (c.loc u).pNew ∈ (c.loc u).held := by simp [held_of_holds hu]
  exact Places.ne_of_mem h.nodup htu hmt hmu

theorem pNew_mem (h : Inserting numBins input c chains) (ht : (c.loc t).Holds) :
    numBins ≤ (c.loc t).pNew ∧ (c.loc t).pNew < c.mem.pNumNodes.toNat := by
  have hmem : (c.loc t).pNew ∈ linked numBins chains + ∑ t, (c.loc t).held := by
    refine Multiset.mem_add.mpr (.inr (Multiset.mem_sum.mpr ⟨t, Finset.mem_univ t, ?_⟩))
    simp [held_of_holds ht]
  rw [h.nodes] at hmem
  simpa using hmem

theorem step (h : Inserting numBins input c chains) {chains' : ℕ → List ℕ} (hloop : InLoop t l')
    (hfields : Fields input l' m')
    (hother : ∀ u ≠ t, (c.loc u).Holds → m'.value (c.loc u).pNew = c.mem.value (c.loc u).pNew ∧
      m'.pNext (c.loc u).pNew = c.mem.pNext (c.loc u).pNew)
    (hle : numBins ≤ m'.pNumNodes.toNat)
    (hchain : ∀ b < numBins, Chain m'.pNext (m'.pNext b) (chains' b))
    (hhashed : ∀ b < numBins, ∀ p ∈ chains' b, bin numBins (m'.value p) = b)
    (hnodes : linked numBins chains' + l'.held + (Finset.Ico numBins c.mem.pNumNodes.toNat).val
      = linked numBins chains + (c.loc t).held + (Finset.Ico numBins m'.pNumNodes.toNat).val)
    (hvalues : (linked numBins chains').map m'.value + (inserted t (c.loc t)).map input
      = (linked numBins chains).map c.mem.value + (inserted t l').map input) :
    Inserting numBins input ⟨m', Function.update c.loc t l'⟩ chains' := by
  have hheld := sum_update (fun _ => Locals.held) c.loc t l'
  have hinserted := sum_update (fun u l => (inserted u l).map input) c.loc t l'
  refine ⟨fun u => ?_, fun u => ?_, hle, hchain, hhashed, ?_, ?_⟩
  · by_cases hu : u = t
    · subst hu
      simpa using hloop
    · simpa [Function.update_of_ne hu] using h.inLoop u
  · by_cases hu : u = t
    · subst hu
      simpa using hfields
    · simp only [Function.update_of_ne hu]
      have hold := h.fields u
      refine ⟨fun hpc => ?_, fun hpc => ?_⟩
      · rw [(hother u hu (.inr hpc)).1]
        exact hold.value hpc
      · rw [(hother u hu (.inr (.inr (.inr hpc)))).2]
        exact hold.next hpc
  · refine add_right_cancel (b := (c.loc t).held + linked numBins chains) ?_
    calc linked numBins chains' + ∑ u, (Function.update c.loc t l' u).held
          + ((c.loc t).held + linked numBins chains)
        = linked numBins chains' + (∑ u, (Function.update c.loc t l' u).held + (c.loc t).held)
          + linked numBins chains := by abel
      _ = linked numBins chains' + l'.held + (linked numBins chains + ∑ u, (c.loc u).held) := by
          rw [hheld]; abel
      _ = (Finset.Ico numBins m'.pNumNodes.toNat).val
          + ((c.loc t).held + linked numBins chains) := by rw [h.nodes, hnodes]; abel
  · refine add_right_cancel (b := (inserted t (c.loc t)).map input) ?_
    calc (linked numBins chains').map m'.value + (inserted t (c.loc t)).map input
        = ∑ u, (inserted u (c.loc u)).map input + (inserted t l').map input := by
          rw [hvalues, h.values]
      _ = ∑ u, (inserted u (Function.update c.loc t l' u)).map input
          + (inserted t (c.loc t)).map input := hinserted.symm

theorem step_same (h : Inserting numBins input c chains) (hloop : InLoop t l')
    (hfields : Fields input l' m')
    (hagree : ∀ p, (∀ u, u = t → (c.loc u).Holds → p ≠ (c.loc u).pNew) →
      m'.value p = c.mem.value p ∧ m'.pNext p = c.mem.pNext p)
    (hnum : m'.pNumNodes = c.mem.pNumNodes) (hheld : l'.held = (c.loc t).held)
    (hinserted : inserted t l' = inserted t (c.loc t)) :
    Inserting numBins input ⟨m', Function.update c.loc t l'⟩ chains := by
  have hlist : ∀ b < numBins, ∀ p ∈ chains b,
      m'.value p = c.mem.value p ∧ m'.pNext p = c.mem.pNext p := by
    intro b hb p hp
    refine hagree p ?_
    rintro u rfl hu rfl
    exact h.notMem hu hb hp
  have hhead : ∀ b < numBins, m'.pNext b = c.mem.pNext b := by
    intro b hb
    refine (hagree b ?_).2
    rintro u rfl hu rfl
    exact absurd (h.pNew_mem hu).1 (not_le.mpr hb)
  refine h.step hloop hfields (fun u hu hl => hagree _ ?_) (hnum ▸ h.le) (fun b hb => ?_)
    (fun b hb p hp => ?_) (by rw [hnum, hheld]) ?_
  · rintro v rfl hv
    exact h.pNew_ne hu hl hv
  · rw [hhead b hb]
    exact (h.chain b hb).congr fun p hp => (hlist b hb p hp).2
  · rw [(hlist b hb p hp).1]
    exact h.hashed b hb p hp
  · rw [hinserted]
    congr 1
    refine Multiset.map_congr rfl fun p hp => ?_
    obtain ⟨b, hb, hp⟩ := mem_linked.mp hp
    exact (hlist b hb p hp).1

/-! ### How many nodes are handed out -/

theorem card_held (l : Locals) : l.held.card = if l.Holds then 1 else 0 := by
  unfold Locals.held
  split <;> rfl

/-- A party is given no more nodes than it has pixels. -/
theorem card_le (h : InLoop t l) : (inserted t l).card + l.held.card ≤ quota t := by
  rw [card_held]
  cases t with
  | none => cases hpc : l.pc <;> simp_all [InLoop, inserted, quota, Locals.Holds] <;> omega
  | some item => cases hpc : l.pc <;> simp_all [InLoop, inserted, quota, Locals.Holds]

theorem card_lt_of_alloc (h : InLoop t l) (hpc : l.pc = .alloc) :
    (inserted t l).card + l.held.card < quota t := by
  rw [card_held]
  cases t with
  | none => simp_all [InLoop, inserted, quota, Locals.Holds]
  | some item => simp_all [inserted, quota, Locals.Holds]

theorem sum_quota : ∑ t : Party numDevices numPixels, quota t = numItems numDevices numPixels := by
  rw [Fintype.sum_option]
  simp only [quota, numItems, Finset.sum_const, Finset.card_univ, Fintype.card_prod, Fintype.card_fin,
    nsmul_eq_mul, Nat.cast_id]
  ring

theorem numNodes_eq (h : Inserting numBins input c chains) :
    c.mem.pNumNodes.toNat
      = numBins + ∑ t, ((inserted t (c.loc t)).card + (c.loc t).held.card) := by
  have hnodes := congrArg Multiset.card h.nodes
  have hvalues := congrArg Multiset.card h.values
  simp only [Multiset.card_add, Multiset.card_map, Multiset.card_sum, Finset.card_val, Nat.card_Ico]
    at hnodes hvalues
  rw [Finset.sum_add_distrib]
  have hle := h.le
  omega

/-- **There is a node for everyone who asks for one.** -/
theorem numNodes_lt (h : Inserting numBins input c chains) (hpc : (c.loc t).pc = .alloc) :
    c.mem.pNumNodes.toNat < numBins + numItems numDevices numPixels := by
  rw [h.numNodes_eq, ← sum_quota]
  refine Nat.add_lt_add_left (Finset.sum_lt_sum (fun u _ => card_le (h.inLoop u)) ?_) numBins
  exact ⟨t, Finset.mem_univ t, card_lt_of_alloc (h.inLoop t) hpc⟩

end Inserting

/-! ### The steps keep the table -/

variable {c : Conf (Party numDevices numPixels) Mem Locals} {chains : ℕ → List ℕ}

theorem val_Ico_succ {a b : ℕ} (h : a ≤ b) :
    (Finset.Ico a (b + 1)).val = b ::ₘ (Finset.Ico a b).val := by
  rw [Nat.Ico_succ_right_eq_insert_Ico h, Finset.insert_val_of_notMem (by simp)]

theorem bin_lt (hbins : 0 < numBins) (v : BitVec 32) : bin numBins v < numBins :=
  Nat.mod_lt _ hbins

theorem finish_spec (h : InLoop t l) (hpc : l.pc = .swap) :
    InLoop t (finish t l) ∧ ¬ (finish t l).Holds ∧ (finish t l).pc ≠ .spin ∧
      inserted t (finish t l) = l.i ::ₘ inserted t l := by
  cases t with
  | none =>
    have hlt : l.i < numPixels := by simpa [InLoop, hpc] using h
    by_cases hnext : l.i + 1 < numPixels
    · simp [finish, Locals.loop, InLoop, Locals.Holds, inserted, hpc, hnext, Multiset.range_succ]
    · have heq : l.i + 1 = numPixels := by omega
      simp [finish, Locals.loop, InLoop, Locals.Holds, inserted, hpc, heq, ← Multiset.range_succ]
  | some item =>
    obtain ⟨hi, _⟩ := h
    simp [finish, InLoop, Locals.Holds, inserted, hpc, hi]

theorem start_spec (h : InLoop (none : Party numDevices numPixels) l) (hpc : l.pc = .spin) :
    InLoop (none : Party numDevices numPixels) (l.loop numPixels 0) ∧
      ¬ (l.loop numPixels 0).Holds ∧
      inserted (none : Party numDevices numPixels) (l.loop numPixels 0)
        = inserted (none : Party numDevices numPixels) l := by
  by_cases hnum : 0 < numPixels
  · simp [Locals.loop, InLoop, Locals.Holds, inserted, hpc, hnum]
  · have hzero : numPixels = 0 := by omega
    subst hzero
    simp [Locals.loop, InLoop, Locals.Holds, inserted, hpc]

/-- A thread that has no node yet, or no longer, has no fields to keep. -/
theorem Fields.of_not_holds (h : ¬ l.Holds) : Fields input l m := by
  simp only [Locals.Holds, not_or] at h
  refine ⟨fun hpc => ?_, fun hpc => absurd hpc h.2.2.2⟩
  rcases hpc with hpc | hpc | hpc
  · exact absurd hpc h.2.1
  · exact absurd hpc h.2.2.1
  · exact absurd hpc h.2.2.2

namespace Inserting

theorem toNat_add_one (h : Inserting numBins input c chains)
    (hsize : numBins + numItems numDevices numPixels < 2 ^ 32) (hpc : (c.loc t).pc = .alloc) :
    (c.mem.pNumNodes + 1).toNat = c.mem.pNumNodes.toNat + 1 := by
  have hlt := h.numNodes_lt hpc
  rw [BitVec.toNat_add, show (1 : BitVec 32).toNat = 1 from rfl, Nat.mod_eq_of_lt (by omega)]

theorem next_alloc (h : Inserting numBins input c chains)
    (hsize : numBins + numItems numDevices numPixels < 2 ^ 32) (hpc : (c.loc t).pc = .alloc) :
    Inserting numBins input ⟨{ c.mem with pNumNodes := c.mem.pNumNodes + 1 },
      Function.update c.loc t
        { c.loc t with pc := .setValue, pNew := c.mem.pNumNodes.toNat }⟩ chains := by
  have hadd := h.toNat_add_one hsize hpc
  have hholds : ¬ (c.loc t).Holds := by simp [Locals.Holds, hpc]
  have hloop := h.inLoop t
  refine h.step ?_ ⟨by simp, by simp⟩ (fun _ _ _ => ⟨rfl, rfl⟩) ?_ h.chain h.hashed ?_ ?_
  · cases t with
    | none => simpa [InLoop, hpc] using hloop
    | some item => simpa [InLoop, hpc] using hloop
  · simp only [hadd]
    exact h.le.trans (Nat.le_succ _)
  · rw [held_of_not_holds hholds, held_of_holds (by simp [Locals.Holds]), add_zero]
    simp only [hadd, val_Ico_succ h.le, add_assoc, Multiset.singleton_add]
  · congr 2
    cases t with
    | none => simp [inserted, hpc]
    | some item => simp [inserted, hpc]

theorem next_insert (h : Inserting numBins input c chains) (hbins : 0 < numBins)
    (hpc : (c.loc t).pc = .swap)
    (heq : c.mem.pNext (bin numBins (input (c.loc t).i)) = (c.loc t).next) :
    Inserting numBins input
      ⟨c.mem.setNext (bin numBins (input (c.loc t).i)) (some (c.loc t).pNew),
        Function.update c.loc t (finish t (c.loc t))⟩
      (Function.update chains (bin numBins (input (c.loc t).i))
        ((c.loc t).pNew :: chains (bin numBins (input (c.loc t).i)))) := by
  have hholds : (c.loc t).Holds := by simp [Locals.Holds, hpc]
  have hvalue := (h.fields t).value (.inr (.inr hpc))
  have hnext := (h.fields t).next hpc
  have hnew := h.pNew_mem hholds
  generalize hb : bin numBins (input (c.loc t).i) = b at heq ⊢
  have hlt : b < numBins := hb ▸ bin_lt hbins _
  obtain ⟨hloop, hnot, -, hins⟩ := finish_spec (h.inLoop t) hpc
  have hlist : ∀ a < numBins, b ∉ chains a := by
    intro a ha hmem
    have hin : b ∈ (Finset.Ico numBins c.mem.pNumNodes.toNat).val := by
      rw [← h.nodes]
      exact Multiset.mem_add.mpr (.inl (mem_linked.mpr ⟨a, ha, hmem⟩))
    simp only [Finset.mem_val, Finset.mem_Ico] at hin
    omega
  refine h.step hloop (.of_not_holds hnot) (fun u _ hu => ⟨rfl, ?_⟩) h.le (fun a ha => ?_)
    (fun a ha p hp => ?_) ?_ ?_
  · have hne : (c.loc u).pNew ≠ b := by
      have := (h.pNew_mem hu).1
      omega
    exact setNext_pNext_of_ne hne _
  · by_cases hab : a = b
    · subst hab
      rw [Function.update_self, setNext_pNext_self, chain_cons,
        setNext_pNext_of_ne (by omega), hnext, ← heq]
      exact ⟨rfl, (h.chain a ha).update (hlist a ha) _⟩
    · rw [Function.update_of_ne hab, setNext_pNext_of_ne hab]
      exact (h.chain a ha).update (hlist a ha) _
  · rw [setNext_value]
    by_cases hab : a = b
    · subst hab
      rw [Function.update_self, List.mem_cons] at hp
      rcases hp with rfl | hp
      · rw [hvalue, hb]
      · exact h.hashed a ha p hp
    · rw [Function.update_of_ne hab] at hp
      exact h.hashed a ha p hp
  · rw [linked_cons hlt, held_of_not_holds hnot, held_of_holds hholds, setNext_pNumNodes, add_zero,
      ← Multiset.singleton_add]
    abel
  · rw [linked_cons hlt, hins, setNext_value, Multiset.map_cons, Multiset.map_cons, hvalue,
      Multiset.cons_add, Multiset.add_cons]

/-- **Every step keeps the table.** -/
theorem next (h : Inserting numBins input c chains) (hbins : 0 < numBins)
    (hsize : numBins + numItems numDevices numPixels < 2 ^ 32)
    (hm : Moves numBins input t (c.loc t) c.mem l' m') :
    ∃ chains', Inserting numBins input ⟨m', Function.update c.loc t l'⟩ chains' := by
  have hloop := h.inLoop t
  have hfields := h.fields t
  have hsame : ∀ p, (∀ u, u = t → (c.loc u).Holds → p ≠ (c.loc u).pNew) →
      c.mem.value p = c.mem.value p ∧ c.mem.pNext p = c.mem.pNext p := fun _ _ => ⟨rfl, rfl⟩
  -- The loop and what has been inserted do not depend on where a thread is while it has a node.
  have hat : ∀ l₂ : Locals, (c.loc t).Holds → l₂.Holds → l₂.i = (c.loc t).i →
      InLoop t l₂ ∧ inserted t l₂ = inserted t (c.loc t) := by
    intro l₂ h₁ h₂ hi
    cases t with
    | none =>
      rcases h₁ with h₁ | h₁ | h₁ | h₁ <;> rcases h₂ with h₂ | h₂ | h₂ | h₂ <;>
        simpa [InLoop, inserted, h₁, h₂, hi] using hloop
    | some item =>
      rcases h₁ with h₁ | h₁ | h₁ | h₁ <;> rcases h₂ with h₂ | h₂ | h₂ | h₂ <;>
        simpa [InLoop, inserted, h₁, h₂, hi] using hloop
  cases hm with
  | idle ht hpc hwait => exact ⟨chains, h.step_same hloop hfields hsame rfl rfl rfl⟩
  | start ht hpc hgo =>
    subst ht
    obtain ⟨hloop', hnot, hins⟩ := start_spec hloop hpc
    refine ⟨chains, h.step_same hloop' (.of_not_holds hnot) hsame rfl ?_ hins⟩
    rw [held_of_not_holds hnot, held_of_not_holds (by simp [Locals.Holds, hpc])]
  | alloc hpc => exact ⟨chains, h.next_alloc hsize hpc⟩
  | setValue hpc =>
    have h₁ : (c.loc t).Holds := by simp [Locals.Holds, hpc]
    obtain ⟨hloop', hins⟩ := hat { c.loc t with pc := .load } h₁ (by simp [Locals.Holds]) rfl
    refine ⟨chains, h.step_same hloop' ⟨fun _ => by simp, by simp⟩ (fun p hp => ?_) rfl ?_ hins⟩
    · exact ⟨setValue_value_of_ne (hp t rfl h₁) _, rfl⟩
    · rw [held_of_holds h₁, held_of_holds (by simp [Locals.Holds])]
  | load hpc =>
    have h₁ : (c.loc t).Holds := by simp [Locals.Holds, hpc]
    obtain ⟨hloop', hins⟩ := hat { c.loc t with
      pc := .setNext, next := c.mem.pNext (bin numBins (input (c.loc t).i)) } h₁
      (by simp [Locals.Holds]) rfl
    refine ⟨chains, h.step_same hloop' ⟨fun _ => ?_, by simp⟩ hsame rfl ?_ hins⟩
    · exact hfields.value (.inl hpc)
    · rw [held_of_holds h₁, held_of_holds (by simp [Locals.Holds])]
  | setNext hpc =>
    have h₁ : (c.loc t).Holds := by simp [Locals.Holds, hpc]
    obtain ⟨hloop', hins⟩ := hat { c.loc t with pc := .swap } h₁ (by simp [Locals.Holds]) rfl
    refine ⟨chains, h.step_same hloop' ⟨fun _ => ?_, fun _ => by simp⟩ (fun p hp => ?_) rfl ?_ hins⟩
    · exact hfields.value (.inr (.inl hpc))
    · exact ⟨rfl, setNext_pNext_of_ne (hp t rfl h₁) _⟩
    · rw [held_of_holds h₁, held_of_holds (by simp [Locals.Holds])]
  | insert hpc heq => exact ⟨_, h.next_insert hbins hpc heq⟩
  | retry hpc hne =>
    have h₁ : (c.loc t).Holds := by simp [Locals.Holds, hpc]
    obtain ⟨hloop', hins⟩ := hat { c.loc t with
      pc := .setNext, next := c.mem.pNext (bin numBins (input (c.loc t).i)) } h₁
      (by simp [Locals.Holds]) rfl
    refine ⟨chains, h.step_same hloop' ⟨fun _ => ?_, by simp⟩ hsame rfl ?_ hins⟩
    · exact hfields.value (.inr (.inr hpc))
    · rw [held_of_holds h₁, held_of_holds (by simp [Locals.Holds])]

end Inserting

end OpenCLCTS.SVM.HashTable
