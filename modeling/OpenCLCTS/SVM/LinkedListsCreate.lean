import OpenCLCTS.Lib.Alone
import OpenCLCTS.SVM.LinkedLists

/-!
# Creating linked lists in shared virtual memory

The work-items of the kernel `create_linked_lists` take their nodes from one array, or from two, by
an atomic counter.  `Creating` says what holds in every reachable state: the nodes handed out are
different, their number is the counter, and what a work-item has linked so far is a list.  So the
kernel creates the lists in every interleaving (`create_lists`).

The host creates its lists one after the other.  It does what the kernel does when its work-items
run one after the other (`path_createLinkedLists`).
-/

namespace OpenCLCTS.SVM.LinkedLists

open Interleaving

/-! ### The kernel -/

def Nodes.setGlobalId (nodes : Nodes) (p : Addr) (v : BitVec 32) : Nodes :=
  { nodes with globalId := Function.update nodes.globalId p v }

def Nodes.setPositionInList (nodes : Nodes) (p : Addr) (v : BitVec 32) : Nodes :=
  { nodes with positionInList := Function.update nodes.positionInList p v }

def Nodes.setNext (nodes : Nodes) (p q : Addr) : Nodes :=
  { nodes with pNext := Function.update nodes.pNext p q }

structure Mem where
  allocationIndex : BitVec 32
  nodes : Nodes

/-- The access that comes next. -/
inductive Pc
  /-- `pNode->global_id = i` -/
  | setHeadId
  /-- `pNode->position_in_list = 0` -/
  | setHeadPosition
  /-- `atomic_inc(allocation_index)` -/
  | alloc
  /-- `pNew->global_id = i` -/
  | setGlobalId
  /-- `pNew->position_in_list = j` -/
  | setPosition
  /-- `pNode->pNext = pNew` -/
  | link
  | returned
  deriving DecidableEq

structure Locals where
  pc : Pc
  j : ℕ
  pNode : Addr
  pNew : Addr
  deriving DecidableEq

/-- `j < list_length`. -/
def Locals.loop (listLength j : ℕ) (l : Locals) : Locals :=
  if j < listLength then { l with pc := .alloc, j := j } else { l with pc := .returned, j := j }

variable {numLists : ℕ}

/-- `create_linked_lists`, where work-item `i` takes its nodes from `buffer i`. -/
def createKernel (listLength : ℕ) (buffer : ℕ → Buffer) : Program (Fin numLists) Mem Locals :=
  fun i l m =>
    match l.pc with
    | .setHeadId =>
      some ({ l with pc := .setHeadPosition },
        { m with nodes := m.nodes.setGlobalId l.pNode (BitVec.ofNat 32 i) })
    | .setHeadPosition =>
      some (l.loop listLength 1, { m with nodes := m.nodes.setPositionInList l.pNode 0 })
    | .alloc =>
      some ({ l with pc := .setGlobalId, pNew := (buffer i, m.allocationIndex.toNat) },
        { m with allocationIndex := m.allocationIndex + 1 })
    | .setGlobalId =>
      some ({ l with pc := .setPosition },
        { m with nodes := m.nodes.setGlobalId l.pNew (BitVec.ofNat 32 i) })
    | .setPosition =>
      some ({ l with pc := .link },
        { m with nodes := m.nodes.setPositionInList l.pNew (BitVec.ofNat 32 l.j) })
    | .link =>
      some ({ l with pNode := l.pNew }.loop listLength (l.j + 1),
        { m with nodes := m.nodes.setNext l.pNode l.pNew })
    | .returned => none

/-- All nodes are taken from `pNodes`. -/
def oneBuffer (_ : ℕ) : Buffer := .pNodes

/-- `allocate_node`: adjacent work-items take their nodes from different buffers. -/
def allocateNode (i : ℕ) : Buffer := if i &&& 1 ≠ 0 then .pNodes else .pNodes2

/-- Where a work-item starts. -/
def start (i : ℕ) (l : Locals) : Prop := l.pc = .setHeadId ∧ l.j = 1 ∧ l.pNode = head i

/-- All interleavings of the kernel, when the nodes are `nodes` and the allocator has been reset. -/
def createRuns (numLists listLength : ℕ) (buffer : ℕ → Buffer) (nodes : Nodes) :
    System (Conf (Fin numLists) Mem Locals) (Fin numLists) :=
  threads (createKernel listLength buffer)
    fun c => c.mem = ⟨BitVec.ofNat 32 numLists, nodes⟩ ∧ ∀ i : Fin numLists, start i (c.loc i)

/-! ### What a work-item has done -/

/-- The work-item has a node that it has not linked yet. -/
def Locals.HasNew (l : Locals) : Prop := l.pc = .setGlobalId ∨ l.pc = .setPosition ∨ l.pc = .link

instance (l : Locals) : Decidable l.HasNew := inferInstanceAs (Decidable (_ ∨ _))

/-- The number of nodes of a work-item. -/
def Locals.used (l : Locals) : ℕ := if l.HasNew then l.j + 1 else l.j

/-- The number of nodes whose `global_id` is written. -/
def Locals.ids (l : Locals) : ℕ :=
  match l.pc with
  | .setHeadId => 0
  | .setPosition | .link => l.j + 1
  | _ => l.j

/-- The number of nodes whose `position_in_list` is written. -/
def Locals.positions (l : Locals) : ℕ :=
  match l.pc with
  | .setHeadId | .setHeadPosition => 0
  | .link => l.j + 1
  | _ => l.j

/-- Work-item `i` has built the list of the nodes `addr 0`, `addr 1`, … so far. -/
structure Built (listLength : ℕ) (i : ℕ) (addr : ℕ → Addr) (l : Locals) (nodes : Nodes) : Prop where
  starts : addr 0 = head i
  pos : 1 ≤ l.j
  before : l.pc = .setHeadId ∨ l.pc = .setHeadPosition → l.j = 1
  lt : l.pc = .alloc ∨ l.HasNew → l.j < listLength
  done : l.pc = .returned → listLength ≤ l.j ∧ (l.j = 1 ∨ l.j = listLength)
  pNode : l.pNode = addr (l.j - 1)
  pNew : l.HasNew → l.pNew = addr l.j
  globalId : ∀ k < l.ids, nodes.globalId (addr k) = BitVec.ofNat 32 i
  position : ∀ k < l.positions, nodes.positionInList (addr k) = BitVec.ofNat 32 k
  pNext : ∀ k, k + 1 < l.j → nodes.pNext (addr k) = addr (k + 1)

/-- **The lists while they are created**: node `k` of list `i` has number `index i k`. -/
structure Creating (listLength : ℕ) (buffer : ℕ → Buffer) (c : Conf (Fin numLists) Mem Locals)
    (addr : Fin numLists → ℕ → Addr) : Prop where
  built : ∀ i : Fin numLists, Built listLength i (addr i) (c.loc i) c.mem.nodes
  lt : ∀ i, ∀ k < (c.loc i).used, (addr i k).2 < c.mem.allocationIndex.toNat
  inj : ∀ i i' k k', k < (c.loc i).used → k' < (c.loc i').used → (addr i k).2 = (addr i' k').2 →
    i = i' ∧ k = k'
  count : ∑ i, (c.loc i).used = c.mem.allocationIndex.toNat

variable {listLength : ℕ} {buffer : ℕ → Buffer} {c : Conf (Fin numLists) Mem Locals}
  {addr : Fin numLists → ℕ → Addr} {i : ℕ} {l l' : Locals} {nodes nodes' : Nodes}

theorem Built.ids_le {addr : ℕ → Addr} (h : Built listLength i addr l nodes) : l.ids ≤ l.used := by
  have hpos := h.pos
  cases hpc : l.pc <;> simp [Locals.ids, Locals.used, Locals.HasNew, hpc]

theorem Built.positions_le {addr : ℕ → Addr} (h : Built listLength i addr l nodes) :
    l.positions ≤ l.used := by
  have hpos := h.pos
  cases hpc : l.pc <;> simp [Locals.positions, Locals.used, Locals.HasNew, hpc]

theorem j_le_used (l : Locals) : l.j ≤ l.used := by
  unfold Locals.used
  split
  · exact Nat.le_succ _
  · exact le_rfl

theorem Built.congr {addr : ℕ → Addr} (h : Built listLength i addr l nodes)
    (heq : ∀ k < l.used, nodes'.globalId (addr k) = nodes.globalId (addr k) ∧
      nodes'.positionInList (addr k) = nodes.positionInList (addr k) ∧
      nodes'.pNext (addr k) = nodes.pNext (addr k)) :
    Built listLength i addr l nodes' := by
  refine { h with globalId := fun k hk => ?_, position := fun k hk => ?_, pNext := fun k hk => ?_ }
  · rw [(heq k (hk.trans_le h.ids_le)).1]
    exact h.globalId k hk
  · rw [(heq k (hk.trans_le h.positions_le)).2.1]
    exact h.position k hk
  · have hused := j_le_used l
    rw [(heq k (by omega)).2.2]
    exact h.pNext k hk

theorem Creating.addr_inj (h : Creating listLength buffer c addr) {t : Fin numLists} {k k' : ℕ}
    (hk : k < (c.loc t).used) (hk' : k' < (c.loc t).used) (heq : addr t k = addr t k') : k = k' :=
  (h.inj t t k k' hk hk' (congrArg Prod.snd heq)).2

theorem Creating.step (h : Creating listLength buffer c addr) {t : Fin numLists}
    (hbuilt : Built listLength t (addr t) l' nodes') (hused : l'.used = (c.loc t).used)
    (hagree : ∀ p, (∀ k < (c.loc t).used, p ≠ addr t k) →
      nodes'.globalId p = c.mem.nodes.globalId p ∧
        nodes'.positionInList p = c.mem.nodes.positionInList p ∧
        nodes'.pNext p = c.mem.nodes.pNext p) :
    Creating listLength buffer
      ⟨⟨c.mem.allocationIndex, nodes'⟩, Function.update c.loc t l'⟩ addr := by
  have hloc : ∀ u, (Function.update c.loc t l' u).used = (c.loc u).used := by
    intro u
    by_cases hu : u = t
    · subst hu
      rw [Function.update_self, hused]
    · rw [Function.update_of_ne hu]
  refine ⟨fun u => ?_, fun u k hk => ?_, fun u u' k k' hk hk' => ?_, ?_⟩
  · by_cases hu : u = t
    · subst hu
      simpa using hbuilt
    · simp only [Function.update_of_ne hu]
      refine (h.built u).congr fun k hk => hagree _ fun k' hk' heq => ?_
      exact hu (h.inj u t k k' hk hk' (congrArg Prod.snd heq)).1
  · rw [hloc] at hk
    exact h.lt u k hk
  · rw [hloc] at hk hk'
    exact h.inj u u' k k' hk hk'
  · simp only [hloc]
    exact h.count

/-! ### The steps -/

section Steps

variable {a : ℕ → Addr}

theorem loop_used (listLength j : ℕ) (l : Locals) : (l.loop listLength j).used = j := by
  unfold Locals.loop
  split <;> simp [Locals.used, Locals.HasNew]

theorem loop_ids (listLength j : ℕ) (l : Locals) : (l.loop listLength j).ids = j := by
  unfold Locals.loop
  split <;> simp [Locals.ids]

theorem loop_positions (listLength j : ℕ) (l : Locals) : (l.loop listLength j).positions = j := by
  unfold Locals.loop
  split <;> simp [Locals.positions]

theorem loop_j (listLength j : ℕ) (l : Locals) : (l.loop listLength j).j = j := by
  unfold Locals.loop
  split <;> rfl

theorem loop_pNode (listLength j : ℕ) (l : Locals) : (l.loop listLength j).pNode = l.pNode := by
  unfold Locals.loop
  split <;> rfl

theorem loop_hasNew (listLength j : ℕ) (l : Locals) : ¬ (l.loop listLength j).HasNew := by
  unfold Locals.loop
  split <;> simp [Locals.HasNew]

theorem Built.loop {j : ℕ} (hhead : a 0 = head i) (hj : j = 1 ∨ 2 ≤ j ∧ j ≤ listLength)
    (hpNode : l.pNode = a (j - 1))
    (hfields : ∀ k < j, nodes.globalId (a k) = BitVec.ofNat 32 i ∧
      nodes.positionInList (a k) = BitVec.ofNat 32 k)
    (hnext : ∀ k, k + 1 < j → nodes.pNext (a k) = a (k + 1)) :
    Built listLength i a (l.loop listLength j) nodes := by
  have hpc : (l.loop listLength j).pc = if j < listLength then .alloc else .returned := by
    unfold Locals.loop
    split <;> rfl
  refine ⟨hhead, ?_, ?_, ?_, ?_, ?_, ?_, ?_, ?_, ?_⟩
  · rw [loop_j]
    omega
  · intro h
    rw [hpc] at h
    split at h <;> simp at h
  · rintro (h | h)
    · rw [hpc] at h
      split at h
      · rwa [loop_j]
      · cases h
    · exact absurd h (loop_hasNew listLength j l)
  · intro h
    rw [hpc] at h
    rw [loop_j]
    split at h
    · cases h
    · omega
  · rw [loop_pNode, loop_j]
    exact hpNode
  · intro h
    exact absurd h (loop_hasNew listLength j l)
  · intro k hk
    rw [loop_ids] at hk
    exact (hfields k hk).1
  · intro k hk
    rw [loop_positions] at hk
    exact (hfields k hk).2
  · intro k hk
    rw [loop_j] at hk
    exact hnext k hk

end Steps

variable {t : Fin numLists} {m' : Mem}

theorem Creating.setHeadId (h : Creating listLength buffer c addr)
    (hpc : (c.loc t).pc = .setHeadId) :
    Creating listLength buffer
      ⟨⟨c.mem.allocationIndex, c.mem.nodes.setGlobalId (c.loc t).pNode (BitVec.ofNat 32 t)⟩,
        Function.update c.loc t { c.loc t with pc := .setHeadPosition }⟩ addr := by
  have hb := h.built t
  have hj := hb.before (.inl hpc)
  have hnode : (c.loc t).pNode = addr t 0 := by rw [hb.pNode, hj]
  refine h.step ?_ (by simp [Locals.used, Locals.HasNew, hpc]) fun p hp => ?_
  · refine ⟨hb.starts, hb.pos, fun _ => hj, ?_, by simp, hb.pNode, ?_, fun k hk => ?_, ?_, ?_⟩
    · simp [Locals.HasNew]
    · simp [Locals.HasNew]
    · have hk0 : k = 0 := by simpa [Locals.ids, hj] using hk
      simp [Nodes.setGlobalId, hnode, hk0]
    · simp [Locals.positions]
    · simp [hj]
  · have hne : p ≠ (c.loc t).pNode := hnode ▸ hp 0 (by simp [Locals.used, Locals.HasNew, hpc, hj])
    simp [Nodes.setGlobalId, Function.update_of_ne hne]

theorem Creating.setHeadPosition (h : Creating listLength buffer c addr)
    (hpc : (c.loc t).pc = .setHeadPosition) :
    Creating listLength buffer
      ⟨⟨c.mem.allocationIndex, c.mem.nodes.setPositionInList (c.loc t).pNode 0⟩,
        Function.update c.loc t ((c.loc t).loop listLength 1)⟩ addr := by
  have hb := h.built t
  have hj := hb.before (.inr hpc)
  have hnode : (c.loc t).pNode = addr t 0 := by rw [hb.pNode, hj]
  have hused : (c.loc t).used = 1 := by simp [Locals.used, Locals.HasNew, hpc, hj]
  refine h.step ?_ (by rw [loop_used, hused]) fun p hp => ?_
  · refine Built.loop hb.starts (.inl rfl) hnode (fun k hk => ?_) (fun k hk => by omega)
    have hk0 : k = 0 := by omega
    subst hk0
    refine ⟨hb.globalId 0 (by simp [Locals.ids, hpc, hj]), ?_⟩
    simp [Nodes.setPositionInList, hnode]
  · have hne : p ≠ (c.loc t).pNode := hnode ▸ hp 0 (by omega)
    simp [Nodes.setPositionInList, Function.update_of_ne hne]

theorem Creating.setGlobalId (h : Creating listLength buffer c addr)
    (hpc : (c.loc t).pc = .setGlobalId) :
    Creating listLength buffer
      ⟨⟨c.mem.allocationIndex, c.mem.nodes.setGlobalId (c.loc t).pNew (BitVec.ofNat 32 t)⟩,
        Function.update c.loc t { c.loc t with pc := .setPosition }⟩ addr := by
  have hb := h.built t
  have hnew : (c.loc t).HasNew := .inl hpc
  have hnode := hb.pNew hnew
  have hused : (c.loc t).used = (c.loc t).j + 1 := by simp [Locals.used, hnew]
  refine h.step ?_ (by simp [Locals.used, Locals.HasNew, hpc]) fun p hp => ?_
  · refine ⟨hb.starts, hb.pos, by simp, fun _ => hb.lt (.inr hnew), by simp, hb.pNode,
      fun _ => hnode, fun k hk => ?_, fun k hk => ?_, hb.pNext⟩
    · have hk' : k < (c.loc t).j + 1 := by simpa [Locals.ids] using hk
      by_cases hkj : k = (c.loc t).j
      · simp [Nodes.setGlobalId, hnode, hkj]
      · have hne : addr t k ≠ (c.loc t).pNew := by
          intro heq
          exact hkj (h.addr_inj (by omega) (by omega) (heq.trans hnode))
        have hold := hb.globalId k (by simp [Locals.ids, hpc]; omega)
        simpa [Nodes.setGlobalId, Function.update_of_ne hne] using hold
    · exact hb.position k (by simpa [Locals.positions, hpc] using hk)
  · have hne : p ≠ (c.loc t).pNew := hnode ▸ hp _ (by omega)
    simp [Nodes.setGlobalId, Function.update_of_ne hne]

theorem Creating.setPosition (h : Creating listLength buffer c addr)
    (hpc : (c.loc t).pc = .setPosition) :
    Creating listLength buffer
      ⟨⟨c.mem.allocationIndex,
          c.mem.nodes.setPositionInList (c.loc t).pNew (BitVec.ofNat 32 (c.loc t).j)⟩,
        Function.update c.loc t { c.loc t with pc := .link }⟩ addr := by
  have hb := h.built t
  have hnew : (c.loc t).HasNew := .inr (.inl hpc)
  have hnode := hb.pNew hnew
  have hused : (c.loc t).used = (c.loc t).j + 1 := by simp [Locals.used, hnew]
  refine h.step ?_ (by simp [Locals.used, Locals.HasNew, hpc]) fun p hp => ?_
  · refine ⟨hb.starts, hb.pos, by simp, fun _ => hb.lt (.inr hnew), by simp, hb.pNode,
      fun _ => hnode, fun k hk => ?_, fun k hk => ?_, hb.pNext⟩
    · exact hb.globalId k (by simpa [Locals.ids, hpc] using hk)
    · have hk' : k < (c.loc t).j + 1 := by simpa [Locals.positions] using hk
      by_cases hkj : k = (c.loc t).j
      · simp [Nodes.setPositionInList, hnode, hkj]
      · have hne : addr t k ≠ (c.loc t).pNew := by
          intro heq
          exact hkj (h.addr_inj (by omega) (by omega) (heq.trans hnode))
        have hold := hb.position k (by simp [Locals.positions, hpc]; omega)
        simpa [Nodes.setPositionInList, Function.update_of_ne hne] using hold
  · have hne : p ≠ (c.loc t).pNew := hnode ▸ hp _ (by omega)
    simp [Nodes.setPositionInList, Function.update_of_ne hne]

theorem Creating.link (h : Creating listLength buffer c addr) (hpc : (c.loc t).pc = .link) :
    Creating listLength buffer
      ⟨⟨c.mem.allocationIndex, c.mem.nodes.setNext (c.loc t).pNode (c.loc t).pNew⟩,
        Function.update c.loc t
          ({ c.loc t with pNode := (c.loc t).pNew }.loop listLength ((c.loc t).j + 1))⟩ addr := by
  have hb := h.built t
  have hnew : (c.loc t).HasNew := .inr (.inr hpc)
  have hpos := hb.pos
  have hlt := hb.lt (.inr hnew)
  have hused : (c.loc t).used = (c.loc t).j + 1 := by simp [Locals.used, hnew]
  refine h.step ?_ (by rw [loop_used, hused]) fun p hp => ?_
  · refine Built.loop hb.starts (.inr ⟨by omega, hlt⟩) (hb.pNew hnew) (fun k hk => ?_)
      (fun k hk => ?_)
    · exact ⟨hb.globalId k (by simpa [Locals.ids, hpc] using hk),
        hb.position k (by simpa [Locals.positions, hpc] using hk)⟩
    · by_cases hlast : k + 1 = (c.loc t).j
      · have hk1 : (c.loc t).j - 1 = k := by omega
        simp [Nodes.setNext, hb.pNode, hk1, hb.pNew hnew, hlast]
      · have hne : addr t k ≠ (c.loc t).pNode := by
          intro heq
          have := h.addr_inj (by omega) (by omega) (heq.trans hb.pNode)
          omega
        have hold := hb.pNext k (by omega)
        simpa [Nodes.setNext, Function.update_of_ne hne] using hold
  · have hne : p ≠ (c.loc t).pNode := hb.pNode ▸ hp _ (by omega)
    simp [Nodes.setNext, Function.update_of_ne hne]

theorem Built.used_le {a : ℕ → Addr} (h : Built listLength i a l nodes) :
    l.used ≤ max 1 listLength := by
  have hpos := h.pos
  have hbefore := h.before
  have hlt := h.lt
  have hdone := h.done
  unfold Locals.used
  split
  · rename_i hnew
    have := hlt (.inr hnew)
    omega
  · cases hpc : l.pc <;> simp_all [Locals.HasNew] <;> omega

/-- **There is a node for every work-item that asks for one.** -/
theorem Creating.allocationIndex_lt (h : Creating listLength buffer c addr)
    (hpc : (c.loc t).pc = .alloc) :
    c.mem.allocationIndex.toNat < listLength * numLists := by
  have hlt := (h.built t).lt (.inl hpc)
  have hle : ∀ u, (c.loc u).used ≤ listLength := fun u => by
    have := (h.built u).used_le
    omega
  have hused : (c.loc t).used = (c.loc t).j := by simp [Locals.used, Locals.HasNew, hpc]
  rw [← h.count]
  calc ∑ u, (c.loc u).used < ∑ _u : Fin numLists, listLength :=
        Finset.sum_lt_sum (fun u _ => hle u) ⟨t, Finset.mem_univ t, by omega⟩
    _ = listLength * numLists := by simp [Nat.mul_comm]

theorem Creating.toNat_add_one (h : Creating listLength buffer c addr)
    (hsize : listLength * numLists < 2 ^ 31) (hpc : (c.loc t).pc = .alloc) :
    (c.mem.allocationIndex + 1).toNat = c.mem.allocationIndex.toNat + 1 := by
  have hlt := h.allocationIndex_lt hpc
  rw [BitVec.toNat_add, show (1 : BitVec 32).toNat = 1 from rfl, Nat.mod_eq_of_lt (by omega)]

/-- The nodes that were handed out before are where they were. -/
theorem Built.alloc {a : ℕ → Addr} (h : Built listLength i a l nodes) (hpc : l.pc = .alloc)
    (new : Addr) : Built listLength i (Function.update a l.j new)
      { l with pc := .setGlobalId, pNew := new } nodes := by
  have hpos := h.pos
  have hold : ∀ k < l.j, Function.update a l.j new k = a k :=
    fun k hk => Function.update_of_ne (by omega) ..
  refine ⟨?_, hpos, by simp, fun _ => h.lt (.inl hpc), by simp, ?_, fun _ => ?_, fun k hk => ?_,
    fun k hk => ?_, fun k hk => ?_⟩
  · rw [hold 0 (by omega), h.starts]
  · rw [hold _ (by simp only; omega), h.pNode]
  · simp
  · have hk' : k < l.j := by simpa [Locals.ids] using hk
    rw [hold k hk']
    exact h.globalId k (by simpa [Locals.ids, hpc] using hk')
  · have hk' : k < l.j := by simpa [Locals.positions] using hk
    rw [hold k hk']
    exact h.position k (by simpa [Locals.positions, hpc] using hk')
  · simp only at hk
    rw [hold k (by omega), hold (k + 1) hk]
    exact h.pNext k hk

theorem Creating.alloc (h : Creating listLength buffer c addr)
    (hsize : listLength * numLists < 2 ^ 31) (hpc : (c.loc t).pc = .alloc) :
    Creating listLength buffer
      ⟨⟨c.mem.allocationIndex + 1, c.mem.nodes⟩, Function.update c.loc t
        { c.loc t with pc := .setGlobalId, pNew := (buffer t, c.mem.allocationIndex.toNat) }⟩
      (Function.update addr t (Function.update (addr t) (c.loc t).j
        (buffer t, c.mem.allocationIndex.toNat))) := by
  have hadd := h.toNat_add_one hsize hpc
  have hused : (c.loc t).used = (c.loc t).j := by simp [Locals.used, Locals.HasNew, hpc]
  have hcases : ∀ u k, k < (Function.update c.loc t { c.loc t with pc := .setGlobalId, pNew :=
        (buffer t, c.mem.allocationIndex.toNat) } u).used →
      (k < (c.loc u).used ∧ Function.update addr t (Function.update (addr t) (c.loc t).j
        (buffer t, c.mem.allocationIndex.toNat)) u k = addr u k) ∨
      (u = t ∧ k = (c.loc t).j ∧ Function.update addr t (Function.update (addr t) (c.loc t).j
        (buffer t, c.mem.allocationIndex.toNat)) u k
          = (buffer t, c.mem.allocationIndex.toNat)) := by
    intro u k hk
    by_cases hu : u = t
    · subst hu
      have hk' : k < (c.loc u).j + 1 := by simpa [Locals.used, Locals.HasNew] using hk
      by_cases hkj : k = (c.loc u).j
      · exact .inr ⟨rfl, hkj, by simp [hkj]⟩
      · exact .inl ⟨by omega, by rw [Function.update_self, Function.update_of_ne hkj]⟩
    · rw [Function.update_of_ne hu] at hk
      exact .inl ⟨hk, by rw [Function.update_of_ne hu]⟩
  refine ⟨fun u => ?_, fun u k hk => ?_, fun u u' k k' hk hk' heq => ?_, ?_⟩
  · by_cases hu : u = t
    · subst hu
      simp only [Function.update_self]
      exact (h.built u).alloc hpc _
    · simp only [Function.update_of_ne hu]
      exact h.built u
  · rcases hcases u k hk with ⟨hlt, haddr⟩ | ⟨-, -, haddr⟩
    · simp only [haddr, hadd]
      have := h.lt u k hlt
      omega
    · simp only [haddr, hadd]
      omega
  · rcases hcases u k hk with ⟨hlt, haddr⟩ | ⟨rfl, hkj, haddr⟩ <;>
      rcases hcases u' k' hk' with ⟨hlt', haddr'⟩ | ⟨rfl, hkj', haddr'⟩
    · rw [haddr, haddr'] at heq
      exact h.inj u u' k k' hlt hlt' heq
    · rw [haddr, haddr'] at heq
      exact absurd heq (h.lt u k hlt).ne
    · rw [haddr, haddr'] at heq
      exact absurd heq.symm (h.lt u' k' hlt').ne
    · exact ⟨rfl, hkj.trans hkj'.symm⟩
  · have hsum := sum_update (fun _ => Locals.used) c.loc t
      { c.loc t with pc := .setGlobalId, pNew := (buffer t, c.mem.allocationIndex.toNat) }
    have hnew : ({ c.loc t with pc := .setGlobalId, pNew :=
        (buffer t, c.mem.allocationIndex.toNat) } : Locals).used = (c.loc t).j + 1 := by
      simp [Locals.used, Locals.HasNew]
    have hcount := h.count
    simp only [hnew, hused] at hsum
    simp only [hadd]
    omega

/-- **Every step keeps the lists.** -/
theorem Creating.next (h : Creating listLength buffer c addr)
    (hsize : listLength * numLists < 2 ^ 31)
    (hP : createKernel listLength buffer t (c.loc t) c.mem = some (l', m')) :
    ∃ addr', Creating listLength buffer ⟨m', Function.update c.loc t l'⟩ addr' := by
  unfold createKernel at hP
  cases hpc : (c.loc t).pc with
  | setHeadId =>
    simp only [hpc, Option.some.injEq, Prod.mk.injEq] at hP
    obtain ⟨rfl, rfl⟩ := hP
    exact ⟨addr, h.setHeadId hpc⟩
  | setHeadPosition =>
    simp only [hpc, Option.some.injEq, Prod.mk.injEq] at hP
    obtain ⟨rfl, rfl⟩ := hP
    exact ⟨addr, h.setHeadPosition hpc⟩
  | alloc =>
    simp only [hpc, Option.some.injEq, Prod.mk.injEq] at hP
    obtain ⟨rfl, rfl⟩ := hP
    exact ⟨_, h.alloc hsize hpc⟩
  | setGlobalId =>
    simp only [hpc, Option.some.injEq, Prod.mk.injEq] at hP
    obtain ⟨rfl, rfl⟩ := hP
    exact ⟨addr, h.setGlobalId hpc⟩
  | setPosition =>
    simp only [hpc, Option.some.injEq, Prod.mk.injEq] at hP
    obtain ⟨rfl, rfl⟩ := hP
    exact ⟨addr, h.setPosition hpc⟩
  | link =>
    simp only [hpc, Option.some.injEq, Prod.mk.injEq] at hP
    obtain ⟨rfl, rfl⟩ := hP
    exact ⟨addr, h.link hpc⟩
  | returned => simp [hpc] at hP

/-! ### Every run -/

theorem reach_creating (hlists : numLists < 2 ^ 31) (hsize : listLength * numLists < 2 ^ 31) {ok}
    (h : (createRuns numLists listLength buffer nodes).Reach ok c) :
    ∃ addr, Creating listLength buffer c addr := by
  refine h.invariant (I := fun c => ∃ addr, Creating listLength buffer c addr) ?_ ?_
  · rintro c ⟨hmem, hstart⟩
    have hnum : c.mem.allocationIndex.toNat = numLists := by
      rw [hmem, BitVec.toNat_ofNat, Nat.mod_eq_of_lt (by omega)]
    have hused : ∀ i, (c.loc i).used = 1 := fun i => by
      simp [Locals.used, Locals.HasNew, hstart i |>.1, hstart i |>.2.1]
    refine ⟨fun i _ => head i, fun i => ?_, fun i k _ => ?_, fun i i' k k' hk hk' heq => ?_, ?_⟩
    · obtain ⟨hpc, hj, hnode⟩ := hstart i
      refine ⟨rfl, hj.ge, fun _ => hj, ?_, ?_, hnode, ?_, ?_, ?_, ?_⟩
      · simp [Locals.HasNew, hpc]
      · simp [hpc]
      · simp [Locals.HasNew, hpc]
      · simp [Locals.ids, hpc]
      · simp [Locals.positions, hpc]
      · simp [hj]
    · rw [hnum]
      exact i.isLt
    · rw [hused] at hk hk'
      exact ⟨Fin.ext heq, by omega⟩
    · simp [hused, hnum]
  · rintro c t c' ⟨addr, hc⟩ - hn
    obtain ⟨l', m', hP, rfl⟩ := threads_next.mp hn
    exact hc.next hsize hP

theorem Built.node_eq {a : ℕ → Addr} (h : Built listLength i a l nodes) (hpc : l.pc = .returned)
    {k : ℕ} (hk : k < listLength) : nodes.node i k = a k := by
  induction k with
  | zero => exact h.starts.symm
  | succ k ih =>
    have hdone := (h.done hpc).1
    rw [Nodes.node, Function.iterate_succ_apply', ← Nodes.node, ih (by omega)]
    exact h.pNext k (by omega)

/-- **The kernel creates the lists**, whatever the memory held before and however its work-items
are interleaved. -/
theorem create_lists (hlists : numLists < 2 ^ 31) (hsize : listLength * numLists < 2 ^ 31) {ok}
    (h : (createRuns numLists listLength buffer nodes).Reach ok c)
    (hret : ∀ i, (c.loc i).pc = .returned) : Lists numLists listLength c.mem.nodes := by
  obtain ⟨addr, hc⟩ := reach_creating hlists hsize h
  intro i hi k hk
  have hb := hc.built ⟨i, hi⟩
  have hpc := hret ⟨i, hi⟩
  have hdone := (hb.done hpc).1
  rw [hb.node_eq hpc hk]
  exact ⟨hb.globalId k (by simp only [Locals.ids, hpc]; omega),
    hb.position k (by simp only [Locals.positions, hpc]; omega)⟩

/-- The accesses that a work-item has before it. -/
def Locals.rank (listLength : ℕ) (l : Locals) : ℕ :=
  match l.pc with
  | .setHeadId => 4 * listLength + 2
  | .setHeadPosition => 4 * listLength + 1
  | .alloc => 4 * (listLength - l.j) + 4
  | .setGlobalId => 4 * (listLength - l.j) + 3
  | .setPosition => 4 * (listLength - l.j) + 2
  | .link => 4 * (listLength - l.j) + 1
  | .returned => 0

theorem rank_loop_le (listLength j : ℕ) (l : Locals) :
    (l.loop listLength (j + 1)).rank listLength ≤ 4 * (listLength - j) := by
  unfold Locals.loop
  split
  · simp only [Locals.rank]
    omega
  · exact Nat.zero_le _

/-- **The kernel can always be finished.** -/
theorem exists_path_created (c : Conf (Fin numLists) Mem Locals) :
    ∃ c', (createRuns numLists listLength buffer nodes).Path System.anyStep c c' ∧
      ∀ i, (c'.loc i).pc = .returned := by
  refine threads_finish (fun _ l => l.pc = .returned) (fun _ l => l.rank listLength)
    (fun i l m hret => ?_) c
  unfold createKernel
  cases hpc : l.pc with
  | setHeadPosition =>
    refine ⟨_, _, rfl, (rank_loop_le listLength 0 l).trans_lt ?_⟩
    simp [Locals.rank, hpc]
  | link =>
    refine ⟨_, _, rfl, (rank_loop_le listLength l.j _).trans_lt ?_⟩
    simp [Locals.rank, hpc]
  | returned => exact absurd hpc hret
  | setHeadId | alloc | setGlobalId | setPosition => exact ⟨_, _, rfl, by simp [Locals.rank, hpc]⟩

/-! ### The host -/

/-- The variables of `create_linked_lists` on the host. -/
structure Host where
  allocationIndex : ℕ
  pNode : Addr
  nodes : Nodes

/-- A round of the loop over `j`. -/
def Host.extend (i : ℕ) (s : Host) (j : ℕ) : Host :=
  let pNew : Addr := (.pNodes, s.allocationIndex)
  let nodes := (s.nodes.setGlobalId pNew (BitVec.ofNat 32 i)).setPositionInList pNew
    (BitVec.ofNat 32 j)
  ⟨s.allocationIndex + 1, pNew, nodes.setNext s.pNode pNew⟩

/-- A round of the loop over `i`. -/
def Host.create (listLength : ℕ) (s : Host) (i : ℕ) : Host :=
  let nodes := (s.nodes.setGlobalId (head i) (BitVec.ofNat 32 i)).setPositionInList (head i) 0
  (List.range' 1 (listLength - 1)).foldl (Host.extend i) ⟨s.allocationIndex, head i, nodes⟩

/-- `create_linked_lists`. -/
def createLinkedLists (numLists listLength : ℕ) (nodes : Nodes) : Nodes :=
  ((List.range numLists).foldl (Host.create listLength) ⟨numLists, head 0, nodes⟩).nodes

/-- The allocator and the nodes are the same for the host and for the kernel. -/
def Same (s : Host) (m : Mem) : Prop :=
  m.allocationIndex.toNat = s.allocationIndex ∧ m.nodes = s.nodes

theorem alone_extend (hlists : numLists < 2 ^ 31) (hsize : listLength * numLists < 2 ^ 31)
    (t : Fin numLists) {n j : ℕ} (hn : listLength - j = n) (s : Host) (l : Locals) (m : Mem)
    (loc : Fin numLists → Locals)
    (hreach : (createRuns numLists listLength oneBuffer nodes).Reach System.anyStep
      ⟨m, Function.update loc t (l.loop listLength j)⟩)
    (hnode : l.pNode = s.pNode) (hsame : Same s m) :
    ∃ l' m', Alone (createKernel listLength oneBuffer) t (l.loop listLength j) m l' m' ∧
      l'.pc = .returned ∧ Same ((List.range' j n).foldl (Host.extend t) s) m' := by
  induction n generalizing j s l m with
  | zero =>
    refine ⟨_, m, .refl _ _, ?_, hsame⟩
    simp [Locals.loop, show ¬ j < listLength by omega]
  | succ n ih =>
    have hj : j < listLength := by omega
    have hpc : ((l.loop listLength j)).pc = .alloc := by simp [Locals.loop, hj]
    obtain ⟨addr, hc⟩ := reach_creating hlists hsize hreach
    have hadd := hc.toNat_add_one (t := t) hsize (by simp [hpc])
    obtain ⟨hindex, hnodes⟩ := hsame
    -- the five accesses of a round
    let l₂ : Locals := ⟨.link, j, l.pNode, (.pNodes, m.allocationIndex.toNat)⟩
    let m₂ : Mem := ⟨m.allocationIndex + 1, (Host.extend t s j).nodes⟩
    have hround : Alone (createKernel listLength oneBuffer) t (l.loop listLength j) m
        ({ l₂ with pNode := l₂.pNew }.loop listLength (j + 1)) m₂ := by
      rw [show l.loop listLength j = { l with pc := .alloc, j := j } by simp [Locals.loop, hj]]
      refine .head rfl (.head rfl (.head rfl (.head rfl ?_)))
      simp only [Host.extend, ← hnode, ← hnodes, ← hindex, l₂, m₂]
      exact .refl _ _
    have hpath : (createRuns numLists listLength oneBuffer nodes).Path System.anyStep _ _ :=
      hround.path (Function.update loc t (l.loop listLength j)) (by simp)
    rw [Function.update_idem] at hpath
    obtain ⟨l', m', halone, hret, hsame'⟩ := ih (j := j + 1) (by omega) (Host.extend t s j)
      { l₂ with pNode := l₂.pNew } m₂ (hpath.reach hreach) (by simp [Host.extend, l₂, hindex])
      ⟨hadd.trans (congrArg (· + 1) hindex), rfl⟩
    refine ⟨l', m', hround.trans halone, hret, ?_⟩
    rwa [List.range'_succ, List.foldl_cons]

/-- **The host does what the kernel can do.** -/
theorem path_createLinkedLists (hlists : numLists < 2 ^ 31) (hsize : listLength * numLists < 2 ^ 31)
    (nodes : Nodes) : ∃ c, (createRuns numLists listLength oneBuffer nodes).Reach System.anyStep c ∧
      (∀ i, (c.loc i).pc = .returned) ∧
      c.mem.nodes = createLinkedLists numLists listLength nodes := by
  let c₀ : Conf (Fin numLists) Mem Locals :=
    ⟨⟨BitVec.ofNat 32 numLists, nodes⟩, fun i => ⟨.setHeadId, 1, head i, head i⟩⟩
  have h₀ : (createRuns numLists listLength oneBuffer nodes).Reach System.anyStep c₀ :=
    .start ⟨rfl, fun _ => ⟨rfl, rfl, rfl⟩⟩
  have hturn : ∀ (t : Fin numLists) (s : Host) (c : Conf (Fin numLists) Mem Locals),
      (createRuns numLists listLength oneBuffer nodes).Reach System.anyStep c →
      Same s c.mem → start t (c.loc t) →
      ∃ l m, Alone (createKernel listLength oneBuffer) t (c.loc t) c.mem l m ∧ l.pc = .returned ∧
        Same (Host.create listLength s t) m := by
    rintro t s c hc ⟨hindex, hnodes⟩ ⟨hpc, hj, hnode⟩
    let m₁ : Mem := ⟨c.mem.allocationIndex,
      (c.mem.nodes.setGlobalId (head t) (BitVec.ofNat 32 t)).setPositionInList (head t) 0⟩
    have hhead : Alone (createKernel listLength oneBuffer) t (c.loc t) c.mem
        ((c.loc t).loop listLength 1) m₁ := by
      cases hl : c.loc t with
      | mk pc j pNode pNew =>
        rw [hl] at hpc hj hnode
        cases hpc
        cases hj
        cases hnode
        exact .head rfl (.head rfl (.refl _ _))
    have hreach := (hhead.path c.loc rfl).reach hc
    obtain ⟨l, m, halone, hret, hsame⟩ := alone_extend hlists hsize t rfl
      ⟨s.allocationIndex, head t, m₁.nodes⟩ (c.loc t) m₁ c.loc hreach hnode ⟨hindex, rfl⟩
    refine ⟨l, m, hhead.trans halone, hret, ?_⟩
    simpa only [Host.create, m₁, hnodes] using hsame
  obtain ⟨c, hpath, ⟨-, hnodes⟩, hret, -⟩ := path_sequential hturn (List.finRange numLists)
    (List.nodup_finRange numLists) (s := ⟨numLists, head 0, nodes⟩) h₀
    ⟨by rw [BitVec.toNat_ofNat, Nat.mod_eq_of_lt (by omega)], rfl⟩ fun _ _ => ⟨rfl, rfl, rfl⟩
  refine ⟨c, hpath.reach h₀, fun i => hret i (List.mem_finRange i), ?_⟩
  rw [hnodes, createLinkedLists, ← List.map_coe_finRange_eq_range, List.foldl_map]

/-- **The host creates the lists.** -/
theorem createLinkedLists_lists (hlists : numLists < 2 ^ 31)
    (hsize : listLength * numLists < 2 ^ 31) (nodes : Nodes) :
    Lists numLists listLength (createLinkedLists numLists listLength nodes) := by
  obtain ⟨c, hc, hret, heq⟩ := path_createLinkedLists hlists hsize nodes
  rw [← heq]
  exact create_lists hlists hsize hc hret

end OpenCLCTS.SVM.LinkedLists
