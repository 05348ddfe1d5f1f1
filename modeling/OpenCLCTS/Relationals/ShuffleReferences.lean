import OpenCLCTS.Lib.Layout
import OpenCLCTS.Lib.Memory
import OpenCLCTS.Lib.Words
import OpenCLCTS.Relationals.ShuffleKernel

/-!
# What the shuffle tests expect

`test_shuffle_dual_kernel` copies elements byte by byte, with pointers that are moved from element
to element.  Over it stand vectors as functions of the component: `shuffled` assigns components
one after the other.

`expected_elements`: **the elements of the expected bytes are those of the shuffled vector.**
-/

namespace OpenCLCTS.Relationals

open Memory Loops

/-! ### Lengths -/

/-- `vecSizes` of `test_shuffle_random`. -/
def vecSizes : List ℕ := [1, 2, 3, 4, 8, 16]

/-- `NUM_TESTS`. -/
def numTests : ℕ := 32

/-- `mLengthToUse[i]`, set by the constructor of `shuffleBuffer`. -/
def lengthToUse (mode : ShuffleMode) (inVecSize outVecSize i : ℕ) : ℕ :=
  let maxSize := if inVecSize < outVecSize then inVecSize else outVecSize
  if mode = .builtInFn ∨ mode = .builtInDualInputFn then outVecSize
  else
    -- `i / NUM_TESTS` is exact in double precision, and the cast truncates
    let length := i * maxSize / numTests + 1
    if length = 1 then 1
    else if length < 4 then 2
    else if length < 8 then 4
    else if length < 16 then 8
    else 16

/-! ### The references -/

section

variable (typeSize : ℕ) (order : ShuffleOrder)

/-- `shuffleVector`; the pointers are `inVector` and `outVector`. -/
def shuffleVector (inData : ℕ → Byte) (inVector : ℕ) (out : ℕ → Byte) (lengthToUse : ℕ) :
    ℕ → Byte :=
  ((List.range' 0 lengthToUse).foldl (fun (p : Pointers Byte) i =>
    let inPtr := p.src + typeSize * order i
    ⟨p.src, p.dest + typeSize, memcpy inData inPtr typeSize p.mem p.dest⟩) ⟨inVector, 0, out⟩).mem

/-- `shuffleVector2`. -/
def shuffleVector2 (inData : ℕ → Byte) (inVector : ℕ) (out : ℕ → Byte) (lengthToUse : ℕ) :
    ℕ → Byte :=
  ((List.range' 0 lengthToUse).foldl (fun (p : Pointers Byte) i =>
    let outPtr := p.dest + typeSize * order i
    ⟨p.src + typeSize, p.dest, memcpy inData p.src typeSize p.mem outPtr⟩) ⟨inVector, 0, out⟩).mem

/-- `shuffleVectorDual`. -/
def shuffleVectorDual (inData inSecondData : ℕ → Byte) (inVector : ℕ) (out : ℕ → Byte)
    (vecSize lengthToUse : ℕ) : ℕ → Byte :=
  let uphalfMask := vecSize
  let lowerBits := vecSize - 1
  ((List.range' 0 lengthToUse).foldl (fun (p : Pointers Byte) i =>
    let inPtr := p.src + typeSize * (order i &&& lowerBits)
    let inVector := if order i &&& uphalfMask ≠ 0 then inSecondData else inData
    ⟨p.src, p.dest + typeSize, memcpy inVector inPtr typeSize p.mem p.dest⟩) ⟨inVector, 0, out⟩).mem

end

variable (w : ℕ) (mode : ShuffleMode) (inVecSize outVecSize : ℕ) (r : Runs)
  (inData inSecondData : ℕ → Byte)

/-- `expected` of run `i` in `test_shuffle_dual_kernel`. -/
def expected (i : ℕ) : ℕ → Byte :=
  let inDataPtr := i * (inVecSize * w)
  let zeros : ℕ → Byte := fun _ => 0
  match mode with
  | .builtInFn => shuffleVector w (r.outOrders i) inData inDataPtr zeros (r.lengthToUse i)
  | .builtInDualInputFn =>
    shuffleVectorDual w (r.outOrders i) inData inSecondData inDataPtr zeros inVecSize
      (r.lengthToUse i)
  | _ =>
    let temp := shuffleVector w (r.inOrders i) inData inDataPtr zeros (r.lengthToUse i)
    shuffleVector2 w (r.outOrders i) temp 0 zeros (r.lengthToUse i)

/-! ### Shuffled vectors -/

section

/-- The components `dest k` of a cleared vector are assigned, one after the other. -/
def shuffled {w : ℕ} (dest : ℕ → ℕ) (val : ℕ → BitVec (8 * w)) (length : ℕ) :
    ℕ → BitVec (8 * w) :=
  (List.range length).foldl (fun t k => Function.update t (dest k) (val k)) fun _ => 0

variable {w : ℕ}

theorem shuffled_succ (dest : ℕ → ℕ) (val : ℕ → BitVec (8 * w)) (length : ℕ) :
    shuffled dest val (length + 1)
      = Function.update (shuffled dest val length) (dest length) (val length) := by
  rw [shuffled, shuffled, List.range_succ, List.foldl_append]
  rfl

theorem shuffled_congr {dest : ℕ → ℕ} {val val' : ℕ → BitVec (8 * w)} {length : ℕ}
    (h : ∀ k < length, val k = val' k) : shuffled dest val length = shuffled dest val' length := by
  induction length with
  | zero => rfl
  | succ length ih =>
    rw [shuffled_succ, shuffled_succ, ih fun k hk => h k (Nat.lt_succ_of_lt hk),
      h length (Nat.lt_succ_self length)]

theorem shuffled_id {val : ℕ → BitVec (8 * w)} {length k : ℕ} (hk : k < length) :
    shuffled id val length k = val k := by
  induction length with
  | zero => exact absurd hk (Nat.not_lt_zero k)
  | succ length ih =>
    rw [shuffled_succ]
    rcases Nat.lt_succ_iff_lt_or_eq.mp hk with hlt | rfl
    · rw [Function.update_of_ne (show k ≠ id length from hlt.ne), ih hlt]
    · exact Function.update_self ..

end

/-- The element of run `i` with number `k`. -/
def element (w : ℕ) (mem : ℕ → Byte) (n i k : ℕ) : BitVec (8 * w) := load mem w ((i * n + k) * w)

/-- What the components of `tmp` are in run `i`. -/
def shuffledRun (i : ℕ) : ℕ → BitVec (8 * w) :=
  match mode with
  | .builtInFn =>
    shuffled id (fun k => element w inData inVecSize i (r.outOrders i k)) (r.lengthToUse i)
  | .builtInDualInputFn =>
    shuffled id (fun k =>
      element w (if r.outOrders i k &&& inVecSize ≠ 0 then inSecondData else inData) inVecSize i
        (r.outOrders i k &&& (inVecSize - 1))) (r.lengthToUse i)
  | _ =>
    shuffled (r.outOrders i) (fun k => element w inData inVecSize i (r.inOrders i k))
      (r.lengthToUse i)

/-! ### The references shuffle -/

/-- The elements of a memory, from its start on. -/
def Holds {w : ℕ} (mem : ℕ → Byte) (t : ℕ → BitVec (8 * w)) : Prop :=
  ∀ j, load mem w (j * w) = t j

variable {w mode inVecSize outVecSize r inData inSecondData}

theorem Holds.zeros : Holds (w := w) (fun _ => 0) fun _ => 0 := by
  intro j
  apply BitVec.eq_of_getLsbD_eq
  intro i hi
  rw [getLsbD_load hi]
  simp

/-- **Copying an element updates it.** -/
theorem Holds.memcpy {mem : ℕ → Byte} {t : ℕ → BitVec (8 * w)} (h : Holds mem t) (src : ℕ → Byte)
    (s k : ℕ) :
    Holds (memcpy src s w mem (k * w)) (Function.update t k (load src w s)) := by
  intro j
  rcases eq_or_ne j k with rfl | hne
  · rw [Function.update_self]
    exact load_congr fun o ho => memcpy_add ho
  · rw [Function.update_of_ne hne, ← h j]
    refine load_congr fun o ho => memcpy_of_ne fun o' ho' he => hne ?_
    exact (Layout.digits_unique ho ho' he).1

/-- **The loop that copies one element in each turn**, with pointers `src` and `dest` in turn `k`,
shuffles the elements. -/
theorem holds_foldl (f : Pointers Byte → ℕ → Pointers Byte) (src dest target : ℕ → ℕ)
    (val : ℕ → BitVec (8 * w)) (length : ℕ)
    (hf : ∀ k < length, ∀ mem, ∃ data s, load data w s = val k ∧
      f ⟨src k, dest k, mem⟩ k
        = ⟨src (k + 1), dest (k + 1), memcpy data s w mem (target k * w)⟩) :
    Holds ((List.range' 0 length).foldl f ⟨src 0, dest 0, fun _ => 0⟩).mem
      (shuffled target val length) := by
  have hloop := foldl_invariant (f := f)
    (I := fun k p => p.src = src k ∧ p.dest = dest k ∧ Holds p.mem (shuffled target val k)) (a := 0)
    (n := length) ?_ (s := ⟨src 0, dest 0, fun _ => 0⟩) ⟨rfl, rfl, .zeros⟩
  · rw [Nat.zero_add] at hloop
    exact hloop.2.2
  · intro k p _ hk hp
    obtain ⟨_, _, mem⟩ := p
    obtain ⟨rfl, rfl, hmem⟩ := hp
    obtain ⟨data, s, hs, hturn⟩ := hf k (by omega) mem
    rw [hturn, shuffled_succ, ← hs]
    exact ⟨rfl, rfl, hmem.memcpy data s (target k)⟩

theorem holds_shuffleVector (w : ℕ) (order : ShuffleOrder) (data : ℕ → Byte)
    (inVector length : ℕ) :
    Holds (shuffleVector w order data inVector (fun _ => 0) length)
      (shuffled id (fun k => load data w (inVector + w * order k)) length) := by
  have hloop := holds_foldl
    (fun p i => ⟨p.src, p.dest + w, memcpy data (p.src + w * order i) w p.mem p.dest⟩)
    (fun _ => inVector) (fun k => k * w) id (fun k => load data w (inVector + w * order k)) length
    ?_
  · rwa [Nat.zero_mul] at hloop
  · intro k _ mem
    refine ⟨data, inVector + w * order k, rfl, ?_⟩
    rw [Nat.succ_mul]
    rfl

theorem holds_shuffleVector2 (w : ℕ) (order : ShuffleOrder) (data : ℕ → Byte)
    (inVector length : ℕ) :
    Holds (shuffleVector2 w order data inVector (fun _ => 0) length)
      (shuffled order (fun k => load data w (inVector + k * w)) length) := by
  have hloop := holds_foldl
    (fun p i => ⟨p.src + w, p.dest, memcpy data p.src w p.mem (p.dest + w * order i)⟩)
    (fun k => inVector + k * w) (fun _ => 0) order (fun k => load data w (inVector + k * w)) length
    ?_
  · rwa [Nat.zero_mul] at hloop
  · intro k _ mem
    refine ⟨data, inVector + k * w, rfl, ?_⟩
    rw [Nat.succ_mul, Nat.mul_comm (order k), ← Nat.add_assoc, Nat.zero_add]

theorem holds_shuffleVectorDual (w : ℕ) (order : ShuffleOrder) (data second : ℕ → Byte)
    (inVector vecSize length : ℕ) :
    Holds (shuffleVectorDual w order data second inVector (fun _ => 0) vecSize length)
      (shuffled id (fun k => load (if order k &&& vecSize ≠ 0 then second else data) w
        (inVector + w * (order k &&& (vecSize - 1)))) length) := by
  have hloop := holds_foldl
    (fun p i => ⟨p.src, p.dest + w, memcpy (if order i &&& vecSize ≠ 0 then second else data)
      (p.src + w * (order i &&& (vecSize - 1))) w p.mem p.dest⟩)
    (fun _ => inVector) (fun k => k * w) id
    (fun k => load (if order k &&& vecSize ≠ 0 then second else data) w
      (inVector + w * (order k &&& (vecSize - 1)))) length ?_
  · rwa [Nat.zero_mul] at hloop
  · intro k _ mem
    refine ⟨_, _, rfl, ?_⟩
    rw [Nat.succ_mul]
    rfl

theorem load_element (mem : ℕ → Byte) (w n i k : ℕ) :
    load mem w (i * (n * w) + w * k) = element w mem n i k := by
  rw [element, Nat.add_mul, Nat.mul_assoc, Nat.mul_comm k]

/-- **The elements of the expected bytes are those of the shuffled vector.** -/
theorem expected_elements (i : ℕ) :
    Holds (expected w mode inVecSize r inData inSecondData i)
      (shuffledRun w mode inVecSize r inData inSecondData i) := by
  have htemp := holds_shuffleVector w (r.inOrders i) inData (i * (inVecSize * w)) (r.lengthToUse i)
  have htwice := holds_shuffleVector2 w (r.outOrders i) (shuffleVector w (r.inOrders i) inData
    (i * (inVecSize * w)) (fun _ => 0) (r.lengthToUse i)) 0 (r.lengthToUse i)
  -- the second step finds the elements where the first one left them
  rw [shuffled_congr fun k hk => (by rw [Nat.zero_add, htemp k, shuffled_id hk] :
    load _ w (0 + k * w) = load inData w (i * (inVecSize * w) + w * r.inOrders i k))] at htwice
  have honce := holds_shuffleVector w (r.outOrders i) inData (i * (inVecSize * w)) (r.lengthToUse i)
  have hdual := holds_shuffleVectorDual w (r.outOrders i) inData inSecondData
    (i * (inVecSize * w)) inVecSize (r.lengthToUse i)
  simp only [load_element] at htwice honce hdual
  cases mode with
  | normal => exact htwice
  | functionCall => exact htwice
  | arrayAccess => exact htwice
  | builtInFn => exact honce
  | builtInDualInputFn => exact hdual

end OpenCLCTS.Relationals
