import OpenCLCTS.Lib.Memory
import OpenCLCTS.Lib.Words
import OpenCLCTS.Relationals.Orders

/-!
# The kernels of the shuffle tests

`create_shuffle_kernel` prints the statements of a kernel, one or two for each run.  The templates
are functions of the arguments that are printed into them, in their order; the names of components
stay strings, and are read when a statement is executed.
-/

namespace OpenCLCTS.Relationals

open Memory

abbrev Byte := BitVec 8

/-! ### Statements -/

/-- A vector that is read from a buffer. -/
inductive Expr
  | source (i : ℕ)
  | secondSource (i : ℕ)
  | vload3 (i : ℕ)
  | shuffleFn (e : Expr)
  | castSource (n i : ℕ)

/-- A statement, with the names of the components behind `tmp` and behind the vector. -/
inductive Statement
  | clear (n : ℕ)
  | assign (dest : List Char) (e : Expr) (source : List Char)
  | shuffle (src1 : Expr) (mask : List ℕ)
  | shuffle2 (src1 src2 : Expr) (mask : List ℕ)
  | store (i : ℕ)
  | vstore3 (i : ℕ)

/-- `tmp` and the output buffer; elements have `w` bytes. -/
structure Machine (w : ℕ) where
  tmp : List (BitVec (8 * w))
  dest : ℕ → Byte

/-- The arguments of the kernel, and the sizes of the vectors that its pointers point to. -/
structure KernelArgs where
  source : ℕ → Byte
  secondSource : ℕ → Byte
  sourceSize : ℕ
  destSize : ℕ

section

variable {w : ℕ} (args : KernelArgs)

/-- The vector of `n` elements with number `i` of a buffer. -/
def vector (w : ℕ) (mem : ℕ → Byte) (n i : ℕ) : List (BitVec (8 * w)) :=
  (List.range n).map fun k => load mem w ((i * n + k) * w)

def Expr.eval (w : ℕ) : Expr → List (BitVec (8 * w))
  | .source i => vector w args.source args.sourceSize i
  | .secondSource i => vector w args.secondSource args.sourceSize i
  | .vload3 i => vector w args.source 3 i
  | .shuffleFn e => e.eval w
  | .castSource n i => vector w args.source n i

/-- The components that are named behind a vector; `none` is the vector itself. -/
def readAccess : List Char → Option (Option (List ℕ))
  | [] => some none
  | '.' :: names => (readNames names).map some
  | _ => none

/-- The components of a vector. -/
def select (v : List (BitVec (8 * w))) : Option (List ℕ) → Option (List (BitVec (8 * w)))
  | none => some v
  | some ks => ks.mapM fun k => v[k]?

/-- Assigns to components of `tmp`, none of which is named twice.  A scalar is assigned to all. -/
def assignTo (tmp : List (BitVec (8 * w))) :
    Option (List ℕ) → List (BitVec (8 * w)) → Option (List (BitVec (8 * w)))
  | none, v =>
    if v.length = tmp.length then some v
    else match v with
      | [a] => some (List.replicate tmp.length a)
      | _ => none
  | some ks, v =>
    if ks.Nodup ∧ (∀ k ∈ ks, k < tmp.length) ∧ ks.length = v.length then
      some ((ks.zip v).foldl (fun tmp kv => tmp.set kv.1 kv.2) tmp)
    else none

/-- Stores a vector as the one with number `i` of its size. -/
def Machine.storeTmp (m : Machine w) (n i : ℕ) : Option (Machine w) :=
  if m.tmp.length = n then
    some { m with dest := storeEach n (fun k => m.tmp.getD k 0) m.dest (i * n * w) }
  else none

/-- `shuffle`: the mask counts modulo the size of the vector. -/
def shuffleVec (v : List (BitVec (8 * w))) (mask : List ℕ) : List (BitVec (8 * w)) :=
  mask.map fun k => v.getD (k % v.length) 0

/-- `shuffle2`: the mask counts modulo the size of both vectors. -/
def shuffle2Vec (v v' : List (BitVec (8 * w))) (mask : List ℕ) : List (BitVec (8 * w)) :=
  mask.map fun k => (v ++ v').getD (k % (2 * v.length)) 0

def Statement.exec (s : Statement) (m : Machine w) : Option (Machine w) :=
  match s with
  | .clear n => do
    let tmp ← assignTo m.tmp none (List.replicate n 0)
    some { m with tmp }
  | .assign dest e source => do
    let ds ← readAccess dest
    let ss ← readAccess source
    let v ← select (e.eval args w) ss
    let tmp ← assignTo m.tmp ds v
    some { m with tmp }
  | .shuffle src1 mask => do
    let tmp ← assignTo m.tmp none (shuffleVec (src1.eval args w) mask)
    some { m with tmp }
  | .shuffle2 src1 src2 mask => do
    let tmp ← assignTo m.tmp none (shuffle2Vec (src1.eval args w) (src2.eval args w) mask)
    some { m with tmp }
  | .store i => m.storeTmp args.destSize i
  | .vstore3 i => m.storeTmp 3 i

def execAll (ss : List Statement) (m : Machine w) : Option (Machine w) :=
  ss.foldlM (fun m s => s.exec args m) m

end

/-! ### The templates -/

/-- `clearTempPattern`. -/
def clearTempPattern (outSizeName : ℕ) : List Statement := [.clear outSizeName]

/-- `shuffleSinglePattern`. -/
def shuffleSinglePattern (dot1 order1 : List Char) (i : ℕ) (dot2 order2 : List Char) (k : ℕ) :
    List Statement := [.assign (dot1 ++ order1) (.source i) (dot2 ++ order2), .store k]

/-- `shuffleSinglePatternV3src`. -/
def shuffleSinglePatternV3src (dot1 order1 : List Char) (i : ℕ) (dot2 order2 : List Char) (k : ℕ) :
    List Statement := [.assign (dot1 ++ order1) (.vload3 i) (dot2 ++ order2), .store k]

/-- `shuffleSinglePatternV3dst`. -/
def shuffleSinglePatternV3dst (dot1 order1 : List Char) (i : ℕ) (dot2 order2 : List Char) (k : ℕ) :
    List Statement := [.assign (dot1 ++ order1) (.source i) (dot2 ++ order2), .vstore3 k]

/-- `shuffleSinglePatternV3srcV3dst`. -/
def shuffleSinglePatternV3srcV3dst (dot1 order1 : List Char) (i : ℕ) (dot2 order2 : List Char)
    (k : ℕ) : List Statement :=
  [.assign (dot1 ++ order1) (.vload3 i) (dot2 ++ order2), .vstore3 k]

/-- `shuffleFnPattern`. -/
def shuffleFnPattern (dot1 order1 : List Char) (i : ℕ) (dot2 order2 : List Char) (k : ℕ) :
    List Statement := [.assign (dot1 ++ order1) (.shuffleFn (.source i)) (dot2 ++ order2), .store k]

/-- `shuffleFnPatternV3src`. -/
def shuffleFnPatternV3src (dot1 order1 : List Char) (i : ℕ) (dot2 order2 : List Char) (k : ℕ) :
    List Statement := [.assign (dot1 ++ order1) (.shuffleFn (.vload3 i)) (dot2 ++ order2), .store k]

/-- `shuffleFnPatternV3dst`. -/
def shuffleFnPatternV3dst (dot1 order1 : List Char) (i : ℕ) (dot2 order2 : List Char) (k : ℕ) :
    List Statement :=
  [.assign (dot1 ++ order1) (.shuffleFn (.source i)) (dot2 ++ order2), .vstore3 k]

/-- `shuffleFnPatternV3srcV3dst`. -/
def shuffleFnPatternV3srcV3dst (dot1 order1 : List Char) (i : ℕ) (dot2 order2 : List Char)
    (k : ℕ) : List Statement :=
  [.assign (dot1 ++ order1) (.shuffleFn (.vload3 i)) (dot2 ++ order2), .vstore3 k]

/-- `shuffleBuiltInPattern`, printed twice: first with formats, and then with the numbers. -/
def shuffleBuiltInPattern (src1 : ℕ → Expr) (mask : List ℕ) (dest : ℕ → Statement) (i k : ℕ) :
    List Statement := [.shuffle (src1 i) mask, dest k]

/-- `shuffleBuiltInDualPattern`, printed twice. -/
def shuffleBuiltInDualPattern (src1 src2 : ℕ → Expr) (mask : List ℕ) (dest : ℕ → Statement)
    (i j k : ℕ) : List Statement := [.shuffle2 (src1 i) (src2 j) mask, dest k]

/-! ### `create_shuffle_kernel` -/

/-- `ShuffleMode`. -/
inductive ShuffleMode
  | normal
  | functionCall
  | arrayAccess
  | builtInFn
  | builtInDualInputFn
  deriving DecidableEq

/-- The orders and the lengths of the runs. -/
structure Runs where
  inOrders : ℕ → ShuffleOrder
  outOrders : ℕ → ShuffleOrder
  lengthToUse : ℕ → ℕ

variable (genrand : ℕ → BitVec 32) (mode : ShuffleMode) (inVecSize outVecSize : ℕ) (r : Runs)

/-- The size that a pointer or a cast is printed with; vectors of three elements are packed. -/
def sizeName (vecSize : ℕ) : ℕ := if vecSize = 3 then 1 else vecSize

/-- A dot and an order, or nothing for scalars. -/
def dot (vecSize : ℕ) : List Char := if vecSize > 1 then ['.'] else []

def dotOrder (vecSize : ℕ) (order : List Char) : List Char := if vecSize > 1 then order else []

/-- The lines of the first two modes. -/
def shuffleLines (v3srcV3dst v3src v3dst single :
    (dot1 order1 : List Char) → ℕ → (dot2 order2 : List Char) → ℕ → List Statement)
    (shuffledOrder inOrder : List Char) (i : ℕ) : List Statement :=
  let pattern :=
    if outVecSize = 3 ∧ inVecSize = 3 then v3srcV3dst
    else if inVecSize = 3 then v3src
    else if outVecSize = 3 then v3dst
    else single
  pattern (dot outVecSize) (dotOrder outVecSize shuffledOrder) i (dot inVecSize)
    (dotOrder inVecSize inOrder) i

/-- The lines of the array mode, one for each of the items. -/
def arrayLines (i : ℕ) : List ℕ → Names (List Statement)
  | [] => pure []
  | item :: items => do
    let absoluteIndex := i * inVecSize + r.inOrders i item
    let castVectorIndex := absoluteIndex / 16
    let castElementIndex := absoluteIndex % 16
    let inOrder ← getOrderString genrand (fun _ => castElementIndex) 1 1
    let shuffledOrder ← getOrderString genrand (fun _ => r.outOrders i item) 1 1
    let lines ← arrayLines i items
    pure (.assign (dot outVecSize ++ dotOrder outVecSize shuffledOrder)
      (.castSource 16 castVectorIndex) (dot 16 ++ dotOrder 16 inOrder) :: lines)

/-- `generate_shuffle_mask`. -/
def generateShuffleMask (maskSize : ℕ) (order : ShuffleOrder) : List ℕ :=
  (List.range maskSize).map order

/-- The statements of one run.  Built-in functions are left out for scalars and for three
elements. -/
def createShuffleRun (i : ℕ) : Names (List Statement) := do
  let inOrder ← getOrderString genrand (r.inOrders i) inVecSize (r.lengthToUse i)
  let shuffledOrder ← getOrderString genrand (r.outOrders i) outVecSize (r.lengthToUse i)
  let clear := clearTempPattern (sizeName outVecSize)
  match mode with
  | .normal =>
    pure (clear ++ shuffleLines inVecSize outVecSize shuffleSinglePatternV3srcV3dst
      shuffleSinglePatternV3src shuffleSinglePatternV3dst shuffleSinglePattern shuffledOrder inOrder
      i)
  | .functionCall =>
    pure (clear ++ shuffleLines inVecSize outVecSize shuffleFnPatternV3srcV3dst
      shuffleFnPatternV3src shuffleFnPatternV3dst shuffleFnPattern shuffledOrder inOrder i)
  | .arrayAccess => do
    let lines ← arrayLines genrand inVecSize outVecSize r i (List.range (r.lengthToUse i))
    pure (clear ++ lines ++ [if outVecSize = 3 then .vstore3 i else .store i])
  | .builtInFn =>
    if inVecSize = 3 ∨ outVecSize = 3 ∨ inVecSize = 1 ∨ outVecSize = 1 then pure clear
    else
      let maskString := generateShuffleMask outVecSize (r.outOrders i)
      pure (clear ++ shuffleBuiltInPattern (if inVecSize = 3 then Expr.vload3 else Expr.source)
        maskString (if outVecSize = 3 then Statement.vstore3 else Statement.store) i i)
  | .builtInDualInputFn =>
    if inVecSize = 3 ∨ outVecSize = 3 ∨ inVecSize = 1 ∨ outVecSize = 1 then pure clear
    else
      let maskString := generateShuffleMask outVecSize (r.outOrders i)
      pure (clear ++ shuffleBuiltInDualPattern (if inVecSize = 3 then Expr.vload3 else Expr.source)
        Expr.secondSource maskString
        (if outVecSize = 3 then Statement.vstore3 else Statement.store) i i i)

/-- The statements of runs. -/
def createShuffleRuns : List ℕ → Names (List Statement)
  | [] => pure []
  | i :: is => do
    let lines ← createShuffleRun genrand mode inVecSize outVecSize r i
    let rest ← createShuffleRuns is
    pure (lines ++ rest)

/-- `create_shuffle_kernel`: the body of the kernel. -/
def createShuffleKernel (numOrders : ℕ) : Names (List Statement) :=
  createShuffleRuns genrand mode inVecSize outVecSize r (List.range numOrders)

end OpenCLCTS.Relationals
