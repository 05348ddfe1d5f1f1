import Mathlib.Data.List.GetD
import Mathlib.Data.Nat.Bitwise
import OpenCLCTS.Relationals.ShuffleReferences

/-!
# The shuffle kernels and the references

`exec_createShuffleRun`: **one run of the kernel stores the shuffled vector**, whatever the names
of the components are.  `shuffles_agree`: **after the kernel every slot has the bytes that the
references expect.**
-/

namespace OpenCLCTS.Relationals

open Memory Loops

variable {w : ℕ}

/-! ### Steps on `tmp` -/

/-- `tmp` with the components of a function. -/
def components (n : ℕ) (t : ℕ → BitVec (8 * w)) : List (BitVec (8 * w)) := (List.range n).map t

theorem length_components (n : ℕ) (t : ℕ → BitVec (8 * w)) : (components n t).length = n := by
  rw [components, List.length_map, List.length_range]

theorem getD_components {n k : ℕ} (t : ℕ → BitVec (8 * w)) (hk : k < n) :
    (components n t).getD k 0 = t k := by
  rw [components, List.getD_eq_getElem?_getD, List.getElem?_map, List.getElem?_range hk]
  rfl

theorem set_components (n k : ℕ) (t : ℕ → BitVec (8 * w)) (a : BitVec (8 * w)) :
    (components n t).set k a = components n (Function.update t k a) := by
  apply List.ext_getElem
  · rw [List.length_set, length_components, length_components]
  · intro j _ _
    simp only [components, List.getElem_set, List.getElem_map, List.getElem_range]
    rcases eq_or_ne k j with rfl | hne
    · rw [if_pos rfl, Function.update_self]
    · rw [if_neg hne, Function.update_of_ne hne.symm]

theorem foldl_set_components (n : ℕ) (dest : ℕ → ℕ) (val : ℕ → BitVec (8 * w)) (ks : List ℕ)
    (t : ℕ → BitVec (8 * w)) :
    ((ks.map dest).zip (ks.map val)).foldl (fun tmp kv => tmp.set kv.1 kv.2) (components n t)
      = components n (ks.foldl (fun t k => Function.update t (dest k) (val k)) t) := by
  induction ks generalizing t with
  | nil => rfl
  | cons k ks ih =>
    rw [List.map_cons, List.map_cons, List.zip_cons_cons, List.foldl_cons, List.foldl_cons,
      set_components, ih]

/-- The components behind a vector, if it is not a scalar. -/
def access (n : ℕ) (ks : List ℕ) : Option (List ℕ) := if n > 1 then some ks else none

theorem readAccess_dot {n : ℕ} {cs : List Char} {ks : List ℕ} (h : readNames cs = some ks) :
    readAccess (dot n ++ dotOrder n cs) = some (access n ks) := by
  unfold dot dotOrder access
  split
  · rw [List.singleton_append, readAccess, h]
    rfl
  · rfl

/-- The orders are components of a vector of `n` elements. -/
def Fits (n length : ℕ) (order : ShuffleOrder) : Prop :=
  length ≤ n ∧ ∀ j < length, order j < n

/-- **The components of a vector in a buffer.** -/
theorem select_vector {n length : ℕ} {order : ShuffleOrder} (h : Fits n length order)
    (hpos : 0 < length) (mem : ℕ → Byte) (i : ℕ) :
    select (vector w mem n i) (access n ((List.range length).map order))
      = some ((List.range length).map fun k => element w mem n i (order k)) := by
  obtain ⟨hle, hlt⟩ := h
  rw [access]
  split
  · rw [select, List.mapM_map]
    apply mapM_eq_some
    intro k hk
    show (vector w mem n i)[order k]? = _
    rw [vector, List.getElem?_map, List.getElem?_range (hlt k (List.mem_range.mp hk))]
    rfl
  · -- a scalar is its only component
    obtain rfl : length = 1 := by omega
    obtain rfl : n = 1 := by omega
    have h0 : order 0 = 0 := Nat.lt_one_iff.mp (hlt 0 hpos)
    show some [element w mem 1 i 0] = some [element w mem 1 i (order 0)]
    rw [h0]

/-- No component is named twice. -/
def Distinct (length : ℕ) (order : ShuffleOrder) : Prop :=
  ∀ j < length, ∀ k < length, order j = order k → j = k

/-- **The components of `tmp` are assigned.** -/
theorem assignTo_components {n length : ℕ} {order : ShuffleOrder} (h : Fits n length order)
    (hpos : 0 < length) (hdistinct : Distinct length order) (t val : ℕ → BitVec (8 * w)) :
    assignTo (components n t) (access n ((List.range length).map order))
      ((List.range length).map val)
      = some (components n
        ((List.range length).foldl (fun t k => Function.update t (order k) (val k)) t)) := by
  obtain ⟨hle, hlt⟩ := h
  rw [access]
  split
  · have hnodup : ((List.range length).map order).Nodup := by
      apply List.Nodup.map_on _ List.nodup_range
      intro j hj k hk
      exact hdistinct j (List.mem_range.mp hj) k (List.mem_range.mp hk)
    have hinside : ∀ k ∈ (List.range length).map order, k < (components n t).length := by
      intro k hk
      obtain ⟨j, hj, rfl⟩ := List.mem_map.mp hk
      rw [length_components]
      exact hlt j (List.mem_range.mp hj)
    rw [assignTo, if_pos ⟨hnodup, hinside, by rw [List.length_map, List.length_map]⟩,
      foldl_set_components]
  · -- a scalar is assigned as a whole
    obtain rfl : length = 1 := by omega
    obtain rfl : n = 1 := by omega
    have h0 : order 0 = 0 := Nat.lt_one_iff.mp (hlt 0 hpos)
    show some [val 0] = some [Function.update t (order 0) (val 0) 0]
    rw [h0, Function.update_self]

theorem assignTo_clear {n : ℕ} {tmp : List (BitVec (8 * w))} (htmp : tmp.length = n) :
    assignTo tmp none (List.replicate (sizeName n) 0) = some (components n fun _ => 0) := by
  have hzeros : components n (fun _ => (0 : BitVec (8 * w))) = List.replicate n 0 := by
    rw [components, List.map_const', List.length_range]
  rw [hzeros]
  by_cases h3 : n = 3
  · subst h3
    show (if 1 = tmp.length then _ else some (List.replicate tmp.length 0)) = _
    rw [htmp]
    rfl
  · rw [sizeName, if_neg h3]
    exact if_pos (by rw [htmp, List.length_replicate])

/-! ### Statements -/

/-- The arguments of a kernel for vectors of these sizes. -/
def kernelArgs (source secondSource : ℕ → Byte) (inVecSize outVecSize : ℕ) : KernelArgs :=
  ⟨source, secondSource, sizeName inVecSize, sizeName outVecSize⟩

/-- The output after a vector was stored with number `i`. -/
def stored (n : ℕ) (t : ℕ → BitVec (8 * w)) (dest : ℕ → Byte) (i : ℕ) : ℕ → Byte :=
  storeEach n (fun k => (components n t).getD k 0) dest (i * n * w)

theorem element_stored {n k : ℕ} (t : ℕ → BitVec (8 * w)) (dest : ℕ → Byte) (i : ℕ) (hk : k < n) :
    element w (stored n t dest i) n i k = t k := by
  rw [element, stored, Nat.add_mul, load_storeEach hk, getD_components t hk]

theorem stored_of_outside {n b i : ℕ} {t : ℕ → BitVec (8 * w)} {dest : ℕ → Byte}
    (h : b < i * n * w ∨ (i + 1) * n * w ≤ b) : stored n t dest i b = dest b := by
  apply storeEach_of_outside
  rwa [← Nat.add_mul, ← Nat.succ_mul]

/-- The statement that stores `tmp`. -/
def storeStatement (outVecSize i : ℕ) : Statement :=
  if outVecSize = 3 then .vstore3 i else .store i

/-- The vector of run `i`. -/
def sourceExpr (inVecSize i : ℕ) : Expr := if inVecSize = 3 then .vload3 i else .source i

section

variable {source secondSource : ℕ → Byte} {inVecSize outVecSize : ℕ}

theorem execAll_append (args : KernelArgs) (ss ss' : List Statement) (m : Machine w) :
    execAll args (ss ++ ss') m = (execAll args ss m).bind (execAll args ss') :=
  List.foldlM_append ..

theorem eval_source (hin : inVecSize ≠ 3) (i : ℕ) :
    (Expr.source i).eval (kernelArgs source secondSource inVecSize outVecSize) w
      = vector w source inVecSize i := by
  rw [Expr.eval, kernelArgs, sizeName, if_neg hin]

theorem eval_secondSource (hin : inVecSize ≠ 3) (i : ℕ) :
    (Expr.secondSource i).eval (kernelArgs source secondSource inVecSize outVecSize) w
      = vector w secondSource inVecSize i := by
  rw [Expr.eval, kernelArgs, sizeName, if_neg hin]

theorem eval_sourceExpr (i : ℕ) :
    (sourceExpr inVecSize i).eval (kernelArgs source secondSource inVecSize outVecSize) w
      = vector w source inVecSize i := by
  unfold sourceExpr
  split
  · rename_i h3
    rw [Expr.eval, h3]
    rfl
  · exact eval_source (by assumption) i

theorem exec_clear {args : KernelArgs} {m : Machine w} (htmp : m.tmp.length = outVecSize) :
    execAll args (clearTempPattern (sizeName outVecSize)) m
      = some ⟨components outVecSize fun _ => 0, m.dest⟩ := by
  rw [execAll, clearTempPattern, List.foldlM_cons, Statement.exec, assignTo_clear htmp]
  rfl

theorem exec_storeStatement (t : ℕ → BitVec (8 * w)) (dest : ℕ → Byte) (i : ℕ) :
    execAll (kernelArgs source secondSource inVecSize outVecSize) [storeStatement outVecSize i]
        ⟨components outVecSize t, dest⟩
      = some ⟨components outVecSize t, stored outVecSize t dest i⟩ := by
  have hstore : Machine.storeTmp ⟨components outVecSize t, dest⟩ outVecSize i
      = some ⟨components outVecSize t, stored outVecSize t dest i⟩ :=
    if_pos (length_components outVecSize t)
  have hexec : (storeStatement outVecSize i).exec
      (kernelArgs source secondSource inVecSize outVecSize) ⟨components outVecSize t, dest⟩
      = Machine.storeTmp ⟨components outVecSize t, dest⟩ outVecSize i := by
    unfold storeStatement
    split
    · rename_i h3
      rw [Statement.exec, h3]
    · rename_i h3
      have hsize : (kernelArgs source secondSource inVecSize outVecSize).destSize = outVecSize :=
        if_neg h3
      rw [Statement.exec, hsize]
  rw [execAll, List.foldlM_cons, hexec, hstore]
  rfl

/-- **Components of a vector are assigned to components of `tmp`.** -/
theorem exec_assign {args : KernelArgs} {e : Expr} {mem : ℕ → Byte} {n j length : ℕ}
    {inOrder outOrder : ShuffleOrder} {cs ds : List Char} (he : e.eval args w = vector w mem n j)
    (hpos : 0 < length) (hin : Fits n length inOrder) (hout : Fits outVecSize length outOrder)
    (hdistinct : Distinct length outOrder)
    (hcs : readNames cs = some ((List.range length).map inOrder))
    (hds : readNames ds = some ((List.range length).map outOrder)) (t : ℕ → BitVec (8 * w))
    (dest : ℕ → Byte) :
    Statement.exec args (.assign (dot outVecSize ++ dotOrder outVecSize ds) e
        (dot n ++ dotOrder n cs)) ⟨components outVecSize t, dest⟩
      = some ⟨components outVecSize ((List.range length).foldl (fun t k =>
        Function.update t (outOrder k) (element w mem n j (inOrder k))) t), dest⟩ := by
  rw [Statement.exec, readAccess_dot hcs, readAccess_dot hds, he]
  simp only [Option.bind_eq_bind, Option.bind_some, select_vector hin hpos,
    assignTo_components hout hpos hdistinct]

/-! ### The lines of a run -/

/-- A template that assigns components of `load i` and stores with `store k`. -/
def Assigns (load : ℕ → Expr) (store : ℕ → Statement)
    (pattern : (dot1 order1 : List Char) → ℕ → (dot2 order2 : List Char) → ℕ → List Statement) :
    Prop :=
  ∀ dot1 order1 i dot2 order2 k,
    pattern dot1 order1 i dot2 order2 k
      = [.assign (dot1 ++ order1) (load i) (dot2 ++ order2), store k]

/-- **The lines of both modes with swizzles**, with what is printed around the vector. -/
theorem shuffleLines_eq (wrap : Expr → Expr)
    {v3srcV3dst v3src v3dst single :
      (dot1 order1 : List Char) → ℕ → (dot2 order2 : List Char) → ℕ → List Statement}
    (hboth : Assigns (fun i => wrap (.vload3 i)) .vstore3 v3srcV3dst)
    (hsrc : Assigns (fun i => wrap (.vload3 i)) .store v3src)
    (hdst : Assigns (fun i => wrap (.source i)) .vstore3 v3dst)
    (hsingle : Assigns (fun i => wrap (.source i)) .store single)
    (shuffledOrder inOrder : List Char) (i : ℕ) :
    shuffleLines inVecSize outVecSize v3srcV3dst v3src v3dst single shuffledOrder inOrder i
      = [.assign (dot outVecSize ++ dotOrder outVecSize shuffledOrder)
          (wrap (sourceExpr inVecSize i)) (dot inVecSize ++ dotOrder inVecSize inOrder),
          storeStatement outVecSize i] := by
  unfold shuffleLines sourceExpr storeStatement
  by_cases hin : inVecSize = 3
  · by_cases hout : outVecSize = 3
    · simp only [hin, hout, and_self, if_true, hboth _ _ _ _ _ _]
    · simp only [hin, hout, false_and, if_true, if_false, hsrc _ _ _ _ _ _]
  · by_cases hout : outVecSize = 3
    · simp only [hin, hout, and_false, if_true, if_false, hdst _ _ _ _ _ _]
    · simp only [hin, hout, and_self, if_false, hsingle _ _ _ _ _ _]

theorem shuffleLines_single (shuffledOrder inOrder : List Char) (i : ℕ) :
    shuffleLines inVecSize outVecSize shuffleSinglePatternV3srcV3dst shuffleSinglePatternV3src
        shuffleSinglePatternV3dst shuffleSinglePattern shuffledOrder inOrder i
      = [.assign (dot outVecSize ++ dotOrder outVecSize shuffledOrder) (sourceExpr inVecSize i)
          (dot inVecSize ++ dotOrder inVecSize inOrder), storeStatement outVecSize i] :=
  shuffleLines_eq id (fun _ _ _ _ _ _ => rfl) (fun _ _ _ _ _ _ => rfl) (fun _ _ _ _ _ _ => rfl)
    (fun _ _ _ _ _ _ => rfl) shuffledOrder inOrder i

theorem shuffleLines_fn (shuffledOrder inOrder : List Char) (i : ℕ) :
    shuffleLines inVecSize outVecSize shuffleFnPatternV3srcV3dst shuffleFnPatternV3src
        shuffleFnPatternV3dst shuffleFnPattern shuffledOrder inOrder i
      = [.assign (dot outVecSize ++ dotOrder outVecSize shuffledOrder)
          (.shuffleFn (sourceExpr inVecSize i)) (dot inVecSize ++ dotOrder inVecSize inOrder),
          storeStatement outVecSize i] :=
  shuffleLines_eq .shuffleFn (fun _ _ _ _ _ _ => rfl) (fun _ _ _ _ _ _ => rfl)
    (fun _ _ _ _ _ _ => rfl) (fun _ _ _ _ _ _ => rfl) shuffledOrder inOrder i

variable {genrand : ℕ → BitVec 32} {r : Runs} {i : ℕ}

/-- **The items of the array mode**: the buffer is cut into vectors of 16 elements. -/
theorem exec_arrayLines (w : ℕ) (source secondSource : ℕ → Byte) (h16 : outVecSize ≤ 16)
    (hpos : 0 < outVecSize) (items : List ℕ) (hitems : ∀ k ∈ items, r.outOrders i k < outVecSize) :
    Always (arrayLines genrand inVecSize outVecSize r i items) fun ss =>
      ∀ (t : ℕ → BitVec (8 * w)) dest,
        execAll (kernelArgs source secondSource inVecSize outVecSize) ss
            ⟨components outVecSize t, dest⟩
          = some ⟨components outVecSize (items.foldl (fun t k => Function.update t (r.outOrders i k)
            (element w source inVecSize i (r.inOrders i k))) t), dest⟩ := by
  induction items with
  | nil => exact .pure fun t dest => rfl
  | cons item items ih =>
    have hitem := hitems item List.mem_cons_self
    have hmod := Nat.mod_lt (i * inVecSize + r.inOrders i item) (by decide : 16 > 0)
    refine (reads_getOrderString le_rfl fun _ _ => hmod).bind ?_
    intro inOrder hcs
    refine (reads_getOrderString le_rfl fun _ _ => hitem.trans_le h16).bind ?_
    intro order hds
    refine (ih fun k hk => hitems k (List.mem_cons_of_mem _ hk)).bind fun lines hlines => .pure ?_
    intro t dest
    have hcast : (Expr.castSource 16 ((i * inVecSize + r.inOrders i item) / 16)).eval
        (kernelArgs source secondSource inVecSize outVecSize) w
        = vector w source 16 ((i * inVecSize + r.inOrders i item) / 16) := rfl
    have hassign := exec_assign hcast Nat.one_pos ⟨by decide, fun _ _ => hmod⟩
      ⟨hpos, fun _ _ => hitem⟩ (fun j hj k hk _ => by omega) hcs hds t dest
    have helement : element w source 16 ((i * inVecSize + r.inOrders i item) / 16)
        ((i * inVecSize + r.inOrders i item) % 16)
        = element w source inVecSize i (r.inOrders i item) := by
      rw [element, Nat.div_add_mod']
      rfl
    rw [execAll, List.foldlM_cons, hassign]
    simp only [List.range_one, List.foldl_cons, List.foldl_nil, helement]
    exact hlines (Function.update t (r.outOrders i item)
      (element w source inVecSize i (r.inOrders i item))) dest

/-! ### The built-in functions -/

theorem getD_vector {n k : ℕ} (mem : ℕ → Byte) (i : ℕ) (hk : k < n) :
    (vector w mem n i).getD k 0 = element w mem n i k := getD_components _ hk

/-- **`shuffle`**, if its mask counts in the vector. -/
theorem shuffleVec_vector {order : ShuffleOrder} (horder : ∀ k < outVecSize, order k < inVecSize)
    (i : ℕ) :
    shuffleVec (vector w source inVecSize i) (generateShuffleMask outVecSize order)
      = components outVecSize
        (shuffled id (fun k => element w source inVecSize i (order k)) outVecSize) := by
  rw [shuffleVec, generateShuffleMask, List.map_map, components]
  apply List.map_congr_left
  intro k hk
  rw [List.mem_range] at hk
  have hlength : (vector w source inVecSize i).length = inVecSize := length_components ..
  rw [Function.comp_apply, hlength, Nat.mod_eq_of_lt (horder k hk),
    getD_vector source i (horder k hk), shuffled_id hk]

/-- The bits of an index that counts in two vectors. -/
theorem dual_index (e m : ℕ) :
    m &&& (2 ^ e - 1) = m % 2 ^ e ∧
      m % (2 * 2 ^ e) = m % 2 ^ e + if m &&& 2 ^ e ≠ 0 then 2 ^ e else 0 := by
  refine ⟨Nat.and_two_pow_sub_one_eq_mod m e, ?_⟩
  rw [Nat.mul_comm 2, Nat.mod_mul, Nat.and_two_pow, Nat.testBit_eq_decide_div_mod_eq]
  have hpos := Nat.two_pow_pos e
  rcases Nat.mod_two_eq_zero_or_one (m / 2 ^ e) with h0 | h1
  · simp [h0]
  · simp [h1]

/-- **`shuffle2`**, whatever its mask is. -/
theorem shuffle2Vec_vector {e : ℕ} (hin : inVecSize = 2 ^ e) (order : ShuffleOrder) (i : ℕ) :
    shuffle2Vec (vector w source inVecSize i) (vector w secondSource inVecSize i)
        (generateShuffleMask outVecSize order)
      = components outVecSize (shuffled id (fun k =>
        element w (if order k &&& inVecSize ≠ 0 then secondSource else source) inVecSize i
          (order k &&& (inVecSize - 1))) outVecSize) := by
  rw [shuffle2Vec, generateShuffleMask, List.map_map, components]
  apply List.map_congr_left
  intro k hk
  rw [List.mem_range] at hk
  have hlength : (vector w source inVecSize i).length = inVecSize := length_components ..
  have hlt : order k % inVecSize < inVecSize := Nat.mod_lt _ (by rw [hin]; exact Nat.two_pow_pos e)
  obtain ⟨hlower, hmod⟩ := dual_index e (order k)
  rw [← hin] at hlower hmod
  rw [Function.comp_apply, shuffled_id hk, hlength, hmod, hlower]
  by_cases hup : order k &&& inVecSize ≠ 0
  · rw [if_pos hup, if_pos hup, List.getD_append_right _ _ _ _ (by omega), hlength,
      Nat.add_sub_cancel, getD_vector secondSource i hlt]
  · rw [if_neg hup, if_neg hup, Nat.add_zero, List.getD_append _ _ _ _ (by omega),
      getD_vector source i hlt]

/-! ### Runs -/

theorem lengthToUse_le (mode : ShuffleMode) {k : ℕ}
    (hmode : ¬ (mode = .builtInFn ∨ mode = .builtInDualInputFn)) (hin : 0 < inVecSize)
    (hout : 0 < outVecSize) (hk : k < numTests) :
    0 < lengthToUse mode inVecSize outVecSize k ∧
      lengthToUse mode inVecSize outVecSize k ≤ inVecSize ∧
      lengthToUse mode inVecSize outVecSize k ≤ outVecSize := by
  rw [lengthToUse, if_neg hmode]
  set maxSize := if inVecSize < outVecSize then inVecSize else outVecSize with hmax
  have hpos : 0 < maxSize ∧ maxSize ≤ inVecSize ∧ maxSize ≤ outVecSize := by
    split at hmax <;> omega
  have hlt : k * maxSize / numTests < maxSize :=
    Nat.div_lt_of_lt_mul (Nat.mul_lt_mul_of_pos_right hk hpos.1)
  dsimp only
  generalize k * maxSize / numTests = q at hlt
  split_ifs <;> omega

/-- What the orders of a run are.  The mask of `shuffle` counts in the input, the one of `shuffle2`
in both inputs, and is not bounded. -/
def OrdersOk (mode : ShuffleMode) (inVecSize outVecSize length : ℕ)
    (inOrder outOrder : ShuffleOrder) : Prop :=
  match mode with
  | .builtInFn =>
    inVecSize % 2 = 0 ∧ outVecSize % 2 = 0 ∧ ∀ k < length, outOrder k < inVecSize
  | .builtInDualInputFn => inVecSize % 2 = 0 ∧ outVecSize % 2 = 0
  | _ =>
    (∀ k < length, inOrder k < inVecSize) ∧ (∀ k < length, outOrder k < outVecSize) ∧
      Distinct length outOrder

theorem mem_vecSizes {n : ℕ} (h : n ∈ vecSizes) :
    0 < n ∧ n ≤ 16 ∧ (n % 2 = 0 → n ≠ 1 ∧ n ≠ 3 ∧ ∃ e, n = 2 ^ e) := by
  simp only [vecSizes, List.mem_cons, List.not_mem_nil, or_false] at h
  rcases h with rfl | rfl | rfl | rfl | rfl | rfl
  · exact ⟨by decide, by decide, fun h => absurd h (by decide)⟩
  · exact ⟨by decide, by decide, fun _ => ⟨by decide, by decide, 1, rfl⟩⟩
  · exact ⟨by decide, by decide, fun h => absurd h (by decide)⟩
  · exact ⟨by decide, by decide, fun _ => ⟨by decide, by decide, 2, rfl⟩⟩
  · exact ⟨by decide, by decide, fun _ => ⟨by decide, by decide, 3, rfl⟩⟩
  · exact ⟨by decide, by decide, fun _ => ⟨by decide, by decide, 4, rfl⟩⟩

variable {mode : ShuffleMode}

theorem exec_run (body : List Statement) {t : ℕ → BitVec (8 * w)}
    (hbody : ∀ dest, execAll (kernelArgs source secondSource inVecSize outVecSize) body
      ⟨components outVecSize fun _ => 0, dest⟩ = some ⟨components outVecSize t, dest⟩)
    {m : Machine w} (htmp : m.tmp.length = outVecSize) :
    execAll (kernelArgs source secondSource inVecSize outVecSize)
        (clearTempPattern (sizeName outVecSize) ++ body ++ [storeStatement outVecSize i]) m
      = some ⟨components outVecSize t, stored outVecSize t m.dest i⟩ := by
  rw [execAll_append, execAll_append, exec_clear htmp, Option.bind_some, hbody, Option.bind_some,
    exec_storeStatement]

theorem exec_builtIn {s : Statement} {t : ℕ → BitVec (8 * w)} (hout3 : outVecSize ≠ 3)
    (hs : ∀ m : Machine w, s.exec (kernelArgs source secondSource inVecSize outVecSize) m = do
      let tmp ← assignTo m.tmp none (components outVecSize t)
      some { m with tmp }) {m : Machine w} (htmp : m.tmp.length = outVecSize) :
    execAll (kernelArgs source secondSource inVecSize outVecSize)
        (clearTempPattern (sizeName outVecSize) ++ [s, .store i]) m
      = some ⟨components outVecSize t, stored outVecSize t m.dest i⟩ := by
  have hstore : storeStatement outVecSize i = .store i := if_neg hout3
  rw [← hstore]
  refine exec_run [s] (fun dest => ?_) htmp
  have hassign : assignTo (components outVecSize fun _ => 0) none (components outVecSize t)
      = some (components outVecSize t) :=
    if_pos (by rw [length_components, length_components])
  rw [execAll, List.foldlM_cons, hs, hassign]
  rfl

variable (w source secondSource genrand) in
/-- **Both modes with swizzles**: whatever the names are, the components are assigned. -/
theorem exec_swizzle {e : Expr} {length : ℕ} {inOrder outOrder : ShuffleOrder}
    (he : e.eval (kernelArgs source secondSource inVecSize outVecSize) w
      = vector w source inVecSize i)
    (hpos : 0 < length) (hin : Fits inVecSize length inOrder) (hin16 : inVecSize ≤ 16)
    (hout : Fits outVecSize length outOrder) (hout16 : outVecSize ≤ 16)
    (hdistinct : Distinct length outOrder) :
    let t := shuffled outOrder (fun k => element w source inVecSize i (inOrder k)) length
    Always (do
      let cs ← getOrderString genrand inOrder inVecSize length
      let ds ← getOrderString genrand outOrder outVecSize length
      pure (clearTempPattern (sizeName outVecSize) ++
        [.assign (dot outVecSize ++ dotOrder outVecSize ds) e
          (dot inVecSize ++ dotOrder inVecSize cs), storeStatement outVecSize i])) fun ss =>
      ∀ m : Machine w, m.tmp.length = outVecSize →
        execAll (kernelArgs source secondSource inVecSize outVecSize) ss m
          = some ⟨components outVecSize t, stored outVecSize t m.dest i⟩ := by
  intro t
  refine (reads_getOrderString hin.1 fun j hj => (hin.2 j hj).trans_le hin16).bind ?_
  intro cs hcs
  refine (reads_getOrderString hout.1 fun j hj => (hout.2 j hj).trans_le hout16).bind
    fun ds hds => .pure ?_
  intro m htmp
  refine exec_run [_] (fun dest => ?_) htmp
  rw [execAll, List.foldlM_cons, exec_assign he hpos hin hout hdistinct hcs hds]
  rfl

variable (w source secondSource) in
/-- **One run stores the shuffled vector**, whatever the names of the components are. -/
theorem exec_createShuffleRun (hin : inVecSize ∈ vecSizes) (hout : outVecSize ∈ vecSizes)
    (hlength : ∃ k < numTests, r.lengthToUse i = lengthToUse mode inVecSize outVecSize k)
    (horders : OrdersOk mode inVecSize outVecSize (r.lengthToUse i) (r.inOrders i)
      (r.outOrders i)) :
    Always (createShuffleRun genrand mode inVecSize outVecSize r i) fun ss =>
      ∀ m : Machine w, m.tmp.length = outVecSize →
        execAll (kernelArgs source secondSource inVecSize outVecSize) ss m
          = some ⟨components outVecSize (shuffledRun w mode inVecSize r source secondSource i),
            stored outVecSize (shuffledRun w mode inVecSize r source secondSource i) m.dest i⟩ := by
  obtain ⟨hinPos, hin16, hinEven⟩ := mem_vecSizes hin
  obtain ⟨houtPos, hout16, houtEven⟩ := mem_vecSizes hout
  obtain ⟨k, hk, hlength⟩ := hlength
  cases mode with
  | normal =>
    obtain ⟨hinOrder, houtOrder, hdistinct⟩ := horders
    obtain ⟨hpos, hinLe, houtLe⟩ := lengthToUse_le .normal (by simp) hinPos houtPos hk
    rw [← hlength] at hpos hinLe houtLe
    have hrun := exec_swizzle w source secondSource genrand (eval_sourceExpr i) hpos
      ⟨hinLe, hinOrder⟩ hin16 ⟨houtLe, houtOrder⟩ hout16 hdistinct
    simp only [← shuffleLines_single] at hrun
    exact hrun
  | functionCall =>
    obtain ⟨hinOrder, houtOrder, hdistinct⟩ := horders
    obtain ⟨hpos, hinLe, houtLe⟩ := lengthToUse_le .functionCall (by simp) hinPos houtPos hk
    rw [← hlength] at hpos hinLe houtLe
    have hrun := exec_swizzle w source secondSource genrand (e := .shuffleFn _) (eval_sourceExpr i)
      hpos ⟨hinLe, hinOrder⟩ hin16 ⟨houtLe, houtOrder⟩ hout16 hdistinct
    simp only [← shuffleLines_fn] at hrun
    exact hrun
  | arrayAccess =>
    obtain ⟨_, houtOrder, _⟩ := horders
    refine (Always.trivial _).bind fun _ _ => (Always.trivial _).bind ?_
    intro _ _
    refine (exec_arrayLines w source secondSource hout16 houtPos (List.range (r.lengthToUse i))
      fun k hk => houtOrder k (List.mem_range.mp hk)).bind fun lines hlines => .pure ?_
    intro m htmp
    exact exec_run lines (hlines _) htmp
  | builtInFn =>
    obtain ⟨hinMod, houtMod, horder⟩ := horders
    obtain ⟨hin1, hin3, _⟩ := hinEven hinMod
    obtain ⟨hout1, hout3, _⟩ := houtEven houtMod
    have hlengthOut : r.lengthToUse i = outVecSize := hlength
    rw [hlengthOut] at horder
    refine (Always.trivial _).bind fun _ _ => (Always.trivial _).bind ?_
    intro _ _
    dsimp only
    rw [if_neg (by omega), if_neg hin3, if_neg hout3]
    refine .pure fun m htmp => exec_builtIn hout3 (fun m' => ?_) htmp
    rw [Statement.exec, eval_source hin3, shuffleVec_vector horder, shuffledRun, hlengthOut]
  | builtInDualInputFn =>
    obtain ⟨hinMod, houtMod⟩ := horders
    obtain ⟨hin1, hin3, e, he⟩ := hinEven hinMod
    obtain ⟨hout1, hout3, _⟩ := houtEven houtMod
    have hlengthOut : r.lengthToUse i = outVecSize := hlength
    refine (Always.trivial _).bind fun _ _ => (Always.trivial _).bind ?_
    intro _ _
    dsimp only
    rw [if_neg (by omega), if_neg hin3, if_neg hout3]
    refine .pure fun m htmp => exec_builtIn hout3 (fun m' => ?_) htmp
    rw [Statement.exec, eval_source hin3, eval_secondSource hin3, shuffle2Vec_vector he,
      shuffledRun, hlengthOut]

variable (w source secondSource) in
theorem exec_createShuffleRuns (hin : inVecSize ∈ vecSizes) (hout : outVecSize ∈ vecSizes)
    (is : List ℕ)
    (hruns : ∀ i ∈ is,
      (∃ k < numTests, r.lengthToUse i = lengthToUse mode inVecSize outVecSize k) ∧
        OrdersOk mode inVecSize outVecSize (r.lengthToUse i) (r.inOrders i) (r.outOrders i)) :
    Always (createShuffleRuns genrand mode inVecSize outVecSize r is) fun ss =>
      ∀ m : Machine w, m.tmp.length = outVecSize →
        ∃ m', execAll (kernelArgs source secondSource inVecSize outVecSize) ss m = some m' ∧
          m'.dest = is.foldl (fun dest i => stored outVecSize
            (shuffledRun w mode inVecSize r source secondSource i) dest i) m.dest := by
  induction is with
  | nil => exact .pure fun m _ => ⟨m, rfl, rfl⟩
  | cons i is ih =>
    obtain ⟨hlength, horders⟩ := hruns i List.mem_cons_self
    refine (exec_createShuffleRun w source secondSource hin hout hlength horders).bind
      fun lines hlines => ?_
    refine (ih fun j hj => hruns j (List.mem_cons_of_mem _ hj)).bind fun rest hrest => .pure ?_
    intro m htmp
    rw [execAll_append, hlines m htmp, Option.bind_some]
    exact hrest _ (length_components ..)

/-- **Every slot keeps what was stored in it.** -/
theorem element_foldl_stored {n count k : ℕ} (t : ℕ → ℕ → BitVec (8 * w)) (dest : ℕ → Byte)
    (hi : i < count) (hk : k < n) :
    element w ((List.range count).foldl (fun dest i => stored n (t i) dest i) dest) n i k
      = t i k := by
  have hloop := foldl_invariant (f := fun dest i => stored n (t i) dest i)
    (I := fun j dest => ∀ i < j, ∀ k < n, element w dest n i k = t i k) (a := 0) (n := count) ?_
    (s := dest) (fun i hi => absurd hi (Nat.not_lt_zero i))
  · rw [Nat.zero_add] at hloop
    rw [List.range_eq_range']
    exact hloop i hi k hk
  · intro j dest _ _ hslots i hi k hk
    rcases Nat.lt_succ_iff_lt_or_eq.mp hi with hlt | rfl
    · -- the slots before are not touched
      rw [← hslots i hlt k hk]
      refine load_congr fun o ho => stored_of_outside (.inl ?_)
      have hslot : i * n + k < j * n := Layout.digits_lt hlt hk
      exact Layout.digits_lt hslot ho
    · exact element_stored (t i) dest i hk

end

/-- After the kernel the first slots have the bytes that are expected, whatever was in `dest`. -/
def SlotsExpected (w : ℕ) (mode : ShuffleMode) (inVecSize outVecSize : ℕ) (r : Runs)
    (inData inSecondData : ℕ → Byte) (numOrders : ℕ) (ss : List Statement) : Prop :=
  ∀ m : Machine w, m.tmp.length = outVecSize →
    ∃ m', execAll (kernelArgs inData inSecondData inVecSize outVecSize) ss m = some m' ∧
      ∀ i < numOrders, ∀ b < outVecSize * w,
        m'.dest (i * (outVecSize * w) + b) = expected w mode inVecSize r inData inSecondData i b

/-- **The kernel and the references denote the same function**, for all names of components. -/
theorem shuffles_agree (genrand : ℕ → BitVec 32) (w : ℕ) (mode : ShuffleMode)
    {inVecSize outVecSize : ℕ} (hin : inVecSize ∈ vecSizes) (hout : outVecSize ∈ vecSizes)
    (r : Runs) (inData inSecondData : ℕ → Byte) (numOrders : ℕ)
    (hlength : ∀ i < numOrders, ∃ k < numTests,
      r.lengthToUse i = lengthToUse mode inVecSize outVecSize k)
    (horders : ∀ i < numOrders, OrdersOk mode inVecSize outVecSize (r.lengthToUse i)
      (r.inOrders i) (r.outOrders i)) :
    Always (createShuffleKernel genrand mode inVecSize outVecSize r numOrders)
      (SlotsExpected w mode inVecSize outVecSize r inData inSecondData numOrders) := by
  intro s m htmp
  obtain ⟨m', hm', hdest⟩ := exec_createShuffleRuns w inData inSecondData hin hout
    (List.range numOrders) (fun i hi =>
      ⟨hlength i (List.mem_range.mp hi), horders i (List.mem_range.mp hi)⟩) s m htmp
  refine ⟨m', hm', ?_⟩
  intro i hi b hb
  have hw : 0 < w := Nat.pos_of_ne_zero fun h0 => by simp [h0] at hb
  have hk : b / w < outVecSize := Nat.div_lt_of_lt_mul (by rwa [Nat.mul_comm])
  have helement := element_foldl_stored (shuffledRun w mode inVecSize r inData inSecondData) m.dest
    hi hk
  rw [← hdest, element, ← expected_elements i (b / w)] at helement
  have hbyte := eq_of_load_eq helement (Nat.mod_lt b hw)
  rw [Nat.div_add_mod', Nat.add_mul, Nat.add_assoc, Nat.div_add_mod', Nat.mul_assoc] at hbyte
  exact hbyte

/-- Two runs, of one and of two components, with the components of the first vector swapped. -/
def swappedRuns : Runs := ⟨fun _ k => 1 - k, fun _ k => 2 - k, fun i => i + 1⟩

theorem shuffles_agree_swappedRuns :
    Always (createShuffleKernel (fun n => BitVec.ofNat 32 n) .normal 2 3 swappedRuns 2)
      (SlotsExpected 2 .normal 2 3 swappedRuns (fun b => BitVec.ofNat 8 b) (fun _ => 0) 2) :=
  shuffles_agree _ 2 .normal (by decide) (by decide) swappedRuns _ _ 2
    (fun i hi => ⟨16 * i, by unfold numTests; omega, by revert i; decide⟩)
    fun i _ => ⟨fun k _ => show 1 - k < 2 by omega, fun k _ => show 2 - k < 3 by omega,
      fun j hj k hk h => by
        change 2 - j = 2 - k at h
        change j < i + 1 at hj
        change k < i + 1 at hk
        omega⟩

/-- Runs whose masks count in the output, which is the larger one. -/
def naturalRuns : Runs := ⟨fun _ k => k % 2, fun _ k => k, fun _ => 4⟩

/-- **A mask that counts in the output** is not enough for `shuffle`: it counts modulo the size of
the input, and the reference goes on to the next input. -/
theorem not_shuffles_agree_naturalRuns :
    ¬ ∀ (genrand : ℕ → BitVec 32) (w : ℕ) (mode : ShuffleMode), ∀ inVecSize ∈ vecSizes,
      ∀ outVecSize ∈ vecSizes, ∀ (r : Runs) (inData inSecondData : ℕ → Byte) (numOrders : ℕ),
        (mode = .builtInFn ∨ mode = .builtInDualInputFn →
          inVecSize % 2 = 0 ∧ outVecSize % 2 = 0) →
        (∀ i < numOrders, ∃ k < numTests,
          r.lengthToUse i = lengthToUse mode inVecSize outVecSize k) →
        (∀ i < numOrders, (∀ k < r.lengthToUse i, r.inOrders i k < inVecSize) ∧
          (∀ k < r.lengthToUse i, r.outOrders i k < outVecSize) ∧
          Distinct (r.lengthToUse i) (r.outOrders i)) →
        Always (createShuffleKernel genrand mode inVecSize outVecSize r numOrders)
          (SlotsExpected w mode inVecSize outVecSize r inData inSecondData numOrders) := by
  intro h
  have hslots := h (fun _ => 0) 1 .builtInFn 2 (by decide) 4 (by decide) naturalRuns
    (fun b => BitVec.ofNat 8 b) (fun _ => 0) 2 (fun _ => ⟨rfl, rfl⟩)
    (fun i _ => ⟨0, by decide, rfl⟩)
    (fun i _ => ⟨fun k _ => Nat.mod_lt k (by decide), fun k hk => hk, fun j _ k _ he => he⟩)
    ⟨0, 0⟩ ⟨[0, 0, 0, 0], fun _ => 0⟩ rfl
  obtain ⟨m', hm', hslots⟩ := hslots
  have hbyte := hslots 0 (by decide) 2 (by decide)
  have hdevice : (execAll (w := 1)
      (kernelArgs (fun b => BitVec.ofNat 8 b) (fun _ => 0) 2 4)
      (createShuffleKernel (fun _ => 0) .builtInFn 2 4 naturalRuns 2 ⟨0, 0⟩).1
      ⟨[0, 0, 0, 0], fun _ => 0⟩).map (fun m => m.dest 2) = some 0 := by decide
  rw [hm'] at hdevice
  have hexpected : expected 1 .builtInFn 2 naturalRuns (fun b => BitVec.ofNat 8 b) (fun _ => 0) 0 2
      = 2 := by decide
  rw [hexpected] at hbyte
  have hzero : m'.dest 2 = 0 := Option.some.inj hdevice
  exact absurd (hzero.symm.trans hbyte) (by decide)

end OpenCLCTS.Relationals
