import Mathlib.Data.ZMod.Defs
import OpenCLCTS.Lib.InPlace

/-!
# The Mersenne Twister

`mt19937.cpp` refills its 624 words in place, with the SSE2 unit four words at a
time where that is possible.  The two versions of `genrand_int32` are translated
side by side; what they share with each other is `recurrence`, the cyclic
recurrence of the generator, which both carry out position by position.

A `__m128i` is its four 32-bit lanes.  A freshly allocated `_MTdata` holds
arbitrary words, which are a parameter of `init_genrand`.
-/

namespace OpenCLCTS.MT19937

open InPlace

abbrev Word := BitVec 32

/-- `mt[N]`, with `N = 624`. -/
abbrev Words := Vector Word 624

/-- `UPPER_MASK`, `LOWER_MASK` and `MATRIX_A`. -/
def upperMask : Word := 0x80000000
def lowerMask : Word := 0x7fffffff
def matrixA : Word := 0x9908b0df

/-- `mag01[x]` for `x = 0, 1`. -/
def mag01 (x : Word) : Word := if x = 0 then 0 else matrixA

/-- The new word from `mt[kk]`, `mt[kk + 1]` and `mt[kk + M]`. -/
def twistWord (u l m : Word) : Word :=
  let y := u &&& upperMask ||| l &&& lowerMask
  m ^^^ y >>> 1 ^^^ mag01 (y &&& 1)

/-- The tempering of a word. -/
def temper (y : Word) : Word :=
  let y := y ^^^ y >>> 11
  let y := y ^^^ y <<< 7 &&& 0x9d2c5680
  let y := y ^^^ y <<< 15 &&& 0xefc60000
  y ^^^ y >>> 18

/-! ### The scalar path -/

/-- The two lines in the body of every scalar loop, which read `mt[m]`. -/
def twistAt (mt : Words) (kk m : ℕ) (h1 : kk + 1 < 624) (hm : m < 624) : Words :=
  have h0 : kk < 624 := by omega
  mt.set kk (twistWord mt[kk] mt[kk + 1] mt[m])

/-- The body of the loop whose words read `mt[kk + M]`. -/
def scalarBody1 (kk : ℕ) (h : kk + 1 ≤ 227) (mt : Words) : Words :=
  twistAt mt kk (kk + 397) (by omega) (by omega)

/-- The body of the loops whose words read `mt[kk + (M - N)]`. -/
def scalarBody2 (kk : ℕ) (h : kk + 1 ≤ 623) (mt : Words) : Words :=
  twistAt mt kk (kk - 227) (by omega) (by omega)

/-- `for (; kk < N - M; kk++)`. -/
def scalarLoop1 (kk : ℕ) (mt : Words) : ℕ × Words :=
  forLoop 227 1 (by decide) (fun _ => true) scalarBody1 kk mt

/-- `for (; kk < N - 1; kk++)`. -/
def scalarLoop2 (kk : ℕ) (mt : Words) : ℕ × Words :=
  forLoop 623 1 (by decide) (fun _ => true) scalarBody2 kk mt

/-- The last word, which reads `mt[0]`. -/
def lastWord (mt : Words) : Words :=
  mt.set 623 (twistWord (mt.get 623) (mt.get 0) (mt.get 396)) (by omega)

/-- The refill without `__SSE2__`. -/
def twistScalar (mt : Words) : Words :=
  let (kk, mt) := scalarLoop1 0 mt
  let (_, mt) := scalarLoop2 kk mt
  lastWord mt

/-! ### The SSE2 path -/

/-- `__m128i`, as four 32-bit lanes. -/
abbrev M128i := Fin 4 → Word

def mmAnd (a b : M128i) : M128i := fun i => a i &&& b i
def mmOr (a b : M128i) : M128i := fun i => a i ||| b i
def mmXor (a b : M128i) : M128i := fun i => a i ^^^ b i
def mmCmpeqEpi32 (a b : M128i) : M128i := fun i => if a i = b i then BitVec.allOnes 32 else 0
def mmSrliEpi32 (a : M128i) (n : ℕ) : M128i := fun i => a i >>> n
def mmSlliEpi32 (a : M128i) (n : ℕ) : M128i := fun i => a i <<< n
def splat (x : Word) : M128i := fun _ => x

/-- `_mm_load_si128` and `_mm_loadu_si128` from `mt + k`. -/
def load (mt : Words) (k : ℕ) (h : k + 4 ≤ 624) : M128i := fun i =>
  have hi : k + i < 624 := by omega
  mt[k + i]

/-- `_mm_store_si128` to `mt + k`. -/
def store (mt : Words) (k : ℕ) (v : M128i) : Words := Vector.ofFn fun j =>
  if h : k ≤ j ∧ (j : ℕ) < k + 4 then v ⟨j - k, by omega⟩ else mt[j]

/-- The new words in a vector, from the words at `kk`, at `kk + 1` and `M` further on. -/
def twistVector (u l m : M128i) : M128i :=
  let vy := mmOr (mmAnd u (splat upperMask)) (mmAnd l (splat lowerMask))
  let mask := mmCmpeqEpi32 (mmAnd vy (splat 1)) (splat 1)
  let vmag01 := mmAnd mask (splat matrixA)
  let vr := mmXor m (mmSrliEpi32 vy 1)
  mmXor vr vmag01

/-- The body of the first vector loop. -/
def vectorBody1 (kk : ℕ) (h : kk + 4 ≤ 227) (mt : Words) : Words :=
  store mt kk (twistVector (load mt kk (by omega)) (load mt (kk + 1) (by omega))
    (load mt (kk + 397) (by omega)))

/-- The body of the second vector loop. -/
def vectorBody2 (kk : ℕ) (h : kk + 4 ≤ 623) (mt : Words) : Words :=
  store mt kk (twistVector (load mt kk (by omega)) (load mt (kk + 1) (by omega))
    (load mt (kk - 227) (by omega)))

/-- `for (; kk + 4 <= N - M; kk += 4)`. -/
def vectorLoop1 (kk : ℕ) (mt : Words) : ℕ × Words :=
  forLoop 227 4 (by decide) (fun _ => true) vectorBody1 kk mt

/-- `for (; kk < N - 1 && (kk & 3); kk++)`, to the next aligned location. -/
def alignLoop (kk : ℕ) (mt : Words) : ℕ × Words :=
  forLoop 623 1 (by decide) (fun kk => kk % 4 ≠ 0) scalarBody2 kk mt

/-- `for (; kk + 4 <= N - 1; kk += 4)`. -/
def vectorLoop2 (kk : ℕ) (mt : Words) : ℕ × Words :=
  forLoop 623 4 (by decide) (fun _ => true) vectorBody2 kk mt

/-- The refill with `__SSE2__`. -/
def twistSSE2 (mt : Words) : Words :=
  let (kk, mt) := vectorLoop1 0 mt
  let (kk, mt) := scalarLoop1 kk mt
  let (kk, mt) := alignLoop kk mt
  let (kk, mt) := vectorLoop2 kk mt
  let (_, mt) := scalarLoop2 kk mt
  lastWord mt

/-- The tempering of a vector. -/
def temperVector (vy : M128i) : M128i :=
  let vy := mmXor vy (mmSrliEpi32 vy 11)
  let vy := mmXor vy (mmAnd (mmSlliEpi32 vy 7) (splat 0x9d2c5680))
  let vy := mmXor vy (mmAnd (mmSlliEpi32 vy 15) (splat 0xefc60000))
  mmXor vy (mmSrliEpi32 vy 18)

/-- The loop that tempers all words ahead of time. -/
def temperLoop (mt : Words) (kk : ℕ) (cache : Words) : ℕ × Words :=
  forLoop 624 4 (by decide) (fun _ => true)
    (fun kk h cache => store cache kk (temperVector (load mt kk h))) kk cache

def temperAll (mt cache : Words) : Words := (temperLoop mt 0 cache).2

/-! ### The generator -/

/-- `_MTdata` without `__SSE2__`. -/
structure MTdata where
  mt : Words
  mti : ℕ
  mti_le : mti ≤ 624

/-- `_MTdata` with `__SSE2__`. -/
structure MTdataSSE2 where
  mt : Words
  cache : Words
  mti : ℕ
  mti_le : mti ≤ 624

/-- The body of the loop of `init_genrand`. -/
def initBody (mti : ℕ) (h : mti + 1 ≤ 624) (mt : Words) : Words :=
  have h0 : mti < 624 := by omega
  have h1 : mti - 1 < 624 := by omega
  mt.set mti (1812433253 * (mt[mti - 1] ^^^ mt[mti - 1] >>> 30) + BitVec.ofNat 32 mti)

/-- `for (mti = 1; mti < N; mti++)`. -/
def initLoop (mti : ℕ) (mt : Words) : ℕ × Words :=
  forLoop 624 1 (by decide) (fun _ => true) initBody mti mt

/-- The words that `init_genrand` computes, over the words it finds. -/
def initWords (s : Word) (raw : Words) : Words := (initLoop 1 (raw.set 0 s)).2

/-- `init_genrand(s)`. -/
def initGenrand (s : Word) (raw : Words) : MTdata := ⟨initWords s raw, 624, le_rfl⟩

def initGenrandSSE2 (s : Word) (raw cache : Words) : MTdataSSE2 :=
  ⟨initWords s raw, cache, 624, le_rfl⟩

/-- `genrand_int32` without `__SSE2__`: the value, and the generator after it. -/
def genrandInt32 (d : MTdata) : Word × MTdata :=
  if h : d.mti = 624 then
    let mt := twistScalar d.mt
    (temper mt[0], ⟨mt, 1, by decide⟩)
  else
    have hlt : d.mti < 624 := lt_of_le_of_ne d.mti_le h
    (temper d.mt[d.mti], ⟨d.mt, d.mti + 1, hlt⟩)

/-- `genrand_int32` with `__SSE2__`. -/
def genrandInt32SSE2 (d : MTdataSSE2) : Word × MTdataSSE2 :=
  if h : d.mti = 624 then
    let mt := twistSSE2 d.mt
    let cache := temperAll mt d.cache
    (cache[0], ⟨mt, cache, 1, by decide⟩)
  else
    have hlt : d.mti < 624 := lt_of_le_of_ne d.mti_le h
    (d.cache[d.mti], ⟨d.mt, d.cache, d.mti + 1, hlt⟩)

/-- The generator after `n` calls. -/
def after (n : ℕ) (d : MTdata) : MTdata := (fun d => (genrandInt32 d).2)^[n] d

def afterSSE2 (n : ℕ) (d : MTdataSSE2) : MTdataSSE2 := (fun d => (genrandInt32SSE2 d).2)^[n] d

/-! ### The recurrence -/

/-- What position `k` becomes: the recurrence of the generator, with the positions
taken round the array. -/
def recurrence (k : Fin 624) (mt : Fin 624 → Word) : Word :=
  twistWord (mt k) (mt (k + 1)) (mt (k + 397))

/-- The array as a function of the position. -/
def array (mt : Words) (k : Fin 624) : Word := mt.get k

theorem array_injective : Function.Injective array := by
  intro a b h
  apply Vector.ext
  intro i hi
  exact congrFun h ⟨i, hi⟩

theorem array_set (mt : Words) (k : ℕ) (hk : k < 624) (w : Word) :
    array (mt.set k w hk) = Function.update (array mt) ⟨k, hk⟩ w := by
  funext j
  show (mt.set k w hk)[(j : ℕ)] = _
  rw [Vector.getElem_set]
  by_cases hj : k = j
  · subst hj
    rw [if_pos rfl, Function.update_self]
  · rw [if_neg hj, Function.update_of_ne fun he => hj (by rw [he])]
    rfl

theorem array_store (mt : Words) (k : ℕ) (v : M128i) (j : Fin 624) :
    array (store mt k v) j =
      if h : k ≤ j ∧ (j : ℕ) < k + 4 then v ⟨j - k, by omega⟩ else array mt j := by
  show (store mt k v)[(j : ℕ)] = _
  rw [store, Vector.getElem_ofFn]
  rfl

theorem add_one_eq {k : Fin 624} (h : (k : ℕ) + 1 < 624) : k + 1 = ⟨k + 1, h⟩ := by
  apply Fin.ext
  rw [Fin.val_add]
  exact Nat.mod_eq_of_lt h

theorem add_397_eq_of_lt {k : Fin 624} (h : (k : ℕ) + 397 < 624) :
    k + 397 = ⟨k + 397, h⟩ := by
  apply Fin.ext
  rw [Fin.val_add]
  exact Nat.mod_eq_of_lt h

theorem add_397_eq_of_le {k : Fin 624} (h : 227 ≤ (k : ℕ)) (hk : (k : ℕ) - 227 < 624) :
    k + 397 = ⟨k - 227, hk⟩ := by
  apply Fin.ext
  rw [Fin.val_add]
  have h397 : ((397 : Fin 624) : ℕ) = 397 := rfl
  have hlt := k.isLt
  simp only [h397]
  omega

/-! ### The scalar path follows the recurrence -/

theorem twistAt_scanned (mt : Words) (kk m : ℕ) (h1 : kk + 1 < 624) (hm : m < 624)
    (hrec : (⟨kk, by omega⟩ : Fin 624) + 397 = ⟨m, hm⟩) :
    Scanned recurrence kk (kk + 1) (array mt) (array (twistAt mt kk m h1 hm)) := by
  have h0 : kk < 624 := by omega
  have hstep : array (twistAt mt kk m h1 hm) = scan recurrence kk 1 (array mt) := by
    rw [scan_one, stepAt, dif_pos h0, recurrence, hrec, add_one_eq h1]
    exact array_set mt kk h0 _
  exact hstep ▸ scanned_scan kk 1 _

theorem scalarBody1_scanned (kk : ℕ) (h : kk + 1 ≤ 227) (mt : Words) :
    Scanned recurrence kk (kk + 1) (array mt) (array (scalarBody1 kk h mt)) :=
  twistAt_scanned mt kk (kk + 397) _ _ (add_397_eq_of_lt (by simp only; omega))

theorem scalarBody2_scanned (kk : ℕ) (h : kk + 1 ≤ 623) (hk : 227 ≤ kk) (mt : Words) :
    Scanned recurrence kk (kk + 1) (array mt) (array (scalarBody2 kk h mt)) :=
  twistAt_scanned mt kk (kk - 227) _ _ (add_397_eq_of_le hk (by simp only; omega))

theorem lastWord_scanned (mt : Words) :
    Scanned recurrence 623 624 (array mt) (array (lastWord mt)) := by
  have hstep : array (lastWord mt) = scan recurrence 623 1 (array mt) := by
    rw [lastWord, array_set, scan_one, stepAt, dif_pos (by omega)]
    rfl
  exact hstep ▸ scanned_scan 623 1 _

theorem scalarLoop1_scanned (kk : ℕ) (hk : kk ≤ 227) (mt : Words) :
    (scalarLoop1 kk mt).1 = 227 ∧
      Scanned recurrence kk 227 (array mt) (array (scalarLoop1 kk mt).2) := by
  have hend : (scalarLoop1 kk mt).1 = 227 := by
    rw [scalarLoop1, forLoop_fst, Nat.div_one]
    omega
  have h : Scanned recurrence kk (scalarLoop1 kk mt).1 (array mt) (array (scalarLoop1 kk mt).2) :=
    forLoop_scanned (by decide) _ array scalarBody1 kk
      (fun k h s _ => scalarBody1_scanned k h s) mt
  exact ⟨hend, hend ▸ h⟩

theorem scalarLoop2_scanned (kk : ℕ) (h227 : 227 ≤ kk) (hk : kk ≤ 623) (mt : Words) :
    Scanned recurrence kk 623 (array mt) (array (scalarLoop2 kk mt).2) := by
  have hend : (scalarLoop2 kk mt).1 = 623 := by
    rw [scalarLoop2, forLoop_fst, Nat.div_one]
    omega
  have h : Scanned recurrence kk (scalarLoop2 kk mt).1 (array mt) (array (scalarLoop2 kk mt).2) :=
    forLoop_scanned (by decide) _ array scalarBody2 kk
      (fun k h s hle => scalarBody2_scanned k h (h227.trans hle) s) mt
  exact hend ▸ h

/-- **The scalar refill is the recurrence.** -/
theorem twistScalar_scanned (mt : Words) :
    Scanned recurrence 0 624 (array mt) (array (twistScalar mt)) := by
  obtain ⟨e1, h1⟩ := scalarLoop1_scanned 0 (by omega) mt
  have h2 := scalarLoop2_scanned 227 le_rfl (by omega) (scalarLoop1 0 mt).2
  have hall := (h1.trans h2).trans (lastWord_scanned _)
  rw [← e1] at hall
  exact hall

/-! ### So does the SSE2 path -/

theorem and_one_eq (y : Word) : y &&& 1 = 0 ∨ y &&& 1 = 1 := by
  have h : (y &&& 1).toNat = y.toNat % 2 := by
    rw [BitVec.toNat_and]
    exact Nat.and_one_is_mod _
  rcases Nat.mod_two_eq_zero_or_one y.toNat with h0 | h1
  · exact .inl (BitVec.eq_of_toNat_eq (by rw [h, h0]; rfl))
  · exact .inr (BitVec.eq_of_toNat_eq (by rw [h, h1]; rfl))

/-- The comparison mask selects `mag01[y & 1]`. -/
theorem mask_and_matrixA (y : Word) :
    (if y &&& 1 = 1 then BitVec.allOnes 32 else 0) &&& matrixA = mag01 (y &&& 1) := by
  rcases and_one_eq y with h | h
  · rw [h]; decide
  · rw [h]; decide

theorem twistVector_apply (u l m : M128i) (i : Fin 4) :
    twistVector u l m i = twistWord (u i) (l i) (m i) :=
  congrArg (fun x => m i ^^^ (u i &&& upperMask ||| l i &&& lowerMask) >>> 1 ^^^ x)
    (mask_and_matrixA _)

/-- No word of a block of four reads another word of the block that precedes it. -/
theorem independent_recurrence {lo : ℕ} {k : Fin 624} (h1 : lo ≤ k) (h2 : (k : ℕ) < lo + 4)
    (hk : (k : ℕ) + 1 < 624) : Independent recurrence lo k := by
  intro a b h
  have hcur : a k = b k := h k (.inr le_rfl)
  have hnext : a (k + 1) = b (k + 1) := by
    rw [add_one_eq hk]
    exact h _ (.inr (Fin.le_def.mpr (by simp)))
  have hfar : a (k + 397) = b (k + 397) := by
    by_cases hlt : (k : ℕ) < 227
    · rw [add_397_eq_of_lt (by omega)]
      exact h _ (.inr (Fin.le_def.mpr (by simp)))
    · rw [add_397_eq_of_le (by omega) (by omega)]
      exact h _ (.inl (by simp only; omega))
  rw [recurrence, hcur, hnext, hfar, recurrence]

theorem load_apply (mt : Words) (k : ℕ) (h : k + 4 ≤ 624) (i : Fin 4) :
    load mt k h i = array mt ⟨k + i, by omega⟩ := rfl

theorem store_scanned (mt : Words) (kk m : ℕ) (h0 : kk + 4 ≤ 624) (h1 : kk + 1 + 4 ≤ 624)
    (hm : m + 4 ≤ 624)
    (hrec : ∀ i < 4, ∀ h : kk + i < 624, ∀ h' : m + i < 624,
      (⟨kk + i, h⟩ : Fin 624) + 397 = ⟨m + i, h'⟩) :
    Scanned recurrence kk (kk + 4) (array mt)
      (array (store mt kk
        (twistVector (load mt kk h0) (load mt (kk + 1) h1) (load mt m hm)))) := by
  have hblock : array (store mt kk
      (twistVector (load mt kk h0) (load mt (kk + 1) h1) (load mt m hm)))
        = block recurrence kk 4 (array mt) := by
    funext ⟨j, hj⟩
    rw [array_store, block]
    by_cases hin : kk ≤ j ∧ j < kk + 4
    · obtain ⟨i, rfl⟩ : ∃ i, j = kk + i := ⟨j - kk, by omega⟩
      have hi : i < 4 := by omega
      have he : kk + i - kk = i := by omega
      rw [dif_pos hin, if_pos hin, twistVector_apply, recurrence, load_apply, load_apply,
        load_apply, add_one_eq (by simp only; omega), hrec i hi hj (by omega)]
      simp only [he, Nat.add_right_comm kk 1 i]
    · rw [dif_neg hin, if_neg hin]
  rw [hblock, block_eq_scan fun k h2 h3 => independent_recurrence h2 h3 (by omega)]
  exact scanned_scan kk 4 _

theorem vectorBody1_scanned (kk : ℕ) (h : kk + 4 ≤ 227) (mt : Words) :
    Scanned recurrence kk (kk + 4) (array mt) (array (vectorBody1 kk h mt)) := by
  refine store_scanned mt kk (kk + 397) _ _ _ ?_
  intro i hi h1 h2
  rw [add_397_eq_of_lt (by simp only; omega)]
  simp only [Nat.add_right_comm kk i 397]

theorem vectorBody2_scanned (kk : ℕ) (h : kk + 4 ≤ 623) (hk : 227 ≤ kk) (mt : Words) :
    Scanned recurrence kk (kk + 4) (array mt) (array (vectorBody2 kk h mt)) := by
  refine store_scanned mt kk (kk - 227) _ _ _ ?_
  intro i hi h1 h2
  rw [add_397_eq_of_le (by simp only; omega) (by simp only; omega)]
  exact Fin.ext (by simp only; omega)

/-- The vector loop over the words that read `mt[kk + M]` stops at `224`. -/
theorem vectorLoop1_scanned (mt : Words) :
    (vectorLoop1 0 mt).1 = 224 ∧
      Scanned recurrence 0 224 (array mt) (array (vectorLoop1 0 mt).2) := by
  have hend : (vectorLoop1 0 mt).1 = 224 := by rw [vectorLoop1, forLoop_fst]
  have h : Scanned recurrence 0 (vectorLoop1 0 mt).1 (array mt) (array (vectorLoop1 0 mt).2) :=
    forLoop_scanned (by decide) _ array vectorBody1 0
      (fun k h s _ => vectorBody1_scanned k h s) mt
  exact ⟨hend, hend ▸ h⟩

/-- From `227` the next aligned location is `228`. -/
theorem alignLoop_scanned (mt : Words) :
    (alignLoop 227 mt).1 = 228 ∧
      Scanned recurrence 227 228 (array mt) (array (alignLoop 227 mt).2) := by
  have hend : (alignLoop 227 mt).1 = 228 := by
    rw [alignLoop, forLoop, dif_pos (by decide), forLoop, dif_neg (by decide)]
  have h : Scanned recurrence 227 (alignLoop 227 mt).1 (array mt) (array (alignLoop 227 mt).2) :=
    forLoop_scanned (by decide) _ array scalarBody2 227
      (fun k h s hle => scalarBody2_scanned k h hle s) mt
  exact ⟨hend, hend ▸ h⟩

/-- The second vector loop runs from `228` to `620`. -/
theorem vectorLoop2_scanned (mt : Words) :
    (vectorLoop2 228 mt).1 = 620 ∧
      Scanned recurrence 228 620 (array mt) (array (vectorLoop2 228 mt).2) := by
  have hend : (vectorLoop2 228 mt).1 = 620 := by rw [vectorLoop2, forLoop_fst]
  have h : Scanned recurrence 228 (vectorLoop2 228 mt).1 (array mt)
      (array (vectorLoop2 228 mt).2) :=
    forLoop_scanned (by decide) _ array vectorBody2 228
      (fun k h s hle => vectorBody2_scanned k h (by omega) s) mt
  exact ⟨hend, hend ▸ h⟩

/-- **The SSE2 refill is the recurrence**, in five loops. -/
theorem twistSSE2_scanned (mt : Words) :
    Scanned recurrence 0 624 (array mt) (array (twistSSE2 mt)) := by
  obtain ⟨e1, h1⟩ := vectorLoop1_scanned mt
  obtain ⟨e2, h2⟩ := scalarLoop1_scanned 224 (by omega) (vectorLoop1 0 mt).2
  obtain ⟨e3, h3⟩ := alignLoop_scanned (scalarLoop1 224 (vectorLoop1 0 mt).2).2
  obtain ⟨e4, h4⟩ := vectorLoop2_scanned (alignLoop 227 (scalarLoop1 224 (vectorLoop1 0 mt).2).2).2
  have h5 := scalarLoop2_scanned 620 (by omega) (by omega)
    (vectorLoop2 228 (alignLoop 227 (scalarLoop1 224 (vectorLoop1 0 mt).2).2).2).2
  have hall := ((((h1.trans h2).trans h3).trans h4).trans h5).trans (lastWord_scanned _)
  have htw : twistSSE2 mt = lastWord (scalarLoop2 620
      (vectorLoop2 228 (alignLoop 227 (scalarLoop1 224 (vectorLoop1 0 mt).2).2).2).2).2 := by
    simp only [twistSSE2, e1, e2, e3, e4]
  rw [htw]
  exact hall

/-- **The two refills agree on every array of words.** -/
theorem twistSSE2_eq (mt : Words) : twistSSE2 mt = twistScalar mt :=
  array_injective ((twistSSE2_scanned mt).eq.trans (twistScalar_scanned mt).eq.symm)

/-! ### The values of the two generators -/

theorem temperVector_apply (v : M128i) (i : Fin 4) : temperVector v i = temper (v i) := rfl

theorem store_temper_scanned (mt cache : Words) (kk : ℕ) (h : kk + 4 ≤ 624) :
    Scanned (fun k _ => temper (array mt k)) kk (kk + 4) (array cache)
      (array (store cache kk (temperVector (load mt kk h)))) := by
  have hscan : array (store cache kk (temperVector (load mt kk h)))
      = scan (fun k _ => temper (array mt k)) kk 4 (array cache) := by
    funext j
    rw [array_store, scan_const]
    by_cases hin : kk ≤ j ∧ (j : ℕ) < kk + 4
    · have he : kk + (j - kk) = (j : ℕ) := by omega
      rw [dif_pos hin, if_pos hin, temperVector_apply, load_apply]
      simp only [he]
    · rw [dif_neg hin, if_neg hin]
  rw [hscan]
  exact scanned_scan kk 4 _

theorem temperAll_apply (mt cache : Words) (k : Fin 624) :
    array (temperAll mt cache) k = temper (array mt k) := by
  have hend : (temperLoop mt 0 cache).1 = 624 := by rw [temperLoop, forLoop_fst]
  have h : Scanned (fun k _ => temper (array mt k)) 0 (temperLoop mt 0 cache).1 (array cache)
      (array (temperAll mt cache)) :=
    forLoop_scanned (by decide) _ array _ 0
      (fun kk h cache _ => store_temper_scanned mt cache kk h) cache
  rw [hend] at h
  rw [h.eq, scan_const]
  exact if_pos ⟨Nat.zero_le _, by omega⟩

/-- What a word of the initial array becomes, from the word before it. -/
def initRecurrence (k : Fin 624) (mt : Fin 624 → Word) : Word :=
  let w := mt ⟨k - 1, by omega⟩
  1812433253 * (w ^^^ w >>> 30) + BitVec.ofNat 32 k

theorem initBody_scanned (k : ℕ) (h : k + 1 ≤ 624) (mt : Words) :
    Scanned initRecurrence k (k + 1) (array mt) (array (initBody k h mt)) := by
  have hstep : array (initBody k h mt) = scan initRecurrence k 1 (array mt) := by
    rw [scan_one, stepAt, dif_pos (by omega)]
    exact array_set mt k (by omega) _
  rw [hstep]
  exact scanned_scan k 1 _

theorem initWords_scanned (s : Word) (raw : Words) :
    Scanned initRecurrence 1 624 (array (raw.set 0 s)) (array (initWords s raw)) := by
  have hend : (initLoop 1 (raw.set 0 s)).1 = 624 := by rw [initLoop, forLoop_fst, Nat.div_one]
  have h : Scanned initRecurrence 1 (initLoop 1 (raw.set 0 s)).1 (array (raw.set 0 s))
      (array (initWords s raw)) :=
    forLoop_scanned (by decide) _ array initBody 1 (fun k h mt _ => initBody_scanned k h mt) _
  rwa [hend] at h

/-- **The seed determines the words**, whatever the memory held before. -/
theorem initWords_eq (s : Word) (raw raw' : Words) : initWords s raw = initWords s raw' := by
  apply array_injective
  rw [(initWords_scanned s raw).eq, (initWords_scanned s raw').eq]
  funext k
  refine scan_congr (fun k hk c d hcd => ?_) (fun j hj => ?_) k k.isLt
  · have hprev : c ⟨k - 1, by omega⟩ = d ⟨k - 1, by omega⟩ :=
      hcd _ (Fin.lt_def.mpr (by simp only; omega))
    rw [initRecurrence, hprev, initRecurrence]
  · have h0 : j = ⟨0, by decide⟩ := Fin.ext (by simp only; omega)
    rw [array_set, array_set, h0, Function.update_self, Function.update_self]

/-- What the two generators have in common: the words, the position, and the
cache that holds the tempered words as long as they are in use. -/
structure Agree (d : MTdata) (e : MTdataSSE2) : Prop where
  mt : e.mt = d.mt
  mti : e.mti = d.mti
  cache : e.mti < 624 → ∀ k, array e.cache k = temper (array e.mt k)

theorem agree_init (s : Word) (raw raw' cache : Words) :
    Agree (initGenrand s raw) (initGenrandSSE2 s raw' cache) :=
  ⟨initWords_eq s raw' raw, rfl, fun h => absurd h (lt_irrefl _)⟩

variable {d : MTdata} {e : MTdataSSE2}

theorem Agree.value (h : Agree d e) : (genrandInt32SSE2 e).1 = (genrandInt32 d).1 := by
  by_cases hend : d.mti = 624
  · rw [genrandInt32, dif_pos hend, genrandInt32SSE2, dif_pos (h.mti.trans hend)]
    rw [← h.mt, ← twistSSE2_eq]
    exact temperAll_apply _ _ ⟨0, by decide⟩
  · have hend' : e.mti ≠ 624 := fun he => hend (h.mti.symm.trans he)
    have hlt : e.mti < 624 := lt_of_le_of_ne e.mti_le hend'
    rw [genrandInt32, dif_neg hend, genrandInt32SSE2, dif_neg hend']
    have hval : e.cache[e.mti] = temper e.mt[e.mti] := h.cache hlt ⟨e.mti, hlt⟩
    refine hval.trans ?_
    simp only [h.mt, h.mti]

theorem Agree.next (h : Agree d e) : Agree (genrandInt32 d).2 (genrandInt32SSE2 e).2 := by
  by_cases hend : d.mti = 624
  · rw [genrandInt32, dif_pos hend, genrandInt32SSE2, dif_pos (h.mti.trans hend)]
    exact ⟨(twistSSE2_eq _).trans (congrArg twistScalar h.mt), rfl,
      fun _ => temperAll_apply _ _⟩
  · have hend' : e.mti ≠ 624 := fun he => hend (h.mti.symm.trans he)
    have hlt : e.mti < 624 := lt_of_le_of_ne e.mti_le hend'
    rw [genrandInt32, dif_neg hend, genrandInt32SSE2, dif_neg hend']
    exact ⟨h.mt, congrArg (· + 1) h.mti, fun _ => h.cache hlt⟩

theorem Agree.after (h : Agree d e) (n : ℕ) : Agree (after n d) (afterSSE2 n e) := by
  induction n with
  | zero => exact h
  | succ n ih =>
    rw [MT19937.after, afterSSE2, Function.iterate_succ_apply', Function.iterate_succ_apply']
    exact ih.next

/-- **The two generators are the same.**  For every seed and every number of calls
the next value is the same and so are the words, whatever the freshly allocated
memory holds; and the two refills agree on every array of words. -/
theorem genrandInt32SSE2_eq :
    (∀ (s : Word) (raw raw' cache : Words) (n : ℕ),
      let d := after n (initGenrand s raw)
      let e := afterSSE2 n (initGenrandSSE2 s raw' cache)
      (genrandInt32SSE2 e).1 = (genrandInt32 d).1 ∧ e.mt = d.mt ∧ e.mti = d.mti) ∧
    ∀ mt : Words, twistSSE2 mt = twistScalar mt := by
  refine ⟨fun s raw raw' cache n => ?_, twistSSE2_eq⟩
  have h := (agree_init s raw raw' cache).after n
  exact ⟨h.value, h.mt, h.mti⟩

end OpenCLCTS.MT19937
