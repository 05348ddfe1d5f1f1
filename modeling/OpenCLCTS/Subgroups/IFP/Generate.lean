import Mathlib.Logic.Equiv.Basic
import OpenCLCTS.Lib.Loops
import OpenCLCTS.Subgroups.IFP.Model

/-!
# What `gen_insts` generates

The generated table is the table of a list of signals with different locations
(`generated`): in the order of the loop, one sub-group counts a location up to a value
and another one waits for it.  That the locations differ is what the shuffle is for.
-/

namespace OpenCLCTS.Subgroups.IFP

open Interleaving Loops

/-! ### Encoding -/

theorem toNat_inst {op loc val : ℕ} (hop : op < 2 ^ 4) (hloc : loc < 2 ^ 7) (hval : val < 2 ^ 19) :
    (inst (BitVec.ofNat 32 op) (BitVec.ofNat 32 loc) (BitVec.ofNat 32 val)).toNat
      = 2 ^ 12 * val + (2 ^ 4 * loc + op) := by
  have hlow : 2 ^ 4 * loc + op = loc <<< 4 ||| op := by
    rw [Nat.two_pow_add_eq_or_of_lt hop, Nat.shiftLeft_eq, Nat.mul_comm]
  have hhigh : 2 ^ 12 * val + (2 ^ 4 * loc + op) = val <<< 12 ||| (2 ^ 4 * loc + op) := by
    rw [Nat.two_pow_add_eq_or_of_lt (by omega), Nat.shiftLeft_eq, Nat.mul_comm]
  have hop' : (BitVec.ofNat 32 op <<< 0).toNat = op := by
    rw [BitVec.toNat_shiftLeft, BitVec.toNat_ofNat, Nat.shiftLeft_zero]
    omega
  have hloc' : (BitVec.ofNat 32 loc <<< 4).toNat = loc <<< 4 := by
    rw [BitVec.toNat_shiftLeft, BitVec.toNat_ofNat, Nat.shiftLeft_eq, Nat.shiftLeft_eq]
    omega
  have hval' : (BitVec.ofNat 32 val <<< 12).toNat = val <<< 12 := by
    rw [BitVec.toNat_shiftLeft, BitVec.toNat_ofNat, Nat.shiftLeft_eq, Nat.shiftLeft_eq]
    omega
  rw [inst, BitVec.toNat_or, BitVec.toNat_or, hop', hloc', hval', hhigh, hlow, Nat.or_assoc]

/-- **Decoding an instruction** gives back its parts. -/
theorem decode_inst {op loc val : ℕ} (hop : op < 2 ^ 4) (hloc : loc < 2 ^ 7) (hval : val < 2 ^ 19) :
    let i := inst (BitVec.ofNat 32 op) (BitVec.ofNat 32 loc) (BitVec.ofNat 32 val)
    iop i = BitVec.ofNat 32 op ∧ iloc i = loc ∧ ival i = val := by
  intro i
  have hi : i.toNat = 2 ^ 12 * val + (2 ^ 4 * loc + op) := toNat_inst hop hloc hval
  have hmsb : i.msb = false := by
    rw [BitVec.msb_eq_false_iff_two_mul_lt, hi]
    omega
  have hshift : ∀ s, i.sshiftRight s = i >>> s := fun s => BitVec.sshiftRight_eq_of_msb_false hmsb
  have hmask : ∀ s k : ℕ, k ≤ 31 → (i.sshiftRight s &&& BitVec.ofNat 32 (2 ^ k - 1)).toNat
      = (2 ^ 12 * val + (2 ^ 4 * loc + op)) / 2 ^ s % 2 ^ k := by
    intro s k hk
    have hlt : 2 ^ k - 1 < 2 ^ 32 :=
      (Nat.sub_le _ _).trans_lt (Nat.pow_lt_pow_right (by omega) (by omega))
    rw [hshift, BitVec.toNat_and, BitVec.toNat_ushiftRight, BitVec.toNat_ofNat,
      Nat.mod_eq_of_lt hlt, Nat.and_two_pow_sub_one_eq_mod, hi, Nat.shiftRight_eq_div_pow]
  refine ⟨BitVec.eq_of_toNat_eq ?_, (hmask 4 7 (by omega)).trans (by omega),
    (hmask 12 19 (by omega)).trans (by omega)⟩
  refine (hmask 0 4 (by omega)).trans ?_
  rw [BitVec.toNat_ofNat]
  omega

/-! ### The shuffle -/

theorem randomInRange_cases {minV maxV d : ℕ} {draws rest : Draws}
    (h : randomInRange minV maxV draws = some (d, rest)) : minV ≤ d ∧ d ≤ maxV := by
  cases draws with
  | nil => cases h
  | cons d' draws =>
    rw [randomInRange] at h
    split at h
    · cases h
      assumption
    · cases h

theorem differentInRange_cases {n j0 d : ℕ} {draws rest : Draws}
    (h : differentInRange n j0 draws = some (d, rest)) : d ≤ n - 1 ∧ d ≠ j0 := by
  induction draws with
  | nil => cases h
  | cons d' draws ih =>
    rw [differentInRange] at h
    split at h
    · rename_i hrange
      split at h
      · exact ih h
      · rename_i hne
        cases h
        exact ⟨hrange.2, hne⟩
    · cases h

/-- The first `i` entries are different numbers below `i`. -/
def Shuffled (i : ℕ) (ii : ℕ → ℕ) : Prop :=
  (∀ a, a < i → ii a < i) ∧ ∀ a b, a < i → b < i → ii a = ii b → a = b

theorem Shuffled.extend {i : ℕ} {ii : ℕ → ℕ} (h : Shuffled i ii) :
    Shuffled (i + 1) (Function.update ii i i) := by
  obtain ⟨hlt, hinj⟩ := h
  have hold : ∀ a, a < i + 1 → a ≠ i → Function.update ii i i a = ii a ∧ ii a < i := by
    intro a ha hai
    exact ⟨Function.update_of_ne hai .., hlt a (by omega)⟩
  constructor
  · intro a ha
    by_cases hai : a = i
    · rw [hai, Function.update_self]
      exact Nat.lt_succ_self _
    · obtain ⟨he, hlt⟩ := hold a ha hai
      rw [he]
      exact hlt.trans (Nat.lt_succ_self _)
  · intro a b ha hb he
    by_cases hai : a = i
    · by_cases hbi : b = i
      · rw [hai, hbi]
      · obtain ⟨hb', hlt⟩ := hold b hb hbi
        rw [hai, Function.update_self, hb'] at he
        omega
    · obtain ⟨ha', hlt⟩ := hold a ha hai
      by_cases hbi : b = i
      · rw [hbi, Function.update_self, ha'] at he
        omega
      · rw [ha', (hold b hb hbi).1] at he
        exact hinj a b (by omega) (by omega) he

theorem Shuffled.swap {i j k : ℕ} {ii : ℕ → ℕ} (h : Shuffled i ii) (hj : j < i) (hk : k < i) :
    Shuffled i (ii ∘ Equiv.swap j k) := by
  have hswap : ∀ a, a < i → Equiv.swap j k a < i := by
    intro a ha
    rw [Equiv.swap_apply_def]
    split_ifs <;> assumption
  constructor
  · intro a ha
    exact h.1 _ (hswap a ha)
  · intro a b ha hb he
    exact (Equiv.swap j k).injective (h.2 _ _ (hswap a ha) (hswap b hb) he)

theorem shuffleBody_eq {i j0 : ℕ} {s : (ℕ → ℕ) × Draws} {draws : Draws}
    (h : randomInRange 0 i s.2 = some (j0, draws)) :
    shuffleBody s i = some (Function.update s.1 i i ∘ Equiv.swap j0 i, draws) := by
  rw [shuffleBody, h]
  refine congrArg some (Prod.ext (funext fun a => ?_) rfl)
  show Function.update (if j0 ≠ i then Function.update s.1 i (s.1 j0) else s.1) j0 i a
    = Function.update s.1 i i (Equiv.swap j0 i a)
  by_cases haj : a = j0
  · rw [haj, Function.update_self, Equiv.swap_apply_left, Function.update_self]
  · rw [Function.update_of_ne haj]
    by_cases hai : a = i
    · have hji : j0 ≠ i := fun he => haj (hai.trans he.symm)
      rw [if_pos hji, hai, Function.update_self, Equiv.swap_apply_right, Function.update_of_ne hji]
    · rw [Equiv.swap_apply_of_ne_of_ne haj hai, Function.update_of_ne hai]
      split
      · exact Function.update_of_ne hai ..
      · rfl

theorem shuffled_body {i : ℕ} {s s' : (ℕ → ℕ) × Draws} (h : Shuffled i s.1)
    (hs : shuffleBody s i = some s') : Shuffled (i + 1) s'.1 := by
  obtain ⟨⟨j0, draws⟩, hr, _⟩ := Option.bind_eq_some_iff.mp hs
  obtain ⟨_, hj0⟩ := randomInRange_cases hr
  rw [shuffleBody_eq hr] at hs
  cases hs
  exact h.extend.swap (by omega) (Nat.lt_succ_self i)

theorem shuffled_loop {ii : ℕ → ℕ} {draws rest : Draws}
    (h : (List.range' 1 (numLoc - 1)).foldlM shuffleBody (fun _ => 0, draws) = some (ii, rest)) :
    Shuffled numLoc ii := by
  refine foldlM_invariant (I := fun i s => Shuffled i s.1) (fun i s s' _ _ => shuffled_body)
    ⟨fun a _ => Nat.one_pos, fun a b ha hb _ => by omega⟩ h

/-! ### The table -/

/-- An instruction as an entry of the table. -/
def encode : Inst ℕ → BitVec 32
  | .store loc val => inst instStore (BitVec.ofNat 32 loc) (BitVec.ofNat 32 val)
  | .wait loc val => inst instWait (BitVec.ofNat 32 loc) (BitVec.ofNat 32 val)
  | .count loc val => inst instCount (BitVec.ofNat 32 loc) (BitVec.ofNat 32 val)

/-- The largest value that is waited for. -/
def maxVal : ℕ := 200 + 10 * numLoc

theorem slot_injective {t u a b : ℕ} (ha : a ≤ numLoc) (hb : b ≤ numLoc)
    (h : slot t a = slot u b) : t = u ∧ a = b := by
  simp only [slot, numLoc] at h ha hb
  omega

theorem slot_inRow {t a : ℕ} (ha : a ≤ numLoc) : slot t 0 ≤ slot t a ∧ slot t a < slot (t + 1) 0 := by
  simp only [slot, numLoc] at ha ⊢
  omega

theorem write_x_self (g : Gen) (j : ℕ) (v : BitVec 32) : (g.write j v).x (slot j (g.p j)) = v :=
  Function.update_self ..

theorem write_x_of_ne {g : Gen} {j t a : ℕ} (v : BitVec 32) (hp : g.p j ≤ numLoc) (ha : a ≤ numLoc)
    (h : ¬ (t = j ∧ a = g.p j)) : (g.write j v).x (slot t a) = g.x (slot t a) :=
  Function.update_of_ne (fun he => h (slot_injective ha hp he)) ..

theorem inst_of_getElem? {o : Option (Inst ℕ)} {i : Inst ℕ} {a : ℕ}
    (h : o.toList[a]? = some i) : a = 0 ∧ o = some i := by
  cases o with
  | none => cases h
  | some j =>
    cases a with
    | zero => exact ⟨rfl, h⟩
    | succ a => cases h

/-- All writes of a sub-group are in its row. -/
def InRows (n : ℕ) (g : Gen) : Prop :=
  ∀ w ∈ g.writes, w.1 < n ∧ slot w.1 0 ≤ w.2 ∧ w.2 < slot (w.1 + 1) 0

theorem InRows.write {n : ℕ} {g : Gen} (h : InRows n g) {j : ℕ} (hj : j < n) (hp : g.p j ≤ numLoc)
    (v : BitVec 32) : InRows n (g.write j v) := by
  intro w hw
  rcases List.mem_cons.mp hw with rfl | hw
  · exact ⟨hj, slot_inRow hp⟩
  · exact h w hw

variable {n : ℕ}

/-- After `k` rounds the table holds the programs of `k` signals. -/
structure Generated (ii : ℕ → ℕ) (k : ℕ) (sigs : List (Signal (Fin n) ℕ)) (g : Gen) : Prop where
  locs : sigs.map Signal.loc = (List.range' 0 k).map ii
  val : ∀ s ∈ sigs, s.val ≤ maxVal
  p : ∀ t : Fin n, g.p t = (signalProgram sigs t).length
  x : ∀ (t : Fin n) a i, (signalProgram sigs t)[a]? = some i → g.x (slot t a) = encode i
  inRows : InRows n g

theorem Generated.length {ii : ℕ → ℕ} {k : ℕ} {sigs : List (Signal (Fin n) ℕ)} {g : Gen}
    (h : Generated ii k sigs g) : sigs.length = k := by
  have := congrArg List.length h.locs
  rwa [List.length_map, List.length_map, List.length_range'] at this

theorem Generated.p_le {ii : ℕ → ℕ} {k : ℕ} {sigs : List (Signal (Fin n) ℕ)} {g : Gen}
    (h : Generated ii k sigs g) (t : Fin n) : g.p t ≤ k := by
  rw [h.p, ← h.length]
  exact signalProgram_length_le sigs t

/-- What a round does for a signal. -/
def Gen.signal (g : Gen) (s : Signal (Fin n) ℕ) : Gen :=
  (((g.write s.counter (encode (.count s.loc s.val))).write s.waiter
    (encode (.wait s.loc s.val))).advance s.counter).advance s.waiter

theorem Gen.signal_p (g : Gen) (s : Signal (Fin n) ℕ) (t : Fin n) :
    (g.signal s).p t = g.p t + (s.inst t).toList.length := by
  have hne : (s.counter : ℕ) ≠ s.waiter := fun he => s.ne (Fin.ext he)
  show Function.update (Function.update g.p s.counter (g.p s.counter + 1)) s.waiter
    (Function.update g.p s.counter (g.p s.counter + 1) s.waiter + 1) t = _
  by_cases hw : t = s.waiter
  · rw [hw, Function.update_self, Function.update_of_ne hne.symm, s.inst_waiter]
    rfl
  · rw [Function.update_of_ne (fun he => hw (Fin.ext he))]
    by_cases hc : t = s.counter
    · rw [hc, Function.update_self, s.inst_counter]
      rfl
    · rw [Function.update_of_ne (fun he => hc (Fin.ext he)), Signal.inst_of_ne hc hw]
      rfl

theorem Gen.signal_x_of_ne {g : Gen} (hle : ∀ t : Fin n, g.p t ≤ numLoc) (s : Signal (Fin n) ℕ)
    {t : Fin n} {a : ℕ} (ha : a ≤ numLoc) (hne : a ≠ g.p t) :
    (g.signal s).x (slot t a) = g.x (slot t a) := by
  show ((g.write s.counter _).write s.waiter _).x (slot t a) = _
  rw [write_x_of_ne (g := g.write s.counter _) _ (hle s.waiter) ha,
    write_x_of_ne _ (hle s.counter) ha]
  · rintro ⟨ht, rfl⟩
    exact hne (by rw [ht])
  · rintro ⟨ht, rfl⟩
    exact hne (by rw [ht]; rfl)

theorem Gen.signal_x_self {g : Gen} (hle : ∀ t : Fin n, g.p t ≤ numLoc) (s : Signal (Fin n) ℕ)
    {t : Fin n} {i : Inst ℕ} (h : s.inst t = some i) :
    (g.signal s).x (slot t (g.p t)) = encode i := by
  have hne : (s.counter : ℕ) ≠ s.waiter := fun he => s.ne (Fin.ext he)
  show ((g.write s.counter _).write s.waiter _).x (slot t (g.p t)) = encode i
  by_cases hw : t = s.waiter
  · subst hw
    rw [s.inst_waiter] at h
    cases h
    exact write_x_self (g.write s.counter _) s.waiter _
  · by_cases hc : t = s.counter
    · subst hc
      rw [s.inst_counter] at h
      cases h
      rw [write_x_of_ne (g := g.write s.counter _) _ (hle s.waiter) (hle s.counter)
        fun he => hne he.1]
      exact write_x_self g s.counter _
    · rw [Signal.inst_of_ne hc hw] at h
      cases h

/-- **One round adds a signal.** -/
theorem Generated.add {ii : ℕ → ℕ} {k : ℕ} {sigs : List (Signal (Fin n) ℕ)} {g : Gen}
    (h : Generated ii k sigs g) (hk : k < numLoc) (s : Signal (Fin n) ℕ) (hloc : s.loc = ii k)
    (hval : s.val ≤ maxVal) : Generated ii (k + 1) (sigs ++ [s]) (g.signal s) := by
  have hle : ∀ t : Fin n, g.p t ≤ numLoc := fun t => (h.p_le t).trans hk.le
  have hrows := (h.inRows.write s.counter.isLt (hle _) (encode (.count s.loc s.val))).write
    s.waiter.isLt (hle s.waiter) (encode (.wait s.loc s.val))
  refine ⟨?_, ?_, ?_, ?_, hrows⟩
  · rw [List.map_append, h.locs, List.range'_concat, List.map_append, List.map_singleton,
      List.map_singleton, hloc, Nat.mul_comm, Nat.mul_one, Nat.zero_add]
  · intro s' hs'
    rcases List.mem_append.mp hs' with hs' | hs'
    · exact h.val s' hs'
    · rw [List.mem_singleton.mp hs']
      exact hval
  · intro t
    rw [signalProgram_concat, List.length_append, ← h.p, g.signal_p]
  · intro t a i hi
    rw [signalProgram_concat] at hi
    rcases Nat.lt_or_ge a (signalProgram sigs t).length with ha | ha
    · -- an earlier instruction
      rw [List.getElem?_append_left ha] at hi
      rw [← h.p] at ha
      rw [g.signal_x_of_ne hle s (ha.le.trans (hle t)) ha.ne]
      exact h.x t a i hi
    · -- the new one
      rw [List.getElem?_append_right ha] at hi
      obtain ⟨hzero, hinst⟩ := inst_of_getElem? hi
      have ha' : a = g.p t := by
        rw [h.p]
        omega
      rw [ha']
      exact g.signal_x_self hle s hinst

theorem generated_body {ii : ℕ → ℕ} {k : ℕ} (hn : 2 ≤ n) (hk : k < numLoc) {s s' : Gen × Draws}
    (h : ∃ sigs : List (Signal (Fin n) ℕ), Generated ii k sigs s.1)
    (hs : pairBody n ii s k = some s') :
    ∃ sigs : List (Signal (Fin n) ℕ), Generated ii (k + 1) sigs s'.1 := by
  obtain ⟨sigs, h⟩ := h
  obtain ⟨⟨j0, draws⟩, h0, hs⟩ := Option.bind_eq_some_iff.mp hs
  obtain ⟨⟨j1, draws'⟩, h1, hs⟩ := Option.bind_eq_some_iff.mp hs
  obtain ⟨⟨val, draws''⟩, h2, hs⟩ := Option.bind_eq_some_iff.mp hs
  cases hs
  obtain ⟨_, hj0⟩ := randomInRange_cases h0
  obtain ⟨hj1, hne⟩ := differentInRange_cases h1
  let s : Signal (Fin n) ℕ :=
    { counter := ⟨j0, by omega⟩
      waiter := ⟨j1, by omega⟩
      ne := fun he => hne (Fin.mk.inj_iff.mp he).symm
      loc := ii k
      val := val }
  exact ⟨sigs ++ [s], h.add hk s rfl (randomInRange_cases h2).2⟩

theorem ended_loop {sigs : List (Signal (Fin n) ℕ)} {ii : ℕ → ℕ} {g : Gen}
    (h : Generated ii numLoc sigs g) :
    let g' := (List.range' 0 n).foldl (fun g i => g.write i (inst instEnd 0 0)) g
    Generated ii numLoc sigs g' ∧
      ∀ t : Fin n, g'.x (slot t (signalProgram sigs t).length) = inst instEnd 0 0 := by
  intro g'
  have hloop := foldl_invariant (f := fun (g : Gen) i => g.write i (inst instEnd 0 0))
    (I := fun i g => Generated ii numLoc sigs g ∧ ∀ t : Fin n, (t : ℕ) < i →
      g.x (slot t (signalProgram sigs t).length) = inst instEnd 0 0) (a := 0) (n := n) ?_
    (s := g) ⟨h, fun t ht => absurd ht (Nat.not_lt_zero _)⟩
  · rw [Nat.zero_add] at hloop
    exact ⟨hloop.1, fun t => hloop.2 t t.isLt⟩
  · rintro i g _ hi ⟨h, hend⟩
    have hin : i < n := by omega
    have hpi : g.p i = (signalProgram sigs ⟨i, hin⟩).length := h.p ⟨i, hin⟩
    have hle : ∀ t : Fin n, g.p t ≤ numLoc := h.p_le
    refine ⟨⟨h.locs, h.val, h.p, fun t a j hj => ?_, h.inRows.write hin (hle ⟨i, hin⟩) _⟩,
      fun t ht => ?_⟩
    · obtain ⟨ha, _⟩ := List.getElem?_eq_some_iff.mp hj
      rw [write_x_of_ne _ (hle ⟨i, hin⟩) (ha.le.trans (h.p t ▸ hle t))]
      · exact h.x t a j hj
      · rintro ⟨ht, rfl⟩
        have ht' : t = ⟨i, hin⟩ := Fin.ext ht
        rw [hpi, ht'] at ha
        exact lt_irrefl _ ha
    · by_cases hti : (t : ℕ) = i
      · have ht' : t = ⟨i, hin⟩ := Fin.ext hti
        rw [ht', ← hpi]
        exact write_x_self g i _
      · rw [write_x_of_ne _ (hle ⟨i, hin⟩) (h.p t ▸ hle t) fun he => hti he.1]
        exact hend t (by omega)

/-- A table holds the programs of signals with different locations. -/
structure IsTable (sigs : List (Signal (Fin n) ℕ)) (x : ℕ → BitVec 32) : Prop where
  apart : Apart sigs
  length : sigs.length = numLoc
  fits : ∀ s ∈ sigs, s.loc < numLoc ∧ s.val ≤ maxVal
  entry : ∀ (t : Fin n) a i, (signalProgram sigs t)[a]? = some i → x (slot t a) = encode i
  ends : ∀ t : Fin n, x (slot t (signalProgram sigs t).length) = inst instEnd 0 0

/-- **What `gen_insts` generates.** -/
theorem generated (hn : 2 ≤ n) {x : ℕ → BitVec 32} {draws : Draws} {g : Gen}
    (h : genInsts n x draws = some g) :
    InRows n g ∧ ∃ sigs : List (Signal (Fin n) ℕ), IsTable sigs g.x := by
  obtain ⟨⟨ii, draws'⟩, hii, h⟩ := Option.bind_eq_some_iff.mp h
  obtain ⟨⟨g', _⟩, hg, h⟩ := Option.bind_eq_some_iff.mp h
  cases h
  obtain ⟨hlt, hinj⟩ := shuffled_loop hii
  have hstart : Generated (n := n) ii 0 [] ⟨x, fun _ => 0, []⟩ :=
    ⟨rfl, nofun, fun _ => rfl, fun _ _ _ hi => (by cases hi), nofun⟩
  obtain ⟨sigs, hgen⟩ := foldlM_invariant
    (I := fun i s => ∃ sigs : List (Signal (Fin n) ℕ), Generated ii i sigs s.1)
    (fun i s s' _ hi => generated_body hn (by omega)) ⟨[], hstart⟩ hg
  rw [Nat.zero_add] at hgen
  obtain ⟨hend, hends⟩ := ended_loop hgen
  refine ⟨hend.inRows, sigs, ?_, hend.length, fun s hs => ⟨?_, hend.val s hs⟩, hend.x, hends⟩
  · rw [Apart, hend.locs]
    refine List.Nodup.map_on (fun a ha b hb he => ?_) List.nodup_range'
    have ha' := List.mem_range'_1.mp ha
    have hb' := List.mem_range'_1.mp hb
    exact hinj a b (by omega) (by omega) he
  · have hmem : s.loc ∈ sigs.map Signal.loc := List.mem_map_of_mem hs
    rw [hend.locs] at hmem
    obtain ⟨a, ha, he⟩ := List.mem_map.mp hmem
    have ha' := List.mem_range'_1.mp ha
    rw [← he]
    exact hlt a (by omega)

end OpenCLCTS.Subgroups.IFP
