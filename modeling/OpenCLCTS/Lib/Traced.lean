import Mathlib.Data.List.Infix
import Mathlib.Data.List.Range
import Mathlib.Logic.Function.Basic
import Mathlib.Tactic.Common

/-!
# Loops that leave a trace and may stop

A computation writes a trace and comes to a result, or stops before: at an access outside of a
buffer, at a division by zero, or because it reports a failure.

`Spec m L Q E` says of a computation that its trace is `L` and its result has `Q` if it comes to its
end, and that otherwise its trace is a part of `L` and it stops for a reason in `E`.  There is one
rule for each construct; the rule of loops (`Spec.forRange`) takes an invariant and the trace of
each turn.

`FailsAt bad m` says that a computation fails just where it has written something bad, and
`Checks bad m L` that it goes through `L` up to the first bad entry (`Spec.checks`).
-/

/-- Why a computation stops. -/
inductive Stop
  | outside
  | divisionByZero
  | failed
  deriving DecidableEq

/-- The trace and the result of a computation. -/
structure Traced (τ α : Type) where
  trace : List τ
  result : Except Stop α

namespace Traced

variable {τ α β σ ι : Type}

instance : Monad (Traced τ) where
  pure a := ⟨[], .ok a⟩
  bind m f :=
    match m.result with
    | .error e => ⟨m.trace, .error e⟩
    | .ok a => ⟨m.trace ++ (f a).trace, (f a).result⟩

def stop (e : Stop) : Traced τ α := ⟨[], .error e⟩

def emit (t : τ) : Traced τ Unit := ⟨[t], .ok ()⟩

/-- A comparison, which the trace keeps. -/
def judge (t : τ) (agrees : Bool) : Traced τ Unit := do
  emit t
  if agrees then pure () else stop .failed

/-- `for (i = 0; i < n; i++)`. -/
def forRange (body : ℕ → σ → Traced τ σ) (s : σ) : ℕ → Traced τ σ
  | 0 => pure s
  | n + 1 => forRange body s n >>= body n

/-- `for (i : is)`. -/
def forEach (body : ι → σ → Traced τ σ) : List ι → σ → Traced τ σ
  | [], s => pure s
  | i :: is, s => body i s >>= forEach body is

/-! ### Specifications -/

/-- What a computation does. -/
structure Spec (m : Traced τ α) (L : List τ) (Q : α → Prop) (E : Stop → Prop) : Prop where
  within : m.trace <+: L
  ok : ∀ a, m.result = .ok a → m.trace = L ∧ Q a
  error : ∀ e, m.result = .error e → E e

variable {m : Traced τ α} {f : α → Traced τ β} {L L' : List τ} {Q R : α → Prop} {E : Stop → Prop}

theorem Spec.pure {a : α} (h : Q a) : Spec (pure a : Traced τ α) [] Q E where
  within := List.prefix_rfl
  ok b hb := by
    cases hb
    exact ⟨rfl, h⟩
  error e he := by cases he

theorem Spec.stop {e : Stop} (h : E e) : Spec (stop e : Traced τ α) L Q E where
  within := List.nil_prefix
  ok b hb := by cases hb
  error e he := by
    cases he
    exact h

theorem Spec.emit {t : τ} {Q : Unit → Prop} (h : Q ()) : Spec (emit t) [t] Q E where
  within := List.prefix_rfl
  ok b hb := by
    cases hb
    exact ⟨rfl, h⟩
  error e he := by cases he

/-- **The rule of sequences.** -/
theorem Spec.bind {Q : β → Prop} (hm : Spec m L R E) (hf : ∀ a, R a → Spec (f a) L' Q E) :
    Spec (m >>= f) (L ++ L') Q E := by
  obtain ⟨trace, result⟩ := m
  cases result with
  | error e =>
    refine ⟨hm.within.trans (List.prefix_append L L'), fun b hb => ?_, fun e' he => ?_⟩
    · cases hb
    · cases he
      exact hm.error e rfl
  | ok a =>
    obtain ⟨htrace, ha⟩ := hm.ok a rfl
    obtain ⟨hwithin, hok, herror⟩ := hf a ha
    have hL : trace = L := htrace
    subst hL
    refine ⟨(List.prefix_append_right_inj _).mpr hwithin, fun b hb => ?_, fun e he => herror e he⟩
    obtain ⟨htail, hQ⟩ := hok b hb
    exact ⟨congrArg (trace ++ ·) htail, hQ⟩

theorem Spec.imp (h : Spec m L Q E) (hQ : ∀ a, Q a → R a) : Spec m L R E :=
  ⟨h.within, fun a ha => ⟨(h.ok a ha).1, hQ a (h.ok a ha).2⟩, h.error⟩

theorem Spec.congr (h : Spec m L Q E) (hL : L = L') : Spec m L' Q E := hL ▸ h

theorem Spec.silent_bind {Q : β → Prop} (hm : Spec m [] R E) (hf : ∀ a, R a → Spec (f a) L Q E) :
    Spec (m >>= f) L Q E :=
  hm.bind hf

theorem Spec.bind_silent {Q : β → Prop} (hm : Spec m L R E) (hf : ∀ a, R a → Spec (f a) [] Q E) :
    Spec (m >>= f) L Q E :=
  (hm.bind hf).congr (List.append_nil L)

theorem Spec.ite {p : Prop} [Decidable p] {m m' : Traced τ α} (h : p → Spec m L Q E)
    (h' : ¬ p → Spec m' L Q E) : Spec (if p then m else m') L Q E := by
  split
  · exact h ‹_›
  · exact h' ‹_›

theorem Spec.judge {t : τ} {agrees : Bool} (hE : E .failed) :
    Spec (judge t agrees) [t] (fun _ => True) E := by
  refine Spec.bind_silent (R := fun _ => True) (.emit trivial) ?_
  intro _ _
  exact .ite (fun _ => .pure trivial) fun _ => .stop hE

/-- **The rule of loops.** -/
theorem Spec.forRange {body : ℕ → σ → Traced τ σ} {I : ℕ → σ → Prop} {T : ℕ → List τ} {n : ℕ}
    (hbody : ∀ i s, i < n → I i s → Spec (body i s) (T i) (I (i + 1)) E) {s : σ} (h0 : I 0 s) :
    Spec (forRange body s n) ((List.range n).flatMap T) (I n) E := by
  induction n with
  | zero => exact .pure h0
  | succ n ih =>
    rw [List.range_succ, List.flatMap_append, List.flatMap_singleton]
    exact (ih fun i s hi => hbody i s (by omega)).bind fun s hs => hbody n s (Nat.lt_succ_self n) hs

theorem Spec.forRange_silent {body : ℕ → σ → Traced τ σ} {I : ℕ → σ → Prop} {n : ℕ}
    (hbody : ∀ i s, i < n → I i s → Spec (body i s) [] (I (i + 1)) E) {s : σ} (h0 : I 0 s) :
    Spec (Traced.forRange body s n) [] (I n) E := by
  have hflat : (List.range n).flatMap (fun _ => ([] : List τ)) = [] := by simp
  exact (Spec.forRange hbody h0).congr hflat

theorem Spec.forEach {body : ι → σ → Traced τ σ} {I : σ → Prop} {T : ι → List τ} {is : List ι}
    (hbody : ∀ i ∈ is, ∀ s, I s → Spec (body i s) (T i) I E) {s : σ} (hs : I s) :
    Spec (forEach body is s) (is.flatMap T) I E := by
  induction is generalizing s with
  | nil => exact .pure hs
  | cons i is ih =>
    rw [List.flatMap_cons]
    refine (hbody i List.mem_cons_self s hs).bind ?_
    intro s hs
    exact ih (fun j hj => hbody j (List.mem_cons_of_mem i hj)) hs

/-- The rule of loops over the numbers that have a property; the invariant is also kept at the
others. -/
theorem Spec.forEach_filter {p : ℕ → Bool} {body : ℕ → σ → Traced τ σ} {I : ℕ → σ → Prop}
    {T : ℕ → List τ} {a n : ℕ}
    (hbody : ∀ i s, i < a + n → p i = true → I i s → Spec (body i s) (T i) (I (i + 1)) E)
    (hskip : ∀ i s, p i = false → I i s → I (i + 1) s) {s : σ} (ha : I a s) :
    Spec (Traced.forEach body ((List.range' a n).filter p) s)
      ((List.range' a n).flatMap fun i => if p i = true then T i else []) (I (a + n)) E := by
  induction n generalizing a s with
  | zero => exact .pure ha
  | succ n ih =>
    rw [List.range'_succ, List.flatMap_cons]
    rw [show a + (n + 1) = a + 1 + n by omega] at hbody ⊢
    cases hp : p a with
    | true =>
      rw [List.filter_cons_of_pos hp, if_pos rfl]
      exact (hbody a s (by omega) hp ha).bind fun s hs => ih hbody hs
    | false =>
      rw [List.filter_cons_of_neg (by simp [hp]), if_neg Bool.false_ne_true, List.nil_append]
      exact ih hbody (hskip a s hp ha)

/-! ### Computations that come to their end -/

theorem ok_of_bind {b : β} (h : (m >>= f).result = .ok b) :
    ∃ a, m.result = .ok a ∧ (f a).result = .ok b := by
  obtain ⟨trace, result⟩ := m
  cases result with
  | error e => cases h
  | ok a => exact ⟨a, rfl, h⟩

theorem ok_of_forRange {body : ℕ → σ → Traced τ σ} {s s' : σ} {n : ℕ}
    (h : (forRange body s (n + 1)).result = .ok s') : ∃ t, (body n t).result = .ok s' := by
  obtain ⟨t, _, ht⟩ := ok_of_bind h
  exact ⟨t, ht⟩

theorem Spec.total (h : Spec m L Q fun _ => False) : ∃ a, m.result = .ok a ∧ Q a := by
  cases hresult : m.result with
  | error e => exact (h.error e hresult).elim
  | ok a => exact ⟨a, rfl, (h.ok a hresult).2⟩

/-! ### Computations that stop at the first bad entry -/

section

variable {bad : τ → Prop}

/-- A computation fails where it has just written something bad, and only there. -/
structure FailsAt (bad : τ → Prop) (m : Traced τ α) : Prop where
  ok : ∀ a, m.result = .ok a → ∀ t ∈ m.trace, ¬ bad t
  failed : m.result = .error .failed →
    ∃ before t, m.trace = before ++ [t] ∧ (∀ u ∈ before, ¬ bad u) ∧ bad t

theorem FailsAt.pure (a : α) : FailsAt bad (pure a : Traced τ α) where
  ok _ _ _ ht := absurd ht List.not_mem_nil
  failed h := by cases h

theorem FailsAt.stop {e : Stop} (he : e ≠ .failed) : FailsAt bad (stop e : Traced τ α) where
  ok _ _ _ ht := absurd ht List.not_mem_nil
  failed h := absurd (Except.error.inj h) he

theorem FailsAt.bind (hm : FailsAt bad m) (hf : ∀ a, FailsAt bad (f a)) :
    FailsAt bad (m >>= f) := by
  obtain ⟨trace, result⟩ := m
  cases result with
  | error e =>
    refine ⟨fun b hb => ?_, fun he => ?_⟩
    · cases hb
    · cases he
      exact hm.failed rfl
  | ok a =>
    have hgood := hm.ok a rfl
    refine ⟨fun b hb t ht => ?_, fun he => ?_⟩
    · rcases List.mem_append.mp ht with ht | ht
      · exact hgood t ht
      · exact (hf a).ok b hb t ht
    · obtain ⟨before, t, htrace, hbefore, hbad⟩ := (hf a).failed he
      refine ⟨trace ++ before, t, ?_, ?_, hbad⟩
      · show trace ++ (f a).trace = _
        rw [htrace, List.append_assoc]
      · intro u hu
        rcases List.mem_append.mp hu with hu | hu
        · exact hgood u hu
        · exact hbefore u hu

theorem FailsAt.ite {p : Prop} [Decidable p] {m m' : Traced τ α} (h : FailsAt bad m)
    (h' : FailsAt bad m') : FailsAt bad (if p then m else m') := by
  split
  · exact h
  · exact h'

theorem FailsAt.judge {t : τ} {agrees : Bool} (h : agrees = false ↔ bad t) :
    FailsAt bad (judge t agrees) := by
  cases agrees with
  | true =>
    refine ⟨fun _ _ u hu => ?_, fun he => by cases he⟩
    rw [List.mem_singleton.mp hu, ← h]
    exact Bool.noConfusion
  | false =>
    exact ⟨fun _ ha => (by cases ha), fun _ => ⟨[], t, rfl, fun _ hu => (by cases hu), h.mp rfl⟩⟩

theorem FailsAt.forRange {body : ℕ → σ → Traced τ σ} (hbody : ∀ i s, FailsAt bad (body i s))
    (s : σ) (n : ℕ) : FailsAt bad (forRange body s n) := by
  induction n with
  | zero => exact .pure s
  | succ n ih => exact ih.bind (hbody n)

theorem FailsAt.forEach {body : ι → σ → Traced τ σ} (hbody : ∀ i s, FailsAt bad (body i s))
    (is : List ι) (s : σ) : FailsAt bad (forEach body is s) := by
  induction is generalizing s with
  | nil => exact .pure s
  | cons i is ih => exact (hbody i s).bind ih

/-- **A computation goes through a list up to its first bad entry**: it comes to its end if there is
none, and fails at it otherwise. -/
structure Checks (bad : τ → Prop) (m : Traced τ α) (L : List τ) : Prop where
  passes : (∀ t ∈ L, ¬ bad t) → m.trace = L ∧ ∃ a, m.result = .ok a
  fails : ∀ before t after, L = before ++ t :: after → (∀ u ∈ before, ¬ bad u) → bad t →
    m.trace = before ++ [t] ∧ m.result = .error .failed

theorem eq_of_first_bad {before before' after : List τ} {t t' : τ}
    (h : before' ++ [t'] <+: before ++ t :: after) (hgood : ∀ u ∈ before, ¬ bad u) (hbad : bad t)
    (hgood' : ∀ u ∈ before', ¬ bad u) (hbad' : bad t') : before' ++ [t'] = before ++ [t] := by
  obtain ⟨rest, hrest⟩ := h
  rw [List.append_assoc, List.singleton_append] at hrest
  rcases List.append_eq_append_iff.mp hrest with ⟨us, hus, htail⟩ | ⟨us, hus, htail⟩
  · cases us with
    | nil =>
      obtain ⟨rfl, -⟩ := List.cons.inj htail
      rw [hus, List.append_nil]
    | cons u us =>
      obtain ⟨rfl, -⟩ := List.cons.inj htail
      exact absurd hbad' (hgood t' (hus ▸ by simp))
  · cases us with
    | nil =>
      obtain ⟨rfl, -⟩ := List.cons.inj htail
      rw [hus, List.append_nil]
    | cons u us =>
      obtain ⟨rfl, -⟩ := List.cons.inj htail
      exact absurd hbad (hgood' t (hus ▸ by simp))

/-- **A computation that fails at bad entries, and for no other reason.** -/
theorem Spec.checks (h : Spec m L Q (· = .failed)) (hm : FailsAt bad m) : Checks bad m L where
  passes hgood := by
    cases hresult : m.result with
    | ok a => exact ⟨(h.ok a hresult).1, a, rfl⟩
    | error e =>
      rw [h.error e hresult] at hresult
      obtain ⟨before, t, htrace, -, hbad⟩ := hm.failed hresult
      have hmem : t ∈ m.trace := by simp [htrace]
      exact absurd hbad (hgood t (h.within.subset hmem))
  fails before t after hL hbefore hbad := by
    cases hresult : m.result with
    | ok a =>
      have htrace := (h.ok a hresult).1
      have hmem : t ∈ m.trace := by simp [htrace, hL]
      exact absurd hbad (hm.ok a hresult t hmem)
    | error e =>
      have he := h.error e hresult
      rw [he] at hresult
      obtain ⟨before', t', htrace, hbefore', hbad'⟩ := hm.failed hresult
      have hleading := h.within
      rw [htrace, hL] at hleading
      rw [htrace, he]
      exact ⟨eq_of_first_bad hleading hbefore hbad hbefore' hbad', rfl⟩

theorem Checks.ok_iff (h : Checks bad m L) :
    (∃ a, m.result = .ok a) ↔ ∀ t ∈ L, ¬ bad t := by
  classical
  refine ⟨fun ⟨a, ha⟩ => ?_, fun hgood => (h.passes hgood).2⟩
  cases hfind : L.find? (decide <| bad ·) with
  | none => simpa using hfind
  | some t =>
    obtain ⟨hbad, before, after, hL, hbefore⟩ := List.find?_eq_some_iff_append.mp hfind
    have hfails := (h.fails before t after hL (by simpa using hbefore) (by simpa using hbad)).2
    rw [ha] at hfails
    cases hfails

end

end Traced

/-! ### Buffers -/

/-- An array of `size` elements. -/
structure Buffer (α : Type) where
  size : ℕ
  get : ℕ → α

namespace Buffer

open Traced

variable {τ α : Type} {b : Buffer α} {i : ℕ} {v : α} {Q : α → Prop} {E : Stop → Prop}

def read (b : Buffer α) (i : ℕ) : Traced τ α := if i < b.size then pure (b.get i) else stop .outside

/-- A read with a signed index. -/
def readAt (b : Buffer α) (i : ℤ) : Traced τ α := if 0 ≤ i then b.read i.toNat else stop .outside

/-- `b[i] = v`. -/
def set (b : Buffer α) (i : ℕ) (v : α) : Buffer α := { b with get := Function.update b.get i v }

def write (b : Buffer α) (i : ℕ) (v : α) : Traced τ (Buffer α) :=
  if i < b.size then pure (b.set i v) else stop .outside

@[simp] theorem set_size (b : Buffer α) (i : ℕ) (v : α) : (b.set i v).size = b.size := rfl

@[simp] theorem set_get_self (b : Buffer α) (i : ℕ) (v : α) : (b.set i v).get i = v :=
  Function.update_self ..

theorem set_get_of_ne {j : ℕ} (h : j ≠ i) : (b.set i v).get j = b.get j := Function.update_of_ne h ..

theorem spec_read (hi : i < b.size) : Spec (b.read i : Traced τ α) [] (· = b.get i) E := by
  rw [read, if_pos hi]
  exact .pure rfl

theorem spec_readAt {z : ℤ} (hz : 0 ≤ z) (hi : z.toNat < b.size) (hQ : Q (b.get z.toNat)) :
    Spec (b.readAt z : Traced τ α) [] Q E := by
  rw [readAt, if_pos hz]
  exact (spec_read hi).imp fun v hv => hv ▸ hQ

variable {bad : τ → Prop}

theorem failsAt_read (b : Buffer α) (i : ℕ) : FailsAt bad (b.read i : Traced τ α) :=
  .ite (.pure _) (.stop nofun)

theorem failsAt_readAt (b : Buffer α) (i : ℤ) : FailsAt bad (b.readAt i : Traced τ α) :=
  .ite (failsAt_read b _) (.stop nofun)

theorem failsAt_write (b : Buffer α) (i : ℕ) (v : α) :
    FailsAt bad (b.write i v : Traced τ (Buffer α)) :=
  .ite (.pure _) (.stop nofun)

theorem spec_write (hi : i < b.size) :
    Spec (b.write i v : Traced τ (Buffer α)) [] (· = b.set i v) E := by
  rw [write, if_pos hi]
  exact .pure rfl

end Buffer
