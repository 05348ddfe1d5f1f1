import OpenCLCTS.Harness.RandomInRange

/-!
# Names of components

`get_order_string` writes the components of a swizzle with the letters `xyzw`, or as hexadecimal
digits after an `s`.  If both are possible every second string has digits, and the case of each
letter is random.

`reads_getOrderString`: **whatever the names are, the components are read back.**
-/

namespace OpenCLCTS.Relationals

/-- The components of a swizzle, one for each position. -/
abbrev ShuffleOrder := ℕ → ℕ

/-! ### What draws names -/

/-- `useNumbersFlip`, and the position in the stream of the generator. -/
structure NamesState where
  useNumbersFlip : ℕ
  position : ℕ

abbrev Names := StateM NamesState

/-- The result is such, from every state. -/
def Always {α : Type} (m : Names α) (P : α → Prop) : Prop := ∀ s, P (m s).1

section

variable {α β : Type} {m : Names α} {f : α → Names β} {P R : α → Prop}

theorem Always.pure {a : α} (h : P a) : Always (pure a) P := fun _ => h

theorem Always.bind {P : β → Prop} (hm : Always m R) (hf : ∀ a, R a → Always (f a) P) :
    Always (m >>= f) P := fun s => hf (m s).1 (hm s) (m s).2

theorem Always.trivial (m : Names α) : Always m fun _ => True := fun _ => True.intro

end

variable (genrand : ℕ → BitVec 32)

/-- `random_in_range(0, 1, d)`. -/
def randomBit : Names Bool := do
  let s ← get
  set { s with position := s.position + 1 }
  pure (Harness.randomInRange 0 1 (genrand s.position) ≠ 0)

/-! ### The strings -/

def names : List Char := "0123456789abcdefghijklmnopqrstuv".toList

def namesUpperCase : List Char := "0123456789ABCDEFGHIJKLMNOPQRSTUV".toList

def names2 : List Char := "xyzw!!!!!!!!!!!!".toList

/-- The digits of an order. -/
def orderDigits : List ℕ → Names (List Char)
  | [] => pure []
  | k :: ks => do
    let lower ← randomBit genrand
    let digits ← orderDigits ks
    pure ((if lower then names.getD k '!' else namesUpperCase.getD k '!') :: digits)

/-- The flip that says whether numbers are used where they need not be. -/
def flipNumbers : Names Bool := do
  let s ← get
  set { s with useNumbersFlip := s.useNumbersFlip + 1 }
  pure (s.useNumbersFlip % 2 ≠ 0)

/-- `byNumber`: a component behind the fourth one needs numbers. -/
def useNumbers (order : ShuffleOrder) (lengthToUse : ℕ) : Names Bool :=
  if (List.range lengthToUse).any fun j => order j > 3 then pure true else flipNumbers

/-- `get_order_string`. -/
def getOrderString (order : ShuffleOrder) (vecSize lengthToUse : ℕ) : Names (List Char) := do
  let components := (List.range (min vecSize lengthToUse)).map order
  let byNumber ← useNumbers order lengthToUse
  if byNumber then
    let lower ← randomBit genrand
    let digits ← orderDigits genrand components
    pure ((if lower then 's' else 'S') :: digits)
  else pure (components.map fun k => names2.getD k '!')

/-! ### What the names mean -/

/-- A hexadecimal digit. -/
def hexDigit (c : Char) : Option ℕ :=
  if '0' ≤ c ∧ c ≤ '9' then some (c.toNat - '0'.toNat)
  else if 'a' ≤ c ∧ c ≤ 'f' then some (c.toNat - 'a'.toNat + 10)
  else if 'A' ≤ c ∧ c ≤ 'F' then some (c.toNat - 'A'.toNat + 10)
  else none

/-- One of the letters `xyzw`. -/
def letter : Char → Option ℕ
  | 'x' => some 0
  | 'y' => some 1
  | 'z' => some 2
  | 'w' => some 3
  | _ => none

/-- The components that are named behind the dot. -/
def readNames : List Char → Option (List ℕ)
  | 's' :: digits | 'S' :: digits => digits.mapM hexDigit
  | letters => letters.mapM letter

variable {genrand} {order : ShuffleOrder} {vecSize lengthToUse : ℕ}

theorem hexDigit_names : ∀ k < 16, hexDigit (names.getD k '!') = some k := by decide

theorem hexDigit_namesUpperCase : ∀ k < 16, hexDigit (namesUpperCase.getD k '!') = some k := by
  decide

theorem letter_names2 : ∀ k < 4, letter (names2.getD k '!') = some k := by decide

/-- The letters are not the `s` before digits. -/
theorem readNames_letters (cs : List Char) (h : ∀ c ∈ cs, letter c ≠ none) :
    readNames cs = cs.mapM letter := by
  cases cs with
  | nil => rfl
  | cons c cs =>
    have hc := h c List.mem_cons_self
    unfold readNames
    split
    · rename_i heq
      cases heq
      exact absurd rfl hc
    · rename_i heq
      cases heq
      exact absurd rfl hc
    · rfl

theorem mapM_eq_some {α β : Type*} {f : α → Option β} {g : α → β} {ks : List α}
    (h : ∀ k ∈ ks, f k = some (g k)) : ks.mapM f = some (ks.map g) := by
  induction ks with
  | nil => rfl
  | cons k ks ih =>
    rw [List.map_cons, List.mapM_cons, h k List.mem_cons_self,
      ih fun k hk => h k (List.mem_cons_of_mem _ hk)]
    rfl

theorem reads_orderDigits {ks : List ℕ} (h : ∀ k ∈ ks, k < 16) :
    Always (orderDigits genrand ks) fun digits => digits.mapM hexDigit = some ks := by
  induction ks with
  | nil => exact .pure rfl
  | cons k ks ih =>
    refine (Always.trivial _).bind ?_
    intro lower _
    refine (ih fun k hk => h k (List.mem_cons_of_mem _ hk)).bind fun digits hdigits => .pure ?_
    have hk := h k List.mem_cons_self
    have hdigit : hexDigit (if lower then names.getD k '!' else namesUpperCase.getD k '!')
        = some k := by
      cases lower with
      | true => exact hexDigit_names k hk
      | false => exact hexDigit_namesUpperCase k hk
    rw [List.mapM_cons, hdigit, hdigits]
    rfl

theorem useNumbers_spec (order : ShuffleOrder) (lengthToUse : ℕ) :
    Always (useNumbers order lengthToUse) fun byNumber =>
      byNumber = false → ∀ j < lengthToUse, order j < 4 := by
  rw [useNumbers]
  split
  · exact .pure fun h => by cases h
  · rename_i hany
    refine fun s _ j hj => ?_
    by_contra hge
    exact hany (List.any_eq_true.mpr ⟨j, List.mem_range.mpr hj, by simpa using by omega⟩)

/-- **Whatever the names are, the components are read back.** -/
theorem reads_getOrderString (hlength : lengthToUse ≤ vecSize)
    (horder : ∀ j < lengthToUse, order j < 16) :
    Always (getOrderString genrand order vecSize lengthToUse) fun cs =>
      readNames cs = some ((List.range lengthToUse).map order) := by
  rw [getOrderString, Nat.min_eq_right hlength]
  have hdigits : ∀ k ∈ (List.range lengthToUse).map order, k < 16 := by
    intro k hk
    obtain ⟨j, hj, rfl⟩ := List.mem_map.mp hk
    exact horder j (List.mem_range.mp hj)
  refine (useNumbers_spec order lengthToUse).bind ?_
  intro byNumber hbyNumber
  cases byNumber with
  | true =>
    refine (Always.trivial _).bind ?_
    intro lower _
    refine (reads_orderDigits hdigits).bind fun digits hread => .pure ?_
    cases lower with
    | true => exact hread
    | false => exact hread
  | false =>
    have hletters : ∀ k ∈ (List.range lengthToUse).map order,
        letter (names2.getD k '!') = some k := by
      intro k hk
      obtain ⟨j, hj, rfl⟩ := List.mem_map.mp hk
      exact letter_names2 _ (hbyNumber rfl j (List.mem_range.mp hj))
    refine .pure ?_
    rw [readNames_letters]
    · have hread := mapM_eq_some (g := id) hletters
      rw [List.map_id] at hread
      rwa [List.mapM_map]
    · intro c hc
      obtain ⟨k, hk, rfl⟩ := List.mem_map.mp hc
      rw [hletters k hk]
      exact Option.some_ne_none k

end OpenCLCTS.Relationals
