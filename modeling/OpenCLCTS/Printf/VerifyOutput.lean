import Mathlib.Data.List.Basic
import Mathlib.Tactic.Common

/-!
# The check of the output of printf

`verifyOutputBuffer` compares what a kernel has printed with a reference.  Implementations may write
exponents with more zeros in front, so the strings are cut at the marks of exponents: `E+`, `e+`,
`E-` and `e-`, in the order of the search and not of the text.

* `compareLoop_eq_zero_iff`: what the loop accepts.
* `verifyOutputBuffer_iff`: when this is the same text up to zeros in front of exponents.
* `verifyOutputBuffer_oneMark`: the same for an output with one exponent.
-/

namespace OpenCLCTS.Printf

/-! ### `verifyOutputBuffer` -/

/-- `strstr`, for a text of two characters: what stands before its first occurrence and behind. -/
def strstr (c d : Char) : List Char → Option (List Char × List Char)
  | a :: b :: l =>
    if a = c ∧ b = d then some ([], l) else (strstr c d (b :: l)).map fun p => (a :: p.1, p.2)
  | _ => none

/-- `strcmp`, where all differences are 1. -/
def strcmp (s t : List Char) : ℕ := if s = t then 0 else 1

/-- The marks of exponents, in the order of the search. -/
def exponentMarks : List (Char × Char) := [('E', '+'), ('e', '+'), ('E', '-'), ('e', '-')]

/-- The mark that the loop finds, what stands before it and behind. -/
def findMark (staging : List Char) : Option ((Char × Char) × List Char × List Char) :=
  exponentMarks.findSome? fun m => (strstr m.1 m.2 staging).map fun p => (m, p)

/-- `while (*exp == '0') ++exp`. -/
def skipZeros (exp : List Char) : List Char := exp.dropWhile (· = '0')

section

variable {c d : Char} {l u v o exp before : List Char} {m : Char × Char}

theorem strstr_eq (h : strstr c d l = some (u, v)) : l = u ++ c :: d :: v := by
  induction l generalizing u with
  | nil => cases h
  | cons a l ih =>
    cases l with
    | nil => cases h
    | cons b l =>
      rw [strstr] at h
      split at h
      · rename_i hmark
        obtain ⟨rfl, rfl⟩ := hmark
        cases h
        rfl
      · obtain ⟨p, hp, heq⟩ := Option.map_eq_some_iff.mp h
        cases heq
        rw [ih hp]
        rfl

theorem findMark_spec (h : findMark o = some (m, before, exp)) :
    m ∈ exponentMarks ∧ strstr m.1 m.2 o = some (before, exp) := by
  obtain ⟨m', hmem, h⟩ := List.exists_of_findSome?_eq_some h
  obtain ⟨p, hp, heq⟩ := Option.map_eq_some_iff.mp h
  cases heq
  exact ⟨hmem, hp⟩

theorem skipZeros_suffix (exp : List Char) : skipZeros exp <:+ exp := List.dropWhile_suffix _

theorem length_skipZeros_lt (h : findMark o = some (m, before, exp)) :
    (skipZeros exp).length < o.length := by
  have hle := (skipZeros_suffix exp).length_le
  rw [strstr_eq (findMark_spec h).2, List.length_append, List.length_cons, List.length_cons]
  omega

end

/-- The loop that compares the texts before the marks; 0 if everything is equal. -/
def compareLoop (staging stagingCorrect : List Char) : ℕ :=
  match _h : findMark staging with
  | none => strcmp stagingCorrect staging
  | some (m, before, exp) =>
    -- `strncmp`
    if ¬ before <+: stagingCorrect then 1
    else
      match strstr m.1 m.2 stagingCorrect with
      | none => 1
      | some (_, eCorrectBuffer) =>
        if exp.length < 2 then 1
        else compareLoop (skipZeros exp) (skipZeros eCorrectBuffer)
termination_by staging.length
decreasing_by exact length_skipZeros_lt _h

/-- `verifyOutputBuffer`, for test cases that do not print an address. -/
def verifyOutputBuffer (analysisBuffer correctBuffer : List Char) : ℕ :=
  let analysisBuffer := analysisBuffer.dropLast
  let both (s t : String) : ℕ :=
    if strcmp analysisBuffer s.toList ≠ 0 ∧ strcmp analysisBuffer t.toList ≠ 0 then 1 else 0
  if (findMark analysisBuffer).isSome then compareLoop analysisBuffer correctBuffer
  else if correctBuffer = "inf".toList then both "inf" "infinity"
  else if correctBuffer = "INF".toList then both "INF" "INFINITY"
  else if correctBuffer = "nan".toList then both "nan" "-nan"
  else if correctBuffer = "NAN".toList then both "NAN" "-NAN"
  else strcmp analysisBuffer correctBuffer

/-! ### What should be accepted -/

/-- The mark of an exponent. -/
def isMark (a b : Char) : Bool := (a = 'e' || a = 'E') && (b = '+' || b = '-')

/-- Deletes the zeros in front of exponents; `skip` is set behind a mark. -/
def stripFrom (previous : Char) (skip : Bool) : List Char → List Char
  | [] => []
  | c :: l =>
    if skip && c = '0' then stripFrom c true l else c :: stripFrom c (isMark previous c) l

/-- The text without zeros in front of exponents. -/
def strip (l : List Char) : List Char := stripFrom ' ' false l

/-- Exponents have two digits, or more. -/
def TwoDigits (l : List Char) : Prop :=
  ∀ u a b v, isMark a b = true → l = u ++ a :: b :: v →
    ∃ d d' w, v = d :: d' :: w ∧ d.isDigit = true ∧ d'.isDigit = true

/-- The output is the reference, up to zeros in front of exponents. -/
structure Equivalent (output correct : List Char) : Prop where
  strip : strip output = strip correct
  digits : TwoDigits output

/-! ### Zeros in front of exponents -/

section

variable {a b c d p : Char} {s : Bool} {l u v : List Char}

theorem isMark_iff_mem : isMark a b = true ↔ (a, b) ∈ exponentMarks := by
  simp only [isMark, exponentMarks, Bool.and_eq_true, Bool.or_eq_true, decide_eq_true_eq,
    List.mem_cons, List.not_mem_nil, or_false, Prod.mk.injEq]
  tauto

/-- The second character of a mark is not the first one of another. -/
theorem isMark_false_left (h : isMark a b = true) (p : Char) : isMark p a = false := by
  simp only [isMark, Bool.and_eq_true, Bool.or_eq_true, decide_eq_true_eq] at h
  rcases h.1 with rfl | rfl <;> simp [isMark]

theorem isMark_false_right (h : isMark a b = true) (p : Char) : isMark b p = false := by
  simp only [isMark, Bool.and_eq_true, Bool.or_eq_true, decide_eq_true_eq] at h
  rcases h.2 with rfl | rfl <;> simp [isMark]

theorem ne_zero_of_isMark (h : isMark a b = true) : a ≠ '0' ∧ b ≠ '0' := by
  simp only [isMark, Bool.and_eq_true, Bool.or_eq_true, decide_eq_true_eq] at h
  obtain ⟨ha, hb⟩ := h
  constructor
  · rcases ha with rfl | rfl <;> decide
  · rcases hb with rfl | rfl <;> decide

theorem stripFrom_true (hp : ∀ c, isMark p c = false) (l : List Char) :
    stripFrom p true l = strip (skipZeros l) := by
  induction l generalizing p with
  | nil => rfl
  | cons c l ih =>
    by_cases hc : c = '0'
    · subst hc
      exact ih fun c => rfl
    · rw [stripFrom, if_neg (by simp [hc]), skipZeros, List.dropWhile_cons_of_neg (by simp [hc]),
        strip, stripFrom, hp c]
      rfl

theorem stripFrom_mark (h : isMark a b = true) (p : Char) (s : Bool) (l : List Char) :
    stripFrom p s (a :: b :: l) = a :: b :: strip (skipZeros l) := by
  obtain ⟨ha, hb⟩ := ne_zero_of_isMark h
  rw [stripFrom, if_neg (by simp [ha]), stripFrom, if_neg (by simp [hb]), h,
    stripFrom_true (isMark_false_right h)]

/-- **A search for a mark** finds it also in the stripped text. -/
theorem strstr_stripFrom (h : isMark c d = true) (p : Char) (s : Bool) (l : List Char) :
    strstr c d (stripFrom p s l)
      = (strstr c d l).map fun q => (stripFrom p s q.1, strip (skipZeros q.2)) := by
  induction l generalizing p s with
  | nil => rfl
  | cons a l ih =>
    cases l with
    | nil =>
      rw [stripFrom]
      split <;> rfl
    | cons b l =>
      by_cases hskip : (s && decide (a = '0')) = true
      · have hne : ¬ (a = c ∧ b = d) := by
          intro hac
          rw [Bool.and_eq_true, decide_eq_true_eq] at hskip
          exact (ne_zero_of_isMark h).1 (hac.1 ▸ hskip.2)
        rw [stripFrom, if_pos hskip, ih, strstr, if_neg hne, Option.map_map]
        congr 1
        funext q
        simp only [Function.comp_apply, stripFrom, hskip, if_true]
      · by_cases hmark : a = c ∧ b = d
        · obtain ⟨rfl, rfl⟩ := hmark
          rw [stripFrom_mark h, strstr, if_pos ⟨rfl, rfl⟩, strstr, if_pos ⟨rfl, rfl⟩]
          rfl
        · -- no mark comes into being
          have hcons : strstr c d (a :: stripFrom a (isMark p a) (b :: l))
              = (strstr c d (stripFrom a (isMark p a) (b :: l))).map fun q => (a :: q.1, q.2) := by
            cases hrest : stripFrom a (isMark p a) (b :: l) with
            | nil => rfl
            | cons b' l' =>
              rw [strstr, if_neg]
              intro hac
              rw [hac.1, isMark_false_left h, stripFrom, if_neg (by simp)] at hrest
              exact hmark ⟨hac.1, (List.cons.inj hrest).1.trans hac.2⟩
          rw [stripFrom, if_neg hskip, hcons, ih, strstr, if_neg hmark, Option.map_map, Option.map_map]
          congr 1
          funext q
          simp only [Function.comp_apply, stripFrom, hskip, Bool.false_eq_true, if_false]

theorem findMark_eq_none : findMark l = none ↔ ∀ m ∈ exponentMarks, strstr m.1 m.2 l = none := by
  simp only [findMark, List.findSome?_eq_none_iff, Option.map_eq_none_iff]

theorem findMark_strip_eq_none : findMark (strip l) = none ↔ findMark l = none := by
  simp only [findMark_eq_none]
  refine forall₂_congr ?_
  intro m hm
  rw [strip, strstr_stripFrom (isMark_iff_mem.mpr hm), Option.map_eq_none_iff]

theorem stripFrom_of_findMark_none (p : Char) (l : List Char) (h : findMark (p :: l) = none) :
    stripFrom p false l = l := by
  induction l generalizing p with
  | nil => rfl
  | cons c l ih =>
    rw [findMark_eq_none] at h
    have hmark : isMark p c = false := by
      by_contra hne
      have hnone := h (p, c) (isMark_iff_mem.mp (by simpa using hne))
      rw [strstr, if_pos ⟨rfl, rfl⟩] at hnone
      cases hnone
    rw [stripFrom, if_neg (by simp), hmark, ih c]
    rw [findMark_eq_none]
    intro m hm
    have hnone := h m hm
    rw [strstr] at hnone
    split at hnone
    · cases hnone
    · exact Option.map_eq_none_iff.mp hnone

theorem strip_of_findMark_none (h : findMark l = none) : strip l = l := by
  refine stripFrom_of_findMark_none ' ' l ?_
  rw [findMark_eq_none] at h ⊢
  intro m hm
  cases l with
  | nil => rfl
  | cons c l =>
    have hblank : ¬ (' ' = m.1 ∧ c = m.2) := by
      intro hc
      have hm' := isMark_iff_mem.mpr hm
      rw [← hc.1] at hm'
      simp [isMark] at hm'
    rw [strstr, if_neg hblank, h m hm]
    rfl

end

/-! ### Digits -/

section

variable {o r exp before : List Char} {m : Char × Char}

theorem TwoDigits.of_suffix {l l' : List Char} (h : TwoDigits l) (hl : l' <:+ l) : TwoDigits l' := by
  obtain ⟨p, rfl⟩ := hl
  intro u a b v hmark heq
  refine h (p ++ u) a b v hmark ?_
  rw [heq, List.append_assoc]

theorem TwoDigits.of_findMark (h : TwoDigits o) (hfound : findMark o = some (m, before, exp)) :
    2 ≤ exp.length ∧ TwoDigits (skipZeros exp) := by
  obtain ⟨hmem, hstr⟩ := findMark_spec hfound
  have heq := strstr_eq hstr
  obtain ⟨d, d', w, rfl, -⟩ := h before m.1 m.2 exp (isMark_iff_mem.mpr hmem) heq
  refine ⟨Nat.le_add_left 2 w.length, h.of_suffix ?_⟩
  rw [heq]
  exact (skipZeros_suffix _).trans ⟨before ++ [m.1, m.2], by simp⟩

/-! ### The loop -/

/-- The output and the reference when all comparisons succeed: the reference has the text before
each mark that is found, and the mark itself, maybe later, and behind the last one they are equal.
It is kept whether the reference has another text before a mark. -/
inductive Passes : Bool → List Char → List Char → Prop
  | last {o : List Char} : findMark o = none → Passes false o o
  | mark {skips : Bool} {m : Char × Char} {o before exp r u eCorrect : List Char} :
    findMark o = some (m, before, exp) → before <+: r → strstr m.1 m.2 r = some (u, eCorrect) →
    2 ≤ exp.length → Passes skips (skipZeros exp) (skipZeros eCorrect) →
    Passes (decide (strip u ≠ strip before) || skips) o r

/-- The text before a mark that is found has an exponent of another kind, and it is not the
reference's. -/
inductive Misaligned : List Char → List Char → Prop
  | here {m : Char × Char} {o before exp r : List Char} : findMark o = some (m, before, exp) →
    ¬ before <+: r → Misaligned o r
  | later {m : Char × Char} {o before exp r u eCorrect : List Char} :
    findMark o = some (m, before, exp) → before <+: r → strstr m.1 m.2 r = some (u, eCorrect) →
    Misaligned (skipZeros exp) (skipZeros eCorrect) → Misaligned o r

theorem compareLoop_of_none (h : findMark o = none) : compareLoop o r = strcmp r o := by
  rw [compareLoop]
  split
  · rfl
  · rename_i hfound
    rw [h] at hfound
    cases hfound

theorem compareLoop_of_some (h : findMark o = some (m, before, exp)) : compareLoop o r =
    if ¬ before <+: r then 1
    else match strstr m.1 m.2 r with
      | none => 1
      | some (_, eCorrect) =>
        if exp.length < 2 then 1 else compareLoop (skipZeros exp) (skipZeros eCorrect) := by
  rw [compareLoop]
  split
  · rename_i hnone
    rw [h] at hnone
    cases hnone
  · rename_i hfound
    rw [h] at hfound
    cases hfound
    rfl

theorem strcmp_eq_zero {s t : List Char} : strcmp s t = 0 ↔ s = t := by
  rw [strcmp]
  split <;> simp [*]

/-- **What the loop accepts.** -/
theorem compareLoop_eq_zero_iff (o r : List Char) :
    compareLoop o r = 0 ↔ ∃ skips, Passes skips o r := by
  induction hn : o.length using Nat.strongRecOn generalizing o r with
  | ind n ih =>
    subst hn
    cases hfound : findMark o with
    | none =>
      rw [compareLoop_of_none hfound, strcmp_eq_zero]
      constructor
      · intro h
        subst h
        exact ⟨false, .last hfound⟩
      · intro h
        obtain ⟨skips, h⟩ := h
        cases h with
        | last _ => rfl
        | mark h => exact absurd (hfound.symm.trans h) nofun
    | some found =>
      obtain ⟨m, before, exp⟩ := found
      have hrest (eCorrect : List Char) := ih _ (length_skipZeros_lt hfound) (skipZeros exp)
        (skipZeros eCorrect) rfl
      rw [compareLoop_of_some hfound]
      constructor
      · intro h
        split at h
        · cases h
        · rename_i hbefore
          split at h
          · cases h
          · rename_i u eCorrect hstr
            split at h
            · cases h
            · rename_i hlength
              obtain ⟨skips, h⟩ := (hrest eCorrect).mp h
              exact ⟨_, .mark hfound (not_not.mp hbefore) hstr (Nat.not_lt.mp hlength) h⟩
      · intro h
        obtain ⟨skips, h⟩ := h
        cases h with
        | last h => exact absurd (hfound.symm.trans h) nofun
        | mark h hbefore hstr hlength hpasses =>
          obtain ⟨⟩ := Option.some.inj (hfound.symm.trans h)
          rw [if_neg (not_not.mpr hbefore), hstr]
          dsimp only
          rw [if_neg (Nat.not_lt.mpr hlength)]
          exact (hrest _).mpr ⟨_, hpasses⟩

theorem strstr_strip (hm : m ∈ exponentMarks) {l u v : List Char} (h : strstr m.1 m.2 l = some (u, v)) :
    strstr m.1 m.2 (strip l) = some (strip u, strip (skipZeros v)) := by
  rw [strip, strstr_stripFrom (isMark_iff_mem.mpr hm), h]
  rfl

/-- **What is accepted** is the reference up to zeros if no other text is skipped. -/
theorem Passes.strip_iff {skips : Bool} (h : Passes skips o r) :
    strip o = strip r ↔ skips = false := by
  induction h with
  | last _ => exact iff_of_true rfl rfl
  | mark hfound hbefore hstr hlength hpasses ih =>
    obtain ⟨hmem, hstr'⟩ := findMark_spec hfound
    have ho := strstr_strip hmem hstr'
    have hr := strstr_strip hmem hstr
    rw [Bool.or_eq_false_iff, ← ih, decide_eq_false_iff_not, not_not]
    constructor
    · intro heq
      rw [heq, hr, Option.some.injEq, Prod.mk.injEq] at ho
      exact ⟨ho.1, ho.2.symm⟩
    · intro heq
      rw [strstr_eq ho, strstr_eq hr, heq.1, heq.2]

/-- **What should be accepted** is, if it is aligned. -/
theorem Equivalent.compareLoop_iff (h : Equivalent o r) :
    compareLoop o r = 0 ↔ ¬ Misaligned o r := by
  induction hn : o.length using Nat.strongRecOn generalizing o r with
  | ind n ih =>
    subst hn
    cases hfound : findMark o with
    | none =>
      have hr : findMark r = none := by
        rw [← findMark_strip_eq_none, ← h.strip, findMark_strip_eq_none, hfound]
      have heq : o = r := by
        rw [← strip_of_findMark_none hfound, h.strip, strip_of_findMark_none hr]
      rw [compareLoop_of_none hfound, strcmp_eq_zero]
      refine iff_of_true heq.symm ?_
      intro hmis
      cases hmis with
      | here h => exact absurd (hfound.symm.trans h) nofun
      | later h => exact absurd (hfound.symm.trans h) nofun
    | some found =>
      obtain ⟨m, before, exp⟩ := found
      obtain ⟨hmem, hstr⟩ := findMark_spec hfound
      obtain ⟨hlength, hdigits⟩ := h.digits.of_findMark hfound
      have ho := strstr_strip hmem hstr
      rw [compareLoop_of_some hfound]
      by_cases hbefore : before <+: r
      · rw [if_neg (not_not.mpr hbefore)]
        -- the reference has the mark, too
        cases hr : strstr m.1 m.2 r with
        | none =>
          rw [h.strip, Printf.strip, strstr_stripFrom (isMark_iff_mem.mpr hmem), hr] at ho
          cases ho
        | some found =>
          obtain ⟨u, eCorrect⟩ := found
          have hrest : Equivalent (skipZeros exp) (skipZeros eCorrect) := by
            rw [h.strip, strstr_strip hmem hr, Option.some.injEq, Prod.mk.injEq] at ho
            exact ⟨ho.2.symm, hdigits⟩
          dsimp only
          rw [if_neg (Nat.not_lt.mpr hlength), ih _ (length_skipZeros_lt hfound) hrest rfl, not_iff_not]
          constructor
          · intro hmis
            exact .later hfound hbefore hr hmis
          · intro hmis
            cases hmis with
            | here h hb =>
              obtain ⟨⟩ := Option.some.inj (hfound.symm.trans h)
              exact absurd hbefore hb
            | later h hb hstr' hmis =>
              obtain ⟨⟩ := Option.some.inj (hfound.symm.trans h)
              obtain ⟨⟩ := Option.some.inj (hr.symm.trans hstr')
              exact hmis
      · rw [if_pos hbefore]
        exact iff_of_false Nat.one_ne_zero (not_not.mpr (.here hfound hbefore))

end

/-- The references that have a spelling of their own. -/
def ownSpelling : List (List Char) := ["inf".toList, "INF".toList, "nan".toList, "NAN".toList]

theorem verifyOutputBuffer_eq {analysisBuffer correctBuffer : List Char}
    (h : correctBuffer ∉ ownSpelling) :
    verifyOutputBuffer analysisBuffer correctBuffer = 0 ↔
      compareLoop analysisBuffer.dropLast correctBuffer = 0 := by
  simp only [ownSpelling, List.mem_cons, List.not_mem_nil, or_false, not_or] at h
  rw [verifyOutputBuffer, if_neg h.1, if_neg h.2.1, if_neg h.2.2.1, if_neg h.2.2.2]
  cases hfound : findMark analysisBuffer.dropLast with
  | none =>
    rw [compareLoop_of_none hfound]
    show strcmp analysisBuffer.dropLast correctBuffer = 0 ↔
      strcmp correctBuffer analysisBuffer.dropLast = 0
    rw [strcmp_eq_zero, strcmp_eq_zero, eq_comm]
  | some found => rfl

/-- **The output is accepted if it is the reference up to zeros in front of exponents**, just if no
other text before a mark is skipped, what is accepted has exponents of two digits, and the text
before the marks that are compared is the same in what is equivalent. -/
theorem verifyOutputBuffer_iff (analysisBuffer correctBuffer : List Char)
    (h : correctBuffer ∉ ownSpelling) :
    (verifyOutputBuffer analysisBuffer correctBuffer = 0 ↔
      Equivalent analysisBuffer.dropLast correctBuffer) ↔
    ¬ Passes true analysisBuffer.dropLast correctBuffer ∧
      (Passes false analysisBuffer.dropLast correctBuffer → TwoDigits analysisBuffer.dropLast) ∧
      ¬ (Equivalent analysisBuffer.dropLast correctBuffer ∧
        Misaligned analysisBuffer.dropLast correctBuffer) := by
  rw [verifyOutputBuffer_eq h]
  constructor
  · intro hiff
    refine ⟨fun hpasses => ?_, fun hpasses => ?_, fun hmis => ?_⟩
    · have hequiv := hiff.mp ((compareLoop_eq_zero_iff _ _).mpr ⟨_, hpasses⟩)
      exact absurd (hpasses.strip_iff.mp hequiv.strip) nofun
    · exact (hiff.mp ((compareLoop_eq_zero_iff _ _).mpr ⟨_, hpasses⟩)).digits
    · exact hmis.1.compareLoop_iff.mp (hiff.mpr hmis.1) hmis.2
  · intro hcond
    obtain ⟨hskips, hdigits, hmis⟩ := hcond
    constructor
    · intro haccepted
      obtain ⟨skips, hpasses⟩ := (compareLoop_eq_zero_iff _ _).mp haccepted
      cases skips with
      | true => exact absurd hpasses hskips
      | false => exact ⟨hpasses.strip_iff.mpr rfl, hdigits hpasses⟩
    · intro hequiv
      exact hequiv.compareLoop_iff.mpr fun h => hmis ⟨hequiv, h⟩

/-! ### Outputs with one mark -/

section

variable {o r before exp : List Char} {m : Char × Char}

theorem strstr_strip_oneMark (hm : m ∈ exponentMarks) (h : strstr m.1 m.2 o = some (before, exp))
    (hbefore : findMark before = none) (hexp : findMark (skipZeros exp) = none) :
    strstr m.1 m.2 (strip o) = some (before, skipZeros exp) := by
  rw [strstr_strip hm h, strip_of_findMark_none hbefore, strip_of_findMark_none hexp]

theorem strip_eq_iff_oneMark (hm : m ∈ exponentMarks) (h : strstr m.1 m.2 o = some (before, exp))
    (hbefore : findMark before = none) (hexp : findMark (skipZeros exp) = none) :
    strip o = strip r ↔
      ∃ eCorrect, strstr m.1 m.2 r = some (before, eCorrect) ∧ skipZeros exp = skipZeros eCorrect := by
  have ho := strstr_strip_oneMark hm h hbefore hexp
  constructor
  · intro heq
    rw [heq, strip, strstr_stripFrom (isMark_iff_mem.mpr hm)] at ho
    obtain ⟨⟨between, eCorrect⟩, hr, heq⟩ := Option.map_eq_some_iff.mp ho
    have hbetween : strip between = before := congrArg Prod.fst heq
    have hzeros : strip (skipZeros eCorrect) = skipZeros exp := congrArg Prod.snd heq
    rw [← hbetween, findMark_strip_eq_none] at hbefore
    rw [← hzeros, findMark_strip_eq_none] at hexp
    rw [strip_of_findMark_none hbefore] at hbetween
    rw [strip_of_findMark_none hexp] at hzeros
    exact ⟨eCorrect, hbetween ▸ hr, hzeros.symm⟩
  · rintro ⟨eCorrect, hr, hzeros⟩
    have hr' := strstr_strip_oneMark hm hr hbefore (hzeros ▸ hexp)
    rw [strstr_eq ho, strstr_eq hr', hzeros]

/-- **What the loop accepts**, if the output has one mark. -/
theorem compareLoop_oneMark (hfound : findMark o = some (m, before, exp))
    (hexp : findMark (skipZeros exp) = none) :
    compareLoop o r = 0 ↔ before <+: r ∧ 2 ≤ exp.length ∧ ∃ between eCorrect,
      strstr m.1 m.2 r = some (between, eCorrect) ∧ skipZeros exp = skipZeros eCorrect := by
  rw [compareLoop_of_some hfound]
  by_cases hleading : before <+: r
  · rw [if_neg (not_not.mpr hleading)]
    cases hr : strstr m.1 m.2 r with
    | none => simp
    | some found =>
      obtain ⟨between, eCorrect⟩ := found
      dsimp only
      split
      · simp; omega
      · rename_i hlength
        rw [compareLoop_of_none hexp, strcmp_eq_zero]
        simp only [hleading, Nat.not_lt.mp hlength, true_and, Option.some.injEq, Prod.mk.injEq]
        constructor
        · intro heq
          exact ⟨_, _, ⟨rfl, rfl⟩, heq.symm⟩
        · rintro ⟨_, _, ⟨-, rfl⟩, heq⟩
          exact heq.symm
  · simp [hleading]

/-- **With one exponent in the output**, the code meets the claim just if in every reference that fits it
the same text stands before the mark, and the exponent has two digits. -/
theorem verifyOutputBuffer_oneMark {analysisBuffer correctBuffer : List Char}
    (h : correctBuffer ∉ ownSpelling)
    (hfound : findMark analysisBuffer.dropLast = some (m, before, exp))
    (hbefore : findMark before = none) (hexp : findMark (skipZeros exp) = none) :
    (verifyOutputBuffer analysisBuffer correctBuffer = 0 ↔
      Equivalent analysisBuffer.dropLast correctBuffer) ↔
    (before <+: correctBuffer → 2 ≤ exp.length → ∀ between eCorrect,
      strstr m.1 m.2 correctBuffer = some (between, eCorrect) →
      skipZeros exp = skipZeros eCorrect → between = before ∧ TwoDigits analysisBuffer.dropLast) := by
  obtain ⟨hm, hstr⟩ := findMark_spec hfound
  have hstrip := @strip_eq_iff_oneMark _ correctBuffer _ _ _ hm hstr hbefore hexp
  rw [verifyOutputBuffer_eq h, compareLoop_oneMark hfound hexp]
  constructor
  · intro hiff hleading hlength between eCorrect hr hzeros
    have hequiv := hiff.mp ⟨hleading, hlength, between, eCorrect, hr, hzeros⟩
    obtain ⟨eCorrect', hr', -⟩ := hstrip.mp hequiv.strip
    rw [hr, Option.some.injEq, Prod.mk.injEq] at hr'
    exact ⟨hr'.1, hequiv.digits⟩
  · intro hcond
    constructor
    · rintro ⟨hleading, hlength, between, eCorrect, hr, hzeros⟩
      obtain ⟨rfl, hdigits⟩ := hcond hleading hlength between eCorrect hr hzeros
      exact ⟨hstrip.mpr ⟨eCorrect, hr, hzeros⟩, hdigits⟩
    · intro hequiv
      obtain ⟨eCorrect, hr, hzeros⟩ := hstrip.mp hequiv.strip
      refine ⟨?_, (hequiv.digits.of_findMark hfound).1, before, eCorrect, hr, hzeros⟩
      rw [strstr_eq hr]
      exact List.prefix_append before _

end

/-- The reference and the output of `"%e"` on a platform with exponents of three digits. -/
theorem verifyOutputBuffer_three_digits :
    (verifyOutputBuffer "1.5e+005\n".toList "1.5e+05".toList = 0 ↔
      Equivalent "1.5e+005".toList "1.5e+05".toList) ↔
    ¬ Passes true "1.5e+005".toList "1.5e+05".toList ∧
      (Passes false "1.5e+005".toList "1.5e+05".toList → TwoDigits "1.5e+005".toList) ∧
      ¬ (Equivalent "1.5e+005".toList "1.5e+05".toList ∧
        Misaligned "1.5e+005".toList "1.5e+05".toList) :=
  verifyOutputBuffer_iff "1.5e+005\n".toList "1.5e+05".toList (by decide)

/-- An output without digits behind the point is accepted. -/
theorem verifyOutputBuffer_accepts_short : ¬ ∀ analysisBuffer correctBuffer : List Char,
    analysisBuffer ≠ [] → correctBuffer ∉ ownSpelling →
    (verifyOutputBuffer analysisBuffer correctBuffer = 0 ↔
      Equivalent analysisBuffer.dropLast correctBuffer) := by
  intro h
  have hiff := h "1e+05\n".toList "1.000000e+05".toList (by decide) (by decide)
  have hfound : findMark "1e+05".toList = some (('e', '+'), ['1'], ['0', '5']) := by decide
  have hpasses : Passes true "1e+05".toList "1.000000e+05".toList :=
    .mark hfound (by decide) (by decide : strstr 'e' '+' "1.000000e+05".toList
      = some ("1.000000".toList, ['0', '5'])) (by decide) (.last (by decide))
  have hequiv := hiff.mp ((verifyOutputBuffer_eq (by decide)).mpr
    ((compareLoop_eq_zero_iff _ _).mpr ⟨true, hpasses⟩))
  exact absurd (hpasses.strip_iff.mp hequiv.strip) nofun

end OpenCLCTS.Printf
