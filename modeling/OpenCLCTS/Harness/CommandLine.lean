import OpenCLCTS.Harness.TestRunner

/-!
# Tests of the command line

`parseAndCallCommandLineTests` of `testHarness.cpp` marks the tests that its arguments select
and runs them.  `find_matching_tests` marks the tests of one argument: the test of that name,
or, for an argument with a `*`, the tests whose names start as the argument without its last
character does.

* `toOption_findMatchingTests`, `toOption_selectTests`: the marks after one argument and after all.
* `parseAndCall_spec`: **what is run, and what is returned**.
-/

namespace OpenCLCTS.TestRunner

/-- `test_status`. -/
inductive TestStatus
  | pass
  | fail
  | skip
  | skippedItself
  deriving DecidableEq

/-- `test_definition`. -/
structure TestDefinition (F : Type) where
  func : Option F
  name : List Char

/-- `EXIT_SUCCESS` and `EXIT_FAILURE`. -/
inductive ExitStatus
  | success
  | failure
  deriving DecidableEq

/-- What `find_matching_tests` logs. -/
inductive SelectionError
  | alreadySelected (name : List Char)
  | missingImplementation (name : List Char)
  | noMatch (argument : List Char)
  deriving DecidableEq

/-- `strncmp(s, t, n) == 0`. -/
def strncmpEq (s t : List Char) (n : ℕ) : Bool := s.take n == t.take n

section

variable {F : Type} {n : ℕ} (testList : Fin n → TestDefinition F)

/-- The condition on a test in `find_matching_tests`. -/
def matchesArgument (argument : List Char) (isWildcard : Bool) (i : Fin n) : Bool :=
  (!isWildcard && (testList i).name == argument) ||
    (isWildcard && strncmpEq (testList i).name argument (argument.length - 1))

/-- The loop of `find_matching_tests`, with `selectedTestList` and `found_tests`. -/
def findLoop (argument : List Char) (isWildcard : Bool) :
    List (Fin n) → (Fin n → Bool) → Bool → Except SelectionError ((Fin n → Bool) × Bool)
  | [], selected, found => .ok (selected, found)
  | i :: rest, selected, found =>
    if matchesArgument testList argument isWildcard i then
      if selected i then .error (.alreadySelected (testList i).name)
      else if (testList i).func.isNone then .error (.missingImplementation (testList i).name)
      else if isWildcard then
        findLoop argument isWildcard rest (Function.update selected i true) true
      else .ok (Function.update selected i true, true)
    else findLoop argument isWildcard rest selected found

/-- `find_matching_tests`. -/
def findMatchingTests (selected : Fin n → Bool) (argument : List Char) (isWildcard : Bool) :
    Except SelectionError (Fin n → Bool) := do
  let (selected, found) ← findLoop testList argument isWildcard (List.finRange n) selected false
  if found then .ok selected else .error (.noMatch argument)

/-- The loop over the arguments. -/
def selectTests : List (List Char) → (Fin n → Bool) → Except SelectionError (Fin n → Bool)
  | [], selected => .ok selected
  | argument :: rest, selected =>
    if '*' ∈ argument then do selectTests rest (← findMatchingTests testList selected argument true)
    else if argument = "all".toList then .ok fun _ => true
    else do selectTests rest (← findMatchingTests testList selected argument false)

/-- The file that `CL_CONFORMANCE_RESULTS_FILENAME` names. -/
structure ResultsFile where
  fileName : Option (List Char)
  opens : Bool
  closes : Bool

/-- What `saveResultsToJson` returns. -/
def saveResultsToJson (file : ResultsFile) : ExitStatus :=
  match file.fileName with
  | none => .success
  | some _ => if file.opens && file.closes then .success else .failure

/-- The results that make a call fail. -/
def TestStatus.failed : TestStatus → Bool
  | .pass | .skip => false
  | .fail | .skippedItself => true

/-- What a call does: the tests that it runs, with all results, and what it returns. -/
structure CallOutcome (n : ℕ) where
  run : Option ((Fin n → Bool) × (Fin n → TestStatus))
  ret : ExitStatus

/-- The tests that are marked in the end. -/
def selection (args : List (List Char)) : Except SelectionError (Fin n → Bool) :=
  if args = [] then .ok fun _ => true else selectTests testList args fun _ => false

/-- `parseAndCallCommandLineTests`; `args` are the arguments after the name of the program. -/
def parseAndCallCommandLineTests (callSingleTestFunction : TestDefinition F → TestStatus)
    (file : ResultsFile) (args : List (List Char)) : CallOutcome n :=
  match selection testList args with
  | .error _ => ⟨none, .failure⟩
  | .ok selected =>
    let results := serial ⟨callSingleTestFunction, testList, selected, fun _ => .pass⟩
    ⟨some (selected, results),
      if (List.finRange n).any fun i => (results i).failed then .failure
      else saveResultsToJson file⟩

/-! ### What the arguments select -/

/-- A test that an argument selects. -/
def Selects (argument name : List Char) : Prop :=
  if '*' ∈ argument then argument.takeWhile (· ≠ '*') <+: name else name = argument

instance (argument name : List Char) : Decidable (Selects argument name) :=
  inferInstanceAs (Decidable (if '*' ∈ argument then _ <+: name else name = argument))

/-- Every argument selects a test, and no test is selected by two of them. -/
structure Selectable (args : List (List Char)) : Prop where
  some : ∀ a ∈ args, ∃ i, Selects a (testList i).name
  once : args.Pairwise fun a b => ∀ i, ¬ (Selects a (testList i).name ∧ Selects b (testList i).name)

instance (args : List (List Char)) : Decidable (Selectable testList args) :=
  decidable_of_iff ((∀ a ∈ args, ∃ i, Selects a (testList i).name) ∧ args.Pairwise fun a b =>
      ∀ i, ¬ (Selects a (testList i).name ∧ Selects b (testList i).name))
    ⟨fun h => ⟨h.1, h.2⟩, fun h => ⟨h.some, h.once⟩⟩

end

variable {F : Type} {n : ℕ} {testList : Fin n → TestDefinition F} {argument : List Char}
  {args : List (List Char)} {isWildcard : Bool} {selected : Fin n → Bool}

/-- Where the only `*` is the last character. -/
theorem takeWhile_eq_dropLast (h : '*' ∈ argument) (hlast : '*' ∉ argument.dropLast) :
    argument.takeWhile (· ≠ '*') = argument.dropLast := by
  have hne : argument ≠ [] := List.ne_nil_of_mem h
  have hsplit := List.dropLast_concat_getLast hne
  have hstar : argument.getLast hne = '*' := by
    rw [← hsplit, List.mem_append, List.mem_singleton] at h
    exact (h.resolve_left hlast).symm
  have hpos : ∀ c ∈ argument.dropLast, decide (c ≠ '*') = true := by
    intro c hc
    refine decide_eq_true ?_
    rintro rfl
    exact hlast hc
  calc argument.takeWhile (· ≠ '*')
      = (argument.dropLast ++ ['*']).takeWhile (· ≠ '*') := by rw [← hstar, hsplit]
    _ = argument.dropLast := by
      rw [List.takeWhile_append_of_pos hpos]
      exact List.append_nil _

theorem matchesArgument_iff (hlast : '*' ∉ argument.dropLast) (i : Fin n) :
    matchesArgument testList argument (decide ('*' ∈ argument)) i = true
      ↔ Selects argument (testList i).name := by
  rw [Selects]
  by_cases hstar : '*' ∈ argument
  · rw [if_pos hstar, takeWhile_eq_dropLast hstar hlast, List.prefix_iff_eq_take]
    simp only [matchesArgument, strncmpEq, hstar, decide_true, Bool.not_true, Bool.false_and,
      Bool.false_or, Bool.true_and, beq_iff_eq, List.dropLast_eq_take, List.length_take,
      Nat.min_eq_left (Nat.sub_le _ _)]
    exact eq_comm
  · simp [matchesArgument, hstar]

/-- The marks after a loop over `l`, and whether it has found a test. -/
def marksAfter (isMatch : Fin n → Bool) (l : List (Fin n)) (selected : Fin n → Bool) (found : Bool) :
    (Fin n → Bool) × Bool :=
  (fun i => selected i || decide (i ∈ l) && isMatch i, found || l.any isMatch)

section

variable {isMatch : Fin n → Bool} {i : Fin n} {rest : List (Fin n)} {found : Bool}

theorem marksAfter_of_match (hm : isMatch i = true) :
    marksAfter isMatch rest (Function.update selected i true) true
      = marksAfter isMatch (i :: rest) selected found := by
  refine Prod.ext (funext fun j => ?_) ?_
  · rcases eq_or_ne j i with rfl | hne
    · simp [marksAfter, hm]
    · simp [marksAfter, hne]
  · simp [marksAfter, hm]

theorem marksAfter_of_not (hm : ¬ isMatch i = true) :
    marksAfter isMatch rest selected found = marksAfter isMatch (i :: rest) selected found := by
  refine Prod.ext (funext fun j => ?_) ?_
  · rcases eq_or_ne j i with rfl | hne
    · simp [marksAfter, hm]
    · simp [marksAfter, hne]
  · simp [marksAfter, hm]

theorem marksAfter_of_only (hm : isMatch i = true) (honly : ∀ j, isMatch j → j = i) :
    (Function.update selected i true, true) = marksAfter isMatch (i :: rest) selected found := by
  refine Prod.ext (funext fun j => ?_) ?_
  · rcases eq_or_ne j i with rfl | hne
    · simp [marksAfter, hm]
    · have hmj : isMatch j = false := Bool.eq_false_of_not_eq_true fun h => hne (honly j h)
      simp [marksAfter, hne, hmj]
  · simp [marksAfter, hm]

end

theorem toOption_findLoop (hfunc : ∀ i, (testList i).func.isSome)
    (honly : isWildcard = false → ∀ i j, matchesArgument testList argument isWildcard i →
      matchesArgument testList argument isWildcard j → i = j)
    (l : List (Fin n)) (hl : l.Nodup) (selected : Fin n → Bool) (found : Bool) :
    (findLoop testList argument isWildcard l selected found).toOption =
      if ∀ i ∈ l, matchesArgument testList argument isWildcard i → selected i = false then
        some (marksAfter (matchesArgument testList argument isWildcard) l selected found)
      else none := by
  induction l generalizing selected found with
  | nil => simp [findLoop, marksAfter, Except.toOption]
  | cons i rest ih =>
    obtain ⟨hi, hrest⟩ := List.nodup_cons.mp hl
    rw [findLoop]
    by_cases hm : matchesArgument testList argument isWildcard i
    · rw [if_pos hm]
      cases hs : selected i with
      | true =>
        rw [if_pos rfl, if_neg]
        · rfl
        · intro hall
          rw [hall i List.mem_cons_self hm] at hs
          cases hs
      | false =>
        have hsome : (testList i).func.isNone = false := by
          rw [← Option.not_isSome, hfunc i, Bool.not_true]
        rw [if_neg Bool.false_ne_true, hsome, if_neg Bool.false_ne_true]
        cases isWildcard with
        | true =>
          -- the other tests have the marks that they had
          have hkept : ∀ j ∈ rest, Function.update selected i true j = selected j := by
            intro j hj
            refine Function.update_of_ne ?_ _ _
            rintro rfl
            exact hi hj
          rw [if_pos rfl, ih hrest]
          refine if_congr ?_ (congrArg some (marksAfter_of_match hm)) rfl
          rw [List.forall_mem_cons]
          refine ⟨fun h => ⟨fun _ => hs, fun j hj hmj => ?_⟩, fun h j hj hmj => ?_⟩
          · rw [← hkept j hj]
            exact h j hj hmj
          · rw [hkept j hj]
            exact h.2 j hj hmj
        | false =>
          have hother : ∀ j, matchesArgument testList argument false j → j = i :=
            fun j hmj => honly rfl j i hmj hm
          rw [if_neg Bool.false_ne_true, if_pos]
          · exact congrArg some (marksAfter_of_only hm hother)
          · intro j _ hmj
            rw [hother j hmj, hs]
    · rw [if_neg hm, ih hrest]
      refine if_congr ?_ (congrArg some (marksAfter_of_not hm)) rfl
      rw [List.forall_mem_cons]
      exact ⟨fun h => ⟨fun h' => absurd h' hm, h⟩, fun h => h.2⟩

/-- **The tests that one argument marks.** -/
theorem toOption_findMatchingTests (hfunc : ∀ i, (testList i).func.isSome)
    (honly : isWildcard = false → ∀ i j, matchesArgument testList argument isWildcard i →
      matchesArgument testList argument isWildcard j → i = j) (selected : Fin n → Bool) :
    (findMatchingTests testList selected argument isWildcard).toOption =
      if (∃ i, matchesArgument testList argument isWildcard i) ∧
          ∀ i, matchesArgument testList argument isWildcard i → selected i = false then
        some fun i => selected i || matchesArgument testList argument isWildcard i
      else none := by
  have hloop := toOption_findLoop hfunc honly (List.finRange n) (List.nodup_finRange n) selected false
  simp only [marksAfter, List.mem_finRange, decide_true, Bool.true_and, forall_true_left,
    Bool.false_or] at hloop
  have hany : (List.finRange n).any (matchesArgument testList argument isWildcard) = true ↔
      ∃ i, matchesArgument testList argument isWildcard i := by
    simp only [List.any_eq_true, List.mem_finRange, true_and]
  rw [findMatchingTests]
  cases hf : findLoop testList argument isWildcard (List.finRange n) selected false with
  | error e =>
    rw [hf] at hloop
    have hno : ¬ ∀ i, matchesArgument testList argument isWildcard i → selected i = false := by
      intro hall
      rw [if_pos hall] at hloop
      cases hloop
    rw [if_neg fun h => hno h.2]
    rfl
  | ok result =>
    rw [hf] at hloop
    by_cases hall : ∀ i, matchesArgument testList argument isWildcard i → selected i = false
    · rw [if_pos hall] at hloop
      obtain rfl := Option.some.inj hloop
      by_cases hex : ∃ i, matchesArgument testList argument isWildcard i
      · rw [if_pos ⟨hex, hall⟩]
        simp only [Except.toOption, bind, Except.bind, hany.mpr hex, if_true]
      · rw [if_neg fun h => hex h.1]
        simp only [Except.toOption, bind, Except.bind, mt hany.mp hex, if_false,
          Bool.false_eq_true]
    · rw [if_neg hall] at hloop
      cases hloop

theorem toOption_marks (hfunc : ∀ i, (testList i).func.isSome)
    (hnames : Function.Injective fun i => (testList i).name) (hlast : '*' ∉ argument.dropLast)
    (selected : Fin n → Bool) :
    (findMatchingTests testList selected argument (decide ('*' ∈ argument))).toOption =
      if (∃ i, Selects argument (testList i).name) ∧
          ∀ i, Selects argument (testList i).name → selected i = false then
        some fun i => selected i || decide (Selects argument (testList i).name)
      else none := by
  have heq (i : Fin n) : matchesArgument testList argument (decide ('*' ∈ argument)) i
      = decide (Selects argument (testList i).name) := by
    rw [Bool.eq_iff_iff, matchesArgument_iff hlast, decide_eq_true_eq]
  rw [toOption_findMatchingTests hfunc]
  · simp only [heq, decide_eq_true_eq]
  · intro hwild i j hi hj
    rw [heq, decide_eq_true_eq, Selects, if_neg (of_decide_eq_false hwild)] at hi hj
    exact hnames (hi.trans hj.symm)

theorem toOption_bind {ε α β : Type} (x : Except ε α) (f : α → Except ε β) :
    (x >>= f).toOption = x.toOption.bind fun a => (f a).toOption := by
  cases x with
  | error e => rfl
  | ok a => rfl

/-- **The tests that the arguments mark, one after the other.** -/
theorem toOption_selectTests (hfunc : ∀ i, (testList i).func.isSome)
    (hnames : Function.Injective fun i => (testList i).name) (hall : "all".toList ∉ args)
    (hlast : ∀ a ∈ args, '*' ∉ a.dropLast) (selected marked : Fin n → Bool) :
    (selectTests testList args selected).toOption = some marked ↔
      Selectable testList args ∧
        (∀ a ∈ args, ∀ i, Selects a (testList i).name → selected i = false) ∧
        marked = fun i => selected i || decide (∃ a ∈ args, Selects a (testList i).name) := by
  induction args generalizing selected with
  | nil =>
    have hnone : Selectable testList [] := ⟨by simp, .nil⟩
    rw [selectTests]
    simp only [Except.toOption, Option.some.injEq, hnone, List.not_mem_nil, false_and, exists_false,
      decide_false, Bool.or_false, true_and, false_implies, implies_true]
    exact eq_comm
  | cons argument rest ih =>
    rw [List.mem_cons, not_or] at hall
    rw [List.forall_mem_cons] at hlast
    have hstep : (selectTests testList (argument :: rest) selected).toOption =
        (findMatchingTests testList selected argument (decide ('*' ∈ argument))).toOption.bind
          fun selected => (selectTests testList rest selected).toOption := by
      rw [selectTests, ← toOption_bind]
      by_cases hstar : '*' ∈ argument
      · rw [if_pos hstar, decide_eq_true hstar]
      · rw [if_neg hstar, if_neg (Ne.symm hall.1), decide_eq_false hstar]
    rw [hstep, toOption_marks hfunc hnames hlast.1, Option.bind_eq_some_iff]
    -- the marks of the first argument are among those that the other ones find
    have hmark (i : Fin n) : (selected i || decide (Selects argument (testList i).name)) = false ↔
        selected i = false ∧ ¬ Selects argument (testList i).name := by
      rw [Bool.or_eq_false_iff, decide_eq_false_iff_not]
    have hfun : (fun i => (selected i || decide (Selects argument (testList i).name)) ||
          decide (∃ a ∈ rest, Selects a (testList i).name))
        = fun i => selected i || decide (∃ a ∈ argument :: rest, Selects a (testList i).name) := by
      funext i
      rw [Bool.or_assoc, ← Bool.decide_or, Bool.eq_iff_iff]
      simp only [Bool.or_eq_true, decide_eq_true_eq, List.exists_mem_cons_iff]
    constructor
    · rintro ⟨mid, hmid, hrest⟩
      split at hmid
      · rename_i hfirst
        obtain rfl := Option.some.inj hmid
        obtain ⟨hsel, hfree, rfl⟩ := (ih hall.2 hlast.2 _).mp hrest
        refine ⟨⟨List.forall_mem_cons.mpr ⟨hfirst.1, hsel.some⟩,
          List.pairwise_cons.mpr ⟨fun b hb i h => ?_, hsel.once⟩⟩,
          List.forall_mem_cons.mpr ⟨hfirst.2, fun a ha i hi => ?_⟩, hfun⟩
        · exact ((hmark i).mp (hfree b hb i h.2)).2 h.1
        · exact ((hmark i).mp (hfree a ha i hi)).1
      · cases hmid
    · rintro ⟨⟨hsome, honce⟩, hfree, rfl⟩
      rw [List.forall_mem_cons] at hsome hfree
      obtain ⟨hfirst, honce⟩ := List.pairwise_cons.mp honce
      refine ⟨_, if_pos ⟨hsome.1, hfree.1⟩, (ih hall.2 hlast.2 _).mpr
        ⟨⟨hsome.2, honce⟩, fun a ha i hi => ?_, hfun.symm⟩⟩
      exact (hmark i).mpr ⟨hfree.2 a ha i hi, fun h => hfirst a ha i ⟨h, hi⟩⟩

/-! ### The call -/

variable {callSingleTestFunction : TestDefinition F → TestStatus} {file : ResultsFile}

theorem run_eq : (parseAndCallCommandLineTests testList callSingleTestFunction file args).run
    = (selection testList args).toOption.map fun marked =>
      (marked, serial ⟨callSingleTestFunction, testList, marked, fun _ => .pass⟩) := by
  rw [parseAndCallCommandLineTests]
  cases selection testList args with
  | error e => rfl
  | ok marked => rfl

theorem results_eq {marked : Fin n → Bool} {results : Fin n → TestStatus}
    (h : (parseAndCallCommandLineTests testList callSingleTestFunction file args).run
      = some (marked, results)) (i : Fin n) :
    results i = if marked i then callSingleTestFunction (testList i) else .pass := by
  rw [run_eq, Option.map_eq_some_iff] at h
  obtain ⟨selected, -, heq⟩ := h
  obtain ⟨rfl, rfl⟩ := Prod.mk.inj heq
  exact serial_apply _ i

theorem ret_of_run_eq_none
    (h : (parseAndCallCommandLineTests testList callSingleTestFunction file args).run = none) :
    (parseAndCallCommandLineTests testList callSingleTestFunction file args).ret = .failure := by
  rw [parseAndCallCommandLineTests] at h ⊢
  cases hs : selection testList args with
  | error e => rfl
  | ok marked =>
    rw [hs] at h
    cases h

theorem ret_of_failed {marked : Fin n → Bool} {results : Fin n → TestStatus} {i : Fin n}
    (h : (parseAndCallCommandLineTests testList callSingleTestFunction file args).run
      = some (marked, results)) (hi : results i = .fail) :
    (parseAndCallCommandLineTests testList callSingleTestFunction file args).ret = .failure := by
  rw [parseAndCallCommandLineTests] at h ⊢
  cases hs : selection testList args with
  | error e => rfl
  | ok selected =>
    rw [hs] at h
    obtain ⟨rfl, rfl⟩ := Prod.mk.inj (Option.some.inj h)
    refine if_pos (List.any_eq_true.mpr ⟨i, List.mem_finRange i, ?_⟩)
    rw [hi]
    rfl

/-- **What `parseAndCallCommandLineTests` runs and returns**, if a `*` is the last character of
its argument. -/
theorem parseAndCall_spec (hfunc : ∀ i, (testList i).func.isSome)
    (hnames : Function.Injective fun i => (testList i).name) (hall : "all".toList ∉ args)
    (hlast : ∀ a ∈ args, '*' ∉ a.dropLast) (callSingleTestFunction : TestDefinition F → TestStatus)
    (file : ResultsFile) :
    let out := parseAndCallCommandLineTests testList callSingleTestFunction file args
    (args = [] → ∃ results, out.run = some (fun _ => true, results)) ∧
      (args ≠ [] → (out.run.isSome ↔ Selectable testList args) ∧
        ∀ marked results, out.run = some (marked, results) →
          ∀ i, marked i = true ↔ ∃ a ∈ args, Selects a (testList i).name) ∧
      (out.run = none → out.ret = .failure) ∧
      ∀ marked results, out.run = some (marked, results) →
        (∀ i, results i = if marked i then callSingleTestFunction (testList i) else .pass) ∧
        ((∃ i, results i = .fail) → out.ret = .failure) := by
  intro out
  have hrun : out.run = (selection testList args).toOption.map fun marked =>
      (marked, serial ⟨callSingleTestFunction, testList, marked, fun _ => .pass⟩) := run_eq
  refine ⟨?_, fun hne => ?_, ret_of_run_eq_none, fun marked results h =>
    ⟨results_eq h, fun ⟨i, hi⟩ => ret_of_failed h hi⟩⟩
  · rintro rfl
    exact ⟨_, hrun⟩
  · have hselect (marked : Fin n → Bool) := toOption_selectTests hfunc hnames hall hlast
      (fun _ => false) marked
    simp only [Bool.false_or, implies_true, true_and] at hselect
    rw [selection, if_neg hne] at hrun
    constructor
    · rw [hrun, Option.isSome_map, Option.isSome_iff_exists]
      exact ⟨fun ⟨marked, h⟩ => ((hselect marked).mp h).1, fun h => ⟨_, (hselect _).mpr ⟨h, rfl⟩⟩⟩
    · intro marked results h i
      rw [hrun, Option.map_eq_some_iff] at h
      obtain ⟨selected, hs, heq⟩ := h
      obtain ⟨rfl, _⟩ := Prod.mk.inj heq
      obtain ⟨_, rfl⟩ := (hselect selected).mp hs
      exact decide_eq_true_iff

/-- Three tests. -/
def testsOfThree : Fin 3 → TestDefinition ℕ
  | 0 => ⟨some 0, "add".toList⟩
  | 1 => ⟨some 1, "mul_hi".toList⟩
  | 2 => ⟨some 2, "mul24".toList⟩

/-- One of them is selected by its name, and one by a `*`; the one selected by its name fails. -/
theorem parseAndCall_spec_three : ∃ marked results,
    (parseAndCallCommandLineTests testsOfThree (fun t => if t.func = some 2 then .fail else .pass)
      ⟨none, true, true⟩ ["mul24".toList, "a*".toList]).run = some (marked, results) ∧
    marked 1 = false ∧ results 2 = .fail := by
  have hall : "all".toList ∉ ["mul24".toList, "a*".toList] := by decide
  have hspec := parseAndCall_spec (show ∀ i, (testsOfThree i).func.isSome by decide) (by decide)
    hall (by decide) (fun t => if t.func = some 2 then .fail else .pass) ⟨none, true, true⟩
  obtain ⟨hsome, hmarked⟩ := hspec.2.1 (by decide)
  obtain ⟨⟨marked, results⟩, hrun⟩ := Option.isSome_iff_exists.mp (hsome.mpr (by decide))
  have hmark := hmarked marked results hrun
  refine ⟨marked, results, hrun, ?_, ?_⟩
  · exact Bool.eq_false_iff.mpr fun h => absurd ((hmark 1).mp h) (by decide)
  · have h2 : marked 2 = true := (hmark 2).mpr (by decide)
    rw [(hspec.2.2.2 marked results hrun).1 2, if_pos h2]
    rfl

/-- Without arguments all tests are run; and the code takes one character less than the argument
has, wherever its `*` is. -/
theorem not_selection : ∃ (call : TestDefinition ℕ → TestStatus) (file : ResultsFile),
    (∃ marked results, (parseAndCallCommandLineTests testsOfThree call file []).run
        = some (marked, results) ∧ marked 0 = true ∧
      ¬ ∃ a ∈ ([] : List (List Char)), Selects a (testsOfThree 0).name) ∧
    Selectable testsOfThree ["mul*4".toList] ∧
      (parseAndCallCommandLineTests testsOfThree call file ["mul*4".toList]).run.isNone = true :=
  ⟨fun _ => .pass, ⟨none, true, true⟩, ⟨_, _, rfl, rfl, by simp⟩, by decide, by decide⟩

end OpenCLCTS.TestRunner
