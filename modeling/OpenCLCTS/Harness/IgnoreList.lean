import OpenCLCTS.Harness.CustomParam

/-!
# Arguments that are ignored

What `parseCustomParam` is for, as a function of the tokens of the arguments: it fails if a value
is missing or not recognized, or if the settings do not go together; else it leaves what is not
removed, and every setting is what the last occurrence of its option says.

An argument is ignored if it is one of the words of the list.  The code finds an argument that is a
word only if the first place where it occurs in the list is one where it is a word.

* `parse_spec`: what the code leaves, of the arguments that it takes for ignored.
* `parsesExactly_iff`: **when these are the words of the list**.
-/

namespace OpenCLCTS.Harness.CustomParam

open CloseGap Delimited

/-! ### What the tokens mean -/

/-- The value that a token gives to an option. -/
def Token.valueFor (option : ValueOption) : Token → Option Text
  | value option' v => if option' = option then some v else none
  | _ => none

/-- The value of the last occurrence of an option. -/
def lastValue (option : ValueOption) (ts : List Token) : Option Text :=
  (ts.filterMap (Token.valueFor option)).getLast?

/-- The values that are recognized. -/
def ValueOption.accepts (v : Text) : ValueOption → Bool
  | compilationMode => (compilationModeOf v).isSome
  | compilationCacheMode => (compilationCacheModeOf v).isSome
  | _ => true

def Token.wellFormed : Token → Bool
  | value option v => option.accepts v
  | missingValue _ => false
  | _ => true

/-- Every setting as the last occurrence of its option has it. -/
def finalGlobals (ts : List Token) (g : Globals) : Globals where
  gCompilationMode :=
    ((lastValue .compilationMode ts).bind compilationModeOf).getD g.gCompilationMode
  gCompilationCacheMode :=
    ((lastValue .compilationCacheMode ts).bind compilationCacheModeOf).getD g.gCompilationCacheMode
  gCompilationCachePath := (lastValue .compilationCachePath ts).getD g.gCompilationCachePath
  gCompilationProgram := (lastValue .compilationProgram ts).getD g.gCompilationProgram
  gDisableSPIRVValidation := g.gDisableSPIRVValidation || ts.contains .disableSpirvValidation
  gSPIRVValidator := (lastValue .spirvValidator ts).getD g.gSPIRVValidator
  gNumWorkerThreads :=
    ((lastValue .numWorkerThreads ts).map fun v => BitVec.ofInt 32 (atoi v)).getD
      g.gNumWorkerThreads

/-- A cache mode that is for offline compilation only, with online compilation. -/
def Contradictory (g : Globals) : Prop :=
  (g.gCompilationCacheMode = .kCacheModeForceRead ∨
    g.gCompilationCacheMode = .kCacheModeOverwrite) ∧ g.gCompilationMode = .kOnline

instance (g : Globals) : Decidable (Contradictory g) := inferInstanceAs (Decidable (_ ∧ _))

/-- What is left of the arguments and the settings, `none` for an error. -/
def specification (ignored : Text → Bool) (args : List Text) (g : Globals) :
    Option (List Text × Globals) :=
  let ts := tokens ignored args
  if ts.all Token.wellFormed ∧ ¬ Contradictory (finalGlobals ts g) then
    some (left ts, finalGlobals ts g)
  else none

section

variable {ts : List Token} {t : Token} {g : Globals}

theorem lastValue_concat (option : ValueOption) :
    lastValue option (ts ++ [t]) = (t.valueFor option).or (lastValue option ts) := by
  rw [lastValue, List.filterMap_append, List.getLast?_append, lastValue]
  congr 1
  cases h : t.valueFor option with
  | none => rw [List.filterMap_cons_none h]; rfl
  | some v => rw [List.filterMap_cons_some h]; rfl

theorem apply_finalGlobals (h : t.wellFormed = true) :
    t.apply (finalGlobals ts g) = .ok (finalGlobals (ts ++ [t]) g) := by
  cases t with
  | kept arg => simp [Token.apply, finalGlobals, lastValue_concat, Token.valueFor]
  | disableSpirvValidation => simp [Token.apply, finalGlobals, lastValue_concat, Token.valueFor]
  | missingValue option => cases h
  | value option v =>
    rw [Token.wellFormed] at h
    cases option with
    | compilationMode =>
      obtain ⟨mode, hmode⟩ := Option.isSome_iff_exists.mp h
      simp [Token.apply, ValueOption.assign, finalGlobals, lastValue_concat, Token.valueFor, hmode]
    | compilationCacheMode =>
      obtain ⟨mode, hmode⟩ := Option.isSome_iff_exists.mp h
      simp [Token.apply, ValueOption.assign, finalGlobals, lastValue_concat, Token.valueFor, hmode]
    | _ => simp [Token.apply, ValueOption.assign, finalGlobals, lastValue_concat, Token.valueFor]

theorem apply_error (h : t.wellFormed = false) (g : Globals) :
    ∃ e, e ≠ .outside ∧ t.apply g = .error e := by
  cases t with
  | kept arg => cases h
  | disableSpirvValidation => cases h
  | missingValue option => exact ⟨.missingValue option, by simp, rfl⟩
  | value option v =>
    refine ⟨.notRecognized option v, by simp, ?_⟩
    have hnone : option.assign g v = none := by
      rw [Token.wellFormed] at h
      cases option with
      | compilationMode =>
        have hmode : compilationModeOf v = none :=
          Option.not_isSome_iff_eq_none.mp (ne_true_of_eq_false h)
        rw [ValueOption.assign, hmode]
        rfl
      | compilationCacheMode =>
        have hmode : compilationCacheModeOf v = none :=
          Option.not_isSome_iff_eq_none.mp (ne_true_of_eq_false h)
        rw [ValueOption.assign, hmode]
        rfl
      | _ => cases h
    rw [Token.apply, hnone]

theorem runTokens_concat : runTokens (ts ++ [t]) g = (runTokens ts g).bind t.apply := by
  rw [runTokens, List.foldlM_append]
  show (runTokens ts g).bind (fun g' => [t].foldlM Token.apply g') = _
  congr 1
  funext g'
  rw [List.foldlM_cons]
  cases t.apply g' <;> rfl

theorem all_concat :
    (ts ++ [t]).all Token.wellFormed = (ts.all Token.wellFormed && t.wellFormed) := by
  rw [List.all_append, List.all_cons, List.all_nil, Bool.and_true]

/-- **What a run over the tokens leaves behind.** -/
theorem runTokens_eq (h : ts.all Token.wellFormed = true) :
    runTokens ts g = .ok (finalGlobals ts g) := by
  induction ts using List.reverseRecOn with
  | nil => simp [runTokens, finalGlobals, lastValue]; rfl
  | append_singleton ts t ih =>
    rw [all_concat, Bool.and_eq_true] at h
    rw [runTokens_concat, ih h.1]
    exact apply_finalGlobals h.2

theorem runTokens_error (h : ts.all Token.wellFormed = false) :
    ∃ e, e ≠ .outside ∧ runTokens ts g = .error e := by
  induction ts using List.reverseRecOn with
  | nil => cases h
  | append_singleton ts t ih =>
    rw [runTokens_concat]
    cases hts : ts.all Token.wellFormed with
    | true =>
      rw [all_concat, hts, Bool.true_and] at h
      rw [runTokens_eq hts]
      exact apply_error h _
    | false =>
      obtain ⟨e, he, hrun⟩ := ih hts
      exact ⟨e, he, by rw [hrun]; rfl⟩

end

/-! ### What the code leaves -/

/-- The code fails, or has left the program's name, the arguments and the settings, and returns
their number. -/
def Filters (r : Except ParseEnd State) (argv0 : Text) : Option (List Text × Globals) → Prop
  | none => returned r = some (-1)
  | some (args, g) => returned r = some ((argv0 :: args).length : ℤ) ∧
      ∃ s, r = .ok s ∧ Holds s.argv (argv0 :: args) ∧ s.globals = g

section

variable {ignore : Option Text} {argv0 : Text} {args : List Text} {g : Globals} {argv : ℕ → Text}

theorem returned_error {e : ParseEnd} (he : e ≠ .outside) : returned (.error e) = some (-1) := by
  cases e with
  | outside => exact absurd rfl he
  | _ => rfl

/-- **The arguments are filtered**, with those ignored that the code takes for ignored. -/
theorem parse_spec (ignore : Option Text) (g : Globals) (h0 : ¬ Removable argv0)
    (hargv : Holds argv (argv0 :: args)) :
    Filters (parseCustomParam ignore (args.length + 1) argv g) argv0
      (specification (isIgnored ignore) args g) := by
  have hat : At [argv0] args ⟨args.length + 1, argv, 1, g⟩ := ⟨rfl, rfl, hargv⟩
  have hinert : ∀ a ∈ [argv0], Inert (isIgnored ignore) a := by
    intro a ha
    rw [List.mem_singleton.mp ha]
    exact .inr h0
  have hloop := loop_spec (List.cons_ne_nil argv0 []) hinert hat
  rw [specification, parseCustomParam]
  cases hall : (tokens (isIgnored ignore) args).all Token.wellFormed with
  | false =>
    obtain ⟨e, he, hrun⟩ := runTokens_error (g := g) hall
    rw [hrun] at hloop
    rw [if_neg (fun h => Bool.false_ne_true h.1), show loop ignore _ = .error e from hloop]
    exact returned_error he
  | true =>
    rw [runTokens_eq hall] at hloop
    obtain ⟨s, hs, hargc, hleft, hglobals⟩ := hloop
    rw [hs]
    by_cases hcontra : Contradictory (finalGlobals (tokens (isIgnored ignore) args) g)
    · rw [if_neg (fun h => h.2 hcontra)]
      show returned (if Contradictory s.globals then _ else _) = _
      rw [hglobals, if_pos hcontra]
      rfl
    · rw [if_pos ⟨rfl, hcontra⟩]
      show Filters (if Contradictory s.globals then _ else _) _ _
      rw [hglobals, if_neg hcontra]
      exact ⟨by rw [returned, hargc]; rfl, s, rfl, hleft, hglobals⟩

theorem Filters.unique {r : Except ParseEnd State} {o o' : Option (List Text × Globals)}
    (h : Filters r argv0 o) (h' : Filters r argv0 o') : o = o' := by
  have hnot : ∀ args : List Text, ((argv0 :: args).length : ℤ) ≠ -1 := by
    intro args
    omega
  cases o with
  | none =>
    cases o' with
    | none => rfl
    | some p' => exact absurd (Option.some_inj.mp (h'.1.symm.trans h)) (hnot _)
  | some p =>
    cases o' with
    | none => exact absurd (Option.some_inj.mp (h.1.symm.trans h')) (hnot _)
    | some p' =>
      obtain ⟨args, g⟩ := p
      obtain ⟨args', g'⟩ := p'
      obtain ⟨hlength, s, hs, hargv, hg⟩ := h
      obtain ⟨hlength', s', hs', hargv', hg'⟩ := h'
      rw [hs, Except.ok.injEq] at hs'
      rw [hlength, Option.some_inj, Nat.cast_inj] at hlength'
      subst hs'
      have hargs := hargv.unique hargv' hlength'
      rw [List.cons_eq_cons] at hargs
      rw [hargs.2, ← hg, hg']

/-! ### The words of the list -/

/-- The words of the list of the arguments to ignore. -/
def ignoredWords : Option Text → List Text
  | none => []
  | some list => words ' ' list

/-- The arguments are filtered, with those ignored that are words of the list. -/
def FollowsWords (ignore : Option Text) (argv0 : Text) (args : List Text) (g : Globals) : Prop :=
  ∀ argv, Holds argv (argv0 :: args) →
    Filters (parseCustomParam ignore (args.length + 1) argv g) argv0
      (specification (fun arg => decide (arg ∈ ignoredWords ignore)) args g)

/-- The arguments are filtered, and those count as ignored that are words of the list. -/
def ParsesExactly (ignore : Option Text) (argv0 : Text) (args : List Text) (g : Globals) : Prop :=
  FollowsWords ignore argv0 args g ∧
    ∀ arg ∈ args, isIgnored ignore arg = true ↔ arg ∈ ignoredWords ignore

/-- If it is a word of the list, it is one where it is found first. -/
def FirstFoundAsWord : Option Text → Text → Prop
  | none, _ => True
  | some list, arg => arg ∈ words ' ' list → FirstStands ' ' arg list

instance : (ignore : Option Text) → (arg : Text) → Decidable (FirstFoundAsWord ignore arg)
  | none, _ => .isTrue trivial
  | some list, arg => inferInstanceAs (Decidable (arg ∈ words ' ' list → FirstStands ' ' arg list))

/-- If it can be no word, as it is empty or has a space in it, it is not found first at a place
that is between spaces. -/
def NotFoundUnlessWord : Option Text → Text → Prop
  | none, _ => True
  | some list, arg =>
    arg = [] ∨ ' ' ∈ arg → ∀ k ∈ firstOccurrence arg list, ¬ Bounded ' ' list k arg.length

instance : (ignore : Option Text) → (arg : Text) → Decidable (NotFoundUnlessWord ignore arg)
  | none, _ => .isTrue trivial
  | some list, arg => inferInstanceAs (Decidable
      (arg = [] ∨ ' ' ∈ arg → ∀ k ∈ firstOccurrence arg list, ¬ Bounded ' ' list k arg.length))

theorem isIgnored_some (list arg : Text) : isIgnored (some list) arg = foundWhole ' ' arg list := by
  rw [isIgnored, foundWhole]
  cases firstOccurrence arg list with
  | none => rfl
  | some ptr =>
    show (_ && _) = decide (Bounded ' ' list ptr arg.length)
    rw [Bool.eq_iff_iff, decide_eq_true_eq, Bounded]
    simp only [Bool.and_eq_true, Bool.or_eq_true, beq_iff_eq]

theorem isIgnored_iff {arg : Text} :
    (isIgnored ignore arg = true ↔ arg ∈ ignoredWords ignore) ↔
      FirstFoundAsWord ignore arg ∧ NotFoundUnlessWord ignore arg := by
  cases ignore with
  | none => simp [isIgnored, ignoredWords, FirstFoundAsWord, NotFoundUnlessWord]
  | some list =>
    rw [isIgnored_some, ignoredWords, foundWhole_iff_mem_words]
    rfl

theorem plain_of_removable {arg : Text} (h : Removable arg) : ¬ (arg = [] ∨ ' ' ∈ arg) := by
  unfold Removable customOption at h
  split_ifs at h with hhelp hmode hthreads hcacheMode hcachePath hprogram hdisable hvalidator
  · exact absurd rfl h.2
  · rw [hmode]; decide
  · rw [hthreads]; decide
  · rw [hcacheMode]; decide
  · rw [hcachePath]; decide
  · rw [hprogram]; decide
  · rw [hdisable]; decide
  · rw [hvalidator]; decide
  · exact absurd rfl h.1

theorem isIgnored_iff_of_removable {arg : Text} (h : Removable arg) :
    (isIgnored ignore arg = true ↔ arg ∈ ignoredWords ignore) ↔ FirstFoundAsWord ignore arg := by
  rw [isIgnored_iff, and_iff_left_iff_imp]
  intro _
  cases ignore with
  | none => trivial
  | some list =>
    intro hodd
    exact absurd hodd (plain_of_removable h)

theorem followsWords_of_removable (h0 : ¬ Removable argv0)
    (h : ∀ arg ∈ args, Removable arg → FirstFoundAsWord ignore arg) :
    FollowsWords ignore argv0 args g := by
  intro argv hargv
  have htokens : tokens (isIgnored ignore) args =
      tokens (fun arg => decide (arg ∈ ignoredWords ignore)) args := by
    apply tokens_congr
    intro arg harg hremovable
    rw [Bool.eq_iff_iff, decide_eq_true_eq]
    exact (isIgnored_iff_of_removable hremovable).mpr (h arg harg hremovable)
  have hspec := parse_spec ignore g h0 hargv
  rw [specification, htokens] at hspec
  exact hspec

/-- The array of the arguments. -/
def argvOf (args : List Text) : ℕ → Text := fun k => args.getD k []

theorem holds_argvOf (args : List Text) : Holds (argvOf args) args := by
  intro k x hk
  rw [argvOf, List.getD_eq_getElem?_getD, hk]
  rfl

/-- An option alone, kept or not, makes a difference. -/
theorem specification_ne {ignored ignored' : Text → Bool} {arg : Text} (h : Removable arg)
    (hi : ignored arg = false) (hi' : ignored' arg = true) :
    specification ignored [arg] defaults ≠ specification ignored' [arg] defaults := by
  have hkept : specification ignored' [arg] defaults = some ([arg], defaults) := by
    rw [specification, tokens_of_inert (.inl hi'), tokens_nil]
    have hglobals : finalGlobals [.kept arg] defaults = defaults := rfl
    rw [hglobals]
    exact if_pos ⟨rfl, by decide⟩
  rw [hkept]
  cases hoption : customOption arg with
  | none => exact absurd hoption h.1
  | some option =>
    cases option with
    | help => exact absurd hoption h.2
    | disableSpirvValidation =>
      rw [specification, tokens_of_disable hi hoption, tokens_nil]
      have hleft : left [.disableSpirvValidation] = [] := rfl
      rw [hleft]
      split_ifs with hfine
      · intro he
        cases he
      · exact (Option.some_ne_none _).symm
    | value option =>
      rw [specification, tokens_of_missing hi hoption]
      exact (Option.some_ne_none _).symm

theorem firstFoundAsWord_of_followsWords (h0 : ¬ Removable argv0) {arg : Text} (h : Removable arg)
    (hfollows : FollowsWords ignore argv0 [arg] defaults) : FirstFoundAsWord ignore arg := by
  have hcode := parse_spec ignore defaults h0 (holds_argvOf [argv0, arg])
  have heq := hcode.unique (hfollows _ (holds_argvOf [argv0, arg]))
  rw [← isIgnored_iff_of_removable h]
  constructor
  · intro hi
    by_contra hword
    exact specification_ne h (decide_eq_false hword) hi heq.symm
  · intro hword
    by_contra hi
    exact specification_ne h (Bool.eq_false_of_not_eq_true hi) (decide_eq_true hword) heq

/-- **What `parseCustomParam` leaves.**  The options that are not words of the list are removed, and
the words of the list are what counts as ignored, if and only if of the arguments each word is first
found as a word and what is no word is not.  For the options the former is what matters. -/
theorem parsesExactly_iff (ignore : Option Text) (argv0 : Text) (h0 : ¬ Removable argv0) :
    (∀ args g, ParsesExactly ignore argv0 args g ↔
      ∀ arg ∈ args, FirstFoundAsWord ignore arg ∧ NotFoundUnlessWord ignore arg) ∧
    ((∀ args g, FollowsWords ignore argv0 args g) ↔
      ∀ arg, Removable arg → FirstFoundAsWord ignore arg) := by
  constructor
  · intro args g
    constructor
    · intro h arg harg
      exact isIgnored_iff.mp (h.2 arg harg)
    · intro h
      constructor
      · exact followsWords_of_removable h0 fun arg harg _ => (h arg harg).1
      · intro arg harg
        exact isIgnored_iff.mpr (h arg harg)
  · constructor
    · intro h arg hremovable
      exact firstFoundAsWord_of_followsWords h0 hremovable (h [arg] defaults)
    · intro h args g
      exact followsWords_of_removable h0 fun arg _ hremovable => h arg hremovable

/-- Options before and after a listed one, which is left with what follows it. -/
theorem parsesExactly_listed :
    ¬ Removable "p".toList ∧
      ParsesExactly (some "-w --spirv-validator".toList) "p".toList
        ["--compilation-mode".toList, "binary".toList, "--spirv-validator".toList, "-w".toList,
          "--disable-spirv-validation".toList] defaults := by
  have h0 : ¬ Removable "p".toList := by decide
  refine ⟨h0, ((parsesExactly_iff _ _ h0).1 _ _).mpr ?_⟩
  decide +kernel

/-- The list has the option as its second word, and in its first word: the option is interpreted,
and as no value follows, the result is `-1`. -/
theorem not_followsWords_validator :
    ¬ Removable "p".toList ∧
      returned (parseCustomParam (some "x--spirv-validator --spirv-validator".toList) 2
        (argvOf ["p".toList, "--spirv-validator".toList]) defaults) = some (-1) ∧
      ¬ FollowsWords (some "x--spirv-validator --spirv-validator".toList) "p".toList
        ["--spirv-validator".toList] defaults := by
  have h0 : ¬ Removable "p".toList := by decide
  have hcode := parse_spec (some "x--spirv-validator --spirv-validator".toList) defaults h0
    (holds_argvOf ["p".toList, "--spirv-validator".toList])
  have hnone : specification (isIgnored (some "x--spirv-validator --spirv-validator".toList))
      ["--spirv-validator".toList] defaults = none := by decide +kernel
  rw [hnone] at hcode
  refine ⟨h0, hcode, ?_⟩
  intro hfollows
  have hwords := hcode.unique (hfollows _ (holds_argvOf _))
  revert hwords
  decide +kernel

end

end OpenCLCTS.Harness.CustomParam
