/-
# PlainRequest.Proofs.Arguments.Reading — what each kind of word does to a reading

Two invariants of a reading carry everything that is said about command lines. `Settles` names what
has been given so far, the parameter read last included; an option with its value, an option that
stands alone and an operand each add one pair to it. `Lacks` says that a parameter has not been
given; no option-like word ends it for an operand, so a command line without a plain word in the
operand's place is refused at the end if it was not before.

A third, `Spoiled`, says that the parameter read last was given too often. That is noticed when it is
settled, by whatever word comes next or by the end, so every such command line is refused too.
-/

import PlainRequest.Arguments.Reader

namespace PlainRequest.Arguments.Reading

open Text

variable {κ : Type} [DecidableEq κ]
variable {grammar : Grammar κ} {reading next : Reading κ} {given : List (κ × Text)} {count : Nat}

/-! ## What noting and settling do -/

/-- Noting a value that is accepted does nothing but add the pair. -/
theorem eq_of_give {parameter : Parameter κ} {value : Text}
    (h : reading.give parameter value = .ok next) :
    next = { reading with settled := reading.settled ++ [(parameter.key, value)] } := by
  unfold give at h
  split at h
  · cases h
  · cases h
  split at h
  · cases h
  split at h
  · cases h
  · cases h
  · simp only [pure, Except.pure, Except.ok.injEq] at h
    exact h.symm

/-- Settling adds the parameter read last, whose value must be there. -/
theorem eq_of_settle (h : reading.settle = .ok next) :
    next = reading ∧ reading.pending = none ∨
      ∃ parameter value, reading.pending = some (parameter, some value) ∧
        next = { reading with
          settled := reading.settled ++ [(parameter.key, value)], pending := none } := by
  unfold settle at h
  split at h
  · next hpending =>
      simp only [pure, Except.pure, Except.ok.injEq] at h
      exact .inl ⟨h.symm, hpending⟩
  · cases h
  · next parameter value hpending => exact .inr ⟨parameter, value, hpending, eq_of_give h⟩

/-! ## What has been given -/

/-- **`Settles reading given count`** — no value is waited for, and what was read are the pairs
`given`, among them `count` operands. -/
def Settles (reading : Reading κ) (given : List (κ × Text)) (count : Nat) : Prop :=
  reading.settle = .ok { settled := given, operandCount := count }

/-- **`Admits given parameter value`** — behind what is given, the parameter may have the value. -/
structure Admits (given : List (κ × Text)) (parameter : Parameter κ) (value : Text) : Prop where
  accepted : parameter.check value = none
  free : parameter.repeatable = true ∨ parameter.key ∉ given.map Prod.fst

/-- A parameter that any value suits, and that may be given after `given`. -/
structure Accepts (given : List (κ × Text)) (parameter : Parameter κ) : Prop where
  unchecked : ∀ value, parameter.check value = none
  free : parameter.repeatable = true ∨ parameter.key ∉ given.map Prod.fst

omit [DecidableEq κ] in
theorem Accepts.admits {parameter : Parameter κ} (h : Accepts given parameter) (value : Text) :
    Admits given parameter value := ⟨h.unchecked value, h.free⟩

theorem settles_start : Settles ({} : Reading κ) [] 0 := rfl

theorem settles_settled (given : List (κ × Text)) (count : Nat) :
    Settles ({ settled := given, operandCount := count } : Reading κ) given count := rfl

theorem give_of_admits {parameter : Parameter κ} {value : Text} (h : Admits given parameter value)
    (hkind : parameter.kind ≠ .help ∧ parameter.kind ≠ .version) :
    give { settled := given, operandCount := count } parameter value =
      .ok { settled := given ++ [(parameter.key, value)], operandCount := count } := by
  -- the only check left is that a parameter is not given twice
  have hfree : (! parameter.repeatable && (given.map Prod.fst).contains parameter.key) = false := by
    rcases h.free with hrepeat | hkey
    · simp [hrepeat]
    · simpa using fun _ => by simpa using hkey
  unfold give
  split
  · next hhelp => exact absurd hhelp hkind.1
  · next hversion => exact absurd hversion hkind.2
  · simp only [hfree, Bool.false_eq_true, if_false, h.accepted]
    rfl

/-- A parameter that is read, with its value, counts as given. -/
theorem settles_pending {parameter : Parameter κ} {anyWord : Bool} {value : Text}
    (h : Admits given parameter value) (hkind : parameter.kind = .value anyWord) :
    Settles { settled := given, pending := some (parameter, some value), operandCount := count }
      (given ++ [(parameter.key, value)]) count :=
  give_of_admits h (by simp [hkind])

/-- Settling changes neither the count of operands nor the role of the words to come, and it needs
every value to be there. -/
theorem of_settles (h : Settles reading given count) :
    reading.operandsOnly = false ∧ reading.operandCount = count ∧ reading.waiting? = none := by
  rcases eq_of_settle h with ⟨hnext, hpending⟩ | ⟨parameter, value, hpending, hnext⟩
  · rw [← hnext]
    exact ⟨rfl, rfl, rfl⟩
  · simp only [mk.injEq] at hnext
    exact ⟨hnext.2.2.2.symm, hnext.2.2.1.symm, by simp [waiting?, hpending]⟩

/-- A word that is not read as options: one that starts with no dash, or a dash alone. -/
def IsPlain (word : Text) : Prop := word.head? ≠ some '-' ∨ word = ['-']

theorem isPlain_iff {word : Text} :
    IsPlain word ↔ ∀ letter rest, word ≠ '-' :: letter :: rest := by
  constructor
  · rintro (hhead | rfl) letter rest
    · rintro rfl
      exact hhead rfl
    · simp
  · intro hletters
    by_cases hhead : word.head? = some '-'
    · right
      cases word with
      | nil => simp at hhead
      | cons c rest =>
          obtain rfl : c = '-' := by simpa using hhead
          cases rest with
          | nil => rfl
          | cons letter rest => exact absurd rfl (hletters letter rest)
    · exact .inl hhead

/-! ## One word -/

/-- Where no value is waited for, a dash and a letter are read as the option of that letter. -/
theorem readWord_letter_of_idle (hopen : reading.operandsOnly = false)
    (hidle : reading.waiting? = none) (letter : Char) (hletter : letter ≠ '-') (rest : Text) :
    reading.readWord grammar ('-' :: letter :: rest) =
      reading.readLetters grammar (letter :: rest) := by
  have hany : reading.takesAnyWord = false := by simp [takesAnyWord, hidle]
  unfold readWord
  simp only [hopen, hany, Bool.false_eq_true, if_false]
  split
  · next heq => simp_all
  · next heq => simp_all
  · next heq =>
      simp only [List.cons.injEq, true_and] at heq
      obtain ⟨rfl, rfl⟩ := heq
      rfl
  · next hno => exact absurd rfl (hno letter rest)

theorem readWord_letter (h : Settles reading given count) (letter : Char) (hletter : letter ≠ '-')
    (rest : Text) :
    reading.readWord grammar ('-' :: letter :: rest) =
      reading.readLetters grammar (letter :: rest) := by
  obtain ⟨hopen, -, hidle⟩ := of_settles h
  exact readWord_letter_of_idle hopen hidle letter hletter rest

/-- A plain word fits none of the patterns that begin with a dash. -/
theorem readWord_plain (hopen : reading.operandsOnly = false) (hany : reading.takesAnyWord = false)
    {word : Text} (hplain : IsPlain word) :
    reading.readWord grammar word = reading.readPlain grammar word := by
  have hletters := isPlain_iff.mp hplain
  unfold readWord
  simp only [hopen, hany, Bool.false_eq_true, if_false]
  split
  · exact absurd rfl (hletters _ _)
  · exact absurd rfl (hletters _ _)
  · exact absurd rfl (hletters _ _)
  · rfl

/-- Where no value is waited for, it is read as the next operand. -/
theorem readWord_plain_of_idle (hopen : reading.operandsOnly = false)
    (hidle : reading.waiting? = none) {word : Text} (hplain : IsPlain word) :
    reading.readWord grammar word = reading.readOperand grammar word := by
  rw [readWord_plain hopen (by simp [takesAnyWord, hidle]) hplain]
  unfold readPlain
  simp only [hidle]

/-- An option that takes a value waits for it. -/
theorem readWord_valueOption (h : Settles reading given count) {letter : Char}
    {parameter : Parameter κ} {anyWord : Bool} (hletter : letter ≠ '-')
    (hfind : grammar.options.find? (·.letter = some letter) = some parameter)
    (hkind : parameter.kind = .value anyWord) :
    reading.readWord grammar ['-', letter] =
      .ok { settled := given, pending := some (parameter, none), operandCount := count } := by
  rw [readWord_letter h letter hletter]
  unfold readLetters
  simp only [hfind, hkind, List.isEmpty_nil, if_true]
  unfold readOption
  simp only [hkind]
  rw [h]
  rfl

/-- An option that stands alone is given at once. -/
theorem readWord_switch (h : Settles reading given count) {letter : Char}
    {parameter : Parameter κ} (hletter : letter ≠ '-')
    (hfind : grammar.options.find? (·.letter = some letter) = some parameter)
    (hkind : parameter.kind = .switch) (hfree : Accepts given parameter) :
    reading.readWord grammar ['-', letter] =
      .ok { settled := given ++ [(parameter.key, [])], operandCount := count } := by
  rw [readWord_letter h letter hletter]
  unfold readLetters
  simp only [hfind, hkind]
  unfold readOption
  simp only [hkind]
  rw [h]
  show (give { settled := given, operandCount := count } parameter []).bind _ = _
  rw [give_of_admits (hfree.admits []) (by simp [hkind])]
  rfl

/-- An option that takes any word takes the next one as its value. -/
theorem readWord_value {parameter : Parameter κ} (hkind : parameter.kind = .value true)
    (value : Text) :
    ({ settled := given, pending := some (parameter, none), operandCount := count }
        : Reading κ).readWord grammar value =
      .ok { settled := given, pending := some (parameter, some value), operandCount := count } := by
  unfold readWord
  simp [takesAnyWord, waiting?, hkind, readPlain]
  rfl

/-- A plain word between parameters is the next operand. -/
theorem readWord_operand (h : Settles reading given count) {parameter : Parameter κ} {word : Text}
    (hplain : IsPlain word) (hoperand : grammar.operands[count]? = some parameter) :
    reading.readWord grammar word =
      .ok { settled := given, pending := some (parameter, some word)
            operandCount := count + 1 } := by
  obtain ⟨hopen, hcount, hidle⟩ := of_settles h
  rw [readWord_plain_of_idle hopen hidle hplain]
  unfold readOperand
  simp only [hcount, hoperand]
  rw [h]
  rfl

/-! ## Several words, without subcommands -/

theorem readWords_cons_of_not {word : Text} (hno : reading.isSubcommand grammar word = false)
    (h : reading.readWord grammar word = .ok next) (words : List Text) :
    reading.readWords grammar (word :: words) = next.readWords grammar words := by
  rw [readWords]
  simp only [hno, Bool.false_eq_true, if_false, h]
  rfl

theorem readWords_cons (hsub : grammar.subcommands = []) {word : Text}
    (h : reading.readWord grammar word = .ok next) (words : List Text) :
    reading.readWords grammar (word :: words) = next.readWords grammar words :=
  readWords_cons_of_not (by simp [isSubcommand, hsub]) h words

/-- **An option and its value** are given together, whatever the value looks like. -/
theorem readWords_valueOption (hsub : grammar.subcommands = [])
    (h : Settles reading given count) (letter : Char) {parameter : Parameter κ}
    (hletter : letter ≠ '-')
    (hfind : grammar.options.find? (·.letter = some letter) = some parameter)
    (hkind : parameter.kind = .value true) (hfree : Accepts given parameter) (value : Text)
    (words : List Text) :
    ∃ next, reading.readWords grammar (['-', letter] :: value :: words) =
        readWords grammar next words ∧
      Settles next (given ++ [(parameter.key, value)]) count := by
  refine ⟨_, ?_, settles_pending (hfree.admits value) hkind⟩
  rw [readWords_cons hsub (readWord_valueOption h hletter hfind hkind),
    readWords_cons hsub (readWord_value hkind value)]

/-- **An option that stands alone** is given with an empty value. -/
theorem readWords_switch (hsub : grammar.subcommands = [])
    (h : Settles reading given count) (letter : Char) {parameter : Parameter κ}
    (hletter : letter ≠ '-')
    (hfind : grammar.options.find? (·.letter = some letter) = some parameter)
    (hkind : parameter.kind = .switch) (hfree : Accepts given parameter) (words : List Text) :
    ∃ next, reading.readWords grammar (['-', letter] :: words) = readWords grammar next words ∧
      Settles next (given ++ [(parameter.key, [])]) count :=
  ⟨_, readWords_cons hsub (readWord_switch h hletter hfind hkind hfree) words,
    settles_settled _ _⟩

/-- **A plain word** is given as the next operand. -/
theorem readWords_operand (hsub : grammar.subcommands = []) (h : Settles reading given count)
    {parameter : Parameter κ} {anyWord : Bool} {word : Text} (hplain : IsPlain word)
    (hoperand : grammar.operands[count]? = some parameter)
    (hkind : parameter.kind = .value anyWord) (hfree : Accepts given parameter)
    (words : List Text) :
    ∃ next, reading.readWords grammar (word :: words) = readWords grammar next words ∧
      Settles next (given ++ [(parameter.key, word)]) (count + 1) :=
  ⟨_, readWords_cons hsub (readWord_operand h hplain hoperand) words,
    settles_pending (hfree.admits word) hkind⟩

/-- Once all words are read, what was given is the answer, if no required operand is missing. -/
theorem finish_of_settles (h : Settles reading given count)
    (hall : ∀ parameter ∈ grammar.operands, parameter.required = true →
      parameter.key ∈ given.map Prod.fst) :
    reading.finish grammar = .ok given := by
  have hcheck : (grammar.operands.all fun parameter =>
      ! parameter.required || (given.map Prod.fst).contains parameter.key) = true := by
    rw [List.all_eq_true]
    intro parameter hmem
    cases hrequired : parameter.required with
    | false => rfl
    | true => simpa using hall parameter hmem hrequired
  unfold finish
  rw [h]
  show (if _ then _ else _) = _
  rw [if_pos hcheck]
  rfl

/-! ## All words, to the end -/

/-- **`readFrom grammar reading words`** — what reading the words and finishing comes to, when `reading`
has been read before them. -/
def readFrom (grammar : Grammar κ) (reading : Reading κ) (words : List Text) :
    Except Stop (List (κ × Text)) := do
  let (last, _) ← readWords grammar reading words
  last.finish grammar

/-- Words that leave the same words to be read come to the same. -/
theorem readFrom_of_readWords {words rest : List Text}
    (h : reading.readWords grammar words = next.readWords grammar rest) :
    readFrom grammar reading words = readFrom grammar next rest := by
  rw [readFrom, readFrom, h]

/-- A word that is refused ends the reading. -/
theorem readFrom_of_error (hsub : grammar.subcommands = []) {word : Text} {stop : Stop}
    (h : reading.readWord grammar word = .error stop) (words : List Text) :
    readFrom grammar reading (word :: words) = .error stop := by
  have hno : reading.isSubcommand grammar word = false := by simp [isSubcommand, hsub]
  rw [readFrom, readWords]
  simp only [hno, Bool.false_eq_true, if_false, h]
  rfl

/-! ## What has been given too often -/

/-- **`Spoiled reading`** — no value is waited for, and the parameter read last will be refused. -/
structure Spoiled (reading : Reading κ) : Prop where
  options : reading.operandsOnly = false
  idle : reading.waiting? = none
  refused : ∃ stop, reading.settle = .error stop

/-- A parameter that is given again spoils the reading, if it may be given only once. -/
theorem spoiled_of_repeated {parameter : Parameter κ} {anyWord : Bool}
    (hkind : parameter.kind = .value anyWord) (honce : parameter.repeatable = false)
    (hgiven : parameter.key ∈ given.map Prod.fst) (value : Text) :
    Spoiled { settled := given, pending := some (parameter, some value), operandCount := count } := by
  refine ⟨rfl, rfl, .fault (.repeated parameter.label), ?_⟩
  have hfound : (given.map Prod.fst).contains parameter.key = true := by simpa using hgiven
  show give _ parameter value = _
  unfold give
  simp only [hkind, honce, Bool.not_false, Bool.true_and, hfound, if_true]
  rfl

/-- Behind a spoiled parameter every letter is refused, that of an option or not. -/
theorem Spoiled.readWord_letter (h : Spoiled reading) (letter : Char) (hletter : letter ≠ '-') :
    ∃ stop, reading.readWord grammar ['-', letter] = .error stop := by
  obtain ⟨stop, hstop⟩ := h.refused
  have hread : ∀ parameter, reading.readOption parameter none = .error stop := by
    intro parameter
    unfold readOption
    rw [hstop]
    split
    · rfl
    · next heq => cases heq
    · next heq _ => cases heq
    · rfl
  rw [readWord_letter_of_idle h.options h.idle letter hletter]
  unfold readLetters
  split
  · exact ⟨_, rfl⟩
  · refine ⟨stop, ?_⟩
    split
    · exact hread _
    · rw [hread]
      rfl

/-- And so is every plain word, whether there is room for an operand or not. -/
theorem Spoiled.readWord_plain (h : Spoiled reading) {word : Text} (hplain : IsPlain word) :
    ∃ stop, reading.readWord grammar word = .error stop := by
  obtain ⟨stop, hstop⟩ := h.refused
  rw [readWord_plain_of_idle h.options h.idle hplain]
  unfold readOperand
  split
  · exact ⟨stop, by rw [hstop]; rfl⟩
  · split
    · exact ⟨_, rfl⟩
    · exact ⟨_, rfl⟩

/-- And so is the end. -/
theorem Spoiled.finish (h : Spoiled reading) : ∃ stop, reading.finish grammar = .error stop := by
  obtain ⟨stop, hstop⟩ := h.refused
  refine ⟨stop, ?_⟩
  unfold Reading.finish
  rw [hstop]
  rfl

/-- A plain word for which there is no operand is refused. -/
theorem readWord_surplus (h : Settles reading given count) {word : Text} (hplain : IsPlain word)
    (hnone : grammar.operands[count]? = none) :
    ∃ stop, reading.readWord grammar word = .error stop := by
  obtain ⟨hopen, hcount, hidle⟩ := of_settles h
  rw [readWord_plain_of_idle hopen hidle hplain]
  unfold readOperand
  simp only [hcount, hnone]
  split
  · exact ⟨_, rfl⟩
  · exact ⟨_, rfl⟩

/-! ## What has not been given -/

/-- **`Lacks key reading`** — no parameter of this key has been read. -/
structure Lacks (key : κ) (reading : Reading κ) : Prop where
  settled : key ∉ reading.settled.map Prod.fst
  pending : ∀ parameter value, reading.pending = some (parameter, value) → parameter.key ≠ key

variable {key : κ}

theorem lacks_of_settles (h : Settles reading given count) (hkey : key ∉ given.map Prod.fst) :
    Lacks key reading := by
  rcases eq_of_settle h with ⟨rfl, -⟩ | ⟨parameter, value, hpending, hnext⟩
  · exact ⟨hkey, by simp⟩
  · simp only [mk.injEq] at hnext
    rw [hnext.1] at hkey
    simp only [List.map_append, List.map_cons, List.map_nil, List.mem_append, List.mem_singleton,
      not_or] at hkey
    refine ⟨hkey.1, fun other value' hother => ?_⟩
    rw [hpending] at hother
    obtain ⟨rfl, -⟩ : parameter = other ∧ _ := by simpa using hother
    exact Ne.symm hkey.2

theorem lacks_give {parameter : Parameter κ} {value : Text} (h : Lacks key reading)
    (hkey : parameter.key ≠ key) (hgive : reading.give parameter value = .ok next) :
    Lacks key next := by
  rw [eq_of_give hgive]
  refine ⟨?_, h.pending⟩
  simpa [Ne.symm hkey] using h.settled

theorem lacks_settle (h : Lacks key reading) (hsettle : reading.settle = .ok next) :
    Lacks key next := by
  rcases eq_of_settle hsettle with ⟨rfl, -⟩ | ⟨parameter, value, hpending, rfl⟩
  · exact h
  · refine ⟨?_, by simp⟩
    simpa [Ne.symm (h.pending parameter (some value) hpending)] using h.settled

/-- An option of another key leaves a parameter lacking. -/
theorem lacks_readOption {parameter : Parameter κ} {attached : Option Text}
    (h : Lacks key reading) (hkey : parameter.key ≠ key)
    (hread : reading.readOption parameter attached = .ok next) : Lacks key next := by
  unfold readOption at hread
  -- whatever is read last is settled first; where that stops, nothing is read
  cases hsettle : reading.settle with
  | error stop =>
      rw [hsettle] at hread
      split at hread <;> simp [throw, throwThe, MonadExceptOf.throw, bind, Except.bind] at hread
  | ok settled =>
      have hsettled := lacks_settle h hsettle
      rw [hsettle] at hread
      split at hread
      · simp only [bind, Except.bind, pure, Except.pure, Except.ok.injEq] at hread
        subst hread
        refine ⟨hsettled.settled, ?_⟩
        rintro _ _ ⟨⟩
        exact hkey
      · exact lacks_give hsettled hkey hread
      · cases hread
      · exact lacks_give hsettled hkey hread

/-- Letters behind a dash leave a parameter lacking that is no option. -/
theorem lacks_readLetters (hoptions : ∀ parameter ∈ grammar.options, parameter.key ≠ key)
    {letters : Text} (h : Lacks key reading)
    (hread : reading.readLetters grammar letters = .ok next) : Lacks key next := by
  induction letters generalizing reading with
  | nil =>
      simp only [readLetters, pure, Except.pure, Except.ok.injEq] at hread
      exact hread ▸ h
  | cons letter rest ih =>
      -- an option that takes a value ends the letters; a switch leaves the rest of them to be read
      unfold readLetters at hread
      cases hfind : grammar.options.find? (·.letter = some letter) with
      | none => simp [hfind, throw, throwThe, MonadExceptOf.throw] at hread
      | some parameter =>
          have hkey := hoptions parameter (List.mem_of_find?_eq_some hfind)
          simp only [hfind] at hread
          split at hread
          · exact lacks_readOption h hkey hread
          · cases hfirst : reading.readOption parameter none with
            | error stop => simp [hfirst, bind, Except.bind] at hread
            | ok middle =>
                simp only [hfirst, bind, Except.bind] at hread
                exact ih (lacks_readOption h hkey hfirst) hread

theorem lacks_readName (hoptions : ∀ parameter ∈ grammar.options, parameter.key ≠ key)
    {word : Text} (h : Lacks key reading) (hread : reading.readName grammar word = .ok next) :
    Lacks key next := by
  unfold readName at hread
  dsimp only at hread
  split at hread
  · next parameter hfind =>
      exact lacks_readOption h (hoptions parameter (List.mem_of_find?_eq_some hfind)) hread
  · cases hread

/-- **No word that starts with a dash is an operand**, except the dash alone. -/
theorem lacks_readWord (hoptions : ∀ parameter ∈ grammar.options, parameter.key ≠ key)
    {word : Text} (hopen : reading.operandsOnly = false) (hidle : reading.waiting? = none)
    (hword : ¬ IsPlain word) (h : Lacks key reading)
    (hread : reading.readWord grammar word = .ok next) : Lacks key next := by
  have hany : reading.takesAnyWord = false := by simp [takesAnyWord, hidle]
  unfold readWord at hread
  simp only [hopen, hany, Bool.false_eq_true, if_false] at hread
  split at hread
  · simp only [pure, Except.pure, Except.ok.injEq] at hread
    subst hread
    exact ⟨h.settled, h.pending⟩
  · exact lacks_readName hoptions h hread
  · exact lacks_readLetters hoptions h hread
  · next hletters => exact absurd (isPlain_iff.mpr hletters) hword

/-- A command line without its required operand is refused at the end. -/
theorem finish_of_lacks {parameter : Parameter κ} (hmem : parameter ∈ grammar.operands)
    (hrequired : parameter.required = true) (h : Lacks parameter.key reading) :
    ∃ stop, reading.finish grammar = .error stop := by
  unfold finish
  cases hsettle : reading.settle with
  | error stop => exact ⟨stop, rfl⟩
  | ok settled =>
      -- settling adds another parameter at most, so the required one is still missing
      have hlacks := (lacks_settle h hsettle).settled
      have hcheck : ¬ (grammar.operands.all fun parameter =>
          ! parameter.required || (settled.settled.map Prod.fst).contains parameter.key) = true := by
        intro hall
        have hgiven := List.all_eq_true.mp hall parameter hmem
        simp only [hrequired, Bool.not_true, Bool.false_or, List.contains_iff_mem] at hgiven
        exact hlacks hgiven
      refine ⟨.fault .missingOperand, ?_⟩
      show (if _ then _ else _) = _
      rw [if_neg hcheck]
      rfl

end PlainRequest.Arguments.Reading

/-! ## Looking up what was given -/

namespace PlainRequest.Arguments

variable {κ : Type} [DecidableEq κ]

/-- Of two lists the later one decides, if it has the key at all. -/
theorem valueOf?_append (key : κ) (before after : List (κ × Text)) :
    valueOf? key (before ++ after) = (valueOf? key after).or (valueOf? key before) := by
  simp only [valueOf?, List.findRev?_eq_findRev?TR, List.findRev?TR, List.reverse_append,
    List.find?_append, Option.map_or]

theorem valueOf?_cons (key k : κ) (value : Text) (given : List (κ × Text)) :
    valueOf? key ((k, value) :: given) =
      (valueOf? key given).or (if k = key then some value else none) := by
  rw [← List.singleton_append, valueOf?_append]
  congr 1
  by_cases h : k = key <;> simp [valueOf?, List.findRev?, h]

@[simp] theorem valueOf?_nil (key : κ) : valueOf? key ([] : List (κ × Text)) = none := rfl

theorem valueOf?_eq_none {key : κ} {given : List (κ × Text)} (h : key ∉ given.map Prod.fst) :
    valueOf? key given = none := by
  rw [valueOf?, List.findRev?_eq_findRev?TR, List.findRev?TR, Option.map_eq_none_iff,
    List.find?_eq_none]
  intro entry hmem
  simp only [decide_eq_true_eq]
  rintro rfl
  exact h (List.mem_map_of_mem (List.mem_reverse.mp hmem))

theorem valuesOf_append (key : κ) (before after : List (κ × Text)) :
    valuesOf key (before ++ after) = valuesOf key before ++ valuesOf key after := by
  simp only [valuesOf, List.filterMap_append]

theorem valuesOf_cons (key k : κ) (value : Text) (rest : List (κ × Text)) :
    valuesOf key ((k, value) :: rest) =
      (if k = key then [value] else []) ++ valuesOf key rest := by
  rw [valuesOf, valuesOf, List.filterMap_cons]
  by_cases hk : k = key
  · simp only [hk, if_true, List.singleton_append]
  · simp only [hk, if_false, List.nil_append]

/-- The value that decides is the last of all. -/
theorem valueOf?_eq_getLast? (key : κ) (given : List (κ × Text)) :
    valueOf? key given = (valuesOf key given).getLast? := by
  induction given with
  | nil => rfl
  | cons entry rest ih =>
      obtain ⟨k, value⟩ := entry
      rw [valueOf?_cons, ih, valuesOf_cons, List.getLast?_append]
      split <;> rfl

end PlainRequest.Arguments
