/-
# PlainRequest.Proofs.Arguments.Wording — words that give parameters

An option is called by its name or its letter. If it takes a value, that is the next word, or stands in
the same word behind an equals sign. `Gives` says which words give which value to an option, and
`GivesAll` what a sequence of options and operands gives. The reading of such words comes to what they
give, whatever follows them.
-/

import PlainRequest.Line
import PlainRequest.Proofs.Arguments.Reading
import PlainRequest.Proofs.Text.Cutting

namespace PlainRequest.Arguments

open Text Reading

variable {κ : Type} {grammar : Grammar κ} {parameter : Parameter κ} {given : List (κ × Text)}
  {count : Nat} {word value : Text} {words more : List Text}

/-! ## Options in words -/

/-- **`Calls grammar parameter word`** — the word calls the option, by its name or by its letter. -/
inductive Calls (grammar : Grammar κ) (parameter : Parameter κ) : Text → Prop
  | name {name : Text} (hne : name ≠ []) (hplain : '=' ∉ name)
      (hfind : grammar.options.find? (·.name = some name) = some parameter) :
      Calls grammar parameter ('-' :: '-' :: name)
  | letter {letter : Char} (hne : letter ≠ '-')
      (hfind : grammar.options.find? (·.letter = some letter) = some parameter) :
      Calls grammar parameter ['-', letter]

/-- **`Gives grammar parameter value words`** — the words give the value to the option. -/
inductive Gives (grammar : Grammar κ) (parameter : Parameter κ) : Text → List Text → Prop
  /-- An option that stands alone has an empty value. -/
  | switch {word : Text} (hkind : parameter.kind = .switch) (hcalls : Calls grammar parameter word) :
      Gives grammar parameter [] [word]
  /-- The value is the next word. -/
  | separate {word value : Text} (hkind : parameter.kind = .value false)
      (hcalls : Calls grammar parameter word) (hplain : IsPlain value) :
      Gives grammar parameter value [word, value]
  /-- The value is in the same word, behind an equals sign. -/
  | attached {name value : Text} (hkind : parameter.kind = .value false)
      (hcalls : Calls grammar parameter ('-' :: '-' :: name)) :
      Gives grammar parameter value ['-' :: '-' :: (name ++ '=' :: value)]

/-- **`GivesAll grammar words given count`** — the words give these values, `count` of them to operands. -/
inductive GivesAll (grammar : Grammar κ) : List Text → List (κ × Text) → Nat → Prop
  | nil : GivesAll grammar [] [] 0
  | option {parameter : Parameter κ} {words more : List Text} {given : List (κ × Text)} {value : Text}
      {count : Nat} (hwords : GivesAll grammar words given count)
      (hgives : Gives grammar parameter value more) (hadmits : Admits given parameter value) :
      GivesAll grammar (words ++ more) (given ++ [(parameter.key, value)]) count
  | operand {parameter : Parameter κ} {words : List Text} {given : List (κ × Text)} {word : Text}
      {count : Nat} (hwords : GivesAll grammar words given count) (hplain : IsPlain word)
      (hsub : word ∉ grammar.subcommands) (hoperand : grammar.operands[count]? = some parameter)
      (hkind : parameter.kind = .value false) (hadmits : Admits given parameter word) :
      GivesAll grammar (words ++ [word]) (given ++ [(parameter.key, word)]) (count + 1)

/-- A name calls the option that has it. -/
theorem calls_name_iff {name : Text} :
    Calls grammar parameter ('-' :: '-' :: name) ↔
      name ≠ [] ∧ '=' ∉ name ∧ grammar.options.find? (·.name = some name) = some parameter := by
  constructor
  · rintro (⟨hne, hplain, hfind⟩ | ⟨hne, -⟩)
    · exact ⟨hne, hplain, hfind⟩
    · exact absurd rfl hne
  · rintro ⟨hne, hplain, hfind⟩
    exact .name hne hplain hfind

theorem calls_letter_iff {letter : Char} (hne : letter ≠ '-') :
    Calls grammar parameter ['-', letter] ↔
      grammar.options.find? (·.letter = some letter) = some parameter := by
  constructor
  · rintro (_ | ⟨-, hfind⟩)
    · exact absurd rfl hne
    · exact hfind
  · exact .letter hne

theorem Calls.mem_options (h : Calls grammar parameter word) : parameter ∈ grammar.options := by
  cases h with
  | name _ _ hfind => exact List.mem_of_find?_eq_some hfind
  | letter _ hfind => exact List.mem_of_find?_eq_some hfind

theorem Gives.mem_options (h : Gives grammar parameter value words) : parameter ∈ grammar.options := by
  cases h with
  | switch _ hcalls => exact hcalls.mem_options
  | separate _ hcalls _ => exact hcalls.mem_options
  | attached _ hcalls => exact hcalls.mem_options

/-! ## What is given -/

/-- **What is given was accepted** by a parameter of the grammar. -/
theorem GivesAll.accepted (h : GivesAll grammar words given count) :
    ∀ key value, (key, value) ∈ given → ∃ parameter ∈ grammar.options ++ grammar.operands,
      parameter.key = key ∧ parameter.check value = none := by
  induction h with
  | nil => simp
  | option hwords hgives hadmits ih =>
      intro key value hmem
      rcases List.mem_append.mp hmem with hmem | hmem
      · exact ih key value hmem
      · obtain ⟨rfl, rfl⟩ := Prod.mk.inj (List.mem_singleton.mp hmem)
        exact ⟨_, List.mem_append_left _ hgives.mem_options, rfl, hadmits.accepted⟩
  | operand hwords hplain hsub hoperand hkind hadmits ih =>
      intro key value hmem
      rcases List.mem_append.mp hmem with hmem | hmem
      · exact ih key value hmem
      · obtain ⟨rfl, rfl⟩ := Prod.mk.inj (List.mem_singleton.mp hmem)
        exact ⟨_, List.mem_append_right _ (List.mem_of_getElem? hoperand), rfl, hadmits.accepted⟩

/-- **Nothing is given twice** where nothing may be repeated. -/
theorem GivesAll.nodup (honce : ∀ parameter ∈ grammar.options ++ grammar.operands,
    parameter.repeatable = false) (h : GivesAll grammar words given count) :
    (given.map Prod.fst).Nodup := by
  have hconcat : ∀ {given : List (κ × Text)} {parameter : Parameter κ} {value : Text},
      (given.map Prod.fst).Nodup → parameter ∈ grammar.options ++ grammar.operands →
      Admits given parameter value → ((given ++ [(parameter.key, value)]).map Prod.fst).Nodup := by
    intro given parameter value hnodup hmem hadmits
    have hfresh : parameter.key ∉ given.map Prod.fst := by
      rcases hadmits.free with hrepeat | hfresh
      · rw [honce parameter hmem] at hrepeat
        cases hrepeat
      · exact hfresh
    rw [List.map_append, List.map_singleton, List.nodup_append]
    refine ⟨hnodup, by simp, ?_⟩
    intro key hkey other hother heq
    rw [heq, List.mem_singleton.mp hother] at hkey
    exact hfresh hkey
  induction h with
  | nil => exact List.nodup_nil
  | option hwords hgives hadmits ih =>
      exact hconcat ih (List.mem_append_left _ hgives.mem_options) hadmits
  | operand hwords hplain hsub hoperand hkind hadmits ih =>
      exact hconcat ih (List.mem_append_right _ (List.mem_of_getElem? hoperand)) hadmits

variable [DecidableEq κ]

/-- So what is given for a key is its value. -/
theorem valueOf?_eq_some_iff {key : κ} (h : (given.map Prod.fst).Nodup) :
    valueOf? key given = some value ↔ (key, value) ∈ given := by
  induction given with
  | nil => simp
  | cons entry rest ih =>
      obtain ⟨other, text⟩ := entry
      rw [List.map_cons, List.nodup_cons] at h
      rw [valueOf?_cons, List.mem_cons]
      by_cases hkey : other = key
      · subst hkey
        rw [valueOf?_eq_none h.1]
        constructor
        · intro hvalue
          exact .inl (by simpa using hvalue.symm)
        · rintro (hentry | hrest)
          · simpa using (Prod.mk.inj hentry).2.symm
          · exact absurd (List.mem_map_of_mem hrest) h.1
      · rw [if_neg hkey, Option.or_none, ih h.2]
        constructor
        · exact .inr
        · rintro (hentry | hrest)
          · exact absurd (Prod.mk.inj hentry).1.symm hkey
          · exact hrest

/-! ## Reading the words -/

namespace Reading

variable {reading : Reading κ}

/-- A word that begins with two dashes, and is more than these, is read by its name. -/
theorem readWord_name (h : Settles reading given count) {name : Text} (hne : name ≠ []) :
    reading.readWord grammar ('-' :: '-' :: name) = reading.readName grammar name := by
  obtain ⟨hopen, -, hidle⟩ := of_settles h
  have hany : reading.takesAnyWord = false := by simp [takesAnyWord, hidle]
  obtain ⟨c, rest, rfl⟩ := List.exists_cons_of_ne_nil hne
  unfold readWord
  simp only [hopen, hany, Bool.false_eq_true, if_false]

/-- An option is read where a word calls it. -/
theorem readWord_calls (h : Settles reading given count) (hcalls : Calls grammar parameter word) :
    reading.readWord grammar word = reading.readOption parameter none := by
  cases hcalls with
  | @name name hne hplain hfind =>
      rw [readWord_name h hne, readName, splitFirst?_of_notMem hplain]
      simp only [hfind]
  | @letter letter hne hfind =>
      -- the letter is the last one, so nothing is read behind the option
      have hlast : (reading.readOption parameter none).bind (readLetters grammar · []) =
          reading.readOption parameter none := by
        cases reading.readOption parameter none <;> rfl
      rw [readWord_letter h letter hne, readLetters]
      simp only [hfind]
      split
      · rfl
      · exact hlast

/-- And with its value, where that is attached to its name. -/
theorem readWord_attached (h : Settles reading given count) {name : Text}
    (hcalls : Calls grammar parameter ('-' :: '-' :: name)) (value : Text) :
    reading.readWord grammar ('-' :: '-' :: (name ++ '=' :: value)) =
      reading.readOption parameter (some value) := by
  obtain ⟨-, hplain, hfind⟩ := calls_name_iff.mp hcalls
  rw [readWord_name h (by simp), readName, Line.splitFirst?_append hplain]
  simp only [hfind]

theorem readOption_switch (h : Settles reading given count) (hkind : parameter.kind = .switch)
    (hadmits : Admits given parameter []) :
    reading.readOption parameter none =
      .ok { settled := given ++ [(parameter.key, [])], operandCount := count } := by
  unfold readOption
  simp only [hkind]
  rw [h]
  exact give_of_admits hadmits (by simp [hkind])

theorem readOption_waits {anyWord : Bool} (h : Settles reading given count)
    (hkind : parameter.kind = .value anyWord) :
    reading.readOption parameter none =
      .ok { settled := given, pending := some (parameter, none), operandCount := count } := by
  unfold readOption
  simp only [hkind]
  rw [h]
  rfl

theorem readOption_attached {anyWord : Bool} (h : Settles reading given count)
    (hkind : parameter.kind = .value anyWord) (hadmits : Admits given parameter value) :
    reading.readOption parameter (some value) =
      .ok { settled := given ++ [(parameter.key, value)], operandCount := count } := by
  unfold readOption
  simp only [hkind]
  rw [h]
  exact give_of_admits hadmits (by simp [hkind])

/-- A value that is waited for is the next plain word. -/
theorem readWord_waited (hkind : parameter.kind = .value false) (hplain : IsPlain value) :
    ({ settled := given, pending := some (parameter, none), operandCount := count }
        : Reading κ).readWord grammar value =
      .ok { settled := given, pending := some (parameter, some value), operandCount := count } := by
  rw [readWord_plain rfl (by simp [takesAnyWord, waiting?, hkind]) hplain]
  rfl

omit [DecidableEq κ] in
/-- No word with a dash in front is a subcommand, if none begins with one. -/
theorem isSubcommand_dash (hdash : ∀ word ∈ grammar.subcommands, word.head? ≠ some '-')
    (rest : Text) : reading.isSubcommand grammar ('-' :: rest) = false := by
  have hnot : ('-' :: rest) ∉ grammar.subcommands := fun hmem => hdash _ hmem rfl
  simp [isSubcommand, hnot]

/-- **The words of an option** give it its value. -/
theorem readWords_gives (hdash : ∀ word ∈ grammar.subcommands, word.head? ≠ some '-')
    (h : Settles reading given count) (hgives : Gives grammar parameter value words)
    (hadmits : Admits given parameter value) (rest : List Text) :
    ∃ next, reading.readWords grammar (words ++ rest) = readWords grammar next rest ∧
      Settles next (given ++ [(parameter.key, value)]) count := by
  have hoption : ∀ {word : Text}, Calls grammar parameter word →
      reading.isSubcommand grammar word = false := by
    rintro _ (_ | _)
    · exact isSubcommand_dash hdash _
    · exact isSubcommand_dash hdash _
  cases hgives with
  | switch hkind hcalls =>
      exact ⟨_, readWords_cons_of_not (hoption hcalls)
        ((readWord_calls h hcalls).trans (readOption_switch h hkind hadmits)) rest,
        settles_settled _ _⟩
  | separate hkind hcalls hplain =>
      refine ⟨_, ?_, settles_pending hadmits hkind⟩
      rw [List.cons_append, readWords_cons_of_not (hoption hcalls)
        ((readWord_calls h hcalls).trans (readOption_waits h hkind))]
      exact readWords_cons_of_not rfl (readWord_waited hkind hplain) rest
  | attached hkind hcalls =>
      exact ⟨_, readWords_cons_of_not (isSubcommand_dash hdash _)
        ((readWord_attached h hcalls value).trans (readOption_attached h hkind hadmits)) rest,
        settles_settled _ _⟩

/-- **Words that give parameters are read as these**, whatever follows them. -/
theorem readWords_givesAll (hdash : ∀ word ∈ grammar.subcommands, word.head? ≠ some '-')
    (h : GivesAll grammar words given count) (rest : List Text) :
    ∃ next, readWords grammar {} (words ++ rest) = readWords grammar next rest ∧
      Settles next given count := by
  induction h generalizing rest with
  | nil => exact ⟨{}, rfl, settles_start⟩
  | @option parameter words more given value count _ hgives hadmits ih =>
      obtain ⟨next, hread, hsettles⟩ := ih (more ++ rest)
      obtain ⟨last, hmore, hlast⟩ := readWords_gives hdash hsettles hgives hadmits rest
      exact ⟨last, by rw [List.append_assoc, hread, hmore], hlast⟩
  | @operand parameter words given word count _ hplain hsub hoperand hkind hadmits ih =>
      obtain ⟨next, hread, hsettles⟩ := ih (word :: rest)
      have hno : next.isSubcommand grammar word = false := by simp [isSubcommand, hsub]
      refine ⟨_, ?_, settles_pending hadmits hkind⟩
      rw [List.append_assoc, List.singleton_append, hread]
      exact readWords_cons_of_not hno (readWord_operand hsettles hplain hoperand) rest

end Reading

/-- **The words of a command without subcommands** are read as what they give. -/
theorem read_givesAll (hsub : grammar.subcommands = []) (h : GivesAll grammar words given count)
    (hall : ∀ parameter ∈ grammar.operands, parameter.required = true →
      parameter.key ∈ given.map Prod.fst) :
    read grammar words = .ok given := by
  obtain ⟨next, hread, hsettles⟩ := readWords_givesAll (by simp [hsub]) h []
  rw [List.append_nil] at hread
  rw [read, hread]
  exact finish_of_settles hsettles hall

end PlainRequest.Arguments
