/-
# PlainRequest.Proofs.Curl.Quoting — what stands between double quotes stays there

Headers and data stand between double quotes in a command, and a whole command stands between double quotes
in the string of a host program. Both are written with a backslash before every character of a class; the
class of a command has the characters that begin an expansion as well, since a shell looks for these between
double quotes. In either case the text has its own characters as signs, each of which stands between double
quotes. So the quotes close behind it and nowhere in it, whatever it is and whatever comes then, and what is
read between them is the text.
-/

import PlainRequest.Proofs.Curl.CommandWords
import PlainRequest.Proofs.Shell.Expansion
import PlainRequest.Proofs.Text.Replacing

namespace PlainRequest.Curl

open Text Shell

/-! ## The values of options -/

/-- The options of a command whose values stand between double quotes, each with its value. -/
def quotedValues (head : Head) : List (Text × Text) :=
  head.headers.map (fun (name, value) => ("-H".toList, name ++ ": ".toList ++ value))
    ++ [("-d".toList, joinWith [' '] (head.bodyLines.map trim))]

/-- **`StandsQuoted command option value`** — in the command, the value stands between double quotes as
the word behind the option: the reader is between words where the quotes open and has read the option last,
and behind them the word ends. -/
def StandsQuoted (command option value : Text) : Prop :=
  ∃ before after finished,
    command = before ++ '"' :: (escapeDouble value ++ '"' :: ' ' :: after) ∧
      State.start.run before = ⟨option :: finished, .gap⟩

/-- An option and its value among other spellings. -/
theorem standsQuoted_of_spellings {front words back : List Text} {option : Text} (value : Text)
    (hfront : List.Forall₂ Spells front words) (hoption : Spells option option) (hback : back ≠ []) :
    StandsQuoted (joinWith [' '] (front ++ [option] ++ doubled value :: back)) option value := by
  refine ⟨joinWith [' '] (front ++ [option]) ++ [' '], joinWith [' '] back, words.reverse, ?_, ?_⟩
  · rw [joinWith_append (by simp) (by simp), joinWith_cons hback, doubled]
    simp
  · have hread := run_joinWith_space (List.rel_append hfront (.cons hoption .nil)) (by simp) [] []
    rw [List.reverse_append, List.append_nil] at hread
    exact hread

theorem headerSpellings_append (before after : List (Text × Text)) (header : Text × Text) :
    headerSpellings (before ++ header :: after) =
      headerSpellings before ++ ["-H".toList, doubled (Line.ofHeader header.1 header.2)]
        ++ headerSpellings after := by
  simp [headerSpellings]

/-- **Every value of `-H` and `-d` stands quoted** in a command. -/
theorem standsQuoted_commandOf (head : Head) (quotedUrl : Text) {option value : Text}
    (h : (option, value) ∈ quotedValues head) :
    StandsQuoted (commandOf head quotedUrl) option value := by
  have hstart : List.Forall₂ Spells ["curl".toList, "-X".toList, head.method.name]
      ["curl".toList, "-X".toList, head.method.name] :=
    .cons (spells_bare (by decide) (by decide)) (.cons (spells_bare (by decide) (by decide))
      (.cons (spells_method head.method) .nil))
  rw [commandOf_eq_joinWith, commandSpellings]
  rcases List.mem_append.mp h with hheader | hdata
  · obtain ⟨header, hmem, hpair⟩ := List.mem_map.mp hheader
    obtain ⟨rfl, rfl⟩ := Prod.mk.inj hpair
    obtain ⟨before, after, hheaders⟩ := List.append_of_mem hmem
    have hfront := List.rel_append hstart (spells_headers before)
    have hback : headerSpellings after
        ++ ["-v".toList, "-d".toList, doubled (dataOf head.bodyLines), quotedUrl] ≠ [] := by simp
    have hstands := standsQuoted_of_spellings (Line.ofHeader header.1 header.2) hfront
      (spells_bare (by decide) (by decide) : Spells "-H".toList "-H".toList) hback
    rw [hheaders, headerSpellings_append]
    show StandsQuoted _ _ (Line.ofHeader header.1 header.2)
    simpa using hstands
  · obtain ⟨rfl, rfl⟩ := Prod.mk.inj (List.mem_singleton.mp hdata)
    have hfront := List.rel_append (List.rel_append hstart (spells_headers head.headers))
      (.cons (spells_bare (by decide) (by decide) : Spells "-v".toList "-v".toList) .nil)
    have hstands := standsQuoted_of_spellings (dataOf head.bodyLines) hfront
      (spells_bare (by decide) (by decide) : Spells "-d".toList "-d".toList)
      (List.cons_ne_nil quotedUrl [])
    show StandsQuoted _ _ (dataOf head.bodyLines)
    simpa using hstands

/-- **In a command no expansion begins.** -/
theorem inert_commandOf {head : Head} {quotedUrl : Text} (h : quote? head.url = some quotedUrl) :
    Inert State.start (commandOf head quotedUrl) := by
  have hmethod : head.method.name.all Ways.isBare = true := by cases head.method <;> decide
  have hheaders : ∀ spelling ∈ headerSpellings head.headers, ∀ finished,
      Inert ⟨finished, .gap⟩ spelling := by
    intro spelling hspelling finished
    obtain ⟨⟨name, value⟩, -, hmem⟩ := List.mem_flatMap.mp hspelling
    simp only [List.mem_cons, List.not_mem_nil, or_false] at hmem
    rcases hmem with rfl | rfl
    · exact inert_bare (by decide)
    · exact inert_double _ finished
  rw [commandOf_eq_joinWith]
  apply inert_joinWith (spells_command (spells_quote? h))
  simp only [commandSpellings, List.forall_mem_append, List.forall_mem_cons]
  exact ⟨⟨⟨fun _ => inert_bare (by decide), fun _ => inert_bare (by decide),
    fun _ => inert_bare hmethod, by simp⟩, hheaders⟩, fun _ => inert_bare (by decide),
    fun _ => inert_bare (by decide), inert_double _, inert_quote? h, by simp⟩

/-- **Escaped text stays between its quotes.** Read from behind a double quote that opens, in the middle of
any word, an escaped text is read as the text, and the next double quote is the one that closes, whatever
follows. Taken apart into signs it has the characters of the text, and no double quote, `$` or backquote of
it stands alone. So in every command each value of `-H` and `-d` stands between quotes that close behind it,
as the word behind its option, and nowhere in the command an expansion begins. -/
theorem escapeDouble_closed_inert :
    (∀ (finished : List Text) (word text rest : Text),
      State.untilClosed? ⟨finished, .double word⟩ (escapeDouble text ++ '"' :: rest) =
        some (⟨finished, .bare (text.reverse ++ word)⟩, rest)) ∧
    (∀ text, ∃ signs, signs? (escapeDouble text) = some signs ∧ signs.map Sign.char = text ∧
      ∀ c, .lone c ∈ signs → c ≠ '"' ∧ c ≠ '$' ∧ c ≠ '`') ∧
    ∀ table block command, ofBlock table block = .ok command →
      ∃ head, Head.ofBlock table block = .ok head ∧
        (∀ option value, (option, value) ∈ quotedValues head → StandsQuoted command option value) ∧
        Inert State.start command := by
  refine ⟨quotes_needsEscape.untilClosed?_backslashed, ?_, ?_⟩
  · intro text
    refine ⟨_, signs?_escapeDouble text, map_char_signOf needsEscape text, ?_⟩
    intro c hc
    exact (of_lone_mem_signs hc).2
  · intro table block command h
    obtain ⟨head, quotedUrl, hhead, hquote, rfl⟩ := exists_commandOf_of_ofBlock h
    exact ⟨head, hhead, fun option value => standsQuoted_commandOf head quotedUrl,
      inert_commandOf hquote⟩

/-- A header and a body with every character that means something between double quotes, and a URL that
needs quotes as well. -/
theorem escapeDouble_closed_inert_marks :
    let block := ["POST http://h/?q=$1".toList, "A: \"$(x)\\".toList, "`$5` \\$".toList]
    let command := ("curl -X POST -H \"A: \\\"\\$(x)\\\\\" -v -d \"\\`\\$5\\` \\\\\\$\" "
      ++ "'http://h/?q=$1'").toList
    ofBlock Table.empty block = .ok command ∧
      StandsQuoted command "-H".toList "A: \"$(x)\\".toList ∧
      StandsQuoted command "-d".toList "`$5` \\$".toList ∧ Inert State.start command := by
  intro block command
  have hcommand : ofBlock Table.empty block = .ok command := by decide +kernel
  obtain ⟨head, hhead, hvalues, hinert⟩ := escapeDouble_closed_inert.2.2 _ _ _ hcommand
  obtain rfl : head = ⟨.post, "http://h/?q=$1".toList, [("A".toList, "\"$(x)\\".toList)],
      ["`$5` \\$".toList]⟩ := by
    apply Except.ok.inj
    rw [← hhead]
    decide +kernel
  exact ⟨hcommand, hvalues _ _ (by decide +kernel), hvalues _ _ (by decide +kernel), hinert⟩

/-! ## A command in a string of a host -/

/-- Does a host program read the character behind a backslash only? -/
def needsMark (c : Char) : Bool := c = '\\' || c = '"'

theorem escapeForHost_eq_backslashed (text : Text) : escapeForHost text = backslashed needsMark text := by
  unfold escapeForHost backslashed needsMark
  simp only [Bool.or_eq_true, decide_eq_true_eq]

theorem needsMark_iff {c : Char} : needsMark c = true ↔ c = '\\' ∨ c = '"' := by
  simp [needsMark]

theorem quotes_needsMark : Quotes needsMark := by
  refine ⟨by decide, by decide, fun c hc => ?_⟩
  rcases needsMark_iff.mp hc with rfl | rfl
  · decide
  · decide

/-- **Which writing of a text is the one for a host**, said by its signs. -/
theorem eq_escapeForHost_iff {written text : Text} :
    written = escapeForHost text ↔ ∃ signs, signs? written = some signs ∧
      signs.map Sign.char = text ∧ (∀ c, .marked c ∈ signs → c = '\\' ∨ c = '"') ∧
      .lone '"' ∉ signs := by
  rw [escapeForHost_eq_backslashed, eq_backslashed_iff quotes_needsMark.backslash]
  refine exists_congr fun signs => and_congr_right fun hsigns => and_congr_right fun _ => ?_
  refine and_congr (forall_congr' fun c => imp_congr_right fun _ => needsMark_iff) ?_
  constructor
  · intro hlone hquote
    exact absurd (hlone _ hquote) (by decide)
  · intro hquote c hc
    rw [Bool.eq_false_iff, ne_eq, needsMark_iff]
    rintro (rfl | rfl)
    · exact backslash_notMem_of_signs? hsigns hc
    · exact hquote hc

/-- **A text in the string of a host is one word**, the text itself. -/
theorem words?_host (text : Text) : words? ('"' :: (escapeForHost text ++ ['"'])) = some [text] := by
  have hread := run_of_untilClosed? (quotes_needsMark.untilClosed?_backslashed [] [] text [])
  rw [← escapeForHost_eq_backslashed] at hread
  have hrun : State.start.run ('"' :: (escapeForHost text ++ ['"'])) = ⟨[], .bare text.reverse⟩ := by
    rw [List.append_nil] at hread
    exact hread
  rw [words?, hrun]
  show some [text.reverse.reverse] = some [text]
  rw [List.reverse_reverse]

theorem escapeForHost_injective : Function.Injective escapeForHost := by
  intro text other h
  have hsame := words?_host text
  rw [h, words?_host other] at hsame
  exact (List.singleton_inj.mp (Option.some.inj hsame)).symm

/-- **To write a backslash before both characters is to replace the one and then the other.** -/
theorem escapeForHost_eq_replaceAll (text : Text) :
    escapeForHost text = replaceAll ['"'] ['\\', '"'] (replaceAll ['\\'] ['\\', '\\'] text) := by
  rw [replaceAll_singleton, replaceAll_singleton, List.flatMap_assoc, escapeForHost]
  refine List.flatMap_congr fun c _ => ?_
  by_cases hback : c = '\\'
  · rw [hback]
    decide
  · by_cases hquote : c = '"'
    · rw [hquote]
      decide
    · simp [hback, hquote]

-- the other order of the two would take its own backslashes for those of the text
example : replaceAll ['\\'] ['\\', '\\'] (replaceAll ['"'] ['\\', '"'] ['"']) = "\\\\\"".toList ∧
    escapeForHost ['"'] = "\\\"".toList := by
  decide +kernel

/-- **The string of a host undoes the backslashes.** Between double quotes, an escaped text is read as one
word, the text. A text is the escaped one of another if and only if, taken apart into signs, it has the
characters of that text, backslashes before backslashes and double quotes only, and no double quote alone;
to write it, backslashes may be replaced first and double quotes then. So two texts are never escaped alike,
and a command for a block comes back as it is. -/
theorem escapeForHost_undone :
    (∀ text, words? ('"' :: (escapeForHost text ++ ['"'])) = some [text]) ∧
    (∀ text written, written = escapeForHost text ↔ ∃ signs, signs? written = some signs ∧
      signs.map Sign.char = text ∧ (∀ c, .marked c ∈ signs → c = '\\' ∨ c = '"') ∧
      .lone '"' ∉ signs) ∧
    (∀ text,
      escapeForHost text = replaceAll ['"'] ['\\', '"'] (replaceAll ['\\'] ['\\', '\\'] text)) ∧
    Function.Injective escapeForHost ∧
    ∀ table block command, ofBlock table block = .ok command →
      words? ('"' :: (escapeForHost command ++ ['"'])) = some [command] := by
  refine ⟨words?_host, fun text written => eq_escapeForHost_iff, escapeForHost_eq_replaceAll,
    escapeForHost_injective, ?_⟩
  intro table block command _
  exact words?_host command

/-- A command that has escapes of its own, in the string of a host. -/
theorem escapeForHost_undone_twice :
    let block := ["POST http://h/p".toList, "say \"\\".toList]
    let command := "curl -X POST -v -d \"say \\\"\\\\\" http://h/p".toList
    ofBlock Table.empty block = .ok command ∧
      words? "\"curl -X POST -v -d \\\"say \\\\\\\"\\\\\\\\\\\" http://h/p\"".toList = some [command] := by
  intro block command
  have hcommand : ofBlock Table.empty block = .ok command := by decide +kernel
  have hwritten : "\"curl -X POST -v -d \\\"say \\\\\\\"\\\\\\\\\\\" http://h/p\"".toList =
      '"' :: (escapeForHost command ++ ['"']) := by decide +kernel
  refine ⟨hcommand, ?_⟩
  rw [hwritten]
  exact escapeForHost_undone.2.2.2.2 _ _ _ hcommand

end PlainRequest.Curl
