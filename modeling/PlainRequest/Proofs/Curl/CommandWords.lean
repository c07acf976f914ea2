/-
# PlainRequest.Proofs.Curl.CommandWords — the words of a written command

The command for a block is one line of spellings with a space between them, so the shell reads from
it the words that were meant: `-X` and the method, `-H` and a header for each header, `-v`, `-d` and
the data, and the URL. Nothing in a header value, in the data or in the URL can merge, split or drop
a word.
-/

import PlainRequest.Curl.Command
import PlainRequest.Proofs.Request.Reading
import PlainRequest.Proofs.Shell.Spelling
import PlainRequest.Proofs.Text.Cutting

namespace PlainRequest.Curl

open Text Shell

/-! ## A command as a list of words -/

/-- The words `-H` and `name: value` for each header. -/
def headerWords (headers : List (Text × Text)) : List Text :=
  headers.flatMap fun (name, value) => ["-H".toList, Line.ofHeader name value]

/-- **`commandWords head`** — the words that the command for a request is meant to consist of. -/
def commandWords (head : Head) : List Text :=
  ["curl".toList, "-X".toList, head.method.name] ++ headerWords head.headers
    ++ ["-v".toList, "-d".toList, dataOf head.bodyLines, head.url]

/-- A text between double quotes, escaped. -/
def doubled (text : Text) : Text := ['"'] ++ escapeDouble text ++ ['"']

/-- How the command spells the words of the headers. -/
def headerSpellings (headers : List (Text × Text)) : List Text :=
  headers.flatMap fun (name, value) => ["-H".toList, doubled (Line.ofHeader name value)]

/-- How the command spells its words, given a spelling of the URL. -/
def commandSpellings (head : Head) (quotedUrl : Text) : List Text :=
  ["curl".toList, "-X".toList, head.method.name] ++ headerSpellings head.headers
    ++ ["-v".toList, "-d".toList, doubled (dataOf head.bodyLines), quotedUrl]

/-! ## The command is its spellings with a space between them -/

/-- A header option is its two spellings, each behind a space. -/
theorem headerOption_eq (name value : Text) :
    headerOption name value =
      [' '] ++ "-H".toList ++ ([' '] ++ doubled (Line.ofHeader name value)) := by
  delta headerOption doubled
  simp

theorem spaced_headerSpellings (headers : List (Text × Text)) :
    (headerSpellings headers).flatMap ([' '] ++ ·) =
      headers.flatMap fun (name, value) => headerOption name value := by
  simp only [headerSpellings, List.flatMap_assoc, headerOption_eq, List.flatMap_cons,
    List.flatMap_nil, List.append_nil]

-- `delta` and not `unfold`: the equation lemmas of definitions with long literals are slow to make.
theorem commandOf_eq_joinWith (head : Head) (quotedUrl : Text) :
    commandOf head quotedUrl = joinWith [' '] (commandSpellings head quotedUrl) := by
  delta commandOf commandSpellings
  simp only [List.cons_append, joinWith_cons_eq, List.flatMap_append, List.flatMap_cons]
  simp [doubled]
  exact (spaced_headerSpellings head.headers).symm

/-! ## Each spelling spells its word -/

theorem spells_method (method : Method) : Spells method.name method.name := by
  refine spells_bare ?_ ?_ <;> cases method <;> decide

theorem spells_headers (headers : List (Text × Text)) :
    List.Forall₂ Spells (headerSpellings headers) (headerWords headers) := by
  induction headers with
  | nil => exact .nil
  | cons header headers ih =>
      exact .cons (spells_bare (by decide) (by decide)) (.cons (spells_double _) ih)

theorem spells_command {head : Head} {quotedUrl : Text} (h : Spells quotedUrl head.url) :
    List.Forall₂ Spells (commandSpellings head quotedUrl) (commandWords head) := by
  refine List.rel_append (List.rel_append ?_ (spells_headers head.headers)) ?_
  · exact .cons (spells_bare (by decide) (by decide)) (.cons (spells_bare (by decide) (by decide))
      (.cons (spells_method head.method) .nil))
  · exact .cons (spells_bare (by decide) (by decide)) (.cons (spells_bare (by decide) (by decide))
      (.cons (spells_double _) (.cons h .nil)))

/-- **A written command is read as the words it was made from.** -/
theorem words?_commandOf {head : Head} {quotedUrl : Text} (h : quote? head.url = some quotedUrl) :
    words? (commandOf head quotedUrl) = some (commandWords head) := by
  rw [commandOf_eq_joinWith]
  exact words?_joinWith (spells_command (spells_quote? h))

/-! ## When a block has a command -/

theorem ofBlock_of_error {table : Table} {block : List Text} {error : BlockError}
    (h : Head.ofBlock table block = .error error) :
    ofBlock table block = .error (.block error) := by
  simp only [ofBlock, h]
  rfl

/-- Without a NUL in the URL there is a command, and it has the intended words. -/
theorem ofBlock_of_quotable {table : Table} {block : List Text} {head : Head}
    (h : Head.ofBlock table block = .ok head) (hnul : '\x00' ∉ head.url) :
    ∃ quotedUrl, quote? head.url = some quotedUrl ∧
      ofBlock table block = .ok (commandOf head quotedUrl) := by
  cases hquote : quote? head.url with
  | none => exact absurd (quote?_eq_none_iff.mp hquote) hnul
  | some quotedUrl =>
      refine ⟨quotedUrl, rfl, ?_⟩
      simp only [ofBlock, h, hquote]
      rfl

theorem ofBlock_of_unquotable {table : Table} {block : List Text} {head : Head}
    (h : Head.ofBlock table block = .ok head) (hnul : '\x00' ∈ head.url) :
    ofBlock table block = .error (.curl .unquotableUrl) := by
  simp only [ofBlock, h, quote?_eq_none_iff.mpr hnul]
  rfl

/-- A block with a command describes a request, whose URL has the spelling that the command ends
with. -/
theorem exists_commandOf_of_ofBlock {table : Table} {block : List Text} {command : Text}
    (h : ofBlock table block = .ok command) :
    ∃ head quotedUrl, Head.ofBlock table block = .ok head ∧ quote? head.url = some quotedUrl ∧
      command = commandOf head quotedUrl := by
  unfold ofBlock at h
  split at h
  · cases h
  · next head hhead =>
      split at h
      · cases h
      · next quotedUrl hquote => exact ⟨head, quotedUrl, hhead, hquote, (Except.ok.inj h).symm⟩

/-- A block with a command describes a request, and the command has the intended words. -/
theorem words?_of_ofBlock {table : Table} {block : List Text} {command : Text}
    (h : ofBlock table block = .ok command) :
    ∃ head, Head.ofBlock table block = .ok head ∧ '\x00' ∉ head.url ∧
      words? command = some (commandWords head) := by
  obtain ⟨head, quotedUrl, hhead, hquote, rfl⟩ := exists_commandOf_of_ofBlock h
  refine ⟨head, hhead, fun hnul => ?_, words?_commandOf hquote⟩
  rw [quote?_eq_none_iff.mpr hnul] at hquote
  cases hquote

/-- **The command for a block is one well-formed shell command.** A block that describes no request
has no command, for the same reason; a URL with a NUL has none either; and in every other case the
shell reads from the command exactly the words `curl -X method`, `-H "name: value"` for each header
in order, `-v -d data` and the URL, where data or URL may be an empty word. -/
theorem ofBlock_wellFormed (table : Table) (block : List Text) :
    match Request.ofBlock table block with
    | .error error => ofBlock table block = .error (.block error)
    | .ok request =>
        if '\x00' ∈ request.url then ofBlock table block = .error (.curl .unquotableUrl)
        else ∃ head command,
          Head.ofBlock table block = .ok head ∧ ofBlock table block = .ok command ∧
          words? command = some
            (["curl".toList, "-X".toList, request.method.name]
              ++ request.headers.flatMap
                  (fun (name, value) => ["-H".toList, name ++ ": ".toList ++ value])
              ++ ["-v".toList, "-d".toList, joinWith [' '] (head.bodyLines.map trim),
                  request.url]) := by
  rw [Request.ofBlock_eq_map]
  cases hhead : Head.ofBlock table block with
  | error error => exact ofBlock_of_error hhead
  | ok head =>
      simp only [Except.map]
      split
      · next hnul => exact ofBlock_of_unquotable hhead hnul
      · next hnul =>
          obtain ⟨quotedUrl, hquote, hcommand⟩ := ofBlock_of_quotable hhead hnul
          exact ⟨head, commandOf head quotedUrl, rfl, hcommand, words?_commandOf hquote⟩

end PlainRequest.Curl
