/-
# PlainRequest.Line — the lines of a block, and the blocks of a document

The same line may be read in several ways: `GET http://h` is a request line at the top of a block
and a header line further down. The readings here are therefore independent of each other, and
`PlainRequest.Request.Head` says which of them is asked for where.

A block is a run of lines that are not blank, as long as it can be. A line is named by its index,
counted from zero; a blank line and a line past the end belong to no block.
-/

import PlainRequest.Method
import PlainRequest.Text.Blank

namespace PlainRequest.Line

open Text

/-- A comment starts with `#` in its first column. -/
def isComment (line : Text) : Bool := line.head? = some '#'

/-- The lines that are neither comments nor blank. -/
def significant (lines : List Text) : List Text :=
  lines.filter fun line => ! isComment line && ! isBlank line

/-- The method and the target of a request line: a method name, one space, and all the rest. -/
def request? (line : Text) : Option (Method × Text) := do
  let (name, target) ← splitFirst? ' ' line
  let method ← Method.ofName? name
  pure (method, target)

/-- The characters a header name cannot hold. -/
def delimiters : Text := "()<>@,;:/[]?=".toList ++ ['{', '}']

/-- Can the text stand before the colon of a header line? -/
def isHeaderName (name : Text) : Bool := ! name.isEmpty && name.all (! delimiters.contains ·)

/-- The name and the value of a header line. The value is what follows the first colon, without
the white space it starts with. -/
def header? (line : Text) : Option (Text × Text) := do
  let (name, rest) ← splitFirst? ':' line
  if isHeaderName name then pure (name, trimStart rest) else none

/-- The request line of a method and a target. -/
def ofRequest (method : Method) (target : Text) : Text := method.name ++ [' '] ++ target

/-- The header line of a name and a value. -/
def ofHeader (name value : Text) : Text := name ++ ": ".toList ++ value

/-! ## Reading what was written -/

@[simp] theorem request?_ofRequest (method : Method) (target : Text) :
    request? (ofRequest method target) = some (method, target) := by
  cases method <;> rfl

theorem splitFirst?_append {separator : Char} {before after : Text} (h : separator ∉ before) :
    splitFirst? separator (before ++ separator :: after) = some (before, after) := by
  induction before with
  | nil => simp [splitFirst?]
  | cons c rest ih =>
      simp only [List.mem_cons, not_or] at h
      simp [splitFirst?, Ne.symm h.1, ih h.2]

/-- A header name has no colon. -/
theorem colon_notMem_of_isHeaderName {name : Text} (h : isHeaderName name = true) :
    ':' ∉ name := by
  intro hmem
  simp only [isHeaderName, Bool.and_eq_true, List.all_eq_true] at h
  exact absurd (h.2 ':' hmem) (by decide)

/-- A written header reads back, its value without leading white space. -/
theorem header?_ofHeader {name : Text} (value : Text) (h : isHeaderName name = true) :
    header? (ofHeader name value) = some (name, trimStart value) := by
  have hcut : splitFirst? ':' (ofHeader name value) = some (name, ' ' :: value) := by
    unfold ofHeader
    rw [List.append_assoc]
    exact splitFirst?_append (colon_notMem_of_isHeaderName h)
  have hspace : trimStart (' ' :: value) = trimStart value := by
    simp [trimStart, show isSpace ' ' = true by decide]
  simp [header?, hcut, h, hspace]

/-! ## Significant lines -/

theorem mem_significant {line : Text} {lines : List Text} :
    line ∈ significant lines ↔ line ∈ lines ∧ isComment line = false ∧ isBlank line = false := by
  simp [significant]

/-- Reading the significant lines of significant lines changes nothing. -/
theorem significant_significant (lines : List Text) :
    significant (significant lines) = significant lines := by
  simp [significant]

end PlainRequest.Line

/-! ## Blocks -/

namespace PlainRequest.Document

open Text

/-- The run of non-blank lines around the line at an index; no lines if that line is blank or past
the end. -/
def blockAt (lines : List Text) (index : Nat) : List Text :=
  let here := (lines.drop index).takeWhile (! isBlank ·)
  if here.isEmpty then []
  else ((lines.take index).reverse.takeWhile (! isBlank ·)).reverse ++ here

/-- The index of the first line that is not blank. -/
def firstIndex? (lines : List Text) : Option Nat := lines.findIdx? (! isBlank ·)

/-- A command line without its continuation mark: one backslash at the end, before white space. -/
def dropContinuation (line : Text) : Text :=
  let line := trimEnd line
  trim ((stripSuffix? ['\\'] line).getD line)

/-- The command that lines spell together: their significant lines without continuation marks,
with one space between them. -/
def commandText (lines : List Text) : Text :=
  joinWith [' '] ((Line.significant lines).map dropContinuation)

end PlainRequest.Document
