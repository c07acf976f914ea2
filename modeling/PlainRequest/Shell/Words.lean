/-
# PlainRequest.Shell.Words — the words of a shell command

A command is read one character at a time by an automaton that remembers the words it has finished
and what it is in the middle of. Only space, tab and line feed separate words; `#` opens a comment
where a word could start, and the comment ends with its line. Outside quotes a backslash keeps the
next character as it is and removes a line feed. Between single quotes every character stands for
itself. Between double quotes a backslash keeps `$`, a backquote, `"` and `\` as they are, removes a
line feed, and otherwise stands for itself.

No character is refused on the way. A command is unreadable only if it ends inside quotes or right
behind a backslash.
-/

import PlainRequest.Text.Basic

namespace PlainRequest.Shell

/-- What the automaton is in the middle of. A word so far is kept with its last character first. -/
inductive Mode
  /-- Between words. -/
  | gap
  /-- In a comment. -/
  | comment
  /-- In a word, outside quotes. -/
  | bare (word : Text)
  /-- In a word, behind a backslash outside quotes. -/
  | bareEscape (word : Text)
  /-- In a word, between single quotes. -/
  | single (word : Text)
  /-- In a word, between double quotes. -/
  | double (word : Text)
  /-- In a word, behind a backslash between double quotes. -/
  | doubleEscape (word : Text)
  deriving DecidableEq, Repr

/-- The words that are finished, the last one first, and the mode. -/
structure State where
  finished : List Text
  mode : Mode
  deriving DecidableEq, Repr

namespace State

/-- Nothing has been read. -/
def start : State := ⟨[], .gap⟩

/-- Does the character separate words? -/
def isSeparator (c : Char) : Bool := c = ' ' || c = '\t' || c = '\n'

/-- The mode behind a character of a word, outside quotes. -/
def bareMode (word : Text) (c : Char) : Mode :=
  if c = '"' then .double word
  else if c = '\'' then .single word
  else if c = '\\' then .bareEscape word
  else .bare (c :: word)

/-- Does a backslash between double quotes keep the character as it is? -/
def isQuotable (c : Char) : Bool := c = '$' || c = '`' || c = '"' || c = '\\'

/-- Read one character. -/
def step : State → Char → State
  | ⟨finished, .gap⟩, c =>
      if isSeparator c then ⟨finished, .gap⟩
      else if c = '#' then ⟨finished, .comment⟩
      else ⟨finished, bareMode [] c⟩
  | ⟨finished, .comment⟩, c => ⟨finished, if c = '\n' then .gap else .comment⟩
  | ⟨finished, .bare word⟩, c =>
      if isSeparator c then ⟨word.reverse :: finished, .gap⟩ else ⟨finished, bareMode word c⟩
  | ⟨finished, .bareEscape word⟩, c => ⟨finished, .bare (if c = '\n' then word else c :: word)⟩
  | ⟨finished, .single word⟩, c => ⟨finished, if c = '\'' then .bare word else .single (c :: word)⟩
  | ⟨finished, .double word⟩, c =>
      if c = '\\' then ⟨finished, .doubleEscape word⟩
      else if c = '"' then ⟨finished, .bare word⟩
      else ⟨finished, .double (c :: word)⟩
  | ⟨finished, .doubleEscape word⟩, c =>
      if isQuotable c then ⟨finished, .double (c :: word)⟩
      else if c = '\n' then ⟨finished, .double word⟩
      else ⟨finished, .double (c :: '\\' :: word)⟩

/-- Read a text. -/
def run (state : State) (text : Text) : State := text.foldl step state

/-- The words, once everything is read. -/
def result? : State → Option (List Text)
  | ⟨finished, .gap⟩ | ⟨finished, .comment⟩ => some finished.reverse
  | ⟨finished, .bare word⟩ => some (word.reverse :: finished).reverse
  | ⟨_, _⟩ => none

@[simp] theorem run_nil (state : State) : state.run [] = state := rfl

@[simp] theorem run_cons (state : State) (c : Char) (text : Text) :
    state.run (c :: text) = (state.step c).run text := rfl

/-- Reading two texts in turn is reading them as one. -/
theorem run_append (state : State) (a b : Text) : state.run (a ++ b) = (state.run a).run b :=
  List.foldl_append

end State

/-- The words of a command; nothing if it ends inside quotes or behind a backslash. -/
def words? (command : Text) : Option (List Text) := (State.start.run command).result?

end PlainRequest.Shell
