/-
# PlainRequest.Text.Terminal — text that is safe to show

A text may hold escape sequences, with which terminals are controlled. What is shown in a message is
the text without them and without other control characters. Tab, line feed, form feed and carriage
return are kept and end a sequence they stand in, but the commands that take a text as their operand
swallow them too.
-/

import PlainRequest.Text.Basic

namespace PlainRequest.Text

/-- What a text is in the middle of. -/
inductive TerminalMode
  /-- Characters to be shown. -/
  | shown
  /-- Behind an escape character. -/
  | escape
  /-- In an escape with more characters to come. -/
  | longEscape
  /-- In a control sequence, which ends with a letter or mark. -/
  | sequence
  /-- In the operand of a command, which the bell may end. -/
  | operand (endsAtBell : Bool)
  deriving DecidableEq, Repr

/-- Is the control character one that is kept? -/
def isKeptControl (c : Char) : Bool := "\t\n\x0c\r".toList.contains c

/-- Does the code point of the character lie between the two? -/
def isBetween (first last : Char) (c : Char) : Bool := first ≤ c && c ≤ last

/-- The mode behind a character that an escape character precedes. -/
def modeOfEscape (c : Char) : TerminalMode :=
  if c = '[' then .sequence
  else if c = ']' then .operand true
  else if "PX^_".toList.contains c then .operand false
  else if isBetween ' ' '/' c then .longEscape
  else if isBetween '0' '~' c then .shown
  else .escape

/-- The mode behind a character that is part of an escape sequence. -/
def modeInside (c : Char) : TerminalMode → TerminalMode
  | .shown => .shown
  | .escape => modeOfEscape c
  | .longEscape => if isBetween '0' '~' c then .shown else .longEscape
  | .sequence => if isBetween '@' '~' c then .shown else .sequence
  | .operand endsAtBell => if endsAtBell && c = '\x07' then .shown else .operand endsAtBell

/-- Read a character: the mode behind it, and whether it is shown. -/
def readTerminal (mode : TerminalMode) (c : Char) : TerminalMode × Bool :=
  if c = '\x1b' then (.escape, false)
  else if c = '\x18' || c = '\x1a' then (.shown, false)
  else
    match mode with
    | .shown => (.shown, isKeptControl c || ' ' ≤ c && c ≠ '\x7f')
    | .operand endsAtBell => (modeInside c (.operand endsAtBell), false)
    | mode => if isKeptControl c then (.shown, true) else (modeInside c mode, false)

/-- The characters that are shown, read from a mode on. -/
def shownFrom (mode : TerminalMode) : Text → Text
  | [] => []
  | c :: rest =>
      let (next, isShown) := readTerminal mode c
      if isShown then c :: shownFrom next rest else shownFrom next rest

/-- The text without what would control a terminal. -/
def shown (text : Text) : Text := shownFrom .shown text

end PlainRequest.Text
