/-
# PlainRequest.Toml.Reader — configuration texts

A configuration text is a list of headers and of keys with values, one to a line, with comments and
blank lines anywhere between them. Arrays and tables between braces may spread over lines, hold
comments, and end in a comma; they may be nested eighty deep. A byte order mark at the start is
skipped. A carriage return stands only directly before a line feed, which is checked once for the
whole text.

The readers of nested values count down from the length of the text, which they cannot outlast,
since each of their steps takes at least one character.
-/

import PlainRequest.Toml.Quoted
import PlainRequest.Toml.Scalar
import PlainRequest.Toml.Table

namespace PlainRequest.Toml

open Text

/-! ## Between the values -/

/-- Skip spaces and tabs. -/
def skipBlanks (text : Text) : Text := text.dropWhile isBlankChar

/-- Skip white space, line ends and comments; the flag says that a comment is being skipped. -/
def skipGap? (inComment : Bool) : Text → Option Text
  | [] => some []
  | c :: rest =>
      if inComment then
        if c = '\n' then skipGap? false rest
        else if isTextChar c || c = '\r' then skipGap? true rest
        else none
      else if isBlankChar c || isLineEnd c then skipGap? false rest
      else if c = '#' then skipGap? true rest
      else some (c :: rest)

/-- Skip the rest of a line, which may hold only a comment, and the line end. -/
def skipLineEnd? (text : Text) : Option Text :=
  match skipBlanks text with
  | [] => some []
  | '\n' :: rest => some rest
  | '\r' :: '\n' :: rest => some rest
  | '#' :: comment =>
      let line := comment.takeWhile (· ≠ '\n')
      if line.all fun c => isTextChar c || c = '\r' then some (comment.dropWhile (· ≠ '\n')).tail
      else none
  | _ => none

/-! ## Keys -/

/-- May the character stand in a key without quotation marks? -/
def isBareKeyChar (c : Char) : Bool := c.isAlphanum || c = '_' || c = '-'

/-- One part of a key. -/
def readKeyPart? (text : Text) : Option (Text × Text) :=
  match readQuotedKey? text with
  | some read => some read
  | none =>
      let part := text.takeWhile isBareKeyChar
      if part.isEmpty then none else some (part, text.dropWhile isBareKeyChar)

/-- A key: its parts, and what follows it and the blanks behind it. -/
def readKey? : Nat → Text → Option (List Text × Text)
  | 0, _ => none
  | steps + 1, text => do
      let (part, afterPart) ← readKeyPart? (skipBlanks text)
      match skipBlanks afterPart with
      | '.' :: rest => do
          let (parts, left) ← readKey? steps rest
          pure (part :: parts, left)
      | left => pure ([part], left)

/-! ## Values -/

/-- Does the character end a word? -/
def endsWord (c : Char) : Bool :=
  isBlankChar c || isLineEnd c || ",[]#=\"'".toList.contains c || c = '{' || c = '}'

/-- A word without quotation marks. A date takes a time behind one space with it. -/
def readWord (text : Text) : Text × Text :=
  let word := text.takeWhile (! endsWord ·)
  let rest := text.dropWhile (! endsWord ·)
  match rest with
  | ' ' :: c :: more =>
      if isDate word && isDecimal c then
        (word ++ [' '] ++ (c :: more).takeWhile (! endsWord ·),
          (c :: more).dropWhile (! endsWord ·))
      else (word, rest)
  | _ => (word, rest)

/-- How deep arrays and tables between braces may be nested. -/
def maxDepth : Nat := 80

mutual

/-- A value, with the number of containers around it. -/
def readValue? (depth : Nat) : Nat → Text → Option (Toml × Text)
  | 0, _ => none
  | steps + 1, text =>
      match text with
      | '[' :: rest => if depth < maxDepth then readItems? (depth + 1) steps [] rest else none
      | '{' :: rest => if depth < maxDepth then readInline? (depth + 1) steps [] rest else none
      | '"' :: _ | '\'' :: _ =>
          (readQuoted? text).map fun (content, left) => (.string content, left)
      | _ =>
          let (word, left) := readWord text
          (ofWord? word).map fun value => (value, left)

/-- The items of an array, up to its closing bracket; those before are kept last first. -/
def readItems? (depth : Nat) : Nat → List Toml → Text → Option (Toml × Text)
  | 0, _, _ => none
  | steps + 1, items, text =>
      match skipGap? false text with
      | some (']' :: rest) => some (.array items.reverse, rest)
      | some start =>
          match readValue? depth steps start with
          | none => none
          | some (item, afterItem) =>
              match skipGap? false afterItem with
              | some (',' :: rest) => readItems? depth steps (item :: items) rest
              | some (']' :: rest) => some (.array (item :: items).reverse, rest)
              | _ => none
      | none => none

/-- The entries of a table between braces, up to its closing brace. -/
def readInline? (depth : Nat) : Nat → Entries → Text → Option (Toml × Text)
  | 0, _, _ => none
  | steps + 1, entries, text =>
      match skipGap? false text with
      | some ('}' :: rest) => some (.table .inline entries, rest)
      | some start =>
          match readEntry? depth steps start with
          | none => none
          | some (path, key, value, afterValue) =>
              match addValue path key value ⟨.inline, entries⟩, skipGap? false afterValue with
              | some added, some (',' :: rest) => readInline? depth steps added rest
              | some added, some ('}' :: rest) => some (.table .inline added, rest)
              | _, _ => none
      | none => none

/-- A key and its value: the parts of the key before the last, the last part, the value. -/
def readEntry? (depth : Nat) : Nat → Text → Option (List Text × Text × Toml × Text)
  | 0, _ => none
  | steps + 1, text =>
      match readKey? text.length text with
      | some (parts, '=' :: afterEquals) =>
          match parts.getLast?, readValue? depth steps (skipBlanks afterEquals) with
          | some key, some (value, left) => some (parts.dropLast, key, value, left)
          | _, _ => none
      | _ => none

end

/-! ## Texts -/

/-- A header behind its opening bracket: in double brackets or not, its key, and what follows. -/
def readHeader? (text : Text) : Option (Bool × List Text × Text) :=
  match text with
  | '[' :: rest =>
      match readKey? rest.length rest with
      | some (parts, ']' :: ']' :: left) => some (true, parts, left)
      | _ => none
  | _ =>
      match readKey? text.length text with
      | some (parts, ']' :: left) => some (false, parts, left)
      | _ => none

/-- The table of the whole text, read line by line; `header` is the key of the current header. -/
def readLines? : Nat → List Text → Entries → Text → Option Entries
  | 0, _, _, _ => none
  | steps + 1, header, entries, text =>
      match skipGap? false text with
      | none => none
      | some [] => some entries
      | some ('[' :: rest) => do
          let (double, parts, afterHeader) ← readHeader? rest
          let key ← parts.getLast?
          let opened ←
            if double then openRow parts.dropLast key ⟨.header, entries⟩
            else openTable parts.dropLast key ⟨.header, entries⟩
          let left ← skipLineEnd? afterHeader
          readLines? steps parts opened left
      | some start => do
          let (path, key, value, afterValue) ← readEntry? 0 start.length start
          let added ← addUnder header path key value ⟨.header, entries⟩
          let left ← skipLineEnd? afterValue
          readLines? steps header added left

/-- Does every carriage return stand before a line feed? -/
def hasWholeLineEnds : Text → Bool
  | [] => true
  | '\r' :: '\n' :: rest => hasWholeLineEnds rest
  | c :: rest => c ≠ '\r' && hasWholeLineEnds rest

/-- The entries of a configuration text. -/
def ofText? (text : Text) : Option Entries :=
  let text := (stripPrefix? ['\uFEFF'] text).getD text
  if hasWholeLineEnds text then readLines? (text.length + 1) [] [] text else none

end PlainRequest.Toml
