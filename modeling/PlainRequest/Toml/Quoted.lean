/-
# PlainRequest.Toml.Quoted — strings between quotation marks

Double quotation marks allow escapes, single ones do not; three of either allow line ends. A line
end directly behind three marks does not count, a backslash at the end of a line takes it away
together with all white space behind it, and up to two marks of the kind may stand directly before
the closing three.
-/

import PlainRequest.Text.Digits

namespace PlainRequest.Toml

open Text

/-- May the character stand in a string or comment? Control characters but the tab may not. -/
def isTextChar (c : Char) : Bool := c = '\t' || (0x20 ≤ c.toNat && c.toNat ≠ 0x7F)

/-- Is it a space or a tab? -/
def isBlankChar (c : Char) : Bool := c = ' ' || c = '\t'

/-- Is it a character of a line end? -/
def isLineEnd (c : Char) : Bool := c = '\n' || c = '\r'

/-- The character that a one-letter escape stands for. -/
def escaped? (c : Char) : Option Char :=
  if c = '"' ∨ c = '\\' then some c
  else if c = 'b' then some '\x08'
  else if c = 't' then some '\t'
  else if c = 'n' then some '\n'
  else if c = 'f' then some '\x0c'
  else if c = 'r' then some '\r'
  else if c = 'e' then some '\x1b'
  else none

/-- How many hexadecimal digits follow the letter of an escape. -/
def escapeWidth? (c : Char) : Option Nat :=
  if c = 'x' then some 2 else if c = 'u' then some 4 else if c = 'U' then some 8 else none

/-- The character with a code point, if it has one. -/
def charOf? (value : Nat) : Option Char :=
  if value < 0xD800 ∨ (0xDFFF < value ∧ value < 0x110000) then some (Char.ofNat value) else none

/-- The character whose code point the first `width` characters spell in hexadecimal. -/
def codeOf? (width : Nat) (text : Text) : Option Char :=
  let digits := text.take width
  if digits.length = width then (natOf? 16 digits).bind charOf? else none

/-- An escape behind its backslash: the character, and what follows. -/
def readEscape? : Text → Option (Char × Text)
  | [] => none
  | c :: rest =>
      match escapeWidth? c with
      | none => (escaped? c).map fun e => (e, rest)
      | some width => (codeOf? width rest).map fun e => (e, rest.drop width)

theorem length_readEscape? {text left : Text} {c : Char} (h : readEscape? text = some (c, left)) :
    left.length < text.length := by
  cases text with
  | nil => simp [readEscape?] at h
  | cons d rest =>
      simp only [readEscape?] at h
      split at h
      · obtain ⟨e, -, heq⟩ := Option.map_eq_some_iff.mp h
        simp only [Prod.mk.injEq] at heq
        simp [heq.2]
      · obtain ⟨e, -, heq⟩ := Option.map_eq_some_iff.mp h
        simp only [Prod.mk.injEq] at heq
        simp only [← heq.2, List.length_drop, List.length_cons]
        omega

/-- Read behind a double quotation mark, up to the closing one. -/
def readBasic? : Text → Option (Text × Text)
  | [] => none
  | c :: rest =>
      if c = '"' then some ([], rest)
      else if c = '\\' then
        match h : readEscape? rest with
        | none => none
        | some (e, left) =>
            have : left.length < rest.length := length_readEscape? h
            (readBasic? left).map fun (text, after) => (e :: text, after)
      else if isTextChar c then (readBasic? rest).map fun (text, after) => (c :: text, after)
      else none
termination_by text => text.length

/-- Read behind a single quotation mark, up to the closing one. -/
def readLiteral? : Text → Option (Text × Text)
  | [] => none
  | c :: rest =>
      if c = '\'' then some ([], rest)
      else if isTextChar c then (readLiteral? rest).map fun (text, after) => (c :: text, after)
      else none

/-- At the closing three marks: those of up to two more that belong to the text, and what follows
them all. -/
def closing? (mark : Char) (text : Text) : Option (Text × Text) := do
  let rest ← stripPrefix? [mark, mark, mark] text
  match stripPrefix? [mark, mark] rest, stripPrefix? [mark] rest with
  | some after, _ => pure ([mark, mark], after)
  | none, some after => pure ([mark], after)
  | none, none => pure ([], rest)

/-- Without a line end at the start. -/
def dropLineEnd : Text → Text
  | '\n' :: rest => rest
  | '\r' :: '\n' :: rest => rest
  | text => text

/-- What follows a backslash at the end of a line, if that is what the text is behind. -/
def afterFold? (text : Text) : Option Text :=
  match text.dropWhile isBlankChar with
  | [] => none
  | c :: rest =>
      if isLineEnd c then some (rest.dropWhile fun d => isBlankChar d || isLineEnd d) else none

theorem length_afterFold? {text left : Text} (h : afterFold? text = some left) :
    left.length < text.length := by
  unfold afterFold? at h
  split at h
  · simp at h
  · next c rest hdrop =>
      split at h
      · simp only [Option.some.injEq] at h
        subst h
        have h1 := length_dropWhile_le (fun d => isBlankChar d || isLineEnd d) rest
        have h2 := length_dropWhile_le isBlankChar text
        rw [hdrop, List.length_cons] at h2
        omega
      · simp at h

/-- Read behind three double quotation marks, up to the closing three. -/
def readLongBasic? : Text → Option (Text × Text)
  | [] => none
  | c :: rest =>
      match closing? '"' (c :: rest) with
      | some ending => some ending
      | none =>
          if c = '\\' then
            match hfold : afterFold? rest with
            | some left =>
                have : left.length < rest.length := length_afterFold? hfold
                readLongBasic? left
            | none =>
                match h : readEscape? rest with
                | none => none
                | some (e, left) =>
                    have : left.length < rest.length := length_readEscape? h
                    (readLongBasic? left).map fun (text, after) => (e :: text, after)
          else if isTextChar c || isLineEnd c then
            (readLongBasic? rest).map fun (text, after) => (c :: text, after)
          else none
termination_by text => text.length

/-- Read behind three single quotation marks, up to the closing three. -/
def readLongLiteral? : Text → Option (Text × Text)
  | [] => none
  | c :: rest =>
      match closing? '\'' (c :: rest) with
      | some ending => some ending
      | none =>
          if isTextChar c || isLineEnd c then
            (readLongLiteral? rest).map fun (text, after) => (c :: text, after)
          else none

/-- Read a string that starts here, of any of the four kinds. -/
def readQuoted? (text : Text) : Option (Text × Text) :=
  match stripPrefix? "\"\"\"".toList text, stripPrefix? "'''".toList text with
  | some rest, _ => readLongBasic? (dropLineEnd rest)
  | none, some rest => readLongLiteral? (dropLineEnd rest)
  | none, none =>
      match text with
      | '"' :: rest => readBasic? rest
      | '\'' :: rest => readLiteral? rest
      | _ => none

/-- Read a key between quotation marks, which stays on one line. -/
def readQuotedKey? : Text → Option (Text × Text)
  | '"' :: rest => readBasic? rest
  | '\'' :: rest => readLiteral? rest
  | _ => none

end PlainRequest.Toml
